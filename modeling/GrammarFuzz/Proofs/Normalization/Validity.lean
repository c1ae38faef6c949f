import GrammarFuzz.Proofs.Normalization.References
import GrammarFuzz.Proofs.Validation

/-!
# Normalization keeps grammars valid

A pass whose conversions carry the references of all texts along leaves a valid grammar
valid: old chains of references become longer, and an introduced symbol is at the end of
a chain from the expansion that it has been introduced for.  The pass over operators
always does so.  The pass over groups does so unless it tears a name apart.
-/

namespace GrammarFuzz
namespace Normalization

/-- A conversion of texts that carries their references along, as far as they are kept. -/
def Carrying (keeps : Word → Word → Prop) (convert : Ledger → Expansion → Expansion × Ledger) :
    Prop :=
  ∀ ledger e, ∃ kept : Word → Prop, (∀ x, keeps e.text x → kept x) ∧
    Carries kept (e.text, ledger) ((convert ledger e).1.text, (convert ledger e).2)

/-- Whether the replacement of groups in a text leaves a name whole. -/
def Whole (text name : Word) : Prop :=
  Operand.groups text ≠ [] → Indivisible name

instance (text name : Word) : Decidable (Whole text name) :=
  inferInstanceAs (Decidable (Operand.groups text ≠ [] → Indivisible name))

theorem carrying_replaceGroups : Carrying Whole replaceGroups := by
  intro ledger e
  by_cases hgroups : Operand.groups e.text = []
  · refine ⟨fun _ => True, fun _ _ => trivial, ?_⟩
    rw [replaceGroups_of_groups_eq_nil hgroups]
    exact .refl _ _
  · exact ⟨Indivisible, fun x hx => hx hgroups,
      .of_run (fun _ _ => GroupStep.carries) (run_replaceGroups ledger e)⟩

theorem carrying_replaceRepetitions : Carrying (fun _ _ => True) replaceRepetitions :=
  fun ledger e => ⟨fun _ => True, fun _ _ => trivial,
    .of_run (fun _ _ => RepetitionStep.carries) (run_replaceRepetitions ledger e)⟩

structure Ledger.Referring (g : Grammar) (ledger : Ledger) : Prop where
  accounts : Accounts g ledger
  nonempty : ∀ intro ∈ ledger.newest, intro.expansions ≠ []
  content : ∀ intro ∈ ledger.newest, ∀ text ∈ intro.expansions, ∀ x ∈ references text,
    (∃ e ∈ g.expansions, x ∈ e.references) ∨ x ∈ ledger.newest.map Introduction.symbol

theorem Ledger.referring_ofGrammar (g : Grammar) : Referring g (ofGrammar g) :=
  ⟨accounts_ofGrammar g, fun _ h => (List.not_mem_nil h).elim,
    fun _ h => (List.not_mem_nil h).elim⟩

structure Carried (keeps : Word → Word → Prop) (introductions : List Introduction)
    (e e' : Expansion) : Prop where
  sound : ∀ x ∈ e'.references, x ∈ e.references ∨ x ∈ introductions.map Introduction.symbol
  carried : ∀ x ∈ e.references, keeps e.text x →
    ∀ g, Hold introductions g → Leads (fun _ => True) g e'.text x

theorem carried_stable (keeps : Word → Word → Prop) : Conversion.Stable (Carried keeps) := by
  intro earlier later e e' hle h
  constructor
  · exact fun x hx => (h.sound x hx).imp_right fun hmem => List.map_subset _ hle hmem
  · exact fun x hx hkeeps g hold => h.carried x hx hkeeps g fun intro hintro =>
      hold intro (hle hintro)

def Ledger.LeadsTo (ledger : Ledger) (e : Expansion) (intro : Introduction) : Prop :=
  ∀ g, Hold ledger.newest g → Leads (fun _ => True) g e.text intro.symbol

section Pass

variable {keeps : Word → Word → Prop} {convert : Ledger → Expansion → Expansion × Ledger}
  {g : Grammar}

theorem converts_of_carrying (h : Carrying keeps convert) {e : Expansion}
    (he : e ∈ g.expansions) : Converts (Ledger.Referring g) convert (Carried keeps) e := by
  intro ledger hledger
  rcases h ledger e with ⟨kept, hkept, hcarries⟩
  refine ⟨⟨hcarries.adds.accounts g hledger.accounts, ?_, ?_⟩, hcarries.adds.grows, hcarries.sound,
    fun x hx hkeeps g' hold => (hcarries.carried x hx (hkept x hkeeps) g' hold).weaken⟩
  · exact fun intro hintro => (hcarries.adds.added intro hintro).elim (hledger.nonempty intro) id
  · intro intro hintro text htext x hx
    rcases hcarries.contents intro hintro with hold | hnew
    · exact (hledger.content intro hold text htext x hx).imp_right fun hmem =>
        List.map_subset _ hcarries.adds.grows hmem
    · exact (hnew text htext x hx).imp_left fun hmem => ⟨e, he, hmem⟩

theorem outcome_of_carrying (h : Carrying keeps convert) :
    Outcome (Carried keeps) g (pass convert g).1 (pass convert g).2 ∧
      ∃ ledger : Ledger, ledger.Referring g ∧ ledger.introductions = (pass convert g).2 :=
  outcome_pass (fun _ hledger => hledger.accounts) (Ledger.referring_ofGrammar g)
    (carried_stable keeps)
    fun _ hrule _ he => converts_of_carrying h (Grammar.mem_expansions_of_entry hrule he)

theorem referenced_of_carrying (h : Carrying keeps convert) {x : Word} {e : Expansion}
    (he : e ∈ g.expansions) (hx : x ∈ e.references) (hkeeps : keeps e.text x) :
    ∃ e' ∈ (pass convert g).1.expansions, x ∈ e'.references := by
  rcases @outcome_of_carrying _ _ g h with ⟨houtcome, _⟩
  rcases Grammar.mem_expansions_iff.mp he with ⟨symbol, alternatives, hrule, he⟩
  rcases houtcome.kept hrule with ⟨alternatives', hrule', hrelated⟩
  rcases exists_mem_right_of_forall₂ hrelated he with ⟨e', he', hcarried⟩
  have hmem := Grammar.mem_expansions_iff.mpr ⟨symbol, alternatives', hrule', he'⟩
  rcases hcarried.carried x hx hkeeps _ houtcome.hold with ⟨y, hy, _, hreaches⟩
  rcases hreaches.referenced with rfl | hreferenced
  · exact ⟨e', hmem, hy⟩
  · exact hreferenced

theorem reaches_of_carrying (h : Carrying keeps convert)
    (hkeeps : ∀ e ∈ g.expansions, ∀ x ∈ e.references, keeps e.text x) {origin symbol : Word}
    (hreaches : g.Reaches origin symbol) : (pass convert g).1.Reaches origin symbol := by
  rcases @outcome_of_carrying _ _ g h with ⟨houtcome, _⟩
  refine Relation.reflTransGen_closed ?_ _ _ hreaches
  intro a b hrefers
  rcases hrefers with ⟨alternatives, e, hrule, he, hb⟩
  rcases houtcome.kept hrule with ⟨alternatives', hrule', hrelated⟩
  rcases exists_mem_right_of_forall₂ hrelated he with ⟨e', he', hcarried⟩
  have hmem := Grammar.mem_expansions_iff.mpr ⟨a, alternatives, hrule, he⟩
  rcases hcarried.carried b hb (hkeeps e hmem b hb) _ houtcome.hold with ⟨y, hy, _, hyb⟩
  exact .head ⟨alternatives', e', hrule', he', hy⟩ hyb

theorem exists_reaches_introduced (h : Carrying keeps convert) {intro : Introduction}
    (hintro : intro ∈ (pass convert g).2) :
    ∃ symbol, g.defines symbol = true ∧ (pass convert g).1.Reaches symbol intro.symbol := by
  have hlater : ∀ earlier later e intro, Ledger.Extends earlier later →
      earlier.LeadsTo e intro → later.LeadsTo e intro :=
    fun _ _ _ _ hle h g' hold => h g' fun intro hintro => hold intro (hle hintro)
  have howns : ∀ e, Owns convert (Ledger.Referring g) Ledger.newest Ledger.LeadsTo e := by
    intro e ledger _ intro hintro
    rcases h ledger e with ⟨kept, _, hcarries⟩
    exact (hcarries.owned intro hintro).imp_right fun hleads g' hold => (hleads g' hold).weaken
  rcases @outcome_of_carrying _ _ g h with ⟨houtcome, _⟩
  rcases exists_owner_of_mem_pass (fun _ hledger => hledger.accounts)
    (Ledger.referring_ofGrammar g) (carried_stable keeps) hlater
    (fun _ hrule _ he => converts_of_carrying h (Grammar.mem_expansions_of_entry hrule he))
    (fun _ _ e _ => howns e) hintro with
    ⟨symbol, alternatives, e, hsymbol, hrule, he, howned⟩
  have hold : Hold (finalLedger convert g).newest (pass convert g).1 :=
    fun intro hintro => houtcome.hold intro (List.mem_reverse.mpr hintro)
  rcases howned _ hold with ⟨y, hy, _, hreaches⟩
  exact ⟨symbol, hsymbol, .head ⟨alternatives, e, hrule, he, hy⟩ hreaches⟩

theorem defines_of_carrying (h : Carrying keeps convert) {symbol : Word}
    (hsymbol : g.defines symbol = true) : (pass convert g).1.defines symbol = true :=
  (@outcome_of_carrying _ _ g h).1.defines_of_mem
    (List.mem_append_right _ (OrderedMap.contains_iff.mp hsymbol))

theorem alternatives_of_carrying (h : Carrying keeps convert)
    (halternatives : ∀ rule ∈ g.rules.entries, rule.2 ≠ []) :
    ∀ rule ∈ (pass convert g).1.rules.entries, rule.2 ≠ [] := by
  intro rule hrule
  rcases @outcome_of_carrying _ _ g h with ⟨houtcome, ledger, hledger, hintroductions⟩
  rcases houtcome.kept_or_introduced (OrderedMap.get?_eq_some_iff.mpr hrule) with
    ⟨es, hes, hrelated⟩ | ⟨intro, hintro, _, hes⟩
  · have hne := halternatives _ (OrderedMap.get?_eq_some_iff.mp hes)
    intro hnil
    rw [hnil, List.forall₂_nil_right_iff] at hrelated
    exact hne hrelated
  · rw [← hintroductions] at hintro
    rw [hes, Introduction.rule]
    simpa using hledger.nonempty intro (List.mem_reverse.mp hintro)

theorem defined_of_carrying (h : Carrying keeps convert)
    (hdefined : ∀ e ∈ g.expansions, ∀ symbol ∈ e.references, g.defines symbol = true) :
    ∀ e ∈ (pass convert g).1.expansions, ∀ symbol ∈ e.references,
      (pass convert g).1.defines symbol = true := by
  rcases @outcome_of_carrying _ _ g h with ⟨houtcome, ledger, hledger, hintroductions⟩
  have hintroduced : ∀ symbol, symbol ∈ (pass convert g).2.map Introduction.symbol →
      (pass convert g).1.defines symbol = true := fun symbol hsymbol =>
    houtcome.defines_of_mem (List.mem_append_left _ hsymbol)
  intro e' he' x hx
  rcases Grammar.mem_expansions_iff.mp he' with ⟨symbol, alternatives', hrule', he'⟩
  rcases houtcome.kept_or_introduced hrule' with
    ⟨alternatives, hrule, hrelated⟩ | ⟨intro, hintro, _, rfl⟩
  · rcases exists_mem_left_of_forall₂ hrelated he' with ⟨e, he, hcarried⟩
    have hmem := Grammar.mem_expansions_iff.mpr ⟨symbol, alternatives, hrule, he⟩
    rcases hcarried.sound x hx with hold | hnew
    · exact defines_of_carrying h (hdefined e hmem x hold)
    · exact hintroduced x hnew
  · rcases List.mem_map.mp he' with ⟨text, htext, rfl⟩
    rw [← hintroductions] at hintro
    rcases hledger.content intro (List.mem_reverse.mp hintro) text htext x hx with
      ⟨e, he, hold⟩ | hnew
    · exact defines_of_carrying h (hdefined e he x hold)
    · apply hintroduced x
      rw [← hintroductions, Ledger.introductions, List.map_reverse]
      exact List.mem_reverse.mpr hnew

theorem reached_of_carrying (h : Carrying keeps convert)
    (hkeeps : ∀ e ∈ g.expansions, ∀ x ∈ e.references, keeps e.text x) {start : Word}
    (hreached : ∀ symbol, g.defines symbol = true →
      ∃ origin ∈ g.origins start, g.Reaches origin symbol) :
    ∀ symbol, (pass convert g).1.defines symbol = true →
      ∃ origin ∈ (pass convert g).1.origins start, (pass convert g).1.Reaches origin symbol := by
  have hold : ∀ symbol, g.defines symbol = true →
      ∃ origin ∈ (pass convert g).1.origins start,
        (pass convert g).1.Reaches origin symbol := by
    intro symbol hsymbol
    rcases hreached symbol hsymbol with ⟨origin, horigin, hreaches⟩
    refine ⟨origin, ?_, reaches_of_carrying h hkeeps hreaches⟩
    rw [Grammar.mem_origins_iff] at horigin ⊢
    exact horigin.imp_right fun ⟨heq, hstart⟩ => ⟨heq, defines_of_carrying h hstart⟩
  rcases @outcome_of_carrying _ _ g h with ⟨houtcome, _⟩
  intro symbol hsymbol
  rcases OrderedMap.contains_iff_exists.mp hsymbol with ⟨alternatives, hrule⟩
  rcases houtcome.kept_or_introduced hrule with ⟨es, hes, _⟩ | ⟨intro, hintro, rfl, _⟩
  · exact hold symbol (OrderedMap.contains_iff_exists.mpr ⟨es, hes⟩)
  · rcases exists_reaches_introduced h hintro with ⟨owner, howner, hreaches⟩
    rcases hold owner howner with ⟨origin, horigin, hlead⟩
    exact ⟨origin, horigin, hlead.trans hreaches⟩

theorem valid_of_carrying (h : Carrying keeps convert) {start : Word} (hvalid : g.Valid start)
    (hkeeps : ∀ e ∈ g.expansions, ∀ x ∈ e.references, keeps e.text x) :
    (pass convert g).1.Valid start where
  alternatives := alternatives_of_carrying h hvalid.alternatives
  root := defines_of_carrying h hvalid.root
  defined := defined_of_carrying h hvalid.defined
  reached := reached_of_carrying h hkeeps hvalid.reached

end Pass
end Normalization

/--
Normalization leaves a valid grammar valid, and a loader that accepts rules as they are
accepts their normal form, unless a group begins or ends inside the name of a referenced
non-terminal.
-/
theorem Grammar.isValid_normalize {g : Grammar}
    (hwhole : ∀ e ∈ g.expansions, ∀ symbol ∈ e.references, Normalization.Whole e.text symbol)
    (start : Word) :
    (g.isValid start none = true → g.normalize.isValid start none = true) ∧
      ∀ supported g', (LoadOptions.build ⟨false, start, supported⟩ g).1 = .ok g' →
        (LoadOptions.build ⟨true, start, supported⟩ g).1 = .ok g.normalize := by
  have hnormalize : g.Valid start → g.normalize.Valid start := fun hvalid =>
    Normalization.valid_of_carrying Normalization.carrying_replaceRepetitions
      (Normalization.valid_of_carrying Normalization.carrying_replaceGroups hvalid hwhole)
      fun _ _ _ _ => trivial
  constructor
  · exact fun h => isValid_iff.mpr (hnormalize (isValid_iff.mp h))
  · intro supported g' h
    rcases LoadOptions.build_eq_ok_iff.mp h with ⟨hstart, rfl, hvalid⟩
    exact LoadOptions.build_eq_ok_iff.mpr ⟨hstart, rfl, hnormalize hvalid⟩

def nestedGroupGrammar : Grammar :=
  .ofRules [(startSymbol, [⟨.ofString "((<a>(,<b(c)>)*)?;)+", .empty⟩]),
    (.ofString "<a>", [⟨.ofString "x", .empty⟩, ⟨.ofString "<c)+>?", .empty⟩]),
    (.ofString "<b(c)>", [⟨.ofString "y", .empty⟩]),
    (.ofString "<c)+>", [⟨.ofString "z", .empty⟩])]

theorem nestedGroupGrammar_isValid_normalize :
    (∀ e ∈ nestedGroupGrammar.expansions, ∀ symbol ∈ e.references,
      Normalization.Whole e.text symbol) ∧
    nestedGroupGrammar.isValid startSymbol none = true ∧
    nestedGroupGrammar.normalize.isValid startSymbol none = true ∧
    (LoadOptions.build ⟨true, startSymbol, none⟩ nestedGroupGrammar).1 =
      .ok nestedGroupGrammar.normalize := by
  have hwhole : ∀ e ∈ nestedGroupGrammar.expansions, ∀ symbol ∈ e.references,
      Normalization.Whole e.text symbol := by decide
  have hvalid : nestedGroupGrammar.isValid startSymbol none = true := by decide
  have hbuild : (LoadOptions.build ⟨false, startSymbol, none⟩ nestedGroupGrammar).1 =
      .ok nestedGroupGrammar :=
    LoadOptions.build_eq_ok_iff.mpr ⟨by decide, rfl, Grammar.isValid_iff.mp hvalid⟩
  have h := Grammar.isValid_normalize hwhole startSymbol
  exact ⟨hwhole, hvalid, h.1 hvalid, h.2 none _ hbuild⟩

def tornGrammar : Grammar :=
  .ofRules [(startSymbol, [⟨.ofString "<a(b)?c>", .empty⟩]),
    (.ofString "<a(b)?c>", [⟨.ofString "x", .empty⟩])]

theorem tornGrammar_isValid_normalize :
    tornGrammar.isValid startSymbol none = true ∧
      tornGrammar.normalize.isValid startSymbol none = false := by
  decide

end GrammarFuzz
