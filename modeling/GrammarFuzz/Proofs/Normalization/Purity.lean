import GrammarFuzz.Proofs.Normalization.Closings
import GrammarFuzz.Proofs.Normalization.Hygiene

/-!
# Normal forms

Normalization is done if no expansion contains an operand, and then it changes nothing.
The rounds over groups go on until none is left, but operators are looked for once.  What
is left behind is therefore pure if no operand bears a second operator behind the first,
and if two copies of a symbol under an operator make no group, since the rules for the
operator write them side by side.
-/

namespace GrammarFuzz

/-- Whether two copies of a symbol make no group. -/
def Repeatable (symbol : Word) : Prop :=
  Operand.groups (symbol ++ symbol) = []

theorem repeatable_enclose_iff {inner : Word} :
    Repeatable (Brackets.angle.enclose inner) ↔
      endsGroup false inner = false ∧ endsGroup (opensGroup false inner) inner = false := by
  rw [Repeatable, groups_eq_nil_iff, endsGroup_enclose_append, endsGroup_enclose,
    Bool.or_eq_false_iff]

namespace Normalization

theorem numbered_repeatable : Numbered Repeatable := by
  intro inner symbol hinner hvariant
  rcases hvariant.exists_enclose with ⟨suffix, hsuffix, rfl⟩
  rw [repeatable_enclose_iff] at hinner ⊢
  rw [(hsuffix.groupState_append _ _).1, (hsuffix.groupState_append _ _).1,
    (hsuffix.groupState_append _ _).2]
  exact hinner

theorem repeatable_groupName : Repeatable groupName :=
  (@repeatable_enclose_iff groupStem).mpr (by decide)

/-!
## What the steps preserve
-/

section Steps

variable {state state' : Word × Ledger}

theorem GroupStep.single (h : GroupStep state state') (hsingle : singleOperators state.1 = true) :
    singleOperators state'.1 = true ∧
      Ledger.Adds (fun intro => ∀ text ∈ intro.expansions,
        singleOperators text = true ∧ Operand.groups text = []) state.2 state'.2 := by
  cases h with
  | @replace u v inner name op ledger hinner hangle hround hname =>
      rcases (singleOperators_operand (Or.inr rfl) op u v).mp hsingle with
        ⟨hu, hcontent, hahead, hv⟩
      have hplain : singleOperators name = true :=
        singleOperators_of_not_mem (fun hmem => (hangle _ hmem).2.1 rfl)
          (fits_round_iff.mp hround).2
      refine ⟨(singleOperators_operand (Or.inl rfl) op u v).mpr ⟨hu, hplain, hahead, hv⟩,
        Ledger.adds_add (not_mem_of_freshName hname) ?_⟩
      intro text htext
      cases List.mem_singleton.mp htext
      exact ⟨hcontent, groups_eq_nil_of_count (List.count_eq_zero.mpr (fits_round_iff.mp hinner).1)⟩

theorem RepetitionStep.length (h : RepetitionStep state state')
    (hsingle : singleOperators state.1 = true) :
    singleOperators state'.1 = true ∧
      (Operand.repetitions state'.1).length + 1 = (Operand.repetitions state.1).length := by
  cases h with
  | @replace u v base name op ledger hbase hangle hname =>
      rcases (singleOperators_operand (Or.inl rfl) op u v).mp hsingle with ⟨hu, hinner, hahead, hv⟩
      rcases exists_suffix_of_freshName hname with ⟨suffix, rfl, hsuffix⟩
      constructor
      · rw [singleOperators_append rfl, singleOperators_enclose hahead,
          hsuffix.singleOperators_append_eq, hu, hinner, hv]
        rfl
      · have hold := @Operand.allIn_append_text .angle ⟨.angle, base, op⟩ rfl rfl hbase u v
        have hnew := Operand.repetitions_append_enclose hangle hahead u
        have hlength := congrArg List.length hold
        rw [List.length_append, List.length_cons, ← Nat.add_assoc, ← List.length_append] at hlength
        exact (congrArg (List.length · + 1) hnew).trans hlength.symm

theorem RepetitionStep.groups (h : RepetitionStep state state')
    (hgroups : Operand.groups state.1 = []) (hbears : Bears Repeatable state.1) :
    Operand.groups state'.1 = [] ∧
      Ledger.Adds (fun intro => ∀ text ∈ intro.expansions,
        Operand.groups text = [] ∧ Operand.repetitions text = []) state.2 state'.2 := by
  cases h with
  | @replace u v base name op ledger hbase hangle hname =>
      have hrepeatable : Repeatable (Brackets.angle.enclose base) :=
        hbears ⟨.angle, base, op⟩
          ((Operand.mem_repetitions_append_text hbase).mpr (Or.inr (Or.inl rfl)))
      rw [repeatable_enclose_iff] at hrepeatable
      rcases exists_suffix_of_freshName hname with ⟨suffix, rfl, hsuffix⟩
      have hstate := hsuffix.groupState_append
      have hmark : ∀ opened, endsGroup opened (op.mark :: v) = endsGroup opened v := by
        intro opened
        rw [endsGroup, if_neg op.mark_ne.2.2.1, if_neg op.mark_ne.2.2.2]
      constructor
      · rw [groups_eq_nil_iff] at hgroups ⊢
        rw [Operand.text, Operand.base, List.append_assoc, List.singleton_append,
          endsGroup_append rfl, endsGroup_enclose_append, hmark] at hgroups
        rw [endsGroup_append rfl, endsGroup_enclose_append, (hstate _ _).1, (hstate _ _).2]
        exact hgroups
      · refine Ledger.adds_add (not_mem_of_freshName hname) fun text htext => ?_
        refine ⟨?_, repetitions_operatorExpansions hbase hangle htext⟩
        rw [groups_eq_nil_iff]
        rcases mem_operatorExpansions_iff.mp htext with ⟨rfl, _⟩ | ⟨rfl, _⟩ | ⟨rfl, _⟩
        · rfl
        · rw [endsGroup_enclose, hrepeatable.1]
        · rw [endsGroup_enclose_append, endsGroup_enclose, (hstate _ _).1, hrepeatable.1,
            hrepeatable.2]
          rfl

end Steps

/-!
## What the passes leave behind
-/

theorem length_repetitions_foldl {xs : List Operand} {state : Word × Ledger}
    (hsingle : singleOperators state.1 = true)
    (hxs : List.Subperm xs (Operand.repetitions state.1)) :
    (Operand.repetitions (xs.foldl replaceRepetition state).1).length + xs.length =
      (Operand.repetitions state.1).length := by
  induction xs generalizing state with
  | nil => rfl
  | cons x xs ih =>
      have hx : x ∈ Operand.repetitions state.1 := hxs.subset List.mem_cons_self
      have hstep := (repetitionStep_of_mem hx).length hsingle
      have hrest := ih hstep.1 (subperm_of_cons rfl hxs _)
      rw [List.foldl_cons, List.length_cons]
      omega

theorem repetitions_replaceRepetitions {e : Expansion} (hsingle : singleOperators e.text = true)
    (ledger : Ledger) : Operand.repetitions (replaceRepetitions ledger e).1.text = [] := by
  have hlength := @length_repetitions_foldl _ (e.text, ledger) hsingle (List.Subperm.refl _)
  exact List.length_eq_zero_iff.mp (Nat.add_eq_right.mp hlength)

end Normalization

/-- A text in which each operand bears one operator and may be repeated. -/
structure Tidy (text : Word) : Prop where
  single : singleOperators text = true
  repeatable : Normalization.Bears Repeatable text

instance (text : Word) : Decidable (Tidy text) :=
  decidable_of_iff (singleOperators text = true ∧
    ∀ x ∈ Operand.repetitions text, Operand.groups (x.base ++ x.base) = [])
    ⟨fun h => ⟨h.1, h.2⟩, fun h => ⟨h.single, h.repeatable⟩⟩

structure IsPure (text : Word) : Prop where
  groups : Operand.groups text = []
  repetitions : Operand.repetitions text = []

namespace Normalization

variable {g : Grammar}

theorem tidy_replaceGroups {e : Expansion} (h : Tidy e.text) (ledger : Ledger) :
    Ledger.Adds (fun intro => ∀ text ∈ intro.expansions, Tidy text ∧ Operand.groups text = [])
        ledger (replaceGroups ledger e).2 ∧
      Tidy (replaceGroups ledger e).1.text ∧
        Operand.groups (replaceGroups ledger e).1.text = [] := by
  have hrun := run_replaceGroups ledger e
  have hsingle := Ledger.adds_of_run (fun text => singleOperators text = true)
    (fun _ _ hstep => hstep.single) hrun h.single
  have hcoins := coins_replaceGroups numbered_repeatable (fun _ => repeatable_groupName)
    h.repeatable ledger
  refine ⟨(hsingle.2.and hcoins.1).mono ?_, ⟨hsingle.1, hcoins.2⟩, groups_replaceGroups ledger e⟩
  intro intro hintro text htext
  exact ⟨⟨(hintro.1 text htext).1, hintro.2.bears text htext⟩, (hintro.1 text htext).2⟩

theorem pure_replaceRepetitions {e : Expansion} (h : Tidy e.text)
    (hgroups : Operand.groups e.text = []) (ledger : Ledger) :
    Ledger.Adds (fun intro => ∀ text ∈ intro.expansions, IsPure text)
        ledger (replaceRepetitions ledger e).2 ∧
      IsPure (replaceRepetitions ledger e).1.text := by
  have hstep : ∀ state state', RepetitionStep state state' →
      Operand.groups state.1 = [] ∧ Bears Repeatable state.1 →
      (Operand.groups state'.1 = [] ∧ Bears Repeatable state'.1) ∧
        Ledger.Adds (fun intro => ∀ text ∈ intro.expansions, IsPure text) state.2 state'.2 := by
    intro state state' hstep hstate
    have hnext := hstep.groups hstate.1 hstate.2
    refine ⟨⟨hnext.1, (hstep.coins numbered_repeatable hstate.2).1⟩, hnext.2.mono ?_⟩
    exact fun intro hintro text htext => ⟨(hintro text htext).1, (hintro text htext).2⟩
  have hrun := Ledger.adds_of_run (fun text => Operand.groups text = [] ∧ Bears Repeatable text)
    hstep (run_replaceRepetitions ledger e) ⟨hgroups, h.repeatable⟩
  exact ⟨hrun.2, hrun.1.1, repetitions_replaceRepetitions h.single ledger⟩

theorem pure_of_mem_normalize (h : ∀ e ∈ g.expansions, Tidy e.text) :
    ∀ e ∈ g.normalize.expansions, IsPure e.text := by
  have htidy : ∀ e ∈ (groupPass g).1.expansions, Tidy e.text ∧ Operand.groups e.text = [] :=
    forall_expansions_of_adds (fun _ hintro => hintro) fun e he => tidy_replaceGroups (h e he)
  exact forall_expansions_of_adds (fun _ hintro => hintro) fun e he =>
    pure_replaceRepetitions (htidy e he).1 (htidy e he).2

/-!
## Passes without operands
-/

theorem pass_eq_self {convert : Ledger → Expansion → Expansion × Ledger}
    (h : ∀ e ∈ g.expansions, ∀ ledger, convert ledger e = (e, ledger)) :
    pass convert g = (g, []) := by
  have hrules : mapAccum (ruleStep convert) (.ofGrammar g) g.rules.entries =
      (g.rules.entries, .ofGrammar g) := by
    apply mapAccum_eq_self
    intro rule hrule
    have hexpansions : mapAccum convert (.ofGrammar g) rule.2 = (rule.2, .ofGrammar g) :=
      mapAccum_eq_self fun e he => h e (Grammar.mem_expansions_of_entry hrule he) _
    rw [ruleStep, OrderedMap.entryStep, hexpansions]
  have hledger : finalLedger convert g = .ofGrammar g := congrArg Prod.snd hrules
  have hnone : (pass convert g).2 = [] := by
    rw [← introductions_finalLedger, hledger]
    rfl
  have hsame : (pass convert g).1 = g := by
    apply Grammar.eq_of_entries_eq
    rw [entries_pass (hledger ▸ Ledger.accounts_ofGrammar g), hnone, keptRules, hrules]
    exact List.append_nil _
  exact Prod.ext hsame hnone

theorem run_of_pure (h : ∀ e ∈ g.expansions, IsPure e.text) : run g = (g, []) := by
  have hgroups : groupPass g = (g, []) :=
    pass_eq_self fun e he _ => replaceGroups_of_groups_eq_nil (h e he).groups
  have hoperators : operatorPass g = (g, []) := by
    apply pass_eq_self
    intro e he ledger
    rw [replaceRepetitions, (h e he).repetitions]
    rfl
  rw [run, hgroups]
  dsimp only
  rw [hoperators]
  rfl

end Normalization

/--
If each operand bears one operator and may be repeated, nothing is left to normalize
after normalization.  Normalizing again changes nothing, and a grammar that has been
loaded with normalization is loaded unchanged from where it has been written to.
-/
theorem Grammar.normalize_normalize {g : Grammar} (h : ∀ e ∈ g.expansions, Tidy e.text) :
    (∀ e ∈ g.normalize.expansions, IsPure e.text) ∧ g.normalize.normalize = g.normalize ∧
      ∀ (options : LoadOptions) (written : Grammar) (source : Source), options.normalize = true →
        (options.build g).1 = .ok written → source.read = .ok written →
        (options.load [source]).1 = .ok written := by
  have hpure := Normalization.pure_of_mem_normalize h
  have hrun := Normalization.run_of_pure hpure
  have hsame : g.normalize.normalize = g.normalize := by
    show (Normalization.run g.normalize).1 = g.normalize
    rw [hrun]
  refine ⟨hpure, hsame, ?_⟩
  intro options written source hnormalize hbuild hread
  have hprepare : ∀ g' : Grammar, (options.prepare g').1 = g'.normalize := by
    intro g'
    rw [LoadOptions.prepare, if_pos hnormalize]
    rfl
  rcases LoadOptions.build_eq_ok_iff.mp hbuild with ⟨_, hwritten, hvalid⟩
  have hagain : written = (options.prepare written).1 := by
    rw [hwritten, hprepare, hprepare, hsame]
  rw [LoadOptions.load_singleton hread]
  exact LoadOptions.build_eq_ok_iff.mpr ⟨hvalid.root, hagain, hvalid⟩

def operandGrammar : Grammar :=
  .ofRules [(startSymbol, [⟨.ofString "(<a>?(,<b-1>+)*)?;(x", .empty⟩]),
    (.ofString "<a>", [⟨.ofString "<b-1>+,?*)?", .ofList [(.ofString "weight", .int 2)]⟩]),
    (.ofString "<b-1>", [⟨.ofString "<a> ?<c)*>*", .empty⟩]),
    (.ofString "<c)*>", [⟨.ofString "z", .empty⟩])]

theorem operandGrammar_normalize_normalize :
    (∀ e ∈ operandGrammar.expansions, Tidy e.text) ∧
      (∀ e ∈ operandGrammar.normalize.expansions, IsPure e.text) ∧
      operandGrammar.normalize.normalize = operandGrammar.normalize ∧
      (LoadOptions.load ⟨true, startSymbol, none⟩ [.grammar operandGrammar.normalize]).1 =
        .ok operandGrammar.normalize := by
  have htidy : ∀ e ∈ operandGrammar.expansions, Tidy e.text := by decide
  have hvalid : operandGrammar.normalize.isValid startSymbol none = true := by decide
  have hbuild : (LoadOptions.build ⟨true, startSymbol, none⟩ operandGrammar).1 =
      .ok operandGrammar.normalize :=
    LoadOptions.build_eq_ok_iff.mpr ⟨by decide, rfl, Grammar.isValid_iff.mp hvalid⟩
  have h := Grammar.normalize_normalize htidy
  exact ⟨htidy, h.1, h.2.1, h.2.2 _ _ (.grammar operandGrammar.normalize) rfl hbuild rfl⟩

def doubledGrammar : Grammar :=
  .ofRules [(startSymbol, [⟨.ofString "<a>?+", .empty⟩]),
    (.ofString "<a>", [⟨.ofString "x", .empty⟩])]

theorem doubledGrammar_normalize :
    (∃ e ∈ doubledGrammar.normalize.expansions, Operand.repetitions e.text ≠ []) ∧
      doubledGrammar.normalize.normalize ≠ doubledGrammar.normalize := by
  refine ⟨by decide, fun h => ?_⟩
  have hsize := congrArg Grammar.size h
  revert hsize
  decide

end GrammarFuzz
