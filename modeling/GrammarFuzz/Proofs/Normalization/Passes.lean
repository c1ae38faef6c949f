import GrammarFuzz.Proofs.Language
import GrammarFuzz.Proofs.Normalization.FreshNames
import Mathlib.Data.List.Forall2
import Mathlib.Logic.Relation

/-!
# Passes over a grammar

A pass converts the expansions of a grammar one after the other and keeps a ledger of
the rules it introduces.  If every conversion introduces fresh symbols only and stays
in a relation to its expansion that later introductions do not disturb, the whole
pass leaves the old rules in their places, related expansion by expansion, and adds
the introduced rules behind them.

The main statement is about languages: a pass whose conversions are sound wherever
the introduced rules hold keeps the language of every symbol.
-/

namespace GrammarFuzz

/-!
## Maps with an accumulator
-/

section Tracking

variable {α β σ : Type}

/--
A step with an accumulator keeps an invariant, moves the accumulator forward, and
relates its result to its argument.
-/
def Tracks (f : σ → α → β × σ) (inv : σ → Prop) (le : σ → σ → Prop) (rel : σ → α → β → Prop)
    (a : α) : Prop :=
  ∀ s, inv s → inv (f s a).2 ∧ le s (f s a).2 ∧ rel (f s a).2 a (f s a).1

variable {f : σ → α → β × σ} {inv : σ → Prop} {le : σ → σ → Prop}

theorem tracks_mapAccum (rel : σ → α → β → Prop) (hrefl : ∀ s, le s s)
    (htrans : ∀ s t u, le s t → le t u → le s u)
    (hmono : ∀ s t a b, le s t → rel s a b → rel t a b) {xs : List α}
    (hf : ∀ a ∈ xs, Tracks f inv le rel a) :
    Tracks (mapAccum f) inv le (fun s => List.Forall₂ (rel s)) xs := by
  induction xs with
  | nil => exact fun s hs => ⟨hs, hrefl s, .nil⟩
  | cons a rest ih =>
      intro s hs
      rcases hf a (by simp) s hs with ⟨hinv, hle, hrel⟩
      rcases ih (fun b hb => hf b (by simp [hb])) (f s a).2 hinv with ⟨hinv', hle', hrel'⟩
      exact ⟨hinv', htrans _ _ _ hle hle', .cons (hmono _ _ _ _ hle' hrel) hrel'⟩

/--
What the accumulator gathers over a step belongs to the result of the step, as far as it
was not there before.
-/
def Owns {ι : Type} (f : σ → α → β × σ) (inv : σ → Prop) (items : σ → List ι)
    (own : σ → β → ι → Prop) (a : α) : Prop :=
  ∀ s, inv s → ∀ i ∈ items (f s a).2, i ∈ items s ∨ own (f s a).2 (f s a).1 i

theorem owns_mapAccum {ι : Type} {items : σ → List ι} {own : σ → β → ι → Prop}
    (rel : σ → α → β → Prop) (hrefl : ∀ s, le s s) (htrans : ∀ s t u, le s t → le t u → le s u)
    (hmono : ∀ s t a b, le s t → rel s a b → rel t a b)
    (hown : ∀ s t b i, le s t → own s b i → own t b i) {xs : List α}
    (hf : ∀ a ∈ xs, Tracks f inv le rel a) (howns : ∀ a ∈ xs, Owns f inv items own a) :
    Owns (mapAccum f) inv items (fun s bs i => ∃ b ∈ bs, own s b i) xs := by
  induction xs with
  | nil => exact fun _ _ _ hi => Or.inl hi
  | cons a rest ih =>
      intro s hs i hi
      have hrest : ∀ b ∈ rest, Tracks f inv le rel b := fun b hb => hf b (by simp [hb])
      have hnext := (hf a (by simp) s hs).1
      have hlater := tracks_mapAccum rel hrefl htrans hmono hrest _ hnext
      rcases ih hrest (fun b hb => howns b (by simp [hb])) _ hnext i hi with hi | ⟨b, hb, hi⟩
      · rcases howns a (by simp) s hs i hi with hi | hi
        · exact Or.inl hi
        · exact Or.inr ⟨_, List.mem_cons_self, hown _ _ _ _ hlater.2.1 hi⟩
      · exact Or.inr ⟨b, List.mem_cons_of_mem _ hb, hi⟩

end Tracking

theorem exists_mem_right_of_forall₂ {α β : Type} {rel : α → β → Prop} {xs : List α}
    {ys : List β} (h : List.Forall₂ rel xs ys) {a : α} (ha : a ∈ xs) : ∃ b ∈ ys, rel a b := by
  induction h with
  | nil => cases ha
  | cons hab _ ih =>
      rcases List.mem_cons.mp ha with rfl | ha
      · exact ⟨_, by simp, hab⟩
      · rcases ih ha with ⟨b, hb, hrel⟩
        exact ⟨b, by simp [hb], hrel⟩

theorem exists_mem_left_of_forall₂ {α β : Type} {rel : α → β → Prop} {xs : List α}
    {ys : List β} (h : List.Forall₂ rel xs ys) {b : β} (hb : b ∈ ys) : ∃ a ∈ xs, rel a b :=
  exists_mem_right_of_forall₂ h.flip hb

namespace Normalization

/-!
## The ledger
-/

def Introduction.rule (intro : Introduction) : Word × List Expansion :=
  (intro.symbol, intro.expansions.map fun text => ⟨text, .empty⟩)

namespace Ledger

/-- The names in use are the introduced ones and those of a grammar, without repetition. -/
structure Accounts (g : Grammar) (ledger : Ledger) : Prop where
  taken : ledger.taken = ledger.newest.map Introduction.symbol ++ g.symbols
  nodup : ledger.taken.Nodup

theorem accounts_ofGrammar (g : Grammar) : Accounts g (ofGrammar g) :=
  ⟨rfl, g.rules.nodup⟩

theorem Accounts.add {g : Grammar} {ledger : Ledger} (h : Accounts g ledger)
    {intro : Introduction} (hfresh : intro.symbol ∉ ledger.taken) :
    Accounts g (ledger.add intro) := by
  refine ⟨?_, List.nodup_cons.mpr ⟨hfresh, h.nodup⟩⟩
  simp [Ledger.add, h.taken]

theorem Accounts.perm {g : Grammar} {ledger : Ledger} (h : Accounts g ledger) :
    List.Perm ledger.taken
      (g.symbols ++ (ledger.introductions.map Introduction.rule).map Prod.fst) := by
  have hsymbols : (ledger.introductions.map Introduction.rule).map Prod.fst =
      (ledger.newest.map Introduction.symbol).reverse := by
    rw [List.map_map, introductions, List.map_reverse]
    rfl
  rw [h.taken, hsymbols]
  exact List.perm_append_comm.trans ((List.reverse_perm _).symm.append_left _)

theorem Accounts.nodup_append {g : Grammar} {ledger : Ledger} (h : Accounts g ledger) :
    (g.symbols ++ (ledger.introductions.map Introduction.rule).map Prod.fst).Nodup :=
  h.perm.nodup_iff.mp h.nodup

def Extends (earlier later : Ledger) : Prop :=
  earlier.newest ⊆ later.newest

theorem extends_refl (ledger : Ledger) : Extends ledger ledger :=
  List.Subset.refl _

theorem extends_trans (first second third : Ledger) (h : Extends first second)
    (h' : Extends second third) : Extends first third :=
  List.Subset.trans h h'

theorem extends_add (ledger : Ledger) (intro : Introduction) : Extends ledger (ledger.add intro) :=
  fun _ h => List.mem_cons_of_mem _ h

/-- What a conversion adds to a ledger: rules of some kind, for fresh symbols. -/
structure Adds (kind : Introduction → Prop) (ledger ledger' : Ledger) : Prop where
  accounts : ∀ g, Accounts g ledger → Accounts g ledger'
  grows : Extends ledger ledger'
  added : ∀ intro ∈ ledger'.newest, intro ∈ ledger.newest ∨ kind intro

theorem adds_refl (kind : Introduction → Prop) (ledger : Ledger) : Adds kind ledger ledger :=
  ⟨fun _ h => h, extends_refl _, fun _ h => Or.inl h⟩

theorem Adds.trans {kind : Introduction → Prop} {first second third : Ledger}
    (h : Adds kind first second) (h' : Adds kind second third) : Adds kind first third := by
  constructor
  · exact fun g hg => h'.accounts g (h.accounts g hg)
  · exact extends_trans _ _ _ h.grows h'.grows
  · intro intro hintro
    rcases h'.added intro hintro with hintro | hkind
    · exact h.added intro hintro
    · exact Or.inr hkind

theorem Adds.mono {kind kind' : Introduction → Prop} {ledger ledger' : Ledger}
    (h : Adds kind ledger ledger') (hkind : ∀ intro, kind intro → kind' intro) :
    Adds kind' ledger ledger' :=
  ⟨h.accounts, h.grows, fun intro hintro => (h.added intro hintro).imp_right (hkind intro)⟩

theorem Adds.and {kind kind' : Introduction → Prop} {ledger ledger' : Ledger}
    (h : Adds kind ledger ledger') (h' : Adds kind' ledger ledger') :
    Adds (fun intro => kind intro ∧ kind' intro) ledger ledger' := by
  refine ⟨h.accounts, h.grows, fun intro hintro => ?_⟩
  rcases h.added intro hintro with hold | hkind
  · exact Or.inl hold
  · exact (h'.added intro hintro).imp_right fun hkind' => ⟨hkind, hkind'⟩

theorem adds_add {kind : Introduction → Prop} {ledger : Ledger} {intro : Introduction}
    (hfresh : intro.symbol ∉ ledger.taken) (hkind : kind intro) :
    Adds kind ledger (ledger.add intro) := by
  refine ⟨fun _ h => h.add hfresh, extends_add _ _, ?_⟩
  intro other hother
  rcases List.mem_cons.mp hother with rfl | hother
  · exact Or.inr hkind
  · exact Or.inl hother

theorem adds_of_run {Step : Word × Ledger → Word × Ledger → Prop} {kind : Introduction → Prop}
    (fine : Word → Prop)
    (hstep : ∀ state state', Step state state' → fine state.1 →
      fine state'.1 ∧ Adds kind state.2 state'.2)
    {state state' : Word × Ledger} (h : Relation.ReflTransGen Step state state')
    (hfine : fine state.1) : fine state'.1 ∧ Adds kind state.2 state'.2 := by
  induction h with
  | refl => exact ⟨hfine, adds_refl _ _⟩
  | tail _ hlast ih =>
      have hnext := hstep _ _ hlast ih.1
      exact ⟨hnext.1, ih.2.trans hnext.2⟩

end Ledger

/-!
## What a pass leaves behind
-/

abbrev Conversion := List Introduction → Expansion → Expansion → Prop

def Conversion.Stable (rel : Conversion) : Prop :=
  ∀ (earlier later : List Introduction) (e e' : Expansion),
    earlier ⊆ later → rel earlier e e' → rel later e e'

def Converts (inv : Ledger → Prop) (convert : Ledger → Expansion → Expansion × Ledger)
    (rel : Conversion) (e : Expansion) : Prop :=
  Tracks convert inv Ledger.Extends (fun ledger => rel ledger.newest) e

def Conversion.OnRule (rel : Conversion) (introductions : List Introduction)
    (old new : Word × List Expansion) : Prop :=
  new.1 = old.1 ∧ List.Forall₂ (rel introductions) old.2 new.2

/-- The rules of a grammar after a pass: the old ones, converted, and the introduced ones. -/
structure Outcome (rel : Conversion) (g : Grammar) (result : Grammar)
    (introductions : List Introduction) : Prop where
  rules : ∃ kept : List (Word × List Expansion),
    result.rules.entries = kept ++ introductions.map Introduction.rule ∧
    List.Forall₂ (rel.OnRule introductions) g.rules.entries kept

theorem Conversion.Stable.onRule {rel : Conversion} (hrel : rel.Stable)
    {earlier later : List Introduction} (hle : earlier ⊆ later) {old new : Word × List Expansion}
    (h : rel.OnRule earlier old new) : rel.OnRule later old new :=
  ⟨h.1, h.2.imp fun _ _ => hrel _ _ _ _ hle⟩

section Run

variable {inv : Ledger → Prop} {convert : Ledger → Expansion → Expansion × Ledger}
  {rel : Conversion} {g : Grammar}

def ruleStep (convert : Ledger → Expansion → Expansion × Ledger) :
    Ledger → Word × List Expansion → (Word × List Expansion) × Ledger :=
  OrderedMap.entryStep fun ledger _ es => mapAccum convert ledger es

def keptRules (convert : Ledger → Expansion → Expansion × Ledger) (g : Grammar) :
    List (Word × List Expansion) :=
  (mapAccum (ruleStep convert) (.ofGrammar g) g.rules.entries).1

def finalLedger (convert : Ledger → Expansion → Expansion × Ledger) (g : Grammar) : Ledger :=
  (mapAccum (ruleStep convert) (.ofGrammar g) g.rules.entries).2

theorem keys_keptRules (convert : Ledger → Expansion → Expansion × Ledger) (g : Grammar) :
    (keptRules convert g).map Prod.fst = g.symbols :=
  OrderedMap.keys_entryStep _ _ _

theorem introductions_finalLedger : (finalLedger convert g).introductions = (pass convert g).2 :=
  rfl

theorem entries_pass (h : (finalLedger convert g).Accounts g) :
    (pass convert g).1.rules.entries =
      keptRules convert g ++ (pass convert g).2.map Introduction.rule := by
  have hnodup : ((keptRules convert g).map Prod.fst ++
      ((finalLedger convert g).introductions.map Introduction.rule).map Prod.fst).Nodup := by
    rw [keys_keptRules]
    exact h.nodup_append
  exact OrderedMap.entries_insertAll hnodup

theorem tracks_ruleStep (hrel : rel.Stable) {rule : Word × List Expansion}
    (hrule : ∀ e ∈ rule.2, Converts inv convert rel e) :
    Tracks (ruleStep convert) inv Ledger.Extends (fun ledger => rel.OnRule ledger.newest) rule := by
  intro ledger hledger
  have h := tracks_mapAccum (fun ledger => rel ledger.newest) Ledger.extends_refl
    Ledger.extends_trans (fun _ _ _ _ hle => hrel _ _ _ _ hle) hrule ledger hledger
  exact ⟨h.1, h.2.1, rfl, h.2.2⟩

theorem tracks_rules (hrel : rel.Stable)
    (hconvert : ∀ rule ∈ g.rules.entries, ∀ e ∈ rule.2, Converts inv convert rel e) :
    Tracks (mapAccum (ruleStep convert)) inv Ledger.Extends
      (fun ledger => List.Forall₂ (rel.OnRule ledger.newest)) g.rules.entries :=
  tracks_mapAccum (fun ledger => rel.OnRule ledger.newest) Ledger.extends_refl
    Ledger.extends_trans (fun _ _ _ _ hle => hrel.onRule hle)
    fun rule hmem => tracks_ruleStep hrel (hconvert rule hmem)

theorem outcome_pass (hinv : ∀ ledger, inv ledger → Ledger.Accounts g ledger)
    (hstart : inv (.ofGrammar g)) (hrel : rel.Stable)
    (hconvert : ∀ rule ∈ g.rules.entries, ∀ e ∈ rule.2, Converts inv convert rel e) :
    Outcome rel g (pass convert g).1 (pass convert g).2 ∧
      ∃ ledger, inv ledger ∧ ledger.introductions = (pass convert g).2 := by
  rcases tracks_rules hrel hconvert (.ofGrammar g) hstart with ⟨hledger, _, hkept⟩
  refine ⟨⟨keptRules convert g, entries_pass (hinv _ hledger), ?_⟩,
    finalLedger convert g, hledger, rfl⟩
  exact hkept.imp fun _ _ => hrel.onRule fun _ hx => List.mem_reverse.mpr hx

theorem exists_owner_of_mem_pass {own : Ledger → Expansion → Introduction → Prop}
    (hinv : ∀ ledger, inv ledger → Ledger.Accounts g ledger) (hstart : inv (.ofGrammar g))
    (hrel : rel.Stable)
    (hown : ∀ earlier later e intro, Ledger.Extends earlier later → own earlier e intro →
      own later e intro)
    (hconvert : ∀ rule ∈ g.rules.entries, ∀ e ∈ rule.2, Converts inv convert rel e)
    (howns : ∀ rule ∈ g.rules.entries, ∀ e ∈ rule.2, Owns convert inv Ledger.newest own e)
    {intro : Introduction} (hintro : intro ∈ (pass convert g).2) :
    ∃ symbol alternatives e, g.defines symbol = true ∧
      (pass convert g).1.expansions? symbol = some alternatives ∧ e ∈ alternatives ∧
      own (finalLedger convert g) e intro := by
  have hrules : ∀ rule ∈ g.rules.entries, Owns (ruleStep convert) inv Ledger.newest
      (fun ledger rule' intro => ∃ e ∈ rule'.2, own ledger e intro) rule := by
    intro rule hrule
    exact owns_mapAccum (fun ledger : Ledger => rel ledger.newest) Ledger.extends_refl
      Ledger.extends_trans (fun _ _ _ _ hle => hrel _ _ _ _ hle) hown (hconvert rule hrule)
      (howns rule hrule)
  have hall := owns_mapAccum (fun ledger : Ledger => rel.OnRule ledger.newest) Ledger.extends_refl
    Ledger.extends_trans (fun _ _ _ _ hle => hrel.onRule hle)
    (fun _ _ _ _ hle h => h.imp fun e he => ⟨he.1, hown _ _ _ _ hle he.2⟩)
    (fun rule hmem => tracks_ruleStep hrel (hconvert rule hmem)) hrules
  rcases tracks_rules hrel hconvert (.ofGrammar g) hstart with ⟨hledger, _, _⟩
  rcases hall (.ofGrammar g) hstart intro (List.mem_reverse.mp hintro) with
    hnone | ⟨⟨symbol, alternatives⟩, hrule, e, he, hintro⟩
  · cases hnone
  · have hsymbol : symbol ∈ g.symbols := by
      rw [← keys_keptRules convert g]
      exact List.mem_map_of_mem (f := Prod.fst) hrule
    refine ⟨symbol, alternatives, e, OrderedMap.contains_iff.mpr hsymbol, ?_, he, hintro⟩
    apply OrderedMap.get?_eq_some_iff.mpr
    rw [entries_pass (hinv _ hledger)]
    exact List.mem_append_left _ hrule

end Run

/-!
## Looking rules up
-/

namespace Outcome

variable {rel : Conversion} {g result : Grammar} {introductions : List Introduction}

theorem kept (h : Outcome rel g result introductions) {symbol : Word} {es : List Expansion}
    (hsymbol : g.expansions? symbol = some es) :
    ∃ es', result.expansions? symbol = some es' ∧ List.Forall₂ (rel introductions) es es' := by
  rcases h.rules with ⟨kept, hentries, hkept⟩
  have hold := OrderedMap.get?_eq_some_iff.mp hsymbol
  rcases exists_mem_right_of_forall₂ hkept hold with ⟨⟨key, es'⟩, hmem, rfl, hes⟩
  refine ⟨es', OrderedMap.get?_eq_some_iff.mpr ?_, hes⟩
  rw [hentries]
  exact List.mem_append_left _ hmem

theorem introduced (h : Outcome rel g result introductions) {intro : Introduction}
    (hintro : intro ∈ introductions) : result.expansions? intro.symbol = some intro.rule.2 := by
  rcases h.rules with ⟨kept, hentries, _⟩
  apply OrderedMap.get?_eq_some_iff.mpr
  rw [hentries]
  exact List.mem_append_right _ (List.mem_map_of_mem hintro)

theorem kept_or_introduced (h : Outcome rel g result introductions) {symbol : Word}
    {es' : List Expansion} (hsymbol : result.expansions? symbol = some es') :
    (∃ es, g.expansions? symbol = some es ∧ List.Forall₂ (rel introductions) es es') ∨
      ∃ intro ∈ introductions, intro.symbol = symbol ∧ es' = intro.rule.2 := by
  rcases h.rules with ⟨kept, hentries, hkept⟩
  have hmem := OrderedMap.get?_eq_some_iff.mp hsymbol
  rw [hentries, List.mem_append] at hmem
  rcases hmem with hmem | hmem
  · rcases exists_mem_left_of_forall₂ hkept hmem with ⟨⟨key, es⟩, hold, rfl, hes⟩
    exact Or.inl ⟨es, OrderedMap.get?_eq_some_iff.mpr hold, hes⟩
  · rcases List.mem_map.mp hmem with ⟨intro, hintro, hrule⟩
    exact Or.inr ⟨intro, hintro, congrArg Prod.fst hrule, (congrArg Prod.snd hrule).symm⟩

theorem defines_of_mem (h : Outcome rel g result introductions) {symbol : Word}
    (hsymbol : symbol ∈ introductions.map Introduction.symbol ++ g.symbols) :
    result.defines symbol = true := by
  apply OrderedMap.contains_iff_exists.mpr
  rcases List.mem_append.mp hsymbol with hsymbol | hsymbol
  · rcases List.mem_map.mp hsymbol with ⟨intro, hintro, rfl⟩
    exact ⟨_, h.introduced hintro⟩
  · rcases OrderedMap.contains_iff_exists.mp (OrderedMap.contains_iff.mpr hsymbol) with ⟨es, hes⟩
    rcases h.kept hes with ⟨es', hes', _⟩
    exact ⟨es', hes'⟩

theorem extended (h : Outcome rel g result introductions) :
    Outcome (fun _ e e' => e' = e) g (g.insertAll (introductions.map Introduction.rule))
      introductions := by
  rcases h.rules with ⟨kept, hentries, hkept⟩
  have hkeys : kept.map Prod.fst = g.symbols := by
    have hfst : List.Forall₂ (· = ·) (kept.map Prod.fst) (g.rules.entries.map Prod.fst) := by
      rw [List.forall₂_map_left_iff, List.forall₂_map_right_iff]
      exact (hkept.imp fun _ _ hrule => hrule.1).flip
    rwa [List.forall₂_eq_eq_eq] at hfst
  have hnodup := result.rules.nodup
  rw [hentries, List.map_append, hkeys] at hnodup
  refine ⟨g.rules.entries, OrderedMap.entries_insertAll hnodup, ?_⟩
  rw [List.forall₂_same]
  exact fun rule _ => ⟨rfl, List.forall₂_same.mpr fun _ _ => rfl⟩

end Outcome

/-!
## Passes that add rules of some kind
-/

section Kinds

variable {convert : Ledger → Expansion → Expansion × Ledger} {g : Grammar}
  {kind : Introduction → Prop}

theorem outcome_of_adds {rel : Expansion → Expansion → Prop}
    (h : ∀ e ∈ g.expansions, ∀ ledger,
      Ledger.Adds kind ledger (convert ledger e).2 ∧ rel e (convert ledger e).1) :
    Outcome (fun _ => rel) g (pass convert g).1 (pass convert g).2 ∧
      ∀ intro ∈ (pass convert g).2, kind intro := by
  have hconvert : ∀ rule ∈ g.rules.entries, ∀ e ∈ rule.2,
      Converts (fun ledger => ledger.Accounts g ∧ ∀ intro ∈ ledger.newest, kind intro) convert
        (fun _ => rel) e := by
    intro rule hrule e he ledger hledger
    rcases h e (Grammar.mem_expansions_of_entry hrule he) ledger with ⟨hadds, hrel⟩
    refine ⟨⟨hadds.accounts g hledger.1, fun intro hintro => ?_⟩, hadds.grows, hrel⟩
    exact (hadds.added intro hintro).elim (hledger.2 intro) id
  rcases outcome_pass (fun _ hledger => hledger.1)
    ⟨Ledger.accounts_ofGrammar g, fun _ hintro => (List.not_mem_nil hintro).elim⟩
    (fun _ _ _ _ _ hrel => hrel) hconvert with ⟨houtcome, ledger, hledger, hintroductions⟩
  refine ⟨houtcome, fun intro hintro => hledger.2 intro ?_⟩
  rw [← hintroductions] at hintro
  exact List.mem_reverse.mp hintro

theorem accounts_of_adds
    (h : ∀ e ∈ g.expansions, ∀ ledger, Ledger.Adds kind ledger (convert ledger e).2) :
    (finalLedger convert g).Accounts g := by
  have hconvert : ∀ rule ∈ g.rules.entries, ∀ e ∈ rule.2,
      Converts (Ledger.Accounts g) convert (fun _ _ _ => True) e := by
    intro rule hrule e he ledger hledger
    have hadds := h e (Grammar.mem_expansions_of_entry hrule he) ledger
    exact ⟨hadds.accounts g hledger, hadds.grows, trivial⟩
  exact (tracks_rules (fun _ _ _ _ _ _ => trivial) hconvert (.ofGrammar g)
    (Ledger.accounts_ofGrammar g)).1

theorem forall_expansions_of_adds {fine : Word → Prop}
    (hkind : ∀ intro, kind intro → ∀ text ∈ intro.expansions, fine text)
    (h : ∀ e ∈ g.expansions, ∀ ledger,
      Ledger.Adds kind ledger (convert ledger e).2 ∧ fine (convert ledger e).1.text) :
    ∀ e ∈ (pass convert g).1.expansions, fine e.text := by
  rcases @outcome_of_adds _ _ _ (fun _ e' => fine e'.text) h with ⟨houtcome, hintroductions⟩
  intro e' he'
  rcases Grammar.mem_expansions_iff.mp he' with ⟨symbol, alternatives', hrule', he'⟩
  rcases houtcome.kept_or_introduced hrule' with
    ⟨alternatives, _, hrelated⟩ | ⟨intro, hintro, _, rfl⟩
  · rcases exists_mem_left_of_forall₂ hrelated he' with ⟨_, _, hfine⟩
    exact hfine
  · rcases List.mem_map.mp he' with ⟨text, htext, rfl⟩
    exact hkind intro (hintroductions intro hintro) text htext

theorem defines_of_adds {fine : Word → Prop}
    (h : ∀ e ∈ g.expansions, ∀ ledger,
      Ledger.Adds kind ledger (convert ledger e).2 ∧ fine (convert ledger e).1.text)
    {symbol : Word} (hsymbol : (pass convert g).1.defines symbol = true) :
    g.defines symbol = true ∨ ∃ intro, kind intro ∧ intro.symbol = symbol := by
  rcases @outcome_of_adds _ _ _ (fun _ e' => fine e'.text) h with ⟨houtcome, hintroductions⟩
  rcases OrderedMap.contains_iff_exists.mp hsymbol with ⟨alternatives, hrule⟩
  rcases houtcome.kept_or_introduced hrule with ⟨es, hes, _⟩ | ⟨intro, hintro, hname, _⟩
  · exact Or.inl (OrderedMap.contains_iff_exists.mpr ⟨es, hes⟩)
  · exact Or.inr ⟨intro, hintroductions intro hintro, hname⟩

end Kinds

/-!
## Languages
-/

def Hold (introductions : List Introduction) (g : Grammar) : Prop :=
  ∀ intro ∈ introductions, g.expansions? intro.symbol = some intro.rule.2

/-- A conversion that is sound, under two readings, wherever the introduced rules hold. -/
def Conversion.Sound (rel : Conversion) (read read' : Reading) : Prop :=
  ∀ introductions e e' (g : Grammar), rel introductions e e' → Hold introductions g →
    g.Alike read (read e.text) (read' e'.text) ∧ g.Alike read' (read e.text) (read' e'.text)

namespace Outcome

variable {rel : Conversion} {g result : Grammar} {introductions : List Introduction}
  {read read' : Reading}

theorem hold (h : Outcome rel g result introductions) : Hold introductions result :=
  fun _ hintro => h.introduced hintro

theorem derives_iff {plain : Grammar}
    (hplain : Outcome (fun _ e e' => e' = e) g plain introductions)
    (h : Outcome rel g result introductions) (hsound : rel.Sound read read')
    (hread : ∀ intro ∈ introductions, ∀ text ∈ intro.expansions, read text = read' text)
    (items : List Item) (w : Word) :
    plain.Derives read items w ↔ result.Derives read' items w := by
  constructor
  · apply Grammar.Derives.transfer_all
    intro symbol alternatives e u hrule he hu
    rcases hplain.kept_or_introduced hrule with ⟨es, hes, hsame⟩ | ⟨intro, hintro, rfl, rfl⟩
    · rcases h.kept hes with ⟨es', hes', hrel⟩
      rcases exists_mem_left_of_forall₂ hsame he with ⟨e₀, he₀, rfl⟩
      rcases exists_mem_right_of_forall₂ hrel he₀ with ⟨e', he', hee'⟩
      have hu' := ((hsound _ _ _ result hee' h.hold).2 u).mp hu
      exact Grammar.Derives.reference_iff.mpr ⟨es', e', hes', he', hu'⟩
    · have hu' : result.Derives read' (read' e.text) u := by
        rcases List.mem_map.mp he with ⟨text, htext, rfl⟩
        rw [← hread intro hintro text htext]
        exact hu
      exact Grammar.Derives.reference_iff.mpr ⟨_, e, h.introduced hintro, he, hu'⟩
  · apply Grammar.Derives.transfer_all
    intro symbol alternatives e' u hrule he' hu
    rcases h.kept_or_introduced hrule with ⟨es, hes, hrel⟩ | ⟨intro, hintro, rfl, rfl⟩
    · rcases hplain.kept hes with ⟨es', hes', hsame⟩
      rcases exists_mem_left_of_forall₂ hrel he' with ⟨e, he, hee'⟩
      rcases exists_mem_right_of_forall₂ hsame he with ⟨e₀, he₀, rfl⟩
      have hu' := ((hsound _ _ _ plain hee' hplain.hold).1 u).mpr hu
      exact Grammar.Derives.reference_iff.mpr ⟨es', e₀, hes', he₀, hu'⟩
    · have hu' : plain.Derives read (read e'.text) u := by
        rcases List.mem_map.mp he' with ⟨text, htext, rfl⟩
        rw [hread intro hintro text htext]
        exact hu
      exact Grammar.Derives.reference_iff.mpr ⟨_, e', hplain.introduced hintro, he', hu'⟩

theorem derives_extended_iff (h : Outcome (fun _ e e' => e' = e) g result introductions)
    (hclosed : ∀ symbol es e, g.expansions? symbol = some es → e ∈ es →
      Item.Within (fun x => g.defines x = true) (read e.text))
    {items : List Item} (hitems : Item.Within (fun x => g.defines x = true) items) (w : Word) :
    result.Derives read items w ↔ g.Derives read items w := by
  have hold : ∀ symbol es e, g.defines symbol = true → result.expansions? symbol = some es →
      e ∈ es → ∃ es', g.expansions? symbol = some es' ∧ e ∈ es' := by
    intro symbol es e hsymbol hrule he
    rcases OrderedMap.contains_iff_exists.mp hsymbol with ⟨es', hes'⟩
    rcases h.kept hes' with ⟨es'', hes'', hsame⟩
    rw [hrule] at hes''
    cases hes''
    rcases exists_mem_left_of_forall₂ hsame he with ⟨e', he', rfl⟩
    exact ⟨es', hes', he'⟩
  constructor
  · refine Grammar.Derives.transfer ?_ ?_ hitems
    · intro symbol es e hsymbol hrule he
      rcases hold symbol es e hsymbol hrule he with ⟨es', hes', he'⟩
      exact hclosed symbol es' e hes' he'
    · intro symbol es e u hsymbol hrule he hu
      rcases hold symbol es e hsymbol hrule he with ⟨es', hes', he'⟩
      exact Grammar.Derives.reference_iff.mpr ⟨es', e, hes', he', hu⟩
  · apply Grammar.Derives.transfer_all
    intro symbol es e u hrule he hu
    rcases h.kept hrule with ⟨es', hes', hsame⟩
    rcases exists_mem_right_of_forall₂ hsame he with ⟨e', he', rfl⟩
    exact Grammar.Derives.reference_iff.mpr ⟨es', _, hes', he', hu⟩

theorem language_eq (h : Outcome rel g result introductions) (hsound : rel.Sound read read')
    (hread : ∀ intro ∈ introductions, ∀ text ∈ intro.expansions, read text = read' text)
    (hclosed : ∀ symbol es e, g.expansions? symbol = some es → e ∈ es →
      Item.Within (fun x => g.defines x = true) (read e.text))
    {symbol : Word} (hsymbol : g.defines symbol = true) :
    result.language read' symbol = g.language read symbol := by
  have hplain := h.extended
  have hitems : Item.Within (fun x => g.defines x = true) [.reference symbol] :=
    .reference hsymbol .nil
  apply Set.ext
  intro w
  exact (hplain.derives_iff h hsound hread _ w).symm.trans
    (hplain.derives_extended_iff hclosed hitems w)

end Outcome

end Normalization
end GrammarFuzz
