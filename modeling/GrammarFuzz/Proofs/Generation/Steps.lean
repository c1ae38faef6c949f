import GrammarFuzz.Proofs.Costs
import GrammarFuzz.Proofs.Generation.Places
import GrammarFuzz.Proofs.Generation.Runs

/-!
# Steps of generation

Expanding a leaf replaces it by the nodes of an admitted alternative, after the
strategy has had its say; it fails for a symbol without alternatives only.  A step in a
tree replaces one of its open nodes in this way, and a phase keeps whatever its steps
keep.  All of this holds from every state, so that it also holds in any run.
-/

namespace GrammarFuzz

/-!
## Candidates
-/

namespace Grower

variable {σ : Type} {f : Grower σ}

theorem map_snd_priced (symbol : Word) (alternatives : List Expansion) :
    (f.priced symbol alternatives).map Prod.snd = alternatives := by
  apply List.ext_getElem?
  intro i
  rw [priced, List.getElem?_map, List.getElem?_mapIdx]
  cases alternatives[i]? with
  | none => rfl
  | some e => rfl

theorem mem_withCost {costed : List (Cost × Expansion)} {cost : Cost} {e : Expansion} :
    e ∈ withCost costed cost ↔ (cost, e) ∈ costed := by
  simp [withCost]

theorem admitted_subset {policy : Policy} {symbol : Word} {alternatives : List Expansion} :
    f.admitted policy symbol alternatives ⊆ alternatives := by
  intro e he
  have hsnd : ∀ cost, (cost, e) ∈ f.priced symbol alternatives → e ∈ alternatives := by
    intro cost hmem
    rw [← map_snd_priced (f := f) symbol alternatives]
    exact List.mem_map_of_mem hmem
  cases policy with
  | random => exact he
  | cheapest => exact hsnd _ (mem_withCost.mp he)
  | dearest => exact hsnd _ (mem_withCost.mp he)

theorem admitted_ne_nil {policy : Policy} {symbol : Word} {alternatives : List Expansion}
    (h : alternatives ≠ []) : f.admitted policy symbol alternatives ≠ [] := by
  have hcosts : (f.priced symbol alternatives).map Prod.fst ≠ [] := by
    intro hnil
    rw [List.map_eq_nil_iff] at hnil
    rw [← map_snd_priced (f := f) symbol alternatives, hnil] at h
    exact h rfl
  have hsome : ∀ cost, cost ∈ (f.priced symbol alternatives).map Prod.fst →
      withCost (f.priced symbol alternatives) cost ≠ [] := by
    intro cost hcost
    rcases List.mem_map.mp hcost with ⟨⟨cost', e⟩, hmem, rfl⟩
    exact List.ne_nil_of_mem (mem_withCost.mpr hmem)
  cases policy with
  | random => exact h
  | cheapest => exact hsome _ (Cost.minimum_mem hcosts)
  | dearest => exact hsome _ (Cost.maximum_mem hcosts)

/-!
## One node
-/

abbrev Processing := Expansion → List Tree → Prop

def Processes (f : Grower σ) (processing : Processing) : Prop :=
  ∀ e choices, processing e ((f.strategy.process (childrenOf e.text) e).run choices).1

def Expands (f : Grower σ) (processing : Processing) (policy : Policy) (symbol : Word)
    (t : Tree) : Prop :=
  ∃ alternatives e nodes, f.grammar.expansions? symbol = some alternatives ∧
    e ∈ f.admitted policy symbol alternatives ∧ processing e nodes ∧ t = .expanded symbol nodes

def Undefined (f : Grower σ) (symbols : List Word) (error : GenerationError) : Prop :=
  ∃ symbol ∈ symbols, error = .undefinedSymbol symbol ∧
    (f.grammar.expansions? symbol).getD [] = []

variable {processing : Processing} {policy : Policy}

/--
Whether a strategy, left with some candidates for a symbol, picks one of them and goes on
with some nodes in its place.  The last choices are those that are left.
-/
def Picks (f : Grower σ) (symbol : Word) (candidates : List Expansion) (choices : σ)
    (e : Expansion) (nodes : List Tree) (later : σ) : Prop :=
  ∃ chosen between,
    (f.strategy.chooseExpansion symbol (candidates.map fun e => childrenOf e.text)).run choices =
      (chosen, between) ∧
    candidates[min chosen (candidates.length - 1)]? = some e ∧
    (f.strategy.process (childrenOf e.text) e).run between = (nodes, later)

theorem Picks.mem {symbol : Word} {candidates : List Expansion} {choices later : σ}
    {e : Expansion} {nodes : List Tree} (h : f.Picks symbol candidates choices e nodes later) :
    e ∈ candidates := by
  rcases h with ⟨chosen, between, _, hpicked, _⟩
  exact List.mem_of_getElem? hpicked

theorem Picks.nodes_eq {symbol : Word} {candidates : List Expansion} {choices later : σ}
    {e : Expansion} {nodes : List Tree} (h : f.Picks symbol candidates choices e nodes later) :
    ∃ between, (f.strategy.process (childrenOf e.text) e).run between = (nodes, later) := by
  rcases h with ⟨chosen, between, _, _, hprocess⟩
  exact ⟨between, hprocess⟩

theorem attains_expandLeaf {symbol : Word} {alternatives : List Expansion}
    (hrule : f.grammar.expansions? symbol = some alternatives) (hne : alternatives ≠ [])
    (choices : σ) :
    Step.Attains (f.expandLeaf policy symbol) choices fun t later => ∃ e nodes,
      f.Picks symbol (f.admitted policy symbol alternatives) choices e nodes later ∧
        t = .expanded symbol nodes := by
  let candidates := f.admitted policy symbol alternatives
  have hpos : 0 < candidates.length := List.length_pos_iff.mpr (admitted_ne_nil hne)
  unfold expandLeaf
  rw [hrule, Option.getD_some, if_neg (by simpa using hne)]
  refine .after_record (.bind (.lookUp _) ?_)
  intro _ _ hlookup
  rcases hlookup with ⟨rfl, rfl⟩
  refine .after_consult (.bind (.settle _ _ _) ?_)
  intro index _ hsettled
  rcases hsettled with ⟨hindex, rfl⟩
  rw [List.length_map] at hindex
  have hlt : index < candidates.length :=
    hindex ▸ Nat.lt_of_le_of_lt (Nat.min_le_right _ _) (Nat.sub_one_lt_of_lt hpos)
  have hpicked : candidates[index]? = some candidates[index] := List.getElem?_eq_getElem hlt
  have hcandidate : (candidates.zip (candidates.map fun e => childrenOf e.text))[index]? =
      some (candidates[index], childrenOf candidates[index].text) := by
    rw [List.getElem?_eq_getElem (by simpa using hlt), List.getElem_zip, List.getElem_map]
  rw [hcandidate]
  exact .after_consult (.pure ⟨_, _, ⟨_, _, rfl, hindex ▸ hpicked, rfl⟩, rfl⟩)

theorem expandLeaf_of_no_alternatives {symbol : Word}
    (h : (f.grammar.expansions? symbol).getD [] = []) (s : Journaled (State σ)) :
    f.expandLeaf policy symbol s = .error (.undefinedSymbol symbol) s := by
  unfold expandLeaf
  rw [h]
  rfl

theorem ensures_expandLeaf (hprocess : f.Processes processing) (symbol : Word) :
    Action.Ensures (f.expandLeaf policy symbol) (f.Expands processing policy symbol)
      (f.Undefined [symbol]) := by
  cases halternatives : (f.grammar.expansions? symbol).getD [] with
  | nil =>
      intro s
      rw [expandLeaf_of_no_alternatives halternatives s]
      exact ⟨symbol, List.mem_singleton.mpr rfl, rfl, halternatives⟩
  | cons first rest =>
      have hrule := Grammar.expansions?_of_getD halternatives
      apply Step.Attains.ensures
      intro choices
      refine (attains_expandLeaf hrule (by simp) choices).mono ?_
      intro t later hpicks
      rcases hpicks with ⟨e, nodes, hpicks, rfl⟩
      rcases hpicks.nodes_eq with ⟨between, hbetween⟩
      have hnodes := hprocess e between
      rw [hbetween] at hnodes
      exact ⟨_, e, nodes, hrule, hpicks.mem, hnodes, rfl⟩

/-!
## One step in a tree
-/

theorem Undefined.mono {symbols symbols' : List Word} (hsubset : symbols ⊆ symbols')
    {error : GenerationError} (h : f.Undefined symbols error) : f.Undefined symbols' error := by
  rcases h with ⟨symbol, hsymbol, herror⟩
  exact ⟨symbol, hsubset hsymbol, herror⟩

theorem ensures_expandSomewhere (hprocess : f.Processes processing) (t : Tree)
    (ht : t.isOpen = true) :
    Action.Ensures (f.expandSomewhere policy t) (Tree.Replaces (f.Expands processing policy) t)
      (f.Undefined t.openSymbols) := by
  intro s
  rcases f.exists_place policy t ht s with ⟨place, symbol, s', rfl, hrun⟩
  rw [hrun]
  have hleaf := (@ensures_expandLeaf _ f _ policy hprocess symbol).mono (fun _ h => h)
    fun _ h => h.mono (Tree.openSymbols_subset_graft place (.unexpanded symbol))
  exact hleaf.bind (fun u hu => .pure (Tree.replaces_graft hu place)) s'

/-!
## Phases
-/

theorem expandUntil_of_finished {policy : Policy} {limit : Option Nat} {t : Tree}
    (h : unfinished limit t = false) (steps : Nat) :
    f.expandUntil policy limit steps t = pure t := by
  cases steps with
  | zero => rw [expandUntil, if_neg (by simp [h])]
  | succ steps => rw [expandUntil, if_neg (by simp [h])]

def Keeps (f : Grower σ) (processing : Processing) (policy : Policy) (inv : Tree → Prop) : Prop :=
  ∀ t t', inv t → Tree.Replaces (f.Expands processing policy) t t' → inv t'

def PhaseFails (f : Grower σ) (inv : Tree → Prop) (error : GenerationError) : Prop :=
  error = .outOfSteps ∨ ∃ t, inv t ∧ f.Undefined t.openSymbols error

theorem ensures_expandUntil (hprocess : f.Processes processing) {inv : Tree → Prop}
    (hinv : f.Keeps processing policy inv) {limit : Option Nat} {steps : Nat} {t : Tree}
    (ht : inv t) :
    Action.Ensures (f.expandUntil policy limit steps t)
      (fun t' => inv t' ∧ unfinished limit t' = false) (f.PhaseFails inv) := by
  induction steps generalizing t with
  | zero =>
      unfold expandUntil
      split
      · exact .throw (Or.inl rfl)
      · rename_i hfinished
        exact .pure ⟨ht, Bool.eq_false_iff.mpr hfinished⟩
  | succ steps ih =>
      unfold expandUntil
      split
      · rename_i hunfinished
        rw [unfinished, Bool.and_eq_true] at hunfinished
        have hstep : Action.Ensures (f.expandSomewhere policy t)
            (Tree.Replaces (f.Expands processing policy) t) (f.PhaseFails inv) :=
          (ensures_expandSomewhere hprocess t hunfinished.1).mono (fun _ h => h)
            fun _ h => Or.inr ⟨t, ht, h⟩
        exact .bind hstep fun t' ht' => .after_record (ih (hinv t t' ht ht'))
      · rename_i hfinished
        exact .pure ⟨ht, Bool.eq_false_iff.mpr hfinished⟩

theorem ensures_complete (hprocess : f.Processes processing) {inv : Tree → Prop}
    (hinv : ∀ policy, f.Keeps processing policy inv) (steps : Nat) {t : Tree} (ht : inv t) :
    Action.Ensures (f.complete steps t) (fun t' => inv t' ∧ t'.isOpen = false)
      (f.PhaseFails inv) := by
  unfold complete
  refine .after_record (.bind (ensures_expandUntil hprocess (hinv _) ht) fun t₁ ht₁ => ?_)
  refine .after_record (.bind (ensures_expandUntil hprocess (hinv _) ht₁.1) fun t₂ ht₂ => ?_)
  refine .after_record (.bind (ensures_expandUntil hprocess (hinv _) ht₂.1) fun t₃ ht₃ => ?_)
  have hclosed : t₃.isOpen = false := by
    have hfinished := ht₃.2
    rwa [unfinished, Option.all_none, Bool.and_true] at hfinished
  rw [if_pos (Tree.openCount_eq_zero_iff.mpr hclosed)]
  exact .pure ⟨ht₃.1, hclosed⟩

end Grower
end GrammarFuzz
