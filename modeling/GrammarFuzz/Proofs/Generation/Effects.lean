import GrammarFuzz.Proofs.Generation.Soundness

/-!
# The effect of a step

A step in a tree touches one of its open nodes and nothing else.  What stands there
afterwards are the nodes of a single alternative that the policy admits, as the strategy has
processed them.  Strategies may choose what they like: a choice that is out of range counts
as the last one, so that a step fails for a symbol without alternatives only.
-/

namespace GrammarFuzz

/-!
## Policies
-/

def Grammar.Admits (g : Grammar) (symbol : Word) (alternatives : List Expansion) :
    Policy → Expansion → Prop
  | .random, e => e ∈ alternatives
  | .cheapest, e => e ∈ alternatives ∧
      ∀ other ∈ alternatives, g.textCost [symbol] e.text ≤ g.textCost [symbol] other.text
  | .dearest, e => e ∈ alternatives ∧
      ∀ other ∈ alternatives, g.textCost [symbol] other.text ≤ g.textCost [symbol] e.text

namespace Grower

variable {σ : Type} {f : Grower σ} {policy : Policy} {symbol : Word}
  {alternatives : List Expansion}

theorem mem_withCost_priced (hexact : f.costs.Exact f.grammar)
    (hrule : f.grammar.expansions? symbol = some alternatives) {cost : Cost} {e : Expansion} :
    e ∈ withCost (f.priced symbol alternatives) cost ↔
      e ∈ alternatives ∧ f.grammar.textCost [symbol] e.text = cost := by
  rw [mem_withCost, priced_eq hexact hrule, List.mem_map]
  constructor
  · intro h
    rcases h with ⟨e', he', heq⟩
    cases heq
    exact ⟨he', rfl⟩
  · intro h
    rcases h with ⟨he, rfl⟩
    exact ⟨e, he, rfl⟩

theorem mem_admitted_iff (hexact : f.costs.Exact f.grammar)
    (hrule : f.grammar.expansions? symbol = some alternatives) {e : Expansion} :
    e ∈ f.admitted policy symbol alternatives ↔
      f.grammar.Admits symbol alternatives policy e := by
  let costs := (f.priced symbol alternatives).map Prod.fst
  have hcosts : costs = alternatives.map fun e => f.grammar.textCost [symbol] e.text := by
    show (f.priced symbol alternatives).map Prod.fst = _
    rw [priced_eq hexact hrule, List.map_map]
    rfl
  have hmem : ∀ other ∈ alternatives, f.grammar.textCost [symbol] other.text ∈ costs := by
    intro other hother
    rw [hcosts]
    exact List.mem_map_of_mem hother
  have hattained : ∀ cost ∈ costs, ∃ other ∈ alternatives,
      f.grammar.textCost [symbol] other.text = cost := by
    intro cost hcost
    rw [hcosts] at hcost
    exact List.mem_map.mp hcost
  cases policy with
  | random => exact Iff.rfl
  | cheapest =>
      refine (mem_withCost_priced hexact hrule).trans (and_congr_right fun he => ?_)
      constructor
      · intro heq other hother
        rw [heq]
        exact Cost.minimum_le (hmem other hother)
      · intro hleast
        rcases hattained _ (Cost.minimum_mem (List.ne_nil_of_mem (hmem e he))) with
          ⟨other, hother, hcost⟩
        exact Cost.le_antisymm (hcost ▸ hleast other hother) (Cost.minimum_le (hmem e he))
  | dearest =>
      refine (mem_withCost_priced hexact hrule).trans (and_congr_right fun he => ?_)
      constructor
      · intro heq other hother
        rw [heq]
        exact Cost.le_maximum (hmem other hother)
      · intro hgreatest
        rcases hattained _ (Cost.maximum_mem (List.ne_nil_of_mem (hmem e he))) with
          ⟨other, hother, hcost⟩
        exact Cost.le_antisymm (Cost.le_maximum (hmem e he)) (hcost ▸ hgreatest other hother)

/-!
## One step
-/

/--
What comes of a step at the place of an open node: an error about its symbol, which has no
alternatives, or the tree with the processed nodes of an admitted alternative in its place.
The strategy has picked that alternative; where it leaves the nodes alone, the text of the
alternative replaces the symbol.
-/
def Touches (f : Grower σ) (policy : Policy) (place : Tree.Place) (symbol : Word) :
    EStateM.Result GenerationError (Journaled (State σ)) Tree → Prop
  | .error error _ => error = .undefinedSymbol symbol ∧
      (f.grammar.expansions? symbol = none ∨ f.grammar.expansions? symbol = some [])
  | .ok t s => ∃ alternatives e nodes choices,
      f.grammar.expansions? symbol = some alternatives ∧
      f.grammar.Admits symbol alternatives policy e ∧
      f.Picks symbol (f.admitted policy symbol alternatives) choices e nodes s.state.choices ∧
      t = Tree.graft place (.expanded symbol nodes) ∧
      (nodes = childrenOf e.text → t.frontier = place.lead ++ (e.text ++ place.trail))

theorem touches_expandLeaf (hexact : f.costs.Exact f.grammar) (place : Tree.Place)
    (symbol : Word) (s : Journaled (State σ)) :
    f.Touches policy place symbol
      ((f.expandLeaf policy symbol >>= fun t => pure (Tree.graft place t)) s) := by
  cases halternatives : (f.grammar.expansions? symbol).getD [] with
  | nil =>
      have herror : (f.expandLeaf policy symbol >>= fun t => pure (Tree.graft place t)) s =
          .error (.undefinedSymbol symbol) s :=
        Action.bind_of_error (expandLeaf_of_no_alternatives halternatives s) _
      rw [herror]
      refine ⟨rfl, ?_⟩
      cases hrule : f.grammar.expansions? symbol with
      | none => exact Or.inl rfl
      | some alternatives =>
          rw [hrule] at halternatives
          exact Or.inr (congrArg some halternatives)
  | cons first rest =>
      have hrule := Grammar.expansions?_of_getD halternatives
      rcases @attains_expandLeaf _ f policy _ _ hrule (by simp) s.state.choices s rfl with
        ⟨_, s', hrun, e, nodes, hpicks, rfl⟩
      rw [Action.bind_of_ok hrun]
      refine ⟨_, e, nodes, _, hrule, (mem_admitted_iff hexact hrule).mp hpicks.mem, hpicks,
        rfl, ?_⟩
      intro hnodes
      rw [hnodes, Tree.frontier_graft, Tree.frontier_expanded_childrenOf]

/--
A step leaves a tree without open nodes alone, and the strategy is not asked.  In any other
tree it touches a single open node; all the nodes above it have an open node below them.
-/
theorem step_touches_one_leaf (hcosts : f.costs = .onDemand ∨ f.costs = .tabulate f.grammar)
    (policy : Policy) (t : Tree) (s : Journaled (State σ)) :
    (t.isOpen = false → f.expandSomewhere policy t s = .ok t s) ∧
      (t.isOpen = true → ∃ place symbol,
        t = Tree.graft place (.unexpanded symbol) ∧
        t.frontier = place.lead ++ (symbol ++ place.trail) ∧
        (∀ outer inner, place = outer ++ inner →
          (Tree.graft inner (.unexpanded symbol)).isOpen = true) ∧
        f.Touches policy place symbol (f.expandSomewhere policy t s)) := by
  have hexact := Pricing.exact_of_eq hcosts
  constructor
  · intro hclosed
    rw [expandSomewhere_of_closed hclosed]
    rfl
  · intro hopen
    rcases f.exists_place policy t hopen s with ⟨place, symbol, s', rfl, hrun⟩
    refine ⟨place, symbol, rfl, Tree.frontier_graft place _, ?_, ?_⟩
    · exact fun outer inner _ => Tree.isOpen_graft_unexpanded inner symbol
    · rw [hrun]
      exact touches_expandLeaf hexact place symbol s'

theorem nestedGrammar_step :
    let made := ofChecked nestedGrammar {} firstChoice ()
    let t := Tree.expanded startSymbol (childrenOf ('(' :: startSymbol ++ [')']))
    let s : Journaled (State Unit) := ⟨made.2, []⟩
    made.1.costs = .onDemand ∧ t.isOpen = true ∧
      (∃ place symbol, t = Tree.graft place (.unexpanded symbol) ∧
        made.1.Touches .cheapest place symbol (made.1.expandSomewhere .cheapest t s)) ∧
      (Tree.terminal ['x']).isOpen = false ∧
      made.1.expandSomewhere .cheapest (Tree.terminal ['x']) s = .ok (Tree.terminal ['x']) s := by
  intro made t s
  have hcosts : made.1.costs = .onDemand ∨ made.1.costs = .tabulate made.1.grammar := Or.inl rfl
  have hopen := (step_touches_one_leaf hcosts .cheapest t s).2 rfl
  rcases hopen with ⟨place, symbol, hplace, _, _, htouches⟩
  have hclosed := (step_touches_one_leaf hcosts .cheapest (Tree.terminal ['x']) s).1 rfl
  exact ⟨rfl, rfl, ⟨place, symbol, hplace, htouches⟩, rfl, hclosed⟩

end Grower
end GrammarFuzz
