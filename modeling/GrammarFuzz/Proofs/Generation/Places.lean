import GrammarFuzz.Proofs.Actions
import GrammarFuzz.Proofs.Derivations
import GrammarFuzz.Generation.Growth

/-!
# The place of a step

The place of a node in a tree is given by the nodes above it, each of them with the children
on both sides of the way down.  A step in a tree is a step at the place of one open node:
once the strategy has chosen the way down, the leaf is expanded, and what comes of it is put
in its place.
-/

namespace GrammarFuzz

namespace Tree

/-- A node on the way down, with its children on both sides of the way. -/
structure Level where
  symbol : Word
  before : List Tree
  behind : List Tree

abbrev Place := List Level

def graft : Place → Tree → Tree
  | [], t => t
  | level :: place, t => .expanded level.symbol (level.before ++ graft place t :: level.behind)

theorem openSymbols_subset_graft (place : Place) (t : Tree) :
    t.openSymbols ⊆ (graft place t).openSymbols := by
  induction place with
  | nil => exact List.Subset.refl _
  | cons level place ih =>
      intro symbol hsymbol
      rw [graft, openSymbols, openSymbolsAll_append]
      exact List.mem_append_right _ (List.mem_append_left _ (ih hsymbol))

theorem isOpen_graft_unexpanded (place : Place) (symbol : Word) :
    (graft place (.unexpanded symbol)).isOpen = true := by
  apply Bool.of_not_eq_false
  rw [isOpen_eq_false_iff]
  exact List.ne_nil_of_mem (openSymbols_subset_graft place _ (List.mem_singleton.mpr rfl))

theorem replaces_graft {R : Word → Tree → Prop} {symbol : Word} {u : Tree} (hu : R symbol u)
    (place : Place) : Replaces R (graft place (.unexpanded symbol)) (graft place u) := by
  induction place with
  | nil => exact .leaf hu
  | cons level place ih => exact .child ih

/-!
## What stands on both sides of a place
-/

def Place.lead : Place → Word
  | [] => []
  | level :: place => frontierAll level.before ++ lead place

def Place.trail : Place → Word
  | [] => []
  | level :: place => trail place ++ frontierAll level.behind

theorem frontierAll_append (ts us : List Tree) :
    frontierAll (ts ++ us) = frontierAll ts ++ frontierAll us := by
  induction ts with
  | nil => rfl
  | cons t ts ih => rw [List.cons_append, frontierAll, frontierAll, ih, List.append_assoc]

theorem frontier_expanded {symbol : Word} {children : List Tree} (h : children ≠ []) :
    (expanded symbol children).frontier = frontierAll children := by
  cases children with
  | nil => exact absurd rfl h
  | cons t rest => rfl

theorem frontier_graft (place : Place) (t : Tree) :
    (graft place t).frontier = place.lead ++ (t.frontier ++ place.trail) := by
  induction place with
  | nil => exact (List.append_nil _).symm
  | cons level place ih =>
      rw [graft, frontier_expanded (by simp), frontierAll_append, frontierAll, ih, Place.lead,
        Place.trail]
      simp only [List.append_assoc]

theorem frontierAll_eq_flatMap (ts : List Tree) : frontierAll ts = ts.flatMap frontier := by
  induction ts with
  | nil => rfl
  | cons t ts ih => rw [frontierAll, ih, List.flatMap_cons]

theorem frontier_toTree (s : Symbol) : s.toTree.frontier = s.word := by
  cases s with
  | terminal text => rfl
  | nonterminal name => rfl

theorem frontierAll_childrenOf (text : Word) : frontierAll (childrenOf text) = text := by
  cases text with
  | nil => rfl
  | cons c text =>
      show frontierAll ((symbols (c :: text)).map Symbol.toTree) = c :: text
      rw [frontierAll_eq_flatMap, List.flatMap_map]
      simp only [frontier_toTree]
      exact flatMap_word_symbols (c :: text)

theorem childrenOf_ne_nil (text : Word) : childrenOf text ≠ [] := by
  rcases Grammar.exists_symbols_childrenOf text with ⟨ss, hss, hnodes, _, _⟩
  rw [hnodes]
  simpa using hss

theorem frontier_expanded_childrenOf (symbol text : Word) :
    (expanded symbol (childrenOf text)).frontier = text := by
  rw [frontier_expanded (childrenOf_ne_nil text), frontierAll_childrenOf]

end Tree

theorem filter_isOpen_ne_nil {ts : List Tree} (h : Tree.anyOpen ts = true) :
    ts.filter Tree.isOpen ≠ [] := by
  intro hnil
  have hclosed : Tree.anyOpen ts = false := by
    apply Tree.anyOpen_eq_false_iff.mpr
    intro t ht
    exact Bool.eq_false_iff.mpr (List.filter_eq_nil_iff.mp hnil t ht)
  rw [hclosed] at h
  cases h

namespace Grower

variable {σ : Type} {f : Grower σ} {policy : Policy}

theorem expandSomewhere_of_closed {t : Tree} (h : t.isOpen = false) :
    f.expandSomewhere policy t = pure t := by
  cases t with
  | unexpanded symbol => cases h
  | expanded symbol children =>
      have hnone : children.filter Tree.isOpen = [] :=
        List.filter_eq_nil_iff.mpr fun t ht =>
          Bool.eq_false_iff.mp (Tree.anyOpen_eq_false_iff.mp h t ht)
      rw [expandSomewhere, hnone]
      rfl

theorem consult_eq {α : Type} (decision : StateM σ α) (s : Journaled (State σ)) :
    consult decision s = .ok (decision.run s.state.choices).1
      { s with state := { s.state with choices := (decision.run s.state.choices).2 } } :=
  rfl

theorem bind_pure_of_eq {α β γ : Type} {step : Step σ β} {inner : Step σ α} {view : α → β}
    {s s' : Journaled (State σ)}
    (h : step s = (inner >>= fun a => pure (view a)) s') (wrap : β → γ) :
    (step >>= fun b => pure (wrap b)) s = (inner >>= fun a => pure (wrap (view a))) s' := by
  rw [Action.bind_congr h, bind_assoc]
  simp only [pure_bind]

mutual

/-- A step in a tree is the expansion of one leaf, once the way down has been chosen. -/
theorem exists_place (f : Grower σ) (policy : Policy) (t : Tree) (ht : t.isOpen = true)
    (s : Journaled (State σ)) :
    ∃ place symbol s', t = Tree.graft place (.unexpanded symbol) ∧
      f.expandSomewhere policy t s =
        (f.expandLeaf policy symbol >>= fun u => pure (Tree.graft place u)) s' := by
  match t with
  | .unexpanded symbol =>
      refine ⟨[], symbol, s, rfl, ?_⟩
      rw [expandSomewhere]
      exact (congrFun (bind_pure (f.expandLeaf policy symbol)) s).symm
  | .expanded symbol children =>
      have hne := filter_isOpen_ne_nil ht
      have hpos := List.length_pos_iff.mpr hne
      unfold expandSomewhere
      rw [if_neg (by simpa using hne), Action.bind_of_ok (consult_eq _ s)]
      rcases exists_place_all f policy _ children (Nat.lt_of_le_of_lt (Nat.min_le_right _ _)
        (Nat.sub_one_lt_of_lt hpos)) _ with
        ⟨before, behind, place, name, s', hchildren, hrun⟩
      refine ⟨⟨symbol, before, behind⟩ :: place, name, s', ?_, ?_⟩
      · rw [Tree.graft, ← hchildren]
      · exact bind_pure_of_eq hrun _

theorem exists_place_all (f : Grower σ) (policy : Policy) (n : Nat) (ts : List Tree)
    (hn : n < (ts.filter Tree.isOpen).length) (s : Journaled (State σ)) :
    ∃ before behind place symbol s',
      ts = before ++ Tree.graft place (.unexpanded symbol) :: behind ∧
      f.expandNthOpen policy n ts s =
        (f.expandLeaf policy symbol >>= fun u =>
          pure (before ++ Tree.graft place u :: behind)) s' := by
  match ts with
  | [] => cases hn
  | t :: rest =>
      have hlater : ∀ m, m < (rest.filter Tree.isOpen).length →
          ∃ before behind place symbol s',
            t :: rest = before ++ Tree.graft place (.unexpanded symbol) :: behind ∧
            (f.expandNthOpen policy m rest >>= fun rest => pure (t :: rest)) s =
              (f.expandLeaf policy symbol >>= fun u =>
                pure (before ++ Tree.graft place u :: behind)) s' := by
        intro m hm
        rcases exists_place_all f policy m rest hm s with
          ⟨before, behind, place, symbol, s', hrest, hrun⟩
        refine ⟨t :: before, behind, place, symbol, s', congrArg (t :: ·) hrest, ?_⟩
        exact bind_pure_of_eq hrun _
      rw [expandNthOpen.eq_def]
      dsimp only
      by_cases ht : t.isOpen = true
      · rw [List.filter_cons_of_pos ht, List.length_cons] at hn
        rw [if_pos ht]
        cases n with
        | zero =>
            rcases exists_place f policy t ht s with ⟨place, symbol, s', hplace, hrun⟩
            refine ⟨[], rest, place, symbol, s', congrArg (· :: rest) hplace, ?_⟩
            exact bind_pure_of_eq hrun _
        | succ n => exact hlater n (Nat.lt_of_succ_lt_succ hn)
      · rw [List.filter_cons_of_neg ht] at hn
        rw [if_neg ht]
        exact hlater n hn

end

end Grower
end GrammarFuzz
