import GrammarFuzz.Proofs.ParseTrees

/-!
# On the way to a complete derivation

A tree on the way to a complete derivation is the derivation with some of its subtrees
replaced by open nodes.  These subtrees are what is left of the derivation.  A step that
expands an open node in the way of the derivation puts the children of one subtree in its
place, so that one symbol less is left, and no more nodes can be open than symbols are left.
-/

namespace GrammarFuzz

namespace Tree

/-!
## Equality
-/

mutual

theorem same_iff (t u : Tree) : t.same u = true ↔ t = u := by
  match t, u with
  | unexpanded a, unexpanded b => simp [same]
  | unexpanded a, expanded b us => simp [same]
  | expanded a ts, unexpanded b => simp [same]
  | expanded a ts, expanded b us => simp [same, sameAll_iff ts us]

theorem sameAll_iff (ts us : List Tree) : sameAll ts us = true ↔ ts = us := by
  match ts, us with
  | [], [] => simp [sameAll]
  | [], u :: us => simp [sameAll]
  | t :: ts, [] => simp [sameAll]
  | t :: ts, u :: us => simp [sameAll, same_iff t u, sameAll_iff ts us]

end

/-!
## Beginnings of trees
-/

def children (t : Tree) : List Tree :=
  t.children?.getD []

def isTerminal : Tree → Bool
  | expanded _ [] => true
  | _ => false

def sprout (t : Tree) : Tree :=
  if t.isTerminal then t else .unexpanded t.symbol

def branches (t : Tree) : List Tree :=
  t.children.filter fun u => !u.isTerminal

mutual

def symbolCount : Tree → Nat
  | unexpanded _ => 1
  | expanded _ [] => 0
  | expanded _ (t :: rest) => 1 + (symbolCount t + symbolCountAll rest)

def symbolCountAll : List Tree → Nat
  | [] => 0
  | t :: rest => symbolCount t + symbolCountAll rest

end

theorem symbolCountAll_append (ts us : List Tree) :
    symbolCountAll (ts ++ us) = symbolCountAll ts + symbolCountAll us := by
  induction ts with
  | nil => simp [symbolCountAll]
  | cons t ts ih => rw [List.cons_append, symbolCountAll, symbolCountAll, ih, Nat.add_assoc]

theorem symbolCount_of_isTerminal {t : Tree} (h : t.isTerminal = true) : t.symbolCount = 0 := by
  match t with
  | expanded _ [] => rfl

theorem symbolCountAll_filter (ts : List Tree) :
    symbolCountAll (ts.filter fun t => !t.isTerminal) = symbolCountAll ts := by
  induction ts with
  | nil => rfl
  | cons t ts ih =>
      cases ht : t.isTerminal with
      | true =>
          rw [List.filter_cons_of_neg (by simp [ht]), symbolCountAll, ih,
            symbolCount_of_isTerminal ht, Nat.zero_add]
      | false =>
          rw [List.filter_cons_of_pos (by simp [ht]), symbolCountAll, symbolCountAll, ih]

theorem symbolCount_expanded {symbol : Word} {children : List Tree} (h : children ≠ []) :
    (expanded symbol children).symbolCount =
      symbolCountAll (expanded symbol children).branches + 1 := by
  cases children with
  | nil => exact absurd rfl h
  | cons t rest =>
      rw [symbolCount, branches, symbolCountAll_filter, Nat.add_comm]
      rfl

/-!
## What is left of a target
-/

mutual

/-- The subtrees of the second tree at the open nodes of the first one, from left to right. -/
def pending : Tree → Tree → List Tree
  | unexpanded _, u => [u]
  | expanded _ ts, u => pendingAll ts u.children

def pendingAll : List Tree → List Tree → List Tree
  | [], _ => []
  | _ :: _, [] => []
  | t :: ts, u :: us => pending t u ++ pendingAll ts us

end

mutual

theorem pending_of_closed (t u : Tree) (h : t.isOpen = false) : pending t u = [] := by
  match t with
  | expanded _ ts =>
      rw [pending]
      exact pendingAll_of_closed ts u.children h

theorem pendingAll_of_closed (ts us : List Tree) (h : anyOpen ts = false) :
    pendingAll ts us = [] := by
  match ts, us with
  | [], _ => rfl
  | _ :: _, [] => rfl
  | t :: ts, u :: us =>
      rw [anyOpen, Bool.or_eq_false_iff] at h
      rw [pendingAll, pending_of_closed t u h.1, pendingAll_of_closed ts us h.2, List.append_nil]

end

theorem pendingAll_sprout (us : List Tree) (h : anyOpen us = false) :
    pendingAll (us.map sprout) us = us.filter fun u => !u.isTerminal := by
  induction us with
  | nil => rfl
  | cons u us ih =>
      rw [anyOpen, Bool.or_eq_false_iff] at h
      rw [List.map_cons, pendingAll, ih h.2]
      cases hu : u.isTerminal with
      | true =>
          rw [sprout, if_pos hu, pending_of_closed u u h.1, List.filter_cons_of_neg (by simp [hu])]
          rfl
      | false =>
          rw [sprout, if_neg (by simp [hu]), pending, List.filter_cons_of_pos (by simp [hu])]
          rfl

variable {R : Word → Tree → Prop}

mutual

theorem Refines.eq_of_closed {t : Tree} (u : Tree) (h : Refines R t u) (ht : t.isOpen = false) :
    t = u := by
  match u, h with
  | _, .leaf _ => cases ht
  | .expanded symbol us, .node hchildren =>
      exact congrArg (expanded symbol) (Refines.eq_all_of_closed us hchildren ht)

theorem Refines.eq_all_of_closed {ts : List Tree} (us : List Tree)
    (h : List.Forall₂ (Refines R) ts us) (hts : anyOpen ts = false) : ts = us := by
  match us, h with
  | [], .nil => rfl
  | u :: us, .cons hhead hrest =>
      rw [anyOpen, Bool.or_eq_false_iff] at hts
      rw [Refines.eq_of_closed u hhead hts.1, Refines.eq_all_of_closed us hrest hts.2]

end

mutual

theorem Refines.openCount_le {t : Tree} (u : Tree) (h : Refines R t u)
    (hR : ∀ symbol v, R symbol v → 0 < v.symbolCount) :
    t.openCount ≤ symbolCountAll (pending t u) := by
  match u, h with
  | u, .leaf hu => exact hR _ u hu
  | .expanded symbol us, .node hchildren => exact Refines.openCountAll_le us hchildren hR

theorem Refines.openCountAll_le {ts : List Tree} (us : List Tree)
    (h : List.Forall₂ (Refines R) ts us) (hR : ∀ symbol v, R symbol v → 0 < v.symbolCount) :
    openCountAll ts ≤ symbolCountAll (pendingAll ts us) := by
  match us, h with
  | [], .nil => exact Nat.le_refl 0
  | u :: us, .cons hhead hrest =>
      rw [openCountAll, pendingAll, symbolCountAll_append]
      exact Nat.add_le_add (Refines.openCount_le u hhead hR) (Refines.openCountAll_le us hrest hR)

end

end Tree

/-!
## Complete derivations
-/

namespace Grammar

variable {g : Grammar}

theorem Completes.exists_node {symbol : Word} {t : Tree} (h : g.Completes symbol t) :
    ∃ alternatives e children, g.expansions? symbol = some alternatives ∧ e ∈ alternatives ∧
      t = .expanded symbol children ∧ children ≠ [] ∧
      List.Forall₂ (Tree.Refines g.Completes) (childrenOf e.text) children := by
  rcases h with ⟨hgrows, hclosed⟩
  cases hgrows with
  | waiting => cases hclosed
  | @node _ alternatives e children hrule he hchildren =>
      rcases exists_symbols_childrenOf e.text with ⟨ss, hss, hnodes, _, _⟩
      have hcomplete : List.Forall₂ (Tree.Refines g.Completes) (childrenOf e.text) children :=
        Tree.Refines.complete_all children hchildren hclosed
          fun _ _ hgrows hclosed => ⟨hgrows, hclosed⟩
      rw [hnodes] at hchildren
      exact ⟨alternatives, e, children, hrule, he, rfl, ne_nil_of_refines hss hchildren, hcomplete⟩

theorem Completes.sprout_eq {symbol : Word} {t : Tree} (h : g.Completes symbol t) :
    t.sprout = .unexpanded symbol := by
  rcases h.exists_node with ⟨_, _, children, _, _, rfl, hne, _⟩
  cases children with
  | nil => exact absurd rfl hne
  | cons u us => rfl

theorem Completes.symbolCount_eq {symbol : Word} {t : Tree} (h : g.Completes symbol t) :
    t.symbolCount = Tree.symbolCountAll t.branches + 1 := by
  rcases h.exists_node with ⟨_, _, children, _, _, rfl, hne, _⟩
  exact Tree.symbolCount_expanded hne

theorem map_sprout_of_symbols {ss : List Symbol} {children : List Tree}
    (h : List.Forall₂ (Tree.Refines g.Completes) (ss.map Symbol.toTree) children) :
    children.map Tree.sprout = ss.map Symbol.toTree := by
  induction ss generalizing children with
  | nil =>
      cases h
      rfl
  | cons s ss ih =>
      cases h with
      | cons hhead hrest =>
          rw [List.map_cons, List.map_cons, ih hrest]
          rcases refines_toTree_cases hhead with ⟨text, rfl, rfl⟩ | ⟨name, rfl, hname⟩
          · rfl
          · rw [hname.sprout_eq]
            rfl

theorem map_sprout_of_refines {text : Word} {children : List Tree}
    (h : List.Forall₂ (Tree.Refines g.Completes) (childrenOf text) children) :
    children.map Tree.sprout = childrenOf text := by
  rcases exists_symbols_childrenOf text with ⟨ss, _, hnodes, _, _⟩
  rw [hnodes] at h ⊢
  exact map_sprout_of_symbols h

end Grammar

/-!
## Coming nearer to a target
-/

namespace Grower

/--
What a step makes of nodes on the way to some trees: the queue lists what is left of these
trees, in front of trees for other nodes, and one symbol less than before is left.
-/
structure Nears (g : Grammar) (ts us later ts' queue : List Tree) : Prop where
  refines : List.Forall₂ (Tree.Refines g.Completes) ts' us
  queue_eq : queue = Tree.pendingAll ts' us ++ later
  count : Tree.symbolCountAll (Tree.pendingAll ts' us) + 1 =
    Tree.symbolCountAll (Tree.pendingAll ts us)

namespace Nears

variable {g : Grammar} {t u t' : Tree} {ts us ts' later queue : List Tree}

theorem leaf {symbol : Word} (hu : g.Completes symbol u) (later : List Tree) :
    Nears g [.unexpanded symbol] [u] later [.expanded symbol (u.children.map Tree.sprout)]
      (u.branches ++ later) := by
  have hcount := hu.symbolCount_eq
  have hclosed := hu.2
  rcases hu.exists_node with ⟨_, _, children, _, _, rfl, _, hchildren⟩
  have hpending : Tree.pendingAll (children.map Tree.sprout) children =
      (Tree.expanded symbol children).branches := Tree.pendingAll_sprout children hclosed
  rw [← Grammar.map_sprout_of_refines hchildren] at hchildren
  constructor
  · exact .cons (.node hchildren) .nil
  · simp [Tree.pendingAll, Tree.pending, Tree.children, Tree.children?, hpending]
  · simp [Tree.pendingAll, Tree.pending, Tree.children, Tree.children?, hpending,
      Tree.symbolCountAll, hcount]

theorem node (h : Nears g ts us later ts' queue) (symbol : Word) :
    Nears g [.expanded symbol ts] [.expanded symbol us] later [.expanded symbol ts'] queue := by
  constructor
  · exact .cons (.node h.refines) .nil
  · simpa [Tree.pendingAll, Tree.pending, Tree.children, Tree.children?] using h.queue_eq
  · simpa [Tree.pendingAll, Tree.pending, Tree.children, Tree.children?] using h.count

theorem head (h : Nears g [t] [u] (Tree.pendingAll ts us ++ later) [t'] queue)
    (hrest : List.Forall₂ (Tree.Refines g.Completes) ts us) :
    Nears g (t :: ts) (u :: us) later (t' :: ts) queue := by
  rcases h with ⟨hrefines, hqueue, hcount⟩
  cases hrefines with
  | cons hhead _ =>
      constructor
      · exact .cons hhead hrest
      · simpa [Tree.pendingAll] using hqueue
      · simp only [Tree.pendingAll, List.append_nil] at hcount
        simp only [Tree.pendingAll, Tree.symbolCountAll_append]
        omega

theorem tail (h : Nears g ts us later ts' queue) (hhead : Tree.Refines g.Completes t u)
    (hclosed : t.isOpen = false) : Nears g (t :: ts) (u :: us) later (t :: ts') queue := by
  have hpending := Tree.pending_of_closed t u hclosed
  constructor
  · exact .cons hhead h.refines
  · simpa [Tree.pendingAll, hpending] using h.queue_eq
  · simpa [Tree.pendingAll, hpending] using h.count

theorem single (h : Nears g [t] [u] [] [t'] queue) :
    Tree.Refines g.Completes t' u ∧ queue = Tree.pending t' u ∧
      Tree.symbolCountAll (Tree.pending t' u) + 1 = Tree.symbolCountAll (Tree.pending t u) := by
  rcases h with ⟨hrefines, hqueue, hcount⟩
  simp only [Tree.pendingAll, List.append_nil] at hqueue hcount
  exact ⟨(List.forall₂_cons.mp hrefines).1, hqueue, hcount⟩

end Nears

theorem openCount_le_of_refines {g : Grammar} {t u : Tree} (h : Tree.Refines g.Completes t u) :
    t.openCount ≤ Tree.symbolCountAll (Tree.pending t u) := by
  apply h.openCount_le u
  intro symbol v hv
  rw [hv.symbolCount_eq]
  exact Nat.succ_pos _

end Grower
end GrammarFuzz
