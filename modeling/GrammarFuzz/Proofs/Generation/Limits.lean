import GrammarFuzz.Proofs.Generation.Soundness
import Mathlib.Data.List.Chain

/-!
# Phases with a limit

A phase with a limit on the number of open nodes goes on as long as it has to and no longer.
A step closes one node and opens those of a single alternative, so that the limit is
exceeded by the last step only, and by less than the references of one expansion.  The trees
that a phase passes through are those that it notes in the journal.
-/

namespace GrammarFuzz

/-!
## Trees in the journal
-/

def Event.tree? : Event → Option Tree
  | .grown t => some t
  | _ => none

def Journal.trees (journal : Journal) : List Tree :=
  journal.filterMap Event.tree?

theorem Journal.trees_grown (t : Tree) (journal : Journal) :
    Journal.trees (.grown t :: journal) = t :: journal.trees :=
  rfl

namespace Action

variable {ε σ α β : Type}

theorem exists_of_bind_eq_ok {action : Action ε σ α} {next : α → Action ε σ β}
    {s s'' : Journaled σ} {b : β} (h : (action >>= next) s = .ok b s'') :
    ∃ a s', action s = .ok a s' ∧ next a s' = .ok b s'' := by
  cases hrun : action s with
  | ok a s' =>
      rw [bind_of_ok hrun] at h
      exact ⟨a, s', rfl, h⟩
  | error e s' =>
      rw [bind_of_error hrun] at h
      cases h

def Quiet (action : Action ε σ α) : Prop :=
  ∀ s a s', action s = .ok a s' → s'.journal.trees = s.journal.trees

namespace Quiet

theorem pure (a : α) : Quiet (Pure.pure a : Action ε σ α) := by
  intro s b s' h
  cases h
  rfl

theorem throw (e : ε) : Quiet (MonadExcept.throw e : Action ε σ α) := by
  intro s a s' h
  cases h

theorem bind {action : Action ε σ α} {next : α → Action ε σ β} (h : Quiet action)
    (hnext : ∀ a, Quiet (next a)) : Quiet (action >>= next) := by
  intro s b s'' hrun
  rcases exists_of_bind_eq_ok hrun with ⟨a, s', hfirst, hrest⟩
  exact (hnext a s' b s'' hrest).trans (h s a s' hfirst)

theorem after_record {event : Event} {next : Action ε σ β} (hevent : event.tree? = none)
    (h : Quiet next) : Quiet (Action.record event >>= fun _ => next) := by
  refine bind (fun s _ s' hrun => ?_) fun _ => h
  cases hrun
  exact List.filterMap_cons_none hevent

theorem ofState (f : StateM σ α) : Quiet (Action.ofState f : Action ε σ α) := by
  intro s a s' h
  cases h
  rfl

end Quiet

end Action

namespace Grower

variable {σ : Type} {f : Grower σ}

theorem quiet_settle (symbol : Word) (chosen candidates : Nat) :
    Action.Quiet (settle symbol chosen candidates : Step σ Nat) := by
  unfold settle
  split
  · exact .pure chosen
  · exact .after_record rfl (.pure _)

theorem quiet_expandLeaf (f : Grower σ) (policy : Policy) (symbol : Word) :
    Action.Quiet (f.expandLeaf policy symbol) := by
  unfold expandLeaf
  cases (f.grammar.expansions? symbol).getD [] with
  | nil => exact .throw _
  | cons first rest =>
      dsimp only
      refine .after_record rfl (.bind (.ofState _) fun children => ?_)
      refine .bind (.ofState _) fun chosen => ?_
      refine .bind (quiet_settle symbol chosen children.length) fun index => ?_
      cases ((f.admitted policy symbol (first :: rest)).zip children)[index]? with
      | none => exact .throw _
      | some candidate => exact .bind (.ofState _) fun nodes => .pure _

mutual

theorem quiet_expandSomewhere (f : Grower σ) (policy : Policy) (t : Tree) :
    Action.Quiet (f.expandSomewhere policy t) := by
  match t with
  | .unexpanded symbol =>
      rw [expandSomewhere]
      exact quiet_expandLeaf f policy symbol
  | .expanded symbol children =>
      rw [expandSomewhere]
      split
      · exact .pure _
      · refine .bind (.ofState _) fun chosen => ?_
        exact .bind (quiet_expandNthOpen f policy _ children) fun children => .pure _

theorem quiet_expandNthOpen (f : Grower σ) (policy : Policy) (n : Nat) (ts : List Tree) :
    Action.Quiet (f.expandNthOpen policy n ts) := by
  match ts with
  | [] =>
      rw [expandNthOpen.eq_def]
      exact .pure _
  | t :: rest =>
      rw [expandNthOpen.eq_def]
      dsimp only
      split
      · cases n with
        | zero => exact .bind (quiet_expandSomewhere f policy t) fun t => .pure _
        | succ n => exact .bind (quiet_expandNthOpen f policy n rest) fun rest => .pure _
      · exact .bind (quiet_expandNthOpen f policy n rest) fun rest => .pure _

end

/-!
## The trees of a phase
-/

theorem unfinished_iff {limit : Nat} {t : Tree} :
    unfinished (some limit) t = true ↔ t.isOpen = true ∧ t.openCount < limit := by
  simp [unfinished]

theorem exists_step_of_expandUntil {policy : Policy} {limit : Option Nat} {steps : Nat}
    {t t' : Tree} {s s' : Journaled (State σ)} (ht : unfinished limit t = true)
    (hrun : f.expandUntil policy limit (steps + 1) t s = .ok t' s') :
    ∃ u after, f.expandSomewhere policy t s = .ok u after ∧
      f.expandUntil policy limit steps u { after with journal := .grown u :: after.journal } =
        .ok t' s' := by
  rw [expandUntil, if_pos ht] at hrun
  exact Action.exists_of_bind_eq_ok hrun

/--
A phase that has something to do notes the trees that it passes through, and at last its
result.  Each of them comes from the one before by a step; all but the last are unfinished.
-/
theorem exists_trees_of_expandUntil (hkeeps : f.strategy.KeepsChildren) {policy : Policy}
    {limit : Option Nat} {steps : Nat} {t t' : Tree} {s s' : Journaled (State σ)}
    (ht : unfinished limit t = true) (hrun : f.expandUntil policy limit steps t s = .ok t' s') :
    ∃ between : List Tree,
      s'.journal.trees = t' :: (between.reverse ++ s.journal.trees) ∧
      List.IsChain (Tree.Replaces (f.Expands untouched policy)) (t :: (between ++ [t'])) ∧
      (∀ u ∈ between, unfinished limit u = true) ∧ unfinished limit t' = false := by
  induction steps generalizing t s with
  | zero =>
      rw [expandUntil, if_pos ht] at hrun
      cases hrun
  | succ steps ih =>
      rcases exists_step_of_expandUntil ht hrun with ⟨u, after, hstep, hrest⟩
      have hreplaces : Tree.Replaces (f.Expands untouched policy) t u := by
        rw [unfinished, Bool.and_eq_true] at ht
        have hensures := @ensures_expandSomewhere _ f _ policy (processes_untouched hkeeps) t ht.1 s
        rwa [hstep] at hensures
      have hnoted : Journal.trees (.grown u :: after.journal) = u :: s.journal.trees := by
        rw [Journal.trees_grown, quiet_expandSomewhere f policy t s u after hstep]
      cases hu : unfinished limit u with
      | true =>
          rcases ih hu hrest with ⟨between, htrees, hchain, hbetween, ht'⟩
          refine ⟨u :: between, ?_, .cons_cons hreplaces hchain, ?_, ht'⟩
          · rw [htrees, hnoted, List.reverse_cons, List.append_assoc]
            rfl
          · exact List.forall_mem_cons.mpr ⟨hu, hbetween⟩
      | false =>
          rw [expandUntil_of_finished hu] at hrest
          cases hrest
          exact ⟨[], hnoted, .cons_cons hreplaces (.singleton _), by simp, hu⟩

/-!
## The last step
-/

theorem openCount_step {w : Nat} (hw : ∀ e ∈ f.grammar.expansions, e.references.length ≤ w)
    {policy : Policy} {t t' : Tree} (h : Tree.Replaces (f.Expands untouched policy) t t') :
    t'.openCount + 1 ≤ t.openCount + w := by
  rcases h.openSymbols with ⟨symbol, u, before, behind, hexpands, hold, hnew⟩
  rcases produces_of_expands hexpands with ⟨alternatives, e, hrule, he, rfl⟩
  have hlength : e.references.length ≤ w := hw e (Grammar.mem_expansions_iff.mpr ⟨_, _, hrule, he⟩)
  rw [← Tree.length_openSymbols, ← Tree.length_openSymbols, hold, hnew, Tree.openSymbols,
    Grammar.openSymbolsAll_childrenOf]
  simp only [List.length_append, List.length_cons]
  have hreferences : (references e.text).length ≤ w := hlength
  omega

theorem keeps_refines (f : Grower σ) (policy : Policy) (t₀ : Tree) :
    f.Keeps untouched policy (Tree.Refines f.grammar.Grows t₀) := by
  intro t t' ht hstep
  refine ht.replace (fun symbol u u' hu hstep => hu.step ?_) hstep
  exact hstep.mono fun symbol u hexpands => produces_of_expands hexpands

theorem refines_expandUntil (hkeeps : f.strategy.KeepsChildren) {policy : Policy}
    {limit : Option Nat} {steps : Nat} {t t' : Tree} {s s' : Journaled (State σ)}
    (hrun : f.expandUntil policy limit steps t s = .ok t' s') :
    Tree.Refines f.grammar.Grows t t' := by
  have hstart : Tree.Refines f.grammar.Grows t t := Tree.Refines.refl t fun _ _ => .waiting
  have hensures := @ensures_expandUntil _ f _ policy (processes_untouched hkeeps) _
    (keeps_refines f policy t) limit steps t hstart s
  rw [hrun] at hensures
  exact hensures.1

/--
A phase with a limit, if it ends, leaves a tree alone that is complete or has as many open
nodes as the limit says.  Any other tree is extended until it is complete or the limit is
reached, which is exceeded by less than the number of references of one expansion.  All trees
on the way are open and below the limit.
-/
theorem expandUntil_limit (hkeeps : f.strategy.KeepsChildren) {w : Nat}
    (hw : ∀ e ∈ f.grammar.expansions, e.references.length ≤ w) {policy : Policy} {limit steps : Nat}
    {t t' : Tree} {s s' : Journaled (State σ)}
    (hrun : f.expandUntil policy (some limit) steps t s = .ok t' s') :
    (t.isOpen = false ∨ limit ≤ t.openCount → t' = t ∧ s' = s) ∧
      (t.isOpen = true → t.openCount < limit →
        (t'.isOpen = false ∨ limit ≤ t'.openCount) ∧
        t'.openCount ≤ limit - 2 + max w 1 ∧
        Tree.Refines f.grammar.Grows t t' ∧
        ∃ between : List Tree,
          s'.journal.trees = t' :: (between.reverse ++ s.journal.trees) ∧
          List.IsChain (Tree.Replaces (f.Expands untouched policy)) (t :: (between ++ [t'])) ∧
          ∀ u ∈ between, 1 ≤ u.openCount ∧ u.openCount ≤ limit - 1) := by
  constructor
  · intro hfinished
    have hfinished : unfinished (some limit) t = false := by
      rw [← Bool.not_eq_true, unfinished_iff]
      rintro ⟨hopen, hlt⟩
      rcases hfinished with hclosed | hle
      · rw [hclosed] at hopen
        cases hopen
      · omega
    rw [expandUntil_of_finished hfinished] at hrun
    cases hrun
    exact ⟨rfl, rfl⟩
  · intro hopen hlt
    have ht := unfinished_iff.mpr ⟨hopen, hlt⟩
    rcases exists_trees_of_expandUntil hkeeps ht hrun with ⟨between, htrees, hchain, hbetween, ht'⟩
    have hbounds : ∀ u ∈ t :: between, 1 ≤ u.openCount ∧ u.openCount ≤ limit - 1 := by
      intro u hu
      have hall : ∀ u ∈ t :: between, unfinished (some limit) u = true :=
        List.forall_mem_cons.mpr ⟨ht, hbetween⟩
      have hunfinished := unfinished_iff.mp (hall u hu)
      have hpos := (Tree.isOpen_iff u).mp hunfinished.1
      omega
    refine ⟨?_, ?_, refines_expandUntil hkeeps hrun, between, htrees, hchain,
      fun u hu => hbounds u (List.mem_cons_of_mem _ hu)⟩
    · by_contra hneither
      rw [not_or, Bool.not_eq_false, Nat.not_le] at hneither
      rw [unfinished_iff.mpr hneither] at ht'
      cases ht'
    · -- The tree before the last one is below the limit, and a step adds less than `w` nodes.
      have hne : t :: between ≠ [] := List.cons_ne_nil t between
      have hstep : Tree.Replaces (f.Expands untouched policy) ((t :: between).getLast hne) t' :=
        (List.isChain_append.mp hchain).2.2 _ (List.getLast_mem_getLast? hne) t' rfl
      have hle := openCount_step hw hstep
      have hlast := hbounds _ (List.getLast_mem hne)
      omega

def doublingGrammar : Grammar :=
  .ofRules [(startSymbol, [⟨startSymbol ++ startSymbol, .empty⟩, ⟨['x'], .empty⟩])]

theorem doublingGrammar_expandUntil_limit :
    let made := ofChecked doublingGrammar {} firstChoice ()
    firstChoice.KeepsChildren ∧ (∀ e ∈ doublingGrammar.expansions, e.references.length ≤ 2) ∧
      ∃ (t : Tree) (s : Journaled (State Unit)) (between : List Tree),
        made.1.expandUntil .random (some 3) 2 made.1.initial ⟨made.2, []⟩ = .ok t s ∧
        (t.isOpen = false ∨ 3 ≤ t.openCount) ∧ t.openCount ≤ 3 - 2 + max 2 1 ∧
        Tree.Refines doublingGrammar.Grows made.1.initial t ∧
        s.journal.trees = t :: (between.reverse ++ []) ∧
        ∀ u ∈ between, 1 ≤ u.openCount ∧ u.openCount ≤ 3 - 1 := by
  intro made
  have hkeeps : made.1.strategy.KeepsChildren := fun _ _ _ => rfl
  have hw : ∀ e ∈ made.1.grammar.expansions, e.references.length ≤ 2 := by decide
  have hrun : ∃ t s, made.1.expandUntil .random (some 3) 2 made.1.initial ⟨made.2, []⟩ = .ok t s :=
    ⟨_, _, rfl⟩
  rcases hrun with ⟨t, s, hrun⟩
  rcases (expandUntil_limit hkeeps hw hrun).2 rfl (by decide) with
    ⟨hstop, hbound, hrefines, between, htrees, _, hbetween⟩
  exact ⟨hkeeps, hw, t, s, between, hrun, hstop, hbound, hrefines, htrees, hbetween⟩

end Grower
end GrammarFuzz
