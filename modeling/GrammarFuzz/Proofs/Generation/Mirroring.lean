import GrammarFuzz.Proofs.Costs

/-!
# Growers side by side

Two growers for one grammar run side by side, with strategies that answer alike from
related states.  If both know the costs exactly, they end alike: with the same tree or
the same error, and in related states again.  What they have remembered and what their
journals say is left out of the comparison.
-/

namespace GrammarFuzz

/-!
## Runs side by side
-/

section Mirrors

variable {ε σ τ α β : Type} {rel : σ → τ → Prop}

/-- Whether two computations yield the same from related states, and states that are related. -/
def Mirrors (rel : σ → τ → Prop) (m : StateM σ α) (m' : StateM τ α) : Prop :=
  ∀ s s', rel s s' → (m.run s).1 = (m'.run s').1 ∧ rel (m.run s).2 (m'.run s').2

theorem Mirrors.refl (m : StateM σ α) : Mirrors Eq m m := by
  intro s s' heq
  subst heq
  exact ⟨rfl, rfl⟩

namespace Action

def Agree (rel : σ → τ → Prop) :
    EStateM.Result ε (Journaled σ) α → EStateM.Result ε (Journaled τ) α → Prop
  | .ok a s, .ok a' s' => a = a' ∧ rel s.state s'.state
  | .error e s, .error e' s' => e = e' ∧ rel s.state s'.state
  | _, _ => False

def Mirrors (rel : σ → τ → Prop) (action : Action ε σ α) (action' : Action ε τ α) : Prop :=
  ∀ s s', rel s.state s'.state → Agree rel (action s) (action' s')

namespace Mirrors

theorem pure (a : α) : Mirrors rel (Pure.pure a : Action ε σ α) (Pure.pure a) :=
  fun _ _ h => ⟨rfl, h⟩

theorem throw (e : ε) :
    Mirrors rel (MonadExcept.throw e : Action ε σ α) (MonadExcept.throw e : Action ε τ α) :=
  fun _ _ h => ⟨rfl, h⟩

theorem bind {action : Action ε σ α} {action' : Action ε τ α} {next : α → Action ε σ β}
    {next' : α → Action ε τ β} (h : Mirrors rel action action')
    (hnext : ∀ a, Mirrors rel (next a) (next' a)) :
    Mirrors rel (action >>= next) (action' >>= next') := by
  intro s s' hs
  have hagree := h s s' hs
  show Agree rel (EStateM.bind action next s) (EStateM.bind action' next' s')
  unfold EStateM.bind
  cases hrun : action s with
  | ok a t =>
      cases hrun' : action' s' with
      | ok a' t' =>
          rw [hrun, hrun'] at hagree
          rcases hagree with ⟨rfl, ht⟩
          exact hnext a t t' ht
      | error e' t' =>
          rw [hrun, hrun'] at hagree
          exact hagree.elim
  | error e t =>
      cases hrun' : action' s' with
      | ok a' t' =>
          rw [hrun, hrun'] at hagree
          exact hagree.elim
      | error e' t' =>
          rw [hrun, hrun'] at hagree
          exact hagree

theorem after_record {event event' : Event} {next : Action ε σ β} {next' : Action ε τ β}
    (h : Mirrors rel next next') :
    Mirrors rel (Action.record event >>= fun _ => next) (Action.record event' >>= fun _ => next') :=
  bind (fun _ _ hs => ⟨rfl, hs⟩) fun _ => h

theorem after_read {γ δ : Type} {view : σ → γ} {view' : τ → δ} {next : γ → Action ε σ β}
    {next' : δ → Action ε τ β} (h : ∀ c d, Mirrors rel (next c) (next' d)) :
    Mirrors rel (Action.read view >>= next) (Action.read view' >>= next') :=
  fun s s' hs => h (view s.state) (view' s'.state) s s' hs

theorem ofState {m : StateM σ α} {m' : StateM τ α} (h : GrammarFuzz.Mirrors rel m m') :
    Mirrors rel (Action.ofState m : Action ε σ α) (Action.ofState m') :=
  fun s s' hs => h s.state s'.state hs

end Mirrors

end Action

end Mirrors

/-!
## Strategies and growers
-/

section Growers

variable {σ τ : Type} {rel : σ → τ → Prop}

/-- Whether two strategies cannot be told apart from outside. -/
structure Strategy.Mirrors (rel : σ → τ → Prop) (strategy : Strategy σ) (strategy' : Strategy τ) :
    Prop where
  supportedOptions : strategy.supportedOptions = strategy'.supportedOptions
  chooseExpansion : ∀ symbol children, GrammarFuzz.Mirrors rel
    (strategy.chooseExpansion symbol children) (strategy'.chooseExpansion symbol children)
  chooseSubtree : ∀ symbol children, GrammarFuzz.Mirrors rel
    (strategy.chooseSubtree symbol children) (strategy'.chooseSubtree symbol children)
  process : ∀ children e, GrammarFuzz.Mirrors rel
    (strategy.process children e) (strategy'.process children e)

theorem Strategy.Mirrors.refl (strategy : Strategy σ) : strategy.Mirrors Eq strategy := by
  constructor
  · rfl
  · exact fun _ _ => .refl _
  · exact fun _ _ => .refl _
  · exact fun _ _ => .refl _

namespace Grower

structure State.Alike (rel : σ → τ → Prop) (s : State σ) (s' : State τ) : Prop where
  choices : rel s.choices s'.choices
  last : s.last = s'.last

structure Mirrors (rel : σ → τ → Prop) (f : Grower σ) (f' : Grower τ) : Prop where
  grammar : f.grammar = f'.grammar
  start : f.start = f'.start
  minOpen : f.minOpen = f'.minOpen
  maxOpen : f.maxOpen = f'.maxOpen
  exact : f.costs.Exact f.grammar
  exact' : f'.costs.Exact f'.grammar
  strategy : f.strategy.Mirrors rel f'.strategy

variable {f : Grower σ} {f' : Grower τ}

theorem Mirrors.initial_eq (h : f.Mirrors rel f') : f.initial = f'.initial := by
  rw [initial, initial, h.start]

theorem Mirrors.cost_eq (h : f.Mirrors rel f') (symbol : Word) :
    f.cost symbol = f'.cost symbol := by
  rw [cost, cost, h.exact.cost, h.exact'.cost, h.grammar]

abbrev Step.Mirrors {α : Type} (rel : σ → τ → Prop) (step : Step σ α) (step' : Step τ α) : Prop :=
  Action.Mirrors (State.Alike rel) step step'

theorem mirrors_consult {α : Type} {m : StateM σ α} {m' : StateM τ α}
    (h : GrammarFuzz.Mirrors rel m m') : Step.Mirrors rel (consult m) (consult m') := by
  apply Action.Mirrors.ofState
  intro s s' hs
  have hchoices := h s.choices s'.choices hs.choices
  exact ⟨hchoices.1, hchoices.2, hs.last⟩

theorem mirrors_lookUp (expansions : List Expansion) :
    Step.Mirrors rel (lookUp expansions) (lookUp expansions) := by
  apply Action.Mirrors.ofState
  intro s s' hs
  refine ⟨?_, hs.choices, hs.last⟩
  show (s.memo.childrenOfEach expansions).1 = (s'.memo.childrenOfEach expansions).1
  rw [Memo.childrenOfEach_fst, Memo.childrenOfEach_fst]

theorem mirrors_settle (symbol : Word) (chosen candidates : Nat) :
    Step.Mirrors rel (settle symbol chosen candidates) (settle symbol chosen candidates) := by
  unfold settle
  split
  · exact .pure chosen
  · exact .after_record (.pure _)

theorem Mirrors.admitted_eq (h : f.Mirrors rel f') (policy : Policy) {symbol : Word}
    {alternatives : List Expansion} (hrule : f.grammar.expansions? symbol = some alternatives) :
    f.admitted policy symbol alternatives = f'.admitted policy symbol alternatives := by
  have hrule' : f'.grammar.expansions? symbol = some alternatives := by rwa [← h.grammar]
  have hpriced : f.priced symbol alternatives = f'.priced symbol alternatives := by
    rw [priced_eq h.exact hrule, priced_eq h.exact' hrule', h.grammar]
  unfold admitted
  rw [hpriced]

theorem mirrors_expandLeaf (h : f.Mirrors rel f') (policy : Policy) (symbol : Word) :
    Step.Mirrors rel (f.expandLeaf policy symbol) (f'.expandLeaf policy symbol) := by
  unfold expandLeaf
  rw [← h.grammar]
  cases halternatives : (f.grammar.expansions? symbol).getD [] with
  | nil => exact .throw _
  | cons first rest =>
      have hrule := Grammar.expansions?_of_getD halternatives
      dsimp only
      rw [← h.admitted_eq policy hrule]
      refine .after_record (.bind (mirrors_lookUp _) fun children => ?_)
      refine .bind (mirrors_consult (h.strategy.chooseExpansion symbol children)) fun chosen => ?_
      refine .bind (mirrors_settle symbol chosen children.length) fun index => ?_
      cases ((f.admitted policy symbol (first :: rest)).zip children)[index]? with
      | none => exact .throw _
      | some candidate =>
          rcases candidate with ⟨e, nodes⟩
          exact .bind (mirrors_consult (h.strategy.process nodes e)) fun nodes => .pure _

theorem mirrors_expandIfLeaf (h : f.Mirrors rel f') (policy : Policy) (t : Tree) :
    Step.Mirrors rel (f.expandIfLeaf policy t) (f'.expandIfLeaf policy t) := by
  cases t with
  | unexpanded symbol => exact mirrors_expandLeaf h policy symbol
  | expanded symbol children => exact .pure _

mutual

theorem mirrors_expandSomewhere (h : f.Mirrors rel f') (policy : Policy) (t : Tree) :
    Step.Mirrors rel (f.expandSomewhere policy t) (f'.expandSomewhere policy t) := by
  match t with
  | .unexpanded symbol =>
      rw [expandSomewhere, expandSomewhere]
      exact mirrors_expandLeaf h policy symbol
  | .expanded symbol children =>
      rw [expandSomewhere, expandSomewhere]
      split
      · exact .pure _
      · refine .bind (mirrors_consult (h.strategy.chooseSubtree symbol _)) fun chosen => ?_
        exact .bind (mirrors_expandNthOpen h policy _ children) fun children => .pure _

theorem mirrors_expandNthOpen (h : f.Mirrors rel f') (policy : Policy) (n : Nat)
    (ts : List Tree) :
    Step.Mirrors rel (f.expandNthOpen policy n ts) (f'.expandNthOpen policy n ts) := by
  match ts with
  | [] =>
      rw [expandNthOpen.eq_def, expandNthOpen.eq_def]
      exact .pure _
  | t :: rest =>
      rw [expandNthOpen.eq_def, expandNthOpen.eq_def]
      dsimp only
      split
      · cases n with
        | zero => exact .bind (mirrors_expandSomewhere h policy t) fun t => .pure _
        | succ n => exact .bind (mirrors_expandNthOpen h policy n rest) fun rest => .pure _
      · exact .bind (mirrors_expandNthOpen h policy n rest) fun rest => .pure _

end

/-!
## Phases
-/

theorem mirrors_expandUntil (h : f.Mirrors rel f') (policy : Policy) (limit : Option Nat)
    (steps : Nat) (t : Tree) :
    Step.Mirrors rel (f.expandUntil policy limit steps t)
      (f'.expandUntil policy limit steps t) := by
  induction steps generalizing t with
  | zero =>
      rw [expandUntil, expandUntil]
      split
      · exact .throw _
      · exact .pure t
  | succ steps ih =>
      rw [expandUntil, expandUntil]
      split
      · exact .bind (mirrors_expandSomewhere h policy t) fun t => .after_record (ih t)
      · exact .pure t

theorem mirrors_complete (h : f.Mirrors rel f') (steps : Nat) (t : Tree) :
    Step.Mirrors rel (f.complete steps t) (f'.complete steps t) := by
  unfold complete
  rw [← h.minOpen, ← h.maxOpen]
  refine .after_record (.bind (mirrors_expandUntil h .dearest _ steps t) fun t => ?_)
  refine .after_record (.bind (mirrors_expandUntil h .random _ steps t) fun t => ?_)
  refine .after_record (.bind (mirrors_expandUntil h .cheapest none steps t) fun t => ?_)
  split
  · exact .pure t
  · exact .throw _

theorem mirrors_derive (h : f.Mirrors rel f') (steps : Nat) :
    Step.Mirrors rel (f.derive steps) (f'.derive steps) := by
  unfold derive
  rw [← h.initial_eq]
  refine .bind (mirrors_complete h steps f.initial) fun t => .after_read fun memo memo' => ?_
  -- Each of the two growers has something to report or has not; neither does more than that.
  split
  · split
    · exact fun _ _ hs => ⟨rfl, hs⟩
    · exact fun _ _ hs => ⟨rfl, hs⟩
  · split
    · exact fun _ _ hs => ⟨rfl, hs⟩
    · exact fun _ _ hs => ⟨rfl, hs⟩

theorem mirrors_generate (h : f.Mirrors rel f') (steps : Nat) :
    Step.Mirrors rel (f.generate steps) (f'.generate steps) := by
  unfold generate
  refine .bind (mirrors_derive h steps) fun t => .ofState ?_
  intro s s' hs
  exact ⟨rfl, hs.choices, rfl⟩

end Grower

end Growers
end GrammarFuzz
