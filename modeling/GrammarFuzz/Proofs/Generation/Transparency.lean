import GrammarFuzz.Proofs.Generation.Mirroring
import Mathlib.Data.List.Forall2

/-!
# Options that make no difference

Costs may be computed in advance and nodes may be remembered, but nobody sees the
difference: not a client that makes any calls one after the other, and not the strategy
that is consulted on the way.
-/

namespace GrammarFuzz

/-!
## Records of consultations
-/

inductive Consultation where
  | expansion (symbol : Word) (candidates : List (List Tree))
  | subtree (symbol : Word) (candidates : List Tree)
  | process (children : List Tree) (e : Expansion)

namespace Strategy

variable {σ α : Type}

def noting (consultation : Consultation) (m : StateM σ α) : StateM (σ × List Consultation) α :=
  fun (choices, notes) =>
    let (a, choices) := m.run choices
    (a, (choices, consultation :: notes))

def recorded (strategy : Strategy σ) : Strategy (σ × List Consultation) where
  supportedOptions := strategy.supportedOptions
  chooseExpansion := fun symbol candidates =>
    noting (.expansion symbol candidates) (strategy.chooseExpansion symbol candidates)
  chooseSubtree := fun symbol candidates =>
    noting (.subtree symbol candidates) (strategy.chooseSubtree symbol candidates)
  process := fun children e => noting (.process children e) (strategy.process children e)

theorem mirrors_noting (consultation : Consultation) (m : StateM σ α) :
    GrammarFuzz.Mirrors (fun choices noted => choices = noted.1) m (noting consultation m) := by
  intro choices noted h
  subst h
  exact ⟨rfl, rfl⟩

theorem mirrors_recorded (strategy : Strategy σ) :
    strategy.Mirrors (fun choices noted => choices = noted.1) strategy.recorded where
  supportedOptions := rfl
  chooseExpansion := fun _ _ => mirrors_noting _ _
  chooseSubtree := fun _ _ => mirrors_noting _ _
  process := fun _ _ => mirrors_noting _ _

end Strategy

def GenerationSettings.withOptions (settings : GenerationSettings) (precompute cache : Bool) :
    GenerationSettings :=
  { settings with precomputeCosts := precompute, cacheExpansions := cache }

/-!
## Sessions
-/

namespace Grower

variable {σ τ : Type}

inductive Call where
  | generate (steps : Nat)
  | derive (steps : Nat)
  | initial
  | expandIfLeaf (policy : Policy) (t : Tree)
  | expandSomewhere (policy : Policy) (t : Tree)
  | expandUntil (policy : Policy) (limit : Option Nat) (steps : Nat) (t : Tree)
  | complete (steps : Nat) (t : Tree)
  | cost (symbol : Word)

inductive Answer where
  | text (w : Word)
  | tree (t : Tree)
  | cost (cost : Cost)

def perform (f : Grower σ) : Call → Step σ Answer
  | .generate steps => return .text (← f.generate steps)
  | .derive steps => return .tree (← f.derive steps)
  | .initial => return .tree f.initial
  | .expandIfLeaf policy t => return .tree (← f.expandIfLeaf policy t)
  | .expandSomewhere policy t => return .tree (← f.expandSomewhere policy t)
  | .expandUntil policy limit steps t => return .tree (← f.expandUntil policy limit steps t)
  | .complete steps t => return .tree (← f.complete steps t)
  | .cost symbol => return .cost (f.cost symbol)

/-- What can be seen after a call: its outcome, the choices ahead, and the tree that is kept. -/
structure Observation (σ : Type) where
  outcome : Except GenerationError Answer
  choices : σ
  last : Option Tree

def Observation.map (view : τ → σ) (o : Observation τ) : Observation σ :=
  { o with choices := view o.choices }

def observe (f : Grower σ) : List Call → Journaled (State σ) → List (Observation σ)
  | [], _ => []
  | call :: rest, s =>
      match f.perform call s with
      | .ok answer s => ⟨.ok answer, s.state.choices, s.state.last⟩ :: f.observe rest s
      | .error e s => ⟨.error e, s.state.choices, s.state.last⟩ :: f.observe rest s

def session (g : Grammar) (settings : GenerationSettings) (strategy : Strategy σ) (choices : σ)
    (calls : List Call) : Except Error (List (Observation σ)) :=
  match (create g settings strategy choices).1 with
  | .error e => .error e
  | .ok (f, state) => .ok (f.observe calls { state })

variable {rel : σ → τ → Prop} {f : Grower σ} {f' : Grower τ}

theorem mirrors_perform (h : f.Mirrors rel f') (call : Call) :
    Step.Mirrors rel (f.perform call) (f'.perform call) := by
  cases call with
  | generate steps => exact .bind (mirrors_generate h steps) fun w => .pure _
  | derive steps => exact .bind (mirrors_derive h steps) fun t => .pure _
  | initial =>
      rw [perform, perform, h.initial_eq]
      exact .pure _
  | expandIfLeaf policy t => exact .bind (mirrors_expandIfLeaf h policy t) fun t => .pure _
  | expandSomewhere policy t => exact .bind (mirrors_expandSomewhere h policy t) fun t => .pure _
  | expandUntil policy limit steps t =>
      exact .bind (mirrors_expandUntil h policy limit steps t) fun t => .pure _
  | complete steps t => exact .bind (mirrors_complete h steps t) fun t => .pure _
  | cost symbol =>
      rw [perform, perform, h.cost_eq]
      exact .pure _

structure Observation.Alike (rel : σ → τ → Prop) (o : Observation σ) (o' : Observation τ) :
    Prop where
  outcome : o.outcome = o'.outcome
  choices : rel o.choices o'.choices
  last : o.last = o'.last

theorem eq_map_of_alike {view : τ → σ} {os : List (Observation σ)} {os' : List (Observation τ)}
    (h : List.Forall₂ (Observation.Alike fun choices choices' => choices = view choices') os os') :
    os = os'.map (Observation.map view) := by
  induction h with
  | nil => rfl
  | @cons o o' os os' ho _ ih =>
      have heq : o = Observation.map view o' := by
        rcases o with ⟨outcome, choices, last⟩
        rw [Observation.map, Observation.mk.injEq]
        exact ⟨ho.outcome, ho.choices, ho.last⟩
      rw [List.map_cons, ← ih, ← heq]

theorem observe_alike (h : f.Mirrors rel f') (calls : List Call) {s : Journaled (State σ)}
    {s' : Journaled (State τ)} (hs : State.Alike rel s.state s'.state) :
    List.Forall₂ (Observation.Alike rel) (f.observe calls s) (f'.observe calls s') := by
  induction calls generalizing s s' with
  | nil => exact .nil
  | cons call rest ih =>
      have hagree := mirrors_perform h call s s' hs
      unfold observe
      cases hrun : f.perform call s with
      | ok answer t =>
          cases hrun' : f'.perform call s' with
          | ok answer' t' =>
              rw [hrun, hrun'] at hagree
              rcases hagree with ⟨rfl, ht⟩
              exact .cons ⟨rfl, ht.choices, ht.last⟩ (ih ht)
          | error e' t' =>
              rw [hrun, hrun'] at hagree
              exact hagree.elim
      | error e t =>
          cases hrun' : f'.perform call s' with
          | ok answer' t' =>
              rw [hrun, hrun'] at hagree
              exact hagree.elim
          | error e' t' =>
              rw [hrun, hrun'] at hagree
              rcases hagree with ⟨rfl, ht⟩
              exact .cons ⟨rfl, ht.choices, ht.last⟩ (ih ht)

/-!
## Options
-/

section Options

variable (g : Grammar) (settings : GenerationSettings) {strategy : Strategy σ}
  {strategy' : Strategy τ}

theorem create_withOptions (h : strategy.supportedOptions = strategy'.supportedOptions)
    (choices : σ) (choices' : τ) (precompute cache precompute' cache' : Bool) :
    (∃ e, (create g (settings.withOptions precompute cache) strategy choices).1 = .error e ∧
      (create g (settings.withOptions precompute' cache') strategy' choices').1 = .error e) ∨
    ((create g (settings.withOptions precompute cache) strategy choices).1 =
        .ok (ofChecked g (settings.withOptions precompute cache) strategy choices) ∧
      (create g (settings.withOptions precompute' cache') strategy' choices').1 =
        .ok (ofChecked g (settings.withOptions precompute' cache') strategy' choices')) := by
  have hbounds : ∀ precompute cache,
      (settings.withOptions precompute cache).checkBounds = settings.checkBounds :=
    fun _ _ => rfl
  have hstart : ∀ precompute cache,
      (settings.withOptions precompute cache).start = settings.start :=
    fun _ _ => rfl
  unfold create
  rw [hbounds, hbounds, hstart, hstart, h]
  cases settings.checkBounds with
  | error e => exact Or.inl ⟨_, rfl, rfl⟩
  | ok _ =>
      dsimp only
      split
      · cases (g.validate settings.start (some strategy'.supportedOptions)).toExcept with
        | error e => exact Or.inl ⟨_, rfl, rfl⟩
        | ok _ => exact Or.inr ⟨rfl, rfl⟩
      · exact Or.inl ⟨_, rfl, rfl⟩

theorem mirrors_ofChecked (h : strategy.Mirrors rel strategy') (choices : σ) (choices' : τ)
    (precompute cache precompute' cache' : Bool) :
    (ofChecked g (settings.withOptions precompute cache) strategy choices).1.Mirrors rel
      (ofChecked g (settings.withOptions precompute' cache') strategy' choices').1 where
  grammar := rfl
  start := rfl
  minOpen := rfl
  maxOpen := rfl
  exact := exact_pricing g _
  exact' := exact_pricing g _
  strategy := h

theorem session_eq_map (view : τ → σ)
    (h : strategy.Mirrors (fun choices choices' => choices = view choices') strategy')
    (choices' : τ) (calls : List Call) (precompute cache precompute' cache' : Bool) :
    session g (settings.withOptions precompute cache) strategy (view choices') calls =
      (session g (settings.withOptions precompute' cache') strategy' choices' calls).map
        (List.map (Observation.map view)) := by
  unfold session
  rcases create_withOptions g settings h.supportedOptions (view choices') choices' precompute cache
    precompute' cache' with ⟨e, herror, herror'⟩ | ⟨hok, hok'⟩
  · rw [herror, herror']
    rfl
  · rw [hok, hok']
    have hmirrors := mirrors_ofChecked g settings h (view choices') choices' precompute cache
      precompute' cache'
    apply congrArg Except.ok
    apply eq_map_of_alike
    apply observe_alike hmirrors
    exact ⟨rfl, rfl⟩

theorem map_id_session (session : Except Error (List (Observation σ))) :
    session.map (List.map (Observation.map id)) = session := by
  have hid : (Observation.map id : Observation σ → Observation σ) = id := rfl
  rw [hid, List.map_id_fun]
  cases session with
  | error e => rfl
  | ok observations => rfl

theorem session_eq (strategy : Strategy σ) (choices : σ) (calls : List Call)
    (precompute cache precompute' cache' : Bool) :
    session g (settings.withOptions precompute cache) strategy choices calls =
      session g (settings.withOptions precompute' cache') strategy choices calls := by
  have hsame := session_eq_map g settings id (Strategy.Mirrors.refl strategy) choices calls
    precompute cache precompute' cache'
  rwa [map_id_session] at hsame

/--
Whether costs are computed in advance and whether nodes are remembered can be told
neither from the outcomes of any calls, nor from the choices and the trees that are kept
after each of them, nor by the strategy from what it is asked and shown.
-/
theorem session_withOptions (strategy : Strategy σ) (choices : σ) (calls : List Call)
    (precompute cache precompute' cache' : Bool) :
    session g (settings.withOptions precompute cache) strategy choices calls =
        session g (settings.withOptions precompute' cache') strategy choices calls ∧
      session g (settings.withOptions precompute cache) strategy.recorded (choices, []) calls =
        session g (settings.withOptions precompute' cache') strategy.recorded (choices, []) calls ∧
      session g (settings.withOptions precompute cache) strategy choices calls =
        (session g (settings.withOptions precompute cache) strategy.recorded (choices, [])
          calls).map
          (List.map (Observation.map Prod.fst)) := by
  refine ⟨session_eq g settings strategy choices calls precompute cache precompute' cache',
    session_eq g settings strategy.recorded (choices, []) calls precompute cache precompute' cache',
    ?_⟩
  exact session_eq_map g settings Prod.fst (Strategy.mirrors_recorded strategy) (choices, []) calls
    precompute cache precompute cache

end Options

end Grower
end GrammarFuzz
