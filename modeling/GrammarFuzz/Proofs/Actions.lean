import GrammarFuzz.Event

/-!
# Conditions on actions

An action may fail, and its outcome depends on the state that it starts from.  A condition
on its results and one on its errors hold from every state; they are put together from
those of the parts of the action.
-/

namespace GrammarFuzz

namespace Action

variable {ε σ α β : Type} {action action' : Action ε σ α} {s s' : Journaled σ}

theorem bind_of_ok {a : α} (h : action s = .ok a s') (next : α → Action ε σ β) :
    (action >>= next) s = next a s' := by
  show EStateM.bind action next s = next a s'
  rw [EStateM.bind, h]

theorem bind_of_error {e : ε} (h : action s = .error e s') (next : α → Action ε σ β) :
    (action >>= next) s = .error e s' := by
  show EStateM.bind action next s = .error e s'
  rw [EStateM.bind, h]

theorem bind_congr (h : action s = action' s') (next : α → Action ε σ β) :
    (action >>= next) s = (action' >>= next) s' := by
  show EStateM.bind action next s = EStateM.bind action' next s'
  rw [EStateM.bind, EStateM.bind, h]

end Action

/-- Whether, from every state, results meet one condition and errors another one. -/
def Action.Ensures {ε σ α : Type} (action : Action ε σ α) (post : α → Prop) (fails : ε → Prop) :
    Prop :=
  ∀ s, match action s with
    | .ok a _ => post a
    | .error e _ => fails e

namespace Action.Ensures

variable {ε σ α β : Type} {fails : ε → Prop}

theorem pure {post : α → Prop} {a : α} (h : post a) :
    Ensures (Pure.pure a : Action ε σ α) post fails :=
  fun _ => h

theorem throw {post : α → Prop} {e : ε} (h : fails e) :
    Ensures (MonadExcept.throw e : Action ε σ α) post fails :=
  fun _ => h

theorem bind {action : Action ε σ α} {next : α → Action ε σ β} {mid : α → Prop} {post : β → Prop}
    (h : Ensures action mid fails) (hnext : ∀ a, mid a → Ensures (next a) post fails) :
    Ensures (action >>= next) post fails := by
  intro s
  have hs := h s
  cases hrun : action s with
  | ok a s' =>
      rw [hrun] at hs
      rw [bind_of_ok hrun]
      exact hnext a hs s'
  | error e s' =>
      rw [hrun] at hs
      rw [bind_of_error hrun]
      exact hs

theorem mono {action : Action ε σ α} {post post' : α → Prop} {fails' : ε → Prop}
    (h : Ensures action post fails) (hpost : ∀ a, post a → post' a)
    (hfails : ∀ e, fails e → fails' e) : Ensures action post' fails' := by
  intro s
  have hs := h s
  cases hrun : action s with
  | ok a s' =>
      rw [hrun] at hs
      exact hpost a hs
  | error e s' =>
      rw [hrun] at hs
      exact hfails e hs

theorem record (event : Event) :
    Ensures (Action.record event : Action ε σ Unit) (fun _ => True) fails :=
  fun _ => trivial

theorem after_record {event : Event} {next : Action ε σ β} {post : β → Prop}
    (h : Ensures next post fails) :
    Ensures (Action.record event >>= fun _ => next) post fails :=
  bind (record event) fun _ _ => h

theorem ofState {f : StateM σ α} {post : α → Prop} (h : ∀ s, post (f.run s).1) :
    Ensures (Action.ofState f : Action ε σ α) post fails :=
  fun s => h s.state

end Action.Ensures

end GrammarFuzz
