import GrammarFuzz.Proofs.Actions
import GrammarFuzz.Generation.Growth

/-!
# Runs from given choices

What a step of generation comes to is settled by the choices that its strategy starts from;
neither the memo nor the journal makes a difference to it.
-/

namespace GrammarFuzz
namespace Grower

/-- Whether a step succeeds from some choices, with a result and choices that meet a condition. -/
def Step.Attains {σ α : Type} (step : Step σ α) (choices : σ) (post : α → σ → Prop) : Prop :=
  ∀ s : Journaled (State σ), s.state.choices = choices →
    ∃ a s', step s = .ok a s' ∧ post a s'.state.choices

namespace Step.Attains

variable {σ α β : Type} {choices : σ} {post : α → σ → Prop}

theorem pure {a : α} (h : post a choices) : Attains (Pure.pure a) choices post := by
  intro s hs
  subst hs
  exact ⟨a, s, rfl, h⟩

theorem bind {step : Step σ α} {next : α → Step σ β} {mid : α → σ → Prop} {post : β → σ → Prop}
    (h : Attains step choices mid) (hnext : ∀ a later, mid a later → Attains (next a) later post) :
    Attains (step >>= next) choices post := by
  intro s hs
  rcases h s hs with ⟨a, s', hrun, hmid⟩
  rcases hnext a _ hmid s' rfl with ⟨b, s'', hrun', hpost⟩
  exact ⟨b, s'', (Action.bind_of_ok hrun next).trans hrun', hpost⟩

theorem mono {step : Step σ α} {post' : α → σ → Prop} (h : Attains step choices post)
    (hpost : ∀ a later, post a later → post' a later) : Attains step choices post' := by
  intro s hs
  rcases h s hs with ⟨a, s', hrun, ha⟩
  exact ⟨a, s', hrun, hpost a _ ha⟩

theorem after_record {event : Event} {next : Step σ α} (h : Attains next choices post) :
    Attains (Action.record event >>= fun _ => next) choices post := by
  have hrecord : Attains (Action.record event) choices fun _ later => later = choices :=
    fun s hs => ⟨(), _, rfl, hs⟩
  exact bind hrecord fun _ _ heq => heq ▸ h

theorem after_consult {decision : StateM σ α} {next : α → Step σ β} {post : β → σ → Prop}
    (h : Attains (next (decision.run choices).1) (decision.run choices).2 post) :
    Attains (Grower.consult decision >>= next) choices post := by
  have hconsult : Attains (Grower.consult decision) choices fun a later =>
      a = (decision.run choices).1 ∧ later = (decision.run choices).2 := by
    intro s hs
    subst hs
    exact ⟨_, _, rfl, rfl, rfl⟩
  refine bind hconsult fun a later hresult => ?_
  rcases hresult with ⟨rfl, rfl⟩
  exact h

theorem read {γ : Type} (view : State σ → γ) :
    Attains (Action.read view : Step σ γ) choices fun _ later => later = choices :=
  fun s hs => ⟨view s.state, s, rfl, hs⟩

theorem lookUp (expansions : List Expansion) :
    Attains (Grower.lookUp expansions) choices fun nodes later =>
      nodes = (expansions.map fun e => childrenOf e.text) ∧ later = choices :=
  fun s hs => ⟨_, _, rfl, s.state.memo.childrenOfEach_fst expansions, hs⟩

theorem settle (symbol : Word) (chosen candidates : Nat) :
    Attains (Grower.settle symbol chosen candidates) choices fun index later =>
      index = min chosen (candidates - 1) ∧ later = choices := by
  unfold Grower.settle
  split
  · rename_i hchosen
    exact pure ⟨(Nat.min_eq_left (Nat.le_sub_one_of_lt hchosen)).symm, rfl⟩
  · rename_i hchosen
    have hle : candidates - 1 ≤ chosen :=
      Nat.le_trans (Nat.sub_le candidates 1) (Nat.le_of_not_lt hchosen)
    exact after_record (pure ⟨(Nat.min_eq_right hle).symm, rfl⟩)

theorem ensures {step : Step σ α} {condition : α → Prop} {fails : GenerationError → Prop}
    (h : ∀ choices, Attains step choices fun a _ => condition a) :
    Action.Ensures step condition fails := by
  intro s
  rcases h s.state.choices s rfl with ⟨a, s', hrun, ha⟩
  rw [hrun]
  exact ha

end Step.Attains

end Grower
end GrammarFuzz
