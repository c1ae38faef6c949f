/-!
# Maps with an accumulator

A left-to-right map over a list in which each element also sees, and may
extend, what the elements before it left behind.
-/

namespace GrammarFuzz

universe u v w x

variable {α : Type u} {β : Type v} {σ : Type w}

def mapAccum (f : σ → α → β × σ) : σ → List α → List β × σ
  | s, [] => ([], s)
  | s, a :: rest =>
      let (b, s) := f s a
      let (bs, s) := mapAccum f s rest
      (b :: bs, s)

theorem mapAccum_eq_self {f : σ → α → α × σ} {s : σ} {xs : List α}
    (hf : ∀ a ∈ xs, f s a = (a, s)) : mapAccum f s xs = (xs, s) := by
  induction xs with
  | nil => rfl
  | cons a rest ih =>
      have hrest := ih fun b hb => hf b (List.mem_cons_of_mem _ hb)
      rw [mapAccum, hf a List.mem_cons_self]
      dsimp only
      rw [hrest]

theorem map_mapAccum {γ : Type x} {f : σ → α → β × σ} {g : β → γ} {h : α → γ}
    (hf : ∀ s a, g (f s a).1 = h a) (s : σ) (xs : List α) :
    (mapAccum f s xs).1.map g = xs.map h := by
  induction xs generalizing s with
  | nil => rfl
  | cons a rest ih => simp [mapAccum, hf, ih]

end GrammarFuzz
