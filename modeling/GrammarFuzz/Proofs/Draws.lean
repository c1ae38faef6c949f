import GrammarFuzz.Random.Range

/-!
# Numbers stay in their range

Whatever the words of a source are, a number that is drawn lies in its range.  The one
case to be looked at is that of a second word: a number is moved on by one only if the
remainder is large, and the remainder of the greatest number is too small for that.
-/

namespace GrammarFuzz

/-- Whether the results of a computation meet a condition, whatever state it starts from. -/
def Yields {σ α : Type} (m : StateM σ α) (post : α → Prop) : Prop :=
  ∀ s, post (m.run s).1

namespace Yields

variable {σ α β : Type}

theorem pure {post : α → Prop} {a : α} (h : post a) : Yields (Pure.pure a : StateM σ α) post :=
  fun _ => h

theorem bind {m : StateM σ α} {next : α → StateM σ β} {mid : α → Prop} {post : β → Prop}
    (h : Yields m mid) (hnext : ∀ a, mid a → Yields (next a) post) : Yields (m >>= next) post :=
  fun s => hnext _ (h s) (m.run s).2

end Yields

namespace WordSource

variable {ρ : Type} [WordSource ρ]

theorem draw_lt (width : Width) (s : ρ) : ((draw width).run s).1 < width.count := by
  cases width with
  | single => exact (next s).1.toNat_lt
  | double =>
      have hlow : (next s).1.toNat < 0x100000000 := (next s).1.toNat_lt
      have hhigh : (next (next s).2).1.toNat < 0x100000000 := (next (next s).2).1.toNat_lt
      show (next (next s).2).1.toNat * 0x100000000 + (next s).1.toNat < 0x10000000000000000
      omega

theorem quotient_add_one_lt {word size count : Nat} (hword : word < count)
    (hlarge : count - size < word * size % count) : word * size / count + 1 < size := by
  apply Nat.lt_of_not_le
  intro hnot
  have hproduct : count * (word * size / count) + word * size % count = word * size :=
    Nat.div_add_mod _ _
  have hgreatest : count * size ≤ count * (word * size / count + 1) :=
    Nat.mul_le_mul_left _ (by omega)
  have hbelow : (word + 1) * size ≤ count * size := Nat.mul_le_mul_right _ hword
  rw [Nat.mul_add, Nat.mul_one] at hgreatest
  rw [Nat.add_mul, Nat.one_mul] at hbelow
  omega

theorem drawBelow_cases {size : Nat} (hsize : 0 < size) (width : Width) (s : ρ) :
    let word := ((draw width).run s).1
    ((drawBelow width size).run s).1 = word * size / width.count ∨
      width.count - size < word * size % width.count ∧
        ((drawBelow width size).run s).1 = word * size / width.count + 1 := by
  intro word
  have hrun : (drawBelow width size).run s =
      (if width.count - size < word * size % width.count then do
        let second ← draw width
        if width.count ≤ word * size % width.count + second * size / width.count then
          return word * size / width.count + 1
        return word * size / width.count
      else return word * size / width.count : StateM ρ Nat).run ((draw width).run s).2 := by
    unfold drawBelow
    rw [StateT.run_bind]
    simp only [if_neg (Nat.ne_of_gt hsize)]
    rfl
  rw [hrun]
  split
  · rename_i hlarge
    rw [StateT.run_bind]
    show ((ite _ _ _ : StateM ρ Nat).run _).1 = _ ∨ _ ∧ ((ite _ _ _ : StateM ρ Nat).run _).1 = _
    split
    · exact Or.inr ⟨hlarge, rfl⟩
    · exact Or.inl rfl
  · exact Or.inl rfl

theorem drawBelow_lt {size : Nat} (hsize : 0 < size) (width : Width) (s : ρ) :
    ((drawBelow width size).run s).1 < size := by
  have hword := draw_lt width s
  rcases drawBelow_cases hsize width s with hsame | ⟨hlarge, hnext⟩
  · rw [hsame]
    apply (Nat.div_lt_iff_lt_mul (by omega)).mpr
    rw [Nat.mul_comm size]
    exact Nat.mul_lt_mul_of_pos_right hword hsize
  · rw [hnext]
    exact quotient_add_one_lt hword hlarge

theorem drawBelow_zero_lt (width : Width) (s : ρ) :
    ((drawBelow width 0).run s).1 < width.count :=
  draw_lt width s

/-- The size of a range is taken modulo the number of words, which cuts nothing off. -/
theorem drawBelow_mod_lt {size : Nat} (hsize : 0 < size) (width : Width) (s : ρ) :
    ((drawBelow width (size % width.count)).run s).1 < size := by
  rcases Nat.eq_zero_or_pos (size % width.count) with hzero | hpos
  · have hcount : width.count ≤ size := Nat.le_of_dvd hsize (Nat.dvd_of_mod_eq_zero hzero)
    rw [hzero]
    exact Nat.lt_of_lt_of_le (drawBelow_zero_lt width s) hcount
  · exact Nat.lt_of_lt_of_le (drawBelow_lt hpos width s) (Nat.mod_le _ _)

theorem yields_drawBetween {low high : Nat} (h : low ≤ high) (width : Width) :
    Yields (drawBetween width low high : StateM ρ Nat) fun n => low ≤ n ∧ n ≤ high := by
  intro s
  have hlt := drawBelow_mod_lt (Nat.succ_pos (high - low)) width s
  show low ≤ low + ((drawBelow width ((high - low + 1) % width.count)).run s).1 ∧
    low + ((drawBelow width ((high - low + 1) % width.count)).run s).1 ≤ high
  constructor
  · exact Nat.le_add_right _ _
  · calc
      low + ((drawBelow width ((high - low + 1) % width.count)).run s).1
          ≤ low + (high - low) := Nat.add_le_add_left (Nat.le_of_lt_succ hlt) low
      _ = high := Nat.add_sub_of_le h

theorem yields_drawSize {low high : Nat} (h : low ≤ high) :
    Yields (drawSize low high : StateM ρ Nat) fun n => low ≤ n ∧ n ≤ high :=
  yields_drawBetween h (.ofBound high)

theorem yields_drawIndex {length : Nat} (h : 0 < length) :
    Yields (drawIndex length : StateM ρ Nat) fun n => n < length :=
  fun s => Nat.lt_of_le_pred h (yields_drawBetween (Nat.zero_le _) (.ofBound length) s).2

theorem yields_drawFrom {α : Type} (items : List α) :
    Yields (drawFrom items : StateM ρ (Option α)) fun drawn =>
      (items = [] ∧ drawn = none) ∨ ∃ x ∈ items, drawn = some x := by
  unfold drawFrom
  by_cases hitems : items = []
  · rw [if_pos (List.isEmpty_iff.mpr hitems)]
    exact .pure (Or.inl ⟨hitems, rfl⟩)
  · rw [if_neg (by simpa using hitems)]
    have hpos := List.length_pos_iff.mpr hitems
    refine .bind (yields_drawIndex hpos) fun index hindex => .pure (Or.inr ?_)
    exact ⟨_, List.getElem_mem hindex, List.getElem?_eq_getElem hindex⟩

end WordSource
end GrammarFuzz
