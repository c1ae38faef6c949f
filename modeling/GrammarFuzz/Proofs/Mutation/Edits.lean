import GrammarFuzz.Mutation
import GrammarFuzz.Proofs.Draws

/-!
# Edits of words

A mutation is a single edit of a word: it deletes a character, inserts a printable one, or
flips one of the low seven bits of a character.  A flipped character is always a character
again, since the gap of the surrogates and the end of the code points lie at multiples of
128.  Mutating a word several times makes as many edits, and each of them takes it further
away from its origin by one character at most.
-/

namespace GrammarFuzz

/-!
## The distance of words
-/

namespace Word

/-- The least number of deletions, insertions and replacements that make one word into another. -/
def distance : Word → Word → Nat
  | [], v => v.length
  | c :: u, [] => (c :: u).length
  | c :: u, d :: v =>
      min (distance u v + if c = d then 0 else 1)
        (min (distance u (d :: v)) (distance (c :: u) v) + 1)
termination_by u v => u.length + v.length

theorem distance_nil_right (u : Word) : distance u [] = u.length := by
  cases u with
  | nil => rw [distance]
  | cons c u => rw [distance]

theorem distance_self (u : Word) : distance u u = 0 := by
  induction u with
  | nil => rw [distance, List.length_nil]
  | cons c u ih => rw [distance, ih, if_pos rfl, Nat.zero_min]

theorem distance_cons_right_le (u : Word) (d : Char) (v : Word) :
    distance u (d :: v) ≤ distance u v + 1 := by
  cases u with
  | nil =>
      rw [distance, distance]
      exact Nat.le_refl _
  | cons c u =>
      rw [distance]
      omega

def Near (u u' : Word) : Prop :=
  ∀ v, distance u v ≤ distance u' v + 1

theorem near_delete (c : Char) (u : Word) : Near (c :: u) u := by
  intro v
  cases v with
  | nil =>
      rw [distance_nil_right, distance_nil_right]
      exact Nat.le_refl _
  | cons d v =>
      rw [distance]
      omega

theorem near_insert (c : Char) (u : Word) : Near u (c :: u) := by
  intro v
  induction v with
  | nil =>
      rw [distance_nil_right, distance_nil_right, List.length_cons]
      omega
  | cons d v ih =>
      have hinsert := distance_cons_right_le u d v
      rw [distance.eq_3]
      omega

theorem near_replace (c d : Char) (u : Word) : Near (c :: u) (d :: u) := by
  intro v
  induction v with
  | nil =>
      rw [distance_nil_right, distance_nil_right]
      exact Nat.le_succ _
  | cons x v ih =>
      have hcost : (if c = x then 0 else 1) ≤ 1 := by
        split
        · exact Nat.zero_le 1
        · exact Nat.le_refl 1
      rw [distance, distance]
      omega

theorem Near.cons {u u' : Word} (h : Near u u') (c : Char) : Near (c :: u) (c :: u') := by
  intro v
  induction v with
  | nil =>
      have hnil := h []
      rw [distance_nil_right, distance_nil_right] at hnil ⊢
      exact Nat.succ_le_succ hnil
  | cons d v ih =>
      have hrest := h v
      have hsame := h (d :: v)
      rw [distance, distance]
      omega

theorem Near.append {u u' : Word} (h : Near u u') (before : Word) :
    Near (before ++ u) (before ++ u') := by
  induction before with
  | nil => exact h
  | cons c before ih => exact ih.cons c

end Word

/-!
## Flipped bits
-/

namespace Mutation

/-- Both ends of the gap between the code points of characters are multiples of 128. -/
theorem isValidChar_of_div_eq {m n : Nat} (h : m / 128 = n / 128) (hn : n.isValidChar) :
    m.isValidChar := by
  unfold Nat.isValidChar at hn ⊢
  omega

theorem xor_bit_div (n : Nat) {bit : Nat} (hbit : bit ≤ 6) : (n ^^^ 1 <<< bit) / 128 = n / 128 := by
  have hlow : 1 <<< bit / 2 ^ 7 = 0 := by
    apply Nat.div_eq_of_lt
    rw [Nat.one_shiftLeft]
    exact Nat.pow_lt_pow_right (by decide) (Nat.lt_succ_of_le hbit)
  calc
    (n ^^^ 1 <<< bit) / 2 ^ 7 = n / 2 ^ 7 ^^^ 1 <<< bit / 2 ^ 7 := Nat.xor_div_two_pow
    _ = n / 2 ^ 7 := by rw [hlow, Nat.xor_zero]

theorem toNat_ofNat_of_valid {n : Nat} (h : n.isValidChar) : (Char.ofNat n).toNat = n := by
  rw [Char.ofNat, dif_pos h]
  rfl

theorem isValidChar_xor_bit (c : Char) {bit : Nat} (hbit : bit ≤ 6) :
    (c.toNat ^^^ 1 <<< bit).isValidChar :=
  isValidChar_of_div_eq (xor_bit_div c.toNat hbit) c.valid

theorem toNat_flipBit (c : Char) {bit : Nat} (hbit : bit ≤ 6) :
    (flipBit bit c).toNat = c.toNat ^^^ 1 <<< bit := by
  have hvalid := isValidChar_xor_bit c hbit
  rw [flipBit, if_pos hvalid]
  exact toNat_ofNat_of_valid hvalid

/-!
## Edits
-/

/-- One edit of a word; only the empty word may be left as it is. -/
inductive Edit : Word → Word → Prop
  | delete {before behind : Word} {c : Char} : Edit (before ++ c :: behind) (before ++ behind)
  | insert {before behind : Word} {c : Char} :
      0x20 ≤ c.toNat → c.toNat ≤ 0x7e → Edit (before ++ behind) (before ++ c :: behind)
  | flip {before behind : Word} {c d : Char} {bit : Nat} :
      bit ≤ 6 → d.toNat = c.toNat ^^^ 1 <<< bit →
      Edit (before ++ c :: behind) (before ++ d :: behind)
  | idle : Edit [] []

inductive Edits : Nat → Word → Word → Prop
  | none {w : Word} : Edits 0 w w
  | step {n : Nat} {u v w : Word} : Edit u v → Edits n v w → Edits (n + 1) u w

theorem Edit.near {u v : Word} (h : Edit u v) : Word.Near u v := by
  cases h with
  | @delete before behind c => exact (Word.near_delete c behind).append before
  | @insert before behind c _ _ => exact (Word.near_insert c behind).append before
  | @flip before behind c d _ _ _ => exact (Word.near_replace c d behind).append before
  | idle => exact fun w => Nat.le_succ _

theorem Edits.distance_le {n : Nat} {u w : Word} (h : Edits n u w) : Word.distance u w ≤ n := by
  induction h with
  | none => exact Nat.le_of_eq (Word.distance_self _)
  | @step n u v w hedit _ ih =>
      calc
        Word.distance u w ≤ Word.distance v w + 1 := hedit.near w
        _ ≤ n + 1 := Nat.succ_le_succ ih

theorem eq_take_cons_drop {w : Word} {i : Nat} (h : i < w.length) :
    w = w.take i ++ w[i] :: w.drop (i + 1) := by
  rw [List.getElem_cons_drop, List.take_append_drop]

theorem edit_eraseIdx {w : Word} {i : Nat} (h : i < w.length) : Edit w (w.eraseIdx i) := by
  have hdelete : Edit (w.take i ++ w[i] :: w.drop (i + 1)) (w.take i ++ w.drop (i + 1)) := .delete
  rwa [← eq_take_cons_drop h, ← List.eraseIdx_eq_take_drop_succ] at hdelete

theorem edit_modify_flipBit {w : Word} {i bit : Nat} (h : i < w.length) (hbit : bit ≤ 6) :
    Edit w (w.modify i (flipBit bit)) := by
  have hflip : Edit (w.take i ++ w[i] :: w.drop (i + 1))
      (w.take i ++ flipBit bit w[i] :: w.drop (i + 1)) := .flip hbit (toNat_flipBit w[i] hbit)
  rwa [← eq_take_cons_drop h, ← List.modify_eq_take_cons_drop h] at hflip

theorem insertIdx_length_append (before behind : Word) (c : Char) :
    (before ++ behind).insertIdx before.length c = before ++ c :: behind := by
  induction before with
  | nil => rfl
  | cons d before ih => exact congrArg (d :: ·) ih

theorem edit_insertIdx {w : Word} {i : Nat} {c : Char} (h : i ≤ w.length) (hlow : 0x20 ≤ c.toNat)
    (hhigh : c.toNat ≤ 0x7e) : Edit w (w.insertIdx i c) := by
  have hinsert : Edit (w.take i ++ w.drop i) (w.take i ++ c :: w.drop i) := .insert hlow hhigh
  rwa [← insertIdx_length_append, List.length_take_of_le h, List.take_append_drop] at hinsert

/-!
## Mutations are edits
-/

section Draws

variable {ρ : Type} [WordSource ρ]

open WordSource

theorem yields_deleteSomewhere (w : Word) :
    Yields (deleteSomewhere w : StateM ρ Word) (Edit w) := by
  unfold deleteSomewhere
  cases w with
  | nil => exact .pure .idle
  | cons c w =>
      refine .bind (yields_drawIndex (Nat.succ_pos w.length)) fun position hposition => ?_
      exact .pure (edit_eraseIdx hposition)

theorem yields_insertSomewhere (w : Word) :
    Yields (insertSomewhere w : StateM ρ Word) (Edit w) := by
  unfold insertSomewhere
  refine .bind (yields_drawSize (Nat.zero_le w.length)) fun position hposition => ?_
  refine .bind (yields_drawBetween (by decide) .single) fun code hcode => ?_
  have hcharacter : (Char.ofNat code).toNat = code :=
    toNat_ofNat_of_valid (Or.inl (Nat.lt_of_le_of_lt hcode.2 (by decide)))
  rw [← hcharacter] at hcode
  exact .pure (edit_insertIdx hposition.2 hcode.1 hcode.2)

theorem yields_flipSomewhere (w : Word) :
    Yields (flipSomewhere w : StateM ρ Word) (Edit w) := by
  unfold flipSomewhere
  cases w with
  | nil => exact .pure .idle
  | cons c w =>
      refine .bind (yields_drawIndex (Nat.succ_pos w.length)) fun position hposition => ?_
      refine .bind (yields_drawBetween (by decide) .single) fun bit hbit => ?_
      exact .pure (edit_modify_flipBit hposition hbit.2)

theorem yields_mutate (w : Word) : Yields (mutate w : StateM ρ Word) (Edit w) := by
  unfold mutate
  refine .bind (yields_drawBetween (by decide) .single) fun choice _ => ?_
  split
  · exact yields_deleteSomewhere w
  · exact yields_insertSomewhere w
  · exact yields_flipSomewhere w

theorem yields_mutateTimes (n : Nat) (w : Word) :
    Yields (mutateTimes n w : StateM ρ Word) (Edits n w) := by
  induction n generalizing w with
  | zero => exact .pure .none
  | succ n ih =>
      refine .bind (yields_mutate w) fun v hedit => ?_
      exact fun s => .step hedit (ih v s)

end Draws

end Mutation
end GrammarFuzz
