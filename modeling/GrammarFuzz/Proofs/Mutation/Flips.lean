import GrammarFuzz.Proofs.Mutation.Edits

/-!
# Bit flips

A bit flip changes one character of a word and leaves the others alone.  The new character is
the old one with one of its low seven bits inverted, whichever character and bit these are: no
flip leads out of the characters, so that none is taken back.
-/

namespace GrammarFuzz
namespace Mutation

/-!
## Flipped characters
-/

theorem testBit_flipBit_ne_iff (c : Char) {bit : Nat} (hbit : bit ≤ 6) (k : Nat) :
    (flipBit bit c).toNat.testBit k ≠ c.toNat.testBit k ↔ k = bit := by
  rw [toNat_flipBit c hbit, Nat.testBit_xor, Nat.one_shiftLeft, Nat.testBit_two_pow]
  by_cases hk : bit = k
  · simp [hk]
  · simp [hk, Ne.symm hk]

theorem flipBit_ne (c : Char) {bit : Nat} (hbit : bit ≤ 6) : flipBit bit c ≠ c := by
  intro hsame
  have hdiffers := (testBit_flipBit_ne_iff c hbit bit).mpr rfl
  rw [hsame] at hdiffers
  exact hdiffers rfl

/-!
## Flipped words
-/

/-- How a word comes from another one by a flip: where it differs, and in which bit. -/
structure FlippedAt (position bit : Nat) (w v : Word) : Prop where
  length_eq : v.length = w.length
  position_lt : position < w.length
  bit_le : bit ≤ 6
  differs_iff : ∀ i, v[i]? ≠ w[i]? ↔ i = position
  bits : ∃ c d, w[position]? = some c ∧ v[position]? = some d ∧
    ∀ k, d.toNat.testBit k ≠ c.toNat.testBit k ↔ k = bit

theorem flippedAt_modify {w : Word} {position bit : Nat} (hposition : position < w.length)
    (hbit : bit ≤ 6) : FlippedAt position bit w (w.modify position (flipBit bit)) where
  length_eq := List.length_modify ..
  position_lt := hposition
  bit_le := hbit
  differs_iff i := by
    by_cases hi : position = i
    · subst hi
      rw [List.getElem?_modify_eq, List.getElem?_eq_getElem hposition]
      simp [flipBit_ne _ hbit]
    · rw [List.getElem?_modify_ne _ _ hi]
      simp [Ne.symm hi]
  bits := by
    have hold : w[position]? = some w[position] := List.getElem?_eq_getElem hposition
    refine ⟨w[position], flipBit bit w[position], hold, ?_, testBit_flipBit_ne_iff _ hbit⟩
    rw [List.getElem?_modify_eq, hold]
    rfl

/--
A flip keeps the length of a word and changes exactly one of its characters, in exactly one of
the low seven bits.  Every flipped code point is that of a character.
-/
theorem flipSomewhere_exact {ρ : Type} [WordSource ρ] {w : Word} (h : w ≠ []) (s : ρ) :
    (∃ position bit, FlippedAt position bit w ((flipSomewhere w).run s).1) ∧
      ∀ (c : Char) (bit : Nat), bit ≤ 6 →
        (c.toNat ^^^ 1 <<< bit).isValidChar ∧ (flipBit bit c).toNat = c.toNat ^^^ 1 <<< bit := by
  have hflips : Yields (flipSomewhere w : StateM ρ Word) fun v =>
      ∃ position bit, FlippedAt position bit w v := by
    unfold flipSomewhere
    rw [if_neg (by simpa using h)]
    refine .bind (WordSource.yields_drawIndex (List.length_pos_iff.mpr h)) fun i hi => ?_
    refine .bind (WordSource.yields_drawBetween (by decide) .single) fun bit hbit => ?_
    exact .pure ⟨i, bit, flippedAt_modify hi hbit.2⟩
  exact ⟨hflips s, fun c bit hbit => ⟨isValidChar_xor_bit c hbit, toNat_flipBit c hbit⟩⟩

def lastCharacters : Word :=
  [Char.ofNat 0xd7ff, Char.ofNat 0x10ffff]

theorem lastCharacters_flipSomewhere :
    let flipped := ((flipSomewhere lastCharacters).run (Script.ofWords [0xffffffff])).1
    lastCharacters ≠ [] ∧ (∃ position bit, FlippedAt position bit lastCharacters flipped) ∧
      flipped = [Char.ofNat 0xd7ff, Char.ofNat 0x10ffbf] := by
  intro flipped
  have hne : lastCharacters ≠ [] := by decide
  exact ⟨hne, (flipSomewhere_exact hne (Script.ofWords [0xffffffff])).1, rfl⟩

end Mutation
end GrammarFuzz
