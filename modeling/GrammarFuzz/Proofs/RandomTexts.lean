import GrammarFuzz.RandomText
import GrammarFuzz.Proofs.Mutation.Edits

/-!
# Random texts

A run of code points is accepted if it is not empty and has characters only.  The check looks
at the two ends of the run: a run around the surrogates has a surrogate as a member, and the
last member of a run that goes on behind the characters is no character.  What is drawn from
an accepted run is a character therefore, and a text is as long as the length drawn for it.
-/

namespace GrammarFuzz
namespace RandomText

def IsCharRun (first count : Nat) : Prop :=
  0 < count ∧ ∀ code, first ≤ code → code < first + count → code.isValidChar

/-!
## The check
-/

theorem isCharRange_of_fits {first count : Nat} (h : first + count < Width.single.count) :
    isCharRange first count = true ↔
      0 < count ∧ first + count ≤ 0x110000 ∧ (first + count ≤ 0xd800 ∨ 0xdfff < first) := by
  have hstop : checkedStop? first count = some (first + count) := if_pos h
  rw [isCharRange, hstop]
  simp only [Bool.and_eq_true, Bool.or_eq_true, decide_eq_true_eq, and_assoc]
  refine and_congr Nat.lt_add_right_iff_pos ?_
  rw [Nat.sub_le_iff_le_add]

theorem isCharRange_of_not_fits {first count : Nat} (h : ¬ first + count < Width.single.count) :
    isCharRange first count = false := by
  have hstop : checkedStop? first count = none := if_neg h
  rw [isCharRange, hstop]

theorem fits_of_le {n : Nat} (h : n ≤ 0x110000) : n < Width.single.count :=
  Nat.lt_of_le_of_lt h (by decide)

theorem isCharRange_iff_ends {first count : Nat} :
    isCharRange first count = true ↔
      0 < count ∧ first + count ≤ 0x110000 ∧ (first + count ≤ 0xd800 ∨ 0xdfff < first) := by
  by_cases hfits : first + count < Width.single.count
  · exact isCharRange_of_fits hfits
  · rw [isCharRange_of_not_fits hfits]
    constructor
    · intro h
      cases h
    · intro h
      exact absurd (fits_of_le h.2.1) hfits

theorem IsCharRun.stop_le {first count : Nat} (h : IsCharRun first count) :
    first + count ≤ 0x110000 := by
  have hlast : (first + count - 1).isValidChar := by
    have hpos := h.1
    exact h.2 _ (by omega) (by omega)
  unfold Nat.isValidChar at hlast
  omega

theorem IsCharRun.apart {first count : Nat} (h : IsCharRun first count) :
    first + count ≤ 0xd800 ∨ 0xdfff < first := by
  by_cases hbelow : first + count ≤ 0xd800
  · exact Or.inl hbelow
  · have hpos := h.1
    have hmember : (max first 0xd800).isValidChar := h.2 _ (Nat.le_max_left _ _) (by omega)
    unfold Nat.isValidChar at hmember
    omega

theorem isCharRange_iff {first count : Nat} :
    isCharRange first count = true ↔ IsCharRun first count := by
  rw [isCharRange_iff_ends]
  constructor
  · intro h
    refine ⟨h.1, ?_⟩
    intro code hfirst hstop
    rcases h.2.2 with hbelow | habove
    · exact Or.inl (Nat.lt_of_lt_of_le hstop hbelow)
    · exact Or.inr ⟨Nat.lt_of_lt_of_le habove hfirst, Nat.lt_of_lt_of_le hstop h.2.1⟩
  · intro h
    exact ⟨h.1, h.stop_le, h.apart⟩

theorem stopCode_eq {r : RandomText} (h : IsCharRun r.firstCode r.codeCount) :
    r.stopCode = r.firstCode + r.codeCount :=
  Nat.mod_eq_of_lt (fits_of_le h.stop_le)

/-!
## What is drawn
-/

section Draws

variable {ρ : Type} [WordSource ρ]

theorem yields_drawCode {r : RandomText} (h : IsCharRun r.firstCode r.codeCount) :
    Yields (WordSource.drawBetween .single r.firstCode (r.stopCode - 1) : StateM ρ Nat) fun code =>
      code.isValidChar ∧ r.firstCode ≤ (Char.ofNat code).toNat ∧
        (Char.ofNat code).toNat < r.firstCode + r.codeCount := by
  rw [stopCode_eq h]
  have hordered : r.firstCode ≤ r.firstCode + r.codeCount - 1 :=
    Nat.le_sub_one_of_lt (Nat.lt_add_of_pos_right h.1)
  intro s
  rcases WordSource.yields_drawBetween hordered .single s with ⟨hfirst, hlast⟩
  have hstop := Nat.lt_of_le_sub_one (Nat.add_pos_right _ h.1) hlast
  have hvalid := h.2 _ hfirst hstop
  rw [Mutation.toNat_ofNat_of_valid hvalid]
  exact ⟨hvalid, hfirst, hstop⟩

theorem yields_drawChars {r : RandomText} (h : IsCharRun r.firstCode r.codeCount) (n : Nat)
    (drawn : Word) :
    Yields (r.drawChars n drawn : StateM ρ Word) fun w => ∃ added, w = drawn.reverse ++ added ∧
      added.length = n ∧
        ∀ c ∈ added, r.firstCode ≤ c.toNat ∧ c.toNat < r.firstCode + r.codeCount := by
  -- The characters drawn so far are passed along, so the induction is for all of them.
  induction n generalizing drawn with
  | zero => exact .pure ⟨[], (List.append_nil _).symm, rfl, fun c hc => by cases hc⟩
  | succ n ih =>
      refine .bind (yields_drawCode h) fun code hcode s => ?_
      rw [if_pos hcode.1]
      rcases ih (Char.ofNat code :: drawn) s with ⟨added, hword, hlength, hmembers⟩
      refine ⟨Char.ofNat code :: added, ?_, congrArg Nat.succ hlength, ?_⟩
      · rw [hword, List.reverse_cons, List.append_assoc, List.singleton_append]
      · intro c hc
        rcases List.mem_cons.mp hc with rfl | hc
        · exact hcode.2
        · exact hmembers c hc

theorem generate_run {r : RandomText} (h : IsCharRun r.firstCode r.codeCount) (s : ρ) :
    let w := (r.generate.run s).1
    w.length = ((WordSource.drawSize r.minLength r.maxLength).run s).1 ∧
      ∀ c ∈ w, r.firstCode ≤ c.toNat ∧ c.toNat < r.firstCode + r.codeCount := by
  intro w
  rcases yields_drawChars h _ [] ((WordSource.drawSize r.minLength r.maxLength).run s).2 with
    ⟨added, hword, hlength, hmembers⟩
  have hw : w = added := hword
  rw [hw]
  exact ⟨hlength, hmembers⟩

end Draws

/-!
## Creation
-/

theorem create_cases (minLength maxLength first count : Nat) :
    let made := create minLength maxLength first count
    (maxLength < minLength ∧ made = .error (.invalidBounds minLength maxLength)) ∨
      (minLength ≤ maxLength ∧ ¬ IsCharRun first count ∧
        made = .error (.invalidCharRange first count)) ∨
      (minLength ≤ maxLength ∧ IsCharRun first count ∧
        made = .ok ⟨minLength, maxLength, first, count⟩) := by
  intro made
  by_cases hbounds : maxLength < minLength
  · exact Or.inl ⟨hbounds, if_pos hbounds⟩
  · have hle := Nat.not_lt.mp hbounds
    by_cases hrun : IsCharRun first count
    · have hchecked : isCharRange first count = true := isCharRange_iff.mpr hrun
      exact Or.inr (Or.inr ⟨hle, hrun, (if_neg hbounds).trans (if_pos hchecked)⟩)
    · have hchecked : ¬ isCharRange first count = true := mt isCharRange_iff.mp hrun
      exact Or.inr (Or.inl ⟨hle, hrun, (if_neg hbounds).trans (if_neg hchecked)⟩)

/--
A generator is created exactly if its bounds are ordered and its run has characters only, and
unordered bounds are reported before an unusable run.  The end of the run of a generator is
computed without a carry, and its texts have the length that is drawn for them.
-/
theorem create_exact (minLength maxLength first count : Nat) :
    let r : RandomText := ⟨minLength, maxLength, first, count⟩
    let made := create minLength maxLength first count
    (made = .ok r ↔ minLength ≤ maxLength ∧ IsCharRun first count) ∧
      (made = .error (.invalidBounds minLength maxLength) ↔ maxLength < minLength) ∧
      (made = .error (.invalidCharRange first count) ↔
        minLength ≤ maxLength ∧ ¬ IsCharRun first count) ∧
      (made = .ok r → r.stopCode = first + count ∧
        ∀ {ρ : Type} [WordSource ρ] (s : ρ),
          let w := (r.generate.run s).1
          w.length = ((WordSource.drawSize minLength maxLength).run s).1 ∧
            minLength ≤ w.length ∧ w.length ≤ maxLength ∧
            ∀ c ∈ w, first ≤ c.toNat ∧ c.toNat < first + count) := by
  intro r made
  rcases create_cases minLength maxLength first count with
    ⟨hlt, hmade⟩ | ⟨hle, hrun, hmade⟩ | ⟨hle, hrun, hmade⟩
  · have hmade : made = .error (.invalidBounds minLength maxLength) := hmade
    have hnot : ¬ minLength ≤ maxLength := Nat.not_le.mpr hlt
    simp [hmade, hlt, hnot]
  · have hmade : made = .error (.invalidCharRange first count) := hmade
    have hnot : ¬ maxLength < minLength := Nat.not_lt.mpr hle
    simp [hmade, hle, hnot, hrun]
  · have hmade : made = .ok r := hmade
    have hnot : ¬ maxLength < minLength := Nat.not_lt.mpr hle
    have hstop : r.stopCode = first + count := stopCode_eq hrun
    refine ⟨by simp [hmade, hle, hrun], by simp [hmade, hnot], by simp [hmade, hrun], ?_⟩
    refine fun _ => ⟨hstop, ?_⟩
    intro ρ _ s w
    rcases generate_run (r := r) hrun s with ⟨hlength, hmembers⟩
    rcases WordSource.yields_drawSize hle s with ⟨hmin, hmax⟩
    rw [← hlength] at hmin hmax
    exact ⟨hlength, hmin, hmax, hmembers⟩

example : create standard.minLength standard.maxLength standard.firstCode standard.codeCount =
    .ok standard :=
  rfl

theorem lastBeforeSurrogates_create :
    let r : RandomText := ⟨5, 5, 0xd000, 0x800⟩
    create 5 5 0xd000 0x800 = .ok r ∧
      (r.generate.run (Script.ofWords [0xffffffff])).1.length = 5 ∧
      create 6 5 0xd000 0x801 = .error (.invalidBounds 6 5) ∧
      create 5 5 0xd000 0x801 = .error (.invalidCharRange 0xd000 0x801) := by
  intro r
  have hmade : create 5 5 0xd000 0x800 = .ok r := rfl
  rcases (create_exact 5 5 0xd000 0x800).2.2.2 hmade with ⟨_, hgenerate⟩
  rcases hgenerate (Script.ofWords [0xffffffff]) with ⟨_, hmin, hmax, _⟩
  exact ⟨hmade, Nat.le_antisymm hmax hmin, rfl, rfl⟩

end RandomText
end GrammarFuzz
