import GrammarFuzz.Grammar.Normalization
import GrammarFuzz.Proofs.Segmentation
import Mathlib.Data.List.Nodup

/-!
# Fresh names

The numbered variants of a name differ from the name and from each other.  Of as
many variants as there are names in use, one is therefore free, so that the search
for a fresh name succeeds.
-/

namespace GrammarFuzz

theorem Word.ofNat_injective {m n : Nat} (h : Word.ofNat m = Word.ofNat n) : m = n := by
  have hm : Nat.ofDigitChars 10 (Word.ofNat m) 0 = m := Nat.ofDigitChars_ten_toDigits
  have hn : Nat.ofDigitChars 10 (Word.ofNat n) 0 = n := Nat.ofDigitChars_ten_toDigits
  rw [← hm, ← hn, h]

namespace Normalization

theorem numbered_injective {name : Word} {m n : Nat} (h : numbered name m = numbered name n) :
    m = n := by
  rw [numbered, numbered, List.append_assoc, List.append_assoc] at h
  have htail := List.append_cancel_left h
  rcases List.cons.inj htail with ⟨_, hdigits⟩
  exact Word.ofNat_injective (List.append_cancel_right hdigits)

theorem length_numbered_gt (name : Word) (n : Nat) : name.length < (numbered name n).length := by
  have hstem : name.length ≤ (stem name).length + 1 := by
    unfold stem
    split
    · rw [List.length_dropLast]
      omega
    · omega
  have hdigits : 0 < (Word.ofNat n).length := Nat.length_toDigits_pos
  simp only [numbered, List.length_append, List.length_cons, List.length_nil]
  omega

theorem numbered_ne (name : Word) (n : Nat) : numbered name n ≠ name := by
  intro h
  have hlt := length_numbered_gt name n
  rw [h] at hlt
  omega

def candidates (taken : List Word) (name : Word) : List Word :=
  (List.range taken.length).map fun n => numbered name (n + 1)

theorem nodup_candidates (taken : List Word) (name : Word) : (candidates taken name).Nodup := by
  refine List.Nodup.map_on ?_ List.nodup_range
  intro m _ n _ h
  have hmn := numbered_injective h
  omega

theorem exists_free_candidate {taken : List Word} {name : Word} (hname : name ∈ taken) :
    ∃ candidate ∈ candidates taken name, candidate ∉ taken := by
  -- Otherwise the name and its candidates would be more names than are taken.
  by_cases hall : ∀ candidate ∈ candidates taken name, candidate ∈ taken
  · have hnodup : (name :: candidates taken name).Nodup := by
      rw [List.nodup_cons]
      refine ⟨?_, nodup_candidates taken name⟩
      intro hmem
      rcases List.mem_map.mp hmem with ⟨n, _, hn⟩
      exact numbered_ne name (n + 1) hn
    have hsubset : name :: candidates taken name ⊆ taken := by
      intro x hx
      rcases List.mem_cons.mp hx with rfl | hx
      · exact hname
      · exact hall x hx
    have hlen := hnodup.length_le_of_subset hsubset
    rw [List.length_cons, candidates, List.length_map, List.length_range] at hlen
    omega
  · simpa using hall

theorem find?_candidates_isSome {taken : List Word} {name : Word} (hname : name ∈ taken) :
    ((candidates taken name).find? fun x => !taken.contains x).isSome = true := by
  rcases exists_free_candidate hname with ⟨x, hx, hfree⟩
  exact List.find?_isSome.mpr ⟨x, hx, by simpa using hfree⟩

theorem freshName_of_not_mem {taken : List Word} {name : Word} (h : name ∉ taken) :
    freshName taken name = name := by
  rw [freshName, if_neg (by simpa using h)]

theorem find?_candidates {taken : List Word} {name : Word} (hname : name ∈ taken) :
    (candidates taken name).find? (fun x => !taken.contains x) =
      some (freshName taken name) := by
  rcases Option.isSome_iff_exists.mp (find?_candidates_isSome hname) with ⟨x, hx⟩
  have hfresh : freshName taken name =
      ((candidates taken name).find? fun x => !taken.contains x).getD [] := by
    rw [freshName, if_pos (by simpa using hname)]
    rfl
  rw [hfresh, hx]
  rfl

theorem freshName_not_mem (taken : List Word) (name : Word) : freshName taken name ∉ taken := by
  by_cases hname : name ∈ taken
  · have hfree := List.find?_some (find?_candidates hname)
    simpa using hfree
  · rw [freshName_of_not_mem hname]
    exact hname

theorem not_mem_of_freshName {taken : List Word} {name symbol : Word}
    (h : freshName taken name = symbol) : symbol ∉ taken := by
  rw [← h]
  exact freshName_not_mem taken name

theorem freshName_of_perm {taken taken' : List Word} (h : List.Perm taken taken') (name : Word) :
    freshName taken name = freshName taken' name := by
  have hcontains : ∀ x, taken.contains x = taken'.contains x := by
    intro x
    rw [Bool.eq_iff_iff, List.contains_iff_mem, List.contains_iff_mem, h.mem_iff]
  simp only [freshName, hcontains, h.length_eq]

/-!
## The shape of fresh names
-/

/-- Whether nothing but hyphens and digits is in a word. -/
def IsNumbering (suffix : Word) : Prop :=
  ∀ c ∈ suffix, c = '-' ∨ c.isDigit = true

theorem IsNumbering.not_mem {suffix : Word} (h : IsNumbering suffix) {c : Char} (hc : c ≠ '-')
    (hdigit : c.isDigit = false) : c ∉ suffix := by
  intro hmem
  rcases h c hmem with heq | htrue
  · exact hc heq
  · rw [hdigit] at htrue
    cases htrue

theorem IsNumbering.append {first second : Word} (h : IsNumbering first)
    (h' : IsNumbering second) : IsNumbering (first ++ second) :=
  fun c hc => (List.mem_append.mp hc).elim (h c) (h' c)

theorem stem_enclose (inner : Word) : stem (Brackets.angle.enclose inner) = '<' :: inner := by
  have hlast : (Brackets.angle.enclose inner).getLast? = some '>' :=
    List.getLast?_concat
  rw [stem, if_pos hlast]
  exact List.dropLast_concat

theorem freshName_enclose (taken : List Word) (inner : Word) :
    ∃ suffix : Word, freshName taken (Brackets.angle.enclose inner) =
        Brackets.angle.enclose (inner ++ suffix) ∧ IsNumbering suffix := by
  by_cases hname : Brackets.angle.enclose inner ∈ taken
  · have hmem := List.mem_of_find?_eq_some (find?_candidates hname)
    rcases List.mem_map.mp hmem with ⟨n, _, hn⟩
    refine ⟨'-' :: Word.ofNat (n + 1), ?_, ?_⟩
    · rw [← hn, numbered, stem_enclose]
      simp [Brackets.enclose, Brackets.angle]
    · intro c hc
      rcases List.mem_cons.mp hc with rfl | hc
      · exact Or.inl rfl
      · exact Or.inr (Nat.isDigit_of_mem_toDigits (by decide) (by decide) hc)
  · refine ⟨[], ?_, fun _ hc => (List.not_mem_nil hc).elim⟩
    rw [freshName_of_not_mem hname, List.append_nil]

theorem exists_suffix_of_freshName {taken : List Word} {base name : Word}
    (h : freshName taken (Brackets.angle.enclose base) = Brackets.angle.enclose name) :
    ∃ suffix : Word, name = base ++ suffix ∧ IsNumbering suffix := by
  rcases freshName_enclose taken base with ⟨suffix, hname, hsuffix⟩
  rw [hname] at h
  exact ⟨suffix, (Brackets.enclose_injective h).symm, hsuffix⟩

theorem fits_append_suffix {b : Brackets} (hb : b = .angle ∨ b = .round) {inner suffix : Word}
    (hinner : b.Fits inner) (hsuffix : IsNumbering suffix) :
    b.Fits (inner ++ suffix) := by
  have hdigit : ∀ c d : Char, c.isDigit = true → d.isDigit = false → c ≠ d := by
    intro c d hc hd heq
    subst heq
    rw [hc] at hd
    cases hd
  intro c hc
  rcases List.mem_append.mp hc with hc | hc
  · exact hinner c hc
  · rcases hsuffix c hc with rfl | hc
    · rcases hb with rfl | rfl
      · decide
      · decide
    · rcases hb with rfl | rfl
      · refine ⟨hdigit c _ hc rfl, hdigit c _ hc rfl, ?_⟩
        exact bne_iff_ne.mpr (hdigit c ' ' hc rfl)
      · exact ⟨hdigit c _ hc rfl, hdigit c _ hc rfl, rfl⟩

/-- A fresh name for a non-terminal is a non-terminal that may stand where the old one may. -/
theorem exists_freshName_eq (taken : List Word) (inner : Word) :
    ∃ name, freshName taken (Brackets.angle.enclose inner) = Brackets.angle.enclose name ∧
      (Brackets.angle.Fits inner → Brackets.angle.Fits name) ∧
      (Brackets.round.Fits inner → Brackets.round.Fits name) := by
  rcases freshName_enclose taken inner with ⟨suffix, hname, hsuffix⟩
  refine ⟨inner ++ suffix, hname, ?_, ?_⟩
  · exact fun hinner => fits_append_suffix (Or.inl rfl) hinner hsuffix
  · exact fun hinner => fits_append_suffix (Or.inr rfl) hinner hsuffix

def groupStem : Word :=
  ['s', 'y', 'm', 'b', 'o', 'l']

theorem exists_freshName_groupName (taken : List Word) :
    ∃ name, freshName taken groupName = Brackets.angle.enclose name ∧
      Brackets.angle.Fits name ∧ Brackets.round.Fits name := by
  rcases exists_freshName_eq taken groupStem with ⟨name, hname, ha, hr⟩
  exact ⟨name, hname, ha (by decide), hr (by decide)⟩

end Normalization
end GrammarFuzz
