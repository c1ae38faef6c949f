/-!
# Words

A word is a list of characters.  Symbols, expansion texts and generated inputs
are words; strings appear only where text enters or leaves the program.

The module fixes the two operations on words that the rest of the library is
built on: replacing the first occurrence of a word inside another one, and the
sorted set of the words in a list.
-/

namespace GrammarFuzz

abbrev Word := List Char

namespace Word

def dropLead? : Word → Word → Option Word
  | [], w => some w
  | _ :: _, [] => none
  | x :: xs, c :: cs => if x = c then dropLead? xs cs else none

theorem dropLead?_append (x rest : Word) : dropLead? x (x ++ rest) = some rest := by
  induction x with
  | nil => rfl
  | cons c x ih => simpa [dropLead?] using ih

theorem eq_append_of_dropLead? {x w rest : Word} (h : dropLead? x w = some rest) :
    w = x ++ rest := by
  induction x generalizing w with
  | nil => simpa [dropLead?] using h
  | cons c x ih =>
      cases w with
      | nil => simp [dropLead?] at h
      | cons d w =>
          by_cases hc : c = d
          · simp only [dropLead?, hc, if_true] at h
            rw [ih h, hc, List.cons_append]
          · simp [dropLead?, hc] at h

def replaceFirst (old new : Word) : Word → Word
  | [] => if old = [] then new else []
  | c :: rest =>
      match dropLead? old (c :: rest) with
      | some tail => new ++ tail
      | none => c :: replaceFirst old new rest

theorem replaceFirst_cons {old : Word} {c : Char} {rest : Word}
    (h : dropLead? old (c :: rest) = none) (new : Word) :
    replaceFirst old new (c :: rest) = c :: replaceFirst old new rest := by
  rw [replaceFirst, h]

theorem replaceFirst_cases {old : Word} (hold : old ≠ []) (new w : Word) :
    (∃ u v, w = u ++ (old ++ v) ∧ replaceFirst old new w = u ++ (new ++ v)) ∨
      ((∀ u v, w ≠ u ++ (old ++ v)) ∧ replaceFirst old new w = w) := by
  induction w with
  | nil =>
      refine Or.inr ⟨?_, by simp [replaceFirst, hold]⟩
      intro u v h
      simp [hold] at h
  | cons c w ih =>
      cases hlead : dropLead? old (c :: w) with
      | some tail =>
          have hw : c :: w = old ++ tail := eq_append_of_dropLead? hlead
          refine Or.inl ⟨[], tail, by rw [hw, List.nil_append], ?_⟩
          rw [replaceFirst, hlead]
          rfl
      | none =>
          rw [replaceFirst_cons hlead]
          rcases ih with ⟨u, v, hw, hnew⟩ | ⟨hnone, hsame⟩
          · exact Or.inl ⟨c :: u, v, by rw [hw, List.cons_append], by rw [hnew, List.cons_append]⟩
          · refine Or.inr ⟨?_, by rw [hsame]⟩
            intro u v h
            cases u with
            | nil =>
                rw [List.nil_append] at h
                rw [h, dropLead?_append] at hlead
                cases hlead
            | cons d u =>
                rw [List.cons_append] at h
                exact hnone u v (List.cons.inj h).2

def occursIn (x : Word) : Word → Bool
  | [] => x.isEmpty
  | c :: rest => (dropLead? x (c :: rest)).isSome || occursIn x rest

/-!
## Sorted sets of words

Words are ordered by the code points of their characters.
-/

def insertSorted (x : Word) : List Word → List Word
  | [] => [x]
  | y :: rest =>
      if x = y then y :: rest
      else if x < y then x :: y :: rest
      else y :: insertSorted x rest

def sortedSet (words : List Word) : List Word :=
  words.foldr insertSorted []

theorem mem_insertSorted {x y : Word} {words : List Word} :
    y ∈ insertSorted x words ↔ y = x ∨ y ∈ words := by
  induction words with
  | nil => simp [insertSorted]
  | cons z rest ih =>
      by_cases hxz : x = z
      · simp [insertSorted, hxz]
      · by_cases hlt : x < z
        · simp [insertSorted, hxz, hlt]
        · simp only [insertSorted, hxz, hlt, if_false, List.mem_cons, ih]
          exact or_left_comm

theorem mem_sortedSet {x : Word} {words : List Word} :
    x ∈ sortedSet words ↔ x ∈ words := by
  induction words with
  | nil => simp [sortedSet]
  | cons y rest ih =>
      rw [sortedSet, List.foldr_cons, mem_insertSorted, List.mem_cons]
      exact or_congr_right ih

/-!
## Text
-/

def ofNat (n : Nat) : Word :=
  Nat.toDigits 10 n

def ofString (s : String) : Word :=
  s.toList

def text (w : Word) : String :=
  String.ofList w

end Word
end GrammarFuzz
