/-!
# Sources of random words

All chance comes from a source of 32-bit words.  A double word takes two of them,
the low half first.
-/

namespace GrammarFuzz

class WordSource (ρ : Type) where
  next : ρ → UInt32 × ρ

namespace WordSource

variable {ρ : Type} [WordSource ρ]

def draw32 : StateM ρ Nat := fun source =>
  let (word, source) := next source
  (word.toNat, source)

def draw64 : StateM ρ Nat := do
  let low ← draw32
  let high ← draw32
  return high * 0x100000000 + low

end WordSource

/-- A source that repeats a given list of words; an empty list counts as zeros. -/
structure Script where
  words : List UInt32
  upcoming : List UInt32

namespace Script

def ofWords (words : List UInt32) : Script :=
  ⟨words, words⟩

def next (s : Script) : UInt32 × Script :=
  match s.upcoming with
  | w :: rest => (w, ⟨s.words, rest⟩)
  | [] =>
      match s.words with
      | w :: rest => (w, ⟨s.words, rest⟩)
      | [] => (0, s)

instance : WordSource Script :=
  ⟨next⟩

end Script
end GrammarFuzz
