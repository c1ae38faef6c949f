import GrammarFuzz.Random.Source

/-!
# Random numbers in a range

A word times the size of the range, divided by the number of words, is a number of
the range.  Numbers near the end of a remainder would come a little too rarely; a
second word then decides whether to move on by one.

Ranges are drawn with single words, or with double words if their upper bound needs
them.
-/

namespace GrammarFuzz

inductive Width where
  | single
  | double
deriving DecidableEq

namespace Width

def count : Width → Nat
  | single => 0x100000000
  | double => 0x10000000000000000

def ofBound (bound : Nat) : Width :=
  if bound < single.count then single else double

end Width

namespace WordSource

variable {ρ : Type} [WordSource ρ]

def draw : Width → StateM ρ Nat
  | .single => draw32
  | .double => draw64

/-- A number below `size`; the full range of words has size zero here. -/
def drawBelow (width : Width) (size : Nat) : StateM ρ Nat := do
  let word ← draw width
  if size = 0 then return word
  let product := word * size
  let result := product / width.count
  let remainder := product % width.count
  if width.count - size < remainder then
    let second ← draw width
    if width.count ≤ remainder + second * size / width.count then return result + 1
  return result

def drawBetween (width : Width) (low high : Nat) : StateM ρ Nat := do
  let offset ← drawBelow width ((high - low + 1) % width.count)
  return low + offset

def drawIndex (length : Nat) : StateM ρ Nat :=
  drawBetween (.ofBound length) 0 (length - 1)

def drawSize (low high : Nat) : StateM ρ Nat :=
  drawBetween (.ofBound high) low high

def drawFrom {α : Type} (items : List α) : StateM ρ (Option α) := do
  if items.isEmpty then return none
  let index ← drawIndex items.length
  return items[index]?

end WordSource
end GrammarFuzz
