import GrammarFuzz.Settings.Mutation
import GrammarFuzz.Event
import GrammarFuzz.Random.Range

/-!
# Mutation

Known inputs are varied by small random edits: a character is deleted, a printable
ASCII character is inserted, or one of the low seven bits of a character is flipped.
A mutator returns its seeds first and mutants of them afterwards.
-/

namespace GrammarFuzz
namespace Mutation

variable {ρ : Type} [WordSource ρ]

/-!
## Edits
-/

/-- The character with one bit flipped, if that is a character. -/
def flipBit (bit : Nat) (c : Char) : Char :=
  let n := c.toNat ^^^ 1 <<< bit
  if n.isValidChar then Char.ofNat n else c

def deleteSomewhere (w : Word) : StateM ρ Word := do
  if w.isEmpty then return []
  let position ← WordSource.drawIndex w.length
  return w.eraseIdx position

def insertSomewhere (w : Word) : StateM ρ Word := do
  let position ← WordSource.drawSize 0 w.length
  let code ← WordSource.drawBetween .single 32 126
  return w.insertIdx position (Char.ofNat code)

def flipSomewhere (w : Word) : StateM ρ Word := do
  if w.isEmpty then return []
  let position ← WordSource.drawIndex w.length
  let bit ← WordSource.drawBetween .single 0 6
  return w.modify position (flipBit bit)

def mutate (w : Word) : StateM ρ Word := do
  match ← WordSource.drawBetween .single 0 2 with
  | 0 => deleteSomewhere w
  | 1 => insertSomewhere w
  | _ => flipSomewhere w

def mutateTimes : Nat → Word → StateM ρ Word
  | 0, w => return w
  | n + 1, w => do
      let w ← mutate w
      mutateTimes n w

end Mutation

/-!
## Mutants of seeds
-/

structure Mutator where
  seeds : List Word
  minMutations : Nat
  maxMutations : Nat

/-- The number of seeds returned since the start or the last reset, and the source of chance. -/
structure Mutator.State (ρ : Type) where
  position : Nat
  source : ρ

namespace Mutator

variable {ρ : Type} [WordSource ρ]

abbrev Step (ρ α : Type) := Action Empty (State ρ) α

def create (seeds : List Word) (settings : MutationSettings) :
    Except MutationError Mutator :=
  match settings.checkBounds with
  | .error e => .error e
  | .ok () =>
      if seeds.isEmpty then .error .emptySeedPool
      else .ok ⟨seeds, settings.minMutations, settings.maxMutations⟩

def draw {α : Type} (f : StateM ρ α) : Step ρ α :=
  Action.ofState fun s =>
    let (a, source) := f.run s.source
    (a, { s with source })

def mutationCount (m : Mutator) : Step ρ Nat :=
  draw (WordSource.drawSize m.minMutations m.maxMutations)

def candidate (m : Mutator) : Step ρ Word := do
  let seed ← draw (WordSource.drawFrom m.seeds)
  let count ← m.mutationCount
  let candidate ← draw (Mutation.mutateTimes count (seed.getD []))
  Action.record (.mutated count candidate)
  return candidate

def next (m : Mutator) : Step ρ Word := do
  let position ← Action.read State.position
  match m.seeds[position]? with
  | some seed =>
      Action.ofState fun s => ((), { s with position := position + 1 })
      return seed
  | none => m.candidate

def reset : Step ρ Unit :=
  Action.ofState fun s => ((), { s with position := 0 })

end Mutator
end GrammarFuzz
