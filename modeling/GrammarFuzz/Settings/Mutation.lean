import GrammarFuzz.Error

/-!
# Settings of mutation
-/

namespace GrammarFuzz

structure MutationSettings where
  minMutations : Nat := 2
  maxMutations : Nat := 10
  seed : Option Nat := none
deriving DecidableEq

namespace MutationSettings

open Settings

def fields : List (Entry MutationSettings) := [
  ⟨Word.ofString "min-mutations",
    fun c v => (decodeWord .count v).map fun x => { c with minMutations := x }⟩,
  ⟨Word.ofString "max-mutations",
    fun c v => (decodeWord .count v).map fun x => { c with maxMutations := x }⟩,
  ⟨Word.ofString "seed", fun c v => (decodeSeed v).map fun x => { c with seed := x }⟩]

def schema : Schema MutationSettings :=
  ⟨"MutationConfig", {}, fields⟩

def checkBounds (c : MutationSettings) : Except MutationError Unit :=
  if c.maxMutations < c.minMutations then
    .error (.invalidBounds c.minMutations c.maxMutations)
  else .ok ()

def toJson (c : MutationSettings) : Json :=
  .object [
    (Word.ofString "min-mutations", .int c.minMutations),
    (Word.ofString "max-mutations", .int c.maxMutations),
    (Word.ofString "seed", match c.seed with | none => .null | some n => .int n)]

end MutationSettings
end GrammarFuzz
