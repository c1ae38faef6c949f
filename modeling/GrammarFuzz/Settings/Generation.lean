import GrammarFuzz.Error

/-!
# Settings of generation
-/

namespace GrammarFuzz

structure GenerationSettings where
  start : Word := startSymbol
  /-- A tree grows at greatest cost until it has this many open non-terminals. -/
  minNonterminals : Nat := 0
  /-- A tree is expanded at random while it has fewer open non-terminals than this. -/
  maxNonterminals : Nat := 10
  precomputeCosts : Bool := false
  cacheExpansions : Bool := false
  seed : Option Nat := none
deriving DecidableEq

namespace GenerationSettings

open Settings

def fields : List (Entry GenerationSettings) := [
  ⟨Word.ofString "start-symbol", fun c v => (decodeString v).map fun x => { c with start := x }⟩,
  ⟨Word.ofString "min-nonterminals",
    fun c v => (decodeWord .count v).map fun x => { c with minNonterminals := x }⟩,
  ⟨Word.ofString "max-nonterminals",
    fun c v => (decodeWord .count v).map fun x => { c with maxNonterminals := x }⟩,
  ⟨Word.ofString "precompute-costs",
    fun c v => (decodeFlag v).map fun x => { c with precomputeCosts := x }⟩,
  ⟨Word.ofString "cache-expansions",
    fun c v => (decodeFlag v).map fun x => { c with cacheExpansions := x }⟩,
  ⟨Word.ofString "seed", fun c v => (decodeSeed v).map fun x => { c with seed := x }⟩]

def schema : Schema GenerationSettings :=
  ⟨"GeneratorConfig", {}, fields⟩

def checkBounds (c : GenerationSettings) : Except GenerationError Unit :=
  if c.maxNonterminals < c.minNonterminals then
    .error (.invalidBounds c.minNonterminals c.maxNonterminals)
  else .ok ()

def toJson (c : GenerationSettings) : Json :=
  .object [
    (Word.ofString "start-symbol", .string c.start),
    (Word.ofString "min-nonterminals", .int c.minNonterminals),
    (Word.ofString "max-nonterminals", .int c.maxNonterminals),
    (Word.ofString "precompute-costs", .bool c.precomputeCosts),
    (Word.ofString "cache-expansions", .bool c.cacheExpansions),
    (Word.ofString "seed", match c.seed with | none => .null | some n => .int n)]

end GenerationSettings
end GrammarFuzz
