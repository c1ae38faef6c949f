import GrammarFuzz.CommandLine.Arguments
import GrammarFuzz.Settings.Loading
import GrammarFuzz.Generation.Substitution
import GrammarFuzz.Generation.Growth
import GrammarFuzz.Grammar.Catalogue
import GrammarFuzz.Grammar.Loading
import GrammarFuzz.Mutation
import GrammarFuzz.Runner

/-!
# Commands

There are three commands: one generates inputs from a grammar, one mutates given
inputs, and one writes the normalized form of grammars to a file.  A command names
the files it reads; what it does is then a function of their contents.
-/

namespace GrammarFuzz
namespace CommandLine

/-!
## Arguments
-/

structure GenerateArgs where
  grammar : Option Word
  builtin : Option Grammar
  settings : Option Word
  start : Option Word
  minNonterminals : Option Nat
  maxNonterminals : Option Nat
  count : Nat
  seed : Option Nat
  normalize : Bool
  precomputeCosts : Bool
  cacheExpansions : Bool
  simple : Bool

structure MutateArgs where
  settings : Option Word
  minMutations : Option Nat
  maxMutations : Option Nat
  count : Nat
  seed : Option Nat
  seeds : List Word

structure NormalizeArgs where
  grammars : List Word
  output : Word
  start : Option Word

inductive Command where
  | generate (args : GenerateArgs)
  | mutate (args : MutateArgs)
  | normalize (args : NormalizeArgs)

namespace GenerateArgs

def spec : Spec where
  program := "treefuzz-gen"
  options := [
    { long := "grammar", about := "Grammar file in JSON format" },
    { long := "builtin", form := .oneOf Catalogue.names, about := "Use a built-in grammar" },
    { long := "config", about := "Generator settings in JSON format. Flags override them" },
    { long := "start" },
    { long := "min-nonterminals", form := .number },
    { long := "max-nonterminals", form := .number },
    { long := "count", short := some 'c', form := .number, default? := some "1" },
    { long := "seed", short := some 's', form := .number },
    { long := "no-normalize", form := .flag, about := "Keep EBNF operators as literal text" },
    { long := "precompute-costs", form := .flag },
    { long := "cache-expansions", form := .flag },
    { long := "simple", form := .flag
      about := "Use the string-rewriting generator instead of derivation trees" }]

/-- Exactly one of a grammar file and a grammar of the catalogue has to be given. -/
def parse (args : List Word) : Except Stop GenerateArgs := do
  let a ← spec.parse args
  let grammar := a.value? "grammar"
  let builtin := (a.value? "builtin").bind fun name => Catalogue.find? name.text
  if grammar.isSome == builtin.isSome then throw .refused
  return {
    grammar, builtin
    settings := a.value? "config"
    start := a.value? "start"
    minNonterminals := a.number? "min-nonterminals"
    maxNonterminals := a.number? "max-nonterminals"
    count := (a.number? "count").getD 1
    seed := a.number? "seed"
    normalize := !a.has "no-normalize"
    precomputeCosts := a.has "precompute-costs"
    cacheExpansions := a.has "cache-expansions"
    simple := a.has "simple" }

def override (a : GenerateArgs) (c : GenerationSettings) : GenerationSettings where
  start := a.start.getD c.start
  minNonterminals := a.minNonterminals.getD c.minNonterminals
  maxNonterminals := a.maxNonterminals.getD c.maxNonterminals
  seed := a.seed.or c.seed
  precomputeCosts := c.precomputeCosts || a.precomputeCosts
  cacheExpansions := c.cacheExpansions || a.cacheExpansions

end GenerateArgs

namespace MutateArgs

def spec : Spec where
  program := "treefuzz-mutate"
  options := [
    { long := "config", about := "Mutation settings in JSON format. Flags override them" },
    { long := "min-mutations", form := .number },
    { long := "max-mutations", form := .number },
    { long := "count", short := some 'c', form := .number, default? := some "10" },
    { long := "seed", short := some 's', form := .number }]
  positional? := some "SEEDS"

def parse (args : List Word) : Except Stop MutateArgs := do
  let a ← spec.parse args
  return {
    settings := a.value? "config"
    minMutations := a.number? "min-mutations"
    maxMutations := a.number? "max-mutations"
    count := (a.number? "count").getD 10
    seed := a.number? "seed"
    seeds := a.positionals }

def override (a : MutateArgs) (c : MutationSettings) : MutationSettings where
  minMutations := a.minMutations.getD c.minMutations
  maxMutations := a.maxMutations.getD c.maxMutations
  seed := a.seed.or c.seed

end MutateArgs

namespace NormalizeArgs

def spec : Spec where
  program := "treefuzz-normalize"
  options := [
    { long := "grammar", form := .texts, isRequired := true
      about := "Grammar files in JSON format. Their rules are merged" },
    { long := "output", short := some 'o', isRequired := true },
    { long := "start", short := some 's' }]

def parse (args : List Word) : Except Stop NormalizeArgs := do
  let a ← spec.parse args
  let some output := a.value? "output" | throw .refused
  return { grammars := a.values "grammar", output, start := a.value? "start" }

end NormalizeArgs

/-!
## Running
-/

abbrev Files := Word → Option ByteArray

structure Effect where
  printed : ByteArray := .empty
  written : Option (Word × Word) := none
  error : Option Error := none

namespace Effect

def failed (e : Error) : Effect :=
  { error := some e }

def ofRuns {α σ : Type} (result : Except Error α × Sink × Journaled σ) : Effect :=
  { printed := result.2.1.octets
    error := match result.1 with | .error e => some e | .ok _ => none }

end Effect

/-- No run of a command line comes near this number of steps. -/
def steps : Nat :=
  1000000000000000000

def chance (seed : Option Nat) (fallback : UInt64) : ChaCha :=
  .ofSeed ((seed.map Nat.toUInt64).getD fallback)

def loadSettings {κ : Type} (schema : Settings.Schema κ) (file : Option Word) (files : Files) :
    Except Error κ :=
  match file with
  | none => .ok schema.default
  | some file => (schema.ofFile file (files file)).mapError .file

def fileSource (files : Files) (file : Word) : Source :=
  .file file (files file)

namespace GenerateArgs

def sources (a : GenerateArgs) (files : Files) : List Source :=
  a.grammar.toList.map (fileSource files) ++ a.builtin.toList.map .grammar

def generate (a : GenerateArgs) (g : Grammar) (settings : GenerationSettings) (chance : ChaCha) :
    Effect :=
  let sink : Sink := { room := none }
  if a.simple then
    match Substituter.create g settings Substituter.defaultTrials with
    | .error e => .failed (.grammar e)
    | .ok s =>
        .ofRuns (Runner.printing.runs (Action.mapError .generation (s.generate steps))
          a.count sink ⟨chance, []⟩)
  else
    match (Grower.create g settings .uniform chance).1 with
    | .error e => .failed e
    | .ok (f, state) =>
        .ofRuns (Runner.printing.runs (Action.mapError .generation (f.generate steps))
          a.count sink ⟨state, []⟩)

def run (a : GenerateArgs) (files : Files) (fallback : UInt64) : Effect :=
  match loadSettings GenerationSettings.schema a.settings files with
  | .error e => .failed e
  | .ok settings =>
      let settings := a.override settings
      let options : LoadOptions := { start := settings.start, normalize := a.normalize }
      match (options.load (a.sources files)).1 with
      | .error e => .failed (.grammar e)
      | .ok g => a.generate g settings (chance settings.seed fallback)

end GenerateArgs

namespace MutateArgs

def run (a : MutateArgs) (files : Files) (fallback : UInt64) : Effect :=
  match loadSettings MutationSettings.schema a.settings files with
  | .error e => .failed e
  | .ok settings =>
      let settings := a.override settings
      match Mutator.create a.seeds settings with
      | .error e => .failed (.mutation e)
      | .ok m =>
          let state : Mutator.State ChaCha := ⟨0, chance settings.seed fallback⟩
          .ofRuns (Runner.printing.runs (Action.mapError Empty.elim m.next) a.count
            { room := none } ⟨state, []⟩)

end MutateArgs

namespace NormalizeArgs

def run (a : NormalizeArgs) (files : Files) : Effect :=
  let options : LoadOptions := { start := a.start.getD startSymbol }
  match (options.load (a.grammars.map (fileSource files))).1 with
  | .error e => .failed (.grammar e)
  | .ok g => { written := some (a.output, g.fileText) }

end NormalizeArgs

namespace Command

def parse (name : String) (args : List Word) : Except Stop Command :=
  match name with
  | "generate" => (GenerateArgs.parse args).map generate
  | "mutate" => (MutateArgs.parse args).map mutate
  | "normalize" => (NormalizeArgs.parse args).map normalize
  | _ => .error .refused

def inputs : Command → List Word
  | generate a => a.grammar.toList ++ a.settings.toList
  | mutate a => a.settings.toList
  | normalize a => a.grammars

def run (command : Command) (files : Files) (fallback : UInt64) : Effect :=
  match command with
  | generate a => a.run files fallback
  | mutate a => a.run files fallback
  | normalize a => a.run files

end Command
end CommandLine
end GrammarFuzz
