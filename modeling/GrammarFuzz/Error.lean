import GrammarFuzz.Settings.Decoding
import GrammarFuzz.Grammar.Validation

/-!
# Errors

Each kind of error lists its causes; the wording is kept apart in one function per
kind.
-/

namespace GrammarFuzz

/-!
## Files
-/

inductive FileProblem where
  | notFound
  | malformed
  | invalidSettings (problem : Settings.Problem)
  | notWritable

namespace FileProblem

def message : FileProblem → String
  | notFound => "Could not open file: No such file or directory (os error 2)"
  | malformed => "Invalid JSON syntax"
  | invalidSettings problem => "Invalid config: " ++ problem.message
  | notWritable => "Could not open output file: No such file or directory (os error 2)"

end FileProblem

structure FileError where
  file : Word
  problem : FileProblem

def FileError.message (e : FileError) : String :=
  "ParsingError in " ++ e.file.text ++ ": " ++ e.problem.message

/-!
## Grammars
-/

inductive Defect where
  | notAnObject
  | notAList
  | emptyList
  | notAPair (value : Json)
  | notAString (value : Json)
  | optionsNotAnObject (value : Json)
  | found (finding : Finding)

def Defect.message : Defect → String
  | notAnObject => "Grammar must be specified as an object"
  | notAList => "expansion is not a list"
  | emptyList => "expansion list empty"
  | notAPair value => value.compact.text ++ ": not a (string, options) pair"
  | notAString value => value.compact.text ++ ": not a string"
  | optionsNotAnObject value => value.compact.text ++ ": options must be an object"
  | found finding => finding.message

inductive GrammarError where
  | malformed (symbol : Word) (defect : Defect)
  | missingStartSymbol (symbol : Word)
  | invalid (findings : List Finding)
  | mergeConflict (symbol : Word)
  | file (error : FileError)

def GrammarError.message : GrammarError → String
  | malformed symbol defect =>
      "Malformed expansions of '" ++ symbol.text ++ "': " ++ defect.message
  | missingStartSymbol symbol =>
      "The grammar does not define the start symbol " ++ symbol.text
  | invalid findings =>
      "The grammar is invalid (" ++ toString findings.length ++ " problem(s)): " ++
        "; ".intercalate (findings.map Finding.message)
  | mergeConflict symbol => "Two grammars define the same non-terminal: " ++ symbol.text
  | file error => error.message

/--
The verdict on a validated grammar.  A structural finding takes precedence over all
others.
-/
def Assessment.toExcept (a : Assessment) : Except GrammarError Unit :=
  match a.findings.find? Finding.isStructural with
  | some finding => .error (.malformed finding.subject (.found finding))
  | none => if a.isValid then .ok () else .error (.invalid a.findings)

/-!
## Generation and mutation
-/

inductive GenerationError where
  | expansionExhausted (term : Word) (trials : Nat)
  | undefinedSymbol (symbol : Word)
  | invalidBounds (min max : Nat)
  | invalidCharRange (start range : Nat)
  | unterminated (count : Nat)
  /-- The steps granted to an unbounded phase are used up. -/
  | outOfSteps
deriving DecidableEq

def GenerationError.message : GenerationError → String
  | expansionExhausted term trials =>
      "Cannot expand " ++ (Text.quoted term).text ++ " after " ++ toString trials ++ " trials"
  | undefinedSymbol symbol =>
      "The non-terminal '" ++ symbol.text ++ "' is referenced but never defined"
  | invalidBounds min max =>
      "min_nonterminals (" ++ toString min ++ ") must not exceed max_nonterminals (" ++
        toString max ++ ")"
  | invalidCharRange start range =>
      "Invalid character range: " ++ toString range ++ " code point(s) from 0x" ++
        Word.text (Nat.toDigits 16 start)
  | unterminated n =>
      "Derivation tree still contains " ++ toString n ++ " unexpanded non-terminal(s)"
  | outOfSteps => "Generation has used up the steps granted to it"

inductive MutationError where
  | emptySeedPool
  | invalidBounds (min max : Nat)
deriving DecidableEq

def MutationError.message : MutationError → String
  | emptySeedPool => "The seed pool is empty"
  | invalidBounds min max =>
      "min_mutations (" ++ toString min ++ ") must not exceed max_mutations (" ++
        toString max ++ ")"

inductive Error where
  | file (error : FileError)
  | grammar (error : GrammarError)
  | generation (error : GenerationError)
  | mutation (error : MutationError)

def Error.message : Error → String
  | file error => error.message
  | grammar error => error.message
  | generation error => error.message
  | mutation error => error.message

end GrammarFuzz
