import GrammarFuzz.Error
import GrammarFuzz.Json.Reader

/-!
# The file format of grammars

A grammar is written as a JSON object that maps each symbol to the array of its
expansions.  An expansion is its text, or a pair of the text and an object of
options.  On reading, the options of a pair may also be null.
-/

namespace GrammarFuzz

namespace Expansion

def toJson (e : Expansion) : Json :=
  if e.options.isEmpty then .string e.text
  else .array [.string e.text, .object e.options.entries]

/-- The expansion that a value stands for; the symbol is named when the value has a defect. -/
def ofJson (symbol : Word) : Json → Except GrammarError Expansion
  | .string text => .ok ⟨text, .empty⟩
  | .array [.string text, .object members] => .ok ⟨text, .ofList members⟩
  | .array [.string text, .null] => .ok ⟨text, .empty⟩
  | .array [.string _, options] => .error (.malformed symbol (.optionsNotAnObject options))
  | .array [value, _] => .error (.malformed symbol (.notAString value))
  | .array items => .error (.malformed symbol (.notAPair (.array items)))
  | value => .error (.malformed symbol (.notAString value))

end Expansion

namespace Grammar

def toJson (g : Grammar) : Json :=
  .object (g.rules.entries.map fun (symbol, expansions) =>
    (symbol, .array (expansions.map Expansion.toJson)))

def ruleOfJson : Word × Json → Except GrammarError (Word × List Expansion)
  | (symbol, .array []) => .error (.malformed symbol .emptyList)
  | (symbol, .array items) => do
      let expansions ← items.mapM (Expansion.ofJson symbol)
      return (symbol, expansions)
  | (symbol, _) => .error (.malformed symbol .notAList)

def ofJson : Json → Except GrammarError Grammar
  | .object members => do
      let rules ← members.mapM ruleOfJson
      return .ofRules rules
  | _ => .error (.malformed [] .notAnObject)

def fileText (g : Grammar) : Word :=
  g.toJson.pretty

end Grammar

/-!
## Files

A file that may be missing is given by its octets, if it exists.
-/

def readJson (file : Word) (octets : Option ByteArray) : Except FileError Json :=
  match octets with
  | none => .error ⟨file, .notFound⟩
  | some octets =>
      match Json.ofOctets? octets with
      | none => .error ⟨file, .malformed⟩
      | some value => .ok value

def Grammar.ofFile (file : Word) (octets : Option ByteArray) : Except GrammarError Grammar :=
  match readJson file octets with
  | .error e => .error (.file e)
  | .ok value => Grammar.ofJson value

end GrammarFuzz
