import GrammarFuzz.Event
import GrammarFuzz.Grammar.Format

/-!
# Loading grammars

The rules of a grammar may come from several sources, which are merged in order;
no two of them may define the same symbol.  The merged grammar has to define the
start symbol, is normalized unless that is switched off, and has to be valid.
-/

namespace GrammarFuzz

namespace Grammar

def merge (g source : Grammar) : Except GrammarError Grammar :=
  match source.symbols.find? g.defines with
  | some symbol => .error (.mergeConflict symbol)
  | none => .ok (g.extend source)

end Grammar

/-- Where rules come from: a file, with its octets if it exists, or a grammar at hand. -/
inductive Source where
  | file (name : Word) (octets : Option ByteArray)
  | grammar (g : Grammar)

namespace Source

def read : Source → Except GrammarError Grammar
  | file name octets => Grammar.ofFile name octets
  | grammar g => .ok g

def mergeInto (merged : Grammar) (source : Source) : Except GrammarError Grammar :=
  match source.read with
  | .error e => .error e
  | .ok g => merged.merge g

def mergeAll (merged : Grammar) : List Source → Except GrammarError Grammar
  | [] => .ok merged
  | source :: rest =>
      match mergeInto merged source with
      | .error e => .error e
      | .ok merged => mergeAll merged rest

end Source

structure LoadOptions where
  normalize : Bool := true
  start : Word := startSymbol
  supported : Option (List Word) := none

namespace LoadOptions

def prepare (options : LoadOptions) (g : Grammar) : Grammar × List Normalization.Introduction :=
  if options.normalize then Normalization.run g else (g, [])

def build (options : LoadOptions) (merged : Grammar) :
    Except GrammarError Grammar × List Event :=
  if merged.defines options.start then
    let (g, introductions) := options.prepare merged
    let assessment := g.validate options.start options.supported
    let events := introductions.map .introduced ++ assessment.findings.map .found
    match assessment.toExcept with
    | .error e => (.error e, events)
    | .ok () => (.ok g, events ++ [.loaded g.size])
  else (.error (.missingStartSymbol options.start), [])

def load (options : LoadOptions) (sources : List Source) :
    Except GrammarError Grammar × List Event :=
  match Source.mergeAll .empty sources with
  | .error e => (.error e, [])
  | .ok merged => options.build merged

end LoadOptions
end GrammarFuzz
