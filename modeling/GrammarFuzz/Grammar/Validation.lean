import GrammarFuzz.Grammar.Reachability

/-!
# Validation

A grammar is valid for a start symbol if the symbols it defines are the symbols it
uses and all of them are reachable.  Every defect is reported as a finding, and so
is every option outside a given set, which does no harm to validity.

A grammar with an empty list of expansions is structurally broken.  Nothing else is
reported about it.
-/

namespace GrammarFuzz

inductive Finding where
  | emptyExpansions (symbol : Word)
  | definedNotUsed (symbol : Word)
  | usedNotDefined (symbol : Word)
  | unreachable (symbol : Word) (origin : Word)
  | unsupportedOption (key : Word)
deriving DecidableEq

namespace Finding

def isStructural : Finding → Bool
  | emptyExpansions _ => true
  | _ => false

def subject : Finding → Word
  | emptyExpansions symbol => symbol
  | definedNotUsed symbol => symbol
  | usedNotDefined symbol => symbol
  | unreachable symbol _ => symbol
  | unsupportedOption key => key

def message : Finding → String
  | emptyExpansions symbol => (Text.quoted symbol).text ++ ": expansion list empty"
  | definedNotUsed symbol => (Text.quoted symbol).text ++ ": defined, but not used"
  | usedNotDefined symbol => (Text.quoted symbol).text ++ ": used, but not defined"
  | unreachable symbol origin =>
      (Text.quoted symbol).text ++ ": unreachable from " ++ origin.text
  | unsupportedOption key =>
      "warning: option " ++ (Text.quoted key).text ++ " is not supported"

end Finding

structure Assessment where
  findings : List Finding
  isValid : Bool

namespace Assessment

def isStructurallyBroken (a : Assessment) : Bool :=
  a.findings.any Finding.isStructural

end Assessment

namespace Grammar

def definedSymbols (g : Grammar) : List Word :=
  Word.sortedSet g.symbols

def usedSymbols (g : Grammar) (start : Word) : List Word :=
  Word.sortedSet (start :: g.expansions.flatMap Expansion.references)

def hasEmptyExpansions (g : Grammar) : Bool :=
  g.rules.values.any List.isEmpty

def definedAndUsed? (g : Grammar) (start : Word) : Option (List Word × List Word) :=
  if g.hasEmptyExpansions then none else some (g.definedSymbols, g.usedSymbols start)

def usedOptions (g : Grammar) : List Word :=
  Word.sortedSet (g.expansions.flatMap fun e => e.options.keys)

def emptyExpansionFindings (g : Grammar) : List Finding :=
  (g.rules.entries.filter fun rule => rule.2.isEmpty).map fun rule => .emptyExpansions rule.1

/-- Where reachability is counted from: the conventional start symbol joins a given one. -/
def origins (g : Grammar) (start : Word) : List Word :=
  if g.defines startSymbol && start != startSymbol then [start, startSymbol] else [start]

def originText (g : Grammar) (start : Word) : Word :=
  match g.origins start with
  | [a, b] => a ++ [' ', 'o', 'r', ' '] ++ b
  | _ => start

def lostSymbols (g : Grammar) (start : Word) : List Word :=
  let reachable := (g.origins start).map g.reachable
  g.definedSymbols.filter fun symbol => !reachable.any fun seen => seen.contains symbol

/-- The conventional start symbol never counts as unused. -/
def countedAsUsed (g : Grammar) (start : Word) : List Word :=
  if g.defines startSymbol then Word.insertSorted startSymbol (g.usedSymbols start)
  else g.usedSymbols start

def unsupportedOptions (g : Grammar) (supported : Option (List Word)) : List Word :=
  match supported with
  | none => []
  | some keys => g.usedOptions.filter fun key => !keys.contains key

def validate (g : Grammar) (start : Word) (supported : Option (List Word)) : Assessment :=
  if g.hasEmptyExpansions then ⟨g.emptyExpansionFindings, false⟩
  else
    let defined := g.definedSymbols
    let used := g.countedAsUsed start
    let lost := g.lostSymbols start
    { findings :=
        (defined.filter fun symbol => !used.contains symbol).map .definedNotUsed ++
        (used.filter fun symbol => !defined.contains symbol).map .usedNotDefined ++
        lost.map (fun symbol => .unreachable symbol (g.originText start)) ++
        (g.unsupportedOptions supported).map .unsupportedOption
      isValid := used == defined && lost.isEmpty }

def isValid (g : Grammar) (start : Word) (supported : Option (List Word)) : Bool :=
  (g.validate start supported).isValid

end Grammar
end GrammarFuzz
