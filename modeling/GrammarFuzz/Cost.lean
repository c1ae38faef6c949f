import GrammarFuzz.Grammar.Reachability

/-!
# Costs

The cost of a symbol is the least number of expansion steps that complete it.  It
is evaluated along a path: a symbol that is already being expanded on the way has
no finite cost there.  An expansion costs one step plus the costs of the distinct
symbols it refers to.
-/

namespace GrammarFuzz

inductive Cost where
  | finite (steps : Nat)
  | infinite
deriving DecidableEq, Inhabited

namespace Cost

/-- The greatest finite cost; larger sums are cut off here. -/
def limit : Nat :=
  0xffffffffffffffff

def isFinite : Cost → Bool
  | finite _ => true
  | infinite => false

def add : Cost → Cost → Cost
  | finite a, finite b => finite (min (a + b) limit)
  | _, _ => infinite

instance : Add Cost :=
  ⟨add⟩

def atMost : Cost → Cost → Bool
  | _, infinite => true
  | infinite, finite _ => false
  | finite a, finite b => a ≤ b

instance : LE Cost :=
  ⟨fun a b => atMost a b = true⟩

instance (a b : Cost) : Decidable (a ≤ b) :=
  inferInstanceAs (Decidable (atMost a b = true))

def sum (costs : List Cost) : Cost :=
  costs.foldl (· + ·) (finite 0)

def least (a b : Cost) : Cost :=
  if a ≤ b then a else b

def greatest (a b : Cost) : Cost :=
  if a ≤ b then b else a

def minimum (costs : List Cost) : Cost :=
  costs.foldr least infinite

def maximum (costs : List Cost) : Cost :=
  costs.foldr greatest (finite 0)

def render : Cost → Word
  | finite steps => Word.ofNat steps
  | infinite => ['i', 'n', 'f']

end Cost

/-- The cost of an expansion, given the costs of symbols and the symbols being expanded. -/
def textCostBy (cost : Word → Cost) (seen : List Word) (text : Word) : Cost :=
  let names := references text
  if names.isEmpty then .finite 1
  else if names.any seen.contains then .infinite
  else Cost.sum ((distinct names).map cost) + .finite 1

namespace Grammar

/--
The cost of a symbol by a path of bounded length.  Every step of the path is a
defined symbol that was not on it before, so the size of the grammar bounds it.
-/
def boundedCost (g : Grammar) : Nat → List Word → Word → Cost
  | 0, _, _ => .infinite
  | bound + 1, seen, symbol =>
      match g.expansions? symbol with
      | none => .infinite
      | some expansions =>
          let seen := symbol :: seen
          Cost.minimum (expansions.map fun e =>
            textCostBy (boundedCost g bound seen) seen e.text)

def cost (g : Grammar) (seen : List Word) (symbol : Word) : Cost :=
  g.boundedCost (g.size + 1) seen symbol

/--
One step for a text without references, infinite for a text that refers to a
symbol being expanded, else one more than the sum over its distinct references.
-/
def textCost (g : Grammar) (seen : List Word) (text : Word) : Cost :=
  textCostBy (g.boundedCost g.size seen) seen text

end Grammar

/-!
## Answering cost queries
-/

structure CostTable where
  symbols : OrderedMap Cost
  expansions : OrderedMap (List Cost)

inductive Pricing where
  | onDemand
  | tabulated (table : CostTable)

namespace Pricing

def tabulate (g : Grammar) : Pricing :=
  .tabulated
    { symbols := .ofList (g.symbols.map fun symbol => (symbol, g.cost [] symbol))
      expansions := .ofList (g.rules.entries.map fun (symbol, expansions) =>
        (symbol, expansions.map fun e => g.textCost [symbol] e.text)) }

def isTabulated : Pricing → Bool
  | onDemand => false
  | tabulated _ => true

def cost (model : Pricing) (g : Grammar) (symbol : Word) : Cost :=
  match model with
  | onDemand => g.cost [] symbol
  | tabulated table => (table.symbols.get? symbol).getD (g.cost [] symbol)

def alternativeCost (model : Pricing) (g : Grammar) (symbol : Word) (index : Nat) (text : Word) :
    Cost :=
  match model with
  | onDemand => g.textCost [symbol] text
  | tabulated table =>
      match (table.expansions.get? symbol).bind (·[index]?) with
      | some cost => cost
      | none => g.textCost [symbol] text

end Pricing
end GrammarFuzz
