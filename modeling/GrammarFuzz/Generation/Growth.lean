import GrammarFuzz.Settings.Generation
import GrammarFuzz.Cost
import GrammarFuzz.Event
import GrammarFuzz.Generation.Memo
import GrammarFuzz.Generation.Strategy

/-!
# Generation by derivation trees

A tree is expanded in three phases.  While it has few open non-terminals, it grows
at greatest cost; then it is expanded at random up to a second bound; at last all
open non-terminals are closed at least cost.

A phase without a bound on the open non-terminals need not end for every grammar
and strategy, so the phases are granted a number of steps.
-/

namespace GrammarFuzz

structure Grower (σ : Type) where
  grammar : Grammar
  start : Word
  minOpen : Nat
  maxOpen : Nat
  costs : Pricing
  strategy : Strategy σ

structure Grower.State (σ : Type) where
  choices : σ
  memo : Memo
  last : Option Tree := none

namespace Grower

variable {σ : Type}

abbrev Step (σ α : Type) := Action GenerationError (State σ) α

def consult {α : Type} (f : StateM σ α) : Step σ α :=
  Action.ofState fun s =>
    let (a, choices) := f.run s.choices
    (a, { s with choices })

def lookUp (expansions : List Expansion) : Step σ (List (List Tree)) :=
  Action.ofState fun s =>
    let (nodes, memo) := s.memo.childrenOfEach expansions
    (nodes, { s with memo })

/-!
## One symbol
-/

def cost (f : Grower σ) (symbol : Word) : Cost :=
  f.costs.cost f.grammar symbol

def priced (f : Grower σ) (symbol : Word) (alternatives : List Expansion) :
    List (Cost × Expansion) :=
  alternatives.mapIdx fun index e =>
    (f.costs.alternativeCost f.grammar symbol index e.text, e)

def withCost (priced : List (Cost × Expansion)) (cost : Cost) : List Expansion :=
  (priced.filter fun alternative => alternative.1 == cost).map Prod.snd

def admitted (f : Grower σ) (policy : Policy) (symbol : Word)
    (alternatives : List Expansion) : List Expansion :=
  let priced := f.priced symbol alternatives
  match policy with
  | .random => alternatives
  | .cheapest => withCost priced (Cost.minimum (priced.map Prod.fst))
  | .dearest => withCost priced (Cost.maximum (priced.map Prod.fst))

/-- A choice that is out of range counts as the last candidate. -/
def settle (symbol : Word) (chosen candidates : Nat) : Step σ Nat := do
  if chosen < candidates then return chosen
  Action.record (.choiceOutOfRange chosen candidates symbol)
  return candidates - 1

def expandLeaf (f : Grower σ) (policy : Policy) (symbol : Word) : Step σ Tree := do
  let alternatives := (f.grammar.expansions? symbol).getD []
  if alternatives.isEmpty then throw (.undefinedSymbol symbol)
  Action.record (.expanding symbol policy)
  let candidates := f.admitted policy symbol alternatives
  let children ← lookUp candidates
  let chosen ← consult (f.strategy.chooseExpansion symbol children)
  let index ← settle symbol chosen children.length
  match (candidates.zip children)[index]? with
  | none => throw (.undefinedSymbol symbol)
  | some (e, nodes) =>
      let nodes ← consult (f.strategy.process nodes e)
      return .expanded symbol nodes

def expandIfLeaf (f : Grower σ) (policy : Policy) : Tree → Step σ Tree
  | .unexpanded symbol => f.expandLeaf policy symbol
  | t => return t

/-!
## One step in a tree
-/

mutual

/-- Expands one open node; at every level the strategy picks one of the open children. -/
def expandSomewhere (f : Grower σ) (policy : Policy) : Tree → Step σ Tree
  | .unexpanded symbol => f.expandLeaf policy symbol
  | .expanded symbol children => do
      let candidates := children.filter Tree.isOpen
      if candidates.isEmpty then return .expanded symbol children
      let chosen ← consult (f.strategy.chooseSubtree symbol candidates)
      let children ← f.expandNthOpen policy (min chosen (candidates.length - 1)) children
      return .expanded symbol children

def expandNthOpen (f : Grower σ) (policy : Policy) : Nat → List Tree → Step σ (List Tree)
  | _, [] => return []
  | n, t :: rest => do
      if t.isOpen then
        match n with
        | 0 =>
            let t ← f.expandSomewhere policy t
            return t :: rest
        | n + 1 =>
            let rest ← f.expandNthOpen policy n rest
            return t :: rest
      else
        let rest ← f.expandNthOpen policy n rest
        return t :: rest

end

/-!
## Phases
-/

def unfinished (limit : Option Nat) (t : Tree) : Bool :=
  t.isOpen && limit.all fun n => t.openCount < n

/-- Takes steps until the tree is complete or has as many open nodes as the limit says. -/
def expandUntil (f : Grower σ) (policy : Policy) (limit : Option Nat) :
    Nat → Tree → Step σ Tree
  | steps, t =>
      if unfinished limit t then
        match steps with
        | 0 => throw .outOfSteps
        | steps + 1 => do
            let t ← f.expandSomewhere policy t
            Action.record (.grown t)
            f.expandUntil policy limit steps t
      else return t

def complete (f : Grower σ) (steps : Nat) (t : Tree) : Step σ Tree := do
  Action.record (.growing f.minOpen)
  let t ← f.expandUntil .dearest (some f.minOpen) steps t
  Action.record (.wandering f.maxOpen)
  let t ← f.expandUntil .random (some f.maxOpen) steps t
  Action.record (.closing t.openCount)
  let t ← f.expandUntil .cheapest none steps t
  if t.openCount = 0 then return t else throw (.unterminated t.openCount)

def initial (f : Grower σ) : Tree :=
  .unexpanded f.start

def derive (f : Grower σ) (steps : Nat) : Step σ Tree := do
  let t ← f.complete steps f.initial
  let memo ← Action.read State.memo
  if 0 < memo.lookups then Action.record (.remembered memo.hits memo.lookups)
  return t

def generate (f : Grower σ) (steps : Nat) : Step σ Word := do
  let t ← f.derive steps
  Action.ofState fun s => (t.output, { s with last := some t })

/-!
## Construction
-/

def pricing (g : Grammar) (settings : GenerationSettings) : Pricing :=
  if settings.precomputeCosts then .tabulate g else .onDemand

def ofChecked (g : Grammar) (settings : GenerationSettings) (strategy : Strategy σ) (choices : σ) :
    Grower σ × State σ :=
  ({ grammar := g
     start := settings.start
     minOpen := settings.minNonterminals
     maxOpen := settings.maxNonterminals
     costs := pricing g settings
     strategy },
    { choices, memo := { enabled := settings.cacheExpansions } })

/--
Checks the bounds, the start symbol and the validity of the grammar in turn.  The
events on the way are listed oldest first.
-/
def create (g : Grammar) (settings : GenerationSettings) (strategy : Strategy σ) (choices : σ) :
    Except Error (Grower σ × State σ) × List Event :=
  match settings.checkBounds with
  | .error e => (.error (.generation e), [])
  | .ok () =>
      if g.defines settings.start then
        let assessment := g.validate settings.start (some strategy.supportedOptions)
        let events := assessment.findings.map Event.found
        match assessment.toExcept with
        | .error e => (.error (.grammar e), events)
        | .ok () =>
            (.ok (ofChecked g settings strategy choices),
              if settings.precomputeCosts then events ++ [.tabulated g.size] else events)
      else (.error (.grammar (.missingStartSymbol settings.start)), [])

end Grower
end GrammarFuzz
