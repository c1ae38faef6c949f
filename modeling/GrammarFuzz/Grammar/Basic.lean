import GrammarFuzz.OrderedMap
import GrammarFuzz.Json.Printer
import GrammarFuzz.Text.Quoted
import GrammarFuzz.Grammar.Segment

/-!
# Context-free grammars

A grammar maps symbols to their alternatives.  An alternative is an expansion: a
text whose parts in angle brackets refer to other symbols, with options that the
library keeps but does not interpret.  Rules keep their order.
-/

namespace GrammarFuzz

def startSymbol : Word :=
  ['<', 's', 't', 'a', 'r', 't', '>']

/-- The non-terminals a text refers to, in order and with repetitions. -/
def references (text : Word) : List Word :=
  Segment.parts .angle text

def startsWithReference (text : Word) : Bool :=
  match Segment.split .angle text with
  | .enclosed _ :: _ => true
  | _ => false

inductive Symbol where
  | terminal (text : Word)
  | nonterminal (name : Word)
deriving DecidableEq

def symbols (text : Word) : List Symbol :=
  (Segment.split .angle text).map fun
    | .plain text => .terminal text
    | .enclosed inner => .nonterminal (Brackets.angle.enclose inner)

abbrev Options := OrderedMap Json

structure Expansion where
  text : Word
  options : Options := .empty

namespace Expansion

def references (e : Expansion) : List Word :=
  GrammarFuzz.references e.text

def same (a b : Expansion) : Bool :=
  a.text == b.text && OrderedMap.agree Json.same a.options b.options

def sameAll : List Expansion → List Expansion → Bool
  | [], [] => true
  | a :: as, b :: bs => same a b && sameAll as bs
  | _, _ => false

theorem same_self (e : Expansion) : same e e = true := by
  rw [same, beq_self_eq_true, OrderedMap.agree_of_perm Json.same_self (List.Perm.refl _)]
  rfl

theorem sameAll_self (es : List Expansion) : sameAll es es = true := by
  induction es with
  | nil => rfl
  | cons e es ih =>
      rw [sameAll, same_self, ih]
      rfl

def render (e : Expansion) : Word :=
  Text.quoted e.text ++
    (if e.options.isEmpty then [] else ' ' :: (Json.object e.options.entries).compact)

end Expansion

structure Grammar where
  rules : OrderedMap (List Expansion)

namespace Grammar

theorem eq_of_entries_eq {a b : Grammar} (h : a.rules.entries = b.rules.entries) : a = b := by
  cases a
  cases b
  exact congrArg Grammar.mk (OrderedMap.eq_of_entries_eq h)

def empty : Grammar :=
  ⟨.empty⟩

instance : Inhabited Grammar :=
  ⟨empty⟩

def ofRules (rules : List (Word × List Expansion)) : Grammar :=
  ⟨.ofList rules⟩

def symbols (g : Grammar) : List Word :=
  g.rules.keys

def expansions? (g : Grammar) (symbol : Word) : Option (List Expansion) :=
  g.rules.get? symbol

def defines (g : Grammar) (symbol : Word) : Bool :=
  g.rules.contains symbol

def size (g : Grammar) : Nat :=
  g.rules.size

def insert (g : Grammar) (symbol : Word) (expansions : List Expansion) : Grammar :=
  ⟨g.rules.insert symbol expansions⟩

def insertAll (g : Grammar) (rules : List (Word × List Expansion)) : Grammar :=
  ⟨g.rules.insertAll rules⟩

def extend (g extension : Grammar) : Grammar :=
  g.insertAll extension.rules.entries

def expansions (g : Grammar) : List Expansion :=
  g.rules.values.flatten

theorem mem_expansions_of_entry {g : Grammar} {rule : Word × List Expansion}
    (hrule : rule ∈ g.rules.entries) {e : Expansion} (he : e ∈ rule.2) : e ∈ g.expansions :=
  List.mem_flatten.mpr ⟨rule.2, List.mem_map_of_mem hrule, he⟩

theorem mem_expansions_iff {g : Grammar} {e : Expansion} :
    e ∈ g.expansions ↔
      ∃ symbol alternatives, g.expansions? symbol = some alternatives ∧ e ∈ alternatives := by
  simp only [expansions, OrderedMap.values, expansions?, OrderedMap.get?_eq_some_iff,
    List.mem_flatten, List.mem_map, Prod.exists, exists_eq_right]
  constructor
  · intro h
    rcases h with ⟨alternatives, ⟨symbol, hentry⟩, he⟩
    exact ⟨symbol, alternatives, hentry, he⟩
  · intro h
    rcases h with ⟨symbol, alternatives, hentry, he⟩
    exact ⟨alternatives, ⟨symbol, hentry⟩, he⟩

/-- Grammars are compared as maps: the order of rules does not matter, that of expansions does. -/
def same (a b : Grammar) : Bool :=
  OrderedMap.agree Expansion.sameAll a.rules b.rules

def renderRule (symbol : Word) (expansions : List Expansion) : Word :=
  symbol ++ [' ', ':', ':', '=', '\n'] ++
    expansions.flatMap fun e => List.replicate 4 ' ' ++ ['|', ' '] ++ e.render ++ ['\n']

def render (g : Grammar) : Word :=
  g.rules.entries.flatMap fun (symbol, expansions) => renderRule symbol expansions

end Grammar
end GrammarFuzz
