import GrammarFuzz.Grammar.Basic

/-!
# Derivation trees

A node is either a non-terminal that still waits for its expansion or a symbol
together with the nodes that it was expanded into.  A terminal is an expanded node
without children.
-/

namespace GrammarFuzz

inductive Tree where
  | unexpanded (symbol : Word)
  | expanded (symbol : Word) (children : List Tree)

namespace Tree

def terminal (text : Word) : Tree :=
  .expanded text []

instance : Inhabited Tree :=
  ⟨terminal []⟩

def symbol : Tree → Word
  | unexpanded symbol => symbol
  | expanded symbol _ => symbol

def children? : Tree → Option (List Tree)
  | unexpanded _ => none
  | expanded _ children => some children

/-!
## Equality
-/

mutual

def same : Tree → Tree → Bool
  | unexpanded a, unexpanded b => a == b
  | expanded a as, expanded b bs => a == b && sameAll as bs
  | _, _ => false

def sameAll : List Tree → List Tree → Bool
  | [], [] => true
  | a :: as, b :: bs => same a b && sameAll as bs
  | _, _ => false

end

/-!
## Open nodes
-/

mutual

def openCount : Tree → Nat
  | unexpanded _ => 1
  | expanded _ children => openCountAll children

def openCountAll : List Tree → Nat
  | [] => 0
  | t :: rest => openCount t + openCountAll rest

end

mutual

def isOpen : Tree → Bool
  | unexpanded _ => true
  | expanded _ children => anyOpen children

def anyOpen : List Tree → Bool
  | [] => false
  | t :: rest => isOpen t || anyOpen rest

end

mutual

theorem isOpen_iff (t : Tree) : t.isOpen = true ↔ 0 < t.openCount := by
  cases t with
  | unexpanded symbol => simp [isOpen, openCount]
  | expanded symbol children =>
      rw [isOpen, openCount]
      exact anyOpen_iff children

theorem anyOpen_iff (ts : List Tree) : anyOpen ts = true ↔ 0 < openCountAll ts := by
  cases ts with
  | nil => simp [anyOpen, openCountAll]
  | cons t rest =>
      rw [anyOpen, openCountAll, Bool.or_eq_true, isOpen_iff t, anyOpen_iff rest]
      omega

end

/-!
## Texts
-/

mutual

/-- The leaves from left to right, an unexpanded node being shown as its symbol. -/
def frontier : Tree → Word
  | unexpanded symbol => symbol
  | expanded symbol [] => symbol
  | expanded _ (t :: rest) => frontier t ++ frontierAll rest

def frontierAll : List Tree → Word
  | [] => []
  | t :: rest => frontier t ++ frontierAll rest

end

mutual

/-- The terminals from left to right; a leaf that looks like a non-terminal is left out. -/
def output : Tree → Word
  | unexpanded _ => []
  | expanded symbol [] => if startsWithReference symbol then [] else symbol
  | expanded _ (t :: rest) => output t ++ outputAll rest

def outputAll : List Tree → Word
  | [] => []
  | t :: rest => output t ++ outputAll rest

end

/-!
## Depth
-/

mutual

def depth : Tree → Nat
  | unexpanded _ => 0
  | expanded _ children => height children

def height : List Tree → Nat
  | [] => 0
  | t :: rest => max (depth t + 1) (height rest)

end

end Tree

/-!
## The children that an expansion stands for
-/

def Symbol.toTree : Symbol → Tree
  | terminal text => .terminal text
  | nonterminal name => .unexpanded name

/-- Fresh nodes for the symbols of a text; the empty text is a single empty leaf. -/
def childrenOf (text : Word) : List Tree :=
  if text.isEmpty then [.terminal []] else (symbols text).map Symbol.toTree

end GrammarFuzz
