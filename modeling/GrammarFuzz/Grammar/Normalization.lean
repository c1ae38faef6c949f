import GrammarFuzz.Grammar.Basic

/-!
# Normalization

The operators `?`, `*` and `+` behind a non-terminal or behind a group in
parentheses abbreviate rules.  Normalization writes these rules out in two
passes.  The first one replaces every group by a fresh non-terminal for its
content and leaves the operator in place; the second one replaces every
non-terminal with an operator by a fresh non-terminal with the rules that the
operator stands for.
-/

namespace GrammarFuzz

inductive Operator where
  | optional
  | star
  | plus
deriving DecidableEq

namespace Operator

def mark : Operator → Char
  | optional => '?'
  | star => '*'
  | plus => '+'

def ofMark? (c : Char) : Option Operator :=
  if c = '?' then some optional
  else if c = '*' then some star
  else if c = '+' then some plus
  else none

theorem ofMark?_mark (op : Operator) : ofMark? op.mark = some op := by
  cases op with
  | optional => rfl
  | star => rfl
  | plus => rfl

theorem eq_mark_of_ofMark? {c : Char} {op : Operator} (h : ofMark? c = some op) :
    c = op.mark := by
  unfold ofMark? at h
  split at h
  · cases h
    assumption
  · split at h
    · cases h
      assumption
    · split at h
      · cases h
        assumption
      · cases h

theorem mark_ne (op : Operator) :
    op.mark ≠ '<' ∧ op.mark ≠ '>' ∧ op.mark ≠ '(' ∧ op.mark ≠ ')' := by
  cases op with
  | optional => decide
  | star => decide
  | plus => decide

def leading? : List Segment → Option Operator
  | .plain (c :: _) :: _ => ofMark? c
  | _ => none

def operands : List Segment → List (Word × Operator)
  | [] => []
  | .plain _ :: rest => operands rest
  | .enclosed inner :: rest =>
      match leading? rest with
      | some op => (inner, op) :: operands rest
      | none => operands rest

end Operator

structure Operand where
  brackets : Brackets
  inner : Word
  operator : Operator

namespace Operand

def base (x : Operand) : Word :=
  x.brackets.enclose x.inner

def text (x : Operand) : Word :=
  x.base ++ [x.operator.mark]

def allIn (b : Brackets) (text : Word) : List Operand :=
  (Operator.operands (Segment.split b text)).map fun (inner, op) => ⟨b, inner, op⟩

/-- Groups with an operator, none of them containing another group. -/
def groups (text : Word) : List Operand :=
  allIn .round text

def repetitions (text : Word) : List Operand :=
  allIn .angle text

end Operand

namespace Normalization

structure Introduction where
  replaced : Word
  symbol : Word
  expansions : List Word

/-!
## Fresh names
-/

def stem (name : Word) : Word :=
  if name.getLast? = some '>' then name.dropLast else name

def numbered (name : Word) (n : Nat) : Word :=
  stem name ++ '-' :: Word.ofNat n ++ ['>']

/-- The name itself if it is not taken, else the first free one of its numbered variants. -/
def freshName (taken : List Word) (name : Word) : Word :=
  if taken.contains name then
    (((List.range taken.length).map fun n => numbered name (n + 1)).find?
      fun candidate => !taken.contains candidate).getD []
  else name

/-- The rules of a pass: the names taken so far and the introductions, newest first. -/
structure Ledger where
  taken : List Word
  newest : List Introduction

namespace Ledger

def ofGrammar (g : Grammar) : Ledger :=
  ⟨g.symbols, []⟩

def add (ledger : Ledger) (intro : Introduction) : Ledger :=
  ⟨intro.symbol :: ledger.taken, intro :: ledger.newest⟩

def introductions (ledger : Ledger) : List Introduction :=
  ledger.newest.reverse

end Ledger

/-!
## Groups
-/

def groupName : Word :=
  ['<', 's', 'y', 'm', 'b', 'o', 'l', '>']

def replaceGroup (state : Word × Ledger) (group : Operand) : Word × Ledger :=
  let symbol := freshName state.2.taken groupName
  (Word.replaceFirst group.text (symbol ++ [group.operator.mark]) state.1,
    state.2.add ⟨group.text, symbol, [group.inner]⟩)

def groupRound (state : Word × Ledger) : Word × Ledger :=
  (Operand.groups state.1).foldl replaceGroup state

def groupRounds : Nat → Word × Ledger → Word × Ledger
  | 0, state => state
  | n + 1, state => groupRounds n (groupRound state)

/-- Every round that finds a group removes a parenthesis, which bounds the number of rounds. -/
def replaceGroups (ledger : Ledger) (e : Expansion) : Expansion × Ledger :=
  let (text, ledger) := groupRounds (e.text.count '(') (e.text, ledger)
  (⟨text, e.options⟩, ledger)

/-!
## Operators
-/

def operatorExpansions (base symbol : Word) : Operator → List Word
  | .optional => [[], base]
  | .star => [[], base ++ symbol]
  | .plus => [base, base ++ symbol]

def replaceRepetition (state : Word × Ledger) (x : Operand) : Word × Ledger :=
  let symbol := freshName state.2.taken x.base
  (Word.replaceFirst x.text symbol state.1,
    state.2.add ⟨x.text, symbol, operatorExpansions x.base symbol x.operator⟩)

def replaceRepetitions (ledger : Ledger) (e : Expansion) : Expansion × Ledger :=
  let (text, ledger) := (Operand.repetitions e.text).foldl replaceRepetition (e.text, ledger)
  (⟨text, e.options⟩, ledger)

/-!
## Passes
-/

def pass (convert : Ledger → Expansion → Expansion × Ledger) (g : Grammar) :
    Grammar × List Introduction :=
  let (rules, ledger) :=
    g.rules.mapAccum (fun ledger _ expansions => mapAccum convert ledger expansions)
      (.ofGrammar g)
  let introductions := ledger.introductions
  (Grammar.insertAll ⟨rules⟩
      (introductions.map fun intro =>
          (intro.symbol, intro.expansions.map fun text => ⟨text, .empty⟩)),
    introductions)

def groupPass : Grammar → Grammar × List Introduction :=
  pass replaceGroups

def operatorPass : Grammar → Grammar × List Introduction :=
  pass replaceRepetitions

def run (g : Grammar) : Grammar × List Introduction :=
  let (g, groups) := groupPass g
  let (g, repetitions) := operatorPass g
  (g, groups ++ repetitions)

end Normalization

def Grammar.normalize (g : Grammar) : Grammar :=
  (Normalization.run g).1

end GrammarFuzz
