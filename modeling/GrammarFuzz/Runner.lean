import GrammarFuzz.Event

/-!
# Runners

A runner consumes inputs one after the other and judges each of them.  What it
keeps between inputs is its state.
-/

namespace GrammarFuzz

inductive Outcome where
  | pass
  | fail
  | unresolved
deriving DecidableEq

def Outcome.name : Outcome → String
  | pass => "PASS"
  | fail => "FAIL"
  | unresolved => "UNRESOLVED"

structure Verdict (α : Type) where
  output : α
  outcome : Outcome
  events : List Event := []

structure Runner (τ α : Type) where
  run : τ → Word → Verdict α × τ

namespace Runner

def silent : Runner Unit Word where
  run := fun _ input => (⟨input, .unresolved, []⟩, ())

def ofFunction {α : Type} (f : Word → Option α) : Runner Unit (Option α) where
  run := fun _ input =>
    match f input with
    | some a => (⟨some a, .pass, []⟩, ())
    | none => (⟨none, .fail, []⟩, ())

end Runner

/-!
## Printing
-/

/-- A stream that accepts a limited number of octets in total, or any number. -/
structure Sink where
  room : Option Nat
  accepted : List ByteArray := []

namespace Sink

def octets (s : Sink) : ByteArray :=
  s.accepted.foldr (fun piece all => all ++ piece) .empty

def write (s : Sink) (piece : ByteArray) : Bool × Sink :=
  match s.room with
  | none => (true, { s with accepted := piece :: s.accepted })
  | some room =>
      if piece.size ≤ room then (true, ⟨some (room - piece.size), piece :: s.accepted⟩)
      else (false, ⟨some 0, piece.extract 0 room :: s.accepted⟩)

/-- Writes a word as a line; the line break is left out if the word does not fit. -/
def writeLine (s : Sink) (w : Word) : Bool × Sink :=
  match s.write w.text.toUTF8 with
  | (true, s) => s.write "\n".toUTF8
  | (false, s) => (false, s)

end Sink

namespace Runner

def printing : Runner Sink Word where
  run := fun sink input =>
    match sink.writeLine input with
    | (true, sink) => (⟨input, .unresolved, []⟩, sink)
    | (false, sink) => (⟨input, .unresolved, [.notPrinted "full"]⟩, sink)

/-!
## Runs
-/

variable {ε σ τ α : Type}

/--
Feeds a number of fresh inputs to a runner.  The first input that cannot be made
ends the runs; what the runner has done before is kept.
-/
def runs (runner : Runner τ α) (generate : Action ε σ Word) :
    Nat → τ → Journaled σ → Except ε (List (α × Outcome)) × τ × Journaled σ
  | 0, t, s => (.ok [], t, s)
  | n + 1, t, s =>
      match generate s with
      | .error e s => (.error e, t, s)
      | .ok input s =>
          let (verdict, t) := runner.run t input
          let s := { s with journal := verdict.events.reverse ++ s.journal }
          match runner.runs generate n t s with
          | (.error e, rest) => (.error e, rest)
          | (.ok results, rest) => (.ok ((verdict.output, verdict.outcome) :: results), rest)

end Runner
end GrammarFuzz
