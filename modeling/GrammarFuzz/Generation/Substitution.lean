import GrammarFuzz.Settings.Generation
import GrammarFuzz.Event
import GrammarFuzz.Random.ChaCha
import GrammarFuzz.Random.Range

/-!
# Generation by substitution

A term starts as the start symbol.  In every round one of its non-terminals is
picked, and the first occurrence of its name in the term is replaced by one of its
alternatives.  A replacement that would leave too many non-terminals is rejected,
and too many rejections in a row end the generation.
-/

namespace GrammarFuzz

structure Substituter where
  grammar : Grammar
  start : Word
  maxNonterminals : Nat
  maxTrials : Nat

namespace Substituter

variable {ρ : Type} [WordSource ρ]

/-- Goes on with a term that has seen some rejections, for at most a number of rounds. -/
def substitute (r : Substituter) : Nat → Nat → Word → Action GenerationError ρ Word
  | 0, _, _ => throw .outOfSteps
  | rounds + 1, trials, term => do
      match ← Action.ofState (WordSource.drawFrom (references term)) with
      | none => return term
      | some symbol =>
          match r.grammar.expansions? symbol with
          | none => throw (.undefinedSymbol symbol)
          | some expansions =>
              match ← Action.ofState (WordSource.drawFrom expansions) with
              | none => throw (.undefinedSymbol symbol)
              | some e =>
                  let next := Word.replaceFirst symbol e.text term
                  if (references next).length < r.maxNonterminals then
                    Action.record (.substituted symbol e.text)
                    r.substitute rounds 0 next
                  else if r.maxTrials ≤ trials + 1 then
                    throw (.expansionExhausted term (trials + 1))
                  else r.substitute rounds (trials + 1) term

def generate (r : Substituter) (rounds : Nat) : Action GenerationError ρ Word :=
  r.substitute rounds 0 r.start

def defaultTrials : Nat :=
  100

/-- Only the start symbol is checked; the grammar need not be valid. -/
def create (g : Grammar) (settings : GenerationSettings) (maxTrials : Nat) :
    Except GrammarError Substituter :=
  if g.defines settings.start then .ok ⟨g, settings.start, settings.maxNonterminals, maxTrials⟩
  else .error (.missingStartSymbol settings.start)

end Substituter
end GrammarFuzz
