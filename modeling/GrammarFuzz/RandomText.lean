import GrammarFuzz.Error
import GrammarFuzz.Random.Range

/-!
# Random texts

Texts of random length whose characters come from a run of code points.  The run
has to consist of characters, so it may not touch the surrogates.
-/

namespace GrammarFuzz

structure RandomText where
  minLength : Nat
  maxLength : Nat
  firstCode : Nat
  codeCount : Nat
deriving DecidableEq

namespace RandomText

def standard : RandomText :=
  ⟨10, 100, 32, 32⟩

/-- The code point behind a run, unless it takes more than 32 bits. -/
def checkedStop? (first count : Nat) : Option Nat :=
  if first + count < Width.single.count then some (first + count) else none

def isCharRange (first count : Nat) : Bool :=
  match checkedStop? first count with
  | none => false
  | some stop => first < stop && stop - 1 ≤ 0x10ffff && (stop ≤ 0xd800 || 0xdfff < first)

def create (minLength maxLength firstCode codeCount : Nat) : Except GenerationError RandomText :=
  if maxLength < minLength then .error (.invalidBounds minLength maxLength)
  else if isCharRange firstCode codeCount then
    .ok ⟨minLength, maxLength, firstCode, codeCount⟩
  else .error (.invalidCharRange firstCode codeCount)

def stopCode (r : RandomText) : Nat :=
  (r.firstCode + r.codeCount) % Width.single.count

variable {ρ : Type} [WordSource ρ]

/--
Draws code points and puts their characters in front of those drawn before; a code point that
is no character is left out.
-/
def drawChars (r : RandomText) : Nat → Word → StateM ρ Word
  | 0, drawn => return drawn.reverse
  | n + 1, drawn => do
      let code ← WordSource.drawBetween .single r.firstCode (r.stopCode - 1)
      r.drawChars n (if code.isValidChar then Char.ofNat code :: drawn else drawn)

def generate (r : RandomText) : StateM ρ Word := do
  let length ← WordSource.drawSize r.minLength r.maxLength
  r.drawChars length []

end RandomText
end GrammarFuzz
