import GrammarFuzz.Json

/-!
# Reading JSON numbers

An integer that fits a 64-bit word, signed or unsigned, stays an integer.  Every
other number becomes a binary floating-point number: its digits are gathered
into a 64-bit significand for as long as they fit, and the result is scaled once
by a power of ten.  The scaling rounds, so the outcome may differ from the
nearest number in the last place.
-/

namespace GrammarFuzz
namespace Json

structure Numeral where
  negative : Bool
  whole : Word
  fraction : Option Word
  exponent : Option (Bool × Word)

namespace Numeral

def spanDigits (input : Word) : Word × Word :=
  (input.takeWhile Char.isDigit, input.dropWhile Char.isDigit)

def readFraction : Word → Option (Option Word × Word)
  | '.' :: rest =>
      match spanDigits rest with
      | ([], _) => none
      | (digits, rest) => some (some digits, rest)
  | rest => some (none, rest)

def readSign : Word → Bool × Word
  | '-' :: rest => (true, rest)
  | '+' :: rest => (false, rest)
  | rest => (false, rest)

def readExponent : Word → Option (Option (Bool × Word) × Word)
  | c :: rest =>
      if c = 'e' || c = 'E' then
        let (negative, rest) := readSign rest
        match spanDigits rest with
        | ([], _) => none
        | (digits, rest) => some (some (negative, digits), rest)
      else some (none, c :: rest)
  | [] => some (none, [])

/-- No digit may follow a leading zero. -/
def readWhole (input : Word) : Option (Word × Word) :=
  match spanDigits input with
  | ([], _) => none
  | ('0' :: _ :: _, _) => none
  | (digits, rest) => some (digits, rest)

def read (input : Word) : Option (Numeral × Word) := do
  let (negative, input) :=
    match input with
    | '-' :: rest => (true, rest)
    | rest => (false, rest)
  let (whole, input) ← readWhole input
  let (fraction, input) ← readFraction input
  let (exponent, input) ← readExponent input
  return (⟨negative, whole, fraction, exponent⟩, input)

/-!
## The value of a numeral
-/

def digitValue (c : Char) : Nat :=
  c.toNat - 48

def natValue (digits : Word) : Nat :=
  digits.foldl (fun n d => n * 10 + digitValue d) 0

def maxWord : Nat :=
  0xffffffffffffffff

/--
Extends a significand by the digits of a run as long as it fits a word.  The
second part counts the digits from the first one that no longer fits.
-/
def absorb (significand : Nat) : Word → Nat × Nat
  | [] => (significand, 0)
  | d :: rest =>
      let extended := significand * 10 + digitValue d
      if extended ≤ maxWord then absorb extended rest else (significand, rest.length + 1)

def significand (n : Numeral) : Nat × Int :=
  let (s, dropped) := absorb 0 n.whole
  match n.fraction with
  | none => (s, dropped)
  | some digits =>
      let (s, left) := absorb s digits
      (s, (dropped : Int) - (digits.length - left : Nat))

def maxExponent : Int :=
  0x7fffffff

def minExponent : Int :=
  -0x80000000

def tenTo (n : Nat) : Float :=
  Float.ofScientific 1 false n

/-- Scales by a power of ten; a result that is not finite is refused. -/
def scale (s : Nat) (exponent : Int) : Option Float :=
  let f := s.toUInt64.toFloat
  if 308 < exponent then
    if f == 0 then some f else none
  else if 0 ≤ exponent then
    let r := f * tenTo exponent.toNat
    if r.isInf then none else some r
  else if -308 ≤ exponent then some (f / tenTo (-exponent).toNat)
  else if -616 ≤ exponent then some (f / tenTo 308 / tenTo (-exponent - 308).toNat)
  else some 0

def floatMagnitude (n : Numeral) : Option Float :=
  let (s, power) := n.significand
  match n.exponent with
  | none => scale s power
  | some (negative, digits) =>
      let written : Int := natValue digits
      if maxExponent < written then
        if s ≠ 0 ∧ ¬negative then none else some 0
      else
        scale s (max minExponent (min maxExponent (power + if negative then -written else written)))

def intValue? (n : Numeral) : Option Int :=
  match n.fraction, n.exponent with
  | none, none =>
      let magnitude := natValue n.whole
      if n.negative then
        if 0 < magnitude ∧ magnitude ≤ 0x8000000000000000 then some (-magnitude) else none
      else if magnitude ≤ maxWord then some magnitude
      else none
  | _, _ => none

def value (n : Numeral) : Option Json :=
  match n.intValue? with
  | some i => some (.int i)
  | none => n.floatMagnitude.map fun x => ofFloat (if n.negative then -x else x)

end Numeral

def readNumber (input : Word) : Option (Json × Word) := do
  let (numeral, rest) ← Numeral.read input
  let value ← numeral.value
  return (value, rest)

end Json
end GrammarFuzz
