import GrammarFuzz.Json
import GrammarFuzz.Decimal.Shortest

/-!
# Writing JSON

One printer serves both layouts.  The compact layout has no blanks; the
indented one puts every item and every member on a line of its own.
-/

namespace GrammarFuzz
namespace Json

/-!
## Strings

Only the quote, the backslash and the control characters below the space are
escaped.
-/

def hexDigit (n : Nat) : Char :=
  if n < 10 then Char.ofNat (48 + n) else Char.ofNat (87 + n)

def escapeChar (c : Char) : Word :=
  if c = '"' then ['\\', '"']
  else if c = '\\' then ['\\', '\\']
  else if c = '\n' then ['\\', 'n']
  else if c = '\r' then ['\\', 'r']
  else if c = '\t' then ['\\', 't']
  else if c.toNat = 8 then ['\\', 'b']
  else if c.toNat = 12 then ['\\', 'f']
  else if c.toNat < 32 then
    ['\\', 'u', '0', '0', hexDigit (c.toNat / 16), hexDigit (c.toNat % 16)]
  else [c]

def quote (w : Word) : Word :=
  '"' :: w.flatMap escapeChar ++ ['"']

/-!
## Numbers
-/

def renderInt (n : Int) : Word :=
  if n < 0 then '-' :: Word.ofNat n.natAbs else Word.ofNat n.natAbs

/--
Digits with the exponent of the first one.  Exponents from -5 to 15 are written
positionally and always with a fraction, all others with a signed exponent.
-/
def renderDigits (digits : Word) (exponent : Int) : Word :=
  if -5 ≤ exponent ∧ exponent < 0 then
    ['0', '.'] ++ List.replicate (-exponent - 1).toNat '0' ++ digits
  else if 0 ≤ exponent ∧ exponent ≤ 15 then
    let whole := exponent.toNat + 1
    let fraction := digits.drop whole
    digits.take whole ++ List.replicate (whole - digits.length) '0' ++ ['.'] ++
      (if fraction.isEmpty then ['0'] else fraction)
  else
    let fraction := digits.drop 1
    digits.take 1 ++ (if fraction.isEmpty then [] else '.' :: fraction) ++ ['e'] ++
      (if exponent < 0 then ['-'] else ['+']) ++ Word.ofNat exponent.natAbs

def renderFloat (x : Float) : Word :=
  let sign := if x.toBits ≥ 0x8000000000000000 then ['-'] else []
  if x == 0 then sign ++ ['0', '.', '0']
  else
    let (digits, exponent) := Decimal.shortestDigits x
    sign ++ renderDigits digits exponent

/-!
## Values
-/

inductive Layout where
  | compact
  | indented (width : Nat)
deriving DecidableEq

namespace Layout

def newLine : Layout → Nat → Word
  | compact, _ => []
  | indented width, level => '\n' :: List.replicate (width * level) ' '

def colon : Layout → Word
  | compact => [':']
  | indented _ => [':', ' ']

end Layout

mutual

def render (layout : Layout) (level : Nat) : Json → Word
  | .null => ['n', 'u', 'l', 'l']
  | .bool true => ['t', 'r', 'u', 'e']
  | .bool false => ['f', 'a', 'l', 's', 'e']
  | .int n => renderInt n
  | .float x _ => renderFloat x
  | .string w => quote w
  | .array [] => ['[', ']']
  | .array (item :: rest) =>
      '[' :: layout.newLine (level + 1) ++ render layout (level + 1) item ++
        renderItems layout (level + 1) rest ++ layout.newLine level ++ [']']
  | .object [] => ['\x7b', '\x7d']
  | .object ((key, value) :: rest) =>
      '\x7b' :: layout.newLine (level + 1) ++ quote key ++ layout.colon ++
        render layout (level + 1) value ++
        renderMembers layout (level + 1) rest ++ layout.newLine level ++ ['\x7d']

def renderItems (layout : Layout) (level : Nat) : List Json → Word
  | [] => []
  | item :: rest =>
      ',' :: layout.newLine level ++ render layout level item ++ renderItems layout level rest

def renderMembers (layout : Layout) (level : Nat) : List (Word × Json) → Word
  | [] => []
  | (key, value) :: rest =>
      ',' :: layout.newLine level ++ quote key ++ layout.colon ++ render layout level value ++
        renderMembers layout level rest

end

def compact (value : Json) : Word :=
  value.render .compact 0

def pretty (value : Json) : Word :=
  value.render (.indented 4) 0 ++ ['\n']

end Json
end GrammarFuzz
