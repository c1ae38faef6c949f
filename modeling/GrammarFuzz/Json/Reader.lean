import GrammarFuzz.OrderedMap
import GrammarFuzz.Json.Number
import GrammarFuzz.Json.Comments

/-!
# Reading JSON

The reader accepts one value between blanks and nothing else.  When a key occurs
twice in an object, its first place and its last value count.  Arrays and objects
may be nested up to a fixed depth.
-/

namespace GrammarFuzz
namespace Json

/-!
## Strings
-/

inductive StringPlace where
  | plain
  | escape
  /-- Inside a four-digit escape: a high surrogate before it, the digits left, their value. -/
  | unicode (high : Option Nat) (left : Nat) (value : Nat)
  | afterHigh (high : Nat)
  | pairEscape (high : Nat)

def hexValue? (c : Char) : Option Nat :=
  if '0' ≤ c ∧ c ≤ '9' then some (c.toNat - 48)
  else if 'a' ≤ c ∧ c ≤ 'f' then some (c.toNat - 87)
  else if 'A' ≤ c ∧ c ≤ 'F' then some (c.toNat - 55)
  else none

def escaped? (c : Char) : Option Char :=
  match c with
  | '"' => some '"'
  | '\\' => some '\\'
  | '/' => some '/'
  | 'b' => some (Char.ofNat 8)
  | 'f' => some (Char.ofNat 12)
  | 'n' => some '\n'
  | 'r' => some '\r'
  | 't' => some '\t'
  | _ => none

def isHighSurrogate (n : Nat) : Bool :=
  0xd800 ≤ n && n ≤ 0xdbff

def isLowSurrogate (n : Nat) : Bool :=
  0xdc00 ≤ n && n ≤ 0xdfff

/-- What a complete four-digit escape contributes: a character, or a wait for the other half. -/
def unicodeEscape (high : Option Nat) (value : Nat) (sofar : Word) :
    Option (StringPlace × Word) :=
  match high with
  | some h =>
      if isLowSurrogate value then
        some (.plain, Char.ofNat (0x10000 + (h - 0xd800) * 0x400 + (value - 0xdc00)) :: sofar)
      else none
  | none =>
      if isHighSurrogate value then some (.afterHigh value, sofar)
      else if isLowSurrogate value then none
      else some (.plain, Char.ofNat value :: sofar)

def stringStep (place : StringPlace) (sofar : Word) (c : Char) : Option (StringPlace × Word) :=
  match place with
  | .plain =>
      if c = '\\' then some (.escape, sofar)
      else if c.toNat < 32 then none
      else some (.plain, c :: sofar)
  | .escape =>
      if c = 'u' then some (.unicode none 3 0, sofar)
      else (escaped? c).map fun d => (.plain, d :: sofar)
  | .unicode high left value =>
      match hexValue? c with
      | none => none
      | some d =>
          match left with
          | 0 => unicodeEscape high (value * 16 + d) sofar
          | left + 1 => some (.unicode high left (value * 16 + d), sofar)
  | .afterHigh high => if c = '\\' then some (.pairEscape high, sofar) else none
  | .pairEscape high => if c = 'u' then some (.unicode (some high) 3 0, sofar) else none

def readStringFrom : StringPlace → Word → Word → Option (Word × Word)
  | _, _, [] => none
  | place, sofar, c :: rest =>
      match place with
      | .plain =>
          if c = '"' then some (sofar.reverse, rest)
          else
            match stringStep .plain sofar c with
            | none => none
            | some (place, sofar) => readStringFrom place sofar rest
      | place =>
          match stringStep place sofar c with
          | none => none
          | some (place, sofar) => readStringFrom place sofar rest

def readString (input : Word) : Option (Word × Word) :=
  readStringFrom .plain [] input

/-!
## Values

The first number bounds how many more arrays and objects may be opened.  The
second one bounds the calls; a bound of twice the length of the input never
comes into play.
-/

def isBlank (c : Char) : Bool :=
  c = ' ' || c = '\t' || c = '\n' || c = '\r'

def skipBlanks (input : Word) : Word :=
  input.dropWhile isBlank

mutual

def readValue : Nat → Nat → Word → Option (Json × Word)
  | _, 0, _ => none
  | depth, fuel + 1, input =>
      match skipBlanks input with
      | 'n' :: 'u' :: 'l' :: 'l' :: rest => some (.null, rest)
      | 't' :: 'r' :: 'u' :: 'e' :: rest => some (.bool true, rest)
      | 'f' :: 'a' :: 'l' :: 's' :: 'e' :: rest => some (.bool false, rest)
      | '"' :: rest => (readString rest).map fun (w, rest) => (.string w, rest)
      | '[' :: rest =>
          if depth = 0 then none
          else
            match skipBlanks rest with
            | ']' :: rest => some (.array [], rest)
            | rest =>
                (readItems (depth - 1) fuel rest).map fun (items, rest) => (.array items, rest)
      | '\x7b' :: rest =>
          if depth = 0 then none
          else
            match skipBlanks rest with
            | '\x7d' :: rest => some (.object [], rest)
            | rest =>
                (readMembers (depth - 1) fuel rest).map fun (members, rest) =>
                  (.object (OrderedMap.ofList members).entries, rest)
      | rest => readNumber rest

def readItems : Nat → Nat → Word → Option (List Json × Word)
  | _, 0, _ => none
  | depth, fuel + 1, input =>
      match readValue depth fuel input with
      | none => none
      | some (item, rest) =>
          match skipBlanks rest with
          | ',' :: rest =>
              (readItems depth fuel rest).map fun (items, rest) => (item :: items, rest)
          | ']' :: rest => some ([item], rest)
          | _ => none

def readMembers : Nat → Nat → Word → Option (List (Word × Json) × Word)
  | _, 0, _ => none
  | depth, fuel + 1, input =>
      match skipBlanks input with
      | '"' :: rest =>
          match readString rest with
          | none => none
          | some (key, rest) =>
              match skipBlanks rest with
              | ':' :: rest =>
                  match readValue depth fuel rest with
                  | none => none
                  | some (value, rest) =>
                      match skipBlanks rest with
                      | ',' :: rest =>
                          (readMembers depth fuel rest).map fun (members, rest) =>
                            ((key, value) :: members, rest)
                      | '\x7d' :: rest => some ([(key, value)], rest)
                      | _ => none
              | _ => none
      | _ => none

end

def maxDepth : Nat :=
  127

def ofText? (input : Word) : Option Json :=
  match readValue maxDepth (2 * input.length + 2) input with
  | none => none
  | some (value, rest) => if (skipBlanks rest).isEmpty then some value else none

def ofOctets? (octets : ByteArray) : Option Json := do
  let blanked ← Comments.blank octets.data.toList
  let text ← String.fromUTF8? ⟨blanked.toArray⟩
  ofText? text.toList

end Json
end GrammarFuzz
