import GrammarFuzz.Json.Printer
import GrammarFuzz.Text.Quoted

/-!
# Decoding settings

Settings are records with named fields, each of which has a default.  They are
written as a JSON object, in any order of the fields, or as an array of the fields
in their own order.  The first problem in the order of the file is reported.
-/

namespace GrammarFuzz
namespace Settings

inductive Expected where
  | string
  | count
  | flag
  | seed
  | record (name : String)
deriving DecidableEq

def Expected.message : Expected → String
  | string => "a string"
  | count => "usize"
  | flag => "a boolean"
  | seed => "u64"
  | record name => "struct " ++ name

inductive Problem where
  | unknownField (key : Word) (known : List Word)
  | wrongType (found : Json) (expected : Expected)
  | wrongValue (found : Int) (expected : Expected)
  | tooManyElements (length : Nat)

def describe : Json → String
  | .null => "null"
  | .bool b => "boolean `" ++ (Json.bool b).compact.text ++ "`"
  | .int n => "integer `" ++ (Json.renderInt n).text ++ "`"
  | .float x _ => "floating point `" ++ (Json.renderFloat x).text ++ "`"
  | .string w => "string " ++ (Text.quoted w).text
  | .array _ => "sequence"
  | .object _ => "map"

def listFields (known : List Word) : String :=
  ", ".intercalate (known.map fun name => "`" ++ name.text ++ "`")

def Problem.message : Problem → String
  | unknownField key known =>
      "unknown field `" ++ key.text ++ "`, expected one of " ++ listFields known
  | wrongType found expected =>
      "invalid type: " ++ describe found ++ ", expected " ++ expected.message
  | wrongValue found expected =>
      "invalid value: " ++ describe (.int found) ++ ", expected " ++ expected.message
  | tooManyElements length =>
      "invalid length " ++ toString length ++ ", expected fewer elements in array"

/-!
## Values
-/

def decodeString : Json → Except Problem Word
  | .string w => .ok w
  | value => .error (.wrongType value .string)

def decodeFlag : Json → Except Problem Bool
  | .bool b => .ok b
  | value => .error (.wrongType value .flag)

def decodeWord (expected : Expected) : Json → Except Problem Nat
  | .int n => if n < 0 then .error (.wrongValue n expected) else .ok n.toNat
  | value => .error (.wrongType value expected)

def decodeSeed : Json → Except Problem (Option Nat)
  | .null => .ok none
  | value => (decodeWord .seed value).map some

/-!
## Records
-/

structure Entry (κ : Type) where
  name : Word
  set : κ → Json → Except Problem κ

structure Schema (κ : Type) where
  name : String
  default : κ
  fields : List (Entry κ)

namespace Schema

variable {κ : Type}

def decodeMembers (schema : Schema κ) : κ → List (Word × Json) → Except Problem κ
  | settings, [] => .ok settings
  | settings, (key, value) :: rest =>
      match schema.fields.find? fun field => field.name == key with
      | none => .error (.unknownField key (schema.fields.map Entry.name))
      | some field =>
          match field.set settings value with
          | .error problem => .error problem
          | .ok settings => decodeMembers schema settings rest

def decodeElements : List (Entry κ) → κ → List Json → Except Problem κ
  | field :: fields, settings, value :: rest =>
      match field.set settings value with
      | .error problem => .error problem
      | .ok settings => decodeElements fields settings rest
  | _, settings, _ => .ok settings

def decode (schema : Schema κ) : Json → Except Problem κ
  | .object members => schema.decodeMembers schema.default members
  | .array elements =>
      match decodeElements schema.fields schema.default elements with
      | .error problem => .error problem
      | .ok settings =>
          if schema.fields.length < elements.length then
            .error (.tooManyElements elements.length)
          else .ok settings
  | value => .error (.wrongType value (.record schema.name))

end Schema
end Settings
end GrammarFuzz
