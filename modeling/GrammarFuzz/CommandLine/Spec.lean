import GrammarFuzz.Word

/-!
# What a command accepts

A command has options and may take further arguments.  An option has a long name and
may have a short one of a single letter.  Each command can be asked for its help page
and for the version of the program, so these two options belong to all of them.
-/

namespace GrammarFuzz
namespace CommandLine

/-!
## Numbers
-/

def readDigits (digits : Word) : Option Nat :=
  if digits.isEmpty || !digits.all Char.isDigit then none
  else
    let n := digits.foldl (fun n d => n * 10 + (d.toNat - 48)) 0
    if n < 0x10000000000000000 then some n else none

/-- A number that fits a 64-bit word; a plus sign may stand before it. -/
def readNumber? : Word → Option Nat
  | '+' :: digits => readDigits digits
  | digits => readDigits digits

/-!
## Options
-/

inductive Inquiry where
  | help
  | version

inductive Form where
  | flag
  | text
  | texts
  | number
  | oneOf (names : List String)
  | inquiry (i : Inquiry)

namespace Form

def takesValue : Form → Bool
  | flag => false
  | inquiry _ => false
  | _ => true

def mayRepeat : Form → Bool
  | texts => true
  | _ => false

def accepts : Form → Word → Bool
  | number, value => (readNumber? value).isSome
  | oneOf names, value => names.any fun name => Word.ofString name == value
  | _, _ => true

end Form

structure OptionSpec where
  long : String
  short : Option Char := none
  form : Form := .text
  isRequired : Bool := false
  about : String := ""
  /-- The value that stands in if the option is not given, as the help page shows it. -/
  default? : Option String := none

structure Spec where
  program : String
  options : List OptionSpec
  positional? : Option String := none

def helpOption : OptionSpec :=
  { long := "help", short := some 'h', form := .inquiry .help, about := "Print help" }

def versionOption : OptionSpec :=
  { long := "version", short := some 'V', form := .inquiry .version, about := "Print version" }

namespace Spec

def allOptions (spec : Spec) : List OptionSpec :=
  spec.options ++ [helpOption, versionOption]

end Spec
end CommandLine
end GrammarFuzz
