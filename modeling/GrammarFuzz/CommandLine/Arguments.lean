import GrammarFuzz.CommandLine.Help

/-!
# Command line arguments

Arguments are read from left to right.  A value is given as the next argument, which
may not look like an option, or attached to its option.  A double dash ends the options.
An option may be given only once, unless it collects values.  The first argument that is
refused, or that asks for help or the version, ends the reading; what has to be given is
checked at the end.
-/

namespace GrammarFuzz
namespace CommandLine

inductive Stop where
  | refused
  | answered (text : Word)

structure Arguments where
  options : List (String × Word) := []
  positionals : List Word := []

namespace Arguments

def values (a : Arguments) (name : String) : List Word :=
  (a.options.filter fun o => o.1 == name).map Prod.snd

def value? (a : Arguments) (name : String) : Option Word :=
  a.options.lookup name

def has (a : Arguments) (name : String) : Bool :=
  (a.options.lookup name).isSome

def number? (a : Arguments) (name : String) : Option Nat :=
  (a.value? name).bind readNumber?

def add (a : Arguments) (o : OptionSpec) (value : Word) : Except Stop Arguments :=
  if a.has o.long && !o.form.mayRepeat then .error .refused
  else if o.form.accepts value then .ok { a with options := a.options ++ [(o.long, value)] }
  else .error .refused

def addPositional (spec : Spec) (a : Arguments) (value : Word) : Except Stop Arguments :=
  if spec.positional?.isSome then .ok { a with positionals := a.positionals ++ [value] }
  else .error .refused

def checkComplete (spec : Spec) (a : Arguments) : Except Stop Arguments :=
  if spec.options.any fun o => o.isRequired && !a.has o.long then .error .refused
  else if spec.positional?.isSome && a.positionals.isEmpty then .error .refused
  else .ok a

end Arguments

/-- A single dash is a value; anything longer that begins with one is not. -/
def looksLikeOption : Word → Bool
  | '-' :: _ :: _ => true
  | _ => false

inductive Named where
  | long (name : Word) (attached : Option Word)
  | short (letter : Char) (attached : Option Word)
  | endOfOptions
  | notNamed

def splitEquals (w : Word) : Word × Option Word :=
  match w.dropWhile (· != '=') with
  | [] => (w, none)
  | _ :: value => (w.takeWhile (· != '='), some value)

def named : Word → Named
  | ['-', '-'] => .endOfOptions
  | '-' :: '-' :: rest =>
      let (name, attached) := splitEquals rest
      .long name attached
  | ['-', letter] => .short letter none
  | '-' :: letter :: '=' :: value => .short letter (some value)
  | '-' :: letter :: value => .short letter (some value)
  | _ => .notNamed

namespace Spec

def find? (spec : Spec) : Named → Option OptionSpec
  | .long name _ => spec.allOptions.find? fun o => Word.ofString o.long == name
  | .short letter _ => spec.allOptions.find? fun o => o.short == some letter
  | _ => none

def attached : Named → Option Word
  | .long _ value => value
  | .short _ value => value
  | _ => none

/-- What follows the letter of an inquiry is not looked at, but its long name stands alone. -/
def stopAt (spec : Spec) (i : Inquiry) : Named → Stop
  | .long _ (some _) => .refused
  | _ => .answered (spec.answer i)

def readPositionals (spec : Spec) (a : Arguments) : List Word → Except Stop Arguments
  | [] => .ok a
  | arg :: rest =>
      match a.addPositional spec arg with
      | .error stop => .error stop
      | .ok a => readPositionals spec a rest

/-- Adds arguments; while an option waits for its value, the next one has to be that value. -/
def read (spec : Spec) (a : Arguments) : Option OptionSpec → List Word → Except Stop Arguments
  | none, [] => .ok a
  | some _, [] => .error .refused
  | some option, arg :: rest =>
      if looksLikeOption arg then .error .refused
      else
        match a.add option arg with
        | .error stop => .error stop
        | .ok a => read spec a none rest
  | none, arg :: rest =>
      match named arg with
      | .endOfOptions => spec.readPositionals a rest
      | .notNamed =>
          match a.addPositional spec arg with
          | .error stop => .error stop
          | .ok a => read spec a none rest
      | name =>
          match spec.find? name with
          | none => .error .refused
          | some o =>
              match o.form, attached name with
              | .inquiry i, _ => .error (spec.stopAt i name)
              | .flag, some _ => .error .refused
              | .flag, none =>
                  match a.add o [] with
                  | .error stop => .error stop
                  | .ok a => read spec a none rest
              | _, none => read spec a (some o) rest
              | _, some value =>
                  match a.add o value with
                  | .error stop => .error stop
                  | .ok a => read spec a none rest

def parse (spec : Spec) (args : List Word) : Except Stop Arguments :=
  match spec.read {} none args with
  | .error stop => .error stop
  | .ok a => a.checkComplete spec

end Spec
end CommandLine
end GrammarFuzz
