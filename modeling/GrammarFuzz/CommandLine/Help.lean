import GrammarFuzz.CommandLine.Spec

/-!
# Help pages

The help page of a command shows how it is called and lists what it accepts.  Labels
stand in one column and descriptions in a second one.  If the labels take more than
two fifths of a line and some description does not fit beside them, all descriptions
stand below their labels.
-/

namespace GrammarFuzz
namespace CommandLine

def purpose : String :=
  "Generate test inputs from context-free grammars and mutate seed inputs"

def versionLine : String :=
  "treefuzz 0.1.0\n"

def blanks (n : Nat) : Word :=
  List.replicate n ' '

/-!
## Entries
-/

structure Entry where
  label : Word
  description : Word

def labelWidth (entries : List Entry) : Nat :=
  entries.foldl (fun width entry => max width entry.label.length) 0

def lineWidth : Nat := 100

def isCrowded (entries : List Entry) : Bool :=
  let taken := labelWidth entries + 12
  lineWidth * 2 < taken * 5 &&
    entries.any fun entry => lineWidth < taken + entry.description.length

namespace Entry

def beside (width : Nat) (entry : Entry) : Word :=
  blanks 2 ++ entry.label ++ blanks (width - entry.label.length) ++ blanks 2 ++
    entry.description ++ ['\n']

def below (entry : Entry) : Word :=
  blanks 2 ++ entry.label ++ ['\n'] ++ blanks 10 ++ entry.description ++ ['\n']

end Entry

def renderEntries (entries : List Entry) : Word :=
  if isCrowded entries then entries.flatMap Entry.below
  else entries.flatMap (Entry.beside (labelWidth entries))

/-!
## Options
-/

namespace OptionSpec

def valueName (o : OptionSpec) : Word :=
  (Word.ofString o.long).map fun c => if c = '-' then '_' else c.toUpper

def call (o : OptionSpec) : Word :=
  let name := ['-', '-'] ++ Word.ofString o.long
  if o.form.takesValue then name ++ [' ', '<'] ++ o.valueName ++ ['>'] else name

def label (o : OptionSpec) : Word :=
  match o.short with
  | some letter => ['-', letter, ',', ' '] ++ o.call
  | none => blanks 4 ++ o.call

def remarks (o : OptionSpec) : List String :=
  let standIn := o.default?.toList.map fun value => "[default: " ++ value ++ "]"
  match o.form with
  | .oneOf names => standIn ++ ["[possible values: " ++ ", ".intercalate names ++ "]"]
  | _ => standIn

def entry (o : OptionSpec) : Entry where
  label := o.label
  description :=
    Word.ofString (" ".intercalate (([o.about].filter fun about => about != "") ++ o.remarks))

end OptionSpec

/-!
## Pages
-/

namespace Spec

def positionalLabels (spec : Spec) : List Word :=
  spec.positional?.toList.map fun name => ['<'] ++ Word.ofString name ++ Word.ofString ">..."

def usageLine (spec : Spec) : Word :=
  let required := (spec.options.filter OptionSpec.isRequired).map OptionSpec.call
  Word.ofString ("Usage: " ++ spec.program ++ " [OPTIONS]") ++
    (required ++ spec.positionalLabels).flatMap (' ' :: ·) ++ ['\n']

def renderPositionals (spec : Spec) : Word :=
  match spec.positionalLabels with
  | [] => []
  | labels =>
      Word.ofString "Arguments:\n" ++ renderEntries (labels.map fun label => ⟨label, []⟩) ++ ['\n']

def helpPage (spec : Spec) : Word :=
  Word.ofString purpose ++ ['\n', '\n'] ++ spec.usageLine ++ ['\n'] ++ spec.renderPositionals ++
    Word.ofString "Options:\n" ++ renderEntries (spec.allOptions.map OptionSpec.entry)

def answer (spec : Spec) : Inquiry → Word
  | .help => spec.helpPage
  | .version => Word.ofString versionLine

end Spec
end CommandLine
end GrammarFuzz
