import GrammarFuzz.CommandLine.Command

/-!
# The program

The first argument names the command.  The exit code is 0 if the command succeeds or
answers an inquiry, 1 if it fails and 2 if its arguments are refused.
-/

namespace GrammarFuzz
namespace CommandLine

def usage : String :=
  "usage: generate | mutate | normalize, followed by the options of the command"

def readFile? (file : Word) : IO (Option ByteArray) :=
  try
    let octets ← IO.FS.readBinFile file.text
    return some octets
  catch _ => return none

def readFiles (files : List Word) : IO Files := do
  let contents ← files.mapM fun file => return (file, ← readFile? file)
  return fun file => (contents.lookup file).join

def randomSeed : IO UInt64 := do
  let octets ← IO.getRandomBytes 8
  return octets.foldl (fun n octet => n * 256 + octet.toUInt64) 0

def write (file : Word) (text : Word) : IO Bool :=
  try
    IO.FS.writeFile file.text text.text
    return true
  catch _ => do
    IO.eprintln (FileError.message ⟨file, .notWritable⟩)
    return false

def perform (effect : Effect) : IO UInt32 := do
  let out ← IO.getStdout
  out.write effect.printed
  out.flush
  match effect.error with
  | some e => do
      IO.eprintln e.message
      return 1
  | none =>
      match effect.written with
      | none => return 0
      | some (file, text) => return if ← write file text then 0 else 1

end CommandLine
end GrammarFuzz

open GrammarFuzz.CommandLine in
def main (args : List String) : IO UInt32 := do
  match args with
  | [] => do
      IO.eprintln usage
      return 2
  | name :: args =>
      match Command.parse name (args.map GrammarFuzz.Word.ofString) with
      | .error .refused => do
          IO.eprintln usage
          return 2
      | .error (.answered text) => do
          IO.print text.text
          return 0
      | .ok command => do
          let files ← readFiles command.inputs
          let seed ← randomSeed
          perform (command.run files seed)
