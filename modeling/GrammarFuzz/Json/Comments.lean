/-!
# Comments in JSON files

Comments are blanked out on the octets of a file before it is read as text, so
what stands inside a comment need not be well-formed.  A line comment runs up to
the next line feed, a block comment up to its closing mark; neither starts
inside a string.
-/

namespace GrammarFuzz
namespace Json
namespace Comments

inductive Place where
  | code
  | string
  | escape
  | slash
  | block
  | blockStar
  | line
deriving DecidableEq

def space : UInt8 := 0x20

/-- The place after an octet and what becomes of the octet; a lone slash is refused. -/
def step : Place → UInt8 → Option (Place × UInt8)
  | .code, c =>
      if c = 0x22 then some (.string, c)
      else if c = 0x2f then some (.slash, space)
      else some (.code, c)
  | .string, c =>
      if c = 0x22 then some (.code, c)
      else if c = 0x5c then some (.escape, c)
      else some (.string, c)
  | .escape, c => some (.string, c)
  | .slash, c =>
      if c = 0x2a then some (.block, space)
      else if c = 0x2f then some (.line, space)
      else none
  | .block, c => some (if c = 0x2a then .blockStar else .block, space)
  | .blockStar, c =>
      some (if c = 0x2f then .code else if c = 0x2a then .blockStar else .block, space)
  | .line, c => if c = 0x0a then some (.code, c) else some (.line, space)

/-- A file may end in a line comment, but not inside a string or a block comment. -/
def mayEnd (place : Place) : Bool :=
  place = .code || place = .line

def blankFrom : Place → List UInt8 → Option (List UInt8)
  | place, [] => if mayEnd place then some [] else none
  | place, c :: rest =>
      match step place c with
      | none => none
      | some (place, c) => (blankFrom place rest).map (c :: ·)

def blank (octets : List UInt8) : Option (List UInt8) :=
  blankFrom .code octets

end Comments
end Json
end GrammarFuzz
