import GrammarFuzz.Word
import GrammarFuzz.Text.Printable
import GrammarFuzz.Text.GraphemeExtend

/-!
# Quoted words

Messages show a word between double quotes.  The quote, the backslash and the
common controls have short escapes; a character that is unprintable, or that
would merge with the one before it, is shown by its code point.
-/

namespace GrammarFuzz
namespace Text

def escapeCodePoint (c : Char) : Word :=
  ['\\', 'u', '\x7b'] ++ Nat.toDigits 16 c.toNat ++ ['\x7d']

def escapeQuoted (c : Char) : Word :=
  if c = '"' then ['\\', '"']
  else if c = '\\' then ['\\', '\\']
  else if c = '\n' then ['\\', 'n']
  else if c = '\r' then ['\\', 'r']
  else if c = '\t' then ['\\', 't']
  else if c.toNat = 0 then ['\\', '0']
  else if ' ' ≤ c ∧ c ≤ '~' then [c]
  else if isGraphemeExtend c || !isPrintable c then escapeCodePoint c
  else [c]

def quoted (w : Word) : Word :=
  '"' :: w.flatMap escapeQuoted ++ ['"']

end Text
end GrammarFuzz
