import GrammarFuzz.Word

/-!
# Bracketed segments of a word

A word is cut, from left to right, into the parts enclosed by a pair of brackets
and the plain text between them.  No bracket stands inside an enclosed part, and
some brackets bar further characters: an opening bracket whose part is never
closed that way is plain text.

Non-terminals are the parts in angle brackets without blanks; groups are the
parts in parentheses.
-/

namespace GrammarFuzz

structure Brackets where
  opening : Char
  closing : Char
  admits : Char → Bool
  distinct : opening ≠ closing

namespace Brackets

def angle : Brackets :=
  ⟨'<', '>', fun c => c != ' ', by decide⟩

def round : Brackets :=
  ⟨'(', ')', fun _ => true, by decide⟩

def enclose (b : Brackets) (inner : Word) : Word :=
  b.opening :: inner ++ [b.closing]

end Brackets

inductive Segment where
  | plain (text : Word)
  | enclosed (inner : Word)
deriving DecidableEq

namespace Segment

def word (b : Brackets) : Segment → Word
  | plain text => text
  | enclosed inner => b.enclose inner

def enclosed? : Segment → Option Word
  | plain _ => none
  | enclosed inner => some inner

def ofText (text : Word) : List Segment :=
  if text.isEmpty then [] else [plain text]

/--
Cuts the rest of a word.  The first word is the plain text since the last
segment, the second one what follows an opening bracket; both are reversed.
-/
def scan (b : Brackets) : Word → Option Word → Word → List Segment
  | text, none, [] => ofText text.reverse
  | text, some inner, [] => ofText (inner ++ b.opening :: text).reverse
  | text, none, c :: rest =>
      if c = b.opening then scan b text (some []) rest
      else scan b (c :: text) none rest
  | text, some inner, c :: rest =>
      if c = b.closing then
        ofText text.reverse ++ enclosed inner.reverse :: scan b [] none rest
      else if c = b.opening then scan b (inner ++ b.opening :: text) (some []) rest
      else if b.admits c then scan b text (some (c :: inner)) rest
      else scan b (c :: inner ++ b.opening :: text) none rest

def split (b : Brackets) (w : Word) : List Segment :=
  scan b [] none w

theorem flatMap_word_ofText (b : Brackets) (text : Word) :
    (ofText text).flatMap (word b) = text := by
  cases text with
  | nil => rfl
  | cons c rest => simp [ofText, word]

theorem flatMap_word_scan (b : Brackets) (text : Word) (inner : Option Word) (rest : Word) :
    (scan b text inner rest).flatMap (word b) =
      text.reverse ++ (inner.elim [] fun w => b.opening :: w.reverse) ++ rest := by
  fun_induction scan b text inner rest with
  | case1 text => simp [flatMap_word_ofText]
  | case2 text inner => simp [flatMap_word_ofText]
  | case3 text rest ih => simpa using ih
  | case4 text c rest hc ih => simpa using ih
  | case5 text inner rest ih => simp [flatMap_word_ofText, word, Brackets.enclose, ih]
  | case6 text inner rest hc ih => simpa using ih
  | case7 text inner c rest hc ho ha ih => simpa using ih
  | case8 text inner c rest hc ho ha ih => simpa using ih

theorem flatMap_word_split (b : Brackets) (w : Word) : (split b w).flatMap (word b) = w := by
  simpa [split] using flatMap_word_scan b [] none w

def parts (b : Brackets) (w : Word) : List Word :=
  (split b w).filterMap fun s => s.enclosed?.map b.enclose

end Segment
end GrammarFuzz
