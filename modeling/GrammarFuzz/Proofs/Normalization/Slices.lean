import GrammarFuzz.Proofs.Normalization.Operands

/-!
# Cutting operands at octets

The passes take the text of an operand apart at positions that are counted in octets: the
last octet is the operator, and the first and the last octet of what is left are the brackets
of a group.  Such a cut is possible only at the border between two characters, and a position
cannot be below zero.  The operators and the brackets take one octet each, so that no cut
fails, however many octets the characters between them take.
-/

namespace GrammarFuzz

namespace Word

def octets : Word → Nat
  | [] => 0
  | c :: w => c.utf8Size + octets w

/-- Cuts a word behind a number of octets, if this is the border of a character in it. -/
def cut? : Nat → Word → Option (Word × Word)
  | 0, w => some ([], w)
  | _ + 1, [] => none
  | n + 1, c :: w =>
      if c.utf8Size ≤ n + 1 then
        (cut? (n + 1 - c.utf8Size) w).map fun (u, v) => (c :: u, v)
      else none

def slice? (start stop : Nat) (w : Word) : Option Word := do
  let (front, _) ← cut? stop w
  let (_, part) ← cut? start front
  return part

def lastOctet? (w : Word) : Option Nat :=
  if 1 ≤ w.octets then some (w.octets - 1) else none

theorem octets_append (u v : Word) : octets (u ++ v) = octets u + octets v := by
  induction u with
  | nil => exact (Nat.zero_add _).symm
  | cons c u ih => rw [List.cons_append, octets, octets, ih, Nat.add_assoc]

theorem cut?_octets (u v : Word) : cut? (octets u) (u ++ v) = some (u, v) := by
  induction u with
  | nil => rw [octets, List.nil_append, cut?]
  | cons c u ih =>
      have hpos : 0 < c.utf8Size := c.utf8Size_pos
      rcases Nat.exists_eq_succ_of_ne_zero (Nat.ne_of_gt hpos) with ⟨n, hn⟩
      have hposition : octets (c :: u) = n + octets u + 1 := by
        rw [octets, hn]
        omega
      have hrest : n + octets u + 1 - c.utf8Size = octets u := by omega
      rw [hposition, List.cons_append, cut?, if_pos (by omega), hrest, ih]
      rfl

theorem slice?_append (u v w : Word) :
    slice? (octets u) (octets (u ++ v)) (u ++ v ++ w) = some v := by
  rw [slice?, cut?_octets]
  show (cut? (octets u) (u ++ v)).bind _ = _
  rw [cut?_octets]
  rfl

theorem lastOctet?_concat {c : Char} (hc : c.utf8Size = 1) (w : Word) :
    lastOctet? (w ++ [c]) = some (octets w) := by
  have hoctets : octets (w ++ [c]) = octets w + 1 := by
    rw [octets_append, octets, octets, hc]
  rw [lastOctet?, hoctets, if_pos (Nat.le_add_left 1 _), Nat.add_sub_cancel]

end Word

def splitOperator? (text : Word) : Option (Char × Word) := do
  let position ← Word.lastOctet? text
  let (base, operator) ← Word.cut? position text
  return (operator.headD Operator.optional.mark, base)

def withoutEnds? (text : Word) : Option Word := do
  let position ← Word.lastOctet? text
  Word.slice? 1 position text

def splitGroup? (text : Word) : Option (Char × Word) := do
  let (operator, base) ← splitOperator? text
  let content ← withoutEnds? base
  return (operator, content)

theorem Operator.utf8Size_mark (op : Operator) : op.mark.utf8Size = 1 := by
  cases op with
  | optional => rfl
  | star => rfl
  | plus => rfl

theorem splitOperator?_text (x : Operand) :
    splitOperator? x.text = some (x.operator.mark, x.base) := by
  rw [splitOperator?, Operand.text, Word.lastOctet?_concat x.operator.utf8Size_mark]
  show (Word.cut? (Word.octets x.base) (x.base ++ [x.operator.mark])).bind _ = _
  rw [Word.cut?_octets]
  rfl

theorem withoutEnds?_enclose (inner : Word) :
    withoutEnds? (Brackets.round.enclose inner) = some inner := by
  have hclosing : Brackets.round.closing.utf8Size = 1 := rfl
  rw [withoutEnds?, Brackets.enclose, Word.lastOctet?_concat hclosing]
  exact Word.slice?_append [Brackets.round.opening] inner [Brackets.round.closing]

theorem splitGroup?_text {text : Word} {x : Operand} (hx : x ∈ Operand.groups text) :
    splitGroup? x.text = some (x.operator.mark, x.inner) := by
  rw [splitGroup?, splitOperator?_text]
  show (withoutEnds? x.base).bind _ = _
  rw [Operand.base, Operand.brackets_of_mem_allIn hx, withoutEnds?_enclose]
  rfl

end GrammarFuzz
