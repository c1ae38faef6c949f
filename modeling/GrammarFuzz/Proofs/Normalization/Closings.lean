import GrammarFuzz.Proofs.Normalization.Replacements

/-!
# What follows closing brackets

Whether a text has a group, and whether an operand bears a second operator behind the
first, is seen while its characters are read from left to right.  Both are therefore
known of a composed text if they are known of its parts.
-/

namespace GrammarFuzz

/-!
## The ends of groups
-/

def operatorAhead : Word → Bool
  | c :: _ => (Operator.ofMark? c).isSome
  | [] => false

/-- Whether a group ends in a text, given whether one has been opened before it. -/
def endsGroup : Bool → Word → Bool
  | _, [] => false
  | opened, c :: rest =>
      if c = '(' then endsGroup true rest
      else if c = ')' then opened && operatorAhead rest || endsGroup false rest
      else endsGroup opened rest

def opensGroup : Bool → Word → Bool
  | opened, [] => opened
  | opened, c :: rest =>
      opensGroup (if c = '(' then true else if c = ')' then false else opened) rest

theorem endsGroup_append {opened : Bool} {u w : Word} (hw : operatorAhead w = false) :
    endsGroup opened (u ++ w) = (endsGroup opened u || endsGroup (opensGroup opened u) w) := by
  induction u generalizing opened with
  | nil => rfl
  | cons c u ih =>
      have hahead : operatorAhead (u ++ w) = operatorAhead u := by
        cases u with
        | nil => exact hw
        | cons d u => rfl
      rw [List.cons_append, endsGroup, endsGroup, opensGroup, hahead]
      by_cases hopen : c = '('
      · simp only [hopen, if_true, ih]
      · by_cases hclose : c = ')'
        · simp [hclose, ih, Bool.or_assoc]
        · simp only [hopen, hclose, if_false, ih]

theorem endsGroup_of_not_mem {opened : Bool} {u : Word} (hopen : '(' ∉ u) (hclose : ')' ∉ u) :
    endsGroup opened u = false ∧ opensGroup opened u = opened := by
  induction u with
  | nil => exact ⟨rfl, rfl⟩
  | cons c u ih =>
      rw [List.mem_cons, not_or] at hopen hclose
      rw [endsGroup, opensGroup, if_neg (Ne.symm hopen.1), if_neg (Ne.symm hclose.1),
        if_neg (Ne.symm hopen.1), if_neg (Ne.symm hclose.1)]
      exact ih hopen.2 hclose.2

theorem operatorAhead_mark (op : Operator) (rest : Word) :
    operatorAhead (op.mark :: rest) = true := by
  rw [operatorAhead, Operator.ofMark?_mark]
  rfl

theorem exists_of_operatorAhead {w : Word} (h : operatorAhead w = true) :
    ∃ (op : Operator) (rest : Word), w = op.mark :: rest := by
  cases w with
  | nil => cases h
  | cons c rest =>
      rcases Option.isSome_iff_exists.mp h with ⟨op, hop⟩
      exact ⟨op, rest, by rw [Operator.eq_mark_of_ofMark? hop]⟩

theorem exists_of_endsGroup {opened : Bool} {text : Word} (h : endsGroup opened text = true) :
    (∃ u inner op v, Brackets.round.Fits inner ∧
      text = u ++ ((Operand.mk .round inner op).text ++ v)) ∨
    opened = true ∧ ∃ (inner : Word) (op : Operator) (v : Word), Brackets.round.Fits inner ∧
      text = inner ++ ')' :: op.mark :: v := by
  induction text generalizing opened with
  | nil => cases h
  | cons c rest ih =>
      have hlater : (∃ u inner op v, Brackets.round.Fits inner ∧
          rest = u ++ ((Operand.mk .round inner op).text ++ v)) →
          ∃ u inner op v, Brackets.round.Fits inner ∧
            c :: rest = u ++ ((Operand.mk .round inner op).text ++ v) := by
        intro hgroup
        rcases hgroup with ⟨u, inner, op, v, hinner, hrest⟩
        exact ⟨c :: u, inner, op, v, hinner, by rw [hrest, List.cons_append]⟩
      rw [endsGroup] at h
      by_cases hopen : c = '('
      · rw [if_pos hopen] at h
        refine Or.inl ?_
        rcases ih h with hgroup | ⟨_, inner, op, v, hinner, hrest⟩
        · exact hlater hgroup
        · refine ⟨[], inner, op, v, hinner, ?_⟩
          rw [hopen, hrest, List.nil_append, Operand.text_round_append]
      · rw [if_neg hopen] at h
        by_cases hclose : c = ')'
        · rw [if_pos hclose, Bool.or_eq_true, Bool.and_eq_true] at h
          rcases h with ⟨hopened, hahead⟩ | h
          · rcases exists_of_operatorAhead hahead with ⟨op, v, hrest⟩
            refine Or.inr ⟨hopened, [], op, v, fun _ hc => (List.not_mem_nil hc).elim, ?_⟩
            rw [hclose, hrest, List.nil_append]
          · exact (ih h).imp hlater fun hnone => Bool.noConfusion hnone.1
        · rw [if_neg hclose] at h
          refine (ih h).imp hlater fun hend => ⟨hend.1, ?_⟩
          rcases hend.2 with ⟨inner, op, v, hinner, hrest⟩
          refine ⟨c :: inner, op, v, ?_, by rw [hrest, List.cons_append]⟩
          intro d hd
          rcases List.mem_cons.mp hd with rfl | hd
          · exact ⟨hopen, hclose, rfl⟩
          · exact hinner d hd

theorem endsGroup_of_group {opened : Bool} {inner : Word} (hinner : Brackets.round.Fits inner)
    (op : Operator) (u v : Word) :
    endsGroup opened (u ++ ((Operand.mk .round inner op).text ++ v)) = true := by
  have hparentheses := fits_round_iff.mp hinner
  have hcontent := @endsGroup_of_not_mem true inner hparentheses.1 hparentheses.2
  rw [Operand.text_round_append, endsGroup_append rfl, endsGroup, if_pos rfl,
    endsGroup_append rfl, hcontent.1, hcontent.2, endsGroup, if_neg (by decide), if_pos rfl,
    operatorAhead_mark]
  simp

theorem groups_eq_nil_iff {text : Word} :
    Operand.groups text = [] ↔ endsGroup false text = false := by
  constructor
  · intro h
    by_contra hends
    rcases exists_of_endsGroup (eq_true_of_ne_false hends) with
      ⟨u, inner, op, v, hinner, htext⟩ | ⟨hopened, _⟩
    · have hmem : (⟨.round, inner, op⟩ : Operand) ∈ Operand.groups text := by
        rw [htext, Operand.text, List.append_assoc]
        exact Operand.mem_allIn_of_occurrence hinner op.mark_ne.2.2.1
      rw [h] at hmem
      cases hmem
    · cases hopened
  · intro h
    apply List.eq_nil_iff_forall_not_mem.mpr
    rintro ⟨b, inner, op⟩ hx
    have hround := Operand.brackets_of_mem_allIn hx
    have hinner := Operand.fits_of_mem_allIn hx
    dsimp only at hround hinner
    subst hround
    rcases Operand.exists_of_mem_allIn hx with ⟨u, v, htext⟩
    rw [htext, endsGroup_of_group hinner] at h
    cases h

/-!
## Single operators
-/

def operatorsAhead : Word → Bool
  | c :: rest => (Operator.ofMark? c).isSome && operatorAhead rest
  | [] => false

/-- Whether no closing bracket in a text is followed by two operators. -/
def singleOperators : Word → Bool
  | [] => true
  | c :: rest => !((c == '>' || c == ')') && operatorsAhead rest) && singleOperators rest

theorem operatorsAhead_of_operatorAhead {w : Word} (h : operatorAhead w = false) :
    operatorsAhead w = false := by
  cases w with
  | nil => rfl
  | cons c rest =>
      rw [operatorsAhead, show (Operator.ofMark? c).isSome = false from h, Bool.false_and]

theorem singleOperators_append {u w : Word} (hw : operatorAhead w = false) :
    singleOperators (u ++ w) = (singleOperators u && singleOperators w) := by
  induction u with
  | nil => rfl
  | cons c u ih =>
      have hahead : operatorsAhead (u ++ w) = operatorsAhead u := by
        cases u with
        | nil => exact operatorsAhead_of_operatorAhead hw
        | cons d u =>
            cases u with
            | nil => rw [List.singleton_append, operatorsAhead, hw, operatorsAhead, operatorAhead]
            | cons d' u => rfl
      rw [List.cons_append, singleOperators, singleOperators, hahead, ih, Bool.and_assoc]

theorem singleOperators_of_not_mem {w : Word} (hangle : '>' ∉ w) (hround : ')' ∉ w) :
    singleOperators w = true := by
  induction w with
  | nil => rfl
  | cons c w ih =>
      rw [List.mem_cons, not_or] at hangle hround
      rw [singleOperators, ih hangle.2 hround.2, beq_eq_false_iff_ne.mpr (Ne.symm hangle.1),
        beq_eq_false_iff_ne.mpr (Ne.symm hround.1)]
      rfl

theorem singleOperators_mark (op : Operator) (v : Word) :
    singleOperators (op.mark :: v) = singleOperators v := by
  rw [singleOperators, beq_eq_false_iff_ne.mpr op.mark_ne.2.1,
    beq_eq_false_iff_ne.mpr op.mark_ne.2.2.2]
  rfl

theorem singleOperators_operand {b : Brackets} (hb : b = .angle ∨ b = .round) {inner : Word}
    (op : Operator) (u v : Word) :
    singleOperators (u ++ ((Operand.mk b inner op).text ++ v)) = true ↔
      singleOperators u = true ∧ singleOperators inner = true ∧ operatorAhead v = false ∧
        singleOperators v = true := by
  have htext : (Operand.mk b inner op).text ++ v =
      b.opening :: (inner ++ b.closing :: op.mark :: v) := by
    simp [Operand.text, Operand.base, Brackets.enclose]
  have hopen : ∀ w, singleOperators (b.opening :: w) = singleOperators w := by
    rcases hb with rfl | rfl
    · exact fun w => rfl
    · exact fun w => rfl
  have hclose : singleOperators (b.closing :: op.mark :: v) =
      (!operatorAhead v && singleOperators v) := by
    rcases hb with rfl | rfl
    · rw [singleOperators, singleOperators_mark, operatorsAhead, Operator.ofMark?_mark]
      rfl
    · rw [singleOperators, singleOperators_mark, operatorsAhead, Operator.ofMark?_mark]
      rfl
  have hahead : operatorAhead (b.opening :: (inner ++ b.closing :: op.mark :: v)) = false ∧
      operatorAhead (b.closing :: op.mark :: v) = false := by
    rcases hb with rfl | rfl
    · exact ⟨rfl, rfl⟩
    · exact ⟨rfl, rfl⟩
  rw [htext, singleOperators_append hahead.1, hopen, singleOperators_append hahead.2, hclose]
  simp only [Bool.and_eq_true, Bool.not_eq_true']

theorem singleOperators_enclose {inner v : Word} (hv : operatorAhead v = false) :
    singleOperators (Brackets.angle.enclose inner ++ v) =
      (singleOperators inner && singleOperators v) := by
  have htext : Brackets.angle.enclose inner ++ v = '<' :: (inner ++ '>' :: v) := by
    simp [Brackets.enclose, Brackets.angle]
  have hclose : singleOperators ('>' :: v) = singleOperators v := by
    rw [singleOperators, operatorsAhead_of_operatorAhead hv]
    rfl
  have hopen : singleOperators ('<' :: (inner ++ '>' :: v)) = singleOperators (inner ++ '>' :: v) :=
    rfl
  rw [htext, hopen, singleOperators_append rfl, hclose]

theorem Operand.repetitions_append_enclose {name v : Word} (hname : Brackets.angle.Fits name)
    (hv : operatorAhead v = false) (u : Word) :
    repetitions (u ++ (Brackets.angle.enclose name ++ v)) = repetitions u ++ repetitions v := by
  have hahead : Operator.ahead? (pieces .angle v) = none := by
    cases hop : Operator.ahead? (pieces .angle v) with
    | none => rfl
    | some op =>
        rcases Operator.eq_mark_of_ahead? hop with ⟨rest, hpieces⟩
        rw [← spell_pieces .angle v, hpieces, Piece.spell_letter, operatorAhead_mark] at hv
        cases hv
  rw [repetitions, allIn_eq, pieces_append_enclose hname, Operator.operandsOf_append_part,
    Operator.operandsOf, hahead, List.map_append, ← allIn_eq, ← allIn_eq]
  rfl

/-!
## Names and their numbered variants
-/

theorem opensGroup_append (opened : Bool) (u w : Word) :
    opensGroup opened (u ++ w) = opensGroup (opensGroup opened u) w := by
  induction u generalizing opened with
  | nil => rfl
  | cons c u ih => exact ih _

theorem endsGroup_enclose_append (opened : Bool) (inner w : Word) :
    endsGroup opened (Brackets.angle.enclose inner ++ w) =
      (endsGroup opened inner || endsGroup (opensGroup opened inner) w) := by
  have htext : Brackets.angle.enclose inner ++ w = '<' :: (inner ++ '>' :: w) := by
    simp [Brackets.enclose, Brackets.angle]
  have hopen : endsGroup opened ('<' :: (inner ++ '>' :: w)) =
      endsGroup opened (inner ++ '>' :: w) := rfl
  rw [htext, hopen, endsGroup_append rfl]
  rfl

theorem endsGroup_enclose (opened : Bool) (inner : Word) :
    endsGroup opened (Brackets.angle.enclose inner) = endsGroup opened inner := by
  have h := endsGroup_enclose_append opened inner []
  rwa [List.append_nil, endsGroup, Bool.or_false] at h

namespace Normalization
namespace IsNumbering

variable {suffix : Word}

theorem operatorAhead_eq_false (h : IsNumbering suffix) : operatorAhead suffix = false := by
  by_contra hahead
  rcases exists_of_operatorAhead (eq_true_of_ne_false hahead) with ⟨op, rest, rfl⟩
  have hdigit : op.mark ≠ '-' ∧ op.mark.isDigit = false := by
    cases op with
    | optional => decide
    | star => decide
    | plus => decide
  exact h.not_mem hdigit.1 hdigit.2 List.mem_cons_self

theorem groupState_append (h : IsNumbering suffix) (opened : Bool) (inner : Word) :
    endsGroup opened (inner ++ suffix) = endsGroup opened inner ∧
      opensGroup opened (inner ++ suffix) = opensGroup opened inner := by
  have hplain := fun state => @endsGroup_of_not_mem state suffix
    (h.not_mem (by decide) (by decide)) (h.not_mem (by decide) (by decide))
  rw [endsGroup_append h.operatorAhead_eq_false, opensGroup_append, (hplain _).1, (hplain _).2,
    Bool.or_false]
  exact ⟨rfl, rfl⟩

theorem singleOperators_append_eq (h : IsNumbering suffix) (inner : Word) :
    singleOperators (inner ++ suffix) = singleOperators inner := by
  have hplain := @singleOperators_of_not_mem suffix (h.not_mem (by decide) (by decide))
    (h.not_mem (by decide) (by decide))
  rw [singleOperators_append h.operatorAhead_eq_false, hplain, Bool.and_true]

end IsNumbering
end Normalization
end GrammarFuzz
