import GrammarFuzz.Grammar.Normalization
import GrammarFuzz.Proofs.Segmentation

/-!
# Operands in a text

An operand is an enclosed part of a text together with the operator that follows it
directly.  The operands of a text are read off its pieces: they stand in it in the
given order, and every occurrence of an enclosed part with an operator is among them.
-/

namespace GrammarFuzz

namespace Operator

def ahead? : List Piece → Option Operator
  | .letter c :: _ => ofMark? c
  | _ => none

def operandsOf : List Piece → List (Word × Operator)
  | [] => []
  | .letter _ :: rest => operandsOf rest
  | .part inner :: rest =>
      match ahead? rest with
      | some op => (inner, op) :: operandsOf rest
      | none => operandsOf rest

theorem operandsOf_letters (text : Word) (ps : List Piece) :
    operandsOf (text.map .letter ++ ps) = operandsOf ps := by
  induction text with
  | nil => rfl
  | cons c text ih => exact ih

theorem leading?_eq {segments : List Segment} (h : .plain [] ∉ segments) :
    leading? segments = ahead? (segments.flatMap Segment.pieces) := by
  cases segments with
  | nil => rfl
  | cons s rest =>
      cases s with
      | enclosed inner => rfl
      | plain text =>
          cases text with
          | nil => exact absurd List.mem_cons_self h
          | cons c text => rfl

theorem operands_eq {segments : List Segment} (h : .plain [] ∉ segments) :
    operands segments = operandsOf (segments.flatMap Segment.pieces) := by
  induction segments with
  | nil => rfl
  | cons s rest ih =>
      have hrest : .plain [] ∉ rest := fun hmem => h (List.mem_cons_of_mem _ hmem)
      cases s with
      | plain text =>
          rw [operands, ih hrest, List.flatMap_cons, Segment.pieces, operandsOf_letters]
      | enclosed inner =>
          show _ = operandsOf (.part inner :: rest.flatMap Segment.pieces)
          rw [operands, leading?_eq hrest, ih hrest]
          rfl

theorem eq_mark_of_ahead? {ps : List Piece} {op : Operator} (h : ahead? ps = some op) :
    ∃ rest, ps = .letter op.mark :: rest := by
  cases ps with
  | nil => cases h
  | cons p rest =>
      cases p with
      | part inner => cases h
      | letter c => exact ⟨rest, by rw [eq_mark_of_ofMark? h]⟩

theorem ahead?_mark (op : Operator) (rest : List Piece) :
    ahead? (.letter op.mark :: rest) = some op :=
  op.ofMark?_mark

theorem operandsOf_part_mark (inner : Word) (op : Operator) (rest : List Piece) :
    operandsOf (.part inner :: .letter op.mark :: rest) = (inner, op) :: operandsOf rest := by
  rw [operandsOf, ahead?_mark]
  rfl

theorem mem_operandsOf_cons {inner : Word} {op : Operator} {p : Piece} {ps : List Piece}
    (h : (inner, op) ∈ operandsOf ps) : (inner, op) ∈ operandsOf (p :: ps) := by
  cases p with
  | letter c => exact h
  | part name =>
      rw [operandsOf]
      cases ahead? ps with
      | none => exact h
      | some op' => exact List.mem_cons_of_mem _ h

theorem mem_operandsOf_iff {ps : List Piece} {inner : Word} {op : Operator} :
    (inner, op) ∈ operandsOf ps ↔
      ∃ before behind, ps = before ++ .part inner :: .letter op.mark :: behind := by
  constructor
  · intro h
    induction ps with
    | nil => cases h
    | cons p rest ih =>
        have hlater : (inner, op) ∈ operandsOf rest →
            ∃ before behind, p :: rest = before ++ .part inner :: .letter op.mark :: behind := by
          intro hmem
          rcases ih hmem with ⟨before, behind, hrest⟩
          exact ⟨p :: before, behind, by rw [hrest, List.cons_append]⟩
        cases p with
        | letter c => exact hlater h
        | part name =>
            rw [operandsOf] at h
            cases hahead : ahead? rest with
            | none =>
                rw [hahead] at h
                exact hlater h
            | some op' =>
                rw [hahead] at h
                rcases List.mem_cons.mp h with heq | hmem
                · cases heq
                  rcases eq_mark_of_ahead? hahead with ⟨behind, hrest⟩
                  exact ⟨[], behind, by rw [hrest, List.nil_append]⟩
                · exact hlater hmem
  · intro hsplit
    rcases hsplit with ⟨before, behind, rfl⟩
    induction before with
    | nil =>
        rw [List.nil_append, operandsOf_part_mark]
        exact List.mem_cons_self
    | cons p before ih => exact mem_operandsOf_cons ih

theorem operandsOf_append_part (ps : List Piece) (inner : Word) (qs : List Piece) :
    operandsOf (ps ++ .part inner :: qs) = operandsOf ps ++ operandsOf (.part inner :: qs) := by
  induction ps with
  | nil => rfl
  | cons p ps ih =>
      cases p with
      | letter c => exact ih
      | part name =>
          have hahead : ahead? (ps ++ .part inner :: qs) = ahead? ps := by
            cases ps with
            | nil => rfl
            | cons q ps =>
                cases q with
                | letter c => rfl
                | part other => rfl
          rw [List.cons_append, operandsOf, operandsOf, hahead, ih]
          cases ahead? ps with
          | none => rfl
          | some op => rfl

theorem operandsOf_sublist_cons (p : Piece) (ps : List Piece) :
    List.Sublist (operandsOf ps) (operandsOf (p :: ps)) := by
  cases p with
  | letter c => exact List.Sublist.refl _
  | part name =>
      rw [operandsOf]
      cases ahead? ps with
      | none => exact List.Sublist.refl _
      | some op => exact List.sublist_cons_self _ _

theorem operandsOf_append_sublist (ps qs : List Piece) :
    List.Sublist (operandsOf ps ++ operandsOf qs) (operandsOf (ps ++ qs)) := by
  induction ps with
  | nil => exact List.Sublist.refl _
  | cons p ps ih =>
      cases p with
      | letter c => exact ih
      | part name =>
          cases ps with
          | nil => exact operandsOf_sublist_cons (.part name) qs
          | cons q ps =>
              have hahead : ahead? (q :: ps ++ qs) = ahead? (q :: ps) := by
                cases q with
                | letter c => rfl
                | part other => rfl
              rw [List.cons_append, operandsOf, operandsOf, hahead]
              cases ahead? (q :: ps) with
              | none => exact ih
              | some op => exact List.Sublist.cons_cons _ ih

theorem operandsOf_append_letter {c : Char} (hc : ofMark? c = none) (ps qs : List Piece) :
    operandsOf (ps ++ .letter c :: qs) = operandsOf ps ++ operandsOf qs := by
  induction ps with
  | nil => rfl
  | cons p ps ih =>
      cases p with
      | letter d => exact ih
      | part name =>
          have hahead : ahead? (ps ++ .letter c :: qs) = ahead? ps := by
            cases ps with
            | nil => exact hc
            | cons q ps =>
                cases q with
                | letter d => rfl
                | part other => rfl
          rw [List.cons_append, operandsOf, operandsOf, hahead, ih]
          cases ahead? ps with
          | none => rfl
          | some op => rfl

theorem count_operandsOf_part {inner name : Word} (h : inner ≠ name) (op : Operator)
    (qs : List Piece) :
    (operandsOf (.part inner :: qs)).count (name, op) = (operandsOf qs).count (name, op) := by
  rw [operandsOf]
  cases ahead? qs with
  | none => rfl
  | some op' =>
      apply List.count_cons_of_ne
      intro heq
      exact h (congrArg Prod.fst heq)

end Operator

namespace Segment

theorem plain_nil_not_mem_ofText (text : Word) : plain [] ∉ ofText text := by
  cases text with
  | nil => simp [ofText]
  | cons c rest => simp [ofText]

theorem plain_nil_not_mem_scan (b : Brackets) (text : Word) (inner : Option Word) (rest : Word) :
    plain [] ∉ scan b text inner rest := by
  fun_induction scan b text inner rest with
  | case1 text => exact plain_nil_not_mem_ofText _
  | case2 text inner => exact plain_nil_not_mem_ofText _
  | case3 text rest ih => exact ih
  | case4 text c rest hc ih => exact ih
  | case5 text inner rest ih =>
      intro hmem
      rcases List.mem_append.mp hmem with hmem | hmem
      · exact plain_nil_not_mem_ofText _ hmem
      · rcases List.mem_cons.mp hmem with heq | hmem
        · cases heq
        · exact ih hmem
  | case6 text inner rest hc ih => exact ih
  | case7 text inner c rest hc ho ha ih => exact ih
  | case8 text inner c rest hc ho ha ih => exact ih

theorem plain_nil_not_mem_split (b : Brackets) (w : Word) : plain [] ∉ split b w :=
  plain_nil_not_mem_scan b [] none w

end Segment

namespace Operand

variable {b : Brackets} {text : Word} {x : Operand}

theorem allIn_eq (b : Brackets) (text : Word) :
    allIn b text = (Operator.operandsOf (pieces b text)).map fun y => ⟨b, y.1, y.2⟩ := by
  rw [allIn, Operator.operands_eq (Segment.plain_nil_not_mem_split b text)]
  rfl

theorem mem_allIn_iff :
    x ∈ allIn b text ↔ x.brackets = b ∧
      ∃ before behind, pieces b text =
        before ++ .part x.inner :: .letter x.operator.mark :: behind := by
  rw [allIn_eq, List.mem_map]
  constructor
  · intro hoperand
    rcases hoperand with ⟨⟨inner, op⟩, hmem, rfl⟩
    exact ⟨rfl, Operator.mem_operandsOf_iff.mp hmem⟩
  · intro hpart
    rcases hpart with ⟨rfl, hpieces⟩
    exact ⟨(x.inner, x.operator), Operator.mem_operandsOf_iff.mpr hpieces, rfl⟩

theorem text_round_append (inner : Word) (op : Operator) (v : Word) :
    (Operand.mk .round inner op).text ++ v = '(' :: (inner ++ ')' :: op.mark :: v) := by
  simp [Operand.text, base, Brackets.enclose, Brackets.round]

theorem brackets_of_mem_allIn (h : x ∈ allIn b text) : x.brackets = b :=
  (mem_allIn_iff.mp h).1

theorem fits_of_mem_allIn (h : x ∈ allIn b text) : b.Fits x.inner := by
  rcases mem_allIn_iff.mp h with ⟨_, before, behind, hpieces⟩
  apply fits_of_part_mem (w := text)
  rw [hpieces]
  simp

theorem exists_of_mem_allIn (h : x ∈ allIn b text) : ∃ u v, text = u ++ (x.text ++ v) := by
  rcases mem_allIn_iff.mp h with ⟨rfl, before, behind, hpieces⟩
  refine ⟨Piece.spell x.brackets before, Piece.spell x.brackets behind, ?_⟩
  rw [← spell_pieces x.brackets text, hpieces]
  simp [Operand.text, base]

theorem mem_allIn_of_occurrence {u v inner : Word} {op : Operator} (hinner : b.Fits inner)
    (hmark : op.mark ≠ b.opening) :
    (⟨b, inner, op⟩ : Operand) ∈ allIn b (u ++ (b.enclose inner ++ op.mark :: v)) := by
  refine mem_allIn_iff.mpr ⟨rfl, pieces b u, pieces b v, ?_⟩
  rw [pieces_append_enclose hinner, pieces_of_ne_opening hmark]

theorem allIn_append_sublist (hb : Operator.ofMark? b.opening = none) (u w : Word) :
    List.Sublist (allIn b u ++ allIn b w) (allIn b (u ++ w)) := by
  rw [allIn_eq, allIn_eq, allIn_eq, ← List.map_append]
  apply List.Sublist.map
  rcases pieces_append_cases b u w with hcut | ⟨before, first, second, behind, hacross⟩
  · rw [hcut]
    exact Operator.operandsOf_append_sublist _ _
  · -- The characters on both sides of the cut are no operands; together they may be one.
    have hleft : Operator.operandsOf (pieces b u) = Operator.operandsOf (pieces b before) := by
      have hletters := Operator.operandsOf_letters first []
      rw [List.append_nil] at hletters
      rw [hacross.pieces_left, List.map_cons, Operator.operandsOf_append_letter hb, hletters]
      exact List.append_nil _
    rw [hleft, hacross.pieces_right, Operator.operandsOf_letters, hacross.pieces_append,
      Operator.operandsOf_append_part]
    exact (Operator.operandsOf_sublist_cons _ _).append_left _

theorem pieces_append_text (hb : Operator.ofMark? b.opening = none) {inner : Word}
    (hinner : b.Fits inner) (op : Operator) (u v : Word) :
    pieces b (u ++ ((Operand.mk b inner op).text ++ v)) =
      pieces b u ++ .part inner :: .letter op.mark :: pieces b v := by
  have hmark : op.mark ≠ b.opening := by
    intro heq
    rw [← heq, Operator.ofMark?_mark] at hb
    cases hb
  rw [Operand.text, base, List.append_assoc, pieces_append_enclose hinner, List.singleton_append,
    pieces_of_ne_opening hmark]

theorem allIn_append_text (hb : Operator.ofMark? b.opening = none) (hx : x.brackets = b)
    (hinner : b.Fits x.inner) (u v : Word) :
    allIn b (u ++ (x.text ++ v)) = allIn b u ++ x :: allIn b v := by
  subst hx
  rw [allIn_eq, pieces_append_text hb hinner, Operator.operandsOf_append_part,
    Operator.operandsOf_part_mark, List.map_append, List.map_cons, ← allIn_eq, ← allIn_eq]

/-- The first occurrence of an operand gives way; the other operands are left. -/
theorem exists_replaceFirst (hb : Operator.ofMark? b.opening = none) (hx : x ∈ allIn b text)
    (new : Word) :
    ∃ u v, text = u ++ (x.text ++ v) ∧ Word.replaceFirst x.text new text = u ++ (new ++ v) ∧
      allIn b text = allIn b u ++ x :: allIn b v ∧
      List.Sublist (allIn b u ++ allIn b v) (allIn b (u ++ (new ++ v))) := by
  have hne : x.text ≠ [] := by simp [Operand.text]
  rcases Word.replaceFirst_cases hne new text with ⟨u, v, htext, hnew⟩ | ⟨hnone, _⟩
  · refine ⟨u, v, htext, hnew, ?_, ?_⟩
    · rw [htext]
      exact allIn_append_text hb (brackets_of_mem_allIn hx) (fits_of_mem_allIn hx) u v
    · refine List.Sublist.trans ?_ (allIn_append_sublist hb u (new ++ v))
      refine List.Sublist.append_left ?_ _
      exact List.Sublist.trans (List.sublist_append_right _ _) (allIn_append_sublist hb new v)
  · rcases exists_of_mem_allIn hx with ⟨u, v, htext⟩
    exact absurd htext (hnone u v)

end Operand

end GrammarFuzz
