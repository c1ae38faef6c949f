import GrammarFuzz.Grammar.Segment

/-!
# Words as sequences of pieces

Cutting a word into segments reads it piece by piece: a piece is an enclosed part
or a single character outside all of them.  The pieces of a word are determined by
two equations, one for a word that begins with an enclosed part and one for a word
that does not, and the later modules reason with these equations only.
-/

namespace GrammarFuzz

inductive Piece where
  | letter (c : Char)
  | part (inner : Word)
deriving DecidableEq

def Brackets.Fits (b : Brackets) (inner : Word) : Prop :=
  ∀ c ∈ inner, c ≠ b.opening ∧ c ≠ b.closing ∧ b.admits c = true

instance (b : Brackets) (inner : Word) : Decidable (b.Fits inner) :=
  decidable_of_iff
    (inner.all (fun c => decide (c ≠ b.opening ∧ c ≠ b.closing ∧ b.admits c = true)) = true)
    (by simp [Brackets.Fits])

theorem Brackets.fits_nil (b : Brackets) : b.Fits [] :=
  fun c hc => by cases hc

theorem Brackets.fits_append_iff {b : Brackets} {first second : Word} :
    b.Fits (first ++ second) ↔ b.Fits first ∧ b.Fits second :=
  List.forall_mem_append

theorem fits_round_iff {inner : Word} :
    Brackets.round.Fits inner ↔ '(' ∉ inner ∧ ')' ∉ inner := by
  constructor
  · exact fun h => ⟨fun hmem => (h _ hmem).1 rfl, fun hmem => (h _ hmem).2.1 rfl⟩
  · intro h c hc
    exact ⟨ne_of_mem_of_not_mem hc h.1, ne_of_mem_of_not_mem hc h.2, rfl⟩

namespace Piece

def word (b : Brackets) : Piece → Word
  | letter c => [c]
  | part inner => b.enclose inner

def spell (b : Brackets) (ps : List Piece) : Word :=
  ps.flatMap (word b)

@[simp]
theorem spell_nil (b : Brackets) : spell b [] = [] :=
  rfl

@[simp]
theorem spell_letter (b : Brackets) (c : Char) (ps : List Piece) :
    spell b (letter c :: ps) = c :: spell b ps :=
  rfl

@[simp]
theorem spell_part (b : Brackets) (inner : Word) (ps : List Piece) :
    spell b (part inner :: ps) = b.enclose inner ++ spell b ps :=
  rfl

@[simp]
theorem spell_append (b : Brackets) (ps qs : List Piece) :
    spell b (ps ++ qs) = spell b ps ++ spell b qs :=
  List.flatMap_append

end Piece

namespace Segment

def pieces : Segment → List Piece
  | plain text => text.map .letter
  | enclosed inner => [.part inner]

theorem flatMap_pieces_ofText (text : Word) :
    (ofText text).flatMap pieces = text.map .letter := by
  cases text with
  | nil => rfl
  | cons c rest => simp [ofText, pieces]

theorem flatMap_pieces_scan (b : Brackets) (text : Word) (inner : Option Word) (rest : Word) :
    (scan b text inner rest).flatMap pieces =
      text.reverse.map .letter ++ (scan b [] inner rest).flatMap pieces := by
  induction rest generalizing text inner with
  | nil =>
      cases inner with
      | none => simp [scan, flatMap_pieces_ofText]
      | some inner => simp [scan, flatMap_pieces_ofText]
  | cons c rest ih =>
      cases inner with
      | none =>
          by_cases ho : c = b.opening
          · simp only [scan, ho, if_true]
            exact ih text (some [])
          · simp only [scan, ho, if_false]
            rw [ih (c :: text) none, ih [c] none]
            simp
      | some inner =>
          by_cases hc : c = b.closing
          · simp [scan, hc, flatMap_pieces_ofText]
          · by_cases ho : c = b.opening
            · simp only [scan, ho, b.distinct, if_true, if_false]
              rw [ih (inner ++ b.opening :: text) (some []), ih (inner ++ [b.opening]) (some [])]
              simp
            · by_cases ha : b.admits c = true
              · simp only [scan, hc, ho, ha, if_true, if_false]
                exact ih text (some (c :: inner))
              · simp only [scan, hc, ho, ha, if_false, Bool.false_eq_true]
                rw [ih (c :: inner ++ b.opening :: text) none,
                  ih (c :: inner ++ [b.opening]) none]
                simp

end Segment

def pieces (b : Brackets) (w : Word) : List Piece :=
  (Segment.split b w).flatMap Segment.pieces

variable {b : Brackets}

@[simp]
theorem pieces_nil : pieces b [] = [] :=
  rfl

theorem spell_flatMap_pieces (b : Brackets) (segments : List Segment) :
    Piece.spell b (segments.flatMap Segment.pieces) = segments.flatMap (Segment.word b) := by
  induction segments with
  | nil => rfl
  | cons s rest ih =>
      have hs : Piece.spell b s.pieces = s.word b := by
        cases s with
        | plain text =>
            simp [Segment.pieces, Piece.spell, Piece.word, Segment.word, List.flatMap_map]
        | enclosed inner =>
            rw [Segment.pieces, Piece.spell_part, Piece.spell_nil, List.append_nil, Segment.word]
      rw [List.flatMap_cons, Piece.spell_append, hs, ih, List.flatMap_cons]

theorem spell_pieces (b : Brackets) (w : Word) : Piece.spell b (pieces b w) = w := by
  rw [pieces, spell_flatMap_pieces, Segment.flatMap_word_split]

/-!
## The two equations

Behind an opening bracket the scan either meets the closing one, or it gives up and
has read nothing but single characters.
-/

theorem pieces_of_ne_opening {c : Char} (hc : c ≠ b.opening) (w : Word) :
    pieces b (c :: w) = .letter c :: pieces b w := by
  rw [pieces, Segment.split, Segment.scan, if_neg hc, Segment.flatMap_pieces_scan]
  rfl

theorem pieces_opening (b : Brackets) (w : Word) :
    pieces b (b.opening :: w) = (Segment.scan b [] (some []) w).flatMap Segment.pieces := by
  rw [pieces, Segment.split, Segment.scan, if_pos rfl]

theorem pieces_scan_closed {inner : Word} (hinner : b.Fits inner) (before rest : Word) :
    (Segment.scan b [] (some before) (inner ++ b.closing :: rest)).flatMap Segment.pieces =
      .part (before.reverse ++ inner) :: pieces b rest := by
  induction inner generalizing before with
  | nil => simp [Segment.scan, Segment.ofText, Segment.pieces, pieces, Segment.split]
  | cons c inner ih =>
      rcases hinner c (by simp) with ⟨ho, hc, ha⟩
      have hrest : b.Fits inner := fun d hd => hinner d (by simp [hd])
      simp only [List.cons_append, Segment.scan, ho, hc, ha, if_true, if_false]
      rw [ih hrest (c :: before)]
      simp

theorem pieces_scan_open {w : Word}
    (hopen : ¬ ∃ inner rest, b.Fits inner ∧ w = inner ++ b.closing :: rest) (before : Word) :
    (Segment.scan b [] (some before) w).flatMap Segment.pieces =
      (b.opening :: before.reverse).map .letter ++ pieces b w := by
  induction w generalizing before with
  | nil => simp [Segment.scan, Segment.flatMap_pieces_ofText]
  | cons c w ih =>
      have hc : c ≠ b.closing := by
        intro hc
        exact hopen ⟨[], w, b.fits_nil, by simp [hc]⟩
      by_cases ho : c = b.opening
      · subst ho
        simp only [Segment.scan, hc, if_true, if_false]
        rw [Segment.flatMap_pieces_scan, pieces_opening]
        simp
      · by_cases ha : b.admits c = true
        · have hrest : ¬ ∃ inner rest, b.Fits inner ∧ w = inner ++ b.closing :: rest := by
            intro hpart
            rcases hpart with ⟨inner, rest, hinner, hw⟩
            refine hopen ⟨c :: inner, rest, ?_, by simp [hw]⟩
            intro d hd
            rcases List.mem_cons.mp hd with rfl | hd
            · exact ⟨ho, hc, ha⟩
            · exact hinner d hd
          simp only [Segment.scan, hc, ho, ha, if_true, if_false]
          rw [ih hrest (c :: before), pieces_of_ne_opening ho]
          simp
        · simp only [Segment.scan, hc, ho, ha, if_false, Bool.false_eq_true]
          rw [Segment.flatMap_pieces_scan, pieces_of_ne_opening ho, pieces, Segment.split]
          simp

theorem Brackets.enclose_injective {b : Brackets} {first second : Word}
    (h : b.enclose first = b.enclose second) : first = second :=
  List.append_cancel_right (List.cons.inj h).2

theorem pieces_enclose {inner : Word} (hinner : b.Fits inner) (rest : Word) :
    pieces b (b.enclose inner ++ rest) = .part inner :: pieces b rest := by
  have h := pieces_scan_closed hinner [] rest
  rw [Brackets.enclose, List.append_assoc, List.cons_append, pieces_opening]
  simpa using h

theorem pieces_cons {c : Char} {w : Word}
    (hplain : ¬ ∃ inner rest, b.Fits inner ∧ c :: w = b.enclose inner ++ rest) :
    pieces b (c :: w) = .letter c :: pieces b w := by
  by_cases hc : c = b.opening
  · subst hc
    rw [pieces_opening, pieces_scan_open]
    · simp
    · intro hpart
      rcases hpart with ⟨inner, rest, hinner, hw⟩
      exact hplain ⟨inner, rest, hinner, by simp [Brackets.enclose, hw]⟩
  · exact pieces_of_ne_opening hc w

@[elab_as_elim]
theorem pieces_induction {motive : Word → Prop} (nil : motive [])
    (part : ∀ inner rest, b.Fits inner → motive rest → motive (b.enclose inner ++ rest))
    (letter : ∀ c w, (¬ ∃ inner rest, b.Fits inner ∧ c :: w = b.enclose inner ++ rest) →
      motive w → motive (c :: w))
    (w : Word) : motive w := by
  -- An enclosed part is longer than one character, so the induction is on the length.
  induction hn : w.length using Nat.strongRecOn generalizing w with
  | ind n ih =>
      cases w with
      | nil => exact nil
      | cons c w =>
          by_cases hpart : ∃ inner rest, b.Fits inner ∧ c :: w = b.enclose inner ++ rest
          · rcases hpart with ⟨inner, rest, hinner, hw⟩
            have hlen : rest.length < n := by
              rw [← hn, hw]
              simp [Brackets.enclose]
              omega
            rw [hw]
            exact part inner rest hinner (ih rest.length hlen rest rfl)
          · exact letter c w hpart (ih w.length (by simp [← hn]) w rfl)

theorem fits_of_part_mem {inner w : Word} (h : .part inner ∈ pieces b w) : b.Fits inner := by
  induction w using pieces_induction (b := b) with
  | nil => simp at h
  | part first rest hfirst ih =>
      rw [pieces_enclose hfirst] at h
      rcases List.mem_cons.mp h with heq | h
      · cases heq
        exact hfirst
      · exact ih h
  | letter c w hplain ih =>
      rw [pieces_cons hplain] at h
      rcases List.mem_cons.mp h with heq | h
      · cases heq
      · exact ih h

/-!
## Cutting a word in two

A word may be cut in front of a character that no enclosed part contains.
-/

theorem eq_enclose_append_of_cut {inner rest u v : Word} {d : Char} (hu : u ≠ [])
    (hd : d ∉ inner) (hc : d ≠ b.closing) (h : u ++ d :: v = b.enclose inner ++ rest) :
    ∃ w, u = b.enclose inner ++ w ∧ rest = w ++ d :: v := by
  rcases List.append_eq_append_iff.mp h with ⟨tail, hinner, htail⟩ | hw
  · cases tail with
    | nil => exact ⟨[], by simpa using hinner.symm, by simpa using htail.symm⟩
    | cons e tail =>
        rcases List.cons.inj htail with ⟨rfl, _⟩
        rcases List.exists_cons_of_ne_nil hu with ⟨c, u, rfl⟩
        rcases List.cons.inj hinner with ⟨_, htail⟩
        have hmem : d ∈ inner ++ [b.closing] := by
          rw [show inner ++ [b.closing] = u ++ d :: tail from htail]
          simp
        rcases List.mem_append.mp hmem with hmem | hmem
        · exact absurd hmem hd
        · exact absurd (List.mem_singleton.mp hmem) hc
  · exact hw

theorem pieces_append_cons {u v : Word} {d : Char} (hc : d ≠ b.closing)
    (hd : ∀ inner, .part inner ∈ pieces b (u ++ d :: v) → d ∉ inner) :
    pieces b (u ++ d :: v) = pieces b u ++ pieces b (d :: v) := by
  induction u using pieces_induction (b := b) with
  | nil => rfl
  | part inner rest hinner ih =>
      rw [List.append_assoc, pieces_enclose hinner] at hd ⊢
      rw [pieces_enclose hinner, ih, List.cons_append]
      intro other hother
      exact hd other (List.mem_cons_of_mem _ hother)
  | letter c u hplain ih =>
      have hplain' : ¬ ∃ inner rest, b.Fits inner ∧
          c :: (u ++ d :: v) = b.enclose inner ++ rest := by
        intro hpart
        rcases hpart with ⟨inner, rest, hinner, hw⟩
        have hmem : .part inner ∈ pieces b (c :: u ++ d :: v) := by
          rw [List.cons_append, hw, pieces_enclose hinner]
          exact List.mem_cons_self
        have hcut := eq_enclose_append_of_cut (u := c :: u) (by simp) (hd inner hmem) hc hw
        rcases hcut with ⟨w, hu, _⟩
        exact hplain ⟨inner, w, hinner, hu⟩
      rw [List.cons_append, pieces_cons hplain'] at hd
      rw [List.cons_append, pieces_cons hplain', pieces_cons hplain, ih, List.cons_append]
      intro other hother
      exact hd other (List.mem_cons_of_mem _ hother)

theorem pieces_append_opening (u v : Word) :
    pieces b (u ++ b.opening :: v) = pieces b u ++ pieces b (b.opening :: v) := by
  refine pieces_append_cons b.distinct ?_
  intro inner hinner hmem
  exact (fits_of_part_mem hinner b.opening hmem).1 rfl

theorem pieces_append_enclose {inner : Word} (hinner : b.Fits inner) (u v : Word) :
    pieces b (u ++ (b.enclose inner ++ v)) = pieces b u ++ .part inner :: pieces b v := by
  have h := pieces_append_opening (b := b) u (inner ++ [b.closing] ++ v)
  rw [← pieces_enclose hinner]
  exact h

theorem pieces_of_closing_not_mem {w : Word} (h : b.closing ∉ w) :
    pieces b w = w.map .letter := by
  induction w using pieces_induction (b := b) with
  | nil => rfl
  | part inner rest hinner ih => simp [Brackets.enclose] at h
  | letter c w hplain ih =>
      rw [List.mem_cons, not_or] at h
      rw [pieces_cons hplain, ih h.2, List.map_cons]

theorem closing_not_mem_of_fits {inner : Word} (h : b.Fits inner) :
    b.closing ∉ b.opening :: inner := by
  intro hmem
  rcases List.mem_cons.mp hmem with heq | hmem
  · exact b.distinct heq.symm
  · exact (h _ hmem).2.1 rfl

theorem pieces_append_of_opening_not_mem {inner : Word} (h : b.opening ∉ inner) (rest : Word) :
    pieces b (inner ++ rest) = inner.map .letter ++ pieces b rest := by
  induction inner with
  | nil => rfl
  | cons c inner ih =>
      rw [List.mem_cons, not_or] at h
      rw [List.cons_append, pieces_of_ne_opening (Ne.symm h.1), ih h.2]
      rfl

/-- Whether an enclosed part begins in the first word and ends in the second one. -/
structure Straddles (b : Brackets) (u w before first second behind : Word) : Prop where
  left : u = before ++ b.opening :: first
  right : w = second ++ b.closing :: behind
  fits : b.Fits (first ++ second)

namespace Straddles

variable {u w before first second behind : Word}

theorem cons (h : Straddles b u w before first second behind) (x : Word) :
    Straddles b (x ++ u) w (x ++ before) first second behind :=
  ⟨by rw [h.left, List.append_assoc], h.right, h.fits⟩

theorem pieces_left (h : Straddles b u w before first second behind) :
    pieces b u = pieces b before ++ (b.opening :: first).map .letter := by
  have hfirst : b.Fits first := (Brackets.fits_append_iff.mp h.fits).1
  rw [h.left, pieces_append_opening, pieces_of_closing_not_mem (closing_not_mem_of_fits hfirst)]

theorem pieces_right (h : Straddles b u w before first second behind) :
    pieces b w = (second ++ [b.closing]).map .letter ++ pieces b behind := by
  have hsecond : b.opening ∉ second := fun hc => (h.fits _ (List.mem_append_right _ hc)).1 rfl
  rw [h.right, pieces_append_of_opening_not_mem hsecond, pieces_of_ne_opening (Ne.symm b.distinct)]
  simp

theorem append_eq (h : Straddles b u w before first second behind) :
    u ++ w = before ++ (b.enclose (first ++ second) ++ behind) := by
  rw [h.left, h.right]
  simp [Brackets.enclose]

theorem pieces_append (h : Straddles b u w before first second behind) :
    pieces b (u ++ w) = pieces b before ++ .part (first ++ second) :: pieces b behind := by
  rw [h.append_eq, pieces_append_enclose h.fits]

end Straddles

/-- Two words are read one after the other, unless an enclosed part lies across the cut. -/
theorem pieces_append_cases (b : Brackets) (u w : Word) :
    pieces b (u ++ w) = pieces b u ++ pieces b w ∨
      ∃ before first second behind, Straddles b u w before first second behind := by
  induction u using pieces_induction (b := b) with
  | nil => exact Or.inl rfl
  | part inner rest hinner ih =>
      rcases ih with hcut | ⟨before, first, second, behind, hacross⟩
      · refine Or.inl ?_
        rw [List.append_assoc, pieces_enclose hinner, pieces_enclose hinner, hcut, List.cons_append]
      · exact Or.inr ⟨_, _, _, _, hacross.cons (b.enclose inner)⟩
  | letter c u hplain ih =>
      by_cases hpart : ∃ inner rest, b.Fits inner ∧ c :: u ++ w = b.enclose inner ++ rest
      · rcases hpart with ⟨inner, rest, hinner, hword⟩
        rcases List.append_eq_append_iff.mp hword with ⟨gap, henclose, hw⟩ | ⟨gap, hu, _⟩
        · rcases List.eq_nil_or_concat gap with rfl | ⟨second, d, rfl⟩
          · exact absurd ⟨inner, [], hinner, by simpa using henclose.symm⟩ hplain
          · -- The closing bracket is the last character behind the cut.
            have hsplit : c :: (u ++ second) ++ [d] = b.opening :: inner ++ [b.closing] := by
              simpa [Brackets.enclose] using henclose.symm
            rcases List.append_inj' hsplit rfl with ⟨hopen, hclose⟩
            rcases List.cons.inj hopen with ⟨rfl, rfl⟩
            cases hclose
            exact Or.inr ⟨[], u, second, rest, rfl, by simpa using hw, hinner⟩
        · exact absurd ⟨inner, gap, hinner, hu⟩ hplain
      · rw [List.cons_append] at hpart
        rcases ih with hcut | ⟨before, first, second, behind, hacross⟩
        · refine Or.inl ?_
          rw [List.cons_append, pieces_cons hpart, pieces_cons hplain, hcut, List.cons_append]
        · exact Or.inr ⟨_, _, _, _, hacross.cons [c]⟩

theorem part_mem_pieces_iff {inner w : Word} :
    .part inner ∈ pieces b w ↔ b.Fits inner ∧ ∃ u v, w = u ++ (b.enclose inner ++ v) := by
  constructor
  · intro hmem
    refine ⟨fits_of_part_mem hmem, ?_⟩
    rcases List.append_of_mem hmem with ⟨before, behind, hpieces⟩
    refine ⟨Piece.spell b before, Piece.spell b behind, ?_⟩
    rw [← spell_pieces b w, hpieces]
    simp
  · intro hoccurs
    rcases hoccurs with ⟨hinner, u, v, rfl⟩
    rw [pieces_append_enclose hinner]
    simp

theorem pieces_of_no_part {w : Word} (h : ∀ inner, .part inner ∉ pieces b w) :
    pieces b w = w.map .letter := by
  induction w using pieces_induction (b := b) with
  | nil => rfl
  | part inner rest hinner ih =>
      rw [pieces_enclose hinner] at h
      exact absurd List.mem_cons_self (h inner)
  | letter c w hplain ih =>
      rw [pieces_cons hplain] at h ⊢
      rw [ih fun inner hinner => h inner (List.mem_cons_of_mem _ hinner), List.map_cons]

/-!
## Plain segments

The scan gives a plain segment up only when no enclosed part can be read in it.  What
it has collected since the last segment therefore consists of single characters, and
before an opening bracket is met this holds whatever follows.
-/

/-- Whether a word reads as single characters in front of any other word. -/
def Sealed (b : Brackets) (text : Word) : Prop :=
  ∀ rest, pieces b (text ++ rest) = text.map .letter ++ pieces b rest

theorem Sealed.pieces_eq {text : Word} (h : Sealed b text) :
    pieces b text = text.map .letter := by
  have hnil := h []
  rwa [List.append_nil, pieces_nil, List.append_nil] at hnil

theorem sealed_nil (b : Brackets) : Sealed b [] :=
  fun _ => rfl

theorem Sealed.append {text : Word} (h : Sealed b text) {c : Char} (hc : c ≠ b.opening) :
    Sealed b (text ++ [c]) := by
  intro rest
  rw [List.append_assoc, h, List.singleton_append, pieces_of_ne_opening hc]
  simp

theorem pieces_append_unclosed {text inner : Word} (htext : pieces b text = text.map .letter)
    (hinner : b.Fits inner) :
    pieces b (text ++ b.opening :: inner) = (text ++ b.opening :: inner).map .letter := by
  rw [pieces_append_opening, htext, pieces_of_closing_not_mem (closing_not_mem_of_fits hinner),
    List.map_append]

theorem sealed_of_barred {text inner : Word} {c : Char}
    (htext : pieces b text = text.map .letter) (hinner : b.Fits inner) (hopen : c ≠ b.opening)
    (hclose : c ≠ b.closing) (hbarred : b.admits c ≠ true) :
    Sealed b (text ++ b.opening :: inner ++ [c]) := by
  intro rest
  have hnot : ¬ ∃ inner' rest', b.Fits inner' ∧
      b.opening :: (inner ++ c :: rest) = b.enclose inner' ++ rest' := by
    intro hpart
    rcases hpart with ⟨inner', rest', hinner', hword⟩
    have htail : inner ++ c :: rest = inner' ++ b.closing :: rest' := by
      simpa [Brackets.enclose] using hword
    rcases List.append_eq_append_iff.mp htail with ⟨gap, rfl, hgap⟩ | ⟨gap, rfl, hgap⟩
    · cases gap with
      | nil => exact hclose (List.cons.inj hgap).1
      | cons d gap =>
          rcases List.cons.inj hgap with ⟨rfl, _⟩
          exact hbarred (hinner' c (by simp)).2.2
    · cases gap with
      | nil => exact hclose (List.cons.inj hgap).1.symm
      | cons d gap =>
          rcases List.cons.inj hgap with ⟨rfl, _⟩
          exact (hinner b.closing (by simp)).2.1 rfl
  have hinside : b.opening ∉ inner := fun hmem => (hinner _ hmem).1 rfl
  have hword : text ++ b.opening :: inner ++ [c] ++ rest =
      text ++ b.opening :: (inner ++ c :: rest) := by simp
  rw [hword, pieces_append_opening, htext, pieces_cons hnot,
    pieces_append_of_opening_not_mem hinside, pieces_of_ne_opening hopen]
  simp

theorem pieces_of_plain_mem_ofText {text plain : Word} (htext : pieces b text = text.map .letter)
    (h : .plain plain ∈ Segment.ofText text) : pieces b plain = plain.map .letter := by
  unfold Segment.ofText at h
  split at h
  · cases h
  · cases List.mem_singleton.mp h
    exact htext

def Collected (b : Brackets) (text : Word) : Option Word → Prop
  | none => Sealed b text.reverse
  | some inner => pieces b text.reverse = text.reverse.map .letter ∧ b.Fits inner.reverse

theorem pieces_of_plain_mem_scan {text : Word} {inner : Option Word} {rest plain : Word}
    (htext : Collected b text inner) (h : .plain plain ∈ Segment.scan b text inner rest) :
    pieces b plain = plain.map .letter := by
  fun_induction Segment.scan b text inner rest with
  | case1 text => exact pieces_of_plain_mem_ofText (Sealed.pieces_eq htext) h
  | case2 text inner =>
      apply pieces_of_plain_mem_ofText _ h
      have hunclosed := pieces_append_unclosed htext.1 htext.2
      simpa using hunclosed
  | case3 text rest ih => exact ih ⟨Sealed.pieces_eq htext, fun c hc => by cases hc⟩ h
  | case4 text c rest hc ih =>
      have hsealed := Sealed.append htext hc
      exact ih (by rwa [Collected, List.reverse_cons]) h
  | case5 text inner rest ih =>
      rcases List.mem_append.mp h with h | h
      · exact pieces_of_plain_mem_ofText htext.1 h
      · rcases List.mem_cons.mp h with heq | h
        · cases heq
        · exact ih (sealed_nil b) h
  | case6 text inner rest hc ih =>
      have hunclosed := pieces_append_unclosed htext.1 htext.2
      exact ih ⟨by simpa using hunclosed, fun c hc => by cases hc⟩ h
  | case7 text inner c rest hc ho ha ih =>
      have hinner : b.Fits (c :: inner).reverse := by
        intro d hd
        rw [List.reverse_cons] at hd
        rcases List.mem_append.mp hd with hd | hd
        · exact htext.2 d hd
        · cases List.mem_singleton.mp hd
          exact ⟨ho, hc, ha⟩
      exact ih ⟨htext.1, hinner⟩ h
  | case8 text inner c rest hc ho ha ih =>
      have hsealed := sealed_of_barred htext.1 htext.2 ho hc ha
      exact ih (by simpa [Collected] using hsealed) h

theorem pieces_of_plain_mem {w plain : Word} (h : .plain plain ∈ Segment.split b w) :
    pieces b plain = plain.map .letter := by
  have hstart : Collected b [] none := sealed_nil b
  exact pieces_of_plain_mem_scan hstart h

end GrammarFuzz
