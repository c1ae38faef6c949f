import GrammarFuzz.Proofs.Generation.Places
import Mathlib.Data.List.Chain

/-!
# The symbols of a text

A text is cut into symbols without loss, and its non-terminals stand at all positions at which
a pair of angle brackets without further brackets and blanks between them begins.  A search
from left to right that goes on behind each non-terminal it finds therefore misses none: two of
them never overlap, as a second one would have to begin with a bracket inside the first.
-/

namespace GrammarFuzz

def Symbol.isTerminal : Symbol → Bool
  | terminal _ => true
  | nonterminal _ => false

/-- Whether a non-terminal begins at a position of a text. -/
def ReferenceAt (text : Word) (position : Nat) (name : Word) : Prop :=
  ∃ before inner behind, text = before ++ (name ++ behind) ∧ before.length = position ∧
    name = '<' :: inner ++ ['>'] ∧ ∀ c ∈ inner, c ≠ '<' ∧ c ≠ '>' ∧ c ≠ ' '

/-!
## The search from left to right
-/

def isNameChar (c : Char) : Bool :=
  c != '<' && c != '>' && c != ' '

def leadingReference? : Word → Option (Word × Word)
  | '<' :: rest =>
      match rest.dropWhile isNameChar with
      | '>' :: behind => some ('<' :: rest.takeWhile isNameChar ++ ['>'], behind)
      | _ => none
  | _ => none

theorem isNameChar_iff {c : Char} : isNameChar c = true ↔ c ≠ '<' ∧ c ≠ '>' ∧ c ≠ ' ' := by
  simp [isNameChar, and_assoc]

theorem fits_angle_iff {inner : Word} :
    Brackets.angle.Fits inner ↔ ∀ c ∈ inner, c ≠ '<' ∧ c ≠ '>' ∧ c ≠ ' ' := by
  simp [Brackets.Fits, Brackets.angle]

theorem leadingReference?_enclose {inner : Word} (h : Brackets.angle.Fits inner) (behind : Word) :
    leadingReference? (Brackets.angle.enclose inner ++ behind) =
      some (Brackets.angle.enclose inner, behind) := by
  have hinner : ∀ c ∈ inner, isNameChar c = true :=
    fun c hc => isNameChar_iff.mpr (fits_angle_iff.mp h c hc)
  have hword : Brackets.angle.enclose inner ++ behind = '<' :: (inner ++ '>' :: behind) := by
    simp [Brackets.enclose, Brackets.angle]
  have hstop : isNameChar '>' = false := rfl
  have htake : (inner ++ '>' :: behind).takeWhile isNameChar = inner := by
    rw [List.takeWhile_append_of_pos hinner, List.takeWhile_cons_of_neg (by simp [hstop]),
      List.append_nil]
  have hdrop : (inner ++ '>' :: behind).dropWhile isNameChar = '>' :: behind := by
    rw [List.dropWhile_append_of_pos hinner, List.dropWhile_cons_of_neg (by simp [hstop])]
  rw [hword, leadingReference?, hdrop, htake]
  rfl

theorem exists_of_leadingReference? {w name behind : Word}
    (h : leadingReference? w = some (name, behind)) :
    ∃ inner, Brackets.angle.Fits inner ∧ name = Brackets.angle.enclose inner ∧
      w = name ++ behind := by
  unfold leadingReference? at h
  split at h
  · rename_i rest
    split at h
    · rename_i behind' hdrop
      cases h
      refine ⟨rest.takeWhile isNameChar, ?_, rfl, ?_⟩
      · have hall := List.all_eq_true.mp (List.all_takeWhile (l := rest) (p := isNameChar))
        exact fits_angle_iff.mpr fun c hc => isNameChar_iff.mp (hall c hc)
      · have hrest := List.takeWhile_append_dropWhile (p := isNameChar) (l := rest)
        rw [hdrop] at hrest
        simp [hrest]
    · cases h
  · cases h

theorem length_lt_of_leadingReference? {w name behind : Word}
    (h : leadingReference? w = some (name, behind)) : behind.length < w.length := by
  rcases exists_of_leadingReference? h with ⟨inner, _, rfl, rfl⟩
  rw [List.length_append]
  exact Nat.lt_add_of_pos_left (List.length_pos_of_ne_nil (List.cons_ne_nil _ _))

/-- The non-terminals found from a position on, the search going on behind each of them. -/
def searchFrom (position : Nat) (w : Word) : List (Nat × Word) :=
  match w with
  | [] => []
  | c :: rest =>
      match h : leadingReference? (c :: rest) with
      | some (name, behind) => (position, name) :: searchFrom (position + name.length) behind
      | none => searchFrom (position + 1) rest
termination_by w.length
decreasing_by
  · exact length_lt_of_leadingReference? h
  · exact Nat.lt_succ_self rest.length

theorem searchFrom_of_some {w name behind : Word}
    (h : leadingReference? w = some (name, behind)) (position : Nat) :
    searchFrom position w = (position, name) :: searchFrom (position + name.length) behind := by
  cases w with
  | nil => cases h
  | cons c rest =>
      rw [searchFrom]
      split
      · rename_i name' behind' h'
        rw [h] at h'
        cases h'
        rfl
      · rename_i h'
        rw [h] at h'
        cases h'

theorem searchFrom_of_none {c : Char} {rest : Word} (h : leadingReference? (c :: rest) = none)
    (position : Nat) : searchFrom position (c :: rest) = searchFrom (position + 1) rest := by
  rw [searchFrom]
  split
  · rename_i h'
    rw [h] at h'
    cases h'
  · rfl

/-!
## Positions of pieces
-/

def Piece.placed : Nat → List Piece → List (Nat × Word)
  | _, [] => []
  | position, letter _ :: rest => placed (position + 1) rest
  | position, part inner :: rest =>
      let name := Brackets.angle.enclose inner
      (position, name) :: placed (position + name.length) rest

theorem Piece.placed_append (position : Nat) (ps qs : List Piece) :
    placed position (ps ++ qs) =
      placed position ps ++ placed (position + (spell .angle ps).length) qs := by
  induction ps generalizing position with
  | nil => rfl
  | cons p ps ih =>
      cases p with
      | letter c =>
          rw [List.cons_append, placed, placed, ih, spell_letter, List.length_cons,
            Nat.add_assoc, Nat.add_comm 1]
      | part inner =>
          simp only [List.cons_append, placed, ih, spell_part, List.length_append, Nat.add_assoc]

theorem Piece.placed_letters_append (position : Nat) (text : Word) (ps : List Piece) :
    placed position (text.map .letter ++ ps) = placed (position + text.length) ps := by
  induction text generalizing position with
  | nil => rfl
  | cons c text ih =>
      rw [List.map_cons, List.cons_append, placed, ih, List.length_cons, Nat.add_assoc,
        Nat.add_comm 1]

theorem Piece.exists_of_mem_placed {position i : Nat} {name : Word} {ps : List Piece}
    (h : (i, name) ∈ placed position ps) :
    ∃ before inner behind, ps = before ++ .part inner :: behind ∧
      position + (spell .angle before).length = i ∧ name = Brackets.angle.enclose inner := by
  induction ps generalizing position with
  | nil => cases h
  | cons p ps ih =>
      cases p with
      | letter c =>
          rcases ih h with ⟨before, inner, behind, rfl, hposition, hname⟩
          refine ⟨.letter c :: before, inner, behind, rfl, ?_, hname⟩
          rw [← hposition, spell_letter, List.length_cons, Nat.add_assoc, Nat.add_comm 1]
      | part first =>
          rcases List.mem_cons.mp h with heq | h
          · cases heq
            exact ⟨[], first, ps, rfl, rfl, rfl⟩
          · rcases ih h with ⟨before, inner, behind, rfl, hposition, hname⟩
            refine ⟨.part first :: before, inner, behind, rfl, ?_, hname⟩
            rw [← hposition, spell_part, List.length_append, Nat.add_assoc]

theorem Piece.le_of_mem_placed {position : Nat} {ps : List Piece} {x : Nat × Word}
    (h : x ∈ placed position ps) : position ≤ x.1 := by
  rcases exists_of_mem_placed h with ⟨before, inner, behind, _, hposition, _⟩
  rw [← hposition]
  exact Nat.le_add_right _ _

theorem Piece.pairwise_placed (position : Nat) (ps : List Piece) :
    (placed position ps).Pairwise fun x y => x.1 + x.2.length ≤ y.1 := by
  induction ps generalizing position with
  | nil => exact .nil
  | cons p ps ih =>
      cases p with
      | letter c => exact ih (position + 1)
      | part inner =>
          rw [placed, List.pairwise_cons]
          exact ⟨fun x hx => le_of_mem_placed hx, ih _⟩

theorem mem_placed_pieces_iff {w name : Word} {i : Nat} :
    (i, name) ∈ Piece.placed 0 (pieces .angle w) ↔ ReferenceAt w i name := by
  constructor
  · intro h
    rcases Piece.exists_of_mem_placed h with ⟨before, inner, behind, hpieces, hposition, rfl⟩
    have hinner : .part inner ∈ pieces .angle w := by
      rw [hpieces]
      exact List.mem_append_right _ List.mem_cons_self
    refine ⟨Piece.spell .angle before, inner, Piece.spell .angle behind, ?_, ?_, rfl,
      fits_angle_iff.mp (fits_of_part_mem hinner)⟩
    · rw [← spell_pieces .angle w, hpieces, Piece.spell_append, Piece.spell_part]
    · rw [← hposition, Nat.zero_add]
  · intro h
    rcases h with ⟨before, inner, behind, rfl, rfl, rfl, hinner⟩
    have hpieces := pieces_append_enclose (fits_angle_iff.mpr hinner) before behind
    rw [show '<' :: inner ++ ['>'] = Brackets.angle.enclose inner from rfl, hpieces,
      Piece.placed_append, spell_pieces, Nat.zero_add]
    exact List.mem_append_right _ List.mem_cons_self

theorem searchFrom_eq (position : Nat) (w : Word) :
    searchFrom position w = Piece.placed position (pieces .angle w) := by
  induction w using pieces_induction (b := .angle) generalizing position with
  | nil => rw [searchFrom, pieces_nil, Piece.placed]
  | part inner rest hinner ih =>
      rw [searchFrom_of_some (leadingReference?_enclose hinner rest), pieces_enclose hinner, ih,
        Piece.placed]
  | letter c w hplain ih =>
      have hnone : leadingReference? (c :: w) = none := by
        apply Option.eq_none_iff_forall_ne_some.mpr
        intro found hfound
        rcases exists_of_leadingReference? hfound with ⟨inner, hinner, hname, hword⟩
        exact hplain ⟨inner, found.2, hinner, hname ▸ hword⟩
      rw [searchFrom_of_none hnone, pieces_cons hplain, ih, Piece.placed]

/-!
## Positions of symbols
-/

def located : Nat → List Symbol → List (Nat × Word)
  | _, [] => []
  | position, .terminal text :: rest => located (position + text.length) rest
  | position, .nonterminal name :: rest => (position, name) :: located (position + name.length) rest

theorem located_map_symbol (position : Nat) (segments : List Segment) :
    located position (segments.map Segment.symbol) =
      Piece.placed position (segments.flatMap Segment.pieces) := by
  induction segments generalizing position with
  | nil => rfl
  | cons s segments ih =>
      cases s with
      | plain text =>
          rw [List.flatMap_cons, Segment.pieces, Piece.placed_letters_append, ← ih]
          rfl
      | enclosed inner =>
          rw [List.flatMap_cons, Segment.pieces, List.singleton_append, Piece.placed, ← ih]
          rfl

theorem located_symbols (w : Word) :
    located 0 (symbols w) = Piece.placed 0 (pieces .angle w) := by
  rw [symbols_eq_map, located_map_symbol]
  rfl

theorem map_snd_located_map_symbol (position : Nat) (segments : List Segment) :
    (located position (segments.map Segment.symbol)).map Prod.snd =
      segments.filterMap fun s => s.enclosed?.map Brackets.angle.enclose := by
  induction segments generalizing position with
  | nil => rfl
  | cons s segments ih =>
      cases s with
      | plain text => exact ih (position + text.length)
      | enclosed inner =>
          exact congrArg (Brackets.angle.enclose inner :: ·) (ih _)

theorem map_snd_located_symbols (w : Word) :
    (located 0 (symbols w)).map Prod.snd = references w := by
  rw [symbols_eq_map, map_snd_located_map_symbol]
  rfl

/-!
## Terminals
-/

def Symbol.Separated (s s' : Symbol) : Prop :=
  ¬ (s.isTerminal = true ∧ s'.isTerminal = true)

def Segment.Alternating (segments : List Segment) : Prop :=
  segments.IsChain fun s s' => s.symbol.Separated s'.symbol

theorem Segment.alternating_ofText (text : Word) : Alternating (ofText text) := by
  unfold ofText
  split
  · exact .nil
  · exact .singleton _

theorem Segment.Alternating.ofText_append {segments : List Segment} (h : Alternating segments)
    (text inner : Word) : Alternating (ofText text ++ enclosed inner :: segments) := by
  have hsegments : Alternating (enclosed inner :: segments) :=
    List.isChain_cons.mpr ⟨fun s _ hboth => Bool.false_ne_true hboth.1, h⟩
  unfold ofText
  split
  · exact hsegments
  · exact List.isChain_cons_cons.mpr ⟨fun hboth => Bool.false_ne_true hboth.2, hsegments⟩

theorem Segment.alternating_scan (text : Word) (inner : Option Word) (rest : Word) :
    Alternating (scan .angle text inner rest) := by
  fun_induction scan .angle text inner rest with
  | case1 text => exact alternating_ofText _
  | case2 text inner => exact alternating_ofText _
  | case3 text rest ih => exact ih
  | case4 text c rest hc ih => exact ih
  | case5 text inner rest ih => exact ih.ofText_append _ _
  | case6 text inner rest hc ih => exact ih
  | case7 text inner c rest hc ho ha ih => exact ih
  | case8 text inner c rest hc ho ha ih => exact ih

theorem isChain_symbols (w : Word) : (symbols w).IsChain Symbol.Separated := by
  rw [symbols_eq_map, List.isChain_map]
  exact Segment.alternating_scan [] none w

/-!
## Cutting along the search
-/

def cutAlong (w : Word) : Nat → List (Nat × Word) → List Symbol
  | cursor, [] => if cursor < w.length then [.terminal (w.drop cursor)] else []
  | cursor, (start, name) :: rest =>
      let tail := .nonterminal name :: cutAlong w (start + name.length) rest
      if cursor < start then .terminal ((w.take start).drop cursor) :: tail else tail

theorem cutAlong_nonterminal (w : Word) (cursor : Nat) (name : Word) (rest : List (Nat × Word)) :
    cutAlong w cursor ((cursor, name) :: rest) =
      .nonterminal name :: cutAlong w (cursor + name.length) rest := by
  rw [cutAlong, if_neg (Nat.lt_irrefl cursor)]

theorem cutAlong_terminal {w : Word} {cursor start : Nat} (h : cursor < start) (name : Word)
    (rest : List (Nat × Word)) :
    cutAlong w cursor ((start, name) :: rest) =
      .terminal ((w.take start).drop cursor) :: cutAlong w start ((start, name) :: rest) := by
  rw [cutAlong_nonterminal, cutAlong, if_pos h]

theorem cutAlong_located {items : List Symbol} (hitems : items.IsChain Symbol.Separated)
    (hne : .terminal [] ∉ items) (before : Word) :
    cutAlong (before ++ items.flatMap Symbol.word) before.length (located before.length items) =
      items := by
  induction items generalizing before with
  | nil => simp [cutAlong, located]
  | cons item items ih =>
      have hrest := ih hitems.tail (fun hmem => hne (List.mem_cons_of_mem _ hmem))
        (before ++ item.word)
      rw [List.append_assoc, List.length_append] at hrest
      cases item with
      | nonterminal name =>
          rw [located, cutAlong_nonterminal]
          exact congrArg (Symbol.nonterminal name :: ·) hrest
      | terminal text =>
          have htext : 0 < text.length := by
            apply List.length_pos_of_ne_nil
            intro hnil
            exact hne (hnil ▸ List.mem_cons_self)
          cases items with
          | nil =>
              show cutAlong (before ++ (text ++ [])) before.length [] = [.terminal text]
              rw [List.append_nil, cutAlong, List.drop_left, List.length_append,
                if_pos (Nat.lt_add_of_pos_right htext)]
          | cons item items =>
              -- The position of the next non-terminal tells where the terminal ends.
              cases item with
              | terminal other => exact absurd ⟨rfl, rfl⟩ (List.isChain_cons_cons.mp hitems).1
              | nonterminal name =>
                  rw [located, located, cutAlong_terminal (Nat.lt_add_of_pos_right htext)]
                  refine List.cons_eq_cons.mpr ⟨congrArg Symbol.terminal ?_, hrest⟩
                  show ((before ++ (text ++ _)).take (before.length + text.length)).drop
                    before.length = text
                  rw [← List.append_assoc, ← List.length_append, List.take_left, List.drop_left]

/-!
## The nodes of a text
-/

theorem pieces_of_terminal_mem_childrenOf {w text : Word}
    (h : Tree.terminal text ∈ childrenOf w) : pieces .angle text = text.map .letter := by
  rcases Grammar.exists_symbols_childrenOf w with ⟨ss, _, hnodes, _, hterminals⟩
  rw [hnodes, List.mem_map] at h
  rcases h with ⟨s, hs, hnode⟩
  cases s with
  | terminal other =>
      cases hnode
      rcases hterminals text hs with rfl | hterminal
      · rfl
      · exact pieces_of_plain_mem (terminal_mem_symbols_iff.mp hterminal)
  | nonterminal name => cases hnode

/-!
## The symbols of a text
-/

theorem not_referenceAt_of_pieces {text : Word} (h : pieces .angle text = text.map .letter)
    (position : Nat) (name : Word) : ¬ ReferenceAt text position name := by
  have hletters := Piece.placed_letters_append 0 text []
  rw [List.append_nil] at hletters
  rw [← mem_placed_pieces_iff, h, hletters]
  exact List.not_mem_nil

theorem terminal_nil_not_mem_symbols (w : Word) : .terminal [] ∉ symbols w := by
  rw [terminal_mem_symbols_iff]
  exact Segment.plain_nil_not_mem_split .angle w

theorem located_symbols_eq_searchFrom (w : Word) : located 0 (symbols w) = searchFrom 0 w := by
  rw [located_symbols, searchFrom_eq]

theorem symbols_eq_cutAlong (w : Word) : symbols w = cutAlong w 0 (searchFrom 0 w) := by
  have hcut := cutAlong_located (isChain_symbols w) (terminal_nil_not_mem_symbols w) []
  rw [List.nil_append, flatMap_word_symbols] at hcut
  rw [← located_symbols_eq_searchFrom]
  exact hcut.symm

/--
The symbols of a text make it up, and they are what a search from left to right cuts it into.
Their non-terminals are the references of the text, which begin at all positions where one can
begin; the terminals between them are not empty, have no reference in them and are never
adjacent.  So the nodes for a text show it, and no terminal node is left out of an output.
-/
theorem symbols_exact (w : Word) :
    let items := symbols w
    items.flatMap Symbol.word = w ∧
      items = cutAlong w 0 (searchFrom 0 w) ∧
      located 0 items = searchFrom 0 w ∧
      (located 0 items).map Prod.snd = references w ∧
      (∀ position name, (position, name) ∈ located 0 items ↔ ReferenceAt w position name) ∧
      ((located 0 items).Pairwise fun x y => x.1 + x.2.length ≤ y.1) ∧
      (∀ text, .terminal text ∈ items →
        text ≠ [] ∧ ∀ position name, ¬ ReferenceAt text position name) ∧
      items.IsChain Symbol.Separated ∧
      (childrenOf w).flatMap Tree.frontier = w ∧
      (∀ text, Tree.terminal text ∈ childrenOf w → startsWithReference text = false) ∧
      childrenOf w ≠ [] := by
  intro items
  have hterminals : ∀ text, .terminal text ∈ items →
      text ≠ [] ∧ ∀ position name, ¬ ReferenceAt text position name := by
    intro text htext
    constructor
    · intro hnil
      exact terminal_nil_not_mem_symbols w (hnil ▸ htext)
    · exact not_referenceAt_of_pieces (pieces_of_plain_mem (terminal_mem_symbols_iff.mp htext))
  have hpositions : ∀ position name,
      (position, name) ∈ located 0 items ↔ ReferenceAt w position name := by
    intro position name
    rw [located_symbols]
    exact mem_placed_pieces_iff
  have hordered : (located 0 items).Pairwise fun x y => x.1 + x.2.length ≤ y.1 := by
    rw [located_symbols]
    exact Piece.pairwise_placed 0 _
  have hshown : (childrenOf w).flatMap Tree.frontier = w := by
    rw [← Tree.frontierAll_eq_flatMap, Tree.frontierAll_childrenOf]
  exact ⟨flatMap_word_symbols w, symbols_eq_cutAlong w, located_symbols_eq_searchFrom w,
    map_snd_located_symbols w, hpositions, hordered, hterminals, isChain_symbols w, hshown,
    fun text htext => startsWithReference_of_pieces (pieces_of_terminal_mem_childrenOf htext),
    Tree.childrenOf_ne_nil w⟩

example : symbols ['<', '<', 'a', '>', '>'] =
    [.terminal ['<'], .nonterminal ['<', 'a', '>'], .terminal ['>']] := by
  decide

end GrammarFuzz
