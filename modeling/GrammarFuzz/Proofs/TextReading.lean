import GrammarFuzz.Proofs.ExtendedReading
import GrammarFuzz.Proofs.Normalization.Operands

/-!
# Readings and pieces

Both readings depend on the pieces of a text only.  The plain reading takes them one
by one.  The extended reading does so, too, on texts without groups, except that it
takes a reference together with an operator behind it.
-/

namespace GrammarFuzz

def Refers (text name : Word) : Prop :=
  .part name ∈ pieces .angle text

theorem enclosed_mem_iff {segments : List Segment} {inner : Word} :
    .part inner ∈ segments.flatMap Segment.pieces ↔ .enclosed inner ∈ segments := by
  rw [List.mem_flatMap]
  constructor
  · intro hsegment
    rcases hsegment with ⟨s, hs, hinner⟩
    cases s with
    | plain text => simp [Segment.pieces] at hinner
    | enclosed other =>
        cases List.mem_singleton.mp hinner
        exact hs
  · exact fun hs => ⟨_, hs, List.mem_singleton.mpr rfl⟩

theorem mem_references_iff {text symbol : Word} :
    symbol ∈ references text ↔ ∃ name, Refers text name ∧ symbol = Brackets.angle.enclose name := by
  rw [references, Segment.parts, List.mem_filterMap]
  constructor
  · intro hsegment
    rcases hsegment with ⟨s, hs, hsymbol⟩
    cases s with
    | plain text => cases hsymbol
    | enclosed name =>
        cases hsymbol
        exact ⟨name, enclosed_mem_iff.mpr hs, rfl⟩
  · intro hname
    rcases hname with ⟨name, hname, rfl⟩
    exact ⟨.enclosed name, enclosed_mem_iff.mp hname, rfl⟩

theorem Refers.mem_references {text name : Word} (h : Refers text name) :
    Brackets.angle.enclose name ∈ references text :=
  mem_references_iff.mpr ⟨name, h, rfl⟩

theorem references_eq_nil_iff {text : Word} :
    references text = [] ↔ ∀ name, ¬ Refers text name := by
  rw [List.eq_nil_iff_forall_not_mem]
  constructor
  · exact fun h name hname => h _ hname.mem_references
  · intro h symbol hsymbol
    rcases mem_references_iff.mp hsymbol with ⟨name, hname, _⟩
    exact h name hname

theorem startsWithReference_of_pieces {text : Word} (h : pieces .angle text = text.map .letter) :
    startsWithReference text = false := by
  unfold startsWithReference
  split
  · rename_i inner rest hsplit
    have hpart : .part inner ∈ pieces .angle text := by
      apply enclosed_mem_iff.mpr
      rw [hsplit]
      exact List.mem_cons_self
    rw [h] at hpart
    simp at hpart
  · rfl

theorem terminal_mem_symbols_iff {text terminal : Word} :
    .terminal terminal ∈ symbols text ↔ .plain terminal ∈ Segment.split .angle text := by
  rw [symbols, List.mem_map]
  constructor
  · intro hsegment
    rcases hsegment with ⟨s, hs, heq⟩
    cases s with
    | plain other =>
        cases heq
        exact hs
    | enclosed inner => cases heq
  · exact fun hplain => ⟨.plain terminal, hplain, rfl⟩

def Symbol.word : Symbol → Word
  | terminal text => text
  | nonterminal name => name

def Segment.symbol : Segment → Symbol
  | plain text => .terminal text
  | enclosed inner => .nonterminal (Brackets.angle.enclose inner)

theorem symbols_eq_map (w : Word) : symbols w = (Segment.split .angle w).map Segment.symbol := by
  rw [symbols]
  apply List.map_congr_left
  intro s _
  cases s with
  | plain text => rfl
  | enclosed inner => rfl

theorem flatMap_word_map_symbol (segments : List Segment) :
    (segments.map Segment.symbol).flatMap Symbol.word = segments.flatMap (Segment.word .angle) := by
  rw [List.flatMap_map]
  apply List.flatMap_congr
  intro s _
  cases s with
  | plain text => rfl
  | enclosed inner => rfl

theorem flatMap_word_symbols (w : Word) : (symbols w).flatMap Symbol.word = w := by
  rw [symbols_eq_map, flatMap_word_map_symbol, Segment.flatMap_word_split]

theorem letter_mem_pieces_iff {text : Word} {c : Char} :
    .letter c ∈ pieces .angle text ↔
      ∃ terminal, .terminal terminal ∈ symbols text ∧ c ∈ terminal := by
  rw [pieces, List.mem_flatMap]
  constructor
  · intro hsegment
    rcases hsegment with ⟨s, hs, hc⟩
    cases s with
    | plain terminal =>
        refine ⟨terminal, terminal_mem_symbols_iff.mpr hs, ?_⟩
        simpa [Segment.pieces] using hc
    | enclosed inner => simp [Segment.pieces] at hc
  · intro hterminal
    rcases hterminal with ⟨terminal, hterminal, hc⟩
    exact ⟨.plain terminal, terminal_mem_symbols_iff.mp hterminal, List.mem_map_of_mem hc⟩

theorem refers_cons_iff {c : Char} (hc : c ≠ '<') {w name : Word} :
    Refers (c :: w) name ↔ Refers w name := by
  rw [Refers, pieces_of_ne_opening hc, List.mem_cons]
  simp [Refers]

theorem refers_append_enclose_iff {u v name other : Word} (hname : Brackets.angle.Fits name) :
    Refers (u ++ (Brackets.angle.enclose name ++ v)) other ↔
      Refers u other ∨ other = name ∨ Refers v other := by
  rw [Refers, pieces_append_enclose hname, List.mem_append, List.mem_cons, Piece.part.injEq]
  rfl

theorem refers_append_text_iff {u v name other : Word} {op : Operator}
    (hname : Brackets.angle.Fits name) :
    Refers (u ++ ((Operand.mk .angle name op).text ++ v)) other ↔
      Refers u other ∨ other = name ∨ Refers v other := by
  rw [Operand.text, Operand.base, List.append_assoc, refers_append_enclose_iff hname,
    List.singleton_append, refers_cons_iff op.mark_ne.1]

def Piece.item : Piece → Item
  | letter c => .literal c
  | part name => .reference (Brackets.angle.enclose name)

def flatItems (ps : List Piece) : List Item :=
  (Token.ofPieces ps).flatMap Token.items

/-!
## From tokens back to pieces
-/

namespace Token

def pieces : Token → List Piece
  | letter c => [.letter c]
  | reference name => [.part name]
  | repetition name op => [.part name, .letter op.mark]
  | opening => [.letter '(']
  | closing => [.letter ')']
  | closingWith op => [.letter ')', .letter op.mark]

theorem eq_of_takeMark? {ts rest : List Token} {op : Operator}
    (h : takeMark? ts = some (op, rest)) : ts = letter op.mark :: rest := by
  cases ts with
  | nil => cases h
  | cons t ts =>
      cases t with
      | letter c =>
          rw [takeMark?, Option.map_eq_some_iff] at h
          rcases h with ⟨op', hop, heq⟩
          cases heq
          rw [Operator.eq_mark_of_ofMark? hop]
      | reference name => cases h
      | repetition name op' => cases h
      | opening => cases h
      | closing => cases h
      | closingWith op' => cases h

/-- What a piece in front of tokens may be turned into. -/
inductive Attached : Piece → List Token → List Token → Prop
  | reference {name : Word} {ts : List Token} :
      takeMark? ts = none → Attached (.part name) ts (.reference name :: ts)
  | repetition {name : Word} {op : Operator} {rest : List Token} :
      Attached (.part name) (.letter op.mark :: rest) (.repetition name op :: rest)
  | opening {ts : List Token} : Attached (.letter '(') ts (.opening :: ts)
  | closing {ts : List Token} : Attached (.letter ')') ts (.closing :: ts)
  | closingWith {op : Operator} {rest : List Token} :
      Attached (.letter ')') (.letter op.mark :: rest) (.closingWith op :: rest)
  | letter {c : Char} {ts : List Token} :
      c ≠ '(' → c ≠ ')' → Attached (.letter c) ts (.letter c :: ts)

theorem attached (p : Piece) (ts : List Token) : Attached p ts (attach p ts) := by
  cases p with
  | part name =>
      rw [attach]
      cases htake : takeMark? ts with
      | none => exact .reference htake
      | some x =>
          rw [eq_of_takeMark? htake]
          exact .repetition
  | letter c =>
      rw [attach]
      by_cases hopen : c = '('
      · rw [if_pos hopen, hopen]
        exact .opening
      · rw [if_neg hopen]
        by_cases hclose : c = ')'
        · rw [if_pos hclose, hclose]
          cases htake : takeMark? ts with
          | none => exact .closing
          | some x =>
              rw [eq_of_takeMark? htake]
              exact .closingWith
        · rw [if_neg hclose]
          exact .letter hopen hclose

theorem Attached.flatMap_pieces {p : Piece} {ts us : List Token} (h : Attached p ts us) :
    us.flatMap pieces = p :: ts.flatMap pieces := by
  cases h with
  | reference _ => rfl
  | repetition => rfl
  | opening => rfl
  | closing => rfl
  | closingWith => rfl
  | letter _ _ => rfl

theorem flatMap_pieces_ofPieces (ps : List Piece) : (ofPieces ps).flatMap pieces = ps := by
  induction ps with
  | nil => rfl
  | cons p ps ih => rw [ofPieces_cons, (attached p _).flatMap_pieces, ih]

theorem Attached.letter_mem {p : Piece} {ts us : List Token} (h : Attached p ts us) {c : Char}
    (hc : Token.letter c ∈ us) : Token.letter c ∈ ts ∨ c ≠ '(' ∧ c ≠ ')' := by
  cases h with
  | reference _ => exact Or.inl (by simpa using hc)
  | repetition => exact Or.inl (by simpa using Or.inr hc)
  | opening => exact Or.inl (by simpa using hc)
  | closing => exact Or.inl (by simpa using hc)
  | closingWith => exact Or.inl (by simpa using Or.inr hc)
  | letter hopen hclose =>
      rcases List.mem_cons.mp hc with heq | hc
      · cases heq
        exact Or.inr ⟨hopen, hclose⟩
      · exact Or.inl hc

theorem letter_mem_ofPieces {ps : List Piece} {c : Char} (h : letter c ∈ ofPieces ps) :
    c ≠ '(' ∧ c ≠ ')' := by
  induction ps with
  | nil => cases h
  | cons p ps ih =>
      rcases (attached p (ofPieces ps)).letter_mem h with h | h
      · exact ih h
      · exact h

theorem isFlat_of_mem_ofPieces {ps : List Piece}
    (hopen : .letter '(' ∉ ps) (hclose : .letter ')' ∉ ps) {t : Token} (h : t ∈ ofPieces ps) :
    t.isFlat = true := by
  have hpieces : ∀ p ∈ t.pieces, p ∈ ps := by
    intro p hp
    rw [← flatMap_pieces_ofPieces ps]
    exact List.mem_flatMap.mpr ⟨t, h, hp⟩
  cases t with
  | letter c => rfl
  | reference name => rfl
  | repetition name op => rfl
  | opening => exact absurd (hpieces _ (by simp [pieces])) hopen
  | closing => exact absurd (hpieces _ (by simp [pieces])) hclose
  | closingWith op => exact absurd (hpieces _ (by simp [pieces])) hclose

theorem pieces_subset_of_mem_ofText {text : Word} {t : Token} (h : t ∈ ofText text) {p : Piece}
    (hp : p ∈ t.pieces) : p ∈ GrammarFuzz.pieces .angle text := by
  rw [← flatMap_pieces_ofPieces (GrammarFuzz.pieces .angle text)]
  exact List.mem_flatMap.mpr ⟨t, h, hp⟩

end Token

/-!
## The plain reading
-/

theorem plainReading_eq (text : Word) :
    plainReading text = (pieces .angle text).map Piece.item := by
  unfold plainReading symbols pieces
  generalize Segment.split .angle text = segments
  induction segments with
  | nil => rfl
  | cons s rest ih =>
      rw [List.map_cons, List.flatMap_cons, ih, List.flatMap_cons, List.map_append]
      cases s with
      | plain text => simp [Symbol.items, Segment.pieces, Piece.item, Function.comp_def]
      | enclosed inner => rfl

/-!
## Texts without groups
-/

theorem flatItems_letter (c : Char) (ps : List Piece) :
    flatItems (.letter c :: ps) = .literal c :: flatItems ps := by
  rw [flatItems, flatItems, Token.ofPieces_cons]
  have h := Token.attached (.letter c) (Token.ofPieces ps)
  generalize Token.attach (.letter c) (Token.ofPieces ps) = us at h ⊢
  generalize Token.ofPieces ps = ts at h ⊢
  cases h with
  | opening => rfl
  | closing => rfl
  | closingWith => rfl
  | letter _ _ => rfl

theorem flatItems_repetition (name : Word) (op : Operator) (ps : List Piece) :
    flatItems (.part name :: .letter op.mark :: ps) =
      .operated [.reference (Brackets.angle.enclose name)] op :: flatItems ps := by
  rw [flatItems, Token.ofPieces_repetition]
  rfl

theorem flatItems_part {ps : List Piece} (h : Operator.ahead? ps = none) (name : Word) :
    flatItems (.part name :: ps) =
      .reference (Brackets.angle.enclose name) :: flatItems ps := by
  have htake : Token.takeMark? (Token.ofPieces ps) = none := by
    cases htake : Token.takeMark? (Token.ofPieces ps) with
    | none => rfl
    | some x =>
        have hps := Token.flatMap_pieces_ofPieces ps
        rw [Token.eq_of_takeMark? htake] at hps
        rw [← hps] at h
        cases x.1.ofMark?_mark.symm.trans h
  rw [flatItems, Token.ofPieces_cons, Token.attach, htake]
  rfl

theorem extendedReading_of_flat {text : Word} (h : ∀ t ∈ Token.ofText text, t.isFlat = true) :
    extendedReading text = flatItems (pieces .angle text) := by
  rw [extendedReading, Frames.readAll_flat h, Frames.flatten_push]
  rfl

theorem fits_of_mem_pieces {text : Word}
    (hrefs : ∀ name, Refers text name → Brackets.round.Fits name)
    {t : Token} (ht : t ∈ Token.ofText text) (hflat : t.isFlat = true) {p : Piece}
    (hp : p ∈ t.pieces) : Brackets.round.Fits (p.word .angle) := by
  have hmem := Token.pieces_subset_of_mem_ofText ht hp
  have hpart : ∀ name, p = .part name → Brackets.round.Fits (p.word .angle) := by
    intro name heq c hc
    subst heq
    rcases List.mem_append.mp hc with hc | hc
    · rcases List.mem_cons.mp hc with rfl | hc
      · decide
      · exact hrefs name hmem c hc
    · rw [List.mem_singleton.mp hc]
      decide
  have hletter : ∀ c, p = .letter c → c ≠ '(' → c ≠ ')' → Brackets.round.Fits (p.word .angle) := by
    intro c heq hopen hclose d hd
    subst heq
    rw [List.mem_singleton.mp hd]
    exact ⟨hopen, hclose, rfl⟩
  cases t with
  | letter c =>
      have hc := Token.letter_mem_ofPieces ht
      exact hletter c (List.mem_singleton.mp hp) hc.1 hc.2
  | reference name => exact hpart name (List.mem_singleton.mp hp)
  | repetition name op =>
      rcases List.mem_cons.mp hp with hp | hp
      · exact hpart name hp
      · exact hletter op.mark (List.mem_singleton.mp hp) op.mark_ne.2.2.1 op.mark_ne.2.2.2
  | opening => cases hflat
  | closing => cases hflat
  | closingWith op => cases hflat

theorem noFlatGroup_of_groups_eq_nil {text : Word} (hgroups : Operand.groups text = [])
    (hrefs : ∀ name, Refers text name → Brackets.round.Fits name) :
    Frames.NoFlatGroup (Token.ofText text) := by
  intro us body op vs hts
  by_cases hbody : ∀ t ∈ body, t.isFlat = true
  · let spelled := fun ts : List Token => Piece.spell .angle (ts.flatMap Token.pieces)
    have htext : text =
        spelled us ++ (Brackets.round.enclose (spelled body) ++ op.mark :: spelled vs) := by
      have hps := Token.flatMap_pieces_ofPieces (pieces .angle text)
      have hofText : Token.ofPieces (pieces .angle text) = Token.ofText text := rfl
      rw [hofText, hts] at hps
      rw [← spell_pieces .angle text, ← hps]
      simp [spelled, Token.pieces, Brackets.enclose, Brackets.round]
    have hfits : Brackets.round.Fits (spelled body) := by
      intro c hc
      rcases List.mem_flatMap.mp hc with ⟨p, hp, hcp⟩
      rcases List.mem_flatMap.mp hp with ⟨t, ht, hpt⟩
      have hmem : t ∈ Token.ofText text := by
        rw [hts]
        simp [ht]
      exact fits_of_mem_pieces hrefs hmem (hbody t ht) hpt c hcp
    have hmem := Operand.mem_allIn_of_occurrence (u := spelled us) (v := spelled vs) hfits
      op.mark_ne.2.2.1
    rw [← htext] at hmem
    rw [Operand.groups] at hgroups
    rw [hgroups] at hmem
    cases hmem
  · simpa using hbody

theorem extendedReading_of_groups_eq_nil {text : Word} (hgroups : Operand.groups text = [])
    (hrefs : ∀ name, Refers text name → Brackets.round.Fits name) :
    extendedReading text = flatItems (pieces .angle text) := by
  have hno := noFlatGroup_of_groups_eq_nil hgroups hrefs
  rw [extendedReading, Frames.flatten_readAll .empty hno fun h => absurd rfl h]
  rfl

/-!
## Rows of references
-/

/-- A reading that takes adjacent non-terminals for references. -/
def Reading.ReadsRows (read : Reading) : Prop :=
  ∀ names : List Word, (∀ name ∈ names, Brackets.angle.Fits name) →
    read (names.flatMap Brackets.angle.enclose) =
      names.map fun name => .reference (Brackets.angle.enclose name)

theorem pieces_row {names : List Word} (h : ∀ name ∈ names, Brackets.angle.Fits name) :
    pieces .angle (names.flatMap Brackets.angle.enclose) = names.map .part := by
  induction names with
  | nil => rfl
  | cons name names ih =>
      rw [List.flatMap_cons, pieces_enclose (h name (by simp)), ih fun x hx => h x (by simp [hx])]
      rfl

theorem ofPieces_row (names : List Word) :
    Token.ofPieces (names.map .part) = names.map .reference := by
  induction names with
  | nil => rfl
  | cons name names ih =>
      rw [List.map_cons, Token.ofPieces_cons, ih, Token.attach]
      cases names with
      | nil => rfl
      | cons other names => rfl

theorem plainReading_readsRows : plainReading.ReadsRows := by
  intro names h
  rw [plainReading_eq, pieces_row h, List.map_map]
  rfl

theorem extendedReading_readsRows : extendedReading.ReadsRows := by
  intro names h
  have htokens : Token.ofText (names.flatMap Brackets.angle.enclose) = names.map .reference := by
    rw [Token.ofText, pieces_row h, ofPieces_row]
  rw [extendedReading_of_flat, pieces_row h, flatItems, ofPieces_row, List.flatMap_map]
  · exact List.map_eq_flatMap.symm
  · intro t ht
    rw [htokens] at ht
    rcases List.mem_map.mp ht with ⟨name, _, rfl⟩
    rfl

/-!
## References of a reading
-/

theorem Token.within_items {known : Word → Prop} {text : Word}
    (h : ∀ name, Refers text name → known (Brackets.angle.enclose name)) {t : Token}
    (ht : t ∈ ofText text) : Item.Within known t.items := by
  have hpart : ∀ name, .part name ∈ t.pieces → known (Brackets.angle.enclose name) :=
    fun name hname => h name (pieces_subset_of_mem_ofText ht hname)
  cases t with
  | letter c => exact .literal .nil
  | reference name => exact .reference (hpart name (by simp [pieces])) .nil
  | repetition name op =>
      exact .operated (.reference (hpart name (by simp [pieces])) .nil) .nil
  | opening => exact .literal .nil
  | closing => exact .literal .nil
  | closingWith op => exact .literal (.literal .nil)

namespace Frames

def Within (known : Word → Prop) (f : Frames) : Prop :=
  Item.Within known f.current ∧ ∀ items ∈ f.outer, Item.Within known items

theorem Within.flatten {known : Word → Prop} {f : Frames} (h : f.Within known) :
    Item.Within known f.flatten := by
  rcases f with ⟨current, outer⟩
  simp only [Frames.flatten]
  induction outer generalizing current with
  | nil => exact h.1
  | cons before outer ih =>
      rw [List.foldl_cons]
      apply ih
      refine ⟨?_, fun items hitems => h.2 items (List.mem_cons_of_mem _ hitems)⟩
      exact Item.within_append.mpr ⟨h.2 before List.mem_cons_self, .literal h.1⟩

theorem Within.push {known : Word → Prop} {f : Frames} (h : f.Within known) {items : List Item}
    (hitems : Item.Within known items) : (f.push items).Within known :=
  ⟨Item.within_append.mpr ⟨h.1, hitems⟩, h.2⟩

theorem Within.read {known : Word → Prop} {f : Frames} (h : f.Within known) {t : Token}
    (ht : Item.Within known t.items) : (f.read t).Within known := by
  cases t with
  | letter c => exact h.push ht
  | reference name => exact h.push ht
  | repetition name op => exact h.push ht
  | opening =>
      constructor
      · exact .nil
      · intro items hitems
        rcases List.mem_cons.mp hitems with rfl | hitems
        · exact h.1
        · exact h.2 items hitems
  | closing =>
      refine ⟨Item.within_append.mpr ⟨h.flatten, .literal .nil⟩, ?_⟩
      intro items hitems
      cases hitems
  | closingWith op =>
      rcases f with ⟨current, outer⟩
      cases outer with
      | nil => exact h.push ht
      | cons before outer =>
          refine ⟨Item.within_append.mpr ⟨h.2 before List.mem_cons_self, .operated h.1 .nil⟩, ?_⟩
          exact fun items hitems => h.2 items (List.mem_cons_of_mem _ hitems)

theorem Within.readAll {known : Word → Prop} {f : Frames} (h : f.Within known) {ts : List Token}
    (hts : ∀ t ∈ ts, Item.Within known t.items) : (f.readAll ts).Within known := by
  induction ts generalizing f with
  | nil => exact h
  | cons t ts ih =>
      exact ih (h.read (hts t List.mem_cons_self)) fun u hu => hts u (List.mem_cons_of_mem _ hu)

end Frames

theorem within_extendedReading {known : Word → Prop} {text : Word}
    (h : ∀ name, Refers text name → known (Brackets.angle.enclose name)) :
    Item.Within known (extendedReading text) := by
  have hempty : Frames.empty.Within known := ⟨.nil, fun items hitems => by cases hitems⟩
  exact (hempty.readAll fun t ht => Token.within_items h ht).flatten

end GrammarFuzz
