import GrammarFuzz.Proofs.Language
import GrammarFuzz.Proofs.Segmentation
import Mathlib.Data.List.Forall2

/-!
# The extended reading of expansions

Besides characters and references, the extended reading knows the operators: behind
a reference, and behind a group in parentheses.  A group is closed by a parenthesis
with an operator, and all parentheses inside it belong to groups; every other
parenthesis is a character, as is every other operator.

The reader keeps a stack of the parentheses that may still open a group.  A closing
parenthesis without an operator is a character, so that none of the parentheses
before it can open a group any more.
-/

namespace GrammarFuzz

/-!
## Tokens
-/

inductive Token where
  | letter (c : Char)
  | reference (name : Word)
  | repetition (name : Word) (op : Operator)
  | opening
  | closing
  | closingWith (op : Operator)
deriving DecidableEq

namespace Token

def takeMark? : List Token → Option (Operator × List Token)
  | letter c :: rest => (Operator.ofMark? c).map fun op => (op, rest)
  | _ => none

def attach : Piece → List Token → List Token
  | .part name, ts =>
      match takeMark? ts with
      | some (op, rest) => repetition name op :: rest
      | none => reference name :: ts
  | .letter c, ts =>
      if c = '(' then opening :: ts
      else if c = ')' then
        match takeMark? ts with
        | some (op, rest) => closingWith op :: rest
        | none => closing :: ts
      else letter c :: ts

def ofPieces (ps : List Piece) : List Token :=
  ps.foldr attach []

def ofText (text : Word) : List Token :=
  ofPieces (pieces .angle text)

def items : Token → List Item
  | letter c => [.literal c]
  | reference name => [.reference (Brackets.angle.enclose name)]
  | repetition name op => [.operated [.reference (Brackets.angle.enclose name)] op]
  | opening => [.literal '(']
  | closing => [.literal ')']
  | closingWith op => [.literal ')', .literal op.mark]

def isFlat : Token → Bool
  | opening => false
  | closing => false
  | closingWith _ => false
  | _ => true

end Token

/-!
## Groups
-/

/--
What has been read since the last parenthesis that may open a group, and what was
read before that one and each of the ones around it.
-/
structure Frames where
  current : List Item
  outer : List (List Item)

namespace Frames

def empty : Frames :=
  ⟨[], []⟩

def push (f : Frames) (items : List Item) : Frames :=
  ⟨f.current ++ items, f.outer⟩

def flatten (f : Frames) : List Item :=
  f.outer.foldl (fun inner before => before ++ .literal '(' :: inner) f.current

def read (f : Frames) : Token → Frames
  | .opening => ⟨[], f.current :: f.outer⟩
  | .closing => ⟨f.flatten ++ [.literal ')'], []⟩
  | .closingWith op =>
      match f.outer with
      | [] => f.push (Token.closingWith op).items
      | before :: outer => ⟨before ++ [.operated f.current op], outer⟩
  | token => f.push token.items

def readAll (f : Frames) (tokens : List Token) : Frames :=
  tokens.foldl read f

end Frames

/-- The extended reading: operators behind references and behind groups. -/
def extendedReading : Reading :=
  fun text => (Frames.empty.readAll (Token.ofText text)).flatten

/-!
## Reading tokens
-/

namespace Token

theorem attach_append {us : List Token} (h : takeMark? us = none) (p : Piece) (ts : List Token) :
    attach p (ts ++ us) = attach p ts ++ us := by
  have htake : takeMark? (ts ++ us) = (takeMark? ts).map fun x => (x.1, x.2 ++ us) := by
    cases ts with
    | nil => simpa [takeMark?] using h
    | cons t ts =>
        cases t with
        | letter c => cases hc : Operator.ofMark? c <;> simp [takeMark?, hc]
        | _ => rfl
  cases p with
  | part name =>
      simp only [attach, htake]
      cases takeMark? ts with
      | none => rfl
      | some x => rfl
  | letter c =>
      simp only [attach, htake]
      split
      · rfl
      · split
        · cases takeMark? ts with
          | none => rfl
          | some x => rfl
        · rfl

theorem ofPieces_cons (p : Piece) (ps : List Piece) :
    ofPieces (p :: ps) = attach p (ofPieces ps) :=
  rfl

theorem ofPieces_append {qs : List Piece} (h : takeMark? (ofPieces qs) = none)
    (ps : List Piece) : ofPieces (ps ++ qs) = ofPieces ps ++ ofPieces qs := by
  induction ps with
  | nil => rfl
  | cons p ps ih =>
      rw [List.cons_append, ofPieces_cons, ofPieces_cons, ih, attach_append h]

theorem ofPieces_mark (op : Operator) (ps : List Piece) :
    ofPieces (.letter op.mark :: ps) = .letter op.mark :: ofPieces ps := by
  rcases op.mark_ne with ⟨_, _, hopen, hclose⟩
  rw [ofPieces_cons, attach, if_neg hopen, if_neg hclose]

theorem takeMark?_mark (op : Operator) (ts : List Token) :
    takeMark? (.letter op.mark :: ts) = some (op, ts) := by
  rw [takeMark?, Operator.ofMark?_mark]
  rfl

theorem ofPieces_repetition (name : Word) (op : Operator) (ps : List Piece) :
    ofPieces (.part name :: .letter op.mark :: ps) = .repetition name op :: ofPieces ps := by
  rw [ofPieces_cons, ofPieces_mark, attach, takeMark?_mark]

theorem ofPieces_closingWith (op : Operator) (ps : List Piece) :
    ofPieces (.letter ')' :: .letter op.mark :: ps) = .closingWith op :: ofPieces ps := by
  rw [ofPieces_cons, ofPieces_mark, attach, takeMark?_mark, if_neg (by decide), if_pos rfl]

theorem ofPieces_opening (ps : List Piece) :
    ofPieces (.letter '(' :: ps) = .opening :: ofPieces ps :=
  rfl

theorem takeMark?_ofPieces_letter {c : Char} (hc : Operator.ofMark? c = none)
    (ps : List Piece) : takeMark? (ofPieces (.letter c :: ps)) = none := by
  rw [ofPieces_cons, attach]
  split
  · rfl
  · split
    · cases takeMark? (ofPieces ps) with
      | none => rfl
      | some x => rfl
    · simp [takeMark?, hc]

theorem takeMark?_ofPieces_part (name : Word) (ps : List Piece) :
    takeMark? (ofPieces (.part name :: ps)) = none := by
  rw [ofPieces_cons, attach]
  cases takeMark? (ofPieces ps) with
  | none => rfl
  | some x => rfl

/-!
A body is what may stand between the parentheses of a group.
-/

inductive Body : List Token → Prop
  | nil : Body []
  | flat {t : Token} {rest : List Token} : t.isFlat = true → Body rest → Body (t :: rest)
  | group {body rest : List Token} {op : Operator} :
      Body body → Body rest → Body (.opening :: body ++ .closingWith op :: rest)

theorem Body.of_flat {ts : List Token} (h : ∀ t ∈ ts, t.isFlat = true) : Body ts := by
  induction ts with
  | nil => exact nil
  | cons t ts ih => exact flat (h t (by simp)) (ih fun u hu => h u (by simp [hu]))

end Token

namespace Frames

@[simp]
theorem readAll_nil (f : Frames) : f.readAll [] = f :=
  rfl

@[simp]
theorem readAll_cons (f : Frames) (t : Token) (ts : List Token) :
    f.readAll (t :: ts) = (f.read t).readAll ts :=
  rfl

theorem readAll_append (f : Frames) (ts us : List Token) :
    f.readAll (ts ++ us) = (f.readAll ts).readAll us :=
  List.foldl_append

theorem read_of_isFlat {t : Token} (h : t.isFlat = true) (f : Frames) :
    f.read t = f.push t.items := by
  cases t with
  | letter c => rfl
  | reference name => rfl
  | repetition name op => rfl
  | opening => cases h
  | closing => cases h
  | closingWith op => cases h

theorem readAll_body {ts : List Token} (h : Token.Body ts) (f : Frames) :
    f.readAll ts = f.push (empty.readAll ts).flatten := by
  suffices hitems : ∃ items, ∀ f : Frames, f.readAll ts = f.push items by
    rcases hitems with ⟨items, hitems⟩
    rw [hitems f, hitems empty]
    rfl
  induction h with
  | nil => exact ⟨[], fun f => by simp [push]⟩
  | @flat t rest ht _ ih =>
      rcases ih with ⟨items, hitems⟩
      refine ⟨t.items ++ items, fun f => ?_⟩
      rw [readAll_cons, read_of_isFlat ht, hitems]
      simp [push]
  | @group body rest op _ _ ihbody ihrest =>
      rcases ihbody with ⟨inner, hinner⟩
      rcases ihrest with ⟨items, hitems⟩
      refine ⟨.operated inner op :: items, fun f => ?_⟩
      rw [readAll_append, readAll_cons, readAll_cons, hinner, hitems]
      simp [push, read]

theorem readAll_flat {ts : List Token} (h : ∀ t ∈ ts, t.isFlat = true) (f : Frames) :
    f.readAll ts = f.push (ts.flatMap Token.items) := by
  induction ts generalizing f with
  | nil => rw [readAll_nil, List.flatMap_nil, push, List.append_nil]
  | cons t ts ih =>
      rw [readAll_cons, read_of_isFlat (h t (by simp)), ih fun u hu => h u (by simp [hu])]
      simp [push]

theorem readAll_group {body : List Token} (h : Token.Body body) (f : Frames) (op : Operator)
    (rest : List Token) :
    f.readAll (.opening :: body ++ .closingWith op :: rest) =
      (f.push [.operated (empty.readAll body).flatten op]).readAll rest := by
  rw [readAll_append, readAll_cons, readAll_cons, readAll_body h]
  rfl

-- The parenthesis that is left over and the operator behind it are characters.
example : extendedReading ['a', '(', 'b', '<', 'c', '>', '+', ')', '?', ')', '*'] =
    [.literal 'a',
      .operated [.literal 'b', .operated [.reference ['<', 'c', '>']] .plus] .optional,
      .literal ')', .literal '*'] :=
  rfl

/-!
Without a group, all parentheses end up as characters.
-/

theorem flatten_push (f : Frames) (items : List Item) :
    (f.push items).flatten = f.flatten ++ items := by
  rcases f with ⟨current, outer⟩
  simp only [push, flatten]
  induction outer generalizing current with
  | nil => rfl
  | cons before outer ih =>
      rw [List.foldl_cons, List.foldl_cons, ← ih]
      simp

def NoFlatGroup (ts : List Token) : Prop :=
  ∀ us body op vs, ts = us ++ .opening :: body ++ .closingWith op :: vs →
    ∃ t ∈ body, t.isFlat = false

theorem NoFlatGroup.tail {t : Token} {ts : List Token} (h : NoFlatGroup (t :: ts)) :
    NoFlatGroup ts :=
  fun us body op vs hts => h (t :: us) body op vs (by simp [hts])

/--
If no group can be completed, neither by the tokens nor by a parenthesis that was
opened before, the tokens are read one by one.
-/
theorem flatten_readAll {ts : List Token} (f : Frames) (hno : NoFlatGroup ts)
    (hopen : f.outer ≠ [] → ∀ body op vs, ts = body ++ .closingWith op :: vs →
      ∃ t ∈ body, t.isFlat = false) :
    (f.readAll ts).flatten = f.flatten ++ ts.flatMap Token.items := by
  induction ts generalizing f with
  | nil => simp
  | cons t ts ih =>
      have hstep : (f.read t).flatten = f.flatten ++ t.items ∧
          ((f.read t).outer ≠ [] → ∀ body op vs, ts = body ++ .closingWith op :: vs →
            ∃ u ∈ body, u.isFlat = false) := by
        have hflat : t.isFlat = true → f.outer ≠ [] → ∀ body op vs,
            ts = body ++ .closingWith op :: vs → ∃ u ∈ body, u.isFlat = false := by
          intro ht hf body op vs hts
          rcases hopen hf (t :: body) op vs (by simp [hts]) with ⟨u, hu, hnot⟩
          rcases List.mem_cons.mp hu with rfl | hu
          · rw [ht] at hnot
            cases hnot
          · exact ⟨u, hu, hnot⟩
        cases t with
        | letter c => exact ⟨flatten_push f _, hflat rfl⟩
        | reference name => exact ⟨flatten_push f _, hflat rfl⟩
        | repetition name op => exact ⟨flatten_push f _, hflat rfl⟩
        | opening =>
            constructor
            · exact flatten_push f [.literal '(']
            · intro _ body op vs hts
              exact hno [] body op vs (by simp [hts])
        | closing => exact ⟨rfl, fun h => absurd rfl h⟩
        | closingWith op =>
            cases hf : f.outer with
            | nil =>
                simp only [read, hf]
                exact ⟨flatten_push f _, fun h => absurd hf h⟩
            | cons before outer =>
                rcases hopen (by simp [hf]) [] op ts rfl with ⟨u, hu, _⟩
                cases hu
      rw [readAll_cons, ih (f.read t) hno.tail hstep.2, hstep.1]
      simp

/-!
What is read later treats alike items alike.
-/

structure Alike (g : Grammar) (reading : Reading) (f f' : Frames) : Prop where
  current : g.Alike reading f.current f'.current
  outer : List.Forall₂ (g.Alike reading) f.outer f'.outer

namespace Alike

variable {g : Grammar} {reading : Reading} {f f' : Frames}

theorem push (h : Alike g reading f f') {items items' : List Item}
    (hitems : g.Alike reading items items') :
    Alike g reading (f.push items) (f'.push items') :=
  ⟨h.current.append hitems, h.outer⟩

theorem flatten (h : Alike g reading f f') : g.Alike reading f.flatten f'.flatten := by
  rcases f with ⟨current, outer⟩
  rcases f' with ⟨current', outer'⟩
  rcases h with ⟨hcurrent, houter⟩
  simp only [Frames.flatten] at *
  induction houter generalizing current current' with
  | nil => exact hcurrent
  | cons hbefore _ ih =>
      rw [List.foldl_cons, List.foldl_cons]
      apply ih
      exact hbefore.append ((Grammar.Alike.refl [.literal '(']).append hcurrent)

theorem read (h : Alike g reading f f') (t : Token) :
    Alike g reading (f.read t) (f'.read t) := by
  cases t with
  | letter c => exact h.push (.refl _)
  | reference name => exact h.push (.refl _)
  | repetition name op => exact h.push (.refl _)
  | opening => exact ⟨.refl [], .cons h.current h.outer⟩
  | closing => exact ⟨h.flatten.append (.refl _), .nil⟩
  | closingWith op =>
      rcases f with ⟨current, outer⟩
      rcases f' with ⟨current', outer'⟩
      rcases h with ⟨hcurrent, houter⟩
      cases houter with
      | nil => exact ⟨hcurrent.append (.refl _), .nil⟩
      | cons hbefore houter => exact ⟨hbefore.append (hcurrent.operated op), houter⟩

theorem readAll (h : Alike g reading f f') (ts : List Token) :
    Alike g reading (f.readAll ts) (f'.readAll ts) := by
  induction ts generalizing f f' with
  | nil => exact h
  | cons t ts ih => exact ih (h.read t)

theorem refl (f : Frames) : Alike g reading f f := by
  constructor
  · exact .refl _
  · rw [List.forall₂_same]
    exact fun items _ => .refl items

end Alike

theorem alike_group {g : Grammar} {reading : Reading} {body : List Token} {name : Word}
    (hbody : Token.Body body)
    (h : g.Alike reading [.reference (Brackets.angle.enclose name)] (empty.readAll body).flatten)
    (us vs : List Token) (op : Operator) :
    g.Alike reading (empty.readAll (us ++ .repetition name op :: vs)).flatten
      (empty.readAll (us ++ (.opening :: body ++ .closingWith op :: vs))).flatten := by
  rw [readAll_append, readAll_append, readAll_group hbody]
  exact (((Alike.refl _).push (h.operated op)).readAll vs).flatten

end Frames
end GrammarFuzz
