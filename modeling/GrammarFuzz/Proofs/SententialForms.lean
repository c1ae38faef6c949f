import GrammarFuzz.Proofs.TextReading
import Mathlib.Logic.Relation

/-!
# Sentential forms

A step of a derivation puts one of the alternatives of a symbol in place of a reference
to it.  What such steps lead to from a symbol are the symbol's sentential forms.

A step can be carried out on the text of a sentential form by replacing the name of the
symbol, as long as angle brackets occur around references only: then no reference can
be read across the ends of the text that has been put in.
-/

namespace GrammarFuzz

namespace Grammar

variable {g : Grammar} {read : Reading} {symbol : Word} {xs ys : List Item}

inductive Rewrites (g : Grammar) (read : Reading) : List Item → List Item → Prop
  | reference {symbol : Word} {alternatives : List Expansion} {e : Expansion}
      {before behind : List Item} :
      g.expansions? symbol = some alternatives → e ∈ alternatives →
      Rewrites g read (before ++ .reference symbol :: behind) (before ++ (read e.text ++ behind))

def SententialForm (g : Grammar) (read : Reading) (symbol : Word) (items : List Item) : Prop :=
  Relation.ReflTransGen (g.Rewrites read) [.reference symbol] items

theorem Rewrites.derives (h : g.Rewrites read xs ys) {w : Word} (hw : g.Derives read ys w) :
    g.Derives read xs w := by
  cases h with
  | reference hrule he =>
      rcases hw.split with ⟨u, _, rfl, hu, hrest⟩
      rcases hrest.split with ⟨body, v, rfl, hbody, hv⟩
      exact hu.append (.reference hrule he hbody hv)

theorem SententialForm.mem_language (h : g.SententialForm read symbol xs) {w : Word}
    (hw : g.Derives read xs w) : w ∈ g.language read symbol := by
  induction h with
  | refl => exact hw
  | tail _ hstep ih => exact ih (hstep.derives hw)

end Grammar

/-!
## Texts with angle brackets around references only
-/

def Unambiguous (text : Word) : Prop :=
  ∀ terminal, .terminal terminal ∈ symbols text → '<' ∉ terminal ∧ '>' ∉ terminal

theorem unambiguous_iff {text : Word} :
    Unambiguous text ↔ .letter '<' ∉ pieces .angle text ∧ .letter '>' ∉ pieces .angle text := by
  rw [letter_mem_pieces_iff, letter_mem_pieces_iff, Unambiguous]
  push Not
  exact forall₂_and

instance (text : Word) : Decidable (Unambiguous text) :=
  decidable_of_iff _ unambiguous_iff.symm

theorem Unambiguous.pieces_append {u : Word} (h : Unambiguous u) (w : Word) :
    pieces .angle (u ++ w) = pieces .angle u ++ pieces .angle w := by
  rcases pieces_append_cases .angle u w with hcut | ⟨before, first, second, behind, hacross⟩
  · exact hcut
  · have hopening : .letter '<' ∈ pieces .angle u := by
      rw [hacross.pieces_left]
      exact List.mem_append_right _ List.mem_cons_self
    exact absurd hopening (unambiguous_iff.mp h).1

theorem pieces_single {name : Word} (h : Brackets.angle.Fits name) :
    pieces .angle (Brackets.angle.enclose name) = [.part name] := by
  have hpieces := pieces_enclose h []
  rwa [List.append_nil] at hpieces

theorem unambiguous_enclose {name : Word} (h : Brackets.angle.Fits name) :
    Unambiguous (Brackets.angle.enclose name) := by
  rw [unambiguous_iff, pieces_single h]
  simp

theorem plainReading_enclose {name : Word} (h : Brackets.angle.Fits name) :
    plainReading (Brackets.angle.enclose name) = [.reference (Brackets.angle.enclose name)] := by
  rw [plainReading_eq, pieces_single h]
  rfl

theorem plainReading_of_references_eq_nil {text : Word} (h : references text = []) :
    plainReading text = text.map .literal := by
  rw [plainReading_eq, pieces_of_no_part (references_eq_nil_iff.mp h), List.map_map]
  rfl

theorem Unambiguous.exists_replaceFirst {term text symbol : Word} (hterm : Unambiguous term)
    (htext : Unambiguous text) (hsymbol : symbol ∈ references term) :
    ∃ name before behind, symbol = Brackets.angle.enclose name ∧
      pieces .angle term = before ++ .part name :: behind ∧
      pieces .angle (Word.replaceFirst symbol text term) =
        before ++ (pieces .angle text ++ behind) := by
  rcases mem_references_iff.mp hsymbol with ⟨name, hname, rfl⟩
  rcases part_mem_pieces_iff.mp hname with ⟨hfits, hoccurs⟩
  have hne : Brackets.angle.enclose name ≠ [] := List.cons_ne_nil _ _
  rcases Word.replaceFirst_cases hne text term with ⟨u, v, rfl, hnext⟩ | ⟨hnone, _⟩
  · have hpieces := pieces_append_enclose hfits u v
    have hu : Unambiguous u := by
      rw [unambiguous_iff, hpieces] at hterm
      rw [unambiguous_iff]
      exact ⟨mt (List.mem_append_left _) hterm.1, mt (List.mem_append_left _) hterm.2⟩
    refine ⟨name, pieces .angle u, pieces .angle v, rfl, hpieces, ?_⟩
    rw [hnext, hu.pieces_append, htext.pieces_append]
  · rcases hoccurs with ⟨u, v, hterm⟩
    exact absurd hterm (hnone u v)

theorem Unambiguous.replaceFirst {term text symbol : Word} (hterm : Unambiguous term)
    (htext : Unambiguous text) (hsymbol : symbol ∈ references term) :
    Unambiguous (Word.replaceFirst symbol text term) := by
  rcases hterm.exists_replaceFirst htext hsymbol with ⟨name, before, behind, _, hpieces, hnext⟩
  rw [unambiguous_iff] at hterm htext ⊢
  rw [hpieces] at hterm
  rw [hnext]
  simp only [List.mem_append, List.mem_cons, not_or] at hterm ⊢
  exact ⟨⟨hterm.1.1, htext.1, hterm.1.2.2⟩, ⟨hterm.2.1, htext.2, hterm.2.2.2⟩⟩

theorem Unambiguous.rewrites {g : Grammar} {term symbol : Word} {alternatives : List Expansion}
    {e : Expansion} (hterm : Unambiguous term) (htext : Unambiguous e.text)
    (hsymbol : symbol ∈ references term) (hrule : g.expansions? symbol = some alternatives)
    (he : e ∈ alternatives) :
    g.Rewrites plainReading (plainReading term)
      (plainReading (Word.replaceFirst symbol e.text term)) := by
  rcases hterm.exists_replaceFirst htext hsymbol with ⟨name, before, behind, rfl, hpieces, hnext⟩
  rw [plainReading_eq term, plainReading_eq (Word.replaceFirst _ _ _), hpieces, hnext,
    List.map_append, List.map_append, List.map_append, List.map_cons, ← plainReading_eq]
  exact .reference hrule he

end GrammarFuzz
