import GrammarFuzz.Generation.Substitution
import GrammarFuzz.Proofs.Actions
import GrammarFuzz.Proofs.Draws
import GrammarFuzz.Proofs.ParseTrees
import GrammarFuzz.Proofs.SententialForms

/-!
# Substitution is derivation

The term of a generation by substitution is a sentential form of the start symbol, if the
expansions have angle brackets around references only: every accepted round is a step of
a derivation, and a rejected one leaves the term alone.  The number of rejections in a row
stays below its bound until the generation ends.
-/

namespace GrammarFuzz
namespace Substituter

variable {r : Substituter} {ρ : Type} [WordSource ρ]

def Derives (r : Substituter) (term : Word) : Prop :=
  r.grammar.SententialForm plainReading r.start (plainReading term)

/-- Whether a term is one to go on with: the first one, or one that has been accepted. -/
def Accepted (r : Substituter) (term : Word) : Prop :=
  term = r.start ∨ (references term).length < r.maxNonterminals

def Explains (r : Substituter) : GenerationError → Prop
  | .expansionExhausted term trials =>
      r.Derives term ∧ references term ≠ [] ∧ r.Accepted term ∧ trials = max 1 r.maxTrials
  | .undefinedSymbol symbol =>
      (∃ term, r.Derives term ∧ symbol ∈ references term) ∧
        (r.grammar.expansions? symbol = none ∨ r.grammar.expansions? symbol = some [])
  | error => error = .outOfSteps

structure Sound (r : Substituter) (term : Word) : Prop where
  derives : r.Derives term
  unambiguous : Unambiguous term
  accepted : r.Accepted term

theorem sound_start {name : Word} (hstart : r.start = Brackets.angle.enclose name)
    (hname : Brackets.angle.Fits name) : r.Sound r.start := by
  refine ⟨?_, ?_, Or.inl rfl⟩
  · rw [Derives, hstart, plainReading_enclose hname]
    exact .refl
  · rw [hstart]
    exact unambiguous_enclose hname

theorem Sound.replaceFirst {term symbol : Word} {alternatives : List Expansion} {e : Expansion}
    (h : r.Sound term) (htexts : ∀ e ∈ r.grammar.expansions, Unambiguous e.text)
    (hsymbol : symbol ∈ references term)
    (hrule : r.grammar.expansions? symbol = some alternatives) (he : e ∈ alternatives)
    (hbound : (references (Word.replaceFirst symbol e.text term)).length < r.maxNonterminals) :
    r.Sound (Word.replaceFirst symbol e.text term) := by
  have htext : Unambiguous e.text :=
    htexts e (Grammar.mem_expansions_iff.mpr ⟨symbol, alternatives, hrule, he⟩)
  refine ⟨?_, h.unambiguous.replaceFirst htext hsymbol, Or.inr hbound⟩
  exact h.derives.tail (h.unambiguous.rewrites htext hsymbol hrule he)

theorem ensures_drawFrom {α ε : Type} (items : List α) {fails : ε → Prop} :
    Action.Ensures (Action.ofState (WordSource.drawFrom items) : Action ε ρ (Option α))
      (fun drawn => (items = [] ∧ drawn = none) ∨ ∃ x ∈ items, drawn = some x) fails :=
  .ofState (WordSource.yields_drawFrom items)

theorem ensures_substitute (htexts : ∀ e ∈ r.grammar.expansions, Unambiguous e.text)
    (rounds trials : Nat) {term : Word} (hterm : r.Sound term)
    (htrials : trials = 0 ∨ trials < r.maxTrials) :
    Action.Ensures (r.substitute rounds trials term : Action GenerationError ρ Word)
      (fun w => r.Sound w ∧ references w = []) r.Explains := by
  induction rounds generalizing trials term with
  | zero => exact .throw rfl
  | succ rounds ih =>
      unfold substitute
      refine .bind (ensures_drawFrom _) fun drawn hdrawn => ?_
      rcases hdrawn with ⟨hnone, rfl⟩ | ⟨symbol, hsymbol, rfl⟩
      · exact .pure ⟨hterm, hnone⟩
      · have hundefined : r.grammar.expansions? symbol = none ∨
            r.grammar.expansions? symbol = some [] → r.Explains (.undefinedSymbol symbol) :=
          fun hmissing => ⟨⟨term, hterm.derives, hsymbol⟩, hmissing⟩
        dsimp only
        cases hrule : r.grammar.expansions? symbol with
        | none => exact .throw (hundefined (Or.inl hrule))
        | some alternatives =>
            refine .bind (ensures_drawFrom _) fun drawn hdrawn => ?_
            rcases hdrawn with ⟨rfl, rfl⟩ | ⟨e, he, rfl⟩
            · exact .throw (hundefined (Or.inr hrule))
            · dsimp only
              split
              · rename_i hbound
                exact .after_record
                  (ih 0 (hterm.replaceFirst htexts hsymbol hrule he hbound) (Or.inl rfl))
              · split
                · rename_i hlast
                  refine .throw ⟨hterm.derives, List.ne_nil_of_mem hsymbol, hterm.accepted, ?_⟩
                  omega
                · exact ih (trials + 1) hterm (Or.inr (by omega))

/-- The outcome of a generation: an output of the start symbol, or an error that is justified. -/
def Delivers (r : Substituter) : EStateM.Result GenerationError (Journaled ρ) Word → Prop
  | .ok w _ => references w = [] ∧ w ∈ r.grammar.language plainReading r.start ∧
      ∃ t, r.grammar.Completes r.start t ∧ t.output = w
  | .error e _ => r.Explains e

/--
Generation by substitution delivers words that derivation trees put out as well, if the
start symbol is the name of a non-terminal and no expansion has angle brackets outside its
references.
-/
theorem generate_sound {name : Word} (hstart : r.start = Brackets.angle.enclose name)
    (hname : Brackets.angle.Fits name)
    (htexts : ∀ e ∈ r.grammar.expansions, Unambiguous e.text) (rounds : Nat) (s : Journaled ρ) :
    r.Delivers (r.generate rounds s) := by
  have hrun := ensures_substitute htexts rounds 0 (sound_start hstart hname) (Or.inl rfl) s
  rw [generate]
  cases houtcome : r.substitute rounds 0 r.start s with
  | error e s' =>
      rw [houtcome] at hrun
      exact hrun
  | ok w s' =>
      rw [houtcome] at hrun
      rcases hrun with ⟨hsound, hnone⟩
      have hderives : r.grammar.Derives plainReading (plainReading w) w := by
        rw [plainReading_of_references_eq_nil hnone]
        exact Grammar.derives_literals _ _ w
      have hlanguage := hsound.derives.mem_language hderives
      exact ⟨hnone, hlanguage, Grammar.mem_language_iff.mp hlanguage⟩

def parentheses : Substituter where
  grammar := .ofRules [(startSymbol, [⟨'(' :: startSymbol ++ startSymbol ++ [')'], .empty⟩,
    ⟨['x'], .empty⟩])]
  start := startSymbol
  maxNonterminals := 2
  maxTrials := 0

theorem parentheses_sound :
    (parentheses.start = Brackets.angle.enclose ['s', 't', 'a', 'r', 't'] ∧
      Brackets.angle.Fits ['s', 't', 'a', 'r', 't'] ∧
      ∀ e ∈ parentheses.grammar.expansions, Unambiguous e.text) ∧
    ∀ (rounds : Nat) (s : Journaled Script),
      parentheses.Delivers (parentheses.generate rounds s) := by
  have hstart : parentheses.start = Brackets.angle.enclose ['s', 't', 'a', 'r', 't'] := rfl
  have hname : Brackets.angle.Fits ['s', 't', 'a', 'r', 't'] := by decide
  have htexts : ∀ e ∈ parentheses.grammar.expansions, Unambiguous e.text := by decide
  exact ⟨⟨hstart, hname, htexts⟩, generate_sound hstart hname htexts⟩

example : (match parentheses.generate 1 ⟨Script.ofWords [0], []⟩ with
    | .ok _ _ => none
    | .error e _ => some e) = some (.expansionExhausted startSymbol 1) := by
  decide

end Substituter
end GrammarFuzz
