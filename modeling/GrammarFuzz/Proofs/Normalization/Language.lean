import GrammarFuzz.Proofs.Normalization.Groups
import GrammarFuzz.Proofs.Normalization.Operators

/-!
# Normalization keeps the language

The pass over groups keeps the extended reading of all rules and leaves no groups.
The pass over operators then turns the extended reading into the plain one.
-/

namespace GrammarFuzz

open Normalization

/--
The grammars that normalization is made for: each reference has a rule, and
parentheses do not occur in the names of referenced non-terminals.
-/
structure Grammar.Normalizable (g : Grammar) : Prop where
  defined : ∀ e ∈ g.expansions, ∀ symbol ∈ e.references, g.defines symbol = true
  parentheses : ∀ e ∈ g.expansions, ∀ symbol ∈ e.references, '(' ∉ symbol ∧ ')' ∉ symbol

namespace Normalization

variable {g : Grammar}

theorem proper_of_normalizable (h : g.Normalizable) {rule : Word × List Expansion}
    (hrule : rule ∈ g.rules.entries) {e : Expansion} (he : e ∈ rule.2) :
    Proper g.symbols e.text := by
  have hmem := Grammar.mem_expansions_of_entry hrule he
  intro name hname
  have hreference : Brackets.angle.enclose name ∈ e.references :=
    mem_references_iff.mpr ⟨name, hname, rfl⟩
  refine ⟨OrderedMap.contains_iff.mp (h.defined e hmem _ hreference), ?_⟩
  have hparentheses := h.parentheses e hmem _ hreference
  simpa [fits_round_iff, Brackets.enclose, Brackets.angle] using hparentheses

theorem outcome_groupPass (h : g.Normalizable) :
    Outcome (Ungrouped g) g (groupPass g).1 (groupPass g).2 ∧
      ∃ ledger : Ledger, ledger.Flat g ∧ ledger.introductions = (groupPass g).2 :=
  outcome_pass (fun _ hflat => hflat.accounts) (Ledger.flat_ofGrammar g) (ungrouped_stable g)
    fun _ hrule _ he => converts_replaceGroups (proper_of_normalizable h hrule he)

theorem flat_of_mem_groupPass (h : g.Normalizable) {rule : Word × List Expansion}
    (hrule : rule ∈ (groupPass g).1.rules.entries) {e : Expansion} (he : e ∈ rule.2) :
    (∀ name, Refers e.text name → (groupPass g).1.defines (Brackets.angle.enclose name) = true) ∧
      extendedReading e.text = flatItems (pieces .angle e.text) := by
  rcases outcome_groupPass h with ⟨houtcome, ledger, hflat, hledger⟩
  suffices hproper : Operand.groups e.text = [] ∧
      Proper ((groupPass g).2.map Introduction.symbol ++ g.symbols) e.text by
    refine ⟨fun name hname => houtcome.defines_of_mem (hproper.2 name hname).1, ?_⟩
    exact extendedReading_of_groups_eq_nil hproper.1 hproper.2.fits
  rcases houtcome.rules with ⟨kept, hentries, hkept⟩
  rw [hentries, List.mem_append] at hrule
  rcases hrule with hrule | hrule
  · rcases exists_mem_left_of_forall₂ hkept hrule with ⟨old, _, hold⟩
    rcases exists_mem_left_of_forall₂ hold.2 he with ⟨e₀, _, hungrouped⟩
    exact ⟨hungrouped.groups, hungrouped.proper⟩
  · rcases List.mem_map.mp hrule with ⟨intro, hintro, rfl⟩
    rw [← hledger] at hintro ⊢
    rcases hflat.content intro (List.mem_reverse.mp hintro) with ⟨content, hcontent, hfits, hproper⟩
    rw [Introduction.rule, hcontent, List.map_singleton, List.mem_singleton] at he
    subst he
    refine ⟨groups_eq_nil_of_count (List.count_eq_zero.mpr (fits_round_iff.mp hfits).1), ?_⟩
    rw [hflat.accounts.taken] at hproper
    refine hproper.mono (List.append_subset.mpr ⟨?_, List.subset_append_right _ _⟩)
    refine List.Subset.trans ?_ (List.subset_append_left _ _)
    exact List.map_subset _ fun x hx => List.mem_reverse.mpr hx

theorem ungrouped_sound : Conversion.Sound (Ungrouped g) extendedReading extendedReading :=
  fun _ _ _ g' h hold => ⟨h.alike g' hold, h.alike g' hold⟩

theorem language_groupPass (h : g.Normalizable) {symbol : Word}
    (hsymbol : g.defines symbol = true) :
    (groupPass g).1.language extendedReading symbol = g.language extendedReading symbol := by
  refine (outcome_groupPass h).1.language_eq ungrouped_sound (fun _ _ _ _ => rfl) ?_ hsymbol
  intro x es e hes he
  apply within_extendedReading
  intro name hname
  have hproper := proper_of_normalizable h (OrderedMap.get?_eq_some_iff.mp hes) he
  exact OrderedMap.contains_iff.mpr (hproper name hname).1

theorem language_operatorPass
    (hdefined : ∀ rule ∈ g.rules.entries, ∀ e ∈ rule.2, ∀ name, Refers e.text name →
      g.defines (Brackets.angle.enclose name) = true)
    (hflat : ∀ rule ∈ g.rules.entries, ∀ e ∈ rule.2,
      extendedReading e.text = flatItems (pieces .angle e.text))
    {symbol : Word} (hsymbol : g.defines symbol = true) :
    (operatorPass g).1.language plainReading symbol = g.language extendedReading symbol := by
  have hconvert : ∀ rule ∈ g.rules.entries, ∀ e ∈ rule.2,
      Converts (Ledger.Rows g) replaceRepetitions Contracted e := by
    intro rule hrule e he
    refine converts_replaceRepetitions ?_ (hflat rule hrule e he)
    exact fun name hname => OrderedMap.contains_iff.mp (hdefined rule hrule e he name hname)
  rcases outcome_pass (fun _ hrows => hrows.accounts) (Ledger.rows_ofGrammar g) contracted_stable
    hconvert with ⟨houtcome, ledger, hrows, hledger⟩
  refine houtcome.language_eq contracted_sound ?_ ?_ hsymbol
  · intro intro hintro text htext
    rw [← hledger] at hintro
    rcases hrows.row intro (List.mem_reverse.mp hintro) text htext with ⟨names, hnames, rfl⟩
    rw [extendedReading_readsRows names hnames, plainReading_readsRows names hnames]
  · intro x es e hes he
    apply within_extendedReading
    exact hdefined _ (OrderedMap.get?_eq_some_iff.mp hes) e he

end Normalization

/--
Each symbol of the grammar derives the same words before normalization, with operators
behind references and groups, and after it, with no operators at all.
-/
theorem Grammar.language_normalize {g : Grammar} (h : g.Normalizable) {symbol : Word}
    (hsymbol : g.defines symbol = true) :
    g.normalize.language plainReading symbol = g.language extendedReading symbol := by
  have hgroups := outcome_groupPass h
  have hdefines : (groupPass g).1.defines symbol = true :=
    hgroups.1.defines_of_mem (List.mem_append_right _ (OrderedMap.contains_iff.mp hsymbol))
  calc
    g.normalize.language plainReading symbol
        = (operatorPass (groupPass g).1).1.language plainReading symbol := rfl
    _ = (groupPass g).1.language extendedReading symbol :=
        language_operatorPass (fun _ hrule _ he => (flat_of_mem_groupPass h hrule he).1)
          (fun _ hrule _ he => (flat_of_mem_groupPass h hrule he).2) hdefines
    _ = g.language extendedReading symbol := language_groupPass h hsymbol

def separatedGrammar : Grammar :=
  .ofRules [(startSymbol, [⟨['<', 'a', '>', '(', ',', '<', 'a', '>', ')', '*'], .empty⟩]),
    (['<', 'a', '>'], [⟨['x'], .empty⟩, ⟨['y', '?'], .empty⟩])]

theorem separatedGrammar_language_normalize :
    separatedGrammar.Normalizable ∧ separatedGrammar.defines startSymbol = true ∧
      separatedGrammar.normalize.language plainReading startSymbol =
        separatedGrammar.language extendedReading startSymbol := by
  have hnormalizable : separatedGrammar.Normalizable := ⟨by decide, by decide⟩
  have hstart : separatedGrammar.defines startSymbol = true := by decide
  exact ⟨hnormalizable, hstart, Grammar.language_normalize hnormalizable hstart⟩

end GrammarFuzz
