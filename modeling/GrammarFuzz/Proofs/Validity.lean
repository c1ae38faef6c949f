import GrammarFuzz.Generation.Growth
import GrammarFuzz.Proofs.Derivations
import GrammarFuzz.Proofs.Validation

/-!
# What the checks guarantee

In a grammar that passes the checks of a grower, the start symbol and all symbols that
some expansion refers to have alternatives.  Expanding nodes therefore never leads to
a symbol that cannot be expanded.
-/

namespace GrammarFuzz

namespace Grammar

def HasAlternatives (g : Grammar) (symbol : Word) : Prop :=
  ∃ alternatives, g.expansions? symbol = some alternatives ∧ alternatives ≠ []

/-- Whether all symbols that expanding the start symbol may lead to have alternatives. -/
structure Supports (g : Grammar) (start : Word) : Prop where
  start : g.HasAlternatives start
  references : ∀ e ∈ g.expansions, ∀ symbol ∈ e.references, g.HasAlternatives symbol

theorem Valid.hasAlternatives {g : Grammar} {start symbol : Word} (h : g.Valid start)
    (hsymbol : g.defines symbol = true) : g.HasAlternatives symbol := by
  rcases OrderedMap.contains_iff_exists.mp hsymbol with ⟨alternatives, hrule⟩
  have hentry := OrderedMap.get?_eq_some_iff.mp hrule
  exact ⟨alternatives, hrule, h.alternatives _ hentry⟩

theorem supports_of_isValid {g : Grammar} {start : Word} {supported : Option (List Word)}
    (h : (g.validate start supported).isValid = true) : g.Supports start := by
  have hvalid : g.Valid start := isValid_iff.mp h
  constructor
  · exact hvalid.hasAlternatives hvalid.root
  · intro e he symbol hsymbol
    exact hvalid.hasAlternatives (hvalid.defined e he symbol hsymbol)

theorem openSymbolsAll_childrenOf (text : Word) :
    Tree.openSymbolsAll (childrenOf text) = references text := by
  cases text with
  | nil => rfl
  | cons c text =>
      show Tree.openSymbolsAll ((GrammarFuzz.symbols (c :: text)).map Symbol.toTree) = _
      unfold GrammarFuzz.symbols references Segment.parts
      generalize Segment.split .angle (c :: text) = segments
      induction segments with
      | nil => rfl
      | cons s rest ih =>
          cases s with
          | plain text => exact ih
          | enclosed inner => exact congrArg (Brackets.angle.enclose inner :: ·) ih

theorem Supports.step {g : Grammar} {start : Word} (h : g.Supports start) {t t' : Tree}
    (hstep : Tree.Replaces g.Produces t t')
    (ht : ∀ symbol ∈ t.openSymbols, g.HasAlternatives symbol) :
    ∀ symbol ∈ t'.openSymbols, g.HasAlternatives symbol := by
  rcases hstep.openSymbols with ⟨name, u, before, behind, hproduces, hold, hnew⟩
  rcases hproduces with ⟨alternatives, e, hrule, he, rfl⟩
  intro symbol hsymbol
  rw [hnew, List.mem_append, List.mem_append] at hsymbol
  rw [hold] at ht
  rcases hsymbol with hsymbol | hsymbol | hsymbol
  · exact ht symbol (by simp [hsymbol])
  · rw [Tree.openSymbols, openSymbolsAll_childrenOf] at hsymbol
    exact h.references e (mem_expansions_iff.mpr ⟨_, _, hrule, he⟩) symbol hsymbol
  · exact ht symbol (by simp [hsymbol])

end Grammar

namespace Grower

variable {σ : Type}

theorem create_eq_ok {g : Grammar} {settings : GenerationSettings} {strategy : Strategy σ}
    {choices : σ} {created : Grower σ × State σ}
    (h : (create g settings strategy choices).1 = .ok created) :
    created = ofChecked g settings strategy choices ∧ g.Supports settings.start := by
  unfold create at h
  split at h
  · cases h
  · split at h
    · dsimp only at h
      split at h
      · cases h
      · rename_i hassessment
        constructor
        · exact (Except.ok.inj h).symm
        · unfold Assessment.toExcept at hassessment
          split at hassessment
          · cases hassessment
          · split at hassessment
            · rename_i hvalid
              exact Grammar.supports_of_isValid hvalid
            · cases hassessment
    · cases h

theorem create_of_valid {g : Grammar} {settings : GenerationSettings}
    (hbounds : settings.minNonterminals ≤ settings.maxNonterminals)
    (hvalid : g.Valid settings.start) (strategy : Strategy σ) (choices : σ) :
    (create g settings strategy choices).1 = .ok (ofChecked g settings strategy choices) := by
  have hchecked : settings.checkBounds = .ok () := by
    rw [GenerationSettings.checkBounds, if_neg (Nat.not_lt.mpr hbounds)]
  have hverdict : (g.validate settings.start (some strategy.supportedOptions)).toExcept = .ok () :=
    Grammar.toExcept_validate.mpr hvalid
  unfold create
  rw [hchecked]
  dsimp only
  rw [if_pos hvalid.root, hverdict]

theorem valid_of_create {g : Grammar} {settings : GenerationSettings} {strategy : Strategy σ}
    {choices : σ} {created : Grower σ × State σ}
    (h : (create g settings strategy choices).1 = .ok created) : g.Valid settings.start := by
  unfold create at h
  split at h
  · cases h
  · split at h
    · dsimp only at h
      split at h
      · cases h
      · rename_i hverdict
        exact Grammar.toExcept_validate.mp hverdict
    · cases h

end Grower
end GrammarFuzz
