import GrammarFuzz.Grammar.Loading
import GrammarFuzz.Proofs.Reachability
import Mathlib.Data.List.Sort

/-!
# What validation accepts

Validation compares sorted lists of symbols.  Sorted lists without repetitions are
equal if they have the same members, so that its verdict can be stated without them:
a grammar is valid if every rule has an alternative, the start symbol and all
references are defined, and chains of references lead to every defined symbol.
-/

namespace GrammarFuzz

/-!
## Sorted sets
-/

namespace Word

theorem pairwise_insertSorted {x : Word} {words : List Word} (h : words.Pairwise (· < ·)) :
    (insertSorted x words).Pairwise (· < ·) := by
  induction words with
  | nil => exact List.pairwise_singleton _ _
  | cons y rest ih =>
      rw [List.pairwise_cons] at h
      by_cases hxy : x = y
      · rw [insertSorted, if_pos hxy]
        exact List.pairwise_cons.mpr h
      · by_cases hlt : x < y
        · rw [insertSorted, if_neg hxy, if_pos hlt]
          refine List.pairwise_cons.mpr ⟨?_, List.pairwise_cons.mpr h⟩
          intro z hz
          rcases List.mem_cons.mp hz with rfl | hz
          · exact hlt
          · exact List.lt_trans hlt (h.1 z hz)
        · rw [insertSorted, if_neg hxy, if_neg hlt]
          refine List.pairwise_cons.mpr ⟨?_, ih h.2⟩
          intro z hz
          rcases mem_insertSorted.mp hz with rfl | hz
          · by_contra hnot
            exact hxy (Std.Trichotomous.trichotomous _ _ hlt hnot)
          · exact h.1 z hz

theorem pairwise_sortedSet (words : List Word) : (sortedSet words).Pairwise (· < ·) := by
  induction words with
  | nil => exact .nil
  | cons x words ih => exact pairwise_insertSorted ih

theorem nodup_sortedSet (words : List Word) : (sortedSet words).Nodup := by
  refine (pairwise_sortedSet words).imp ?_
  intro x y hlt heq
  subst heq
  exact List.lt_irrefl x hlt

theorem sortedSet_eq_iff {xs ys : List Word} :
    sortedSet xs = sortedSet ys ↔ ∀ x, x ∈ xs ↔ x ∈ ys := by
  constructor
  · intro h x
    rw [← mem_sortedSet, h, mem_sortedSet]
  · intro h
    apply List.Pairwise.eq_of_mem_iff (pairwise_sortedSet xs) (pairwise_sortedSet ys)
    intro x
    rw [mem_sortedSet, mem_sortedSet]
    exact h x

end Word

/-!
## Valid grammars
-/

namespace Grammar

variable {g : Grammar} {start : Word}

structure Valid (g : Grammar) (start : Word) : Prop where
  alternatives : ∀ rule ∈ g.rules.entries, rule.2 ≠ []
  root : g.defines start = true
  defined : ∀ e ∈ g.expansions, ∀ symbol ∈ e.references, g.defines symbol = true
  reached : ∀ symbol, g.defines symbol = true →
    ∃ origin ∈ g.origins start, g.Reaches origin symbol

theorem mem_origins_iff {symbol : Word} :
    symbol ∈ g.origins start ↔
      symbol = start ∨ symbol = startSymbol ∧ g.defines startSymbol = true := by
  unfold origins
  by_cases hdefines : g.defines startSymbol = true
  · by_cases hstart : start = startSymbol
    · rw [hstart, bne_self_eq_false, Bool.and_false, if_neg Bool.false_ne_true,
        List.mem_singleton]
      exact ⟨Or.inl, fun h => h.elim id And.left⟩
    · simp [hdefines, hstart]
  · simp [hdefines]

theorem mem_definedSymbols {symbol : Word} :
    symbol ∈ g.definedSymbols ↔ g.defines symbol = true := by
  rw [definedSymbols, Word.mem_sortedSet, defines, OrderedMap.contains_iff]
  rfl

theorem mem_usedSymbols {symbol : Word} :
    symbol ∈ g.usedSymbols start ↔
      symbol = start ∨ ∃ e ∈ g.expansions, symbol ∈ e.references := by
  rw [usedSymbols, Word.mem_sortedSet, List.mem_cons, List.mem_flatMap]

theorem mem_countedAsUsed {symbol : Word} :
    symbol ∈ g.countedAsUsed start ↔
      symbol ∈ g.origins start ∨ ∃ e ∈ g.expansions, symbol ∈ e.references := by
  rw [mem_origins_iff, countedAsUsed]
  by_cases hdefines : g.defines startSymbol = true
  · rw [if_pos hdefines, Word.mem_insertSorted, mem_usedSymbols]
    simp only [hdefines, and_true]
    exact or_assoc.symm.trans (or_congr_left or_comm)
  · rw [if_neg hdefines, mem_usedSymbols]
    simp [hdefines]

theorem exists_countedAsUsed_eq (g : Grammar) (start : Word) :
    ∃ words, g.countedAsUsed start = Word.sortedSet words := by
  unfold countedAsUsed
  split
  · exact ⟨startSymbol :: start :: g.expansions.flatMap Expansion.references, rfl⟩
  · exact ⟨_, rfl⟩

theorem countedAsUsed_eq_definedSymbols_iff :
    g.countedAsUsed start = g.definedSymbols ↔
      ∀ symbol, symbol ∈ g.countedAsUsed start ↔ g.defines symbol = true := by
  rcases exists_countedAsUsed_eq g start with ⟨words, hwords⟩
  rw [hwords, definedSymbols, Word.sortedSet_eq_iff]
  apply forall_congr'
  intro symbol
  rw [Word.mem_sortedSet, defines, OrderedMap.contains_iff]
  rfl

theorem lostSymbols_eq_nil_iff :
    g.lostSymbols start = [] ↔
      ∀ symbol, g.defines symbol = true → ∃ origin ∈ g.origins start, g.Reaches origin symbol := by
  rw [lostSymbols, List.filter_eq_nil_iff]
  simp [mem_definedSymbols, mem_reachable_iff]

theorem hasEmptyExpansions_eq_false_iff :
    g.hasEmptyExpansions = false ↔ ∀ rule ∈ g.rules.entries, rule.2 ≠ [] := by
  simp [hasEmptyExpansions, OrderedMap.values]

theorem Reaches.referenced {origin symbol : Word} (h : g.Reaches origin symbol) :
    symbol = origin ∨ ∃ e ∈ g.expansions, symbol ∈ e.references := by
  rcases Relation.ReflTransGen.cases_tail h with rfl | ⟨_, _, alternatives, e, hrule, he, hsymbol⟩
  · exact Or.inl rfl
  · exact Or.inr ⟨e, mem_expansions_iff.mpr ⟨_, alternatives, hrule, he⟩, hsymbol⟩

theorem isValid_iff {supported : Option (List Word)} :
    g.isValid start supported = true ↔ g.Valid start := by
  unfold isValid validate
  cases hempty : g.hasEmptyExpansions with
  | true =>
      have hnot : ¬ ∀ rule ∈ g.rules.entries, rule.2 ≠ [] := by
        rw [← hasEmptyExpansions_eq_false_iff, hempty]
        exact Bool.noConfusion
      constructor
      · intro h
        cases h
      · exact fun h => absurd h.alternatives hnot
  | false =>
      simp only [Bool.false_eq_true, if_false, Bool.and_eq_true, beq_iff_eq,
        List.isEmpty_iff, countedAsUsed_eq_definedSymbols_iff, lostSymbols_eq_nil_iff]
      constructor
      · intro h
        have hused : ∀ symbol, _ → g.defines symbol = true := fun symbol hsymbol =>
          (h.1 symbol).mp (mem_countedAsUsed.mpr hsymbol)
        exact ⟨hasEmptyExpansions_eq_false_iff.mp hempty,
          hused start (Or.inl (mem_origins_iff.mpr (Or.inl rfl))),
          fun e he symbol hsymbol => hused symbol (Or.inr ⟨e, he, hsymbol⟩), h.2⟩
      · intro h
        refine ⟨fun symbol => ?_, h.reached⟩
        rw [mem_countedAsUsed]
        constructor
        · intro hused
          rcases hused with horigin | ⟨e, he, hsymbol⟩
          · rcases mem_origins_iff.mp horigin with rfl | ⟨rfl, hdefines⟩
            · exact h.root
            · exact hdefines
          · exact h.defined e he symbol hsymbol
        · intro hdefines
          rcases h.reached symbol hdefines with ⟨origin, horigin, hreaches⟩
          rcases hreaches.referenced with rfl | hreferenced
          · exact Or.inl horigin
          · exact Or.inr hreferenced

/-!
## Building
-/

theorem toExcept_validate {supported : Option (List Word)} :
    (g.validate start supported).toExcept = .ok () ↔ g.Valid start := by
  rw [← @isValid_iff g start supported, isValid]
  cases hempty : g.hasEmptyExpansions with
  | true =>
      have hvalid : (g.validate start supported).isValid = false := by
        simp [validate, hempty]
      rw [Assessment.toExcept, hvalid]
      cases (g.validate start supported).findings.find? Finding.isStructural with
      | none => simp
      | some finding => simp
  | false =>
      have hnone : (g.validate start supported).findings.find? Finding.isStructural = none := by
        simp [validate, hempty, List.find?_eq_none, Finding.isStructural]
      rw [Assessment.toExcept, hnone]
      cases (g.validate start supported).isValid with
      | true => simp
      | false => simp

theorem merge_empty (g : Grammar) : empty.merge g = .ok g := by
  have hnone : g.symbols.find? empty.defines = none :=
    List.find?_eq_none.mpr fun _ _ => Bool.false_ne_true
  rw [merge, hnone]
  exact congrArg Except.ok (eq_of_entries_eq (OrderedMap.entries_ofList g.rules.nodup))

end Grammar

namespace LoadOptions

variable {options : LoadOptions}

theorem build_eq_ok_iff {g g' : Grammar} :
    (options.build g).1 = .ok g' ↔
      g.defines options.start = true ∧ g' = (options.prepare g).1 ∧ g'.Valid options.start := by
  unfold build
  by_cases hstart : g.defines options.start = true
  · rw [if_pos hstart]
    dsimp only
    cases hverdict :
        ((options.prepare g).1.validate options.start options.supported).toExcept with
    | error e =>
        constructor
        · intro h
          cases h
        · intro h
          rcases h with ⟨_, rfl, hvalid⟩
          rw [Grammar.toExcept_validate.mpr hvalid] at hverdict
          cases hverdict
    | ok verdict =>
        have hvalid := Grammar.toExcept_validate.mp hverdict
        constructor
        · intro h
          cases h
          exact ⟨hstart, rfl, hvalid⟩
        · intro h
          rcases h with ⟨_, rfl, _⟩
          rfl
  · rw [if_neg hstart]
    constructor
    · intro h
      cases h
    · exact fun h => absurd h.1 hstart

theorem load_singleton {source : Source} {g : Grammar} (h : source.read = .ok g) :
    options.load [source] = options.build g := by
  have hmerged : Source.mergeAll .empty [source] = .ok g := by
    rw [Source.mergeAll, Source.mergeInto, h]
    dsimp only
    rw [Grammar.merge_empty]
    rfl
  rw [load, hmerged]

end LoadOptions
end GrammarFuzz
