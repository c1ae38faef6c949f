import GrammarFuzz.Proofs.Validation

/-!
# What validation reports

Each kind of finding has its circumstances, which are stated without reference to the
sorted lists and the search that validation works with.  Validation reports the findings
that are due, each of them once, and its verdict can be read off from them: a grammar is
valid if nothing but unsupported options has been found.
-/

namespace GrammarFuzz
namespace Grammar

variable {g : Grammar} {start : Word} {supported : Option (List Word)}

def Broken (g : Grammar) : Prop :=
  ∃ symbol, g.expansions? symbol = some []

def Mentions (g : Grammar) (symbol : Word) : Prop :=
  ∃ e ∈ g.expansions, symbol ∈ e.references

def Carries (g : Grammar) (key : Word) : Prop :=
  ∃ e ∈ g.expansions, key ∈ e.options.keys

/-- The circumstances in which a finding is due. -/
def Warrants (g : Grammar) (start : Word) (supported : Option (List Word)) : Finding → Prop
  | .emptyExpansions symbol => g.expansions? symbol = some []
  | .definedNotUsed symbol => ¬ g.Broken ∧ g.defines symbol = true ∧ ¬ g.Mentions symbol ∧
      symbol ≠ start ∧ symbol ≠ startSymbol
  | .usedNotDefined symbol => ¬ g.Broken ∧ g.defines symbol = false ∧
      (symbol = start ∨ g.Mentions symbol)
  | .unreachable symbol origin => ¬ g.Broken ∧ g.defines symbol = true ∧
      ¬ g.Reaches start symbol ∧ (g.defines startSymbol = true → ¬ g.Reaches startSymbol symbol) ∧
      origin = g.originText start
  | .unsupportedOption key => ¬ g.Broken ∧ g.Carries key ∧
      ∃ keys, supported = some keys ∧ key ∉ keys

/-!
## The lists of validation
-/

theorem hasEmptyExpansions_iff : g.hasEmptyExpansions = true ↔ g.Broken := by
  simp [hasEmptyExpansions, OrderedMap.values, Broken, expansions?, OrderedMap.get?_eq_some_iff]

theorem mem_lostSymbols {symbol : Word} :
    symbol ∈ g.lostSymbols start ↔ g.defines symbol = true ∧ ¬ g.Reaches start symbol ∧
      (g.defines startSymbol = true → ¬ g.Reaches startSymbol symbol) := by
  have hlost : symbol ∈ g.lostSymbols start ↔
      g.defines symbol = true ∧ ∀ origin ∈ g.origins start, ¬ g.Reaches origin symbol := by
    simp [lostSymbols, mem_definedSymbols, mem_reachable_iff]
  rw [hlost]
  refine and_congr_right fun _ => ?_
  constructor
  · intro h
    refine ⟨h start (mem_origins_iff.mpr (Or.inl rfl)), fun hdefines => ?_⟩
    exact h startSymbol (mem_origins_iff.mpr (Or.inr ⟨rfl, hdefines⟩))
  · intro h origin horigin
    rcases mem_origins_iff.mp horigin with rfl | ⟨rfl, hdefines⟩
    · exact h.1
    · exact h.2 hdefines

theorem mem_unused {symbol : Word} :
    symbol ∈ g.definedSymbols.filter (fun symbol => !(g.countedAsUsed start).contains symbol) ↔
      g.defines symbol = true ∧ ¬ g.Mentions symbol ∧ symbol ≠ start ∧ symbol ≠ startSymbol := by
  have hunused : symbol ∈ g.definedSymbols.filter
      (fun symbol => !(g.countedAsUsed start).contains symbol) ↔
        g.defines symbol = true ∧ symbol ∉ g.countedAsUsed start := by
    simp [mem_definedSymbols]
  rw [hunused, mem_countedAsUsed, mem_origins_iff, not_or, not_or]
  refine and_congr_right fun hdefines => ?_
  constructor
  · intro h
    refine ⟨h.2, h.1.1, ?_⟩
    intro heq
    exact h.1.2 ⟨heq, heq ▸ hdefines⟩
  · intro h
    exact ⟨⟨h.2.1, fun hstart => h.2.2 hstart.1⟩, h.1⟩

theorem mem_undefined {symbol : Word} :
    symbol ∈ (g.countedAsUsed start).filter (fun symbol => !g.definedSymbols.contains symbol) ↔
      g.defines symbol = false ∧ (symbol = start ∨ g.Mentions symbol) := by
  have hundefined : symbol ∈ (g.countedAsUsed start).filter
      (fun symbol => !g.definedSymbols.contains symbol) ↔
        symbol ∈ g.countedAsUsed start ∧ g.defines symbol = false := by
    simp [mem_definedSymbols]
  rw [hundefined, mem_countedAsUsed, mem_origins_iff, and_comm]
  refine and_congr_right fun hdefines => or_congr_left ?_
  constructor
  · intro h
    rcases h with rfl | ⟨rfl, hstart⟩
    · rfl
    · rw [hdefines] at hstart
      cases hstart
  · exact Or.inl

theorem mem_unsupportedOptions {key : Word} :
    key ∈ g.unsupportedOptions supported ↔
      g.Carries key ∧ ∃ keys, supported = some keys ∧ key ∉ keys := by
  cases supported with
  | none => simp [unsupportedOptions]
  | some keys => simp [unsupportedOptions, usedOptions, Word.mem_sortedSet, Carries]

/-!
## What is found
-/

theorem mem_emptyExpansionFindings {finding : Finding} :
    finding ∈ g.emptyExpansionFindings ↔
      ∃ symbol, g.expansions? symbol = some [] ∧ finding = .emptyExpansions symbol := by
  simp only [emptyExpansionFindings, expansions?, OrderedMap.get?_eq_some_iff, List.mem_map,
    List.mem_filter, List.isEmpty_iff]
  constructor
  · intro h
    rcases h with ⟨⟨symbol, alternatives⟩, ⟨hrule, rfl⟩, rfl⟩
    exact ⟨symbol, hrule, rfl⟩
  · intro h
    rcases h with ⟨symbol, hrule, rfl⟩
    exact ⟨(symbol, []), ⟨hrule, rfl⟩, rfl⟩

theorem validate_of_broken (h : g.Broken) :
    g.validate start supported = ⟨g.emptyExpansionFindings, false⟩ := by
  rw [validate, if_pos (hasEmptyExpansions_iff.mpr h)]

theorem findings_of_not_broken (h : ¬ g.Broken) :
    (g.validate start supported).findings =
      (g.definedSymbols.filter fun symbol => !(g.countedAsUsed start).contains symbol).map
          .definedNotUsed ++
        ((g.countedAsUsed start).filter fun symbol => !g.definedSymbols.contains symbol).map
          .usedNotDefined ++
        (g.lostSymbols start).map (fun symbol => .unreachable symbol (g.originText start)) ++
        (g.unsupportedOptions supported).map .unsupportedOption := by
  rw [validate, if_neg (mt hasEmptyExpansions_iff.mp h)]

theorem mem_findings_iff {finding : Finding} :
    finding ∈ (g.validate start supported).findings ↔ g.Warrants start supported finding := by
  by_cases hbroken : g.Broken
  · rw [validate_of_broken hbroken, mem_emptyExpansionFindings]
    cases finding with
    | emptyExpansions symbol => simp [Warrants]
    | definedNotUsed symbol => simp [Warrants, hbroken]
    | usedNotDefined symbol => simp [Warrants, hbroken]
    | unreachable symbol origin => simp [Warrants, hbroken]
    | unsupportedOption key => simp [Warrants, hbroken]
  · rw [findings_of_not_broken hbroken]
    simp only [List.mem_append, List.mem_map, mem_unused, mem_undefined, mem_lostSymbols,
      mem_unsupportedOptions]
    cases finding with
    | emptyExpansions symbol =>
        have hnone : g.expansions? symbol ≠ some [] := fun h => hbroken ⟨symbol, h⟩
        simp [Warrants, hnone]
    | definedNotUsed symbol => simp [Warrants, hbroken]
    | usedNotDefined symbol => simp [Warrants, hbroken]
    | unreachable symbol origin => simp [Warrants, hbroken, and_assoc, @eq_comm _ origin]
    | unsupportedOption key => simp [Warrants, hbroken]

/-!
## Once each
-/

theorem nodup_emptyExpansionFindings : g.emptyExpansionFindings.Nodup := by
  have hkeys : ((g.rules.entries.filter fun rule => rule.2.isEmpty).map Prod.fst).Nodup :=
    (List.filter_sublist.map Prod.fst).nodup g.rules.nodup
  have hfindings := hkeys.map fun _ _ => Finding.emptyExpansions.inj
  rwa [List.map_map] at hfindings

theorem nodup_countedAsUsed (g : Grammar) (start : Word) : (g.countedAsUsed start).Nodup := by
  rcases exists_countedAsUsed_eq g start with ⟨words, hwords⟩
  rw [hwords]
  exact Word.nodup_sortedSet words

theorem nodup_unsupportedOptions (g : Grammar) (supported : Option (List Word)) :
    (g.unsupportedOptions supported).Nodup := by
  cases supported with
  | none => exact List.nodup_nil
  | some keys => exact (Word.nodup_sortedSet _).filter _

theorem disjoint_map_of_ne {α β γ : Type} {f : α → γ} {h : β → γ} (hne : ∀ a b, f a ≠ h b)
    (xs : List α) (ys : List β) : List.Disjoint (xs.map f) (ys.map h) := by
  apply List.disjoint_left.mpr
  intro c hxs hys
  rcases List.mem_map.mp hxs with ⟨a, _, rfl⟩
  rcases List.mem_map.mp hys with ⟨b, _, heq⟩
  exact hne a b heq.symm

theorem nodup_findings (g : Grammar) (start : Word) (supported : Option (List Word)) :
    (g.validate start supported).findings.Nodup := by
  by_cases hbroken : g.Broken
  · rw [validate_of_broken hbroken]
    exact nodup_emptyExpansionFindings
  · have hdefined : g.definedSymbols.Nodup := Word.nodup_sortedSet _
    have hunused := (hdefined.filter fun symbol => !(g.countedAsUsed start).contains symbol).map
      fun _ _ => Finding.definedNotUsed.inj
    have hundefined := ((nodup_countedAsUsed g start).filter
      fun symbol => !g.definedSymbols.contains symbol).map fun _ _ => Finding.usedNotDefined.inj
    have hlost : ((g.lostSymbols start).map
        fun symbol => Finding.unreachable symbol (g.originText start)).Nodup :=
      (hdefined.filter _).map fun _ _ heq => (Finding.unreachable.inj heq).1
    have hoptions := (nodup_unsupportedOptions g supported).map
      fun _ _ => Finding.unsupportedOption.inj
    rw [findings_of_not_broken hbroken]
    refine ((hunused.append hundefined ?_).append hlost ?_).append hoptions ?_
    · exact disjoint_map_of_ne (fun _ _ => Finding.noConfusion) _ _
    · rw [List.disjoint_append_left]
      exact ⟨disjoint_map_of_ne (fun _ _ => Finding.noConfusion) _ _,
        disjoint_map_of_ne (fun _ _ => Finding.noConfusion) _ _⟩
    · rw [List.disjoint_append_left, List.disjoint_append_left]
      exact ⟨⟨disjoint_map_of_ne (fun _ _ => Finding.noConfusion) _ _,
        disjoint_map_of_ne (fun _ _ => Finding.noConfusion) _ _⟩,
        disjoint_map_of_ne (fun _ _ => Finding.noConfusion) _ _⟩

/-!
## The verdict
-/

theorem alternatives_iff : (∀ rule ∈ g.rules.entries, rule.2 ≠ []) ↔ ¬ g.Broken := by
  rw [← hasEmptyExpansions_eq_false_iff, ← hasEmptyExpansions_iff, Bool.not_eq_true]

theorem Valid.exists_of_warrants (h : g.Valid start) {finding : Finding}
    (hfinding : g.Warrants start supported finding) : ∃ key, finding = .unsupportedOption key := by
  have hbroken : ¬ g.Broken := alternatives_iff.mp h.alternatives
  cases finding with
  | emptyExpansions symbol => exact absurd ⟨symbol, hfinding⟩ hbroken
  | definedNotUsed symbol =>
      rcases hfinding with ⟨_, hdefines, hmentions, hstart, hconventional⟩
      rcases h.reached symbol hdefines with ⟨origin, horigin, hreaches⟩
      rcases hreaches.referenced with rfl | hreferenced
      · rcases mem_origins_iff.mp horigin with heq | heq
        · exact absurd heq hstart
        · exact absurd heq.1 hconventional
      · exact absurd hreferenced hmentions
  | usedNotDefined symbol =>
      rcases hfinding with ⟨_, hdefines, rfl | ⟨e, he, hsymbol⟩⟩
      · rw [h.root] at hdefines
        cases hdefines
      · rw [h.defined e he symbol hsymbol] at hdefines
        cases hdefines
  | unreachable symbol origin =>
      rcases hfinding with ⟨_, hdefines, hstart, hconventional, _⟩
      rcases h.reached symbol hdefines with ⟨origin, horigin, hreaches⟩
      rcases mem_origins_iff.mp horigin with rfl | ⟨rfl, hdefined⟩
      · exact absurd hreaches hstart
      · exact absurd hreaches (hconventional hdefined)
  | unsupportedOption key => exact ⟨key, rfl⟩

theorem valid_of_warrants (h : ∀ finding, g.Warrants start supported finding →
    ∃ key, finding = .unsupportedOption key) : g.Valid start := by
  have hnone : ∀ finding, g.Warrants start supported finding →
      (∀ key, finding ≠ .unsupportedOption key) → False := by
    intro finding hfinding hne
    rcases h finding hfinding with ⟨key, hkey⟩
    exact hne key hkey
  have hbroken : ¬ g.Broken := by
    intro hbroken
    rcases hbroken with ⟨symbol, hrule⟩
    exact hnone (.emptyExpansions symbol) hrule fun _ => Finding.noConfusion
  have hused : ∀ symbol, symbol = start ∨ g.Mentions symbol → g.defines symbol = true := by
    intro symbol hsymbol
    by_contra hdefines
    exact hnone (.usedNotDefined symbol) ⟨hbroken, Bool.eq_false_iff.mpr hdefines, hsymbol⟩
      fun _ => Finding.noConfusion
  refine ⟨alternatives_iff.mpr hbroken, hused start (Or.inl rfl), ?_, ?_⟩
  · exact fun e he symbol hsymbol => hused symbol (Or.inr ⟨e, he, hsymbol⟩)
  · intro symbol hdefines
    by_contra hunreached
    have hlost : ∀ origin ∈ g.origins start, ¬ g.Reaches origin symbol :=
      fun origin horigin hreaches => hunreached ⟨origin, horigin, hreaches⟩
    refine hnone (.unreachable symbol (g.originText start)) ⟨hbroken, hdefines, ?_, ?_, rfl⟩
      fun _ => Finding.noConfusion
    · exact hlost start (mem_origins_iff.mpr (Or.inl rfl))
    · exact fun hdefined => hlost startSymbol (mem_origins_iff.mpr (Or.inr ⟨rfl, hdefined⟩))

theorem isValid_iff_findings :
    (g.validate start supported).isValid = true ↔
      ∀ finding ∈ (g.validate start supported).findings,
        ∃ key, finding = .unsupportedOption key := by
  have hvalid : (g.validate start supported).isValid = true ↔ g.Valid start := isValid_iff
  rw [hvalid]
  constructor
  · exact fun h finding hfinding => h.exists_of_warrants (mem_findings_iff.mp hfinding)
  · exact fun h => valid_of_warrants fun finding hfinding =>
      h finding (mem_findings_iff.mpr hfinding)

theorem find?_isStructural_eq_none_iff :
    (g.validate start supported).findings.find? Finding.isStructural = none ↔ ¬ g.Broken := by
  rw [List.find?_eq_none]
  constructor
  · intro h hbroken
    rcases hbroken with ⟨symbol, hrule⟩
    exact h (.emptyExpansions symbol) (mem_findings_iff.mpr hrule) rfl
  · intro hbroken finding hfinding hstructural
    cases finding with
    | emptyExpansions symbol => exact hbroken ⟨symbol, mem_findings_iff.mp hfinding⟩
    | definedNotUsed symbol => cases hstructural
    | usedNotDefined symbol => cases hstructural
    | unreachable symbol origin => cases hstructural
    | unsupportedOption key => cases hstructural

theorem toExcept_of_broken (h : g.Broken) :
    ∃ symbol, g.expansions? symbol = some [] ∧
      (g.validate start supported).toExcept =
        .error (.malformed symbol (.found (.emptyExpansions symbol))) := by
  cases hfind : (g.validate start supported).findings.find? Finding.isStructural with
  | none => exact absurd h (find?_isStructural_eq_none_iff.mp hfind)
  | some finding =>
      have hfinding := mem_findings_iff.mp (List.mem_of_find?_eq_some hfind)
      have hstructural := List.find?_some hfind
      cases finding with
      | emptyExpansions symbol =>
          refine ⟨symbol, hfinding, ?_⟩
          rw [Assessment.toExcept, hfind]
          rfl
      | definedNotUsed symbol => cases hstructural
      | usedNotDefined symbol => cases hstructural
      | unreachable symbol origin => cases hstructural
      | unsupportedOption key => cases hstructural

theorem toExcept_of_not_broken (h : ¬ g.Broken) :
    (g.validate start supported).toExcept =
      if (g.validate start supported).isValid then .ok ()
      else .error (.invalid (g.validate start supported).findings) := by
  rw [Assessment.toExcept, find?_isStructural_eq_none_iff.mpr h]

/--
Validation is exact: it reports what is due and reports it once, its verdict is that
nothing but unsupported options has been found, and the verdict turns into the error that
the findings call for.
-/
theorem validate_exact (g : Grammar) (start : Word) (supported : Option (List Word)) :
    let assessment := g.validate start supported
    (∀ finding, finding ∈ assessment.findings ↔ g.Warrants start supported finding) ∧
      assessment.findings.Nodup ∧
      (assessment.isValid = true ↔
        ∀ finding ∈ assessment.findings, ∃ key, finding = .unsupportedOption key) ∧
      (assessment.toExcept = .ok () ↔ assessment.isValid = true) ∧
      (g.Broken → assessment.isValid = false ∧ ∃ symbol, g.expansions? symbol = some [] ∧
        assessment.toExcept = .error (.malformed symbol (.found (.emptyExpansions symbol)))) ∧
      (¬ g.Broken → assessment.isValid = false →
        assessment.toExcept = .error (.invalid assessment.findings)) := by
  intro assessment
  have hok : assessment.toExcept = .ok () ↔ assessment.isValid = true := by
    rw [toExcept_validate, ← @isValid_iff g start supported]
    rfl
  refine ⟨fun finding => mem_findings_iff, nodup_findings g start supported,
    isValid_iff_findings, hok, ?_, ?_⟩
  · intro hbroken
    refine ⟨?_, toExcept_of_broken hbroken⟩
    show (g.validate start supported).isValid = false
    rw [validate_of_broken hbroken]
  · intro hbroken hinvalid
    have hinvalid : ¬ (g.validate start supported).isValid = true := by
      rw [Bool.not_eq_true]
      exact hinvalid
    exact (toExcept_of_not_broken hbroken).trans (if_neg hinvalid)

end Grammar
end GrammarFuzz
