import GrammarFuzz.Proofs.Findings
import Mathlib.Data.List.Perm.Subperm

/-!
# Validation of equal grammars

Equal grammars have equal rules, maybe in another order.  Whether a finding is due does not
depend on that order, so the findings of equal grammars are the same; and where at most one
rule is empty, the findings are sorted by their kinds and then by their subjects, so that they
come in the same order as well.  Several empty rules are reported as they come.
-/

namespace GrammarFuzz

/-!
## Maps that agree
-/

namespace OrderedMap

variable {β : Type} {same : β → β → Bool} {a b : OrderedMap β}

theorem get?_eq_none_iff {key : Word} : a.get? key = none ↔ key ∉ a.keys := by
  rw [← contains_iff, contains_iff_exists, Option.eq_none_iff_forall_ne_some]
  exact not_exists.symm

theorem exists_of_agree (h : agree same a b = true) {key : Word} {v : β}
    (hv : a.get? key = some v) : ∃ w, b.get? key = some w ∧ same v w = true := by
  rw [agree, Bool.and_eq_true, List.all_eq_true] at h
  have hentry := h.2 (key, v) (get?_eq_some_iff.mp hv)
  dsimp only at hentry
  cases hw : b.get? key with
  | none =>
      rw [hw] at hentry
      cases hentry
  | some w =>
      rw [hw] at hentry
      exact ⟨w, rfl, hentry⟩

theorem mem_keys_iff_exists {key : Word} : key ∈ a.keys ↔ ∃ v, a.get? key = some v := by
  rw [← contains_iff, contains_iff_exists]

theorem keys_perm_of_agree (h : agree same a b = true) : a.keys.Perm b.keys := by
  have hsubset : a.keys ⊆ b.keys := by
    intro key hkey
    rcases mem_keys_iff_exists.mp hkey with ⟨v, hv⟩
    rcases exists_of_agree h hv with ⟨w, hw, _⟩
    exact mem_keys_iff_exists.mpr ⟨w, hw⟩
  have hsize : a.size = b.size := by
    rw [agree, Bool.and_eq_true, beq_iff_eq] at h
    exact h.1
  have hlength : b.keys.length ≤ a.keys.length := by
    rw [keys, keys, List.length_map, List.length_map]
    exact Nat.le_of_eq hsize.symm
  exact (List.subperm_of_subset a.nodup hsubset).perm_of_length_le hlength

theorem rel_of_agree {R : β → β → Prop} (hsame : ∀ {v w}, same v w = true → R v w)
    (h : agree same a b = true) (key : Word) : Option.Rel R (a.get? key) (b.get? key) := by
  cases hv : a.get? key with
  | none =>
      have hnone : b.get? key = none := by
        rw [get?_eq_none_iff, ← (keys_perm_of_agree h).mem_iff]
        exact get?_eq_none_iff.mp hv
      rw [hnone]
      exact .none
  | some v =>
      rcases exists_of_agree h hv with ⟨w, hw, hvw⟩
      rw [hw]
      exact .some (hsame hvw)

end OrderedMap

/-!
## Grammars that coincide
-/

/-- Expansions with the same text and the same keys of options. -/
structure Expansion.Coincides (e e' : Expansion) : Prop where
  text : e.text = e'.text
  keys : ∀ key, key ∈ e.options.keys ↔ key ∈ e'.options.keys

theorem Expansion.Coincides.symm {e e' : Expansion} (h : e.Coincides e') : e'.Coincides e :=
  ⟨h.text.symm, fun key => (h.keys key).symm⟩

theorem Expansion.Coincides.references_eq {e e' : Expansion} (h : e.Coincides e') :
    e.references = e'.references := by
  rw [references, references, h.text]

theorem Expansion.coincides_of_same {e e' : Expansion} (h : Expansion.same e e' = true) :
    e.Coincides e' := by
  rw [Expansion.same, Bool.and_eq_true, beq_iff_eq] at h
  exact ⟨h.1, fun key => (OrderedMap.keys_perm_of_agree h.2).mem_iff⟩

theorem Expansion.forall₂_of_sameAll {es es' : List Expansion}
    (h : Expansion.sameAll es es' = true) : List.Forall₂ Expansion.Coincides es es' := by
  induction es generalizing es' with
  | nil =>
      cases es' with
      | nil => exact .nil
      | cons e' es' => cases h
  | cons e es ih =>
      cases es' with
      | nil => cases h
      | cons e' es' =>
          rw [Expansion.sameAll, Bool.and_eq_true] at h
          exact .cons (Expansion.coincides_of_same h.1) (ih h.2)

namespace Grammar

variable {a b : Grammar} {start : Word} {supported : Option (List Word)}

def Coincides (a b : Grammar) : Prop :=
  ∀ symbol, Option.Rel (List.Forall₂ Expansion.Coincides) (a.expansions? symbol)
    (b.expansions? symbol)

theorem coincides_of_same (h : a.same b = true) : a.Coincides b :=
  OrderedMap.rel_of_agree Expansion.forall₂_of_sameAll h

namespace Coincides

theorem symm (h : a.Coincides b) : b.Coincides a := by
  intro symbol
  have hrel := h symbol
  revert hrel
  generalize a.expansions? symbol = rule
  generalize b.expansions? symbol = rule'
  intro hrel
  cases hrel with
  | none => exact .none
  | some hall => exact .some (List.Forall₂.flip (hall.imp fun _ _ => Expansion.Coincides.symm))

theorem exists_rule (h : a.Coincides b) {symbol : Word} {alternatives : List Expansion}
    (hrule : a.expansions? symbol = some alternatives) :
    ∃ alternatives', b.expansions? symbol = some alternatives' ∧
      List.Forall₂ Expansion.Coincides alternatives alternatives' := by
  have hrel := h symbol
  rw [hrule] at hrel
  cases hrule' : b.expansions? symbol with
  | none =>
      rw [hrule'] at hrel
      cases hrel
  | some alternatives' =>
      rw [hrule', Option.rel_some_some] at hrel
      exact ⟨alternatives', rfl, hrel⟩

theorem exists_alternative (h : a.Coincides b) {symbol : Word} {alternatives : List Expansion}
    (hrule : a.expansions? symbol = some alternatives) {e : Expansion} (he : e ∈ alternatives) :
    ∃ alternatives' e', b.expansions? symbol = some alternatives' ∧ e' ∈ alternatives' ∧
      e.Coincides e' := by
  rcases h.exists_rule hrule with ⟨alternatives', hrule', hall⟩
  rw [List.forall₂_iff_get] at hall
  rcases List.mem_iff_get.mp he with ⟨i, rfl⟩
  have hi : i < alternatives'.length := hall.1 ▸ i.isLt
  exact ⟨alternatives', _, hrule', List.get_mem alternatives' ⟨i, hi⟩, hall.2 i i.isLt hi⟩

theorem exists_expansion (h : a.Coincides b) {e : Expansion} (he : e ∈ a.expansions) :
    ∃ e' ∈ b.expansions, e.Coincides e' := by
  rcases mem_expansions_iff.mp he with ⟨symbol, alternatives, hrule, he⟩
  rcases h.exists_alternative hrule he with ⟨alternatives', e', hrule', he', hcoincide⟩
  exact ⟨e', mem_expansions_iff.mpr ⟨symbol, alternatives', hrule', he'⟩, hcoincide⟩

/-!
## What is due
-/

theorem defines_eq (h : a.Coincides b) (symbol : Word) : a.defines symbol = b.defines symbol := by
  have himp : ∀ {a b : Grammar}, a.Coincides b → a.defines symbol = true →
      b.defines symbol = true := by
    intro a b h hdefines
    rcases OrderedMap.contains_iff_exists.mp hdefines with ⟨alternatives, hrule⟩
    rcases h.exists_rule hrule with ⟨alternatives', hrule', _⟩
    exact OrderedMap.contains_iff_exists.mpr ⟨alternatives', hrule'⟩
  exact Bool.eq_iff_iff.mpr ⟨himp h, himp h.symm⟩

theorem empty (h : a.Coincides b) {symbol : Word} (hrule : a.expansions? symbol = some []) :
    b.expansions? symbol = some [] := by
  rcases h.exists_rule hrule with ⟨alternatives', hrule', hall⟩
  cases hall
  exact hrule'

theorem broken (h : a.Coincides b) (hbroken : a.Broken) : b.Broken := by
  rcases hbroken with ⟨symbol, hrule⟩
  exact ⟨symbol, h.empty hrule⟩

theorem mentions (h : a.Coincides b) {symbol : Word} (hmentions : a.Mentions symbol) :
    b.Mentions symbol := by
  rcases hmentions with ⟨e, he, hsymbol⟩
  rcases h.exists_expansion he with ⟨e', he', hcoincide⟩
  exact ⟨e', he', hcoincide.references_eq ▸ hsymbol⟩

theorem carries (h : a.Coincides b) {key : Word} (hcarries : a.Carries key) : b.Carries key := by
  rcases hcarries with ⟨e, he, hkey⟩
  rcases h.exists_expansion he with ⟨e', he', hcoincide⟩
  exact ⟨e', he', (hcoincide.keys key).mp hkey⟩

theorem reaches (h : a.Coincides b) {origin symbol : Word} (hreaches : a.Reaches origin symbol) :
    b.Reaches origin symbol := by
  induction hreaches with
  | refl => exact .refl
  | tail _ hrefers ih =>
      rcases hrefers with ⟨alternatives, e, hrule, he, hsymbol⟩
      rcases h.exists_alternative hrule he with ⟨alternatives', e', hrule', he', hcoincide⟩
      exact ih.tail ⟨alternatives', e', hrule', he', hcoincide.references_eq ▸ hsymbol⟩

theorem originText_eq (h : a.Coincides b) (start : Word) :
    a.originText start = b.originText start := by
  rw [originText, originText, origins, origins, h.defines_eq]

theorem warrants (h : a.Coincides b) {finding : Finding}
    (hfinding : a.Warrants start supported finding) : b.Warrants start supported finding := by
  have hbroken : ¬ a.Broken → ¬ b.Broken := mt h.symm.broken
  cases finding with
  | emptyExpansions symbol => exact h.empty hfinding
  | definedNotUsed symbol =>
      rcases hfinding with ⟨hsound, hdefines, hmentions, hne⟩
      exact ⟨hbroken hsound, h.defines_eq symbol ▸ hdefines, mt h.symm.mentions hmentions, hne⟩
  | usedNotDefined symbol =>
      rcases hfinding with ⟨hsound, hdefines, hused⟩
      exact ⟨hbroken hsound, h.defines_eq symbol ▸ hdefines, hused.imp_right h.mentions⟩
  | unreachable symbol origin =>
      rcases hfinding with ⟨hsound, hdefines, hstart, hconventional, rfl⟩
      refine ⟨hbroken hsound, h.defines_eq symbol ▸ hdefines, mt h.symm.reaches hstart, ?_,
        h.originText_eq start⟩
      intro hdefined
      exact mt h.symm.reaches (hconventional (h.defines_eq startSymbol ▸ hdefined))
  | unsupportedOption key =>
      rcases hfinding with ⟨hsound, hcarries, hkeys⟩
      exact ⟨hbroken hsound, h.carries hcarries, hkeys⟩

theorem mem_findings_iff (h : a.Coincides b) (finding : Finding) :
    finding ∈ (a.validate start supported).findings ↔
      finding ∈ (b.validate start supported).findings := by
  rw [Grammar.mem_findings_iff, Grammar.mem_findings_iff]
  exact ⟨h.warrants, h.symm.warrants⟩

end Coincides

/-!
## The order of findings
-/

end Grammar

def Finding.kind : Finding → Nat
  | emptyExpansions _ => 0
  | definedNotUsed _ => 1
  | usedNotDefined _ => 2
  | unreachable _ _ => 3
  | unsupportedOption _ => 4

def Finding.Precedes (x y : Finding) : Prop :=
  x.kind < y.kind ∨ x.kind = y.kind ∧ x.subject < y.subject

instance : Std.Irrefl Finding.Precedes where
  irrefl := by
    intro x h
    rcases h with hkind | ⟨_, hsubject⟩
    · exact Nat.lt_irrefl _ hkind
    · exact List.lt_irrefl _ hsubject

instance : Std.Antisymm Finding.Precedes where
  antisymm := by
    intro x y hxy hyx
    rcases hxy with hkind | ⟨hkind, hsubject⟩
    · rcases hyx with hkind' | ⟨hkind', _⟩
      · exact absurd hkind' (Nat.lt_asymm hkind)
      · exact absurd hkind'.symm (Nat.ne_of_lt hkind)
    · rcases hyx with hkind' | ⟨_, hsubject'⟩
      · exact absurd hkind.symm (Nat.ne_of_lt hkind')
      · exact absurd hsubject' (List.lt_asymm hsubject)

namespace Grammar

variable {a b : Grammar} {start : Word} {supported : Option (List Word)}

structure SortedBelow (bound : Nat) (findings : List Finding) : Prop where
  sorted : findings.Pairwise Finding.Precedes
  below : ∀ x ∈ findings, x.kind < bound

theorem SortedBelow.append_map {kind : Nat} {findings : List Finding}
    (h : SortedBelow kind findings) {words : List Word} (hwords : words.Pairwise (· < ·))
    {finding : Word → Finding} (hkind : ∀ x, (finding x).kind = kind)
    (hsubject : ∀ x, (finding x).subject = x) :
    SortedBelow (kind + 1) (findings ++ words.map finding) := by
  have hmap : ∀ y ∈ words.map finding, y.kind = kind := by
    intro y hy
    rcases List.mem_map.mp hy with ⟨x, _, rfl⟩
    exact hkind x
  constructor
  · refine List.pairwise_append.mpr ⟨h.sorted, ?_, ?_⟩
    · rw [List.pairwise_map]
      refine hwords.imp ?_
      intro x y hlt
      refine Or.inr ⟨(hkind x).trans (hkind y).symm, ?_⟩
      rwa [hsubject, hsubject]
    · intro x hx y hy
      exact Or.inl (hmap y hy ▸ h.below x hx)
  · intro x hx
    rcases List.mem_append.mp hx with hx | hx
    · exact Nat.lt_succ_of_lt (h.below x hx)
    · exact Nat.lt_succ_of_le (Nat.le_of_eq (hmap x hx))

theorem pairwise_findings_of_not_broken (h : ¬ a.Broken) :
    (a.validate start supported).findings.Pairwise Finding.Precedes := by
  have hdefined : a.definedSymbols.Pairwise (· < ·) := Word.pairwise_sortedSet _
  have hused : (a.countedAsUsed start).Pairwise (· < ·) := by
    rcases exists_countedAsUsed_eq a start with ⟨words, hwords⟩
    rw [hwords]
    exact Word.pairwise_sortedSet words
  have hoptions : (a.unsupportedOptions supported).Pairwise (· < ·) := by
    cases supported with
    | none => exact .nil
    | some keys => exact (Word.pairwise_sortedSet _).filter _
  have hnone : SortedBelow 1 [] := ⟨.nil, fun x hx => by cases hx⟩
  have hunused : SortedBelow 2 ((a.definedSymbols.filter
      fun symbol => !(a.countedAsUsed start).contains symbol).map .definedNotUsed) :=
    hnone.append_map (hdefined.filter _) (fun _ => rfl) fun _ => rfl
  have hundefined : SortedBelow 3 (_ ++ ((a.countedAsUsed start).filter
      fun symbol => !a.definedSymbols.contains symbol).map .usedNotDefined) :=
    hunused.append_map (hused.filter _) (fun _ => rfl) fun _ => rfl
  have hlost : SortedBelow 4 (_ ++ (a.lostSymbols start).map
      fun symbol => .unreachable symbol (a.originText start)) :=
    hundefined.append_map (hdefined.filter _) (fun _ => rfl) fun _ => rfl
  have hunsupported : SortedBelow 5 (_ ++ (a.unsupportedOptions supported).map
      .unsupportedOption) :=
    hlost.append_map hoptions (fun _ => rfl) fun _ => rfl
  rw [findings_of_not_broken h]
  exact hunsupported.sorted

theorem pairwise_findings
    (hone : ∀ x y, a.expansions? x = some [] → a.expansions? y = some [] → x = y) :
    (a.validate start supported).findings.Pairwise Finding.Precedes := by
  by_cases hbroken : a.Broken
  · -- Two findings would be about the same symbol.
    refine (nodup_findings a start supported).imp_of_mem ?_
    intro x y hx hy hne
    rw [validate_of_broken hbroken] at hx hy
    rcases mem_emptyExpansionFindings.mp hx with ⟨symbol, hrule, rfl⟩
    rcases mem_emptyExpansionFindings.mp hy with ⟨symbol', hrule', rfl⟩
    exact absurd (congrArg _ (hone symbol symbol' hrule hrule')) hne
  · exact pairwise_findings_of_not_broken hbroken

/--
Equal grammars have the same verdict and the same findings, whatever the order of their rules.
If at most one rule is empty, the findings are sorted, so that the two assessments are equal.
-/
theorem validate_same (h : a.same b = true) (start : Word) (supported : Option (List Word)) :
    let assessment := a.validate start supported
    let assessment' := b.validate start supported
    assessment.isValid = assessment'.isValid ∧
      assessment.findings.Perm assessment'.findings ∧
      (assessment.toExcept = .ok () ↔ assessment'.toExcept = .ok ()) ∧
      ((∀ x y, a.expansions? x = some [] → a.expansions? y = some [] → x = y) →
        assessment.findings.Pairwise Finding.Precedes ∧ assessment = assessment' ∧
          assessment.toExcept = assessment'.toExcept) := by
  intro assessment assessment'
  have hcoincide := coincides_of_same h
  have hmem : ∀ finding, finding ∈ assessment.findings ↔ finding ∈ assessment'.findings :=
    hcoincide.mem_findings_iff
  have hvalid : assessment.isValid = assessment'.isValid := by
    rw [Bool.eq_iff_iff, isValid_iff_findings, isValid_iff_findings]
    simp only [hcoincide.mem_findings_iff]
  refine ⟨hvalid, ?_, ?_, ?_⟩
  · exact (List.perm_ext_iff_of_nodup (nodup_findings a start supported)
      (nodup_findings b start supported)).mpr hmem
  · rw [toExcept_validate, toExcept_validate, ← @isValid_iff a start supported,
      ← @isValid_iff b start supported, isValid, isValid, hvalid]
  · intro hone
    have hone' : ∀ x y, b.expansions? x = some [] → b.expansions? y = some [] → x = y :=
      fun x y hx hy => hone x y (hcoincide.symm.empty hx) (hcoincide.symm.empty hy)
    have hsorted := @pairwise_findings a start supported hone
    have hfindings : assessment.findings = assessment'.findings :=
      hsorted.eq_of_mem_iff (pairwise_findings hone') hmem
    have heq : assessment = assessment' := by
      calc assessment
          = ⟨assessment.findings, assessment.isValid⟩ := rfl
        _ = ⟨assessment'.findings, assessment'.isValid⟩ := by rw [hfindings, hvalid]
        _ = assessment' := rfl
    exact ⟨hsorted, heq, congrArg Assessment.toExcept heq⟩

def looseRules : List (Word × List Expansion) :=
  [(['<', 'b', '>'], [⟨['x'], .empty⟩]), (['<', 'a', '>'], [⟨['<', 'c', '>'], .empty⟩])]

theorem looseRules_validate_same :
    let g := ofRules looseRules
    let g' := ofRules looseRules.reverse
    g.same g' = true ∧ g.hasEmptyExpansions = false ∧
      g.validate startSymbol none = g'.validate startSymbol none ∧
      (g.validate startSymbol none).findings.map Finding.subject =
        [['<', 'a', '>'], ['<', 'b', '>'], ['<', 'c', '>'], startSymbol,
          ['<', 'a', '>'], ['<', 'b', '>']] := by
  intro g g'
  have hsame : g.same g' = true := by decide
  have hnone : g.hasEmptyExpansions = false := by decide
  have hone : ∀ x y, g.expansions? x = some [] → g.expansions? y = some [] → x = y := by
    intro x y hx _
    rw [hasEmptyExpansions_iff.mpr ⟨x, hx⟩] at hnone
    cases hnone
  have hequal := ((validate_same hsame startSymbol none).2.2.2 hone).2.1
  exact ⟨hsame, hnone, hequal, by decide⟩

def emptyRules : List (Word × List Expansion) :=
  [(['<', 'b', '>'], []), (['<', 'a', '>'], [])]

theorem emptyRules_validate :
    let g := ofRules emptyRules
    let g' := ofRules emptyRules.reverse
    let first := Finding.emptyExpansions ['<', 'a', '>']
    let second := Finding.emptyExpansions ['<', 'b', '>']
    g.same g' = true ∧ first.Precedes second ∧
      (g.validate startSymbol none).findings = [second, first] ∧
      (g'.validate startSymbol none).findings = [first, second] ∧
      g.validate startSymbol none ≠ g'.validate startSymbol none ∧
      (g.validate startSymbol none).toExcept = .error (.malformed ['<', 'b', '>'] (.found second)) ∧
      (g'.validate startSymbol none).toExcept =
        .error (.malformed ['<', 'a', '>'] (.found first)) := by
  intro g g' first second
  have hlt : (['<', 'a', '>'] : Word) < ['<', 'b', '>'] := by decide
  have hfindings : (g.validate startSymbol none).findings ≠
      (g'.validate startSymbol none).findings := by decide
  have hne : g.validate startSymbol none ≠ g'.validate startSymbol none :=
    fun heq => hfindings (congrArg Assessment.findings heq)
  exact ⟨by decide, Or.inr ⟨rfl, hlt⟩, rfl, rfl, hne, rfl, rfl⟩

end Grammar
end GrammarFuzz
