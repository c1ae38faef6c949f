import GrammarFuzz.Proofs.Normalization.Validity

/-!
# The symbols that normalization introduces

Fresh symbols are numbered variants of the name for groups and of names that bear an
operator.  A reference without a rule may therefore get one from normalization only if
it looks like such a variant.  All others stay as they are, so that the loader finds
them.
-/

namespace GrammarFuzz

namespace Operand

variable {b : Brackets} {u v : Word} {x : Operand}

theorem mem_repetitions_append_enclose {name : Word} (hname : Brackets.angle.Fits name)
    (h : x ∈ repetitions (u ++ (Brackets.angle.enclose name ++ v))) :
    x ∈ repetitions u ∨ x.base = Brackets.angle.enclose name ∨ x ∈ repetitions v := by
  rw [repetitions, allIn_eq, pieces_append_enclose hname, Operator.operandsOf_append_part,
    List.map_append, List.mem_append, ← allIn_eq] at h
  refine h.imp_right fun h => ?_
  rw [Operator.operandsOf] at h
  cases hahead : Operator.ahead? (pieces .angle v) with
  | none =>
      rw [hahead, ← allIn_eq] at h
      exact Or.inr h
  | some op =>
      rw [hahead, List.map_cons, List.mem_cons, ← allIn_eq] at h
      rcases h with rfl | h
      · exact Or.inl rfl
      · exact Or.inr h

theorem mem_allIn_append (hb : Operator.ofMark? b.opening = none)
    (h : x ∈ allIn b u ∨ x ∈ allIn b v) : x ∈ allIn b (u ++ v) :=
  (allIn_append_sublist hb u v).subset (List.mem_append.mpr h)

theorem mem_repetitions_append_text {name : Word} {op : Operator}
    (hname : Brackets.angle.Fits name) :
    x ∈ repetitions (u ++ ((Operand.mk .angle name op).text ++ v)) ↔
      x ∈ repetitions u ∨ x = ⟨.angle, name, op⟩ ∨ x ∈ repetitions v := by
  have hall := @allIn_append_text .angle ⟨.angle, name, op⟩ rfl rfl hname u v
  rw [repetitions, hall, List.mem_append, List.mem_cons]
  rfl

theorem mem_repetitions_group {inner : Word} {op : Operator}
    (h : x ∈ repetitions u ∨ x ∈ repetitions inner ∨ x ∈ repetitions v) :
    x ∈ repetitions (u ++ ((Operand.mk .round inner op).text ++ v)) := by
  have hgroup : (Operand.mk .round inner op).text = ['('] ++ (inner ++ [')', op.mark]) := by
    simp [Operand.text, Operand.base, Brackets.enclose, Brackets.round]
  rw [hgroup]
  refine mem_allIn_append rfl (h.imp_right fun h => mem_allIn_append rfl (h.imp_left fun h => ?_))
  exact mem_allIn_append rfl (Or.inr (mem_allIn_append rfl (Or.inl h)))

theorem repetitions_enclose {name : Word} (hname : Brackets.angle.Fits name) :
    repetitions (Brackets.angle.enclose name) = [] := by
  have hpieces := pieces_enclose hname []
  rw [List.append_nil] at hpieces
  rw [repetitions, allIn_eq, hpieces]
  rfl

theorem repetitions_enclose_append {base name : Word} (hbase : Brackets.angle.Fits base)
    (hname : Brackets.angle.Fits name) :
    repetitions (Brackets.angle.enclose base ++ Brackets.angle.enclose name) = [] := by
  have hpieces := pieces_enclose hname []
  rw [List.append_nil] at hpieces
  rw [repetitions, allIn_eq, pieces_enclose hbase, hpieces]
  rfl

end Operand

namespace Normalization

/-!
## Variants of symbols
-/

def Variant (base symbol : Word) : Prop :=
  ∃ suffix : Word, IsNumbering suffix ∧ symbol = stem base ++ (suffix ++ ['>'])

theorem stem_append_closing (w : Word) : stem (w ++ ['>']) = w := by
  rw [stem, List.getLast?_concat, if_pos rfl, List.dropLast_concat]

theorem variant_refl (inner : Word) :
    Variant (Brackets.angle.enclose inner) (Brackets.angle.enclose inner) := by
  refine ⟨[], fun _ hc => (List.not_mem_nil hc).elim, ?_⟩
  rw [stem_enclose, Brackets.enclose]
  rfl

theorem Variant.trans {first second third : Word} (h : Variant first second)
    (h' : Variant second third) : Variant first third := by
  rcases h with ⟨suffix, hsuffix, rfl⟩
  rcases h' with ⟨suffix', hsuffix', rfl⟩
  refine ⟨suffix ++ suffix', hsuffix.append hsuffix', ?_⟩
  rw [← List.append_assoc (stem first), stem_append_closing, List.append_assoc,
    List.append_assoc]

theorem variant_freshName (taken : List Word) (inner : Word) :
    Variant (Brackets.angle.enclose inner)
      (freshName taken (Brackets.angle.enclose inner)) := by
  rcases freshName_enclose taken inner with ⟨suffix, hname, hsuffix⟩
  refine ⟨suffix, hsuffix, ?_⟩
  rw [hname, stem_enclose, Brackets.enclose]
  simp [Brackets.angle]

theorem Variant.exists_enclose {inner symbol : Word}
    (h : Variant (Brackets.angle.enclose inner) symbol) :
    ∃ suffix : Word, IsNumbering suffix ∧
      symbol = Brackets.angle.enclose (inner ++ suffix) := by
  rcases h with ⟨suffix, hsuffix, rfl⟩
  refine ⟨suffix, hsuffix, ?_⟩
  rw [stem_enclose, Brackets.enclose]
  simp [Brackets.angle]

theorem variant_iff {base symbol : Word} :
    Variant base symbol ↔ stem base <+: symbol ∧
      symbol.drop (stem base).length = (symbol.drop (stem base).length).dropLast ++ ['>'] ∧
      ((symbol.drop (stem base).length).dropLast.all fun c => c == '-' || c.isDigit) = true := by
  constructor
  · intro h
    rcases h with ⟨suffix, hsuffix, rfl⟩
    simpa [IsNumbering] using hsuffix
  · intro h
    rcases h with ⟨⟨rest, rfl⟩, hrest, hsuffix⟩
    rw [List.drop_left] at hrest hsuffix
    exact ⟨rest.dropLast, by simpa [IsNumbering] using hsuffix, by rw [← hrest]⟩

instance (base symbol : Word) : Decidable (Variant base symbol) :=
  decidable_of_iff _ variant_iff.symm

theorem repetitions_operatorExpansions {base name : Word} (hbase : Brackets.angle.Fits base)
    (hname : Brackets.angle.Fits name) {op : Operator} {text : Word}
    (h : text ∈ operatorExpansions (Brackets.angle.enclose base) (Brackets.angle.enclose name) op) :
    Operand.repetitions text = [] := by
  rcases mem_operatorExpansions_iff.mp h with ⟨rfl, _⟩ | ⟨rfl, _⟩ | ⟨rfl, _⟩
  · rfl
  · exact Operand.repetitions_enclose hbase
  · exact Operand.repetitions_enclose_append hbase hname

/-!
## Where fresh symbols come from
-/

/-- A set of symbols with all their numbered variants. -/
def Numbered (family : Word → Prop) : Prop :=
  ∀ inner symbol, family (Brackets.angle.enclose inner) →
    Variant (Brackets.angle.enclose inner) symbol → family symbol

def Bears (family : Word → Prop) (text : Word) : Prop :=
  ∀ x ∈ Operand.repetitions text, family x.base

structure Coined (family : Word → Prop) (intro : Introduction) : Prop where
  symbol : family intro.symbol
  bears : ∀ text ∈ intro.expansions, Bears family text

section Steps

variable {family : Word → Prop} {state state' : Word × Ledger}

theorem GroupStep.coins (hnumbered : Numbered family) (hgroup : family groupName)
    (h : GroupStep state state') (hbears : Bears family state.1) :
    Bears family state'.1 ∧ Ledger.Adds (Coined family) state.2 state'.2 := by
  cases h with
  | @replace u v inner name op ledger hinner hangle hround hname =>
      have hsymbol : family (Brackets.angle.enclose name) := by
        rw [← hname]
        exact hnumbered groupStem _ hgroup (variant_freshName ledger.taken groupStem)
      constructor
      · intro x hx
        rcases (Operand.mem_repetitions_append_text hangle).mp hx with hx | rfl | hx
        · exact hbears x (Operand.mem_repetitions_group (Or.inl hx))
        · exact hsymbol
        · exact hbears x (Operand.mem_repetitions_group (Or.inr (Or.inr hx)))
      · refine Ledger.adds_add (not_mem_of_freshName hname) ⟨hsymbol, ?_⟩
        intro text htext x hx
        cases List.mem_singleton.mp htext
        exact hbears x (Operand.mem_repetitions_group (Or.inr (Or.inl hx)))

theorem RepetitionStep.coins (hnumbered : Numbered family) (h : RepetitionStep state state')
    (hbears : Bears family state.1) :
    Bears family state'.1 ∧ Ledger.Adds (Coined family) state.2 state'.2 := by
  cases h with
  | @replace u v base name op ledger hbase hangle hname =>
      have hold := fun x => @Operand.mem_repetitions_append_text u v x base op hbase
      have hsymbol : family (Brackets.angle.enclose name) := by
        have hfamily := hbears ⟨.angle, base, op⟩ ((hold _).mpr (Or.inr (Or.inl rfl)))
        rw [← hname]
        exact hnumbered _ _ hfamily (variant_freshName ledger.taken base)
      constructor
      · intro x hx
        rcases Operand.mem_repetitions_append_enclose hangle hx with hx | hx | hx
        · exact hbears x ((hold x).mpr (Or.inl hx))
        · rw [hx]
          exact hsymbol
        · exact hbears x ((hold x).mpr (Or.inr (Or.inr hx)))
      · refine Ledger.adds_add (not_mem_of_freshName hname) ⟨hsymbol, ?_⟩
        intro text htext x hx
        rw [repetitions_operatorExpansions hbase hangle htext] at hx
        cases hx

end Steps

section Passes

variable {family : Word → Prop} {g : Grammar}

theorem coins_replaceGroups (hnumbered : Numbered family) {e : Expansion}
    (hgroup : Operand.groups e.text ≠ [] → family groupName) (hbears : Bears family e.text)
    (ledger : Ledger) : Ledger.Adds (Coined family) ledger (replaceGroups ledger e).2 ∧
      Bears family (replaceGroups ledger e).1.text := by
  by_cases hgroups : Operand.groups e.text = []
  · rw [replaceGroups_of_groups_eq_nil hgroups]
    exact ⟨Ledger.adds_refl _ _, hbears⟩
  · exact (Ledger.adds_of_run (Bears family) (fun _ _ h => h.coins hnumbered (hgroup hgroups))
      (run_replaceGroups ledger e) hbears).symm

theorem coins_replaceRepetitions (hnumbered : Numbered family) {e : Expansion}
    (hbears : Bears family e.text) (ledger : Ledger) :
    Ledger.Adds (Coined family) ledger (replaceRepetitions ledger e).2 ∧
      Bears family (replaceRepetitions ledger e).1.text :=
  (Ledger.adds_of_run (Bears family) (fun _ _ h => h.coins hnumbered)
    (run_replaceRepetitions ledger e) hbears).symm

end Passes
end Normalization

/-!
## References without a rule
-/

namespace Grammar

variable {g : Grammar}

/-- Whether normalization might choose a symbol for a rule that it introduces. -/
def MayIntroduce (g : Grammar) (symbol : Word) : Prop :=
  ∃ e ∈ g.expansions,
    Operand.groups e.text ≠ [] ∧ Normalization.Variant Normalization.groupName symbol ∨
      ∃ x ∈ Operand.repetitions e.text, Normalization.Variant x.base symbol

theorem numbered_mayIntroduce (g : Grammar) : Normalization.Numbered g.MayIntroduce := by
  intro inner symbol hbase hvariant
  rcases hbase with ⟨e, he, ⟨hgroups, hbase⟩ | ⟨x, hx, hbase⟩⟩
  · exact ⟨e, he, Or.inl ⟨hgroups, hbase.trans hvariant⟩⟩
  · exact ⟨e, he, Or.inr ⟨x, hx, hbase.trans hvariant⟩⟩

theorem coins_mayIntroduce {e : Expansion} (he : e ∈ g.expansions)
    (ledger : Normalization.Ledger) :
    Normalization.Ledger.Adds (Normalization.Coined g.MayIntroduce) ledger
        (Normalization.replaceGroups ledger e).2 ∧
      Normalization.Bears g.MayIntroduce (Normalization.replaceGroups ledger e).1.text := by
  apply Normalization.coins_replaceGroups g.numbered_mayIntroduce
  · intro hgroups
    exact ⟨e, he, Or.inl ⟨hgroups, Normalization.variant_refl Normalization.groupStem⟩⟩
  · intro x hx
    refine ⟨e, he, Or.inr ⟨x, hx, ?_⟩⟩
    rw [Operand.base, Operand.brackets_of_mem_allIn hx]
    exact Normalization.variant_refl x.inner

theorem mayIntroduce_of_normalize {symbol : Word} (h : g.normalize.defines symbol = true) :
    g.defines symbol = true ∨ g.MayIntroduce symbol := by
  have hgroups := @coins_mayIntroduce g
  have hbears : ∀ e ∈ (Normalization.groupPass g).1.expansions,
      Normalization.Bears g.MayIntroduce e.text :=
    Normalization.forall_expansions_of_adds (fun _ hcoined => hcoined.bears) @hgroups
  have hoperators := fun e he =>
    Normalization.coins_replaceRepetitions g.numbered_mayIntroduce (hbears e he)
  have hdefines : (Normalization.operatorPass (Normalization.groupPass g).1).1.defines symbol =
      true := h
  rcases Normalization.defines_of_adds hoperators hdefines with hdefines | ⟨_, hcoined, rfl⟩
  · rcases Normalization.defines_of_adds @hgroups hdefines with hdefines | ⟨_, hcoined, rfl⟩
    · exact Or.inl hdefines
    · exact Or.inr hcoined.symbol
  · exact Or.inr hcoined.symbol

instance (g : Grammar) (symbol : Word) : Decidable (g.MayIntroduce symbol) :=
  inferInstanceAs (Decidable (∃ e ∈ g.expansions, _ ∨ ∃ x ∈ Operand.repetitions e.text, _))

theorem referenced_normalize {e : Expansion} (he : e ∈ g.expansions) {symbol : Word}
    (hsymbol : symbol ∈ e.references) (hwhole : Normalization.Whole e.text symbol) :
    ∃ e' ∈ g.normalize.expansions, symbol ∈ e'.references := by
  rcases Normalization.referenced_of_carrying Normalization.carrying_replaceGroups he hsymbol
    hwhole with ⟨e', he', hsymbol'⟩
  exact Normalization.referenced_of_carrying Normalization.carrying_replaceRepetitions he' hsymbol'
    trivial

/--
If no reference without a rule looks like a symbol that normalization might introduce,
none of them gets a rule, and no grammar with such a reference is loaded, unless a group
begins or ends inside the reference.
-/
theorem normalize_hygienic
    (hclear : ∀ e ∈ g.expansions, ∀ symbol ∈ e.references, g.defines symbol = false →
      ¬ g.MayIntroduce symbol) :
    (∀ symbol, g.normalize.defines symbol = true → g.defines symbol = false →
      ∀ e ∈ g.expansions, symbol ∉ e.references) ∧
    ∀ e ∈ g.expansions, ∀ symbol ∈ e.references, g.defines symbol = false →
      Normalization.Whole e.text symbol →
      ∀ options : LoadOptions, options.normalize = true → ∀ g', (options.build g).1 ≠ .ok g' := by
  have hundefined : ∀ e ∈ g.expansions, ∀ symbol ∈ e.references, g.defines symbol = false →
      ¬ g.normalize.defines symbol = true := by
    intro e he symbol hsymbol hnone hdefines
    rcases mayIntroduce_of_normalize hdefines with hdefined | hmay
    · rw [hnone] at hdefined
      cases hdefined
    · exact hclear e he symbol hsymbol hnone hmay
  constructor
  · exact fun symbol hdefines hnone e he hsymbol => hundefined e he symbol hsymbol hnone hdefines
  · intro e he symbol hsymbol hnone hwhole options hnormalize g' hbuild
    rcases LoadOptions.build_eq_ok_iff.mp hbuild with ⟨_, rfl, hvalid⟩
    have hprepared : (options.prepare g).1 = g.normalize := by
      rw [LoadOptions.prepare, if_pos hnormalize]
      rfl
    rw [hprepared] at hvalid
    rcases referenced_normalize he hsymbol hwhole with ⟨e', he', hsymbol'⟩
    exact hundefined e he symbol hsymbol hnone (hvalid.defined e' he' symbol hsymbol')

def danglingGrammar : Grammar :=
  .ofRules [(startSymbol, [⟨.ofString "(<a>+,<sym>)*", .empty⟩]),
    (.ofString "<a>", [⟨.ofString "x<start>?", .empty⟩])]

theorem danglingGrammar_hygienic :
    (∀ e ∈ danglingGrammar.expansions, ∀ symbol ∈ e.references,
      danglingGrammar.defines symbol = false → ¬ danglingGrammar.MayIntroduce symbol) ∧
    danglingGrammar.normalize.defines (.ofString "<sym>") = false ∧
    ∀ g', (LoadOptions.build ⟨true, startSymbol, none⟩ danglingGrammar).1 ≠ .ok g' := by
  have hclear : ∀ e ∈ danglingGrammar.expansions, ∀ symbol ∈ e.references,
      danglingGrammar.defines symbol = false → ¬ danglingGrammar.MayIntroduce symbol := by decide
  have h := normalize_hygienic hclear
  have hnone : danglingGrammar.defines (.ofString "<sym>") = false := by decide
  have hsymbol : Word.ofString "<sym>" ∈
      Expansion.references ⟨.ofString "(<a>+,<sym>)*", .empty⟩ := by
    decide
  refine ⟨hclear, ?_, fun g' => ?_⟩
  · cases hdefines : danglingGrammar.normalize.defines (.ofString "<sym>") with
    | false => rfl
    | true => exact (h.1 _ hdefines hnone _ List.mem_cons_self hsymbol).elim
  · exact h.2 _ List.mem_cons_self _ hsymbol hnone (by decide) _ rfl g'

def capturedGrammar : Grammar :=
  .ofRules [(startSymbol, [⟨.ofString "<b>*", .empty⟩])]

theorem capturedGrammar_normalize :
    capturedGrammar.defines (.ofString "<b>") = false ∧
    (∃ e ∈ capturedGrammar.expansions, Word.ofString "<b>" ∈ e.references) ∧
    capturedGrammar.normalize.defines (.ofString "<b>") = true ∧
    (LoadOptions.build ⟨true, startSymbol, none⟩ capturedGrammar).1 =
      .ok capturedGrammar.normalize := by
  have hstart : capturedGrammar.defines startSymbol = true := by decide
  have hvalid : capturedGrammar.normalize.isValid startSymbol none = true := by decide
  exact ⟨by decide, by decide, by decide,
    LoadOptions.build_eq_ok_iff.mpr ⟨hstart, rfl, isValid_iff.mp hvalid⟩⟩

end Grammar
end GrammarFuzz
