import GrammarFuzz.Proofs.EqualGrammars
import Mathlib.Data.List.Find
import Mathlib.Data.List.Induction

/-!
# Merging sources

Sources are merged exactly if no two of them define the same symbol; their rules then follow
each other as they are.  Otherwise the first rule for a symbol of an earlier source is the
conflict.  In another order the same sources make up the same rules, and since validity does not
depend on the order of rules, what is loaded without normalization is an equal grammar.
-/

namespace GrammarFuzz

namespace Grammar

variable {g g' source : Grammar}

/-- Whether two grammars define different symbols. -/
def Apart (g g' : Grammar) : Prop :=
  g.symbols.Disjoint g'.symbols

theorem Apart.symm (h : g.Apart g') : g'.Apart g :=
  fun _ hg' hg => h hg hg'

theorem defines_iff {symbol : Word} : g.defines symbol = true ↔ symbol ∈ g.symbols :=
  OrderedMap.contains_iff

/-!
## A single source
-/

def addRule (g : Grammar) (rule : Word × List Expansion) : Except GrammarError Grammar :=
  if g.defines rule.1 then .error (.mergeConflict rule.1) else .ok (g.insert rule.1 rule.2)

theorem defines_insert_of_ne {symbol other : Word} (h : other ≠ symbol)
    (alternatives : List Expansion) :
    (g.insert symbol alternatives).defines other = g.defines other := by
  rw [Bool.eq_iff_iff, defines_iff, defines_iff]
  exact OrderedMap.mem_keys_insert.trans (or_iff_right h)

theorem foldlM_addRule (g : Grammar) {rules : List (Word × List Expansion)}
    (h : (rules.map Prod.fst).Nodup) :
    rules.foldlM addRule g =
      match (rules.map Prod.fst).find? g.defines with
      | some symbol => .error (.mergeConflict symbol)
      | none => .ok (g.insertAll rules) := by
  induction rules generalizing g with
  | nil => rfl
  | cons rule rules ih =>
      rw [List.map_cons, List.nodup_cons] at h
      rw [List.foldlM_cons, List.map_cons]
      by_cases hdefines : g.defines rule.1 = true
      · rw [addRule, if_pos hdefines, List.find?_cons_of_pos hdefines]
        rfl
      · -- The added symbol is not among the later ones, so it makes no conflict for them.
        have hlater : (rules.map Prod.fst).find? (g.insert rule.1 rule.2).defines =
            (rules.map Prod.fst).find? g.defines := by
          apply List.find?_congr
          intro symbol hsymbol
          exact defines_insert_of_ne (ne_of_mem_of_not_mem hsymbol h.1) rule.2
        rw [addRule, if_neg hdefines, List.find?_cons_of_neg hdefines]
        have hrest := ih (g.insert rule.1 rule.2) h.2
        rw [hlater] at hrest
        exact hrest

theorem merge_eq_foldlM (g source : Grammar) :
    g.merge source = source.rules.entries.foldlM addRule g :=
  (foldlM_addRule g source.rules.nodup).symm

theorem merge_of_apart (h : g.Apart source) : g.merge source = .ok (g.extend source) := by
  have hnone : source.symbols.find? g.defines = none := by
    rw [List.find?_eq_none]
    intro symbol hsymbol hdefines
    exact h (defines_iff.mp hdefines) hsymbol
  rw [merge, hnone]

theorem entries_extend (h : g.Apart source) :
    (g.extend source).rules.entries = g.rules.entries ++ source.rules.entries :=
  OrderedMap.entries_insertAll (List.nodup_append'.mpr ⟨g.rules.nodup, source.rules.nodup, h⟩)

theorem symbols_eq (g : Grammar) : g.symbols = g.rules.entries.map Prod.fst :=
  rfl

theorem exists_conflict (h : ¬ g.Apart source) :
    ∃ rules rule rest, source.rules.entries = rules ++ rule :: rest ∧
      g.merge source = .error (.mergeConflict rule.1) ∧ g.defines rule.1 = true ∧
      ∀ r ∈ rules, g.defines r.1 = false := by
  cases hfind : source.symbols.find? g.defines with
  | none =>
      rw [List.find?_eq_none] at hfind
      exact absurd (fun symbol hg hsource => hfind symbol hsource (defines_iff.mpr hg)) h
  | some symbol =>
      rcases List.find?_eq_some_iff_append.mp hfind with ⟨hdefines, before, behind, hsymbols, hnone⟩
      rcases List.map_eq_append_iff.mp hsymbols with ⟨rules, rest, hentries, hbefore, hrest⟩
      rcases List.map_eq_cons_iff.mp hrest with ⟨rule, rest, rfl, rfl, _⟩
      refine ⟨rules, rule, rest, hentries, ?_, hdefines, ?_⟩
      · rw [merge, hfind]
      · intro r hr
        have hr := hnone r.1 (hbefore ▸ List.mem_map_of_mem hr)
        rwa [Bool.not_eq_true'] at hr

end Grammar

/-!
## All sources
-/

namespace Source

variable {merged : Grammar} {sources : List Grammar}

def rulesOf (sources : List Grammar) : List (Word × List Expansion) :=
  sources.flatMap fun source => source.rules.entries

theorem mergeAll_cons (merged source : Grammar) (sources : List Grammar) :
    mergeAll merged ((source :: sources).map .grammar) =
      merged.merge source >>= fun next => mergeAll next (sources.map .grammar) := by
  rw [List.map_cons, mergeAll, mergeInto, read]
  dsimp only
  cases merged.merge source with
  | error e => rfl
  | ok next => rfl

theorem mergeAll_eq_foldlM (merged : Grammar) (sources : List Grammar) :
    mergeAll merged (sources.map .grammar) = (rulesOf sources).foldlM Grammar.addRule merged := by
  induction sources generalizing merged with
  | nil => rfl
  | cons source sources ih =>
      rw [mergeAll_cons, rulesOf, List.flatMap_cons, List.foldlM_append,
        ← Grammar.merge_eq_foldlM]
      exact bind_congr fun next => ih next

theorem mergeAll_append (merged : Grammar) (before behind : List Grammar) :
    mergeAll merged ((before ++ behind).map .grammar) =
      mergeAll merged (before.map .grammar) >>= fun next =>
        mergeAll next (behind.map .grammar) := by
  simp only [mergeAll_eq_foldlM, rulesOf, List.flatMap_append, List.foldlM_append]

theorem mergeAll_of_pairwise (h : (merged :: sources).Pairwise Grammar.Apart) :
    ∃ g, mergeAll merged (sources.map .grammar) = .ok g ∧
      g.rules.entries = merged.rules.entries ++ rulesOf sources := by
  induction sources generalizing merged with
  | nil => exact ⟨merged, rfl, (List.append_nil _).symm⟩
  | cons source sources ih =>
      rw [List.pairwise_cons, List.pairwise_cons] at h
      rcases h with ⟨hmerged, hsource, hsources⟩
      have hapart := hmerged source List.mem_cons_self
      have hentries := Grammar.entries_extend hapart
      have hextended : ∀ later ∈ sources, (merged.extend source).Apart later := by
        intro later hlater
        rw [Grammar.Apart, Grammar.symbols_eq, hentries, List.map_append,
          List.disjoint_append_left]
        exact ⟨hmerged later (List.mem_cons_of_mem _ hlater), hsource later hlater⟩
      rcases ih (List.pairwise_cons.mpr ⟨hextended, hsources⟩) with ⟨g, hg, hrules⟩
      refine ⟨g, ?_, ?_⟩
      · rw [mergeAll_cons, Grammar.merge_of_apart hapart]
        exact hg
      · rw [hrules, hentries, rulesOf, rulesOf, List.flatMap_cons, List.append_assoc]

theorem defines_iff_of_entries {g : Grammar} (h : g.rules.entries = rulesOf sources)
    {symbol : Word} :
    g.defines symbol = true ↔ ∃ source ∈ sources, source.defines symbol = true := by
  simp only [Grammar.defines_iff, Grammar.symbols_eq, h, rulesOf, List.map_flatMap,
    List.mem_flatMap]

theorem exists_overlap (h : ¬ sources.Pairwise Grammar.Apart) :
    ∃ before source behind, sources = before ++ source :: behind ∧
      before.Pairwise Grammar.Apart ∧ ∃ earlier ∈ before, ¬ earlier.Apart source := by
  induction sources using List.reverseRecOn with
  | nil => exact absurd .nil h
  | append_singleton sources last ih =>
      by_cases hsources : sources.Pairwise Grammar.Apart
      · refine ⟨sources, last, [], rfl, hsources, ?_⟩
        by_contra hnone
        push Not at hnone
        apply h
        rw [List.pairwise_append]
        refine ⟨hsources, List.pairwise_singleton .., ?_⟩
        intro earlier hearlier source hsource
        cases List.mem_singleton.mp hsource
        exact hnone earlier hearlier
      · rcases ih hsources with ⟨before, source, behind, rfl, hoverlap⟩
        exact ⟨before, source, behind ++ [last], by simp, hoverlap⟩

theorem mergeAll_empty_of_pairwise (h : sources.Pairwise Grammar.Apart) :
    ∃ g, mergeAll .empty (sources.map .grammar) = .ok g ∧ g.rules.entries = rulesOf sources := by
  have hempty : ∀ source ∈ sources, Grammar.empty.Apart source :=
    fun _ _ _ hsymbol => absurd hsymbol List.not_mem_nil
  exact mergeAll_of_pairwise (List.pairwise_cons.mpr ⟨hempty, h⟩)

theorem mergeAll_of_overlap {before : List Grammar} {source : Grammar}
    (hbefore : before.Pairwise Grammar.Apart)
    (hoverlap : ∃ earlier ∈ before, ¬ earlier.Apart source) (behind : List Grammar) :
    ∃ rules rule rest, source.rules.entries = rules ++ rule :: rest ∧
      mergeAll .empty ((before ++ source :: behind).map .grammar) =
        .error (.mergeConflict rule.1) ∧
      (∃ earlier ∈ before, earlier.defines rule.1 = true) ∧
      ∀ r ∈ rules, ∀ earlier ∈ before, earlier.defines r.1 = false := by
  rcases mergeAll_empty_of_pairwise hbefore with ⟨g, hg, hrules⟩
  have hdefines := fun symbol => @defines_iff_of_entries before g hrules symbol
  have hnot : ¬ g.Apart source := by
    rcases hoverlap with ⟨earlier, hearlier, hnot⟩
    intro hapart
    apply hnot
    intro symbol hsymbol
    have hearlier := (hdefines symbol).mpr ⟨earlier, hearlier, Grammar.defines_iff.mpr hsymbol⟩
    exact hapart (Grammar.defines_iff.mp hearlier)
  rcases Grammar.exists_conflict hnot with ⟨rules, rule, rest, hentries, hmerge, hrule, hnone⟩
  refine ⟨rules, rule, rest, hentries, ?_, (hdefines rule.1).mp hrule, ?_⟩
  · rw [mergeAll_append, hg]
    show mergeAll g ((source :: behind).map .grammar) = _
    rw [mergeAll_cons, hmerge]
    rfl
  · intro r hr earlier hearlier
    have hr := hnone r hr
    rw [← Bool.not_eq_true] at hr ⊢
    exact fun hearlier' => hr ((hdefines r.1).mpr ⟨earlier, hearlier, hearlier'⟩)

end Source

/-!
## The order of rules
-/

namespace Grammar

variable {a b : Grammar}

theorem same_of_perm (h : a.rules.entries.Perm b.rules.entries) : a.same b = true :=
  OrderedMap.agree_of_perm Expansion.sameAll_self h

theorem Coincides.valid (h : a.Coincides b) {start : Word} (hvalid : a.Valid start) :
    b.Valid start := by
  rw [← @isValid_iff _ start none, isValid, isValid_iff_findings] at hvalid ⊢
  exact fun finding hfinding => hvalid finding ((h.mem_findings_iff finding).mpr hfinding)

end Grammar

theorem LoadOptions.load_eq_ok_iff {options : LoadOptions} (h : options.normalize = false)
    {sources : List Source} {g : Grammar} :
    (options.load sources).1 = .ok g ↔
      Source.mergeAll .empty sources = .ok g ∧ g.defines options.start = true ∧
        g.Valid options.start := by
  rw [load]
  cases Source.mergeAll .empty sources with
  | error e => simp
  | ok merged =>
      have hprepare : (options.prepare merged).1 = merged := by
        rw [prepare, h]
        rfl
      dsimp only
      rw [build_eq_ok_iff, hprepare, Except.ok.injEq]
      constructor
      · intro hbuilt
        rcases hbuilt with ⟨hstart, rfl, hvalid⟩
        exact ⟨rfl, hstart, hvalid⟩
      · intro hloaded
        rcases hloaded with ⟨rfl, hstart, hvalid⟩
        exact ⟨hstart, rfl, hvalid⟩

namespace Source

variable {sources sources' : List Grammar}

theorem pairwise_of_mergeAll {g : Grammar}
    (h : mergeAll .empty (sources.map .grammar) = .ok g) :
    sources.Pairwise Grammar.Apart ∧ g.rules.entries = rulesOf sources := by
  by_cases hapart : sources.Pairwise Grammar.Apart
  · rcases mergeAll_empty_of_pairwise hapart with ⟨g', hg', hrules⟩
    rw [h] at hg'
    cases hg'
    exact ⟨hapart, hrules⟩
  · rcases exists_overlap hapart with ⟨before, source, behind, rfl, hbefore, hoverlap⟩
    rcases mergeAll_of_overlap hbefore hoverlap behind with ⟨_, rule, _, _, herror, _⟩
    rw [h] at herror
    cases herror

theorem mergeAll_perm (h : sources.Perm sources') {g : Grammar}
    (hg : mergeAll .empty (sources.map .grammar) = .ok g) :
    ∃ g', mergeAll .empty (sources'.map .grammar) = .ok g' ∧
      g.rules.entries.Perm g'.rules.entries := by
  rcases pairwise_of_mergeAll hg with ⟨hapart, hrules⟩
  have hapart' : sources'.Pairwise Grammar.Apart := (h.pairwise_iff Grammar.Apart.symm).mp hapart
  rcases mergeAll_empty_of_pairwise hapart' with ⟨g', hg', hrules'⟩
  refine ⟨g', hg', ?_⟩
  rw [hrules, hrules']
  exact h.flatMap_right _

theorem load_perm (h : sources.Perm sources') {options : LoadOptions}
    (hnormalize : options.normalize = false) {g : Grammar}
    (hg : (options.load (sources.map .grammar)).1 = .ok g) :
    ∃ g', (options.load (sources'.map .grammar)).1 = .ok g' ∧
      g.rules.entries.Perm g'.rules.entries := by
  rcases (LoadOptions.load_eq_ok_iff hnormalize).mp hg with ⟨hmerged, hstart, hvalid⟩
  rcases mergeAll_perm h hmerged with ⟨g', hmerged', hperm⟩
  have hcoincide := Grammar.coincides_of_same (Grammar.same_of_perm hperm)
  refine ⟨g', (LoadOptions.load_eq_ok_iff hnormalize).mpr ⟨hmerged', ?_, ?_⟩, hperm⟩
  · rw [← hcoincide.defines_eq]
    exact hstart
  · exact hcoincide.valid hvalid

theorem exists_load_iff (h : sources.Perm sources') {options : LoadOptions}
    (hnormalize : options.normalize = false) :
    (∃ g, (options.load (sources.map .grammar)).1 = .ok g) ↔
      ∃ g', (options.load (sources'.map .grammar)).1 = .ok g' := by
  constructor
  · intro hloaded
    rcases hloaded with ⟨g, hg⟩
    rcases load_perm h hnormalize hg with ⟨g', hg', _⟩
    exact ⟨g', hg'⟩
  · intro hloaded
    rcases hloaded with ⟨g', hg'⟩
    rcases load_perm h.symm hnormalize hg' with ⟨g, hg, _⟩
    exact ⟨g, hg⟩

theorem same_of_load (h : sources.Perm sources') {options : LoadOptions}
    (hnormalize : options.normalize = false) {g g' : Grammar}
    (hg : (options.load (sources.map .grammar)).1 = .ok g)
    (hg' : (options.load (sources'.map .grammar)).1 = .ok g') :
    g.rules.entries.Perm g'.rules.entries ∧ g.same g' = true := by
  rcases load_perm h hnormalize hg with ⟨found, hfound, hrules⟩
  have heq : found = g' := Except.ok.inj (hfound.symm.trans hg')
  rw [heq] at hrules
  exact ⟨hrules, Grammar.same_of_perm hrules⟩

/--
Sources are merged as if their rules were added one after the other.  They are merged exactly if
no symbol is defined twice, into their rules in order; otherwise the error names the first
symbol that an earlier source defines.  Without normalization, their order neither decides
whether they can be loaded nor what their rules are, so that they are loaded as equal grammars.
-/
theorem mergeAll_exact (sources : List Grammar) :
    let merged := mergeAll .empty (sources.map .grammar)
    merged = (rulesOf sources).foldlM Grammar.addRule .empty ∧
      ((∃ g, merged = .ok g) ↔ sources.Pairwise Grammar.Apart) ∧
      (∀ g, merged = .ok g → g.rules.entries = rulesOf sources) ∧
      (¬ sources.Pairwise Grammar.Apart →
        ∃ before source behind rules rule rest, sources = before ++ source :: behind ∧
          source.rules.entries = rules ++ rule :: rest ∧
          merged = .error (.mergeConflict rule.1) ∧ before.Pairwise Grammar.Apart ∧
          (∃ earlier ∈ before, earlier.defines rule.1 = true) ∧
          ∀ r ∈ rules, ∀ earlier ∈ before, earlier.defines r.1 = false) ∧
      ∀ (sources' : List Grammar) (options : LoadOptions), sources.Perm sources' →
        options.normalize = false →
        let loaded := (options.load (sources.map .grammar)).1
        let loaded' := (options.load (sources'.map .grammar)).1
        ((∃ g, loaded = .ok g) ↔ ∃ g', loaded' = .ok g') ∧
          ∀ g g', loaded = .ok g → loaded' = .ok g' →
            g.rules.entries.Perm g'.rules.entries ∧ g.same g' = true := by
  intro merged
  refine ⟨mergeAll_eq_foldlM .empty sources, ?_, fun g hg => (pairwise_of_mergeAll hg).2, ?_, ?_⟩
  · constructor
    · intro h
      rcases h with ⟨g, hg⟩
      exact (pairwise_of_mergeAll hg).1
    · intro h
      rcases mergeAll_empty_of_pairwise h with ⟨g, hg, _⟩
      exact ⟨g, hg⟩
  · intro h
    rcases exists_overlap h with ⟨before, source, behind, rfl, hbefore, hoverlap⟩
    rcases mergeAll_of_overlap hbefore hoverlap behind with
      ⟨rules, rule, rest, hentries, herror, hdefined, hnone⟩
    exact ⟨before, source, behind, rules, rule, rest, rfl, hentries, herror, hbefore, hdefined,
      hnone⟩
  · intro sources' options hperm hnormalize loaded loaded'
    exact ⟨exists_load_iff hperm hnormalize, fun g g' => same_of_load hperm hnormalize⟩

def splitRules : List Grammar :=
  [.ofRules [(startSymbol, [⟨['<', 'a', '>'], .empty⟩])],
    .ofRules [(['<', 'a', '>'], [⟨['x'], .empty⟩])]]

theorem splitRules_mergeAll :
    let options : LoadOptions := { normalize := false }
    splitRules.Perm splitRules.reverse ∧ options.normalize = false ∧
      (∃ g g', (options.load (splitRules.map .grammar)).1 = .ok g ∧
        (options.load (splitRules.reverse.map .grammar)).1 = .ok g' ∧ g.same g' = true) ∧
      mergeAll .empty ((splitRules ++ splitRules.reverse).map .grammar) =
        .error (.mergeConflict ['<', 'a', '>']) := by
  intro options
  have hperm : splitRules.Perm splitRules.reverse := (List.reverse_perm _).symm
  have hload := (mergeAll_exact splitRules).2.2.2.2 splitRules.reverse options hperm rfl
  have hloaded : ∃ g, (options.load (splitRules.map .grammar)).1 = .ok g := ⟨_, rfl⟩
  have hloaded' := hload.1.mp hloaded
  rcases hloaded with ⟨g, hg⟩
  rcases hloaded' with ⟨g', hg'⟩
  exact ⟨hperm, rfl, ⟨g, g', hg, hg', (hload.2 g g' hg hg').2⟩, rfl⟩

end Source
end GrammarFuzz
