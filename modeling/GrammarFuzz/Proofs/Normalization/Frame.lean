import GrammarFuzz.Proofs.Normalization.Purity

/-!
# What normalization leaves alone

The passes collect the rules they introduce and append them in the end.  They may as well
go through the rules of a grammar and write into a copy at once: a new rule wherever an
operand is replaced, and the new text when an expansion is done.  Under way the copy
consists of the old rules, some of them rewritten already, and of the introduced rules
behind them, so that no symbol is defined twice, every index is found, and both ways lead
to the same grammar.

In this grammar the old rules are at their old places and differ from what they were in
the operands only.
-/

namespace GrammarFuzz

/-!
## Writing into a grammar
-/

namespace Grammar

def define? (g : Grammar) (symbol : Word) (alternatives : List Expansion) : Option Grammar :=
  if g.defines symbol then none else some (g.insert symbol alternatives)

def setText? (g : Grammar) (symbol : Word) (index : Nat) (text : Word) : Option Grammar :=
  (g.expansions? symbol).bind fun alternatives =>
    alternatives[index]?.map fun e =>
      g.insert symbol (alternatives.set index ⟨text, e.options⟩)

variable {g : Grammar}

theorem define?_of_not_mem {symbol : Word} (h : symbol ∉ g.symbols)
    (alternatives : List Expansion) :
    ∃ next, g.define? symbol alternatives = some next ∧
      next.rules.entries = g.rules.entries ++ [(symbol, alternatives)] := by
  refine ⟨g.insert symbol alternatives, if_neg ?_, OrderedMap.setEntry_of_not_mem h alternatives⟩
  rw [defines, OrderedMap.contains_iff]
  exact h

theorem setText?_of_entries {symbol : Word} {done rest : List (Word × List Expansion)}
    {before after : List Expansion} {e : Expansion}
    (h : g.rules.entries = done ++ (symbol, before ++ e :: after) :: rest) (text : Word) :
    ∃ next, g.setText? symbol before.length text = some next ∧
      next.rules.entries = done ++ (symbol, before ++ ⟨text, e.options⟩ :: after) :: rest := by
  have hrule : g.expansions? symbol = some (before ++ e :: after) := by
    apply OrderedMap.get?_eq_some_iff.mpr
    rw [h]
    exact List.mem_append_right _ List.mem_cons_self
  have hkey : symbol ∉ done.map Prod.fst := by
    have hnodup := g.rules.nodup
    rw [h, List.map_append, List.nodup_append] at hnodup
    exact fun hmem => hnodup.2.2 symbol hmem symbol List.mem_cons_self rfl
  refine ⟨g.insert symbol (before ++ ⟨text, e.options⟩ :: after), ?_, ?_⟩
  · simp [setText?, hrule]
  · show setEntry symbol _ g.rules.entries = _
    rw [h, OrderedMap.setEntry_append_cons hkey]

end Grammar

namespace Normalization

structure Replacement where
  text : Word
  rule : Introduction

/-- Replacements with free symbols, whatever the order of the names in use. -/
structure Replacer where
  choose : List Word → Operand → Replacement
  free : ∀ taken x, (choose taken x).rule.symbol ∉ taken
  perm : ∀ taken taken' x, List.Perm taken taken' → choose taken x = choose taken' x

namespace Replacer

def group : Replacer where
  choose taken x :=
    let symbol := freshName taken groupName
    ⟨symbol ++ [x.operator.mark], ⟨x.text, symbol, [x.inner]⟩⟩
  free _ _ := freshName_not_mem _ _
  perm _ _ _ h := by rw [freshName_of_perm h]

def repetition : Replacer where
  choose taken x :=
    let symbol := freshName taken x.base
    ⟨symbol, ⟨x.text, symbol, operatorExpansions x.base symbol x.operator⟩⟩
  free _ _ := freshName_not_mem _ _
  perm _ _ _ h := by rw [freshName_of_perm h]

def replace (replacer : Replacer) (state : Word × Ledger) (x : Operand) : Word × Ledger :=
  let chosen := replacer.choose state.2.taken x
  (Word.replaceFirst x.text chosen.text state.1, state.2.add chosen.rule)

theorem replace_group : group.replace = replaceGroup :=
  rfl

theorem replace_repetition : repetition.replace = replaceRepetition :=
  rfl

def replaceInPlace (replacer : Replacer) (state : Word × Grammar) (x : Operand) :
    Option (Word × Grammar) :=
  let chosen := replacer.choose state.2.symbols x
  (state.2.define? chosen.rule.symbol chosen.rule.rule.2).map fun g =>
    (Word.replaceFirst x.text chosen.text state.1, g)

end Replacer

def groupRoundsInPlace : Nat → Word × Grammar → Option (Word × Grammar)
  | 0, state => some state
  | n + 1, state =>
      ((Operand.groups state.1).foldlM Replacer.group.replaceInPlace state).bind
        (groupRoundsInPlace n)

abbrev Rewriting := Grammar → Word → Option (Word × Grammar)

def rewriteGroups : Rewriting :=
  fun g text => groupRoundsInPlace (text.count '(') (text, g)

def rewriteRepetitions : Rewriting :=
  fun g text => (Operand.repetitions text).foldlM Replacer.repetition.replaceInPlace (text, g)

def alternativeInPlace (rewrite : Rewriting) (symbol : Word) (current : Grammar)
    (alternative : Expansion × Nat) : Option Grammar :=
  (rewrite current alternative.1.text).bind fun (text, next) =>
    next.setText? symbol alternative.2 text

def ruleInPlace (rewrite : Rewriting) (current : Grammar) (rule : Word × List Expansion) :
    Option Grammar :=
  rule.2.zipIdx.foldlM (alternativeInPlace rewrite rule.1) current

def passInPlace (rewrite : Rewriting) (g : Grammar) : Option Grammar :=
  g.rules.entries.foldlM (ruleInPlace rewrite) g

end Normalization

def Grammar.normalizeInPlace (g : Grammar) : Option Grammar :=
  (Normalization.passInPlace Normalization.rewriteGroups g).bind
    (Normalization.passInPlace Normalization.rewriteRepetitions)

namespace Normalization

/-!
## The copy under way
-/

/-- The copy holds rules for the symbols of a grammar, and the introduced rules behind them. -/
structure Ledger.Written (g : Grammar) (rules : List (Word × List Expansion)) (ledger : Ledger)
    (current : Grammar) : Prop where
  accounts : ledger.Accounts g
  symbols : rules.map Prod.fst = g.symbols
  entries : current.rules.entries = rules ++ ledger.introductions.map Introduction.rule

namespace Ledger

variable {g current : Grammar} {rules : List (Word × List Expansion)} {ledger : Ledger}

theorem written_ofGrammar (g : Grammar) : Written g g.rules.entries (ofGrammar g) g :=
  ⟨accounts_ofGrammar g, rfl, (List.append_nil _).symm⟩

theorem Written.perm (h : Written g rules ledger current) :
    List.Perm ledger.taken current.symbols := by
  have hsymbols : current.symbols =
      g.symbols ++ (ledger.introductions.map Introduction.rule).map Prod.fst := by
    rw [← h.symbols, ← List.map_append, ← h.entries]
    rfl
  rw [hsymbols]
  exact h.accounts.perm

theorem Written.define (h : Written g rules ledger current) {intro : Introduction}
    (hfresh : intro.symbol ∉ ledger.taken) :
    ∃ next, current.define? intro.symbol intro.rule.2 = some next ∧
      Written g rules (ledger.add intro) next := by
  have hfree : intro.symbol ∉ current.symbols := fun hmem => hfresh (h.perm.mem_iff.mpr hmem)
  rcases Grammar.define?_of_not_mem hfree intro.rule.2 with ⟨next, hdefine, hentries⟩
  refine ⟨next, hdefine, h.accounts.add hfresh, h.symbols, ?_⟩
  rw [hentries, h.entries, List.append_assoc]
  simp [introductions, Ledger.add, Introduction.rule]

theorem Written.setText {symbol : Word} {done rest : List (Word × List Expansion)}
    {before after : List Expansion} {e : Expansion}
    (h : Written g (done ++ (symbol, before ++ e :: after) :: rest) ledger current)
    (text : Word) :
    ∃ next, current.setText? symbol before.length text = some next ∧
      Written g (done ++ (symbol, before ++ ⟨text, e.options⟩ :: after) :: rest) ledger next := by
  have hentries := h.entries
  rw [List.append_assoc, List.cons_append] at hentries
  rcases Grammar.setText?_of_entries hentries text with ⟨next, hset, hnext⟩
  refine ⟨next, hset, h.accounts, ?_, ?_⟩
  · rw [← h.symbols, List.map_append, List.map_append]
    rfl
  · rw [hnext, List.append_assoc, List.cons_append]

end Ledger

/-!
## Passes over the copy
-/

section InPlace

variable {g : Grammar} {rules : List (Word × List Expansion)}

def Alongside (g : Grammar) (rules : List (Word × List Expansion)) (state : Word × Ledger)
    (state' : Word × Grammar) : Prop :=
  state'.1 = state.1 ∧ Ledger.Written g rules state.2 state'.2

theorem Alongside.replace {state : Word × Ledger} {state' : Word × Grammar}
    (h : Alongside g rules state state') (replacer : Replacer) (x : Operand) :
    ∃ next, replacer.replaceInPlace state' x = some next ∧
      Alongside g rules (replacer.replace state x) next := by
  have hchosen := replacer.perm _ _ x h.2.perm
  rcases h.2.define (replacer.free state.2.taken x) with ⟨next, hdefine, hnext⟩
  refine ⟨(Word.replaceFirst x.text (replacer.choose state.2.taken x).text state.1, next), ?_,
    rfl, hnext⟩
  rw [Replacer.replaceInPlace, ← hchosen, hdefine, h.1]
  rfl

theorem Alongside.foldl {state : Word × Ledger} {state' : Word × Grammar}
    (h : Alongside g rules state state') (replacer : Replacer) (xs : List Operand) :
    ∃ next, xs.foldlM replacer.replaceInPlace state' = some next ∧
      Alongside g rules (xs.foldl replacer.replace state) next := by
  induction xs generalizing state state' with
  | nil => exact ⟨state', rfl, h⟩
  | cons x xs ih =>
      rcases h.replace replacer x with ⟨middle, hreplace, hmiddle⟩
      rcases ih hmiddle with ⟨next, hrest, hnext⟩
      refine ⟨next, ?_, hnext⟩
      rw [List.foldlM_cons, hreplace]
      exact hrest

theorem Alongside.groupRounds {state : Word × Ledger} {state' : Word × Grammar}
    (h : Alongside g rules state state') (n : Nat) :
    ∃ next, groupRoundsInPlace n state' = some next ∧
      Alongside g rules (Normalization.groupRounds n state) next := by
  induction n generalizing state state' with
  | zero => exact ⟨state', rfl, h⟩
  | succ n ih =>
      rcases h.foldl .group (Operand.groups state.1) with ⟨middle, hround, hmiddle⟩
      rw [Replacer.replace_group] at hmiddle
      rcases ih hmiddle with ⟨next, hrest, hnext⟩
      refine ⟨next, ?_, hnext⟩
      rw [groupRoundsInPlace, h.1, hround]
      exact hrest

/-- Rewriting a text comes to the same as converting the expansion. -/
def Rewriting.Performs (rewrite : Rewriting)
    (convert : Ledger → Expansion → Expansion × Ledger) : Prop :=
  ∀ g rules ledger current e, Ledger.Written g rules ledger current →
    (convert ledger e).1.options = e.options ∧
      ∃ next, rewrite current e.text = some ((convert ledger e).1.text, next) ∧
        Ledger.Written g rules (convert ledger e).2 next

theorem performs_rewriteGroups : Rewriting.Performs rewriteGroups replaceGroups := by
  intro g rules ledger current e h
  have hstart : Alongside g rules (e.text, ledger) (e.text, current) := ⟨rfl, h⟩
  rcases hstart.groupRounds (e.text.count '(') with ⟨⟨text, next⟩, hrounds, htext, hnext⟩
  cases htext
  exact ⟨rfl, next, hrounds, hnext⟩

theorem performs_rewriteRepetitions :
    Rewriting.Performs rewriteRepetitions replaceRepetitions := by
  intro g rules ledger current e h
  have hstart : Alongside g rules (e.text, ledger) (e.text, current) := ⟨rfl, h⟩
  rcases hstart.foldl .repetition (Operand.repetitions e.text) with
    ⟨⟨text, next⟩, hrun, htext, hnext⟩
  rw [Replacer.replace_repetition] at htext hnext
  cases htext
  exact ⟨rfl, next, hrun, hnext⟩

variable {rewrite : Rewriting} {convert : Ledger → Expansion → Expansion × Ledger}
  {ledger : Ledger} {current : Grammar} {done rest : List (Word × List Expansion)}

theorem written_alternative (hperforms : rewrite.Performs convert) {symbol : Word}
    {before after : List Expansion} {e : Expansion}
    (h : ledger.Written g (done ++ (symbol, before ++ e :: after) :: rest) current) :
    ∃ next, alternativeInPlace rewrite symbol current (e, before.length) = some next ∧
      (convert ledger e).2.Written g
        (done ++ (symbol, before ++ (convert ledger e).1 :: after) :: rest) next := by
  rcases hperforms _ _ _ _ e h with ⟨hoptions, middle, hrewrite, hmiddle⟩
  rcases hmiddle.setText (convert ledger e).1.text with ⟨next, hset, hnext⟩
  rw [← hoptions] at hnext
  refine ⟨next, ?_, hnext⟩
  rw [alternativeInPlace, hrewrite]
  exact hset

theorem written_alternatives (hperforms : rewrite.Performs convert) {symbol : Word}
    {before after : List Expansion}
    (h : ledger.Written g (done ++ (symbol, before ++ after) :: rest) current) :
    ∃ next, (after.zipIdx before.length).foldlM (alternativeInPlace rewrite symbol) current =
        some next ∧
      (mapAccum convert ledger after).2.Written g
        (done ++ (symbol, before ++ (mapAccum convert ledger after).1) :: rest) next := by
  induction after generalizing before ledger current with
  | nil => exact ⟨current, rfl, h⟩
  | cons e after ih =>
      rcases written_alternative hperforms h with ⟨middle, hfirst, hmiddle⟩
      rw [List.append_cons before] at hmiddle
      rcases ih hmiddle with ⟨next, hrest, hnext⟩
      rw [List.append_assoc, List.singleton_append] at hnext
      rw [List.length_append, List.length_singleton] at hrest
      refine ⟨next, ?_, hnext⟩
      rw [List.zipIdx_cons, List.foldlM_cons, hfirst]
      exact hrest

theorem written_rule (hperforms : rewrite.Performs convert) {rule : Word × List Expansion}
    (h : ledger.Written g (done ++ rule :: rest) current) :
    ∃ next, ruleInPlace rewrite current rule = some next ∧
      (ruleStep convert ledger rule).2.Written g
        (done ++ (ruleStep convert ledger rule).1 :: rest) next :=
  @written_alternatives _ _ _ _ _ _ _ hperforms rule.1 [] rule.2 h

theorem written_rules (hperforms : rewrite.Performs convert)
    (h : ledger.Written g (done ++ rest) current) :
    ∃ next, rest.foldlM (ruleInPlace rewrite) current = some next ∧
      (mapAccum (ruleStep convert) ledger rest).2.Written g
        (done ++ (mapAccum (ruleStep convert) ledger rest).1) next := by
  induction rest generalizing done ledger current with
  | nil => exact ⟨current, rfl, h⟩
  | cons rule rest ih =>
      rcases written_rule hperforms h with ⟨middle, hfirst, hmiddle⟩
      rw [List.append_cons done] at hmiddle
      rcases ih hmiddle with ⟨next, hrest, hnext⟩
      rw [List.append_assoc, List.singleton_append] at hnext
      refine ⟨next, ?_, hnext⟩
      rw [List.foldlM_cons, hfirst]
      exact hrest

theorem passInPlace_eq (hperforms : rewrite.Performs convert) (g : Grammar) :
    passInPlace rewrite g = some (pass convert g).1 := by
  have hstart := Ledger.written_ofGrammar g
  rcases @written_rules _ _ _ _ _ [] _ hperforms hstart with ⟨next, hrun, hnext⟩
  have hsame : next = (pass convert g).1 := by
    apply Grammar.eq_of_entries_eq
    rw [entries_pass hnext.accounts]
    exact hnext.entries
  rw [passInPlace, hrun, hsame]

end InPlace

end Normalization

theorem Grammar.normalizeInPlace_eq (g : Grammar) : g.normalizeInPlace = some g.normalize := by
  rw [normalizeInPlace, Normalization.passInPlace_eq Normalization.performs_rewriteGroups]
  exact Normalization.passInPlace_eq Normalization.performs_rewriteRepetitions _

/-!
## Old rules at their old places
-/

theorem forall₂_comp {α β γ : Type} {first : α → β → Prop} {second : β → γ → Prop}
    {both : α → γ → Prop} (hboth : ∀ a b c, first a b → second b c → both a c) {xs : List α}
    {ys : List β} {zs : List γ} (h : List.Forall₂ first xs ys) (h' : List.Forall₂ second ys zs) :
    List.Forall₂ both xs zs := by
  induction h generalizing zs with
  | nil =>
      cases h'
      exact .nil
  | cons hab _ ih =>
      cases h' with
      | cons hbc hrest => exact .cons (hboth _ _ _ hab hbc) (ih hrest)

structure Expansion.Keeps (untouched : Word → Prop) (e e' : Expansion) : Prop where
  options : e'.options = e.options
  text : untouched e.text → e'.text = e.text

section Trans

variable {first second both : Word → Prop}

theorem Expansion.Keeps.trans (hboth : ∀ text, both text → first text ∧ second text)
    {e e' e'' : Expansion} (h : e.Keeps first e') (h' : e'.Keeps second e'') :
    e.Keeps both e'' := by
  refine ⟨h'.options.trans h.options, fun htext => ?_⟩
  have hsame := h.text (hboth _ htext).1
  exact (h'.text (hsame ▸ (hboth _ htext).2)).trans hsame

namespace Grammar

def KeepsRule (untouched : Word → Prop) (old new : Word × List Expansion) : Prop :=
  new.1 = old.1 ∧ List.Forall₂ (Expansion.Keeps untouched) old.2 new.2

def Keeps (untouched : Word → Prop) (g result : Grammar) : Prop :=
  ∃ kept further, result.rules.entries = kept ++ further ∧
    List.Forall₂ (KeepsRule untouched) g.rules.entries kept ∧
    ∀ rule ∈ further, ∀ e ∈ rule.2, e.options = .empty

variable {g g' g'' : Grammar}

theorem Keeps.trans (hboth : ∀ text, both text → first text ∧ second text)
    (h : g.Keeps first g') (h' : g'.Keeps second g'') : g.Keeps both g'' := by
  rcases h with ⟨kept, further, hentries, hkept, hfurther⟩
  rcases h' with ⟨kept', further', hentries', hkept', hfurther'⟩
  rw [hentries] at hkept'
  have hold := (List.forall₂_take_append _ _ _ hkept'.flip).flip
  have hnew := (List.forall₂_drop_append _ _ _ hkept'.flip).flip
  refine ⟨kept'.take kept.length, kept'.drop kept.length ++ further', ?_, ?_, ?_⟩
  · rw [← List.append_assoc, List.take_append_drop, hentries']
  · refine forall₂_comp (fun _ _ _ hrule hrule' => ?_) hkept hold
    exact ⟨hrule'.1.trans hrule.1, forall₂_comp (fun _ _ _ => .trans hboth) hrule.2 hrule'.2⟩
  · intro rule hrule
    rcases List.mem_append.mp hrule with hrule | hrule
    · -- The second pass rewrites the rules that the first one has added.
      rcases exists_mem_left_of_forall₂ hnew hrule with ⟨rule', hrule', _, hexpansions⟩
      intro e he
      rcases exists_mem_left_of_forall₂ hexpansions he with ⟨e', he', hkeeps⟩
      rw [hkeeps.options]
      exact hfurther rule' hrule' e' he'
    · exact hfurther' rule hrule

theorem not_mem_of_further {untouched : Word → Prop} {kept further : List (Word × List Expansion)}
    (hentries : g'.rules.entries = kept ++ further)
    (hkept : List.Forall₂ (KeepsRule untouched) g.rules.entries kept)
    {rule : Word × List Expansion} (hrule : rule ∈ further) : rule.1 ∉ g.symbols := by
  intro hmem
  rcases List.mem_map.mp hmem with ⟨old, hold, hsymbol⟩
  rcases exists_mem_right_of_forall₂ hkept hold with ⟨new, hnew, hkeeps⟩
  have hnodup := g'.rules.nodup
  rw [hentries, List.map_append, List.nodup_append] at hnodup
  exact hnodup.2.2 new.1 (List.mem_map_of_mem hnew) rule.1 (List.mem_map_of_mem hrule)
    (hkeeps.1.trans hsymbol)

end Grammar

end Trans

namespace Normalization

variable {g : Grammar} {keeps : Word → Word → Prop} {untouched : Word → Prop}
  {convert : Ledger → Expansion → Expansion × Ledger}

theorem keeps_pass (hcarrying : Carrying keeps convert)
    (h : ∀ (e : Expansion) ledger, e.Keeps untouched (convert ledger e).1) :
    g.Keeps untouched (pass convert g).1 := by
  have hadds : ∀ e ∈ g.expansions, ∀ ledger,
      Ledger.Adds (fun intro => intro.expansions ≠ []) ledger (convert ledger e).2 ∧
        e.Keeps untouched (convert ledger e).1 := by
    intro e _ ledger
    rcases hcarrying ledger e with ⟨_, _, hcarries⟩
    exact ⟨hcarries.adds, h e ledger⟩
  have houtcome : Outcome (fun _ => Expansion.Keeps untouched) g (pass convert g).1
      (pass convert g).2 :=
    (outcome_of_adds hadds).1
  rcases houtcome.rules with ⟨kept, hentries, hkept⟩
  refine ⟨kept, _, hentries, hkept, ?_⟩
  intro rule hrule e he
  rcases List.mem_map.mp hrule with ⟨intro, _, rfl⟩
  rcases List.mem_map.mp he with ⟨text, _, rfl⟩
  rfl

theorem keeps_groupPass (g : Grammar) :
    g.Keeps (fun text => Operand.groups text = []) (groupPass g).1 := by
  refine keeps_pass carrying_replaceGroups fun e ledger => ⟨rfl, fun hgroups => ?_⟩
  rw [replaceGroups_of_groups_eq_nil hgroups]

theorem keeps_operatorPass (g : Grammar) :
    g.Keeps (fun text => Operand.repetitions text = []) (operatorPass g).1 := by
  refine keeps_pass carrying_replaceRepetitions fun e ledger => ⟨rfl, fun hrepetitions => ?_⟩
  rw [replaceRepetitions, hrepetitions]
  rfl

end Normalization

/--
Normalization keeps the rules of a grammar at their places and the expansions at theirs,
with their options and, if they contain no operand, with their texts.  All further rules
stand behind them, under new names and without options.  Written into a copy at once, the
rules come to the same grammar, and neither is a symbol defined twice on the way nor an
index missed.  A grammar without operands is left as it is.
-/
theorem Grammar.normalize_frame (g : Grammar) :
    (∃ kept further, g.normalize.rules.entries = kept ++ further ∧
      List.Forall₂ (KeepsRule IsPure) g.rules.entries kept ∧
      ∀ rule ∈ further, rule.1 ∉ g.symbols ∧ ∀ e ∈ rule.2, e.options = .empty) ∧
    g.normalizeInPlace = some g.normalize ∧
    ((∀ e ∈ g.expansions, IsPure e.text) → g.normalize = g) := by
  refine ⟨?_, g.normalizeInPlace_eq, fun hpure => ?_⟩
  · have hkeeps : g.Keeps IsPure g.normalize :=
      .trans (fun _ hpure => ⟨hpure.groups, hpure.repetitions⟩)
        (Normalization.keeps_groupPass g) (Normalization.keeps_operatorPass _)
    rcases hkeeps with ⟨kept, further, hentries, hkept, hfurther⟩
    refine ⟨kept, further, hentries, hkept, fun rule hrule => ⟨?_, hfurther rule hrule⟩⟩
    exact not_mem_of_further hentries hkept hrule
  · exact congrArg Prod.fst (Normalization.run_of_pure hpure)

def scatteredGrammar : Grammar :=
  .ofRules [(startSymbol, [⟨.ofString "(<a> ?<a>(", .empty⟩, ⟨.ofString ")*<b c>+", .empty⟩]),
    (.ofString "<a>", [⟨.ofString "x+", .ofList [(.ofString "weight", .int 2)]⟩])]

theorem scatteredGrammar_normalize_frame :
    (∀ e ∈ scatteredGrammar.expansions, IsPure e.text) ∧
      scatteredGrammar.normalize = scatteredGrammar ∧
      scatteredGrammar.normalizeInPlace = some scatteredGrammar := by
  have hnone : ∀ e ∈ scatteredGrammar.expansions,
      Operand.groups e.text = [] ∧ Operand.repetitions e.text = [] := by
    decide
  have hpure : ∀ e ∈ scatteredGrammar.expansions, IsPure e.text :=
    fun e he => ⟨(hnone e he).1, (hnone e he).2⟩
  have h := Grammar.normalize_frame scatteredGrammar
  have hsame := h.2.2 hpure
  exact ⟨hpure, hsame, hsame ▸ h.2.1⟩

end GrammarFuzz
