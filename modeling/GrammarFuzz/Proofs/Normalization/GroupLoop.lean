import GrammarFuzz.Proofs.Normalization.Frame
import GrammarFuzz.Proofs.Normalization.Slices
import Mathlib.Algebra.Order.BigOperators.Group.List
import Mathlib.Algebra.Order.Ring.Nat

/-!
# The loop over groups

The loop over the groups of a text goes on until a round finds none.  A round collects the
texts of the groups first and then replaces them one by one, each at its first occurrence in a
text that has changed by then.  None of them is missing when its turn comes, and none is
replaced for nothing: each replacement takes one opening parenthesis out of the text and adds
one rule, whose expansion has none.  This bounds the number of rounds and, over a whole
grammar, makes the parentheses that are left and the rules that are added as many as the
parentheses that were there.
-/

namespace GrammarFuzz

namespace Word

theorem occursIn_append (u x v : Word) : occursIn x (u ++ (x ++ v)) = true := by
  have hlead : ∀ w, x ++ v = w → occursIn x w = true := by
    intro w hw
    cases w with
    | nil => exact List.isEmpty_iff.mpr (List.append_eq_nil_iff.mp hw).1
    | cons c w =>
        have hdrop := dropLead?_append x v
        rw [hw] at hdrop
        rw [occursIn, hdrop]
        rfl
  induction u with
  | nil => exact hlead _ rfl
  | cons c u ih => rw [List.cons_append, occursIn, ih, Bool.or_true]

def replaceOccurring? (old new text : Word) : Option Word :=
  if occursIn old text then some (replaceFirst old new text) else none

end Word

namespace Normalization

/-!
## Rounds on texts
-/

def replaceGroupText? (state : Word × Grammar) (group : Word) : Option (Word × Grammar) := do
  let (operator, content) ← splitGroup? group
  let symbol := freshName state.2.symbols groupName
  let text ← Word.replaceOccurring? group (symbol ++ [operator]) state.1
  let g ← state.2.define? symbol [⟨content, .empty⟩]
  return (text, g)

/-- The loop over the groups of a text ends, no replacement in any of its rounds failing. -/
inductive GroupLoop : Word × Grammar → Word × Grammar → Prop
  | done {state : Word × Grammar} : Operand.groups state.1 = [] → GroupLoop state state
  | round {state next final : Word × Grammar} : Operand.groups state.1 ≠ [] →
      ((Operand.groups state.1).map Operand.text).foldlM replaceGroupText? state = some next →
      GroupLoop next final → GroupLoop state final

theorem GroupLoop.unique {state final final' : Word × Grammar} (h : GroupLoop state final)
    (h' : GroupLoop state final') : final = final' := by
  induction h with
  | done hnone =>
      cases h' with
      | done _ => rfl
      | round hsome _ _ => exact absurd hnone hsome
  | round hsome hround _ ih =>
      cases h' with
      | done hnone => exact absurd hnone hsome
      | round _ hround' hrest =>
          rw [hround] at hround'
          cases hround'
          exact ih hrest

theorem replaceGroupText?_text {state : Word × Grammar} {x : Operand}
    (hx : x ∈ Operand.groups state.1) :
    replaceGroupText? state x.text = Replacer.group.replaceInPlace state x := by
  have hoccurs : Word.occursIn x.text state.1 = true := by
    rcases Operand.exists_of_mem_allIn hx with ⟨u, v, htext⟩
    rw [htext]
    exact Word.occursIn_append u x.text v
  rw [replaceGroupText?, splitGroup?_text hx, Replacer.replaceInPlace]
  dsimp only [Option.bind_eq_bind, Option.bind_some]
  rw [Word.replaceOccurring?, if_pos hoccurs, Option.map_eq_bind]
  rfl

section Loop

variable {g : Grammar} {rules : List (Word × List Expansion)} {state : Word × Ledger}
  {state' : Word × Grammar}

theorem Alongside.replaceTexts (h : Alongside g rules state state') {xs : List Operand}
    (hxs : List.Subperm xs (Operand.groups state.1)) :
    ∃ next, (xs.map Operand.text).foldlM replaceGroupText? state' = some next ∧
      Alongside g rules (xs.foldl replaceGroup state) next := by
  induction xs generalizing state state' with
  | nil => exact ⟨state', rfl, h⟩
  | cons x xs ih =>
      have hx : x ∈ Operand.groups state'.1 := h.1 ▸ hxs.subset List.mem_cons_self
      rcases h.replace .group x with ⟨middle, hreplace, hmiddle⟩
      rw [Replacer.replace_group] at hmiddle
      rcases ih hmiddle (subperm_of_cons rfl hxs _) with ⟨next, hrest, hnext⟩
      refine ⟨next, ?_, hnext⟩
      rw [List.map_cons, List.foldlM_cons, replaceGroupText?_text hx, hreplace]
      exact hrest

theorem Alongside.groupLoop (h : Alongside g rules state state') {n : Nat}
    (hn : state.1.count '(' ≤ n) :
    ∃ final, GroupLoop state' final ∧
      Alongside g rules (Normalization.groupRounds n state) final := by
  -- Only a round that finds a group is a round of the loop, and it uses up a parenthesis.
  induction n generalizing state state' with
  | zero =>
      have hnone := groups_eq_nil_of_count (Nat.le_zero.mp hn)
      exact ⟨state', .done (h.1 ▸ hnone), h⟩
  | succ n ih =>
      by_cases hgroups : Operand.groups state.1 = []
      · refine ⟨state', .done (h.1 ▸ hgroups), ?_⟩
        rwa [groupRounds_of_groups_eq_nil hgroups]
      · have hlt := count_groupRound_lt hgroups
        rcases h.replaceTexts (List.Subperm.refl _) with ⟨middle, hround, hmiddle⟩
        rcases ih hmiddle (Nat.le_of_lt_succ (Nat.lt_of_lt_of_le hlt hn)) with
          ⟨final, hrest, hfinal⟩
        rw [← h.1] at hround hgroups
        exact ⟨final, .round hgroups hround hrest, hfinal⟩

theorem Alongside.unique {final final' : Word × Grammar} (h : Alongside g rules state final)
    (h' : Alongside g rules state final') : final = final' :=
  Prod.ext (h.1.trans h'.1.symm)
    (Grammar.eq_of_entries_eq (h.2.entries.trans h'.2.entries.symm))

theorem exists_groupLoop_iff (copy : Grammar) (text : Word) :
    ∃ final, rewriteGroups copy text = some final ∧
      ∀ other, GroupLoop (text, copy) other ↔ other = final := by
  have hstart : Alongside copy copy.rules.entries (text, .ofGrammar copy) (text, copy) :=
    ⟨rfl, Ledger.written_ofGrammar copy⟩
  rcases hstart.groupRounds (text.count '(') with ⟨final, hrounds, hfinal⟩
  rcases hstart.groupLoop (Nat.le_refl _) with ⟨final', hloop, hfinal'⟩
  have hsame := hfinal'.unique hfinal
  refine ⟨final, hrounds, fun other => ⟨fun hother => ?_, fun heq => ?_⟩⟩
  · exact (hother.unique hloop).trans hsame
  · rw [heq, ← hsame]
    exact hloop

theorem mem_groups_of_collected {done rest : List Operand} {x : Operand}
    (h : List.Subperm (done ++ x :: rest) (Operand.groups state.1)) :
    x ∈ Operand.groups (done.foldl replaceGroup state).1 := by
  induction done generalizing state with
  | nil => exact h.subset List.mem_cons_self
  | cons first done ih => exact ih (subperm_of_cons rfl h _)

theorem exists_replaceGroup {x : Operand} (hx : x ∈ Operand.groups state.1) :
    ∃ u v, state.1 = u ++ (x.text ++ v) ∧
      (replaceGroup state x).1 =
        u ++ (freshName state.2.taken groupName ++ x.operator.mark :: v) := by
  rcases Operand.exists_replaceFirst rfl hx
    (freshName state.2.taken groupName ++ [x.operator.mark]) with ⟨u, v, htext, hnew, _⟩
  refine ⟨u, v, htext, ?_⟩
  rw [List.append_assoc, List.singleton_append] at hnew
  exact hnew

end Loop

end Normalization

/-!
## Counting parentheses
-/

/-- What each step moves between its result and the accumulator is moved over a whole list. -/
theorem sum_mapAccum {α β σ : Type} {f : σ → α → β × σ} (before : α → Nat) (after : β → Nat)
    (moved : σ → Nat)
    (hf : ∀ s a, after (f s a).1 + moved (f s a).2 = before a + moved s) (s : σ) (xs : List α) :
    ((mapAccum f s xs).1.map after).sum + moved (mapAccum f s xs).2 =
      (xs.map before).sum + moved s := by
  induction xs generalizing s with
  | nil => rfl
  | cons a rest ih =>
      have hfirst := hf s a
      have hrest := ih (f s a).2
      simp only [mapAccum, List.map_cons, List.sum_cons]
      omega

def Expansion.openings (e : Expansion) : Nat :=
  e.text.count '('

def ruleOpenings (rule : Word × List Expansion) : Nat :=
  (rule.2.map Expansion.openings).sum

def Grammar.openings (g : Grammar) : Nat :=
  (g.rules.entries.map ruleOpenings).sum

namespace Normalization

variable {g : Grammar}

theorem GroupStep.balance {state state' : Word × Ledger} (h : GroupStep state state') :
    state'.1.count '(' + state'.2.newest.length = state.1.count '(' + state.2.newest.length := by
  have hadded : state'.2.newest.length = state.2.newest.length + 1 := by
    cases h with
    | replace _ _ _ _ => rfl
  rw [hadded, ← h.count]
  omega

theorem balance_of_run {state state' : Word × Ledger}
    (h : Relation.ReflTransGen GroupStep state state') :
    state'.1.count '(' + state'.2.newest.length = state.1.count '(' + state.2.newest.length := by
  induction h with
  | refl => rfl
  | tail _ hstep ih => exact hstep.balance.trans ih

theorem balance_replaceGroups (ledger : Ledger) (e : Expansion) :
    (replaceGroups ledger e).1.openings + (replaceGroups ledger e).2.newest.length =
      e.openings + ledger.newest.length :=
  balance_of_run (run_replaceGroups ledger e)

theorem balance_ruleStep (ledger : Ledger) (rule : Word × List Expansion) :
    ruleOpenings (ruleStep replaceGroups ledger rule).1 +
        (ruleStep replaceGroups ledger rule).2.newest.length =
      ruleOpenings rule + ledger.newest.length :=
  sum_mapAccum Expansion.openings Expansion.openings (fun ledger => ledger.newest.length)
    balance_replaceGroups ledger rule.2

theorem adds_replaceGroups (ledger : Ledger) (e : Expansion) :
    Ledger.Adds (fun intro => ∀ text ∈ intro.expansions, text.count '(' = 0) ledger
      (replaceGroups ledger e).2 := by
  refine (Ledger.adds_of_run (fun _ => True) ?_ (run_replaceGroups ledger e) trivial).2
  intro state state' hstep _
  refine ⟨trivial, ?_⟩
  cases hstep with
  | replace hinner _ _ hname =>
      refine Ledger.adds_add (not_mem_of_freshName hname) fun text htext => ?_
      cases List.mem_singleton.mp htext
      exact List.count_eq_zero.mpr (fits_round_iff.mp hinner).1

theorem accounts_finalLedger (g : Grammar) : (finalLedger replaceGroups g).Accounts g :=
  accounts_of_adds fun e _ ledger => adds_replaceGroups ledger e

theorem entries_groupPass (g : Grammar) :
    (groupPass g).1.rules.entries =
      keptRules replaceGroups g ++ (groupPass g).2.map Introduction.rule :=
  entries_pass (accounts_finalLedger g)

theorem size_groupPass (g : Grammar) :
    (groupPass g).1.size = g.size + (groupPass g).2.length := by
  have hkept : (keptRules replaceGroups g).length = g.size := by
    have hkeys := congrArg List.length (keys_keptRules replaceGroups g)
    rwa [List.length_map, Grammar.symbols, OrderedMap.keys, List.length_map] at hkeys
  have hentries := congrArg List.length (entries_groupPass g)
  rw [List.length_append, List.length_map, hkept] at hentries
  exact hentries

theorem count_introduced {intro : Introduction} (hintro : intro ∈ (groupPass g).2) :
    ∀ text ∈ intro.expansions, text.count '(' = 0 :=
  (@outcome_of_adds replaceGroups g _ (fun _ _ => True)
    fun e _ ledger => ⟨adds_replaceGroups ledger e, trivial⟩).2 intro hintro

theorem ruleOpenings_introduced {intro : Introduction} (hintro : intro ∈ (groupPass g).2) :
    ruleOpenings intro.rule = 0 := by
  refine List.sum_eq_zero fun n hn => ?_
  rcases List.mem_map.mp hn with ⟨e, he, rfl⟩
  rcases List.mem_map.mp he with ⟨text, htext, rfl⟩
  exact count_introduced hintro text htext

theorem openings_groupPass (g : Grammar) :
    (groupPass g).1.openings + (groupPass g).2.length = g.openings := by
  have hintroduced : (((groupPass g).2.map Introduction.rule).map ruleOpenings).sum = 0 := by
    refine List.sum_eq_zero fun n hn => ?_
    rcases List.mem_map.mp hn with ⟨rule, hrule, rfl⟩
    rcases List.mem_map.mp hrule with ⟨intro, hintro, rfl⟩
    exact ruleOpenings_introduced hintro
  have hkept : ((keptRules replaceGroups g).map ruleOpenings).sum +
      (finalLedger replaceGroups g).newest.length = g.openings :=
    sum_mapAccum ruleOpenings ruleOpenings (fun ledger : Ledger => ledger.newest.length)
      balance_ruleStep (Ledger.ofGrammar g) g.rules.entries
  have hlength : (groupPass g).2.length = (finalLedger replaceGroups g).newest.length :=
    List.length_reverse
  rw [Grammar.openings, entries_groupPass, List.map_append, List.sum_append, hintroduced,
    Nat.add_zero, hlength]
  exact hkept

/-!
## The pass
-/

theorem groups_of_mem_groupPass :
    ∀ e ∈ (groupPass g).1.expansions, Operand.groups e.text = [] :=
  @forall_expansions_of_adds replaceGroups g _ (fun text => Operand.groups text = [])
    (fun _ hkind text htext => groups_eq_nil_of_count (hkind text htext))
    fun e _ ledger => ⟨adds_replaceGroups ledger e, groups_replaceGroups ledger e⟩

theorem referenced_of_introduced {intro : Introduction} (hintro : intro ∈ (groupPass g).2) :
    ∃ e ∈ (groupPass g).1.expansions, intro.symbol ∈ e.references := by
  rcases exists_reaches_introduced carrying_replaceGroups hintro with
    ⟨symbol, hsymbol, hreaches⟩
  rcases hreaches.referenced with heq | hreferenced
  · have hnodup := (accounts_finalLedger g).nodup_append
    have hmem : intro.symbol ∈
        ((finalLedger replaceGroups g).introductions.map Introduction.rule).map Prod.fst :=
      List.mem_map_of_mem (f := Prod.fst) (List.mem_map_of_mem (f := Introduction.rule) hintro)
    have hold : intro.symbol ∈ g.symbols := heq ▸ OrderedMap.contains_iff.mp hsymbol
    exact absurd rfl ((List.nodup_append.mp hnodup).2.2 _ hold _ hmem)
  · exact hreferenced

/--
The loop over groups ends for every text and every copy of a grammar, and the pass that writes
into a copy comes to the same as the rounds.  A group that a round has collected is in the text
when its turn comes, and the fresh symbol takes its place, so that all introduced symbols are
referred to.  The parentheses that are left and the rules that are added are as many as the
parentheses that were there, and no groups are left.  Cutting the texts of operands at octets
never fails.
-/
theorem groupPass_exact (g : Grammar) :
    (∀ copy text, ∃ final, rewriteGroups copy text = some final ∧
      ∀ other, GroupLoop (text, copy) other ↔ other = final) ∧
    passInPlace rewriteGroups g = some (groupPass g).1 ∧
    (∀ state done x rest, Operand.groups state.1 = done ++ x :: rest →
      ∃ u v, (done.foldl replaceGroup state).1 = u ++ (x.text ++ v) ∧
        (replaceGroup (done.foldl replaceGroup state) x).1 =
          u ++ (freshName (done.foldl replaceGroup state).2.taken groupName ++
            x.operator.mark :: v)) ∧
    (∀ intro ∈ (groupPass g).2, ∃ e ∈ (groupPass g).1.expansions,
      intro.symbol ∈ e.references) ∧
    ((groupPass g).1.size = g.size + (groupPass g).2.length ∧
      (groupPass g).1.openings + (groupPass g).2.length = g.openings) ∧
    (∀ e ∈ (groupPass g).1.expansions, Operand.groups e.text = []) ∧
    ∀ text, (∀ x ∈ Operand.groups text, splitGroup? x.text = some (x.operator.mark, x.inner)) ∧
      ∀ x ∈ Operand.repetitions text, splitOperator? x.text = some (x.operator.mark, x.base) := by
  refine ⟨exists_groupLoop_iff, passInPlace_eq performs_rewriteGroups g, ?_,
    fun _ => referenced_of_introduced, ⟨size_groupPass g, openings_groupPass g⟩,
    groups_of_mem_groupPass, ?_⟩
  · intro state done x rest hgroups
    have hcollected : List.Subperm (done ++ x :: rest) (Operand.groups state.1) := by
      rw [hgroups]
    exact exists_replaceGroup (mem_groups_of_collected hcollected)
  · exact fun text => ⟨fun _ => splitGroup?_text, fun x _ => splitOperator?_text x⟩

def repeatedGroupGrammar : Grammar :=
  .ofRules [(startSymbol, [⟨.ofString "((é)?b)*(é)?(é)?", .empty⟩])]

theorem repeatedGroupGrammar_groupPass :
    (groupPass repeatedGroupGrammar).1.size = 5 ∧ repeatedGroupGrammar.openings = 4 ∧
      (groupPass repeatedGroupGrammar).1.openings = 0 ∧
      (∃ e ∈ (groupPass repeatedGroupGrammar).1.expansions,
        .ofString "<symbol>" ∈ e.references) ∧
      ∀ x ∈ Operand.groups (.ofString "(é)?"), splitGroup? x.text = some ('?', ['é']) := by
  have h := groupPass_exact repeatedGroupGrammar
  have hintroductions : (groupPass repeatedGroupGrammar).2.length = 4 := by decide
  have hopenings : repeatedGroupGrammar.openings = 4 := by decide
  have hfirst : ∃ intro ∈ (groupPass repeatedGroupGrammar).2,
      intro.symbol = .ofString "<symbol>" := by
    decide
  rcases h with ⟨_, _, _, hwritten, ⟨hsize, hbalance⟩, _, hsplit⟩
  rw [hintroductions] at hsize hbalance
  rcases hfirst with ⟨intro, hintro, hsymbol⟩
  refine ⟨hsize, hopenings, ?_, hsymbol ▸ hwritten intro hintro, fun x hx => ?_⟩
  · rw [hopenings] at hbalance
    exact Nat.add_right_cancel (hbalance.trans (Nat.zero_add 4).symm)
  · have hx' : x.operator.mark = '?' ∧ x.inner = ['é'] := by
      revert x
      decide
    rw [(hsplit _).1 x hx, hx'.1, hx'.2]

end Normalization
end GrammarFuzz
