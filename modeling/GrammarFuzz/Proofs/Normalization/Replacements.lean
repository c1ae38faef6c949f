import GrammarFuzz.Proofs.Normalization.FreshNames
import GrammarFuzz.Proofs.Normalization.Operands
import Mathlib.Data.List.Perm.Subperm
import Mathlib.Logic.Relation

/-!
# Conversions as sequences of replacements

Both passes collect the operands of a text first and replace them one after the other
in a text that changes underneath them.  A replacement leaves all other operands in
place, so that each of the collected ones still stands in the text when its turn comes.
The conversion of a text is therefore a sequence of steps, each of which replaces an
operand by a fresh symbol, and what a step preserves is preserved by the conversion.
-/

namespace GrammarFuzz
namespace Normalization

def groupRule (inner : Word) (op : Operator) (name : Word) : Introduction :=
  ⟨(Operand.mk .round inner op).text, Brackets.angle.enclose name, [inner]⟩

def operatorRule (base : Word) (op : Operator) (symbol : Word) : Introduction :=
  ⟨(Operand.mk .angle base op).text, Brackets.angle.enclose symbol,
    operatorExpansions (Brackets.angle.enclose base) (Brackets.angle.enclose symbol) op⟩

/-- A group in the text gives way to a fresh non-terminal under the same operator. -/
inductive GroupStep : Word × Ledger → Word × Ledger → Prop
  | replace {u v inner name : Word} {op : Operator} {ledger : Ledger} :
      Brackets.round.Fits inner → Brackets.angle.Fits name → Brackets.round.Fits name →
      freshName ledger.taken groupName = Brackets.angle.enclose name →
      GroupStep (u ++ ((Operand.mk .round inner op).text ++ v), ledger)
        (u ++ ((Operand.mk .angle name op).text ++ v),
          ledger.add (groupRule inner op name))

inductive RepetitionStep : Word × Ledger → Word × Ledger → Prop
  | replace {u v base name : Word} {op : Operator} {ledger : Ledger} :
      Brackets.angle.Fits base → Brackets.angle.Fits name →
      freshName ledger.taken (Brackets.angle.enclose base) = Brackets.angle.enclose name →
      RepetitionStep (u ++ ((Operand.mk .angle base op).text ++ v), ledger)
        (u ++ (Brackets.angle.enclose name ++ v), ledger.add (operatorRule base op name))

section Steps

variable {state : Word × Ledger} {x : Operand}

theorem groupStep_of_mem (hx : x ∈ Operand.groups state.1) :
    GroupStep state (replaceGroup state x) := by
  rcases x with ⟨b, inner, op⟩
  have hround := Operand.brackets_of_mem_allIn hx
  have hinner := Operand.fits_of_mem_allIn hx
  dsimp only at hround hinner
  subst hround
  rcases exists_freshName_groupName state.2.taken with ⟨name, hname, hangle, hfits⟩
  rcases Operand.exists_replaceFirst rfl hx (Brackets.angle.enclose name ++ [op.mark]) with
    ⟨u, v, htext, hnew, _⟩
  rcases state with ⟨text, ledger⟩
  dsimp only at htext hname hnew
  rw [replaceGroup, hname, hnew, htext]
  exact .replace hinner hangle hfits hname

theorem repetitionStep_of_mem (hx : x ∈ Operand.repetitions state.1) :
    RepetitionStep state (replaceRepetition state x) := by
  rcases x with ⟨b, base, op⟩
  have hangle := Operand.brackets_of_mem_allIn hx
  have hbase := Operand.fits_of_mem_allIn hx
  dsimp only at hangle hbase
  subst hangle
  rcases exists_freshName_eq state.2.taken base with ⟨name, hname, hfits, _⟩
  rcases Operand.exists_replaceFirst rfl hx (Brackets.angle.enclose name) with
    ⟨u, v, htext, hnew, _⟩
  rcases state with ⟨text, ledger⟩
  dsimp only at htext hname hnew
  rw [replaceRepetition, Operand.base, hname, hnew, htext]
  exact .replace hbase (hfits hbase) hname

end Steps

/-!
## Operands collected in advance
-/

section Run

variable {b : Brackets} {Step : Word × Ledger → Word × Ledger → Prop}
  {replace : Word × Ledger → Operand → Word × Ledger}

/-- Replacing an operand leaves the others in the text, each as often as before. -/
theorem subperm_of_cons (hb : Operator.ofMark? b.opening = none) {x : Operand}
    {xs : List Operand} {text : Word} (hxs : List.Subperm (x :: xs) (Operand.allIn b text))
    (new : Word) :
    List.Subperm xs (Operand.allIn b (Word.replaceFirst x.text new text)) := by
  have hx : x ∈ Operand.allIn b text := hxs.subset List.mem_cons_self
  rcases Operand.exists_replaceFirst hb hx new with ⟨u, v, _, hreplaced, hold, hleft⟩
  rw [hold] at hxs
  rw [hreplaced]
  have hrest := (List.subperm_cons x).mp (hxs.trans List.perm_middle.subperm)
  exact hrest.trans hleft.subperm

theorem run_foldl (hb : Operator.ofMark? b.opening = none)
    (hreplace : ∀ state x, ∃ new, (replace state x).1 = Word.replaceFirst x.text new state.1)
    (hstep : ∀ state x, x ∈ Operand.allIn b state.1 → Step state (replace state x))
    {xs : List Operand} {state : Word × Ledger}
    (hxs : List.Subperm xs (Operand.allIn b state.1)) :
    Relation.ReflTransGen Step state (xs.foldl replace state) := by
  induction xs generalizing state with
  | nil => exact .refl
  | cons x xs ih =>
      have hx : x ∈ Operand.allIn b state.1 := hxs.subset List.mem_cons_self
      refine .head (hstep state x hx) (ih ?_)
      rcases hreplace state x with ⟨new, hnew⟩
      rw [hnew]
      exact subperm_of_cons hb hxs new

theorem run_foldl_replaceGroup {xs : List Operand} {state : Word × Ledger}
    (hxs : List.Subperm xs (Operand.groups state.1)) :
    Relation.ReflTransGen GroupStep state (xs.foldl replaceGroup state) :=
  run_foldl rfl (fun _ _ => ⟨_, rfl⟩) (fun _ _ => groupStep_of_mem) hxs

theorem run_groupRound (state : Word × Ledger) :
    Relation.ReflTransGen GroupStep state (groupRound state) :=
  run_foldl_replaceGroup (List.Subperm.refl _)

theorem run_groupRounds (n : Nat) (state : Word × Ledger) :
    Relation.ReflTransGen GroupStep state (groupRounds n state) := by
  induction n generalizing state with
  | zero => exact .refl
  | succ n ih => exact (run_groupRound state).trans (ih (groupRound state))

theorem run_replaceGroups (ledger : Ledger) (e : Expansion) :
    Relation.ReflTransGen GroupStep (e.text, ledger)
      ((replaceGroups ledger e).1.text, (replaceGroups ledger e).2) :=
  run_groupRounds _ _

theorem run_replaceRepetitions (ledger : Ledger) (e : Expansion) :
    Relation.ReflTransGen RepetitionStep (e.text, ledger)
      ((replaceRepetitions ledger e).1.text, (replaceRepetitions ledger e).2) :=
  run_foldl rfl (fun _ _ => ⟨_, rfl⟩) (fun _ _ => repetitionStep_of_mem) (List.Subperm.refl _)

end Run

/-!
## The end of the rounds
-/

theorem GroupStep.count {state state' : Word × Ledger} (h : GroupStep state state') :
    state'.1.count '(' + 1 = state.1.count '(' := by
  cases h with
  | @replace u v inner name op ledger hinner hangle hround hname =>
      have hnew : (Operand.mk .angle name op).text.count '(' = 0 := by
        simp [Operand.text, Operand.base, Brackets.enclose, Brackets.angle, List.count_eq_zero,
          (fits_round_iff.mp hround).1, op.mark_ne.2.2.1.symm]
      have hold : (Operand.mk .round inner op).text.count '(' = 1 := by
        simp [Operand.text, Operand.base, Brackets.enclose, Brackets.round, List.count_eq_zero,
          (fits_round_iff.mp hinner).1, op.mark_ne.2.2.1]
      simp only [List.count_append] at hnew hold ⊢
      omega

theorem GroupStep.count_lt {state state' : Word × Ledger} (h : GroupStep state state') :
    state'.1.count '(' < state.1.count '(' := by
  rw [← h.count]
  exact Nat.lt_succ_self _

theorem count_le_of_run {state state' : Word × Ledger}
    (h : Relation.ReflTransGen GroupStep state state') :
    state'.1.count '(' ≤ state.1.count '(' := by
  induction h with
  | refl => exact Nat.le_refl _
  | tail _ hstep ih => exact Nat.le_trans (Nat.le_of_lt hstep.count_lt) ih

theorem groups_eq_nil_of_count {text : Word} (h : text.count '(' = 0) :
    Operand.groups text = [] := by
  apply List.eq_nil_iff_forall_not_mem.mpr
  intro x hx
  rcases Operand.exists_of_mem_allIn hx with ⟨u, v, htext⟩
  apply List.count_eq_zero.mp h
  rw [htext, Operand.text, Operand.base, Operand.brackets_of_mem_allIn hx]
  simp [Brackets.enclose, Brackets.round]

theorem groupRounds_of_groups_eq_nil {state : Word × Ledger}
    (h : Operand.groups state.1 = []) (n : Nat) : groupRounds n state = state := by
  induction n with
  | zero => rfl
  | succ n ih =>
      have hround : groupRound state = state := by
        rw [groupRound, h]
        rfl
      rw [groupRounds, hround, ih]

theorem replaceGroups_of_groups_eq_nil {ledger : Ledger} {e : Expansion}
    (h : Operand.groups e.text = []) : replaceGroups ledger e = (e, ledger) := by
  rw [replaceGroups, groupRounds_of_groups_eq_nil h]

theorem count_groupRound_lt {state : Word × Ledger} (h : Operand.groups state.1 ≠ []) :
    (groupRound state).1.count '(' < state.1.count '(' := by
  rcases List.exists_cons_of_ne_nil h with ⟨x, xs, hgroups⟩
  have hx : x ∈ Operand.groups state.1 := by simp [hgroups]
  have hxs : List.Subperm (x :: xs) (Operand.groups state.1) := by
    rw [hgroups]
  have hrun : Relation.ReflTransGen GroupStep (replaceGroup state x) (groupRound state) := by
    rw [groupRound, hgroups]
    exact run_foldl_replaceGroup (subperm_of_cons rfl hxs _)
  exact Nat.lt_of_le_of_lt (count_le_of_run hrun) (groupStep_of_mem hx).count_lt

theorem groups_groupRounds {n : Nat} {state : Word × Ledger} (hn : state.1.count '(' ≤ n) :
    Operand.groups (groupRounds n state).1 = [] := by
  induction n generalizing state with
  | zero => exact groups_eq_nil_of_count (Nat.le_zero.mp hn)
  | succ n ih =>
      by_cases hgroups : Operand.groups state.1 = []
      · rw [groupRounds_of_groups_eq_nil hgroups]
        exact hgroups
      · have hlt := count_groupRound_lt hgroups
        exact ih (by omega)

theorem groups_replaceGroups (ledger : Ledger) (e : Expansion) :
    Operand.groups (replaceGroups ledger e).1.text = [] :=
  groups_groupRounds (Nat.le_refl _)

end Normalization
end GrammarFuzz
