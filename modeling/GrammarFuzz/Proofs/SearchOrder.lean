import GrammarFuzz.Proofs.Reachability
import Mathlib.Data.List.Induction
import Mathlib.Data.List.Nodup

/-!
# The order of the search

A depth-first walk lists a symbol in front of everything that it finds below the symbol, and
it goes below the symbols that are referred to in the order in which the expansions mention
them first.  Walks end, and their results are determined.  The search for reachable symbols
is such a walk from the start symbol, so that its order is known, and nothing depends on
the bound for its depth.
-/

namespace GrammarFuzz

/-!
## First occurrences
-/

/-- Whether some names are the elements of a list in the order of their first occurrence. -/
structure FirstOccurrences (words names : List Word) : Prop where
  mem_iff : ∀ x, x ∈ names ↔ x ∈ words
  ordered : names.Pairwise fun x y => words.idxOf x < words.idxOf y

theorem FirstOccurrences.nodup {words names : List Word} (h : FirstOccurrences words names) :
    names.Nodup := by
  refine List.Pairwise.imp ?_ h.ordered
  intro x y hlt heq
  rw [heq] at hlt
  exact Nat.lt_irrefl _ hlt

theorem FirstOccurrences.unique {words names names' : List Word}
    (h : FirstOccurrences words names) (h' : FirstOccurrences words names') : names = names' := by
  have hperm : names.Perm names' :=
    (List.perm_ext_iff_of_nodup h.nodup h'.nodup).mpr fun x =>
      (h.mem_iff x).trans (h'.mem_iff x).symm
  exact hperm.eq_of_pairwise (fun x y _ _ hxy hyx => absurd hxy (Nat.lt_asymm hyx)) h.ordered
    h'.ordered

theorem distinct_concat (words : List Word) (w : Word) :
    distinct (words ++ [w]) =
      if w ∈ words then distinct words else distinct words ++ [w] := by
  have hcontains : (distinct words).contains w = true ↔ w ∈ words := by
    rw [List.contains_iff_mem, mem_distinct]
  have hstep : distinct (words ++ [w]) =
      if (distinct words).contains w then distinct words else distinct words ++ [w] := by
    rw [distinct, List.foldl_append]
    rfl
  rw [hstep]
  exact if_congr hcontains rfl rfl

theorem firstOccurrences_distinct (words : List Word) :
    FirstOccurrences words (distinct words) := by
  refine ⟨fun x => mem_distinct, ?_⟩
  induction words using List.reverseRec with
  | nil => exact .nil
  | append_singleton words w ih =>
      have hold : (distinct words).Pairwise fun x y =>
          (words ++ [w]).idxOf x < (words ++ [w]).idxOf y := by
        refine ih.imp_of_mem fun {x y} hx hy hlt => ?_
        rw [List.idxOf_append_of_mem (mem_distinct.mp hx),
          List.idxOf_append_of_mem (mem_distinct.mp hy)]
        exact hlt
      rw [distinct_concat]
      split
      · exact hold
      · rename_i hw
        rw [List.pairwise_append]
        refine ⟨hold, List.pairwise_singleton _ _, ?_⟩
        intro x hx y hy
        cases List.mem_singleton.mp hy
        rw [List.idxOf_append_of_mem (mem_distinct.mp hx), List.idxOf_append_of_notMem hw]
        exact Nat.lt_of_lt_of_le (List.idxOf_lt_length_of_mem (mem_distinct.mp hx))
          (Nat.le_add_right _ _)

namespace Grammar

variable {g : Grammar}

def mentions (g : Grammar) (symbol : Word) : List Word :=
  ((g.expansions? symbol).getD []).flatMap Expansion.references

theorem successors_eq (g : Grammar) (symbol : Word) :
    g.successors symbol = distinct (g.mentions symbol) := by
  rw [successors, mentions]
  cases g.expansions? symbol with
  | none => rfl
  | some alternatives => rfl

/-!
## Walks
-/

/--
What a depth-first walk from some roots lists in preorder, if some symbols have been seen
before.  A root that has been seen is passed over.  Any other root is entered: it comes
first, then what is found below it, then what is found from the other roots.
-/
inductive Walk (g : Grammar) : List Word → List Word → List Word → Prop
  | done {seen : List Word} : Walk g seen [] []
  | passed {seen roots listed : List Word} {root : Word} :
      root ∈ seen → Walk g seen roots listed → Walk g seen (root :: roots) listed
  | entered {seen roots names below listed : List Word} {root : Word} :
      root ∉ seen → FirstOccurrences (g.mentions root) names →
      Walk g (seen ++ [root]) names below →
      Walk g (seen ++ root :: below) roots listed →
      Walk g seen (root :: roots) (root :: (below ++ listed))

namespace Walk

variable {seen roots listed listed' : List Word} {root : Word}

theorem cons (h : Walk g seen [root] listed) (h' : Walk g (seen ++ listed) roots listed') :
    Walk g seen (root :: roots) (listed ++ listed') := by
  cases h with
  | passed hseen hrest =>
      cases hrest with
      | done => exact .passed hseen (by simpa using h')
  | entered hseen hnames hbelow hrest =>
      cases hrest with
      | done =>
          rw [List.append_nil] at h' ⊢
          exact .entered hseen hnames hbelow h'

theorem nodup (h : Walk g seen roots listed) : listed.Nodup ∧ ∀ x ∈ listed, x ∉ seen := by
  induction h with
  | done => exact ⟨List.nodup_nil, fun _ hx => (List.not_mem_nil hx).elim⟩
  | passed _ _ ih => exact ih
  | @entered seen roots names below listed root hroot _ _ _ ihbelow ihrest =>
      have hbelow : ∀ x ∈ below, x ∉ seen ∧ x ≠ root := by
        simpa using ihbelow.2
      have hrest : ∀ x ∈ listed, x ∉ seen ∧ x ≠ root ∧ x ∉ below := by
        simpa using ihrest.2
      constructor
      · rw [List.nodup_cons, List.nodup_append, List.mem_append, not_or]
        refine ⟨⟨fun hmem => (hbelow root hmem).2 rfl, fun hmem => (hrest root hmem).2.1 rfl⟩,
          ihbelow.1, ihrest.1, ?_⟩
        intro x hx y hy heq
        exact (hrest y hy).2.2 (heq ▸ hx)
      · intro x hx
        rcases List.mem_cons.mp hx with rfl | hx
        · exact hroot
        · rcases List.mem_append.mp hx with hx | hx
          · exact (hbelow x hx).1
          · exact (hrest x hx).1

theorem unique (h : Walk g seen roots listed) (h' : Walk g seen roots listed') :
    listed = listed' := by
  induction h generalizing listed' with
  | done =>
      cases h' with
      | done => rfl
  | passed hseen _ ih =>
      cases h' with
      | passed _ hrest => exact ih hrest
      | entered hunseen _ _ _ => exact absurd hseen hunseen
  | entered hunseen hnames _ _ ihbelow ihrest =>
      cases h' with
      | passed hseen _ => exact absurd hseen hunseen
      | entered _ hnames' hbelow' hrest' =>
          cases hnames.unique hnames'
          cases ihbelow hbelow'
          cases ihrest hrest'
          rfl

end Walk

/-!
## The search is a walk
-/

theorem walk_foldl {f : List Word → Word → List Word} {seen : List Word} {depth : Nat}
    (hf : ∀ later x, seen ⊆ later → g.unseen later < depth →
      ∃ listed, f later x = later ++ listed ∧ Walk g later [x] listed)
    (hdepth : g.unseen seen < depth) (roots : List Word) :
    ∃ listed, roots.foldl f seen = seen ++ listed ∧ Walk g seen roots listed := by
  induction roots generalizing seen with
  | nil => exact ⟨[], (List.append_nil seen).symm, .done⟩
  | cons root roots ih =>
      rcases hf seen root (List.Subset.refl _) hdepth with ⟨first, hfirst, hroot⟩
      have hsubset : seen ⊆ seen ++ first := List.subset_append_left seen first
      rcases ih (fun later x hlater => hf later x (List.Subset.trans hsubset hlater))
        (Nat.lt_of_le_of_lt (unseen_anti hsubset) hdepth) with ⟨rest, hrest, hroots⟩
      refine ⟨first ++ rest, ?_, hroot.cons hroots⟩
      rw [List.foldl_cons, hfirst, hrest, List.append_assoc]

theorem walk_visit {depth : Nat} {seen : List Word} {root : Word}
    (hdepth : g.unseen seen < depth) :
    ∃ listed, g.visit depth seen root = seen ++ listed ∧ Walk g seen [root] listed := by
  induction depth generalizing seen root with
  | zero => exact absurd hdepth (Nat.not_lt_zero _)
  | succ depth ih =>
      rw [visit]
      by_cases hseen : root ∈ seen
      · rw [if_pos (by simpa using hseen)]
        exact ⟨[], (List.append_nil seen).symm, .passed hseen .done⟩
      · rw [if_neg (by simpa using hseen)]
        have hbelow : ∃ below, (g.successors root).foldl (g.visit depth) (seen ++ [root]) =
            (seen ++ [root]) ++ below ∧ Walk g (seen ++ [root]) (g.successors root) below := by
          by_cases hroot : root ∈ g.symbols
          · have hless := unseen_lt hroot hseen
            exact walk_foldl (fun later x _ hlater => ih hlater) (by omega) _
          · -- A symbol without a rule refers to nothing, whatever depth is left.
            have hnone : g.successors root = [] := by
              apply List.eq_nil_iff_forall_not_mem.mpr
              exact fun x hx => hroot (mem_successors_iff.mp hx).mem_symbols
            rw [hnone]
            exact ⟨[], (List.append_nil _).symm, .done⟩
        rcases hbelow with ⟨below, hresult, hwalk⟩
        refine ⟨root :: below, ?_, ?_⟩
        · rw [hresult, List.append_assoc]
          rfl
        · have hnames : FirstOccurrences (g.mentions root) (g.successors root) := by
            rw [successors_eq]
            exact firstOccurrences_distinct _
          have hentered : Walk g seen [root] (root :: (below ++ [])) :=
            .entered hseen hnames hwalk .done
          rwa [List.append_nil] at hentered

/--
The search for reachable symbols lists each symbol at the end of a chain of references once,
in the order of the depth-first walk from the start symbol; no other list is in this order.
The search always ends: beyond the number of rules, its result does not depend on the depth
that it is granted.
-/
theorem reachable_in_preorder (g : Grammar) (start : Word) :
    (∀ symbol, symbol ∈ g.reachable start ↔ g.Reaches start symbol) ∧
      (g.reachable start).Nodup ∧
      (∀ listed, g.Walk [] [start] listed ↔ listed = g.reachable start) ∧
      ∀ depth, g.size < depth → g.visit depth [] start = g.reachable start := by
  have hwalk : ∀ depth, g.size < depth → g.Walk [] [start] (g.visit depth [] start) := by
    intro depth hdepth
    rcases walk_visit (Nat.lt_of_le_of_lt g.unseen_nil_le hdepth) with ⟨listed, hlisted, h⟩
    rw [hlisted]
    exact h
  have hreachable : g.Walk [] [start] (g.reachable start) := hwalk _ (Nat.lt_succ_self _)
  refine ⟨fun symbol => mem_reachable_iff, hreachable.nodup.1, fun listed => ⟨?_, ?_⟩, ?_⟩
  · exact fun h => h.unique hreachable
  · exact fun h => h ▸ hreachable
  · exact fun depth hdepth => (hwalk depth hdepth).unique hreachable

end Grammar
end GrammarFuzz
