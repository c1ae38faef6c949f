import GrammarFuzz.Grammar.Reachability
import Mathlib.Logic.Relation

/-!
# Chains of references

A symbol refers to another one if one of its expansions does, and reaches the symbols
at the end of a chain of references.  The depth-first search finds these symbols and
no others: a symbol that it passes over because another branch has seen it is explored
by that branch, and its depth never runs out, since a branch without repetitions leads
through different defined symbols.
-/

namespace GrammarFuzz
namespace Grammar

variable {g : Grammar}

def RefersTo (g : Grammar) (symbol other : Word) : Prop :=
  ∃ alternatives e, g.expansions? symbol = some alternatives ∧ e ∈ alternatives ∧
    other ∈ e.references

abbrev Reaches (g : Grammar) : Word → Word → Prop :=
  Relation.ReflTransGen g.RefersTo

theorem mem_successors_iff {symbol other : Word} :
    other ∈ g.successors symbol ↔ g.RefersTo symbol other := by
  rw [successors]
  cases hrule : g.expansions? symbol with
  | none => simp [RefersTo, hrule]
  | some alternatives => simp [RefersTo, hrule, mem_distinct]

theorem RefersTo.mem_symbols {symbol other : Word} (h : g.RefersTo symbol other) :
    symbol ∈ g.symbols := by
  rcases h with ⟨alternatives, e, hrule, _, _⟩
  exact OrderedMap.contains_iff.mp (OrderedMap.contains_iff_exists.mpr ⟨alternatives, hrule⟩)

/-!
## The search
-/

/-- What a search from some roots adds to the symbols that were seen before. -/
structure Explores (g : Grammar) (seen roots result : List Word) : Prop where
  kept : seen ⊆ result
  found : roots ⊆ result
  closed : ∀ x ∈ result, x ∈ seen ∨ ∀ y, g.RefersTo x y → y ∈ result
  sound : ∀ x ∈ result, x ∈ seen ∨ ∃ root ∈ roots, g.Reaches root x

namespace Explores

variable {seen middle result roots : List Word} {root : Word}

theorem nil (g : Grammar) (seen : List Word) : Explores g seen [] seen :=
  ⟨List.Subset.refl _, List.nil_subset _, fun _ hx => Or.inl hx, fun _ hx => Or.inl hx⟩

theorem cons (h : Explores g seen [root] middle) (h' : Explores g middle roots result) :
    Explores g seen (root :: roots) result := by
  constructor
  · exact List.Subset.trans h.kept h'.kept
  · refine List.cons_subset.mpr ⟨h'.kept (h.found (by simp)), h'.found⟩
  · intro x hx
    rcases h'.closed x hx with hmiddle | hclosed
    · rcases h.closed x hmiddle with hseen | hclosed
      · exact Or.inl hseen
      · exact Or.inr fun y hy => h'.kept (hclosed y hy)
    · exact Or.inr hclosed
  · intro x hx
    rcases h'.sound x hx with hmiddle | ⟨other, hother, hreaches⟩
    · rcases h.sound x hmiddle with hseen | ⟨other, hother, hreaches⟩
      · exact Or.inl hseen
      · exact Or.inr ⟨other, by simp [List.mem_singleton.mp hother], hreaches⟩
    · exact Or.inr ⟨other, List.mem_cons_of_mem _ hother, hreaches⟩

theorem of_successors (h : Explores g (seen ++ [root]) (g.successors root) result) :
    Explores g seen [root] result := by
  have hroot : root ∈ result := h.kept (by simp)
  constructor
  · exact fun x hx => h.kept (List.mem_append_left _ hx)
  · simpa using hroot
  · intro x hx
    rcases h.closed x hx with hseen | hclosed
    · rcases List.mem_append.mp hseen with hseen | hseen
      · exact Or.inl hseen
      · cases List.mem_singleton.mp hseen
        exact Or.inr fun y hy => h.found (mem_successors_iff.mpr hy)
    · exact Or.inr hclosed
  · intro x hx
    rcases h.sound x hx with hseen | ⟨other, hother, hreaches⟩
    · rcases List.mem_append.mp hseen with hseen | hseen
      · exact Or.inl hseen
      · cases List.mem_singleton.mp hseen
        exact Or.inr ⟨_, List.mem_singleton.mpr rfl, .refl⟩
    · exact Or.inr ⟨root, List.mem_singleton.mpr rfl,
        .head (mem_successors_iff.mp hother) hreaches⟩

end Explores

def unseen (g : Grammar) (seen : List Word) : Nat :=
  g.symbols.countP fun symbol => !seen.contains symbol

theorem unseen_anti {seen seen' : List Word} (h : seen ⊆ seen') :
    g.unseen seen' ≤ g.unseen seen := by
  apply List.countP_mono_left
  intro x _ hx
  simp only [Bool.not_eq_true', List.contains_eq_mem, decide_eq_false_iff_not] at hx ⊢
  exact fun hmem => hx (h hmem)

theorem unseen_lt {seen : List Word} {symbol : Word} (hsymbol : symbol ∈ g.symbols)
    (hseen : symbol ∉ seen) : g.unseen (seen ++ [symbol]) < g.unseen seen := by
  rw [unseen, unseen, List.countP_eq_length_filter, List.countP_eq_length_filter]
  have hsub : (g.symbols.filter fun x => !(seen ++ [symbol]).contains x) =
      (g.symbols.filter fun x => !seen.contains x).filter fun x => x != symbol := by
    rw [List.filter_filter]
    apply List.filter_congr
    intro x _
    by_cases hx : x = symbol
    · simp [hx]
    · simp [hx]
  rw [hsub]
  refine List.length_filter_lt_length_iff_exists.mpr ⟨symbol, ?_, by simp⟩
  simpa [hsymbol] using hseen

theorem unseen_cons_lt {seen : List Word} {symbol : Word} (hsymbol : symbol ∈ g.symbols)
    (hseen : symbol ∉ seen) : g.unseen (symbol :: seen) < g.unseen seen :=
  Nat.lt_of_le_of_lt (unseen_anti (by simp)) (unseen_lt hsymbol hseen)

theorem unseen_nil_le (g : Grammar) : g.unseen [] ≤ g.size := by
  have hle : g.unseen [] ≤ g.symbols.length := List.countP_le_length
  have hsize : g.symbols.length = g.size := List.length_map _
  omega

theorem unseen_le_size (g : Grammar) (seen : List Word) : g.unseen seen ≤ g.size :=
  Nat.le_trans (unseen_anti (List.nil_subset seen)) g.unseen_nil_le

theorem explores_foldl {f : List Word → Word → List Word} {seen : List Word} {depth : Nat}
    (hf : ∀ later x, seen ⊆ later → g.unseen later < depth → Explores g later [x] (f later x))
    (hdepth : g.unseen seen < depth) (roots : List Word) :
    Explores g seen roots (roots.foldl f seen) := by
  induction roots generalizing seen with
  | nil => exact .nil g seen
  | cons root roots ih =>
      have hroot := hf seen root (List.Subset.refl _) hdepth
      refine hroot.cons (ih ?_ (Nat.lt_of_le_of_lt (unseen_anti hroot.kept) hdepth))
      exact fun later x hlater => hf later x (List.Subset.trans hroot.kept hlater)

/-- A search whose depth exceeds the number of unseen defined symbols is complete. -/
theorem explores_visit {depth : Nat} {seen : List Word} {root : Word}
    (hdepth : g.unseen seen < depth) : Explores g seen [root] (g.visit depth seen root) := by
  induction depth generalizing seen root with
  | zero => exact absurd hdepth (Nat.not_lt_zero _)
  | succ depth ih =>
      show Explores g seen [root] (if seen.contains root then seen
        else (g.successors root).foldl (g.visit depth) (seen ++ [root]))
      by_cases hseen : root ∈ seen
      · rw [if_pos (by simpa using hseen)]
        exact ⟨List.Subset.refl _, by simpa using hseen, fun _ hx => Or.inl hx,
          fun _ hx => Or.inl hx⟩
      · rw [if_neg (by simpa using hseen)]
        apply Explores.of_successors
        by_cases hroot : root ∈ g.symbols
        · have hless := unseen_lt hroot hseen
          exact explores_foldl (fun later x _ hlater => ih hlater) (by omega) _
        · -- A symbol without a rule leads nowhere.
          have hnone : g.successors root = [] := by
            apply List.eq_nil_iff_forall_not_mem.mpr
            exact fun x hx => hroot (mem_successors_iff.mp hx).mem_symbols
          rw [hnone]
          exact .nil g _

theorem mem_of_reaches {seen : List Word} (hclosed : ∀ x ∈ seen, ∀ y, g.RefersTo x y → y ∈ seen)
    {x y : Word} (hx : x ∈ seen) (h : g.Reaches x y) : y ∈ seen := by
  induction h with
  | refl => exact hx
  | tail _ hlast ih => exact hclosed _ ih _ hlast

theorem mem_reachable_iff {start symbol : Word} :
    symbol ∈ g.reachable start ↔ g.Reaches start symbol := by
  have h : Explores g [] [start] (g.reachable start) :=
    explores_visit (Nat.lt_succ_of_le g.unseen_nil_le)
  constructor
  · intro hsymbol
    rcases h.sound symbol hsymbol with hnone | ⟨root, hroot, hreaches⟩
    · cases hnone
    · cases List.mem_singleton.mp hroot
      exact hreaches
  · intro hreaches
    refine mem_of_reaches ?_ (h.found (by simp)) hreaches
    intro x hx
    rcases h.closed x hx with hnone | hclosed
    · cases hnone
    · exact hclosed

end Grammar
end GrammarFuzz
