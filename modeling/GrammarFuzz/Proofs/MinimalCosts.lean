import GrammarFuzz.Proofs.Costs
import GrammarFuzz.Proofs.ParseTrees
import GrammarFuzz.Proofs.Reachability
import Mathlib.Algebra.Order.BigOperators.Group.List
import Mathlib.Data.ENat.Lattice
import Mathlib.Order.FixedPoints

/-!
# Costs are minimal

The number of steps that it takes to complete a symbol is the least solution of an equation:
one step for an alternative and the steps of its distinct references, the cheapest alternative
counting.  Costs are these numbers, cut off at the limit, although they are evaluated along a
path without looking for a solution.  No path makes a symbol cheaper than the solution has it;
and a cheapest alternative refers to cheaper symbols only, so that it never leads back to the
path.
-/

namespace GrammarFuzz

/-!
## Numbers of steps as costs
-/

namespace Cost

/-- The cost of a number of steps, which is cut off at the limit. -/
def ofSteps : ℕ∞ → Cost
  | none => infinite
  | some n => finite (min n limit)

@[simp]
theorem ofSteps_top : ofSteps ⊤ = infinite :=
  rfl

@[simp]
theorem ofSteps_coe (n : Nat) : ofSteps n = finite (min n limit) :=
  rfl

theorem ofSteps_eq_infinite_iff {a : ℕ∞} : ofSteps a = infinite ↔ a = ⊤ := by
  cases a with
  | top => exact ⟨fun _ => rfl, fun _ => ofSteps_top⟩
  | coe n => simp

theorem ofSteps_mono {a b : ℕ∞} (h : a ≤ b) : ofSteps a ≤ ofSteps b := by
  cases b with
  | top => exact le_infinite _
  | coe n =>
      rcases ENat.le_natCast_iff.mp h with ⟨m, rfl, hm⟩
      exact finite_le_finite.mpr (Nat.le_min.mpr
        ⟨Nat.le_trans (Nat.min_le_left m limit) hm, Nat.min_le_right m limit⟩)

theorem ofSteps_add (a b : ℕ∞) : ofSteps (a + b) = ofSteps a + ofSteps b := by
  cases a with
  | top => rfl
  | coe m =>
      cases b with
      | top => rfl
      | coe n =>
          show finite (min (m + n) limit) = finite (min (min m limit + min n limit) limit)
          congr 1
          omega

theorem ofSteps_sum (steps : List ℕ∞) : ofSteps steps.sum = sum (steps.map ofSteps) := by
  have hfoldl : ∀ start : ℕ∞, ofSteps (start + steps.sum) =
      (steps.map ofSteps).foldl (· + ·) (ofSteps start) := by
    induction steps with
    | nil =>
        intro start
        rw [List.sum_nil, add_zero]
        rfl
    | cons first rest ih =>
        intro start
        rw [List.sum_cons, ← add_assoc, ih, ofSteps_add]
        rfl
  have hzero := hfoldl 0
  rw [zero_add] at hzero
  exact hzero

end Cost

def textStepsBy (steps : Word → ℕ∞) (text : Word) : ℕ∞ :=
  1 + ((distinct (references text)).map steps).sum

theorem textStepsBy_mono {steps steps' : Word → ℕ∞} (h : steps ≤ steps') (text : Word) :
    textStepsBy steps text ≤ textStepsBy steps' text :=
  add_le_add le_rfl (List.sum_le_sum fun symbol _ => h symbol)

theorem steps_le_textStepsBy {steps : Word → ℕ∞} {text symbol : Word}
    (h : symbol ∈ references text) : 1 + steps symbol ≤ textStepsBy steps text :=
  add_le_add le_rfl (List.le_sum_of_mem (List.mem_map_of_mem (mem_distinct.mpr h)))

theorem textStepsBy_ne_top {steps : Word → ℕ∞} {text : Word}
    (h : ∀ symbol ∈ references text, steps symbol ≠ ⊤) : textStepsBy steps text ≠ ⊤ := by
  have hsum : ∀ symbols : List Word, (∀ symbol ∈ symbols, steps symbol ≠ ⊤) →
      (symbols.map steps).sum ≠ ⊤ := by
    intro symbols hsymbols
    induction symbols with
    | nil => exact ENat.zero_ne_top
    | cons first rest ih =>
        rw [List.map_cons, List.sum_cons, Ne, ENat.add_eq_top, not_or]
        exact ⟨hsymbols first List.mem_cons_self,
          ih fun symbol hsymbol => hsymbols symbol (List.mem_cons_of_mem _ hsymbol)⟩
  rw [textStepsBy, Ne, ENat.add_eq_top, not_or]
  exact ⟨ENat.one_ne_top, hsum _ fun symbol hsymbol => h symbol (mem_distinct.mp hsymbol)⟩

theorem ofSteps_textStepsBy {steps : Word → ℕ∞} {text : Word} {seen : List Word}
    (h : ∀ symbol ∈ references text, symbol ∉ seen) :
    Cost.ofSteps (textStepsBy steps text) =
      textCostBy (fun symbol => Cost.ofSteps (steps symbol)) seen text := by
  have hany : (references text).any seen.contains = false := by
    rw [List.any_eq_false]
    intro symbol hsymbol
    simpa using h symbol hsymbol
  rw [textStepsBy, textCostBy, hany]
  split
  · rename_i hnone
    rw [List.isEmpty_iff.mp hnone]
    rfl
  · rw [if_neg Bool.false_ne_true, add_comm, Cost.ofSteps_add, Cost.ofSteps_sum, List.map_map]
    rfl

namespace Grammar

variable {g : Grammar} {steps : Word → ℕ∞}

/-!
## The equation
-/

noncomputable def leastSteps (g : Grammar) (steps : Word → ℕ∞) (symbol : Word) : ℕ∞ :=
  ⨅ e ∈ (g.expansions? symbol).getD [], textStepsBy steps e.text

/-- Whether the number of steps of every symbol is that of its cheapest alternative. -/
def Solves (g : Grammar) (steps : Word → ℕ∞) : Prop :=
  ∀ symbol, steps symbol = g.leastSteps steps symbol

theorem leastSteps_mono (g : Grammar) : Monotone g.leastSteps := by
  intro steps steps' h symbol
  exact iInf₂_mono fun e _ => textStepsBy_mono h e.text

theorem exists_isLeast_solves (g : Grammar) : ∃ steps, IsLeast {steps | g.Solves steps} steps := by
  let unfolded : (Word → ℕ∞) →o (Word → ℕ∞) := ⟨g.leastSteps, g.leastSteps_mono⟩
  have hsolves : {steps | g.Solves steps} = Function.fixedPoints unfolded := by
    ext steps
    constructor
    · exact fun h => funext fun symbol => (h symbol).symm
    · exact fun h symbol => (congrFun h symbol).symm
  rw [hsolves]
  exact ⟨_, OrderHom.isLeast_lfp unfolded⟩

theorem Solves.le_textStepsBy (h : g.Solves steps) {symbol : Word} {alternatives : List Expansion}
    (hrule : g.expansions? symbol = some alternatives) {e : Expansion} (he : e ∈ alternatives) :
    steps symbol ≤ textStepsBy steps e.text := by
  rw [h symbol, leastSteps, hrule]
  exact iInf₂_le e he

theorem Solves.exists_alternative (h : g.Solves steps) {symbol : Word}
    (hfinite : steps symbol ≠ ⊤) :
    ∃ alternatives e, g.expansions? symbol = some alternatives ∧ e ∈ alternatives ∧
      textStepsBy steps e.text = steps symbol := by
  by_contra hnone
  have hmore : steps symbol + 1 ≤ g.leastSteps steps symbol := by
    apply le_iInf₂
    intro e he
    cases hrule : g.expansions? symbol with
    | none =>
        rw [hrule] at he
        cases he
    | some alternatives =>
        rw [hrule] at he
        have hne : textStepsBy steps e.text ≠ steps symbol :=
          fun heq => hnone ⟨alternatives, e, hrule, he, heq⟩
        exact Order.add_one_le_of_lt (lt_of_le_of_ne (h.le_textStepsBy hrule he) hne.symm)
  rw [← h symbol] at hmore
  exact absurd ((ENat.lt_add_one_iff hfinite).mpr le_rfl) (not_lt_of_ge hmore)

theorem steps_lt_of_textStepsBy_eq {symbol name text : Word} (hfinite : steps symbol ≠ ⊤)
    (h : textStepsBy steps text = steps symbol) (hname : name ∈ references text) :
    steps name < steps symbol := by
  have hle : 1 + steps name ≤ steps symbol := h ▸ steps_le_textStepsBy hname
  have hname : steps name ≠ ⊤ := by
    intro htop
    rw [htop, add_top, top_le_iff] at hle
    exact hfinite hle
  rw [add_comm] at hle
  exact lt_of_lt_of_le ((ENat.lt_add_one_iff hname).mpr le_rfl) hle

theorem exists_steps_lt {symbol name : Word} {n : Nat} (hn : steps symbol = n)
    (hlt : steps name < steps symbol) : ∃ m : Nat, steps name = m ∧ m < n := by
  rcases ENat.ne_top_iff_exists.mp (ne_top_of_lt hlt) with ⟨m, hm⟩
  rw [← hm, hn] at hlt
  exact ⟨m, hm.symm, ENat.natCast_lt_natCast.mp hlt⟩

/-!
## Costs along a path
-/

theorem Solves.le_boundedCost (h : g.Solves steps) (bound : Nat) (seen : List Word)
    (symbol : Word) : Cost.ofSteps (steps symbol) ≤ g.boundedCost bound seen symbol := by
  induction bound generalizing seen symbol with
  | zero => exact Cost.le_infinite _
  | succ bound ih =>
      rw [boundedCost]
      cases hrule : g.expansions? symbol with
      | none => exact Cost.le_infinite _
      | some alternatives =>
          apply Cost.le_minimum
          intro cost hcost
          rcases List.mem_map.mp hcost with ⟨e, he, rfl⟩
          refine Cost.le_trans (Cost.ofSteps_mono (h.le_textStepsBy hrule he)) ?_
          rw [ofSteps_textStepsBy fun name _ => List.not_mem_nil]
          exact textCostBy_mono e.text (fun name _ => ih (symbol :: seen) name)
            (List.nil_subset _)

/--
A path of more expensive symbols makes a symbol no more expensive: the references of a
cheapest alternative are cheaper than the symbol and thus not on the path.
-/
theorem Solves.boundedCost_le (h : g.Solves steps) {n : Nat} {symbol : Word}
    (hn : steps symbol = n) {seen : List Word} (hseen : ∀ name ∈ seen, steps symbol < steps name)
    {bound : Nat} (hbound : g.unseen seen < bound) :
    g.boundedCost bound seen symbol ≤ Cost.ofSteps (steps symbol) := by
  induction n using Nat.strong_induction_on generalizing symbol seen bound with
  | _ n ih =>
      have hfinite : steps symbol ≠ ⊤ := hn ▸ ENat.natCast_ne_top n
      rcases h.exists_alternative hfinite with ⟨alternatives, e, hrule, he, hsteps⟩
      have hcheaper : ∀ name ∈ references e.text, steps name < steps symbol :=
        fun name hname => steps_lt_of_textStepsBy_eq hfinite hsteps hname
      have hpath : ∀ name ∈ references e.text, ∀ other ∈ symbol :: seen,
          steps name < steps other := by
        intro name hname other hother
        rcases List.mem_cons.mp hother with rfl | hother
        · exact hcheaper name hname
        · exact lt_trans (hcheaper name hname) (hseen other hother)
      have hnew : symbol ∉ seen := fun hmem => lt_irrefl _ (hseen symbol hmem)
      have hdefined : symbol ∈ g.symbols :=
        OrderedMap.contains_iff.mp (OrderedMap.contains_iff_exists.mpr ⟨alternatives, hrule⟩)
      have hunseen := unseen_cons_lt hdefined hnew
      cases bound with
      | zero => exact absurd hbound (Nat.not_lt_zero _)
      | succ bound =>
          rw [boundedCost, hrule]
          refine Cost.le_trans (Cost.minimum_le (List.mem_map_of_mem he)) ?_
          rw [← hsteps, ofSteps_textStepsBy fun name hname hmem =>
            lt_irrefl _ (hpath name hname name hmem)]
          refine textCostBy_mono e.text ?_ (List.Subset.refl _)
          intro name hname
          rcases exists_steps_lt hn (hcheaper name hname) with ⟨m, hm, hless⟩
          exact ih m hless hm (hpath name hname)
            (Nat.lt_of_lt_of_le hunseen (Nat.le_of_lt_succ hbound))

theorem Solves.boundedCost_eq (h : g.Solves steps) {bound : Nat} (hbound : g.size < bound)
    (symbol : Word) : g.boundedCost bound [] symbol = Cost.ofSteps (steps symbol) := by
  refine Cost.le_antisymm ?_ (h.le_boundedCost bound [] symbol)
  cases hn : steps symbol with
  | top => exact Cost.le_infinite _
  | coe n =>
      have hunseen : g.unseen [] < bound := Nat.lt_of_le_of_lt g.unseen_nil_le hbound
      rw [← hn]
      exact h.boundedCost_le hn (fun name hname => by cases hname) hunseen

theorem Solves.ofSteps_eq_minimum (h : g.Solves steps) (symbol : Word) :
    Cost.ofSteps (steps symbol) = Cost.minimum (((g.expansions? symbol).getD []).map fun e =>
      textCostBy (fun name => Cost.ofSteps (steps name)) [] e.text) := by
  have htext : ∀ text, textCostBy (fun name => Cost.ofSteps (steps name)) [] text =
      Cost.ofSteps (textStepsBy steps text) :=
    fun text => (ofSteps_textStepsBy fun name _ => List.not_mem_nil).symm
  simp only [htext]
  apply Cost.le_antisymm
  · apply Cost.le_minimum
    intro cost hcost
    rcases List.mem_map.mp hcost with ⟨e, he, rfl⟩
    rw [h symbol]
    exact Cost.ofSteps_mono (iInf₂_le e he)
  · cases hn : steps symbol with
    | top => exact Cost.le_infinite _
    | coe n =>
        have hfinite : steps symbol ≠ ⊤ := hn ▸ ENat.natCast_ne_top n
        rcases h.exists_alternative hfinite with ⟨alternatives, e, hrule, he, hsteps⟩
        rw [hrule, Option.getD_some, ← hn, ← hsteps]
        exact Cost.minimum_le (List.mem_map_of_mem he)

/-!
## Symbols that can be completed
-/

theorem reference_mem_plainReading_iff {text symbol : Word} :
    .reference symbol ∈ plainReading text ↔ symbol ∈ references text := by
  rw [plainReading_eq, mem_references_iff, List.mem_map]
  constructor
  · intro hpiece
    rcases hpiece with ⟨p, hp, heq⟩
    cases p with
    | letter c => cases heq
    | part name =>
        cases heq
        exact ⟨name, hp, rfl⟩
  · intro hname
    rcases hname with ⟨name, hname, rfl⟩
    exact ⟨.part name, hname, rfl⟩

theorem exists_derives_of_references {text : Word}
    (h : ∀ symbol ∈ references text, ∃ w, g.Derives plainReading [.reference symbol] w) :
    ∃ w, g.Derives plainReading (plainReading text) w := by
  have hpieces : ∀ ps : List Piece, (∀ p ∈ ps, ∃ w, g.Derives plainReading [p.item] w) →
      ∃ w, g.Derives plainReading (ps.map Piece.item) w := by
    intro ps hps
    induction ps with
    | nil => exact ⟨[], .nil⟩
    | cons p ps ih =>
        rcases hps p List.mem_cons_self with ⟨u, hu⟩
        rcases ih fun q hq => hps q (List.mem_cons_of_mem _ hq) with ⟨v, hv⟩
        exact ⟨u ++ v, hu.append hv⟩
  rw [plainReading_eq]
  apply hpieces
  intro p hp
  cases p with
  | letter c => exact ⟨[c], .literal .nil⟩
  | part name => exact h _ (Refers.mem_references hp)

theorem Solves.ne_top_of_derives (h : g.Solves steps) {items : List Item} {w : Word}
    (hderives : g.Derives plainReading items w) :
    ∀ symbol, .reference symbol ∈ items → steps symbol ≠ ⊤ := by
  induction hderives with
  | nil => exact fun symbol hsymbol => by cases hsymbol
  | literal _ ih =>
      intro symbol hsymbol
      rcases List.mem_cons.mp hsymbol with heq | hsymbol
      · cases heq
      · exact ih symbol hsymbol
  | @reference name alternatives e _ _ _ hrule he _ _ ihbody ih =>
      intro symbol hsymbol
      rcases List.mem_cons.mp hsymbol with heq | hsymbol
      · cases heq
        have htext := textStepsBy_ne_top fun other hother =>
          ihbody other (reference_mem_plainReading_iff.mpr hother)
        exact ne_top_of_le_ne_top htext (h.le_textStepsBy hrule he)
      · exact ih symbol hsymbol
  | absent _ _ ih =>
      intro symbol hsymbol
      rcases List.mem_cons.mp hsymbol with heq | hsymbol
      · cases heq
      · exact ih symbol hsymbol
  | once _ _ _ ih =>
      intro symbol hsymbol
      rcases List.mem_cons.mp hsymbol with heq | hsymbol
      · cases heq
      · exact ih symbol hsymbol
  | again _ _ _ _ ih => exact ih

theorem Solves.exists_derives (h : g.Solves steps) {n : Nat} {symbol : Word}
    (hn : steps symbol = n) : ∃ w, g.Derives plainReading [.reference symbol] w := by
  induction n using Nat.strong_induction_on generalizing symbol with
  | _ n ih =>
      have hfinite : steps symbol ≠ ⊤ := hn ▸ ENat.natCast_ne_top n
      rcases h.exists_alternative hfinite with ⟨alternatives, e, hrule, he, hsteps⟩
      have hreferences : ∀ name ∈ references e.text,
          ∃ w, g.Derives plainReading [.reference name] w := by
        intro name hname
        have hlt := steps_lt_of_textStepsBy_eq hfinite hsteps hname
        rcases exists_steps_lt hn hlt with ⟨m, hm, hless⟩
        exact ih m hless hm
      rcases exists_derives_of_references hreferences with ⟨w, hw⟩
      exact ⟨w, Derives.reference_iff.mpr ⟨alternatives, e, hrule, he, hw⟩⟩

theorem Solves.ne_top_iff (h : g.Solves steps) {symbol : Word} :
    steps symbol ≠ ⊤ ↔ ∃ t, g.Completes symbol t := by
  constructor
  · intro hfinite
    rcases ENat.ne_top_iff_exists.mp hfinite with ⟨n, hn⟩
    rcases h.exists_derives hn.symm with ⟨w, hw⟩
    rcases mem_language_iff.mp hw with ⟨t, ht, _⟩
    exact ⟨t, ht⟩
  · intro htree
    rcases htree with ⟨t, ht⟩
    have hderives : t.output ∈ g.language plainReading symbol :=
      mem_language_iff.mpr ⟨t, ht, rfl⟩
    exact h.ne_top_of_derives hderives symbol (List.mem_singleton.mpr rfl)

/--
The cost of a symbol is infinite if and only if it has no complete derivation.  Otherwise it
is the number of steps in the least solution, cut off at the limit.  Costs therefore solve
their recursion without any path.
-/
theorem cost_minimal (g : Grammar) : ∃ steps, IsLeast {steps | g.Solves steps} steps ∧
    ∀ symbol, g.cost [] symbol = Cost.ofSteps (steps symbol) ∧
      (g.cost [] symbol = .infinite ↔ ¬ ∃ t, g.Completes symbol t) ∧
      (∀ n : Nat, steps symbol = n → g.cost [] symbol = .finite (min n Cost.limit)) ∧
      g.cost [] symbol = Cost.minimum (((g.expansions? symbol).getD []).map fun e =>
        textCostBy (g.cost []) [] e.text) := by
  rcases exists_isLeast_solves g with ⟨steps, hleast⟩
  have hsolves : g.Solves steps := hleast.1
  have hcost : g.cost [] = fun symbol => Cost.ofSteps (steps symbol) :=
    funext (hsolves.boundedCost_eq (Nat.lt_succ_self g.size))
  refine ⟨steps, hleast, ?_⟩
  intro symbol
  rw [hcost]
  refine ⟨rfl, ?_, ?_, hsolves.ofSteps_eq_minimum symbol⟩
  · rw [Cost.ofSteps_eq_infinite_iff, ← hsolves.ne_top_iff, not_not]
  · intro n hn
    dsimp only
    rw [hn, Cost.ofSteps_coe]

end Grammar
end GrammarFuzz
