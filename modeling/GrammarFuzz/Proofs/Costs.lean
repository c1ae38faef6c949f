import GrammarFuzz.Generation.Growth

/-!
# Costs of symbols and alternatives

Costs are evaluated along a path.  A longer path to go and fewer symbols on the way
can only make a symbol cheaper.  The references of an alternative that attains the
finite cost of its symbol are therefore cheaper than the symbol on their own, which is
what makes generation at least cost end.
-/

namespace GrammarFuzz

namespace Cost

/-!
## Order and sums
-/

@[simp]
theorem finite_le_finite {a b : Nat} : finite a ≤ finite b ↔ a ≤ b :=
  ⟨of_decide_eq_true, decide_eq_true⟩

theorem le_infinite (cost : Cost) : cost ≤ infinite := by
  cases cost with
  | finite steps => rfl
  | infinite => rfl

theorem le_refl (cost : Cost) : cost ≤ cost := by
  cases cost with
  | finite steps => exact finite_le_finite.mpr (Nat.le_refl steps)
  | infinite => rfl

theorem le_trans {a b c : Cost} (hab : a ≤ b) (hbc : b ≤ c) : a ≤ c := by
  cases c with
  | infinite => exact le_infinite a
  | finite k =>
      cases b with
      | infinite => cases hbc
      | finite j =>
          cases a with
          | infinite => cases hab
          | finite i =>
              rw [finite_le_finite] at hab hbc ⊢
              exact Nat.le_trans hab hbc

theorem le_of_not_le {a b : Cost} (h : ¬ a ≤ b) : b ≤ a := by
  cases a with
  | infinite => exact le_infinite b
  | finite i =>
      cases b with
      | infinite => exact absurd rfl h
      | finite j =>
          rw [finite_le_finite] at h ⊢
          omega

theorem le_antisymm {a b : Cost} (hab : a ≤ b) (hba : b ≤ a) : a = b := by
  cases a with
  | infinite =>
      cases b with
      | infinite => rfl
      | finite j => cases hab
  | finite i =>
      cases b with
      | infinite => cases hba
      | finite j =>
          rw [finite_le_finite] at hab hba
          rw [Nat.le_antisymm hab hba]

theorem exists_finite_of_le {cost : Cost} {n : Nat} (h : cost ≤ finite n) :
    ∃ k, cost = finite k ∧ k ≤ n := by
  cases cost with
  | infinite => cases h
  | finite k => exact ⟨k, rfl, finite_le_finite.mp h⟩

theorem add_mono {a a' b b' : Cost} (ha : a ≤ a') (hb : b ≤ b') : a + b ≤ a' + b' := by
  cases a' with
  | infinite => exact le_infinite _
  | finite i' =>
      cases b' with
      | infinite => exact le_infinite _
      | finite j' =>
          rcases exists_finite_of_le ha with ⟨i, rfl, hi⟩
          rcases exists_finite_of_le hb with ⟨j, rfl, hj⟩
          show finite (min (i + j) limit) ≤ finite (min (i' + j') limit)
          rw [finite_le_finite]
          omega

theorem minimum_cons (cost : Cost) (rest : List Cost) :
    minimum (cost :: rest) = least cost (minimum rest) :=
  rfl

theorem least_le_left (a b : Cost) : least a b ≤ a := by
  rw [least]
  split
  · exact le_refl a
  · rename_i h
    exact le_of_not_le h

theorem least_le_right (a b : Cost) : least a b ≤ b := by
  rw [least]
  split
  · assumption
  · exact le_refl b

theorem minimum_le {costs : List Cost} {cost : Cost} (h : cost ∈ costs) : minimum costs ≤ cost := by
  induction costs with
  | nil => cases h
  | cons first rest ih =>
      rw [minimum_cons]
      rcases List.mem_cons.mp h with rfl | h
      · exact least_le_left _ _
      · exact le_trans (least_le_right _ _) (ih h)

theorem le_minimum {costs : List Cost} {cost : Cost} (h : ∀ x ∈ costs, cost ≤ x) :
    cost ≤ minimum costs := by
  induction costs with
  | nil => exact le_infinite cost
  | cons first rest ih =>
      rw [minimum_cons, least]
      split
      · exact h first List.mem_cons_self
      · exact ih fun x hx => h x (List.mem_cons_of_mem _ hx)

theorem minimum_mem {costs : List Cost} (h : costs ≠ []) : minimum costs ∈ costs := by
  induction costs with
  | nil => exact absurd rfl h
  | cons first rest ih =>
      rw [minimum_cons]
      cases rest with
      | nil =>
          have hle : first ≤ minimum [] := le_infinite first
          rw [least, if_pos hle]
          exact List.mem_singleton.mpr rfl
      | cons next rest =>
          rw [least]
          split
          · exact List.mem_cons_self
          · exact List.mem_cons_of_mem _ (ih (by simp))

theorem maximum_mem {costs : List Cost} (h : costs ≠ []) : maximum costs ∈ costs := by
  induction costs with
  | nil => exact absurd rfl h
  | cons first rest ih =>
      show greatest first (maximum rest) ∈ first :: rest
      rw [greatest]
      split
      · rename_i hle
        cases rest with
        | nil =>
            rcases exists_finite_of_le hle with ⟨k, rfl, hk⟩
            rw [Nat.le_zero.mp hk]
            exact List.mem_singleton.mpr rfl
        | cons next rest => exact List.mem_cons_of_mem _ (ih (by simp))
      · exact List.mem_cons_self

theorem le_greatest_left (a b : Cost) : a ≤ greatest a b := by
  rw [greatest]
  split
  · assumption
  · exact le_refl a

theorem le_greatest_right (a b : Cost) : b ≤ greatest a b := by
  rw [greatest]
  split
  · exact le_refl b
  · rename_i h
    exact le_of_not_le h

theorem le_maximum {costs : List Cost} {cost : Cost} (h : cost ∈ costs) : cost ≤ maximum costs := by
  induction costs with
  | nil => cases h
  | cons first rest ih =>
      show cost ≤ greatest first (maximum rest)
      rcases List.mem_cons.mp h with rfl | h
      · exact le_greatest_left _ _
      · exact le_trans (ih h) (le_greatest_right _ _)

theorem foldl_add_mono {xs : List Word} {cost cost' : Word → Cost}
    (h : ∀ x ∈ xs, cost x ≤ cost' x) {start start' : Cost} (hstart : start ≤ start') :
    (xs.map cost).foldl (· + ·) start ≤ (xs.map cost').foldl (· + ·) start' := by
  induction xs generalizing start start' with
  | nil => exact hstart
  | cons x xs ih =>
      exact ih (fun y hy => h y (List.mem_cons_of_mem _ hy))
        (add_mono hstart (h x List.mem_cons_self))

theorem sum_mono {xs : List Word} {cost cost' : Word → Cost} (h : ∀ x ∈ xs, cost x ≤ cost' x) :
    sum (xs.map cost) ≤ sum (xs.map cost') :=
  foldl_add_mono h (le_refl _)

theorem add_eq_finite {a b : Cost} {n : Nat} (h : a + b = finite n) (hn : n < limit) :
    ∃ i j, a = finite i ∧ b = finite j ∧ i + j = n := by
  cases a with
  | infinite => cases h
  | finite i =>
      cases b with
      | infinite => cases h
      | finite j =>
          refine ⟨i, j, rfl, rfl, ?_⟩
          have hmin : min (i + j) limit = n := finite.inj h
          omega

theorem foldl_add_eq_finite {costs : List Cost} {start : Cost} {n : Nat}
    (h : costs.foldl (· + ·) start = finite n) (hn : n < limit) :
    (∃ k, start = finite k ∧ k ≤ n) ∧ ∀ cost ∈ costs, ∃ k, cost = finite k ∧ k ≤ n := by
  induction costs generalizing start with
  | nil => exact ⟨⟨n, h, Nat.le_refl n⟩, fun cost hcost => by cases hcost⟩
  | cons first rest ih =>
      rcases ih h with ⟨⟨k, hk, hle⟩, hrest⟩
      rcases add_eq_finite hk (by omega) with ⟨i, j, hi, hj, hsum⟩
      constructor
      · exact ⟨i, hi, by omega⟩
      · intro cost hcost
        rcases List.mem_cons.mp hcost with rfl | hcost
        · exact ⟨j, hj, by omega⟩
        · exact hrest cost hcost

theorem exists_finite_of_sum {costs : List Cost} {n : Nat} (h : sum costs = finite n)
    (hn : n < limit) {cost : Cost} (hcost : cost ∈ costs) : ∃ k, cost = finite k ∧ k ≤ n :=
  (foldl_add_eq_finite h hn).2 cost hcost

end Cost
/-!
## Costs of texts
-/

theorem textCostBy_mono {cost cost' : Word → Cost} {seen seen' : List Word} (text : Word)
    (hcost : ∀ symbol ∈ references text, cost symbol ≤ cost' symbol) (hseen : seen ⊆ seen') :
    textCostBy cost seen text ≤ textCostBy cost' seen' text := by
  rw [textCostBy, textCostBy]
  split
  · exact Cost.le_refl _
  · by_cases hany : (references text).any seen'.contains = true
    · rw [if_pos hany]
      exact Cost.le_infinite _
    · have hfewer : ¬ (references text).any seen.contains = true := by
        intro h
        apply hany
        rw [List.any_eq_true] at h ⊢
        rcases h with ⟨symbol, hsymbol, hmem⟩
        exact ⟨symbol, hsymbol, by simpa using hseen (by simpa using hmem)⟩
      rw [if_neg hany, if_neg hfewer]
      refine Cost.add_mono (Cost.sum_mono ?_) (Cost.le_refl _)
      exact fun symbol hsymbol => hcost symbol (mem_distinct.mp hsymbol)

theorem lt_of_textCostBy_eq {cost : Word → Cost} {seen : List Word} {text : Word} {n : Nat}
    (h : textCostBy cost seen text = .finite n) (hn : n < Cost.limit) :
    0 < n ∧ ∀ symbol ∈ references text, ∃ k, cost symbol = .finite k ∧ k < n := by
  rw [textCostBy] at h
  split at h
  · rename_i hnone
    cases h
    constructor
    · exact Nat.one_pos
    · rw [List.isEmpty_iff.mp hnone]
      exact fun symbol hsymbol => by cases hsymbol
  · split at h
    · cases h
    · rcases Cost.add_eq_finite h hn with ⟨k, one, hsum, hone, rfl⟩
      cases hone
      constructor
      · omega
      · intro symbol hsymbol
        have hmem : cost symbol ∈ (distinct (references text)).map cost :=
          List.mem_map_of_mem (mem_distinct.mpr hsymbol)
        rcases Cost.exists_finite_of_sum hsum (by omega) hmem with ⟨j, hj, hle⟩
        exact ⟨j, hj, by omega⟩

namespace Grammar

variable {g : Grammar}

theorem boundedCost_mono {bound bound' : Nat} (hbound : bound ≤ bound') {seen seen' : List Word}
    (hseen : seen ⊆ seen') (symbol : Word) :
    g.boundedCost bound' seen symbol ≤ g.boundedCost bound seen' symbol := by
  induction bound generalizing bound' seen seen' symbol with
  | zero => exact Cost.le_infinite _
  | succ bound ih =>
      cases bound' with
      | zero => omega
      | succ bound' =>
          rw [boundedCost, boundedCost]
          cases g.expansions? symbol with
          | none => exact Cost.le_refl _
          | some alternatives =>
              have hseen' : symbol :: seen ⊆ symbol :: seen' := List.cons_subset_cons _ hseen
              apply Cost.le_minimum
              intro cost hcost
              rcases List.mem_map.mp hcost with ⟨e, he, rfl⟩
              refine Cost.le_trans (Cost.minimum_le (List.mem_map_of_mem he)) ?_
              exact textCostBy_mono e.text (fun x _ => ih (by omega) hseen' x) hseen'

theorem expansions?_of_getD {symbol : Word} {first : Expansion} {rest : List Expansion}
    (h : (g.expansions? symbol).getD [] = first :: rest) :
    g.expansions? symbol = some (first :: rest) := by
  rcases Option.getD_eq_iff.mp h with hrule | ⟨_, hnil⟩
  · exact hrule
  · cases hnil

theorem cost_eq_minimum {symbol : Word} {alternatives : List Expansion}
    (hrule : g.expansions? symbol = some alternatives) :
    g.cost [] symbol = Cost.minimum (alternatives.map fun e => g.textCost [symbol] e.text) := by
  rw [cost, boundedCost, hrule]
  rfl

theorem exists_alternative_of_cost {symbol : Word} {n : Nat}
    (h : g.cost [] symbol = .finite n) :
    ∃ alternatives, g.expansions? symbol = some alternatives ∧ alternatives ≠ [] := by
  cases hrule : g.expansions? symbol with
  | none =>
      rw [cost, boundedCost, hrule] at h
      cases h
  | some alternatives =>
      refine ⟨alternatives, rfl, ?_⟩
      intro heq
      subst heq
      rw [cost_eq_minimum hrule] at h
      cases h

theorem cost_lt_of_textCost_eq {symbol text : Word} {n : Nat}
    (h : g.textCost [symbol] text = .finite n) (hn : n < Cost.limit) :
    0 < n ∧ ∀ name ∈ references text, ∃ k, g.cost [] name = .finite k ∧ k < n := by
  rcases lt_of_textCostBy_eq h hn with ⟨hpos, hreferences⟩
  constructor
  · exact hpos
  · intro name hname
    rcases hreferences name hname with ⟨j, hj, hlt⟩
    -- On its own, the reference is evaluated with nothing on the way and one more step to go.
    have hle : g.cost [] name ≤ .finite j := by
      rw [← hj]
      exact boundedCost_mono (Nat.le_succ _) (List.nil_subset _) name
    rcases Cost.exists_finite_of_le hle with ⟨k, hk, hkj⟩
    exact ⟨k, hk, by omega⟩

end Grammar

/-!
## Answers to cost queries
-/

/-- Whether all answers to queries that a grower makes are those of the definition. -/
structure Pricing.Exact (costs : Pricing) (g : Grammar) : Prop where
  cost : ∀ symbol, costs.cost g symbol = g.cost [] symbol
  alternativeCost : ∀ symbol alternatives index e, g.expansions? symbol = some alternatives →
    alternatives[index]? = some e →
    costs.alternativeCost g symbol index e.text = g.textCost [symbol] e.text

namespace Pricing

theorem exact_onDemand (g : Grammar) : onDemand.Exact g :=
  ⟨fun _ => rfl, fun _ _ _ _ _ _ => rfl⟩

theorem cost_tabulate (g : Grammar) (symbol : Word) :
    (tabulate g).cost g symbol = g.cost [] symbol := by
  have hkeys : ((g.symbols.map fun symbol => (symbol, g.cost [] symbol)).map Prod.fst).Nodup := by
    have hsymbols : (g.symbols.map fun symbol => (symbol, g.cost [] symbol)).map Prod.fst =
        g.symbols := by
      simp [Function.comp_def]
    rw [hsymbols]
    exact g.rules.nodup
  rw [tabulate, cost]
  dsimp only
  cases hentry : (OrderedMap.ofList (g.symbols.map fun symbol =>
      (symbol, g.cost [] symbol))).get? symbol with
  | none => rfl
  | some known =>
      have hmem := OrderedMap.get?_eq_some_iff.mp hentry
      rw [OrderedMap.entries_ofList hkeys] at hmem
      rcases List.mem_map.mp hmem with ⟨x, _, heq⟩
      cases heq
      rfl

theorem alternativeCost_tabulate {g : Grammar} {symbol : Word} {alternatives : List Expansion}
    (hrule : g.expansions? symbol = some alternatives) {index : Nat} {e : Expansion}
    (he : alternatives[index]? = some e) :
    (tabulate g).alternativeCost g symbol index e.text = g.textCost [symbol] e.text := by
  let costs : List (Word × List Cost) := g.rules.entries.map fun rule =>
    (rule.1, rule.2.map fun e => g.textCost [rule.1] e.text)
  have hkeys : (costs.map Prod.fst).Nodup := by
    rw [List.map_map]
    exact g.rules.nodup
  have hentry : (OrderedMap.ofList costs).get? symbol =
      some (alternatives.map fun e => g.textCost [symbol] e.text) := by
    apply OrderedMap.get?_eq_some_iff.mpr
    rw [OrderedMap.entries_ofList hkeys]
    exact List.mem_map.mpr ⟨(symbol, alternatives), OrderedMap.get?_eq_some_iff.mp hrule, rfl⟩
  have htable : ∃ table, tabulate g = .tabulated table ∧
      table.expansions = OrderedMap.ofList costs := ⟨_, rfl, rfl⟩
  rcases htable with ⟨table, htabulate, hexpansions⟩
  rw [htabulate, alternativeCost, hexpansions, hentry, Option.bind_some, List.getElem?_map, he]
  rfl

theorem exact_tabulate (g : Grammar) : (tabulate g).Exact g :=
  ⟨cost_tabulate g, fun _ _ _ _ hrule he => alternativeCost_tabulate hrule he⟩

theorem exact_of_eq {costs : Pricing} {g : Grammar}
    (h : costs = .onDemand ∨ costs = .tabulate g) : costs.Exact g := by
  rcases h with rfl | rfl
  · exact exact_onDemand g
  · exact exact_tabulate g

end Pricing

theorem Grower.exact_pricing (g : Grammar) (settings : GenerationSettings) :
    (Grower.pricing g settings).Exact g := by
  apply Pricing.exact_of_eq
  rw [Grower.pricing]
  split
  · exact Or.inr rfl
  · exact Or.inl rfl

theorem Grower.priced_eq {σ : Type} {f : Grower σ} (h : f.costs.Exact f.grammar)
    {symbol : Word} {alternatives : List Expansion}
    (hrule : f.grammar.expansions? symbol = some alternatives) :
    f.priced symbol alternatives =
      alternatives.map fun e => (f.grammar.textCost [symbol] e.text, e) := by
  apply List.ext_getElem?
  intro index
  rw [priced, List.getElem?_mapIdx, List.getElem?_map]
  cases he : alternatives[index]? with
  | none => rfl
  | some e =>
      rw [Option.map_some, Option.map_some, h.alternativeCost symbol alternatives index e hrule he]

end GrammarFuzz
