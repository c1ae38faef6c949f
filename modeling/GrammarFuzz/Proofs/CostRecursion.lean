import GrammarFuzz.Proofs.Costs
import GrammarFuzz.Proofs.Reachability

/-!
# The recursion of costs

The recursion asks about the alternatives of a symbol, and about the references of a text, with
the symbols on the way in hand.  A symbol is not compared with the symbols on the way when it is
asked about; the text that refers to it has been, though.  Below the first symbol, every symbol
that is asked about is therefore a new one, and the recursion ends when the defined symbols are
used up.  More symbols on the way rule out more alternatives and make nothing cheaper.
-/

namespace GrammarFuzz

inductive CostQuery where
  | symbol (seen : List Word) (name : Word)
  | text (seen : List Word) (text : Word)

/--
The recursion of costs ends for a query with an answer.  It asks about all alternatives of a
symbol with the symbol on the way, and about all references of a text unless one of them is on
the way.
-/
inductive CostQuery.Answered (g : Grammar) : CostQuery → Cost → Prop
  | undefined {seen : List Word} {name : Word} :
      g.expansions? name = none → Answered g (.symbol seen name) .infinite
  | cheapest {seen : List Word} {name : Word} {alternatives : List Expansion}
      {cost : Expansion → Cost} :
      g.expansions? name = some alternatives →
      (∀ e ∈ alternatives, Answered g (.text (name :: seen) e.text) (cost e)) →
      Answered g (.symbol seen name) (Cost.minimum (alternatives.map cost))
  | plain {seen : List Word} {text : Word} :
      references text = [] → Answered g (.text seen text) (.finite 1)
  | barred {seen : List Word} {text name : Word} :
      name ∈ references text → name ∈ seen → Answered g (.text seen text) .infinite
  | summed {seen : List Word} {text : Word} {cost : Word → Cost} :
      references text ≠ [] → (∀ name ∈ references text, name ∉ seen) →
      (∀ name ∈ references text, Answered g (.symbol seen name) (cost name)) →
      Answered g (.text seen text) (Cost.sum ((distinct (references text)).map cost) + .finite 1)

namespace CostQuery

variable {g : Grammar}

theorem Answered.unique {query : CostQuery} {cost cost' : Cost} (h : Answered g query cost)
    (h' : Answered g query cost') : cost = cost' := by
  induction h generalizing cost' with
  | undefined hnone =>
      cases h' with
      | undefined _ => rfl
      | cheapest hrule _ =>
          rw [hnone] at hrule
          cases hrule
  | cheapest hrule _ ih =>
      cases h' with
      | undefined hnone =>
          rw [hnone] at hrule
          cases hrule
      | cheapest hrule' hanswers =>
          rw [hrule] at hrule'
          cases hrule'
          exact congrArg Cost.minimum
            (List.map_congr_left fun e he => ih e he (hanswers e he))
  | plain hnone =>
      cases h' with
      | plain _ => rfl
      | barred hname _ =>
          rw [hnone] at hname
          cases hname
      | summed hsome _ _ => exact absurd hnone hsome
  | barred hname hseen =>
      cases h' with
      | plain hnone =>
          rw [hnone] at hname
          cases hname
      | barred _ _ => rfl
      | summed _ hfree _ => exact absurd hseen (hfree _ hname)
  | summed hsome hfree _ ih =>
      cases h' with
      | plain hnone => exact absurd hnone hsome
      | barred hname hseen => exact absurd hseen (hfree _ hname)
      | summed _ _ hanswers =>
          have hcosts := List.map_congr_left (l := distinct (references _)) fun name hname =>
            ih name (mem_distinct.mp hname) (hanswers name (mem_distinct.mp hname))
          rw [hcosts]

theorem answered_text {cost : Word → Cost} {seen : List Word} {text : Word}
    (h : ∀ name ∈ references text, name ∉ seen → Answered g (.symbol seen name) (cost name)) :
    Answered g (.text seen text) (textCostBy cost seen text) := by
  rw [textCostBy]
  split
  · rename_i hnone
    exact .plain (List.isEmpty_iff.mp hnone)
  · rename_i hsome
    split
    · rename_i hbarred
      rcases List.any_eq_true.mp hbarred with ⟨name, hname, hseen⟩
      exact .barred hname (by simpa using hseen)
    · rename_i hopen
      have hfree : ∀ name ∈ references text, name ∉ seen := by
        intro name hname hseen
        exact hopen (List.any_eq_true.mpr ⟨name, hname, by simpa using hseen⟩)
      refine .summed ?_ hfree fun name hname => h name hname (hfree name hname)
      exact fun hnone => hsome (List.isEmpty_iff.mpr hnone)

theorem answered_boundedCost {bound : Nat} {seen : List Word} {symbol : Word}
    (h : g.defines symbol = true → g.unseen (symbol :: seen) < bound) :
    Answered g (.symbol seen symbol) (g.boundedCost bound seen symbol) := by
  -- The symbol itself may be on the way; what its texts refer to is not, and is counted.
  induction bound generalizing seen symbol with
  | zero =>
      apply Answered.undefined
      cases hrule : g.expansions? symbol with
      | none => rfl
      | some alternatives =>
          exact absurd (h (OrderedMap.contains_iff_exists.mpr ⟨_, hrule⟩)) (Nat.not_lt_zero _)
  | succ bound ih =>
      rw [Grammar.boundedCost]
      cases hrule : g.expansions? symbol with
      | none => exact .undefined hrule
      | some alternatives =>
          have hbound := h (OrderedMap.contains_iff_exists.mpr ⟨_, hrule⟩)
          refine .cheapest hrule fun e _ => answered_text fun name _ hnew => ih ?_
          intro hdefined
          have hless := Grammar.unseen_cons_lt (OrderedMap.contains_iff.mp hdefined) hnew
          exact Nat.lt_of_lt_of_le hless (Nat.le_of_lt_succ hbound)

theorem answered_cost (g : Grammar) (seen : List Word) (symbol : Word) :
    Answered g (.symbol seen symbol) (g.cost seen symbol) :=
  answered_boundedCost fun _ => Nat.lt_succ_of_le (g.unseen_le_size _)

theorem answered_textCost (g : Grammar) (seen : List Word) (text : Word) :
    Answered g (.text seen text) (g.textCost seen text) := by
  apply answered_text
  intro name _ hnew
  apply answered_boundedCost
  intro hdefined
  have hless := Grammar.unseen_cons_lt (OrderedMap.contains_iff.mp hdefined) hnew
  exact Nat.lt_of_lt_of_le hless (g.unseen_le_size seen)

end CostQuery

namespace Grammar

open CostQuery

theorem cost_mono {g : Grammar} {seen seen' : List Word} (h : seen ⊆ seen') (symbol : Word) :
    g.cost seen symbol ≤ g.cost seen' symbol :=
  boundedCost_mono (Nat.le_refl _) h symbol

theorem textCost_mono {g : Grammar} {seen seen' : List Word} (h : seen ⊆ seen') (text : Word) :
    g.textCost seen text ≤ g.textCost seen' text :=
  textCostBy_mono text (fun name _ => boundedCost_mono (Nat.le_refl _) h name) h

/--
The recursion of costs ends for every symbol and every text, whatever is on the way and however
the symbols refer to each other, and its only answers are the costs.  With more symbols on the
way, symbols and texts cost at least as much.  Infinite costs are above all finite ones.
-/
theorem cost_recursion_mono (g : Grammar) {seen seen' : List Word} (h : seen ⊆ seen')
    (symbol text : Word) :
    (∀ cost, Answered g (.symbol seen symbol) cost ↔ cost = g.cost seen symbol) ∧
    (∀ cost, Answered g (.text seen text) cost ↔ cost = g.textCost seen text) ∧
    g.cost seen symbol ≤ g.cost seen' symbol ∧
    g.textCost seen text ≤ g.textCost seen' text ∧
    ∀ steps, Cost.finite steps ≤ .infinite ∧ ¬ Cost.infinite ≤ .finite steps := by
  have hsymbol := answered_cost g seen symbol
  have htext := answered_textCost g seen text
  refine ⟨?_, ?_, cost_mono h symbol, textCost_mono h text, ?_⟩
  · exact fun cost => ⟨fun hcost => hcost.unique hsymbol, fun hcost => hcost ▸ hsymbol⟩
  · exact fun cost => ⟨fun hcost => hcost.unique htext, fun hcost => hcost ▸ htext⟩
  · exact fun steps => ⟨Cost.le_infinite _, fun hle => by cases hle⟩

end Grammar

def crossedGrammar : Grammar :=
  .ofRules [(.ofString "<a>", [⟨.ofString "<b>", .empty⟩]),
    (.ofString "<b>", [⟨.ofString "<a>", .empty⟩, ⟨.ofString "x", .empty⟩])]

theorem crossedGrammar_cost_recursion :
    ([] : List Word) ⊆ [.ofString "<b>"] ∧
      CostQuery.Answered crossedGrammar (.symbol [] (.ofString "<a>")) (.finite 2) ∧
      CostQuery.Answered crossedGrammar (.text [] (.ofString "<a><b>")) (.finite 4) ∧
      crossedGrammar.cost [] (.ofString "<a>") ≤
        crossedGrammar.cost [.ofString "<b>"] (.ofString "<a>") ∧
      crossedGrammar.cost [.ofString "<b>"] (.ofString "<a>") = .infinite := by
  have hsubset : ([] : List Word) ⊆ [.ofString "<b>"] := List.nil_subset _
  have h := Grammar.cost_recursion_mono crossedGrammar hsubset (.ofString "<a>")
    (.ofString "<a><b>")
  exact ⟨hsubset, (h.1 _).mpr (by decide), (h.2.1 _).mpr (by decide), h.2.2.1, by decide⟩

end GrammarFuzz
