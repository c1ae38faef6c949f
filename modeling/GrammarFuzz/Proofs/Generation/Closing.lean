import GrammarFuzz.Proofs.Generation.Soundness
import Mathlib.Algebra.Order.BigOperators.Group.List
import Mathlib.Algebra.Order.Ring.Nat

/-!
# The closing phase ends

At least cost, an open node is replaced by nodes for symbols that are cheaper than its
own.  Weighing each open node with a power of a number that exceeds the references of
any expansion, every step makes the open nodes weigh less, so that their weight bounds
the number of steps.  Counting an open node as deep as its cost, no step makes a tree
deeper.
-/

namespace GrammarFuzz

namespace Tree

/-!
## Depth with open nodes
-/

mutual

def depthWith (leaf : Word → Nat) : Tree → Nat
  | unexpanded symbol => leaf symbol
  | expanded _ children => heightWith leaf children

def heightWith (leaf : Word → Nat) : List Tree → Nat
  | [] => 0
  | t :: rest => max (depthWith leaf t + 1) (heightWith leaf rest)

end

variable {leaf : Word → Nat}

theorem heightWith_le {ts : List Tree} {n : Nat} (h : ∀ t ∈ ts, t.depthWith leaf < n) :
    heightWith leaf ts ≤ n := by
  induction ts with
  | nil => exact Nat.zero_le n
  | cons t ts ih =>
      unfold heightWith
      exact Nat.max_le.mpr ⟨h t List.mem_cons_self, ih fun u hu => h u (List.mem_cons_of_mem _ hu)⟩

theorem heightWith_append_le {t t' : Tree} (h : t'.depthWith leaf ≤ t.depthWith leaf)
    (before behind : List Tree) :
    heightWith leaf (before ++ t' :: behind) ≤ heightWith leaf (before ++ t :: behind) := by
  induction before with
  | nil =>
      rw [List.nil_append, List.nil_append, heightWith, heightWith]
      omega
  | cons u before ih =>
      rw [List.cons_append, List.cons_append, heightWith, heightWith]
      omega

theorem Replaces.depthWith_le {R : Word → Tree → Prop} {t t' : Tree} (h : Replaces R t t')
    (hR : ∀ symbol ∈ t.openSymbols, ∀ u, R symbol u → u.depthWith leaf ≤ leaf symbol) :
    t'.depthWith leaf ≤ t.depthWith leaf := by
  induction h with
  | leaf hu => exact hR _ (List.mem_singleton.mpr rfl) _ hu
  | @child symbol t t' before behind _ ih =>
      rw [depthWith, depthWith]
      apply heightWith_append_le
      apply ih
      intro symbol hsymbol
      apply hR
      rw [Tree.openSymbols, openSymbolsAll_append]
      exact List.mem_append_right _ (List.mem_append_left _ hsymbol)

mutual

theorem depthWith_of_complete (t : Tree) (h : t.isOpen = false) : t.depthWith leaf = t.depth := by
  match t with
  | .expanded symbol children =>
      rw [depthWith, depth]
      exact heightWith_of_complete children h

theorem heightWith_of_complete (ts : List Tree) (h : anyOpen ts = false) :
    heightWith leaf ts = height ts := by
  match ts with
  | [] => rfl
  | t :: rest =>
      rw [anyOpen, Bool.or_eq_false_iff] at h
      rw [heightWith, height, depthWith_of_complete t h.1, heightWith_of_complete rest h.2]

end

end Tree

/-!
## Cheapest alternatives
-/

namespace Grammar

variable {g : Grammar}

def steps (g : Grammar) (symbol : Word) : Nat :=
  match g.cost [] symbol with
  | .finite n => n
  | .infinite => 0

/-- Whether the cost of a symbol is finite and has not been cut off. -/
def Affordable (g : Grammar) (symbol : Word) : Prop :=
  ∃ n, g.cost [] symbol = .finite n ∧ n < Cost.limit

theorem Affordable.cost_eq {symbol : Word} (h : g.Affordable symbol) :
    g.cost [] symbol = .finite (g.steps symbol) := by
  rcases h with ⟨n, hn, _⟩
  rw [steps, hn]

theorem Affordable.steps_lt_limit {symbol : Word} (h : g.Affordable symbol) :
    g.steps symbol < Cost.limit := by
  rcases h with ⟨n, hn, hlt⟩
  rw [steps, hn]
  exact hlt

theorem Affordable.hasAlternatives {symbol : Word} (h : g.Affordable symbol) :
    g.HasAlternatives symbol := by
  rcases h with ⟨n, hn, _⟩
  exact exists_alternative_of_cost hn

/-- A symbol and the node for an alternative that attains the symbol's cost. -/
def Closes (g : Grammar) (symbol : Word) (t : Tree) : Prop :=
  ∃ alternatives e, g.expansions? symbol = some alternatives ∧ e ∈ alternatives ∧
    g.textCost [symbol] e.text = g.cost [] symbol ∧ t = .expanded symbol (childrenOf e.text)

theorem Closes.produces {symbol : Word} {t : Tree} (h : g.Closes symbol t) :
    g.Produces symbol t := by
  rcases h with ⟨alternatives, e, hrule, he, _, rfl⟩
  exact ⟨alternatives, e, hrule, he, rfl⟩

theorem Closes.steps_lt {symbol : Word} {t : Tree} (h : g.Closes symbol t)
    (hsymbol : g.Affordable symbol) :
    0 < g.steps symbol ∧
      ∀ name ∈ t.openSymbols, g.Affordable name ∧ g.steps name < g.steps symbol := by
  rcases h with ⟨alternatives, e, _, _, hcost, rfl⟩
  rw [hsymbol.cost_eq] at hcost
  have hlimit := hsymbol.steps_lt_limit
  rcases cost_lt_of_textCost_eq hcost hlimit with ⟨hpos, hreferences⟩
  constructor
  · exact hpos
  · intro name hname
    rw [Tree.openSymbols, openSymbolsAll_childrenOf] at hname
    rcases hreferences name hname with ⟨k, hk, hlt⟩
    have hsteps : g.steps name = k := by rw [steps, hk]
    exact ⟨⟨k, hk, by omega⟩, by omega⟩

theorem mem_childrenOf {text : Word} {t : Tree} (h : t ∈ childrenOf text) :
    (∃ terminal, t = .terminal terminal) ∨ ∃ name ∈ references text, t = .unexpanded name := by
  cases t with
  | unexpanded name =>
      refine Or.inr ⟨name, ?_, rfl⟩
      rw [← openSymbolsAll_childrenOf]
      rcases List.append_of_mem h with ⟨before, behind, hnodes⟩
      rw [hnodes, Tree.openSymbolsAll_append]
      exact List.mem_append_right _ List.mem_cons_self
  | expanded symbol children =>
      rcases exists_symbols_childrenOf text with ⟨ss, _, hnodes, _, _⟩
      rw [hnodes] at h
      rcases List.mem_map.mp h with ⟨s, _, hs⟩
      cases s with
      | terminal terminal =>
          exact Or.inl ⟨terminal, hs.symm⟩
      | nonterminal name => cases hs

theorem Closes.depthWith_le {symbol : Word} {t : Tree} (h : g.Closes symbol t)
    (hsymbol : g.Affordable symbol) : t.depthWith g.steps ≤ g.steps symbol := by
  rcases h.steps_lt hsymbol with ⟨hpos, hreferences⟩
  rcases h with ⟨alternatives, e, _, _, _, rfl⟩
  rw [Tree.openSymbols, openSymbolsAll_childrenOf] at hreferences
  unfold Tree.depthWith
  apply Tree.heightWith_le
  intro child hchild
  rcases mem_childrenOf hchild with ⟨terminal, rfl⟩ | ⟨name, hname, rfl⟩
  · exact hpos
  · exact (hreferences name hname).2

/-!
## The weight of open nodes
-/

def base (g : Grammar) : Nat :=
  (g.expansions.map fun e => e.references.length).sum + 1

theorem length_references_lt_base {e : Expansion} (he : e ∈ g.expansions) :
    e.references.length < g.base := by
  have hle : e.references.length ≤ (g.expansions.map fun e => e.references.length).sum :=
    List.le_sum_of_mem (List.mem_map_of_mem he)
  unfold base
  omega

def weight (g : Grammar) (symbols : List Word) : Nat :=
  (symbols.map fun symbol => g.base ^ g.steps symbol).sum

theorem weight_append (us vs : List Word) : g.weight (us ++ vs) = g.weight us + g.weight vs := by
  rw [weight, weight, weight, List.map_append, List.sum_append]

theorem weight_cons (symbol : Word) (us : List Word) :
    g.weight (symbol :: us) = g.base ^ g.steps symbol + g.weight us :=
  rfl

theorem weight_le {us : List Word} {n : Nat} (h : ∀ symbol ∈ us, g.steps symbol ≤ n) :
    g.weight us ≤ us.length * g.base ^ n := by
  induction us with
  | nil => exact Nat.zero_le _
  | cons symbol us ih =>
      have hpow : g.base ^ g.steps symbol ≤ g.base ^ n :=
        Nat.pow_le_pow_right (Nat.succ_pos _) (h symbol List.mem_cons_self)
      have hrest := ih fun x hx => h x (List.mem_cons_of_mem _ hx)
      rw [weight_cons, List.length_cons, Nat.succ_mul]
      omega

theorem Closes.weight_lt {symbol : Word} {t : Tree} (h : g.Closes symbol t)
    (hsymbol : g.Affordable symbol) : g.weight t.openSymbols < g.base ^ g.steps symbol := by
  rcases h.steps_lt hsymbol with ⟨hpos, hreferences⟩
  rcases Nat.exists_eq_succ_of_ne_zero (Nat.pos_iff_ne_zero.mp hpos) with ⟨n, hn⟩
  have hle : g.weight t.openSymbols ≤ t.openSymbols.length * g.base ^ n :=
    weight_le fun name hname => by
      have hlt := (hreferences name hname).2
      omega
  have hlength : t.openSymbols.length < g.base := by
    rcases h with ⟨alternatives, e, hrule, he, _, rfl⟩
    rw [Tree.openSymbols, openSymbolsAll_childrenOf]
    exact length_references_lt_base (mem_expansions_iff.mpr ⟨_, _, hrule, he⟩)
  have hbase : 0 < g.base ^ n := Nat.pow_pos (Nat.succ_pos _)
  calc
    g.weight t.openSymbols ≤ t.openSymbols.length * g.base ^ n := hle
    _ < g.base * g.base ^ n := Nat.mul_lt_mul_of_pos_right hlength hbase
    _ = g.base ^ g.steps symbol := by rw [hn, Nat.pow_succ, Nat.mul_comm]

theorem eq_nil_of_weight {us : List Word} (h : g.weight us = 0) : us = [] := by
  cases us with
  | nil => rfl
  | cons symbol us =>
      have hpow : 0 < g.base ^ g.steps symbol := Nat.pow_pos (Nat.succ_pos _)
      rw [weight_cons] at h
      omega

/-!
## Steps of the closing phase
-/

section Step

variable {t t' : Tree}

theorem affordable_step (h : Tree.Replaces g.Closes t t')
    (ht : ∀ symbol ∈ t.openSymbols, g.Affordable symbol) :
    ∀ symbol ∈ t'.openSymbols, g.Affordable symbol := by
  rcases h.openSymbols with ⟨name, u, before, behind, hcloses, hold, hnew⟩
  rw [hold] at ht
  intro symbol hsymbol
  rw [hnew, List.mem_append, List.mem_append] at hsymbol
  rcases hsymbol with hsymbol | hsymbol | hsymbol
  · exact ht symbol (by simp [hsymbol])
  · exact ((hcloses.steps_lt (ht name (by simp))).2 symbol hsymbol).1
  · exact ht symbol (by simp [hsymbol])

theorem weight_step (h : Tree.Replaces g.Closes t t')
    (ht : ∀ symbol ∈ t.openSymbols, g.Affordable symbol) :
    g.weight t'.openSymbols < g.weight t.openSymbols := by
  rcases h.openSymbols with ⟨name, u, before, behind, hcloses, hold, hnew⟩
  have hlt := hcloses.weight_lt (ht name (by simp [hold]))
  rw [hold, hnew, weight_append, weight_append, weight_append, weight_cons]
  omega

/-- A derivation on its way to one that is no deeper than the cost of its symbol. -/
structure Closing (g : Grammar) (symbol : Word) (t : Tree) : Prop where
  root : g.Affordable symbol
  grows : g.Grows symbol t
  affordable : ∀ name ∈ t.openSymbols, g.Affordable name
  depth : t.depthWith g.steps ≤ g.steps symbol

theorem closing_unexpanded {symbol : Word} (h : g.Affordable symbol) :
    g.Closing symbol (.unexpanded symbol) := by
  refine ⟨h, .waiting, ?_, Nat.le_refl _⟩
  intro name hname
  rwa [List.mem_singleton.mp hname]

theorem Closing.step {symbol : Word} (h : g.Closing symbol t)
    (hstep : Tree.Replaces g.Closes t t') :
    g.Closing symbol t' := by
  refine ⟨h.root, ?_, affordable_step hstep h.affordable, ?_⟩
  · exact h.grows.step (hstep.mono fun _ _ hcloses => hcloses.produces)
  · have hdepth : t'.depthWith g.steps ≤ t.depthWith g.steps :=
      hstep.depthWith_le fun name hname u hcloses => hcloses.depthWith_le (h.affordable name hname)
    exact Nat.le_trans hdepth h.depth

end Step

end Grammar

namespace Grower

variable {σ : Type} {f : Grower σ}

theorem closes_of_expands (hcosts : f.costs.Exact f.grammar) {symbol : Word} {t : Tree}
    (h : f.Expands untouched .cheapest symbol t) : f.grammar.Closes symbol t := by
  rcases h with ⟨alternatives, e, nodes, hrule, he, rfl, rfl⟩
  refine ⟨alternatives, e, hrule, admitted_subset he, ?_, rfl⟩
  have hpriced := mem_withCost.mp he
  rw [priced_eq hcosts hrule, List.map_map] at hpriced
  rcases List.mem_map.mp hpriced with ⟨e', _, heq⟩
  rw [Grammar.cost_eq_minimum hrule]
  have htext : e' = e := congrArg Prod.snd heq
  rw [← htext]
  exact congrArg Prod.fst heq

theorem ensures_closing (hkeeps : f.strategy.KeepsChildren) (hcosts : f.costs.Exact f.grammar)
    {t₀ t : Tree} {steps : Nat} (hrefines : Tree.Refines f.grammar.Closing t₀ t)
    (ht : ∀ symbol ∈ t.openSymbols, f.grammar.Affordable symbol)
    (hsteps : f.grammar.weight t.openSymbols ≤ steps) :
    Action.Ensures (f.expandUntil .cheapest none steps t)
      (fun t' => Tree.Refines f.grammar.Closing t₀ t' ∧ t'.isOpen = false) fun _ => False := by
  induction steps generalizing t with
  | zero =>
      have hnone := Grammar.eq_nil_of_weight (Nat.le_zero.mp hsteps)
      have hclosed := Tree.isOpen_eq_false_iff.mpr hnone
      rw [expandUntil, if_neg (by simp [unfinished, hclosed])]
      exact .pure ⟨hrefines, hclosed⟩
  | succ steps ih =>
      unfold expandUntil
      cases hopen : t.isOpen with
      | false =>
          rw [if_neg (by simp [unfinished, hopen])]
          exact .pure ⟨hrefines, hopen⟩
      | true =>
          rw [if_pos (by simp [unfinished, hopen])]
          have hstep : Action.Ensures (f.expandSomewhere .cheapest t)
              (Tree.Replaces f.grammar.Closes t) fun _ => False := by
            refine (ensures_expandSomewhere (processes_untouched hkeeps) t hopen).mono ?_ ?_
            · exact fun t' ht' => ht'.mono fun symbol u hu => closes_of_expands hcosts hu
            · exact fun e he => not_undefined (fun symbol hsymbol =>
                (ht symbol hsymbol).hasAlternatives) he
          refine hstep.bind fun t' ht' => .after_record (ih ?_ ?_ ?_)
          · exact hrefines.replace (fun symbol u u' hu hstep => hu.step hstep) ht'
          · exact Grammar.affordable_step ht' ht
          · have hlt := Grammar.weight_step ht' ht
            omega

/--
For any strategy that leaves the chosen children alone, expansion at least cost closes
all open nodes whose costs are finite, within a number of steps that depends on the tree
only.  Each open node is replaced by a complete derivation no deeper than its cost.
-/
theorem closing_terminates {f : Grower σ} (hkeeps : f.strategy.KeepsChildren)
    (hcosts : f.costs = .onDemand ∨ f.costs = .tabulate f.grammar) {t : Tree}
    (ht : ∀ symbol ∈ t.openSymbols, f.grammar.Affordable symbol) :
    ∃ bound, ∀ steps, bound ≤ steps → ∀ s : Journaled (State σ), ∃ t' s',
      f.expandUntil .cheapest none steps t s = .ok t' s' ∧ t'.isOpen = false ∧
      Tree.Refines (fun symbol u => f.grammar.Grows symbol u ∧ u.isOpen = false ∧
        ∃ n, f.grammar.cost [] symbol = .finite n ∧ u.depth ≤ n) t t' := by
  have hexact : f.costs.Exact f.grammar := Pricing.exact_of_eq hcosts
  refine ⟨f.grammar.weight t.openSymbols, ?_⟩
  intro steps hsteps s
  have hstart : Tree.Refines f.grammar.Closing t t :=
    Tree.Refines.refl t fun symbol hsymbol => Grammar.closing_unexpanded (ht symbol hsymbol)
  have hs := ensures_closing hkeeps hexact hstart ht hsteps s
  cases hrun : f.expandUntil .cheapest none steps t s with
  | error e s' =>
      rw [hrun] at hs
      exact hs.elim
  | ok t' s' =>
      rw [hrun] at hs
      rcases hs with ⟨hrefines, hclosed⟩
      refine ⟨t', s', rfl, hclosed, Tree.Refines.complete t' hrefines hclosed ?_⟩
      intro symbol u hu hcomplete
      refine ⟨hu.grows, hcomplete, f.grammar.steps symbol, hu.root.cost_eq, ?_⟩
      rw [← Tree.depthWith_of_complete u hcomplete]
      exact hu.depth

/-- Operands that can be completed in two and in three steps. -/
def operandsGrammar : Grammar :=
  .ofRules [(startSymbol, [⟨.ofString "<a>+<b>+<a>", .empty⟩]),
    (.ofString "<a>", [⟨.ofString "<a>*<b>", .empty⟩, ⟨.ofString "(<c>)", .empty⟩]),
    (.ofString "<b>", [⟨.ofString "-<a>", .empty⟩, ⟨.ofString "<b><b>", .empty⟩]),
    (.ofString "<c>", [⟨.ofString "(<c>)", .empty⟩, ⟨.ofString "x", .empty⟩])]

def openOperands : Tree :=
  .expanded startSymbol (childrenOf (.ofString "<a>+<b>+<a>"))

theorem openOperands_closing_terminates :
    openOperands.openSymbols = [.ofString "<a>", .ofString "<b>", .ofString "<a>"] ∧
      operandsGrammar.cost [] (.ofString "<a>") = .finite 2 ∧
      operandsGrammar.cost [] (.ofString "<b>") = .finite 3 ∧
      ∃ bound, ∀ steps, bound ≤ steps → ∀ s : Journaled (State Unit), ∃ t' s',
        (ofChecked operandsGrammar {} firstChoice ()).1.expandUntil .cheapest none steps
          openOperands s = .ok t' s' ∧ t'.isOpen = false ∧
        Tree.Refines (fun symbol u => operandsGrammar.Grows symbol u ∧ u.isOpen = false ∧
          ∃ n, operandsGrammar.cost [] symbol = .finite n ∧ u.depth ≤ n) openOperands t' := by
  have hsymbols : openOperands.openSymbols =
      [.ofString "<a>", .ofString "<b>", .ofString "<a>"] := by
    rw [openOperands, Tree.openSymbols, Grammar.openSymbolsAll_childrenOf]
    decide
  have ha : operandsGrammar.cost [] (.ofString "<a>") = .finite 2 := by decide
  have hb : operandsGrammar.cost [] (.ofString "<b>") = .finite 3 := by decide
  have hopen : ∀ symbol ∈ openOperands.openSymbols, operandsGrammar.Affordable symbol := by
    rw [hsymbols]
    simp only [List.forall_mem_cons]
    exact ⟨⟨2, ha, by decide⟩, ⟨3, hb, by decide⟩, ⟨2, ha, by decide⟩, fun _ h => by cases h⟩
  exact ⟨hsymbols, ha, hb,
    closing_terminates (f := (ofChecked operandsGrammar {} firstChoice ()).1)
      (fun _ _ _ => rfl) (Or.inl rfl) hopen⟩

end Grower
end GrammarFuzz
