import GrammarFuzz.Proofs.Generation.Soundness
import GrammarFuzz.Proofs.Generation.Targets

/-!
# Every derivation can be generated

A strategy that knows a complete derivation can steer the generation towards it.  It keeps
a queue of trees, one for each open node from left to right, always goes on with the first
open node, and chooses the alternative that the first tree of the queue begins with.  The
queue then lists what is left of the derivation.
-/

namespace GrammarFuzz

/-!
## The strategy
-/

structure Strategy.ChoosesInRange {σ : Type} (strategy : Strategy σ) : Prop where
  expansion : ∀ symbol candidates choices, candidates ≠ [] →
    ((strategy.chooseExpansion symbol candidates).run choices).1 < candidates.length
  subtree : ∀ symbol candidates choices, candidates ≠ [] →
    ((strategy.chooseSubtree symbol candidates).run choices).1 < candidates.length

def positionOf (target : Tree) (candidates : List (List Tree)) : Nat :=
  candidates.findIdx fun nodes => Tree.sameAll nodes (target.children.map Tree.sprout)

/-- Steers towards the trees of a queue, which are meant for the open nodes from left to right. -/
def Strategy.towards : Strategy (List Tree) where
  supportedOptions := []
  chooseExpansion := fun _ candidates queue =>
    match queue with
    | [] => (0, [])
    | target :: rest =>
        (min (positionOf target candidates) (candidates.length - 1), target.branches ++ rest)
  chooseSubtree := fun _ _ => pure 0
  process := fun nodes _ => pure nodes

theorem Strategy.towards_keepsChildren : Strategy.towards.KeepsChildren :=
  fun _ _ _ => rfl

theorem Strategy.towards_choosesInRange : Strategy.towards.ChoosesInRange := by
  constructor
  · intro symbol candidates queue hne
    have hpos : 0 < candidates.length := List.length_pos_iff.mpr hne
    cases queue with
    | nil => exact hpos
    | cons target rest =>
        show min (positionOf target candidates) (candidates.length - 1) < candidates.length
        omega
  · exact fun symbol candidates queue hne => List.length_pos_iff.mpr hne

namespace Grower

/-!
## Steps towards a target
-/

section Towards

variable {f : Grower (List Tree)}

theorem attains_towards (hf : f.strategy = .towards) {symbol : Word} {target : Tree}
    (htarget : f.grammar.Completes symbol target) (later : List Tree) :
    Step.Attains (f.expandLeaf .random symbol) (target :: later) fun t queue =>
      t = .expanded symbol (target.children.map Tree.sprout) ∧
        queue = target.branches ++ later := by
  rcases htarget.exists_node with ⟨alternatives, e, children, hrule, he, rfl, _, hchildren⟩
  have hsprouts := Grammar.map_sprout_of_refines hchildren
  let nodes := alternatives.map fun e => childrenOf e.text
  let position := positionOf (.expanded symbol children) nodes
  have hexists : ∃ candidate ∈ nodes,
      Tree.sameAll candidate (children.map Tree.sprout) = true :=
    ⟨_, List.mem_map_of_mem he, by rw [hsprouts, Tree.sameAll_iff]⟩
  have hposition : position < nodes.length := List.findIdx_lt_length_of_exists hexists
  have hnodes : nodes[position] = children.map Tree.sprout :=
    (Tree.sameAll_iff _ _).mp (List.findIdx_getElem (w := hposition))
  refine (attains_expandLeaf hrule (List.ne_nil_of_mem he) _).mono ?_
  intro t queue hpicks
  rcases hpicks with ⟨picked, children', ⟨chosen, between, hchoice, hpicked, hprocess⟩, rfl⟩
  rw [hf] at hchoice hprocess
  cases hchoice
  cases hprocess
  change alternatives[min (min position (nodes.length - 1)) (alternatives.length - 1)]? =
    some picked at hpicked
  have hlast : position ≤ alternatives.length - 1 := by
    rw [List.length_map] at hposition
    exact Nat.le_sub_one_of_lt hposition
  have hlength : nodes.length = alternatives.length := List.length_map _
  have hclamped : min (min position (nodes.length - 1)) (alternatives.length - 1) = position := by
    rw [hlength, Nat.min_eq_left hlast, Nat.min_eq_left hlast]
  rw [hclamped] at hpicked
  have hpicked' : nodes[position]? = some (childrenOf picked.text) := by
    rw [List.getElem?_map, hpicked]
    rfl
  rw [List.getElem?_eq_getElem hposition, hnodes] at hpicked'
  constructor
  · rw [← Option.some.inj hpicked']
    rfl
  · rfl

mutual

theorem attains_expandSomewhere (hf : f.strategy = .towards) (t : Tree) {u : Tree}
    (h : Tree.Refines f.grammar.Completes t u) (hopen : t.isOpen = true) (later : List Tree) :
    Step.Attains (f.expandSomewhere .random t) (Tree.pending t u ++ later) fun t' =>
      Nears f.grammar [t] [u] later [t'] := by
  match t, h with
  | .unexpanded symbol, .leaf hu =>
      unfold expandSomewhere
      refine (attains_towards hf hu later).mono ?_
      intro t' queue hresult
      rcases hresult with ⟨rfl, rfl⟩
      exact .leaf hu later
  | .expanded symbol ts, @Tree.Refines.node _ _ _ us hchildren =>
      unfold expandSomewhere
      have hne := filter_isOpen_ne_nil hopen
      rw [if_neg (by simpa using hne), hf]
      refine .after_consult ?_
      refine .bind (attains_expandFirstOpen hf ts hchildren hopen later) ?_
      exact fun ts' queue hnears => .pure (hnears.node symbol)

theorem attains_expandFirstOpen (hf : f.strategy = .towards) (ts : List Tree) {us : List Tree}
    (h : List.Forall₂ (Tree.Refines f.grammar.Completes) ts us) (hopen : Tree.anyOpen ts = true)
    (later : List Tree) :
    Step.Attains (f.expandNthOpen .random 0 ts) (Tree.pendingAll ts us ++ later)
      (Nears f.grammar ts us later) := by
  match ts, h with
  | [], .nil => cases hopen
  | t :: ts, @List.Forall₂.cons _ _ _ _ u _ us hhead hrest =>
      rw [expandNthOpen.eq_def, Tree.pendingAll]
      dsimp only
      cases ht : t.isOpen with
      | true =>
          rw [if_pos rfl, List.append_assoc]
          refine .bind (attains_expandSomewhere hf t hhead ht _) ?_
          exact fun t' queue hnears => .pure (hnears.head hrest)
      | false =>
          rw [Tree.anyOpen, ht, Bool.false_or] at hopen
          rw [if_neg Bool.false_ne_true, Tree.pending_of_closed t u ht, List.nil_append]
          refine .bind (attains_expandFirstOpen hf ts hrest hopen later) ?_
          exact fun ts' queue hnears => .pure (hnears.tail hhead ht)

end

theorem attains_expandUntil (hf : f.strategy = .towards) {t u : Tree} {n steps : Nat}
    (h : Tree.Refines f.grammar.Completes t u)
    (hn : Tree.symbolCountAll (Tree.pending t u) < n)
    (hsteps : Tree.symbolCountAll (Tree.pending t u) ≤ steps) :
    Step.Attains (f.expandUntil .random (some n) steps t) (Tree.pending t u)
      fun t' _ => t' = u := by
  induction steps generalizing t with
  | zero =>
      have hopenCount := openCount_le_of_refines h
      have hclosed : t.isOpen = false := Tree.openCount_eq_zero_iff.mp (by omega)
      rw [expandUntil, if_neg (by simp [unfinished, hclosed])]
      exact .pure (h.eq_of_closed u hclosed)
  | succ steps ih =>
      have hopenCount := openCount_le_of_refines h
      have hlimit : t.openCount < n := Nat.lt_of_le_of_lt hopenCount hn
      unfold expandUntil
      cases hopen : t.isOpen with
      | false =>
          rw [if_neg (by simp [unfinished, hopen])]
          exact .pure (h.eq_of_closed u hopen)
      | true =>
          rw [if_pos (by simp [unfinished, hopen, hlimit])]
          have hstep := attains_expandSomewhere hf t h hopen []
          rw [List.append_nil] at hstep
          refine .bind hstep fun t' queue hnears => .after_record ?_
          rcases hnears.single with ⟨hrefines, rfl, hcount⟩
          exact ih hrefines (by omega) (by omega)

theorem attains_derive (hf : f.strategy = .towards) (hmin : f.minOpen = 0) {target : Tree}
    (htarget : f.grammar.Completes f.start target) (hmax : target.symbolCount < f.maxOpen)
    {steps : Nat} (hsteps : target.symbolCount ≤ steps) :
    Step.Attains (f.derive steps) [target] fun t _ => t = target := by
  have hinitial : unfinished (some f.minOpen) f.initial = false := by
    simp [unfinished, hmin]
  have hclosed : unfinished none target = false := by
    simp [unfinished, htarget.2]
  have hcount : target.openCount = 0 := Tree.openCount_eq_zero_iff.mpr htarget.2
  have hrandom : Step.Attains (f.expandUntil .random (some f.maxOpen) steps f.initial) [target]
      fun t _ => t = target := by
    apply attains_expandUntil hf (.leaf htarget)
    · simpa [Tree.pending, Tree.symbolCountAll] using hmax
    · simpa [Tree.pending, Tree.symbolCountAll] using hsteps
  have hcomplete : Step.Attains (f.complete steps f.initial) [target]
      fun t _ => t = target := by
    unfold complete
    rw [expandUntil_of_finished hinitial, pure_bind]
    refine .after_record (.after_record (.bind hrandom fun t later heq => .after_record ?_))
    subst heq
    rw [expandUntil_of_finished hclosed, pure_bind, if_pos hcount]
    exact .pure rfl
  unfold derive
  refine .bind hcomplete fun t later heq => ?_
  subst heq
  refine .bind (.read State.memo) fun memo _ _ => ?_
  split
  · exact .after_record (.pure rfl)
  · exact .pure rfl

end Towards

/--
Whether generation that is steered towards a tree yields it, with its output, for any
upper bound above the number of its symbols and in as many steps.
-/
def Steers (g : Grammar) (settings : GenerationSettings) (target : Tree) : Prop :=
  ∀ n, target.symbolCount < n → ∃ f initially,
    (create g { settings with minNonterminals := 0, maxNonterminals := n } .towards [target]).1 =
      .ok (f, initially) ∧
    ∀ steps, target.symbolCount ≤ steps → ∀ journal,
      (∃ s, f.derive steps ⟨initially, journal⟩ = .ok target s) ∧
        ∃ s, f.generate steps ⟨initially, journal⟩ = .ok target.output s

theorem steers_of_completes {g : Grammar} {settings : GenerationSettings} {target : Tree}
    (hvalid : g.Valid settings.start) (htarget : g.Completes settings.start target) :
    Steers g settings target := by
  intro n hn
  let bounded := { settings with minNonterminals := 0, maxNonterminals := n }
  let created := ofChecked g bounded .towards [target]
  have hcreate : (create g bounded .towards [target]).1 = .ok created :=
    @create_of_valid _ _ bounded (Nat.zero_le n) hvalid .towards [target]
  refine ⟨created.1, created.2, hcreate, ?_⟩
  intro steps hsteps journal
  have hderive : Step.Attains (created.1.derive steps) [target] fun t _ => t = target :=
    attains_derive rfl rfl htarget hn hsteps
  rcases hderive ⟨created.2, journal⟩ rfl with ⟨_, s, hrun, rfl⟩
  constructor
  · exact ⟨s, hrun⟩
  · rw [generate_eq, hrun]
    exact ⟨_, rfl⟩

/--
In a grammar that has been accepted, every complete derivation of the start symbol is
generated by a strategy that leaves children alone and chooses positions in range only.
No word of the language is therefore out of reach.
-/
theorem create_complete {σ : Type} {g : Grammar} {settings : GenerationSettings}
    {strategy : Strategy σ} {choices : σ} {created : Grower σ × State σ}
    (haccepted : (create g settings strategy choices).1 = .ok created) :
    Strategy.towards.KeepsChildren ∧ Strategy.towards.ChoosesInRange ∧
      (∀ t, g.Grows settings.start t → t.isOpen = false → Steers g settings t) ∧
      ∀ w ∈ g.language plainReading settings.start, ∃ t, t.output = w ∧ Steers g settings t := by
  have hvalid := valid_of_create haccepted
  refine ⟨Strategy.towards_keepsChildren, Strategy.towards_choosesInRange, ?_, ?_⟩
  · exact fun t hgrows hclosed => steers_of_completes hvalid ⟨hgrows, hclosed⟩
  · intro w hw
    rcases Grammar.mem_language_iff.mp hw with ⟨t, ht, houtput⟩
    exact ⟨t, houtput, steers_of_completes hvalid ht⟩

def branchingGrammar : Grammar :=
  .ofRules [(startSymbol, [⟨['<', 'a', '>', ',', '<', 'a', '>'], .empty⟩]),
    (['<', 'a', '>'], [⟨['x'], .empty⟩, ⟨['y', '<', 'a', '>'], .empty⟩])]

def branchingTree : Tree :=
  .expanded startSymbol
    [.expanded ['<', 'a', '>'] [.terminal ['y'], .expanded ['<', 'a', '>'] [.terminal ['x']]],
      .terminal [','], .expanded ['<', 'a', '>'] [.terminal ['x']]]

theorem branchingTree_grows : branchingGrammar.Grows startSymbol branchingTree := by
  have hshort : branchingGrammar.Grows ['<', 'a', '>']
      (.expanded ['<', 'a', '>'] [.terminal ['x']]) :=
    .node rfl (List.mem_cons_self) (.cons (.node .nil) .nil)
  have hlong : branchingGrammar.Grows ['<', 'a', '>'] (.expanded ['<', 'a', '>']
      [.terminal ['y'], .expanded ['<', 'a', '>'] [.terminal ['x']]]) :=
    .node rfl (List.mem_cons_of_mem _ List.mem_cons_self)
      (.cons (.node .nil) (.cons (.leaf hshort) .nil))
  exact .node rfl List.mem_cons_self
    (.cons (.leaf hlong) (.cons (.node .nil) (.cons (.leaf hshort) .nil)))

theorem branchingGrammar_complete :
    (create branchingGrammar {} firstChoice ()).1 =
        .ok (ofChecked branchingGrammar {} firstChoice ()) ∧
      branchingGrammar.Grows startSymbol branchingTree ∧ branchingTree.isOpen = false ∧
      branchingTree.symbolCount = 4 ∧ branchingTree.output = ['y', 'x', ',', 'x'] ∧
      Steers branchingGrammar {} branchingTree := by
  have hcreate : (create branchingGrammar {} firstChoice ()).1 =
      .ok (ofChecked branchingGrammar {} firstChoice ()) := rfl
  have hsteers := (create_complete hcreate).2.2.1 branchingTree branchingTree_grows rfl
  exact ⟨hcreate, branchingTree_grows, rfl, rfl, rfl, hsteers⟩

end Grower
end GrammarFuzz
