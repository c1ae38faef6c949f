import GrammarFuzz.Proofs.Generation.Steps
import GrammarFuzz.Proofs.Validity

/-!
# Generated inputs are words of the grammar

As long as the strategy leaves the chosen children alone, every step keeps a
derivation of the start symbol in which only symbols with alternatives are open.
Generation can then only run out of steps; if it ends, the input is a word of the
start symbol, and the recorded tree is a derivation of it.
-/

namespace GrammarFuzz

/-- Whether a strategy goes on with the children that it has chosen, as they are. -/
def Strategy.KeepsChildren {σ : Type} (strategy : Strategy σ) : Prop :=
  ∀ children e choices, ((strategy.process children e).run choices).1 = children

namespace Grower

variable {σ : Type} {f : Grower σ}

def firstChoice : Strategy Unit where
  supportedOptions := []
  chooseExpansion := fun _ _ => pure 0
  chooseSubtree := fun _ _ => pure 0
  process := fun children _ => pure children

def untouched : Processing :=
  fun e nodes => nodes = childrenOf e.text

theorem processes_untouched (h : f.strategy.KeepsChildren) : f.Processes untouched :=
  fun e choices => h (childrenOf e.text) e choices

theorem produces_of_expands {policy : Policy} {symbol : Word} {t : Tree}
    (h : f.Expands untouched policy symbol t) : f.grammar.Produces symbol t := by
  rcases h with ⟨alternatives, e, nodes, hrule, he, rfl, rfl⟩
  exact ⟨alternatives, e, hrule, admitted_subset he, rfl⟩

/-- A derivation of the start symbol whose open nodes can all be expanded. -/
structure Sound (f : Grower σ) (t : Tree) : Prop where
  grows : f.grammar.Grows f.start t
  expandable : ∀ symbol ∈ t.openSymbols, f.grammar.HasAlternatives symbol

theorem sound_initial (h : f.grammar.Supports f.start) : f.Sound f.initial := by
  constructor
  · exact .waiting
  · intro symbol hsymbol
    rw [List.mem_singleton.mp hsymbol]
    exact h.start

theorem keeps_sound (h : f.grammar.Supports f.start) (policy : Policy) :
    f.Keeps untouched policy f.Sound := by
  intro t t' ht hstep
  have hproduces := hstep.mono fun symbol u hu => produces_of_expands hu
  exact ⟨ht.grows.step hproduces, h.step hproduces ht.expandable⟩

theorem not_undefined {symbols : List Word}
    (h : ∀ symbol ∈ symbols, f.grammar.HasAlternatives symbol) {error : GenerationError} :
    ¬ f.Undefined symbols error := by
  intro hundefined
  rcases hundefined with ⟨symbol, hsymbol, _, hnone⟩
  rcases h symbol hsymbol with ⟨alternatives, hrule, hne⟩
  rw [hrule] at hnone
  exact hne hnone

theorem ensures_derive {inv : Tree → Prop} {fails : GenerationError → Prop} {steps : Nat}
    (h : Action.Ensures (f.complete steps f.initial) inv fails) :
    Action.Ensures (f.derive steps) inv fails := by
  unfold derive
  refine h.bind fun t ht => ?_
  have hread : Action.Ensures (Action.read State.memo : Step σ Memo) (fun _ => True) fails :=
    fun _ => trivial
  refine hread.bind fun memo _ => ?_
  split
  · exact .after_record (.pure ht)
  · exact .pure ht

theorem generate_eq (f : Grower σ) (steps : Nat) (s : Journaled (State σ)) :
    f.generate steps s = match f.derive steps s with
      | .ok t s' => .ok t.output { s' with state := { s'.state with last := some t } }
      | .error e s' => .error e s' := by
  show EStateM.bind (f.derive steps) _ s = _
  rw [EStateM.bind]
  cases f.derive steps s with
  | ok t s' => rfl
  | error e s' => rfl

theorem ensures_generate {fails : GenerationError → Prop} {inv : Tree → Prop} {steps : Nat}
    (h : Action.Ensures (f.derive steps) inv fails) (s : Journaled (State σ)) :
    match f.generate steps s with
    | .ok w s' => ∃ t, inv t ∧ s'.state.last = some t ∧ w = t.output
    | .error e _ => fails e := by
  have hs := h s
  rw [generate_eq]
  cases hrun : f.derive steps s with
  | ok t s' =>
      rw [hrun] at hs
      exact ⟨t, hs, rfl, rfl⟩
  | error e s' =>
      rw [hrun] at hs
      exact hs

theorem generate_fails (f : Grower σ) (steps : Nat) (s : Journaled (State σ)) :
    match f.generate steps s with
    | .ok _ _ => True
    | .error e _ => e = .outOfSteps ∨ ∃ symbol, e = .undefinedSymbol symbol := by
  have hprocess : f.Processes fun _ _ => True := fun _ _ => trivial
  have hkeeps : ∀ policy, f.Keeps (fun _ _ => True) policy fun _ => True :=
    fun _ _ _ _ _ => trivial
  have hcomplete : Action.Ensures (f.complete steps f.initial)
      (fun t => True ∧ t.isOpen = false) (f.PhaseFails fun _ => True) :=
    ensures_complete hprocess hkeeps steps trivial
  have hgenerate := ensures_generate (ensures_derive hcomplete) s
  cases hrun : f.generate steps s with
  | ok w s' => trivial
  | error e s' =>
      rw [hrun] at hgenerate
      rcases hgenerate with rfl | ⟨t, _, symbol, _, rfl, _⟩
      · exact Or.inl rfl
      · exact Or.inr ⟨symbol, rfl⟩

/--
The result of a generation that has ended: a word of the grammar, made up by the leaves
of the recorded tree, which is a complete derivation of the start symbol.
-/
def Delivers (g : Grammar) (start : Word) :
    EStateM.Result GenerationError (Journaled (State σ)) Word → Prop
  | .ok w s => ∃ t, s.state.last = some t ∧ t.symbol = start ∧ t.isOpen = false ∧
      g.Grows start t ∧ w = t.leaves.flatten ∧ w ∈ g.language plainReading start
  | .error e _ => e = .outOfSteps

theorem delivers_generate (hsupports : f.grammar.Supports f.start)
    (hkeeps : f.strategy.KeepsChildren) (steps : Nat) (s : Journaled (State σ)) :
    Delivers f.grammar f.start (f.generate steps s) := by
  have hcomplete := ensures_complete (processes_untouched hkeeps) (keeps_sound hsupports) steps
    (sound_initial hsupports)
  have hgenerate := ensures_generate (ensures_derive hcomplete) s
  cases hrun : f.generate steps s with
  | ok w s' =>
      rw [hrun] at hgenerate
      rcases hgenerate with ⟨t, ⟨hsound, hclosed⟩, hlast, rfl⟩
      have houtput := hsound.grows.output hclosed
      exact ⟨t, hlast, hsound.grows.symbol_eq, hclosed, hsound.grows, houtput.1, houtput.2⟩
  | error e s' =>
      rw [hrun] at hgenerate
      rcases hgenerate with herror | ⟨t, ht, hundefined⟩
      · exact herror
      · exact absurd hundefined (not_undefined ht.expandable)

/--
If the strategy leaves the chosen children alone, generation delivers words of the
grammar unless it uses up the steps that it has been granted.  Whatever the strategy
does, no open node is left behind.
-/
theorem create_sound {g : Grammar} {settings : GenerationSettings} {strategy : Strategy σ}
    {choices : σ} {f : Grower σ} {initially : State σ}
    (hcreate : (create g settings strategy choices).1 = .ok (f, initially)) :
    (strategy.KeepsChildren → ∀ (steps : Nat) (s : Journaled (State σ)),
      Delivers g settings.start (f.generate steps s)) ∧
    ∀ (steps count : Nat) (s s' : Journaled (State σ)),
      f.generate steps s ≠ .error (.unterminated count) s' := by
  rcases create_eq_ok hcreate with ⟨hcreated, hsupports⟩
  have hf : f = (ofChecked g settings strategy choices).1 := congrArg Prod.fst hcreated
  constructor
  · intro hkeeps steps s
    rw [hf]
    exact delivers_generate hsupports hkeeps steps s
  · intro steps count s s' hrun
    have hfails := generate_fails f steps s
    rw [hrun] at hfails
    rcases hfails with herror | ⟨symbol, herror⟩
    · cases herror
    · cases herror

def nestedGrammar : Grammar :=
  .ofRules [(startSymbol, [⟨'(' :: startSymbol ++ [')'], .empty⟩, ⟨['x'], .empty⟩])]

theorem nestedGrammar_sound :
    let script := Script.ofWords [0, 0, 0xFFFFFFFF]
    let made := ofChecked nestedGrammar {} .uniform script
    (create nestedGrammar {} .uniform script).1 = .ok made ∧
      (.uniform : Strategy Script).KeepsChildren ∧
      (∃ s t, made.1.generate 3 ⟨made.2, []⟩ = .ok ['(', 'x', ')'] s ∧ s.state.last = some t ∧
        t.symbol = startSymbol ∧ t.isOpen = false ∧ nestedGrammar.Grows startSymbol t ∧
        ['(', 'x', ')'] = t.leaves.flatten ∧
        ['(', 'x', ')'] ∈ nestedGrammar.language plainReading startSymbol) ∧
      ∀ steps count s s', made.1.generate steps s ≠ .error (.unterminated count) s' := by
  intro script made
  have hcreate : (create nestedGrammar {} .uniform script).1 = .ok made := rfl
  have hkeeps : (.uniform : Strategy Script).KeepsChildren := fun _ _ _ => rfl
  have hsound := create_sound (f := made.1) hcreate
  have hrun : ∃ s, made.1.generate 3 ⟨made.2, []⟩ = .ok ['(', 'x', ')'] s := ⟨_, rfl⟩
  rcases hrun with ⟨s, hrun⟩
  have hdelivers := hsound.1 hkeeps 3 ⟨made.2, []⟩
  rw [hrun] at hdelivers
  rcases hdelivers with ⟨t, ht⟩
  exact ⟨hcreate, hkeeps, ⟨s, t, hrun, ht⟩, hsound.2⟩

end Grower
end GrammarFuzz
