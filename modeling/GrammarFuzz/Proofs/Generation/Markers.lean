import GrammarFuzz.Proofs.Generation.Soundness
import GrammarFuzz.Proofs.SententialForms

/-!
# Non-terminals in generated inputs

No terminal run of a grammar contains a non-terminal, but an input puts terminal runs
of different expansions next to each other.  A non-terminal that can be read in an input
begins in one run and ends in a later one, so that there is none if the grammar does not
have both kinds of runs.
-/

namespace GrammarFuzz

/-- Whether a non-terminal that begins in a text may end behind it. -/
def EndsOpen (text : Word) : Prop :=
  ∃ before inner, text = before ++ '<' :: inner ∧ Brackets.angle.Fits inner

/-- Whether a non-terminal that begins before a text may end in it. -/
def BeginsClosed (text : Word) : Prop :=
  ∃ inner behind, text = inner ++ '>' :: behind ∧ Brackets.angle.Fits inner

theorem exists_beginsClosed {us : List Word} (h : BeginsClosed us.flatten) :
    ∃ u ∈ us, BeginsClosed u := by
  induction us with
  | nil =>
      rcases h with ⟨inner, behind, hword, _⟩
      cases inner with
      | nil => cases hword
      | cons c inner => cases hword
  | cons u us ih =>
      rcases h with ⟨inner, behind, hword, hfits⟩
      have hlater : ∀ {second : Word}, Brackets.angle.Fits second →
          us.flatten = second ++ '>' :: behind → ∃ v ∈ u :: us, BeginsClosed v := by
        intro second hsecond heq
        rcases ih ⟨second, behind, heq, hsecond⟩ with ⟨v, hv, hclosed⟩
        exact ⟨v, List.mem_cons_of_mem _ hv, hclosed⟩
      rw [List.flatten_cons] at hword
      rcases List.append_eq_append_iff.mp hword with ⟨second, rfl, hrest⟩ | ⟨tail, hu, htail⟩
      · exact hlater (Brackets.fits_append_iff.mp hfits).2 hrest
      · cases tail with
        | nil => exact hlater (Brackets.fits_nil _) htail.symm
        | cons d tail =>
            rcases List.cons.inj htail with ⟨rfl, _⟩
            exact ⟨u, List.mem_cons_self, inner, tail, hu, hfits⟩

theorem exists_of_refers_flatten {us : List Word} {name : Word}
    (hplain : ∀ u ∈ us, pieces .angle u = u.map .letter) (h : Refers us.flatten name) :
    ∃ before u behind, us = before ++ u :: behind ∧ EndsOpen u ∧
      ∃ v ∈ behind, BeginsClosed v := by
  induction us with
  | nil => cases h
  | cons u us ih =>
      rw [Refers, List.flatten_cons] at h
      rcases pieces_append_cases .angle u us.flatten with
        hcut | ⟨start, first, second, rest, hacross⟩
      · have hlater : Refers us.flatten name := by
          rw [hcut, hplain u List.mem_cons_self] at h
          simpa [Refers] using h
        rcases ih (fun v hv => hplain v (List.mem_cons_of_mem _ hv)) hlater with
          ⟨before, v, behind, rfl, hopen, hclosed⟩
        exact ⟨u :: before, v, behind, rfl, hopen, hclosed⟩
      · rcases Brackets.fits_append_iff.mp hacross.fits with ⟨hfirst, hsecond⟩
        have hopen : EndsOpen u := ⟨start, first, hacross.left, hfirst⟩
        have hclosed : BeginsClosed us.flatten := ⟨second, rest, hacross.right, hsecond⟩
        exact ⟨[], u, us, rfl, hopen, exists_beginsClosed hclosed⟩

namespace Grammar

variable {g : Grammar}

/-- Whether no terminal run ends open, or none begins closed. -/
def Guarded (g : Grammar) : Prop :=
  (∀ run, g.TerminalRun run → ¬ EndsOpen run) ∨ ∀ run, g.TerminalRun run → ¬ BeginsClosed run

theorem guarded_of_unambiguous (h : ∀ e ∈ g.expansions, Unambiguous e.text) : g.Guarded := by
  apply Or.inl
  intro run hrun hopen
  rcases hopen with ⟨before, inner, rfl, _⟩
  rcases hrun with hnil | ⟨e, he, hterminal⟩
  · simp at hnil
  · exact (h e he _ hterminal).1 (List.mem_append_right _ List.mem_cons_self)

theorem Guarded.references_flatten (h : g.Guarded) {us : List Word}
    (hus : ∀ u ∈ us, g.TerminalRun u) : references us.flatten = [] := by
  apply references_eq_nil_iff.mpr
  intro name hname
  rcases exists_of_refers_flatten (fun u hu => (hus u hu).pieces_eq) hname with
    ⟨before, u, behind, rfl, hopen, v, hv, hclosed⟩
  rcases h with hnone | hnone
  · exact hnone u (hus u (by simp)) hopen
  · exact hnone v (hus v (by simp [hv])) hclosed

end Grammar

namespace Grower

/--
A non-terminal that can be read in a generated input begins in one terminal leaf of its
tree and ends in a later one.  In the inputs of a guarded grammar none can be read.
-/
theorem generate_markers {ρ : Type} [WordSource ρ] {g : Grammar} {settings : GenerationSettings}
    {source : ρ} {f : Grower ρ} {initially : State ρ}
    (hcreate : (create g settings .uniform source).1 = .ok (f, initially))
    {steps : Nat} {s s' : Journaled (State ρ)} {w : Word} (hrun : f.generate steps s = .ok w s') :
    (∀ name, Refers w name → ∃ t before u behind, s'.state.last = some t ∧
      t.leaves = before ++ u :: behind ∧ EndsOpen u ∧ ∃ v ∈ behind, BeginsClosed v) ∧
    (g.Guarded → references w = []) := by
  rcases create_eq_ok hcreate with ⟨hcreated, hsupports⟩
  have hf : f = (ofChecked g settings .uniform source).1 := congrArg Prod.fst hcreated
  have hkeeps : Strategy.KeepsChildren (.uniform : Strategy ρ) := fun _ _ _ => rfl
  have hdelivers : Delivers g settings.start (f.generate steps s) := by
    rw [hf]
    exact delivers_generate hsupports hkeeps steps s
  rw [hrun] at hdelivers
  rcases hdelivers with ⟨t, hlast, _, _, hgrows, rfl, _⟩
  have hleaves : ∀ u ∈ t.leaves, g.TerminalRun u := hgrows.terminalRun t
  constructor
  · intro name hname
    rcases exists_of_refers_flatten (fun u hu => (hleaves u hu).pieces_eq) hname with
      ⟨before, u, behind, hsplit, hmarks⟩
    exact ⟨t, before, u, behind, hlast, hsplit, hmarks⟩
  · exact fun hguarded => hguarded.references_flatten hleaves

def bracketedGrammar : Grammar :=
  .ofRules [(startSymbol, [⟨['<', '<', 'a', '>', '>'], .empty⟩]),
    (['<', 'a', '>'], [⟨['x'], .empty⟩])]

/-- In one grammar no marker can be read, in the other one a marker spreads over three leaves. -/
theorem nestedGrammar_generate_markers :
    let script := Script.ofWords [0, 0, 0xFFFFFFFF]
    let nested := ofChecked nestedGrammar {} .uniform script
    let bracketed := ofChecked bracketedGrammar {} .uniform script
    (create nestedGrammar {} .uniform script).1 = .ok nested ∧ nestedGrammar.Guarded ∧
      (∃ s, nested.1.generate 3 ⟨nested.2, []⟩ = .ok ['(', 'x', ')'] s) ∧
      references ['(', 'x', ')'] = [] ∧
      (create bracketedGrammar {} .uniform script).1 = .ok bracketed ∧
      Refers ['<', 'x', '>'] ['x'] ∧
      ∃ s t before u behind, bracketed.1.generate 2 ⟨bracketed.2, []⟩ = .ok ['<', 'x', '>'] s ∧
        s.state.last = some t ∧ t.leaves = before ++ u :: behind ∧ EndsOpen u ∧
        ∃ v ∈ behind, BeginsClosed v := by
  intro script nested bracketed
  have hnested : (create nestedGrammar {} .uniform script).1 = .ok nested := rfl
  have hguarded : nestedGrammar.Guarded := Grammar.guarded_of_unambiguous (by decide)
  have hrun : ∃ s, nested.1.generate 3 ⟨nested.2, []⟩ = .ok ['(', 'x', ')'] s := ⟨_, rfl⟩
  have hbracketed : (create bracketedGrammar {} .uniform script).1 = .ok bracketed := rfl
  have hrefers : Refers ['<', 'x', '>'] ['x'] := by
    rw [Refers]
    decide
  have hrun' : ∃ s, bracketed.1.generate 2 ⟨bracketed.2, []⟩ = .ok ['<', 'x', '>'] s := ⟨_, rfl⟩
  refine ⟨hnested, hguarded, hrun, ?_, hbracketed, hrefers, ?_⟩
  · rcases hrun with ⟨s, hrun⟩
    exact (generate_markers hnested hrun).2 hguarded
  · rcases hrun' with ⟨s, hrun'⟩
    rcases (generate_markers hbracketed hrun').1 ['x'] hrefers with
      ⟨t, before, u, behind, hmarks⟩
    exact ⟨s, t, before, u, behind, hrun', hmarks⟩

theorem bracketedGrammar_generate :
    ∃ (f : Grower Script) (initially : State Script) (s : Journaled (State Script)),
      (create bracketedGrammar {} .uniform (.ofWords [])).1 = .ok (f, initially) ∧
      f.generate 2 ⟨initially, []⟩ = .ok ['<', 'x', '>'] s ∧
      references ['<', 'x', '>'] = [['<', 'x', '>']] :=
  ⟨_, _, _, rfl, rfl, rfl⟩

end Grower
end GrammarFuzz
