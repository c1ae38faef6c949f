import GrammarFuzz.Proofs.Actions
import GrammarFuzz.Proofs.Mutation.Edits

/-!
# Seeds first, mutants afterwards

A client may ask a mutator for inputs, candidates and numbers of mutations and may reset
it, in any order.  Of all calls that were made before, only the number of inputs asked for
since the last reset matters: as long as there are seeds left, the next input is the next
seed, and from then on it is a mutant.
-/

namespace GrammarFuzz
namespace Mutator

variable {ρ : Type}

/-!
## Sessions
-/

inductive Call where
  | next
  | candidate
  | mutationCount
  | seeds
  | reset

inductive Answer where
  | text (w : Word)
  | count (n : Nat)
  | seeds (words : List Word)
  | done

section Sessions

variable [WordSource ρ]

def perform (m : Mutator) : Call → Step ρ Answer
  | .next => return .text (← m.next)
  | .candidate => return .text (← m.candidate)
  | .mutationCount => return .count (← m.mutationCount)
  | .seeds => return .seeds m.seeds
  | .reset => do
      reset
      return .done

def answers (m : Mutator) : List Call → Journaled (State ρ) → List Answer
  | [], _ => []
  | call :: rest, s =>
      match m.perform call s with
      | .ok answer s => answer :: m.answers rest s
      | .error e _ => e.elim

def session (seeds : List Word) (settings : MutationSettings) (source : ρ) (calls : List Call) :
    Except MutationError (List Answer) :=
  match create seeds settings with
  | .error e => .error e
  | .ok m => .ok (m.answers calls { state := ⟨0, source⟩ })

end Sessions

/-!
## What the answers are
-/

def Call.advance (asked : Nat) : Call → Nat
  | .next => asked + 1
  | .reset => 0
  | _ => asked

def asked (calls : List Call) : Nat :=
  calls.foldl Call.advance 0

def IsMutant (m : Mutator) (w : Word) : Prop :=
  ∃ seed ∈ m.seeds, (∃ n, m.minMutations ≤ n ∧ n ≤ m.maxMutations ∧ Mutation.Edits n seed w) ∧
    Word.distance seed w ≤ m.maxMutations

/-- Whether an answer fits a call, given the number of inputs asked for before. -/
def Fits (m : Mutator) (asked : Nat) : Call → Answer → Prop
  | .next, .text w =>
      match m.seeds[asked]? with
      | some seed => w = seed
      | none => m.IsMutant w
  | .candidate, .text w => m.IsMutant w
  | .mutationCount, .count n => m.minMutations ≤ n ∧ n ≤ m.maxMutations
  | .seeds, .seeds words => words = m.seeds
  | .reset, .done => True
  | _, _ => False

/-!
## Computations that leave the position alone
-/

def Stays {α : Type} (action : Step ρ α) (post : α → Prop) : Prop :=
  ∀ s, ∃ a s', action s = .ok a s' ∧ post a ∧ s'.state.position = s.state.position

namespace Stays

variable {α β : Type}

theorem pure {post : α → Prop} {a : α} (h : post a) : Stays (Pure.pure a : Step ρ α) post :=
  fun s => ⟨a, s, rfl, h, rfl⟩

theorem bind {action : Step ρ α} {next : α → Step ρ β} {mid : α → Prop} {post : β → Prop}
    (h : Stays action mid) (hnext : ∀ a, mid a → Stays (next a) post) :
    Stays (action >>= next) post := by
  intro s
  rcases h s with ⟨a, s', hrun, ha, hposition⟩
  rcases hnext a ha s' with ⟨b, s'', hrun', hb, hposition'⟩
  refine ⟨b, s'', ?_, hb, hposition'.trans hposition⟩
  exact (Action.bind_of_ok hrun next).trans hrun'

theorem record (event : Event) : Stays (Action.record event : Step ρ Unit) fun _ => True :=
  fun _ => ⟨(), _, rfl, trivial, rfl⟩

theorem draw {f : StateM ρ α} {post : α → Prop} (h : Yields f post) : Stays (draw f) post :=
  fun s => ⟨_, _, rfl, h s.state.source, rfl⟩

end Stays

variable {m : Mutator}

/-- The position is the number of inputs asked for, until all seeds have been returned. -/
def Counts (m : Mutator) (asked : Nat) (s : State ρ) : Prop :=
  s.position = min asked m.seeds.length

theorem exists_of_stays {α : Type} {action : Step ρ α} {post : α → Prop} (h : Stays action post)
    (wrap : α → Answer) {asked : Nat} {s : Journaled (State ρ)} (hs : m.Counts asked s.state) :
    ∃ a s', (return wrap (← action) : Step ρ Answer) s = .ok (wrap a) s' ∧ post a ∧
      m.Counts asked s'.state := by
  rcases h s with ⟨a, s', hrun, ha, hposition⟩
  exact ⟨a, s', Action.bind_of_ok hrun _, ha, hposition.trans hs⟩

variable [WordSource ρ]

theorem stays_mutationCount (hbounds : m.minMutations ≤ m.maxMutations) :
    Stays (m.mutationCount : Step ρ Nat) fun n => m.minMutations ≤ n ∧ n ≤ m.maxMutations :=
  .draw (WordSource.yields_drawSize hbounds)

theorem stays_candidate (hseeds : m.seeds ≠ []) (hbounds : m.minMutations ≤ m.maxMutations) :
    Stays (m.candidate : Step ρ Word) m.IsMutant := by
  unfold candidate
  refine .bind (.draw (WordSource.yields_drawFrom m.seeds)) fun drawn hdrawn => ?_
  rcases hdrawn with ⟨hnone, _⟩ | ⟨seed, hseed, rfl⟩
  · exact absurd hnone hseeds
  · refine .bind (stays_mutationCount hbounds) fun n hn => ?_
    refine .bind (.draw (Mutation.yields_mutateTimes n seed)) fun w hw => ?_
    refine .bind (.record _) fun _ _ => .pure ?_
    exact ⟨seed, hseed, ⟨n, hn.1, hn.2, hw⟩, Nat.le_trans hw.distance_le hn.2⟩

/-!
## Calls
-/

theorem next_eq (m : Mutator) (s : Journaled (State ρ)) :
    m.next s = match m.seeds[s.state.position]? with
      | some seed => .ok seed { s with state := { s.state with position := s.state.position + 1 } }
      | none => m.candidate s := by
  show (match m.seeds[s.state.position]? with
    | some seed => _
    | none => m.candidate : Step ρ Word) s = _
  cases m.seeds[s.state.position]? with
  | some seed => rfl
  | none => rfl

theorem exists_next (hseeds : m.seeds ≠ []) (hbounds : m.minMutations ≤ m.maxMutations)
    {asked : Nat} {s : Journaled (State ρ)} (hs : m.Counts asked s.state) :
    ∃ w s', m.next s = .ok w s' ∧ m.Fits asked .next (.text w) ∧
      m.Counts (asked + 1) s'.state := by
  rw [next_eq, hs]
  rcases Nat.lt_or_ge asked m.seeds.length with hlt | hge
  · have hseed := List.getElem?_eq_getElem hlt
    rw [Nat.min_eq_left (Nat.le_of_lt hlt), hseed]
    refine ⟨_, _, rfl, ?_, ?_⟩
    · rw [Fits, hseed]
    · exact (Nat.min_eq_left hlt).symm
  · rw [Nat.min_eq_right hge, List.getElem?_eq_none (Nat.le_refl _)]
    rcases stays_candidate hseeds hbounds s with ⟨w, s', hrun, hw, hposition⟩
    refine ⟨w, s', hrun, ?_, ?_⟩
    · rw [Fits, List.getElem?_eq_none hge]
      exact hw
    · rw [Counts, hposition, hs, Nat.min_eq_right hge, Nat.min_eq_right (Nat.le_succ_of_le hge)]

theorem exists_perform (hseeds : m.seeds ≠ []) (hbounds : m.minMutations ≤ m.maxMutations)
    (call : Call) {asked : Nat} {s : Journaled (State ρ)} (hs : m.Counts asked s.state) :
    ∃ answer s', m.perform call s = .ok answer s' ∧ m.Fits asked call answer ∧
      m.Counts (call.advance asked) s'.state := by
  cases call with
  | next =>
      rcases exists_next hseeds hbounds hs with ⟨w, s', hrun, hfits, hcounts⟩
      exact ⟨.text w, s', Action.bind_of_ok hrun _, hfits, hcounts⟩
  | candidate =>
      rcases exists_of_stays (stays_candidate hseeds hbounds) .text hs with ⟨w, s', h⟩
      exact ⟨.text w, s', h⟩
  | mutationCount =>
      rcases exists_of_stays (stays_mutationCount hbounds) .count hs with ⟨n, s', h⟩
      exact ⟨.count n, s', h⟩
  | seeds => exact ⟨.seeds m.seeds, s, rfl, rfl, hs⟩
  | reset => exact ⟨.done, _, rfl, trivial, (Nat.zero_min _).symm⟩

theorem answers_fit (hseeds : m.seeds ≠ []) (hbounds : m.minMutations ≤ m.maxMutations)
    (calls : List Call) {asked : Nat} {s : Journaled (State ρ)} (hs : m.Counts asked s.state) :
    (m.answers calls s).length = calls.length ∧
      ∀ i call answer, calls[i]? = some call → (m.answers calls s)[i]? = some answer →
        m.Fits ((calls.take i).foldl Call.advance asked) call answer := by
  induction calls generalizing asked s with
  | nil => exact ⟨rfl, fun i call answer hcall => by cases hcall⟩
  | cons call rest ih =>
      rcases exists_perform hseeds hbounds call hs with ⟨answer, s', hrun, hfits, hcounts⟩
      rcases ih hcounts with ⟨hlength, hrest⟩
      have hanswers : m.answers (call :: rest) s = answer :: m.answers rest s' := by
        rw [answers, hrun]
      rw [hanswers]
      constructor
      · exact congrArg Nat.succ hlength
      · intro i call' answer' hcall hanswer
        cases i with
        | zero =>
            cases hcall
            cases hanswer
            exact hfits
        | succ i => exact hrest i call' answer' hcall hanswer

theorem create_eq_ok_of_bounds {seeds : List Word} {settings : MutationSettings}
    (hseeds : seeds ≠ []) (hbounds : settings.minMutations ≤ settings.maxMutations) :
    create seeds settings = .ok ⟨seeds, settings.minMutations, settings.maxMutations⟩ := by
  have hcheck : settings.checkBounds = .ok () := if_neg (Nat.not_lt_of_le hbounds)
  rw [create, hcheck]
  exact if_neg (by simpa using hseeds)

/--
In every session, whatever the source of chance and the order of the calls, the seeds come
first and in order, again after each reset, and mutants of seeds come afterwards.  A mutant
is made from a seed by as many edits as the bounds allow, and it is no further away from
the seed than the upper bound.  The seeds stay the same.
-/
theorem session_fits {seeds : List Word} {settings : MutationSettings} (hseeds : seeds ≠ [])
    (hbounds : settings.minMutations ≤ settings.maxMutations) (source : ρ) (calls : List Call) :
    ∃ answers, session seeds settings source calls = .ok answers ∧
      answers.length = calls.length ∧
      ∀ i call answer, calls[i]? = some call → answers[i]? = some answer →
        Fits ⟨seeds, settings.minMutations, settings.maxMutations⟩ (asked (calls.take i))
          call answer := by
  rw [session, create_eq_ok_of_bounds hseeds hbounds]
  have hstart : Counts ⟨seeds, settings.minMutations, settings.maxMutations⟩ 0
      (⟨0, source⟩ : State ρ) := (Nat.zero_min _).symm
  exact ⟨_, rfl, answers_fit hseeds hbounds calls hstart⟩

theorem twoSeeds_session_fits :
    ([['a'], ['b']] : List Word) ≠ [] ∧
      ({} : MutationSettings).minMutations ≤ ({} : MutationSettings).maxMutations ∧
      ∃ answers, session [['a'], ['b']] {} (Script.ofWords [7])
          [.next, .candidate, .reset, .next, .next, .next] = .ok answers ∧
        answers.length = 6 ∧
        ∀ i call answer,
          [Call.next, .candidate, .reset, .next, .next, .next][i]? = some call →
          answers[i]? = some answer →
          Fits ⟨[['a'], ['b']], 2, 10⟩
            (asked ([Call.next, .candidate, .reset, .next, .next, .next].take i)) call answer := by
  have hseeds : ([['a'], ['b']] : List Word) ≠ [] := by decide
  have hbounds : ({} : MutationSettings).minMutations ≤ ({} : MutationSettings).maxMutations := by
    decide
  exact ⟨hseeds, hbounds, session_fits hseeds hbounds (Script.ofWords [7]) _⟩

end Mutator
end GrammarFuzz
