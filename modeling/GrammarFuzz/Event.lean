import GrammarFuzz.Tree
import GrammarFuzz.Error
import GrammarFuzz.Grammar.Normalization

/-!
# Events

What happens on the way to a result can be followed in a journal.  An event is kept
as data and put into words only when somebody reads it.
-/

namespace GrammarFuzz

inductive Level where
  | error
  | warn
  | info
  | debug
  | trace
deriving DecidableEq

namespace Level

def rank : Level → Nat
  | error => 0
  | warn => 1
  | info => 2
  | debug => 3
  | trace => 4

def shownAt (level asked : Level) : Bool :=
  level.rank ≤ asked.rank

end Level

inductive Policy where
  | random
  | cheapest
  | dearest
deriving DecidableEq

def Policy.message : Policy → String
  | random => "randomly"
  | cheapest => "at minimum cost"
  | dearest => "at maximum cost"

inductive Event where
  | introduced (intro : Normalization.Introduction)
  | found (finding : Finding)
  | loaded (rules : Nat)
  | tabulated (rules : Nat)
  | expanding (symbol : Word) (policy : Policy)
  | choiceOutOfRange (chosen candidates : Nat) (symbol : Word)
  | grown (tree : Tree)
  | growing (goal : Nat)
  | wandering (goal : Nat)
  | closing (count : Nat)
  | remembered (hits lookups : Nat)
  | substituted (symbol text : Word)
  | mutated (mutations : Nat) (candidate : Word)
  | notPrinted (reason : String)
  | wrote (rules : Nat) (file : Word)

namespace Event

def level : Event → Level
  | introduced _ => .trace
  | found _ => .warn
  | loaded _ => .debug
  | tabulated _ => .debug
  | expanding _ _ => .trace
  | choiceOutOfRange _ _ _ => .warn
  | grown _ => .trace
  | growing _ => .debug
  | wandering _ => .debug
  | closing _ => .debug
  | remembered _ _ => .debug
  | substituted _ _ => .trace
  | mutated _ _ => .trace
  | notPrinted _ => .error
  | wrote _ _ => .info

def message : Event → String
  | introduced intro => intro.replaced.text ++ " -> " ++ intro.symbol.text
  | found finding => finding.message
  | loaded rules => "Loaded grammar with " ++ toString rules ++ " non-terminals"
  | tabulated rules => "Precomputed costs of " ++ toString rules ++ " non-terminals"
  | expanding symbol policy => "Expanding " ++ symbol.text ++ " " ++ policy.message
  | choiceOutOfRange chosen candidates symbol =>
      "Strategy chose expansion " ++ toString chosen ++ " of " ++ toString candidates ++
        " for " ++ symbol.text
  | grown tree => "Tree: " ++ tree.frontier.text
  | growing goal => "Growing tree to " ++ toString goal ++ " open non-terminals"
  | wandering goal => "Expanding randomly up to " ++ toString goal ++ " open non-terminals"
  | closing count => "Closing " ++ toString count ++ " open non-terminals"
  | remembered hits lookups =>
      "Children cache: " ++ toString hits ++ " of " ++ toString lookups ++ " lookups cached"
  | substituted symbol text => symbol.text ++ " -> " ++ text.text
  | mutated mutations candidate =>
      "Candidate after " ++ toString mutations ++ " mutations: " ++
        (Text.quoted candidate).text
  | notPrinted reason => "Could not print input: " ++ reason
  | wrote rules file => "Wrote " ++ toString rules ++ " rules to " ++ file.text

end Event

/-!
## Journals

A journal lists events, the newest first.
-/

abbrev Journal := List Event

/-- A state that is accompanied by a journal. -/
structure Journaled (σ : Type) where
  state : σ
  journal : Journal := []

abbrev Action (ε σ α : Type) := EStateM ε (Journaled σ) α

namespace Action

variable {ε σ α : Type}

def record (event : Event) : Action ε σ Unit :=
  modify fun s => { s with journal := event :: s.journal }

def ofState (f : StateM σ α) : Action ε σ α :=
  modifyGet fun s =>
    let (a, state) := f.run s.state
    (a, { s with state })

def read (f : σ → α) : Action ε σ α :=
  return f (← get).state

def mapError {δ : Type} (f : δ → ε) (action : Action δ σ α) : Action ε σ α := fun s =>
  match action s with
  | .ok a s => .ok a s
  | .error e s => .error (f e) s

end Action
end GrammarFuzz
