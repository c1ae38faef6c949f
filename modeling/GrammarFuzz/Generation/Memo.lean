import GrammarFuzz.Tree

/-!
# Remembered nodes

The nodes that a text stands for can be remembered.  The memo counts how often it
was asked and how often it knew the answer.  Its answers are those of `childrenOf`,
whatever it remembers.
-/

namespace GrammarFuzz

structure Memo where
  enabled : Bool
  known : OrderedMap (List Tree) := .empty
  lookups : Nat := 0
  hits : Nat := 0
  faithful : ∀ text nodes, known.get? text = some nodes → nodes = childrenOf text := by
    intro text nodes h
    cases h

namespace Memo

def learn (memo : Memo) (text : Word) : Memo :=
  { memo with
    known := memo.known.insert text (childrenOf text)
    faithful := by
      intro x nodes h
      rw [OrderedMap.get?_insert] at h
      split at h
      · subst x
        exact (Option.some.inj h).symm
      · exact memo.faithful x nodes h }

def children (memo : Memo) (text : Word) : List Tree × Memo :=
  if memo.enabled then
    match memo.known.get? text with
    | some nodes => (nodes, { memo with lookups := memo.lookups + 1, hits := memo.hits + 1 })
    | none => (childrenOf text, { memo.learn text with lookups := memo.lookups + 1 })
  else (childrenOf text, memo)

def childrenOfEach (memo : Memo) (expansions : List Expansion) :
    List (List Tree) × Memo :=
  mapAccum (fun memo e => memo.children e.text) memo expansions

theorem children_fst (memo : Memo) (text : Word) : (memo.children text).1 = childrenOf text := by
  rw [children]
  split
  · split
    · rename_i nodes h
      exact memo.faithful text nodes h
    · rfl
  · rfl

/-- What a memo remembers makes no difference to its answers. -/
theorem childrenOfEach_fst (memo : Memo) (expansions : List Expansion) :
    (memo.childrenOfEach expansions).1 = expansions.map fun e => childrenOf e.text := by
  have h := map_mapAccum (g := id) (h := fun e : Expansion => childrenOf e.text)
    (f := fun (memo : Memo) (e : Expansion) => memo.children e.text)
    (fun memo e => memo.children_fst e.text) memo expansions
  rw [List.map_id] at h
  exact h

end Memo
end GrammarFuzz
