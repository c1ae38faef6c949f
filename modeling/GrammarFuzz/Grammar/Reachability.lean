import GrammarFuzz.Grammar.Basic

/-!
# Reachable symbols

A symbol is reachable from another one if a chain of references leads to it.  The
search goes depth first and lists a symbol when it first meets it; the symbols an
expansion refers to are tried in the order of their first occurrence.
-/

namespace GrammarFuzz

def distinct (words : List Word) : List Word :=
  words.foldl (fun seen w => if seen.contains w then seen else seen ++ [w]) []

theorem mem_foldl_distinct {names seen : List Word} {name : Word} :
    name ∈ names.foldl (fun seen w => if seen.contains w then seen else seen ++ [w]) seen ↔
      name ∈ seen ∨ name ∈ names := by
  induction names generalizing seen with
  | nil => simp
  | cons first rest ih =>
      rw [List.foldl_cons, ih, List.mem_cons]
      split
      · rename_i hseen
        have hfirst : first ∈ seen := by simpa using hseen
        constructor
        · intro hcases
          rcases hcases with h | h
          · exact Or.inl h
          · exact Or.inr (Or.inr h)
        · intro hcases
          rcases hcases with h | rfl | h
          · exact Or.inl h
          · exact Or.inl hfirst
          · exact Or.inr h
      · rw [List.mem_append, List.mem_singleton, or_assoc]

theorem mem_distinct {names : List Word} {name : Word} : name ∈ distinct names ↔ name ∈ names := by
  rw [distinct, mem_foldl_distinct]
  simp

namespace Grammar

def successors (g : Grammar) (symbol : Word) : List Word :=
  match g.expansions? symbol with
  | none => []
  | some expansions => distinct (expansions.flatMap Expansion.references)

/-- Adds what is reachable from a symbol to what has been seen; the bound limits the depth. -/
def visit (g : Grammar) : Nat → List Word → Word → List Word
  | 0, seen, _ => seen
  | depth + 1, seen, symbol =>
      if seen.contains symbol then seen
      else (g.successors symbol).foldl (visit g depth) (seen ++ [symbol])

/-- A path without repetitions has at most one symbol that is not defined, at its end. -/
def reachable (g : Grammar) (start : Word) : List Word :=
  g.visit (g.size + 1) [] start

def unreachable (g : Grammar) (start : Word) : List Word :=
  let reachable := g.reachable start
  Word.sortedSet (g.symbols.filter fun symbol => !reachable.contains symbol)

end Grammar
end GrammarFuzz
