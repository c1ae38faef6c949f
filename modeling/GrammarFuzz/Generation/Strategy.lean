import GrammarFuzz.Tree
import GrammarFuzz.Random.Range

/-!
# Strategies

Where several continuations are equally good, a strategy decides.  Its state holds
whatever its decisions depend on, such as a source of random words.
-/

namespace GrammarFuzz

structure Strategy (σ : Type) where
  supportedOptions : List Word
  chooseExpansion : Word → List (List Tree) → StateM σ Nat
  /-- The position of the child, all of them being open, to go on with below a symbol. -/
  chooseSubtree : Word → List Tree → StateM σ Nat
  process : List Tree → Expansion → StateM σ (List Tree)

namespace Strategy

def uniform {ρ : Type} [WordSource ρ] : Strategy ρ where
  supportedOptions := []
  chooseExpansion := fun _ candidates => WordSource.drawIndex candidates.length
  chooseSubtree := fun _ children => WordSource.drawIndex children.length
  process := fun children _ => pure children

end Strategy
end GrammarFuzz
