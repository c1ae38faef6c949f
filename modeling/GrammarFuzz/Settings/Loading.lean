import GrammarFuzz.Settings.Generation
import GrammarFuzz.Settings.Mutation
import GrammarFuzz.Grammar.Format

/-!
# Loading settings from files
-/

namespace GrammarFuzz
namespace Settings

def Schema.ofFile {κ : Type} (schema : Schema κ) (file : Word) (octets : Option ByteArray) :
    Except FileError κ :=
  match readJson file octets with
  | .error e => .error e
  | .ok value =>
      match schema.decode value with
      | .error problem => .error ⟨file, .invalidSettings problem⟩
      | .ok settings => .ok settings

end Settings
end GrammarFuzz
