import GrammarFuzz.Main
import GrammarFuzz.RandomText
import GrammarFuzz.Proofs.Reachability
import GrammarFuzz.Proofs.SearchOrder
import GrammarFuzz.Proofs.Validation
import GrammarFuzz.Proofs.Segmentation
import GrammarFuzz.Proofs.ExtendedReading
import GrammarFuzz.Proofs.Normalization.FreshNames
import GrammarFuzz.Proofs.Normalization.Passes
import GrammarFuzz.Proofs.Normalization.Operands
import GrammarFuzz.Proofs.Normalization.Replacements
import GrammarFuzz.Proofs.TextReading
import GrammarFuzz.Proofs.Normalization.Groups
import GrammarFuzz.Proofs.Normalization.Operators
import GrammarFuzz.Proofs.Normalization.Language
import GrammarFuzz.Proofs.Normalization.References
import GrammarFuzz.Proofs.Normalization.Validity
import GrammarFuzz.Proofs.Normalization.Hygiene
import GrammarFuzz.Proofs.Normalization.Closings
import GrammarFuzz.Proofs.Normalization.Purity
import GrammarFuzz.Proofs.Normalization.Frame
import GrammarFuzz.Proofs.Json.Literals
import GrammarFuzz.Proofs.Json.Reading
import GrammarFuzz.Proofs.Json.Octets
import GrammarFuzz.Proofs.GrammarFiles
import GrammarFuzz.Proofs.GrammarDecoding
import GrammarFuzz.Proofs.Derivations
import GrammarFuzz.Proofs.Generation.Places
import GrammarFuzz.Proofs.Generation.Runs
import GrammarFuzz.Proofs.Generation.Steps
import GrammarFuzz.Proofs.Generation.Soundness
import GrammarFuzz.Proofs.Generation.Effects
import GrammarFuzz.Proofs.Generation.Closing
import GrammarFuzz.Proofs.Generation.Mirroring
import GrammarFuzz.Proofs.Generation.Transparency
import GrammarFuzz.Proofs.Findings
import GrammarFuzz.Proofs.EqualGrammars
import GrammarFuzz.Proofs.Draws
import GrammarFuzz.Proofs.Mutation.Edits
import GrammarFuzz.Proofs.Mutation.Sessions
import GrammarFuzz.Proofs.Actions
import GrammarFuzz.Proofs.ParseTrees
import GrammarFuzz.Proofs.MinimalCosts
import GrammarFuzz.Proofs.SententialForms
import GrammarFuzz.Proofs.Generation.Targets
import GrammarFuzz.Proofs.Generation.Steering
import GrammarFuzz.Proofs.Generation.Rewriting
import GrammarFuzz.Proofs.Generation.Markers
import GrammarFuzz.Proofs.Generation.Limits
import GrammarFuzz.Proofs.RandomTexts
import GrammarFuzz.Proofs.Mutation.Flips
import GrammarFuzz.Proofs.Lexing
import GrammarFuzz.Proofs.Merging
import GrammarFuzz.Proofs.CostRecursion
import GrammarFuzz.Proofs.Normalization.NameSearch
import GrammarFuzz.Proofs.Normalization.Slices
import GrammarFuzz.Proofs.Normalization.GroupLoop
