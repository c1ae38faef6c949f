import GrammarFuzz.Grammar.Format
import GrammarFuzz.Proofs.Json.Octets
import Mathlib.Data.List.Forall2

/-!
# Grammars in files

A grammar is found again in the file it has been written to: the same symbols with the
same expansions in the same order, and the same options with their keys in the same
order.  Symbols, texts and keys may contain any characters.
-/

namespace GrammarFuzz

theorem Except.mapM_eq_ok_iff {ε α β : Type} {f : α → Except ε β} {xs : List α} {ys : List β} :
    xs.mapM f = .ok ys ↔ List.Forall₂ (fun x y => f x = .ok y) xs ys := by
  induction xs generalizing ys with
  | nil =>
      rw [List.forall₂_nil_left_iff]
      exact ⟨fun h => (Except.ok.inj h).symm, fun h => congrArg Except.ok h.symm⟩
  | cons x xs ih =>
      rw [List.forall₂_cons_left_iff, List.mapM_cons]
      constructor
      · intro h
        cases hx : f x with
        | error error =>
            rw [hx] at h
            cases h
        | ok y =>
            cases hxs : xs.mapM f with
            | error error =>
                rw [hx, hxs] at h
                cases h
            | ok ys =>
                rw [hx, hxs] at h
                cases h
                exact ⟨y, ys, rfl, ih.mp hxs, rfl⟩
      · intro h
        rcases h with ⟨y, ys, hx, hxs, rfl⟩
        rw [hx, ih.mpr hxs]
        rfl

theorem Except.mapM_map_eq_ok {ε α β : Type} {f : β → Except ε α} {h : α → β} {xs : List α}
    (hf : ∀ x ∈ xs, f (h x) = .ok x) : (xs.map h).mapM f = .ok xs :=
  Except.mapM_eq_ok_iff.mpr (List.forall₂_map_left_iff.mpr (List.forall₂_same.mpr hf))

namespace Expansion

theorem options_eq_empty {e : Expansion} (h : e.options.isEmpty = true) : e.options = .empty :=
  OrderedMap.eq_of_entries_eq (List.isEmpty_iff.mp h)

theorem ofJson_toJson (symbol : Word) (e : Expansion) : ofJson symbol e.toJson = .ok e := by
  rcases e with ⟨text, options⟩
  rw [toJson]
  split
  · rename_i hempty
    rw [ofJson, show options = .empty from options_eq_empty hempty]
  · rw [ofJson, OrderedMap.eq_of_entries_eq (OrderedMap.entries_ofList options.nodup)]

def HasExactOptions (e : Expansion) : Prop :=
  ∀ option ∈ e.options.entries, option.2.isExact = true

instance (e : Expansion) : Decidable e.HasExactOptions :=
  inferInstanceAs (Decidable (∀ option ∈ e.options.entries, option.2.isExact = true))

theorem isExact_toJson {e : Expansion} (h : e.HasExactOptions) : e.toJson.isExact = true := by
  rw [toJson]
  split
  · rfl
  · have hnodup : (e.options.entries.map Prod.fst).Nodup := e.options.nodup
    simp [Json.isExact, Json.areExact, hnodup, Json.membersExact_iff.mpr h]

end Expansion

namespace Grammar

variable {g : Grammar}

def ruleToJson (rule : Word × List Expansion) : Word × Json :=
  (rule.1, .array (rule.2.map Expansion.toJson))

theorem toJson_eq (g : Grammar) : g.toJson = .object (g.rules.entries.map ruleToJson) :=
  rfl

theorem isExact_toJson (h : ∀ e ∈ g.expansions, e.HasExactOptions) : g.toJson.isExact = true := by
  have hkeys : (g.rules.entries.map ruleToJson).map Prod.fst = g.symbols := by
    rw [List.map_map]
    rfl
  rw [toJson_eq, Json.isExact, hkeys, Bool.and_eq_true, decide_eq_true_eq, Json.membersExact_iff]
  refine ⟨g.rules.nodup, fun member hmember => ?_⟩
  rcases List.mem_map.mp hmember with ⟨rule, hrule, rfl⟩
  rw [ruleToJson, Json.isExact, Json.areExact_iff]
  intro item hitem
  rcases List.mem_map.mp hitem with ⟨e, he, rfl⟩
  exact Expansion.isExact_toJson (h e (mem_expansions_of_entry hrule he))

theorem ruleOfJson_ruleToJson {rule : Word × List Expansion} (h : rule.2 ≠ []) :
    ruleOfJson (ruleToJson rule) = .ok rule := by
  rcases rule with ⟨symbol, expansions⟩
  rcases List.exists_cons_of_ne_nil h with ⟨e, es, rfl⟩
  have hitems : ((e :: es).map Expansion.toJson).mapM (Expansion.ofJson symbol) = .ok (e :: es) :=
    Except.mapM_map_eq_ok fun x _ => Expansion.ofJson_toJson symbol x
  rw [ruleToJson, List.map_cons, ruleOfJson, ← List.map_cons, hitems]
  · rfl
  · exact nofun

theorem ofJson_toJson (h : ∀ rule ∈ g.rules.entries, rule.2 ≠ []) : ofJson g.toJson = .ok g := by
  have hrules : (g.rules.entries.map ruleToJson).mapM ruleOfJson = .ok g.rules.entries :=
    Except.mapM_map_eq_ok fun rule hrule => ruleOfJson_ruleToJson (h rule hrule)
  rw [toJson_eq, ofJson, hrules]
  exact congrArg Except.ok (eq_of_entries_eq (OrderedMap.entries_ofList g.rules.nodup))

/--
The text of a grammar, read again, is this grammar, provided that each symbol has
expansions, numbers in options are 64-bit integers, and options are not nested too deeply.
-/
theorem ofFile_fileText (halternatives : ∀ rule ∈ g.rules.entries, rule.2 ≠ [])
    (hoptions : ∀ e ∈ g.expansions, e.HasExactOptions) (hdepth : g.toJson.nesting ≤ Json.maxDepth)
    (file : Word) : ofFile file (some g.fileText.text.toUTF8) = .ok g := by
  have hread := Json.ofOctets?_pretty (isExact_toJson hoptions) hdepth
  rw [ofFile, readJson, fileText, Word.text, hread]
  exact ofJson_toJson halternatives

def annotatedGrammar : Grammar :=
  .ofRules [(startSymbol, [⟨.ofString "<\"//>\\n<é/*>", .empty⟩]),
    (.ofString "<\"//>", [⟨.ofString "*/\n\t\x01", .ofList [(.ofString "\\u0041", .object
      [([], .array [.int (-9223372036854775808), .int 18446744073709551615, .null]),
        (.ofString "/*", .string (.ofString "\"\x7d"))]), (.ofString "a", .bool true)]⟩]),
    (.ofString "<é/*>", [⟨[], .empty⟩, ⟨.ofString "\\", .ofList [(.ofString "//", .array [])]⟩])]

theorem annotatedGrammar_ofFile_fileText :
    (∀ rule ∈ annotatedGrammar.rules.entries, rule.2 ≠ []) ∧
      (∀ e ∈ annotatedGrammar.expansions, e.HasExactOptions) ∧
      annotatedGrammar.toJson.nesting ≤ Json.maxDepth ∧
      ofFile [] (some annotatedGrammar.fileText.text.toUTF8) = .ok annotatedGrammar := by
  have halternatives : ∀ rule ∈ annotatedGrammar.rules.entries, rule.2 ≠ [] := by decide
  have hoptions : ∀ e ∈ annotatedGrammar.expansions, e.HasExactOptions := by decide
  have hdepth : annotatedGrammar.toJson.nesting ≤ Json.maxDepth := by decide
  exact ⟨halternatives, hoptions, hdepth, ofFile_fileText halternatives hoptions hdepth []⟩

end Grammar
end GrammarFuzz
