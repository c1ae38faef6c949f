import GrammarFuzz.Proofs.Lexing
import GrammarFuzz.Proofs.Normalization.FreshNames

/-!
# The search for a fresh name

A fresh name is the first of a name and its numbered variants that has no rule.  The search
tries the numbers one after the other and has no bound of its own.  The variants differ,
though, so that only as many of them can be in use as there are rules, and the search ends
with one of the first variants.
-/

namespace GrammarFuzz
namespace Normalization

/-- The search through the variants of a name, from a number on, ends with a free one. -/
inductive FindsVariant (taken : List Word) (name : Word) : Nat → Word → Prop
  | found {number : Nat} : numbered name number ∉ taken →
      FindsVariant taken name number (numbered name number)
  | next {number : Nat} {symbol : Word} : numbered name number ∈ taken →
      FindsVariant taken name (number + 1) symbol → FindsVariant taken name number symbol

inductive FindsName (taken : List Word) (name : Word) : Word → Prop
  | free : name ∉ taken → FindsName taken name name
  | variant {symbol : Word} : name ∈ taken → FindsVariant taken name 1 symbol →
      FindsName taken name symbol

variable {taken : List Word} {name : Word}

theorem FindsVariant.unique {number : Nat} {symbol symbol' : Word}
    (h : FindsVariant taken name number symbol) (h' : FindsVariant taken name number symbol') :
    symbol = symbol' := by
  induction h with
  | found hfree =>
      cases h' with
      | found _ => rfl
      | next htaken _ => exact absurd htaken hfree
  | next htaken _ ih =>
      cases h' with
      | found hfree => exact absurd htaken hfree
      | next _ hrest => exact ih hrest

theorem FindsName.unique {symbol symbol' : Word} (h : FindsName taken name symbol)
    (h' : FindsName taken name symbol') : symbol = symbol' := by
  cases h with
  | free hfree =>
      cases h' with
      | free _ => rfl
      | variant htaken _ => exact absurd htaken hfree
  | variant htaken hvariant =>
      cases h' with
      | free hfree => exact absurd htaken hfree
      | variant _ hvariant' => exact hvariant.unique hvariant'

theorem findsVariant_of_first {start number : Nat} (hstart : start ≤ number)
    (hfree : numbered name number ∉ taken)
    (htaken : ∀ m, start ≤ m → m < number → numbered name m ∈ taken) :
    FindsVariant taken name start (numbered name number) := by
  induction hstart using Nat.decreasingInduction with
  | self => exact .found hfree
  | of_succ start hlt ih =>
      refine .next (htaken start (Nat.le_refl start) hlt) (ih fun m hm => ?_)
      exact htaken m (Nat.le_of_succ_le hm)

theorem exists_first_free_variant (hname : name ∈ taken) :
    ∃ number, 1 ≤ number ∧ number ≤ taken.length ∧ freshName taken name = numbered name number ∧
      ∀ m, 1 ≤ m → m < number → numbered name m ∈ taken := by
  have hfound := find?_candidates hname
  rw [candidates, List.find?_map, Option.map_eq_some_iff] at hfound
  rcases hfound with ⟨n, hfound, hnumbered⟩
  rcases List.find?_range_eq_some.mp hfound with ⟨_, hrange, hearlier⟩
  refine ⟨n + 1, Nat.le_add_left 1 n, List.mem_range.mp hrange, hnumbered.symm, ?_⟩
  intro m hm hlt
  have hmem := hearlier (m - 1) (by omega)
  rw [Function.comp_apply, Nat.sub_add_cancel hm] at hmem
  simpa using hmem

theorem findsName_freshName (taken : List Word) (name : Word) :
    FindsName taken name (freshName taken name) := by
  by_cases hname : name ∈ taken
  · rcases exists_first_free_variant hname with ⟨number, hpos, _, hfresh, hearlier⟩
    refine .variant hname ?_
    rw [hfresh]
    exact findsVariant_of_first hpos (hfresh ▸ freshName_not_mem taken name) hearlier
  · rw [freshName_of_not_mem hname]
    exact .free hname

end Normalization

/-!
## Names that are single tokens
-/

theorem symbols_enclose {inner : Word} (h : Brackets.angle.Fits inner) :
    symbols (Brackets.angle.enclose inner) = [.nonterminal (Brackets.angle.enclose inner)] := by
  have hlead := leadingReference?_enclose h []
  rw [List.append_nil] at hlead
  rw [symbols_eq_cutAlong, searchFrom_of_some hlead, searchFrom, cutAlong_nonterminal, cutAlong,
    Nat.zero_add, if_neg (Nat.lt_irrefl _)]

theorem symbols_eq_nonterminal_iff {w : Word} :
    symbols w = [.nonterminal w] ↔ ∃ inner, Brackets.angle.Fits inner ∧
      w = Brackets.angle.enclose inner := by
  constructor
  · intro h
    have hw : w ∈ references w := by
      rw [← map_snd_located_symbols, h]
      exact List.mem_singleton.mpr rfl
    rcases mem_references_iff.mp hw with ⟨inner, hinner, heq⟩
    exact ⟨inner, fits_of_part_mem hinner, heq⟩
  · intro h
    rcases h with ⟨inner, hinner, rfl⟩
    exact symbols_enclose hinner

namespace Normalization

theorem symbols_freshName {name : Word} (h : symbols name = [.nonterminal name])
    (taken : List Word) :
    symbols (freshName taken name) = [.nonterminal (freshName taken name)] := by
  rcases symbols_eq_nonterminal_iff.mp h with ⟨inner, hinner, rfl⟩
  rcases exists_freshName_eq taken inner with ⟨fresh, hfresh, hfits, _⟩
  exact symbols_eq_nonterminal_iff.mpr ⟨fresh, hfits hinner, hfresh⟩

/--
The search for a new symbol ends for every grammar and every name, and always in the same way.
It finds a symbol without a rule: the name itself if it has none, and else its variant with the
smallest number whose symbol has none, a number from one to the number of rules.  For a name
that is a single non-terminal, it finds a single non-terminal.
-/
theorem freshName_exact (g : Grammar) (name : Word) :
    (∀ symbol, FindsName g.symbols name symbol ↔ symbol = freshName g.symbols name) ∧
    g.defines (freshName g.symbols name) = false ∧
    (g.defines name = false → freshName g.symbols name = name) ∧
    (g.defines name = true → ∃ number, 1 ≤ number ∧ number ≤ g.size ∧
      freshName g.symbols name = stem name ++ '-' :: Word.ofNat number ++ ['>'] ∧
      ∀ m, 1 ≤ m → m < number → g.defines (stem name ++ '-' :: Word.ofNat m ++ ['>']) = true) ∧
    (symbols name = [.nonterminal name] →
      symbols (freshName g.symbols name) = [.nonterminal (freshName g.symbols name)]) := by
  have hdefines : ∀ symbol, g.defines symbol = true ↔ symbol ∈ g.symbols :=
    fun _ => OrderedMap.contains_iff
  have hfree : ∀ symbol, g.defines symbol = false ↔ symbol ∉ g.symbols := by
    intro symbol
    rw [← hdefines, Bool.not_eq_true]
  have hfinds := findsName_freshName g.symbols name
  refine ⟨?_, (hfree _).mpr (freshName_not_mem _ _), ?_, ?_, ?_⟩
  · exact fun symbol => ⟨fun h => h.unique hfinds, fun h => h ▸ hfinds⟩
  · exact fun hname => freshName_of_not_mem ((hfree name).mp hname)
  · intro hname
    rcases exists_first_free_variant ((hdefines name).mp hname) with
      ⟨number, hpos, hle, hfresh, hearlier⟩
    have hsize : g.symbols.length = g.size := List.length_map _
    exact ⟨number, hpos, hsize ▸ hle, hfresh, fun m hm hlt => (hdefines _).mpr (hearlier m hm hlt)⟩
  · exact fun hname => symbols_freshName hname g.symbols

def numberedGrammar : Grammar :=
  .ofRules [(groupName, [⟨.ofString "a", .empty⟩]),
    (.ofString "<symbol-1>", [⟨.ofString "b", .empty⟩]), (.ofString "<a>", [])]

theorem numberedGrammar_freshName :
    numberedGrammar.defines groupName = true ∧ symbols groupName = [.nonterminal groupName] ∧
      FindsName numberedGrammar.symbols groupName (.ofString "<symbol-2>") ∧
      numberedGrammar.defines (.ofString "<symbol-2>") = false ∧
      symbols (.ofString "<symbol-2>") = [.nonterminal (.ofString "<symbol-2>")] := by
  have hname : freshName numberedGrammar.symbols groupName = .ofString "<symbol-2>" := by decide
  have hsingle : symbols groupName = [.nonterminal groupName] := by decide
  have h := freshName_exact numberedGrammar groupName
  rw [hname] at h
  exact ⟨by decide, hsingle, (h.1 _).mpr rfl, h.2.1, h.2.2.2.2 hsingle⟩

end Normalization
end GrammarFuzz
