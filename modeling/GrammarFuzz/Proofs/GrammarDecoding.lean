import GrammarFuzz.Proofs.GrammarFiles
import Mathlib.Data.List.Forall2

/-!
# The values that stand for grammars

The reader of grammars accepts the values of its format and no others.  What it makes of them
is a grammar with the same keys, texts and options in the same order, which is found again in
the value it is written to.  A value that is rejected is blamed on the first key that
violates the format.
-/

namespace GrammarFuzz

def Except.Meets {ε α : Type} (post : α → Prop) (fails : ε → Prop) : Except ε α → Prop
  | .ok a => post a
  | .error error => fails error

namespace Except.Meets

variable {ε α : Type} {post : α → Prop} {fails : ε → Prop} {result : Except ε α}

theorem of_ok (h : Except.Meets post fails result) {a : α} (ha : result = .ok a) : post a := by
  rwa [ha] at h

theorem of_error (h : Except.Meets post fails result) {error : ε} (herror : result = .error error) :
    fails error := by
  rwa [herror] at h

end Except.Meets

theorem Except.exists_of_mapM_eq_error {ε α β : Type} {f : α → Except ε β} {xs : List α} {error : ε}
    (h : xs.mapM f = .error error) :
    ∃ before x behind, xs = before ++ x :: behind ∧ (∀ y ∈ before, ∃ b, f y = .ok b) ∧
      f x = .error error := by
  induction xs with
  | nil => cases h
  | cons x xs ih =>
      rw [List.mapM_cons] at h
      cases hx : f x with
      | error error' =>
          rw [hx] at h
          cases h
          exact ⟨[], x, xs, rfl, fun _ hy => (List.not_mem_nil hy).elim, hx⟩
      | ok b =>
          cases hxs : xs.mapM f with
          | ok bs =>
              rw [hx, hxs] at h
              cases h
          | error error' =>
              rw [hx, hxs] at h
              cases h
              rcases ih hxs with ⟨before, y, behind, rfl, hbefore, hy⟩
              refine ⟨x :: before, y, behind, rfl, ?_, hy⟩
              exact List.forall_mem_cons.mpr ⟨⟨b, hx⟩, hbefore⟩

/-!
## The format
-/

namespace Json

/-- A text, or a pair of a text and its options, which may be null. -/
inductive IsExpansion : Json → Prop
  | text {text : Word} : IsExpansion (.string text)
  | null {text : Word} : IsExpansion (.array [.string text, .null])
  | options {text : Word} {members : List (Word × Json)} :
      IsExpansion (.array [.string text, .object members])

inductive ExpansionDefect : Json → Defect → Prop
  | notAString {value : Json} : (∀ text, value ≠ .string text) → (∀ items, value ≠ .array items) →
      ExpansionDefect value (.notAString value)
  | notAPair {items : List Json} : items.length ≠ 2 →
      ExpansionDefect (.array items) (.notAPair (.array items))
  | textNotAString {value options : Json} : (∀ text, value ≠ .string text) →
      ExpansionDefect (.array [value, options]) (.notAString value)
  | optionsNotAnObject {text : Word} {options : Json} : options ≠ .null →
      (∀ members, options ≠ .object members) →
      ExpansionDefect (.array [.string text, options]) (.optionsNotAnObject options)

theorem ExpansionDefect.not_isExpansion {item : Json} {defect : Defect}
    (h : item.ExpansionDefect defect) : ¬ item.IsExpansion := by
  intro hitem
  cases hitem with
  | text =>
      cases h with
      | notAString htext _ => exact htext _ rfl
  | null =>
      cases h with
      | notAString _ harray => exact harray _ rfl
      | notAPair hlength => exact hlength rfl
      | textNotAString htext => exact htext _ rfl
      | optionsNotAnObject hnull _ => exact hnull rfl
  | options =>
      cases h with
      | notAString _ harray => exact harray _ rfl
      | notAPair hlength => exact hlength rfl
      | textNotAString htext => exact htext _ rfl
      | optionsNotAnObject _ hobject => exact hobject _ rfl

def IsAlternatives (value : Json) : Prop :=
  ∃ items, value = .array items ∧ items ≠ [] ∧ ∀ item ∈ items, item.IsExpansion

/-- What is wrong with a value that stands for no alternatives; the first defect counts. -/
inductive AlternativesDefect : Json → Defect → Prop
  | notAList {value : Json} : (∀ items, value ≠ .array items) → AlternativesDefect value .notAList
  | emptyList : AlternativesDefect (.array []) .emptyList
  | item {before behind : List Json} {item : Json} {defect : Defect} :
      (∀ x ∈ before, x.IsExpansion) → item.ExpansionDefect defect →
      AlternativesDefect (.array (before ++ item :: behind)) defect

theorem AlternativesDefect.not_isAlternatives {value : Json} {defect : Defect}
    (h : value.AlternativesDefect defect) : ¬ value.IsAlternatives := by
  intro hvalue
  rcases hvalue with ⟨items, rfl, hne, hitems⟩
  cases h with
  | notAList harray => exact harray _ rfl
  | emptyList => exact hne rfl
  | item _ hdefect => exact hdefect.not_isExpansion (hitems _ (by simp))

def IsGrammar (value : Json) : Prop :=
  ∃ members, value = .object members ∧ ∀ member ∈ members, member.2.IsAlternatives

/--
The error that a value deserves which stands for no grammar.  The first member with a defect
is blamed, whatever is wrong with later ones.
-/
inductive GrammarDefect : Json → GrammarError → Prop
  | notAnObject {value : Json} : (∀ members, value ≠ .object members) →
      GrammarDefect value (.malformed [] .notAnObject)
  | member {before behind : List (Word × Json)} {symbol : Word} {value : Json} {defect : Defect} :
      (∀ member ∈ before, member.2.IsAlternatives) → value.AlternativesDefect defect →
      GrammarDefect (.object (before ++ (symbol, value) :: behind)) (.malformed symbol defect)

theorem GrammarDefect.not_isGrammar {value : Json} {error : GrammarError}
    (h : value.GrammarDefect error) : ¬ value.IsGrammar := by
  intro hvalue
  rcases hvalue with ⟨members, rfl, hmembers⟩
  cases h with
  | notAnObject hobject => exact hobject _ rfl
  | @member _ _ symbol value _ _ hdefect =>
      exact hdefect.not_isAlternatives (hmembers (symbol, value) (by simp))

/-!
## Distinct keys
-/

mutual

def hasDistinctKeys : Json → Bool
  | .array items => haveDistinctKeys items
  | .object members => decide (members.map Prod.fst).Nodup && membersHaveDistinctKeys members
  | _ => true

def haveDistinctKeys : List Json → Bool
  | [] => true
  | item :: rest => hasDistinctKeys item && haveDistinctKeys rest

def membersHaveDistinctKeys : List (Word × Json) → Bool
  | [] => true
  | (_, value) :: rest => hasDistinctKeys value && membersHaveDistinctKeys rest

end

theorem haveDistinctKeys_iff {items : List Json} :
    haveDistinctKeys items = true ↔ ∀ item ∈ items, item.hasDistinctKeys = true := by
  induction items with
  | nil => simp [haveDistinctKeys]
  | cons item items ih => simp [haveDistinctKeys, ih]

theorem hasDistinctKeys_object_iff {members : List (Word × Json)} :
    (Json.object members).hasDistinctKeys = true ↔
      (members.map Prod.fst).Nodup ∧ ∀ member ∈ members, member.2.hasDistinctKeys = true := by
  have hmembers : membersHaveDistinctKeys members = true ↔
      ∀ member ∈ members, member.2.hasDistinctKeys = true := by
    induction members with
    | nil => simp [membersHaveDistinctKeys]
    | cons member members ih =>
        rcases member with ⟨key, value⟩
        simp [membersHaveDistinctKeys, ih]
  rw [hasDistinctKeys, Bool.and_eq_true, decide_eq_true_eq, hmembers]

end Json

/-!
## What the values stand for
-/

inductive Expansion.WrittenAs : Expansion → Json → Prop
  | text {text : Word} : WrittenAs ⟨text, .empty⟩ (.string text)
  | null {text : Word} : WrittenAs ⟨text, .empty⟩ (.array [.string text, .null])
  | options {text : Word} {options : Options} :
      WrittenAs ⟨text, options⟩ (.array [.string text, .object options.entries])

def RuleWrittenAs (rule : Word × List Expansion) (member : Word × Json) : Prop :=
  rule.1 = member.1 ∧
    ∃ items, member.2 = .array items ∧ List.Forall₂ Expansion.WrittenAs rule.2 items

def Grammar.WrittenAs (g : Grammar) (value : Json) : Prop :=
  ∃ members, value = .object members ∧ List.Forall₂ RuleWrittenAs g.rules.entries members

/-!
## Expansions
-/

namespace Expansion

variable {symbol : Word} {item : Json}

theorem outcome_ofJson (symbol : Word) (item : Json) :
    Except.Meets (fun _ => item.IsExpansion)
      (fun error => ∃ defect, item.ExpansionDefect defect ∧ error = .malformed symbol defect)
      (ofJson symbol item) := by
  unfold ofJson
  split
  · exact .text
  · exact .options
  · exact .null
  · rename_i hobject hnull
    exact ⟨_, .optionsNotAnObject hnull hobject, rfl⟩
  · rename_i htext
    exact ⟨_, .textNotAString htext, rfl⟩
  · rename_i hpair
    refine ⟨_, .notAPair fun hlength => ?_, rfl⟩
    rcases List.length_eq_two.mp hlength with ⟨value, options, hitems⟩
    exact hpair value options hitems
  · rename_i htext _ _ _ _ harray
    exact ⟨_, .notAString htext harray, rfl⟩

theorem isExpansion_of_ofJson {e : Expansion} (h : ofJson symbol item = .ok e) :
    item.IsExpansion :=
  (outcome_ofJson symbol item).of_ok h

theorem exists_defect_of_ofJson {error : GrammarError} (h : ofJson symbol item = .error error) :
    ∃ defect, item.ExpansionDefect defect ∧ error = .malformed symbol defect :=
  (outcome_ofJson symbol item).of_error h

theorem writtenAs_of_ofJson {e : Expansion} (h : ofJson symbol item = .ok e)
    (hkeys : item.hasDistinctKeys = true) : e.WrittenAs item := by
  cases isExpansion_of_ofJson h with
  | text =>
      cases h
      exact .text
  | null =>
      cases h
      exact .null
  | @options text members =>
      cases h
      have hobject := Json.haveDistinctKeys_iff.mp hkeys (.object members) (by simp)
      have hwritten := @WrittenAs.options text (.ofList members)
      rwa [OrderedMap.entries_ofList (Json.hasDistinctKeys_object_iff.mp hobject).1] at hwritten

end Expansion

/-!
## Rules
-/

namespace Grammar

theorem outcome_ruleOfJson (symbol : Word) (value : Json) :
    Except.Meets
      (fun rule => rule.1 = symbol ∧ ∃ items, value = .array items ∧ items ≠ [] ∧
        List.Forall₂ (fun item e => Expansion.ofJson symbol item = .ok e) items rule.2)
      (fun error => ∃ defect, value.AlternativesDefect defect ∧ error = .malformed symbol defect)
      (ruleOfJson (symbol, value)) := by
  unfold ruleOfJson
  split
  · rename_i heq
    cases heq
    exact ⟨_, .emptyList, rfl⟩
  · rename_i items hne heq
    cases heq
    cases hitems : items.mapM (Expansion.ofJson symbol) with
    | ok expansions => exact ⟨rfl, items, rfl, hne, Except.mapM_eq_ok_iff.mp hitems⟩
    | error error =>
        rcases Except.exists_of_mapM_eq_error hitems with
          ⟨before, item, behind, rfl, hbefore, hitem⟩
        rcases Expansion.exists_defect_of_ofJson hitem with ⟨defect, hdefect, rfl⟩
        refine ⟨defect, .item (fun x hx => ?_) hdefect, rfl⟩
        rcases hbefore x hx with ⟨e, he⟩
        exact Expansion.isExpansion_of_ofJson he
  · rename_i harray heq
    cases heq
    exact ⟨_, .notAList harray, rfl⟩

theorem exists_of_ruleOfJson {member : Word × Json} {rule : Word × List Expansion}
    (h : ruleOfJson member = .ok rule) :
    rule.1 = member.1 ∧ ∃ items, member.2 = .array items ∧ items ≠ [] ∧
      List.Forall₂ (fun item e => Expansion.ofJson member.1 item = .ok e) items rule.2 :=
  (outcome_ruleOfJson member.1 member.2).of_ok h

theorem exists_defect_of_ruleOfJson {member : Word × Json} {error : GrammarError}
    (h : ruleOfJson member = .error error) :
    ∃ defect, member.2.AlternativesDefect defect ∧ error = .malformed member.1 defect :=
  (outcome_ruleOfJson member.1 member.2).of_error h

theorem isAlternatives_of_ruleOfJson {member : Word × Json} {rule : Word × List Expansion}
    (h : ruleOfJson member = .ok rule) : member.2.IsAlternatives := by
  rcases exists_of_ruleOfJson h with ⟨_, items, hvalue, hne, hitems⟩
  have hboth := hitems.imp fun item e he => And.intro (Expansion.isExpansion_of_ofJson he) he
  exact ⟨items, hvalue, hne, ((List.forall₂_and_left _ _).mp hboth).1⟩

theorem expansions_ne_nil_of_ruleOfJson {member : Word × Json} {rule : Word × List Expansion}
    (h : ruleOfJson member = .ok rule) : rule.2 ≠ [] := by
  rcases exists_of_ruleOfJson h with ⟨_, items, _, hne, hitems⟩
  intro hnil
  rw [hnil, List.forall₂_nil_right_iff] at hitems
  exact hne hitems

theorem writtenAs_of_ruleOfJson {member : Word × Json} {rule : Word × List Expansion}
    (h : ruleOfJson member = .ok rule) (hkeys : member.2.hasDistinctKeys = true) :
    RuleWrittenAs rule member := by
  rcases exists_of_ruleOfJson h with ⟨hsymbol, items, hvalue, _, hitems⟩
  rw [hvalue, Json.hasDistinctKeys, Json.haveDistinctKeys_iff] at hkeys
  have hboth := (List.forall₂_and_left _ _).mpr ⟨hkeys, hitems⟩
  refine ⟨hsymbol, items, hvalue, List.Forall₂.flip (hboth.imp ?_)⟩
  exact fun item e h => Expansion.writtenAs_of_ofJson h.2 h.1

/-!
## Grammars
-/

variable {v : Json} {g : Grammar}

theorem outcome_ofJson (v : Json) :
    Except.Meets
      (fun g => ∃ members rules, v = .object members ∧
        List.Forall₂ (fun member rule => ruleOfJson member = .ok rule) members rules ∧
        g = .ofRules rules)
      v.GrammarDefect (ofJson v) := by
  unfold ofJson
  split
  · rename_i members
    cases hmembers : members.mapM ruleOfJson with
    | ok rules => exact ⟨members, rules, rfl, Except.mapM_eq_ok_iff.mp hmembers, rfl⟩
    | error error =>
        rcases Except.exists_of_mapM_eq_error hmembers with
          ⟨before, member, behind, rfl, hbefore, hmember⟩
        rcases exists_defect_of_ruleOfJson hmember with ⟨defect, hdefect, rfl⟩
        refine .member (fun x hx => ?_) hdefect
        rcases hbefore x hx with ⟨rule, hrule⟩
        exact isAlternatives_of_ruleOfJson hrule
  · rename_i hobject
    exact .notAnObject hobject

theorem exists_rules_of_ofJson (h : ofJson v = .ok g) :
    ∃ members rules, v = .object members ∧
      List.Forall₂ (fun member rule => ruleOfJson member = .ok rule) members rules ∧
      g = .ofRules rules :=
  (outcome_ofJson v).of_ok h

theorem defect_of_ofJson {error : GrammarError} (h : ofJson v = .error error) :
    v.GrammarDefect error :=
  (outcome_ofJson v).of_error h

theorem exists_ofJson_iff : (∃ g, ofJson v = .ok g) ↔ v.IsGrammar := by
  constructor
  · intro h
    rcases h with ⟨g, hg⟩
    rcases exists_rules_of_ofJson hg with ⟨members, rules, hv, hrules, _⟩
    have hboth := hrules.imp fun member rule hrule =>
      And.intro (isAlternatives_of_ruleOfJson hrule) hrule
    exact ⟨members, hv, ((List.forall₂_and_left _ _).mp hboth).1⟩
  · intro hv
    cases hread : ofJson v with
    | ok g => exact ⟨g, rfl⟩
    | error error => exact absurd hv (defect_of_ofJson hread).not_isGrammar

theorem writtenAs_of_ofJson (h : ofJson v = .ok g) (hkeys : v.hasDistinctKeys = true) :
    g.WrittenAs v := by
  rcases exists_rules_of_ofJson h with ⟨members, rules, rfl, hrules, rfl⟩
  rw [Json.hasDistinctKeys_object_iff] at hkeys
  have hboth := (List.forall₂_and_left _ _).mpr ⟨hkeys.2, hrules⟩
  have hwritten : List.Forall₂ RuleWrittenAs rules members :=
    List.Forall₂.flip (hboth.imp fun member rule h => writtenAs_of_ruleOfJson h.2 h.1)
  have hsymbols : rules.map Prod.fst = members.map Prod.fst := by
    rw [← List.forall₂_eq_eq_eq, List.forall₂_map_left_iff, List.forall₂_map_right_iff]
    exact hwritten.imp fun _ _ hrule => hrule.1
  refine ⟨members, rfl, ?_⟩
  rwa [ofRules, OrderedMap.entries_ofList (hsymbols ▸ hkeys.1)]

theorem alternatives_of_ofJson (h : ofJson v = .ok g) : ∀ rule ∈ g.rules.entries, rule.2 ≠ [] := by
  rcases exists_rules_of_ofJson h with ⟨members, rules, _, hrules, rfl⟩
  intro rule hrule
  have hmem : rule ∈ rules :=
    (OrderedMap.mem_entries_of_insertAll hrule).resolve_left List.not_mem_nil
  have hboth := List.Forall₂.flip (hrules.imp fun member rule hrule =>
    show flip (fun rule member => rule.2 ≠ [] ∧ ruleOfJson member = .ok rule) member rule from
      ⟨expansions_ne_nil_of_ruleOfJson hrule, hrule⟩)
  exact ((List.forall₂_and_left _ _).mp hboth).1 rule hmem

/--
The reader accepts the values of the format and no others.  From a value with distinct keys
it takes the symbols, texts and options as they stand there, and it reads a grammar again
from the value that this grammar is written to.  The error for a value that is rejected names
the first key that violates the format, or the empty symbol if there are no keys.
-/
theorem ofJson_exact (v : Json) :
    ((∃ g, ofJson v = .ok g) ↔ v.IsGrammar) ∧
      (∀ g, ofJson v = .ok g →
        (v.hasDistinctKeys = true → g.WrittenAs v) ∧ ofJson g.toJson = ofJson v) ∧
      ∀ error, ofJson v = .error error →
        ((∀ members, v ≠ .object members) ∧ error = .malformed [] .notAnObject) ∨
          ∃ before symbol value behind defect,
            v = .object (before ++ (symbol, value) :: behind) ∧
            (∀ member ∈ before, member.2.IsAlternatives) ∧ ¬ value.IsAlternatives ∧
            value.AlternativesDefect defect ∧ error = .malformed symbol defect := by
  refine ⟨exists_ofJson_iff, fun g hg => ⟨writtenAs_of_ofJson hg, ?_⟩, fun error herror => ?_⟩
  · rw [hg]
    exact ofJson_toJson (alternatives_of_ofJson hg)
  · cases defect_of_ofJson herror with
    | notAnObject hobject => exact Or.inl ⟨hobject, rfl⟩
    | member hbefore hdefect =>
        exact Or.inr ⟨_, _, _, _, _, rfl, hbefore, hdefect.not_isAlternatives, hdefect, rfl⟩

def looseValue : Json :=
  .object [(startSymbol, .array [.string (.ofString "<a>"), .array [.string ['x'], .null],
      .array [.string ['y'], .object []],
      .array [.string ['z'], .object [(.ofString "weight", .int 2), ([], .object [])]]]),
    (.ofString "<a>", .array [.string []])]

theorem looseValue_ofJson :
    looseValue.hasDistinctKeys = true ∧
      ∃ g, ofJson looseValue = .ok g ∧ g.WrittenAs looseValue ∧
        ofJson g.toJson = ofJson looseValue := by
  have hkeys : looseValue.hasDistinctKeys = true := by decide
  have hread : ∃ g, ofJson looseValue = .ok g := ⟨_, rfl⟩
  rcases hread with ⟨g, hg⟩
  have h := (ofJson_exact looseValue).2.1 g hg
  exact ⟨hkeys, g, hg, h.1 hkeys, h.2⟩

end Grammar

end GrammarFuzz
