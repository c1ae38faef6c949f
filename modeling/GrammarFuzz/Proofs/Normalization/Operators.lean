import GrammarFuzz.Proofs.Normalization.Passes
import GrammarFuzz.Proofs.Normalization.Replacements
import GrammarFuzz.Proofs.TextReading

/-!
# The pass over operators

The rules of an operator make a symbol stand for the same words as the operator does.
The pass replaces one occurrence of an operand for each operand of the text, so that
in the end all of them have been contracted to such symbols, in whatever order.
-/

namespace GrammarFuzz
namespace Normalization

/-!
## The rules of an operator
-/

theorem mem_operatorExpansions_iff {base symbol text : Word} {op : Operator} :
    text ∈ operatorExpansions base symbol op ↔
      text = [] ∧ op.admitsNone = true ∨ text = base ∧ op ≠ .star ∨
        text = base ++ symbol ∧ op.admitsMany = true := by
  cases op with
  | optional => simp [operatorExpansions, Operator.admitsNone, Operator.admitsMany]
  | star => simp [operatorExpansions, Operator.admitsNone, Operator.admitsMany]
  | plus => simp [operatorExpansions, Operator.admitsNone, Operator.admitsMany]

section Rules

variable {g : Grammar} {read : Reading} {base symbol : Word} {op : Operator}

theorem exists_row_of_mem_operatorExpansions {text : Word}
    (hbase : Brackets.angle.Fits base) (hsymbol : Brackets.angle.Fits symbol)
    (h : text ∈ operatorExpansions (Brackets.angle.enclose base)
      (Brackets.angle.enclose symbol) op) :
    ∃ names : List Word, (∀ name ∈ names, Brackets.angle.Fits name) ∧
      text = names.flatMap Brackets.angle.enclose := by
  rcases mem_operatorExpansions_iff.mp h with ⟨rfl, _⟩ | ⟨rfl, _⟩ | ⟨rfl, _⟩
  · exact ⟨[], by simp, rfl⟩
  · exact ⟨[base], by simpa using hbase, by simp⟩
  · exact ⟨[base, symbol], by simpa using ⟨hbase, hsymbol⟩, by simp⟩

structure OperatorRule (g : Grammar) (read : Reading) (base symbol : Word) (op : Operator) :
    Prop where
  fits : Brackets.angle.Fits base ∧ Brackets.angle.Fits symbol
  rule : g.expansions? (Brackets.angle.enclose symbol) =
    some ((operatorExpansions (Brackets.angle.enclose base)
      (Brackets.angle.enclose symbol) op).map fun text => ⟨text, .empty⟩)
  rows : read.ReadsRows

namespace OperatorRule

theorem read_cases (h : OperatorRule g read base symbol op) {alternatives : List Expansion}
    {e : Expansion} (hrule : g.expansions? (Brackets.angle.enclose symbol) = some alternatives)
    (he : e ∈ alternatives) :
    read e.text = [] ∧ op.admitsNone = true ∨
      read e.text = [.reference (Brackets.angle.enclose base)] ∧ op ≠ .star ∨
      read e.text = [.reference (Brackets.angle.enclose base)] ++
        [.reference (Brackets.angle.enclose symbol)] ∧ op.admitsMany = true := by
  rw [h.rule] at hrule
  cases hrule
  rcases List.mem_map.mp he with ⟨text, htext, rfl⟩
  rcases mem_operatorExpansions_iff.mp htext with ⟨rfl, hop⟩ | ⟨rfl, hop⟩ | ⟨rfl, hop⟩
  · exact Or.inl ⟨h.rows [] (by simp), hop⟩
  · exact Or.inr (Or.inl ⟨by simpa using h.rows [base] (by simpa using h.fits.1), hop⟩)
  · exact Or.inr (Or.inr ⟨by simpa using h.rows [base, symbol] (by simpa using h.fits), hop⟩)

theorem derives_of_mem (h : OperatorRule g read base symbol op) {text w : Word}
    (htext : text ∈ operatorExpansions (Brackets.angle.enclose base)
      (Brackets.angle.enclose symbol) op) (hw : g.Derives read (read text) w) :
    g.Derives read [.reference (Brackets.angle.enclose symbol)] w := by
  rw [Grammar.Derives.reference_iff, h.rule]
  exact ⟨_, ⟨text, .empty⟩, rfl, List.mem_map_of_mem htext, hw⟩

theorem derives_none (h : OperatorRule g read base symbol op) (hop : op.admitsNone = true) :
    g.Derives read [.reference (Brackets.angle.enclose symbol)] [] := by
  apply h.derives_of_mem (mem_operatorExpansions_iff.mpr (Or.inl ⟨rfl, hop⟩))
  have hnone : read [] = [] := h.rows [] (by simp)
  rw [hnone]
  exact .nil

theorem derives_one (h : OperatorRule g read base symbol op) (hop : op ≠ .star) {w : Word}
    (hw : g.Derives read [.reference (Brackets.angle.enclose base)] w) :
    g.Derives read [.reference (Brackets.angle.enclose symbol)] w := by
  apply h.derives_of_mem (mem_operatorExpansions_iff.mpr (Or.inr (Or.inl ⟨rfl, hop⟩)))
  have hone := h.rows [base] (by simpa using h.fits.1)
  simp only [List.flatMap_cons, List.flatMap_nil, List.append_nil] at hone
  rw [hone]
  exact hw

theorem derives_many (h : OperatorRule g read base symbol op) (hop : op.admitsMany = true)
    {u v : Word} (hu : g.Derives read [.reference (Brackets.angle.enclose base)] u)
    (hv : g.Derives read [.reference (Brackets.angle.enclose symbol)] v) :
    g.Derives read [.reference (Brackets.angle.enclose symbol)] (u ++ v) := by
  apply h.derives_of_mem (mem_operatorExpansions_iff.mpr (Or.inr (Or.inr ⟨rfl, hop⟩)))
  have hmany := h.rows [base, symbol] (by simpa using h.fits)
  simp only [List.flatMap_cons, List.flatMap_nil, List.append_nil] at hmany
  rw [hmany]
  exact hu.append hv

theorem reference_of_operated (h : OperatorRule g read base symbol op) {w : Word}
    (hw : g.Derives read [.operated [.reference (Brackets.angle.enclose base)] op] w) :
    g.Derives read [.reference (Brackets.angle.enclose symbol)] w := by
  generalize hitems : [Item.operated [.reference (Brackets.angle.enclose base)] op] = items at hw
  induction hw with
  | nil => cases hitems
  | literal => cases hitems
  | reference => cases hitems
  | absent hop hrest =>
      cases hitems
      cases hrest
      exact h.derives_none hop
  | once hbody hrest =>
      cases hitems
      cases hrest
      by_cases hstar : op = .star
      · -- The star has no alternative for a single occurrence.
        exact h.derives_many (by rw [hstar]; rfl) hbody (h.derives_none (by rw [hstar]; rfl))
      · rw [List.append_nil]
        exact h.derives_one hstar hbody
  | again hop hbody _ _ ih =>
      cases hitems
      exact h.derives_many hop hbody (ih rfl)

theorem operated_of_reference_append (h : OperatorRule g read base symbol op)
    {items pre : List Item} {w : Word} (hw : g.Derives read items w)
    (hitems : items = pre ++ [.reference (Brackets.angle.enclose symbol)]) :
    g.Derives read (pre ++ [.operated [.reference (Brackets.angle.enclose base)] op]) w := by
  -- A recursive rule ends in the symbol itself, so the symbol may stand behind other items.
  induction hw generalizing pre with
  | nil => simp at hitems
  | literal _ ih =>
      cases pre with
      | nil => cases hitems
      | cons x pre =>
          cases hitems
          exact .literal (ih rfl)
  | @reference _ _ _ _ u _ hrule he hbody hrest ihbody ihrest =>
      cases pre with
      | nil =>
          cases hitems
          cases hrest
          rw [List.append_nil, List.nil_append]
          rcases h.read_cases hrule he with ⟨hread, hop⟩ | ⟨hread, hop⟩ | ⟨hread, hop⟩
          · rw [hread] at hbody
            cases hbody
            exact .absent hop .nil
          · rw [hread] at hbody
            rw [← List.append_nil u]
            exact .once hbody .nil
          · rcases (ihbody hread).split with ⟨u, v, rfl, hu, hv⟩
            exact .again hop hu hv
      | cons x pre =>
          cases hitems
          exact .reference hrule he hbody (ihrest rfl)
  | absent hop _ ih =>
      cases pre with
      | nil => cases hitems
      | cons x pre =>
          cases hitems
          exact .absent hop (ih rfl)
  | once hbody _ _ ih =>
      cases pre with
      | nil => cases hitems
      | cons x pre =>
          cases hitems
          exact .once hbody (ih rfl)
  | again hop hbody _ _ ih =>
      cases pre with
      | nil => cases hitems
      | cons x pre =>
          cases hitems
          exact .again hop hbody (ih List.cons_append.symm)

theorem alike (h : OperatorRule g read base symbol op) :
    g.Alike read [.operated [.reference (Brackets.angle.enclose base)] op]
      [.reference (Brackets.angle.enclose symbol)] := by
  intro w
  constructor
  · exact h.reference_of_operated
  · intro hw
    have hitems : [Item.reference (Brackets.angle.enclose symbol)] =
        [] ++ [.reference (Brackets.angle.enclose symbol)] := rfl
    exact h.operated_of_reference_append hw hitems

end OperatorRule

end Rules

/-!
## Contractions
-/

def Introduces (introductions : List Introduction) (base : Word) (op : Operator)
    (symbol : Word) : Prop :=
  Brackets.angle.Fits symbol ∧ ∃ intro ∈ introductions,
    intro.symbol = Brackets.angle.enclose symbol ∧
      intro.expansions = operatorExpansions (Brackets.angle.enclose base)
        (Brackets.angle.enclose symbol) op

/-- Whether pieces result from others by contracting operands to introduced symbols. -/
inductive Contracts (introductions : List Introduction) : List Piece → List Piece → Prop
  | nil : Contracts introductions [] []
  | kept {p : Piece} {ps qs : List Piece} :
      Contracts introductions ps qs → Contracts introductions (p :: ps) (p :: qs)
  | operand {base symbol : Word} {op : Operator} {ps qs : List Piece} :
      Introduces introductions base op symbol → Contracts introductions ps qs →
      Contracts introductions (.part base :: .letter op.mark :: ps) (.part symbol :: qs)

namespace Contracts

variable {earlier later : List Introduction} {ps qs : List Piece}

theorem refl (ps : List Piece) : Contracts earlier ps ps := by
  induction ps with
  | nil => exact .nil
  | cons p ps ih => exact .kept ih

theorem mono (hle : earlier ⊆ later) (h : Contracts earlier ps qs) : Contracts later ps qs := by
  induction h with
  | nil => exact .nil
  | kept _ ih => exact .kept ih
  | operand hsymbol _ ih =>
      rcases hsymbol with ⟨hfits, intro, hintro, hrule⟩
      exact .operand ⟨hfits, intro, hle hintro, hrule⟩ ih

theorem ahead?_eq (h : Contracts earlier ps qs) : Operator.ahead? qs = Operator.ahead? ps := by
  cases h with
  | nil => rfl
  | @kept p _ _ _ =>
      cases p with
      | letter c => rfl
      | part name => rfl
  | operand _ _ => rfl

theorem contract (h : Contracts earlier ps qs) {before behind : List Piece} {base symbol : Word}
    {op : Operator} (hqs : qs = before ++ .part base :: .letter op.mark :: behind)
    (hbase : ∀ intro ∈ earlier, intro.symbol ≠ Brackets.angle.enclose base)
    (hle : earlier ⊆ later) (hsymbol : Introduces later base op symbol) :
    Contracts later ps (before ++ .part symbol :: behind) := by
  induction h generalizing before with
  | nil => simp at hqs
  | kept hrest ih =>
      cases before with
      | nil =>
          cases hqs
          cases hrest with
          | kept hrest => exact .operand hsymbol (hrest.mono hle)
      | cons p before =>
          cases hqs
          exact .kept (ih rfl)
  | operand hearlier hrest ih =>
      rcases hearlier with ⟨hfits, intro, hintro, hname, hrule⟩
      cases before with
      | nil =>
          cases hqs
          exact absurd hname (hbase intro hintro)
      | cons p before =>
          cases hqs
          exact .operand ⟨hfits, intro, hle hintro, hname, hrule⟩ (ih rfl)

theorem alike (h : Contracts earlier ps qs) {g : Grammar} {read : Reading}
    (hold : Hold earlier g) (hread : read.ReadsRows)
    (hfits : ∀ name, .part name ∈ ps → Brackets.angle.Fits name)
    (hdone : ∀ name op, .part name ∈ ps → (name, op) ∉ Operator.operandsOf qs) :
    g.Alike read (flatItems ps) (qs.map Piece.item) := by
  induction h with
  | nil => exact .refl []
  | @kept p ps qs hrest ih =>
      have htail := ih (fun name hname => hfits name (List.mem_cons_of_mem _ hname))
        fun name op hname hmem =>
          hdone name op (List.mem_cons_of_mem _ hname) (Operator.mem_operandsOf_cons hmem)
      cases p with
      | letter c =>
          rw [flatItems_letter]
          exact (Grammar.Alike.refl [.literal c]).append htail
      | part name =>
          have hahead : Operator.ahead? ps = none := by
            rw [← hrest.ahead?_eq]
            cases hop : Operator.ahead? qs with
            | none => rfl
            | some op =>
                refine absurd ?_ (hdone name op List.mem_cons_self)
                rw [Operator.operandsOf, hop]
                exact List.mem_cons_self
          rw [flatItems_part hahead]
          exact (Grammar.Alike.refl [.reference (Brackets.angle.enclose name)]).append htail
  | @operand base symbol op ps qs hsymbol hrest ih =>
      have htail := ih (fun name hname => hfits name (by simp [hname]))
        fun name op hname hmem =>
          hdone name op (by simp [hname]) (Operator.mem_operandsOf_cons hmem)
      rcases hsymbol with ⟨hsymbolFits, intro, hintro, hname, hexpansions⟩
      have hrule := hold intro hintro
      rw [hname, Introduction.rule, hexpansions] at hrule
      have hoperator : OperatorRule g read base symbol op :=
        ⟨⟨hfits base (by simp), hsymbolFits⟩, hrule, hread⟩
      rw [flatItems_repetition]
      exact hoperator.alike.append htail

end Contracts

/-!
## The conversion of a text
-/

namespace Ledger

structure Rows (g : Grammar) (ledger : Ledger) : Prop where
  accounts : Accounts g ledger
  row : ∀ intro ∈ ledger.newest, ∀ text ∈ intro.expansions,
    ∃ names : List Word, (∀ name ∈ names, Brackets.angle.Fits name) ∧
      text = names.flatMap Brackets.angle.enclose

theorem rows_ofGrammar (g : Grammar) : Rows g (ofGrammar g) :=
  ⟨accounts_ofGrammar g, fun intro hintro => by cases hintro⟩

theorem Accounts.symbol_ne {g : Grammar} {ledger : Ledger} (h : Accounts g ledger)
    {intro : Introduction} (hintro : intro ∈ ledger.newest) {symbol : Word}
    (hsymbol : symbol ∈ g.symbols) : intro.symbol ≠ symbol := by
  intro heq
  subst heq
  have hnodup := h.nodup
  rw [h.taken] at hnodup
  exact List.disjoint_of_nodup_append hnodup (List.mem_map_of_mem hintro) hsymbol

end Ledger

theorem Ledger.Rows.add {g : Grammar} {ledger : Ledger} (h : ledger.Rows g) {base symbol : Word}
    (hbase : Brackets.angle.Fits base) (hsymbol : Brackets.angle.Fits symbol)
    (hfresh : Brackets.angle.enclose symbol ∉ ledger.taken) (op : Operator) :
    (ledger.add (operatorRule base op symbol)).Rows g := by
  constructor
  · exact h.accounts.add hfresh
  · intro intro hintro text htext
    rcases List.mem_cons.mp hintro with rfl | hintro
    · exact exists_row_of_mem_operatorExpansions hbase hsymbol htext
    · exact h.row intro hintro text htext

/--
The state of a conversion: some operands of the text have been contracted, the others
are still to come, as often as they are left.
-/
structure Contracting (g : Grammar) (start : Word × Ledger) (rest : List (Word × Operator))
    (state : Word × Ledger) : Prop where
  rows : state.2.Rows g
  grows : Ledger.Extends start.2 state.2
  contracts : Contracts state.2.newest (pieces .angle start.1) (pieces .angle state.1)
  count : ∀ name op, Brackets.angle.enclose name ∈ g.symbols →
    (Operator.operandsOf (pieces .angle state.1)).count (name, op) = rest.count (name, op)

section Conversion

variable {g : Grammar} {start state : Word × Ledger}

theorem contracting_start (h : state.2.Rows g) :
    Contracting g state (Operator.operandsOf (pieces .angle state.1)) state :=
  ⟨h, Ledger.extends_refl _, .refl _, fun _ _ _ => rfl⟩

theorem Contracting.mem_repetitions {base : Word} {op : Operator}
    {rest : List (Word × Operator)} (h : Contracting g start ((base, op) :: rest) state)
    (hbase : Brackets.angle.enclose base ∈ g.symbols) :
    ⟨.angle, base, op⟩ ∈ Operand.repetitions state.1 := by
  have hcount := h.count base op hbase
  rw [List.count_cons_self] at hcount
  rw [Operand.repetitions, Operand.allIn_eq, List.mem_map]
  refine ⟨(base, op), List.count_pos_iff.mp ?_, rfl⟩
  omega

theorem Contracting.step {base : Word} {op : Operator} {rest : List (Word × Operator)}
    (h : Contracting g start ((base, op) :: rest) state)
    (hbase : Brackets.angle.enclose base ∈ g.symbols) :
    Contracting g start rest (replaceRepetition state ⟨.angle, base, op⟩) := by
  have hmem := h.mem_repetitions hbase
  have hfits : Brackets.angle.Fits base := Operand.fits_of_mem_allIn hmem
  rcases exists_freshName_eq state.2.taken base with ⟨symbol, hsymbol, hsymbolFits, _⟩
  have hangle := hsymbolFits hfits
  have hfresh := not_mem_of_freshName hsymbol
  have hledger : (replaceRepetition state ⟨.angle, base, op⟩).2 =
      state.2.add (operatorRule base op symbol) := by
    rw [operatorRule, ← hsymbol]
    rfl
  have hreplace : (replaceRepetition state ⟨.angle, base, op⟩).1 =
      Word.replaceFirst (Operand.mk .angle base op).text (Brackets.angle.enclose symbol)
        state.1 := by
    rw [← hsymbol]
    rfl
  have hgrows := Ledger.extends_add state.2 (operatorRule base op symbol)
  rcases Operand.exists_replaceFirst rfl hmem (Brackets.angle.enclose symbol) with
    ⟨u, v, htext, hnew, _⟩
  have hold : pieces .angle state.1 =
      pieces .angle u ++ .part base :: .letter op.mark :: pieces .angle v := by
    rw [htext, Operand.pieces_append_text rfl hfits]
  have hcontracted : pieces .angle (replaceRepetition state ⟨.angle, base, op⟩).1 =
      pieces .angle u ++ .part symbol :: pieces .angle v := by
    rw [hreplace, hnew, pieces_append_enclose hangle]
  constructor
  · rw [hledger]
    exact h.rows.add hfits hangle hfresh op
  · rw [hledger]
    exact Ledger.extends_trans _ _ _ h.grows hgrows
  · rw [hledger, hcontracted]
    refine h.contracts.contract hold ?_ hgrows ⟨hangle, _, List.mem_cons_self, rfl, rfl⟩
    exact fun intro hintro => h.rows.accounts.symbol_ne hintro hbase
  · intro name op' hname
    have hcount := h.count name op' hname
    have hother : symbol ≠ name := by
      intro heq
      subst heq
      apply hfresh
      rw [h.rows.accounts.taken]
      exact List.mem_append_right _ hname
    rw [hold, Operator.operandsOf_append_part, Operator.operandsOf_part_mark, List.count_append,
      List.count_cons, List.count_cons] at hcount
    rw [hcontracted, Operator.operandsOf_append_part, List.count_append,
      Operator.count_operandsOf_part hother]
    omega

theorem contracting_foldl {xs : List (Word × Operator)} (h : Contracting g start xs state)
    (hxs : ∀ x ∈ xs, Brackets.angle.enclose x.1 ∈ g.symbols) :
    Contracting g start []
      (xs.foldl (fun state x => replaceRepetition state ⟨.angle, x.1, x.2⟩) state) := by
  induction xs generalizing state with
  | nil => exact h
  | cons x xs ih => exact ih (h.step (hxs x (by simp))) fun y hy => hxs y (by simp [hy])

theorem contracting_replaceRepetitions {text : Word} {ledger : Ledger} (hrows : ledger.Rows g)
    (hknown : ∀ name, Refers text name → Brackets.angle.enclose name ∈ g.symbols) :
    Contracting g (text, ledger) []
      ((Operand.repetitions text).foldl replaceRepetition (text, ledger)) := by
  rw [Operand.repetitions, Operand.allIn_eq, List.foldl_map]
  refine contracting_foldl (contracting_start hrows) ?_
  intro x hx
  apply hknown
  rcases Operator.mem_operandsOf_iff.mp hx with ⟨before, behind, hpieces⟩
  rw [Refers, show pieces .angle text = _ from hpieces]
  simp

end Conversion

/-!
## The pass
-/

def Contracted : Conversion :=
  fun introductions e e' => ∀ g : Grammar, Hold introductions g →
    g.Alike extendedReading (extendedReading e.text) (plainReading e'.text) ∧
      g.Alike plainReading (extendedReading e.text) (plainReading e'.text)

theorem contracted_stable : Contracted.Stable :=
  fun _ _ _ _ hle h g hold => h g fun intro hintro => hold intro (hle hintro)

theorem contracted_sound : Contracted.Sound extendedReading plainReading :=
  fun _ _ _ g h hold => h g hold

theorem converts_replaceRepetitions {g : Grammar} {e : Expansion}
    (hknown : ∀ name, Refers e.text name → Brackets.angle.enclose name ∈ g.symbols)
    (hflat : extendedReading e.text = flatItems (pieces .angle e.text)) :
    Converts (Ledger.Rows g) replaceRepetitions Contracted e := by
  intro ledger hrows
  have h := contracting_replaceRepetitions hrows hknown
  refine ⟨h.rows, h.grows, ?_⟩
  intro g' hold
  have halike : ∀ read : Reading, read.ReadsRows →
      g'.Alike read (extendedReading e.text)
        (plainReading (replaceRepetitions ledger e).1.text) := by
    intro read hread
    rw [hflat, plainReading_eq]
    refine h.contracts.alike hold hread (fun name hname => fits_of_part_mem hname) ?_
    intro name op hname hmem
    have hcount := h.count name op (hknown name hname)
    have hpos := List.count_pos_iff.mpr hmem
    rw [hcount] at hpos
    exact Nat.lt_irrefl 0 hpos
  exact ⟨halike _ extendedReading_readsRows, halike _ plainReading_readsRows⟩

end Normalization
end GrammarFuzz
