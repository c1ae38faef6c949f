import GrammarFuzz.Grammar.Normalization
import Mathlib.Data.Set.Defs

/-!
# Languages of grammars

A reading says which items the text of an expansion stands for: characters,
references, and operators applied to a body.  Under a reading, a grammar derives
words from items.  The main statement compares two grammars with a reading each:
words are carried over if every alternative of the first grammar is sound in the
second one.
-/

namespace GrammarFuzz

inductive Item where
  | literal (c : Char)
  | reference (symbol : Word)
  | operated (body : List Item) (operator : Operator)

abbrev Reading := Word → List Item

namespace Operator

def admitsNone : Operator → Bool
  | optional => true
  | star => true
  | plus => false

def admitsMany : Operator → Bool
  | optional => false
  | star => true
  | plus => true

end Operator

def Symbol.items : Symbol → List Item
  | terminal text => text.map .literal
  | nonterminal name => [.reference name]

/-- The plain context-free reading: a text is the sequence of its symbols. -/
def plainReading : Reading :=
  fun text => (symbols text).flatMap Symbol.items

/-- The words that a sequence of items stands for. -/
inductive Grammar.Derives (g : Grammar) (read : Reading) : List Item → Word → Prop
  | nil : Derives g read [] []
  | literal {c : Char} {rest : List Item} {w : Word} :
      Derives g read rest w → Derives g read (.literal c :: rest) (c :: w)
  | reference {symbol : Word} {alternatives : List Expansion} {e : Expansion}
      {rest : List Item} {u v : Word} :
      g.expansions? symbol = some alternatives → e ∈ alternatives →
      Derives g read (read e.text) u → Derives g read rest v →
      Derives g read (.reference symbol :: rest) (u ++ v)
  | absent {body rest : List Item} {op : Operator} {w : Word} :
      op.admitsNone = true → Derives g read rest w →
      Derives g read (.operated body op :: rest) w
  | once {body rest : List Item} {op : Operator} {u v : Word} :
      Derives g read body u → Derives g read rest v →
      Derives g read (.operated body op :: rest) (u ++ v)
  | again {body rest : List Item} {op : Operator} {u v : Word} :
      op.admitsMany = true → Derives g read body u →
      Derives g read (.operated body op :: rest) v →
      Derives g read (.operated body op :: rest) (u ++ v)

def Grammar.language (g : Grammar) (read : Reading) (symbol : Word) : Set Word :=
  { w | g.Derives read [.reference symbol] w }

namespace Grammar.Derives

variable {g : Grammar} {read : Reading}

/-!
## Sequences
-/

theorem append {xs ys : List Item} {u v : Word} (hx : g.Derives read xs u)
    (hy : g.Derives read ys v) : g.Derives read (xs ++ ys) (u ++ v) := by
  induction hx with
  | nil => exact hy
  | literal _ ih => exact literal ih
  | reference hrule he hbody _ _ ih =>
      rw [List.append_assoc]
      exact reference hrule he hbody ih
  | absent hop _ ih => exact absent hop ih
  | once hbody _ _ ih =>
      rw [List.append_assoc]
      exact once hbody ih
  | again hop hbody _ _ ih =>
      rw [List.append_assoc]
      exact again hop hbody ih

theorem split {xs ys : List Item} {w : Word} (h : g.Derives read (xs ++ ys) w) :
    ∃ u v, w = u ++ v ∧ g.Derives read xs u ∧ g.Derives read ys v := by
  generalize hzs : xs ++ ys = zs at h
  induction h generalizing xs with
  | nil =>
      rcases List.append_eq_nil_iff.mp hzs with ⟨rfl, rfl⟩
      exact ⟨[], [], rfl, nil, nil⟩
  | @literal c rest w hrest ih =>
      rcases List.append_eq_cons_iff.mp hzs with ⟨rfl, rfl⟩ | ⟨xs, rfl, rfl⟩
      · exact ⟨[], c :: w, rfl, nil, literal hrest⟩
      · rcases ih rfl with ⟨u, v, rfl, hu, hv⟩
        exact ⟨c :: u, v, rfl, literal hu, hv⟩
  | @reference symbol alternatives e rest u₀ v₀ hrule he hbody hrest _ ih =>
      rcases List.append_eq_cons_iff.mp hzs with ⟨rfl, rfl⟩ | ⟨xs, rfl, rfl⟩
      · exact ⟨[], u₀ ++ v₀, rfl, nil, reference hrule he hbody hrest⟩
      · rcases ih rfl with ⟨u, v, rfl, hu, hv⟩
        exact ⟨u₀ ++ u, v, by simp, reference hrule he hbody hu, hv⟩
  | @absent body rest op w hop hrest ih =>
      rcases List.append_eq_cons_iff.mp hzs with ⟨rfl, rfl⟩ | ⟨xs, rfl, rfl⟩
      · exact ⟨[], w, rfl, nil, absent hop hrest⟩
      · rcases ih rfl with ⟨u, v, rfl, hu, hv⟩
        exact ⟨u, v, rfl, absent hop hu, hv⟩
  | @once body rest op u₀ v₀ hbody hrest _ ih =>
      rcases List.append_eq_cons_iff.mp hzs with ⟨rfl, rfl⟩ | ⟨xs, rfl, rfl⟩
      · exact ⟨[], u₀ ++ v₀, rfl, nil, once hbody hrest⟩
      · rcases ih rfl with ⟨u, v, rfl, hu, hv⟩
        exact ⟨u₀ ++ u, v, by simp, once hbody hu, hv⟩
  | @again body rest op u₀ v₀ hop hbody hrest _ ih =>
      rcases List.append_eq_cons_iff.mp hzs with ⟨rfl, rfl⟩ | ⟨xs, rfl, rfl⟩
      · exact ⟨[], u₀ ++ v₀, rfl, nil, again hop hbody hrest⟩
      · rcases ih (by rw [← List.cons_append]) with ⟨u, v, rfl, hu, hv⟩
        exact ⟨u₀ ++ u, v, by simp, again hop hbody hu, hv⟩

theorem reference_iff {symbol w : Word} :
    g.Derives read [.reference symbol] w ↔
      ∃ alternatives e, g.expansions? symbol = some alternatives ∧ e ∈ alternatives ∧
        g.Derives read (read e.text) w := by
  constructor
  · intro h
    cases h with
    | reference hrule he hbody hrest =>
        cases hrest
        exact ⟨_, _, hrule, he, by simpa using hbody⟩
  · intro halternative
    rcases halternative with ⟨alternatives, e, hrule, he, hbody⟩
    simpa using reference hrule he hbody nil

end Grammar.Derives

/-!
## Items with the same words
-/

def Grammar.Alike (g : Grammar) (read : Reading) (xs ys : List Item) : Prop :=
  ∀ w, g.Derives read xs w ↔ g.Derives read ys w

namespace Grammar.Alike

variable {g : Grammar} {read : Reading}

theorem refl (xs : List Item) : g.Alike read xs xs :=
  fun _ => Iff.rfl

theorem symm {xs ys : List Item} (h : g.Alike read xs ys) : g.Alike read ys xs :=
  fun w => (h w).symm

theorem trans {xs ys zs : List Item} (hxy : g.Alike read xs ys) (hyz : g.Alike read ys zs) :
    g.Alike read xs zs :=
  fun w => (hxy w).trans (hyz w)

theorem append {xs xs' ys ys' : List Item} (hx : g.Alike read xs xs')
    (hy : g.Alike read ys ys') : g.Alike read (xs ++ ys) (xs' ++ ys') := by
  intro w
  constructor
  · intro h
    rcases h.split with ⟨u, v, rfl, hu, hv⟩
    exact ((hx u).mp hu).append ((hy v).mp hv)
  · intro h
    rcases h.split with ⟨u, v, rfl, hu, hv⟩
    exact ((hx u).mpr hu).append ((hy v).mpr hv)

end Grammar.Alike

namespace Grammar.Derives

variable {g : Grammar} {read : Reading}

theorem operated_mono {body body' rest : List Item} {op : Operator} {w : Word}
    (hbody : ∀ u, g.Derives read body u → g.Derives read body' u)
    (h : g.Derives read (.operated body op :: rest) w) :
    g.Derives read (.operated body' op :: rest) w := by
  generalize hitems : Item.operated body op :: rest = items at h
  induction h with
  | nil => cases hitems
  | literal => cases hitems
  | reference => cases hitems
  | absent hop hrest =>
      cases hitems
      exact absent hop hrest
  | once hu hrest =>
      cases hitems
      exact once (hbody _ hu) hrest
  | again hop hu hrest _ ih =>
      cases hitems
      exact again hop (hbody _ hu) (ih rfl)

end Grammar.Derives

theorem Grammar.Alike.operated {g : Grammar} {read : Reading} {body body' : List Item}
    (h : g.Alike read body body') (op : Operator) :
    g.Alike read [.operated body op] [.operated body' op] :=
  fun _ => ⟨Derives.operated_mono fun u => (h u).mp, Derives.operated_mono fun u => (h u).mpr⟩

theorem Grammar.Alike.of_single {g : Grammar} {symbol : Word} {e : Expansion}
    (h : g.expansions? symbol = some [e]) (read : Reading) :
    g.Alike read [.reference symbol] (read e.text) := by
  intro w
  rw [Derives.reference_iff, h]
  constructor
  · intro halternative
    rcases halternative with ⟨alternatives, e', hrule, he, hw⟩
    cases hrule
    rw [List.mem_singleton.mp he] at hw
    exact hw
  · intro hw
    exact ⟨[e], e, rfl, List.mem_singleton.mpr rfl, hw⟩

/-!
## From one grammar to another
-/

inductive Item.Within (known : Word → Prop) : List Item → Prop
  | nil : Within known []
  | literal {c : Char} {rest : List Item} :
      Within known rest → Within known (.literal c :: rest)
  | reference {symbol : Word} {rest : List Item} :
      known symbol → Within known rest → Within known (.reference symbol :: rest)
  | operated {body rest : List Item} {op : Operator} :
      Within known body → Within known rest → Within known (.operated body op :: rest)

/--
If each alternative of a known symbol refers to known symbols and is sound for that
symbol in the second grammar, the second grammar has all words of the first one.
-/
theorem Grammar.Derives.transfer {g g' : Grammar} {read read' : Reading} {known : Word → Prop}
    (hclosed : ∀ symbol alternatives e, known symbol →
      g.expansions? symbol = some alternatives → e ∈ alternatives →
      Item.Within known (read e.text))
    (hsound : ∀ symbol alternatives e w, known symbol →
      g.expansions? symbol = some alternatives → e ∈ alternatives →
      g'.Derives read' (read e.text) w → g'.Derives read' [.reference symbol] w)
    {items : List Item} {w : Word} (hitems : Item.Within known items)
    (h : g.Derives read items w) : g'.Derives read' items w := by
  induction h with
  | nil => exact nil
  | literal _ ih =>
      cases hitems with
      | literal hrest => exact literal (ih hrest)
  | reference hrule he _ _ ihbody ihrest =>
      cases hitems with
      | reference hsymbol hrest =>
          have hbody := ihbody (hclosed _ _ _ hsymbol hrule he)
          exact append (hsound _ _ _ _ hsymbol hrule he hbody) (ihrest hrest)
  | absent hop _ ih =>
      cases hitems with
      | operated _ hrest => exact absent hop (ih hrest)
  | once _ _ ihbody ihrest =>
      cases hitems with
      | operated hbody hrest => exact once (ihbody hbody) (ihrest hrest)
  | again hop _ _ ihbody ihrest =>
      cases hitems with
      | operated hbody hrest =>
          exact again hop (ihbody hbody) (ihrest (.operated hbody hrest))

theorem Item.within_append {known : Word → Prop} {xs ys : List Item} :
    Item.Within known (xs ++ ys) ↔ Item.Within known xs ∧ Item.Within known ys := by
  induction xs with
  | nil => exact ⟨fun h => ⟨.nil, h⟩, fun h => h.2⟩
  | cons x xs ih =>
      constructor
      · intro h
        cases h with
        | literal hrest => exact ⟨.literal (ih.mp hrest).1, (ih.mp hrest).2⟩
        | reference hsymbol hrest => exact ⟨.reference hsymbol (ih.mp hrest).1, (ih.mp hrest).2⟩
        | operated hbody hrest => exact ⟨.operated hbody (ih.mp hrest).1, (ih.mp hrest).2⟩
      · intro hall
        rcases hall with ⟨h, hys⟩
        cases h with
        | literal hrest => exact .literal (ih.mpr ⟨hrest, hys⟩)
        | reference hsymbol hrest => exact .reference hsymbol (ih.mpr ⟨hrest, hys⟩)
        | operated hbody hrest => exact .operated hbody (ih.mpr ⟨hrest, hys⟩)

theorem Item.within_of_forall {known : Word → Prop} (h : ∀ symbol, known symbol) :
    ∀ items : List Item, Item.Within known items
  | [] => .nil
  | .literal _ :: rest => .literal (within_of_forall h rest)
  | .reference symbol :: rest => .reference (h symbol) (within_of_forall h rest)
  | .operated body _ :: rest => .operated (within_of_forall h body) (within_of_forall h rest)

theorem Grammar.Derives.transfer_all {g g' : Grammar} {read read' : Reading}
    (hsound : ∀ symbol alternatives e w, g.expansions? symbol = some alternatives →
      e ∈ alternatives → g'.Derives read' (read e.text) w →
      g'.Derives read' [.reference symbol] w)
    {items : List Item} {w : Word} (h : g.Derives read items w) : g'.Derives read' items w := by
  have hwithin : ∀ xs, Item.Within (fun _ => True) xs :=
    Item.within_of_forall fun _ => trivial
  exact transfer (fun _ _ e _ _ _ => hwithin (read e.text))
    (fun symbol alternatives e u _ => hsound symbol alternatives e u) (hwithin items) h

end GrammarFuzz
