import GrammarFuzz.Proofs.Derivations
import Mathlib.Data.List.Forall2

/-!
# Derivation trees of words

The leaves of a complete derivation make up a word of its symbol's language.  All words
of the language arise in this way: the word of a sequence of items consists of words for
the single items, and the tree for a reference is put together from the trees for the
references in one of its alternatives.
-/

namespace GrammarFuzz

theorem forall₂_append_cases {α β : Type} {rel : α → β → Prop} {xs ys : List α} {zs : List β}
    (h : List.Forall₂ rel (xs ++ ys) zs) :
    ∃ us vs, zs = us ++ vs ∧ List.Forall₂ rel xs us ∧ List.Forall₂ rel ys vs := by
  induction xs generalizing zs with
  | nil => exact ⟨[], zs, rfl, .nil, h⟩
  | cons x xs ih =>
      cases h with
      | cons hx hrest =>
          rcases ih hrest with ⟨us, vs, rfl, hus, hvs⟩
          exact ⟨_ :: us, vs, rfl, .cons hx hus, hvs⟩

namespace Grammar

variable {g : Grammar}

def Completes (g : Grammar) (symbol : Word) (t : Tree) : Prop :=
  g.Grows symbol t ∧ t.isOpen = false

/--
An item and a word that it stands for.  The plain reading has no operators, so nothing is
asked of them.
-/
inductive Realizes (g : Grammar) : Item → Word → Prop
  | literal {c : Char} : Realizes g (.literal c) [c]
  | reference {symbol : Word} {t : Tree} :
      g.Completes symbol t → Realizes g (.reference symbol) t.leaves.flatten
  | operated {body : List Item} {op : Operator} {w : Word} : Realizes g (.operated body op) w

theorem flatten_of_realizes_literals {text : Word} {us : List Word}
    (h : List.Forall₂ g.Realizes (text.map .literal) us) : us.flatten = text := by
  induction text generalizing us with
  | nil =>
      cases h
      rfl
  | cons c text ih =>
      cases h with
      | cons hc hrest =>
          cases hc
          rw [List.flatten_cons, ih hrest]
          rfl

theorem exists_trees_of_realizes {ss : List Symbol} {us : List Word}
    (h : List.Forall₂ g.Realizes (ss.flatMap Symbol.items) us) :
    ∃ ts, List.Forall₂ (Tree.Refines g.Grows) (ss.map Symbol.toTree) ts ∧
      Tree.anyOpen ts = false ∧ (Tree.leavesAll ts).flatten = us.flatten := by
  induction ss generalizing us with
  | nil =>
      cases h
      exact ⟨[], .nil, rfl, rfl⟩
  | cons s ss ih =>
      rcases forall₂_append_cases h with ⟨vs, ws, rfl, hvs, hws⟩
      rcases ih hws with ⟨ts, hts, hclosed, hleaves⟩
      suffices hhead : ∃ t, Tree.Refines g.Grows s.toTree t ∧ t.isOpen = false ∧
          t.leaves.flatten = vs.flatten by
        rcases hhead with ⟨t, ht, htclosed, htleaves⟩
        refine ⟨t :: ts, .cons ht hts, ?_, ?_⟩
        · rw [Tree.anyOpen, htclosed, hclosed]
          rfl
        · rw [Tree.leavesAll, List.flatten_append, List.flatten_append, htleaves, hleaves]
      cases s with
      | terminal text =>
          refine ⟨.terminal text, .node .nil, rfl, ?_⟩
          rw [flatten_of_realizes_literals hvs]
          exact List.flatten_singleton
      | nonterminal name =>
          cases hvs with
          | cons hname hnil =>
              cases hnil
              cases hname with
              | @reference _ t ht =>
                  exact ⟨t, .leaf ht.1, ht.2, List.flatten_singleton.symm⟩

theorem exists_words_of_derives {items : List Item} {w : Word}
    (h : g.Derives plainReading items w) :
    ∃ us, List.Forall₂ g.Realizes items us ∧ us.flatten = w := by
  induction h with
  | nil => exact ⟨[], .nil, rfl⟩
  | @literal c _ _ _ ih =>
      rcases ih with ⟨us, hus, rfl⟩
      exact ⟨[c] :: us, .cons .literal hus, rfl⟩
  | @reference symbol _ e _ _ _ hrule he _ _ ihbody ihrest =>
      rcases ihbody with ⟨vs, hvs, rfl⟩
      rcases ihrest with ⟨us, hus, rfl⟩
      rcases exists_symbols_childrenOf e.text with ⟨ss, hss, hnodes, hread, _⟩
      rw [hread] at hvs
      rcases exists_trees_of_realizes hvs with ⟨ts, hts, hclosed, hleaves⟩
      have hnonempty : ts ≠ [] := ne_nil_of_refines hss hts
      rw [← hnodes] at hts
      have hcompletes : g.Completes symbol (.expanded symbol ts) := ⟨.node hrule he hts, hclosed⟩
      refine ⟨_ :: us, .cons (.reference hcompletes) hus, ?_⟩
      rw [Tree.leaves_expanded hnonempty, List.flatten_cons, hleaves]
  | absent _ _ ih =>
      rcases ih with ⟨us, hus, rfl⟩
      exact ⟨[] :: us, .cons .operated hus, rfl⟩
  | @once _ _ _ u _ _ _ _ ih =>
      rcases ih with ⟨us, hus, rfl⟩
      exact ⟨u :: us, .cons .operated hus, rfl⟩
  | @again _ _ _ u _ _ _ _ _ ih =>
      rcases ih with ⟨us, hus, rfl⟩
      cases hus with
      | @cons _ v _ us _ hus =>
          refine ⟨(u ++ v) :: us, .cons .operated hus, ?_⟩
          rw [List.flatten_cons, List.flatten_cons, List.append_assoc]

theorem mem_language_iff {symbol w : Word} :
    w ∈ g.language plainReading symbol ↔ ∃ t, g.Completes symbol t ∧ t.output = w := by
  constructor
  · intro hw
    rcases exists_words_of_derives hw with ⟨us, hus, rfl⟩
    cases hus with
    | cons hsymbol hnil =>
        cases hnil
        cases hsymbol with
        | @reference _ t ht =>
            refine ⟨t, ht, ?_⟩
            rw [(ht.1.output ht.2).1]
            exact List.flatten_singleton.symm
  · intro htree
    rcases htree with ⟨t, ht, rfl⟩
    exact (ht.1.output ht.2).2

end Grammar
end GrammarFuzz
