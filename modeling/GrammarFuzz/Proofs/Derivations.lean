import GrammarFuzz.Tree
import GrammarFuzz.Proofs.TextReading

/-!
# Derivation trees

A derivation of a symbol is a tree whose nodes have been expanded by alternatives of
their symbols; nodes may still be open.  Expanding an open node by an alternative
makes a derivation into a derivation.  The terminal leaves of a complete derivation
make up a word of the symbol's language, and the output of the tree is that word.
-/

namespace GrammarFuzz

namespace Tree

/-!
## Leaves
-/

mutual

def openSymbols : Tree → List Word
  | unexpanded symbol => [symbol]
  | expanded _ children => openSymbolsAll children

def openSymbolsAll : List Tree → List Word
  | [] => []
  | t :: rest => openSymbols t ++ openSymbolsAll rest

end

theorem openSymbolsAll_append (ts us : List Tree) :
    openSymbolsAll (ts ++ us) = openSymbolsAll ts ++ openSymbolsAll us := by
  induction ts with
  | nil => rfl
  | cons t ts ih => rw [List.cons_append, openSymbolsAll, openSymbolsAll, ih, List.append_assoc]

mutual

theorem length_openSymbols (t : Tree) : t.openSymbols.length = t.openCount := by
  cases t with
  | unexpanded symbol => rfl
  | expanded symbol children =>
      rw [openSymbols, openCount]
      exact length_openSymbolsAll children

theorem length_openSymbolsAll (ts : List Tree) :
    (openSymbolsAll ts).length = openCountAll ts := by
  cases ts with
  | nil => rfl
  | cons t rest =>
      rw [openSymbolsAll, openCountAll, List.length_append, length_openSymbols t,
        length_openSymbolsAll rest]

end

theorem isOpen_eq_false_iff {t : Tree} : t.isOpen = false ↔ t.openSymbols = [] := by
  rw [← List.length_eq_zero_iff, length_openSymbols, ← Bool.not_eq_true, isOpen_iff]
  omega

theorem openCount_eq_zero_iff {t : Tree} : t.openCount = 0 ↔ t.isOpen = false := by
  rw [← Bool.not_eq_true, isOpen_iff]
  omega

theorem anyOpen_eq_false_iff {ts : List Tree} :
    anyOpen ts = false ↔ ∀ t ∈ ts, t.isOpen = false := by
  induction ts with
  | nil => simp [anyOpen]
  | cons t ts ih => simp [anyOpen, ih]

mutual

def leaves : Tree → List Word
  | unexpanded _ => []
  | expanded text [] => [text]
  | expanded _ (t :: rest) => leaves t ++ leavesAll rest

def leavesAll : List Tree → List Word
  | [] => []
  | t :: rest => leaves t ++ leavesAll rest

end

theorem leaves_expanded {symbol : Word} {children : List Tree} (h : children ≠ []) :
    (expanded symbol children).leaves = leavesAll children := by
  cases children with
  | nil => exact absurd rfl h
  | cons t rest => rfl

mutual

theorem output_eq_flatten_leaves (t : Tree)
    (h : ∀ text ∈ t.leaves, startsWithReference text = false) :
    t.output = t.leaves.flatten := by
  match t with
  | unexpanded symbol => rfl
  | expanded text [] =>
      have htext := h text (List.mem_singleton.mpr rfl)
      simp [output, leaves, htext]
  | expanded symbol (t :: rest) =>
      have hhead : ∀ text ∈ t.leaves, startsWithReference text = false :=
        fun text htext => h text (List.mem_append_left _ htext)
      have hrest : ∀ text ∈ leavesAll rest, startsWithReference text = false :=
        fun text htext => h text (List.mem_append_right _ htext)
      rw [output, leaves, List.flatten_append, output_eq_flatten_leaves t hhead,
        outputAll_eq_flatten_leavesAll rest hrest]

theorem outputAll_eq_flatten_leavesAll (ts : List Tree)
    (h : ∀ text ∈ leavesAll ts, startsWithReference text = false) :
    outputAll ts = (leavesAll ts).flatten := by
  match ts with
  | [] => rfl
  | t :: rest =>
      have hhead : ∀ text ∈ t.leaves, startsWithReference text = false :=
        fun text htext => h text (List.mem_append_left _ htext)
      have hrest : ∀ text ∈ leavesAll rest, startsWithReference text = false :=
        fun text htext => h text (List.mem_append_right _ htext)
      rw [outputAll, leavesAll, List.flatten_append, output_eq_flatten_leaves t hhead,
        outputAll_eq_flatten_leavesAll rest hrest]

end

/-!
## Replacing open nodes
-/

/-- Replaces every open node by a tree that is related to its symbol. -/
inductive Refines (R : Word → Tree → Prop) : Tree → Tree → Prop
  | leaf {symbol : Word} {t : Tree} : R symbol t → Refines R (.unexpanded symbol) t
  | node {symbol : Word} {children children' : List Tree} :
      List.Forall₂ (Refines R) children children' →
      Refines R (.expanded symbol children) (.expanded symbol children')

inductive Replaces (R : Word → Tree → Prop) : Tree → Tree → Prop
  | leaf {symbol : Word} {t : Tree} : R symbol t → Replaces R (.unexpanded symbol) t
  | child {symbol : Word} {t t' : Tree} {before behind : List Tree} :
      Replaces R t t' →
      Replaces R (.expanded symbol (before ++ t :: behind))
        (.expanded symbol (before ++ t' :: behind))

variable {R P : Word → Tree → Prop} {t t' : Tree}

theorem Replaces.openSymbols (h : Replaces R t t') :
    ∃ symbol u before behind, R symbol u ∧ t.openSymbols = before ++ symbol :: behind ∧
      t'.openSymbols = before ++ (u.openSymbols ++ behind) := by
  induction h with
  | @leaf symbol u hu =>
      exact ⟨symbol, u, [], [], hu, rfl, (List.append_nil _).symm⟩
  | @child _ t t' before behind _ ih =>
      rcases ih with ⟨symbol, u, us, vs, hu, ht, ht'⟩
      refine ⟨symbol, u, openSymbolsAll before ++ us, vs ++ openSymbolsAll behind, hu, ?_, ?_⟩
      · rw [Tree.openSymbols, openSymbolsAll_append, openSymbolsAll, ht]
        simp
      · rw [Tree.openSymbols, openSymbolsAll_append, openSymbolsAll, ht']
        simp

theorem Replaces.mono (h : Replaces R t t') (hRP : ∀ symbol u, R symbol u → P symbol u) :
    Replaces P t t' := by
  induction h with
  | leaf hu => exact .leaf (hRP _ _ hu)
  | child _ ih => exact .child ih

mutual

theorem Refines.refl (t : Tree) (h : ∀ symbol ∈ t.openSymbols, R symbol (.unexpanded symbol)) :
    Refines R t t := by
  match t with
  | .unexpanded symbol => exact .leaf (h symbol (List.mem_singleton.mpr rfl))
  | .expanded symbol children => exact .node (Refines.refl_all children h)

theorem Refines.refl_all (ts : List Tree)
    (h : ∀ symbol ∈ openSymbolsAll ts, R symbol (.unexpanded symbol)) :
    List.Forall₂ (Refines R) ts ts := by
  match ts with
  | [] => exact .nil
  | t :: rest =>
      exact .cons (Refines.refl t fun symbol hsymbol => h symbol (List.mem_append_left _ hsymbol))
        (Refines.refl_all rest fun symbol hsymbol => h symbol (List.mem_append_right _ hsymbol))

end

mutual

theorem Refines.complete {t₀ : Tree} (t : Tree) (h : Refines R t₀ t) (hcomplete : t.isOpen = false)
    (hRP : ∀ symbol u, R symbol u → u.isOpen = false → P symbol u) : Refines P t₀ t := by
  match t, h with
  | _, .leaf hsymbol => exact .leaf (hRP _ _ hsymbol hcomplete)
  | .expanded symbol children, .node hchildren =>
      exact .node (Refines.complete_all children hchildren hcomplete hRP)

theorem Refines.complete_all {ts₀ : List Tree} (ts : List Tree)
    (h : List.Forall₂ (Refines R) ts₀ ts) (hcomplete : anyOpen ts = false)
    (hRP : ∀ symbol u, R symbol u → u.isOpen = false → P symbol u) :
    List.Forall₂ (Refines P) ts₀ ts := by
  match ts, h with
  | [], .nil => exact .nil
  | t :: rest, .cons hhead hrest =>
      rw [anyOpen, Bool.or_eq_false_iff] at hcomplete
      exact .cons (Refines.complete t hhead hcomplete.1 hRP)
        (Refines.complete_all rest hrest hcomplete.2 hRP)

end

theorem forall₂_replace {α β : Type} {rel : α → β → Prop} {xs : List α} {y y' : β}
    {before behind : List β} (h : List.Forall₂ rel xs (before ++ y :: behind))
    (hy : ∀ x, rel x y → rel x y') : List.Forall₂ rel xs (before ++ y' :: behind) := by
  induction before generalizing xs with
  | nil =>
      cases h with
      | cons hx hrest => exact .cons (hy _ hx) hrest
  | cons z before ih =>
      cases h with
      | cons hx hrest => exact .cons hx (ih hrest)

theorem Refines.replace (hclosed : ∀ symbol u u', R symbol u → Replaces P u u' → R symbol u')
    (h : Replaces P t t') {t₀ : Tree} (h₀ : Refines R t₀ t) : Refines R t₀ t' := by
  induction h generalizing t₀ with
  | leaf hu =>
      cases h₀ with
      | leaf hsymbol => exact .leaf (hclosed _ _ _ hsymbol (.leaf hu))
  | child hstep ih =>
      cases h₀ with
      | leaf hsymbol => exact .leaf (hclosed _ _ _ hsymbol (.child hstep))
      | node hchildren => exact .node (forall₂_replace hchildren fun _ => ih)

end Tree

/-!
## Derivations
-/

/--
A derivation of a symbol: an open node, or a node whose children are the nodes of one
of the symbol's alternatives with each open one replaced by a derivation of its symbol.
-/
inductive Grammar.Grows (g : Grammar) : Word → Tree → Prop
  | waiting {symbol : Word} : Grows g symbol (.unexpanded symbol)
  | node {symbol : Word} {alternatives : List Expansion} {e : Expansion}
      {children : List Tree} :
      g.expansions? symbol = some alternatives → e ∈ alternatives →
      List.Forall₂ (Tree.Refines (Grows g)) (childrenOf e.text) children →
      Grows g symbol (.expanded symbol children)

def Grammar.Produces (g : Grammar) (symbol : Word) (t : Tree) : Prop :=
  ∃ alternatives e, g.expansions? symbol = some alternatives ∧ e ∈ alternatives ∧
    t = .expanded symbol (childrenOf e.text)

namespace Grammar

variable {g : Grammar}

theorem Grows.symbol_eq {symbol : Word} {t : Tree} (h : g.Grows symbol t) : t.symbol = symbol := by
  cases h with
  | waiting => rfl
  | node _ _ _ => rfl

theorem grows_replace {t t' : Tree} (h : Tree.Replaces g.Produces t t') :
    (∀ symbol, g.Grows symbol t → g.Grows symbol t') ∧
      ∀ t₀, Tree.Refines g.Grows t₀ t → Tree.Refines g.Grows t₀ t' := by
  -- The children of a node are refined, so that the induction is on both at once.
  induction h with
  | @leaf name u hproduces =>
      have hleaf : ∀ symbol, g.Grows symbol (.unexpanded name) → g.Grows symbol u := by
        intro symbol hsymbol
        cases hsymbol with
        | waiting =>
            rcases hproduces with ⟨alternatives, e, hrule, he, rfl⟩
            exact .node hrule he (Tree.Refines.refl_all _ fun _ _ => .waiting)
      constructor
      · exact hleaf
      · intro t₀ ht₀
        cases ht₀ with
        | leaf hsymbol => exact .leaf (hleaf _ hsymbol)
  | @child name u u' before behind _ ih =>
      have hnode : ∀ symbol, g.Grows symbol (.expanded name (before ++ u :: behind)) →
          g.Grows symbol (.expanded name (before ++ u' :: behind)) := by
        intro symbol hsymbol
        cases hsymbol with
        | node hrule he hchildren =>
            exact .node hrule he (Tree.forall₂_replace hchildren ih.2)
      constructor
      · exact hnode
      · intro t₀ ht₀
        cases ht₀ with
        | leaf hsymbol => exact .leaf (hnode _ hsymbol)
        | node hchildren => exact .node (Tree.forall₂_replace hchildren ih.2)

theorem Grows.step {t t' : Tree} (h : Tree.Replaces g.Produces t t') {symbol : Word}
    (hgrows : g.Grows symbol t) : g.Grows symbol t' :=
  (grows_replace h).1 symbol hgrows

/-!
## The words of derivations
-/

/-- The text of a terminal node: a terminal of some expansion, or nothing. -/
def TerminalRun (g : Grammar) (text : Word) : Prop :=
  text = [] ∨ ∃ e ∈ g.expansions, .terminal text ∈ GrammarFuzz.symbols e.text

theorem TerminalRun.pieces_eq {text : Word} (h : g.TerminalRun text) :
    pieces .angle text = text.map .letter := by
  rcases h with rfl | ⟨e, _, hterminal⟩
  · rfl
  · exact pieces_of_plain_mem (terminal_mem_symbols_iff.mp hterminal)

theorem TerminalRun.startsWithReference {text : Word} (h : g.TerminalRun text) :
    startsWithReference text = false :=
  startsWithReference_of_pieces h.pieces_eq

theorem exists_symbols_childrenOf (text : Word) :
    ∃ ss : List Symbol, ss ≠ [] ∧ childrenOf text = ss.map Symbol.toTree ∧
      plainReading text = ss.flatMap Symbol.items ∧
      ∀ terminal, .terminal terminal ∈ ss →
        terminal = [] ∨ .terminal terminal ∈ GrammarFuzz.symbols text := by
  cases text with
  | nil =>
      refine ⟨[.terminal []], by simp, rfl, rfl, ?_⟩
      intro terminal hterminal
      cases List.mem_singleton.mp hterminal
      exact Or.inl rfl
  | cons c text =>
      refine ⟨GrammarFuzz.symbols (c :: text), ?_, rfl, rfl, ?_⟩
      · intro hnil
        have hsegments : Segment.split .angle (c :: text) = [] := List.map_eq_nil_iff.mp hnil
        have hword := Segment.flatMap_word_split .angle (c :: text)
        rw [hsegments] at hword
        cases hword
      · exact fun terminal => Or.inr

theorem ne_nil_of_refines {R : Word → Tree → Prop} {ss : List Symbol} (hss : ss ≠ [])
    {children : List Tree} (h : List.Forall₂ (Tree.Refines R) (ss.map Symbol.toTree) children) :
    children ≠ [] := by
  intro heq
  subst heq
  cases ss with
  | nil => exact hss rfl
  | cons s ss => cases h

theorem refines_toTree_cases {R : Word → Tree → Prop} {s : Symbol} {t : Tree}
    (h : Tree.Refines R s.toTree t) :
    (∃ text, s = .terminal text ∧ t = .terminal text) ∨
      ∃ name, s = .nonterminal name ∧ R name t := by
  cases s with
  | terminal text =>
      cases h with
      | node hchildren =>
          cases hchildren
          exact Or.inl ⟨text, rfl, rfl⟩
  | nonterminal name =>
      cases h with
      | leaf hname => exact Or.inr ⟨name, rfl, hname⟩

theorem derives_literals (g : Grammar) (read : Reading) (text : Word) :
    g.Derives read (text.map .literal) text := by
  induction text with
  | nil => exact .nil
  | cons c text ih => exact .literal ih

mutual

theorem Grows.terminalRun {symbol : Word} (t : Tree) (h : g.Grows symbol t) :
    ∀ text ∈ t.leaves, g.TerminalRun text := by
  match t, h with
  | .unexpanded _, _ => exact fun text htext => by cases htext
  | .expanded _ children, .node (e := e) hrule he hchildren =>
      rcases exists_symbols_childrenOf e.text with ⟨ss, hss, hnodes, _, hterminals⟩
      rw [hnodes] at hchildren
      rw [Tree.leaves_expanded (ne_nil_of_refines hss hchildren)]
      have hmem : e ∈ g.expansions := mem_expansions_iff.mpr ⟨_, _, hrule, he⟩
      exact Grows.terminalRun_all children hchildren fun terminal hterminal =>
        (hterminals terminal hterminal).imp_right fun hsymbol => ⟨e, hmem, hsymbol⟩

theorem Grows.terminalRun_all {ss : List Symbol} (ts : List Tree)
    (h : List.Forall₂ (Tree.Refines g.Grows) (ss.map Symbol.toTree) ts)
    (hterminals : ∀ terminal, .terminal terminal ∈ ss → g.TerminalRun terminal) :
    ∀ text ∈ Tree.leavesAll ts, g.TerminalRun text := by
  match ts, ss with
  | [], _ => exact fun text htext => by cases htext
  | t :: rest, s :: ss =>
      rcases List.forall₂_cons.mp h with ⟨hhead, hrest⟩
      intro text htext
      rcases List.mem_append.mp htext with htext | htext
      · rcases refines_toTree_cases hhead with ⟨terminal, rfl, rfl⟩ | ⟨name, rfl, hname⟩
        · have htext : text = terminal := List.mem_singleton.mp htext
          rw [htext]
          exact hterminals terminal List.mem_cons_self
        · exact Grows.terminalRun t hname text htext
      · exact Grows.terminalRun_all rest hrest
          (fun terminal hmem => hterminals terminal (List.mem_cons_of_mem _ hmem)) text htext

end

mutual

theorem Grows.derives {symbol : Word} (t : Tree) (h : g.Grows symbol t)
    (hcomplete : t.isOpen = false) :
    g.Derives plainReading [.reference symbol] t.leaves.flatten := by
  match t, h with
  | .expanded _ children, .node (e := e) hrule he hchildren =>
      rcases exists_symbols_childrenOf e.text with ⟨ss, hss, hnodes, hread, _⟩
      rw [hnodes] at hchildren
      rw [Tree.leaves_expanded (ne_nil_of_refines hss hchildren)]
      apply Derives.reference_iff.mpr
      refine ⟨_, e, hrule, he, ?_⟩
      rw [hread]
      exact Grows.derives_all children hchildren hcomplete

theorem Grows.derives_all {ss : List Symbol} (ts : List Tree)
    (h : List.Forall₂ (Tree.Refines g.Grows) (ss.map Symbol.toTree) ts)
    (hcomplete : Tree.anyOpen ts = false) :
    g.Derives plainReading (ss.flatMap Symbol.items) (Tree.leavesAll ts).flatten := by
  match ts, ss with
  | [], [] => exact .nil
  | t :: rest, s :: ss =>
      rcases List.forall₂_cons.mp h with ⟨hhead, hrest⟩
      rw [Tree.anyOpen, Bool.or_eq_false_iff] at hcomplete
      rw [List.flatMap_cons, Tree.leavesAll, List.flatten_append]
      refine Derives.append ?_ (Grows.derives_all rest hrest hcomplete.2)
      rcases refines_toTree_cases hhead with ⟨terminal, rfl, rfl⟩ | ⟨name, rfl, hname⟩
      · rw [Tree.terminal, Tree.leaves, List.flatten_singleton]
        exact derives_literals g plainReading terminal
      · exact Grows.derives t hname hcomplete.1

end

theorem Grows.output {symbol : Word} {t : Tree} (h : g.Grows symbol t)
    (hcomplete : t.isOpen = false) :
    t.output = t.leaves.flatten ∧ t.output ∈ g.language plainReading symbol := by
  have houtput := Tree.output_eq_flatten_leaves t fun text htext =>
    (Grows.terminalRun t h text htext).startsWithReference
  constructor
  · exact houtput
  · rw [houtput]
    exact Grows.derives t h hcomplete

end Grammar
end GrammarFuzz
