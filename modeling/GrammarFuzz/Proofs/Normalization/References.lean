import GrammarFuzz.Proofs.Normalization.Operators
import GrammarFuzz.Proofs.Reachability
import Mathlib.Data.List.Infix

/-!
# References under normalization

A replacement moves references into the rule it introduces, and it adds a reference to
the symbol of this rule.  Nothing else happens to them, unless a group begins or ends
inside the name of a non-terminal and tears it apart.  After a conversion, the old
references of a text are therefore reached from the new ones, and so are the symbols
that have been introduced on the way.
-/

namespace GrammarFuzz

/-!
## References of composed texts
-/

theorem Refers.append_left {u name : Word} (h : Refers u name) (w : Word) :
    Refers (u ++ w) name := by
  rcases part_mem_pieces_iff.mp h with ⟨hname, before, behind, rfl⟩
  refine part_mem_pieces_iff.mpr ⟨hname, before, behind ++ w, ?_⟩
  simp

theorem Refers.append_right {w name : Word} (h : Refers w name) (u : Word) :
    Refers (u ++ w) name := by
  rcases part_mem_pieces_iff.mp h with ⟨hname, before, behind, rfl⟩
  refine part_mem_pieces_iff.mpr ⟨hname, u ++ before, behind, ?_⟩
  simp

theorem Refers.append_cases {u w name : Word} (h : Refers (u ++ w) name) :
    Refers u name ∨ Refers w name ∨ ∃ before first second behind,
      Straddles .angle u w before first second behind ∧ name = first ++ second := by
  rcases pieces_append_cases .angle u w with hcut | ⟨before, first, second, behind, hacross⟩
  · rw [Refers, hcut, List.mem_append] at h
    exact h.imp_right Or.inl
  · rw [Refers, hacross.pieces_append, List.mem_append, List.mem_cons] at h
    rcases h with h | heq | h
    · refine Or.inl ?_
      rw [Refers, hacross.pieces_left]
      exact List.mem_append_left _ h
    · cases heq
      exact Or.inr (Or.inr ⟨_, _, _, _, hacross, rfl⟩)
    · refine Or.inr (Or.inl ?_)
      rw [Refers, hacross.pieces_right]
      exact List.mem_append_right _ h

/-!
## Names that groups leave whole
-/

/--
Whether a name is left whole by the replacement of groups: a group that begins in it
ends in it, too, and no operator makes a closing parenthesis in it the end of a group.
-/
structure Indivisible (name : Word) : Prop where
  opening : ∀ rest, '(' :: rest <:+ name → ')' ∈ rest
  closing : ∀ c rest, ')' :: c :: rest <:+ name → Operator.ofMark? c = none

def leavesWhole : Word → Bool
  | '(' :: rest => rest.contains ')'
  | ')' :: c :: _ => Operator.ofMark? c == none
  | _ => true

theorem indivisible_iff {name : Word} :
    Indivisible name ↔ ∀ s ∈ name.tails, leavesWhole s = true := by
  simp only [List.mem_tails]
  constructor
  · intro h s hs
    unfold leavesWhole
    split
    · simpa using h.opening _ hs
    · simpa using h.closing _ _ hs
    · rfl
  · intro h
    exact ⟨fun rest hs => by simpa [leavesWhole] using h _ hs,
      fun c rest hs => by simpa [leavesWhole] using h _ hs⟩

instance : DecidablePred Indivisible :=
  fun _ => decidable_of_iff _ indivisible_iff.symm

theorem Indivisible.of_not_mem {name : Word} (hopen : '(' ∉ name) (hclose : ')' ∉ name) :
    Indivisible name :=
  ⟨fun _ h => absurd (h.subset List.mem_cons_self) hopen,
    fun _ _ h => absurd (h.subset List.mem_cons_self) hclose⟩

theorem indivisible_enclose {name : Word} (h : Brackets.round.Fits name) :
    Indivisible (Brackets.angle.enclose name) := by
  have hparentheses := fits_round_iff.mp h
  apply Indivisible.of_not_mem
  · simpa [Brackets.enclose, Brackets.angle] using hparentheses.1
  · simpa [Brackets.enclose, Brackets.angle] using hparentheses.2

namespace Indivisible

variable {first second inner behind v : Word} {op : Operator}

theorem false_of_closing (h : Indivisible (Brackets.angle.enclose (first ++ second)))
    {rest : Word} (hrest : rest <:+ second) (hword : ')' :: op.mark :: v = rest ++ '>' :: behind) :
    False := by
  rcases List.cons_eq_append_iff.mp hword with ⟨_, hhead⟩ | ⟨rest', rfl, htail⟩
  · cases (List.cons.inj hhead).1
  · rcases List.cons_eq_append_iff.mp htail with ⟨_, hhead⟩ | ⟨rest'', rfl, _⟩
    · exact op.mark_ne.2.1 (List.cons.inj hhead).1.symm
    · have hsuffix : ')' :: op.mark :: (rest'' ++ ['>']) <:+
          Brackets.angle.enclose (first ++ second) := by
        rcases hrest with ⟨before, rfl⟩
        exact ⟨'<' :: (first ++ before), by simp [Brackets.enclose, Brackets.angle]⟩
      have hnone := h.closing _ _ hsuffix
      rw [Operator.ofMark?_mark] at hnone
      cases hnone

theorem false_of_opening (h : Indivisible (Brackets.angle.enclose (first ++ second)))
    (hinner : Brackets.round.Fits inner)
    (hword : '(' :: (inner ++ ')' :: op.mark :: v) = second ++ '>' :: behind) : False := by
  rcases List.cons_eq_append_iff.mp hword with ⟨_, hhead⟩ | ⟨rest, rfl, htail⟩
  · cases (List.cons.inj hhead).1
  · have hclose : ')' ∈ rest := by
      have hsuffix : '(' :: (rest ++ ['>']) <:+ Brackets.angle.enclose (first ++ '(' :: rest) :=
        ⟨'<' :: first, by simp [Brackets.enclose, Brackets.angle]⟩
      simpa using h.opening _ hsuffix
    rcases List.append_eq_append_iff.mp htail with ⟨gap, rfl, hgap⟩ | ⟨gap, rfl, _⟩
    · exact h.false_of_closing ⟨'(' :: inner, by simp⟩ hgap
    · exact (fits_round_iff.mp hinner).2 (List.mem_append_left _ hclose)

end Indivisible

theorem Refers.group_cases {u v inner name : Word} {op : Operator}
    (hinner : Brackets.round.Fits inner) (hwhole : Indivisible (Brackets.angle.enclose name))
    (h : Refers (u ++ ((Operand.mk .round inner op).text ++ v)) name) :
    Refers u name ∨ Refers inner name ∨ Refers v name := by
  rw [Operand.text_round_append] at h
  rcases h.append_cases with h | h | ⟨before, first, second, behind, hacross, rfl⟩
  · exact Or.inl h
  · rcases ((refers_cons_iff (by decide)).mp h).append_cases with
      h | h | ⟨before, first, second, behind, hacross, rfl⟩
    · exact Or.inr (Or.inl h)
    · rw [refers_cons_iff (by decide), refers_cons_iff op.mark_ne.1] at h
      exact Or.inr (Or.inr h)
    · exact (hwhole.false_of_closing List.suffix_rfl hacross.right).elim
  · exact (hwhole.false_of_opening hinner hacross.right).elim

namespace Normalization

/-!
## What a replacement does to references
-/

theorem Hold.refersTo {introductions : List Introduction} {g : Grammar}
    (hold : Hold introductions g) {intro : Introduction} (hintro : intro ∈ introductions)
    {text symbol : Word} (htext : text ∈ intro.expansions) (hsymbol : symbol ∈ references text) :
    g.RefersTo intro.symbol symbol :=
  ⟨_, ⟨text, .empty⟩, hold intro hintro, List.mem_map_of_mem htext, hsymbol⟩

/-- Whether a symbol is reached, in a grammar, from the references of a text that are kept. -/
def Leads (keeps : Word → Prop) (g : Grammar) (text symbol : Word) : Prop :=
  ∃ x ∈ references text, keeps x ∧ g.Reaches x symbol

theorem Leads.weaken {keeps : Word → Prop} {g : Grammar} {text symbol : Word}
    (h : Leads keeps g text symbol) : Leads (fun _ => True) g text symbol :=
  h.imp fun _ hx => ⟨hx.1, trivial, hx.2.2⟩

/-- What becomes of the references of a text while rules for fresh symbols are introduced. -/
structure Carries (keeps : Word → Prop) (state state' : Word × Ledger) : Prop where
  adds : Ledger.Adds (fun intro => intro.expansions ≠ []) state.2 state'.2
  sound : ∀ x ∈ references state'.1,
    x ∈ references state.1 ∨ x ∈ state'.2.newest.map Introduction.symbol
  contents : ∀ intro ∈ state'.2.newest, intro ∈ state.2.newest ∨
    ∀ text ∈ intro.expansions, ∀ x ∈ references text,
      x ∈ references state.1 ∨ x ∈ state'.2.newest.map Introduction.symbol
  carried : ∀ x ∈ references state.1, keeps x →
    ∀ g, Hold state'.2.newest g → Leads keeps g state'.1 x
  owned : ∀ intro ∈ state'.2.newest, intro ∈ state.2.newest ∨
    ∀ g, Hold state'.2.newest g → Leads keeps g state'.1 intro.symbol

namespace Carries

variable {keeps : Word → Prop} {state state' state'' : Word × Ledger}

theorem refl (keeps : Word → Prop) (state : Word × Ledger) : Carries keeps state state :=
  ⟨Ledger.adds_refl _ _, fun _ hx => Or.inl hx, fun _ hintro => Or.inl hintro,
    fun x hx hkeeps _ _ => ⟨x, hx, hkeeps, .refl⟩, fun _ hintro => Or.inl hintro⟩

theorem leads (h : Carries keeps state state') {g : Grammar} (hold : Hold state'.2.newest g)
    {symbol : Word} (hleads : Leads keeps g state.1 symbol) : Leads keeps g state'.1 symbol := by
  rcases hleads with ⟨x, hx, hkeeps, hreaches⟩
  rcases h.carried x hx hkeeps g hold with ⟨y, hy, hkeeps', hreaches'⟩
  exact ⟨y, hy, hkeeps', hreaches'.trans hreaches⟩

theorem trans (h : Carries keeps state state') (h' : Carries keeps state' state'') :
    Carries keeps state state'' := by
  have hsymbols : ∀ x, x ∈ references state'.1 ∨ x ∈ state''.2.newest.map Introduction.symbol →
      x ∈ references state.1 ∨ x ∈ state''.2.newest.map Introduction.symbol := by
    intro x hx
    rcases hx with hx | hx
    · exact (h.sound x hx).imp_right fun hmem => List.map_subset _ h'.adds.grows hmem
    · exact Or.inr hx
  constructor
  · exact h.adds.trans h'.adds
  · exact fun x hx => hsymbols x (h'.sound x hx)
  · intro intro hintro
    rcases h'.contents intro hintro with hintro' | hcontent
    · refine (h.contents intro hintro').imp_right fun hnew text htext x hx => ?_
      exact (hnew text htext x hx).imp_right fun hmem => List.map_subset _ h'.adds.grows hmem
    · exact Or.inr fun text htext x hx => hsymbols x (hcontent text htext x hx)
  · intro x hx hkeeps g hold
    have hearlier : Hold state'.2.newest g := fun intro hintro => hold intro (h'.adds.grows hintro)
    exact h'.leads hold (h.carried x hx hkeeps g hearlier)
  · intro intro hintro
    rcases h'.owned intro hintro with hintro' | hleads
    · rcases h.owned intro hintro' with hintro'' | hleads
      · exact Or.inl hintro''
      · refine Or.inr fun g hold => h'.leads hold (hleads g ?_)
        exact fun intro hintro => hold intro (h'.adds.grows hintro)
    · exact Or.inr hleads

theorem of_run {Step : Word × Ledger → Word × Ledger → Prop}
    (hstep : ∀ state state', Step state state' → Carries keeps state state')
    (h : Relation.ReflTransGen Step state state') : Carries keeps state state' := by
  induction h with
  | refl => exact .refl keeps state
  | tail _ hlast ih => exact ih.trans (hstep _ _ hlast)

theorem of_add {text text' : Word} {ledger : Ledger} {intro : Introduction}
    (hfresh : intro.symbol ∉ ledger.taken) (hne : intro.expansions ≠ [])
    (hsymbol : intro.symbol ∈ references text') (hkeeps : keeps intro.symbol)
    (hsound : ∀ x ∈ references text', x ∈ references text ∨ x = intro.symbol)
    (hcontent : ∀ content ∈ intro.expansions, ∀ x ∈ references content,
      x ∈ references text ∨ x = intro.symbol)
    (hcarried : ∀ x ∈ references text, keeps x → x ∈ references text' ∨
      ∃ content ∈ intro.expansions, x ∈ references content) :
    Carries keeps (text, ledger) (text', ledger.add intro) := by
  have hmem : intro ∈ (ledger.add intro).newest := List.mem_cons_self
  have hnew : ∀ x, x = intro.symbol → x ∈ (ledger.add intro).newest.map Introduction.symbol := by
    intro x hx
    rw [hx]
    exact List.mem_map_of_mem hmem
  have hcases : ∀ other ∈ (ledger.add intro).newest, other ∈ ledger.newest ∨ other = intro :=
    fun other hother => (List.mem_cons.mp hother).symm
  constructor
  · exact Ledger.adds_add hfresh hne
  · exact fun x hx => (hsound x hx).imp_right (hnew x)
  · intro other hother
    refine (hcases other hother).imp_right ?_
    rintro rfl
    exact fun content hin x hx => (hcontent content hin x hx).imp_right (hnew x)
  · intro x hx hkeeps' g hold
    rcases hcarried x hx hkeeps' with hx | ⟨content, hin, hx⟩
    · exact ⟨x, hx, hkeeps', .refl⟩
    · exact ⟨intro.symbol, hsymbol, hkeeps, .single (hold.refersTo hmem hin hx)⟩
  · intro other hother
    refine (hcases other hother).imp_right ?_
    rintro rfl g _
    exact ⟨other.symbol, hsymbol, hkeeps, .refl⟩

end Carries

theorem GroupStep.carries {state state' : Word × Ledger} (h : GroupStep state state') :
    Carries Indivisible state state' := by
  cases h with
  | @replace u v inner name op ledger hinner hangle hround hname =>
      have hnew : ∀ x, Refers (u ++ ((Operand.mk .angle name op).text ++ v)) x ↔
          Refers u x ∨ x = name ∨ Refers v x :=
        fun x => refers_append_text_iff hangle
      refine .of_add (not_mem_of_freshName hname) (List.cons_ne_nil _ _) ?_
        (indivisible_enclose hround) ?_ ?_ ?_
      · exact ((hnew name).mpr (Or.inr (Or.inl rfl))).mem_references
      · intro x hx
        rcases mem_references_iff.mp hx with ⟨other, hother, rfl⟩
        rcases (hnew other).mp hother with hu | rfl | hv
        · exact Or.inl (hu.append_left _).mem_references
        · exact Or.inr rfl
        · exact Or.inl ((hv.append_right _).append_right u).mem_references
      · intro text htext x hx
        cases List.mem_singleton.mp htext
        rcases mem_references_iff.mp hx with ⟨other, hother, rfl⟩
        rw [Operand.text_round_append]
        exact Or.inl (((hother.append_left _).append_right ['(']).append_right u).mem_references
      · intro x hx hwhole
        rcases mem_references_iff.mp hx with ⟨other, hother, rfl⟩
        rcases Refers.group_cases hinner hwhole hother with hu | hcontent | hv
        · exact Or.inl ((hnew other).mpr (Or.inl hu)).mem_references
        · exact Or.inr ⟨inner, List.mem_singleton.mpr rfl, hcontent.mem_references⟩
        · exact Or.inl ((hnew other).mpr (Or.inr (Or.inr hv))).mem_references

theorem refers_operatorExpansions {base name : Word} (hbase : Brackets.angle.Fits base)
    (hname : Brackets.angle.Fits name) (op : Operator) :
    (∀ text ∈ operatorExpansions (Brackets.angle.enclose base) (Brackets.angle.enclose name) op,
      ∀ x, Refers text x → x = base ∨ x = name) ∧
    ∃ text ∈ operatorExpansions (Brackets.angle.enclose base) (Brackets.angle.enclose name) op,
      Refers text base := by
  have hnil : ∀ x, ¬ Refers [] x := fun x h => by cases h
  have hone : ∀ {y : Word}, Brackets.angle.Fits y → ∀ x,
      Refers (Brackets.angle.enclose y) x ↔ x = y := by
    intro y hy x
    have h := @refers_append_enclose_iff [] [] y x hy
    rw [List.append_nil, List.nil_append] at h
    simp [h, hnil x]
  have htwo : ∀ x, Refers (Brackets.angle.enclose base ++ Brackets.angle.enclose name) x ↔
      x = base ∨ x = name := by
    intro x
    have h := @refers_append_enclose_iff [] (Brackets.angle.enclose name) base x hbase
    rw [List.nil_append, hone hname] at h
    simp [h, hnil x]
  cases op with
  | optional => simp [operatorExpansions, hnil, hone hbase]
  | star => simp [operatorExpansions, hnil, htwo]
  | plus => simp [operatorExpansions, hone hbase, htwo]

theorem RepetitionStep.carries {state state' : Word × Ledger} (h : RepetitionStep state state') :
    Carries (fun _ => True) state state' := by
  cases h with
  | @replace u v base name op ledger hbase hangle hname =>
      have hnew : ∀ x, Refers (u ++ (Brackets.angle.enclose name ++ v)) x ↔
          Refers u x ∨ x = name ∨ Refers v x :=
        fun x => refers_append_enclose_iff hangle
      have hold : ∀ x, Refers (u ++ ((Operand.mk .angle base op).text ++ v)) x ↔
          Refers u x ∨ x = base ∨ Refers v x :=
        fun x => refers_append_text_iff hbase
      rcases refers_operatorExpansions hbase hangle op with ⟨hcontent, content, hin, hrefers⟩
      refine .of_add (not_mem_of_freshName hname) (List.ne_nil_of_mem hin) ?_ trivial ?_ ?_ ?_
      · exact ((hnew name).mpr (Or.inr (Or.inl rfl))).mem_references
      · intro x hx
        rcases mem_references_iff.mp hx with ⟨other, hother, rfl⟩
        rcases (hnew other).mp hother with hu | rfl | hv
        · exact Or.inl ((hold other).mpr (Or.inl hu)).mem_references
        · exact Or.inr rfl
        · exact Or.inl ((hold other).mpr (Or.inr (Or.inr hv))).mem_references
      · intro text htext x hx
        rcases mem_references_iff.mp hx with ⟨other, hother, rfl⟩
        rcases hcontent text htext other hother with rfl | rfl
        · exact Or.inl ((hold other).mpr (Or.inr (Or.inl rfl))).mem_references
        · exact Or.inr rfl
      · intro x hx _
        rcases mem_references_iff.mp hx with ⟨other, hother, rfl⟩
        rcases (hold other).mp hother with hu | rfl | hv
        · exact Or.inl ((hnew other).mpr (Or.inl hu)).mem_references
        · exact Or.inr ⟨content, hin, hrefers.mem_references⟩
        · exact Or.inl ((hnew other).mpr (Or.inr (Or.inr hv))).mem_references

end Normalization
end GrammarFuzz
