import GrammarFuzz.Proofs.Normalization.Passes
import GrammarFuzz.Proofs.Normalization.Replacements
import GrammarFuzz.Proofs.TextReading

/-!
# The pass over groups

Replacing a group by a fresh non-terminal keeps what the text stands for, wherever
the rule for the non-terminal holds.  So do the rounds of the pass, which end with a
text without groups.
-/

namespace GrammarFuzz
namespace Normalization

/-- Whether a text refers to taken names only, none of them with a parenthesis. -/
def Proper (taken : List Word) (text : Word) : Prop :=
  ∀ name, Refers text name →
    Brackets.angle.enclose name ∈ taken ∧ Brackets.round.Fits name

theorem Proper.mono {taken taken' : List Word} {text : Word} (h : Proper taken text)
    (hle : taken ⊆ taken') : Proper taken' text :=
  fun name hname => ⟨hle (h name hname).1, (h name hname).2⟩

theorem Proper.fits {taken : List Word} {text : Word} (h : Proper taken text) :
    ∀ name, Refers text name → Brackets.round.Fits name :=
  fun name hname => (h name hname).2

/-!
## The pieces around a group
-/

theorem pieces_group {u inner v : Word} {op : Operator}
    (h : ∀ name, Refers (u ++ ((Operand.mk .round inner op).text ++ v)) name →
      Brackets.round.Fits name) :
    pieces .angle (u ++ ((Operand.mk .round inner op).text ++ v)) =
      pieces .angle u ++ .letter '(' ::
        (pieces .angle inner ++ .letter ')' :: .letter op.mark :: pieces .angle v) := by
  have hopen : pieces .angle ('(' :: (inner ++ ')' :: op.mark :: v)) =
      .letter '(' :: pieces .angle (inner ++ ')' :: op.mark :: v) :=
    pieces_of_ne_opening (by decide) _
  have hclose : pieces .angle (')' :: op.mark :: v) =
      .letter ')' :: .letter op.mark :: pieces .angle v := by
    rw [pieces_of_ne_opening (by decide), pieces_of_ne_opening op.mark_ne.1]
  rw [Operand.text_round_append] at h ⊢
  have hcut := pieces_append_cons (b := .angle) (u := u) (by decide)
    fun name hname => (fits_round_iff.mp (h name hname)).1
  have hcut' : pieces .angle (inner ++ ')' :: op.mark :: v) =
      pieces .angle inner ++ pieces .angle (')' :: op.mark :: v) := by
    refine pieces_append_cons (by decide) ?_
    intro name hname
    refine (fits_round_iff.mp (h name ?_)).2
    rw [Refers, hcut, hopen]
    simp [hname]
  rw [hcut, hopen, hcut', hclose]

/-!
## One group
-/

namespace Ledger

structure Flat (g : Grammar) (ledger : Ledger) : Prop where
  accounts : Accounts g ledger
  content : ∀ intro ∈ ledger.newest, ∃ content, intro.expansions = [content] ∧
    Brackets.round.Fits content ∧ Proper ledger.taken content

theorem flat_ofGrammar (g : Grammar) : Flat g (ofGrammar g) :=
  ⟨accounts_ofGrammar g, fun intro hintro => by cases hintro⟩

theorem Flat.add {g : Grammar} {ledger : Ledger} (h : Flat g ledger) {symbol content : Word}
    (hfresh : symbol ∉ ledger.taken) (hfits : Brackets.round.Fits content)
    (hproper : Proper ledger.taken content) (replaced : Word) :
    Flat g (ledger.add ⟨replaced, symbol, [content]⟩) := by
  have htaken : ledger.taken ⊆ (ledger.add ⟨replaced, symbol, [content]⟩).taken :=
    fun x hx => List.mem_cons_of_mem _ hx
  constructor
  · exact h.accounts.add hfresh
  · intro intro hintro
    rcases List.mem_cons.mp hintro with rfl | hintro
    · exact ⟨content, rfl, hfits, hproper.mono htaken⟩
    · rcases h.content intro hintro with ⟨old, hold, hfits', hproper'⟩
      exact ⟨old, hold, hfits', hproper'.mono htaken⟩

end Ledger

/-- Whether a text and its ledger result from replacing groups in an earlier text. -/
structure Ungroups (g : Grammar) (state state' : Word × Ledger) : Prop where
  flat : state'.2.Flat g
  proper : Proper state'.2.taken state'.1
  grows : Ledger.Extends state.2 state'.2
  alike : ∀ g' : Grammar, Hold state'.2.newest g' →
    g'.Alike extendedReading (extendedReading state.1) (extendedReading state'.1)

namespace Ungroups

variable {g : Grammar} {state state' state'' : Word × Ledger}

theorem refl (hflat : state.2.Flat g) (hproper : Proper state.2.taken state.1) :
    Ungroups g state state :=
  ⟨hflat, hproper, Ledger.extends_refl _, fun _ _ => .refl _⟩

theorem trans (h : Ungroups g state state') (h' : Ungroups g state' state'') :
    Ungroups g state state'' := by
  refine ⟨h'.flat, h'.proper, Ledger.extends_trans _ _ _ h.grows h'.grows, ?_⟩
  intro g' hold
  have hearlier : Hold state'.2.newest g' := fun intro hintro => hold intro (h'.grows hintro)
  exact (h.alike g' hearlier).trans (h'.alike g' hold)

end Ungroups

/-!
A group with the content `inner` between `u` and `v`, and the non-terminal `name` in its
place.
-/

section Replacement

variable {g : Grammar} {taken : List Word} {u v inner name : Word} {op : Operator}

theorem refers_group_iff (h : Proper taken (u ++ ((Operand.mk .round inner op).text ++ v)))
    {other : Word} : Refers (u ++ ((Operand.mk .round inner op).text ++ v)) other ↔
      Refers u other ∨ Refers inner other ∨ Refers v other := by
  rw [Refers, pieces_group h.fits]
  simp [Refers]

theorem proper_replaced (h : Proper taken (u ++ ((Operand.mk .round inner op).text ++ v)))
    (hangle : Brackets.angle.Fits name) (hround : Brackets.round.Fits name) :
    Proper (Brackets.angle.enclose name :: taken)
      (u ++ ((Operand.mk .angle name op).text ++ v)) := by
  have hkept : ∀ other, Refers u other ∨ Refers v other →
      Brackets.angle.enclose other ∈ Brackets.angle.enclose name :: taken ∧
        Brackets.round.Fits other := by
    intro other hother
    have hold := h other ((refers_group_iff h).mpr (hother.imp_right Or.inr))
    exact ⟨List.mem_cons_of_mem _ hold.1, hold.2⟩
  intro other hother
  rcases (refers_append_text_iff hangle).mp hother with hu | rfl | hv
  · exact hkept other (Or.inl hu)
  · exact ⟨List.mem_cons_self, hround⟩
  · exact hkept other (Or.inr hv)

theorem alike_replaced (h : Proper taken (u ++ ((Operand.mk .round inner op).text ++ v)))
    (hinner : Brackets.round.Fits inner) (hname : Brackets.angle.Fits name)
    (hrule : g.expansions? (Brackets.angle.enclose name) = some [⟨inner, .empty⟩]) :
    g.Alike extendedReading (extendedReading (u ++ ((Operand.mk .round inner op).text ++ v)))
      (extendedReading (u ++ ((Operand.mk .angle name op).text ++ v))) := by
  have hletter : ∀ c, .letter c ∈ pieces .angle inner → c ∈ inner := by
    intro c hc
    rw [← spell_pieces .angle inner]
    exact List.mem_flatMap.mpr ⟨_, hc, List.mem_singleton.mpr rfl⟩
  have hbody : Token.Body (Token.ofText inner) := by
    apply Token.Body.of_flat
    intro t ht
    refine Token.isFlat_of_mem_ofPieces ?_ ?_ ht
    · exact fun hmem => (fits_round_iff.mp hinner).1 (hletter _ hmem)
    · exact fun hmem => (fits_round_iff.mp hinner).2 (hletter _ hmem)
  have hnew : extendedReading (u ++ ((Operand.mk .angle name op).text ++ v)) =
      (Frames.empty.readAll (Token.ofPieces (pieces .angle u) ++
        .repetition name op :: Token.ofPieces (pieces .angle v))).flatten := by
    rw [extendedReading, Token.ofText, Operand.pieces_append_text rfl hname,
      Token.ofPieces_append (Token.takeMark?_ofPieces_part _ _), Token.ofPieces_repetition]
  have hold : extendedReading (u ++ ((Operand.mk .round inner op).text ++ v)) =
      (Frames.empty.readAll (Token.ofPieces (pieces .angle u) ++
        (.opening :: Token.ofText inner ++
          .closingWith op :: Token.ofPieces (pieces .angle v)))).flatten := by
    rw [extendedReading, Token.ofText, pieces_group h.fits,
      Token.ofPieces_append (Token.takeMark?_ofPieces_letter rfl _), Token.ofPieces_opening,
      Token.ofPieces_append (Token.takeMark?_ofPieces_letter rfl _), Token.ofPieces_closingWith]
    rfl
  rw [hnew, hold]
  exact (Frames.alike_group hbody (.of_single hrule extendedReading) _ _ _).symm

end Replacement

section Run

variable {g : Grammar} {state state' : Word × Ledger}

theorem GroupStep.ungroups (h : GroupStep state state') (hflat : state.2.Flat g)
    (hproper : Proper state.2.taken state.1) : Ungroups g state state' := by
  cases h with
  | @replace u v inner name op ledger hinner hangle hround hname =>
      have hcontent : Proper ledger.taken inner := fun other hother =>
        hproper other ((refers_group_iff hproper).mpr (Or.inr (Or.inl hother)))
      exact ⟨hflat.add (not_mem_of_freshName hname) hinner hcontent _,
        proper_replaced hproper hangle hround, Ledger.extends_add ledger (groupRule inner op name),
        fun g' hold => alike_replaced hproper hinner hangle (hold _ List.mem_cons_self)⟩

theorem Ungroups.of_run (hflat : state.2.Flat g) (hproper : Proper state.2.taken state.1)
    (h : Relation.ReflTransGen GroupStep state state') : Ungroups g state state' := by
  induction h with
  | refl => exact .refl hflat hproper
  | tail _ hstep ih => exact ih.trans (hstep.ungroups ih.flat ih.proper)

end Run

/-!
## The pass
-/

structure Ungrouped (g : Grammar) (introductions : List Introduction) (e e' : Expansion) :
    Prop where
  alike : ∀ g' : Grammar, Hold introductions g' →
    g'.Alike extendedReading (extendedReading e.text) (extendedReading e'.text)
  groups : Operand.groups e'.text = []
  proper : Proper (introductions.map Introduction.symbol ++ g.symbols) e'.text

theorem ungrouped_stable (g : Grammar) : Conversion.Stable (Ungrouped g) := by
  intro earlier later e e' hle h
  refine ⟨fun g' hold => h.alike g' fun intro hintro => hold intro (hle hintro), h.groups, ?_⟩
  refine h.proper.mono ?_
  refine List.append_subset.mpr ⟨?_, List.subset_append_right _ _⟩
  exact List.Subset.trans (List.map_subset _ hle) (List.subset_append_left _ _)

theorem converts_replaceGroups {g : Grammar} {e : Expansion} (he : Proper g.symbols e.text) :
    Converts (Ledger.Flat g) replaceGroups (Ungrouped g) e := by
  intro ledger hflat
  have hsymbols : g.symbols ⊆ ledger.taken := by
    rw [hflat.accounts.taken]
    exact List.subset_append_right _ _
  have h := Ungroups.of_run hflat (he.mono hsymbols) (run_replaceGroups ledger e)
  refine ⟨h.flat, h.grows, h.alike, groups_replaceGroups ledger e, ?_⟩
  have hproper := h.proper
  rw [h.flat.accounts.taken] at hproper
  exact hproper

end Normalization
end GrammarFuzz
