import GrammarFuzz.Proofs.Json.Literals

/-!
# Reading printed values back

In either layout, the text of a value is read as this value, wherever it stands.  The
value must not be nested more deeply than the reader allows, its numbers have to be
64-bit integers, and the keys of an object distinct.  The bound on the calls is of no
importance: every call reads at least one character of the text.
-/

namespace GrammarFuzz
namespace Json

/-!
## Values
-/

mutual

def nesting : Json → Nat
  | .array items => nestingItems items + 1
  | .object members => nestingMembers members + 1
  | _ => 0

def nestingItems : List Json → Nat
  | [] => 0
  | item :: rest => max (nesting item) (nestingItems rest)

def nestingMembers : List (Word × Json) → Nat
  | [] => 0
  | (_, value) :: rest => max (nesting value) (nestingMembers rest)

end

mutual

/-- Whether all numbers in a value are integers that stay integers, and all keys are distinct. -/
def isExact : Json → Bool
  | .int n => isWord n
  | .float _ _ => false
  | .array items => areExact items
  | .object members => decide (members.map Prod.fst).Nodup && membersExact members
  | _ => true

def areExact : List Json → Bool
  | [] => true
  | item :: rest => isExact item && areExact rest

def membersExact : List (Word × Json) → Bool
  | [] => true
  | (_, value) :: rest => isExact value && membersExact rest

end

theorem nestingItems_le_iff {items : List Json} {n : Nat} :
    nestingItems items ≤ n ↔ ∀ item ∈ items, nesting item ≤ n := by
  induction items with
  | nil => simp [nestingItems]
  | cons item items ih => rw [nestingItems, Nat.max_le, ih, List.forall_mem_cons]

theorem nestingMembers_le_iff {members : List (Word × Json)} {n : Nat} :
    nestingMembers members ≤ n ↔ ∀ member ∈ members, nesting member.2 ≤ n := by
  induction members with
  | nil => simp [nestingMembers]
  | cons member members ih =>
      rcases member with ⟨key, value⟩
      rw [nestingMembers, Nat.max_le, ih, List.forall_mem_cons]

theorem areExact_iff {items : List Json} :
    areExact items = true ↔ ∀ item ∈ items, isExact item = true := by
  induction items with
  | nil => simp [areExact]
  | cons item items ih => simp [areExact, ih]

theorem membersExact_iff {members : List (Word × Json)} :
    membersExact members = true ↔ ∀ member ∈ members, isExact member.2 = true := by
  induction members with
  | nil => simp [membersExact]
  | cons member members ih =>
      rcases member with ⟨key, value⟩
      simp [membersExact, ih]

theorem induct {motive : Json → Prop} (null : motive .null) (bool : ∀ b, motive (.bool b))
    (int : ∀ n, motive (.int n)) (float : ∀ x finite, motive (.float x finite))
    (string : ∀ w, motive (.string w))
    (array : ∀ items, (∀ item ∈ items, motive item) → motive (.array items))
    (object : ∀ members : List (Word × Json), (∀ member ∈ members, motive member.2) →
      motive (.object members)) (value : Json) : motive value :=
  @Json.rec motive (fun items => ∀ item ∈ items, motive item)
    (fun members => ∀ member ∈ members, motive member.2) (fun member => motive member.2)
    null bool int float string array object
    (fun _ h => (List.not_mem_nil h).elim)
    (fun _ _ hfirst hrest => List.forall_mem_cons.mpr ⟨hfirst, hrest⟩)
    (fun _ h => (List.not_mem_nil h).elim)
    (fun _ _ hfirst hrest => List.forall_mem_cons.mpr ⟨hfirst, hrest⟩)
    (fun _ _ h => h) value

theorem skipBlanks_append {blanks : Word} (h : ∀ c ∈ blanks, isBlank c = true) (rest : Word) :
    skipBlanks (blanks ++ rest) = skipBlanks rest :=
  List.dropWhile_append_of_pos h

theorem skipBlanks_cons {c : Char} (h : isBlank c = false) (rest : Word) :
    skipBlanks (c :: rest) = c :: rest := by
  rw [skipBlanks, List.dropWhile_cons, h]
  rfl

theorem readValue_append_blanks {blanks : Word} (h : ∀ c ∈ blanks, isBlank c = true)
    (depth fuel : Nat) (input : Word) :
    readValue depth fuel (blanks ++ input) = readValue depth fuel input := by
  cases fuel with
  | zero => rfl
  | succ fuel => rw [readValue, readValue, skipBlanks_append h]

theorem readItems_append_blanks {blanks : Word} (h : ∀ c ∈ blanks, isBlank c = true)
    (depth fuel : Nat) (input : Word) :
    readItems depth fuel (blanks ++ input) = readItems depth fuel input := by
  cases fuel with
  | zero => rfl
  | succ fuel => rw [readItems, readItems, readValue_append_blanks h]

theorem readMembers_append_blanks {blanks : Word} (h : ∀ c ∈ blanks, isBlank c = true)
    (depth fuel : Nat) (input : Word) :
    readMembers depth fuel (blanks ++ input) = readMembers depth fuel input := by
  cases fuel with
  | zero => rfl
  | succ fuel => rw [readMembers, readMembers, skipBlanks_append h]

section Number

variable {c : Char}

theorem ne_of_number (hc : c = '-' ∨ c.isDigit = true) {d : Char} (hminus : d ≠ '-')
    (hdigit : d.isDigit = false) : c ≠ d := by
  rintro rfl
  rcases hc with rfl | hc
  · exact hminus rfl
  · rw [hdigit] at hc
    cases hc

theorem isBlank_of_number (hc : c = '-' ∨ c.isDigit = true) : isBlank c = false := by
  have hne := fun d => @ne_of_number c hc d
  simp [isBlank, hne ' ', hne '\t', hne '\n', hne '\r']

theorem readValue_number (hc : c = '-' ∨ c.isDigit = true) (depth fuel : Nat) (w : Word) :
    readValue depth (fuel + 1) (c :: w) = readNumber (c :: w) := by
  have hne := fun d => @ne_of_number c hc d
  rw [readValue, skipBlanks_cons (isBlank_of_number hc)]
  split
  · rename_i heq
    exact absurd (List.cons.inj heq).1 (hne 'n' (by decide) (by decide))
  · rename_i heq
    exact absurd (List.cons.inj heq).1 (hne 't' (by decide) (by decide))
  · rename_i heq
    exact absurd (List.cons.inj heq).1 (hne 'f' (by decide) (by decide))
  · rename_i heq
    exact absurd (List.cons.inj heq).1 (hne '"' (by decide) (by decide))
  · rename_i heq
    exact absurd (List.cons.inj heq).1 (hne '[' (by decide) (by decide))
  · rename_i heq
    exact absurd (List.cons.inj heq).1 (hne '\x7b' (by decide) (by decide))
  · rfl

end Number

theorem readValue_array {c : Char} {rest w : Word} (h : skipBlanks rest = c :: w) (hc : c ≠ ']')
    (depth fuel : Nat) : readValue (depth + 1) (fuel + 1) ('[' :: rest) =
      (readItems depth fuel (c :: w)).map fun (items, rest) => (.array items, rest) := by
  rw [readValue, skipBlanks_cons rfl]
  simp only [Nat.add_one_ne_zero, if_false, h, Nat.add_sub_cancel]
  split
  · rename_i heq
    exact absurd (List.cons.inj heq).1 hc
  · rfl

theorem readValue_object {c : Char} {rest w : Word} (h : skipBlanks rest = c :: w)
    (hc : c ≠ '\x7d') (depth fuel : Nat) :
    readValue (depth + 1) (fuel + 1) ('\x7b' :: rest) =
      (readMembers depth fuel (c :: w)).map fun (members, rest) =>
        (.object (OrderedMap.ofList members).entries, rest) := by
  rw [readValue, skipBlanks_cons rfl]
  simp only [Nat.add_one_ne_zero, if_false, h, Nat.add_sub_cancel]
  split
  · rename_i heq
    exact absurd (List.cons.inj heq).1 hc
  · rfl

/-!
## Layouts
-/

section Layout

variable (layout : Layout) (level : Nat)

theorem isBlank_of_mem_newLine {c : Char} (h : c ∈ layout.newLine level) : isBlank c = true := by
  cases layout with
  | compact => cases h
  | indented width =>
      rcases List.mem_cons.mp h with rfl | h
      · rfl
      · rw [List.eq_of_mem_replicate h]
        rfl

theorem skipBlanks_newLine (rest : Word) :
    skipBlanks (layout.newLine level ++ rest) = skipBlanks rest :=
  skipBlanks_append (fun _ hc => isBlank_of_mem_newLine layout level hc) rest

theorem follows_newLine {c : Char} (hc : c = ']' ∨ c = '\x7d') (rest : Word) :
    Follows (layout.newLine level ++ c :: rest) := by
  intro d hd
  cases layout with
  | compact =>
      cases hd
      exact Or.inr (hc.imp_right Or.inl)
  | indented width =>
      cases hd
      exact Or.inr (Or.inr (Or.inr rfl))

theorem follows_comma (rest : Word) : Follows (',' :: rest) :=
  fun _ hc => Or.inl (Option.some.inj hc).symm

theorem exists_colon : ∃ blanks : Word, layout.colon = ':' :: blanks ∧
    ∀ c ∈ blanks, isBlank c = true := by
  cases layout with
  | compact => exact ⟨[], rfl, by simp⟩
  | indented width => exact ⟨[' '], rfl, by simp [isBlank]⟩

end Layout

/-!
## Items and members
-/

section Sequences

variable {depth fuel : Nat} {input after rest : Word} {value : Json} {layout : Layout}

theorem readItems_last (h : readValue depth fuel input = some (value, after))
    (hafter : skipBlanks after = ']' :: rest) :
    readItems depth (fuel + 1) input = some ([value], rest) := by
  rw [readItems, h]
  dsimp only
  rw [hafter]
  rfl

theorem readItems_next (h : readValue depth fuel input = some (value, after))
    (hafter : skipBlanks after = ',' :: rest) :
    readItems depth (fuel + 1) input =
      (readItems depth fuel rest).map fun (items, rest) => (value :: items, rest) := by
  rw [readItems, h]
  dsimp only
  rw [hafter]
  rfl

theorem quote_append (w rest : Word) :
    quote w ++ rest = '"' :: (w.flatMap escapeChar ++ '"' :: rest) := by
  simp [quote]

theorem readMembers_last {key : Word} (h : readValue depth fuel input = some (value, after))
    (hafter : skipBlanks after = '\x7d' :: rest) :
    readMembers depth (fuel + 1) (quote key ++ (layout.colon ++ input)) =
      some ([(key, value)], rest) := by
  rcases exists_colon layout with ⟨blanks, hcolon, hblanks⟩
  have hskip : skipBlanks (':' :: (blanks ++ input)) = ':' :: (blanks ++ input) :=
    skipBlanks_cons rfl _
  rw [hcolon, quote_append, readMembers, skipBlanks_cons rfl, List.cons_append]
  simp only [readString_quote, hskip, readValue_append_blanks hblanks, h, hafter]

theorem readMembers_next {key : Word} (h : readValue depth fuel input = some (value, after))
    (hafter : skipBlanks after = ',' :: rest) :
    readMembers depth (fuel + 1) (quote key ++ (layout.colon ++ input)) =
      (readMembers depth fuel rest).map fun (members, rest) => ((key, value) :: members, rest) := by
  rcases exists_colon layout with ⟨blanks, hcolon, hblanks⟩
  have hskip : skipBlanks (':' :: (blanks ++ input)) = ':' :: (blanks ++ input) :=
    skipBlanks_cons rfl _
  rw [hcolon, quote_append, readMembers, skipBlanks_cons rfl, List.cons_append]
  simp only [readString_quote, hskip, readValue_append_blanks hblanks, h, hafter]

end Sequences

/-!
## Printed values
-/

/-- Whether a value is read back wherever its text stands. -/
def ReadsBack (depth : Nat) (value : Json) : Prop :=
  ∀ (layout : Layout) (level fuel : Nat) (rest : Word),
    2 * (render layout level value).length ≤ fuel → Follows rest →
      readValue depth fuel (render layout level value ++ rest) = some (value, rest)

section Sequences

variable {depth : Nat} {layout : Layout} {level outer : Nat} {rest : Word}

theorem readItems_render {item : Json} {items : List Json} {fuel : Nat}
    (hitems : ∀ x ∈ item :: items, ReadsBack depth x)
    (hfuel : 2 * (render layout level item ++ renderItems layout level items).length ≤ fuel) :
    readItems depth (fuel + 1) (render layout level item ++ (renderItems layout level items ++
      (layout.newLine outer ++ ']' :: rest))) = some (item :: items, rest) := by
  rw [List.length_append] at hfuel
  induction items generalizing item fuel with
  | nil =>
      have hitem := hitems item List.mem_cons_self layout level fuel
        (layout.newLine outer ++ ']' :: rest) (by omega)
        (follows_newLine layout outer (Or.inl rfl) rest)
      rw [renderItems, List.nil_append]
      exact readItems_last hitem (by rw [skipBlanks_newLine, skipBlanks_cons rfl])
  | cons next items ih =>
      simp only [renderItems, List.length_cons, List.length_append] at hfuel
      simp only [renderItems, List.append_assoc, List.cons_append]
      rcases Nat.exists_eq_add_one_of_ne_zero (show fuel ≠ 0 by omega) with ⟨fuel, rfl⟩
      have hitem := fun after => hitems item List.mem_cons_self layout level (fuel + 1)
        (',' :: after) (by omega) (follows_comma after)
      have hrest := ih (List.forall_mem_cons.mp hitems).2 (show _ ≤ fuel by omega)
      rw [readItems_next (hitem _) (skipBlanks_cons rfl _),
        readItems_append_blanks (fun _ hc => isBlank_of_mem_newLine layout level hc), hrest]
      rfl

theorem readMembers_render {key : Word} {value : Json} {members : List (Word × Json)} {fuel : Nat}
    (hmembers : ∀ x ∈ (key, value) :: members, ReadsBack depth x.2)
    (hfuel : 2 * (render layout level value ++ renderMembers layout level members).length ≤ fuel) :
    readMembers depth (fuel + 1) (quote key ++ (layout.colon ++ (render layout level value ++
      (renderMembers layout level members ++ (layout.newLine outer ++ '\x7d' :: rest))))) =
        some ((key, value) :: members, rest) := by
  rw [List.length_append] at hfuel
  induction members generalizing key value fuel with
  | nil =>
      have hvalue : ReadsBack depth value := hmembers _ List.mem_cons_self
      have hread := hvalue layout level fuel (layout.newLine outer ++ '\x7d' :: rest) (by omega)
        (follows_newLine layout outer (Or.inr rfl) rest)
      rw [renderMembers, List.nil_append]
      exact readMembers_last hread (by rw [skipBlanks_newLine, skipBlanks_cons rfl])
  | cons next members ih =>
      rcases next with ⟨nextKey, nextValue⟩
      have hvalue : ReadsBack depth value := hmembers _ List.mem_cons_self
      simp only [renderMembers, List.length_cons, List.length_append] at hfuel
      simp only [renderMembers, List.append_assoc, List.cons_append]
      rcases Nat.exists_eq_add_one_of_ne_zero (show fuel ≠ 0 by omega) with ⟨fuel, rfl⟩
      have hread := fun after => hvalue layout level (fuel + 1) (',' :: after) (by omega)
        (follows_comma after)
      have hrest := ih (List.forall_mem_cons.mp hmembers).2 (show _ ≤ fuel by omega)
      rw [readMembers_next (hread _) (skipBlanks_cons rfl _),
        readMembers_append_blanks (fun _ hc => isBlank_of_mem_newLine layout level hc), hrest]
      rfl

end Sequences

/-!
## Reading values back
-/

theorem exists_renderInt_cons (n : Int) :
    ∃ c w, renderInt n = c :: w ∧ (c = '-' ∨ c.isDigit = true) := by
  rw [renderInt]
  by_cases hneg : n < 0
  · exact ⟨'-', _, if_pos hneg, Or.inl rfl⟩
  · have hne : Word.ofNat n.natAbs ≠ [] := List.ne_nil_of_length_pos Nat.length_toDigits_pos
    rcases List.exists_cons_of_ne_nil hne with ⟨c, w, hdigits⟩
    have hmem : c ∈ Word.ofNat n.natAbs := by
      rw [hdigits]
      exact List.mem_cons_self
    exact ⟨c, w, (if_neg hneg).trans hdigits, Or.inr (Numeral.isDigit_of_mem_ofNat hmem)⟩

theorem exists_render_cons (layout : Layout) (level : Nat) {value : Json}
    (h : value.isExact = true) :
    ∃ c w, render layout level value = c :: w ∧ isBlank c = false ∧ c ≠ ']' := by
  cases value with
  | null => exact ⟨_, _, rfl, rfl, by decide⟩
  | bool b =>
      cases b with
      | true => exact ⟨_, _, rfl, rfl, by decide⟩
      | false => exact ⟨_, _, rfl, rfl, by decide⟩
  | int n =>
      rcases exists_renderInt_cons n with ⟨c, w, hrender, hc⟩
      exact ⟨c, w, hrender, isBlank_of_number hc, ne_of_number hc (by decide) (by decide)⟩
  | float x finite => cases h
  | string w => exact ⟨_, _, rfl, rfl, by decide⟩
  | array items =>
      cases items with
      | nil => exact ⟨_, _, rfl, rfl, by decide⟩
      | cons item items => exact ⟨_, _, rfl, rfl, by decide⟩
  | object members =>
      cases members with
      | nil => exact ⟨_, _, rfl, rfl, by decide⟩
      | cons member members => exact ⟨_, _, rfl, rfl, by decide⟩

theorem readsBack_of_succ {depth : Nat} {value : Json} (hexact : value.isExact = true)
    (h : ∀ (layout : Layout) (level fuel : Nat) (rest : Word),
      2 * (render layout level value).length ≤ fuel + 1 → Follows rest →
        readValue depth (fuel + 1) (render layout level value ++ rest) = some (value, rest)) :
    ReadsBack depth value := by
  intro layout level fuel rest hfuel hrest
  cases fuel with
  | zero =>
      rcases exists_render_cons layout level hexact with ⟨c, w, hrender, _⟩
      rw [hrender] at hfuel
      cases hfuel
  | succ fuel => exact h layout level fuel rest hfuel hrest

theorem readsBack_array {items : List Json} (hexact : (Json.array items).isExact = true)
    {depth : Nat} (hitems : ∀ x ∈ items, ReadsBack depth x) :
    ReadsBack (depth + 1) (.array items) := by
  refine readsBack_of_succ hexact fun layout level fuel rest hfuel _ => ?_
  cases items with
  | nil => rfl
  | cons item items =>
      have hitem := areExact_iff.mp hexact item List.mem_cons_self
      rcases exists_render_cons layout (level + 1) hitem with ⟨c, w, hrender, hblank, hc⟩
      simp only [render, List.length_cons, List.length_append] at hfuel
      simp only [render, List.cons_append, List.append_assoc, List.nil_append]
      rcases Nat.exists_eq_add_one_of_ne_zero (show fuel ≠ 0 by omega) with ⟨fuel, rfl⟩
      have hread := @readItems_render depth layout (level + 1) level rest item items fuel hitems
        (by rw [List.length_append]; omega)
      rw [hrender, List.cons_append] at hread ⊢
      have hskip := fun w => (skipBlanks_newLine layout (level + 1) (c :: w)).trans
        (skipBlanks_cons hblank w)
      rw [readValue_array (hskip _) hc, hread]
      rfl

theorem readsBack_object {members : List (Word × Json)}
    (hexact : (Json.object members).isExact = true) {depth : Nat}
    (hmembers : ∀ x ∈ members, ReadsBack depth x.2) :
    ReadsBack (depth + 1) (.object members) := by
  refine readsBack_of_succ hexact fun layout level fuel rest hfuel _ => ?_
  rw [isExact, Bool.and_eq_true, decide_eq_true_eq] at hexact
  cases members with
  | nil => rfl
  | cons member members =>
      rcases member with ⟨key, value⟩
      simp only [render, List.length_cons, List.length_append] at hfuel
      simp only [render, List.cons_append, List.append_assoc, List.nil_append]
      rcases Nat.exists_eq_add_one_of_ne_zero (show fuel ≠ 0 by omega) with ⟨fuel, rfl⟩
      have hread := @readMembers_render depth layout (level + 1) level rest key value members fuel
        hmembers (by rw [List.length_append]; omega)
      rw [quote_append] at hread ⊢
      have hskip := fun w => (skipBlanks_newLine layout (level + 1) ('"' :: w)).trans
        (skipBlanks_cons rfl w)
      rw [readValue_object (hskip _) (by decide), hread, Option.map_some]
      dsimp only
      rw [OrderedMap.entries_ofList hexact.1]

theorem readsBack (value : Json) (hexact : value.isExact = true) (depth : Nat)
    (hdepth : value.nesting ≤ depth) : ReadsBack depth value := by
  induction value using induct generalizing depth with
  | null => exact readsBack_of_succ hexact fun _ _ _ _ _ _ => rfl
  | bool b =>
      cases b with
      | true => exact readsBack_of_succ hexact fun _ _ _ _ _ _ => rfl
      | false => exact readsBack_of_succ hexact fun _ _ _ _ _ _ => rfl
  | int n =>
      refine readsBack_of_succ hexact fun layout level fuel rest _ hrest => ?_
      rcases exists_renderInt_cons n with ⟨c, w, hrender, hc⟩
      have hnumber := readNumber_renderInt hexact hrest
      rw [render]
      rw [hrender, List.cons_append] at hnumber ⊢
      exact (readValue_number hc depth fuel _).trans hnumber
  | float x finite => cases hexact
  | string w =>
      refine readsBack_of_succ hexact fun layout level fuel rest _ _ => ?_
      rw [render, quote_append, readValue, skipBlanks_cons rfl]
      simp only [readString_quote]
      rfl
  | array items ih =>
      cases depth with
      | zero => cases hdepth
      | succ depth =>
          have hitems := nestingItems_le_iff.mp (Nat.le_of_succ_le_succ hdepth)
          exact readsBack_array hexact fun x hx =>
            ih x hx (areExact_iff.mp hexact x hx) depth (hitems x hx)
  | object members ih =>
      cases depth with
      | zero => cases hdepth
      | succ depth =>
          have hmembers := nestingMembers_le_iff.mp (Nat.le_of_succ_le_succ hdepth)
          have hexacts := membersExact_iff.mp (Bool.and_eq_true_iff.mp hexact).2
          exact readsBack_object hexact fun x hx => ih x hx (hexacts x hx) depth (hmembers x hx)

theorem ofText?_pretty {value : Json} (hexact : value.isExact = true)
    (hdepth : value.nesting ≤ maxDepth) : ofText? value.pretty = some value := by
  have hfollows : Follows ['\n'] := fun _ hc => Or.inr (Or.inr (Or.inr (Option.some.inj hc).symm))
  have hread := readsBack value hexact maxDepth hdepth (.indented 4) 0
    (2 * value.pretty.length + 2) ['\n'] (by rw [pretty, List.length_append]; omega) hfollows
  rw [ofText?, pretty] at *
  rw [hread]
  rfl

end Json
end GrammarFuzz
