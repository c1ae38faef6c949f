import GrammarFuzz.Word
import GrammarFuzz.Traversal

/-!
# Maps that remember the order of insertion

An ordered map is a list of entries with distinct keys.  Giving a key a new
value keeps its place; a new key goes to the end.  The main statement about
each operation says what it does to the list of keys.
-/

namespace GrammarFuzz

universe u v w

/-- Sets the value of a key in a list of entries, at its place or at the end. -/
def setEntry {β : Type u} (key : Word) (value : β) : List (Word × β) → List (Word × β)
  | [] => [(key, value)]
  | (k, v) :: rest =>
      if k = key then (key, value) :: rest else (k, v) :: setEntry key value rest

theorem keys_setEntry {β : Type u} (key : Word) (value : β) (entries : List (Word × β)) :
    (setEntry key value entries).map Prod.fst =
      if key ∈ entries.map Prod.fst then entries.map Prod.fst
      else entries.map Prod.fst ++ [key] := by
  induction entries with
  | nil => simp [setEntry]
  | cons e rest ih =>
      rcases e with ⟨k, v⟩
      by_cases hk : k = key
      · simp [setEntry, hk]
      · have hk' : key ≠ k := fun h => hk h.symm
        by_cases hm : key ∈ rest.map Prod.fst
        · rw [if_pos hm] at ih
          rw [if_pos (by simp [hm])]
          simp [setEntry, hk, ih]
        · rw [if_neg hm] at ih
          rw [if_neg (by simpa [hk'] using hm)]
          simp [setEntry, hk, ih]

theorem nodup_setEntry {β : Type u} (key : Word) (value : β) {entries : List (Word × β)}
    (h : (entries.map Prod.fst).Nodup) :
    ((setEntry key value entries).map Prod.fst).Nodup := by
  rw [keys_setEntry]
  by_cases hm : key ∈ entries.map Prod.fst
  · rwa [if_pos hm]
  · rw [if_neg hm, List.nodup_append]
    refine ⟨h, by simp, ?_⟩
    intro a ha b hb hab
    rw [List.mem_singleton] at hb
    exact hm (hb ▸ hab ▸ ha)

structure OrderedMap (β : Type u) where
  entries : List (Word × β)
  nodup : (entries.map Prod.fst).Nodup

namespace OrderedMap

variable {β : Type u}

theorem eq_of_entries_eq {a b : OrderedMap β} (h : a.entries = b.entries) : a = b := by
  cases a
  cases b
  cases h
  rfl

def empty : OrderedMap β :=
  ⟨[], List.nodup_nil⟩

instance : Inhabited (OrderedMap β) :=
  ⟨empty⟩

def keys (m : OrderedMap β) : List Word :=
  m.entries.map Prod.fst

def values (m : OrderedMap β) : List β :=
  m.entries.map Prod.snd

def size (m : OrderedMap β) : Nat :=
  m.entries.length

def isEmpty (m : OrderedMap β) : Bool :=
  m.entries.isEmpty

def get? (m : OrderedMap β) (key : Word) : Option β :=
  m.entries.lookup key

def contains (m : OrderedMap β) (key : Word) : Bool :=
  m.keys.contains key

def insert (m : OrderedMap β) (key : Word) (value : β) : OrderedMap β :=
  ⟨setEntry key value m.entries, nodup_setEntry key value m.nodup⟩

def insertAll (m : OrderedMap β) (entries : List (Word × β)) : OrderedMap β :=
  entries.foldl (fun m e => m.insert e.1 e.2) m

def ofList (entries : List (Word × β)) : OrderedMap β :=
  empty.insertAll entries

theorem keys_insert (m : OrderedMap β) (key : Word) (value : β) :
    (m.insert key value).keys = if key ∈ m.keys then m.keys else m.keys ++ [key] :=
  keys_setEntry key value m.entries

theorem mem_keys_insert {m : OrderedMap β} {key x : Word} {value : β} :
    x ∈ (m.insert key value).keys ↔ x = key ∨ x ∈ m.keys := by
  rw [keys_insert]
  by_cases hm : key ∈ m.keys
  · rw [if_pos hm]
    constructor
    · exact Or.inr
    · intro hcases
      rcases hcases with h | h
      · exact h ▸ hm
      · exact h
  · rw [if_neg hm, List.mem_append, List.mem_singleton, or_comm]

theorem lookup_setEntry (key x : Word) (value : β) (entries : List (Word × β)) :
    (setEntry key value entries).lookup x = if x = key then some value else entries.lookup x := by
  induction entries with
  | nil =>
      by_cases hx : x = key
      · simp [setEntry, hx]
      · simp [setEntry, hx, List.lookup_cons, beq_eq_false_iff_ne.mpr hx]
  | cons e rest ih =>
      rcases e with ⟨k, v⟩
      by_cases hk : k = key
      · by_cases hx : x = key
        · simp [setEntry, hk, hx]
        · simp [setEntry, hk, hx, List.lookup_cons, beq_eq_false_iff_ne.mpr hx]
      · by_cases hxk : x = k
        · have hx : x ≠ key := fun h => hk (hxk ▸ h)
          simp [setEntry, hk, hxk]
        · simp only [setEntry, hk, if_false, List.lookup_cons, beq_eq_false_iff_ne.mpr hxk, ih]

theorem get?_insert (m : OrderedMap β) (key x : Word) (value : β) :
    (m.insert key value).get? x = if x = key then some value else m.get? x :=
  lookup_setEntry key x value m.entries

theorem lookup_eq_some_iff {entries : List (Word × β)} (h : (entries.map Prod.fst).Nodup)
    {key : Word} {value : β} :
    entries.lookup key = some value ↔ (key, value) ∈ entries := by
  induction entries with
  | nil => simp
  | cons e rest ih =>
      rcases e with ⟨k, v⟩
      rw [List.map_cons, List.nodup_cons] at h
      by_cases hk : key = k
      · subst hk
        have hrest : (key, value) ∉ rest :=
          fun hmem => h.1 (List.mem_map.mpr ⟨(key, value), hmem, rfl⟩)
        simp [hrest, eq_comm]
      · simp [List.lookup_cons, beq_eq_false_iff_ne.mpr hk, hk, ih h.2]

theorem get?_eq_some_iff {m : OrderedMap β} {key : Word} {value : β} :
    m.get? key = some value ↔ (key, value) ∈ m.entries :=
  lookup_eq_some_iff m.nodup

theorem mem_entries_of_insertAll {m : OrderedMap β} {entries : List (Word × β)} {e : Word × β}
    (h : e ∈ (m.insertAll entries).entries) : e ∈ m.entries ∨ e ∈ entries := by
  induction entries generalizing m with
  | nil => exact Or.inl h
  | cons first rest ih =>
      rcases @ih (m.insert first.1 first.2) h with h | h
      · have hget := get?_eq_some_iff.mpr h
        rw [get?_insert] at hget
        split at hget
        · rename_i hkey
          exact Or.inr (List.mem_cons.mpr (Or.inl (Prod.ext hkey (Option.some.inj hget).symm)))
        · exact Or.inl (get?_eq_some_iff.mp hget)
      · exact Or.inr (List.mem_cons_of_mem first h)

theorem setEntry_of_not_mem {key : Word} {entries : List (Word × β)}
    (h : key ∉ entries.map Prod.fst) (value : β) :
    setEntry key value entries = entries ++ [(key, value)] := by
  induction entries with
  | nil => rfl
  | cons e rest ih =>
      rcases e with ⟨k, v⟩
      rw [List.map_cons, List.mem_cons, not_or] at h
      rw [setEntry, if_neg (Ne.symm h.1), ih h.2, List.cons_append]

theorem setEntry_append_cons {key : Word} {before : List (Word × β)}
    (h : key ∉ before.map Prod.fst) (old value : β) (after : List (Word × β)) :
    setEntry key value (before ++ (key, old) :: after) = before ++ (key, value) :: after := by
  induction before with
  | nil => exact if_pos rfl
  | cons e rest ih =>
      rcases e with ⟨k, v⟩
      rw [List.map_cons, List.mem_cons, not_or] at h
      rw [List.cons_append, setEntry, if_neg (Ne.symm h.1), ih h.2, List.cons_append]

theorem entries_insertAll {m : OrderedMap β} {entries : List (Word × β)}
    (h : (m.keys ++ entries.map Prod.fst).Nodup) :
    (m.insertAll entries).entries = m.entries ++ entries := by
  induction entries generalizing m with
  | nil => simp [insertAll]
  | cons e rest ih =>
      have hkey : e.1 ∉ m.keys := by
        intro hmem
        exact (List.nodup_append.mp h).2.2 e.1 hmem e.1 (by simp) rfl
      have hinsert : (m.insert e.1 e.2).entries = m.entries ++ [e] :=
        setEntry_of_not_mem hkey e.2
      have hkeys : (m.insert e.1 e.2).keys = m.keys ++ [e.1] := by
        rw [keys_insert, if_neg hkey]
      have hrest := ih (m := m.insert e.1 e.2) (by simpa [hkeys] using h)
      calc (m.insertAll (e :: rest)).entries
          = ((m.insert e.1 e.2).insertAll rest).entries := rfl
        _ = m.entries ++ e :: rest := by rw [hrest, hinsert]; simp

theorem entries_ofList {entries : List (Word × β)} (h : (entries.map Prod.fst).Nodup) :
    (ofList entries).entries = entries :=
  entries_insertAll h

theorem contains_iff {m : OrderedMap β} {key : Word} : m.contains key = true ↔ key ∈ m.keys :=
  List.contains_iff_mem

theorem contains_iff_exists {m : OrderedMap β} {key : Word} :
    m.contains key = true ↔ ∃ value, m.get? key = some value := by
  simp [contains_iff, keys, get?_eq_some_iff]

def entryStep {γ : Type v} {σ : Type w} (f : σ → Word → β → γ × σ) (s : σ)
    (e : Word × β) : (Word × γ) × σ :=
  ((e.1, (f s e.1 e.2).1), (f s e.1 e.2).2)

theorem keys_entryStep {γ : Type v} {σ : Type w} (f : σ → Word → β → γ × σ) (s : σ)
    (entries : List (Word × β)) :
    (GrammarFuzz.mapAccum (entryStep f) s entries).1.map Prod.fst = entries.map Prod.fst :=
  map_mapAccum (f := entryStep f) (g := Prod.fst) (h := Prod.fst) (fun _ _ => rfl) s entries

def mapAccum {γ : Type v} {σ : Type w} (f : σ → Word → β → γ × σ) (s : σ)
    (m : OrderedMap β) : OrderedMap γ × σ :=
  (⟨(GrammarFuzz.mapAccum (entryStep f) s m.entries).1,
      (keys_entryStep f s m.entries).symm ▸ m.nodup⟩,
    (GrammarFuzz.mapAccum (entryStep f) s m.entries).2)

/--
Whether two maps have the same keys with values that agree under `same`,
whatever the order of the entries.
-/
def agree (same : β → β → Bool) (a b : OrderedMap β) : Bool :=
  a.size == b.size && a.entries.all fun e =>
    match b.get? e.1 with
    | some v => same e.2 v
    | none => false

theorem agree_of_perm {same : β → β → Bool} (hself : ∀ v, same v v = true) {a b : OrderedMap β}
    (h : a.entries.Perm b.entries) : agree same a b = true := by
  rw [agree, Bool.and_eq_true, beq_iff_eq, List.all_eq_true]
  refine ⟨h.length_eq, ?_⟩
  intro e he
  rw [get?_eq_some_iff.mpr (h.mem_iff.mp he)]
  exact hself e.2

end OrderedMap
end GrammarFuzz
