/-!
# Insertion-ordered tables

A table lists its keys in the order of their first insertion. Inserting a key
that is already there replaces its value and keeps its place, so no key occurs
twice.
-/

namespace CommandPack

structure Table (κ ν : Type) where
  entries : List (κ × ν) := []
  nodup_keys : (entries.map Prod.fst).Nodup := by exact List.nodup_nil
  deriving DecidableEq

namespace Table

variable {κ ν : Type}

instance : Inhabited (Table κ ν) := ⟨{}⟩

def keys (t : Table κ ν) : List κ :=
  t.entries.map Prod.fst

def values (t : Table κ ν) : List ν :=
  t.entries.map Prod.snd

def size (t : Table κ ν) : Nat :=
  t.entries.length

def isEmpty (t : Table κ ν) : Bool :=
  t.entries.isEmpty

theorem nodup (t : Table κ ν) : t.keys.Nodup :=
  t.nodup_keys

@[simp]
theorem length_keys (t : Table κ ν) : t.keys.length = t.size :=
  List.length_map ..

/-- Keeps the entries that pass a test, in their order. -/
def filter (t : Table κ ν) (p : κ → ν → Bool) : Table κ ν where
  entries := t.entries.filter fun e => p e.1 e.2
  nodup_keys := t.nodup_keys.sublist (List.filter_sublist.map _)

/-- Applies a function to every value. -/
def map (t : Table κ ν) (f : κ → ν → ν) : Table κ ν where
  entries := t.entries.map fun e => (e.1, f e.1 e.2)
  nodup_keys := by simpa [Function.comp_def] using t.nodup_keys

variable [DecidableEq κ]

def get? (t : Table κ ν) (k : κ) : Option ν :=
  (t.entries.find? fun e => e.1 = k).map Prod.snd

def contains (t : Table κ ν) (k : κ) : Bool :=
  t.entries.any fun e => e.1 = k

theorem contains_iff (t : Table κ ν) (k : κ) : t.contains k = true ↔ k ∈ t.keys := by
  simp [contains, keys]

/-- Applies a function to the value of one key, if the key is there. -/
def modify (t : Table κ ν) (k : κ) (f : ν → ν) : Table κ ν :=
  t.map fun k' v => if k' = k then f v else v

/-- Sets the value of a key. A new key goes to the end. -/
def insert (t : Table κ ν) (k : κ) (v : ν) : Table κ ν :=
  if h : t.contains k then
    t.modify k fun _ => v
  else
    { entries := t.entries ++ [(k, v)]
      nodup_keys := by
        have hk : k ∉ t.entries.map Prod.fst := fun hm => h ((t.contains_iff k).2 hm)
        rw [List.map_append, List.nodup_append]
        refine ⟨t.nodup_keys, by simp, ?_⟩
        intro a ha b hb hab
        simp only [List.map_cons, List.map_nil, List.mem_singleton] at hb
        exact hk (hb ▸ hab ▸ ha) }

/-- Removes a key. -/
def erase (t : Table κ ν) (k : κ) : Table κ ν :=
  t.filter fun k' _ => k' ≠ k

/-- Inserts pairs from left to right. -/
def ofList (entries : List (κ × ν)) : Table κ ν :=
  entries.foldl (fun t e => t.insert e.1 e.2) {}

@[simp]
theorem keys_modify (t : Table κ ν) (k : κ) (f : ν → ν) : (t.modify k f).keys = t.keys := by
  simp [modify, map, keys, Function.comp_def]

/-! ### Looking keys up -/

/-- Looking a key up finds exactly the entry with this key. -/
theorem get?_eq_some_iff (t : Table κ ν) (k : κ) (v : ν) :
    t.get? k = some v ↔ (k, v) ∈ t.entries := by
  obtain ⟨entries, nodup⟩ := t
  simp only [get?]
  induction entries with
  | nil => simp
  | cons e rest ih =>
    simp only [List.map_cons, List.nodup_cons] at nodup
    by_cases h : e.1 = k
    · subst h
      have absent : (e.1, v) ∉ rest := fun hm =>
        nodup.1 (List.mem_map.2 ⟨_, hm, rfl⟩)
      simp only [List.find?_cons, decide_true, Option.map_some, List.mem_cons, absent, or_false,
        Option.some.injEq]
      constructor
      · rintro rfl
        rfl
      · intro h
        rw [← h]
    · have ne : (k, v) ≠ e := fun he => h (by rw [← he])
      simp only [List.find?_cons, h, decide_false, List.mem_cons, ne, false_or]
      exact ih nodup.2

theorem contains_eq (t : Table κ ν) (k : κ) : t.contains k = (t.get? k).isSome := by
  simp only [contains, get?, Option.isSome_map]
  rw [Bool.eq_iff_iff]
  simp [List.find?_isSome]

theorem mem_keys_iff {t : Table κ ν} {k : κ} : k ∈ t.keys ↔ ∃ v, t.get? k = some v := by
  rw [← contains_iff, contains_eq, Option.isSome_iff_exists]

theorem get?_map (t : Table κ ν) (f : κ → ν → ν) (k : κ) :
    (t.map f).get? k = (t.get? k).map (f k) := by
  apply Option.ext
  intro v
  simp only [get?_eq_some_iff, map, List.mem_map, Option.map_eq_some_iff]
  constructor
  · rintro ⟨⟨k', w⟩, h, he⟩
    cases he
    exact ⟨w, h, rfl⟩
  · rintro ⟨w, h, rfl⟩
    exact ⟨(k, w), h, rfl⟩

theorem get?_modify (t : Table κ ν) (k : κ) (f : ν → ν) (k' : κ) :
    (t.modify k f).get? k' = (t.get? k').map fun v => if k' = k then f v else v :=
  get?_map t _ k'

theorem get?_insert (t : Table κ ν) (k : κ) (v : ν) (k' : κ) :
    (t.insert k v).get? k' = if k' = k then some v else t.get? k' := by
  unfold insert
  split
  · next h =>
    rw [contains_eq, Option.isSome_iff_exists] at h
    obtain ⟨w, hw⟩ := h
    rw [get?_modify]
    by_cases hk : k' = k
    · subst hk
      simp [hw]
    · simp [hk]
  · next h =>
    have none : t.get? k = none := by
      rw [contains_eq] at h
      simpa using h
    simp only [get?, List.find?_append] at none ⊢
    by_cases hk : k' = k
    · subst hk
      rw [Option.map_eq_none_iff] at none
      simp [none]
    · cases t.entries.find? fun e => e.1 = k' <;> simp [Ne.symm hk, hk]

/-- Of pairs with different keys, each is found. -/
theorem get?_ofList {entries : List (κ × ν)} (nodup : (entries.map Prod.fst).Nodup)
    (k : κ) (v : ν) : (ofList entries).get? k = some v ↔ (k, v) ∈ entries := by
  -- the fold keeps what the table held before, as long as no key comes again
  have fold (t : Table κ ν) : (entries.foldl (fun t e => t.insert e.1 e.2) t).get? k = some v ↔
      (k, v) ∈ entries ∨ k ∉ entries.map Prod.fst ∧ t.get? k = some v := by
    induction entries generalizing t with
    | nil => simp
    | cons e rest ih =>
      obtain ⟨k', v'⟩ := e
      obtain ⟨fresh, nodup⟩ := List.nodup_cons.1 nodup
      rw [List.foldl_cons, ih nodup, get?_insert]
      by_cases same : k = k'
      · subst same
        have absent : (k, v) ∉ rest := fun mem => fresh (List.mem_map.2 ⟨_, mem, rfl⟩)
        simp [absent, fresh, eq_comm]
      · simp [same]
  rw [ofList, fold]
  simp [get?]

/-- A table holds nothing but the pairs that it is made of. -/
theorem mem_of_get?_ofList {entries : List (κ × ν)} {k : κ} {v : ν}
    (found : (ofList entries).get? k = some v) : (k, v) ∈ entries := by
  have fold (t : Table κ ν)
      (found : (entries.foldl (fun t e => t.insert e.1 e.2) t).get? k = some v) :
      (k, v) ∈ entries ∨ t.get? k = some v := by
    clear ‹(ofList entries).get? k = some v›
    induction entries generalizing t with
    | nil => exact .inr found
    | cons _ _ ih =>
      rcases ih _ found with later | now
      · exact .inl (List.mem_cons_of_mem _ later)
      · rw [get?_insert] at now
        split at now
        · next same =>
          cases now
          exact .inl (same ▸ List.mem_cons_self)
        · exact .inr now
  exact (fold {} found).resolve_right (by simp [get?])

/-- A key that is not there goes to the end. -/
theorem keys_insert {t : Table κ ν} {k : κ} (free : t.get? k = none) (v : ν) :
    (t.insert k v).keys = t.keys ++ [k] := by
  have absent : ¬ t.contains k = true := by
    rw [contains_eq, free]
    exact Bool.false_ne_true
  rw [insert, dif_neg absent]
  exact List.map_append

theorem get?_filter (t : Table κ ν) (p : κ → ν → Bool) (k : κ) :
    (t.filter p).get? k = (t.get? k).filter (p k) := by
  apply Option.ext
  intro v
  simp [get?_eq_some_iff, filter]

end Table

end CommandPack
