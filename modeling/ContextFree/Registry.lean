/-
# Maps that remember the order of insertion

A registry is a list of entries with different keys. Putting a key that is
already there keeps the place of its entry and replaces the value; a new key
goes to the end. `get?_insert` describes the map after one insertion, and
`keys_insert_of_mem` and `entries_insert_of_not_mem` its order.
-/

namespace ContextFree

/-- A finite map whose entries stand in the order of their first insertion. -/
structure Registry (κ ν : Type) where
  entries : List (κ × ν)
  nodup : (entries.map Prod.fst).Nodup

namespace Registry

variable {κ ν : Type}

instance [DecidableEq κ] [DecidableEq ν] : DecidableEq (Registry κ ν) := fun r s =>
  decidable_of_iff (r.entries = s.entries) (by cases r; cases s; simp)

/-- A registry is its list of entries. -/
theorem ext {r s : Registry κ ν} (h : r.entries = s.entries) : r = s := by
  cases r; cases s; cases h; rfl

/-- The map without entries. -/
def empty : Registry κ ν := ⟨[], .nil⟩

instance : EmptyCollection (Registry κ ν) := ⟨empty⟩

/-- The empty map has no entries. -/
@[simp] theorem entries_empty : (∅ : Registry κ ν).entries = [] := rfl

/-- The number of entries. -/
def size (r : Registry κ ν) : Nat :=
  r.entries.length

/-- The keys in their order. -/
def keys (r : Registry κ ν) : List κ :=
  r.entries.map Prod.fst

/-- The values in the order of their keys. -/
def values (r : Registry κ ν) : List ν :=
  r.entries.map Prod.snd

/-- No key occurs twice. -/
theorem nodup_keys (r : Registry κ ν) : r.keys.Nodup :=
  r.nodup

/-- The map with a function applied to every value. -/
def mapValues {μ : Type} (f : ν → μ) (r : Registry κ ν) : Registry κ μ :=
  ⟨r.entries.map fun e => (e.1, f e.2), by simpa [Function.comp_def] using r.nodup⟩

/-- The function is applied to the value of each entry. -/
@[simp] theorem entries_mapValues {μ : Type} (f : ν → μ) (r : Registry κ ν) :
    (r.mapValues f).entries = r.entries.map fun e => (e.1, f e.2) := rfl

/-- The keys stay what they were. -/
@[simp] theorem keys_mapValues {μ : Type} (f : ν → μ) (r : Registry κ ν) :
    (r.mapValues f).keys = r.keys := by
  simp [keys, Function.comp_def]

/-- The function is applied to each value. -/
@[simp] theorem values_mapValues {μ : Type} (f : ν → μ) (r : Registry κ ν) :
    (r.mapValues f).values = r.values.map f := by
  simp [values, Function.comp_def]

/-- The map without its first `k` entries. -/
def drop (r : Registry κ ν) (k : Nat) : Registry κ ν :=
  ⟨r.entries.drop k, r.nodup.sublist ((List.drop_sublist k r.entries).map Prod.fst)⟩

/-- The entries after the first `k`. -/
@[simp] theorem entries_drop (r : Registry κ ν) (k : Nat) :
    (r.drop k).entries = r.entries.drop k := rfl

variable [DecidableEq κ]

/-- An entry for another key is passed over. -/
theorem lookup_cons_of_ne {j i : κ} {y : ν} {es : List (κ × ν)} (h : j ≠ i) :
    ((i, y) :: es).lookup j = es.lookup j := by
  rw [List.lookup_cons, beq_false_of_ne h]

/-- Nothing is found at a key that does not occur. -/
theorem lookup_of_not_mem {k : κ} {es : List (κ × ν)} (h : k ∉ es.map Prod.fst) :
    es.lookup k = none := by
  rw [List.lookup_eq_none_iff]
  rintro ⟨j, y⟩ hj
  simp only [bne_iff_ne, ne_eq]
  rintro rfl
  exact h (List.mem_map.2 ⟨_, hj, rfl⟩)

/-- The value at a key. -/
def get? (r : Registry κ ν) (k : κ) : Option ν :=
  r.entries.lookup k

/-- Nothing is found in the empty map. -/
@[simp] theorem get?_empty (k : κ) : (∅ : Registry κ ν).get? k = none := rfl

/-- Puts a value at a key of a list of entries: in place, or at the end. -/
def place (k : κ) (x : ν) : List (κ × ν) → List (κ × ν)
  | [] => [(k, x)]
  | e :: es => if e.1 = k then (k, x) :: es else e :: place k x es

/-- A value put at a key that occurs leaves the keys as they were. -/
theorem map_fst_place_of_mem {k : κ} {x : ν} {es : List (κ × ν)} (h : k ∈ es.map Prod.fst) :
    (place k x es).map Prod.fst = es.map Prod.fst := by
  induction es with
  | nil => simp at h
  | cons e es ih =>
    unfold place
    split
    · rename_i he; simp [he]
    · rename_i he
      rcases List.mem_cons.1 h with h | h
      · exact absurd h.symm he
      · simp [ih h]

/-- A value put at a new key comes to the end. -/
theorem place_of_not_mem {k : κ} {x : ν} {es : List (κ × ν)} (h : k ∉ es.map Prod.fst) :
    place k x es = es ++ [(k, x)] := by
  induction es with
  | nil => rfl
  | cons e es ih =>
    simp only [List.map_cons, List.mem_cons, not_or] at h
    simp [place, Ne.symm h.1, ih h.2]

/-- No key comes to occur twice. -/
theorem nodup_place {k : κ} {x : ν} {es : List (κ × ν)} (h : (es.map Prod.fst).Nodup) :
    ((place k x es).map Prod.fst).Nodup := by
  by_cases hk : k ∈ es.map Prod.fst
  · rw [map_fst_place_of_mem hk]; exact h
  · rw [place_of_not_mem hk, List.map_append, List.map_cons, List.map_nil]
    refine List.nodup_append.2 ⟨h, by simp, fun a ha b hb => ?_⟩
    rw [List.mem_singleton.1 hb]
    exact fun (e : a = k) => hk (e ▸ ha)

/-- The map with a value put at a key. -/
def insert (r : Registry κ ν) (k : κ) (x : ν) : Registry κ ν :=
  ⟨place k x r.entries, nodup_place r.nodup⟩

/-- **A repeated key keeps its place.** -/
theorem keys_insert_of_mem {r : Registry κ ν} {k : κ} {x : ν} (h : k ∈ r.keys) :
    (r.insert k x).keys = r.keys :=
  map_fst_place_of_mem h

/-- **A new entry goes to the end.** -/
theorem entries_insert_of_not_mem {r : Registry κ ν} {k : κ} {x : ν} (h : k ∉ r.keys) :
    (r.insert k x).entries = r.entries ++ [(k, x)] :=
  place_of_not_mem h

/-- The value is found at its key, and others are found where they were. -/
theorem lookup_place {k j : κ} {x : ν} {es : List (κ × ν)} :
    (place k x es).lookup j = if j = k then some x else es.lookup j := by
  induction es with
  | nil => by_cases h : j = k <;> simp [place, h]
  | cons e es ih =>
    rcases e with ⟨i, y⟩
    unfold place
    by_cases hik : i = k
    · subst hik
      by_cases hjk : j = i
      · simp [hjk]
      · simp [hjk, lookup_cons_of_ne hjk]
    · by_cases hji : j = i
      · subst hji; simp [hik]
      · simp [hik, lookup_cons_of_ne hji, ih]

/-- **The last value put at a key is the one found there.** -/
theorem get?_insert {r : Registry κ ν} {k j : κ} {x : ν} :
    (r.insert k x).get? j = if j = k then some x else r.get? j :=
  lookup_place

/-- A value is found at exactly the keys. -/
theorem get?_isSome_iff {r : Registry κ ν} {k : κ} : (r.get? k).isSome ↔ k ∈ r.keys := by
  rcases r with ⟨es, h⟩
  simp only [get?, keys]
  clear h
  induction es with
  | nil => simp
  | cons e es ih =>
    rcases e with ⟨i, y⟩
    by_cases hk : k = i
    · simp [hk]
    · simp [lookup_cons_of_ne hk, hk, ih]

/-- Nothing is found at any other key. -/
theorem get?_eq_none_iff {r : Registry κ ν} {k : κ} : r.get? k = none ↔ k ∉ r.keys := by
  rw [← get?_isSome_iff, Option.not_isSome_iff_eq_none]

/-- A value is found at a key exactly when they are an entry. -/
theorem get?_eq_some_iff {r : Registry κ ν} {k : κ} {x : ν} :
    r.get? k = some x ↔ (k, x) ∈ r.entries := by
  rcases r with ⟨es, h⟩
  simp only [get?]
  induction es with
  | nil => simp
  | cons e es ih =>
    rcases e with ⟨i, y⟩
    obtain ⟨hi, hes⟩ := List.nodup_cons.1 h
    by_cases hk : k = i
    · subst hk
      have hne : (k, x) ∉ es := fun hx => hi (List.mem_map.2 ⟨_, hx, rfl⟩)
      simp [hne, eq_comm]
    · simp [lookup_cons_of_ne hk, ih hes, hk]

/-- What has a value is a key. -/
theorem mem_keys_of_get? {r : Registry κ ν} {k : κ} {x : ν} (h : r.get? k = some x) :
    k ∈ r.keys :=
  List.mem_map_of_mem (get?_eq_some_iff.1 h)

/-- What is found is a value. -/
theorem mem_values_of_get? {r : Registry κ ν} {k : κ} {x : ν} (h : r.get? k = some x) :
    x ∈ r.values :=
  List.mem_map_of_mem (get?_eq_some_iff.1 h)

/-- The map with all entries of a list put in order. -/
def insertAll (r : Registry κ ν) (es : List (κ × ν)) : Registry κ ν :=
  es.foldl (fun r e => r.insert e.1 e.2) r

/-- The map that a list of entries describes. -/
def ofList (es : List (κ × ν)) : Registry κ ν :=
  insertAll ∅ es

/-- The map with the entries of another one put in their order. -/
def extend (r s : Registry κ ν) : Registry κ ν :=
  r.insertAll s.entries

/-- Without entries nothing is put in. -/
@[simp] theorem insertAll_nil (r : Registry κ ν) : r.insertAll [] = r := rfl

/-- The first entry is put in before the others. -/
@[simp] theorem insertAll_cons (r : Registry κ ν) (e : κ × ν) (es : List (κ × ν)) :
    r.insertAll (e :: es) = (r.insert e.1 e.2).insertAll es := rfl

/-- The entries of one list are put in after those of another. -/
theorem insertAll_append (r : Registry κ ν) (es fs : List (κ × ν)) :
    r.insertAll (es ++ fs) = (r.insertAll es).insertAll fs :=
  List.foldl_append

/-- Entries with new and different keys are appended. -/
theorem entries_insertAll_of_disjoint {r : Registry κ ν} {es : List (κ × ν)}
    (hes : (es.map Prod.fst).Nodup) (h : ∀ k ∈ es.map Prod.fst, k ∉ r.keys) :
    (r.insertAll es).entries = r.entries ++ es := by
  induction es generalizing r with
  | nil => simp
  | cons e es ih =>
    obtain ⟨he, hes⟩ := List.nodup_cons.1 hes
    have hk := entries_insert_of_not_mem (x := e.2) (h e.1 List.mem_cons_self)
    rw [insertAll_cons, ih hes, hk, List.append_assoc]
    · rfl
    · intro k hkm
      simp only [keys, hk, List.map_append, List.map_cons, List.map_nil, List.mem_append,
        List.mem_singleton, not_or]
      exact ⟨h k (List.mem_cons_of_mem _ hkm), fun e' => he (e' ▸ hkm)⟩

/-- Entries with different keys are found before what was there. -/
theorem get?_insertAll_of_nodup {r : Registry κ ν} {es : List (κ × ν)}
    (hes : (es.map Prod.fst).Nodup) (k : κ) :
    (r.insertAll es).get? k = (es.lookup k).or (r.get? k) := by
  induction es generalizing r with
  | nil => rfl
  | cons e es ih =>
    rcases e with ⟨i, x⟩
    obtain ⟨hi, hes⟩ := List.nodup_cons.1 hes
    rw [insertAll_cons, ih hes, get?_insert]
    by_cases hk : k = i
    · subst hk
      simp [lookup_of_not_mem hi]
    · rw [if_neg hk, lookup_cons_of_ne hk]

/-- **What is put in with another map is found first.** -/
theorem get?_extend (r s : Registry κ ν) (k : κ) :
    (r.extend s).get? k = (s.get? k).or (r.get? k) :=
  get?_insertAll_of_nodup s.nodup k

/-- A map is what its own list of entries describes. -/
theorem ofList_entries (r : Registry κ ν) : ofList r.entries = r :=
  ext (entries_insertAll_of_disjoint r.nodup fun _ _ => List.not_mem_nil)

end Registry
end ContextFree
