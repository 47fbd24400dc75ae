/-
# Finite sets of variables

A set of variables is kept as its strictly increasing list, so that two sets
with the same members are the same value and showing a set needs no sorting.
Every operation is described by membership (`mem_insert`, `mem_union`,
`mem_ofList`), and `ext` says that membership determines the set.
-/

import ContextFree.Symbol

namespace ContextFree

/-- A finite set of variables, kept as its increasing list. -/
structure NameSet where
  toList : List Variable
  sorted : toList.Pairwise (· < ·)
deriving DecidableEq

namespace NameSet

instance : Membership Variable NameSet where
  mem s v := v ∈ s.toList

instance (v : Variable) (s : NameSet) : Decidable (v ∈ s) :=
  inferInstanceAs (Decidable (v ∈ s.toList))

/-- The set without members. -/
def empty : NameSet := ⟨[], .nil⟩

instance : EmptyCollection NameSet := ⟨empty⟩

/-- The empty set has no members. -/
@[simp] theorem not_mem_empty (v : Variable) : v ∉ (∅ : NameSet) :=
  List.not_mem_nil

/-- The number of members. -/
def size (s : NameSet) : Nat :=
  s.toList.length

/-- Puts a variable at its place in an increasing list. -/
def place (v : Variable) : List Variable → List Variable
  | [] => [v]
  | w :: ws => if v < w then v :: w :: ws else if w < v then w :: place v ws else w :: ws

/-- A variable that is put at its place is the only new one in the list. -/
@[simp] theorem mem_place {v x : Variable} {ws : List Variable} :
    x ∈ place v ws ↔ x = v ∨ x ∈ ws := by
  induction ws with
  | nil => simp [place]
  | cons w ws ih =>
    unfold place
    split
    · simp
    · split
      · simp only [List.mem_cons, ih]
        exact or_left_comm
      · rename_i hvw hwv
        have : v = w := Decidable.byContradiction fun h => by
          rcases Variable.lt_or_lt_of_ne h with h | h <;> contradiction
        simp [this]

/-- A list stays increasing when a variable is put at its place. -/
theorem sorted_place {v : Variable} {ws : List Variable} (h : ws.Pairwise (· < ·)) :
    (place v ws).Pairwise (· < ·) := by
  induction ws with
  | nil => simp [place]
  | cons w ws ih =>
    obtain ⟨hw, hws⟩ := List.pairwise_cons.1 h
    unfold place
    split
    · rename_i hvw
      refine List.pairwise_cons.2 ⟨fun x hx => ?_, h⟩
      rcases List.mem_cons.1 hx with rfl | hx
      · exact hvw
      · exact Variable.lt_trans hvw (hw x hx)
    · split
      · rename_i hwv
        refine List.pairwise_cons.2 ⟨fun x hx => ?_, ih hws⟩
        rcases mem_place.1 hx with rfl | hx
        · exact hwv
        · exact hw x hx
      · exact h

/-- The set with one more member. -/
def insert (s : NameSet) (v : Variable) : NameSet :=
  ⟨place v s.toList, sorted_place s.sorted⟩

/-- The members of a set with one more are that one and those before. -/
@[simp] theorem mem_insert {s : NameSet} {v x : Variable} : x ∈ s.insert v ↔ x = v ∨ x ∈ s :=
  mem_place

/-- The set with the members of a list added. -/
def insertAll (s : NameSet) (vs : List Variable) : NameSet :=
  vs.foldl insert s

/-- The members of a set and of the list that is added to it. -/
@[simp] theorem mem_insertAll {s : NameSet} {vs : List Variable} {x : Variable} :
    x ∈ s.insertAll vs ↔ x ∈ s ∨ x ∈ vs := by
  induction vs generalizing s with
  | nil => simp [insertAll]
  | cons v vs ih =>
    have : s.insertAll (v :: vs) = (s.insert v).insertAll vs := rfl
    simp only [this, ih, mem_insert, List.mem_cons]
    exact ⟨by rintro ((h | h) | h) <;> simp [h], by rintro (h | h | h) <;> simp [h]⟩

/-- The members of a list. -/
def ofList (vs : List Variable) : NameSet :=
  insertAll ∅ vs

/-- The set of a list has its members. -/
@[simp] theorem mem_ofList {vs : List Variable} {x : Variable} : x ∈ ofList vs ↔ x ∈ vs := by
  simp [ofList]

/-- The members of either set. -/
def union (s t : NameSet) : NameSet :=
  s.insertAll t.toList

instance : Union NameSet := ⟨union⟩

/-- A union has the members of both sets. -/
@[simp] theorem mem_union {s t : NameSet} {x : Variable} : x ∈ s ∪ t ↔ x ∈ s ∨ x ∈ t :=
  mem_insertAll

/-- A subset has only members of the larger set. -/
instance : HasSubset NameSet where
  Subset s t := ∀ v ∈ s, v ∈ t

/-- The members have no repeats. -/
theorem nodup (s : NameSet) : s.toList.Nodup := by
  refine List.Pairwise.imp (fun {a b} h => ?_) s.sorted
  rintro rfl
  exact Variable.lt_irrefl a h

/-- **A set is its members.** -/
theorem ext {s t : NameSet} (h : ∀ v, v ∈ s ↔ v ∈ t) : s = t := by
  have hperm : s.toList.Perm t.toList := (List.perm_ext_iff_of_nodup s.nodup t.nodup).2 h
  have hlist : s.toList = t.toList :=
    hperm.eq_of_pairwise (fun _ _ _ _ hab hba => absurd hba (Variable.lt_asymm hab))
      s.sorted t.sorted
  cases s
  cases t
  cases hlist
  rfl

/-- A set without members is the empty one. -/
theorem eq_empty_of_forall_not_mem {s : NameSet} (h : ∀ v, v ∉ s) : s = ∅ :=
  ext fun v => iff_of_false (h v) (not_mem_empty v)

/-- A set is the set of its listed members. -/
@[simp] theorem ofList_toList (s : NameSet) : ofList s.toList = s :=
  ext fun _ => mem_ofList

end NameSet
end ContextFree
