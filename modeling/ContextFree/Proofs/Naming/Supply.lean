/-
# Which names an allocator hands out

Drawing from an allocator hands out candidates of its pool in order and passes
over those in use. `Allocator.Supplies a vs b` says that drawing from `a` again
and again hands out `vs` and leaves `b`. The main statements compare this with
the pool alone: the names handed out are the different candidates of some
beginning of the pool that were not in use (`Supplies.exists_unused`), and when
no further name is left, every candidate of a finite pool is in use and none was
missed (`Supplies.exhausted`). Every single draw ends, because only so many
candidates are in use (`exists_looks`).
-/

import Mathlib
import ContextFree.Naming.Allocator

namespace ContextFree

/-- Striking out repeats leaves none. -/
theorem nodup_eraseDups {α : Type} [BEq α] [LawfulBEq α] : ∀ xs : List α, xs.eraseDups.Nodup
  | [] => by simp
  | x :: xs => by
    rw [List.eraseDups_cons]
    exact List.nodup_cons.2 ⟨by simp, nodup_eraseDups _⟩
termination_by xs => xs.length
decreasing_by
  have := List.length_filter_le (fun y => !y == x) xs
  simp only [List.length_cons]
  omega

namespace Pool

/-- The first `k` candidates that a pool offers, or all if there are fewer. -/
def offered : Pool → Nat → List Variable
  | .listed names, k => names.take k
  | .counted stem next, k => (List.range k).map fun i : Nat => numbered stem (next + i)

/-- The pool after its first `k` candidates. -/
def skip : Pool → Nat → Pool
  | .listed names, k => .listed (names.drop k)
  | .counted stem next, k => .counted stem (next + k)

/-- The different candidates among the first `k` that are not in use, in order. -/
def unused (used : NameSet) (pool : Pool) (k : Nat) : List Variable :=
  ((pool.offered k).filter (· ∉ used)).eraseDups

/-- An unused candidate is offered and not in use. -/
theorem mem_unused {used : NameSet} {pool : Pool} {k : Nat} {v : Variable} :
    v ∈ pool.unused used k ↔ v ∈ pool.offered k ∧ v ∉ used := by
  simp [unused]

/-- The unused candidates have no repeats. -/
theorem nodup_unused (used : NameSet) (pool : Pool) (k : Nat) : (pool.unused used k).Nodup :=
  nodup_eraseDups _

/-- No candidates are offered at the start of a pool. -/
@[simp] theorem offered_zero (pool : Pool) : pool.offered 0 = [] := by
  cases pool <;> simp [offered]

/-- Without its first zero candidates a pool is what it was. -/
@[simp] theorem skip_zero (pool : Pool) : pool.skip 0 = pool := by
  cases pool <;> simp [skip]

/-- The beginning of a pool is told by the number of its candidates. -/
theorem offered_length (pool : Pool) (k : Nat) :
    pool.offered (pool.offered k).length = pool.offered k ∧
      pool.skip (pool.offered k).length = pool.skip k := by
  cases pool with
  | listed names =>
    rcases Nat.le_total k names.length with h | h
    · simp [offered, skip, h]
    · simp [offered, skip, List.take_of_length_le h, List.drop_eq_nil_of_le h]
  | counted stem next => simp [offered]

/-- After the first `j` candidates those of the rest of the pool are offered. -/
theorem offered_add (pool : Pool) (j k : Nat) :
    pool.offered (j + k) = pool.offered j ++ (pool.skip j).offered k := by
  cases pool with
  | listed names => exact List.take_add
  | counted stem next =>
    simp only [offered, skip, List.range_add, List.map_append, List.map_map, Function.comp_def]
    push_cast
    simp only [add_assoc]

/-- Candidates may be skipped in two steps. -/
theorem skip_skip (pool : Pool) (j k : Nat) : (pool.skip j).skip k = pool.skip (j + k) := by
  cases pool with
  | listed names => simp [skip]
  | counted stem next => simp [skip, add_assoc]

/-! ### One draw -/

/-- Different numbers give different candidates. -/
theorem numbered_injective (stem : String) : Function.Injective (numbered stem) := by
  intro i j h
  have htext : stem ++ toString i = stem ++ toString j := congrArg Variable.name h
  exact Int.repr_injective (String.append_right_inj _ |>.1 htext)

/-- An endless pool offers no candidate twice. -/
theorem nodup_offered_counted (stem : String) (next : Int) (k : Nat) :
    ((counted stem next).offered k).Nodup := by
  refine List.nodup_range.map fun i j h => ?_
  have := numbered_injective stem h
  omega

/-- The search stops at the first number whose candidate is free. -/
theorem firstFree_spec (stem : String) (taken : List Variable) (i : Int) :
    ∃ k : Nat, firstFree stem taken i = i + k ∧ numbered stem (i + k) ∉ taken ∧
      ∀ j < k, numbered stem (i + (j : Int)) ∈ taken := by
  fun_induction firstFree stem taken i with
  | case1 taken i h ih =>
    obtain ⟨k, hk, hfree, hused⟩ := ih
    have hne (j : Nat) : numbered stem (i + 1 + j) ≠ numbered stem i := fun he => by
      have := numbered_injective stem he
      omega
    refine ⟨k + 1, by rw [hk]; push_cast; ring, fun hmem => hfree ?_, fun j hj => ?_⟩
    · rw [show i + ((k + 1 : Nat) : Int) = i + 1 + k by push_cast; ring] at hmem
      exact (List.mem_erase_of_ne (hne k)).2 hmem
    · cases j with
      | zero => simpa using h
      | succ j =>
        rw [show i + ((j + 1 : Nat) : Int) = i + 1 + j by push_cast; ring]
        exact List.mem_of_mem_erase (hused j (by omega))
  | case2 taken i h => exact ⟨0, by simp, by simpa using h, fun j hj => absurd hj (by omega)⟩

/-- **A draw takes the first candidate that is not in use**, and all candidates
before it are gone. -/
theorem draw_eq_some {used : NameSet} {pool rest : Pool} {v : Variable}
    (h : pool.draw used = (some v, rest)) :
    ∃ k before, pool.offered k = before ++ [v] ∧ (∀ x ∈ before, x ∈ used) ∧ v ∉ used ∧
      rest = pool.skip k := by
  cases pool with
  | listed names =>
    simp only [draw] at h
    split at h
    · simp at h
    · rename_i w ws hw
      obtain ⟨rfl, rfl⟩ : w = v ∧ Pool.listed ws = rest := by simpa using h
      obtain ⟨before, hbefore⟩ : ∃ before, before = names.takeWhile (· ∈ used) := ⟨_, rfl⟩
      have hnames : names = before ++ w :: ws := by
        rw [hbefore, ← hw, List.takeWhile_append_dropWhile]
      refine ⟨before.length + 1, before, ?_, fun x hx => ?_, ?_, ?_⟩
      · rw [offered, hnames, List.take_length_add_append, List.take_one]
        rfl
      · rw [hbefore] at hx
        simpa using List.mem_takeWhile_imp hx
      · have := List.head?_dropWhile_not (· ∈ used) names
        simpa [hw] using this
      · rw [skip, hnames, ← List.drop_drop, List.drop_left]
        rfl
  | counted stem next =>
    obtain ⟨k, hk, hfree, hused⟩ := firstFree_spec stem used.toList next
    simp only [draw, Prod.mk.injEq, Option.some.injEq, hk] at h
    obtain ⟨rfl, rfl⟩ := h
    refine ⟨k + 1, (List.range k).map fun i : Nat => numbered stem (next + i), ?_, ?_, hfree, ?_⟩
    · simp [offered, List.range_succ]
    · intro x hx
      obtain ⟨j, hj, rfl⟩ := List.mem_map.1 hx
      exact hused j (List.mem_range.1 hj)
    · simp [skip, add_assoc]

/-- A draw fails when every candidate of a finite pool is in use, and leaves it
empty. -/
theorem draw_eq_none {used : NameSet} {pool rest : Pool} (h : pool.draw used = (none, rest)) :
    ∃ names, pool = .listed names ∧ (∀ v ∈ names, v ∈ used) ∧ rest = .listed [] := by
  cases pool with
  | listed names =>
    simp only [draw] at h
    split at h
    · rename_i hw
      refine ⟨names, rfl, by simpa using List.dropWhile_eq_nil_iff.1 hw, ?_⟩
      simpa using h.symm
    · simp at h
  | counted stem next => simp [draw] at h

/-- The unused candidates after one that was taken. -/
theorem unused_add {used : NameSet} {pool : Pool} {k : Nat} {before : List Variable} {v : Variable}
    (hk : pool.offered k = before ++ [v]) (hbefore : ∀ x ∈ before, x ∈ used) (hv : v ∉ used)
    (m : Nat) :
    pool.unused used (k + m) = v :: (pool.skip k).unused (used.insert v) m := by
  have hnone : before.filter (· ∉ used) = [] := by simpa using hbefore
  have hfilter (xs : List Variable) :
      (xs.filter (· ∉ used)).filter (fun x => !x == v) = xs.filter (· ∉ used.insert v) := by
    rw [List.filter_filter]
    refine List.filter_congr fun x _ => ?_
    by_cases hx : x = v <;> by_cases hu : x ∈ used <;> simp [hx, hu]
  unfold unused
  rw [offered_add, hk, List.filter_append, List.filter_append, hnone, List.nil_append,
    List.filter_cons_of_pos (by simpa using hv), List.filter_nil, List.singleton_append,
    List.eraseDups_cons, hfilter]

end Pool

namespace Allocator

/-- What one draw does to an allocator. -/
theorem fresh_eq_some {a b : Allocator} {v : Variable} (h : a.fresh = (some v, b)) :
    ∃ k before, a.pool.offered k = before ++ [v] ∧ (∀ x ∈ before, x ∈ a.inUse) ∧ v ∉ a.inUse ∧
      b = ⟨a.inUse.insert v, a.pool.skip k⟩ := by
  unfold fresh at h
  split at h
  · rename_i w pool hdraw
    obtain ⟨k, before, hk, hbefore, hw, rfl⟩ := Pool.draw_eq_some hdraw
    obtain ⟨rfl, rfl⟩ : w = v ∧ _ = b := by simpa using h
    exact ⟨k, before, hk, hbefore, hw, rfl⟩
  · simp at h

/-- When a draw fails, all names of a finite pool are in use. -/
theorem fresh_eq_none {a b : Allocator} (h : a.fresh = (none, b)) :
    ∃ names, a.pool = .listed names ∧ (∀ v ∈ names, v ∈ a.inUse) ∧ b = ⟨a.inUse, .listed []⟩ := by
  unfold fresh at h
  split at h
  · simp at h
  · rename_i pool hdraw
    obtain ⟨names, hnames, hused, rfl⟩ := Pool.draw_eq_none hdraw
    exact ⟨names, hnames, hused, by simpa using h.symm⟩

/-- `a.Looks k`: a draw from `a` looks at the first `k` candidates of the pool and
at no others. The last of them is the first that is not in use, and is handed out;
or they are all that a finite pool has, and there is none to hand out. -/
inductive Looks (a : Allocator) : Nat → Prop where
  | found {before : List Variable} {v : Variable}
      (hoffered : a.pool.offered (before.length + 1) = before ++ [v])
      (hbefore : ∀ x ∈ before, x ∈ a.inUse) (hv : v ∉ a.inUse)
      (hfresh : a.fresh = (some v, ⟨a.inUse.insert v, a.pool.skip (before.length + 1)⟩)) :
      Looks a (before.length + 1)
  | dry {names : List Variable} (hpool : a.pool = .listed names)
      (hused : ∀ v ∈ names, v ∈ a.inUse) (hfresh : a.fresh = (none, ⟨a.inUse, .listed []⟩)) :
      Looks a names.length

/-- **Every draw ends.** It looks at no more candidates than a finite pool has, and
in an endless one at no more than one beyond those in use. -/
theorem exists_looks (a : Allocator) : ∃ k, a.Looks k ∧
    (∀ names, a.pool = .listed names → k ≤ names.length) ∧
    (∀ stem next, a.pool = .counted stem next → k ≤ a.inUse.size + 1) := by
  rcases h : a.fresh with ⟨_ | v, b⟩
  · obtain ⟨names, hpool, hused, rfl⟩ := fresh_eq_none h
    refine ⟨names.length, .dry hpool hused h, fun all hall => ?_, fun stem next hcounted => ?_⟩
    · rw [hpool] at hall
      obtain rfl := Pool.listed.inj hall
      exact le_rfl
    · rw [hpool] at hcounted
      cases hcounted
  · obtain ⟨k, before, hk, hbefore, hv, rfl⟩ := fresh_eq_some h
    obtain ⟨hoffered, hskip⟩ := a.pool.offered_length k
    rw [hk, List.length_append, List.length_singleton] at hoffered hskip
    refine ⟨before.length + 1, .found hoffered hbefore hv (hskip ▸ h), fun names hpool => ?_,
      fun stem next hpool => ?_⟩
    · rw [hpool] at hk
      have hlen := congrArg List.length hk
      rw [Pool.offered, List.length_take, List.length_append, List.length_singleton] at hlen
      exact hlen ▸ Nat.min_le_right _ _
    · -- the candidates passed over are different, and all of them are in use
      rw [hpool] at hk
      have hnodup : (before ++ [v]).Nodup := hk ▸ Pool.nodup_offered_counted stem next k
      have hle : before.length ≤ a.inUse.toList.length :=
        (List.subperm_of_subset (List.nodup_append.1 hnodup).1 hbefore).length_le
      exact Nat.succ_le_succ hle

/-! ### Many draws -/

/-- `a.Supplies vs b`: drawing from `a` hands out `vs`, in this order, and leaves `b`. -/
inductive Supplies : Allocator → List Variable → Allocator → Prop where
  | nil {a : Allocator} : Supplies a [] a
  | cons {a b c : Allocator} {v : Variable} {vs : List Variable} (h : a.fresh = (some v, b))
      (hs : Supplies b vs c) : Supplies a (v :: vs) c

/-- Without a draw the allocator is what it was. -/
theorem Supplies.eq_of_nil {a b : Allocator} (h : a.Supplies [] b) : b = a := by
  cases h
  rfl

/-- One may go on to draw from the allocator that was left. -/
theorem Supplies.append {a b c : Allocator} {vs ws : List Variable} (h : a.Supplies vs b)
    (h' : b.Supplies ws c) : a.Supplies (vs ++ ws) c := by
  induction h with
  | nil => exact h'
  | cons hv _ ih => exact .cons hv (ih h')

/-- **The names handed out** are the different unused candidates of a beginning
of the pool. They are in use from then on, and that beginning is gone. -/
theorem Supplies.exists_unused {a b : Allocator} {vs : List Variable} (h : a.Supplies vs b) :
    ∃ k, a.pool.unused a.inUse k = vs ∧ b = ⟨a.inUse.insertAll vs, a.pool.skip k⟩ := by
  induction h with
  | nil => exact ⟨0, by simp [Pool.unused], by simp [NameSet.insertAll]⟩
  | cons hv _ ih =>
    obtain ⟨k, before, hk, hbefore, hfree, rfl⟩ := fresh_eq_some hv
    obtain ⟨m, hm, rfl⟩ := ih
    refine ⟨k + m, ?_, ?_⟩
    · rw [Pool.unused_add hk hbefore hfree, hm]
    · simp only [Pool.skip_skip]
      rfl

/-- No name is handed out twice. -/
theorem Supplies.nodup {a b : Allocator} {vs : List Variable} (h : a.Supplies vs b) :
    vs.Nodup := by
  obtain ⟨k, rfl, -⟩ := h.exists_unused
  exact Pool.nodup_unused ..

/-- No name that is handed out was in use before. -/
theorem Supplies.not_mem_inUse {a b : Allocator} {vs : List Variable} (h : a.Supplies vs b) :
    ∀ v ∈ vs, v ∉ a.inUse := by
  obtain ⟨k, rfl, -⟩ := h.exists_unused
  exact fun v hv => (Pool.mem_unused.1 hv).2

/-- The names handed out are in use afterwards. -/
theorem Supplies.mem_inUse {a b : Allocator} {vs : List Variable} (h : a.Supplies vs b)
    {v : Variable} : v ∈ b.inUse ↔ v ∈ a.inUse ∨ v ∈ vs := by
  obtain ⟨k, -, rfl⟩ := h.exists_unused
  exact NameSet.mem_insertAll

/-- **When no name is left** after `vs`, the pool is finite and all its names are
in use; `vs` holds every one of them that could be handed out. -/
theorem Supplies.exhausted {a b c : Allocator} {vs : List Variable} (h : a.Supplies vs b)
    (hnone : b.fresh = (none, c)) :
    ∃ names, a.pool = .listed names ∧ c = ⟨a.inUse.insertAll names, .listed []⟩ ∧
      ∀ k, (a.pool.unused a.inUse k).length ≤ vs.length := by
  obtain ⟨k, rfl, rfl⟩ := h.exists_unused
  obtain ⟨left, hleft, hused, rfl⟩ := fresh_eq_none hnone
  rcases a with ⟨used, pool⟩
  cases pool with
  | counted stem next => simp [Pool.skip] at hleft
  | listed names =>
    obtain rfl : names.drop k = left := by simpa [Pool.skip] using hleft
    have hall : ∀ v ∈ names, v ∈ used ∨ v ∈ (Pool.listed names).unused used k := by
      intro v hv
      rw [← List.take_append_drop k names, List.mem_append] at hv
      rcases hv with hv | hv
      · by_cases hu : v ∈ used
        · exact .inl hu
        · exact .inr (Pool.mem_unused.2 ⟨hv, hu⟩)
      · simpa using hused v hv
    refine ⟨names, rfl, ?_, fun m => ?_⟩
    · congr 1
      refine NameSet.ext fun v => ?_
      simp only [NameSet.mem_insertAll, Pool.mem_unused]
      refine ⟨?_, ?_⟩
      · rintro (h | ⟨h, -⟩)
        · exact .inl h
        · exact .inr (List.mem_of_mem_take h)
      · rintro (h | h)
        · exact .inl h
        · exact (hall v h).imp_right Pool.mem_unused.1
    · refine (List.subperm_of_subset (Pool.nodup_unused ..) fun v hv => ?_).length_le
      obtain ⟨hm, hu⟩ := Pool.mem_unused.1 hv
      exact (hall v (List.mem_of_mem_take hm)).resolve_left hu

/-- **How many names are drawn** determines which they are, and what is left. -/
theorem Supplies.eq_of_length {a b c : Allocator} {vs ws : List Variable} (h : a.Supplies vs b)
    (h' : a.Supplies ws c) (hlength : vs.length = ws.length) : vs = ws ∧ b = c := by
  induction h generalizing ws with
  | nil =>
    cases h' with
    | nil => exact ⟨rfl, rfl⟩
    | cons => cases hlength
  | cons hv _ ih =>
    cases h' with
    | nil => cases hlength
    | cons hw hs' =>
      rw [hv] at hw
      obtain ⟨hvw, rfl⟩ := Prod.mk.inj hw
      obtain rfl := Option.some.inj hvw
      obtain ⟨rfl, rfl⟩ := ih hs' (Nat.succ.inj hlength)
      exact ⟨rfl, rfl⟩

/-- An allocator without further names is the same, whenever they run out. -/
theorem Supplies.eq_of_exhausted {a b b' c c' : Allocator} {vs ws : List Variable}
    (h : a.Supplies vs b) (hnone : b.fresh = (none, c)) (h' : a.Supplies ws b')
    (hnone' : b'.fresh = (none, c')) : c = c' := by
  obtain ⟨names, hpool, rfl, -⟩ := h.exhausted hnone
  obtain ⟨names', hpool', rfl, -⟩ := h'.exhausted hnone'
  rw [hpool] at hpool'
  obtain rfl := Pool.listed.inj hpool'
  rfl

/-- Drawing `n` times hands out `n` names or runs dry before. -/
theorem supplies_or_exhausted (a : Allocator) (n : Nat) :
    (∃ vs b, vs.length = n ∧ a.Supplies vs b) ∨
      ∃ vs b c, vs.length < n ∧ a.Supplies vs b ∧ b.fresh = (none, c) := by
  induction n generalizing a with
  | zero => exact .inl ⟨[], a, rfl, .nil⟩
  | succ n ih =>
    rcases h : a.fresh with ⟨_ | v, b⟩
    · exact .inr ⟨[], a, b, Nat.succ_pos n, .nil, h⟩
    · rcases ih b with ⟨vs, c, hn, hs⟩ | ⟨vs, c, d, hn, hs, hd⟩
      · exact .inl ⟨v :: vs, c, by simp [hn], .cons h hs⟩
      · exact .inr ⟨v :: vs, c, d, by simpa using hn, .cons h hs, hd⟩

end Allocator
end ContextFree
