/-
# Runs that draw names

A run that takes names changes the allocator only by drawing from it, also when
it faults. `a.Fails vs f b` says that drawing from `a` handed out `vs` before the
fault `f` left the allocator `b`. There are three such faults: no name is left,
which takes one more draw that finds none, or a node of the other dialect was to
be shown, or to be counted.

With or without a fault, the names handed out are different, they were not in use
and are from then on, and they stand in the order of the pool (`Allocator.Draws`).
-/

import ContextFree.Fault
import ContextFree.Proofs.Naming.Supply

namespace ContextFree

/-- The faults that would be mistakes of the library itself: two helpers for one
group, a helper rule that is no smaller than its group, two rules for one
variable. -/
def Fault.Internal : Fault → Prop
  | .replacerConflict _ _ _ => True
  | .notReduced => True
  | .repeatedRule _ => True
  | _ => False

namespace Allocator

variable {a b c : Allocator} {us vs ws : List Variable} {f : Fault}

/-! ### What drawing does to an allocator -/

/-- The names `vs` were handed out on the way from the allocator `a` to `b`. -/
structure Draws (a : Allocator) (vs : List Variable) (b : Allocator) : Prop where
  nodup : vs.Nodup
  /-- None of them was in use. -/
  unused : ∀ v ∈ vs, v ∉ a.inUse
  /-- They are in use now, and nothing else came into use. -/
  mem_inUse : ∀ v, v ∈ b.inUse ↔ v ∈ a.inUse ∨ v ∈ vs
  /-- They stand in the order of the candidates that are gone. -/
  sublist : ∃ k, vs.Sublist (a.pool.offered k) ∧ b.pool = a.pool.skip k

/-- Names are handed out in the order of the candidates that are gone from the pool. -/
theorem Supplies.sublist (h : a.Supplies vs b) :
    ∃ k, vs.Sublist (a.pool.offered k) ∧ b.pool = a.pool.skip k := by
  induction h with
  | @nil a => exact ⟨0, List.nil_sublist _, a.pool.skip_zero.symm⟩
  | @cons a b c v vs hv _ ih =>
    obtain ⟨k, before, hk, -, -, rfl⟩ := fresh_eq_some hv
    obtain ⟨m, hm, hc⟩ := ih
    refine ⟨k + m, ?_, by rw [hc, Pool.skip_skip]⟩
    rw [Pool.offered_add, hk, ← List.singleton_append]
    exact (List.sublist_append_right before [v]).append hm

/-- Names that are drawn one after another were handed out on the way. -/
theorem Supplies.draws (h : a.Supplies vs b) : a.Draws vs b :=
  ⟨h.nodup, h.not_mem_inUse, fun _ => h.mem_inUse, h.sublist⟩

/-- **The names handed out are determined** by what is in use before and after. -/
theorem Supplies.unique (h : a.Supplies vs b) (h' : a.Supplies ws c)
    (hused : ∀ v, v ∈ b.inUse ↔ v ∈ c.inUse) : vs = ws := by
  have hmore {a c : Allocator} {v : Variable} {vs : List Variable} (h : a.Supplies (v :: vs) c) :
      ¬ ∀ x, x ∈ a.inUse ↔ x ∈ c.inUse := fun hsame =>
    h.not_mem_inUse v List.mem_cons_self ((hsame v).2 (h.mem_inUse.2 (.inr List.mem_cons_self)))
  induction h generalizing ws with
  | nil =>
    cases ws with
    | nil => rfl
    | cons w ws => exact absurd hused (hmore h')
  | cons hv hs ih =>
    cases h' with
    | nil => exact absurd (fun x => (hused x).symm) (hmore (.cons hv hs))
    | cons hw hs' =>
      rw [hv] at hw
      obtain ⟨hvw, rfl⟩ := Prod.mk.inj hw
      obtain rfl := Option.some.inj hvw
      rw [ih hs' hused]

/-! ### Faults -/

/-- `a.Fails vs f b`: after `vs` were drawn from `a`, the fault `f` left `b`. -/
inductive Fails (a : Allocator) (vs : List Variable) : Fault → Allocator → Prop where
  | exhausted {b c : Allocator} (h : a.Supplies vs b) (hnone : b.fresh = (none, c)) :
      Fails a vs (.poolExhausted c.inUse.size) c
  | foreignNode {b : Allocator} {q : Production} (h : a.Supplies vs b) :
      Fails a vs (.foreignNode q) b
  | uncountable {b : Allocator} (h : a.Supplies vs b) : Fails a vs .uncountable b

/-- What was drawn before counts as well. -/
theorem Supplies.fails (h : a.Supplies us b) (hf : b.Fails vs f c) : a.Fails (us ++ vs) f c := by
  cases hf with
  | exhausted hs hnone => exact .exhausted (h.append hs) hnone
  | foreignNode hs => exact .foreignNode (h.append hs)
  | uncountable hs => exact .uncountable (h.append hs)

/-- **None of these faults is internal.** -/
theorem Fails.not_internal (h : a.Fails vs f b) : ¬ f.Internal := by
  cases h <;> exact not_false

/-- A fault leaves the names in use that are in use after the last draw. -/
theorem Fails.exists_supplies (h : a.Fails vs f c) : ∃ b, a.Supplies vs b ∧ c.inUse = b.inUse := by
  cases h with
  | @exhausted b c hs hnone =>
    obtain ⟨names, -, -, rfl⟩ := fresh_eq_none hnone
    exact ⟨b, hs, rfl⟩
  | foreignNode hs => exact ⟨c, hs, rfl⟩
  | uncountable hs => exact ⟨c, hs, rfl⟩

/-- A draw that finds no name left empties the pool. -/
theorem Fails.sublist (h : a.Fails vs f c) :
    ∃ k, vs.Sublist (a.pool.offered k) ∧ c.pool = a.pool.skip k := by
  cases h with
  | exhausted hs hnone =>
    obtain ⟨names, hb, -, rfl⟩ := fresh_eq_none hnone
    obtain ⟨k, hk, hpool⟩ := hs.sublist
    rw [hb] at hpool
    rcases a with ⟨used, all | ⟨stem, next⟩⟩
    · refine ⟨all.length, ?_, ?_⟩
      · rw [Pool.offered, List.take_length]
        exact hk.trans (List.take_sublist k all)
      · rw [Pool.skip, List.drop_length]
    · cases hpool
  | foreignNode hs => exact hs.sublist
  | uncountable hs => exact hs.sublist

/-- **A run that faults** does nothing more to the allocator than one that does not. -/
theorem Fails.draws (h : a.Fails vs f c) : a.Draws vs c := by
  obtain ⟨b, hs, hused⟩ := h.exists_supplies
  exact ⟨hs.nodup, hs.not_mem_inUse, fun v => by rw [hused, hs.mem_inUse], h.sublist⟩

end Allocator
end ContextFree
