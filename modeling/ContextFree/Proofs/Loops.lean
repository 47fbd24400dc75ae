/-
# Loops that may fault

A loop over a list goes on as long as no step faults. The lemmas here say when
it comes to its end, and what holds there: for a loop that computes one value
for each entry (`exists_mapM`, `forall₂_of_mapM`, `mapM_map_eq_some`), for a loop
that counts up (`exists_foldlM_range'`), for a loop that checks its entries, whatever
its state (`exists_foldlM_iff`, `foldlM_eq_error_iff`), and for a loop that is known to
have ended (`foldlM_invariant`).

A loop often meets a value again. What is left of its values when the repeats are struck
out grows as the list does (`eraseDups_concat`).
-/

import Mathlib.Data.List.Forall2

namespace ContextFree

section

variable {α β ε : Type}

/-- Two steps that may fault succeed exactly when each of them does. -/
theorem bind_eq_ok_iff {x : Except ε α} {f : α → Except ε β} {b : β} :
    x >>= f = .ok b ↔ ∃ a, x = .ok a ∧ f a = .ok b := by
  cases x with
  | error e =>
    constructor
    · exact nofun
    · rintro ⟨_, ⟨⟩, -⟩
  | ok a =>
    constructor
    · exact fun h => ⟨a, rfl, h⟩
    · rintro ⟨_, ⟨⟩, h⟩
      exact h

/-- What does not succeed faults. -/
theorem exists_error_iff {x : Except ε α} : (∃ e, x = .error e) ↔ ¬ ∃ a, x = .ok a := by
  cases x <;> simp

/-- A loop that computes a value for each entry ends if no entry faults. -/
theorem exists_mapM {f : α → Except ε β} {R : α → β → Prop} {xs : List α}
    (h : ∀ x ∈ xs, ∃ y, f x = .ok y ∧ R x y) :
    ∃ ys, xs.mapM f = .ok ys ∧ List.Forall₂ R xs ys := by
  induction xs with
  | nil => exact ⟨[], rfl, .nil⟩
  | cons x xs ih =>
    obtain ⟨y, hy, hxy⟩ := h x List.mem_cons_self
    obtain ⟨ys, hys, hrest⟩ := ih fun z hz => h z (List.mem_cons_of_mem x hz)
    refine ⟨y :: ys, ?_, .cons hxy hrest⟩
    rw [List.mapM_cons, hy, hys]
    rfl

/-- What such a loop has computed are the values for its entries. -/
theorem forall₂_of_mapM {f : α → Except ε β} {xs : List α} {ys : List β}
    (h : xs.mapM f = .ok ys) : List.Forall₂ (fun x y => f x = .ok y) xs ys := by
  induction xs generalizing ys with
  | nil =>
    cases h
    exact .nil
  | cons x xs ih =>
    rw [List.mapM_cons] at h
    obtain ⟨y, hy, h⟩ := bind_eq_ok_iff.1 h
    obtain ⟨rest, hrest, h⟩ := bind_eq_ok_iff.1 h
    cases h
    exact .cons hy (ih hrest)

/-- It ends exactly if no entry faults. -/
theorem exists_mapM_iff {f : α → Except ε β} {xs : List α} :
    (∃ ys, xs.mapM f = .ok ys) ↔ ∀ x ∈ xs, ∃ y, f x = .ok y := by
  constructor
  · rintro ⟨ys, h⟩
    have hall := forall₂_of_mapM h
    clear h
    induction hall with
    | nil => exact nofun
    | cons hx _ ih => exact List.forall_mem_cons.2 ⟨⟨_, hx⟩, ih⟩
  · intro h
    obtain ⟨ys, hys, -⟩ := exists_mapM fun x hx => (h x hx).imp fun _ hy => ⟨hy, trivial⟩
    exact ⟨ys, hys⟩

/-- Such a loop ends exactly with the values for its entries, -/
theorem mapM_eq_ok_iff {f : α → Except ε β} {xs : List α} {ys : List β} :
    xs.mapM f = .ok ys ↔ List.Forall₂ (fun x y => f x = .ok y) xs ys := by
  refine ⟨forall₂_of_mapM, fun h => ?_⟩
  induction h with
  | nil => rfl
  | cons hx _ ih =>
    rw [List.mapM_cons, hx, ih]
    rfl

/-- **and it faults at its first entry that has none.** -/
theorem mapM_eq_error_iff {f : α → Except ε β} {xs : List α} {e : ε} :
    xs.mapM f = .error e ↔ ∃ before x after, xs = before ++ x :: after ∧
      (∀ y ∈ before, ∃ z, f y = .ok z) ∧ f x = .error e := by
  constructor
  · intro h
    induction xs with
    | nil => cases h
    | cons x xs ih =>
      rw [List.mapM_cons] at h
      cases hx : f x with
      | error =>
        rw [hx] at h
        cases h
        exact ⟨[], x, xs, rfl, nofun, hx⟩
      | ok z =>
        rw [hx] at h
        cases hxs : xs.mapM f with
        | ok zs =>
          rw [hxs] at h
          cases h
        | error =>
          rw [hxs] at h
          cases h
          obtain ⟨before, y, after, rfl, hbefore, hy⟩ := ih hxs
          exact ⟨x :: before, y, after, rfl, List.forall_mem_cons.2 ⟨⟨z, hx⟩, hbefore⟩, hy⟩
  · rintro ⟨before, x, after, rfl, hbefore, hx⟩
    obtain ⟨zs, hzs⟩ := exists_mapM_iff.2 hbefore
    rw [List.mapM_append, hzs, List.mapM_cons, hx]
    rfl

/-- Loops that compute the same value for each entry are the same. -/
theorem mapM_congr {f g : α → Except ε β} {xs : List α} (h : ∀ x ∈ xs, f x = g x) :
    xs.mapM f = xs.mapM g := by
  induction xs with
  | nil => rfl
  | cons x xs ih =>
    rw [List.mapM_cons, List.mapM_cons, h x List.mem_cons_self,
      ih fun y hy => h y (List.mem_cons_of_mem x hy)]

/-- A loop that may find no value finds them all if none is missing. -/
theorem mapM_map_eq_some {γ : Type} {f : β → Option γ} {a : α → β} {b : α → γ} {xs : List α}
    (h : ∀ x ∈ xs, f (a x) = some (b x)) : (xs.map a).mapM f = some (xs.map b) := by
  induction xs with
  | nil => rfl
  | cons x xs ih =>
    rw [List.map_cons, List.mapM_cons, h x List.mem_cons_self,
      ih fun y hy => h y (List.mem_cons_of_mem x hy)]
    rfl

/-- **A loop that counts up** ends if every step goes on from what holds before it. -/
theorem exists_foldlM_range' {f : β → Nat → Except ε β} {I : Nat → β → Prop} {start count : Nat}
    {b : β} (hb : I 0 b)
    (hstep : ∀ k < count, ∀ b, I k b → ∃ b', f b (start + k) = .ok b' ∧ I (k + 1) b') :
    ∃ b', (List.range' start count).foldlM f b = .ok b' ∧ I count b' := by
  induction count with
  | zero => exact ⟨b, rfl, hb⟩
  | succ count ih =>
    obtain ⟨c, hc, hIc⟩ := ih fun k hk => hstep k (Nat.lt_succ_of_lt hk)
    obtain ⟨d, hd, hId⟩ := hstep count (Nat.lt_succ_self count) c hIc
    refine ⟨d, ?_, hId⟩
    rw [List.range'_concat, List.foldlM_append, hc, Nat.one_mul]
    show List.foldlM f c [start + count] = _
    rw [List.foldlM_cons, hd]
    rfl

section checks

/-! A loop checks its entries if whether a step faults, and how, is up to the entry and
not to the state in which the loop comes to it. -/

variable {f : β → α → Except ε β} {good : α → Prop} {Faults : α → ε → Prop}

/-- A loop that checks its entries ends exactly when all of them are good. -/
theorem exists_foldlM_iff (hgood : ∀ b x, (∃ b', f b x = .ok b') ↔ good x) {xs : List α} {b : β} :
    (∃ b', xs.foldlM f b = .ok b') ↔ ∀ x ∈ xs, good x := by
  induction xs generalizing b with
  | nil => exact ⟨fun _ => nofun, fun _ => ⟨b, rfl⟩⟩
  | cons x xs ih =>
    rw [List.foldlM_cons, List.forall_mem_cons, ← hgood b x]
    constructor
    · rintro ⟨b', h⟩
      obtain ⟨c, hc, hrest⟩ := bind_eq_ok_iff.1 h
      exact ⟨⟨c, hc⟩, ih.1 ⟨b', hrest⟩⟩
    · rintro ⟨⟨c, hc⟩, hxs⟩
      obtain ⟨b', hrest⟩ := ih.2 hxs
      exact ⟨b', bind_eq_ok_iff.2 ⟨c, hc, hrest⟩⟩

/-- **It faults at its first entry that is not good.** -/
theorem foldlM_eq_error_iff (hgood : ∀ b x, (∃ b', f b x = .ok b') ↔ good x)
    (hfaults : ∀ b x e, f b x = .error e ↔ Faults x e) {xs : List α} {b : β} {e : ε} :
    xs.foldlM f b = .error e ↔
      ∃ before x after, xs = before ++ x :: after ∧ (∀ y ∈ before, good y) ∧ Faults x e := by
  constructor
  · intro h
    induction xs generalizing b with
    | nil => cases h
    | cons x xs ih =>
      rw [List.foldlM_cons] at h
      cases hx : f b x with
      | error =>
        rw [hx] at h
        cases h
        exact ⟨[], x, xs, rfl, nofun, (hfaults b x e).1 hx⟩
      | ok c =>
        rw [hx] at h
        obtain ⟨before, y, after, rfl, hbefore, hy⟩ := ih h
        have hx' : good x := (hgood b x).1 ⟨c, hx⟩
        exact ⟨x :: before, y, after, rfl, List.forall_mem_cons.2 ⟨hx', hbefore⟩, hy⟩
  · rintro ⟨before, x, after, rfl, hbefore, hx⟩
    obtain ⟨c, hc⟩ := (exists_foldlM_iff hgood (b := b)).2 hbefore
    rw [List.foldlM_append, hc]
    show List.foldlM f c (x :: after) = _
    rw [List.foldlM_cons, (hfaults c x e).2 hx]
    rfl

end checks

/-- **What every step keeps holds at the end:** `I` speaks about the entries that
the loop has dealt with. -/
theorem foldlM_invariant {f : β → α → Except ε β} (I : List α → β → Prop) {xs : List α} {b b' : β}
    (hb : I [] b) (hstep : ∀ done x b b', I done b → f b x = .ok b' → I (done ++ [x]) b')
    (h : xs.foldlM f b = .ok b') : I xs b' := by
  suffices hrest : ∀ (rest done : List α) (b : β), I done b → rest.foldlM f b = .ok b' →
      I (done ++ rest) b' from hrest xs [] b hb h
  intro rest
  induction rest with
  | nil =>
    intro done b hb h
    cases h
    rwa [List.append_nil]
  | cons x rest ih =>
    intro done b hb h
    rw [List.foldlM_cons] at h
    obtain ⟨c, hc, h⟩ := bind_eq_ok_iff.1 h
    have := ih (done ++ [x]) c (hstep done x b c hb hc) h
    rwa [List.append_assoc] at this

end

/-- A value at the end is struck out if it stands before. -/
theorem eraseDups_concat {α : Type} [DecidableEq α] (xs : List α) (x : α) :
    (xs ++ [x]).eraseDups = if x ∈ xs then xs.eraseDups else xs.eraseDups ++ [x] := by
  rw [List.eraseDups_append, List.removeAll]
  by_cases hx : x ∈ xs <;> simp [hx, List.eraseDups_cons]

end ContextFree
