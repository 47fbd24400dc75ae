/-
# The groups that a conversion meets

A conversion walks over the `surface` of a production: all of its nodes but
those in the body of a `*`. It meets the groups repeated there, and no others.
The groups of a production are then those that it meets, those that they meet,
and so on: a set of groups that holds what the production meets and what each of
its members meets holds all groups of the production
(`groups_subset_of_closed`). So it is enough to look at what is met, also to see
that a tree is extended throughout (`within_extended_iff`) or that two helper
maps give the same plain form (`replace_congr`).
-/

import ContextFree.Conversion.Group
import ContextFree.Proofs.Production.Dialect

namespace ContextFree
namespace Production

mutual

/-- The nodes that a conversion walks over, in reading order. -/
def surface : Production → List Production
  | .epsilon d => [.epsilon d]
  | .terminal d t => [.terminal d t]
  | .reference d v => [.reference d v]
  | .optional d c => .optional d c :: surface c
  | .join d op cs => .join d op cs :: surfaceAll cs
  | .star c => [.star c]
  | .plus c => .plus c :: surface c

/-- The nodes that a conversion of several siblings walks over. -/
def surfaceAll : List Production → List Production
  | [] => []
  | c :: cs => surface c ++ surfaceAll cs

end

/-- Over siblings a conversion walks in turn. -/
theorem surfaceAll_eq (cs : List Production) : surfaceAll cs = cs.flatMap surface := by
  induction cs with
  | nil => rfl
  | cons c cs ih => simp [surfaceAll, ih]

/-- The conversion walks over extended nodes only. -/
def Open (p : Production) : Prop :=
  ∀ q ∈ p.surface, q.dialect = .extended

/-- The empty production is open in the extended dialect. -/
@[simp] theorem open_epsilon {d : Dialect} : Open (.epsilon d) ↔ d = .extended := by
  simp [Open, surface, dialect]

/-- So is a terminal. -/
@[simp] theorem open_terminal {d : Dialect} {t : Terminal} :
    Open (.terminal d t) ↔ d = .extended := by
  simp [Open, surface, dialect]

/-- So is a variable. -/
@[simp] theorem open_reference {d : Dialect} {v : Variable} :
    Open (.reference d v) ↔ d = .extended := by
  simp [Open, surface, dialect]

/-- An optional part is open if it is extended and its child is open. -/
@[simp] theorem open_optional {d : Dialect} {c : Production} :
    Open (.optional d c) ↔ d = .extended ∧ Open c := by
  simp [Open, surface, dialect]

/-- A join is open if it is extended and all of its children are open. -/
@[simp] theorem open_join {d : Dialect} {op : Connective} {cs : List Production} :
    Open (.join d op cs) ↔ d = .extended ∧ ∀ c ∈ cs, Open c := by
  simp only [Open, surface, surfaceAll_eq, List.mem_cons, forall_eq_or_imp, List.mem_flatMap,
    dialect, and_congr_right_iff]
  intro _
  constructor
  · exact fun h c hc q hq => h q ⟨c, hc, hq⟩
  · rintro h q ⟨c, hc, hq⟩
    exact h c hc q hq

/-- A repetition is open, whatever stands in it: a conversion does not walk into the group. -/
@[simp] theorem open_star (c : Production) : Open (.star c) := by
  simp [Open, surface, dialect]

/-- An `X+` is open if `X` is, since the conversion walks over `X X*` instead. -/
@[simp] theorem open_plus {c : Production} : Open (.plus c) ↔ Open c := by
  simp [Open, surface, dialect]

/-! ### Groups met and groups below -/

/-- A join meets what its children do. -/
@[simp] theorem met_join (d : Dialect) (op : Connective) (cs : List Production) :
    (join d op cs).met = cs.flatMap met :=
  metAll_eq cs

/-- **The groups met** are those repeated on the surface. -/
theorem mem_met {p c : Production} :
    c ∈ p.met ↔ .star c ∈ p.surface ∨ .plus c ∈ p.surface := by
  induction p using induction with
  | epsilon d | terminal d _ | reference d _ => simp [met, surface]
  | optional d q ih => simp [met, surface, ih]
  | join d op cs ih =>
    simp only [met_join, surface, surfaceAll_eq, List.mem_cons, List.mem_flatMap, reduceCtorEq,
      false_or, ← exists_or, ← and_or_left]
    exact exists_congr fun q => and_congr_right fun hq => ih q hq
  | star q => simp [met, surface]
  | plus q ih =>
    simp only [met, surface, ih, List.mem_append, List.mem_cons, List.not_mem_nil, or_false,
      reduceCtorEq, false_or, Production.plus.injEq]
    exact or_assoc.trans (or_congr_right or_comm)

/-- A helper rule meets what the group it repeats meets. -/
@[simp] theorem met_helperRule (c : Production) (v : Variable) : (helperRule c v).met = c.met := by
  simp [helperRule, met, metAll_eq]

/-- **A tree is extended throughout** exactly when its surface is and every group
it meets is. -/
theorem within_extended_iff {p : Production} :
    Within .extended p ↔ Open p ∧ ∀ c ∈ p.met, Within .extended c := by
  induction p using induction with
  | epsilon d | terminal d _ | reference d _ => simp [met]
  | optional d c ih => simp [met, ih, and_assoc]
  | join d op cs ih =>
    simp only [within_join, open_join, met_join, List.mem_flatMap, and_assoc, and_congr_right_iff]
    intro _
    constructor
    · intro h
      refine ⟨fun c hc => ((ih c hc).1 (h c hc)).1, ?_⟩
      rintro x ⟨c, hc, hx⟩
      exact ((ih c hc).1 (h c hc)).2 x hx
    · rintro ⟨h₁, h₂⟩ c hc
      exact (ih c hc).2 ⟨h₁ c hc, fun x hx => h₂ x ⟨c, hc, hx⟩⟩
  | star c => simp [met]
  | plus c ih =>
    simp only [within_plus, open_plus, met, List.mem_append, List.mem_singleton, true_and]
    constructor
    · intro h
      refine ⟨(ih.1 h).1, fun x hx => ?_⟩
      rcases hx with hx | rfl
      · exact (ih.1 h).2 x hx
      · exact h
    · rintro ⟨-, h⟩
      exact h c (.inr rfl)

/-- Groups that are met occur in the production. -/
theorem met_subset_groups (p : Production) : p.met ⊆ p.groups := by
  induction p using induction with
  | epsilon d | terminal d _ | reference d _ => exact List.nil_subset _
  | optional d c ih => exact ih
  | join d op cs ih =>
    intro x hx
    rw [met_join, List.mem_flatMap] at hx
    obtain ⟨c, hc, hx⟩ := hx
    rw [groups_join, List.mem_flatMap]
    exact ⟨c, hc, ih c hc hx⟩
  | star c => simp [met]
  | plus c ih =>
    intro x hx
    rcases List.mem_append.1 hx with hx | hx
    · exact List.mem_cons_of_mem c (ih hx)
    · rw [List.mem_singleton.1 hx]
      exact List.mem_cons_self

/-- A group is followed by its own groups, those of the production as well. -/
theorem cons_groups_sublist {p c : Production} (hc : c ∈ p.groups) :
    (c :: c.groups).Sublist p.groups := by
  induction p using induction with
  | epsilon d | terminal d _ | reference d _ => exact absurd hc List.not_mem_nil
  | optional d q ih => exact ih hc
  | join d op cs ih =>
    rw [groups_join, List.mem_flatMap] at hc
    obtain ⟨q, hq, hc⟩ := hc
    rw [groups_join]
    exact (ih q hq hc).trans (List.sublist_flatten_of_mem (List.mem_map_of_mem hq))
  | star q ih | plus q ih =>
    rcases List.mem_cons.1 hc with rfl | hc
    · exact List.Sublist.refl _
    · exact (ih hc).cons q

/-- The groups of a group belong to the production as well. -/
theorem groups_trans {p c : Production} (hc : c ∈ p.groups) : c.groups ⊆ p.groups :=
  List.Subset.trans (List.subset_cons_self c _) (cons_groups_sublist hc).subset

/-- The groups of a tree of one dialect are of this dialect as well. -/
theorem Within.of_mem_groups {d : Dialect} {p c : Production} (h : Within d p)
    (hc : c ∈ p.groups) : Within d c := by
  induction p using induction with
  | epsilon e | terminal e _ | reference e _ => exact absurd hc List.not_mem_nil
  | optional e q ih => exact ih (within_optional.1 h).2 hc
  | join e op cs ih =>
    rw [groups_join, List.mem_flatMap] at hc
    obtain ⟨q, hq, hc⟩ := hc
    exact ih q hq ((within_join.1 h).2 q hq) hc
  | star q ih =>
    have hq := (within_star.1 h).2
    exact (List.mem_cons.1 hc).elim (fun he => he ▸ hq) (ih hq)
  | plus q ih =>
    have hq := (within_plus.1 h).2
    exact (List.mem_cons.1 hc).elim (fun he => he ▸ hq) (ih hq)

/-- **All groups are reached from those met:** a set that holds what the
production meets, and with each member what that meets, holds every group. -/
theorem groups_subset_of_closed {gs : List Production} (hclosed : ∀ c ∈ gs, c.met ⊆ gs)
    {p : Production} (hp : p.met ⊆ gs) : p.groups ⊆ gs := by
  induction p using induction with
  | epsilon d | terminal d _ | reference d _ => exact List.nil_subset _
  | optional d c ih => exact ih hp
  | join d op cs ih =>
    intro x hx
    rw [groups_join, List.mem_flatMap] at hx
    obtain ⟨c, hc, hx⟩ := hx
    refine ih c hc (fun y hy => hp ?_) hx
    rw [met_join, List.mem_flatMap]
    exact ⟨c, hc, hy⟩
  | star c ih =>
    have hc : c ∈ gs := hp List.mem_cons_self
    exact List.cons_subset.2 ⟨hc, ih (hclosed c hc)⟩
  | plus c ih =>
    have hc : c ∈ gs := hp (List.mem_append_right _ List.mem_cons_self)
    exact List.cons_subset.2 ⟨hc, ih (hclosed c hc)⟩

/-! ### The plain form -/

/-- The plain form of a join joins those of its children. -/
@[simp] theorem replace_join (helper : Production → Variable) (d : Dialect) (op : Connective)
    (cs : List Production) :
    (join d op cs).replace helper = .join .plain op (cs.map (replace helper)) := by
  rw [replace, replaceAll_eq]

/-- The plain form depends only on the helpers of the groups met. -/
theorem replace_congr {h k : Production → Variable} {p : Production} (heq : ∀ c ∈ p.met, h c = k c) :
    p.replace h = p.replace k := by
  induction p using induction with
  | epsilon d | terminal d _ | reference d _ => rfl
  | optional d c ih => rw [replace, replace, ih heq]
  | join d op cs ih =>
    rw [replace_join, replace_join]
    congr 1
    refine List.map_congr_left fun c hc => ih c hc fun x hx => heq x ?_
    rw [met_join, List.mem_flatMap]
    exact ⟨c, hc, hx⟩
  | star c => rw [replace, replace, heq c List.mem_cons_self]
  | plus c ih =>
    rw [replace, replace, ih fun x hx => heq x (List.mem_append_left _ hx),
      heq c (List.mem_append_right _ List.mem_cons_self)]

/-- The plain form of a helper rule. -/
theorem replace_helperRule (helper : Production → Variable) (c : Production) (v : Variable) :
    (helperRule c v).replace helper = plainHelperRule (c.replace helper) v := rfl

/-- A plain form is plain throughout. -/
theorem within_replace (helper : Production → Variable) (p : Production) :
    Within .plain (p.replace helper) := by
  induction p using induction with
  | epsilon d | terminal d _ | reference d _ => simp [replace]
  | optional d c ih => simp [replace, ih]
  | join d op cs ih => simpa using ih
  | star c => simp [replace]
  | plus c ih => simp [replace, ih]

end Production

namespace Grammar

variable {g : Grammar} {p c d : Production}

/-- A group that a rule meets is one of the grammar. -/
theorem mem_groups_of_met (hp : p ∈ g.rules.values) (hc : c ∈ p.met) : c ∈ g.groups :=
  List.mem_flatMap.2 ⟨p, hp, Production.met_subset_groups p hc⟩

/-- So is a group that a group of the grammar meets. -/
theorem mem_groups_of_met_group (hd : d ∈ g.groups) (hc : c ∈ d.met) : c ∈ g.groups := by
  obtain ⟨p, hp, hdp⟩ := List.mem_flatMap.1 hd
  exact List.mem_flatMap.2
    ⟨p, hp, Production.groups_trans hdp (Production.met_subset_groups d hc)⟩

end Grammar
end ContextFree
