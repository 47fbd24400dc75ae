/-
# Trees that stay in one dialect

Showing a production and counting its repetitions are defined on trees that are
wholly in one dialect. `within_optional`, `within_join`, `within_star` and
`within_plus` say node by node when a tree is; the main statements are that such
trees are the ones that can be shown (`exists_render_iff`), that any other is
faulted for its first foreign node (`render_eq_error_iff`), and that the
repetitions of a tree can be counted exactly when it is extended throughout, one
for every group (`repetitionCount_eq`).
-/

import ContextFree.Production.Display
import ContextFree.Production.Nodes
import ContextFree.Conversion.Plain
import ContextFree.Proofs.Loops

namespace ContextFree
namespace Production

/-! ### The dialect of a tree, node by node -/

/-- The empty production is within its own dialect. -/
@[simp] theorem within_epsilon {d e : Dialect} : Within d (.epsilon e) ↔ e = d := by
  simp [Within, nodes, dialect]

/-- A terminal is within its own dialect. -/
@[simp] theorem within_terminal {d e : Dialect} {t : Terminal} :
    Within d (.terminal e t) ↔ e = d := by
  simp [Within, nodes, dialect]

/-- A variable is within its own dialect. -/
@[simp] theorem within_reference {d e : Dialect} {v : Variable} :
    Within d (.reference e v) ↔ e = d := by
  simp [Within, nodes, dialect]

/-- An optional part is within a dialect if it is of that one and its child is within it. -/
@[simp] theorem within_optional {d e : Dialect} {c : Production} :
    Within d (.optional e c) ↔ e = d ∧ Within d c := by
  simp [Within, nodes, dialect]

/-- A join is within a dialect if it is of that one and its children are within it. -/
@[simp] theorem within_join {d e : Dialect} {op : Connective} {cs : List Production} :
    Within d (.join e op cs) ↔ e = d ∧ ∀ c ∈ cs, Within d c := by
  simp only [Within, nodes, nodesAll_eq, List.mem_cons, forall_eq_or_imp, List.mem_flatMap,
    dialect, and_congr_right_iff]
  intro _
  constructor
  · exact fun h c hc q hq => h q ⟨c, hc, hq⟩
  · rintro h q ⟨c, hc, hq⟩
    exact h c hc q hq

/-- A repetition is within the extended dialect only. -/
@[simp] theorem within_star {d : Dialect} {c : Production} :
    Within d (.star c) ↔ .extended = d ∧ Within d c := by
  simp [Within, nodes, dialect]

/-- So is a repetition of at least once. -/
@[simp] theorem within_plus {d : Dialect} {c : Production} :
    Within d (.plus c) ↔ .extended = d ∧ Within d c := by
  simp [Within, nodes, dialect]

/-- The outermost node is of the dialect of the tree. -/
theorem Within.dialect_eq {d : Dialect} {p : Production} (h : Within d p) : p.dialect = d :=
  h p (mem_nodes_self p)

/-- A helper rule is extended throughout when the group it repeats is. -/
@[simp] theorem within_helperRule {c : Production} {v : Variable} :
    Within .extended (helperRule c v) ↔ Within .extended c := by
  simp [helperRule]

/-! ### Showing a production -/

/-- **A tree of one dialect can be shown.** -/
theorem exists_render {d : Dialect} {p : Production} (h : Within d p) :
    ∃ t, p.render d = .ok t := by
  have hd := h.dialect_eq
  induction p using induction with
  | epsilon e | terminal e _ | reference e _ => exact ⟨_, by rw [render, if_pos hd]⟩
  | optional e c ih =>
    have hc := (within_optional.1 h).2
    obtain ⟨t, ht⟩ := ih hc hc.dialect_eq
    exact ⟨t ++ "?", by rw [render, if_pos hd, ht]; rfl⟩
  | join e op cs ih =>
    have hcs := (within_join.1 h).2
    obtain ⟨ts, hts, -⟩ := exists_mapM fun c hc =>
      (ih c hc (hcs c hc) (hcs c hc).dialect_eq).imp fun _ ht => ⟨ht, trivial⟩
    exact ⟨op.separator.intercalate ts, by rw [render, if_pos hd, renderAll_eq, hts]; rfl⟩
  | star c ih =>
    have hc := (within_star.1 h).2
    obtain ⟨t, ht⟩ := ih hc hc.dialect_eq
    exact ⟨t ++ "*", by rw [render, if_pos hd, ht]; rfl⟩
  | plus c ih =>
    have hc := (within_plus.1 h).2
    obtain ⟨t, ht⟩ := ih hc hc.dialect_eq
    exact ⟨t ++ "+", by rw [render, if_pos hd, ht]; rfl⟩

/-- A node of the other dialect is the first foreign one of its tree. -/
theorem firstForeign?_of_dialect_ne {d : Dialect} {p : Production} (h : p.dialect ≠ d) :
    p.firstForeign? d = some p := by
  obtain ⟨below, hp⟩ := nodes_eq_cons p
  simp [firstForeign?, hp, h]

/-- Otherwise it is looked for below. -/
theorem firstForeign?_of_dialect_eq {d : Dialect} {p : Production} {below : List Production}
    (h : p.dialect = d) (hp : p.nodes = p :: below) :
    p.firstForeign? d = below.find? (·.dialect ≠ d) := by
  rw [firstForeign?, hp, List.find?_cons_of_neg (by simpa using h)]

/-- The first foreign node of siblings is that of the first of them that has one. -/
theorem find?_nodesAll (d : Dialect) (cs : List Production) :
    (nodesAll cs).find? (·.dialect ≠ d) = cs.findSome? (firstForeign? d) := by
  rw [nodesAll_eq, List.find?_flatMap]
  rfl

/-- Siblings are not shown if one of them has a foreign node, and the first such node is the
one reported. -/
theorem renderAll_eq_error {d : Dialect} {cs : List Production} {q : Production}
    (h : ∀ c ∈ cs, ∀ q, c.firstForeign? d = some q → c.render d = .error (.foreignNode q))
    (hq : cs.findSome? (firstForeign? d) = some q) : renderAll d cs = .error (.foreignNode q) := by
  induction cs with
  | nil => cases hq
  | cons c cs ih =>
    rw [renderAll]
    cases hc : c.firstForeign? d with
    | some x =>
      rw [List.findSome?_cons, hc] at hq
      obtain rfl := Option.some.inj hq
      rw [h c List.mem_cons_self x hc]
      rfl
    | none =>
      rw [List.findSome?_cons, hc] at hq
      obtain ⟨t, ht⟩ := exists_render (firstForeign?_eq_none_iff.1 hc)
      rw [ht, ih (fun x hx => h x (List.mem_cons_of_mem c hx)) hq]
      rfl

/-- A node of the other dialect is not shown. -/
theorem render_eq_error_of_dialect_ne {d : Dialect} {p q : Production} (hd : p.dialect ≠ d)
    (h : p.firstForeign? d = some q) : p.render d = .error (.foreignNode q) := by
  rw [firstForeign?_of_dialect_ne hd] at h
  obtain rfl := Option.some.inj h
  unfold render
  rw [if_neg hd]

/-- **What keeps a production from being shown** is its first foreign node. -/
theorem render_eq_error {d : Dialect} {p q : Production} (h : p.firstForeign? d = some q) :
    p.render d = .error (.foreignNode q) := by
  induction p using induction generalizing q with
  | epsilon e | terminal e _ | reference e _ =>
    refine render_eq_error_of_dialect_ne (fun hd => ?_) h
    rw [firstForeign?_of_dialect_eq hd rfl] at h
    cases h
  | optional e c ih =>
    by_cases hd : (optional e c).dialect = d
    · rw [firstForeign?_of_dialect_eq hd rfl] at h
      rw [render, if_pos hd, ih h]
      rfl
    · exact render_eq_error_of_dialect_ne hd h
  | join e op cs ih =>
    by_cases hd : (join e op cs).dialect = d
    · rw [firstForeign?_of_dialect_eq hd rfl, find?_nodesAll] at h
      rw [render, if_pos hd, renderAll_eq_error ih h]
      rfl
    · exact render_eq_error_of_dialect_ne hd h
  | star c ih =>
    by_cases hd : (star c).dialect = d
    · rw [firstForeign?_of_dialect_eq hd rfl] at h
      rw [render, if_pos hd, ih h]
      rfl
    · exact render_eq_error_of_dialect_ne hd h
  | plus c ih =>
    by_cases hd : (plus c).dialect = d
    · rw [firstForeign?_of_dialect_eq hd rfl] at h
      rw [render, if_pos hd, ih h]
      rfl
    · exact render_eq_error_of_dialect_ne hd h

/-- **What keeps a production from being shown** is its first foreign node, and nothing else. -/
theorem render_eq_error_iff {d : Dialect} {p : Production} {f : Fault} :
    p.render d = .error f ↔ ∃ q, p.firstForeign? d = some q ∧ f = .foreignNode q := by
  constructor
  · intro h
    cases hq : p.firstForeign? d with
    | none =>
      obtain ⟨t, ht⟩ := exists_render (firstForeign?_eq_none_iff.1 hq)
      rw [ht] at h
      cases h
    | some q =>
      rw [render_eq_error hq] at h
      exact ⟨q, rfl, (Except.error.inj h).symm⟩
  · rintro ⟨q, hq, rfl⟩
    exact render_eq_error hq

/-- **Where a production can be shown:** in the dialect of all its nodes. -/
theorem exists_render_iff {d : Dialect} {p : Production} :
    (∃ t, p.render d = .ok t) ↔ p.Within d := by
  refine ⟨fun ⟨t, ht⟩ => ?_, exists_render⟩
  rw [← firstForeign?_eq_none_iff]
  cases hq : p.firstForeign? d with
  | none => rfl
  | some q =>
    rw [render_eq_error hq] at ht
    cases ht

/-! ### Counting repetitions -/

/-- The groups of a list of productions. -/
theorem filterMap_nodesAll (cs : List Production) :
    (nodesAll cs).filterMap body? = cs.flatMap groups := by
  rw [nodesAll_eq, List.filterMap_flatMap]
  rfl

/-- The empty production has no groups. -/
@[simp] theorem groups_epsilon (d : Dialect) : (epsilon d).groups = [] := rfl

/-- A terminal has no groups. -/
@[simp] theorem groups_terminal (d : Dialect) (t : Terminal) : (terminal d t).groups = [] := rfl

/-- A variable has no groups. -/
@[simp] theorem groups_reference (d : Dialect) (v : Variable) : (reference d v).groups = [] := rfl

/-- An optional part has the groups of its child. -/
@[simp] theorem groups_optional (d : Dialect) (c : Production) :
    (optional d c).groups = c.groups := rfl

/-- A join has the groups of its children. -/
@[simp] theorem groups_join (d : Dialect) (op : Connective) (cs : List Production) :
    (join d op cs).groups = cs.flatMap groups :=
  filterMap_nodesAll cs

/-- The child of a repetition is a group, before those in it. -/
@[simp] theorem groups_star (c : Production) : (star c).groups = c :: c.groups := rfl

/-- So is the child of a repetition of at least once. -/
@[simp] theorem groups_plus (c : Production) : (plus c).groups = c :: c.groups := rfl

/-- The counts of siblings add up, if all of them are extended throughout. -/
theorem repetitionCountAll_eq {cs : List Production}
    (h : ∀ c ∈ cs, c.repetitionCount =
      if Within .extended c then .ok c.groups.length else .error .uncountable) :
    repetitionCountAll cs = if ∀ c ∈ cs, Within .extended c
      then .ok (cs.flatMap groups).length else .error .uncountable := by
  induction cs with
  | nil => simp [repetitionCountAll]
  | cons c cs ih =>
    have hc := h c List.mem_cons_self
    have hcs := ih fun x hx => h x (List.mem_cons_of_mem c hx)
    rw [repetitionCountAll, hc, hcs]
    simp only [List.forall_mem_cons, List.flatMap_cons, List.length_append]
    by_cases h₁ : Within .extended c
    · by_cases h₂ : ∀ x ∈ cs, Within .extended x
      · rw [if_pos h₁, if_pos h₂, if_pos ⟨h₁, h₂⟩]
        rfl
      · rw [if_pos h₁, if_neg h₂, if_neg fun h => h₂ h.2]
        rfl
    · simp only [h₁, false_and, if_false]
      rfl

/-- **Repetitions can be counted in extended trees only**, and there is one for
every group. -/
theorem repetitionCount_eq (p : Production) : p.repetitionCount =
    if Within .extended p then .ok p.groups.length else .error .uncountable := by
  induction p using induction with
  | epsilon d | terminal d _ | reference d _ => cases d <;> simp [repetitionCount, dialect]
  | optional d c ih =>
    cases d
    · simp [repetitionCount, dialect]
    · simp [repetitionCount, dialect, ih]
  | join d op cs ih =>
    cases d
    · simp [repetitionCount, dialect]
    · simp [repetitionCount, dialect, repetitionCountAll_eq ih]
  | star c ih | plus c ih =>
    simp only [repetitionCount, dialect, ih, within_star, within_plus, true_and, if_true]
    by_cases h : Within .extended c
    · simp [h, Except.map, Nat.add_comm]
    · simp [h, Except.map]

/-- A helper rule has the groups of the group it repeats. -/
@[simp] theorem groups_helperRule (c : Production) (v : Variable) :
    (helperRule c v).groups = c.groups := by
  simp [helperRule]

/-- **The check on a helper rule never finds it too large.** It succeeds for groups
that are extended throughout, and the repetitions of others cannot be counted. -/
theorem checkReduced_eq (c : Production) (v : Variable) :
    checkReduced c v = if Within .extended c then .ok () else .error .uncountable := by
  unfold checkReduced
  rw [repetitionCount_eq, repetitionCount_eq, groups_helperRule]
  by_cases h : Within .extended c
  · simp [h, bind, Except.bind, pure, Except.pure]
  · simp [h, bind, Except.bind]

/-- The check succeeds for the groups that are extended throughout. -/
theorem checkReduced_eq_ok_iff {c : Production} {v : Variable} :
    checkReduced c v = .ok () ↔ Within .extended c := by
  simp [checkReduced_eq]

/-- If it fails, the repetitions cannot be counted. -/
theorem checkReduced_eq_error {c : Production} {v : Variable} {f : Fault}
    (h : checkReduced c v = .error f) : f = .uncountable := by
  rw [checkReduced_eq] at h
  split at h
  · cases h
  · exact (Except.error.inj h).symm

end Production
end ContextFree
