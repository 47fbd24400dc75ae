/-
# Visiting groups

What a conversion does to names and trace is decided by the groups that it
looks up. `visit` looks one group up and makes a helper for it if there is none;
`visitAll` visits a list of groups, each with the helpers made for those before
it.

Visiting makes one helper for each group that had none (`newGroups`), in the
order in which they are met first (`visitAll_eq_ok`). If the groups are extended
throughout, it faults only because names run out (`visitAll_eq_error`).
-/

import ContextFree.Proofs.Conversion.Groups
import ContextFree.Proofs.Conversion.Helpers
import ContextFree.Proofs.Naming.Supply

namespace ContextFree

namespace Naming

/-- Two runs agree if they go on alike after every success of their first step. -/
theorem bind_congr_ok {α β : Type} {x : Run α} {f g : α → Run β}
    (h : ∀ a s t, x s = .ok a t → f a = g a) : x >>= f = x >>= g := by
  funext s
  show EStateM.bind x f s = EStateM.bind x g s
  unfold EStateM.bind
  cases hx : x s with
  | ok a t => simp only [h a s t hx]
  | error e t => rfl

/-- A check that has succeeded only returns. -/
@[simp] theorem check_ok {α : Type} (a : α) : check (.ok a) = pure a := rfl

/-- Reporting leaves the allocator alone. -/
theorem allocator_of_report {event : Except Fault Event} {s t : Naming} {u : Unit}
    (h : report event s = .ok u t) : t.allocator = s.allocator := by
  rcases s with ⟨a, _ | es⟩ <;> rcases event with f | e <;> simp [report] at h <;> rw [← h]

/-- An event that can be shown is reported without fault. -/
theorem report_ok_ne_error {event : Event} {s t : Naming} {f : Fault} :
    report (.ok event) s ≠ .error f t := by
  rcases s with ⟨a, _ | es⟩ <;> simp [report]

/-- A fresh variable faults only when names run out. -/
theorem fresh_eq_error {s t : Naming} {f : Fault} (h : fresh s = .error f t) :
    s.allocator.fresh = (none, t.allocator) ∧ f = .poolExhausted t.allocator.inUse.size := by
  rcases s with ⟨a, es⟩
  simp only [fresh] at h
  rcases hf : a.fresh with ⟨_ | v, b⟩ <;> simp [hf] at h
  obtain ⟨rfl, rfl⟩ := h
  exact ⟨rfl, rfl⟩

end Naming

namespace Production

/-! ### Visiting groups -/

/-- Looks a group up, and makes a helper for it if it has none. -/
def visit (known : Known) (c : Production) : Naming.Run Helpers :=
  match known (.star c) with
  | some v => do
    Naming.report ((Production.star c).text.map (.reusing v))
    return []
  | none => do
    let v ← Naming.fresh
    Naming.report ((Production.star c).text.map (.minted v))
    Naming.check (checkReduced c v)
    return [(c, v)]

/-- Visits groups in turn; each visit knows the helpers made by those before it. -/
def visitAll (known : Known) : List Production → Naming.Run Helpers
  | [] => return []
  | c :: cs => do
    let made ← visit known c
    let rest ← visitAll (known.learn made) cs
    return made ++ rest

/-- A visit makes no helper for a known group, and one for any other. -/
theorem visit_eq_ok {known : Known} {c : Production} {s t : Naming} {made : Helpers}
    (h : visit known c s = .ok made t) :
    (known (.star c)).isSome ∧ made = [] ∧ t.allocator = s.allocator ∨
      known (.star c) = none ∧ ∃ v, made = [(c, v)] ∧
        s.allocator.fresh = (some v, t.allocator) ∧ Within .extended c := by
  cases hv : known (.star c) with
  | some v =>
    simp only [visit, hv] at h
    obtain ⟨_, u, hu, h⟩ := Naming.bind_eq_ok.1 h
    obtain ⟨rfl, rfl⟩ := Naming.pure_eq_ok.1 h
    exact .inl ⟨rfl, rfl, Naming.allocator_of_report hu⟩
  | none =>
    simp only [visit, hv] at h
    obtain ⟨v, u, hu, h⟩ := Naming.bind_eq_ok.1 h
    obtain ⟨_, x, hx, h⟩ := Naming.bind_eq_ok.1 h
    obtain ⟨_, y, hy, h⟩ := Naming.bind_eq_ok.1 h
    obtain ⟨rfl, rfl⟩ := Naming.pure_eq_ok.1 h
    obtain ⟨hcheck, rfl⟩ := Naming.check_eq_ok.1 hy
    refine .inr ⟨rfl, v, rfl, ?_, checkReduced_eq_ok_iff.1 hcheck⟩
    rw [Naming.allocator_of_report hx]
    exact (Naming.fresh_eq_ok.1 hu).1

/-- The repetition of a group that is extended throughout can be shown. -/
theorem exists_text_star {c : Production} (hc : Within .extended c) :
    ∃ text, (Production.star c).text = .ok text :=
  exists_render (within_star.2 ⟨rfl, hc⟩)

/-- A visit to a group that is extended throughout faults only when it needs a
name and there is none. -/
theorem visit_eq_error {known : Known} {c : Production} {s t : Naming} {f : Fault}
    (hc : Within .extended c) (h : visit known c s = .error f t) :
    known (.star c) = none ∧ s.allocator.fresh = (none, t.allocator) ∧
      f = .poolExhausted t.allocator.inUse.size := by
  obtain ⟨text, htext⟩ := exists_text_star hc
  cases hv : known (.star c) with
  | some v =>
    simp only [visit, hv, htext] at h
    rcases Naming.bind_eq_error.1 h with h | ⟨_, _, _, h⟩
    · exact absurd h Naming.report_ok_ne_error
    · cases h
  | none =>
    simp only [visit, hv, htext] at h
    refine ⟨rfl, ?_⟩
    rcases Naming.bind_eq_error.1 h with h | ⟨v, u, _, h⟩
    · exact Naming.fresh_eq_error h
    · rw [checkReduced_eq_ok_iff.2 hc] at h
      rcases Naming.bind_eq_error.1 h with h | ⟨_, _, _, h⟩
      · exact absurd h Naming.report_ok_ne_error
      · cases h

/-! ### New groups -/

/-- The groups of a list without a known helper, each where it is met first. -/
def newGroups (known : Known) (cs : List Production) : List Production :=
  (cs.filter fun c => (known (.star c)).isNone).eraseDups

/-- The new groups are those in the list that have no known helper. -/
theorem mem_newGroups {known : Known} {cs : List Production} {c : Production} :
    c ∈ newGroups known cs ↔ c ∈ cs ∧ known (.star c) = none := by
  simp [newGroups]

/-- No group is new twice. -/
theorem nodup_newGroups (known : Known) (cs : List Production) : (newGroups known cs).Nodup :=
  nodup_eraseDups _

/-- A group with a known helper is not new. -/
theorem newGroups_cons_of_known {known : Known} {c : Production} {cs : List Production}
    (h : (known (.star c)).isSome) : newGroups known (c :: cs) = newGroups known cs := by
  rw [newGroups, List.filter_cons_of_neg (by simpa using Option.isSome_iff_ne_none.1 h)]
  rfl

/-- A group without one is new, and known from then on. -/
theorem newGroups_cons_of_new {known : Known} {c : Production} {cs : List Production}
    (h : known (.star c) = none) (v : Variable) :
    newGroups known (c :: cs) = c :: newGroups (known.learn [(c, v)]) cs := by
  rw [newGroups, List.filter_cons_of_pos (by rw [h]; rfl), List.eraseDups_cons, List.filter_filter]
  congr 2
  refine List.filter_congr fun d _ => ?_
  by_cases hd : d = c
  · simp [hd]
  · cases hk : known (.star d) <;> simp [hk, Registry.lookup_cons_of_ne hd, hd]

/-- **One helper for each new group**, in the order in which the groups are met
first, with the names that the allocator hands out. Only groups that are
extended throughout get one. -/
theorem visitAll_eq_ok {known : Known} {cs : List Production} {s t : Naming} {made : Helpers}
    (h : visitAll known cs s = .ok made t) :
    made.groups = newGroups known cs ∧ s.allocator.Supplies made.names t.allocator ∧
      ∀ c ∈ made.groups, Within .extended c := by
  induction cs generalizing known s made with
  | nil =>
    obtain ⟨rfl, rfl⟩ := Naming.pure_eq_ok.1 h
    exact ⟨rfl, .nil, fun c hc => absurd hc List.not_mem_nil⟩
  | cons c cs ih =>
    obtain ⟨first, u, hfirst, h⟩ := Naming.bind_eq_ok.1 h
    obtain ⟨rest, x, hrest, h⟩ := Naming.bind_eq_ok.1 h
    obtain ⟨rfl, rfl⟩ := Naming.pure_eq_ok.1 h
    obtain ⟨hgroups, hsupply, hpure⟩ := ih hrest
    rcases visit_eq_ok hfirst with ⟨hk, rfl, hu⟩ | ⟨hk, v, rfl, hu, hc⟩
    · rw [Known.learn_nil] at hgroups
      rw [List.nil_append, newGroups_cons_of_known hk, ← hu]
      exact ⟨hgroups, hsupply, hpure⟩
    · refine ⟨?_, .cons hu hsupply, fun d hd => ?_⟩
      · rw [newGroups_cons_of_new hk v, ← hgroups]
        rfl
      · rcases List.mem_cons.1 hd with rfl | hd
        · exact hc
        · exact hpure d hd

/-- No group gets two helpers. -/
theorem nodup_of_visitAll {known : Known} {cs : List Production} {s t : Naming} {made : Helpers}
    (h : visitAll known cs s = .ok made t) : made.groups.Nodup := by
  rw [(visitAll_eq_ok h).1]
  exact nodup_newGroups known cs

/-- Helpers are made for groups that are visited and have none. -/
theorem new_of_visitAll {known : Known} {cs : List Production} {s t : Naming} {made : Helpers}
    (h : visitAll known cs s = .ok made t) {c : Production} (hc : c ∈ made.groups) :
    c ∈ cs ∧ known (.star c) = none := by
  rw [(visitAll_eq_ok h).1] at hc
  exact mem_newGroups.1 hc

/-- **Visits to extended groups fault only when names run out:** before the last
new group has got one. -/
theorem visitAll_eq_error {known : Known} {cs : List Production} {s t : Naming} {f : Fault}
    (hcs : ∀ c ∈ cs, Within .extended c) (h : visitAll known cs s = .error f t) :
    f = .poolExhausted t.allocator.inUse.size ∧ ∃ vs b, s.allocator.Supplies vs b ∧
      vs.length < (newGroups known cs).length ∧ b.fresh = (none, t.allocator) := by
  induction cs generalizing known s with
  | nil => cases h
  | cons c cs ih =>
    have hrest := fun x hx => hcs x (List.mem_cons_of_mem c hx)
    rcases Naming.bind_eq_error.1 h with h | ⟨first, u, hfirst, h⟩
    · obtain ⟨hk, hfresh, hf⟩ := visit_eq_error (hcs c List.mem_cons_self) h
      refine ⟨hf, [], s.allocator, .nil, ?_, hfresh⟩
      rw [newGroups_cons_of_new hk ⟨""⟩]
      exact Nat.succ_pos _
    · rcases Naming.bind_eq_error.1 h with h | ⟨_, _, _, h⟩
      · obtain ⟨hf, vs, b, hsupply, hlen, hb⟩ := ih hrest h
        rcases visit_eq_ok hfirst with ⟨hk, rfl, hu⟩ | ⟨hk, v, rfl, hu, -⟩
        · rw [Known.learn_nil] at hlen
          rw [newGroups_cons_of_known hk, ← hu]
          exact ⟨hf, vs, b, hsupply, hlen, hb⟩
        · refine ⟨hf, v :: vs, b, .cons hu hsupply, ?_, hb⟩
          rw [newGroups_cons_of_new hk v]
          exact Nat.succ_lt_succ hlen
      · cases h

/-- After a visit every group of the list is known. -/
theorem isSome_learn_of_visitAll {known : Known} {cs : List Production} {s t : Naming}
    {made : Helpers} (h : visitAll known cs s = .ok made t) {c : Production} (hc : c ∈ cs) :
    (known.learn made (.star c)).isSome := by
  rw [Known.learn_star]
  cases hk : known (.star c) with
  | some v => rfl
  | none =>
    have hnew : c ∈ made.groups := by
      rw [(visitAll_eq_ok h).1]
      exact mem_newGroups.2 ⟨hc, hk⟩
    exact Helpers.lookup_isSome_iff.2 hnew

end Production
end ContextFree
