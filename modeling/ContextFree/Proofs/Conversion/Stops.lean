/-
# Where a conversion stops

On its way over the surface of a production, a conversion stops at the groups,
to look them up, and at the first plain node, where it ends. `stops` lists these
places in order, and `walk` is what a conversion does to names and trace there:
it visits the groups until it comes to a plain node.

An open production has no stops but the groups that it meets (`stops_of_open`),
and no other is walked to the end (`walk_eq_ok`, `open_of_stops`). A walk that
faults has drawn names before, and no fault of it is internal (`fails_of_walk`).
-/

import ContextFree.Proofs.Conversion.Visit
import ContextFree.Proofs.Naming.Draws

namespace ContextFree

/-- A place where a conversion stops. -/
inductive Stop where
  | group (c : Production)
  | plainNode (q : Production)

namespace Naming

/-- After a fault nothing is done. -/
theorem throw_bind {α β : Type} (f : Fault) (g : α → Run β) :
    (throw f : Run α) >>= g = throw f := rfl

end Naming

namespace Production

mutual

/-- The places where the conversion of a production stops, up to the first plain
node and beyond. -/
def stops (p : Production) : List Stop :=
  if p.dialect = .extended then
    match p with
    | .epsilon _ => []
    | .terminal _ _ => []
    | .reference _ _ => []
    | .optional _ c => stops c
    | .join _ _ cs => stopsAll cs
    | .star c => [.group c]
    | .plus c => stops c ++ [.group c]
  else [.plainNode p]

/-- The places where the conversion of several siblings stops. -/
def stopsAll : List Production → List Stop
  | [] => []
  | c :: cs => stops c ++ stopsAll cs

end

/-- A conversion of siblings stops where that of each of them does, in turn. -/
theorem stopsAll_eq (cs : List Production) : stopsAll cs = cs.flatMap stops := by
  induction cs with
  | nil => rfl
  | cons c cs ih => simp [stopsAll, ih]

/-- At a plain node the conversion stops for good. -/
theorem stops_of_dialect_ne {p : Production} (h : p.dialect ≠ .extended) :
    p.stops = [.plainNode p] := by
  unfold stops
  rw [if_neg h]

/-- An optional part has the stops of its child. -/
@[simp] theorem stops_optional (c : Production) : (optional .extended c).stops = c.stops := by
  rw [stops, dialect, if_pos rfl]

/-- A join has the stops of its children, in turn. -/
@[simp] theorem stops_join (op : Connective) (cs : List Production) :
    (join .extended op cs).stops = cs.flatMap stops := by
  rw [stops, dialect, if_pos rfl, stopsAll_eq]

/-- At a repetition the conversion stops for its group. -/
@[simp] theorem stops_star (c : Production) : (star c).stops = [.group c] := by
  rw [stops, dialect, if_pos rfl]

/-- An `X+` has the stops of the sequence `X X*`. -/
@[simp] theorem stops_plus (c : Production) : (plus c).stops = c.stops ++ [.group c] := by
  rw [stops, dialect, if_pos rfl]

/-- **An open production stops at the groups that it meets**, and nowhere else. -/
theorem stops_of_open {p : Production} (h : Open p) : p.stops = p.met.map .group := by
  induction p using induction with
  | epsilon d | terminal d _ | reference d _ =>
    simp at h
    subst h
    simp [stops, dialect, met]
  | optional d c ih =>
    obtain ⟨rfl, hc⟩ := open_optional.1 h
    rw [stops_optional, ih hc, met]
  | join d op cs ih =>
    obtain ⟨rfl, hcs⟩ := open_join.1 h
    rw [stops_join, met_join, List.map_flatMap]
    exact List.flatMap_congr fun c hc => ih c hc (hcs c hc)
  | star c => simp [met]
  | plus c ih => rw [stops_plus, ih (open_plus.1 h), met, List.map_append, List.map_singleton]

/-- A production that stops at groups only is open. -/
theorem open_of_stops {p : Production} (h : ∀ x ∈ p.stops, ∃ c, x = .group c) : Open p := by
  have hextended {p : Production} (h : ∀ x ∈ p.stops, ∃ c, x = .group c) :
      p.dialect = .extended := by
    by_contra hd
    rw [stops_of_dialect_ne hd] at h
    obtain ⟨c, hc⟩ := h _ List.mem_cons_self
    cases hc
  have hd := hextended h
  induction p using induction with
  | epsilon d | terminal d _ | reference d _ => simpa [dialect] using hd
  | optional d c ih =>
    obtain rfl : d = .extended := hd
    rw [stops_optional] at h
    exact open_optional.2 ⟨rfl, ih h (hextended h)⟩
  | join d op cs ih =>
    obtain rfl : d = .extended := hd
    rw [stops_join] at h
    have hc : ∀ c ∈ cs, ∀ x ∈ c.stops, ∃ c, x = .group c :=
      fun c hc x hx => h x (List.mem_flatMap.2 ⟨c, hc, hx⟩)
    exact open_join.2 ⟨rfl, fun c hmem => ih c hmem (hc c hmem) (hextended (hc c hmem))⟩
  | star c => exact open_star c
  | plus c ih =>
    rw [stops_plus] at h
    have hc : ∀ x ∈ c.stops, ∃ c, x = .group c := fun x hx => h x (List.mem_append_left _ hx)
    exact open_plus.2 (ih hc (hextended hc))

/-! ### Walks -/

/-- Visits groups in turn, up to the first plain node. -/
def walk (known : Known) : List Stop → Naming.Run Helpers
  | [] => return []
  | .group c :: stops => do
    let made ← visit known c
    let rest ← walk (known.learn made) stops
    return made ++ rest
  | .plainNode q :: _ => throw (.foreignNode q)

/-- A walk goes on from the helpers that were made before. -/
theorem walk_append (known : Known) (xs ys : List Stop) :
    walk known (xs ++ ys) = do
      let made ← walk known xs
      let rest ← walk (known.learn made) ys
      return made ++ rest := by
  induction xs generalizing known with
  | nil => simp [walk]
  | cons x xs ih =>
    cases x with
    | group c =>
      simp only [List.cons_append, walk, ih, bind_assoc, pure_bind, Known.learn_append,
        List.append_assoc]
    | plainNode q => simp only [List.cons_append, walk, Naming.throw_bind]

/-- To walk over groups is to visit them. -/
theorem walk_map_group (known : Known) (cs : List Production) :
    walk known (cs.map .group) = visitAll known cs := by
  induction cs generalizing known with
  | nil => rfl
  | cons c cs ih => simp only [List.map_cons, walk, visitAll, ih]

/-- **Only groups are walked over to the end.** -/
theorem walk_eq_ok {known : Known} {xs : List Stop} {s t : Naming} {made : Helpers}
    (h : walk known xs s = .ok made t) : ∀ x ∈ xs, ∃ c, x = .group c := by
  induction xs generalizing known s made t with
  | nil => exact fun x hx => absurd hx List.not_mem_nil
  | cons x xs ih =>
    cases x with
    | group c =>
      obtain ⟨first, u, -, h⟩ := Naming.bind_eq_ok.1 h
      obtain ⟨rest, u', hrest, -⟩ := Naming.bind_eq_ok.1 h
      intro y hy
      rcases List.mem_cons.1 hy with rfl | hy
      · exact ⟨c, rfl⟩
      · exact ih hrest y hy
    | plainNode q => exact absurd h Naming.throw_ne_ok

/-- A walk over the stops of a production comes to its end only if the production
is open, and visits the groups that it meets. -/
theorem visitAll_of_walk {known : Known} {p : Production} {s t : Naming} {made : Helpers}
    (h : walk known p.stops s = .ok made t) : Open p ∧ visitAll known p.met s = .ok made t := by
  have hp := open_of_stops (walk_eq_ok h)
  rw [stops_of_open hp, walk_map_group] at h
  exact ⟨hp, h⟩

/-! ### Faults -/

/-- A visit faults when it needs a name and there is none, or when the group
cannot be shown or counted; the name is taken by then. -/
theorem fails_of_visit {known : Known} {c : Production} {s t : Naming} {f : Fault}
    (h : visit known c s = .error f t) : ∃ vs, s.allocator.Fails vs f t.allocator := by
  have hreport {event : String → Event} {s t : Naming}
      (h : Naming.report ((Production.star c).text.map event) s = .error f t) :
      t.allocator = s.allocator ∧ ∃ q, f = .foreignNode q := by
    cases htext : (Production.star c).text with
    | ok text =>
      rw [htext] at h
      exact absurd h Naming.report_ok_ne_error
    | error f' =>
      rw [htext] at h
      obtain ⟨q, -, rfl⟩ := render_eq_error_iff.1 htext
      rcases s with ⟨a, _ | es⟩
      · cases h
      · cases h
        exact ⟨rfl, q, rfl⟩
  cases hv : known (.star c) with
  | some v =>
    simp only [visit, hv] at h
    rcases Naming.bind_eq_error.1 h with h | ⟨_, _, _, h⟩
    · obtain ⟨ht, q, rfl⟩ := hreport h
      exact ⟨[], ht ▸ .foreignNode .nil⟩
    · cases h
  | none =>
    simp only [visit, hv] at h
    rcases Naming.bind_eq_error.1 h with h | ⟨v, u, hu, h⟩
    · obtain ⟨hfresh, rfl⟩ := Naming.fresh_eq_error h
      exact ⟨[], .exhausted .nil hfresh⟩
    have hsupply : s.allocator.Supplies [v] u.allocator := .cons (Naming.fresh_eq_ok.1 hu).1 .nil
    rcases Naming.bind_eq_error.1 h with h | ⟨_, u', hu', h⟩
    · obtain ⟨ht, q, rfl⟩ := hreport h
      exact ⟨[v], ht ▸ .foreignNode hsupply⟩
    rw [← Naming.allocator_of_report hu'] at hsupply
    rcases Naming.bind_eq_error.1 h with h | ⟨_, _, _, h⟩
    · cases hcheck : checkReduced c v with
      | ok u =>
        rw [hcheck] at h
        cases h
      | error f' =>
        rw [hcheck] at h
        cases h
        rw [checkReduced_eq_error hcheck]
        exact ⟨[v], .uncountable hsupply⟩
    · cases h

/-- **A walk that faults** has drawn the names of the helpers made before. -/
theorem fails_of_walk {known : Known} {xs : List Stop} {s t : Naming} {f : Fault}
    (h : walk known xs s = .error f t) : ∃ vs, s.allocator.Fails vs f t.allocator := by
  induction xs generalizing known s with
  | nil => cases h
  | cons x xs ih =>
    cases x with
    | group c =>
      rcases Naming.bind_eq_error.1 h with h | ⟨first, u, hfirst, h⟩
      · exact fails_of_visit h
      rcases Naming.bind_eq_error.1 h with h | ⟨_, _, _, h⟩
      · obtain ⟨vs, hvs⟩ := ih h
        rcases visit_eq_ok hfirst with ⟨-, -, hu⟩ | ⟨-, v, -, hu, -⟩
        · exact ⟨vs, hu ▸ hvs⟩
        · exact ⟨[v] ++ vs, (Allocator.Supplies.cons hu .nil).fails hvs⟩
      · cases h
    | plainNode q =>
      cases h
      exact ⟨[], .foreignNode .nil⟩

end Production
end ContextFree
