/-
# Writing `X+` as `X X*`

Spelling a production out changes none of what a conversion looks at. Its nodes
stay extended, it references the same variables, and the groups that it has and
those that it meets are the groups of the original, each spelled out as well and
the latter in the same order (`mem_groups_spell`, `met_spell`). If the helper of a
group is that of the group spelled out, the plain forms are the same
(`replace_spell`).
-/

import ContextFree.Grammar.Decoding
import ContextFree.Proofs.Conversion.Groups

namespace ContextFree
namespace Production

/-- A join is spelled out child by child. -/
@[simp] theorem spell_join (d : Dialect) (op : Connective) (cs : List Production) :
    (join d op cs).spell = join d op (cs.map spell) := by
  rw [spell, spellAll_eq]

/-- A tree that is extended throughout stays so. -/
theorem Within.spell {p : Production} (h : Within .extended p) : Within .extended p.spell := by
  induction p using induction with
  | epsilon d | terminal d _ | reference d _ => exact h
  | optional d c ih =>
    obtain ⟨rfl, hc⟩ := within_optional.1 h
    exact within_optional.2 ⟨rfl, ih hc⟩
  | join d op cs ih =>
    obtain ⟨rfl, hcs⟩ := within_join.1 h
    rw [spell_join, within_join]
    refine ⟨rfl, fun q hq => ?_⟩
    obtain ⟨c, hc, rfl⟩ := List.mem_map.1 hq
    exact ih c hc (hcs c hc)
  | star c ih => exact within_star.2 ⟨rfl, ih (within_star.1 h).2⟩
  | plus c ih =>
    have hc := ih (within_plus.1 h).2
    simp [Production.spell, hc]

/-- The variables referenced are the same, some of them more often. -/
theorem mem_references_spell {p : Production} {v : Variable} :
    v ∈ p.spell.references ↔ v ∈ p.references := by
  induction p using induction with
  | epsilon d | terminal d _ | reference d _ => rfl
  | optional d c ih => exact ih
  | join d op cs ih =>
    simp only [spell_join, references_join, List.mem_flatMap, List.mem_map,
      exists_exists_and_eq_and]
    exact exists_congr fun c => and_congr_right fun hc => ih c hc
  | star c ih => exact ih
  | plus c ih => simp [spell, references, ih]

/-- **The groups are those of the original,** spelled out. -/
theorem mem_groups_spell {p d : Production} :
    d ∈ p.spell.groups ↔ ∃ c ∈ p.groups, c.spell = d := by
  induction p using induction with
  | epsilon d | terminal d _ | reference d _ => simp [spell]
  | optional d c ih => exact ih
  | join e op cs ih =>
    simp only [spell_join, groups_join, List.mem_flatMap, List.mem_map, exists_exists_and_eq_and]
    constructor
    · rintro ⟨q, hq, hd⟩
      obtain ⟨c, hc, rfl⟩ := (ih q hq).1 hd
      exact ⟨c, ⟨q, hq, hc⟩, rfl⟩
    · rintro ⟨c, ⟨q, hq, hc⟩, rfl⟩
      exact ⟨q, hq, (ih q hq).2 ⟨c, hc, rfl⟩⟩
  | star c ih => simp [spell, ih, eq_comm]
  | plus c ih =>
    have hgroups : d ∈ (plus c).spell.groups ↔ c.spell = d ∨ d ∈ c.spell.groups := by
      simp only [spell, groups_join, groups_star, List.flatMap_cons, List.flatMap_nil,
        List.append_nil, List.mem_append, List.mem_cons, eq_comm (a := d)]
      tauto
    rw [hgroups, ih, groups_plus, List.exists_mem_cons_iff]

/-- **They are met in the same order.** -/
theorem met_spell (p : Production) : p.spell.met = p.met.map spell := by
  induction p using induction with
  | epsilon d | terminal d _ | reference d _ => rfl
  | optional d c ih => exact ih
  | join d op cs ih =>
    rw [spell_join, met_join, met_join, List.flatMap_map, List.map_flatMap]
    exact List.flatMap_congr ih
  | star c => rfl
  | plus c ih => simp [spell, met, ih]

/-- **The plain form is the same** when every group has the helper of its spelling. -/
theorem replace_spell (helper : Production → Variable) (p : Production) :
    p.spell.replace helper = p.replace fun c => helper c.spell := by
  induction p using induction with
  | epsilon d | terminal d _ | reference d _ => rfl
  | optional d c ih => rw [spell, replace, replace, ih]
  | join d op cs ih =>
    rw [spell_join, replace_join, replace_join, List.map_map]
    congr 1
    exact List.map_congr_left ih
  | star c => rfl
  | plus c ih => simp [spell, replace, ih]

end Production

namespace Grammar

variable {g : Grammar}

/-- The right-hand sides are those of the grammar, spelled out. -/
@[simp] theorem values_spelled (g : Grammar) :
    g.spelled.rules.values = g.rules.values.map Production.spell :=
  Registry.values_mapValues ..

/-- A grammar that is extended throughout stays so. -/
theorem Within.spelled (h : g.Within .extended) : g.spelled.Within .extended := by
  intro q hq
  rw [values_spelled] at hq
  obtain ⟨p, hp, rfl⟩ := List.mem_map.1 hq
  exact (h p hp).spell

/-- The variables are the same. -/
@[simp] theorem allVariables_spelled (g : Grammar) : g.spelled.allVariables = g.allVariables := by
  refine NameSet.ext fun v => ?_
  have hkeys : g.spelled.rules.keys = g.rules.keys := Registry.keys_mapValues ..
  have hstart : g.spelled.start = g.start := rfl
  simp only [mem_allVariables, values_spelled, hkeys, hstart, List.mem_map,
    exists_exists_and_eq_and, Production.mem_references_spell]

/-- The groups are those of the grammar, spelled out. -/
theorem mem_groups_spelled {d : Production} :
    d ∈ g.spelled.groups ↔ ∃ c ∈ g.groups, c.spell = d := by
  simp only [Grammar.groups, values_spelled, List.flatMap_map, List.mem_flatMap,
    Production.mem_groups_spell]
  constructor
  · rintro ⟨p, hp, c, hc, rfl⟩
    exact ⟨c, ⟨p, hp, hc⟩, rfl⟩
  · rintro ⟨c, ⟨p, hp, hc⟩, rfl⟩
    exact ⟨p, hp, c, hc, rfl⟩

end Grammar
end ContextFree
