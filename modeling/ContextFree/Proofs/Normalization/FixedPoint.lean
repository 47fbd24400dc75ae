/-
# A normal form is its own normal form

A plain grammar can be read as an extended one, node for node: nothing changes but the
dialect of the nodes. Read in this way it keeps its variables and its text
(`render_toExtended`), it has no repetitions (`groups_toExtended`), and the plain form of
each rule is the rule that it was read from (`replace_toExtended`).

A pass over such a grammar meets no group, so that it needs no helper and no name
(`normalize_toExtended`). The main statement is `normalize_again`: the normal form of a
grammar is returned as it is when it is normalized once more, whatever names are left.
-/

import ContextFree.Proofs.Normalization.Success

namespace ContextFree
namespace Production

/-! ### Plain productions read as extended ones -/

mutual

/-- The same tree in the extended dialect. -/
def toExtended : Production → Production
  | .epsilon _ => .epsilon .extended
  | .terminal _ t => .terminal .extended t
  | .reference _ v => .reference .extended v
  | .optional _ c => .optional .extended (toExtended c)
  | .join _ op cs => .join .extended op (toExtendedAll cs)
  | .star c => .star (toExtended c)
  | .plus c => .plus (toExtended c)

/-- The same trees in the extended dialect. -/
def toExtendedAll : List Production → List Production
  | [] => []
  | c :: cs => toExtended c :: toExtendedAll cs

end

/-- Of several productions each is read on its own. -/
theorem toExtendedAll_eq (cs : List Production) : toExtendedAll cs = cs.map toExtended := by
  induction cs with
  | nil => rfl
  | cons c cs ih => simp [toExtendedAll, ih]

/-- A join is read as the extended join of its children. -/
@[simp] theorem toExtended_join (d : Dialect) (op : Connective) (cs : List Production) :
    (join d op cs).toExtended = join .extended op (cs.map toExtended) := by
  rw [toExtended, toExtendedAll_eq]

/-- No repetition is plain. -/
theorem groups_eq_nil_of_within {p : Production} (h : Within .plain p) : p.groups = [] := by
  refine List.eq_nil_iff_forall_not_mem.2 fun c hc => ?_
  rcases mem_groups.1 hc with hstar | hplus
  · have hd : (star c).dialect = .plain := h _ hstar
    cases hd
  · have hd : (plus c).dialect = .plain := h _ hplus
    cases hd

/-- What is read is extended throughout. -/
theorem within_toExtended (p : Production) : Within .extended p.toExtended := by
  induction p using induction with
  | epsilon d | terminal d _ | reference d _ => simp [toExtended]
  | optional d c ih => simp [toExtended, ih]
  | join d op cs ih => simpa using ih
  | star c ih | plus c ih => simp [toExtended, ih]

/-- It references the same variables. -/
@[simp] theorem references_toExtended (p : Production) : p.toExtended.references = p.references := by
  induction p using induction with
  | epsilon d | terminal d _ | reference d _ => rfl
  | optional d c ih | star c ih | plus c ih => exact ih
  | join d op cs ih =>
    rw [toExtended_join, references_join, references_join, List.flatMap_map]
    exact List.flatMap_congr ih

/-- It has the same groups, read in the same way. -/
theorem groups_toExtended (p : Production) : p.toExtended.groups = p.groups.map toExtended := by
  induction p using induction with
  | epsilon d | terminal d _ | reference d _ => rfl
  | optional d c ih => exact ih
  | join d op cs ih =>
    rw [toExtended_join, groups_join, groups_join, List.flatMap_map, List.map_flatMap]
    exact List.flatMap_congr ih
  | star c ih | plus c ih => simp [toExtended, ih]

/-- So it has no repetitions if it was plain. -/
theorem repetitionCount_toExtended {p : Production} (h : Within .plain p) :
    p.toExtended.repetitionCount = .ok 0 := by
  rw [repetitionCount_eq, if_pos (within_toExtended p), groups_toExtended,
    groups_eq_nil_of_within h]
  rfl

/-- **The text is the same** in both dialects. -/
theorem render_toExtended {p : Production} (h : Within .plain p) :
    p.toExtended.render .extended = p.render .plain := by
  induction p using induction with
  | epsilon d | terminal d _ | reference d _ =>
    obtain rfl : d = .plain := h.dialect_eq
    rfl
  | optional d c ih =>
    obtain ⟨rfl, hc⟩ := within_optional.1 h
    simp only [toExtended, render, dialect, if_true, ih hc]
  | join d op cs ih =>
    obtain ⟨rfl, hcs⟩ := within_join.1 h
    have htexts : (cs.map toExtended).mapM (render .extended) = cs.mapM (render .plain) := by
      rw [List.mapM_map]
      exact mapM_congr fun c hc => ih c hc (hcs c hc)
    simp only [toExtended_join, render, dialect, if_true, renderAll_eq, htexts]
  | star c | plus c => cases h.dialect_eq

/-- **The plain form** of what is read is what it was read from. -/
theorem replace_toExtended {p : Production} (h : Within .plain p) (helper : Production → Variable) :
    p.toExtended.replace helper = p := by
  induction p using induction with
  | epsilon d | terminal d _ | reference d _ =>
    obtain rfl : d = .plain := h.dialect_eq
    rfl
  | optional d c ih =>
    obtain ⟨rfl, hc⟩ := within_optional.1 h
    rw [toExtended, replace, ih hc]
  | join d op cs ih =>
    obtain ⟨rfl, hcs⟩ := within_join.1 h
    have hsame : cs.map (replace helper ∘ toExtended) = cs.map id :=
      List.map_congr_left fun c hc => ih c hc (hcs c hc)
    rw [toExtended_join, replace_join, List.map_map, hsame, List.map_id]
  | star c | plus c => cases h.dialect_eq

end Production

namespace Grammar

/-! ### Plain grammars read as extended ones -/

/-- The same grammar with its productions in the extended dialect. -/
def toExtended (n : Grammar) : Grammar :=
  { n with rules := n.rules.mapValues Production.toExtended }

variable {n : Grammar}

/-- Its right-hand sides are those of the grammar, read as extended ones. -/
@[simp] theorem values_toExtended (n : Grammar) :
    n.toExtended.rules.values = n.rules.values.map Production.toExtended :=
  Registry.values_mapValues ..

/-- It is extended throughout. -/
theorem within_toExtended (n : Grammar) : n.toExtended.Within .extended := by
  intro q hq
  rw [values_toExtended] at hq
  obtain ⟨p, -, rfl⟩ := List.mem_map.1 hq
  exact p.within_toExtended

/-- It has the same variables. -/
@[simp] theorem allVariables_toExtended (n : Grammar) :
    n.toExtended.allVariables = n.allVariables := by
  have hkeys : n.toExtended.rules.keys = n.rules.keys := Registry.keys_mapValues ..
  have hstart : n.toExtended.start = n.start := rfl
  rw [allVariables, allVariables, values_toExtended, hkeys, hstart, List.flatMap_map]
  simp only [Production.references_toExtended]

/-- It has no groups if it was plain. -/
theorem groups_toExtended (hn : n.Within .plain) : n.toExtended.groups = [] := by
  refine List.flatMap_eq_nil_iff.2 fun q hq => ?_
  rw [values_toExtended] at hq
  obtain ⟨p, hp, rfl⟩ := List.mem_map.1 hq
  rw [Production.groups_toExtended, Production.groups_eq_nil_of_within (hn p hp), List.map_nil]

/-- **The text is the same** in both dialects. -/
theorem format_toExtended (hn : n.Within .plain) : n.toExtended.format = n.format := by
  have hline : n.toExtended.rules.entries.mapM formatRule = n.rules.entries.mapM formatRule := by
    rw [toExtended, Registry.entries_mapValues, List.mapM_map]
    refine mapM_congr fun e he => ?_
    have hplain : e.2.Within .plain := hn e.2 (List.mem_map_of_mem he)
    have htext : e.2.toExtended.text = e.2.text := by
      rw [Production.text, Production.text, (Production.within_toExtended e.2).dialect_eq,
        hplain.dialect_eq, Production.render_toExtended hplain]
    rw [Function.comp_apply, formatRule, formatRule, htext]
  rw [format, format, hline]

/-- A translation for no groups puts the plain form of each rule in its place. -/
theorem Translation.eq_of_toExtended {m : Grammar} {gs : List Production}
    {helper : Production → Variable} (hn : n.Within .plain)
    (h : n.toExtended.Translation gs helper m) : gs = [] ∧ m = n := by
  have hgs : gs = [] := by
    refine List.eq_nil_iff_forall_not_mem.2 fun c hc => ?_
    have hgroup := (h.mem_groups c).1 hc
    rw [groups_toExtended hn] at hgroup
    exact List.not_mem_nil hgroup
  have hrules : m.rules.entries = n.rules.entries := by
    have hsame : ∀ e ∈ n.rules.entries, (e.1, e.2.toExtended.replace helper) = id e := by
      intro e he
      rw [Production.replace_toExtended (hn e.2 (List.mem_map_of_mem he))]
      rfl
    rw [h.rules, hgs, List.map_nil, List.append_nil, toExtended, Registry.entries_mapValues,
      List.map_map]
    exact (List.map_congr_left hsame).trans (List.map_id _)
  have hstart : m.start = n.start := h.start
  rcases m with ⟨start, rules⟩
  rcases n with ⟨start', rules'⟩
  obtain rfl : start = start' := hstart
  obtain rfl : rules = rules' := Registry.ext hrules
  exact ⟨hgs, rfl⟩

/-- **A plain grammar is the normal form of itself,** read as an extended grammar. No name
is drawn, and its variables are in use afterwards. -/
theorem normalize_toExtended (hn : n.Within .plain) (s : Naming) :
    ∃ t, n.toExtended.normalize s = .ok n t ∧
      t.allocator = s.allocator.reserveAll n.allVariables := by
  cases h : n.toExtended.normalize s with
  | ok m t =>
    obtain ⟨gs, helper, htrans, hsupply⟩ := exists_translation h
    obtain ⟨rfl, rfl⟩ := htrans.eq_of_toExtended hn
    rw [allVariables_toExtended, List.map_nil] at hsupply
    exact ⟨t, rfl, hsupply.eq_of_nil⟩
  | error f t =>
    have hshort := (normalize_eq_error (within_toExtended n) h).1
    rw [groups_toExtended hn] at hshort
    exact absurd ⟨0, Nat.zero_le _⟩ hshort

/-- **A normal form is its own normal form.** Read node for node as an extended grammar,
what a pass returned has the text that it had and no repetitions; and a pass over it
returns it as it is, whatever allocator there is: no candidate is taken from the pool, and
only the variables of the normal form are added to those in use. -/
theorem normalize_again {g n : Grammar} {s t : Naming} (h : g.normalize s = .ok n t) :
    (∃ text, n.format = .ok text ∧ n.toExtended.format = .ok text) ∧
    (∀ p ∈ n.toExtended.rules.values, p.repetitionCount = .ok 0) ∧
    ∀ u, ∃ u', n.toExtended.normalize u = .ok n u' ∧ u'.allocator.pool = u.allocator.pool ∧
      u'.allocator.inUse = u.allocator.inUse ∪ n.allVariables := by
  obtain ⟨gs, helper, htrans, -⟩ := exists_translation h
  have hn : n.Within .plain := htrans.within_plain
  refine ⟨?_, fun q hq => ?_, fun u => ?_⟩
  · obtain ⟨text, htext⟩ := exists_format hn
    exact ⟨text, htext, (format_toExtended hn).trans htext⟩
  · rw [values_toExtended] at hq
    obtain ⟨p, hp, rfl⟩ := List.mem_map.1 hq
    exact Production.repetitionCount_toExtended (hn p hp)
  · obtain ⟨u', hu', hallocator⟩ := normalize_toExtended hn u
    exact ⟨u', hu', by rw [hallocator]; rfl, by rw [hallocator]; rfl⟩

/-- The normal form of `S -> ('a'+ T)*` is returned by an allocator whose pool is empty. -/
theorem normalize_again_nested : ∃ t, nested.normalize {} = .ok nestedNormal t ∧
    (∃ text, nestedNormal.format = .ok text ∧ nestedNormal.toExtended.format = .ok text) ∧
    (∀ p ∈ nestedNormal.toExtended.rules.values, p.repetitionCount = .ok 0) ∧
    ∃ u', nestedNormal.toExtended.normalize ⟨⟨.ofList [⟨"Z"⟩], .listed []⟩, some []⟩ =
      .ok nestedNormal u' ∧ u'.allocator.pool = .listed [] ∧
        u'.allocator.inUse = .ofList [⟨"Z"⟩] ∪ nestedNormal.allVariables := by
  obtain ⟨t, ht⟩ := normalize_nested
  obtain ⟨htext, hcount, hagain⟩ := normalize_again ht
  exact ⟨t, ht, htext, hcount, hagain _⟩

end Grammar
end ContextFree
