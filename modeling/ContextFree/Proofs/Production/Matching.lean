/-
# Matching, node by node

What each node matches, in terms of its children, and what matching depends on:
a production matches the same words under two assignments that agree on the
variables it references (`matches_congr`). The main statement is
`matches_replace_iff`: if the helper of every group met stands for the
repetition of the group, a production and its plain form match the same words.
-/

import ContextFree.Production.Meaning
import ContextFree.Proofs.Conversion.Groups

namespace ContextFree
namespace Production

variable {E F : Assignment} {d : Dialect} {w : Word}

/-! ### What a node matches -/

/-- The empty production matches the empty word only. -/
theorem matches_epsilon_iff : Matches E (.epsilon d) w ↔ w = [] := by
  constructor
  · intro h
    cases h
    rfl
  · rintro rfl
    exact .epsilon

/-- A terminal matches itself only. -/
theorem matches_terminal_iff {t : Terminal} : Matches E (.terminal d t) w ↔ w = [t] := by
  constructor
  · intro h
    cases h
    rfl
  · rintro rfl
    exact .terminal

/-- A variable matches what it stands for. -/
theorem matches_reference_iff {v : Variable} : Matches E (.reference d v) w ↔ E v w := by
  constructor
  · intro h
    cases h with
    | reference h => exact h
  · exact .reference

/-- An optional part matches the empty word and what its child does. -/
theorem matches_optional_iff {c : Production} :
    Matches E (.optional d c) w ↔ w = [] ∨ Matches E c w := by
  constructor
  · intro h
    cases h with
    | absent => exact .inl rfl
    | present h => exact .inr h
  · rintro (rfl | h)
    · exact .absent
    · exact .present h

/-- An alternative matches what one of its children does. -/
theorem matches_alternative_iff {cs : List Production} :
    Matches E (.join d .alternative cs) w ↔ ∃ c ∈ cs, Matches E c w := by
  constructor
  · intro h
    cases h with
    | alternative hc h => exact ⟨_, hc, h⟩
  · rintro ⟨c, hc, h⟩
    exact .alternative hc h

/-- A sequence without children matches the empty word only. -/
theorem matches_sequence_nil_iff : Matches E (.join d .sequence []) w ↔ w = [] := by
  constructor
  · intro h
    cases h
    rfl
  · rintro rfl
    exact .sequenceNil

/-- A sequence matches a word of its first child and then one of the others in sequence. -/
theorem matches_sequence_cons_iff {c : Production} {cs : List Production} :
    Matches E (.join d .sequence (c :: cs)) w ↔
      ∃ u u', w = u ++ u' ∧ Matches E c u ∧ Matches E (.join d .sequence cs) u' := by
  constructor
  · intro h
    cases h with
    | sequenceCons h hs => exact ⟨_, _, rfl, h, hs⟩
  · rintro ⟨u, u', rfl, h, hs⟩
    exact .sequenceCons h hs

/-- A sequence of two matches a word of the first and then one of the second. -/
theorem matches_sequence_pair_iff {c c' : Production} :
    Matches E (.join d .sequence [c, c']) w ↔
      ∃ u u', w = u ++ u' ∧ Matches E c u ∧ Matches E c' u' := by
  simp only [matches_sequence_cons_iff, matches_sequence_nil_iff]
  constructor
  · rintro ⟨u, _, rfl, h, u', _, rfl, h', rfl⟩
    exact ⟨u, u', by rw [List.append_nil], h, h'⟩
  · rintro ⟨u, u', rfl, h, h'⟩
    exact ⟨u, u', rfl, h, u', [], by rw [List.append_nil], h', rfl⟩

/-- An `X+` matches what the sequence `X X*` does. -/
theorem matches_plus_iff {c : Production} :
    Matches E (.plus c) w ↔ ∃ u u', w = u ++ u' ∧ Matches E c u ∧ Matches E (.star c) u' := by
  constructor
  · intro h
    cases h with
    | plus h hs => exact ⟨_, _, rfl, h, hs⟩
  · rintro ⟨u, u', rfl, h, hs⟩
    exact .plus h hs

/-- A helper rule matches nothing, or its body and then what the helper stands for. -/
theorem matches_plainHelperRule_iff {body : Production} {v : Variable} :
    Matches E (plainHelperRule body v) w ↔
      w = [] ∨ ∃ u u', w = u ++ u' ∧ Matches E body u ∧ E v u' := by
  simp only [plainHelperRule, matches_alternative_iff, List.mem_cons, List.not_mem_nil, or_false,
    exists_eq_or_imp, exists_eq_left, matches_epsilon_iff, matches_sequence_pair_iff,
    matches_reference_iff]

/-! ### What matching depends on -/

/-- Only the referenced variables matter. -/
theorem Matches.mono_of_references {p : Production} (h : Matches E p w)
    (hEF : ∀ v ∈ p.references, ∀ u, E v u → F v u) : Matches F p w := by
  induction h with
  | epsilon => exact .epsilon
  | terminal => exact .terminal
  | reference h => exact .reference (hEF _ List.mem_cons_self _ h)
  | absent => exact .absent
  | present _ ih => exact .present (ih hEF)
  | @alternative _ cs c _ hc _ ih =>
    refine .alternative hc (ih fun v hv => hEF v ?_)
    rw [references, referencesAll_eq]
    exact List.mem_flatMap.2 ⟨c, hc, hv⟩
  | sequenceNil => exact .sequenceNil
  | sequenceCons _ _ ih ihs =>
    exact .sequenceCons (ih fun v hv => hEF v (List.mem_append_left _ hv))
      (ihs fun v hv => hEF v (List.mem_append_right _ hv))
  | starNil => exact .starNil
  | starCons _ _ ih ihs => exact .starCons (ih hEF) (ihs hEF)
  | plus _ _ ih ihs => exact .plus (ih hEF) (ihs hEF)

/-- **Assignments that agree on the referenced variables** give the same words. -/
theorem matches_congr {p : Production} (hEF : ∀ v ∈ p.references, ∀ u, E v u ↔ F v u) :
    Matches E p w ↔ Matches F p w :=
  ⟨fun h => h.mono_of_references fun v hv u => (hEF v hv u).1,
    fun h => h.mono_of_references fun v hv u => (hEF v hv u).2⟩

/-- A group references only variables of the production it belongs to. -/
theorem references_subset_of_mem_groups {p c : Production} (hc : c ∈ p.groups) :
    c.references ⊆ p.references := by
  induction p using induction with
  | epsilon d | terminal d _ | reference d _ => exact absurd hc List.not_mem_nil
  | optional d q ih => exact ih hc
  | join d op cs ih =>
    rw [groups_join, List.mem_flatMap] at hc
    obtain ⟨q, hq, hc⟩ := hc
    intro v hv
    rw [references, referencesAll_eq]
    exact List.mem_flatMap.2 ⟨q, hq, ih q hq hc hv⟩
  | star q ih | plus q ih =>
    rcases List.mem_cons.1 hc with rfl | hc
    · exact List.Subset.refl _
    · exact ih hc

/-- A repetition depends on what its child matches only. -/
theorem matches_star_congr {c c' : Production} (h : ∀ u, Matches E c u ↔ Matches F c' u) :
    Matches E (.star c) w ↔ Matches F (.star c') w := by
  simp only [matches_star_iff, h]

/-! ### The plain form -/

/-- A sequence matches the same words if each child is replaced by one that does, in either
dialect. -/
theorem matches_sequence_map_iff {f : Production → Production} {cs : List Production}
    (h : ∀ c ∈ cs, ∀ u, Matches E (f c) u ↔ Matches E c u) (e : Dialect) (w : Word) :
    Matches E (.join d .sequence (cs.map f)) w ↔ Matches E (.join e .sequence cs) w := by
  induction cs generalizing w with
  | nil => rw [List.map_nil, matches_sequence_nil_iff, matches_sequence_nil_iff]
  | cons c cs ih =>
    have hrest := ih fun x hx => h x (List.mem_cons_of_mem c hx)
    simp only [List.map_cons, matches_sequence_cons_iff, h c List.mem_cons_self, hrest]

/-- **The plain form matches the same words** when each helper stands for the
repetition of its group. -/
theorem matches_replace_iff {helper : Production → Variable} {p : Production}
    (hE : ∀ c ∈ p.met, ∀ u, E (helper c) u ↔ Matches E (.star c) u) (w : Word) :
    Matches E (p.replace helper) w ↔ Matches E p w := by
  induction p using induction generalizing w with
  | epsilon d => rw [replace, matches_epsilon_iff, matches_epsilon_iff]
  | terminal d t => rw [replace, matches_terminal_iff, matches_terminal_iff]
  | reference d v => rw [replace, matches_reference_iff, matches_reference_iff]
  | optional d c ih => rw [replace, matches_optional_iff, matches_optional_iff, ih hE]
  | join d op cs ih =>
    have hcs : ∀ c ∈ cs, ∀ u, Matches E (c.replace helper) u ↔ Matches E c u := by
      refine fun c hc u => ih c hc (fun x hx => hE x ?_) u
      rw [met_join, List.mem_flatMap]
      exact ⟨c, hc, hx⟩
    rw [replace_join]
    cases op with
    | alternative =>
      rw [matches_alternative_iff, matches_alternative_iff]
      constructor
      · rintro ⟨_, hx, h⟩
        obtain ⟨c, hc, rfl⟩ := List.mem_map.1 hx
        exact ⟨c, hc, (hcs c hc w).1 h⟩
      · rintro ⟨c, hc, h⟩
        exact ⟨c.replace helper, List.mem_map_of_mem hc, (hcs c hc w).2 h⟩
    | sequence => exact matches_sequence_map_iff hcs d w
  | star c => rw [replace, matches_reference_iff, hE c List.mem_cons_self]
  | plus c ih =>
    have hc := ih fun x hx => hE x (List.mem_append_left _ hx)
    have hstar := hE c (List.mem_append_right _ List.mem_cons_self)
    simp only [replace, matches_sequence_pair_iff, matches_plus_iff, matches_reference_iff, hc,
      hstar]

end Production
end ContextFree
