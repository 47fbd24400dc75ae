/-
# Normalizing loses no variable and adds none but helpers

A variable inside of a repetition disappears from its rule. It comes up again in the
rule of a helper, of the group around it or of one further inside
(`mem_references_replace`), because every group has a helper and every helper a rule.
In the other direction a plain form references nothing but what the production does
and helpers (`references_replace`). So the normal form has the variables of the
grammar and its helpers, and nothing else (`Translation.mem_allVariables_iff`).

That no helper is left out of use is seen by going down from the rules of the grammar:
where all references of a plain form are reached, so are the helpers of all groups of
the production (`Translation.reaches_of_replace`). The main statement is
`normalize_keeps_variables`.
-/

import ContextFree.Grammar.References
import ContextFree.Proofs.Normalization.Decoding

namespace ContextFree
namespace Production

variable {helper : Production → Variable} {p : Production} {v : Variable}

/-- A helper rule references what its body does, and the helper. -/
theorem mem_references_plainHelperRule {body : Production} {x : Variable} :
    v ∈ (plainHelperRule body x).references ↔ v ∈ body.references ∨ v = x := by
  simp [plainHelperRule, references, referencesAll_eq]

/-- **A plain form references no other variables** than the production does, and
helpers of the groups met. -/
theorem references_replace (hv : v ∈ (p.replace helper).references) :
    v ∈ p.references ∨ ∃ c ∈ p.met, v = helper c := by
  induction p using induction with
  | epsilon d | terminal d _ | reference d _ => exact .inl hv
  | optional d c ih => exact ih hv
  | join d op cs ih =>
    rw [replace_join, references_join, List.flatMap_map, List.mem_flatMap] at hv
    obtain ⟨c, hc, hv⟩ := hv
    rw [references_join, met_join]
    rcases ih c hc hv with hv | ⟨q, hq, rfl⟩
    · exact .inl (List.mem_flatMap.2 ⟨c, hc, hv⟩)
    · exact .inr ⟨q, List.mem_flatMap.2 ⟨c, hc, hq⟩, rfl⟩
  | star c => exact .inr ⟨c, List.mem_cons_self, List.mem_singleton.1 hv⟩
  | plus c ih =>
    rw [replace, references_join, List.flatMap_cons, List.mem_append] at hv
    rcases hv with hv | hv
    · rcases ih hv with hv | ⟨q, hq, he⟩
      · exact .inl hv
      · exact .inr ⟨q, List.mem_append_left _ hq, he⟩
    · exact .inr ⟨c, List.mem_append_right _ List.mem_cons_self, List.mem_singleton.1 hv⟩

/-- **No reference is lost:** it is in the plain form, or in that of a group. -/
theorem mem_references_replace (helper : Production → Variable) (hv : v ∈ p.references) :
    v ∈ (p.replace helper).references ∨ ∃ c ∈ p.groups, v ∈ (c.replace helper).references := by
  induction p using induction with
  | epsilon d | terminal d _ | reference d _ => exact .inl hv
  | optional d c ih => exact ih hv
  | join d op cs ih =>
    rw [references_join, List.mem_flatMap] at hv
    obtain ⟨c, hc, hv⟩ := hv
    rw [replace_join, references_join, List.flatMap_map, groups_join]
    rcases ih c hc hv with hv | ⟨q, hq, hv⟩
    · exact .inl (List.mem_flatMap.2 ⟨c, hc, hv⟩)
    · exact .inr ⟨q, List.mem_flatMap.2 ⟨c, hc, hq⟩, hv⟩
  | star c ih | plus c ih =>
    rcases ih hv with hv | ⟨q, hq, hv⟩
    · exact .inr ⟨c, List.mem_cons_self, hv⟩
    · exact .inr ⟨q, List.mem_cons_of_mem c hq, hv⟩

end Production

namespace Grammar

open Production

namespace Translation

variable {g n : Grammar} {gs : List Production} {helper : Production → Variable}

/-- The rules are those of the grammar and then the helper rules. -/
theorem keys_eq (h : g.Translation gs helper n) :
    n.rules.keys = g.rules.keys ++ (n.helperRules g.rules.size).keys := by
  rw [h.keys_rules, h.keys_helperRules]

/-- The rules after those of the grammar are for the helpers of its groups. -/
theorem mem_keys_helperRules (h : g.Translation gs helper n) {v : Variable} :
    v ∈ (n.helperRules g.rules.size).keys ↔ ∃ c ∈ g.groups, v = helper c := by
  simp only [h.keys_helperRules, List.mem_map, h.mem_groups, eq_comm]

/-- The right-hand sides are plain forms of the grammar's own, or those of helpers. -/
theorem mem_values_iff (h : g.Translation gs helper n) {q : Production} :
    q ∈ n.rules.values ↔ (∃ p ∈ g.rules.values, p.replace helper = q) ∨
      ∃ c ∈ g.groups, plainHelperRule (c.replace helper) (helper c) = q := by
  simp only [Registry.values, h.rules, List.map_append, List.map_map, List.mem_append,
    List.mem_map, h.mem_groups, exists_exists_and_eq_and, Function.comp_def]

/-! ### Which variables there are -/

/-- A variable that is referenced in a production of the grammar is so in the normal form. -/
theorem mem_references (h : g.Translation gs helper n) {p : Production} (hp : p ∈ g.rules.values)
    {v : Variable} (hv : v ∈ p.references) : ∃ q ∈ n.rules.values, v ∈ q.references := by
  rcases mem_references_replace helper hv with hv | ⟨c, hc, hv⟩
  · exact ⟨_, h.mem_values_iff.2 (.inl ⟨p, hp, rfl⟩), hv⟩
  · have hgroup : c ∈ g.groups := List.mem_flatMap.2 ⟨p, hp, hc⟩
    exact ⟨_, h.mem_values_iff.2 (.inr ⟨c, hgroup, rfl⟩),
      mem_references_plainHelperRule.2 (.inl hv)⟩

/-- What the normal form references is a variable of the grammar or a helper. -/
theorem mem_of_mem_references (h : g.Translation gs helper n) {q : Production}
    (hq : q ∈ n.rules.values) {v : Variable} (hv : v ∈ q.references) :
    v ∈ g.allVariables ∨ v ∈ (n.helperRules g.rules.size).keys := by
  rcases h.mem_values_iff.1 hq with ⟨p, hp, rfl⟩ | ⟨c, hc, rfl⟩
  · rcases references_replace hv with hv | ⟨c, hc, rfl⟩
    · exact .inl (mem_allVariables.2 (.inr (.inr ⟨p, hp, hv⟩)))
    · exact .inr (h.mem_keys_helperRules.2 ⟨c, mem_groups_of_met hp hc, rfl⟩)
  · rcases mem_references_plainHelperRule.1 hv with hv | rfl
    · rcases references_replace hv with hv | ⟨d, hd, rfl⟩
      · exact .inl (references_subset_of_mem_groups hc v hv)
      · exact .inr (h.mem_keys_helperRules.2 ⟨d, mem_groups_of_met_group hc hd, rfl⟩)
    · exact .inr (h.mem_keys_helperRules.2 ⟨c, hc, rfl⟩)

/-- **The variables of the normal form** are those of the grammar and the helpers. -/
theorem mem_allVariables_iff (h : g.Translation gs helper n) (v : Variable) :
    v ∈ n.allVariables ↔ v ∈ g.allVariables ∨ v ∈ (n.helperRules g.rules.size).keys := by
  constructor
  · intro hv
    rcases mem_allVariables.1 hv with hv | rfl | ⟨q, hq, hv⟩
    · rw [h.keys_eq, List.mem_append] at hv
      exact hv.imp_left fun hv => mem_allVariables.2 (.inl hv)
    · rw [h.start]
      exact .inl (mem_allVariables.2 (.inr (.inl rfl)))
    · exact h.mem_of_mem_references hq hv
  · intro hv
    rw [mem_allVariables, h.keys_eq, List.mem_append, h.start]
    rcases hv with hv | hv
    · rcases mem_allVariables.1 hv with hv | rfl | ⟨p, hp, hv⟩
      · exact .inl (.inl hv)
      · exact .inr (.inl rfl)
      · exact .inr (.inr (h.mem_references hp hv))
    · exact .inl (.inr hv)

/-! ### Which helpers are reached -/

/-- **All helpers of a production are reached** when the references of its plain form
are. A helper that is reached leads to its own rule, and so to the groups inside. -/
theorem reaches_of_replace (h : g.Translation gs helper n) {p : Production}
    (hp : p.groups ⊆ g.groups)
    (hrefs : ∀ v ∈ (p.replace helper).references, n.Reaches g.rules.size v) :
    ∀ c ∈ p.groups, n.Reaches g.rules.size (helper c) := by
  have hbody {c : Production} (hc : c ∈ g.groups) (hreach : n.Reaches g.rules.size (helper c))
      (v : Variable) (hv : v ∈ (c.replace helper).references) : n.Reaches g.rules.size v :=
    .helper hreach (h.get?_helperRules hc) (mem_references_plainHelperRule.2 (.inl hv))
  induction p using induction with
  | epsilon d | terminal d _ | reference d _ => exact fun c hc => absurd hc List.not_mem_nil
  | optional d q ih => exact ih hp hrefs
  | join d op cs ih =>
    intro c hc
    rw [replace_join, references_join, List.flatMap_map] at hrefs
    rw [groups_join] at hp hc
    obtain ⟨q, hq, hc⟩ := List.mem_flatMap.1 hc
    exact ih q hq (fun x hx => hp (List.mem_flatMap.2 ⟨q, hq, hx⟩))
      (fun v hv => hrefs v (List.mem_flatMap.2 ⟨q, hq, hv⟩)) c hc
  | star q ih =>
    obtain ⟨hq, hgroups⟩ := List.cons_subset.1 hp
    have hreach : n.Reaches g.rules.size (helper q) := hrefs _ List.mem_cons_self
    exact List.forall_mem_cons.2 ⟨hreach, ih hgroups (hbody hq hreach)⟩
  | plus q ih =>
    obtain ⟨hq, hgroups⟩ := List.cons_subset.1 hp
    have hreach : n.Reaches g.rules.size (helper q) := hrefs _ (by simp [replace, references])
    exact List.forall_mem_cons.2 ⟨hreach, ih hgroups (hbody hq hreach)⟩

/-- **Every helper is reached** from the rules of the grammar. -/
theorem reaches (h : g.Translation gs helper n) {v : Variable}
    (hv : v ∈ (n.helperRules g.rules.size).keys) : n.Reaches g.rules.size v := by
  obtain ⟨c, hc, rfl⟩ := h.mem_keys_helperRules.1 hv
  obtain ⟨p, hp, hcp⟩ := List.mem_flatMap.1 hc
  obtain ⟨e, he, rfl⟩ := List.mem_map.1 hp
  refine h.reaches_of_replace (fun x hx => List.mem_flatMap.2 ⟨e.2, hp, hx⟩) (fun v hv => ?_) c hcp
  have hrule : (e.1, e.2.replace helper) ∈ n.rules.entries.take g.rules.size := by
    rw [h.take_entries]
    exact List.mem_map_of_mem he
  exact .rule hrule hv

end Translation

/-- **Normalizing keeps the variables.** The rules of the normal form are those of the
grammar and of the helpers, which are no variables of the grammar. Its variables are
those of the grammar and the helpers, and the same ones have no rule. Every helper is
reached from the rules of the grammar by way of helper rules. All of its variables are
in use afterwards, and nothing else that was not before. -/
theorem normalize_keeps_variables {g n : Grammar} {s t : Naming} (h : g.normalize s = .ok n t) :
    n.rules.keys = g.rules.keys ++ (n.helperRules g.rules.size).keys ∧
      (∀ v ∈ (n.helperRules g.rules.size).keys, v ∉ g.allVariables) ∧
      (∀ v, v ∈ n.allVariables ↔ v ∈ g.allVariables ∨ v ∈ (n.helperRules g.rules.size).keys) ∧
      (∀ v, n.Undefined v ↔ g.Undefined v) ∧
      (∀ v ∈ (n.helperRules g.rules.size).keys, n.Reaches g.rules.size v) ∧
      t.allocator.inUse = s.allocator.inUse ∪ n.allVariables := by
  obtain ⟨gs, helper, htrans, hsupply⟩ := exists_translation h
  have hfresh : ∀ v ∈ (n.helperRules g.rules.size).keys, v ∉ g.allVariables := by
    rw [htrans.keys_helperRules]
    exact helper_not_mem_allVariables hsupply
  refine ⟨htrans.keys_eq, hfresh, htrans.mem_allVariables_iff, fun v => ?_,
    fun v => htrans.reaches, NameSet.ext fun v => ?_⟩
  · have hnew := hfresh v
    rw [undefined_iff, undefined_iff, htrans.mem_allVariables_iff, htrans.keys_eq, List.mem_append]
    tauto
  · rw [hsupply.mem_inUse, ← htrans.keys_helperRules, NameSet.mem_union,
      htrans.mem_allVariables_iff, Allocator.reserveAll, NameSet.mem_union, or_assoc]

/-- In the normal form of `S -> ('a'+ T)*`, the helper `B` of `'a'` is reached through `A`,
and `T` has no rule. -/
theorem normalize_keeps_variables_nested :
    ∃ t, nested.normalize {} = .ok nestedNormal t ∧
      nestedNormal.rules.keys = [⟨"S"⟩] ++ [⟨"A"⟩, ⟨"B"⟩] ∧
      (∀ v, v ∈ nestedNormal.allVariables ↔ v ∈ nested.allVariables ∨ v ∈ [⟨"A"⟩, ⟨"B"⟩]) ∧
      nestedNormal.Undefined ⟨"T"⟩ ∧ nestedNormal.Reaches 1 ⟨"B"⟩ ∧
      t.allocator.inUse = ∅ ∪ nestedNormal.allVariables := by
  obtain ⟨t, ht⟩ := normalize_nested
  obtain ⟨hkeys, -, hvariables, hundefined, hreaches, hused⟩ := normalize_keeps_variables ht
  have hhelpers : (nestedNormal.helperRules nested.rules.size).keys = [⟨"A"⟩, ⟨"B"⟩] := by decide
  rw [hhelpers] at hkeys hvariables hreaches
  have hT : nested.Undefined ⟨"T"⟩ := by
    rw [undefined_iff]
    decide
  exact ⟨t, ht, hkeys, hvariables, (hundefined _).2 hT, hreaches _ (by decide), hused⟩

end Grammar
end ContextFree
