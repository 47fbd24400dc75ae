/-
# Normalizing keeps the language

A grammar and its normal form are two systems of recursive rules, and what their
variables derive are two least solutions. Each of them solves the other system
as well, once the helpers are given their meaning: the helper of a group derives
the words made of words of the group (`derives_plainHelperRule_iff`). So every variable
of the grammar derives the same words in both (`derives_normalize_iff`).

The helper of a group is the only thing that connects the two, and it does so
because no variable of the grammar has its name.
-/

import ContextFree.Grammar.Language
import ContextFree.Proofs.Normalization.NormalForm
import ContextFree.Proofs.Production.Matching

namespace ContextFree
namespace Grammar

open Production

/-- **A helper with the rule `v -> eps | body v`** derives the words made of words
of its body. -/
theorem derives_plainHelperRule_iff {n : Grammar} {v : Variable} {body : Production}
    (hv : n.rules.get? v = some (plainHelperRule body v)) (w : Word) :
    n.Derives v w ↔ ∃ us : List Word, us.flatten = w ∧ ∀ u ∈ us, body.Matches n.Derives u := by
  constructor
  · rintro ⟨k, h⟩
    induction k generalizing w with
    | zero => exact h.elim
    | succ k ih =>
      obtain ⟨p, hp, hw⟩ := h
      rw [hv] at hp
      obtain rfl := Option.some.inj hp
      rcases matches_plainHelperRule_iff.1 hw with rfl | ⟨u, u', rfl, hu, hu'⟩
      · exact ⟨[], rfl, fun u hu => absurd hu List.not_mem_nil⟩
      · obtain ⟨us, rfl, hus⟩ := ih _ hu'
        refine ⟨u :: us, rfl, fun x hx => ?_⟩
        rcases List.mem_cons.1 hx with rfl | hx
        · exact hu.mono fun _ _ h => ⟨k, h⟩
        · exact hus x hx
  · rintro ⟨us, rfl, hus⟩
    induction us with
    | nil => exact derives_iff.2 ⟨_, hv, matches_plainHelperRule_iff.2 (.inl rfl)⟩
    | cons u us ih =>
      have hrest := ih fun x hx => hus x (List.mem_cons_of_mem u hx)
      exact derives_iff.2 ⟨_, hv, matches_plainHelperRule_iff.2
        (.inr ⟨u, us.flatten, rfl, hus u List.mem_cons_self, hrest⟩)⟩

/-- A variable that does not belong to the grammar derives nothing. -/
theorem mem_allVariables_of_derives {g : Grammar} {v : Variable} {w : Word} (h : g.Derives v w) :
    v ∈ g.allVariables := by
  obtain ⟨p, hp, -⟩ := derives_iff.1 h
  rw [mem_allVariables]
  exact .inl (Registry.mem_keys_of_get? hp)

/-- The variables in a group of the grammar belong to the grammar. -/
theorem references_subset_of_mem_groups {g : Grammar} {c : Production} (hc : c ∈ g.groups) :
    ∀ v ∈ c.references, v ∈ g.allVariables := by
  obtain ⟨p, hp, hcp⟩ := List.mem_flatMap.1 hc
  exact fun v hv => mem_allVariables.2
    (.inr (.inr ⟨p, hp, Production.references_subset_of_mem_groups hcp hv⟩))

namespace Translation

variable {g n : Grammar} {gs : List Production} {helper : Production → Variable}

/-- The rules of the grammar are there in plain form. -/
theorem get?_of_get? (h : g.Translation gs helper n) {v : Variable} {p : Production}
    (hp : g.rules.get? v = some p) : n.rules.get? v = some (p.replace helper) := by
  rw [Registry.get?_eq_some_iff] at hp ⊢
  rw [h.rules]
  exact List.mem_append_left _ (List.mem_map.2 ⟨_, hp, rfl⟩)

/-- Every group of the grammar has a helper rule. -/
theorem get?_helper (h : g.Translation gs helper n) {c : Production} (hc : c ∈ g.groups) :
    n.rules.get? (helper c) = some (plainHelperRule (c.replace helper) (helper c)) := by
  rw [Registry.get?_eq_some_iff, h.rules]
  exact List.mem_append_right _ (List.mem_map.2 ⟨c, (h.mem_groups c).2 hc, rfl⟩)

/-- There are no other rules. -/
theorem get?_eq_some (h : g.Translation gs helper n) {v : Variable} {q : Production}
    (hq : n.rules.get? v = some q) :
    (∃ p, g.rules.get? v = some p ∧ q = p.replace helper) ∨
      ∃ c ∈ g.groups, v = helper c ∧ q = plainHelperRule (c.replace helper) (helper c) := by
  rw [Registry.get?_eq_some_iff, h.rules, List.mem_append, List.mem_map, List.mem_map] at hq
  rcases hq with ⟨e, he, heq⟩ | ⟨c, hc, heq⟩
  · obtain ⟨rfl, rfl⟩ := Prod.mk.inj heq
    exact .inl ⟨e.2, Registry.get?_eq_some_iff.2 he, rfl⟩
  · obtain ⟨rfl, rfl⟩ := Prod.mk.inj heq
    exact .inr ⟨c, (h.mem_groups c).1 hc, rfl, rfl⟩

/-! ### From the grammar to its normal form -/

/-- In the normal form, the helper of a group derives what the repetition of the
group matches there. The induction is on a production that the group is in, so
that the groups inside of the group come first. -/
theorem derives_helper_iff_of_mem_groups (h : g.Translation gs helper n) {p c : Production}
    (hp : p.groups ⊆ g.groups) (hc : c ∈ p.groups) (w : Word) :
    n.Derives (helper c) w ↔ (star c).Matches n.Derives w := by
  have hbody {q : Production} (hq : q ∈ g.groups)
      (ih : ∀ d ∈ q.groups, ∀ u, n.Derives (helper d) u ↔ (star d).Matches n.Derives u) (u : Word) :
      n.Derives (helper q) u ↔ (star q).Matches n.Derives u := by
    have hplain := matches_replace_iff fun d hd => ih d (met_subset_groups q hd)
    simp only [derives_plainHelperRule_iff (h.get?_helper hq), matches_star_iff, hplain]
  induction p using induction generalizing c w with
  | epsilon d | terminal d _ | reference d _ => exact absurd hc List.not_mem_nil
  | optional d q ih => exact ih hp hc w
  | join d op cs ih =>
    rw [groups_join] at hp hc
    obtain ⟨q, hq, hcq⟩ := List.mem_flatMap.1 hc
    exact ih q hq (fun x hx => hp (List.mem_flatMap.2 ⟨q, hq, hx⟩)) hcq w
  | star q ih | plus q ih =>
    obtain ⟨hq, hgroups⟩ := List.cons_subset.1 hp
    rcases List.mem_cons.1 hc with rfl | hc
    · exact hbody hq (fun d hd u => ih hgroups hd u) w
    · exact ih hgroups hc w

/-- In the normal form, the helper of a group of the grammar derives what the
repetition of the group matches there. -/
theorem derives_helper_iff_star (h : g.Translation gs helper n) {c : Production}
    (hc : c ∈ g.groups) (w : Word) :
    n.Derives (helper c) w ↔ (star c).Matches n.Derives w := by
  obtain ⟨p, hp, hcp⟩ := List.mem_flatMap.1 hc
  exact h.derives_helper_iff_of_mem_groups
    (fun x hx => List.mem_flatMap.2 ⟨p, hp, hx⟩) hcp w

/-- **The normal form derives what the grammar does.** -/
theorem derives_of_derives (h : g.Translation gs helper n) {v : Variable} {w : Word}
    (hw : g.Derives v w) : n.Derives v w := by
  refine derives_le (fun v p w hp hw => ?_) hw
  have hmem := Registry.mem_values_of_get? hp
  have hplain := matches_replace_iff
    (fun c hc => h.derives_helper_iff_star (mem_groups_of_met hmem hc)) w
  exact derives_iff.2 ⟨_, h.get?_of_get? hp, hplain.2 hw⟩

/-! ### From the normal form to the grammar -/

/-- What the variables of the normal form stand for, seen from the grammar: a
helper stands for the repetition of its group. -/
def meaning (g : Grammar) (helper : Production → Variable) : Assignment := fun v w =>
  g.Derives v w ∨ ∃ c ∈ g.groups, v = helper c ∧ (star c).Matches g.Derives w

/-- A variable of the grammar keeps its meaning. -/
theorem meaning_iff_derives (hfresh : ∀ c ∈ gs, helper c ∉ g.allVariables)
    (h : g.Translation gs helper n) {v : Variable} (hv : v ∈ g.allVariables) (w : Word) :
    meaning g helper v w ↔ g.Derives v w := by
  refine ⟨fun hw => hw.resolve_right ?_, .inl⟩
  rintro ⟨c, hc, rfl, -⟩
  exact hfresh c ((h.mem_groups c).2 hc) hv

/-- So does a production whose variables are those of the grammar. -/
theorem matches_meaning_iff (hfresh : ∀ c ∈ gs, helper c ∉ g.allVariables)
    (h : g.Translation gs helper n) {p : Production} (hp : ∀ v ∈ p.references, v ∈ g.allVariables)
    (w : Word) : p.Matches (meaning g helper) w ↔ p.Matches g.Derives w :=
  matches_congr fun v hv => meaning_iff_derives hfresh h (hp v hv)

/-- A helper stands for the repetition of its group. -/
theorem meaning_helper_iff (hfresh : ∀ c ∈ gs, helper c ∉ g.allVariables)
    (h : g.Translation gs helper n) {c : Production} (hc : c ∈ g.groups) (w : Word) :
    meaning g helper (helper c) w ↔ (star c).Matches g.Derives w := by
  constructor
  · rintro (hw | ⟨d, hd, heq, hw⟩)
    · exact absurd (mem_allVariables_of_derives hw) (hfresh c ((h.mem_groups c).2 hc))
    · obtain rfl := h.injective c ((h.mem_groups c).2 hc) d ((h.mem_groups d).2 hd) heq
      exact hw
  · exact fun hw => .inr ⟨c, hc, rfl, hw⟩

/-- **The normal form derives nothing else.** -/
theorem meaning_of_derives (hfresh : ∀ c ∈ gs, helper c ∉ g.allVariables)
    (h : g.Translation gs helper n) {v : Variable} {w : Word} (hw : n.Derives v w) :
    meaning g helper v w := by
  have hstar {c : Production} (hc : c ∈ g.groups) (u : Word) :
      meaning g helper (helper c) u ↔ (star c).Matches (meaning g helper) u := by
    rw [meaning_helper_iff hfresh h hc, matches_star_congr fun u =>
      (matches_meaning_iff hfresh h (references_subset_of_mem_groups hc) u).symm]
  refine derives_le (fun v q w hq hw => ?_) hw
  rcases h.get?_eq_some hq with ⟨p, hp, rfl⟩ | ⟨c, hc, rfl, rfl⟩
  · have hmem := Registry.mem_values_of_get? hp
    have hrefs : ∀ x ∈ p.references, x ∈ g.allVariables := fun x hx =>
      mem_allVariables.2 (.inr (.inr ⟨p, hmem, hx⟩))
    rw [matches_replace_iff fun c hc => hstar (mem_groups_of_met hmem hc)] at hw
    exact .inl (derives_iff.2 ⟨p, hp, (matches_meaning_iff hfresh h hrefs w).1 hw⟩)
  · rw [hstar hc]
    rcases matches_plainHelperRule_iff.1 hw with rfl | ⟨u, u', rfl, hu, hu'⟩
    · exact .starNil
    · have hplain := matches_replace_iff
        (fun d hd => hstar (mem_groups_of_met_group hc hd)) u
      exact .starCons (hplain.1 hu) ((hstar hc u').1 hu')

end Translation

/-- The helpers of a normalized grammar are none of its variables. -/
theorem helper_not_mem_allVariables {g : Grammar} {s t : Naming} {vs : List Variable}
    (h : (s.allocator.reserveAll g.allVariables).Supplies vs t.allocator) :
    ∀ v ∈ vs, v ∉ g.allVariables :=
  fun v hv hmem => h.not_mem_inUse v hv (NameSet.mem_union.2 (.inr hmem))

/-- **Normalizing keeps the language:** every variable of the grammar derives the
same words as before, from the same start, and the helper of a group derives the
words made of words of the group. -/
theorem derives_normalize_iff {g n : Grammar} {s t : Naming} (h : g.normalize s = .ok n t) :
    n.start = g.start ∧
      (∀ v ∈ g.allVariables, ∀ w, n.Derives v w ↔ g.Derives v w) ∧
      ∃ gs helper, g.Translation gs helper n ∧ ∀ c ∈ g.groups, ∀ w,
        n.Derives (helper c) w ↔
          ∃ us : List Word, us.flatten = w ∧ ∀ u ∈ us, c.Matches g.Derives u := by
  obtain ⟨gs, helper, htrans, hsupply⟩ := exists_translation h
  have hfresh : ∀ c ∈ gs, helper c ∉ g.allVariables := fun c hc =>
    helper_not_mem_allVariables hsupply _ (List.mem_map_of_mem hc)
  refine ⟨htrans.start, fun v hv w => ⟨fun hw => ?_, htrans.derives_of_derives⟩,
    gs, helper, htrans, fun c hc w => ?_⟩
  · exact (htrans.meaning_iff_derives hfresh hv w).1 (htrans.meaning_of_derives hfresh hw)
  · rw [← matches_star_iff]
    constructor
    · exact fun hw => (htrans.meaning_helper_iff hfresh hc w).1 (htrans.meaning_of_derives hfresh hw)
    · exact fun hw => (htrans.derives_helper_iff_star hc w).2
        (hw.mono fun _ _ => htrans.derives_of_derives)

/-- It does so for the grammar `S -> 'a'* S | 'a'+`. -/
theorem derives_normalize_shared :
    ∃ t, shared.normalize {} = .ok sharedNormal t ∧
      sharedNormal.start = shared.start ∧
      (∀ v ∈ shared.allVariables, ∀ w, sharedNormal.Derives v w ↔ shared.Derives v w) ∧
      ∃ gs helper, shared.Translation gs helper sharedNormal ∧ ∀ c ∈ shared.groups, ∀ w,
        sharedNormal.Derives (helper c) w ↔
          ∃ us : List Word, us.flatten = w ∧ ∀ u ∈ us, c.Matches shared.Derives u := by
  obtain ⟨t, ht⟩ := normalize_shared
  exact ⟨t, ht, derives_normalize_iff ht⟩

end Grammar
end ContextFree
