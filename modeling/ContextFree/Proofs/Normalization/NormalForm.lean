/-
# The normal form of a grammar

Normalizing is a translation without memory: given one helper variable for each
group of the grammar, the normal form holds the plain form of every rule and one
rule for each helper, and nothing else. `Grammar.Translation` states this, with
the order of the helpers: a group gets its place where a scan of the right-hand
sides, those of the helpers included, meets it first. The main statement is
`normalize_translates`: what the pass with its queue and its replacers returns
is this translation, and the helper variables are the first names of the pool
that are neither in use nor variables of the grammar.
-/

import ContextFree.Proofs.Normalization.Pass

namespace ContextFree
namespace Grammar

/-- `n` is the normal form of `g` in which the groups `gs`, in this order, are
represented by their helpers. -/
structure Translation (g : Grammar) (gs : List Production) (helper : Production → Variable)
    (n : Grammar) : Prop where
  start : n.start = g.start
  /-- The rules of the grammar in plain form, and then one rule for each helper. -/
  rules : n.rules.entries =
    (g.rules.entries.map fun e => (e.1, e.2.replace helper)) ++
      gs.map fun c => (helper c, Production.plainHelperRule (c.replace helper) (helper c))
  /-- The groups stand as a scan of all right-hand sides meets them first. -/
  scan : gs = ((g.rules.values ++ gs.map fun c => Production.helperRule c (helper c)).flatMap
    Production.met).eraseDups
  /-- They are the groups of the grammar. -/
  mem_groups : ∀ c, c ∈ gs ↔ c ∈ g.groups
  /-- Different groups have different helpers. -/
  injective : ∀ c ∈ gs, ∀ d ∈ gs, helper c = helper d → c = d

/-- The rules are those of the grammar and of the helpers. -/
theorem Translation.keys_rules {g n : Grammar} {gs : List Production}
    {helper : Production → Variable} (h : g.Translation gs helper n) :
    n.rules.keys = g.rules.keys ++ gs.map helper := by
  rw [Registry.keys, h.rules, List.map_append, List.map_map, List.map_map]
  rfl

end Grammar

namespace Helpers

/-- A helper is the one of its group. -/
theorem helper_eq {made : Helpers} (h : made.groups.Nodup) {c : Production} {v : Variable}
    (hcv : (c, v) ∈ made) : made.helper c = v := by
  have hlookup : made.lookup c = some v := by
    obtain ⟨before, after, rfl⟩ := List.append_of_mem hcv
    rw [groups, List.map_append, List.nodup_append] at h
    refine List.lookup_eq_some_iff.2 ⟨before, after, rfl, fun e he => ?_⟩
    have hne := h.2.2 e.1 (List.mem_map_of_mem he) c List.mem_cons_self
    simpa using Ne.symm hne
  rw [helper, Known.helper, known_star, hlookup]
  rfl

/-- The names are the helpers of the groups. -/
theorem names_eq {made : Helpers} (h : made.groups.Nodup) :
    made.names = made.groups.map made.helper := by
  rw [names, groups, List.map_map]
  exact List.map_congr_left fun e he => (helper_eq h he).symm

/-- The rules are the helper rules of the groups. -/
theorem rules_eq {made : Helpers} (h : made.groups.Nodup) :
    made.rules = made.groups.map fun c => (made.helper c, Production.helperRule c (made.helper c)) := by
  rw [rules, groups, List.map_map]
  refine List.map_congr_left fun e he => ?_
  rw [Function.comp_apply, helper_eq h he]

end Helpers

namespace Pass

variable {g : Grammar} {a₀ a : Allocator} {past : List (Variable × Production)} {made : Helpers}
  {w : Worklist}

/-- No group has two helpers. -/
theorem nodup_groups (h : Pass g a₀ past made w a) : made.groups.Nodup := by
  rw [h.groups]
  exact nodup_eraseDups _

/-- When the queue is empty, all rules of the grammar and of the helpers were taken. -/
theorem past_eq (h : Pass g a₀ past made w a) (hq : w.queue = []) :
    past = g.rules.entries ++ made.rules := by
  rw [← h.rules, hq, List.append_nil]

/-- The rules of the grammar are among them. -/
theorem mem_past (h : Pass g a₀ past made w a) (hq : w.queue = []) {e : Variable × Production}
    (he : e ∈ g.rules.entries) : e ∈ past := by
  rw [h.past_eq hq]
  exact List.mem_append_left _ he

/-- A finished pass has met every group of the grammar. -/
theorem mem_groups_iff (h : Pass g a₀ past made w a) (hq : w.queue = []) (c : Production) :
    c ∈ made.groups ↔ c ∈ g.groups := by
  refine ⟨h.subset c, fun hc => ?_⟩
  have hclosed : ∀ d ∈ made.groups, d.met ⊆ made.groups := by
    intro d hd x hx
    obtain ⟨⟨d, v⟩, hdv, rfl⟩ := List.mem_map.1 hd
    have hrule : (v, Production.helperRule d v) ∈ past := by
      rw [h.past_eq hq]
      exact List.mem_append_right _ (List.mem_map.2 ⟨(d, v), hdv, rfl⟩)
    exact h.mem_groups hrule (by simpa using hx)
  obtain ⟨p, hp, hcp⟩ := List.mem_flatMap.1 hc
  obtain ⟨e, he, rfl⟩ := List.mem_map.1 hp
  have hmet : e.2.met ⊆ made.groups := fun x hx => h.mem_groups (h.mem_past hq he) hx
  exact Production.groups_subset_of_closed hclosed hmet hcp

/-- The groups were met in the rules of the grammar and then in those of the helpers. -/
theorem flatMap_met_past (h : Pass g a₀ past made w a) (hq : w.queue = []) :
    (past.flatMap fun e => e.2.met) = (g.rules.values ++ made.groups.map fun c =>
      Production.helperRule c (made.helper c)).flatMap Production.met := by
  rw [h.past_eq hq, Helpers.rules_eq h.nodup_groups, Registry.values]
  simp only [List.flatMap_append, List.flatMap_map]

/-- **A finished pass has translated the grammar.** -/
theorem translation (h : Pass g a₀ past made w a) (hq : w.queue = []) :
    g.Translation made.groups made.helper { start := g.start, rules := w.done } where
  start := rfl
  rules := by
    show w.done.entries = _
    rw [h.done, h.past_eq hq, List.map_append, Helpers.rules_eq h.nodup_groups, List.map_map]
    simp only [Function.comp_def, Production.replace_helperRule]
  scan := by
    rw [← h.flatMap_met_past hq]
    exact h.groups
  mem_groups := h.mem_groups_iff hq
  injective := by
    have hnodup : (made.groups.map made.helper).Nodup :=
      Helpers.names_eq h.nodup_groups ▸ h.supply.nodup
    exact fun c hc d hd => List.inj_on_of_nodup_map hnodup hc hd

/-- A grammar that was translated is extended throughout. -/
theorem within_extended (h : Pass g a₀ past made w a) (hq : w.queue = []) :
    g.Within .extended := by
  intro p hp
  obtain ⟨e, he, rfl⟩ := List.mem_map.1 hp
  have hpast := h.mem_past hq he
  exact Production.within_extended_iff.2
    ⟨h.opened e hpast, fun c hc => h.within c (h.mem_groups hpast hc)⟩

end Pass

namespace Grammar

/-- A grammar is normalized by steps that lead to an empty queue, and by a report then. -/
theorem exists_steps {g n : Grammar} {s t : Naming} (h : g.normalize s = .ok n t) :
    ∃ k w u, (Worklist.ofGrammar g).Steps k
        { s with allocator := s.allocator.reserveAll g.allVariables } w u ∧
      w.queue = [] ∧ Naming.report (n.format.map .normalized) u = .ok () t ∧
      n = { start := g.start, rules := w.done } := by
  obtain ⟨_, s₁, hs₁, h⟩ := Naming.bind_eq_ok.1 h
  obtain ⟨rules, s₂, hdrain, h⟩ := Naming.bind_eq_ok.1 h
  obtain ⟨_, s₃, hreport, h⟩ := Naming.bind_eq_ok.1 h
  obtain ⟨rfl, rfl⟩ := Naming.pure_eq_ok.1 h
  cases hs₁
  obtain ⟨k, w, hsteps, hq, rfl⟩ := Worklist.drain_eq_ok hdrain
  exact ⟨k, w, s₂, hsteps, hq, hreport, rfl⟩

/-- A grammar is normalized by a pass that ends with an empty queue. -/
theorem exists_pass {g n : Grammar} {s t : Naming} (h : g.normalize s = .ok n t) :
    ∃ past made w, Pass g (s.allocator.reserveAll g.allVariables) past made w t.allocator ∧
      w.queue = [] ∧ n = { start := g.start, rules := w.done } := by
  obtain ⟨k, w, u, hsteps, hq, hreport, rfl⟩ := exists_steps h
  obtain ⟨past, made, -, hpass⟩ := Pass.of_steps hsteps
  rw [← Naming.allocator_of_report hreport] at hpass
  exact ⟨past, made, w, hpass, hq, rfl⟩

/-- What normalizing returns is a translation, with the names that the allocator
hands out. -/
theorem exists_translation {g n : Grammar} {s t : Naming} (h : g.normalize s = .ok n t) :
    ∃ gs helper, g.Translation gs helper n ∧
      (s.allocator.reserveAll g.allVariables).Supplies (gs.map helper) t.allocator := by
  obtain ⟨past, made, w, hpass, hq, rfl⟩ := exists_pass h
  refine ⟨made.groups, made.helper, hpass.translation hq, ?_⟩
  rw [← Helpers.names_eq hpass.nodup_groups]
  exact hpass.supply

/-- **Normalizing translates:** whatever a pass over the grammar returns is its
normal form, for helpers whose names are the first of the pool that are neither
in use nor variables of the grammar, in the order of the scan. -/
theorem normalize_translates {g n : Grammar} {s t : Naming} (h : g.normalize s = .ok n t) :
    ∃ gs helper, g.Translation gs helper n ∧
      ∃ k, s.allocator.pool.unused (s.allocator.inUse ∪ g.allVariables) k = gs.map helper := by
  obtain ⟨gs, helper, htrans, hsupply⟩ := exists_translation h
  obtain ⟨k, hk, -⟩ := hsupply.exists_unused
  exact ⟨gs, helper, htrans, k, hk⟩

/-! ### A group inside of a group -/

/-- The grammar `S -> ('a'+ T)*`, in which `T` has no rule. -/
def nested : Grammar where
  start := ⟨"S"⟩
  rules := .ofList [(⟨"S"⟩, .star (.join .extended .sequence
    [.plus (.terminal .extended ⟨"a"⟩), .reference .extended ⟨"T"⟩]))]

/-- Its normal form `S -> A` with the helper rules `A -> eps | 'a' B T A` and
`B -> eps | 'a' B`. -/
def nestedNormal : Grammar where
  start := ⟨"S"⟩
  rules := .ofList [
    (⟨"S"⟩, .reference .plain ⟨"A"⟩),
    (⟨"A"⟩, Production.plainHelperRule (.join .plain .sequence
      [.join .plain .sequence [.terminal .plain ⟨"a"⟩, .reference .plain ⟨"B"⟩],
        .reference .plain ⟨"T"⟩]) ⟨"A"⟩),
    (⟨"B"⟩, Production.plainHelperRule (.terminal .plain ⟨"a"⟩) ⟨"B"⟩)]

/-- The helpers are `A` for the group and `B` for the `'a'+` inside of it. -/
theorem normalize_nested : ∃ t, nested.normalize {} = .ok nestedNormal t := by
  refine ⟨⟨⟨.ofList [⟨"A"⟩, ⟨"B"⟩, ⟨"S"⟩, ⟨"T"⟩], Pool.letters.skip 2⟩, none⟩, ?_⟩
  cbv

/-! ### A grammar with a group in two places -/

/-- The grammar `S -> 'a'* S | 'a'+`. -/
def shared : Grammar where
  start := ⟨"S"⟩
  rules := .ofList [(⟨"S"⟩, .join .extended .alternative
    [.join .extended .sequence [.star (.terminal .extended ⟨"a"⟩), .reference .extended ⟨"S"⟩],
      .plus (.terminal .extended ⟨"a"⟩)])]

/-- Its normal form `S -> A S | 'a' A` with the helper rule `A -> eps | 'a' A`. -/
def sharedNormal : Grammar where
  start := ⟨"S"⟩
  rules := .ofList [
    (⟨"S"⟩, .join .plain .alternative
      [.join .plain .sequence [.reference .plain ⟨"A"⟩, .reference .plain ⟨"S"⟩],
        .join .plain .sequence [.terminal .plain ⟨"a"⟩, .reference .plain ⟨"A"⟩]]),
    (⟨"A"⟩, Production.plainHelperRule (.terminal .plain ⟨"a"⟩) ⟨"A"⟩)]

/-- The two places of `'a'*` share the helper `A`. -/
theorem normalize_shared : ∃ t, shared.normalize {} = .ok sharedNormal t := by
  refine ⟨⟨⟨.ofList [⟨"A"⟩, ⟨"S"⟩], (Pool.letters.draw ∅).2⟩, none⟩, ?_⟩
  cbv

/-- `sharedNormal` is the translation, and `A` is the first letter that is free. -/
theorem normalize_translates_shared :
    ∃ t, shared.normalize {} = .ok sharedNormal t ∧
      ∃ gs helper, shared.Translation gs helper sharedNormal ∧
        ∃ k, Pool.letters.unused (∅ ∪ shared.allVariables) k = gs.map helper := by
  obtain ⟨t, ht⟩ := normalize_shared
  exact ⟨t, ht, normalize_translates ht⟩

end Grammar
end ContextFree
