/-
# What holds throughout a pass

A pass takes one rule after another from its queue (`Worklist.Steps`), and it
ends with an empty queue or with a step that faults (`drain_eq_ok`,
`drain_eq_error`). What a step does is said once (`step_eq_ok`). `Pass` says what holds between any two steps: which rules
were taken, which helpers were made and from which names, and what was put out.
Each step keeps it (`Pass.step`), so it holds after any number of steps
(`Pass.steps`).
-/

import ContextFree.Normalization
import ContextFree.Proofs.Conversion.Walk

namespace ContextFree
namespace Worklist

/-! ### Steps -/

/-- `Steps n w s w' s'`: `n` steps lead from the pass `w` in the state `s` to `w'` in `s'`. -/
inductive Steps : Nat → Worklist → Naming → Worklist → Naming → Prop where
  | refl {w : Worklist} {s : Naming} : Steps 0 w s w s
  | step {n : Nat} {w w' w'' : Worklist} {s s' s'' : Naming} {v : Variable} {p : Production}
      {rest : List (Variable × Production)} (hq : w.queue = (v, p) :: rest)
      (h : w.step v p rest s = .ok w' s') (hs : Steps n w' s' w'' s'') : Steps (n + 1) w s w'' s''

/-- **What a step does:** it takes a rule for a variable that has none yet, visits the
groups that the rule meets, and puts the rule out in plain form. The new helpers become
replacers, and their rules are queued. -/
theorem step_eq_ok {w w' : Worklist} {v : Variable} {p : Production}
    {rest : List (Variable × Production)} {s t : Naming} (h : w.step v p rest s = .ok w' t) :
    v ∉ w.done.keys ∧ p.Open ∧ ∃ new, Production.visitAll w.replacers.get? p.met s = .ok new t ∧
      w' = { done := w.done.insert v (p.replace (Known.learn w.replacers.get? new).helper)
             replacers := w.replacers.extend (.ofList new.entries)
             queue := rest ++ new.rules } := by
  obtain ⟨_, u, hchecked, h⟩ := Naming.bind_eq_ok.1 h
  obtain ⟨r, u', hr, h⟩ := Naming.bind_eq_ok.1 h
  obtain ⟨rfl, rfl⟩ := Naming.pure_eq_ok.1 h
  obtain ⟨hcheck, rfl⟩ := Naming.check_eq_ok.1 hchecked
  have hv : v ∉ w.done.keys := fun hv => by
    rw [if_pos hv] at hcheck
    cases hcheck
  obtain ⟨hopen, new, hnew, rfl⟩ := Production.toPlain_eq_ok hr
  exact ⟨hv, hopen, new, hnew, rfl⟩

/-- **A pass succeeds** when steps lead to an empty queue. -/
theorem drain_eq_ok {w : Worklist} {s t : Naming} {rules : Registry Variable Production}
    (h : w.drain s = .ok rules t) :
    ∃ n w', Steps n w s w' t ∧ w'.queue = [] ∧ w'.done = rules := by
  fun_induction drain w s with
  | case1 w s hq =>
    cases h
    exact ⟨0, w, .refl, hq, rfl⟩
  | case2 w s v p rest hq w' s' hstep ih =>
    obtain ⟨n, w'', hs, hempty, hdone⟩ := ih h
    exact ⟨n + 1, w'', .step hq hstep hs, hempty, hdone⟩
  | case3 => cases h

/-- **A pass faults** when steps lead to one that does. -/
theorem drain_eq_error {w : Worklist} {s t : Naming} {f : Fault} (h : w.drain s = .error f t) :
    ∃ n w' v p rest s', Steps n w s w' s' ∧ w'.queue = (v, p) :: rest ∧
      w'.step v p rest s' = .error f t := by
  fun_induction drain w s with
  | case1 => cases h
  | case2 w s v p rest hq w' s' hstep ih =>
    obtain ⟨n, w'', v', p', rest', s'', hs, hq', herror⟩ := ih h
    exact ⟨n + 1, w'', v', p', rest', s'', .step hq hstep hs, hq', herror⟩
  | case3 w s v p rest hq f' s' hstep =>
    cases h
    exact ⟨0, w, v, p, rest, s, .refl, hq, hstep⟩

end Worklist

/-! ### The invariant -/

/-- A pass over `g` that began with the allocator `a₀`: the rules in `past` were
taken from the queue, the helpers in `made` were made, and `w` and `a` are what
the pass and its allocator are now. -/
structure Pass (g : Grammar) (a₀ : Allocator) (past : List (Variable × Production))
    (made : Helpers) (w : Worklist) (a : Allocator) : Prop where
  /-- What was taken and what is queued are the rules of the grammar and of the helpers. -/
  rules : past ++ w.queue = g.rules.entries ++ made.rules
  /-- What was taken is put out in plain form. -/
  done : w.done.entries = past.map fun e => (e.1, e.2.replace made.helper)
  replacers : w.replacers.entries = made.entries
  /-- The helpers are those of the groups met so far, in the order of the scan. -/
  groups : made.groups = (past.flatMap fun e => e.2.met).eraseDups
  subset : ∀ c ∈ made.groups, c ∈ g.groups
  supply : a₀.Supplies made.names a
  within : ∀ c ∈ made.groups, c.Within .extended
  opened : ∀ e ∈ past, e.2.Open

namespace Pass

variable {g : Grammar} {a₀ a : Allocator} {past : List (Variable × Production)} {made : Helpers}
  {w : Worklist}

/-- It holds before the first step. -/
theorem init (g : Grammar) (a₀ : Allocator) : Pass g a₀ [] [] (.ofGrammar g) a₀ where
  rules := by simp [Worklist.ofGrammar, Helpers.rules]
  done := rfl
  replacers := rfl
  groups := by simp [Helpers.groups]
  subset := fun c hc => absurd hc List.not_mem_nil
  supply := .nil
  within := fun c hc => absurd hc List.not_mem_nil
  opened := fun e he => absurd he List.not_mem_nil

/-- The groups of the rules taken have helpers. -/
theorem mem_groups (h : Pass g a₀ past made w a) {e : Variable × Production} (he : e ∈ past)
    {c : Production} (hc : c ∈ e.2.met) : c ∈ made.groups := by
  rw [h.groups, List.mem_eraseDups]
  exact List.mem_flatMap.2 ⟨e, he, hc⟩

/-- A rule in the queue is one of the grammar or that of a helper. -/
theorem mem_queue (h : Pass g a₀ past made w a) {e : Variable × Production} (he : e ∈ w.queue) :
    e ∈ g.rules.entries ∨ ∃ c ∈ made.groups, ∃ v ∈ made.names,
      e = (v, Production.helperRule c v) := by
  have hmem : e ∈ past ++ w.queue := List.mem_append_right past he
  rw [h.rules, List.mem_append] at hmem
  refine hmem.imp_right fun hrule => ?_
  obtain ⟨⟨c, v⟩, hcv, rfl⟩ := List.mem_map.1 hrule
  exact ⟨c, List.mem_map.2 ⟨_, hcv, rfl⟩, v, List.mem_map.2 ⟨_, hcv, rfl⟩, rfl⟩

/-- A rule in the queue meets groups of the grammar only. -/
theorem met_subset (h : Pass g a₀ past made w a) {e : Variable × Production} (he : e ∈ w.queue)
    {c : Production} (hc : c ∈ e.2.met) : c ∈ g.groups := by
  rcases h.mem_queue he with he | ⟨d, hd, v, _, rfl⟩
  · exact Grammar.mem_groups_of_met (List.mem_map_of_mem he) hc
  · rw [Production.met_helperRule] at hc
    exact Grammar.mem_groups_of_met_group (h.subset d hd) hc

/-- The new groups of a rule are those that the scan meets there first. -/
theorem groups_append (h : Pass g a₀ past made w a) (e : Variable × Production) :
    made.groups ++ Production.newGroups made.known e.2.met =
      ((past ++ [e]).flatMap fun e => e.2.met).eraseDups := by
  have hfilter : (e.2.met.filter fun c => (made.known (.star c)).isNone) =
      e.2.met.removeAll (past.flatMap fun e => e.2.met) := by
    refine List.filter_congr fun c _ => ?_
    have hiff : (made.known (.star c)).isSome ↔ c ∈ past.flatMap fun e => e.2.met := by
      rw [Helpers.isSome_known_iff, h.groups, List.mem_eraseDups]
    cases hk : made.known (.star c) <;> simp [hk] at hiff ⊢ <;> simpa using hiff
  rw [List.flatMap_append, List.flatMap_singleton, List.eraseDups_append, ← h.groups, ← hfilter]
  rfl

/-- What was put out stays as it is when more helpers are made. -/
theorem map_replace_append (h : Pass g a₀ past made w a) (new : Helpers) :
    (past.map fun e => (e.1, e.2.replace made.helper)) =
      past.map fun e => (e.1, e.2.replace (Helpers.helper (made ++ new))) := by
  refine List.map_congr_left fun e he => ?_
  rw [Production.replace_congr fun c hc => (Helpers.helper_append (h.mem_groups he hc) new).symm]

/-- Replacers for new groups are all put in. -/
theorem entries_extend (h : Pass g a₀ past made w a) {new : Helpers} (hnodup : new.groups.Nodup)
    (hnew : ∀ c ∈ new.groups, made.known (.star c) = none) :
    (w.replacers.extend (.ofList new.entries)).entries = Helpers.entries (made ++ new) := by
  have hkeys : ∀ k ∈ new.entries.map Prod.fst, k ∉ w.replacers.keys := by
    intro k hk hold
    rw [Helpers.map_fst_entries] at hk
    rw [Registry.keys, h.replacers, Helpers.map_fst_entries] at hold
    obtain ⟨c, hc, rfl⟩ := List.mem_map.1 hk
    obtain ⟨d, hd, hdc⟩ := List.mem_map.1 hold
    obtain rfl := Production.star.inj hdc
    have hknown := Helpers.isSome_known_iff.2 hd
    rw [hnew d hc] at hknown
    exact Bool.false_ne_true hknown
  rw [Registry.extend, Helpers.entries_ofList hnodup,
    Registry.entries_insertAll_of_disjoint (Helpers.nodup_map_fst_entries hnodup) hkeys,
    h.replacers, Helpers.entries_append]

/-- **Each step keeps it:** the rule is taken, and its new groups get helpers. -/
theorem step (h : Pass g a₀ past made w a) {v : Variable} {p : Production}
    {rest : List (Variable × Production)} (hq : w.queue = (v, p) :: rest) {w' : Worklist}
    {s t : Naming} (ha : s.allocator = a) (hstep : w.step v p rest s = .ok w' t) :
    ∃ new, Production.visitAll made.known p.met s = .ok new t ∧
      Pass g a₀ (past ++ [(v, p)]) (made ++ new) w' t.allocator := by
  obtain ⟨hv, hopen, new, hnew, rfl⟩ := Worklist.step_eq_ok hstep
  rw [Helpers.get?_of_entries h.replacers] at hnew ⊢
  obtain ⟨hgroups, hsupply, hwithin⟩ := Production.visitAll_eq_ok hnew
  refine ⟨new, hnew, ?_, ?_, ?_, ?_, ?_, ?_, ?_, ?_⟩
  · have hrules := h.rules
    rw [hq] at hrules
    rw [Helpers.rules_append, ← List.append_assoc, ← List.append_assoc, ← hrules]
    simp
  · rw [Registry.entries_insert_of_not_mem hv, h.done, h.map_replace_append new, List.map_append,
      Helpers.helper, Helpers.known_append]
    rfl
  · exact h.entries_extend (Production.nodup_of_visitAll hnew) fun c hc =>
      (Production.new_of_visitAll hnew hc).2
  · rw [Helpers.groups_append, hgroups]
    exact h.groups_append (v, p)
  · intro c hc
    rw [Helpers.groups_append, List.mem_append, hgroups] at hc
    have hqueue : (v, p) ∈ w.queue := hq ▸ List.mem_cons_self
    exact hc.elim (h.subset c) fun hc => h.met_subset hqueue (Production.mem_newGroups.1 hc).1
  · rw [Helpers.names_append]
    exact h.supply.append (ha ▸ hsupply)
  · intro c hc
    rw [Helpers.groups_append, List.mem_append] at hc
    exact hc.elim (h.within c) (hwithin c)
  · intro e he
    rcases List.mem_append.1 he with he | he
    · exact h.opened e he
    · rw [List.mem_singleton.1 he]
      exact hopen

/-- It holds after any number of steps. -/
theorem steps (h : Pass g a₀ past made w a) {n : Nat} {w' : Worklist} {s t : Naming}
    (ha : s.allocator = a) (hs : w.Steps n s w' t) :
    ∃ past' made', past'.length = past.length + n ∧ Pass g a₀ past' made' w' t.allocator := by
  induction hs generalizing past made a with
  | refl => exact ⟨past, made, rfl, ha ▸ h⟩
  | step hq hstep _ ih =>
    obtain ⟨new, -, h'⟩ := h.step hq ha hstep
    obtain ⟨past', made', hlen, h''⟩ := ih h' rfl
    rw [List.length_append, List.length_singleton] at hlen
    exact ⟨past', made', by omega, h''⟩

/-- It holds wherever the steps of a pass over a grammar lead. -/
theorem of_steps {g : Grammar} {n : Nat} {w : Worklist} {s t : Naming}
    (hs : (Worklist.ofGrammar g).Steps n s w t) :
    ∃ past made, past.length = n ∧ Pass g s.allocator past made w t.allocator := by
  obtain ⟨past, made, hlen, hpass⟩ := (init g s.allocator).steps rfl hs
  rw [List.length_nil, Nat.zero_add] at hlen
  exact ⟨past, made, hlen, hpass⟩

end Pass
end ContextFree
