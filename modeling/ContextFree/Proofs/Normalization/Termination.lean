/-
# Every pass ends

The queue of a pass grows while it is drained, and a `+` is converted as a larger
tree than it is. Still everything comes to an end, and for four reasons. A rule
that is queued for a group has fewer repetitions than the rule in which the group
was met; each group of the grammar is queued once at most, so that a pass that
comes to its end took exactly as many steps as there are rules and different
groups (`Grammar.Drains`). A draw looks at finitely many candidates
(`Allocator.exists_looks`), and a conversion calls itself only for what takes less
effort (`Production.effort_lt_of_mem_calls`). The main statement is
`worklist_drains`.
-/

import ContextFree.Proofs.Conversion.Recursion
import ContextFree.Proofs.Normalization.Success

namespace ContextFree

open Production

/-- **A helper rule has fewer repetitions** than any extended tree that meets its
group. -/
theorem Production.repetitionCount_helperRule_lt {p c : Production} (hp : Within .extended p)
    (hc : c ∈ p.met) (v : Variable) :
    ∃ m n, (helperRule c v).repetitionCount = .ok m ∧ p.repetitionCount = .ok n ∧ m < n := by
  have hwithin : Within .extended (helperRule c v) :=
    within_helperRule.2 ((within_extended_iff.1 hp).2 c hc)
  refine ⟨c.groups.length, p.groups.length, ?_, ?_, ?_⟩
  · rw [repetitionCount_eq, if_pos hwithin, groups_helperRule]
  · rw [repetitionCount_eq, if_pos hp]
  · exact (cons_groups_sublist (met_subset_groups p hc)).length_le

/-- A step queues the rules of new helpers, for groups that the rule meets. -/
theorem Worklist.queue_of_step {w w' : Worklist} {v : Variable} {p : Production}
    {rest : List (Variable × Production)} {s t : Naming} (h : w.step v p rest s = .ok w' t) :
    ∃ new : Helpers, w'.queue = rest ++ new.rules ∧ ∀ c ∈ new.groups, c ∈ p.met := by
  obtain ⟨-, -, new, hnew, rfl⟩ := step_eq_ok h
  exact ⟨new, rfl, fun c hc => (new_of_visitAll hnew hc).1⟩

namespace Pass

variable {g : Grammar} {a₀ a : Allocator} {past : List (Variable × Production)} {made : Helpers}
  {w : Worklist}

/-- Each rule of the grammar and of a helper was taken or is still in the queue. -/
theorem length_past_add (h : Pass g a₀ past made w a) :
    past.length + w.queue.length = g.rules.size + made.groups.length := by
  have hlen := congrArg List.length h.rules
  rw [List.length_append, List.length_append] at hlen
  rw [hlen, Helpers.rules, Helpers.groups, List.length_map, List.length_map]
  rfl

end Pass

namespace Grammar

/-- A pass over `g` that begins in the state `s` comes to its end. -/
structure Drains (g : Grammar) (s : Naming) : Prop where
  /-- Steps lead to an empty queue or to a step that faults, and that is the outcome. -/
  ends : ∃ k w t, (Worklist.ofGrammar g).Steps k s w t ∧
    (w.queue = [] ∧ (Worklist.ofGrammar g).drain s = .ok w.done t ∨
      ∃ v p rest f u, w.queue = (v, p) :: rest ∧ w.step v p rest t = .error f u ∧
        (Worklist.ofGrammar g).drain s = .error f u)
  /-- There are no more steps than rules and different groups. -/
  bounded : ∀ k w t, (Worklist.ofGrammar g).Steps k s w t →
    k ≤ g.rules.size + g.groups.eraseDups.length
  /-- There are as many when the queue is empty. -/
  exact : ∀ k w t, (Worklist.ofGrammar g).Steps k s w t → w.queue = [] →
    k = g.rules.size + g.groups.eraseDups.length
  /-- What a step queues has fewer repetitions than the rule it takes. -/
  smaller : ∀ k w t v p rest w' t', (Worklist.ofGrammar g).Steps k s w t →
    w.queue = (v, p) :: rest → w.step v p rest t = .ok w' t' →
    ∃ queued, w'.queue = rest ++ queued ∧ ∀ e ∈ queued, (∃ c ∈ p.met, e.2 = helperRule c e.1) ∧
      ∃ m n, e.2.repetitionCount = .ok m ∧ p.repetitionCount = .ok n ∧ m < n

/-- **A pass over a grammar that is extended throughout comes to its end.** -/
theorem drains {g : Grammar} (hg : g.Within .extended) (s : Naming) : g.Drains s where
  ends := by
    cases h : (Worklist.ofGrammar g).drain s with
    | ok rules t =>
      obtain ⟨k, w, hsteps, hq, rfl⟩ := Worklist.drain_eq_ok h
      exact ⟨k, w, t, hsteps, .inl ⟨hq, rfl⟩⟩
    | error f t =>
      obtain ⟨k, w, v, p, rest, u, hsteps, hq, hstep⟩ := Worklist.drain_eq_error h
      exact ⟨k, w, u, hsteps, .inr ⟨v, p, rest, f, t, hq, hstep, rfl⟩⟩
  bounded k w t hsteps := by
    obtain ⟨past, made, rfl, hpass⟩ := Pass.of_steps hsteps
    have hlen := hpass.length_past_add
    have hle := length_le_of_subset hpass.nodup_groups hpass.subset
    omega
  exact k w t hsteps hq := by
    obtain ⟨past, made, rfl, hpass⟩ := Pass.of_steps hsteps
    have hlen := hpass.length_past_add
    rw [hq, List.length_nil, Nat.add_zero, hpass.length_groups hq] at hlen
    exact hlen
  smaller k w t v p rest w' t' hsteps hq hstep := by
    obtain ⟨past, made, -, hpass⟩ := Pass.of_steps hsteps
    have hp : p.Within .extended := hpass.within_queue hg (hq ▸ List.mem_cons_self)
    obtain ⟨new, hqueue, hnew⟩ := Worklist.queue_of_step hstep
    refine ⟨new.rules, hqueue, fun e he => ?_⟩
    obtain ⟨⟨c, x⟩, hcx, rfl⟩ := List.mem_map.1 he
    have hc : c ∈ p.met := hnew c (List.mem_map_of_mem hcx)
    exact ⟨⟨c, hc, rfl⟩, repetitionCount_helperRule_lt hp hc x⟩

/-- **The worklist always drains.** A pass over a grammar that is extended
throughout comes to its end, whatever is in use and whatever the pool offers, and
one that succeeds takes a step for each rule and for each different group. Every
draw looks at finitely many candidates. Every call of a conversion takes less
effort, and nothing but these calls is needed: the equations of all levels have
the conversion as their one solution. -/
theorem worklist_drains {g : Grammar} (hg : g.Within .extended) :
    (∀ s, g.Drains s) ∧
    (∀ s n t, g.normalize s = .ok n t → ∃ w u,
      (Worklist.ofGrammar g).Steps (g.rules.size + g.groups.eraseDups.length)
        { s with allocator := s.allocator.reserveAll g.allVariables } w u ∧
      w.queue = [] ∧ n = { start := g.start, rules := w.done }) ∧
    (∀ a : Allocator, ∃ k, a.Looks k ∧
      (∀ names, a.pool = .listed names → k ≤ names.length) ∧
      (∀ stem next, a.pool = .counted stem next → k ≤ a.inUse.size + 1)) ∧
    (∀ p q : Production, q ∈ p.calls → q.effort < p.effort) ∧
    (∀ convert known p, (∀ q ∈ calls p, ∀ known, convert known q = toPlain known q) →
      level convert known p = toPlain known p) ∧
    (∀ convert, (∀ known p, convert known p = level convert known p) ↔ convert = toPlain) := by
  refine ⟨drains hg, fun s n t h => ?_, Allocator.exists_looks,
    fun p q => effort_lt_of_mem_calls, fun convert known p h => level_eq_toPlain h known,
    fun convert => eq_toPlain_iff⟩
  obtain ⟨k, w, u, hsteps, hq, -, rfl⟩ := exists_steps h
  obtain rfl := (drains hg _).exact k w u hsteps hq
  exact ⟨w, u, hsteps, hq, rfl⟩

/-- `S -> 'a'* S | 'a'+` takes two steps, one for its rule and one for its only group. -/
theorem worklist_drains_shared : shared.Within .extended ∧ (∀ s, shared.Drains s) ∧
    ∃ w u, (Worklist.ofGrammar shared).Steps 2 ⟨⟨∅ ∪ shared.allVariables, .letters⟩, none⟩ w u ∧
      w.queue = [] ∧ sharedNormal = { start := shared.start, rules := w.done } := by
  have hwithin : shared.Within .extended := by
    unfold Within
    decide
  have hcount : shared.rules.size + shared.groups.eraseDups.length = 2 := by decide
  obtain ⟨t, ht⟩ := normalize_shared
  obtain ⟨hdrains, hsteps, -⟩ := worklist_drains hwithin
  exact ⟨hwithin, hdrains, hcount ▸ hsteps _ _ _ ht⟩

end Grammar
end ContextFree
