/-
# Fresh names over a session

A session performs steps in any order on one allocator, and a step that faults is
followed by more steps. `s.Hands step vs` says that the allocator hands out `vs`
while `step` is performed: the step first reserves its own variables, then draws
`vs` one after another, and answers with them or faults. A history lists the
steps of a session with what they were handed.

The main statement is `names_stay_fresh`. Every session has one history only, and
the names in it are different, stand in the order of the pool, and were neither
in use nor reserved when they were handed out. The names in use are those at the
start, the reserved ones and those handed out. The known replacers grow by those
of a conversion that is kept, and in no other way.
-/

import ContextFree.Session
import ContextFree.Proofs.Normalization.Checks

namespace ContextFree
namespace Session

/-! ### One step -/

/-- The variables that a step marks as used before it draws any name. -/
def Step.reserved : Step → NameSet
  | .fresh => ∅
  | .reserve v => .ofList [v]
  | .convert _ _ => ∅
  | .convertAll _ => ∅
  | .normalize g => g.allVariables

/-- The fresh names that the answer to a step shows: those made in a conversion, or
the variables of a normal form that have no rule in the grammar. -/
def Step.shown : Step → Answer → List Variable
  | .fresh, .name v => [v]
  | .convert _ _, .conversion r => r.newVariables
  | .convertAll _, .merged m => m.newVariables
  | .normalize g, .grammar n => n.rules.keys.drop g.rules.size
  | _, _ => []

/-- `s.Hands step vs`: the allocator hands out `vs` while `step` is performed, after
the variables of the step were reserved. -/
def Hands (s : Session) (step : Step) (vs : List Variable) : Prop :=
  match s.perform step with
  | (.ok answer, t) =>
      (s.naming.allocator.reserveAll step.reserved).Supplies vs t.naming.allocator ∧
        step.shown answer = vs
  | (.error f, t) => (s.naming.allocator.reserveAll step.reserved).Fails vs f t.naming.allocator

variable {known : Replacers} {step : Step} {x y : Naming}

/-- To reserve nothing changes nothing. -/
@[simp] theorem reserveAll_empty (a : Allocator) : a.reserveAll ∅ = a := by
  have hsame : a.inUse ∪ ∅ = a.inUse := NameSet.ext fun v => by simp
  rw [Allocator.reserveAll, hsame]

/-- To reserve a set of one is to reserve its member. -/
theorem reserveAll_singleton (a : Allocator) (v : Variable) :
    a.reserveAll (.ofList [v]) = a.reserve v := by
  have hsame : a.inUse ∪ .ofList [v] = a.inUse.insert v := NameSet.ext fun w => by
    simp [or_comm]
  rw [Allocator.reserveAll, Allocator.reserve, hsame]

/-- **An answer shows the names that were handed out.** -/
theorem supplies_of_answer {a : Answer} (h : answer known step x = .ok a y) :
    (x.allocator.reserveAll step.reserved).Supplies (step.shown a) y.allocator := by
  cases step with
  | fresh =>
    obtain ⟨v, u, hu, h⟩ := Naming.bind_eq_ok.1 h
    obtain ⟨rfl, rfl⟩ := Naming.pure_eq_ok.1 h
    rw [Step.reserved, reserveAll_empty]
    exact .cons (Naming.fresh_eq_ok.1 hu).1 .nil
  | reserve v =>
    cases h
    rw [Step.reserved, reserveAll_singleton]
    exact .nil
  | convert p keep =>
    obtain ⟨r, u, hr, h⟩ := Naming.bind_eq_ok.1 h
    obtain ⟨rfl, rfl⟩ := Naming.pure_eq_ok.1 h
    rw [Step.reserved, reserveAll_empty]
    exact Production.supplies_of_toPlain hr
  | convertAll ps =>
    obtain ⟨m, u, hm, h⟩ := Naming.bind_eq_ok.1 h
    obtain ⟨rfl, rfl⟩ := Naming.pure_eq_ok.1 h
    rw [Step.reserved, reserveAll_empty]
    exact Production.supplies_of_toPlainAll hm
  | normalize g =>
    obtain ⟨n, u, hn, h⟩ := Naming.bind_eq_ok.1 h
    obtain ⟨rfl, rfl⟩ := Naming.pure_eq_ok.1 h
    obtain ⟨gs, helper, htrans, hsupply⟩ := Grammar.exists_translation hn
    have hsize : g.rules.size = g.rules.keys.length := by
      rw [Registry.size, Registry.keys, List.length_map]
    rw [Step.shown, htrans.keys_rules, hsize, List.drop_left]
    exact hsupply

/-- A step that faults was handed names before. -/
theorem fails_of_answer {f : Fault} (h : answer known step x = .error f y) :
    ∃ vs, (x.allocator.reserveAll step.reserved).Fails vs f y.allocator := by
  cases step with
  | fresh =>
    rw [Step.reserved, reserveAll_empty]
    rcases Naming.bind_eq_error.1 h with h | ⟨_, _, _, h⟩
    · obtain ⟨hnone, rfl⟩ := Naming.fresh_eq_error h
      exact ⟨[], .exhausted .nil hnone⟩
    · cases h
  | reserve v => cases h
  | convert p keep =>
    rw [Step.reserved, reserveAll_empty]
    rcases Naming.bind_eq_error.1 h with h | ⟨_, _, _, h⟩
    · exact Production.fails_of_toPlain h
    · cases h
  | convertAll ps =>
    rw [Step.reserved, reserveAll_empty]
    rcases Naming.bind_eq_error.1 h with h | ⟨_, _, _, h⟩
    · exact Production.fails_of_toPlainAll h
    · cases h
  | normalize g =>
    rcases Naming.bind_eq_error.1 h with h | ⟨_, _, _, h⟩
    · exact Grammar.fails_of_normalize h
    · cases h

/-- A step that succeeds hands on the state and what it keeps. -/
theorem perform_of_ok {s : Session} {a : Answer} {t : Naming}
    (h : answer s.known step s.naming = .ok a t) :
    s.perform step = (.ok a, ⟨t, keep s.known step a⟩) := by
  rw [perform, h]

/-- A step that faults hands on the state, and the known replacers stay. -/
theorem perform_of_error {s : Session} {f : Fault} {t : Naming}
    (h : answer s.known step s.naming = .error f t) :
    s.perform step = (.error f, { s with naming := t }) := by
  rw [perform, h]

/-- Whatever a step does, it was handed some names. -/
theorem exists_hands (s : Session) (step : Step) : ∃ vs, s.Hands step vs := by
  cases h : answer s.known step s.naming with
  | ok a t =>
    refine ⟨step.shown a, ?_⟩
    rw [Hands, perform_of_ok h]
    exact ⟨supplies_of_answer h, rfl⟩
  | error f t =>
    obtain ⟨vs, hvs⟩ := fails_of_answer h
    refine ⟨vs, ?_⟩
    rw [Hands, perform_of_error h]
    exact hvs

/-- The names of a step were drawn after its variables were reserved, with a fault or without. -/
theorem Hands.exists_supplies {s : Session} {vs : List Variable} (h : s.Hands step vs) :
    ∃ b, (s.naming.allocator.reserveAll step.reserved).Supplies vs b ∧
      (s.perform step).2.naming.allocator.inUse = b.inUse := by
  unfold Hands at h
  split at h
  · rename_i a t heq
    rw [heq]
    exact ⟨_, h.1, rfl⟩
  · rename_i f t heq
    rw [heq]
    exact h.exists_supplies

/-- **Which names a step was handed** is determined by the step. -/
theorem Hands.unique {s : Session} {vs ws : List Variable} (h : s.Hands step vs)
    (h' : s.Hands step ws) : vs = ws := by
  obtain ⟨b, hb, hused⟩ := h.exists_supplies
  obtain ⟨c, hc, hused'⟩ := h'.exists_supplies
  exact hb.unique hc fun v => by rw [← hused, hused']

/-- **What a step does to the allocator,** with or without a fault. -/
theorem Hands.draws {s : Session} {vs : List Variable} (h : s.Hands step vs) :
    (s.naming.allocator.reserveAll step.reserved).Draws vs
      (s.perform step).2.naming.allocator := by
  unfold Hands at h
  split at h
  · rename_i a t heq
    rw [heq]
    exact h.1.draws
  · rename_i f t heq
    rw [heq]
    exact h.draws

/-! ### Known replacers -/

/-- **A conversion that is kept** adds its replacers, which are all new. -/
theorem known_of_kept {s : Session} {p : Production} {r : Conversion}
    (h : (s.perform (.convert p true)).1 = .ok (.conversion r)) :
    (∀ k ∈ r.newReplacers.keys, k ∉ s.known.keys) ∧
      (s.perform (.convert p true)).2.known.entries =
        s.known.entries ++ r.newReplacers.entries := by
  cases hans : answer s.known (.convert p true) s.naming with
  | error f t =>
    rw [perform_of_error hans] at h
    cases h
  | ok a t =>
    rw [perform_of_ok hans] at h ⊢
    obtain rfl := Except.ok.inj h
    obtain ⟨r', u, hr, hans⟩ := Naming.bind_eq_ok.1 hans
    obtain ⟨heq, rfl⟩ := Naming.pure_eq_ok.1 hans
    obtain rfl := Answer.conversion.inj heq
    have hnew := Production.not_mem_keys_of_toPlain hr
    exact ⟨hnew, Registry.entries_insertAll_of_disjoint (Registry.nodup_keys _) hnew⟩

/-- **Nothing else changes them.** -/
theorem known_of_not_kept {s : Session}
    (h : ∀ p r, step = .convert p true → (s.perform step).1 ≠ .ok (.conversion r)) :
    (s.perform step).2.known = s.known := by
  cases hans : answer s.known step s.naming with
  | error f t => rw [perform_of_error hans]
  | ok a t =>
    rw [perform_of_ok hans] at h ⊢
    show keep s.known step a = s.known
    unfold keep
    split
    · rename_i p r
      exact absurd rfl (h p r rfl)
    · rfl

/-! ### Histories -/

/-- The session after these steps. -/
def after (s : Session) (steps : List Step) : Session :=
  ((s.performAll steps).map Prod.snd).getLastD s

/-- Without steps the session is what it was. -/
@[simp] theorem after_nil (s : Session) : s.after [] = s := rfl

/-- The first step is performed before the others. -/
@[simp] theorem after_cons (s : Session) (step : Step) (steps : List Step) :
    s.after (step :: steps) = (s.perform step).2.after steps := by
  rw [after, performAll, List.map_cons, List.getLastD_cons]
  rfl

/-- `s.History history t`: the session comes from `s` to `t` by the steps of the
history, each of which is handed the names beside it. -/
inductive History : Session → List (Step × List Variable) → Session → Prop where
  | nil {s : Session} : History s [] s
  | cons {s t : Session} {step : Step} {vs : List Variable} {rest : List (Step × List Variable)}
      (h : s.Hands step vs) (hs : History (s.perform step).2 rest t) :
      History s ((step, vs) :: rest) t

/-- A history begins with the names of its first step. -/
theorem history_cons_iff {s t : Session} {step : Step} {vs : List Variable}
    {rest : List (Step × List Variable)} :
    s.History ((step, vs) :: rest) t ↔ s.Hands step vs ∧ (s.perform step).2.History rest t := by
  constructor
  · intro h
    cases h with
    | cons h hs => exact ⟨h, hs⟩
  · exact fun h => .cons h.1 h.2

/-- The names handed out in a history. -/
def handed (history : List (Step × List Variable)) : List Variable :=
  history.flatMap Prod.snd

/-- **Every run of steps has exactly one history.** -/
theorem existsUnique_history (s : Session) (steps : List Step) :
    ∃! history, history.map Prod.fst = steps ∧ s.History history (s.after steps) := by
  induction steps generalizing s with
  | nil =>
    refine ⟨[], ⟨rfl, .nil⟩, ?_⟩
    rintro history ⟨hsteps, -⟩
    exact List.map_eq_nil_iff.1 hsteps
  | cons step steps ih =>
    obtain ⟨vs, hvs⟩ := s.exists_hands step
    obtain ⟨rest, ⟨hsteps, hrest⟩, hunique⟩ := ih (s.perform step).2
    refine ⟨(step, vs) :: rest, ⟨by simp [hsteps], ?_⟩, ?_⟩
    · rw [after_cons]
      exact .cons hvs hrest
    · rintro (_ | ⟨⟨step', ws⟩, rest'⟩) ⟨hsteps', h⟩
      · cases hsteps'
      · obtain ⟨rfl, hrest'⟩ := List.cons.inj hsteps'
        rw [after_cons, history_cons_iff] at h
        rw [h.1.unique hvs, hunique rest' ⟨hrest', h.2⟩]

variable {s t : Session} {history : List (Step × List Variable)}

/-- **The names in use** are those at the start, the reserved ones and those handed
out. -/
theorem History.mem_inUse (h : s.History history t) (v : Variable) :
    v ∈ t.naming.allocator.inUse ↔ v ∈ s.naming.allocator.inUse ∨
      (∃ e ∈ history, v ∈ e.1.reserved) ∨ v ∈ handed history := by
  induction h with
  | nil => simp [handed]
  | @cons s t step vs rest hvs _ ih =>
    rw [ih, hvs.draws.mem_inUse]
    simp only [Allocator.reserveAll, NameSet.mem_union, handed, List.flatMap_cons, List.mem_append,
      List.exists_mem_cons_iff]
    grind

/-- A name that was handed out was not in use at the start. -/
theorem History.not_mem_inUse (h : s.History history t) :
    ∀ v ∈ handed history, v ∉ s.naming.allocator.inUse := by
  induction h with
  | nil => exact fun v hv => absurd hv List.not_mem_nil
  | @cons s t step vs rest hvs _ ih =>
    intro v hv hused
    rcases List.mem_append.1 hv with hv | hv
    · exact hvs.draws.unused v hv (NameSet.mem_union.2 (.inl hused))
    · exact ih v hv ((hvs.draws.mem_inUse v).2 (.inl (NameSet.mem_union.2 (.inl hused))))

/-- **The names handed out are different.** -/
theorem History.nodup (h : s.History history t) : (handed history).Nodup := by
  induction h with
  | nil => exact List.nodup_nil
  | @cons s t step vs rest hvs hrest ih =>
    refine List.nodup_append.2 ⟨hvs.draws.nodup, ih, fun v hv w hw => ?_⟩
    rintro rfl
    exact hrest.not_mem_inUse v hw ((hvs.draws.mem_inUse v).2 (.inr hv))

/-- **They stand in the order of the pool,** and the pool is what comes after them. -/
theorem History.sublist (h : s.History history t) :
    ∃ k, (handed history).Sublist (s.naming.allocator.pool.offered k) ∧
      t.naming.allocator.pool = s.naming.allocator.pool.skip k := by
  induction h with
  | @nil s => exact ⟨0, List.nil_sublist _, s.naming.allocator.pool.skip_zero.symm⟩
  | @cons s t step vs rest hvs _ ih =>
    obtain ⟨k, hk, hpool⟩ := hvs.draws.sublist
    obtain ⟨m, hm, ht⟩ := ih
    rw [hpool] at hm ht
    refine ⟨k + m, ?_, by rw [ht, Pool.skip_skip]; rfl⟩
    rw [Pool.offered_add]
    exact hk.append hm

/-- **A name was free when it was handed out:** not in use at the start, and not
reserved in the step itself or in one before. -/
theorem History.fresh (h : s.History history t) {before after : List (Step × List Variable)}
    {step : Step} {vs : List Variable} (hsplit : history = before ++ (step, vs) :: after) :
    ∀ v ∈ vs, v ∉ s.naming.allocator.inUse ∧ v ∉ step.reserved ∧
      ∀ e ∈ before, v ∉ e.1.reserved := by
  induction h generalizing before with
  | nil => simp at hsplit
  | @cons s t first ws rest hws hrest ih =>
    intro v hv
    cases before with
    | nil =>
      obtain ⟨heq, rfl⟩ := List.cons.inj hsplit
      obtain ⟨rfl, rfl⟩ := Prod.mk.inj heq
      have hfree := hws.draws.unused v hv
      rw [Allocator.reserveAll, NameSet.mem_union, not_or] at hfree
      exact ⟨hfree.1, hfree.2, fun e he => absurd he List.not_mem_nil⟩
    | cons e before =>
      obtain ⟨rfl, hrest'⟩ := List.cons.inj hsplit
      obtain ⟨hused, hstep, hbefore⟩ := ih hrest' v hv
      have hold : v ∉ (s.naming.allocator.reserveAll first.reserved).inUse := fun hmem =>
        hused ((hws.draws.mem_inUse v).2 (.inl hmem))
      rw [Allocator.reserveAll, NameSet.mem_union, not_or] at hold
      refine ⟨hold.1, hstep, fun e he => ?_⟩
      rcases List.mem_cons.1 he with rfl | he
      · exact hold.2
      · exact hbefore e he

/-- **Fresh names stay fresh.** Whatever steps a session performs, with or without
faults, the names that its allocator hands out are determined; they are different
and stand in the order of the pool; each was free when it was handed out, and is
in use from then on together with the names at the start and the reserved ones.
The known replacers change only when a conversion is kept, and then by its new
replacers, whose keys are new. -/
theorem names_stay_fresh (s : Session) :
    (∀ steps, ∃! history, history.map Prod.fst = steps ∧ s.History history (s.after steps)) ∧
    (∀ history t, s.History history t →
      (handed history).Nodup ∧
      (∃ k, (handed history).Sublist (s.naming.allocator.pool.offered k) ∧
        t.naming.allocator.pool = s.naming.allocator.pool.skip k) ∧
      (∀ before step vs after, history = before ++ (step, vs) :: after → ∀ v ∈ vs,
        v ∉ s.naming.allocator.inUse ∧ v ∉ step.reserved ∧ ∀ e ∈ before, v ∉ e.1.reserved) ∧
      ∀ v, v ∈ t.naming.allocator.inUse ↔ v ∈ s.naming.allocator.inUse ∨
        (∃ e ∈ history, v ∈ e.1.reserved) ∨ v ∈ handed history) ∧
    (∀ p r, (s.perform (.convert p true)).1 = .ok (.conversion r) →
      (∀ k ∈ r.newReplacers.keys, k ∉ s.known.keys) ∧
        (s.perform (.convert p true)).2.known.entries =
          s.known.entries ++ r.newReplacers.entries) ∧
    (∀ step, (∀ p r, step = .convert p true → (s.perform step).1 ≠ .ok (.conversion r)) →
      (s.perform step).2.known = s.known) :=
  ⟨s.existsUnique_history,
    fun _ _ h => ⟨h.nodup, h.sublist, fun _ _ _ _ => h.fresh, h.mem_inUse⟩,
    fun _ _ => known_of_kept, fun _ => known_of_not_kept⟩

end Session
end ContextFree
