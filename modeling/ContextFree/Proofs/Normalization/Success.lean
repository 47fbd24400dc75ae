/-
# When a grammar can be normalized

A pass can fail for two reasons only. A rule that holds a plain node is never
converted, and a finite pool may run dry before every group has its helper. No
rule is ever put out twice, because the helpers have names of their own
(`Pass.not_mem_done`), and the normal form can always be shown; so a pass that
fails does so while it converts a rule (`exists_failing_rule`).

The main statement is `normalize_succeeds_iff`. The threshold counts different
names that are neither in use nor variables of the grammar, and different
groups; the groups that come up only in the rules of helpers are among those of
the grammar already.
-/

import ContextFree.Proofs.Normalization.NormalForm
import ContextFree.Proofs.Production.Walks

namespace ContextFree
namespace Pool

/-- The pool offers at least `n` different names that are not in use. -/
def Offers (pool : Pool) (used : NameSet) (n : Nat) : Prop :=
  ∃ k, n ≤ (pool.unused used k).length

/-- An endless pool offers any number of names. -/
theorem offers_counted (stem : String) (next : Int) (used : NameSet) (n : Nat) :
    (counted stem next).Offers used n := by
  rcases Allocator.supplies_or_exhausted ⟨used, .counted stem next⟩ n with
    ⟨vs, b, hn, hs⟩ | ⟨vs, b, c, -, hs, hnone⟩
  · obtain ⟨k, hk, -⟩ := hs.exists_unused
    exact ⟨k, by rw [hk, hn]⟩
  · obtain ⟨names, hpool, -⟩ := hs.exhausted hnone
    cases hpool

/-- A finite pool offers as many names as it has different ones that are not in use. -/
theorem offers_listed_iff {names : List Variable} {used : NameSet} {n : Nat} :
    (listed names).Offers used n ↔ n ≤ (names.filter (· ∉ used)).eraseDups.length := by
  constructor
  · rintro ⟨k, hk⟩
    refine hk.trans (List.subperm_of_subset (nodup_unused ..) fun v hv => ?_).length_le
    obtain ⟨hoffered, hv⟩ := mem_unused.1 hv
    exact List.mem_eraseDups.2
      (List.mem_filter.2 ⟨List.mem_of_mem_take hoffered, by simpa using hv⟩)
  · intro hn
    refine ⟨names.length, ?_⟩
    rwa [unused, offered, List.take_length]

/-- **Too few names** are a matter of finite pools only. -/
theorem not_offers_iff {pool : Pool} {used : NameSet} {n : Nat} :
    ¬ pool.Offers used n ↔ ∃ names, pool = .listed names ∧
      (names.filter (· ∉ used)).eraseDups.length < n := by
  cases pool with
  | listed names => simp [offers_listed_iff]
  | counted stem next => simp [offers_counted]

end Pool

namespace Allocator

variable {a b c : Allocator} {vs : List Variable}

/-- The pool offered the names that were drawn. -/
theorem Supplies.offers (h : a.Supplies vs b) : a.pool.Offers a.inUse vs.length := by
  obtain ⟨k, hk, -⟩ := h.exists_unused
  exact ⟨k, by rw [hk]⟩

/-- It offers no more than those when no name is left. -/
theorem Supplies.not_offers (h : a.Supplies vs b) (hnone : b.fresh = (none, c)) {n : Nat}
    (hn : vs.length < n) : ¬ a.pool.Offers a.inUse n := by
  obtain ⟨-, -, -, hmax⟩ := h.exhausted hnone
  rintro ⟨k, hk⟩
  have := hmax k
  omega

end Allocator

/-- A list of different groups of the grammar is no longer than all of them are. -/
theorem Grammar.length_le_of_subset {g : Grammar} {cs : List Production} (hnodup : cs.Nodup)
    (hsub : ∀ c ∈ cs, c ∈ g.groups) : cs.length ≤ g.groups.eraseDups.length := by
  refine (List.subperm_of_subset hnodup fun c hc => ?_).length_le
  exact List.mem_eraseDups.2 (hsub c hc)

namespace Pass

variable {g : Grammar} {a₀ a : Allocator} {past : List (Variable × Production)} {made : Helpers}
  {w : Worklist}

/-- A finished pass has made as many helpers as the grammar has groups. -/
theorem length_groups (h : Pass g a₀ past made w a) (hq : w.queue = []) :
    made.groups.length = g.groups.eraseDups.length := by
  refine le_antisymm (Grammar.length_le_of_subset h.nodup_groups h.subset) ?_
  refine (List.subperm_of_subset (nodup_eraseDups _) fun c hc => ?_).length_le
  exact (h.mem_groups_iff hq c).2 (List.mem_eraseDups.1 hc)

/-- No variable has two rules among those taken and those queued. -/
theorem nodup_keys (h : Pass g a₀ past made w a) (hused : ∀ v ∈ g.rules.keys, v ∈ a₀.inUse) :
    ((past ++ w.queue).map Prod.fst).Nodup := by
  rw [h.rules, List.map_append, made.map_fst_rules, List.nodup_append]
  refine ⟨g.rules.nodup_keys, h.supply.nodup, fun v hv x hx => ?_⟩
  rintro rfl
  exact h.supply.not_mem_inUse v hx (hused v hv)

/-- The rule that comes next is not put out yet. -/
theorem not_mem_done (h : Pass g a₀ past made w a) (hused : ∀ v ∈ g.rules.keys, v ∈ a₀.inUse)
    {v : Variable} {p : Production} {rest : List (Variable × Production)}
    (hq : w.queue = (v, p) :: rest) : v ∉ w.done.keys := by
  have hnodup := h.nodup_keys hused
  rw [hq, List.map_append, List.nodup_append] at hnodup
  rw [Registry.keys, h.done, List.map_map]
  exact fun hold => hnodup.2.2 v hold v List.mem_cons_self rfl

/-- A step faults only where its conversion does. -/
theorem toPlain_of_step_eq_error (h : Pass g a₀ past made w a)
    (hused : ∀ v ∈ g.rules.keys, v ∈ a₀.inUse) {v : Variable} {p : Production}
    {rest : List (Variable × Production)} (hq : w.queue = (v, p) :: rest) {s t : Naming}
    {f : Fault} (hstep : w.step v p rest s = .error f t) :
    p.toPlain made.known s = .error f t := by
  unfold Worklist.step at hstep
  rw [if_neg (h.not_mem_done hused hq), Helpers.get?_of_entries h.replacers] at hstep
  rcases Naming.bind_eq_error.1 hstep with hstep | ⟨_, u, hu, hstep⟩
  · cases hstep
  obtain ⟨-, rfl⟩ := Naming.check_eq_ok.1 hu
  rcases Naming.bind_eq_error.1 hstep with hstep | ⟨_, _, _, hstep⟩
  · exact hstep
  · cases hstep

/-- In a grammar that is extended throughout, so is every rule in the queue. -/
theorem within_queue (h : Pass g a₀ past made w a) (hg : g.Within .extended)
    {e : Variable × Production} (he : e ∈ w.queue) : e.2.Within .extended := by
  rcases h.mem_queue he with he | ⟨c, hc, x, _, rfl⟩
  · exact hg e.2 (List.mem_map.2 ⟨_, he, rfl⟩)
  · exact Production.within_helperRule.2 (h.within c hc)

/-- **A rule fails to be converted only when names run out**, in a grammar that is
extended throughout. -/
theorem toPlain_eq_error (h : Pass g a₀ past made w a) (hg : g.Within .extended)
    {e : Variable × Production} (he : e ∈ w.queue) {s t : Naming} {f : Fault}
    (ha : s.allocator = a) (herror : e.2.toPlain made.known s = .error f t) :
    f = .poolExhausted t.allocator.inUse.size ∧ ∃ vs b, a₀.Supplies vs b ∧
      vs.length < g.groups.eraseDups.length ∧ b.fresh = (none, t.allocator) := by
  obtain ⟨hf, vs, b, hsupply, hlen, hb⟩ :=
    Production.toPlain_eq_error (h.within_queue hg he) herror
  refine ⟨hf, made.names ++ vs, b, h.supply.append (ha ▸ hsupply), ?_, hb⟩
  have hnodup : (made.groups ++ Production.newGroups made.known e.2.met).Nodup :=
    h.groups_append e ▸ nodup_eraseDups _
  have hle := Grammar.length_le_of_subset (g := g) hnodup fun c hc =>
    (List.mem_append.1 hc).elim (h.subset c) fun hc =>
      h.met_subset he (Production.mem_newGroups.1 hc).1
  rw [List.length_append] at hle ⊢
  rw [made.length_names]
  omega

end Pass

namespace Grammar

/-- **A grammar of one dialect can be shown.** -/
theorem exists_format {d : Dialect} {g : Grammar} (h : g.Within d) : ∃ text, g.format = .ok text := by
  refine exists_format_iff.2 fun p hp => ?_
  rw [Production.mixed_iff, not_not, (h p hp).dialect_eq]
  exact h p hp

/-- **A normal form is plain throughout.** -/
theorem Translation.within_plain {g n : Grammar} {gs : List Production}
    {helper : Production → Variable} (h : g.Translation gs helper n) : n.Within .plain := by
  intro p hp
  obtain ⟨e, he, rfl⟩ := List.mem_map.1 hp
  rw [h.rules] at he
  rcases List.mem_append.1 he with he | he
  · obtain ⟨e, -, rfl⟩ := List.mem_map.1 he
    exact Production.within_replace helper e.2
  · obtain ⟨c, -, rfl⟩ := List.mem_map.1 he
    simp [Production.plainHelperRule, Production.within_replace]

/-- A grammar that was normalized is extended throughout, and the pool had a name
for every group. -/
theorem offers_of_normalize {g n : Grammar} {s t : Naming} (h : g.normalize s = .ok n t) :
    g.Within .extended ∧ s.allocator.pool.Offers (s.allocator.inUse ∪ g.allVariables)
      g.groups.eraseDups.length := by
  obtain ⟨past, made, w, hpass, hq, rfl⟩ := exists_pass h
  have hoffers := hpass.supply.offers
  rw [Helpers.length_names, hpass.length_groups hq] at hoffers
  exact ⟨hpass.within_extended hq, hoffers⟩

/-- **A grammar that cannot be normalized** has a rule, its own or that of a
helper, which cannot be converted when it comes up. -/
theorem exists_failing_rule {g : Grammar} {s t : Naming} {f : Fault}
    (h : g.normalize s = .error f t) : ∃ past made w u,
      Pass g (s.allocator.reserveAll g.allVariables) past made w u.allocator ∧
        ∃ e ∈ w.queue, e.2.toPlain made.known u = .error f t := by
  have hused : ∀ v ∈ g.rules.keys, v ∈ (s.allocator.reserveAll g.allVariables).inUse :=
    fun v hv => NameSet.mem_union.2 (.inr (mem_allVariables.2 (.inl hv)))
  rcases Naming.bind_eq_error.1 h with h | ⟨_, u, hu, h⟩
  · cases h
  cases hu
  rcases Naming.bind_eq_error.1 h with h | ⟨rules, u, hu, h⟩
  · obtain ⟨k, w, v, p, rest, x, hsteps, hq, hstep⟩ := Worklist.drain_eq_error h
    obtain ⟨past, made, -, hpass⟩ := Pass.of_steps hsteps
    exact ⟨past, made, w, x, hpass, (v, p), hq ▸ List.mem_cons_self,
      hpass.toPlain_of_step_eq_error hused hq hstep⟩
  · obtain ⟨k, w, hsteps, hq, rfl⟩ := Worklist.drain_eq_ok hu
    obtain ⟨past, made, -, hpass⟩ := Pass.of_steps hsteps
    obtain ⟨text, htext⟩ := exists_format (hpass.translation hq).within_plain
    rw [htext] at h
    rcases Naming.bind_eq_error.1 h with h | ⟨_, _, _, h⟩
    · exact absurd h Naming.report_ok_ne_error
    · cases h

/-- **A fault in a grammar that is extended throughout** comes when names run out,
before the last group has got one. -/
theorem exhausted_of_normalize {g : Grammar} {s t : Naming} {f : Fault} (hg : g.Within .extended)
    (h : g.normalize s = .error f t) : f = .poolExhausted t.allocator.inUse.size ∧
      ∃ vs b, (s.allocator.reserveAll g.allVariables).Supplies vs b ∧
        vs.length < g.groups.eraseDups.length ∧ b.fresh = (none, t.allocator) := by
  obtain ⟨past, made, w, u, hpass, e, he, herror⟩ := exists_failing_rule h
  exact hpass.toPlain_eq_error hg he rfl herror

/-- It is the fault of a finite pool which does not offer a name for every group. -/
theorem normalize_eq_error {g : Grammar} {s t : Naming} {f : Fault} (hg : g.Within .extended)
    (h : g.normalize s = .error f t) :
    ¬ s.allocator.pool.Offers (s.allocator.inUse ∪ g.allVariables) g.groups.eraseDups.length ∧
      ∃ names, s.allocator.pool = .listed names ∧
        f = .poolExhausted ((s.allocator.inUse ∪ g.allVariables).insertAll names).size := by
  obtain ⟨rfl, vs, b, hsupply, hlen, hb⟩ := exhausted_of_normalize hg h
  obtain ⟨names, hpool, hc, -⟩ := hsupply.exhausted hb
  exact ⟨hsupply.not_offers hb hlen, names, hpool, by rw [hc]; rfl⟩

/-- **A grammar can be normalized** exactly when it is extended throughout and the
pool offers a name for each group, as an endless pool always does. The normal
form is plain throughout; when it is only the names that do not suffice, they
are counted in the fault, those in use and the variables of the grammar with
all that were left in the pool. -/
theorem normalize_succeeds_iff (g : Grammar) (s : Naming) :
    ((∃ n t, g.normalize s = .ok n t) ↔ g.Within .extended ∧
      s.allocator.pool.Offers (s.allocator.inUse ∪ g.allVariables) g.groups.eraseDups.length) ∧
    (∀ n t, g.normalize s = .ok n t → n.Within .plain) ∧
    (∀ stem next, s.allocator.pool = .counted stem next →
      s.allocator.pool.Offers (s.allocator.inUse ∪ g.allVariables) g.groups.eraseDups.length) ∧
    (g.Within .extended →
      ¬ s.allocator.pool.Offers (s.allocator.inUse ∪ g.allVariables) g.groups.eraseDups.length →
      ∃ names t, s.allocator.pool = .listed names ∧ g.normalize s =
        .error (.poolExhausted ((s.allocator.inUse ∪ g.allVariables).insertAll names).size) t) := by
  refine ⟨⟨?_, ?_⟩, ?_, ?_, ?_⟩
  · rintro ⟨n, t, h⟩
    exact offers_of_normalize h
  · rintro ⟨hg, hoffers⟩
    cases h : g.normalize s with
    | ok n t => exact ⟨n, t, rfl⟩
    | error f t => exact absurd hoffers (normalize_eq_error hg h).1
  · intro n t h
    obtain ⟨gs, helper, htrans, -⟩ := exists_translation h
    exact htrans.within_plain
  · intro stem next hpool
    rw [hpool]
    exact Pool.offers_counted stem next _ _
  · intro hg hoffers
    cases h : g.normalize s with
    | ok n t => exact absurd (offers_of_normalize h).2 hoffers
    | error f t =>
      obtain ⟨-, names, hpool, rfl⟩ := normalize_eq_error hg h
      exact ⟨names, t, hpool, rfl⟩

/-- `S` is in use, so that a pool that only offers `S` has no helper for `'a'*`. -/
example : ∃ t, shared.normalize ⟨⟨∅, .listed [⟨"S"⟩, ⟨"S"⟩]⟩, none⟩ = .error (.poolExhausted 1) t := by
  refine ⟨⟨⟨.ofList [⟨"S"⟩], .listed []⟩, none⟩, ?_⟩
  cbv

end Grammar
end ContextFree
