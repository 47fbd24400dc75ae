/-
# When names run out

A conversion takes one name for each new group that it meets. So whether the names
suffice can be told beforehand, by counting: the new groups on one side, and on the
other the different names left in the pool that are not in use
(`offers_of_toPlain`, `exhausted_of_toPlain`).

A draw that finds no name has looked at the whole pool. Nothing is left of it, all
its names are in use, and no step of a session puts anything back
(`pool_after_of_empty`). From then on a session is `Spent`: it hands out no name, and
its conversions succeed as far as they meet known groups only. The main statement is
`exhaustion_exact_permanent`.
-/

import ContextFree.Proofs.Conversion.Parts
import ContextFree.Proofs.Session.Freshness

namespace ContextFree

/-- An empty pool has no name to draw. -/
theorem Allocator.fresh_of_empty {a : Allocator} (h : a.pool = .listed []) : a.fresh = (none, a) := by
  rcases a with ⟨used, pool⟩
  cases h
  rfl

namespace Production

variable {known : Known} {p : Production} {r : Conversion} {s t : Naming} {f : Fault}

/-- A conversion has one new variable for each new group. -/
theorem length_newVariables (h : p.toPlain known s = .ok r t) :
    r.newVariables.length = (newGroups known p.met).length := by
  obtain ⟨-, made, hmade, rfl⟩ := toPlain_eq_ok h
  rw [← (visitAll_eq_ok hmade).1]
  exact made.length_names

/-- So the pool has offered enough names. -/
theorem offers_of_toPlain (h : p.toPlain known s = .ok r t) :
    s.allocator.pool.Offers s.allocator.inUse (newGroups known p.met).length := by
  rw [← length_newVariables h]
  exact (supplies_of_toPlain h).offers

/-- **An extended production that is not converted** wants more names than the pool
offers. The pool is finite, it is empty afterwards, and all its names are in use. -/
theorem exhausted_of_toPlain (hp : p.Within .extended) (h : p.toPlain known s = .error f t) :
    ¬ s.allocator.pool.Offers s.allocator.inUse (newGroups known p.met).length ∧
      ∃ names, s.allocator.pool = .listed names ∧
        t.allocator = ⟨s.allocator.inUse.insertAll names, .listed []⟩ ∧
        f = .poolExhausted t.allocator.inUse.size := by
  obtain ⟨hf, vs, b, hsupply, hlen, hb⟩ := toPlain_eq_error hp h
  obtain ⟨names, hpool, ht, -⟩ := hsupply.exhausted hb
  exact ⟨hsupply.not_offers hb hlen, names, hpool, ht, hf⟩

/-- **Only known groups** need no name, whatever the allocator. -/
theorem exists_toPlain_of_known (hp : p.Within .extended)
    (hmet : ∀ c ∈ p.met, known (.star c) ≠ none) (s : Naming) :
    ∃ r t, p.toPlain known s = .ok r t := by
  cases h : p.toPlain known s with
  | ok r t => exact ⟨r, t, rfl⟩
  | error f t =>
    have hnone : newGroups known p.met = [] := List.eq_nil_iff_forall_not_mem.2 fun c hc =>
      hmet c (mem_newGroups.1 hc).1 (mem_newGroups.1 hc).2
    refine absurd ⟨0, ?_⟩ (exhausted_of_toPlain hp h).1
    rw [hnone]
    exact Nat.zero_le _

/-- **A new group** needs a name, and an empty pool has none. -/
theorem toPlain_of_empty (hp : p.Within .extended) (hs : s.allocator.pool = .listed [])
    (hmet : ∃ c ∈ p.met, known (.star c) = none) :
    ∃ t, p.toPlain known s = .error (.poolExhausted s.allocator.inUse.size) t := by
  obtain ⟨c, hc, hnew⟩ := hmet
  have hneeded : 0 < (newGroups known p.met).length :=
    List.length_pos_of_mem (mem_newGroups.2 ⟨hc, hnew⟩)
  cases h : p.toPlain known s with
  | ok r t =>
    have hoffers := offers_of_toPlain h
    rw [hs, Pool.offers_listed_iff, List.filter_nil] at hoffers
    exact absurd (hneeded.trans_le hoffers) (Nat.lt_irrefl 0)
  | error f t =>
    obtain ⟨-, names, hnames, ht, rfl⟩ := exhausted_of_toPlain hp h
    rw [hs] at hnames
    obtain rfl := Pool.listed.inj hnames
    exact ⟨t, by rw [ht]; rfl⟩

end Production

namespace Session

variable {x : Session}

/-- No name will be handed out in this session any more. -/
structure Spent (x : Session) : Prop where
  pool : x.naming.allocator.pool = .listed []
  /-- There is no fresh name. -/
  fresh : (x.perform .fresh).1 = .error (.poolExhausted x.naming.allocator.inUse.size)
  /-- A conversion fails when it meets a group without a helper, -/
  missing : ∀ (K : Replacers) (p : Production) (keep : Bool), p.Within .extended →
    (∃ c ∈ p.met, .star c ∉ K.keys) →
    (perform { x with known := K } (.convert p keep)).1 =
      .error (.poolExhausted x.naming.allocator.inUse.size)
  /-- and succeeds when all groups that it meets have one. -/
  found : ∀ (K : Replacers) (p : Production) (keep : Bool), p.Within .extended →
    (∀ c ∈ p.met, .star c ∈ K.keys) →
    ∃ r, (perform { x with known := K } (.convert p keep)).1 = .ok (.conversion r)

/-- **No step puts a name back:** an empty pool stays empty. -/
theorem pool_after_of_empty (hx : x.naming.allocator.pool = .listed []) (steps : List Step) :
    (x.after steps).naming.allocator.pool = .listed [] := by
  obtain ⟨history, ⟨-, hhistory⟩, -⟩ := x.existsUnique_history steps
  obtain ⟨k, -, hpool⟩ := hhistory.sublist
  rw [hpool, hx, Pool.skip, List.drop_nil]

/-- **An empty pool spends a session.** -/
theorem spent_of_empty (hx : x.naming.allocator.pool = .listed []) : x.Spent where
  pool := hx
  fresh := by
    have hdraw : x.naming.allocator.fresh = (none, x.naming.allocator) :=
      Allocator.fresh_of_empty hx
    have hfresh : Naming.fresh x.naming =
        .error (.poolExhausted x.naming.allocator.inUse.size) x.naming := by
      simp only [Naming.fresh, hdraw]
    rw [perform_of_error (Naming.bind_eq_error.2 (.inl hfresh))]
  missing K p keep hp hmet := by
    obtain ⟨c, hc, hnew⟩ := hmet
    have hmissing : ∃ c ∈ p.met, K.get? (.star c) = none :=
      ⟨c, hc, Registry.get?_eq_none_iff.2 hnew⟩
    obtain ⟨t, ht⟩ := Production.toPlain_of_empty hp hx hmissing
    rw [perform_of_error (Naming.bind_eq_error.2 (.inl ht))]
  found K p keep hp hmet := by
    have hfound : ∀ c ∈ p.met, K.get? (.star c) ≠ none := fun c hc hnone =>
      Registry.get?_eq_none_iff.1 hnone (hmet c hc)
    obtain ⟨r, t, ht⟩ := Production.exists_toPlain_of_known hp hfound x.naming
    have hanswer : answer K (.convert p keep) x.naming = .ok (.conversion r) t :=
      Naming.bind_eq_ok.2 ⟨r, t, ht, rfl⟩
    exact ⟨r, by rw [perform_of_ok hanswer]⟩

/-- **Names run out exactly when there are more new groups than names, and for good.**
A conversion of an extended production fails exactly when it meets more groups
without a helper than a finite pool has different names that are not in use. When it
succeeds, its new variables, one for each such group, come into use and nothing else
does. When it fails, so do all names that were left, they are counted in the fault,
the pool is empty, and every session that goes on from there is spent, whatever steps
it takes. -/
theorem exhaustion_exact_permanent {p : Production} (hp : p.Within .extended) (known : Known)
    (s : Naming) :
    ((∃ n t, p.toPlain known s = .error (.poolExhausted n) t) ↔
      ∃ names, s.allocator.pool = .listed names ∧
        (names.filter (· ∉ s.allocator.inUse)).eraseDups.length <
          (Production.newGroups known p.met).length) ∧
    (∀ r t, p.toPlain known s = .ok r t →
      r.newVariables.length = (Production.newGroups known p.met).length ∧
      (∀ v ∈ r.newVariables, v ∉ s.allocator.inUse) ∧
      ∀ v, v ∈ t.allocator.inUse ↔ v ∈ s.allocator.inUse ∨ v ∈ r.newVariables) ∧
    (∀ f t, p.toPlain known s = .error f t → ∃ names, s.allocator.pool = .listed names ∧
      t.allocator = ⟨s.allocator.inUse.insertAll names, .listed []⟩ ∧
      f = .poolExhausted t.allocator.inUse.size ∧
      ∀ x : Session, x.naming.allocator.pool = t.allocator.pool →
        ∀ steps, (x.after steps).Spent) := by
  refine ⟨?_, fun r t h => ?_, fun f t h => ?_⟩
  · rw [← Pool.not_offers_iff]
    constructor
    · rintro ⟨n, t, h⟩
      exact (Production.exhausted_of_toPlain hp h).1
    · intro hshort
      cases h : p.toPlain known s with
      | ok r t => exact absurd (Production.offers_of_toPlain h) hshort
      | error f t =>
        obtain ⟨-, -, -, -, rfl⟩ := Production.exhausted_of_toPlain hp h
        exact ⟨_, t, rfl⟩
  · have hsupply := Production.supplies_of_toPlain h
    exact ⟨Production.length_newVariables h, hsupply.not_mem_inUse, fun v => hsupply.mem_inUse⟩
  · obtain ⟨-, names, hpool, ht, hf⟩ := Production.exhausted_of_toPlain hp h
    refine ⟨names, hpool, ht, hf, fun x hx steps => spent_of_empty (pool_after_of_empty ?_ steps)⟩
    rw [hx, ht]

/-! ### Two groups and one name -/

/-- `B` is in use, so that the pool has one name left. -/
def shortState : Naming where
  allocator := ⟨.ofList [⟨"B"⟩], .listed [⟨"A"⟩, ⟨"B"⟩, ⟨"A"⟩]⟩

/-- Afterwards it has none, and `A` is in use as well. -/
def spentState : Naming where
  allocator := ⟨.ofList [⟨"A"⟩, ⟨"B"⟩], .listed []⟩

/-- With one name for two groups the conversion faults, and the name is gone. -/
theorem toPlain_runs_short :
    Production.runs.toPlain (∅ : Replacers).get? shortState =
      .error (.poolExhausted 2) spentState := by
  cbv

/-- There were fewer names than new groups, and a session with the empty pool stays spent. -/
theorem exhaustion_exact_permanent_short :
    Production.runs.Within .extended ∧
    Production.runs.toPlain (∅ : Replacers).get? shortState =
      .error (.poolExhausted 2) spentState ∧
    (∃ names, shortState.allocator.pool = .listed names ∧
      (names.filter (· ∉ shortState.allocator.inUse)).eraseDups.length <
        (Production.newGroups (∅ : Replacers).get? Production.runs.met).length) ∧
    (after ⟨spentState, Production.nestedKnown⟩ [.reserve ⟨"C"⟩, .fresh]).Spent := by
  have hruns : Production.runs.Within .extended := by decide +kernel
  obtain ⟨hexact, -, hfail⟩ := exhaustion_exact_permanent hruns (∅ : Replacers).get? shortState
  obtain ⟨-, -, -, -, hspent⟩ := hfail _ _ toPlain_runs_short
  exact ⟨hruns, toPlain_runs_short, hexact.1 ⟨_, _, toPlain_runs_short⟩, hspent _ rfl _⟩

end Session
end ContextFree
