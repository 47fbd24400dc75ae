/-
# Tracing is an observer

Whether events are traced must not change what a run does. It might: an event is shown
before it is reported, showing a group, a grammar or a table may fault, and when a helper
is reported its name is gone from the pool already.

A run is blind if its outcome, the value or fault and the allocator afterwards, is the same
with and without a trace (`Naming.Blind`). Steps that are blind make a blind run
(`Blind.bind`), where a step may rely on the one before it having succeeded. Reporting is
blind when the event can be shown (`blind_report`), and all of them can: a group is shown
only after it was met in a tree that is extended throughout, a pass queues no other trees
(`within_queue_of_step`) and puts out a plain grammar, and a table that was filled has a
cell (`exists_format_of_buildTable`). The main statement is `tracing_only_observes`.
-/

import ContextFree.Proofs.Conversion.Parts
import ContextFree.Proofs.Normalization.Termination
import ContextFree.Proofs.Recognizer.Shape

namespace ContextFree
namespace Naming

variable {α β : Type}

/-- What a run comes to, apart from the trace. -/
def outcome (x : Run α) (s : Naming) : Except Fault α × Allocator :=
  match x s with
  | .ok a t => (.ok a, t.allocator)
  | .error f t => (.error f, t.allocator)

/-- The outcome of a run is up to the allocator alone: it is the same for every trace, and
without one. -/
def Blind (x : Run α) : Prop :=
  ∀ s u : Naming, s.allocator = u.allocator → outcome x s = outcome x u

/-- A run that succeeds comes to its value and the allocator that it leaves. -/
theorem outcome_of_ok {x : Run α} {s t : Naming} {a : α} (h : x s = .ok a t) :
    outcome x s = (.ok a, t.allocator) := by
  rw [outcome, h]

/-- A run that faults comes to its fault and the allocator that it leaves. -/
theorem outcome_of_error {x : Run α} {s t : Naming} {f : Fault} (h : x s = .error f t) :
    outcome x s = (.error f, t.allocator) := by
  rw [outcome, h]

/-- A run that comes to a value has succeeded with it. -/
theorem exists_ok_of_outcome {x : Run α} {s : Naming} {a : α} {b : Allocator}
    (h : outcome x s = (.ok a, b)) : ∃ t, x s = .ok a t ∧ t.allocator = b := by
  cases hx : x s with
  | ok a' t =>
    rw [outcome_of_ok hx] at h
    cases h
    exact ⟨t, rfl, rfl⟩
  | error f t =>
    rw [outcome_of_error hx] at h
    cases h

/-- A run that comes to a fault has stopped with it. -/
theorem exists_error_of_outcome {x : Run α} {s : Naming} {f : Fault} {b : Allocator}
    (h : outcome x s = (.error f, b)) : ∃ t, x s = .error f t ∧ t.allocator = b := by
  cases hx : x s with
  | ok a t =>
    rw [outcome_of_ok hx] at h
    cases h
  | error f' t =>
    rw [outcome_of_error hx] at h
    cases h
    exact ⟨t, rfl, rfl⟩

/-! ### Blind runs -/

/-- To return a value is blind. -/
theorem blind_pure (a : α) : Blind (pure a : Run α) := by
  intro s u h
  have hok (s : Naming) : outcome (pure a : Run α) s = (.ok a, s.allocator) := rfl
  rw [hok, hok, h]

/-- So is a check. -/
theorem blind_check (x : Except Fault α) : Blind (check x) := by
  intro s u h
  cases x with
  | ok a =>
    have hok (s : Naming) : outcome (check (.ok a)) s = (.ok a, s.allocator) := rfl
    rw [hok, hok, h]
  | error f =>
    have herror (s : Naming) : outcome (check (.error f : Except Fault α)) s =
        (.error f, s.allocator) := rfl
    rw [herror, herror, h]

/-- So is a change of the allocator. -/
theorem blind_update (f : Allocator → Allocator) : Blind (update f) := by
  intro s u h
  simp only [outcome, update, h]

/-- What is drawn is drawn in the same way. -/
theorem blind_fresh : Blind fresh := by
  intro s u h
  simp only [outcome, fresh, h]
  rcases u.allocator.fresh with ⟨_ | v, a⟩
  · rfl
  · rfl

/-- **An event that can be shown** is reported without any other effect. -/
theorem blind_report (event : Event) : Blind (report (.ok event)) := by
  have hok (s : Naming) : outcome (report (.ok event)) s = (.ok (), s.allocator) := by
    rcases s with ⟨a, _ | es⟩
    · rfl
    · rfl
  intro s u h
  rw [hok, hok, h]

/-- **Blind steps make a blind run.** The second step has to be blind after a success of the
first only. -/
theorem Blind.bind {x : Run α} {f : α → Run β} (hx : Blind x)
    (hf : ∀ a s t, x s = .ok a t → Blind (f a)) : Blind (x >>= f) := by
  have hbind_ok {s t : Naming} {a : α} (h : x s = .ok a t) :
      outcome (x >>= f) s = outcome (f a) t := by
    show outcome (EStateM.bind x f) s = _
    simp only [outcome, EStateM.bind, h]
  have hbind_error {s t : Naming} {e : Fault} (h : x s = .error e t) :
      outcome (x >>= f) s = (.error e, t.allocator) :=
    outcome_of_error (bind_eq_error.2 (.inl h))
  intro s u hsu
  have hsame : outcome x u = outcome x s := (hx s u hsu).symm
  cases hs : x s with
  | ok a t =>
    rw [outcome_of_ok hs] at hsame
    obtain ⟨v, hu, hvt⟩ := exists_ok_of_outcome hsame
    rw [hbind_ok hs, hbind_ok hu]
    exact hf a s t hs t v hvt.symm
  | error e t =>
    rw [outcome_of_error hs] at hsame
    obtain ⟨v, hu, hvt⟩ := exists_error_of_outcome hsame
    rw [hbind_error hs, hbind_error hu, hvt]

/-- What is read off a blind run is blind as well. -/
theorem Blind.bind_pure {x : Run α} (hx : Blind x) (f : α → β) :
    Blind (x >>= fun a => pure (f a)) :=
  hx.bind fun a _ _ _ => blind_pure (f a)

end Naming

open Naming

namespace Production

variable {known : Known} {c p : Production} {cs : List Production}

/-! ### Conversions -/

/-- Looking up a group that is extended throughout is blind, whether it has a helper or gets
one. -/
theorem blind_visit (hc : Within .extended c) : Blind (visit known c) := by
  obtain ⟨text, htext⟩ := exists_text_star hc
  unfold visit
  rw [htext]
  split
  · exact (blind_report _).bind_pure _
  · exact blind_fresh.bind fun v _ _ _ =>
      (blind_report _).bind fun _ _ _ _ => (blind_check _).bind_pure _

/-- So is looking up one after another. -/
theorem blind_visitAll (hcs : ∀ c ∈ cs, Within .extended c) : Blind (visitAll known cs) := by
  induction cs generalizing known with
  | nil => exact blind_pure []
  | cons c cs ih =>
    obtain ⟨hc, hrest⟩ := List.forall_mem_cons.1 hcs
    exact (blind_visit hc).bind fun made _ _ _ => (ih hrest).bind_pure _

/-- **The conversion of a tree that is extended throughout is blind.** -/
theorem blind_toPlain (known : Known) (hp : Within .extended p) : Blind (p.toPlain known) := by
  obtain ⟨hopen, hmet⟩ := within_extended_iff.1 hp
  rw [toPlain_eq, stops_of_open hopen, walk_map_group]
  exact (blind_visitAll hmet).bind_pure _

/-- **So is that of siblings.** -/
theorem blind_toPlainAll (known : Known) (m : Merged) (hcs : ∀ c ∈ cs, Within .extended c) :
    Blind (toPlainAll known m cs) := by
  have hjoin : Within .extended (.join .extended .sequence cs) := within_join.2 ⟨rfl, hcs⟩
  obtain ⟨hopen, hmet⟩ := within_extended_iff.1 hjoin
  rw [toPlainAll_eq, ← stops_join .sequence, stops_of_open hopen, walk_map_group]
  exact (blind_visitAll hmet).bind_pure _

end Production

open Production

/-! ### Passes -/

namespace Worklist

/-- A queue of rules that are extended throughout stays one: what a step queues are the
rules of groups that it met. -/
theorem within_queue_of_step {w w' : Worklist} {v : Variable} {p : Production}
    {rest : List (Variable × Production)} {s t : Naming} (hq : w.queue = (v, p) :: rest)
    (hw : ∀ e ∈ w.queue, Within .extended e.2) (h : w.step v p rest s = .ok w' t) :
    ∀ e ∈ w'.queue, Within .extended e.2 := by
  rw [hq] at hw
  obtain ⟨hp, hrest⟩ := List.forall_mem_cons.1 hw
  obtain ⟨new, hqueue, hnew⟩ := queue_of_step h
  intro e he
  rw [hqueue, List.mem_append] at he
  rcases he with he | he
  · exact hrest e he
  · obtain ⟨⟨c, x⟩, hcx, rfl⟩ := List.mem_map.1 he
    have hc : c ∈ p.met := hnew c (List.mem_map_of_mem hcx)
    exact within_helperRule.2 ((within_extended_iff.1 hp).2 c hc)

/-- A step of the worklist is blind for a right-hand side that is extended throughout. -/
theorem blind_step (w : Worklist) (v : Variable) {p : Production}
    (rest : List (Variable × Production)) (hp : Within .extended p) : Blind (w.step v p rest) :=
  (blind_check _).bind fun _ _ _ _ => (blind_toPlain _ hp).bind_pure _

/-- When the queue is empty, the rules that are done are returned. -/
theorem drain_of_nil {w : Worklist} (hq : w.queue = []) : w.drain = pure w.done := by
  funext s
  unfold drain
  split
  · rfl
  · rename_i hcons
    rw [hq] at hcons
    cases hcons

/-- To drain a queue is to take its first rule and then to drain what is left. -/
theorem drain_of_cons {w : Worklist} {v : Variable} {p : Production}
    {rest : List (Variable × Production)} (hq : w.queue = (v, p) :: rest) :
    w.drain = w.step v p rest >>= drain := by
  funext s
  rw [drain]
  split
  · rename_i hnil
    rw [hq] at hnil
    cases hnil
  · rename_i v' p' rest' hcons
    rw [hq] at hcons
    cases hcons
    show _ = EStateM.bind (w.step v p rest) drain s
    unfold EStateM.bind
    split <;> rename_i hstep <;> rw [hstep]

/-- **Draining a queue of such rules is blind.** -/
theorem blind_drain {w : Worklist} (hw : ∀ e ∈ w.queue, Within .extended e.2) : Blind w.drain := by
  -- a step leaves a queue that weighs less, and on that the induction is
  generalize hload : load w.queue = n
  induction n using Nat.strong_induction_on generalizing w with
  | _ n ih =>
    cases hq : w.queue with
    | nil =>
      rw [drain_of_nil hq]
      exact blind_pure _
    | cons e rest =>
      rcases e with ⟨v, p⟩
      have hp : Within .extended p := hw (v, p) (hq ▸ List.mem_cons_self)
      rw [drain_of_cons hq]
      refine (w.blind_step v rest hp).bind fun w' s t hstep => ?_
      have hless : load w'.queue < n := by
        have hlt := load_step_lt hstep
        rwa [← hq, hload] at hlt
      exact ih _ hless (within_queue_of_step hq hw hstep) rfl

end Worklist

namespace Grammar

/-- What a pass puts out can be shown. -/
theorem exists_format_of_drain {g : Grammar} {s t : Naming} {rules : Registry Variable Production}
    (h : (Worklist.ofGrammar g).drain s = .ok rules t) :
    ∃ text, Grammar.format { start := g.start, rules } = .ok text := by
  obtain ⟨k, w, hsteps, hq, rfl⟩ := Worklist.drain_eq_ok h
  obtain ⟨past, made, -, hpass⟩ := Pass.of_steps hsteps
  exact exists_format (hpass.translation hq).within_plain

/-- **Normalizing a grammar that is extended throughout is blind.** -/
theorem blind_normalize {g : Grammar} (hg : g.Within .extended) : Blind g.normalize := by
  have hqueue : ∀ e ∈ (Worklist.ofGrammar g).queue, Production.Within .extended e.2 :=
    fun e he => hg e.2 (List.mem_map_of_mem he)
  refine (blind_update _).bind fun _ _ _ _ =>
    (Worklist.blind_drain hqueue).bind fun rules s t hdrain => ?_
  obtain ⟨text, htext⟩ := exists_format_of_drain hdrain
  show Blind (report (Except.map Event.normalized
    (Grammar.format { start := g.start, rules })) >>= fun _ => pure _)
  rw [htext]
  exact (blind_report _).bind_pure _

end Grammar

/-! ### Recognizing -/

namespace NormalGrammar

/-- **A word is recognized in the same way** with and without a trace. -/
theorem recognize_traced (g : NormalGrammar) (word : List Terminal) :
    (g.recognize true word).map Prod.fst = (g.recognize false word).map Prod.fst := by
  unfold recognize
  cases htable : g.index.buildTable word with
  | error f => rfl
  | ok t =>
    obtain ⟨text, htext⟩ := ProducerIndex.exists_format_of_buildTable htable
    cases haccepted : t.derives g.start with
    | error f => simp only [bind, Except.bind, haccepted]
    | ok accepted =>
      simp only [bind, Except.bind, haccepted, htext]
      rfl

end NormalGrammar

/-- **Tracing only observes.** With and without a trace, the conversion of a tree or of
siblings and the pass over a grammar, all extended throughout, return the same value or the
same fault and leave the same allocator, whatever is known and whatever allocator there is;
and a word is accepted, rejected or refused alike. This is because nothing that is reported
fails to be shown: neither a group, nor a normal form, nor a table. -/
theorem tracing_only_observes :
    (∀ (known : Known) (p : Production), p.Within .extended → Blind (p.toPlain known)) ∧
    (∀ (known : Known) (cs : List Production), (∀ c ∈ cs, c.Within .extended) →
      Blind (toPlainAll known {} cs)) ∧
    (∀ g : Grammar, g.Within .extended → Blind g.normalize) ∧
    (∀ (g : NormalGrammar) (word : List Terminal),
      (g.recognize true word).map Prod.fst = (g.recognize false word).map Prod.fst) ∧
    (∀ p : Production, p.Within .extended → ∀ c ∈ p.groups,
      ∃ text, (Production.star c).text = .ok text) ∧
    (∀ (g n : Grammar) (s t : Naming), g.normalize s = .ok n t → ∃ text, n.format = .ok text) ∧
    (∀ (ix : ProducerIndex) (word : List Terminal) (t : Table), ix.buildTable word = .ok t →
      ∃ text, t.format = .ok text) := by
  refine ⟨fun known p => blind_toPlain known, fun known cs => blind_toPlainAll known {},
    fun g => Grammar.blind_normalize, NormalGrammar.recognize_traced,
    fun p hp c hc => exists_text_star (hp.of_mem_groups hc), fun g n s t h => ?_,
    fun ix word t => ProducerIndex.exists_format_of_buildTable⟩
  obtain ⟨gs, helper, htrans, -⟩ := Grammar.exists_translation h
  exact Grammar.exists_format htrans.within_plain

/-- With and without a trace, the normal form of `S -> ('a'+ T)*` is the same, the siblings
`'a'+`, `('a'+ 'b'*)+` and `'b'*?` are converted in the same way, and where names run out
the sequence `'a'+ 'b'*` comes to the same fault. The group `'a'`, the normal form and a
table of one cell can be shown. -/
theorem tracing_only_observes_nested :
    Grammar.nested.Within .extended ∧ (∀ c ∈ nestedSiblings, c.Within .extended) ∧
    (∃ b, outcome Grammar.nested.normalize {} = (.ok Grammar.nestedNormal, b) ∧
      outcome Grammar.nested.normalize { trace := some [] } = (.ok Grammar.nestedNormal, b)) ∧
    outcome (toPlainAll nestedKnown.get? {} nestedSiblings) { trace := some [] } =
      (.ok nestedMerged, nestedState.allocator) ∧
    outcome (runs.toPlain nestedKnown.get?) ⟨⟨∅, .listed []⟩, some []⟩ =
      (.error (.poolExhausted 0), ⟨∅, .listed []⟩) ∧
    (∃ text, (Production.star (.terminal .extended ⟨"a"⟩)).text = .ok text) ∧
    (∃ text, Grammar.nestedNormal.format = .ok text) ∧
    ∃ (t : Table) (text : String), ({} : ProducerIndex).buildTable [⟨"a"⟩] = .ok t ∧
      t.format = .ok text := by
  obtain ⟨htree, hsiblings, hgrammar, -, hgroup, hnormal, htable⟩ := tracing_only_observes
  have hnested : Grammar.nested.Within .extended := by
    unfold Grammar.Within
    decide
  have hwithin : ∀ c ∈ nestedSiblings, c.Within .extended := by decide
  have hruns : runs.Within .extended := by decide
  obtain ⟨t, ht⟩ := Grammar.normalize_nested
  have hfault : outcome (runs.toPlain nestedKnown.get?) ⟨⟨∅, .listed []⟩, none⟩ =
      (.error (.poolExhausted 0), ⟨∅, .listed []⟩) := by cbv
  have htraced {α : Type} {x : Run α} (hx : Blind x) (a : Allocator) :
      outcome x ⟨a, some []⟩ = outcome x ⟨a, none⟩ := hx _ _ rfl
  have hbuilt : ({} : ProducerIndex).buildTable [⟨"a"⟩] = .ok ⟨[[∅]]⟩ := rfl
  obtain ⟨text, htext⟩ := htable _ _ _ hbuilt
  refine ⟨hnested, hwithin, ⟨t.allocator, outcome_of_ok ht, ?_⟩, ?_, ?_,
    hgroup runs hruns _ (by decide), hnormal _ _ _ _ ht, _, text, hbuilt, htext⟩
  · exact (htraced (hgrammar _ hnested) {}).trans (outcome_of_ok ht)
  · exact (htraced (hsiblings _ _ hwithin) {}).trans (outcome_of_ok toPlainAll_nestedSiblings)
  · exact (htraced (htree _ _ hruns) _).trans hfault

end ContextFree
