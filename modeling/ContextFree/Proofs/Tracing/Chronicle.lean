/-
# The log of a pass

Every group that a pass meets is reported, with its text: it was minted a helper when it was
met first, and its helper was put in again every other time. `Chronicle` says this of a list
of events. A visit adds one event to it (`Told.visit`), and so it holds of the groups of any
number of rules, taken one after another (`Pass.told_of_steps`).

A finished pass has met the groups of all right-hand sides, those of the helpers included.
In the normal form there is an occurrence of a helper for each time that a group was met
(`countP_references_replace`), and one more in each helper rule, at its end. This is why
events can be counted there. The main statement is `normalize_tells_story`.
-/

import ContextFree.Proofs.Normalization.Variables

namespace ContextFree

/-! ### What events tell -/

namespace Event

/-- The helper that was made and the text of its group, if an event reports that. -/
def minted? : Event → Option (Variable × String)
  | .minted v text => some (v, text)
  | _ => none

/-- The helper that was put in again and the text of its group, if an event reports that. -/
def reusing? : Event → Option (Variable × String)
  | .reusing v text => some (v, text)
  | _ => none

/-- Exactly one event reports a given helper and text as made. -/
theorem minted?_eq_some_iff {e : Event} {m : Variable × String} :
    e.minted? = some m ↔ e = .minted m.1 m.2 := by
  cases e <;> simp [minted?, Prod.ext_iff]

/-- The helpers that were made, with the texts of their groups, in this order. -/
def mintings (es : List Event) : List (Variable × String) :=
  es.filterMap minted?

/-- A helper that was made was reported with the text of its group. -/
theorem mem_mintings {es : List Event} {m : Variable × String} :
    m ∈ mintings es ↔ .minted m.1 m.2 ∈ es := by
  simp only [mintings, List.mem_filterMap, minted?_eq_some_iff, exists_eq_right]

/-- Helpers made in the first events and in the rest. -/
@[simp] theorem mintings_append (es fs : List Event) :
    mintings (es ++ fs) = mintings es ++ mintings fs :=
  List.filterMap_append

/-- Where no helper is made twice, a reuse that comes after a minting of its helper comes after
the only one. -/
theorem exists_only_minting {told before after : List Event} {v : Variable} {text : String}
    (hnodup : ((mintings told).map Prod.fst).Nodup)
    (htold : told = before ++ .reusing v text :: after) (hmem : .minted v text ∈ before) :
    ∃ earlier between, before = earlier ++ .minted v text :: between ∧
      ∀ text', .minted v text' ∉ earlier ++ (between ++ after) := by
  obtain ⟨earlier, between, rfl⟩ := List.append_of_mem hmem
  refine ⟨earlier, between, rfl, fun text' hmem' => ?_⟩
  have hmintings : mintings told =
      mintings earlier ++ (v, text) :: (mintings between ++ mintings after) := by
    rw [htold, mintings_append, mintings_append, List.append_assoc]
    rfl
  have hminted : (v, text') ∈ mintings (earlier ++ (between ++ after)) := mem_mintings.2 hmem'
  rw [hmintings, List.map_append, List.map_cons, List.nodup_middle, List.nodup_cons,
    ← List.map_append, ← mintings_append, ← mintings_append] at hnodup
  exact hnodup.1 (List.mem_map.2 ⟨_, hminted, rfl⟩)

end Event

open Event

/-- `Chronicle helper ms es`: the events `es` report that the groups `ms` were met one after
another. A group was minted its helper when it was met first. -/
inductive Chronicle (helper : Production → Variable) : List Production → List Event → Prop where
  | nil : Chronicle helper [] []
  | minted {ms : List Production} {es : List Event} {c : Production} {text : String}
      (h : Chronicle helper ms es) (hnew : c ∉ ms) (htext : (Production.star c).text = .ok text) :
      Chronicle helper (ms ++ [c]) (es ++ [.minted (helper c) text])
  | reusing {ms : List Production} {es : List Event} {c : Production} {text : String}
      (h : Chronicle helper ms es) (hold : c ∈ ms) (htext : (Production.star c).text = .ok text) :
      Chronicle helper (ms ++ [c]) (es ++ [.reusing (helper c) text])

namespace Chronicle

variable {helper helper' : Production → Variable} {ms : List Production} {es : List Event}

/-- Only the helpers of the groups met matter. -/
theorem congr (h : Chronicle helper ms es) (heq : ∀ c ∈ ms, helper c = helper' c) :
    Chronicle helper' ms es := by
  induction h with
  | nil => exact .nil
  | minted _ hnew htext ih =>
    obtain ⟨hms, hc⟩ := List.forall_mem_append.1 heq
    rw [hc _ List.mem_cons_self]
    exact (ih hms).minted hnew htext
  | reusing _ hold htext ih =>
    obtain ⟨hms, hc⟩ := List.forall_mem_append.1 heq
    rw [hc _ List.mem_cons_self]
    exact (ih hms).reusing hold htext

/-- **One event for each time** that a group was met. -/
theorem length_eq (h : Chronicle helper ms es) : es.length = ms.length := by
  induction h with
  | nil => rfl
  | minted _ _ _ ih | reusing _ _ _ ih => rw [List.length_append, List.length_append, ih]; rfl

/-- Nothing else is told. -/
theorem minted_or_reusing (h : Chronicle helper ms es) :
    ∀ e ∈ es, e.minted?.isSome ∨ e.reusing?.isSome := by
  induction h with
  | nil => exact fun e he => absurd he List.not_mem_nil
  | minted _ _ _ ih =>
    exact List.forall_mem_append.2 ⟨ih, List.forall_mem_singleton.2 (.inl rfl)⟩
  | reusing _ _ _ ih =>
    exact List.forall_mem_append.2 ⟨ih, List.forall_mem_singleton.2 (.inr rfl)⟩

/-- **One minting for each group,** in the order in which the groups were met first. -/
theorem mintings_eq (h : Chronicle helper ms es) :
    List.Forall₂ (fun c m => m.1 = helper c ∧ (Production.star c).text = .ok m.2)
      ms.eraseDups (mintings es) := by
  induction h with
  | nil => exact .nil
  | minted _ hnew htext ih =>
    rw [eraseDups_concat, if_neg hnew, mintings_append]
    exact List.rel_append ih (.cons ⟨rfl, htext⟩ .nil)
  | @reusing ms es c text _ hold _ ih =>
    have hnone : mintings [.reusing (helper c) text] = [] := rfl
    rw [eraseDups_concat, if_pos hold, mintings_append, hnone, List.append_nil]
    exact ih

/-- A group that was met was minted its helper. -/
theorem minted_mem (h : Chronicle helper ms es) {c : Production} (hc : c ∈ ms) {text : String}
    (htext : (Production.star c).text = .ok text) : .minted (helper c) text ∈ es := by
  induction h with
  | nil => exact absurd hc List.not_mem_nil
  | minted _ _ htext' ih =>
    rcases List.mem_append.1 hc with hc | hc
    · exact List.mem_append_left _ (ih hc)
    · obtain rfl := List.mem_singleton.1 hc
      obtain rfl := Except.ok.inj (htext.symm.trans htext')
      exact List.mem_append_right _ List.mem_cons_self
  | reusing _ hold _ ih =>
    refine List.mem_append_left _ (ih ?_)
    exact (List.mem_append.1 hc).elim id fun hc => List.mem_singleton.1 hc ▸ hold

/-- The last event comes after the one in question, or it is this one. -/
theorem last_or_before {es before after : List Event} {e e' : Event}
    (h : es ++ [e] = before ++ e' :: after) :
    (∃ after', es = before ++ e' :: after') ∨ es = before ∧ e = e' := by
  rcases List.eq_nil_or_concat' after with rfl | ⟨after', x, rfl⟩
  · obtain ⟨hes, he⟩ := List.append_inj' h rfl
    exact .inr ⟨hes, List.head_eq_of_cons_eq he⟩
  · rw [← List.cons_append, ← List.append_assoc] at h
    exact .inl ⟨after', (List.append_inj' h rfl).1⟩

/-- **No helper is put in again before it was made,** and its group had the same text then. -/
theorem minted_mem_before (h : Chronicle helper ms es) {before after : List Event} {v : Variable}
    {text : String} (hes : es = before ++ .reusing v text :: after) : .minted v text ∈ before := by
  induction h generalizing after with
  | nil => exact absurd hes.symm (by simp)
  | minted _ _ _ ih =>
    rcases last_or_before hes with ⟨after', hes⟩ | ⟨-, he⟩
    · exact ih hes
    · cases he
  | reusing h hold htext ih =>
    rcases last_or_before hes with ⟨after', hes⟩ | ⟨rfl, he⟩
    · exact ih hes
    · cases he
      exact h.minted_mem hold htext

end Chronicle

/-! ### Visits and passes -/

/-- What is reported to a trace could be shown, and stands at its end. -/
theorem Naming.trace_of_report_map {x : Except Fault String} {event : String → Event}
    {s t : Naming} {u : Unit} {es : List Event} (h : report (x.map event) s = .ok u t)
    (hs : s.trace = some es) : ∃ text, x = .ok text ∧ t.trace = some (es ++ [event text]) := by
  cases x with
  | ok text =>
    simp only [report, hs, Except.map] at h
    cases h
    exact ⟨text, rfl, rfl⟩
  | error f =>
    simp only [report, hs, Except.map] at h
    cases h

open Production

/-- `Told known ms es`: the groups `ms` were met, so that these have helpers and no others,
and `es` reports it. -/
structure Told (known : Known) (ms : List Production) (es : List Event) : Prop where
  known_iff : ∀ c, (known (.star c)).isSome ↔ c ∈ ms
  chronicle : Chronicle known.helper ms es

namespace Told

variable {known : Known} {ms cs : List Production} {c : Production} {s t : Naming} {made : Helpers}
  {old es : List Event}

/-- A group that has a helper is met again. -/
theorem reusing (h : Told known ms es) {v : Variable} (hk : known (.star c) = some v)
    {text : String} (htext : (Production.star c).text = .ok text) :
    Told known (ms ++ [c]) (es ++ [.reusing v text]) where
  known_iff d := by
    have hc : c ∈ ms := (h.known_iff c).1 (by rw [hk]; rfl)
    rw [h.known_iff, List.mem_append, List.mem_singleton]
    exact ⟨.inl, fun hd => hd.elim id fun hd => hd ▸ hc⟩
  chronicle := by
    have hc : c ∈ ms := (h.known_iff c).1 (by rw [hk]; rfl)
    have hhelper : known.helper c = v := by rw [Known.helper, hk]; rfl
    exact hhelper ▸ h.chronicle.reusing hc htext

/-- A group that has none is met for the first time, and learned. -/
theorem minted (h : Told known ms es) (hk : known (.star c) = none) (v : Variable)
    {text : String} (htext : (Production.star c).text = .ok text) :
    Told (known.learn [(c, v)]) (ms ++ [c]) (es ++ [.minted v text]) where
  known_iff d := by
    rw [Known.learn_star, Option.isSome_or, Bool.or_eq_true, h.known_iff,
      Helpers.lookup_isSome_iff, List.mem_append]
    rfl
  chronicle := by
    have hnew : c ∉ ms := fun hc => by
      have hsome := (h.known_iff c).2 hc
      rw [hk] at hsome
      cases hsome
    have hhelper : (known.learn [(c, v)]).helper c = v := by simp [Known.helper, hk]
    -- the groups met before keep their helpers, so that what was told stays true
    have hold : Chronicle (known.learn [(c, v)]).helper ms es :=
      h.chronicle.congr fun d hd => (Known.helper_learn ((h.known_iff d).2 hd)).symm
    have hminted := hold.minted hnew htext
    rwa [hhelper] at hminted

/-- **A visit is told** by one more event. -/
theorem visit (h : Told known ms es) (hvisit : Production.visit known c s = .ok made t)
    (hs : s.trace = some (old ++ es)) :
    ∃ es', t.trace = some (old ++ es') ∧ Told (known.learn made) (ms ++ [c]) es' := by
  cases hk : known (.star c) with
  | some v =>
    simp only [Production.visit, hk] at hvisit
    obtain ⟨_, u, hreport, hvisit⟩ := Naming.bind_eq_ok.1 hvisit
    obtain ⟨rfl, rfl⟩ := Naming.pure_eq_ok.1 hvisit
    obtain ⟨text, htext, htrace⟩ := Naming.trace_of_report_map hreport hs
    rw [List.append_assoc] at htrace
    rw [Known.learn_nil]
    exact ⟨_, htrace, h.reusing hk htext⟩
  | none =>
    simp only [Production.visit, hk] at hvisit
    obtain ⟨v, u, hfresh, hvisit⟩ := Naming.bind_eq_ok.1 hvisit
    obtain ⟨_, x, hreport, hvisit⟩ := Naming.bind_eq_ok.1 hvisit
    obtain ⟨_, y, hcheck, hvisit⟩ := Naming.bind_eq_ok.1 hvisit
    obtain ⟨rfl, rfl⟩ := Naming.pure_eq_ok.1 hvisit
    obtain ⟨-, rfl⟩ := Naming.check_eq_ok.1 hcheck
    have hu : u.trace = some (old ++ es) := (Naming.fresh_eq_ok.1 hfresh).2.trans hs
    obtain ⟨text, htext, htrace⟩ := Naming.trace_of_report_map hreport hu
    rw [List.append_assoc] at htrace
    exact ⟨_, htrace, h.minted hk v htext⟩

/-- Visits are told one after another. -/
theorem visitAll (h : Told known ms es) (hvisits : Production.visitAll known cs s = .ok made t)
    (hs : s.trace = some (old ++ es)) :
    ∃ es', t.trace = some (old ++ es') ∧ Told (known.learn made) (ms ++ cs) es' := by
  induction cs generalizing known ms es s made with
  | nil =>
    obtain ⟨rfl, rfl⟩ := Naming.pure_eq_ok.1 hvisits
    rw [Known.learn_nil, List.append_nil]
    exact ⟨es, hs, h⟩
  | cons c cs ih =>
    obtain ⟨first, u, hfirst, hvisits⟩ := Naming.bind_eq_ok.1 hvisits
    obtain ⟨rest, x, hrest, hvisits⟩ := Naming.bind_eq_ok.1 hvisits
    obtain ⟨rfl, rfl⟩ := Naming.pure_eq_ok.1 hvisits
    obtain ⟨es', hu, htold⟩ := h.visit hfirst hs
    obtain ⟨es'', hx, htold⟩ := ih htold hrest hu
    rw [← Known.learn_append, List.append_assoc] at htold
    exact ⟨es'', hx, htold⟩

end Told

namespace Pass

variable {g : Grammar} {a₀ a : Allocator} {past : List (Variable × Production)} {made : Helpers}
  {w : Worklist} {old es : List Event}

/-- **A pass is told** as far as its steps have led: by an event for each group that the
rules taken have met. -/
theorem told_of_steps (h : Pass g a₀ past made w a)
    (htold : Told made.known (past.flatMap fun e => e.2.met) es) {n : Nat} {w' : Worklist}
    {s t : Naming} (ha : s.allocator = a) (hs : s.trace = some (old ++ es))
    (hsteps : w.Steps n s w' t) :
    ∃ past' made' es', Pass g a₀ past' made' w' t.allocator ∧ t.trace = some (old ++ es') ∧
      Told made'.known (past'.flatMap fun e => e.2.met) es' := by
  induction hsteps generalizing past made a es with
  | refl => exact ⟨past, made, es, ha ▸ h, hs, htold⟩
  | @step n w w' w'' s s' s'' v p rest hq hstep _ ih =>
    obtain ⟨new, hnew, hpass⟩ := h.step hq ha hstep
    obtain ⟨es', hs', htold'⟩ := htold.visitAll hnew hs
    have hmet : (past.flatMap fun e => e.2.met) ++ p.met =
        (past ++ [(v, p)]).flatMap fun e => e.2.met := by
      rw [List.flatMap_append, List.flatMap_singleton]
    rw [← Helpers.known_append, hmet] at htold'
    exact ih hpass htold' rfl hs'

end Pass

/-! ### Occurrences of helpers -/

namespace Production

variable {helper : Production → Variable} {isHelper : Variable → Bool} {p : Production}

/-- **In a plain form there is a helper for each group met,** when no variable of the
production is one. -/
theorem countP_references_replace (hrefs : ∀ v ∈ p.references, isHelper v = false)
    (hmet : ∀ c ∈ p.met, isHelper (helper c) = true) :
    (p.replace helper).references.countP isHelper = p.met.length := by
  induction p using induction with
  | epsilon d | terminal d _ => rfl
  | reference d v =>
    have hv : isHelper v = false := hrefs v List.mem_cons_self
    simp [replace, references, met, hv]
  | optional d c ih => exact ih hrefs hmet
  | join d op cs ih =>
    rw [references_join] at hrefs
    rw [met_join] at hmet
    rw [replace_join, references_join, List.flatMap_map, met_join, List.countP_flatMap,
      List.length_flatMap]
    congr 1
    refine List.map_congr_left fun c hc => ih c hc (fun v hv => ?_) fun d hd => ?_
    · exact hrefs v (List.mem_flatMap.2 ⟨c, hc, hv⟩)
    · exact hmet d (List.mem_flatMap.2 ⟨c, hc, hd⟩)
  | star c =>
    have hc : isHelper (helper c) = true := hmet c List.mem_cons_self
    simp [replace, references, met, hc]
  | plus c ih =>
    obtain ⟨hbody, hc⟩ := List.forall_mem_append.1 hmet
    have hcount := ih hrefs hbody
    have hone : isHelper (helper c) = true := hc c List.mem_cons_self
    simp [replace, references, met, hcount, hone]

/-- A helper rule has one helper more, at its end. -/
theorem countP_references_plainHelperRule {body : Production} {v : Variable}
    (hv : isHelper v = true) :
    (plainHelperRule body v).references.countP isHelper =
      body.references.countP isHelper + 1 := by
  simp [plainHelperRule, references, referencesAll_eq, hv]

end Production

namespace Grammar

/-- **Helpers occur in a normal form** as often as groups are met in the rules of the grammar
and of the helpers, and once more for each helper. -/
theorem Translation.countP_references {g n : Grammar} {gs : List Production}
    {helper : Production → Variable} (h : g.Translation gs helper n)
    (hfresh : ∀ v ∈ gs.map helper, v ∉ g.allVariables) :
    (n.rules.values.flatMap references).countP (· ∈ gs.map helper) =
      ((g.rules.values ++ gs.map fun c => helperRule c (helper c)).flatMap met).length +
        gs.length := by
  have hvalues : n.rules.values = g.rules.values.map (replace helper) ++
      gs.map fun c => plainHelperRule (c.replace helper) (helper c) := by
    rw [Registry.values, h.rules, List.map_append, List.map_map, List.map_map, Registry.values,
      List.map_map]
    rfl
  have hhelper {c : Production} (hc : c ∈ g.groups) : helper c ∈ gs.map helper :=
    List.mem_map_of_mem ((h.mem_groups c).2 hc)
  have hother {v : Variable} (hv : v ∈ g.allVariables) : v ∉ gs.map helper :=
    fun hmem => hfresh v hmem hv
  have hrule {p : Production} (hp : p ∈ g.rules.values) :
      (p.replace helper).references.countP (· ∈ gs.map helper) = p.met.length := by
    refine countP_references_replace (fun v hv => ?_) fun c hc => ?_
    · exact decide_eq_false (hother (mem_allVariables.2 (.inr (.inr ⟨p, hp, hv⟩))))
    · exact decide_eq_true (hhelper (mem_groups_of_met hp hc))
  have hgroup {c : Production} (hc : c ∈ gs) :
      (plainHelperRule (c.replace helper) (helper c)).references.countP (· ∈ gs.map helper) =
        c.met.length + 1 := by
    have hg : c ∈ g.groups := (h.mem_groups c).1 hc
    rw [countP_references_plainHelperRule (decide_eq_true (hhelper hg)),
      countP_references_replace (fun v hv => ?_) fun d hd => ?_]
    · exact decide_eq_false (hother (references_subset_of_mem_groups hg v hv))
    · exact decide_eq_true (hhelper (mem_groups_of_met_group hg hd))
  calc (n.rules.values.flatMap references).countP (· ∈ gs.map helper)
      = (g.rules.values.map fun p => p.met.length).sum +
          (gs.map fun c => c.met.length + 1).sum := by
        rw [hvalues, List.flatMap_append, List.countP_append, List.flatMap_map, List.flatMap_map,
          List.countP_flatMap, List.countP_flatMap]
        exact congrArg₂ (· + ·) (congrArg _ (List.map_congr_left fun p => hrule))
          (congrArg _ (List.map_congr_left fun c => hgroup))
    _ = _ := by
        rw [List.flatMap_append, List.length_append, List.flatMap_map, List.length_flatMap,
          List.length_flatMap, List.sum_map_add]
        simp only [met_helperRule, List.map_const', List.sum_replicate, smul_eq_mul, mul_one,
          add_assoc]

/-- What normalizing reports is a chronicle of the groups met, and then the normal form. -/
theorem exists_chronicle {g n : Grammar} {s t : Naming} {old : List Event}
    (h : g.normalize s = .ok n t) (hs : s.trace = some old) :
    ∃ gs helper told text, g.Translation gs helper n ∧
      (∀ v ∈ gs.map helper, v ∉ g.allVariables) ∧
      Chronicle helper ((g.rules.values ++ gs.map fun c => helperRule c (helper c)).flatMap met)
        told ∧
      t.trace = some (old ++ told ++ [.normalized text]) ∧ n.format = .ok text := by
  obtain ⟨k, w, u, hsteps, hq, hreport, rfl⟩ := exists_steps h
  have hfirst : Told (Helpers.known []) [] [] := by
    refine ⟨fun c => ?_, .nil⟩
    rw [Helpers.isSome_known_iff]
    rfl
  have htrace : ({ s with allocator := s.allocator.reserveAll g.allVariables } : Naming).trace =
      some (old ++ []) := by
    rw [List.append_nil]
    exact hs
  obtain ⟨past, made, told, hpass, hu, htold⟩ :=
    (Pass.init g _).told_of_steps hfirst rfl htrace hsteps
  obtain ⟨text, htext, ht⟩ := Naming.trace_of_report_map hreport hu
  refine ⟨made.groups, made.helper, told, text, hpass.translation hq, ?_, ?_, ht, htext⟩
  · rw [← Helpers.names_eq hpass.nodup_groups]
    exact helper_not_mem_allVariables hpass.supply
  · rw [← hpass.flatMap_met_past hq]
    exact htold.chronicle

/-- **The log of a pass tells the true story.** What is reported while a grammar is
normalized are mintings and reuses of helpers, and then the normal form, once. The mintings
are those of the helpers of the normal form, one for each and in the order of their rules,
with the texts of their groups. Each reuse comes after the only minting of its helper and has
the same text. Mintings and reuses are together as many as the occurrences of helpers in the
right-hand sides of the normal form, but for the one at the end of each helper rule. -/
theorem normalize_tells_story {g n : Grammar} {s t : Naming} {old : List Event}
    (h : g.normalize s = .ok n t) (hs : s.trace = some old) :
    ∃ (told : List Event) (text : String),
      t.trace = some (old ++ told ++ [.normalized text]) ∧ n.format = .ok text ∧
      (∀ e ∈ told, e.minted?.isSome ∨ e.reusing?.isSome) ∧
      (mintings told).map Prod.fst = (n.helperRules g.rules.size).keys ∧
      (∃ gs helper, g.Translation gs helper n ∧ List.Forall₂
        (fun c m => m.1 = helper c ∧ (Production.star c).text = .ok m.2) gs (mintings told)) ∧
      (∀ before v text after, told = before ++ .reusing v text :: after →
        ∃ earlier between, before = earlier ++ .minted v text :: between ∧
          ∀ text', .minted v text' ∉ earlier ++ (between ++ after)) ∧
      told.length + (n.helperRules g.rules.size).size =
        (n.rules.values.flatMap references).countP (· ∈ (n.helperRules g.rules.size).keys) := by
  obtain ⟨gs, helper, told, text, htrans, hfresh, hchronicle, ht, htext⟩ := exists_chronicle h hs
  have hmintings := hchronicle.mintings_eq
  rw [← htrans.scan] at hmintings
  have hnames : (mintings told).map Prod.fst = gs.map helper := by
    rw [eq_comm, ← List.forall₂_eq_eq_eq, List.forall₂_map_left_iff, List.forall₂_map_right_iff]
    exact hmintings.imp fun c m hm => hm.1.symm
  have hkeys : (mintings told).map Prod.fst = (n.helperRules g.rules.size).keys :=
    hnames.trans htrans.keys_helperRules.symm
  refine ⟨told, text, ht, htext, hchronicle.minted_or_reusing, hkeys,
    ⟨gs, helper, htrans, hmintings⟩, fun before v text after htold => ?_, ?_⟩
  · exact exists_only_minting (hkeys ▸ Registry.nodup_keys _) htold
      (hchronicle.minted_mem_before htold)
  · have hsize : (n.helperRules g.rules.size).size = gs.length := by
      rw [← List.length_map (f := helper), ← htrans.keys_helperRules, Registry.keys,
        List.length_map]
      rfl
    rw [hchronicle.length_eq, hsize, htrans.keys_helperRules, htrans.countP_references hfresh]

/-- For `S -> 'a'* S | 'a'+`, whose normal form is `S -> A S | 'a' A` with
`A -> eps | 'a' A`, the helper `A` is made once and put in again once. It occurs three times
in the normal form, the last time at the end of its own rule. -/
theorem normalize_tells_story_shared :
    ∃ (t : Naming) (told : List Event) (text : String),
      shared.normalize { trace := some [] } = .ok sharedNormal t ∧
      t.trace = some ([] ++ told ++ [.normalized text]) ∧ sharedNormal.format = .ok text ∧
      told = [.minted ⟨"A"⟩ "'a'*", .reusing ⟨"A"⟩ "'a'*"] ∧
      (mintings told).map Prod.fst = [⟨"A"⟩] ∧
      (∃ earlier between, [Event.minted ⟨"A"⟩ "'a'*"] =
          earlier ++ Event.minted ⟨"A"⟩ "'a'*" :: between ∧
        ∀ text', Event.minted ⟨"A"⟩ text' ∉ earlier ++ (between ++ [])) ∧
      told.length + 1 = (sharedNormal.rules.values.flatMap references).countP (· ∈ [⟨"A"⟩]) := by
  have hrun : ∃ t text, shared.normalize { trace := some [] } = .ok sharedNormal t ∧
      t.trace = some ([.minted ⟨"A"⟩ "'a'*", .reusing ⟨"A"⟩ "'a'*"] ++ [.normalized text]) := by
    refine ⟨⟨⟨.ofList [⟨"A"⟩, ⟨"S"⟩], (Pool.letters.draw ∅).2⟩, some [.minted ⟨"A"⟩ "'a'*",
      .reusing ⟨"A"⟩ "'a'*", .normalized "S -> A S | 'a' A\nA -> eps | 'a' A"]⟩, _, ?_, rfl⟩
    cbv
  obtain ⟨t, text', ht, htrace⟩ := hrun
  obtain ⟨told, text, htold, htext, -, hnames, -, hreuse, hcount⟩ := normalize_tells_story ht rfl
  have hevents : told = [.minted ⟨"A"⟩ "'a'*", .reusing ⟨"A"⟩ "'a'*"] :=
    (List.append_inj' (Option.some.inj (htold.symm.trans htrace)) rfl).1
  have hhelpers : (sharedNormal.helperRules shared.rules.size).keys = [⟨"A"⟩] := by decide
  rw [hhelpers] at hnames hcount
  exact ⟨t, told, text, ht, htold, htext, hevents, hnames, hreuse _ _ _ [] hevents, hcount⟩

end Grammar
end ContextFree
