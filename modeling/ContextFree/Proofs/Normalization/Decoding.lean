/-
# The normal form can be decoded

`Decodes` says what a plain production should be read back as, and `decode` reads
it back. They agree when every helper may be followed (`decode_eq_some_iff`): the
decoder is cut off only where a helper comes up again while its own rule is read,
and there nothing could be read back, because a repetition is larger than its
body.

The main statement is `decode_normalize`. The plain form of a rule reads back as
the rule with every `X+` written as `X X*` (`decodes_replace`), since helpers are
no variables of the grammar and each stands for one group.
-/

import ContextFree.Grammar.Decoding
import ContextFree.Proofs.Loops
import ContextFree.Proofs.Normalization.Language
import ContextFree.Proofs.Normalization.Success
import ContextFree.Proofs.Production.Spelling

namespace ContextFree
namespace Production

variable {helpers : Variable → Option Production} {left : List Variable}

/-! ### The decoder reads back what it should -/

/-- A join reads back as the join of what its children read back as. -/
theorem decodes_join_iff {op : Connective} {ps qs : List Production} :
    Decodes helpers (.join .plain op ps) (.join .extended op qs) ↔
      List.Forall₂ (Decodes helpers) ps qs := by
  constructor
  · intro h
    induction ps generalizing qs with
    | nil =>
      cases h
      exact .nil
    | cons p ps ih =>
      cases h with
      | joinCons h hs => exact .cons h (ih hs)
  · intro h
    induction h with
    | nil => exact .joinNil
    | cons h _ ih => exact .joinCons h ih

/-- Siblings are decoded one by one. -/
theorem decodeAll_eq_some_iff {ps qs : List Production} :
    decodeAll helpers left ps = some qs ↔
      List.Forall₂ (fun p q => decode helpers left p = some q) ps qs := by
  induction ps generalizing qs with
  | nil => simp [decodeAll, eq_comm]
  | cons p ps ih =>
    simp only [decodeAll, Option.bind_eq_bind, Option.bind_eq_some_iff, ih]
    constructor
    · rintro ⟨q, hq, qs, hqs, ⟨⟩⟩
      exact .cons hq hqs
    · rintro (_ | ⟨hq, hqs⟩)
      exact ⟨_, hq, _, hqs, rfl⟩

/-- A helper that may be followed reads back as the repetition of its body. -/
theorem decode_reference_eq_some_iff {v : Variable} {q : Production} :
    decode helpers left (.reference .plain v) = some q ↔
      helpers v = none ∧ q = .reference .extended v ∨
        v ∈ left ∧ ∃ body c, helpers v = some (plainHelperRule body v) ∧
          decode helpers (left.erase v) body = some c ∧ q = .star c := by
  rw [decode]
  cases hv : helpers v with
  | none => simp [eq_comm]
  | some rule =>
    by_cases hleft : v ∈ left
    · simp only [hleft, dite_true, Option.bind_eq_some_iff, helperBody?_eq_some_iff,
        Option.map_eq_some_iff, reduceCtorEq, false_and, false_or, true_and, Option.some.injEq]
      constructor
      · rintro ⟨body, hrule, c, hc, rfl⟩
        exact ⟨body, c, hrule, hc, rfl⟩
      · rintro ⟨body, c, hrule, hc, rfl⟩
        exact ⟨body, hrule, c, hc, rfl⟩
    · simp [hleft]

/-- What is read back has the original as its plain form. The induction is on the
helpers that are left, and then on the production. -/
theorem decodes_of_decode {p q : Production} (h : decode helpers left p = some q) :
    Decodes helpers p q := by
  induction hn : left.length using Nat.strong_induction_on generalizing left p q with
  | _ n ihleft =>
    induction p using induction generalizing q with
    | epsilon d =>
      cases d with
      | plain =>
        rw [decode] at h
        cases h
        exact .epsilon
      | extended => simp [decode] at h
    | terminal d t =>
      cases d with
      | plain =>
        rw [decode] at h
        cases h
        exact .terminal
      | extended => simp [decode] at h
    | reference d v =>
      cases d with
      | plain =>
        rcases decode_reference_eq_some_iff.1 h with ⟨hv, rfl⟩ | ⟨hleft, body, c, hv, hc, rfl⟩
        · exact .reference hv
        · have hlength := List.length_erase_of_mem hleft
          have hpos := List.length_pos_of_mem hleft
          exact .repetition hv (ihleft _ (by omega) hc rfl)
      | extended => simp [decode] at h
    | optional d c ih =>
      cases d with
      | plain =>
        rw [decode] at h
        obtain ⟨q, hq, rfl⟩ := Option.map_eq_some_iff.1 h
        exact .optional (ih hq)
      | extended => simp [decode] at h
    | join d op cs ih =>
      cases d with
      | plain =>
        rw [decode] at h
        obtain ⟨qs, hqs, rfl⟩ := Option.map_eq_some_iff.1 h
        rw [decodeAll_eq_some_iff] at hqs
        refine decodes_join_iff.2 ?_
        clear h
        induction hqs with
        | nil => exact .nil
        | cons hc _ ihs =>
          exact .cons (ih _ List.mem_cons_self hc) (ihs fun x hx => ih x (List.mem_cons_of_mem _ hx))
      | extended => simp [decode] at h
    | star c | plus c => simp [decode] at h

/-- What can be read back is found, if every helper may be followed that stands for
no larger a repetition. A helper that was followed is not needed again, because the
repetitions in its body are smaller than its own. -/
theorem decode_of_decodes {p q : Production} (h : Decodes helpers p q)
    (hleft : ∀ v c, Decodes helpers (.reference .plain v) (.star c) → sizeOf (star c) ≤ sizeOf q →
      v ∈ left) : decode helpers left p = some q := by
  induction h generalizing left with
  | epsilon | terminal => rw [decode]
  | reference h => exact decode_reference_eq_some_iff.2 (.inl ⟨h, rfl⟩)
  | @repetition v body c hv h ih =>
    refine decode_reference_eq_some_iff.2
      (.inr ⟨hleft v c (.repetition hv h) le_rfl, body, c, hv, ih fun w d hw hsize => ?_, rfl⟩)
    have hne : w ≠ v := by
      rintro rfl
      obtain rfl := Production.star.inj (hw.unique (.repetition hv h))
      simp at hsize
    refine (List.mem_erase_of_ne hne).2 (hleft w d hw (hsize.trans ?_))
    simp
  | optional _ ih =>
    rw [decode, ih fun w d hw hsize => hleft w d hw (hsize.trans (by simp)), Option.map_some]
  | joinNil => rw [decode, decodeAll, Option.map_some]
  | @joinCons op p q ps qs _ _ ih ihs =>
    have hp := ih fun w d hw hsize => hleft w d hw (hsize.trans (by simp; omega))
    have hps := ihs fun w d hw hsize => hleft w d hw (hsize.trans (by simp))
    rw [decode] at hps ⊢
    obtain ⟨qs', hqs, heq⟩ := Option.map_eq_some_iff.1 hps
    cases heq
    simp [decodeAll, hp, hqs]

/-- **The decoder reads back what it should,** when every helper may be followed. -/
theorem decode_eq_some_iff {helpers : Registry Variable Production} {p q : Production} :
    decode helpers.get? helpers.keys p = some q ↔ Decodes helpers.get? p q := by
  refine ⟨decodes_of_decode, fun h => decode_of_decodes h fun v c hv _ => ?_⟩
  cases hv with
  | repetition hv => exact Registry.mem_keys_of_get? hv

/-! ### Plain forms -/

/-- **A plain form reads back as the production it came from,** up to the spelling
of `+`, when the variables in it are no helpers and its groups have their rules. -/
theorem decodes_replace {helpers : Variable → Option Production} {helper : Production → Variable}
    {p : Production} (hp : Within .extended p) (hrefs : ∀ v ∈ p.references, helpers v = none)
    (hgroups : ∀ c ∈ p.groups,
      helpers (helper c) = some (plainHelperRule (c.replace helper) (helper c))) :
    Decodes helpers (p.replace helper) p.spell := by
  induction p using induction with
  | epsilon d =>
    obtain rfl := within_epsilon.1 hp
    exact .epsilon
  | terminal d t =>
    obtain rfl := within_terminal.1 hp
    exact .terminal
  | reference d v =>
    obtain rfl := within_reference.1 hp
    exact .reference (hrefs v List.mem_cons_self)
  | optional d c ih =>
    obtain ⟨rfl, hc⟩ := within_optional.1 hp
    exact .optional (ih hc hrefs hgroups)
  | join d op cs ih =>
    obtain ⟨rfl, hcs⟩ := within_join.1 hp
    rw [replace_join, spell_join, decodes_join_iff, List.forall₂_map_left_iff,
      List.forall₂_map_right_iff, List.forall₂_same]
    refine fun c hc => ih c hc (hcs c hc) (fun v hv => hrefs v ?_) fun d hd => hgroups d ?_
    · rw [references, referencesAll_eq]
      exact List.mem_flatMap.2 ⟨c, hc, hv⟩
    · rw [groups_join]
      exact List.mem_flatMap.2 ⟨c, hc, hd⟩
  | star c ih =>
    have hc := ih (within_star.1 hp).2 hrefs fun d hd => hgroups d (List.mem_cons_of_mem c hd)
    exact .repetition (hgroups c List.mem_cons_self) hc
  | plus c ih =>
    have hc := ih (within_plus.1 hp).2 hrefs fun d hd => hgroups d (List.mem_cons_of_mem c hd)
    exact .joinCons hc (.joinCons (.repetition (hgroups c List.mem_cons_self) hc) .joinNil)

end Production

namespace Grammar

open Production

namespace Translation

variable {g n : Grammar} {gs : List Production} {helper : Production → Variable}

/-- The rules after those of the grammar are the helper rules. -/
theorem entries_helperRules (h : g.Translation gs helper n) :
    (n.helperRules g.rules.size).entries =
      gs.map fun c => (helper c, plainHelperRule (c.replace helper) (helper c)) := by
  rw [helperRules, Registry.entries_drop, h.rules]
  exact List.drop_left' (by rw [List.length_map, Registry.size])

/-- Each of them has the helper of a group. -/
theorem keys_helperRules (h : g.Translation gs helper n) :
    (n.helperRules g.rules.size).keys = gs.map helper := by
  rw [Registry.keys, h.entries_helperRules, List.map_map]
  rfl

/-- The rule of a helper is that of its group. -/
theorem get?_helperRules (h : g.Translation gs helper n) {c : Production} (hc : c ∈ g.groups) :
    (n.helperRules g.rules.size).get? (helper c) =
      some (plainHelperRule (c.replace helper) (helper c)) := by
  rw [Registry.get?_eq_some_iff, h.entries_helperRules]
  exact List.mem_map.2 ⟨c, (h.mem_groups c).2 hc, rfl⟩

/-- The rules before them are those of the grammar in plain form. -/
theorem take_entries (h : g.Translation gs helper n) :
    n.rules.entries.take g.rules.size = g.rules.entries.map fun e => (e.1, e.2.replace helper) := by
  rw [h.rules]
  exact List.take_left' (by rw [List.length_map, Registry.size])

/-- A variable of the grammar is no helper. -/
theorem get?_helperRules_of_mem (hfresh : ∀ c ∈ gs, helper c ∉ g.allVariables)
    (h : g.Translation gs helper n) {v : Variable} (hv : v ∈ g.allVariables) :
    (n.helperRules g.rules.size).get? v = none := by
  refine Registry.get?_eq_none_iff.2 fun hkey => ?_
  rw [h.keys_helperRules] at hkey
  obtain ⟨c, hc, rfl⟩ := List.mem_map.1 hkey
  exact hfresh c hc hv

/-- **The right-hand sides read back** as those of the grammar. -/
theorem decode_replace (hfresh : ∀ c ∈ gs, helper c ∉ g.allVariables) (hg : g.Within .extended)
    (h : g.Translation gs helper n) {p : Production} (hp : p ∈ g.rules.values) :
    (p.replace helper).decode (n.helperRules g.rules.size).get?
      (n.helperRules g.rules.size).keys = some p.spell := by
  refine decode_eq_some_iff.2 (decodes_replace (hg p hp) (fun v hv => ?_) fun c hc => ?_)
  · exact h.get?_helperRules_of_mem hfresh (mem_allVariables.2 (.inr (.inr ⟨p, hp, hv⟩)))
  · exact h.get?_helperRules (List.mem_flatMap.2 ⟨p, hp, hc⟩)

/-- **The normal form reads back as the grammar,** with `X+` spelled `X X*`. -/
theorem decode_eq (hfresh : ∀ c ∈ gs, helper c ∉ g.allVariables) (hg : g.Within .extended)
    (h : g.Translation gs helper n) : n.decode g.rules.size = some g.spelled := by
  have hrules : (n.rules.entries.take g.rules.size).mapM (fun e =>
      (e.2.decode (n.helperRules g.rules.size).get? (n.helperRules g.rules.size).keys).map
        fun q => (e.1, q)) = some (g.rules.mapValues spell).entries := by
    rw [h.take_entries, Registry.entries_mapValues]
    refine mapM_map_eq_some fun e he => ?_
    rw [h.decode_replace hfresh hg (List.mem_map_of_mem he)]
    rfl
  calc n.decode g.rules.size
      = some { start := n.start, rules := .ofList (g.rules.mapValues spell).entries } := by
        simp only [Grammar.decode, hrules]
        rfl
    _ = some g.spelled := by rw [Registry.ofList_entries, h.start, spelled]

end Translation

/-- **The normal form can be decoded.** Every rule after those of the grammar is
that of a helper, and no variable of the grammar is one. With these helpers,
whatever can be read back is found. What the normal form reads back as, given the
number of rules of the grammar alone, is the grammar with every `X+` written as
`X X*`. So grammars with the same normal form and as many rules are the same up to
the spelling of `+`. -/
theorem decode_normalize {g n : Grammar} {s t : Naming} (h : g.normalize s = .ok n t) :
    (∀ e ∈ (n.helperRules g.rules.size).entries, ∃ body, e.2 = plainHelperRule body e.1) ∧
      (∀ v ∈ g.allVariables, (n.helperRules g.rules.size).get? v = none) ∧
      (∀ p q, p.decode (n.helperRules g.rules.size).get? (n.helperRules g.rules.size).keys =
        some q ↔ Decodes (n.helperRules g.rules.size).get? p q) ∧
      n.decode g.rules.size = some g.spelled ∧
      ∀ g' s' t', normalize g' s' = .ok n t' → g'.rules.size = g.rules.size →
        g'.spelled = g.spelled := by
  have hdecode {g : Grammar} {s t : Naming} (h : g.normalize s = .ok n t) :
      n.decode g.rules.size = some g.spelled := by
    obtain ⟨gs, helper, htrans, hsupply⟩ := exists_translation h
    exact htrans.decode_eq (fun c hc => helper_not_mem_allVariables hsupply _
      (List.mem_map_of_mem hc)) (offers_of_normalize h).1
  obtain ⟨gs, helper, htrans, hsupply⟩ := exists_translation h
  refine ⟨fun e he => ?_, fun v hv => ?_, fun p q => decode_eq_some_iff, hdecode h,
    fun g' s' t' h' hsize => ?_⟩
  · rw [htrans.entries_helperRules] at he
    obtain ⟨c, -, rfl⟩ := List.mem_map.1 he
    exact ⟨_, rfl⟩
  · exact htrans.get?_helperRules_of_mem (fun c hc => helper_not_mem_allVariables hsupply _
      (List.mem_map_of_mem hc)) hv
  · have hsame := (hdecode h').symm.trans (hsize ▸ hdecode h)
    exact Option.some.inj hsame

/-- `S -> A S | 'a' A` with `A -> eps | 'a' A` reads back as `S -> 'a'* S | 'a' 'a'*`. -/
theorem decode_normalize_shared :
    ∃ t, shared.normalize {} = .ok sharedNormal t ∧
      (∀ e ∈ (sharedNormal.helperRules shared.rules.size).entries,
        ∃ body, e.2 = plainHelperRule body e.1) ∧
      (∀ v ∈ shared.allVariables, (sharedNormal.helperRules shared.rules.size).get? v = none) ∧
      (∀ p q, p.decode (sharedNormal.helperRules shared.rules.size).get?
        (sharedNormal.helperRules shared.rules.size).keys = some q ↔
          Decodes (sharedNormal.helperRules shared.rules.size).get? p q) ∧
      sharedNormal.decode shared.rules.size = some shared.spelled ∧
      ∀ g' s' t', normalize g' s' = .ok sharedNormal t' → g'.rules.size = shared.rules.size →
        g'.spelled = shared.spelled := by
  obtain ⟨t, ht⟩ := normalize_shared
  exact ⟨t, ht, decode_normalize ht⟩

end Grammar
end ContextFree
