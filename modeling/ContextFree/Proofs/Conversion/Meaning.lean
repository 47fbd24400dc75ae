/-
# Conversions keep the meaning

A production and its plain form can be compared only when the helpers have their
meaning: `E.Repeats c v` says that under `E` the variable `v` stands for the words
made of words of `c`. If every helper does so that was known before or is made on
the way, the plain form matches what the production matches, and the rule of each
new helper matches what the helper stands for (`matches_toPlain_iff`).

It does not matter where a helper comes from: the caller, an earlier sibling or the
node itself. All that counts is that every group met has one afterwards, and that
it is one of those (`repeats_helper`). So siblings need no argument of their own
(`matches_toPlainAll_iff`).
-/

import ContextFree.Proofs.Conversion.Walk
import ContextFree.Proofs.Production.Matching

namespace ContextFree

/-- The variable `v` stands for the words made of words of `c`. -/
def Assignment.Repeats (E : Assignment) (c : Production) (v : Variable) : Prop :=
  ∀ w, E v w ↔ ∃ us : List Word, us.flatten = w ∧ ∀ u ∈ us, c.Matches E u

namespace Production

variable {E : Assignment} {known : Known} {made : Helpers} {gs : List Production} {s t : Naming}

/-- A variable stands for repetitions of `c` exactly when it matches what `c*` does. -/
theorem repeats_iff_star {c : Production} {v : Variable} :
    E.Repeats c v ↔ ∀ w, E v w ↔ (star c).Matches E w := by
  simp only [Assignment.Repeats, matches_star_iff]

/-- A repetition matches nothing, or its child and then itself. -/
theorem matches_star_iff_cons {c : Production} {w : Word} :
    (star c).Matches E w ↔
      w = [] ∨ ∃ u u', w = u ++ u' ∧ c.Matches E u ∧ (star c).Matches E u' := by
  constructor
  · intro h
    cases h with
    | starNil => exact .inl rfl
    | starCons h hs => exact .inr ⟨_, _, rfl, h, hs⟩
  · rintro (rfl | ⟨u, u', rfl, h, hs⟩)
    · exact .starNil
    · exact .starCons h hs

/-- A helper rule matches nothing, or its group and then what the helper stands for. -/
theorem matches_helperRule_iff {c : Production} {v : Variable} {w : Word} :
    (helperRule c v).Matches E w ↔ w = [] ∨ ∃ u u', w = u ++ u' ∧ c.Matches E u ∧ E v u' := by
  simp only [helperRule, matches_alternative_iff, List.mem_cons, List.not_mem_nil, or_false,
    exists_eq_or_imp, exists_eq_left, matches_epsilon_iff, matches_sequence_pair_iff,
    matches_reference_iff]

/-- **A helper that repeats its group solves its own rule.** -/
theorem matches_helperRule_of_repeats {c : Production} {v : Variable} (h : E.Repeats c v)
    (w : Word) : E v w ↔ (helperRule c v).Matches E w := by
  have hstar := repeats_iff_star.1 h
  rw [hstar, matches_star_iff_cons, matches_helperRule_iff]
  simp only [hstar]

/-- Helpers made for different groups are found among the replacers. -/
theorem get?_replacers (hnodup : made.groups.Nodup) {c : Production} {v : Variable}
    (hcv : (c, v) ∈ made) : (Registry.ofList made.entries).get? (.star c) = some v := by
  rw [Registry.get?_eq_some_iff, Helpers.entries_ofList hnodup]
  exact List.mem_map.2 ⟨(c, v), hcv, rfl⟩

/-- **Every group that has a helper is repeated by it,** whether the helper was
known before or made on the way. -/
theorem repeats_helper (hknown : ∀ c v, known (.star c) = some v → E.Repeats c v)
    (hmade : ∀ e ∈ made, E.Repeats e.1 e.2) {c : Production}
    (hc : (known.learn made (.star c)).isSome) : E.Repeats c ((known.learn made).helper c) := by
  obtain ⟨v, hv⟩ := Option.isSome_iff_exists.1 hc
  rw [Known.helper, hv, Option.getD_some]
  rw [Known.learn_star, Option.or_eq_some_iff] at hv
  rcases hv with hv | ⟨-, hv⟩
  · exact hknown c v hv
  · obtain ⟨before, after, rfl, -⟩ := List.lookup_eq_some_iff.1 hv
    exact hmade (c, v) (List.mem_append_right _ List.mem_cons_self)

/-- **What the visits of a conversion leave behind:** productions that met only the
groups visited match what their plain forms match, and the rules of the new helpers
match what these stand for. -/
theorem matches_of_visitAll (h : visitAll known gs s = .ok made t)
    (hknown : ∀ c v, known (.star c) = some v → E.Repeats c v)
    (hnew : ∀ c v, (Registry.ofList made.entries).get? (.star c) = some v → E.Repeats c v) :
    (∀ p : Production, p.met ⊆ gs → ∀ w,
      (p.replace (known.learn made).helper).Matches E w ↔ p.Matches E w) ∧
    ∀ e ∈ made.rules, ∀ w, E e.1 w ↔ e.2.Matches E w := by
  have hmade : ∀ e ∈ made, E.Repeats e.1 e.2 := fun e he =>
    hnew e.1 e.2 (get?_replacers (nodup_of_visitAll h) he)
  refine ⟨fun p hp w => matches_replace_iff (fun c hc => ?_) w, fun e he => ?_⟩
  · have hvisited := isSome_learn_of_visitAll h (hp hc)
    exact repeats_iff_star.1 (repeats_helper hknown hmade hvisited)
  · obtain ⟨⟨c, v⟩, hcv, rfl⟩ := List.mem_map.1 he
    exact matches_helperRule_of_repeats (hmade (c, v) hcv)

/-- **Siblings keep their meaning,** each with its own output. -/
theorem matches_toPlainAll_iff {cs : List Production} {m : Merged}
    (h : toPlainAll known {} cs s = .ok m t)
    (hknown : ∀ c v, known (.star c) = some v → E.Repeats c v)
    (hnew : ∀ c v, m.newReplacers.get? (.star c) = some v → E.Repeats c v) :
    List.Forall₂ (fun c q => ∀ w, q.Matches E w ↔ c.Matches E w) cs m.outputs ∧
      ∀ e ∈ m.newRules, ∀ w, E e.1 w ↔ e.2.Matches E w := by
  obtain ⟨made, hmade, rfl⟩ := toPlainAll_eq_ok h
  rw [Known.over_empty] at hmade
  obtain ⟨houtput, hrules⟩ := matches_of_visitAll hmade hknown hnew
  refine ⟨?_, hrules⟩
  rw [Merged.gather, List.nil_append, Known.over_empty, List.forall₂_map_right_iff,
    List.forall₂_same]
  exact fun c hc => houtput c fun d hd => List.mem_flatMap.2 ⟨c, hc, hd⟩

/-- **A conversion keeps the meaning.** Let every helper stand for the words made of
words of its group, those that were known and those that are new. Then the plain
form matches what the production matches, and every new helper stands for what its
rule matches. -/
theorem matches_toPlain_iff {p : Production} {r : Conversion} (h : p.toPlain known s = .ok r t)
    (hknown : ∀ c v, known (.star c) = some v → E.Repeats c v)
    (hnew : ∀ c v, r.newReplacers.get? (.star c) = some v → E.Repeats c v) :
    (∀ w, r.output.Matches E w ↔ p.Matches E w) ∧
      ∀ e ∈ r.newRules, ∀ w, E e.1 w ↔ e.2.Matches E w := by
  obtain ⟨-, made, hmade, rfl⟩ := toPlain_eq_ok h
  obtain ⟨houtput, hrules⟩ := matches_of_visitAll hmade hknown hnew
  exact ⟨houtput p (List.Subset.refl _), hrules⟩

/-! ### A known group inside of a new one -/

/-- The group `'a'* 'b'`. -/
def tailed : Production :=
  .join .extended .sequence [.star (.terminal .extended ⟨"a"⟩), .terminal .extended ⟨"b"⟩]

/-- The helper `K` is known for `'a'*`. -/
def tailedKnown : Replacers :=
  .ofList [(.star (.terminal .extended ⟨"a"⟩), ⟨"K"⟩)]

/-- What is returned for `('a'* 'b')+`: the output `(K 'b') A`, and the new helper `A`. -/
def tailedConversion : Conversion where
  output := .join .plain .sequence
    [.join .plain .sequence [.reference .plain ⟨"K"⟩, .terminal .plain ⟨"b"⟩],
      .reference .plain ⟨"A"⟩]
  newVariables := [⟨"A"⟩]
  newReplacers := .ofList [(.star tailed, ⟨"A"⟩)]
  newRules := [(⟨"A"⟩, helperRule tailed ⟨"A"⟩)]

/-- `K` stands for what `'a'*` matches, every other variable for what `('a'* 'b')*` does. -/
def tailedMeaning : Assignment := fun v =>
  if v = ⟨"K"⟩ then (star (.terminal .extended ⟨"a"⟩)).Matches fun _ _ => False
  else (star tailed).Matches fun _ _ => False

/-- There are no variables in these groups. -/
theorem tailedMeaning_repeats :
    tailedMeaning.Repeats (.terminal .extended ⟨"a"⟩) ⟨"K"⟩ ∧
      tailedMeaning.Repeats tailed ⟨"A"⟩ := by
  have hsame {c : Production} (hc : c.references = []) (w : Word) :
      (star c).Matches (fun _ _ => False) w ↔ (star c).Matches tailedMeaning w := by
    refine matches_congr fun v hv => ?_
    rw [references, hc] at hv
    exact absurd hv List.not_mem_nil
  exact ⟨repeats_iff_star.2 (hsame rfl), repeats_iff_star.2 (hsame rfl)⟩

/-- With the helper `K` for `'a'*`, the conversion of `('a'* 'b')+` returns these parts. -/
theorem toPlain_tailed : ∃ t, (plus tailed).toPlain tailedKnown.get? {} = .ok tailedConversion t := by
  refine ⟨⟨⟨.ofList [⟨"A"⟩], (Pool.letters.draw ∅).2⟩, none⟩, ?_⟩
  cbv

/-- Its output `(K 'b') A` matches what `('a'* 'b')+` does, and the rule for `A` what `A` does. -/
theorem matches_toPlain_iff_tailed :
    ∃ t, (plus tailed).toPlain tailedKnown.get? {} = .ok tailedConversion t ∧
      (∀ c v, tailedKnown.get? (.star c) = some v → tailedMeaning.Repeats c v) ∧
      (∀ c v, tailedConversion.newReplacers.get? (.star c) = some v → tailedMeaning.Repeats c v) ∧
      (∀ w, tailedConversion.output.Matches tailedMeaning w ↔
        (plus tailed).Matches tailedMeaning w) ∧
      ∀ w, tailedMeaning ⟨"A"⟩ w ↔ (helperRule tailed ⟨"A"⟩).Matches tailedMeaning w := by
  have hknown (c : Production) (v : Variable) (h : tailedKnown.get? (.star c) = some v) :
      tailedMeaning.Repeats c v := by
    obtain ⟨hc, rfl⟩ := Prod.mk.inj (List.mem_singleton.1 (Registry.get?_eq_some_iff.1 h))
    obtain rfl := Production.star.inj hc
    exact tailedMeaning_repeats.1
  have hnew (c : Production) (v : Variable)
      (h : tailedConversion.newReplacers.get? (.star c) = some v) : tailedMeaning.Repeats c v := by
    obtain ⟨hc, rfl⟩ := Prod.mk.inj (List.mem_singleton.1 (Registry.get?_eq_some_iff.1 h))
    obtain rfl := Production.star.inj hc
    exact tailedMeaning_repeats.2
  obtain ⟨t, ht⟩ := toPlain_tailed
  obtain ⟨houtput, hrules⟩ := matches_toPlain_iff ht hknown hnew
  exact ⟨t, ht, hknown, hnew, houtput, hrules _ List.mem_cons_self⟩

end Production
end ContextFree
