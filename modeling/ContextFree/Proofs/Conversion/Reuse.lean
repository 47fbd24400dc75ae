/-
# Converting again

A conversion binds every group that it meets to one helper, whether it found the
helper among those known, or with an earlier sibling, or made it. So when the same
production is converted again and these bindings are known, nothing is left to be
made: the second conversion finds every group (`toPlain_of_known`), takes no name,
and gives the same output. The main statement is `conversion_stable`.

What else is known by then does not matter, because a conversion looks up no groups
but those that it meets. Nor does the allocator, which may have no name left.
-/

import ContextFree.Proofs.Conversion.Parts

namespace ContextFree
namespace Production

variable {known : Known} {p : Production} {cs : List Production} {r : Conversion} {s t u : Naming}

/-- Known groups are visited without any effect, unless there is a trace. -/
theorem visitAll_of_known (hs : s.trace = none) (hcs : ∀ c ∈ cs, (known (.star c)).isSome) :
    visitAll known cs s = .ok [] s := by
  induction cs with
  | nil => rfl
  | cons c cs ih =>
    obtain ⟨v, hv⟩ := Option.isSome_iff_exists.1 (hcs c List.mem_cons_self)
    have hfirst : visit known c s = .ok [] s := by
      simp only [visit, hv]
      exact Naming.bind_eq_ok.2 ⟨(), s, Naming.report_of_untraced hs, rfl⟩
    have hrest : visitAll (known.learn []) cs s = .ok [] s := by
      rw [Known.learn_nil]
      exact ih fun d hd => hcs d (List.mem_cons_of_mem c hd)
    exact Naming.bind_eq_ok.2 ⟨[], s, hfirst, Naming.bind_eq_ok.2 ⟨[], s, hrest, rfl⟩⟩

/-- **When all groups met are known,** an open production is converted without any
effect, by putting in their helpers. -/
theorem toPlain_of_known (hp : Open p) (hs : s.trace = none)
    (hmet : ∀ c ∈ p.met, (known (.star c)).isSome) :
    p.toPlain known s = .ok { output := p.replace known.helper } s := by
  rw [toPlain_eq, stops_of_open hp, walk_map_group]
  refine Naming.bind_eq_ok.2 ⟨[], s, visitAll_of_known hs hmet, ?_⟩
  rw [Helpers.conversion, Known.learn_nil]
  rfl

/-- **What was found or made is found again.** A conversion that knows the helpers of
a former one, the old and the new, gives the same output and nothing else. -/
theorem toPlain_again (h : p.toPlain known s = .ok r t) {known' : Known}
    (hold : ∀ c v, known (.star c) = some v → known' (.star c) = some v)
    (hnew : ∀ c v, r.newReplacers.get? (.star c) = some v → known' (.star c) = some v)
    (hu : u.trace = none) : p.toPlain known' u = .ok { output := r.output } u := by
  obtain ⟨hp, made, hmade, rfl⟩ := toPlain_eq_ok h
  have hnodup : made.groups.Nodup := nodup_of_visitAll hmade
  -- the helper that a group met had after the first conversion
  have hbound : ∀ c ∈ p.met, known' (.star c) = some ((known.learn made).helper c) := by
    intro c hc
    obtain ⟨v, hv⟩ := Option.isSome_iff_exists.1 (isSome_learn_of_visitAll hmade hc)
    rw [Known.helper, hv, Option.getD_some]
    rw [Known.learn_star, Option.or_eq_some_iff] at hv
    rcases hv with hv | ⟨-, hv⟩
    · exact hold c v hv
    · refine hnew c v ?_
      rw [Helpers.conversion, Registry.get?, Helpers.entries_ofList hnodup,
        Helpers.lookup_entries, hv]
  rw [toPlain_of_known hp hu fun c hc => by rw [hbound c hc]; rfl]
  have hsame : p.replace known'.helper = p.replace (known.learn made).helper :=
    replace_congr fun c hc => by rw [Known.helper, hbound c hc, Option.getD_some]
  rw [hsame]
  rfl

/-- **Converting again changes nothing.** When a production was converted, and its new
replacers are put in with those known, and any others for keys in neither map, it is
converted once more with every allocator, one without names included: with the same
output, without new helpers, and with the allocator as it was. -/
theorem conversion_stable {K : Replacers} (h : p.toPlain K.get? s = .ok r t) {more : Replacers}
    (hmore : ∀ k ∈ more.keys, k ∉ K.keys ∧ k ∉ r.newReplacers.keys) (hu : u.trace = none) :
    p.toPlain ((K.extend r.newReplacers).extend more).get? u =
      .ok { output := r.output, newVariables := [], newReplacers := ∅, newRules := [] } u := by
  have hnone {k : Production} (hk : k ∈ K.keys ∨ k ∈ r.newReplacers.keys) : more.get? k = none :=
    Registry.get?_eq_none_iff.2 fun hmem => hk.elim (hmore k hmem).1 (hmore k hmem).2
  refine toPlain_again h (fun c v hv => ?_) (fun c v hv => ?_) hu
  · have hkey := Registry.mem_keys_of_get? hv
    have hold : r.newReplacers.get? (.star c) = none :=
      Registry.get?_eq_none_iff.2 fun hmem => not_mem_keys_of_toPlain h _ hmem hkey
    rw [Registry.get?_extend, hnone (.inl hkey), Registry.get?_extend, hold, hv]
    rfl
  · rw [Registry.get?_extend, hnone (.inr (Registry.mem_keys_of_get? hv)), Registry.get?_extend, hv]
    rfl

/-- After the siblings `'a'+`, `('a'+ 'b'*)+` and `'b'*?` were converted, they are
converted again by an allocator without names, also when `'c'*` has a helper by then. -/
theorem conversion_stable_nested :
    (join .extended .sequence nestedSiblings).toPlain nestedKnown.get? {} =
      .ok (nestedMerged.join .sequence) nestedState ∧
    (∀ k ∈ [star (.terminal .extended ⟨"c"⟩)],
      k ∉ nestedKnown.keys ∧ k ∉ nestedMerged.newReplacers.keys) ∧
    (join .extended .sequence nestedSiblings).toPlain
      ((nestedKnown.extend nestedMerged.newReplacers).extend
        (.ofList [(.star (.terminal .extended ⟨"c"⟩), ⟨"C"⟩)])).get? ⟨⟨∅, .listed []⟩, none⟩ =
      .ok ⟨.join .plain .sequence nestedMerged.outputs, [], ∅, []⟩ ⟨⟨∅, .listed []⟩, none⟩ := by
  have hmore : ∀ k ∈ (Registry.ofList [(star (.terminal .extended ⟨"c"⟩), Variable.mk "C")]).keys,
      k ∉ nestedKnown.keys ∧ k ∉ nestedMerged.newReplacers.keys := by decide +kernel
  exact ⟨toPlain_nestedSiblings, hmore, conversion_stable toPlain_nestedSiblings hmore rfl⟩

end Production
end ContextFree
