/-
# The parts of a conversion

A conversion hands back its helpers three times: as variables, as replacers and as
rules. The three are merged separately whenever siblings are, and a group that is
known already adds to none of them. `Coherent` says that they fit together: they
list the same variables in the same order, which are the names drawn from the
allocator; the replacers have a key for each new group that was met, and for
nothing else; and each of them has the rule of its group, with the group as it
stands.

All three are read off the helpers made on the way (`Helpers.conversion`), so it is
enough to say what visiting the groups does (`coherent_of_visitAll`). The groups
are told by the nodes walked over (`mem_met`), and the main statement is
`conversion_coherent`.
-/

import ContextFree.Proofs.Conversion.Walk

namespace ContextFree

/-- `Coherent known walked a b vs replacers rules`: a conversion that walked over
these nodes and took names from the allocator `a`, which left `b`, hands back parts
that describe the same helpers. -/
structure Coherent (known : Known) (walked : List Production) (a b : Allocator)
    (vs : List Variable) (replacers : Replacers) (rules : List (Variable × Production)) :
    Prop where
  /-- The variables are the values of the replacers, in their order, -/
  values : replacers.values = vs
  /-- and those that the rules define, in their order. -/
  heads : rules.map Prod.fst = vs
  nodup : vs.Nodup
  /-- They are the names that were drawn, in this order. -/
  taken : a.Supplies vs b
  /-- A replacer stands for a group that was walked over and had no helper. -/
  keys : ∀ k ∈ replacers.keys, known k = none ∧
    ∃ c, k = .star c ∧ (.star c ∈ walked ∨ .plus c ∈ walked)
  nodup_keys : replacers.keys.Nodup
  /-- The rule of a helper `v` for `c` is `v -> eps | c v`. -/
  rule : ∀ c v, replacers.get? (.star c) = some v →
    (v, .join .extended .alternative
      [.epsilon .extended, .join .extended .sequence [c, .reference .extended v]]) ∈ rules
  /-- Every group that was walked over has a helper, an old or a new one. -/
  covered : ∀ c, .star c ∈ walked ∨ .plus c ∈ walked →
    (known (.star c)).isSome ∨ .star c ∈ replacers.keys

namespace Production

variable {known : Known} {gs : List Production} {s t : Naming} {made : Helpers}

/-- **Visits leave coherent parts behind:** what is read off the helpers made on the
way describes the same helpers throughout. -/
theorem coherent_of_visitAll (h : visitAll known gs s = .ok made t) {walked : List Production}
    (hgs : ∀ c, c ∈ gs ↔ .star c ∈ walked ∨ .plus c ∈ walked) :
    Coherent known walked s.allocator t.allocator made.names (.ofList made.entries)
      made.rules := by
  have hnodup : made.groups.Nodup := nodup_of_visitAll h
  have hsupply : s.allocator.Supplies made.names t.allocator := (visitAll_eq_ok h).2.1
  refine ⟨?_, made.map_fst_rules, hsupply.nodup, hsupply, fun k hk => ?_,
    Registry.nodup_keys _, fun c v hcv => ?_, fun c hc => ?_⟩
  · rw [Registry.values, Helpers.entries_ofList hnodup, Helpers.map_snd_entries]
  · obtain ⟨c, hc, rfl⟩ := (Helpers.mem_keys_ofList hnodup).1 hk
    obtain ⟨hmet, hnew⟩ := new_of_visitAll h hc
    exact ⟨hnew, c, rfl, (hgs c).1 hmet⟩
  · rw [Registry.get?_eq_some_iff, Helpers.entries_ofList hnodup] at hcv
    obtain ⟨e, he, hcv⟩ := List.mem_map.1 hcv
    obtain ⟨hstar, rfl⟩ := Prod.mk.inj hcv
    obtain rfl := Production.star.inj hstar
    exact List.mem_map.2 ⟨e, he, rfl⟩
  · have hlearned := isSome_learn_of_visitAll h ((hgs c).2 hc)
    rw [Known.learn_star, Option.isSome_or, Bool.or_eq_true] at hlearned
    refine hlearned.imp_right fun hmade => (Helpers.mem_keys_ofList hnodup).2 ⟨c, ?_, rfl⟩
    exact Helpers.lookup_isSome_iff.1 hmade

/-- **The parts of a conversion describe the same helpers,** for a tree and for
siblings: their variables, replacers and rules fit together and with the names
drawn, and there is one helper for each group that was walked over and had none. -/
theorem conversion_coherent (known : Known) (s t : Naming) :
    (∀ (p : Production) (r : Conversion), p.toPlain known s = .ok r t →
      Coherent known p.surface s.allocator t.allocator
        r.newVariables r.newReplacers r.newRules) ∧
    (∀ (cs : List Production) (m : Merged), toPlainAll known {} cs s = .ok m t →
      Coherent known (cs.flatMap surface) s.allocator t.allocator
        m.newVariables m.newReplacers m.newRules) := by
  refine ⟨fun p r h => ?_, fun cs m h => ?_⟩
  · obtain ⟨-, made, hmade, rfl⟩ := toPlain_eq_ok h
    exact coherent_of_visitAll hmade fun c => mem_met
  · obtain ⟨made, hmade, rfl⟩ := toPlainAll_eq_ok h
    rw [Known.over_empty] at hmade
    refine coherent_of_visitAll hmade fun c => ?_
    simp only [List.mem_flatMap, mem_met, ← exists_or, ← and_or_left]

/-! ### A shared group, a known one and one around them -/

/-- The group `'a'+ 'b'*`. -/
def runs : Production :=
  .join .extended .sequence [.plus (.terminal .extended ⟨"a"⟩), .star (.terminal .extended ⟨"b"⟩)]

/-- The siblings `'a'+`, `('a'+ 'b'*)+` and `'b'*?`. -/
def nestedSiblings : List Production :=
  [.plus (.terminal .extended ⟨"a"⟩), .plus runs,
    .optional .extended (.star (.terminal .extended ⟨"b"⟩))]

/-- The helper `K` is known for `'b'*`. -/
def nestedKnown : Replacers :=
  .ofList [(.star (.terminal .extended ⟨"b"⟩), ⟨"K"⟩)]

/-- What is returned for these siblings: the outputs `'a' A`, `(('a' A) K) B` and `K?`,
and the new helpers `A` and `B`. -/
def nestedMerged : Merged where
  outputs := [
    .join .plain .sequence [.terminal .plain ⟨"a"⟩, .reference .plain ⟨"A"⟩],
    .join .plain .sequence
      [.join .plain .sequence
        [.join .plain .sequence [.terminal .plain ⟨"a"⟩, .reference .plain ⟨"A"⟩],
          .reference .plain ⟨"K"⟩],
        .reference .plain ⟨"B"⟩],
    .optional .plain (.reference .plain ⟨"K"⟩)]
  newVariables := [⟨"A"⟩, ⟨"B"⟩]
  newReplacers := .ofList [(.star (.terminal .extended ⟨"a"⟩), ⟨"A"⟩), (.star runs, ⟨"B"⟩)]
  newRules := [(⟨"A"⟩, helperRule (.terminal .extended ⟨"a"⟩) ⟨"A"⟩), (⟨"B"⟩, helperRule runs ⟨"B"⟩)]

/-- The state after their conversion: the names `A` and `B` are gone from the pool. -/
def nestedState : Naming where
  allocator := ⟨.ofList [⟨"A"⟩, ⟨"B"⟩], Pool.letters.skip 2⟩

/-- The siblings are converted to these parts. -/
theorem toPlainAll_nestedSiblings :
    toPlainAll nestedKnown.get? {} nestedSiblings {} = .ok nestedMerged nestedState := by
  cbv

/-- Their sequence is converted to the same parts, joined. -/
theorem toPlain_nestedSiblings :
    (join .extended .sequence nestedSiblings).toPlain nestedKnown.get? {} =
      .ok (nestedMerged.join .sequence) nestedState := by
  cbv

/-- With `K` known for `'b'*`, both conversions make the helpers `A` for `'a'*` and `B` for the
group around it, and nothing else. -/
theorem conversion_coherent_nested :
    (join .extended .sequence nestedSiblings).toPlain nestedKnown.get? {} =
      .ok (nestedMerged.join .sequence) nestedState ∧
    toPlainAll nestedKnown.get? {} nestedSiblings {} = .ok nestedMerged nestedState ∧
    Coherent nestedKnown.get? (join .extended .sequence nestedSiblings).surface
      {} nestedState.allocator [⟨"A"⟩, ⟨"B"⟩] nestedMerged.newReplacers nestedMerged.newRules ∧
    Coherent nestedKnown.get? (nestedSiblings.flatMap surface)
      {} nestedState.allocator [⟨"A"⟩, ⟨"B"⟩] nestedMerged.newReplacers nestedMerged.newRules := by
  obtain ⟨htree, hsiblings⟩ := conversion_coherent nestedKnown.get? {} nestedState
  exact ⟨toPlain_nestedSiblings, toPlainAll_nestedSiblings,
    htree _ _ toPlain_nestedSiblings, hsiblings _ _ toPlainAll_nestedSiblings⟩

end Production
end ContextFree
