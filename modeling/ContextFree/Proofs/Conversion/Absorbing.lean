/-
# Absorbing conversions never overwrites

Conversions are merged one after another, and a conflict does not end the run: the next
conversion meets what was kept. Outputs, variables and rules are appended with or without
a conflict. Of the replacers of a conversion those are kept that stand before its first
key that is there already (`entries_absorb`), and the fault is about that key
(`fault_absorb_iff`). So the replacers kept by a run are described by its conversions
alone (`kept`), and as they only grow at the end, no entry is ever changed.

The main statement is `absorbing_never_overwrites`: what every conversion of a run leaves
behind, wherever it stands in the run and whatever conflicts there were before it.
-/

import ContextFree.Proofs.Conversion.Walk
import ContextFree.Proofs.Production.Walks

namespace ContextFree
namespace Conversion

/-- The replacers of a conversion before its first key that is there already. -/
def unclaimed (r : Conversion) (there : List (Production × Variable)) :
    List (Production × Variable) :=
  r.newReplacers.entries.takeWhile (·.1 ∉ there.map Prod.fst)

/-- `r.Clashes there key existing new`: the first key of the conversion that is there
already is `key`, which stands for `existing` and would stand for `new`. -/
def Clashes (r : Conversion) (there : List (Production × Variable)) (key : Production)
    (existing new : Variable) : Prop :=
  ∃ front rest, r.newReplacers.entries = front ++ (key, new) :: rest ∧
    (∀ e ∈ front, e.1 ∉ there.map Prod.fst) ∧ (key, existing) ∈ there

end Conversion

namespace Merged

/-! ### One conversion -/

section one

variable {m : Merged} {r : Conversion} {key : Production} {existing new : Variable} {f : Fault}

/-- **A conflict names the group and both variables,** or, if the group cannot be shown,
its first foreign node. -/
theorem conflict_eq_iff : conflict key existing new = f ↔
    (∃ group, key.text = .ok group ∧ f = .replacerConflict group existing new) ∨
      ∃ q, key.firstForeign? key.dialect = some q ∧ f = .foreignNode q := by
  rw [← Production.render_eq_error_iff, ← Production.text, conflict]
  cases key.text <;> simp [eq_comm]

/-- **At the first key that is there already** the merge ends with a conflict, and keeps the
replacers before it. -/
theorem absorb_of_clashes (h : r.Clashes m.newReplacers.entries key existing new) :
    (m.absorb r).1.newReplacers.entries =
        m.newReplacers.entries ++ r.unclaimed m.newReplacers.entries ∧
      (m.absorb r).2 = some (conflict key existing new) := by
  obtain ⟨front, rest, hr, hfront, hkey⟩ := h
  have hnodup : (front.map Prod.fst).Nodup ∧ key ∉ front.map Prod.fst := by
    have := r.newReplacers.nodup
    rw [hr, List.map_append, List.map_cons, List.nodup_append] at this
    exact ⟨this.1, fun hk => this.2.2 key hk key List.mem_cons_self rfl⟩
  have hnew : ∀ k ∈ front.map Prod.fst, k ∉ m.newReplacers.keys := List.forall_mem_map.2 hfront
  -- the replacers in front are put in, but the key is still the one that was there
  have hfound : (m.newReplacers.insertAll front).get? key = some existing := by
    rw [Registry.get?_insertAll_of_nodup hnodup.1, Registry.get?_eq_some_iff.2 hkey,
      Registry.lookup_of_not_mem hnodup.2, Option.none_or]
  have hmerge : mergeReplacers m.newReplacers r.newReplacers.entries =
      (m.newReplacers.insertAll front, some (conflict key existing new)) := by
    rw [hr, mergeReplacers_append hnodup.1 hnew, mergeReplacers, hfound]
  have hunclaimed : r.unclaimed m.newReplacers.entries = front := by
    have hstop : key ∈ m.newReplacers.entries.map Prod.fst := List.mem_map.2 ⟨_, hkey, rfl⟩
    rw [Conversion.unclaimed, hr, List.takeWhile_append_of_pos (by simpa using hfront),
      List.takeWhile_cons_of_neg (by simpa using hstop), List.append_nil]
  rw [absorb, hmerge, hunclaimed]
  exact ⟨Registry.entries_insertAll_of_disjoint hnodup.1 hnew, rfl⟩

/-- **If no key is there already,** all replacers are kept. -/
theorem absorb_of_free (h : ∀ key ∈ r.newReplacers.keys, key ∉ m.newReplacers.keys) :
    (m.absorb r).1.newReplacers.entries =
        m.newReplacers.entries ++ r.unclaimed m.newReplacers.entries ∧
      (m.absorb r).2 = none := by
  have hunclaimed : r.unclaimed m.newReplacers.entries = r.newReplacers.entries :=
    List.takeWhile_eq_self_iff.2 fun e he => decide_eq_true (h e.1 (List.mem_map_of_mem he))
  rw [absorb, mergeReplacers_of_disjoint r.newReplacers.nodup h, hunclaimed]
  exact ⟨Registry.entries_insertAll_of_disjoint r.newReplacers.nodup h, rfl⟩

/-- Some key is there already exactly if there is a first one. -/
theorem exists_clashes_iff (r : Conversion) (there : Replacers) :
    (∃ key existing new, r.Clashes there.entries key existing new) ↔
      ∃ key ∈ r.newReplacers.keys, key ∈ there.keys := by
  constructor
  · rintro ⟨key, existing, new, front, rest, hr, -, hkey⟩
    exact ⟨key, by simp [Registry.keys, hr], List.mem_map_of_mem hkey⟩
  · rintro ⟨key, hr, hthere⟩
    have hsome : (r.newReplacers.entries.find? (·.1 ∈ there.keys)).isSome := by
      obtain ⟨e, he, rfl⟩ := List.mem_map.1 hr
      exact List.find?_isSome.2 ⟨e, he, by simpa using hthere⟩
    obtain ⟨⟨k, new⟩, hfirst⟩ := Option.isSome_iff_exists.1 hsome
    obtain ⟨hk, front, rest, hr, hfront⟩ := List.find?_eq_some_iff_append.1 hfirst
    obtain ⟨⟨_, existing⟩, hexisting, rfl⟩ := List.mem_map.1 (of_decide_eq_true hk)
    refine ⟨_, existing, new, front, rest, hr, fun e he => ?_, hexisting⟩
    have := hfront e he
    rwa [Bool.not_eq_true', decide_eq_false_iff_not] at this

/-- Either there is a first key that is there already, or none is. -/
theorem clashes_or_free (r : Conversion) (there : Replacers) :
    (∃ key existing new, r.Clashes there.entries key existing new) ∨
      ∀ key ∈ r.newReplacers.keys, key ∉ there.keys := by
  by_cases h : ∃ key ∈ r.newReplacers.keys, key ∈ there.keys
  · exact .inl ((exists_clashes_iff r there).2 h)
  · exact .inr fun key hkey hthere => h ⟨key, hkey, hthere⟩

/-- Of the replacers of a conversion those before the first conflict are kept, at the end. -/
theorem entries_absorb (m : Merged) (r : Conversion) : (m.absorb r).1.newReplacers.entries =
    m.newReplacers.entries ++ r.unclaimed m.newReplacers.entries := by
  rcases clashes_or_free r m.newReplacers with ⟨key, existing, new, hclash⟩ | hfree
  · exact (absorb_of_clashes hclash).1
  · exact (absorb_of_free hfree).1

/-- **Merging a conversion faults** for its first key that is there already. -/
theorem fault_absorb_iff : (m.absorb r).2 = some f ↔ ∃ key existing new,
    r.Clashes m.newReplacers.entries key existing new ∧ conflict key existing new = f := by
  constructor
  · intro h
    rcases clashes_or_free r m.newReplacers with ⟨key, existing, new, hclash⟩ | hfree
    · rw [(absorb_of_clashes hclash).2] at h
      exact ⟨key, existing, new, hclash, Option.some.inj h⟩
    · rw [(absorb_of_free hfree).2] at h
      cases h
  · rintro ⟨key, existing, new, hclash, rfl⟩
    exact (absorb_of_clashes hclash).2

/-- It faults exactly if some key is there already, whatever it stands for. -/
theorem exists_fault_absorb_iff : (∃ f, (m.absorb r).2 = some f) ↔
    ∃ key ∈ r.newReplacers.keys, key ∈ m.newReplacers.keys := by
  rw [← exists_clashes_iff r m.newReplacers]
  simp only [fault_absorb_iff]
  constructor
  · rintro ⟨f, key, existing, new, hclash, -⟩
    exact ⟨key, existing, new, hclash⟩
  · rintro ⟨key, existing, new, hclash⟩
    exact ⟨_, key, existing, new, hclash, rfl⟩

end one

/-! ### Runs -/

/-- The replacers kept by a run: from each conversion in turn those before its first key
that was kept already. -/
def kept (rs : List Conversion) : List (Production × Variable) :=
  rs.foldl (fun there r => there ++ r.unclaimed there) []

/-- One more conversion adds its replacers before the first key that was kept already. -/
theorem kept_concat (rs : List Conversion) (r : Conversion) :
    kept (rs ++ [r]) = kept rs ++ r.unclaimed (kept rs) :=
  List.foldl_concat ..

/-- The merged conversions after more conversions, with or without conflicts. -/
def after (m : Merged) (rs : List Conversion) : Merged :=
  ((m.absorbEach rs).map Prod.fst).getLastD m

/-- Without conversions nothing is merged. -/
@[simp] theorem after_nil (m : Merged) : m.after [] = m := rfl

/-- The first conversion is merged before the others. -/
@[simp] theorem after_cons (m : Merged) (r : Conversion) (rs : List Conversion) :
    m.after (r :: rs) = (m.absorb r).1.after rs := by
  rw [after, absorbEach, List.map_cons, List.getLastD_cons]
  rfl

/-- There is one state for each conversion. -/
theorem length_absorbEach (m : Merged) (rs : List Conversion) :
    (m.absorbEach rs).length = rs.length := by
  induction rs generalizing m with
  | nil => rfl
  | cons r rs ih => rw [absorbEach, List.length_cons, ih, List.length_cons]

/-- A run goes on from what the conversions before have left. -/
theorem absorbEach_append (m : Merged) (before later : List Conversion) :
    m.absorbEach (before ++ later) = m.absorbEach before ++ (m.after before).absorbEach later := by
  induction before generalizing m with
  | nil => rfl
  | cons r before ih => rw [List.cons_append, absorbEach, ih, absorbEach, after_cons]; rfl

/-- The last conversion is merged into what the others have left. -/
theorem after_concat (m : Merged) (before : List Conversion) (r : Conversion) :
    m.after (before ++ [r]) = ((m.after before).absorb r).1 := by
  rw [after, absorbEach_append, List.map_append]
  exact List.getLastD_concat ..

/-- **What a run leaves:** outputs, variables and rules of all conversions, and the
replacers that were kept. -/
theorem after_empty (rs : List Conversion) :
    (after {} rs).outputs = rs.map Conversion.output ∧
      (after {} rs).newVariables = rs.flatMap Conversion.newVariables ∧
      (after {} rs).newRules = rs.flatMap Conversion.newRules ∧
      (after {} rs).newReplacers.entries = kept rs := by
  induction rs using List.reverseRecOn with
  | nil => exact ⟨rfl, rfl, rfl, rfl⟩
  | append_singleton rs r ih =>
    obtain ⟨houtputs, hvariables, hrules, hreplacers⟩ := ih
    rw [after_concat, entries_absorb, kept_concat, hreplacers]
    simp [absorb, houtputs, hvariables, hrules]

/-- Replacers that are there stay at their place. -/
theorem prefix_of_mem_absorbEach {m : Merged} {rs : List Conversion} {x : Merged × Option Fault}
    (h : x ∈ m.absorbEach rs) : m.newReplacers.entries <+: x.1.newReplacers.entries := by
  induction rs generalizing m with
  | nil => cases h
  | cons r rs ih =>
    have hstep : m.newReplacers.entries <+: (m.absorb r).1.newReplacers.entries := by
      rw [entries_absorb]
      exact List.prefix_append ..
    rcases List.mem_cons.1 h with rfl | h
    · exact hstep
    · exact hstep.trans (ih h)

/-- **Absorbing conversions never overwrites and never loses anything.** In a run from the
start, each conversion leaves the outputs, variables and rules of all conversions up to
it, and the replacers kept by them, which stay at their place from then on. There is a
conflict exactly if one of its keys was kept before, and it is about the first such key,
with both variables; or the fault is what keeps this key from being shown. -/
theorem absorbing_never_overwrites (before : List Conversion) (r : Conversion)
    (later : List Conversion) :
    ∃ (done : List (Merged × Option Fault)) (m : Merged) (fault : Option Fault)
      (rest : List (Merged × Option Fault)),
      absorbEach {} (before ++ r :: later) = done ++ (m, fault) :: rest ∧
      done.length = before.length ∧ rest.length = later.length ∧
      m.outputs = (before ++ [r]).map Conversion.output ∧
      m.newVariables = (before ++ [r]).flatMap Conversion.newVariables ∧
      m.newRules = (before ++ [r]).flatMap Conversion.newRules ∧
      m.newReplacers.entries = kept (before ++ [r]) ∧
      (∀ next ∈ rest, m.newReplacers.entries <+: next.1.newReplacers.entries) ∧
      ((∃ f, fault = some f) ↔
        ∃ key ∈ r.newReplacers.keys, key ∈ (kept before).map Prod.fst) ∧
      ∀ f, fault = some f ↔ ∃ key existing new, r.Clashes (kept before) key existing new ∧
        ((∃ group, key.text = .ok group ∧ f = .replacerConflict group existing new ∧
            f.message = some ("'" ++ group ++ "' was replaced by both " ++
              existing.text ++ " and " ++ new.text)) ∨
          ∃ q, key.firstForeign? key.dialect = some q ∧ f = .foreignNode q) := by
  obtain ⟨houtputs, hvariables, hrules, hkept⟩ := after_empty (before ++ [r])
  have hthere : (after {} before).newReplacers.entries = kept before := (after_empty before).2.2.2
  rw [after_concat] at houtputs hvariables hrules hkept
  refine ⟨absorbEach {} before, ((after {} before).absorb r).1, ((after {} before).absorb r).2,
    ((after {} before).absorb r).1.absorbEach later, absorbEach_append .., length_absorbEach ..,
    length_absorbEach .., houtputs, hvariables, hrules, hkept,
    fun next => prefix_of_mem_absorbEach, ?_, fun f => ?_⟩
  · rw [exists_fault_absorb_iff, ← hthere]
    rfl
  · rw [fault_absorb_iff, hthere]
    simp only [conflict_eq_iff]
    refine exists_congr fun key => exists_congr fun existing => exists_congr fun new =>
      and_congr_right fun _ => or_congr_left (exists_congr fun group => and_congr_right fun _ => ?_)
    constructor
    · rintro rfl
      exact ⟨rfl, rfl⟩
    · exact And.left

/-- The repetition of a letter. -/
def repeated (letter : String) : Production :=
  .star (.terminal .extended ⟨letter⟩)

/-- A conversion with a helper for the repetition of each of these letters. -/
def helping (letters : List (String × Variable)) : Conversion where
  output := .epsilon .plain
  newReplacers := .ofList (letters.map fun e => (repeated e.1, e.2))

/-- Four conversions, of which the third finds a helper for `'b'*`: its `'c'*` comes in before
that, and the helper for `'b'*` stays as it was, in the fourth conversion as well. -/
theorem absorbing_never_overwrites_repeated : ∃ done m next,
    absorbEach {} [helping [("a", ⟨"A"⟩)], helping [("b", ⟨"B"⟩), ("a", ⟨"A"⟩), ("c", ⟨"C"⟩)],
        helping [("c", ⟨"D"⟩), ("b", ⟨"D"⟩)], helping [("a", ⟨"E"⟩)]] =
      done ++ [(m, some (.replacerConflict "'b'*" ⟨"B"⟩ ⟨"D"⟩)), next] ∧ done.length = 2 ∧
    m.newReplacers.entries =
      [(repeated "a", ⟨"A"⟩), (repeated "b", ⟨"B"⟩), (repeated "c", ⟨"D"⟩)] ∧
    m.newReplacers.entries <+: next.1.newReplacers.entries := by
  obtain ⟨done, m, fault, rest, hrun, hdone, hrest, -, -, -, hkept, hnext, -, hfault⟩ :=
    absorbing_never_overwrites
      [helping [("a", ⟨"A"⟩)], helping [("b", ⟨"B"⟩), ("a", ⟨"A"⟩), ("c", ⟨"C"⟩)]]
      (helping [("c", ⟨"D"⟩), ("b", ⟨"D"⟩)]) [helping [("a", ⟨"E"⟩)]]
  have hclash : (helping [("c", ⟨"D"⟩), ("b", ⟨"D"⟩)]).Clashes
      (kept [helping [("a", ⟨"A"⟩)], helping [("b", ⟨"B"⟩), ("a", ⟨"A"⟩), ("c", ⟨"C"⟩)]])
      (repeated "b") ⟨"B"⟩ ⟨"D"⟩ :=
    ⟨[(repeated "c", ⟨"D"⟩)], [], rfl, by decide, by decide⟩
  obtain rfl := (hfault _).2 ⟨_, _, _, hclash, .inl ⟨"'b'*", rfl, rfl, rfl⟩⟩
  obtain ⟨next, rfl⟩ := List.length_eq_one_iff.1 hrest
  exact ⟨done, m, next, hrun, hdone, hkept, hnext next List.mem_cons_self⟩

end Merged
end ContextFree
