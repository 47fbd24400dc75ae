/-
# Helpers made on the way

A conversion makes helper variables for groups one after another. Listed in that
order, with their groups, they determine the replacers and the rules that the
conversion hands back (`entries`, `rules`), and what is known about groups from
then on (`Known.learn`). Putting new replacers in with others is the same as
learning the helpers (`Known.over_insertAll`), and a group that is known keeps
its helper (`Known.helper_learn`).
-/

import Mathlib.Data.List.Nodup
import ContextFree.Conversion.Plain

namespace ContextFree

/-- Groups, each with its helper variable, in the order in which these were made. -/
abbrev Helpers := List (Production × Variable)

namespace Helpers

/-- The groups that have a helper. -/
def groups (made : Helpers) : List Production :=
  made.map Prod.fst

/-- The helper variables. -/
def names (made : Helpers) : List Variable :=
  made.map Prod.snd

/-- The repetitions of the groups, each with its helper variable. -/
def entries (made : Helpers) : List (Production × Variable) :=
  made.map fun e => (.star e.1, e.2)

/-- The rules of the helpers, still extended. -/
def rules (made : Helpers) : List (Variable × Production) :=
  made.map fun e => (e.2, Production.helperRule e.1 e.2)

/-- The groups of the first helpers and of the rest. -/
@[simp] theorem groups_append (made rest : Helpers) :
    groups (made ++ rest) = made.groups ++ rest.groups :=
  List.map_append

/-- The variables of the first helpers and of the rest. -/
@[simp] theorem names_append (made rest : Helpers) :
    names (made ++ rest) = made.names ++ rest.names :=
  List.map_append

/-- The entries of the first helpers and of the rest. -/
@[simp] theorem entries_append (made rest : Helpers) :
    entries (made ++ rest) = made.entries ++ rest.entries :=
  List.map_append

/-- The rules of the first helpers and of the rest. -/
@[simp] theorem rules_append (made rest : Helpers) :
    rules (made ++ rest) = made.rules ++ rest.rules :=
  List.map_append

/-- There are as many variables as groups. -/
theorem length_names (made : Helpers) : made.names.length = made.groups.length := by
  rw [names, groups, List.length_map, List.length_map]

/-- The keys of the replacers are the repetitions of the groups. -/
theorem map_fst_entries (made : Helpers) :
    made.entries.map Prod.fst = made.groups.map Production.star := by
  simp [entries, groups, Function.comp_def]

/-- Their values are the helper variables. -/
theorem map_snd_entries (made : Helpers) : made.entries.map Prod.snd = made.names := by
  simp [entries, names, Function.comp_def]

/-- The helper rules are rules of the helper variables. -/
theorem map_fst_rules (made : Helpers) : made.rules.map Prod.fst = made.names := by
  simp [rules, names, Function.comp_def]

/-- Different groups have different keys. -/
theorem nodup_map_fst_entries {made : Helpers} (h : made.groups.Nodup) :
    (made.entries.map Prod.fst).Nodup := by
  rw [map_fst_entries]
  exact h.map fun _ _ => Production.star.inj

/-- If the groups are different, the map of the entries has exactly these. -/
theorem entries_ofList {made : Helpers} (h : made.groups.Nodup) :
    (Registry.ofList made.entries).entries = made.entries := by
  rw [Registry.ofList, Registry.entries_insertAll_of_disjoint (nodup_map_fst_entries h)
    fun _ _ => List.not_mem_nil]
  rfl

/-- The keys of the replacers made from helpers. -/
theorem mem_keys_ofList {made : Helpers} (h : made.groups.Nodup) {k : Production} :
    k ∈ (Registry.ofList made.entries).keys ↔ ∃ c ∈ made.groups, .star c = k := by
  rw [Registry.keys, entries_ofList h, map_fst_entries, List.mem_map]

/-- Groups without a replacer have other keys. -/
theorem not_mem_keys {made : Helpers} {kept : Replacers}
    (hnew : ∀ c ∈ made.groups, kept.get? (.star c) = none) :
    ∀ k ∈ made.entries.map Prod.fst, k ∉ kept.keys := by
  intro k hk
  rw [map_fst_entries] at hk
  obtain ⟨c, hc, rfl⟩ := List.mem_map.1 hk
  exact Registry.get?_eq_none_iff.1 (hnew c hc)

/-- The helper of a group stands at the key of its repetition. -/
theorem lookup_entries (made : Helpers) (c : Production) :
    made.entries.lookup (.star c) = made.lookup c := by
  induction made with
  | nil => rfl
  | cons e made ih =>
    rcases e with ⟨d, v⟩
    by_cases h : c = d
    · simp [entries, h]
    · have hs : ¬ Production.star c = .star d := fun he => h (Production.star.inj he)
      have ih' : (entries made).lookup (.star c) = made.lookup c := ih
      simp only [entries, List.map_cons, Registry.lookup_cons_of_ne h, Registry.lookup_cons_of_ne hs]
      exact ih'

/-- Only repetitions `X*` have helpers. -/
theorem lookup_entries_of_ne_star {made : Helpers} {p : Production} (hp : ∀ c, p ≠ .star c) :
    made.entries.lookup p = none := by
  simp only [entries, List.lookup_eq_none_iff, List.mem_map]
  rintro _ ⟨e, _, rfl⟩
  simpa using hp e.1

/-- Exactly the groups have a helper. -/
theorem lookup_isSome_iff {made : Helpers} {c : Production} :
    (made.lookup c).isSome ↔ c ∈ made.groups := by
  simp [groups]

end Helpers

namespace Known

/-- A map of known helpers with those of more groups, for the groups that had none. -/
def learn (known : Known) (made : Helpers) : Known
  | .star c => (known (.star c)).or (made.lookup c)
  | p => known p

/-- The helper that a map knows for a group. -/
def helper (known : Known) (c : Production) : Variable :=
  (known (.star c)).getD ⟨""⟩

/-- A repetition that is known keeps its helper, and others get the new one. -/
@[simp] theorem learn_star (known : Known) (made : Helpers) (c : Production) :
    known.learn made (.star c) = (known (.star c)).or (made.lookup c) := rfl

/-- Nothing is learned about anything but repetitions `X*`. -/
theorem learn_of_ne_star {known : Known} {made : Helpers} {p : Production}
    (hp : ∀ c, p ≠ .star c) : known.learn made p = known p := by
  unfold learn
  split
  · rename_i c
    exact absurd rfl (hp c)
  · rfl

/-- Without new helpers nothing is learned. -/
@[simp] theorem learn_nil (known : Known) : known.learn [] = known := by
  funext p
  cases p <;> simp [learn]

/-- Helpers are learned at once or one after the other. -/
theorem learn_append (known : Known) (made rest : Helpers) :
    known.learn (made ++ rest) = (known.learn made).learn rest := by
  funext p
  cases p <;> simp [learn, List.lookup_append, Option.or_assoc]

/-- A group that is known keeps its helper. -/
theorem helper_learn {known : Known} {made : Helpers} {c : Production}
    (h : (known (.star c)).isSome) : (known.learn made).helper c = known.helper c := by
  obtain ⟨v, hv⟩ := Option.isSome_iff_exists.1 h
  simp [helper, hv]

/-- An empty map of replacers adds nothing to those known. -/
@[simp] theorem over_empty (known : Known) : known.over ∅ = known := by
  funext p
  simp [Known.over]

/-- New replacers are learned when they are put in with the others. -/
theorem over_insertAll {known : Known} {kept : Replacers} {made : Helpers}
    (hnodup : made.groups.Nodup) (hnew : ∀ c ∈ made.groups, known.over kept (.star c) = none) :
    known.over (kept.insertAll made.entries) = (known.over kept).learn made := by
  funext p
  rw [Known.over, Registry.get?_insertAll_of_nodup (Helpers.nodup_map_fst_entries hnodup)]
  by_cases hp : ∃ c, p = .star c
  · obtain ⟨c, rfl⟩ := hp
    rw [Helpers.lookup_entries, learn_star]
    cases hl : made.lookup c with
    | none => simp [Known.over]
    | some v =>
      have hc : c ∈ made.groups := Helpers.lookup_isSome_iff.1 (by rw [hl]; rfl)
      simp [hnew c hc]
  · have hstar : ∀ c, p ≠ .star c := fun c hc => hp ⟨c, hc⟩
    rw [Helpers.lookup_entries_of_ne_star hstar, learn_of_ne_star hstar]
    rfl

end Known

namespace Helpers

/-- What is known when nothing but these helpers is. -/
def known (made : Helpers) : Known :=
  Known.learn (fun _ => none) made

/-- The helper that was made for a group. -/
def helper (made : Helpers) : Production → Variable :=
  Known.helper made.known

/-- The helpers made are known for the repetitions of their groups. -/
theorem known_star (made : Helpers) (c : Production) : made.known (.star c) = made.lookup c := rfl

/-- Nothing but these repetitions is known. -/
theorem isSome_known_iff {made : Helpers} {c : Production} :
    (made.known (.star c)).isSome ↔ c ∈ made.groups :=
  lookup_isSome_iff

/-- Helpers that are made later are learned after those before. -/
theorem known_append (made rest : Helpers) :
    known (made ++ rest) = made.known.learn rest :=
  Known.learn_append _ made rest

/-- A group keeps its helper when more are made. -/
theorem helper_append {made : Helpers} {c : Production} (hc : c ∈ made.groups) (rest : Helpers) :
    helper (made ++ rest) c = made.helper c := by
  rw [helper, known_append]
  exact Known.helper_learn (isSome_known_iff.2 hc)

/-- Replacers with these entries know these helpers. -/
theorem get?_of_entries {r : Replacers} {made : Helpers} (h : r.entries = made.entries) :
    r.get? = made.known := by
  funext p
  rw [Registry.get?, h]
  by_cases hp : ∃ c, p = .star c
  · obtain ⟨c, rfl⟩ := hp
    exact lookup_entries made c
  · rw [known, Known.learn_of_ne_star fun c hc => hp ⟨c, hc⟩]
    exact lookup_entries_of_ne_star fun c hc => hp ⟨c, hc⟩

end Helpers
end ContextFree
