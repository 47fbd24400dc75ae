/-
# The spelling of `+` makes no difference

Whether a grammar says `X+` or `X X*`, its normal form is the same: the same rules in
the same order with the same helper names, taken from the allocator in the same way.
The main statement is `normalize_spelled`. It needs that no two groups of the grammar
become one when they are spelled out, since each group has a helper of its own.

The two passes look groups up under different keys, so what is compared is not the
passes but what they come to. The order in which groups are met first is determined by
the rules (`scan_unique`), and spelling keeps it (`Translation.groups_spelled`); the
names are determined by how many are drawn (`Supplies.eq_of_length`); and the
normal form is determined by the two (`Translation.eq_of_spelled`).
-/

import ContextFree.Proofs.Normalization.Success
import ContextFree.Proofs.Production.Spelling

namespace ContextFree

/-! ### Scans -/

section

variable {α β : Type}

/-- A beginning that holds everything is all there is. -/
theorem eq_of_prefix_of_subset {xs ys : List α} (h : xs <+: ys) (hnodup : ys.Nodup)
    (hsub : ys ⊆ xs) : xs = ys :=
  h.eq_of_length_le (List.subperm_of_subset hnodup hsub).length_le

variable [DecidableEq α] [DecidableEq β]

/-- Repeats are struck out before or after a map under which no two entries fall together. -/
theorem eraseDups_map {f : α → β} : ∀ {xs : List α}, (∀ x ∈ xs, ∀ y ∈ xs, f x = f y → x = y) →
    (xs.map f).eraseDups = xs.eraseDups.map f
  | [], _ => by simp
  | x :: xs, h => by
    have hfilter : (xs.filter fun y => !f y == f x) = xs.filter fun y => !y == x := by
      refine List.filter_congr fun y hy => ?_
      have hiff : f y = f x ↔ y = x :=
        ⟨h y (List.mem_cons_of_mem x hy) x List.mem_cons_self, fun he => he ▸ rfl⟩
      by_cases hyx : y = x <;> simp [hiff, hyx]
    have hrest : ∀ y ∈ xs.filter fun y => !y == x, ∀ z ∈ xs.filter fun y => !y == x,
        f y = f z → y = z := fun y hy z hz =>
      h y (List.mem_cons_of_mem x (List.mem_of_mem_filter hy)) z
        (List.mem_cons_of_mem x (List.mem_of_mem_filter hz))
    rw [List.map_cons, List.eraseDups_cons, List.eraseDups_cons, List.map_cons, List.filter_map,
      Function.comp_def, hfilter, eraseDups_map hrest]
termination_by xs => xs.length
decreasing_by
  have := List.length_filter_le (fun y => !y == x) xs
  simp only [List.length_cons]
  omega

variable {f : α → List α} {start xs ys : List α}

/-- A scan begins with what the entries at its beginning lead to. -/
theorem prefix_of_scan (h : xs = (start ++ xs.flatMap f).eraseDups) (k : Nat) :
    (start ++ (xs.take k).flatMap f).eraseDups <+: xs := by
  have hsplit : start ++ xs.flatMap f =
      (start ++ (xs.take k).flatMap f) ++ (xs.drop k).flatMap f := by
    rw [List.append_assoc, ← List.flatMap_append, List.take_append_drop]
  rw [hsplit, List.eraseDups_append] at h
  exact ⟨_, h.symm⟩

/-- **A scan is determined by where it starts,** if it holds nothing but what is
reached from there: two lists that hold the entries of `start` and then those that
their own entries lead to, each where it is met first, are the same. -/
theorem scan_unique (hx : xs = (start ++ xs.flatMap f).eraseDups)
    (hy : ys = (start ++ ys.flatMap f).eraseDups)
    (hreached : ∀ zs, start ⊆ zs → (∀ z ∈ zs, f z ⊆ zs) → xs ⊆ zs ∧ ys ⊆ zs) : xs = ys := by
  have hnodup {xs : List α} (h : xs = (start ++ xs.flatMap f).eraseDups) : xs.Nodup :=
    h ▸ nodup_eraseDups _
  have htake : ∀ k, xs.take k = ys.take k := by
    intro k
    induction k with
    | zero => rw [List.take_zero, List.take_zero]
    | succ k ih =>
      obtain ⟨zs, hzs⟩ : ∃ zs, zs = (start ++ (xs.take k).flatMap f).eraseDups := ⟨_, rfl⟩
      have hzx : zs <+: xs := hzs ▸ prefix_of_scan hx k
      have hzy : zs <+: ys := by
        rw [hzs, ih]
        exact prefix_of_scan hy k
      rcases Nat.lt_or_ge k zs.length with hlt | hge
      · -- both begin with `zs`, which goes on beyond the entries compared so far
        have hbegin {ws : List α} (h : zs <+: ws) : ws.take (k + 1) = zs.take (k + 1) := by
          obtain ⟨rest, rfl⟩ := h
          exact List.take_append_of_le_length hlt
        rw [hbegin hzx, hbegin hzy]
      · -- `zs` leads to nothing but itself
        have hsub : zs ⊆ xs.take k := (List.prefix_take_iff.2 ⟨hzx, hge⟩).subset
        have hclosed : ∀ z ∈ zs, f z ⊆ zs := fun z hz y hyz => by
          rw [hzs, List.mem_eraseDups]
          exact List.mem_append_right _ (List.mem_flatMap.2 ⟨z, hsub hz, hyz⟩)
        have hstart : start ⊆ zs := fun y hys => by
          rw [hzs, List.mem_eraseDups]
          exact List.mem_append_left _ hys
        obtain ⟨hxz, hyz⟩ := hreached zs hstart hclosed
        rw [← eq_of_prefix_of_subset hzx (hnodup hx) hxz,
          ← eq_of_prefix_of_subset hzy (hnodup hy) hyz]
  have hall := htake (max xs.length ys.length)
  rwa [List.take_of_length_le (le_max_left ..), List.take_of_length_le (le_max_right ..)] at hall

end

namespace Grammar

open Production

variable {g n n' : Grammar} {gs gs' : List Production} {helper helper' : Production → Variable}

/-- No two groups of the grammar become one when they are spelled out. -/
def SpelledApart (g : Grammar) : Prop :=
  ∀ c ∈ g.groups, ∀ d ∈ g.groups, c.spell = d.spell → c = d

/-- A closed set of groups that holds those met in the rules holds all groups. -/
theorem groups_subset_of_closed {zs : List Production} (hrules : g.rules.values.flatMap met ⊆ zs)
    (hclosed : ∀ z ∈ zs, z.met ⊆ zs) : g.groups ⊆ zs := by
  intro c hc
  obtain ⟨p, hp, hcp⟩ := List.mem_flatMap.1 hc
  refine Production.groups_subset_of_closed hclosed (fun x hx => hrules ?_) hcp
  exact List.mem_flatMap.2 ⟨p, hp, hx⟩

/-- The grammar spelled out has as many different groups. -/
theorem length_groups_spelled (hapart : g.SpelledApart) :
    g.spelled.groups.eraseDups.length = g.groups.eraseDups.length := by
  have hnodup : (g.groups.eraseDups.map spell).Nodup :=
    (nodup_eraseDups _).map_on fun c hc d hd =>
      hapart c (List.mem_eraseDups.1 hc) d (List.mem_eraseDups.1 hd)
  have hperm : g.spelled.groups.eraseDups.Perm (g.groups.eraseDups.map spell) := by
    refine (List.perm_ext_iff_of_nodup (nodup_eraseDups _) hnodup).2 fun d => ?_
    simp only [List.mem_eraseDups, mem_groups_spelled, List.mem_map]
  rw [hperm.length_eq, List.length_map]

/-- `('a'+)* | ('a' 'a'*)*` has three groups, of which two become one. -/
example :
    let a : Production := .terminal .extended ⟨"a"⟩
    let p : Production := .join .extended .alternative
      [.star (.plus a), .star (.join .extended .sequence [a, .star a])]
    p.groups.eraseDups.length = 3 ∧ p.spell.groups.eraseDups.length = 2 := by
  decide

namespace Translation

/-- The groups are a scan of what the rules of the grammar meet. -/
theorem groups_eq (h : g.Translation gs helper n) :
    gs = (g.rules.values.flatMap met ++ gs.flatMap met).eraseDups := by
  have hscan := h.scan
  rw [List.flatMap_append, List.flatMap_map] at hscan
  simpa only [met_helperRule] using hscan

/-- **The groups are met in the same order** when the grammar is spelled out. -/
theorem groups_spelled (hapart : g.SpelledApart) (h : g.Translation gs helper n)
    (h' : g.spelled.Translation gs' helper' n') : gs' = gs.map spell := by
  have hvalues : g.spelled.rules.values.flatMap met = (g.rules.values.flatMap met).map spell := by
    rw [values_spelled, List.flatMap_map, List.map_flatMap]
    exact List.flatMap_congr fun p _ => met_spell p
  have hscan : gs.map spell =
      (g.spelled.rules.values.flatMap met ++ (gs.map spell).flatMap met).eraseDups := by
    have hgroups : ∀ c ∈ g.rules.values.flatMap met ++ gs.flatMap met, c ∈ g.groups := by
      intro c hc
      rw [← h.mem_groups, h.groups_eq, List.mem_eraseDups]
      exact hc
    have hmet : (gs.map spell).flatMap met = (gs.flatMap met).map spell := by
      rw [List.flatMap_map, List.map_flatMap]
      exact List.flatMap_congr fun c _ => met_spell c
    conv_lhs => rw [h.groups_eq]
    rw [hvalues, hmet, ← List.map_append,
      eraseDups_map fun c hc d hd => hapart c (hgroups c hc) d (hgroups d hd)]
  refine scan_unique h'.groups_eq hscan fun zs hrules hclosed => ?_
  have hall := groups_subset_of_closed hrules hclosed
  refine ⟨fun d hd => hall ((h'.mem_groups d).1 hd), fun d hd => hall ?_⟩
  obtain ⟨c, hc, rfl⟩ := List.mem_map.1 hd
  exact mem_groups_spelled.2 ⟨c, (h.mem_groups c).1 hc, rfl⟩

/-- **The normal form is the same** when the helpers have the same names. -/
theorem eq_of_spelled (hapart : g.SpelledApart) (h : g.Translation gs helper n)
    (h' : g.spelled.Translation gs' helper' n') (hnames : gs'.map helper' = gs.map helper) :
    n' = n := by
  have hgs := h.groups_spelled hapart h'
  have hhelper : ∀ c ∈ gs, helper' c.spell = helper c := by
    rw [hgs, List.map_map] at hnames
    exact List.map_inj_left.1 hnames
  have hplain {p : Production} (hp : ∀ c ∈ p.met, c ∈ g.groups) :
      p.spell.replace helper' = p.replace helper := by
    rw [replace_spell]
    exact replace_congr fun c hc => hhelper c ((h.mem_groups c).2 (hp c hc))
  have hrules : n'.rules.entries = n.rules.entries := by
    rw [h'.rules, h.rules, hgs, spelled, Registry.entries_mapValues, List.map_map, List.map_map]
    congr 1
    · refine List.map_congr_left fun e he => ?_
      have hp := hplain fun c => mem_groups_of_met (List.mem_map_of_mem he)
      rw [Function.comp_apply, hp]
    · refine List.map_congr_left fun c hc => ?_
      have hp := hplain fun d => mem_groups_of_met_group ((h.mem_groups c).1 hc)
      rw [Function.comp_apply, hhelper c hc, hp]
  have hstart : n'.start = n.start := h'.start.trans h.start.symm
  rcases n with ⟨start, rules⟩
  rcases n' with ⟨start', rules'⟩
  obtain rfl : start' = start := hstart
  obtain rfl : rules' = rules := Registry.ext hrules
  rfl

end Translation

/-- **The spelling of `+` makes no difference.** When no two groups of a grammar
become one by it, the grammar and the grammar spelled out have the same normal form,
or the names run out for both with the same count; and they leave equal allocators
when they found equal ones. -/
theorem normalize_spelled (hg : g.Within .extended) (hapart : g.SpelledApart) {s s' : Naming}
    (hs : s'.allocator = s.allocator) :
    (∃ n t t', g.normalize s = .ok n t ∧ g.spelled.normalize s' = .ok n t' ∧
      t'.allocator = t.allocator) ∨
    ∃ k t t', g.normalize s = .error (.poolExhausted k) t ∧
      g.spelled.normalize s' = .error (.poolExhausted k) t' ∧ t'.allocator = t.allocator := by
  have hlength := length_groups_spelled hapart
  cases h : g.normalize s with
  | ok n t =>
    cases h' : g.spelled.normalize s' with
    | ok n' t' =>
      obtain ⟨gs, helper, htrans, hsupply⟩ := exists_translation h
      obtain ⟨gs', helper', htrans', hsupply'⟩ := exists_translation h'
      rw [hs, allVariables_spelled] at hsupply'
      have hgs := htrans.groups_spelled hapart htrans'
      obtain ⟨hnames, hallocator⟩ := hsupply'.eq_of_length hsupply (by rw [hgs]; simp)
      obtain rfl := htrans.eq_of_spelled hapart htrans' hnames
      exact .inl ⟨n', t, t', rfl, rfl, hallocator⟩
    | error f t' =>
      have hoffers := (offers_of_normalize h).2
      have hshort := (normalize_eq_error hg.spelled h').1
      rw [hs, allVariables_spelled, hlength] at hshort
      exact absurd hoffers hshort
  | error f t =>
    have hshort := (normalize_eq_error hg h).1
    cases h' : g.spelled.normalize s' with
    | ok n' t' =>
      have hoffers := (offers_of_normalize h').2
      rw [hs, allVariables_spelled, hlength] at hoffers
      exact absurd hoffers hshort
    | error f' t' =>
      obtain ⟨rfl, vs, b, hsupply, -, hnone⟩ := exhausted_of_normalize hg h
      obtain ⟨rfl, vs', b', hsupply', -, hnone'⟩ := exhausted_of_normalize hg.spelled h'
      rw [hs, allVariables_spelled] at hsupply'
      have hallocator := hsupply'.eq_of_exhausted hnone' hsupply hnone
      exact .inr ⟨_, t, t', rfl, by rw [hallocator], hallocator⟩

/-- `S -> ('a'+ T)*` and `S -> ('a' 'a'* T)*`, traced or not, have one normal form. -/
theorem normalize_spelled_nested : nested.Within .extended ∧ nested.SpelledApart ∧
    ∃ t t', nested.normalize {} = .ok nestedNormal t ∧
      nested.spelled.normalize { trace := some [] } = .ok nestedNormal t' ∧
      t'.allocator = t.allocator := by
  have hwithin : nested.Within .extended := by
    unfold Within
    decide
  have hapart : nested.SpelledApart := by
    unfold SpelledApart
    decide
  obtain ⟨t, ht⟩ := normalize_nested
  refine ⟨hwithin, hapart, ?_⟩
  have hs : ({ trace := some [] } : Naming).allocator = ({} : Naming).allocator := rfl
  rcases normalize_spelled hwithin hapart hs with
    ⟨n, u, u', hu, hu', hallocator⟩ | ⟨k, u, u', hu, -, -⟩
  · rw [ht] at hu
    cases hu
    exact ⟨t, u', ht, hu', hallocator⟩
  · rw [ht] at hu
    cases hu

end Grammar
end ContextFree
