/-
# A conversion is a walk over the stops of a production

What a conversion does to names and trace is decided by the places where it
stops and by their order alone. The main statement is `toPlain_eq`: converting a
production walks over its stops, and what it returns is read off the helpers
made on the way (`Helpers.conversion`). Siblings are converted by walking over
their stops one after another (`toPlainAll_eq`); merging them never meets a
conflict, because each makes helpers for new groups only (`absorbed_conversion`).
A production that is not open is never converted (`toPlain_eq_ok`).

`X+` needs no case of its own, because it is converted as the sequence `X X*`
(`toPlain_plus`).
-/

import ContextFree.Proofs.Conversion.Stops

namespace ContextFree

/-- What the conversion of `p` returns when it made these helpers. -/
def Helpers.conversion (made : Helpers) (known : Known) (p : Production) : Conversion :=
  { output := p.replace (known.learn made).helper
    newVariables := made.names
    newReplacers := .ofList made.entries
    newRules := made.rules }

namespace Merged

/-- The merged conversions `m` with those of more siblings, which made these helpers. -/
def gather (m : Merged) (made : Helpers) (known : Known) (cs : List Production) : Merged :=
  { outputs := m.outputs ++ cs.map (Production.replace ((known.over m.newReplacers).learn made).helper)
    newVariables := m.newVariables ++ made.names
    newReplacers := m.newReplacers.insertAll made.entries
    newRules := m.newRules ++ made.rules }

/-- Replacers with new and different keys are all put in before the others. -/
theorem mergeReplacers_append {kept : Replacers} {es : List (Production × Variable)}
    (hes : (es.map Prod.fst).Nodup) (h : ∀ k ∈ es.map Prod.fst, k ∉ kept.keys)
    (rest : List (Production × Variable)) :
    mergeReplacers kept (es ++ rest) = mergeReplacers (kept.insertAll es) rest := by
  induction es generalizing kept with
  | nil => rfl
  | cons e es ih =>
    obtain ⟨he, hes⟩ := List.nodup_cons.1 hes
    simp only [List.cons_append, mergeReplacers,
      Registry.get?_eq_none_iff.2 (h e.1 List.mem_cons_self), Registry.insertAll_cons]
    refine ih hes fun k hk => ?_
    rw [← Registry.get?_eq_none_iff, Registry.get?_insert,
      if_neg fun (hke : k = e.1) => he (hke ▸ hk), Registry.get?_eq_none_iff]
    exact h k (List.mem_cons_of_mem _ hk)

/-- If there are no others, there is no conflict. -/
theorem mergeReplacers_of_disjoint {kept : Replacers} {es : List (Production × Variable)}
    (hes : (es.map Prod.fst).Nodup) (h : ∀ k ∈ es.map Prod.fst, k ∉ kept.keys) :
    mergeReplacers kept es = (kept.insertAll es, none) := by
  rw [← List.append_nil es, mergeReplacers_append hes h, List.append_nil]
  rfl

/-- Conversions that made helpers for new groups only are merged without conflict. -/
theorem absorbed_conversion {m : Merged} {known : Known} {made : Helpers} {c : Production}
    (hnodup : made.groups.Nodup)
    (hnew : ∀ d ∈ made.groups, known.over m.newReplacers (.star d) = none) :
    m.absorbed (made.conversion (known.over m.newReplacers) c) = .ok (m.gather made known [c]) := by
  have hkeys := Helpers.nodup_map_fst_entries hnodup
  have hfree : ∀ k ∈ made.entries.map Prod.fst, k ∉ m.newReplacers.keys :=
    Helpers.not_mem_keys fun d hd => (Option.or_eq_none_iff.1 (hnew d hd)).1
  have hmerge := mergeReplacers_of_disjoint hkeys hfree
  simp only [absorbed, absorb, Helpers.conversion, Helpers.entries_ofList hnodup, hmerge]
  rfl

/-- One sibling and then the others are all siblings. -/
theorem gather_gather {m : Merged} {known : Known} {made rest : Helpers} {c : Production}
    {cs : List Production}
    (hknown : known.over (m.newReplacers.insertAll made.entries) =
      (known.over m.newReplacers).learn made)
    (houtput : c.replace ((known.over m.newReplacers).learn made).helper =
      c.replace ((known.over m.newReplacers).learn (made ++ rest)).helper) :
    (m.gather made known [c]).gather rest known cs = m.gather (made ++ rest) known (c :: cs) := by
  simp only [gather, hknown, ← Known.learn_append, List.map_cons, List.map_nil, houtput,
    List.append_assoc, List.singleton_append, Helpers.names_append, Helpers.entries_append,
    Helpers.rules_append, Registry.insertAll_append]

end Merged

namespace Production

/-! ### Single groups -/

/-- The conversion of `c*` visits `c`. -/
theorem replaceStar_eq (known : Known) (c : Production) : replaceStar known c = do
    let made ← visit known c
    return made.conversion known (.star c) := by
  cases hk : known (.star c) with
  | some v =>
    simp only [replaceStar, visit, hk, bind_assoc, pure_bind]
    simp [Helpers.conversion, replace, Known.helper, hk]
    rfl
  | none =>
    simp only [replaceStar, visit, hk, bind_assoc, pure_bind]
    simp [Helpers.conversion, replace, Known.helper, hk]
    rfl

/-- `X+` is converted as the sequence of `X` and `X*`. -/
theorem toPlain_plus (known : Known) (c : Production) :
    toPlain known (.plus c) = toPlain known (.join .extended .sequence [c, .star c]) := by
  simp only [toPlain, toPlainAll, dialect, if_true, bind_assoc, pure_bind, Known.over_empty]

/-! ### Siblings and trees -/

/-- **Siblings are converted** by walking over their stops, one after another. -/
theorem toPlainAll_eq_of_forall {known : Known} {cs : List Production}
    (hcs : ∀ c ∈ cs, ∀ known, toPlain known c = do
      let made ← walk known c.stops
      return made.conversion known c) (m : Merged) :
    toPlainAll known m cs = do
      let made ← walk (known.over m.newReplacers) (cs.flatMap stops)
      return m.gather made known cs := by
  induction cs generalizing m with
  | nil => simp [toPlainAll, walk, Merged.gather, Helpers.names, Helpers.entries, Helpers.rules]
  | cons c cs ih =>
    have hrest := fun x hx => hcs x (List.mem_cons_of_mem c hx)
    rw [toPlainAll, hcs c List.mem_cons_self, List.flatMap_cons, walk_append]
    simp only [bind_assoc, pure_bind]
    refine Naming.bind_congr_ok fun made s t hwalk => ?_
    obtain ⟨-, hmade⟩ := visitAll_of_walk hwalk
    have hnodup := nodup_of_visitAll hmade
    have hnew : ∀ d ∈ made.groups, known.over m.newReplacers (.star d) = none :=
      fun d hd => (new_of_visitAll hmade hd).2
    have hknown : known.over (m.newReplacers.insertAll made.entries) =
        (known.over m.newReplacers).learn made := Known.over_insertAll hnodup hnew
    -- what is made for later siblings does not change the plain form of this one
    have houtput (rest : Helpers) :
        c.replace ((known.over m.newReplacers).learn made).helper =
          c.replace ((known.over m.newReplacers).learn (made ++ rest)).helper := by
      refine replace_congr fun d hd => ?_
      rw [Known.learn_append]
      exact (Known.helper_learn (isSome_learn_of_visitAll hmade hd)).symm
    rw [Merged.absorbed_conversion hnodup hnew, Naming.check_ok, pure_bind, ih hrest]
    show (walk (known.over (m.newReplacers.insertAll made.entries)) _ >>= _) = _
    rw [hknown]
    refine bind_congr fun rest => ?_
    rw [Merged.gather_gather hknown (houtput rest)]

/-- A plain node is a fault before anything is done. -/
theorem toPlain_eq_of_dialect_ne {p : Production} (h : p.dialect ≠ .extended) (known : Known) :
    toPlain known p = do
      let made ← walk known p.stops
      return made.conversion known p := by
  unfold toPlain
  rw [if_neg h, stops_of_dialect_ne h, walk, Naming.throw_bind]

/-- **A conversion is a walk** over the stops of the production, and what it
returns is read off the helpers made on the way. -/
theorem toPlain_eq (p : Production) (known : Known) : toPlain known p = do
    let made ← walk known p.stops
    return made.conversion known p := by
  have hjoin {op : Connective} {cs : List Production} (known : Known)
      (hcs : ∀ c ∈ cs, ∀ known, toPlain known c = do
        let made ← walk known c.stops
        return made.conversion known c) :
      toPlain known (.join .extended op cs) = do
        let made ← walk known (join .extended op cs).stops
        return made.conversion known (.join .extended op cs) := by
    rw [toPlain, dialect, if_pos rfl, toPlainAll_eq_of_forall hcs, Known.over_empty, stops_join]
    simp only [bind_assoc, pure_bind]
    refine bind_congr fun made => ?_
    simp [Merged.gather, Merged.join, Helpers.conversion, Registry.ofList]
  have hstar (c : Production) (known : Known) : toPlain known (.star c) = do
      let made ← walk known (star c).stops
      return made.conversion known (.star c) := by
    rw [toPlain, dialect, if_pos rfl, replaceStar_eq, stops_star]
    simp [walk]
  induction p using induction generalizing known with
  | epsilon d | terminal d _ | reference d _ =>
    cases d with
    | plain => exact toPlain_eq_of_dialect_ne (by simp [dialect]) known
    | extended =>
      simp [toPlain, dialect, stops, walk, Helpers.conversion, replace]
      rfl
  | optional d c ih =>
    cases d with
    | plain => exact toPlain_eq_of_dialect_ne (by simp [dialect]) known
    | extended =>
      rw [toPlain, dialect, if_pos rfl, ih, stops_optional]
      simp only [bind_assoc, pure_bind, Helpers.conversion, replace]
  | join d op cs ih =>
    cases d with
    | plain => exact toPlain_eq_of_dialect_ne (by simp [dialect]) known
    | extended => exact hjoin known ih
  | star c => exact hstar c known
  | plus c ih =>
    have hstops : (plus c).stops = (join .extended .sequence [c, .star c]).stops := by simp
    rw [toPlain_plus, hjoin known, hstops]
    · refine bind_congr fun made => ?_
      simp [Helpers.conversion, replace, replaceAll_eq]
    · simp only [List.mem_cons, List.not_mem_nil, or_false, forall_eq_or_imp, forall_eq]
      exact ⟨ih, hstar c⟩

/-- So is the conversion of several siblings. -/
theorem toPlainAll_eq (cs : List Production) (known : Known) (m : Merged) :
    toPlainAll known m cs = do
      let made ← walk (known.over m.newReplacers) (cs.flatMap stops)
      return m.gather made known cs :=
  toPlainAll_eq_of_forall (fun c _ => toPlain_eq c) m

/-- **Only open productions are converted**, by visiting the groups that they
meet; what is returned is read off the helpers made on the way. -/
theorem toPlain_eq_ok {known : Known} {p : Production} {s t : Naming} {r : Conversion}
    (h : toPlain known p s = .ok r t) :
    Open p ∧ ∃ made, visitAll known p.met s = .ok made t ∧ r = made.conversion known p := by
  rw [toPlain_eq] at h
  obtain ⟨made, u, hwalk, h⟩ := Naming.bind_eq_ok.1 h
  obtain ⟨rfl, rfl⟩ := Naming.pure_eq_ok.1 h
  obtain ⟨hp, hmade⟩ := visitAll_of_walk hwalk
  exact ⟨hp, made, hmade, rfl⟩

/-- Siblings are converted by visiting the groups that they meet. -/
theorem toPlainAll_eq_ok {known : Known} {cs : List Production} {m n : Merged} {s t : Naming}
    (h : toPlainAll known m cs s = .ok n t) :
    ∃ made, visitAll (known.over m.newReplacers) (cs.flatMap met) s = .ok made t ∧
      n = m.gather made known cs := by
  rw [toPlainAll_eq, ← stops_join .sequence] at h
  obtain ⟨made, u, hwalk, h⟩ := Naming.bind_eq_ok.1 h
  obtain ⟨rfl, rfl⟩ := Naming.pure_eq_ok.1 h
  obtain ⟨-, hmade⟩ := visitAll_of_walk hwalk
  rw [met_join] at hmade
  exact ⟨made, hmade, rfl⟩

/-- What a conversion has drawn are its new variables. -/
theorem supplies_of_toPlain {known : Known} {p : Production} {s t : Naming} {r : Conversion}
    (h : toPlain known p s = .ok r t) : s.allocator.Supplies r.newVariables t.allocator := by
  obtain ⟨-, made, hmade, rfl⟩ := toPlain_eq_ok h
  exact (visitAll_eq_ok hmade).2.1

/-- What siblings have drawn are their new variables. -/
theorem supplies_of_toPlainAll {known : Known} {cs : List Production} {s t : Naming} {n : Merged}
    (h : toPlainAll known {} cs s = .ok n t) :
    s.allocator.Supplies n.newVariables t.allocator := by
  obtain ⟨made, hmade, rfl⟩ := toPlainAll_eq_ok h
  exact (visitAll_eq_ok hmade).2.1

/-- The new replacers have keys that were not known. -/
theorem not_mem_keys_of_toPlain {K : Replacers} {p : Production} {s t : Naming} {r : Conversion}
    (h : toPlain K.get? p s = .ok r t) : ∀ k ∈ r.newReplacers.keys, k ∉ K.keys := by
  obtain ⟨-, made, hmade, rfl⟩ := toPlain_eq_ok h
  intro k hk
  obtain ⟨c, hc, rfl⟩ := (Helpers.mem_keys_ofList (nodup_of_visitAll hmade)).1 hk
  exact Registry.get?_eq_none_iff.1 (new_of_visitAll hmade hc).2

/-- **A sibling is merged without conflict** when it was converted with the replacers
of those before it. -/
theorem absorbed_of_toPlain {known : Known} {m : Merged} {c : Production} {s t : Naming}
    {r : Conversion} (h : toPlain (known.over m.newReplacers) c s = .ok r t) :
    ∃ made, visitAll (known.over m.newReplacers) c.met s = .ok made t ∧
      r = made.conversion (known.over m.newReplacers) c ∧
      m.absorbed r = .ok (m.gather made known [c]) := by
  obtain ⟨-, made, hmade, rfl⟩ := toPlain_eq_ok h
  exact ⟨made, hmade, rfl, Merged.absorbed_conversion (nodup_of_visitAll hmade)
    fun d hd => (new_of_visitAll hmade hd).2⟩

/-! ### Faults -/

/-- **A conversion that faults** has drawn the names of the helpers made before. -/
theorem fails_of_toPlain {known : Known} {p : Production} {s t : Naming} {f : Fault}
    (h : toPlain known p s = .error f t) : ∃ vs, s.allocator.Fails vs f t.allocator := by
  rw [toPlain_eq] at h
  rcases Naming.bind_eq_error.1 h with h | ⟨_, _, _, h⟩
  · exact fails_of_walk h
  · cases h

/-- So has a conversion of several siblings. -/
theorem fails_of_toPlainAll {known : Known} {cs : List Production} {m : Merged} {s t : Naming}
    {f : Fault} (h : toPlainAll known m cs s = .error f t) :
    ∃ vs, s.allocator.Fails vs f t.allocator := by
  rw [toPlainAll_eq] at h
  rcases Naming.bind_eq_error.1 h with h | ⟨_, _, _, h⟩
  · exact fails_of_walk h
  · cases h

/-- A tree that is extended throughout fails to be converted only when names run
out, before the last new group has got one. -/
theorem toPlain_eq_error {known : Known} {p : Production} {s t : Naming} {f : Fault}
    (hp : Within .extended p) (h : toPlain known p s = .error f t) :
    f = .poolExhausted t.allocator.inUse.size ∧ ∃ vs b, s.allocator.Supplies vs b ∧
      vs.length < (newGroups known p.met).length ∧ b.fresh = (none, t.allocator) := by
  obtain ⟨hopen, hmet⟩ := within_extended_iff.1 hp
  rw [toPlain_eq, stops_of_open hopen, walk_map_group] at h
  rcases Naming.bind_eq_error.1 h with h | ⟨_, _, _, h⟩
  · exact visitAll_eq_error hmet h
  · cases h

end Production
end ContextFree
