/-
# Siblings with one map of replacers

Siblings are converted with a view of two maps, the replacers that the siblings
before have made and those known from outside, and each sibling that joins others
puts one more map in front. The plain way is one map that grows: convert a sibling,
put its new replacers in, go on with the next (`toPlainEach`).

Both ways take the same course (`SameCourse`): either they come to the end with the
same names taken and the same events, and the merged parts are those of the single
conversions one after another; or they stop at the same sibling, with the same fault
and in the same state. One step is `exists_appended`: the replacers of a sibling
have keys that its view did not know, so that merging them is appending them, and
the view goes on to agree with the one map.
-/

import ContextFree.Proofs.Conversion.Walk
import ContextFree.Session

namespace ContextFree

/-- `m.Appended rs n`: the merged conversions `n` are `m` with the parts of the
conversions `rs` appended in turn. -/
structure Merged.Appended (m : Merged) (rs : List Conversion) (n : Merged) : Prop where
  outputs : n.outputs = m.outputs ++ rs.map Conversion.output
  newVariables : n.newVariables = m.newVariables ++ rs.flatMap Conversion.newVariables
  newReplacers : n.newReplacers.entries =
    m.newReplacers.entries ++ rs.flatMap fun r => r.newReplacers.entries
  newRules : n.newRules = m.newRules ++ rs.flatMap Conversion.newRules

namespace Merged.Appended

variable {m n k : Merged} {r : Conversion} {rs : List Conversion}

/-- Without conversions nothing is appended. -/
theorem nil (m : Merged) : m.Appended [] m := by
  constructor <;> simp

/-- One conversion and then the others. -/
theorem cons (h : m.Appended [r] n) (hs : n.Appended rs k) : m.Appended (r :: rs) k where
  outputs := by simp [hs.outputs, h.outputs]
  newVariables := by simp [hs.newVariables, h.newVariables]
  newReplacers := by simp [hs.newReplacers, h.newReplacers]
  newRules := by simp [hs.newRules, h.newRules]

end Merged.Appended

namespace Production

/-- Converts siblings one at a time with one map of replacers, into which those of
each sibling are put before the next; returns the conversions and the map. -/
def toPlainEach (flat : Replacers) : List Production → Naming.Run (List Conversion × Replacers)
  | [] => return ([], flat)
  | c :: cs => do
    let r ← c.toPlain flat.get?
    let (rs, last) ← toPlainEach (flat.extend r.newReplacers) cs
    return (r :: rs, last)

/-- The one map `last` is `flat` with the replacers of `rs` put at its end, and is
what a view of `known` behind those of `n` shows. -/
structure Threaded (known : Known) (flat : Replacers) (rs : List Conversion) (n : Merged)
    (last : Replacers) : Prop where
  entries : last.entries = flat.entries ++ rs.flatMap fun r => r.newReplacers.entries
  view : last.get? = known.over n.newReplacers

/-- `SameCourse known m flat cs s`: to convert `cs` from the state `s` on, with the
merged conversions `m` of siblings before and a view of their replacers, takes the
same course as with the one map `flat`. -/
inductive SameCourse (known : Known) (m : Merged) (flat : Replacers) (cs : List Production)
    (s : Naming) : Prop where
  /-- Both come to the end, in the same state and with the same parts. -/
  | finished {rs : List Conversion} {last : Replacers} {n : Merged} {t : Naming}
      (heach : toPlainEach flat cs s = .ok (rs, last) t) (hall : toPlainAll known m cs s = .ok n t)
      (hparts : m.Appended rs n) (hlast : Threaded known flat rs n last) :
      SameCourse known m flat cs s
  /-- Both come as far as the sibling `c`, and there they stop with the same fault in
  the same state. -/
  | stopped {before after : List Production} {c : Production} {rs : List Conversion}
      {last : Replacers} {n : Merged} {u t : Naming} {f : Fault} (hcs : cs = before ++ c :: after)
      (hbefore : toPlainEach flat before s = .ok (rs, last) u)
      (hbefore' : toPlainAll known m before s = .ok n u)
      (hparts : m.Appended rs n) (hlast : Threaded known flat rs n last)
      (hc : c.toPlain last.get? u = .error f t)
      (hc' : c.toPlain (known.over n.newReplacers) u = .error f t)
      (heach : toPlainEach flat cs s = .error f t) (hall : toPlainAll known m cs s = .error f t) :
      SameCourse known m flat cs s

variable {known : Known} {m : Merged} {flat : Replacers} {c : Production} {cs : List Production}
  {r : Conversion} {s t : Naming}

/-- Before the first sibling the one map is what the view shows. -/
theorem Threaded.nil (hview : flat.get? = known.over m.newReplacers) :
    Threaded known flat [] m flat where
  entries := by simp
  view := hview

/-- The replacers of one conversion come before those of the others. -/
theorem Threaded.cons {next last : Replacers} {n : Merged} {rs : List Conversion}
    (hnext : next.entries = flat.entries ++ r.newReplacers.entries)
    (h : Threaded known next rs n last) : Threaded known flat (r :: rs) n last where
  entries := by simp [h.entries, hnext]
  view := h.view

/-- **A sibling that was converted is merged by appending its parts,** and its
replacers are put in with those before. -/
theorem exists_appended (h : c.toPlain (known.over m.newReplacers) s = .ok r t) :
    ∃ n, m.absorbed r = .ok n ∧ m.Appended [r] n ∧
      n.newReplacers = m.newReplacers.extend r.newReplacers := by
  obtain ⟨made, hmade, rfl, habsorbed⟩ := absorbed_of_toPlain h
  have hnodup : made.groups.Nodup := nodup_of_visitAll hmade
  have hentries := Helpers.entries_ofList hnodup
  have hkept : (m.newReplacers.insertAll made.entries).entries =
      m.newReplacers.entries ++ made.entries :=
    Registry.entries_insertAll_of_disjoint (Helpers.nodup_map_fst_entries hnodup)
      (Helpers.not_mem_keys fun d hd =>
        (Option.or_eq_none_iff.1 (new_of_visitAll hmade hd).2).1)
  refine ⟨_, habsorbed, ⟨rfl, ?_, ?_, ?_⟩, ?_⟩
  · simp [Merged.gather, Helpers.conversion]
  · simp [Merged.gather, Helpers.conversion, hentries, hkept]
  · simp [Merged.gather, Helpers.conversion]
  · rw [Registry.extend, Helpers.conversion, hentries]
    rfl

/-- The view goes on to agree with the one map. -/
theorem get?_extend_eq_over {new : Replacers} (hview : flat.get? = known.over m.newReplacers)
    {n : Merged} (hn : n.newReplacers = m.newReplacers.extend new) :
    (flat.extend new).get? = known.over n.newReplacers := by
  funext k
  rw [Registry.get?_extend, hview, hn, Known.over, Known.over, Registry.get?_extend,
    Option.or_assoc]

/-- **Both ways take the same course,** from any siblings on whose replacers they
agree. -/
theorem sameCourse (hview : flat.get? = known.over m.newReplacers) :
    SameCourse known m flat cs s := by
  induction cs generalizing m flat s with
  | nil => exact .finished rfl rfl (.nil m) (.nil hview)
  | cons c cs ih =>
    cases hc : c.toPlain flat.get? s with
    | error f t =>
      have hc' : c.toPlain (known.over m.newReplacers) s = .error f t := hview ▸ hc
      exact .stopped (List.nil_append (c :: cs)).symm rfl rfl (.nil m) (.nil hview) hc hc'
        (Naming.bind_eq_error.2 (.inl hc)) (Naming.bind_eq_error.2 (.inl hc'))
    | ok r u =>
      have hc' : c.toPlain (known.over m.newReplacers) s = .ok r u := hview ▸ hc
      obtain ⟨n, hn, hparts, hreplacers⟩ := exists_appended hc'
      have hcheck : Naming.check (m.absorbed r) u = .ok n u := Naming.check_eq_ok.2 ⟨hn, rfl⟩
      -- what either way does with the siblings after `c`, it does with `c` before them
      have heach {ds : List Production} {rs : List Conversion} {last : Replacers} {t : Naming}
          (h : toPlainEach (flat.extend r.newReplacers) ds u = .ok (rs, last) t) :
          toPlainEach flat (c :: ds) s = .ok (r :: rs, last) t :=
        Naming.bind_eq_ok.2 ⟨r, u, hc, Naming.bind_eq_ok.2 ⟨(rs, last), t, h, rfl⟩⟩
      have hall {ds : List Production} {k : Merged} {t : Naming}
          (h : toPlainAll known n ds u = .ok k t) : toPlainAll known m (c :: ds) s = .ok k t :=
        Naming.bind_eq_ok.2 ⟨r, u, hc', Naming.bind_eq_ok.2 ⟨n, u, hcheck, h⟩⟩
      have hentries : (flat.extend r.newReplacers).entries =
          flat.entries ++ r.newReplacers.entries :=
        Registry.entries_insertAll_of_disjoint r.newReplacers.nodup (not_mem_keys_of_toPlain hc)
      cases ih (get?_extend_eq_over hview hreplacers) (s := u) with
      | finished heach' hall' hrest hlast =>
        exact .finished (heach heach') (hall hall') (hparts.cons hrest) (hlast.cons hentries)
      | stopped hcs hbefore hbefore' hrest hlast hd hd' heach' hall' =>
        refine .stopped (congrArg (c :: ·) hcs) (heach hbefore) (hall hbefore')
          (hparts.cons hrest) (hlast.cons hentries) hd hd' ?_ ?_
        · exact Naming.bind_eq_error.2 (.inr ⟨r, u, hc, Naming.bind_eq_error.2 (.inl heach')⟩)
        · exact Naming.bind_eq_error.2 (.inr ⟨r, u, hc',
            Naming.bind_eq_error.2 (.inr ⟨n, u, hcheck, hall'⟩)⟩)

/-- **A view of maps is as good as one map.** Siblings that are converted with a view
of the known replacers and those of the siblings before take the same course as with
one copy of the known replacers that grows by those of each sibling; and the known
replacers themselves stay as they are. -/
theorem siblings_take_same_course (K : Replacers) (cs : List Production) (s : Naming) :
    SameCourse K.get? {} K cs s ∧
      (Session.perform ⟨s, K⟩ (.convertAll cs)).2.known = K := by
  refine ⟨sameCourse (Known.over_empty K.get?).symm, ?_⟩
  rw [Session.perform]
  split
  · rfl
  · rfl

end Production
end ContextFree
