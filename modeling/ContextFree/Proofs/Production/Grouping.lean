/-
# How joining calls are nested does not matter

An extended joining call splices its arguments one level deep, and what a call has
made is spliced completely by the call around it. So an argument contributes to a
join what its leaves contribute (`contributes`), whether it is a leaf itself or a call
of the same kind, and nested calls build what a single call on their leaves builds.
The leaves may be joins of this kind that were made in another way: these are spliced
once, as in the single call, and their own children stay as they are.

Splicing leaves the meaning alone. `matches_splice_alternative_iff` and
`matches_splice_sequence_iff` say so for one argument, and the main statement is
`grouping_immaterial`.
-/

import ContextFree.Production.Calls
import ContextFree.Proofs.Production.Matching

namespace ContextFree
namespace Production

/-! ### What the calls mean -/

variable {E : Assignment} {d : Dialect} {w : Word}

/-- A sequence of one production matches what the production does. -/
theorem matches_sequence_singleton_iff {c : Production} :
    Matches E (.join d .sequence [c]) w ↔ Matches E c w := by
  rw [matches_sequence_cons_iff]
  constructor
  · rintro ⟨u, u', rfl, h, hnil⟩
    rwa [matches_sequence_nil_iff.1 hnil, List.append_nil]
  · exact fun h => ⟨w, [], (List.append_nil w).symm, h, .sequenceNil⟩

/-- Two sequences one after the other. -/
theorem matches_sequence_append_iff {cs cs' : List Production} :
    Matches E (.join d .sequence (cs ++ cs')) w ↔ ∃ u u', w = u ++ u' ∧
      Matches E (.join d .sequence cs) u ∧ Matches E (.join d .sequence cs') u' := by
  induction cs generalizing w with
  | nil => simp [matches_sequence_nil_iff]
  | cons c cs ih =>
    simp only [List.cons_append, matches_sequence_cons_iff, ih]
    constructor
    · rintro ⟨u, _, rfl, h, u', u'', rfl, hs, hs'⟩
      exact ⟨u ++ u', u'', (List.append_assoc u u' u'').symm, ⟨u, u', rfl, h, hs⟩, hs'⟩
    · rintro ⟨_, u'', rfl, ⟨u, u', rfl, h, hs⟩, hs'⟩
      exact ⟨u, u' ++ u'', List.append_assoc u u' u'', h, u', u'', rfl, hs, hs'⟩

/-- What an argument contributes to an alternative matches what the argument does. -/
theorem matches_splice_alternative_iff {p : Production} :
    (∃ c ∈ splice .alternative p, Matches E c w) ↔ Matches E p w := by
  unfold splice
  split
  · split
    · rename_i h
      rw [h.2, matches_alternative_iff]
    · simp
  · simp

/-- What an argument contributes to a sequence matches, in sequence, what the argument
does. -/
theorem matches_splice_sequence_iff {p : Production} :
    Matches E (.join .extended .sequence (splice .sequence p)) w ↔ Matches E p w := by
  unfold splice
  split
  · split
    · rename_i h
      rw [h.1, h.2]
    · exact matches_sequence_singleton_iff
  · exact matches_sequence_singleton_iff

/-- **A call for an alternative matches what any of its arguments does.** -/
theorem matches_alt_iff {args : List Production} :
    (alt args).Matches E w ↔ ∃ p ∈ args, p.Matches E w := by
  simp only [alt, joinOf, matches_alternative_iff, List.mem_flatMap]
  constructor
  · rintro ⟨c, ⟨p, hp, hc⟩, h⟩
    exact ⟨p, hp, matches_splice_alternative_iff.1 ⟨c, hc, h⟩⟩
  · rintro ⟨p, hp, h⟩
    obtain ⟨c, hc, h⟩ := matches_splice_alternative_iff.2 h
    exact ⟨c, ⟨p, hp, hc⟩, h⟩

/-- A call for a sequence matches a word of its first argument and then one of the others. -/
theorem matches_seq_cons_iff {p : Production} {args : List Production} :
    (seq (p :: args)).Matches E w ↔
      ∃ u u', w = u ++ u' ∧ p.Matches E u ∧ (seq args).Matches E u' := by
  simp only [seq, joinOf, List.flatMap_cons, matches_sequence_append_iff,
    matches_splice_sequence_iff]

/-- **A call for a sequence matches words of its arguments,** one after another. -/
theorem matches_seq_iff {args : List Production} :
    (seq args).Matches E w ↔
      ∃ us, List.Forall₂ (fun p u => p.Matches E u) args us ∧ w = us.flatten := by
  induction args generalizing w with
  | nil =>
    simp only [List.forall₂_nil_left_iff, exists_eq_left, List.flatten_nil]
    exact matches_sequence_nil_iff
  | cons p args ih =>
    rw [matches_seq_cons_iff]
    constructor
    · rintro ⟨u, u', rfl, h, hs⟩
      obtain ⟨us, hus, rfl⟩ := ih.1 hs
      exact ⟨u :: us, .cons h hus, rfl⟩
    · rintro ⟨_, hall, rfl⟩
      obtain ⟨u, us, h, hus, rfl⟩ := List.forall₂_cons_left_iff.1 hall
      exact ⟨u, us.flatten, rfl, h, ih.2 ⟨us, hus, rfl⟩⟩

/-- Calls on arguments that contribute the same make the same. -/
theorem joinOf_congr {op : Connective} {args args' : List Production}
    (h : args.flatMap (splice op) = args'.flatMap (splice op)) :
    joinOf .extended op args = joinOf .extended op args' := by
  simp only [joinOf, h]

end Production

namespace Recipe

open Production

/-! ### What the calls make -/

variable {op : Connective} {r left right : Recipe} {args : List Recipe} {ps : List Production}

/-- Once its leaves are built and extended, the recipe is built as well, and it contributes
to a join of kind `op` what its leaves contribute. -/
def Contributes (op : Connective) (r : Recipe) : Prop :=
  ∀ ps, buildAll .extended (r.leaves op) = .ok ps → (∀ p ∈ ps, p.dialect = .extended) →
    ∃ p, r.build .extended = .ok p ∧ p.dialect = .extended ∧
      splice op p = ps.flatMap (splice op)

/-- A call on arguments that contribute what their leaves do is the call on the leaves. -/
theorem build_join (hargs : ∀ a ∈ args, a.Contributes op)
    (hps : buildAll .extended (leavesAll op args) = .ok ps)
    (hextended : ∀ p ∈ ps, p.dialect = .extended) :
    (join op args).build .extended = .ok (joinOf .extended op ps) := by
  suffices hbuilt : ∃ qs, buildAll .extended args = .ok qs ∧
      qs.flatMap (splice op) = ps.flatMap (splice op) by
    obtain ⟨qs, hqs, hsame⟩ := hbuilt
    exact build_join_eq_ok_iff.2 ⟨qs, hqs, (joinOf_congr hsame).symm⟩
  induction args generalizing ps with
  | nil =>
    cases hps
    exact ⟨[], rfl, rfl⟩
  | cons a args ih =>
    obtain ⟨qs, qs', hqs, hqs', rfl⟩ := buildAll_append_eq_ok_iff.1 hps
    obtain ⟨ha, hargs⟩ := List.forall_mem_cons.1 hargs
    obtain ⟨hext, hext'⟩ := List.forall_mem_append.1 hextended
    obtain ⟨p, hp, -, hsplice⟩ := ha qs hqs hext
    obtain ⟨ps, hps, hsame⟩ := ih hargs hqs' hext'
    refine ⟨p :: ps, buildAll_cons_eq_ok_iff.2 ⟨p, ps, hp, hps, rfl⟩, ?_⟩
    rw [List.flatMap_cons, List.flatMap_append, hsplice, hsame]

/-- So is an operator, whose left operand is extended because its leaves are. -/
theorem build_operator (hleft : left.Contributes op) (hright : right.Contributes op)
    (hps : buildAll .extended (left.leaves op ++ right.leaves op) = .ok ps)
    (hextended : ∀ p ∈ ps, p.dialect = .extended) :
    (operator op left right).build .extended = .ok (joinOf .extended op ps) := by
  obtain ⟨qs, qs', hqs, hqs', rfl⟩ := buildAll_append_eq_ok_iff.1 hps
  obtain ⟨hext, hext'⟩ := List.forall_mem_append.1 hextended
  obtain ⟨p, hp, hdialect, hsplice⟩ := hleft qs hqs hext
  obtain ⟨p', hp', -, hsplice'⟩ := hright qs' hqs' hext'
  have hsame : [p, p'].flatMap (splice op) = (qs ++ qs').flatMap (splice op) := by
    simp [hsplice, hsplice']
  exact build_operator_eq_ok_iff.2 ⟨p, p', hp, hp', hdialect, (joinOf_congr hsame).symm⟩

/-- **A recipe contributes what its leaves contribute.** A call of kind `op` is spliced
completely, and all else is its own leaf. -/
theorem contributes (op : Connective) (r : Recipe) : r.Contributes op := by
  have hcall {r : Recipe} {ps : List Production}
      (h : r.build .extended = .ok (joinOf .extended op ps)) :
      ∃ p, r.build .extended = .ok p ∧ p.dialect = .extended ∧
        splice op p = ps.flatMap (splice op) :=
    ⟨_, h, rfl, splice_joinOf op ps⟩
  have hleaf {r : Recipe} (h : ¬ r.IsCall op) : r.Contributes op := by
    intro ps hps hextended
    rw [leaves_of_not_isCall h] at hps
    obtain ⟨p, _, hp, hnil, rfl⟩ := buildAll_cons_eq_ok_iff.1 hps
    cases hnil
    exact ⟨p, hp, hextended p List.mem_cons_self, by simp⟩
  induction r using induction with
  | join op' args ih =>
    by_cases hop : op' = op
    · subst hop
      intro ps hps hextended
      rw [leaves, if_pos rfl] at hps
      exact hcall (build_join ih hps hextended)
    · refine hleaf fun h => ?_
      cases h
      exact hop rfl
  | operator op' left right ihl ihr =>
    by_cases hop : op' = op
    · subst hop
      intro ps hps hextended
      rw [leaves, if_pos rfl] at hps
      exact hcall (build_operator ihl ihr hps hextended)
    · refine hleaf fun h => ?_
      cases h
      exact hop rfl
  | _ =>
    refine hleaf fun h => ?_
    cases h

/-- Nested calls build what the single call on their leaves builds. -/
theorem build_of_leaves (hr : r.IsCall op) (hps : buildAll .extended (r.leaves op) = .ok ps)
    (hextended : ∀ p ∈ ps, p.dialect = .extended) :
    r.build .extended = .ok (joinOf .extended op ps) := by
  cases hr with
  | join args =>
    rw [leaves, if_pos rfl] at hps
    exact build_join (fun a _ => contributes op a) hps hextended
  | operator left right =>
    rw [leaves, if_pos rfl] at hps
    exact build_operator (contributes op left) (contributes op right) hps hextended

/-- **How joining calls are nested does not matter,** and splicing keeps the meaning.
Any tree of calls of one kind, with operators for some of them and extended productions
for leaves, builds what a single call on the leaves builds. A call for an alternative matches
the words of any argument, and a call for a sequence those made of one word of each
argument in turn. -/
theorem grouping_immaterial (op : Connective) (E : Assignment) :
    (∀ (r : Recipe) (ps : List Production), r.IsCall op →
      buildAll .extended (r.leaves op) = .ok ps → (∀ p ∈ ps, p.dialect = .extended) →
      r.build .extended = .ok (joinOf .extended op ps)) ∧
    ∀ (args : List Production) (w : Word),
      ((alt args).Matches E w ↔ ∃ p ∈ args, p.Matches E w) ∧
      ((seq args).Matches E w ↔
        ∃ us, List.Forall₂ (fun p u => p.Matches E u) args us ∧ w = us.flatten) :=
  ⟨fun _ _ hr hps hextended => build_of_leaves hr hps hextended,
    fun _ _ => ⟨matches_alt_iff, matches_seq_iff⟩⟩

/-- The alternative `(A | B) | A`, made node by node with one alternative in the other. -/
def twofold : Production :=
  .join .extended .alternative
    [.join .extended .alternative [.reference .extended ⟨"A"⟩, .reference .extended ⟨"B"⟩],
      .reference .extended ⟨"A"⟩]

/-- A call on a call without arguments and on an operator, whose left operand is
`twofold` and whose right one is a call on `B` alone. -/
def regrouped : Recipe :=
  .join .alternative [.join .alternative [],
    .operator .alternative (.given twofold) (.join .alternative [.reference ⟨"B"⟩])]

/-- The calls build one alternative with the children of `twofold` and `B`; the alternative
inside of `twofold` is a child of it and stays. -/
theorem grouping_immaterial_regrouped :
    regrouped.IsCall .alternative ∧
      buildAll .extended (regrouped.leaves .alternative) =
        .ok [twofold, .reference .extended ⟨"B"⟩] ∧
      (∀ p ∈ [twofold, .reference .extended ⟨"B"⟩], p.dialect = .extended) ∧
      regrouped.build .extended = .ok (.join .extended .alternative
        [.join .extended .alternative [.reference .extended ⟨"A"⟩, .reference .extended ⟨"B"⟩],
          .reference .extended ⟨"A"⟩, .reference .extended ⟨"B"⟩]) := by
  have hcall : regrouped.IsCall .alternative := .join _
  have hleaves : buildAll .extended (regrouped.leaves .alternative) =
      .ok [twofold, .reference .extended ⟨"B"⟩] := rfl
  have hextended : ∀ p ∈ [twofold, .reference .extended ⟨"B"⟩], p.dialect = .extended := by decide
  obtain ⟨hbuild, -⟩ := grouping_immaterial .alternative fun _ _ => False
  exact ⟨hcall, hleaves, hextended, hbuild regrouped _ hcall hleaves hextended⟩

end Recipe
end ContextFree
