/-
# What the calls build is flat

A joining call splices one level only, yet no alternative that was built holds another
one, and a sequence holds another one only where a group was made of several
arguments: right below an optional part or a repetition. `Flat` says so of a whole
tree.

The calls keep this because an argument is flat down from its top. What a flat argument
contributes to a join is no join of the same kind (`Flat.of_mem_splice`), so one level of
splicing is enough (`flat_joinOf`). A group is the one thing built that need not be
flat at its top, and the node around it is never spliced (`flat_of_group`). The main
statement is `built_is_flat`.
-/

import ContextFree.Production.Calls
import ContextFree.Proofs.Production.Dialect

namespace ContextFree
namespace Production

/-- The productions right below a node, from left to right. -/
def children : Production → List Production
  | .epsilon _ => []
  | .terminal _ _ => []
  | .reference _ _ => []
  | .optional _ c => [c]
  | .join _ _ cs => cs
  | .star c => [c]
  | .plus c => [c]

/-- An extended join of kind `op`. -/
inductive IsJoin (op : Connective) : Production → Prop where
  | join (cs : List Production) : IsJoin op (.join .extended op cs)

/-- An optional part or a repetition. -/
inductive HoldsGroup : Production → Prop where
  | optional (d : Dialect) (c : Production) : HoldsGroup (.optional d c)
  | star (c : Production) : HoldsGroup (.star c)
  | plus (c : Production) : HoldsGroup (.plus c)

/-- A join of kind `op` right above another one. -/
def Nested (op : Connective) (p : Production) : Prop :=
  p.IsJoin op ∧ ∃ c ∈ p.children, c.IsJoin op

/-- No alternative in the tree holds another one, and a sequence below the top holds another
one only as a group of several members. -/
structure FlatBelow (p : Production) : Prop where
  alternatives : ∀ q ∈ p.nodes, ¬ q.Nested .alternative
  sequences : ∀ q ∈ p.nodes, ∀ c ∈ q.children, c.Nested .sequence →
    q.HoldsGroup ∧ 2 ≤ c.children.length

/-- The same, and the top is no sequence that holds another one. -/
structure Flat (p : Production) : Prop extends FlatBelow p where
  top : ¬ p.Nested .sequence

variable {op : Connective} {p q c : Production} {ps args : List Production}

/-- A production is its top and what is below. -/
theorem nodes_eq (p : Production) : p.nodes = p :: p.children.flatMap nodes := by
  cases p with
  | join d op cs => rw [nodes, nodesAll_eq, children]
  | _ => simp [nodes, children]

/-- The children of a tree that is flat below its top are so as well. -/
theorem FlatBelow.of_mem_children (h : p.FlatBelow) (hc : c ∈ p.children) : c.FlatBelow := by
  have hsub {q : Production} (hq : q ∈ c.nodes) : q ∈ p.nodes := by
    rw [nodes_eq p]
    exact List.mem_cons_of_mem p (List.mem_flatMap.2 ⟨c, hc, hq⟩)
  exact ⟨fun q hq => h.alternatives q (hsub hq), fun q hq => h.sequences q (hsub hq)⟩

/-- A tree is flat below its top if the trees right below are and the top does no harm. -/
theorem FlatBelow.of_children (hchildren : ∀ c ∈ p.children, c.FlatBelow)
    (halternative : ¬ p.Nested .alternative)
    (hsequence : ∀ c ∈ p.children, c.Nested .sequence → p.HoldsGroup ∧ 2 ≤ c.children.length) :
    p.FlatBelow := by
  constructor
  · intro q hq
    rw [nodes_eq, List.mem_cons, List.mem_flatMap] at hq
    rcases hq with rfl | ⟨c, hc, hq⟩
    · exact halternative
    · exact (hchildren c hc).alternatives q hq
  · intro q hq
    rw [nodes_eq, List.mem_cons, List.mem_flatMap] at hq
    rcases hq with rfl | ⟨c, hc, hq⟩
    · exact hsequence
    · exact (hchildren c hc).sequences q hq

/-- A tree is flat if the trees right below are and it is not nested in either way. -/
theorem Flat.of_children (hchildren : ∀ c ∈ p.children, c.Flat)
    (htop : ∀ op, ¬ p.Nested op) : p.Flat where
  toFlatBelow := .of_children (fun c hc => (hchildren c hc).toFlatBelow) (htop .alternative)
    fun c hc h => absurd h (hchildren c hc).top
  top := htop .sequence

/-! ### Joining calls -/

/-- A join of the same kind contributes its children, all else itself. -/
theorem mem_splice_iff :
    c ∈ splice op p ↔ p.IsJoin op ∧ c ∈ p.children ∨ ¬ p.IsJoin op ∧ c = p := by
  by_cases h : p.IsJoin op
  · obtain ⟨cs⟩ := h
    simp [splice, children, IsJoin.join]
  · have hself : splice op p = [p] := by
      unfold splice
      split
      · rename_i d op' cs
        refine if_neg ?_
        rintro ⟨rfl, rfl⟩
        exact h (.join cs)
      · rfl
    simp [hself, h]

/-- **What a flat argument contributes to a join** is flat and no join of its kind. -/
theorem Flat.of_mem_splice (h : p.Flat) (hc : c ∈ splice op p) : c.Flat ∧ ¬ c.IsJoin op := by
  rcases mem_splice_iff.1 hc with ⟨hp, hc⟩ | ⟨hp, rfl⟩
  · obtain ⟨cs⟩ := hp
    have hnested : ¬ (join .extended op cs).Nested op := by
      cases op with
      | alternative => exact h.alternatives _ (mem_nodes_self _)
      | sequence => exact h.top
    refine ⟨⟨h.toFlatBelow.of_mem_children hc, fun hseq => ?_⟩, fun hjoin => ?_⟩
    · exact nomatch (h.sequences _ (mem_nodes_self _) c hc hseq).1
    · exact hnested ⟨.join cs, c, hc, hjoin⟩
  · exact ⟨h, hp⟩

/-- **A joining call keeps trees flat.** -/
theorem flat_joinOf (h : ∀ p ∈ args, p.Flat) : (joinOf .extended op args).Flat := by
  have hparts : ∀ c ∈ args.flatMap (splice op), c.Flat ∧ ¬ c.IsJoin op := by
    intro c hc
    obtain ⟨p, hp, hc⟩ := List.mem_flatMap.1 hc
    exact (h p hp).of_mem_splice hc
  refine .of_children (fun c hc => (hparts c hc).1) ?_
  rintro _ ⟨⟨_⟩, c, hc, hjoin⟩
  exact (hparts c hc).2 hjoin

/-- A joining call on productions of one dialect stays in it. -/
theorem within_joinOf {d : Dialect} (h : ∀ p ∈ args, p.Within d) : (joinOf d op args).Within d := by
  cases d with
  | plain => exact within_join.2 ⟨rfl, h⟩
  | extended =>
    refine within_join.2 ⟨rfl, fun c hc => ?_⟩
    obtain ⟨p, hp, hc⟩ := List.mem_flatMap.1 hc
    rcases mem_splice_iff.1 hc with ⟨⟨cs⟩, hc⟩ | ⟨-, rfl⟩
    · exact (within_join.1 (h _ hp)).2 c hc
    · exact h c hp

/-! ### Groups -/

/-- A group is its only member, or the sequence of several. -/
theorem group_eq_ok (h : group ps = .ok q) :
    ps = [q] ∨ 2 ≤ ps.length ∧ q = .join .extended .sequence ps := by
  match ps, h with
  | [p], h => exact .inl (by cases h; rfl)
  | p :: p' :: ps, h => exact .inr ⟨by simp, by cases h; rfl⟩

/-- A group of flat members is flat below its top, and if not there, then it has
several members. -/
theorem flatBelow_of_group (hps : ∀ p ∈ ps, p.Flat) (h : group ps = .ok q) :
    q.FlatBelow ∧ (q.Nested .sequence → 2 ≤ q.children.length) := by
  rcases group_eq_ok h with rfl | ⟨hlength, rfl⟩
  · have hq := hps q List.mem_cons_self
    exact ⟨hq.toFlatBelow, fun hseq => absurd hseq hq.top⟩
  · refine ⟨.of_children (fun c hc => (hps c hc).toFlatBelow) (nofun) fun c hc hseq => ?_,
      fun _ => hlength⟩
    exact absurd hseq (hps c hc).top

/-- **Around a group a tree is flat again.** -/
theorem flat_of_group (hps : ∀ p ∈ ps, p.Flat) (h : group ps = .ok q) (hp : p.HoldsGroup)
    (hchildren : p.children = [q]) : p.Flat := by
  obtain ⟨hbelow, hlength⟩ := flatBelow_of_group hps h
  have htop (op : Connective) : ¬ p.Nested op := by
    rintro ⟨⟨_⟩, -⟩
    cases hp
  refine ⟨.of_children ?_ (htop .alternative) ?_, htop .sequence⟩
  · simpa [hchildren] using hbelow
  · simpa [hchildren, hp] using hlength

/-- A group of extended productions is extended throughout. -/
theorem within_group (hps : ∀ p ∈ ps, p.Within .extended) (h : group ps = .ok q) :
    q.Within .extended := by
  rcases group_eq_ok h with rfl | ⟨-, rfl⟩
  · exact hps q List.mem_cons_self
  · exact within_join.2 ⟨rfl, hps⟩

end Production

namespace Recipe

open Production

variable {r : Recipe} {p : Production}

/-- Calls on flat productions build flat ones. -/
theorem flat_of_build (hraw : ∀ q ∈ r.raw, q.Flat) (h : r.build .extended = .ok p) : p.Flat := by
  have hatom {q : Production} (hchildren : q.children = []) : q.Flat := by
    refine .of_children (by simp [hchildren]) ?_
    rintro op ⟨-, c, hc, -⟩
    simp [hchildren] at hc
  exact holds_of_build (hatom rfl) (fun _ => hatom rfl) (fun _ => hatom rfl)
    (fun _ _ => flat_joinOf)
    (fun _ q hps hq => ⟨flat_of_group hps hq (.optional _ q) rfl, flat_of_group hps hq (.star q) rfl,
      flat_of_group hps hq (.plus q) rfl⟩)
    hraw h

/-- Calls on extended productions build extended ones. -/
theorem within_of_build (hraw : ∀ q ∈ r.raw, q.Within .extended)
    (h : r.build .extended = .ok p) : p.Within .extended := by
  refine holds_of_build (by simp) (by simp) (by simp) (fun _ _ => within_joinOf)
    (fun _ q hps hq => ?_) hraw h
  simpa using within_group hps hq

/-- **What is built by calls alone is flat.** Nowhere in the tree does an alternative hold
an alternative, and a sequence that holds a sequence stands right below an optional part
or a repetition, whose group has several members. -/
theorem built_is_flat (hraw : r.raw = []) (h : r.build .extended = .ok p) :
    p.Within .extended ∧ p.Flat :=
  ⟨within_of_build (by simp [hraw]) h, flat_of_build (by simp [hraw]) h⟩

/-- The calls for `((A B) 'c')* | (eps | A?)`, the group of two members in the repetition. -/
def layered : Recipe :=
  .operator .alternative
    (.zeroOrMore [.operator .sequence (.reference ⟨"A"⟩) (.reference ⟨"B"⟩), .terminal ⟨"c"⟩])
    (.join .alternative [.epsilon, .optional [.reference ⟨"A"⟩]])

/-- What they build: one alternative of three, and the sequence `A B` right below the one
in the repetition. -/
def layeredTree : Production :=
  .join .extended .alternative
    [.star (.join .extended .sequence
      [.join .extended .sequence [.reference .extended ⟨"A"⟩, .reference .extended ⟨"B"⟩],
        .terminal .extended ⟨"c"⟩]),
      .epsilon .extended, .optional .extended (.reference .extended ⟨"A"⟩)]

/-- These calls have no production made by hand, so what they build is flat. -/
theorem built_is_flat_layered :
    layered.raw = [] ∧ layered.build .extended = .ok layeredTree ∧
      layeredTree.Within .extended ∧ layeredTree.Flat := by
  have hraw : layered.raw = [] := rfl
  have hbuild : layered.build .extended = .ok layeredTree := rfl
  obtain ⟨hwithin, hflat⟩ := built_is_flat hraw hbuild
  exact ⟨hraw, hbuild, hwithin, hflat⟩

end Recipe
end ContextFree
