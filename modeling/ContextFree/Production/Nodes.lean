/-
# The nodes of a production

`nodes` lists every subtree of a production in reading order: a node stands
before its children, and they follow from left to right. What the operations on
productions do to whole trees can be said by this list: which nodes belong to
the other dialect, which variables are referenced, which groups are repeated.
-/

import ContextFree.Production.Basic

namespace ContextFree
namespace Production

mutual

/-- All subtrees of a production in reading order, itself first. -/
def nodes : Production → List Production
  | .epsilon d => [.epsilon d]
  | .terminal d t => [.terminal d t]
  | .reference d v => [.reference d v]
  | .optional d c => .optional d c :: nodes c
  | .join d op cs => .join d op cs :: nodesAll cs
  | .star c => .star c :: nodes c
  | .plus c => .plus c :: nodes c

/-- All subtrees of a list of productions in reading order. -/
def nodesAll : List Production → List Production
  | [] => []
  | c :: cs => nodes c ++ nodesAll cs

end

/-- The nodes of siblings are those of each of them, in turn. -/
theorem nodesAll_eq (cs : List Production) : nodesAll cs = cs.flatMap nodes := by
  induction cs with
  | nil => rfl
  | cons c cs ih => simp [nodesAll, ih]

/-- A production is the first of its nodes. -/
theorem nodes_eq_cons (p : Production) : ∃ below, p.nodes = p :: below := by
  cases p <;> exact ⟨_, rfl⟩

/-- A production is the top node of its own tree. -/
theorem mem_nodes_self (p : Production) : p ∈ p.nodes := by
  obtain ⟨_, h⟩ := nodes_eq_cons p
  rw [h]
  exact List.mem_cons_self

/-- All nodes of a production are of dialect `d`. -/
def Within (d : Dialect) (p : Production) : Prop :=
  ∀ q ∈ p.nodes, q.dialect = d

instance (d : Dialect) (p : Production) : Decidable (Within d p) :=
  inferInstanceAs (Decidable (∀ q ∈ p.nodes, q.dialect = d))

/-- The first node of the other dialect in reading order. -/
def firstForeign? (d : Dialect) (p : Production) : Option Production :=
  p.nodes.find? (·.dialect ≠ d)

/-- There is no first foreign node exactly when there is none at all. -/
theorem firstForeign?_eq_none_iff {d : Dialect} {p : Production} :
    p.firstForeign? d = none ↔ Within d p := by
  simp [firstForeign?, Within]

/-- The body of a repetition. -/
def body? : Production → Option Production
  | .star c => some c
  | .plus c => some c
  | _ => none

/-- The groups of a production: the bodies of its repetitions, in reading order. -/
def groups (p : Production) : List Production :=
  p.nodes.filterMap body?

/-- A group is the body of a repetition that occurs in the production. -/
theorem mem_groups {p c : Production} :
    c ∈ p.groups ↔ .star c ∈ p.nodes ∨ .plus c ∈ p.nodes := by
  have key (q : Production) : q.body? = some c ↔ q = .star c ∨ q = .plus c := by
    cases q <;> simp [body?]
  simp only [groups, List.mem_filterMap, key, and_or_left, exists_or, exists_eq_right]

end Production
end ContextFree
