/-
# Productions

A production is the right-hand side of a rule, or a part of one. There are two
dialects. The plain dialect has

| node | matches |
| --- | --- |
| `epsilon` | the empty word |
| `terminal` | one terminal |
| `reference` | what the variable matches |
| `optional` | nothing, or what the child matches |
| `join alternative` | what any one of the children matches |
| `join sequence` | what the children match, one after another |

and the extended dialect adds the repetitions `star` (zero or more copies of
the child) and `plus` (one or more). Every node carries its dialect, and a tree
may mix them: the operations of one dialect are defined on trees that are
wholly in that dialect, and say where they first meet a node of the other.

Equality is structural, so equal subtrees can serve as keys of a map.
-/

import ContextFree.Symbol

namespace ContextFree

/-- The two dialects in which productions are written. -/
inductive Dialect where
  | plain
  | extended
deriving DecidableEq

/-- The other dialect. -/
def Dialect.other : Dialect → Dialect
  | .plain => .extended
  | .extended => .plain

/-- The two ways to join any number of children. -/
inductive Connective where
  | alternative
  | sequence
deriving DecidableEq

/-- The right-hand side of a rule, or a part of one. -/
inductive Production where
  | epsilon (d : Dialect)
  | terminal (d : Dialect) (t : Terminal)
  | reference (d : Dialect) (v : Variable)
  | optional (d : Dialect) (child : Production)
  | join (d : Dialect) (op : Connective) (children : List Production)
  | star (child : Production)
  | plus (child : Production)

namespace Production

/-- The dialect of the outermost node. Repetitions are extended. -/
def dialect : Production → Dialect
  | .epsilon d => d
  | .terminal d _ => d
  | .reference d _ => d
  | .optional d _ => d
  | .join d _ _ => d
  | .star _ => .extended
  | .plus _ => .extended

/-- **Induction on productions:** a join may assume the property of every child. -/
theorem induction {motive : Production → Prop}
    (epsilon : ∀ d, motive (.epsilon d))
    (terminal : ∀ d t, motive (.terminal d t))
    (reference : ∀ d v, motive (.reference d v))
    (optional : ∀ d c, motive c → motive (.optional d c))
    (join : ∀ d op cs, (∀ c ∈ cs, motive c) → motive (.join d op cs))
    (star : ∀ c, motive c → motive (.star c))
    (plus : ∀ c, motive c → motive (.plus c))
    (p : Production) : motive p :=
  Production.rec (motive_1 := motive) (motive_2 := fun cs => ∀ c ∈ cs, motive c)
    epsilon terminal reference optional join star plus
    (fun _ h => absurd h List.not_mem_nil)
    (fun _ _ hc hcs x hx => (List.mem_cons.1 hx).elim (fun e => e ▸ hc) (hcs x)) p

mutual

/-- Structural comparison of two productions. -/
def same : Production → Production → Bool
  | .epsilon d, .epsilon e => d == e
  | .terminal d t, .terminal e u => d == e && t == u
  | .reference d v, .reference e w => d == e && v == w
  | .optional d c, .optional e c' => d == e && same c c'
  | .join d op cs, .join e op' cs' => d == e && op == op' && sameAll cs cs'
  | .star c, .star c' => same c c'
  | .plus c, .plus c' => same c c'
  | _, _ => false

/-- Structural comparison of two lists of productions. -/
def sameAll : List Production → List Production → Bool
  | [], [] => true
  | c :: cs, c' :: cs' => same c c' && sameAll cs cs'
  | _, _ => false

end

/-- The comparison of lists is equality, if that of their members is. -/
theorem sameAll_iff {cs cs' : List Production} (h : ∀ c ∈ cs, ∀ q, same c q = true ↔ c = q) :
    sameAll cs cs' = true ↔ cs = cs' := by
  induction cs generalizing cs' with
  | nil => cases cs' <;> simp [sameAll]
  | cons c cs ih =>
    cases cs' with
    | nil => simp [sameAll]
    | cons c' cs' =>
      simp [sameAll, h c List.mem_cons_self c', ih fun x hx => h x (List.mem_cons_of_mem c hx)]

/-- **Structural comparison decides equality.** -/
theorem same_iff {p q : Production} : same p q = true ↔ p = q := by
  induction p using induction generalizing q with
  | epsilon d => cases q <;> simp [same]
  | terminal d t => cases q <;> simp [same]
  | reference d v => cases q <;> simp [same]
  | optional d c ih => cases q <;> simp [same, ih]
  | join d op cs ih =>
    cases q <;> simp [same, sameAll_iff fun c hc q => ih c hc, and_assoc]
  | star c ih => cases q <;> simp [same, ih]
  | plus c ih => cases q <;> simp [same, ih]

instance : DecidableEq Production := fun _ _ => decidable_of_iff _ same_iff

mutual

/-- The variables referenced in a tree, from left to right with repeats, in
the parts of either dialect. -/
def references : Production → List Variable
  | .epsilon _ => []
  | .terminal _ _ => []
  | .reference _ v => [v]
  | .optional _ c => references c
  | .join _ _ cs => referencesAll cs
  | .star c => references c
  | .plus c => references c

/-- The variables referenced in a list of trees. -/
def referencesAll : List Production → List Variable
  | [] => []
  | c :: cs => references c ++ referencesAll cs

end

/-- Siblings reference what each of them does, in turn. -/
theorem referencesAll_eq (cs : List Production) : referencesAll cs = cs.flatMap references := by
  induction cs with
  | nil => rfl
  | cons c cs ih => simp [referencesAll, ih]

/-- A join references what its children do. -/
@[simp] theorem references_join (d : Dialect) (op : Connective) (cs : List Production) :
    (join d op cs).references = cs.flatMap references :=
  referencesAll_eq cs

end Production
end ContextFree
