/-
# Variables that are referenced

A grammar starts from a variable and references those in its right-hand sides. The
ones among them that have no rule are undefined. In a normal form, whose first rules
are those of the original and whose other rules define helpers, a helper is of use
only if a reference to it can be reached from the former by way of the latter.
-/

import ContextFree.Grammar.Decoding

namespace ContextFree
namespace Grammar

/-- The grammar starts from the variable or references it, but has no rule for it. -/
def Undefined (g : Grammar) (v : Variable) : Prop :=
  (v = g.start ∨ ∃ p ∈ g.rules.values, v ∈ p.references) ∧ v ∉ g.rules.keys

/-- An undefined variable belongs to the grammar without a rule. -/
theorem undefined_iff {g : Grammar} {v : Variable} :
    g.Undefined v ↔ v ∈ g.allVariables ∧ v ∉ g.rules.keys := by
  rw [Undefined, mem_allVariables]
  refine and_congr_left fun hv => ?_
  rw [or_iff_right hv]

/-- `n.Reaches k v`: a reference to `v` is reached from one of the first `k` rules of
`n`, when references to helpers are followed to the rules of these helpers. -/
inductive Reaches (n : Grammar) (k : Nat) : Variable → Prop where
  | rule {e : Variable × Production} {v : Variable} (he : e ∈ n.rules.entries.take k)
      (hv : v ∈ e.2.references) : Reaches n k v
  | helper {u v : Variable} {p : Production} (hu : Reaches n k u)
      (hp : (n.helperRules k).get? u = some p) (hv : v ∈ p.references) : Reaches n k v

end Grammar
end ContextFree
