/-
# Pools of candidate names

A pool offers candidate names in a fixed order, and what was offered is gone. It
is either a finite list, which may hold a name twice, or the endless row
`stem`0, `stem`1, … from some number on. To draw from a pool is to take
candidates from it until one of them is not in use; a finite pool in which no
such candidate is left becomes empty.
-/

import ContextFree.NameSet

namespace ContextFree

/-- The candidate names that are still to be offered, in order. -/
inductive Pool where
  | listed (names : List Variable)
  | counted (stem : String) (next : Int)
deriving DecidableEq

namespace Pool

/-- One candidate per character. -/
def ofText (s : String) : Pool :=
  .listed (s.toList.map fun c => ⟨c.toString⟩)

/-- The capital letters from `A` to `Z`. -/
def letters : Pool :=
  ofText "ABCDEFGHIJKLMNOPQRSTUVWXYZ"

/-- The candidate with number `i` in the row with this stem. -/
def numbered (stem : String) (i : Int) : Variable :=
  ⟨stem ++ toString i⟩

/-- The first number from `i` on whose candidate is not in `taken`. Different
numbers give different names, so that each candidate met in `taken` can be
struck from it; this is why the search ends. -/
def firstFree (stem : String) (taken : List Variable) (i : Int) : Int :=
  if numbered stem i ∈ taken then
    firstFree stem (taken.erase (numbered stem i)) (i + 1)
  else i
termination_by taken.length
decreasing_by
  rename_i h
  have := List.length_pos_of_mem h
  rw [List.length_erase_of_mem h]
  omega

/-- The first candidate that is not in use, if there is one, and the pool after it. -/
def draw (used : NameSet) : Pool → Option Variable × Pool
  | .listed names =>
      match names.dropWhile (· ∈ used) with
      | [] => (none, .listed [])
      | v :: rest => (some v, .listed rest)
  | .counted stem next =>
      let i := firstFree stem used.toList next
      (some (numbered stem i), .counted stem (i + 1))

end Pool
end ContextFree
