/-
# What a conversion returns

Converting a production to the plain dialect gives an equivalent plain
production, the helper variables that had to be made, the repeated groups they
now stand for, and the rules that define them. The rules are still in the
extended dialect.

The conversions of several siblings are merged by absorbing them in turn.
Outputs, variables and rules are appended; the replacers are joined key by key,
and a key that is already there is a conflict, even with an equal variable.
What was absorbed before the conflict stays.
-/

import ContextFree.Registry
import ContextFree.Production.Display

namespace ContextFree

/-- The helper variable that stands for each repetition. -/
abbrev Replacers := Registry Production Variable

/-- What the conversion of one production returns. -/
structure Conversion where
  output : Production
  newVariables : List Variable := []
  newReplacers : Replacers := ∅
  newRules : List (Variable × Production) := []

/-- The conversions of several siblings, merged. -/
structure Merged where
  outputs : List Production := []
  newVariables : List Variable := []
  newReplacers : Replacers := ∅
  newRules : List (Variable × Production) := []

namespace Merged

/-- The fault of two helper variables for one group: the conflict, or what
keeps the group from being shown. -/
def conflict (key : Production) (existing new : Variable) : Fault :=
  match key.text with
  | .ok group => .replacerConflict group existing new
  | .error f => f

/-- Puts replacers in, up to the first key that is already there. -/
def mergeReplacers (kept : Replacers) : List (Production × Variable) → Replacers × Option Fault
  | [] => (kept, none)
  | (key, v) :: rest =>
      match kept.get? key with
      | some existing => (kept, some (conflict key existing v))
      | none => mergeReplacers (kept.insert key v) rest

/-- Merges one more conversion, and reports the first conflict. -/
def absorb (m : Merged) (r : Conversion) : Merged × Option Fault :=
  let (replacers, fault) := mergeReplacers m.newReplacers r.newReplacers.entries
  ({ outputs := m.outputs ++ [r.output]
     newVariables := m.newVariables ++ r.newVariables
     newReplacers := replacers
     newRules := m.newRules ++ r.newRules }, fault)

/-- Merges one more conversion without conflict. -/
def absorbed (m : Merged) (r : Conversion) : Except Fault Merged :=
  match m.absorb r with
  | (merged, none) => .ok merged
  | (_, some f) => .error f

/-- Merges conversions in turn and lists the state after each, with the
conflict if there was one; later conversions meet the state that was kept. -/
def absorbEach (m : Merged) : List Conversion → List (Merged × Option Fault)
  | [] => []
  | r :: rs =>
      let step := m.absorb r
      step :: absorbEach step.1 rs

/-- The merged conversions as the conversion of their join. -/
def join (m : Merged) (op : Connective) : Conversion :=
  { output := .join .plain op m.outputs
    newVariables := m.newVariables
    newReplacers := m.newReplacers
    newRules := m.newRules }

/-- Rules are appended, with or without a conflict. -/
@[simp] theorem newRules_absorb (m : Merged) (r : Conversion) :
    (m.absorb r).1.newRules = m.newRules ++ r.newRules := rfl

/-- There was no conflict when the state after it is returned. -/
theorem absorbed_eq_ok_iff {m n : Merged} {r : Conversion} :
    m.absorbed r = .ok n ↔ m.absorb r = (n, none) := by
  unfold absorbed
  rcases m.absorb r with ⟨k, _ | f⟩ <;> simp

/-- A merge without conflict appends the rules. -/
theorem newRules_absorbed {m n : Merged} {r : Conversion} (h : m.absorbed r = .ok n) :
    n.newRules = m.newRules ++ r.newRules := by
  rw [← newRules_absorb, absorbed_eq_ok_iff.1 h]

end Merged
end ContextFree
