/-
# Grammars

A grammar has a start variable and one production for each variable that has a
rule, in order. Variables that are only referenced belong to it as well.
-/

import ContextFree.NameSet
import ContextFree.Registry
import ContextFree.Production.Display

namespace ContextFree

/-- A start variable, and one production per rule. -/
structure Grammar where
  start : Variable
  rules : Registry Variable Production

namespace Grammar

/-- The variables of a grammar: those with a rule, the start, and those
referenced in a right-hand side. -/
def allVariables (g : Grammar) : NameSet :=
  .ofList (g.rules.keys ++ g.start :: g.rules.values.flatMap Production.references)

/-- The line that shows one rule, its production in its own dialect. -/
def formatRule (rule : Variable × Production) : Except Fault String :=
  rule.2.text.map fun t => rule.1.text ++ " -> " ++ t

/-- The rules of a grammar, a line for each. -/
def format (g : Grammar) : Except Fault String :=
  (g.rules.entries.mapM formatRule).map ("\n".intercalate ·)

/-- The variables of a grammar are those with a rule, the start, and those that are
referenced by a rule. -/
theorem mem_allVariables {g : Grammar} {v : Variable} :
    v ∈ g.allVariables ↔ v ∈ g.rules.keys ∨ v = g.start ∨
      ∃ p ∈ g.rules.values, v ∈ p.references := by
  simp [allVariables, List.mem_flatMap]

end Grammar
end ContextFree
