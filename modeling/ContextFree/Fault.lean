/-
# Faults

The causes for which an operation of the library gives no result. `Fault` has
one constructor for each, with the values that its message names. Callers tell
faults apart by their kind: `Fault.kind` sorts the causes into the kinds that can
be told apart, and `Fault.Kind.name` is the name that each kind goes by.
-/

import ContextFree.Production.Explicit

namespace ContextFree

/-- Why an operation gave no result. -/
inductive Fault where
  /-- A group of productions without any member. -/
  | emptyGroup
  /-- A call for one production was given none or several. -/
  | singleExpected
  /-- An operator with a plain production on its left. -/
  | plainOperand
  /-- A normal-form grammar without rules. -/
  | noRules
  /-- A right-hand side that is not in normal form, by its explicit form if it has one. -/
  | notNormalForm (v : Variable) (explicit : Option String)
  /-- A word without symbols. -/
  | emptyWord
  /-- A table without cells. -/
  | emptyTable
  /-- A place outside the table. -/
  | outOfRange
  /-- No fresh name is left while this many are in use. -/
  | poolExhausted (inUse : Nat)
  /-- Two helper variables for the group with this text. -/
  | replacerConflict (group : String) (existing new : Variable)
  /-- A node of the other dialect. -/
  | foreignNode (node : Production)
  /-- A terminal and a variable were to be ordered. -/
  | mixedOrder
  /-- The repetitions of a plain node were to be counted. -/
  | uncountable
  /-- A helper rule with as many repetitions as the group it stands for. -/
  | notReduced
  /-- A second rule for one variable. -/
  | repeatedRule (v : Variable)
deriving DecidableEq

/-- What a fault is about, as far as callers tell faults apart. -/
inductive Fault.Kind where
  /-- An argument of the right type whose value is not accepted. -/
  | value
  /-- An operation on values of types that it is not made for. -/
  | type
  /-- A place outside of what is indexed. -/
  | index
  /-- A part that a value does not have. -/
  | attribute
  /-- A check that never fails. -/
  | assertion
  /-- A pool of names that has run dry. -/
  | exhaustion
  /-- Two helpers for one group. -/
  | invariant
  /-- Any other fault. -/
  | general
deriving DecidableEq

/-- The name of a kind. -/
def Fault.Kind.name : Fault.Kind → String
  | .value => "ValueError"
  | .type => "TypeError"
  | .index => "IndexError"
  | .attribute => "AttributeError"
  | .assertion => "AssertionError"
  | .exhaustion => "VariableSpaceExhausted"
  | .invariant => "NormalizationInvariantError"
  | .general => "Exception"

/-- Different kinds go by different names. -/
theorem Fault.Kind.name_inj {k k' : Fault.Kind} : k.name = k'.name ↔ k = k' := by
  cases k <;> cases k' <;> decide

namespace Fault

/-- The kind of a fault. -/
def kind : Fault → Kind
  | .emptyGroup => .value
  | .singleExpected => .type
  | .plainOperand => .type
  | .noRules => .value
  | .notNormalForm _ _ => .value
  | .emptyWord => .value
  | .emptyTable => .value
  | .outOfRange => .index
  | .poolExhausted _ => .exhaustion
  | .replacerConflict _ _ _ => .invariant
  | .foreignNode _ => .general
  | .mixedOrder => .type
  | .uncountable => .attribute
  | .notReduced => .assertion
  | .repeatedRule _ => .assertion

/-- The message of a fault; some faults have none. -/
def message : Fault → Option String
  | .emptyGroup => some "Expected at least one production"
  | .singleExpected => none
  | .plainOperand => none
  | .noRules => some "A Chomsky grammar needs at least one rule"
  | .notNormalForm v explicit =>
      explicit.map fun e => v.text ++ " -> " ++ e ++ " is not in Chomsky Normal Form"
  | .emptyWord => some "Cannot recognize the empty word"
  | .emptyTable => none
  | .outOfRange => none
  | .poolExhausted n =>
      some ("No fresh variable names left (" ++ toString n ++ " variables in use)")
  | .replacerConflict group existing new =>
      some ("'" ++ group ++ "' was replaced by both " ++ existing.text ++ " and " ++ new.text)
  | .foreignNode p => some ("unknown production type " ++ p.explicit)
  | .mixedOrder => none
  | .uncountable => none
  | .notReduced => none
  | .repeatedRule v => some (v.text ++ " has more than one rule")

end Fault
end ContextFree
