/-
# Building productions by calls

The builders make productions easier to write than the nodes themselves do. In
the extended dialect a joining call splices every argument that is a join of
the same kind, one level deep, so that `a | b | c` and `a | (b | c)` are one
three-way alternative; the plain dialect keeps its arguments as they are. A
call always makes a node, also for no argument or a single one.

A repetition or an extended optional part may be built from several arguments,
which then form a sequence, without splicing. A plain optional part has exactly
one argument.

The operators `|` and `+` are the extended joining calls on two operands. They
belong to the production on the left, so a plain one has none there; on the
right it is an operand like any other.

A recipe is a tree of such calls, to be built in one of the dialects.
-/

import ContextFree.Fault

namespace ContextFree
namespace Production

/-- What an argument contributes to an extended join of kind `op`: its children
if it is such a join itself, and itself otherwise. -/
def splice (op : Connective) : Production → List Production
  | .join d op' cs => if d = .extended ∧ op' = op then cs else [.join d op' cs]
  | p => [p]

/-- The join of the arguments. -/
def joinOf (d : Dialect) (op : Connective) (args : List Production) : Production :=
  match d with
  | .plain => .join .plain op args
  | .extended => .join .extended op (args.flatMap (splice op))

/-- The extended alternative of the arguments. -/
abbrev alt (args : List Production) : Production :=
  joinOf .extended .alternative args

/-- The extended sequence of the arguments. -/
abbrev seq (args : List Production) : Production :=
  joinOf .extended .sequence args

/-- The operator of a connective, `|` or `+`, between two productions. The one
on the left has to be extended; the one on the right need not be. -/
def operate (op : Connective) (left right : Production) : Except Fault Production :=
  match left.dialect with
  | .plain => .error .plainOperand
  | .extended => .ok (joinOf .extended op [left, right])

/-- The arguments as one production: a single one is itself, several are an
extended sequence. -/
def group : List Production → Except Fault Production
  | [] => .error .emptyGroup
  | [p] => .ok p
  | ps => .ok (.join .extended .sequence ps)

/-- An optional part: of exactly one argument in the plain dialect, of a group
in the extended one. -/
def opt : Dialect → List Production → Except Fault Production
  | .plain, [p] => .ok (.optional .plain p)
  | .plain, _ => .error .singleExpected
  | .extended, args => (group args).map (.optional .extended)

/-- A group repeated any number of times. -/
def zeroOrMore (args : List Production) : Except Fault Production :=
  (group args).map .star

/-- A group repeated at least once. -/
def oneOrMore (args : List Production) : Except Fault Production :=
  (group args).map .plus

/-- A join made by a call is spliced completely by an enclosing one of its kind. -/
@[simp] theorem splice_joinOf (op : Connective) (args : List Production) :
    splice op (joinOf .extended op args) = args.flatMap (splice op) := by
  simp [joinOf, splice]

/-- **Where an operator applies:** on an extended left operand, and there it is
the joining call. -/
theorem operate_eq_ok_iff {op : Connective} {left right p : Production} :
    operate op left right = .ok p ↔
      left.dialect = .extended ∧ p = joinOf .extended op [left, right] := by
  unfold operate
  cases left.dialect <;> simp [eq_comm]

end Production

/-- A tree of builder calls. -/
inductive Recipe where
  /-- A production made in another way. -/
  | given (p : Production)
  | epsilon
  | terminal (t : Terminal)
  | reference (v : Variable)
  | join (op : Connective) (args : List Recipe)
  /-- Two operands with the operator of a connective between them. -/
  | operator (op : Connective) (left right : Recipe)
  | optional (args : List Recipe)
  | zeroOrMore (args : List Recipe)
  | oneOrMore (args : List Recipe)

namespace Recipe

mutual

/-- The production that a recipe builds; arguments are built first, from left
to right. -/
def build (d : Dialect) : Recipe → Except Fault Production
  | .given p => .ok p
  | .epsilon => .ok (.epsilon d)
  | .terminal t => .ok (.terminal d t)
  | .reference v => .ok (.reference d v)
  | .join op args => (buildAll d args).map (Production.joinOf d op)
  | .operator op left right => do
    let l ← build d left
    let r ← build d right
    Production.operate op l r
  | .optional args => (buildAll d args).bind (Production.opt d)
  | .zeroOrMore args => (buildAll d args).bind Production.zeroOrMore
  | .oneOrMore args => (buildAll d args).bind Production.oneOrMore

/-- The productions that a list of recipes builds, up to the first fault. -/
def buildAll (d : Dialect) : List Recipe → Except Fault (List Production)
  | [] => .ok []
  | r :: rs => do
    let p ← build d r
    let ps ← buildAll d rs
    return p :: ps

end

end Recipe
end ContextFree
