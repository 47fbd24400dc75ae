/-
# Tables of derivable spans

A table for a word of `n` symbols has `n` rows. Cell `p` of row `i` holds the
variables that derive the `i + 1` symbols from position `p` on, so that row `i`
has `n - i` cells and the single cell of the last row is about the whole word.

A cell is read by the length of its span and by its start. Both are positions
that may be counted from the end by negative numbers, so that span 0 is the
whole word.

Shown as text, every row has its number in four columns, then ` | `, then its
cells, all padded to the width of the widest cell of the table.
-/

import ContextFree.Fault
import ContextFree.NameSet

namespace ContextFree
namespace Text

/-- A text filled up with blanks on the right. -/
def padRight (width : Nat) (s : String) : String :=
  s ++ String.ofList (List.replicate (width - s.length) ' ')

end Text

/-- The rows of cells, the shortest spans first. -/
structure Table where
  rows : List (List NameSet)
deriving DecidableEq

namespace Table

/-- The number of symbols the table is about. -/
def length (t : Table) : Nat :=
  t.rows.length

/-- The place in a list of this length that a position means, if there is one:
negative positions count from the end. -/
def place (length : Nat) (position : Int) : Option Nat :=
  if 0 ≤ position then
    if position < length then some position.toNat else none
  else
    if -(length : Int) ≤ position then some (position + length).toNat else none

/-- The entry of a list at a position. -/
def entry {α : Type} (xs : List α) (position : Int) : Except Fault α :=
  match (place xs.length position).bind (xs[·]?) with
  | some x => .ok x
  | none => .error .outOfRange

/-- The variables that derive the span of this length from this start. -/
def cell (t : Table) (span start : Int) : Except Fault NameSet := do
  let row ← entry t.rows (span - 1)
  entry row start

/-- Whether a variable derives the whole word. -/
def derives (t : Table) (v : Variable) : Except Fault Bool := do
  let row ← entry t.rows (-1)
  let c ← entry row 0
  return v ∈ c

/-- The names of a cell between braces. -/
def cellText (c : NameSet) : String :=
  "\x7b" ++ ",".intercalate (c.toList.map Variable.text) ++ "\x7d"

/-- One row: its number, then its cells in columns of this width. -/
def rowText (width number : Nat) (cells : List String) : String :=
  Text.padRight 4 (toString number) ++ " | " ++ " ".intercalate (cells.map (Text.padRight width))

/-- The table as text; it needs at least one cell. -/
def format (t : Table) : Except Fault String :=
  let cells := t.rows.map (·.map cellText)
  match (cells.flatten.map String.length).max? with
  | some width =>
      .ok ("\n".intercalate (cells.zipIdx.map fun row => rowText width (row.2 + 1) row.1))
  | none => .error .emptyTable

/-- **A position means place `i`** exactly when it is `i`, or `i` counted from the
end. -/
theorem place_eq_some_iff {length : Nat} {position : Int} {i : Nat} :
    place length position = some i ↔
      i < length ∧ (position = i ∨ position = (i : Int) - length) := by
  unfold place
  repeat' split
  all_goals simp only [Option.some.injEq, reduceCtorEq, false_iff]
  all_goals omega

end Table

/-- What may be asked about a table. -/
inductive Table.Query where
  | whole
  | format
  | cell (span start : Int)
  | derives (v : Variable)

/-- What a question about a table is answered with. -/
inductive Table.Answer where
  | whole (t : Table)
  | text (s : String)
  | names (s : NameSet)
  | truth (b : Bool)

/-- Answers a question about a table. -/
def Table.answer (t : Table) : Query → Except Fault Answer
  | .whole => .ok (.whole t)
  | .format => t.format.map .text
  | .cell span start => (t.cell span start).map .names
  | .derives v => (t.derives v).map .truth

end ContextFree
