/-
# Recognizing words

A word is recognized by filling a table from the shortest spans to the longest.
A single symbol is derived by the variables that produce it. A longer span is
split in every way into a left and a right part; the variables that produce a
pair of one from the left cell and one from the right cell derive the span.

Every cell that is read lies in a row that is already finished; reading outside
of it would be a fault.

The items of a word may be given as terminals or as plain texts, each of which stands
for one terminal; a plain text as a whole is the word of its characters.
-/

import ContextFree.Naming.Event
import ContextFree.Recognizer.Grammar
import ContextFree.Recognizer.Table

namespace ContextFree

/-- What an item of a word may be given as. -/
inductive WordItem where
  | terminal (t : Terminal)
  /-- A plain text, which stands for one terminal. -/
  | text (s : String)

namespace WordItem

/-- The terminal that an item stands for. -/
def toTerminal : WordItem → Terminal
  | .terminal t => t
  | .text s => ⟨s⟩

/-- The items of a plain text, one for each character. -/
def ofText (s : String) : List WordItem :=
  s.toList.map fun c => .text c.toString

end WordItem

namespace ProducerIndex

/-- The variables that produce a pair with its first part in `left` and its
second in `right`. -/
def combine (ix : ProducerIndex) (left right : NameSet) : NameSet :=
  left.toList.foldl (fun cell a =>
    right.toList.foldl (fun cell b => cell ∪ ix.ofPair a b) cell) ∅

/-- The cell at an index of a row, both counted from zero. -/
def finished (rows : List (List NameSet)) (row start : Nat) : Except Fault NameSet :=
  match rows[row]?.bind (·[start]?) with
  | some c => .ok c
  | none => .error .outOfRange

/-- The cell of the span of this length from this start, from the rows of all
shorter spans. -/
def spanCell (ix : ProducerIndex) (rows : List (List NameSet)) (span start : Nat) :
    Except Fault NameSet :=
  (List.range' 1 (span - 1)).foldlM (fun cell split => do
    let left ← finished rows (split - 1) start
    let right ← finished rows (span - split - 1) (start + split)
    return cell ∪ ix.combine left right) ∅

/-- The row of all spans of this length in a word of `n` symbols. -/
def spanRow (ix : ProducerIndex) (n : Nat) (rows : List (List NameSet)) (span : Nat) :
    Except Fault (List NameSet) :=
  (List.range (n - span + 1)).mapM (ix.spanCell rows span)

/-- The table for a word that is not empty. -/
def buildTable (ix : ProducerIndex) (word : List Terminal) : Except Fault Table :=
  if word.isEmpty then .error .emptyWord
  else do
    let rows ← (List.range' 2 (word.length - 1)).foldlM (fun rows span => do
      let row ← ix.spanRow word.length rows span
      return rows ++ [row]) [word.map ix.ofTerminal]
    return ⟨rows⟩

/-- Two cells are combined to the variables indexed for a member of each. -/
theorem mem_combine {ix : ProducerIndex} {left right : NameSet} {v : Variable} :
    v ∈ ix.combine left right ↔ ∃ a ∈ left, ∃ b ∈ right, v ∈ ix.ofPair a b := by
  have inner (a : Variable) (bs : List Variable) (cell : NameSet) :
      v ∈ bs.foldl (fun cell b => cell ∪ ix.ofPair a b) cell ↔
        v ∈ cell ∨ ∃ b ∈ bs, v ∈ ix.ofPair a b := by
    induction bs generalizing cell with
    | nil => simp
    | cons b bs ih => simp [ih, or_assoc]
  have outer (as : List Variable) (cell : NameSet) :
      v ∈ as.foldl (fun cell a =>
          right.toList.foldl (fun cell b => cell ∪ ix.ofPair a b) cell) cell ↔
        v ∈ cell ∨ ∃ a ∈ as, ∃ b ∈ right.toList, v ∈ ix.ofPair a b := by
    induction as generalizing cell with
    | nil => simp
    | cons a as ih => simp [ih, inner, or_assoc]
  refine (outer left.toList ∅).trans ?_
  simp only [NameSet.not_mem_empty, false_or]
  exact Iff.rfl

end ProducerIndex

namespace NormalGrammar

/-- Whether the start variable derives the word, and the events of finding out
if they are traced. -/
def recognize (g : NormalGrammar) (traced : Bool) (word : List Terminal) :
    Except Fault (Bool × List Event) := do
  let table ← g.index.buildTable word
  let accepted ← table.derives g.start
  if traced then
    let cells ← table.format
    return (accepted, [.table table.length cells, .verdict accepted g.start])
  else
    return (accepted, [])

/-- The same for a word that is given item by item. -/
def recognizeItems (g : NormalGrammar) (traced : Bool) (items : List WordItem) :
    Except Fault (Bool × List Event) :=
  g.recognize traced (items.map WordItem.toTerminal)

end NormalGrammar
end ContextFree
