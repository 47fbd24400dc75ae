/-
# Cells at positions counted from either end

A cell is read at two positions, and both may be negative. The first means a row, where span
0 is the last one. The second means a cell of that row, and since the rows get shorter, what
it means depends on the row that was found: -1 is the last start of a span of this length.

Each position is resolved by the length of its own list (`place_eq_ite`), and in triangular
rows the second list has as many cells as the first position has left it (`exists_row`). Where
both positions are in range, one after the other, the cell is that of a span which lies in the
word (`exists_cell_of_inRange`), and elsewhere there is none (`cell_of_not_inRange`). The main
statement is `cell_answers_about_span`.
-/

import ContextFree.Proofs.Recognizer.Shape

namespace ContextFree
namespace Table

/-- A position is in range in a list of this length: it means one of the entries. -/
def InRange (length position : Int) : Prop :=
  -length ≤ position ∧ position < length

instance (length position : Int) : Decidable (InRange length position) :=
  inferInstanceAs (Decidable (_ ∧ _))

/-- A position that may be counted from the end, counted from the start. -/
def fromStart (length position : Int) : Int :=
  if 0 ≤ position then position else position + length

/-- The row, counted from zero, that the length of a span means in a table for `n` symbols. -/
def rowOf (n : Nat) (span : Int) : Int :=
  fromStart n (span - 1)

/-- The start, counted from zero, that a position means in this row, which has a cell for
each start of its span. -/
def startOf (n : Nat) (span start : Int) : Int :=
  fromStart (n - rowOf n span) start

/-- In range, a position counted from the start is that of an entry. -/
theorem fromStart_mem {length position : Int} (h : InRange length position) :
    0 ≤ fromStart length position ∧ fromStart length position < length := by
  obtain ⟨hlow, hhigh⟩ := h
  unfold fromStart
  split <;> omega

/-- **A position means a place** when it is in range. -/
theorem place_eq_ite (length : Nat) (position : Int) : place length position =
    if InRange length position then some (fromStart length position).toNat else none := by
  unfold place InRange fromStart
  split_ifs <;> first | rfl | omega

/-- What stands in a list at a position in range. -/
theorem entry_of_inRange {α : Type} {xs : List α} {position : Int} {x : α}
    (h : InRange xs.length position) (hx : xs[(fromStart xs.length position).toNat]? = some x) :
    entry xs position = .ok x := by
  simp only [entry, place_eq_ite, if_pos h, Option.bind_some, hx]

/-- Nothing stands in a list at any other position. -/
theorem entry_of_not_inRange {α : Type} {xs : List α} {position : Int}
    (h : ¬ InRange xs.length position) : entry xs position = .error .outOfRange := by
  simp only [entry, place_eq_ite, if_neg h, Option.bind_none]

/-! ### Rows of a triangle -/

section

variable {n : Nat} {rows : List (List NameSet)} {span start : Int}

/-- The row that a span means has a cell for each of its starts. -/
theorem exists_row (h : Triangular n n rows) (hspan : InRange n (span - 1)) :
    ∃ row, rows[(rowOf n span).toNat]? = some row ∧ (row.length : Int) = n - rowOf n span ∧
      ∀ position, (⟨rows⟩ : Table).cell span position = entry row position := by
  obtain ⟨hlow, hhigh⟩ : 0 ≤ rowOf n span ∧ rowOf n span < n := fromStart_mem hspan
  have hlt : (rowOf n span).toNat < rows.length := by
    rw [h.length]
    omega
  obtain ⟨row, hrow⟩ : ∃ row, rows[(rowOf n span).toNat]? = some row :=
    ⟨_, List.getElem?_eq_getElem hlt⟩
  have hlength := h.length_row _ _ hrow
  refine ⟨row, hrow, by omega, fun position => ?_⟩
  rw [← h.length] at hspan hrow
  rw [cell, entry_of_inRange hspan hrow]
  rfl

/-- **There is no cell** where either position is out of range. -/
theorem cell_of_not_inRange (h : Triangular n n rows)
    (hout : ¬ (InRange n (span - 1) ∧ InRange (n - rowOf n span) start)) :
    (⟨rows⟩ : Table).cell span start = .error .outOfRange := by
  by_cases hspan : InRange n (span - 1)
  · obtain ⟨row, -, hlength, hcell⟩ := exists_row h hspan
    rw [hcell, entry_of_not_inRange]
    rw [hlength]
    exact fun hstart => hout ⟨hspan, hstart⟩
  · rw [cell, entry_of_not_inRange (by rwa [h.length])]
    rfl

/-- In range, the span lies in the word. -/
theorem span_mem (hspan : InRange n (span - 1)) (hstart : InRange (n - rowOf n span) start) :
    0 ≤ rowOf n span ∧ 0 ≤ startOf n span start ∧
      startOf n span start + (rowOf n span + 1) ≤ n := by
  obtain ⟨hrow, -⟩ : 0 ≤ rowOf n span ∧ rowOf n span < n := fromStart_mem hspan
  obtain ⟨hlow, hhigh⟩ : 0 ≤ startOf n span start ∧ startOf n span start < n - rowOf n span :=
    fromStart_mem hstart
  omega

variable {rules : RuleMap} {word : List Terminal}

/-- **The cell at two positions in range** holds the variables that derive the span meant. -/
theorem exists_cell_of_inRange (h : Triangular word.length word.length rows)
    (hfilled : Filled rules word word.length rows) (hspan : InRange word.length (span - 1))
    (hstart : InRange (word.length - rowOf word.length span) start) :
    ∃ c, (⟨rows⟩ : Table).cell span start = .ok c ∧ ∀ v, v ∈ c ↔
      rules.Derives v (spanOf word (startOf word.length span start).toNat
        (rowOf word.length span + 1).toNat) := by
  obtain ⟨hrow, hfirst, hlast⟩ := span_mem hspan hstart
  obtain ⟨row, hrows, hlength, hcell⟩ := exists_row h hspan
  obtain ⟨row', c, hrows', hc, hyields⟩ := hfilled.cells (rowOf word.length span).toNat (by omega)
    (startOf word.length span start).toNat (by omega)
  obtain rfl : row = row' := Option.some.inj (hrows.symm.trans hrows')
  have hspanLength : (rowOf word.length span).toNat + 1 = (rowOf word.length span + 1).toNat := by
    omega
  rw [hspanLength] at hyields
  refine ⟨c, ?_, fun v => (hyields v).trans RuleMap.derives_iff_yields.symm⟩
  rw [hcell]
  unfold startOf at hc
  rw [← hlength] at hstart hc
  exact entry_of_inRange hstart hc

/-- Either both positions are in range and there is a cell, or there is none. -/
theorem cell_cases (h : Triangular word.length word.length rows)
    (hfilled : Filled rules word word.length rows) (span start : Int) :
    (InRange word.length (span - 1) ∧ InRange (word.length - rowOf word.length span) start ∧
      ∃ c, (⟨rows⟩ : Table).cell span start = .ok c ∧ ∀ v, v ∈ c ↔
        rules.Derives v (spanOf word (startOf word.length span start).toNat
          (rowOf word.length span + 1).toNat)) ∨
    (¬ (InRange word.length (span - 1) ∧ InRange (word.length - rowOf word.length span) start) ∧
      (⟨rows⟩ : Table).cell span start = .error .outOfRange) := by
  by_cases hrange : InRange word.length (span - 1) ∧
    InRange (word.length - rowOf word.length span) start
  · exact .inl ⟨hrange.1, hrange.2, exists_cell_of_inRange h hfilled hrange.1 hrange.2⟩
  · exact .inr ⟨hrange, cell_of_not_inRange h hrange⟩

/-- **Span 0 is the whole word:** both mean the last row. -/
theorem cell_zero (h : Triangular n n rows) (hn : 0 < n) (start : Int) :
    (⟨rows⟩ : Table).cell 0 start = (⟨rows⟩ : Table).cell n start := by
  have hzero : InRange n ((0 : Int) - 1) := by
    unfold InRange
    omega
  have hwhole : InRange n ((n : Int) - 1) := by
    unfold InRange
    omega
  have hlast : rowOf n 0 = rowOf n n := by
    unfold rowOf fromStart
    split_ifs <;> omega
  obtain ⟨row, hrow, -, hcell⟩ := exists_row h hzero
  obtain ⟨row', hrow', -, hcell'⟩ := exists_row h hwhole
  rw [hlast] at hrow
  obtain rfl : row = row' := Option.some.inj (hrow.symm.trans hrow')
  rw [hcell, hcell']

/-- **Start -1 is the end of the word:** the last symbols, as many as the span has. -/
theorem exists_cell_suffix (h : Triangular word.length word.length rows)
    (hfilled : Filled rules word word.length rows) {span : Nat} (hpos : 0 < span)
    (hle : span ≤ word.length) : ∃ c, (⟨rows⟩ : Table).cell span (-1) = .ok c ∧
      ∀ v, v ∈ c ↔ rules.Derives v (word.drop (word.length - span)) := by
  have hrow : rowOf word.length span = span - 1 := if_pos (by omega)
  have hstart : startOf word.length span (-1) = word.length - span := by
    unfold startOf fromStart
    rw [hrow, if_neg (by omega)]
    omega
  have hrange : InRange word.length ((span : Int) - 1) := by
    unfold InRange
    omega
  have hrange' : InRange (word.length - rowOf word.length span) (-1) := by
    unfold InRange
    omega
  obtain ⟨c, hc, hderives⟩ := exists_cell_of_inRange h hfilled hrange hrange'
  have hfirst : (startOf word.length span (-1)).toNat = word.length - span := by omega
  have hlength : (rowOf word.length span + 1).toNat = span := by omega
  have hsuffix : spanOf word (word.length - span) span = word.drop (word.length - span) :=
    List.take_of_length_le (by rw [List.length_drop]; omega)
  rw [hfirst, hlength, hsuffix] at hderives
  exact ⟨c, hc, hderives⟩

end

end Table

namespace NormalGrammar

open Table

/-- **A cell answers about a span of the word,** whatever the two positions are. There is one
exactly when the span less one is in range among the rows and then the start among the cells
of that row; any other position is out of range. The cell holds the variables that derive the
symbols meant, which lie in the word. So span 0 means what the length of the word does, and
start -1 the last symbols of the word, as many as the span has. -/
theorem cell_answers_about_span {start : Variable} {rules : RuleMap} {g : NormalGrammar}
    (hg : ofRules start rules = .ok g) {word : List Terminal} {t : Table}
    (ht : g.index.buildTable word = .ok t) :
    (∀ span p : Int, (∃ c, t.cell span p = .ok c) ↔ InRange word.length (span - 1) ∧
      InRange (word.length - rowOf word.length span) p) ∧
    (∀ (span p : Int) (c : NameSet), t.cell span p = .ok c → 0 ≤ rowOf word.length span ∧
      0 ≤ startOf word.length span p ∧
      startOf word.length span p + (rowOf word.length span + 1) ≤ word.length ∧
      ∀ v, v ∈ c ↔ rules.Derives v (spanOf word (startOf word.length span p).toNat
        (rowOf word.length span + 1).toNat)) ∧
    (∀ (span p : Int) (f : Fault), t.cell span p = .error f → f = .outOfRange) ∧
    (∀ p : Int, t.cell 0 p = t.cell word.length p) ∧
    (∀ span : Nat, 0 < span → span ≤ word.length → ∃ c, t.cell span (-1) = .ok c ∧
      ∀ v, v ∈ c ↔ rules.Derives v (word.drop (word.length - span))) := by
  obtain ⟨ix, hix, rfl⟩ := exists_index hg
  obtain ⟨hpos, -⟩ := ProducerIndex.triangular_of_buildTable ht
  obtain ⟨rows, htable, hfilled, hshape⟩ :=
    ProducerIndex.exists_triangular_buildTable hix (List.length_pos_iff.1 hpos)
  obtain rfl : t = ⟨rows⟩ := Except.ok.inj (ht.symm.trans htable)
  refine ⟨fun span p => ?_, fun span p c hc => ?_, fun span p f hf => ?_, fun p => ?_,
    fun span hspan hle => ?_⟩
  · rcases cell_cases hshape hfilled span p with ⟨hspan, hp, c, hc, -⟩ | ⟨hout, herror⟩
    · exact ⟨fun _ => ⟨hspan, hp⟩, fun _ => ⟨c, hc⟩⟩
    · refine ⟨fun ⟨c, hc⟩ => ?_, fun hrange => absurd hrange hout⟩
      rw [herror] at hc
      cases hc
  · rcases cell_cases hshape hfilled span p with ⟨hspan, hp, c', hc', hderives⟩ | ⟨-, herror⟩
    · obtain rfl := Except.ok.inj (hc.symm.trans hc')
      obtain ⟨hrow, hfirst, hlast⟩ := span_mem hspan hp
      exact ⟨hrow, hfirst, hlast, hderives⟩
    · rw [herror] at hc
      cases hc
  · rcases cell_cases hshape hfilled span p with ⟨-, -, c, hc, -⟩ | ⟨-, herror⟩
    · rw [hc] at hf
      cases hf
    · exact Except.error.inj (hf.symm.trans herror)
  · exact cell_zero hshape hpos p
  · exact exists_cell_suffix hshape hfilled hspan hle

/-- In the table of `S -> S S | 'a'` for three symbols, span -1 and start -2 mean the first two
symbols, the only start for span 0 is that of the whole word, and the last two symbols stand
at start -1. The row for span 3 has no second cell. -/
theorem cell_answers_about_span_ambiguous : ∃ g t, ofRules ⟨"S"⟩ ambiguous = .ok g ∧
    g.index.buildTable [⟨"a"⟩, ⟨"a"⟩, ⟨"a"⟩] = .ok t ∧
    (∃ c, t.cell (-1) (-2) = .ok c ∧ ∀ v, v ∈ c ↔ ambiguous.Derives v [⟨"a"⟩, ⟨"a"⟩]) ∧
    (¬ ∃ c, t.cell 3 1 = .ok c) ∧ t.cell 0 0 = t.cell 3 0 ∧
    ∃ c, t.cell 2 (-1) = .ok c ∧ ∀ v, v ∈ c ↔ ambiguous.Derives v [⟨"a"⟩, ⟨"a"⟩] := by
  obtain ⟨g, hg⟩ := exists_ofRules_ambiguous
  obtain ⟨ix, hix, rfl⟩ := exists_index hg
  have hword : ([⟨"a"⟩, ⟨"a"⟩, ⟨"a"⟩] : List Terminal) ≠ [] := by decide
  obtain ⟨rows, ht, -⟩ := ProducerIndex.exists_buildTable hix hword
  obtain ⟨hiff, hcell, -, hwhole, hsuffix⟩ := cell_answers_about_span hg ht
  obtain ⟨c, hc⟩ := (hiff (-1) (-2)).2 (by decide)
  obtain ⟨-, -, -, hderives⟩ := hcell _ _ c hc
  refine ⟨_, ⟨rows⟩, hg, ht, ⟨c, hc, hderives⟩, fun hsome => ?_, hwhole 0,
    hsuffix 2 (by decide) (by decide)⟩
  exact absurd ((hiff 3 1).1 hsome) (by decide)

end NormalGrammar
end ContextFree
