/-
# The shape of a table, and where it is read while it is filled

Row `i` of a table for `n` symbols has `n - i` cells. While the table is filled, the
loops come to a span, a start and a split (`Visits`), and there they read two cells of
the rows that are finished: one for the part of the span before the split, one for the
part after it. Row and start of a cell are found by subtraction, and they might be
negative, name a row that is not finished yet, or lie behind the end of a row.

The rows that are finished when the loop comes to a span are triangular
(`triangular_of_rowsBefore`), and triangular rows have every cell that the loops read
(`Triangular.inside`). The main statement is `buildTable_stays_inside`.
-/

import ContextFree.Proofs.Recognizer.Cells

namespace ContextFree

/-- The rows for the spans of up to `k` symbols in a word of `n` symbols have a cell for
each start. -/
structure Triangular (n k : Nat) (rows : List (List NameSet)) : Prop where
  length : rows.length = k
  length_row : ∀ i row, rows[i]? = some row → row.length = n - i

/-- A row and a start, both counted from zero, are those of a cell: neither is negative,
the row is there, and the start lies inside it. -/
structure Inside (rows : List (List NameSet)) (row start : Int) : Prop where
  row_nonneg : 0 ≤ row
  row_lt : row < rows.length
  start_nonneg : 0 ≤ start
  start_lt : ∀ cells, rows[row.toNat]? = some cells → start < cells.length

/-- The loops over a word of `n` symbols come to this split of the span of this length
from this start. -/
structure Visits (n span start split : Nat) : Prop where
  span_mem : span ∈ List.range' 2 (n - 1)
  start_mem : start ∈ List.range (n - span + 1)
  split_mem : split ∈ List.range' 1 (span - 1)

/-- The span lies in the word, and the split leaves something on both sides of it. -/
theorem Visits.bounds {n span start split : Nat} (h : Visits n span start split) :
    start + span ≤ n ∧ 1 ≤ split ∧ split < span := by
  have hspan := List.mem_range'_1.1 h.span_mem
  have hstart := List.mem_range.1 h.start_mem
  have hsplit := List.mem_range'_1.1 h.split_mem
  omega

namespace Triangular

variable {n k : Nat} {rows : List (List NameSet)}

/-- One more row is the next if it has a cell for each start. -/
theorem concat (h : Triangular n k rows) {row : List NameSet} (hrow : row.length = n - k) :
    Triangular n (k + 1) (rows ++ [row]) where
  length := by rw [List.length_append, h.length, List.length_singleton]
  length_row := by
    intro i cells hcells
    rcases Nat.lt_or_ge i k with hi | hi
    · rw [List.getElem?_append_left (by rw [h.length]; exact hi)] at hcells
      exact h.length_row i cells hcells
    · rw [List.getElem?_append_right (by rw [h.length]; exact hi), h.length] at hcells
      obtain ⟨hlt, hcells⟩ := List.getElem?_eq_some_iff.1 hcells
      rw [List.length_singleton] at hlt
      obtain rfl : i = k := by omega
      rw [← hcells]
      simpa using hrow

/-- **A cell is where its span lies in the word.** -/
theorem inside (h : Triangular n k rows) {i p : Nat} (hi : i < k) (hp : p + i < n) :
    Inside rows i p where
  row_nonneg := Int.natCast_nonneg i
  row_lt := by
    rw [h.length]
    exact Int.ofNat_lt.2 hi
  start_nonneg := Int.natCast_nonneg p
  start_lt := by
    intro cells hcells
    have hlength := h.length_row i cells hcells
    omega

end Triangular

/-- **A cell that is inside is read there,** and it is also the one that is found when
positions may be counted from the end. -/
theorem Inside.exists_finished {rows : List (List NameSet)} {i p : Nat} (h : Inside rows i p) :
    ∃ c, ProducerIndex.finished rows i p = .ok c ∧
      (⟨rows⟩ : Table).cell (i + 1 : Nat) p = .ok c := by
  have hi : i < rows.length := Int.ofNat_lt.1 h.row_lt
  have hrow : rows[i]? = some rows[i] := List.getElem?_eq_getElem hi
  have hp : p < rows[i].length := Int.ofNat_lt.1 (h.start_lt rows[i] hrow)
  have hcell : rows[i][p]? = some rows[i][p] := List.getElem?_eq_getElem hp
  refine ⟨rows[i][p], ?_, ?_⟩
  · simp only [ProducerIndex.finished, hrow, Option.bind_some, hcell]
  · have hposition : ((i + 1 : Nat) : Int) - 1 = i := by omega
    rw [Table.cell, hposition, Table.entry_of_place hrow (.inl rfl)]
    exact Table.entry_of_place hcell (.inl rfl)

/-- What is read for the part of a span before a split and for the part after it: cells
that are inside of the finished rows, at places that are not negative, so that both reads
succeed and find what they would find if positions could be counted from the end. -/
structure ReadsInside (rows : List (List NameSet)) (span start split : Nat)
    (left right : NameSet) : Prop where
  left_inside : Inside rows ((split : Int) - 1) start
  left_read : ProducerIndex.finished rows (split - 1) start = .ok left
  left_cell : (⟨rows⟩ : Table).cell split start = .ok left
  right_inside : Inside rows ((span : Int) - split - 1) ((start : Int) + split)
  right_read : ProducerIndex.finished rows (span - split - 1) (start + split) = .ok right
  right_cell : (⟨rows⟩ : Table).cell ((span : Int) - split) ((start : Int) + split) = .ok right

/-- **Both cells of a split are inside** of the rows of all shorter spans. -/
theorem Triangular.exists_readsInside {n span start split : Nat} {rows : List (List NameSet)}
    (h : Triangular n (span - 1) rows) (hend : start + span ≤ n) (hsplit : 1 ≤ split)
    (hsplit' : split < span) : ∃ left right, ReadsInside rows span start split left right := by
  have hleft := h.inside (i := split - 1) (p := start) (by omega) (by omega)
  have hright := h.inside (i := span - split - 1) (p := start + split) (by omega) (by omega)
  obtain ⟨left, hl, hl'⟩ := hleft.exists_finished
  obtain ⟨right, hr, hr'⟩ := hright.exists_finished
  -- the subtractions are not cut off, so that they are the same over the integers
  have hrowl : ((split - 1 : Nat) : Int) = (split : Int) - 1 := by omega
  have hspanl : split - 1 + 1 = split := by omega
  have hrowr : ((span - split - 1 : Nat) : Int) = (span : Int) - split - 1 := by omega
  have hspanr : ((span - split - 1 + 1 : Nat) : Int) = (span : Int) - split := by omega
  have hstart : ((start + split : Nat) : Int) = (start : Int) + split := by omega
  refine ⟨left, right, hrowl ▸ hleft, hl, hspanl ▸ hl', ?_, hr, ?_⟩
  · rwa [hrowr, hstart] at hright
  · rwa [hspanr, hstart] at hr'

namespace ProducerIndex

variable {ix : ProducerIndex} {word : List Terminal} {rows : List (List NameSet)} {span : Nat}

/-- A row has a cell for each start of its span. -/
theorem length_spanRow {n : Nat} {row : List NameSet} (h : ix.spanRow n rows span = .ok row) :
    row.length = n - span + 1 := by
  have hlength := (forall₂_of_mapM h).length_eq
  rwa [List.length_range, eq_comm] at hlength

/-- **The rows that are finished are triangular.** -/
theorem triangular_of_rowsBefore (hspan : 2 ≤ span) (hword : span ≤ word.length + 1)
    (h : ix.rowsBefore word span = .ok rows) : Triangular word.length (span - 1) rows := by
  induction hspan generalizing rows with
  | refl =>
    cases h
    refine ⟨rfl, fun i row hrow => ?_⟩
    obtain ⟨hi, rfl⟩ := List.getElem?_eq_some_iff.1 hrow
    obtain rfl : i = 0 := Nat.lt_one_iff.1 hi
    exact List.length_map ..
  | @step span hspan ih =>
    have hspan2 : 2 ≤ span := hspan
    obtain ⟨before, row, hbefore, hrow, rfl⟩ := (rowsBefore_succ_eq_ok_iff hspan2).1 h
    have htriangular := ih (by omega) hbefore
    have hlength : row.length = word.length - (span - 1) := by
      rw [length_spanRow hrow]
      omega
    have hnext : span - 1 + 1 = span + 1 - 1 := by omega
    exact hnext ▸ htriangular.concat hlength

/-- **Rows that are finished stay:** what is finished before a span are the first rows of
what is finished later. -/
theorem rowsBefore_eq_take {m : Nat} (hspan : 2 ≤ span) (hm : span ≤ m)
    (hword : m ≤ word.length + 1) (h : ix.rowsBefore word m = .ok rows) :
    ix.rowsBefore word span = .ok (rows.take (span - 1)) := by
  induction hm generalizing rows with
  | refl =>
    have hlength := (triangular_of_rowsBefore hspan hword h).length
    rw [h, List.take_of_length_le (by omega)]
  | @step m hm ih =>
    have hle : span ≤ m := hm
    have hm2 : 2 ≤ m := Nat.le_trans hspan hle
    obtain ⟨before, row, hbefore, -, rfl⟩ := (rowsBefore_succ_eq_ok_iff hm2).1 h
    have hlength := (triangular_of_rowsBefore hm2 (by omega) hbefore).length
    rw [ih (by omega) hbefore, List.take_append_of_le_length (by omega)]

/-- A table that was built is that of a word with symbols, and its rows are triangular. -/
theorem triangular_of_buildTable {t : Table} (h : ix.buildTable word = .ok t) :
    0 < word.length ∧ Triangular word.length word.length t.rows := by
  have hword : word ≠ [] := by
    rintro rfl
    cases h
  have hpos : 0 < word.length := List.length_pos_iff.2 hword
  have hrows := (buildTable_eq_ok_iff hword).1 h
  exact ⟨hpos, triangular_of_rowsBefore (by omega) (Nat.le_refl _) hrows⟩

/-- **A table that was built can be shown,** because it has a cell. -/
theorem exists_format_of_buildTable {t : Table} (h : ix.buildTable word = .ok t) :
    ∃ text, t.format = .ok text := by
  obtain ⟨hpos, hshape⟩ := triangular_of_buildTable h
  have hrows : 0 < t.rows.length := by rw [hshape.length]; exact hpos
  have hrow : t.rows[0]? = some t.rows[0] := List.getElem?_eq_getElem hrows
  have hcells : 0 < t.rows[0].length := by rw [hshape.length_row 0 _ hrow]; exact hpos
  exact Table.exists_format hrow (List.getElem?_eq_getElem hcells)

/-- **A word that is not empty has a table,** whose rows are triangular and hold in each
cell the variables that yield its span. -/
theorem exists_triangular_buildTable {rules : RuleMap} (hix : ofRules rules = .ok ix)
    (hword : word ≠ []) : ∃ rows, ix.buildTable word = .ok ⟨rows⟩ ∧
      Filled rules word word.length rows ∧ Triangular word.length word.length rows := by
  obtain ⟨rows, htable, hfilled⟩ := exists_buildTable hix hword
  exact ⟨rows, htable, hfilled, (triangular_of_buildTable htable).2⟩

/-- Only the empty word has no table. -/
theorem buildTable_eq_error_iff {rules : RuleMap} (hix : ofRules rules = .ok ix) {f : Fault} :
    ix.buildTable word = .error f ↔ word = [] ∧ f = .emptyWord := by
  constructor
  · intro h
    by_cases hword : word = []
    · subst hword
      cases h
      exact ⟨rfl, rfl⟩
    · obtain ⟨rows, htable, -⟩ := exists_triangular_buildTable hix hword
      rw [htable] at h
      cases h
  · rintro ⟨rfl, rfl⟩
    rfl

end ProducerIndex

namespace NormalGrammar

/-- **Filling a table stays inside of it.** In a grammar that was accepted, a word of `n`
symbols has a table with `n` rows, the `i`-th of which has `n - i` cells, and only the
empty word has none. Wherever the loops come to, the rows that are finished are those of
the shorter spans, and both cells that are read there lie inside of these rows. -/
theorem buildTable_stays_inside {start : Variable} {rules : RuleMap} {g : NormalGrammar}
    (hg : ofRules start rules = .ok g) (word : List Terminal) :
    (∀ f, g.index.buildTable word = .error f ↔ word = [] ∧ f = .emptyWord) ∧
    (word ≠ [] → ∃ t, g.index.buildTable word = .ok t ∧ t.rows.length = word.length ∧
      (∀ i row, t.rows[i]? = some row → row.length = word.length - i) ∧
      ∀ span start split, Visits word.length span start split →
        g.index.rowsBefore word span = .ok (t.rows.take (span - 1)) ∧
        ∃ left right, ReadsInside (t.rows.take (span - 1)) span start split left right) := by
  obtain ⟨ix, hix, rfl⟩ := exists_index hg
  refine ⟨fun f => ProducerIndex.buildTable_eq_error_iff hix, fun hword => ?_⟩
  obtain ⟨rows, htable, -, htriangular⟩ := ProducerIndex.exists_triangular_buildTable hix hword
  have hrows := (ProducerIndex.buildTable_eq_ok_iff hword).1 htable
  refine ⟨⟨rows⟩, htable, htriangular.length, htriangular.length_row, fun span start split h => ?_⟩
  obtain ⟨hend, hsplit, hsplit'⟩ := h.bounds
  have hspan : 2 ≤ span := by omega
  have hlast : span ≤ word.length + 1 := by omega
  have hbefore := ProducerIndex.rowsBefore_eq_take hspan hlast (Nat.le_refl _) hrows
  have hfinished := ProducerIndex.triangular_of_rowsBefore hspan hlast hbefore
  exact ⟨hbefore, hfinished.exists_readsInside hend hsplit hsplit'⟩

/-- In the table of `S -> S S | 'a'` for three symbols, the last split of the whole word
reads the cell of two symbols from the start and that of the last symbol. -/
theorem buildTable_stays_inside_ambiguous : ∃ g t, ofRules ⟨"S"⟩ ambiguous = .ok g ∧
    g.index.buildTable [⟨"a"⟩, ⟨"a"⟩, ⟨"a"⟩] = .ok t ∧ t.rows.length = 3 ∧
    (∀ i row, t.rows[i]? = some row → row.length = 3 - i) ∧
    g.index.rowsBefore [⟨"a"⟩, ⟨"a"⟩, ⟨"a"⟩] 3 = .ok (t.rows.take 2) ∧
    ∃ left right, ReadsInside (t.rows.take 2) 3 0 2 left right := by
  obtain ⟨g, hg⟩ := exists_ofRules_ambiguous
  have hvisits : Visits 3 3 0 2 := ⟨by decide, by decide, by decide⟩
  obtain ⟨-, htable⟩ := buildTable_stays_inside hg [⟨"a"⟩, ⟨"a"⟩, ⟨"a"⟩]
  obtain ⟨t, ht, hlength, hrows, hreads⟩ := htable (by decide)
  exact ⟨g, t, hg, ht, hlength, hrows, hreads 3 0 2 hvisits⟩

end NormalGrammar
end ContextFree
