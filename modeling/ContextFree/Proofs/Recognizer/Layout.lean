/-
# A table can be read back from its text

The columns of a table are as wide as its widest cell, and a row number may outgrow its own
column, so that no cell stands at a place that is known beforehand. It is the blanks that
tell the cells apart, and how many there are does not matter: the pieces of a text between
blanks, the empty ones left out, are those of its parts (`pieces_append_cons`), and padding
adds none (`pieces_append_replicate`). In a row the pieces are the number, the bar and then
the cells (`pieces_rowText`). In a cell the names are the pieces between commas.

This takes names that are not empty and hold neither blank nor comma nor line break
(`Table.Legible`). A table with such names is read back by `Table.ofText`, and therefore two
of them with the same text are equal. The main statement is `format_determines_table`.
-/

import ContextFree.Proofs.Recognizer.Shape

namespace ContextFree
namespace Text

/-- The pieces of a text between separators, the empty ones left out. -/
def pieces (sep : Char) (s : List Char) : List (List Char) :=
  (s.splitOn sep).filter (· ≠ [])

variable {sep : Char}

/-- An empty text has no pieces. -/
@[simp] theorem pieces_nil : pieces sep [] = [] := rfl

/-- **The pieces of a text are those before a separator and those after it.** -/
theorem pieces_append_cons (xs ys : List Char) :
    pieces sep (xs ++ sep :: ys) = pieces sep xs ++ pieces sep ys := by
  rw [pieces, List.splitOn_append_cons_self, List.filter_append]
  rfl

/-- A text without separators is one piece. -/
theorem pieces_of_not_mem {xs : List Char} (hxs : xs ≠ []) (h : sep ∉ xs) :
    pieces sep xs = [xs] := by
  rw [pieces, List.splitOn_eq_singleton h, List.filter_cons_of_pos (by simpa using hxs)]
  rfl

/-- **Padding adds no piece.** -/
theorem pieces_append_replicate (xs : List Char) (k : Nat) :
    pieces sep (xs ++ List.replicate k sep) = pieces sep xs := by
  induction k generalizing xs with
  | zero => rw [List.replicate_zero, List.append_nil]
  | succ k ih =>
    have hrest : pieces sep (List.replicate k sep) = [] := ih []
    rw [List.replicate_succ, pieces_append_cons, hrest, List.append_nil]

/-- The pieces of joined texts are those of each. -/
theorem pieces_intercalate (xss : List (List Char)) :
    pieces sep ([sep].intercalate xss) = xss.flatMap (pieces sep) := by
  induction xss with
  | nil => rfl
  | cons xs xss ih =>
    cases xss with
    | nil => rw [List.intercalate_singleton, List.flatMap_singleton]
    | cons ys xss =>
      rw [List.intercalate_cons_cons, List.append_assoc, List.singleton_append,
        pieces_append_cons, ih]
      rfl

/-- **Joined texts of one piece each** have these pieces. -/
theorem pieces_intercalate_map {α : Type} {xs : List α} {f g : α → List Char}
    (h : ∀ x ∈ xs, pieces sep (f x) = [g x]) :
    pieces sep ([sep].intercalate (xs.map f)) = xs.map g := by
  rw [pieces_intercalate, List.flatMap_map, List.flatMap_congr h, List.map_eq_flatMap]

/-- A character that is in none of the texts is in the joined text only as the separator. -/
theorem not_mem_intercalate {x : Char} (hx : x ≠ sep) {xss : List (List Char)}
    (h : ∀ xs ∈ xss, x ∉ xs) : x ∉ [sep].intercalate xss := by
  induction xss with
  | nil => exact List.not_mem_nil
  | cons xs xss ih =>
    obtain ⟨hxs, hxss⟩ := List.forall_mem_cons.1 h
    cases xss with
    | nil => rwa [List.intercalate_singleton]
    | cons ys xss =>
      rw [List.intercalate_cons_cons, List.append_assoc, List.singleton_append, List.mem_append,
        List.mem_cons]
      rintro (hmem | hmem | hmem)
      · exact hxs hmem
      · exact hx hmem
      · exact ih hxss hmem

/-- A text is padded with blanks at its end. -/
theorem toList_padRight (width : Nat) (s : String) :
    (padRight width s).toList = s.toList ++ List.replicate (width - s.length) ' ' := by
  rw [padRight, String.toList_append, String.toList_ofList]

/-- A number is shown by digits. -/
theorem isDigit_of_mem_toString {n : Nat} {c : Char} (hc : c ∈ (toString n).toList) :
    c.isDigit := by
  rw [Nat.toString_eq_repr, Nat.toList_repr] at hc
  exact Nat.isDigit_of_mem_toDigits (by decide) (by decide) hc

/-- A number has a digit at least. -/
theorem toString_ne_nil (n : Nat) : (toString n).toList ≠ [] := by
  rw [Nat.toString_eq_repr, Nat.toList_repr]
  exact Nat.toDigits_ne_nil

end Text

open Text

/-- A name that can be told apart from what stands around it in a table. -/
structure Variable.Legible (v : Variable) : Prop where
  ne_nil : v.name.toList ≠ []
  no_blank : ' ' ∉ v.name.toList
  no_comma : ',' ∉ v.name.toList
  no_break : '\n' ∉ v.name.toList

instance (v : Variable) : Decidable v.Legible :=
  decidable_of_iff (v.name.toList ≠ [] ∧ ' ' ∉ v.name.toList ∧ ',' ∉ v.name.toList ∧
      '\n' ∉ v.name.toList)
    ⟨fun ⟨h₁, h₂, h₃, h₄⟩ => ⟨h₁, h₂, h₃, h₄⟩, fun ⟨h₁, h₂, h₃, h₄⟩ => ⟨h₁, h₂, h₃, h₄⟩⟩

namespace Table

/-- All names in the cells of a table can be told apart. -/
def Legible (t : Table) : Prop :=
  ∀ row ∈ t.rows, ∀ c ∈ row, ∀ v ∈ c.toList, Variable.Legible v

instance (t : Table) : Decidable t.Legible :=
  inferInstanceAs (Decidable (∀ row ∈ t.rows, ∀ c ∈ row, ∀ v ∈ c.toList, Variable.Legible v))

/-- Reads a cell back: the names between the commas, without the braces. -/
def readCell (s : List Char) : NameSet :=
  .ofList ((pieces ',' s.tail.dropLast).map fun name => ⟨String.ofList name⟩)

/-- Reads a row back: the cells after the number and the bar. -/
def readRow (s : List Char) : List NameSet :=
  ((pieces ' ' s).drop 2).map readCell

/-- Reads a table back from its text, line by line. -/
def ofText (s : String) : Table :=
  ⟨(s.toList.splitOn '\n').map readRow⟩

/-! ### Cells -/

variable {c : NameSet}

/-- A cell is shown as its names with commas between them, in braces. -/
theorem toList_cellText (c : NameSet) : (cellText c).toList =
    '\x7b' :: ([','].intercalate (c.toList.map fun v => v.name.toList) ++ ['\x7d']) := by
  have hopen : "\x7b".toList = ['\x7b'] := rfl
  have hclose : "\x7d".toList = ['\x7d'] := rfl
  have hcomma : ",".toList = [','] := rfl
  rw [cellText, String.toList_append, String.toList_append, String.toList_intercalate, hopen,
    hclose, hcomma, List.map_map]
  rfl

/-- **A cell is read back** from its text. -/
theorem readCell_cellText (hc : ∀ v ∈ c, Variable.Legible v) :
    readCell (cellText c).toList = c := by
  have hpieces : pieces ',' ([','].intercalate (c.toList.map fun v => v.name.toList)) =
      c.toList.map fun v => v.name.toList :=
    pieces_intercalate_map fun v hv => pieces_of_not_mem (hc v hv).ne_nil (hc v hv).no_comma
  have hnames : (fun v : Variable => (⟨String.ofList v.name.toList⟩ : Variable)) = id := by
    funext v
    rw [String.ofList_toList]
    rfl
  rw [readCell, toList_cellText, List.tail_cons, List.dropLast_concat, hpieces, List.map_map,
    Function.comp_def, hnames, List.map_id, NameSet.ofList_toList]

/-- Only a character of a name stands in a cell, but for commas and braces. -/
theorem not_mem_cellText {x : Char} (hx : x ∉ ['\x7b', ',', '\x7d'])
    (hc : ∀ v ∈ c, x ∉ v.name.toList) : x ∉ (cellText c).toList := by
  simp only [List.mem_cons, List.not_mem_nil, or_false, not_or] at hx
  obtain ⟨hopen, hcomma, hclose⟩ := hx
  have hnames : x ∉ [','].intercalate (c.toList.map fun v => v.name.toList) :=
    not_mem_intercalate hcomma (List.forall_mem_map.2 hc)
  rw [toList_cellText]
  simp [hopen, hclose, hnames]

/-! ### Rows -/

/-- A row is shown as its number, a bar and its cells, padded, with blanks between them. -/
theorem toList_rowText (width number : Nat) (cells : List String) :
    (rowText width number cells).toList = (padRight 4 (toString number)).toList ++ ' ' ::
      (['|'] ++ ' ' :: [' '].intercalate (cells.map fun s => (padRight width s).toList)) := by
  have hbar : " | ".toList = [' ', '|', ' '] := rfl
  have hblank : " ".toList = [' '] := rfl
  rw [rowText, String.toList_append, String.toList_append, String.toList_intercalate, hbar, hblank,
    List.map_map, List.append_assoc]
  rfl

/-- **The pieces of a row** are its number, the bar and its cells. -/
theorem pieces_rowText (width number : Nat) {cells : List String}
    (hcells : ∀ s ∈ cells, s.toList ≠ [] ∧ ' ' ∉ s.toList) :
    pieces ' ' (rowText width number cells).toList =
      (toString number).toList :: ['|'] :: cells.map String.toList := by
  have hnumber : pieces ' ' (padRight 4 (toString number)).toList = [(toString number).toList] := by
    rw [toList_padRight, pieces_append_replicate, pieces_of_not_mem (toString_ne_nil number)]
    intro hblank
    exact absurd (isDigit_of_mem_toString hblank) (by decide)
  have hbar : pieces ' ' ['|'] = [['|']] := rfl
  have hcell : ∀ s ∈ cells, pieces ' ' (padRight width s).toList = [s.toList] := by
    intro s hs
    obtain ⟨hne, hblank⟩ := hcells s hs
    rw [toList_padRight, pieces_append_replicate, pieces_of_not_mem hne hblank]
  rw [toList_rowText, pieces_append_cons, pieces_append_cons, pieces_intercalate_map hcell, hnumber,
    hbar]
  rfl

/-- A row stands on one line. -/
theorem not_mem_rowText (width number : Nat) {cells : List String}
    (hcells : ∀ s ∈ cells, '\n' ∉ s.toList) : '\n' ∉ (rowText width number cells).toList := by
  have hpad {k : Nat} {s : String} (hs : '\n' ∉ s.toList) : '\n' ∉ (padRight k s).toList := by
    rw [toList_padRight, List.mem_append, not_or]
    exact ⟨hs, fun hmem => absurd (List.eq_of_mem_replicate hmem) (by decide)⟩
  have hnumber : '\n' ∉ (toString number).toList := fun hmem =>
    absurd (isDigit_of_mem_toString hmem) (by decide)
  have hrest : '\n' ∉ [' '].intercalate (cells.map fun s => (padRight width s).toList) :=
    not_mem_intercalate (by decide) (List.forall_mem_map.2 fun s hs => hpad (hcells s hs))
  have hfirst : '\n' ∉ (padRight 4 (toString number)).toList := hpad hnumber
  rw [toList_rowText]
  simp only [List.mem_append, List.mem_cons, List.not_mem_nil, or_false, not_or]
  exact ⟨hfirst, by decide, by decide, by decide, hrest⟩

/-- **A row is read back** from its text, whatever its number and the width of its columns. -/
theorem readRow_rowText (width number : Nat) {row : List NameSet}
    (hrow : ∀ c ∈ row, ∀ v ∈ c, Variable.Legible v) :
    readRow (rowText width number (row.map cellText)).toList = row := by
  have hcells : ∀ s ∈ row.map cellText, s.toList ≠ [] ∧ ' ' ∉ s.toList := by
    refine List.forall_mem_map.2 fun c hc => ⟨?_, ?_⟩
    · rw [toList_cellText]
      exact List.cons_ne_nil _ _
    · exact not_mem_cellText (by decide) fun v hv => (hrow c hc v hv).no_blank
  have hread : ∀ c ∈ row, readCell (cellText c).toList = c :=
    fun c hc => readCell_cellText (hrow c hc)
  rw [readRow, pieces_rowText width number hcells, List.drop_succ_cons, List.drop_one,
    List.tail_cons, List.map_map, List.map_map]
  exact (List.map_congr_left hread).trans (List.map_id' row)

/-! ### Tables -/

/-- The rows of a table, each with its number. -/
def lines (width : Nat) (t : Table) : List String :=
  (t.rows.map (·.map cellText)).zipIdx.map fun row => rowText width (row.2 + 1) row.1

/-- A table that can be shown is shown by its lines, and it has at least one. -/
theorem exists_lines_of_format {t : Table} {text : String} (h : t.format = .ok text) :
    t.rows ≠ [] ∧ ∃ width, text = "\n".intercalate (lines width t) := by
  simp only [format] at h
  split at h
  · rename_i width hwidth
    refine ⟨fun hrows => ?_, width, (Except.ok.inj h).symm⟩
    simp [hrows] at hwidth
  · cases h

/-- **The lines of a table are read back,** each as its row. -/
theorem map_readRow_lines (width : Nat) {t : Table} (ht : t.Legible) :
    ((lines width t).map String.toList).map readRow = t.rows := by
  have hzip : (t.rows.map (·.map cellText)).zipIdx =
      t.rows.zipIdx.map fun e => (e.1.map cellText, e.2) := by
    rw [List.zipIdx_map]
    rfl
  have hread : (t.rows.zipIdx.map fun e =>
      readRow (rowText width (e.2 + 1) (e.1.map cellText)).toList) = t.rows.zipIdx.map Prod.fst :=
    List.map_congr_left fun e he =>
      readRow_rowText width (e.2 + 1) (ht e.1 (List.fst_mem_of_mem_zipIdx he))
  rw [lines, hzip]
  simp only [List.map_map, Function.comp_def, hread]
  exact List.zipIdx_map_fst 0 t.rows

/-- A line of a table has no line break. -/
theorem not_mem_lines (width : Nat) {t : Table} (ht : t.Legible) {line : String}
    (hline : line ∈ lines width t) : '\n' ∉ line.toList := by
  obtain ⟨⟨cells, i⟩, hcells, rfl⟩ := List.mem_map.1 hline
  refine not_mem_rowText width (i + 1) fun s hs => ?_
  obtain ⟨row, hrow, rfl⟩ := List.mem_map.1 (List.fst_mem_of_mem_zipIdx hcells)
  obtain ⟨c, hc, rfl⟩ := List.mem_map.1 hs
  exact not_mem_cellText (by decide) fun v hv => (ht row hrow c hc v hv).no_break

/-- **A legible table is read back** from its text. -/
theorem ofText_of_format {t : Table} (ht : t.Legible) {text : String}
    (h : t.format = .ok text) : ofText text = t := by
  obtain ⟨hrows, width, rfl⟩ := exists_lines_of_format h
  have hbreak : "\n".toList = ['\n'] := rfl
  have hsplit : ("\n".intercalate (lines width t)).toList.splitOn '\n' =
      (lines width t).map String.toList := by
    rw [String.toList_intercalate, hbreak]
    refine List.splitOn_intercalate _ (List.forall_mem_map.2 fun line => not_mem_lines width ht) ?_
    simpa [lines] using hrows
  rw [ofText, hsplit, map_readRow_lines width ht]

/-- **The text of a table determines it.** Two tables that were built, from whatever grammars
and for whatever words, are equal if their texts are, provided that all names in their cells
are legible: each of them is what its text is read back as. -/
theorem format_determines_table {ix ix' : ProducerIndex} {word word' : List Terminal} {t u : Table}
    (ht : ix.buildTable word = .ok t) (hu : ix'.buildTable word' = .ok u) (htl : t.Legible)
    (hul : u.Legible) :
    (∃ text, t.format = .ok text ∧ ofText text = t) ∧ (t.format = u.format → t = u) := by
  obtain ⟨text, htext⟩ := ProducerIndex.exists_format_of_buildTable ht
  obtain ⟨text', htext'⟩ := ProducerIndex.exists_format_of_buildTable hu
  refine ⟨⟨text, htext, ofText_of_format htl htext⟩, fun heq => ?_⟩
  calc t = ofText text' := (ofText_of_format htl (heq.trans htext')).symm
    _ = u := ofText_of_format hul htext'

/-- The index of a grammar in which `A` and `S` produce `'a'`, and nothing else is produced. -/
def sparse : ProducerIndex where
  terminals := .ofList [(⟨"a"⟩, .ofList [⟨"S"⟩, ⟨"A"⟩])]

/-- The tables for `'a' 'b'` and `'a' 'c'` have the text of two lines, in which the empty cells
are padded to the width of the other one. It is read back, and the tables are equal. -/
theorem format_determines_table_sparse : ∃ t u,
    sparse.buildTable [⟨"a"⟩, ⟨"b"⟩] = .ok t ∧ sparse.buildTable [⟨"a"⟩, ⟨"c"⟩] = .ok u ∧
    t.Legible ∧ u.Legible ∧
    (∃ text, t.format = .ok text ∧ ofText text = t ∧
      text = "1    | \x7bA,S\x7d \x7b\x7d   \n2    | \x7b\x7d   ") ∧ t = u := by
  have ht : sparse.buildTable [⟨"a"⟩, ⟨"b"⟩] = .ok ⟨[[.ofList [⟨"A"⟩, ⟨"S"⟩], ∅], [∅]]⟩ := by decide
  have hu : sparse.buildTable [⟨"a"⟩, ⟨"c"⟩] = .ok ⟨[[.ofList [⟨"A"⟩, ⟨"S"⟩], ∅], [∅]]⟩ := by decide
  have hlegible : (⟨[[.ofList [⟨"A"⟩, ⟨"S"⟩], ∅], [∅]]⟩ : Table).Legible := by decide
  have hformat : (⟨[[.ofList [⟨"A"⟩, ⟨"S"⟩], ∅], [∅]]⟩ : Table).format =
      .ok "1    | \x7bA,S\x7d \x7b\x7d   \n2    | \x7b\x7d   " := by decide
  obtain ⟨⟨text, htext, hread⟩, heq⟩ := format_determines_table ht hu hlegible hlegible
  exact ⟨_, _, ht, hu, hlegible, hlegible, ⟨text, htext, hread,
    Except.ok.inj (htext.symm.trans hformat)⟩, heq rfl⟩

end Table
end ContextFree
