/-
# What the cells of a table hold

A table is filled row by row, and a row from the rows before it. `Filled` says
what the rows that are finished hold: the cell of a span has the variables that
yield the symbols of the span. A span of several symbols is split into two
shorter ones, whose cells are finished (`exists_spanCell`), so that a row goes on
from the rows of all shorter spans (`exists_spanRow`). `rowsBefore` is what the loop
over the spans has finished when it comes to a span; what it finishes last is the whole
table (`exists_buildTable`). The last row answers for the whole word, so that
`exists_recognize` holds for any start that a grammar has.

The main statement is `recognizes_iff_derives`: in the table for a word that is
not empty, every cell can be read and holds the variables that derive its span,
and the word is accepted exactly when the start variable derives it.
-/

import ContextFree.Proofs.Recognizer.Index
import ContextFree.Proofs.Recognizer.Yields
import ContextFree.Recognizer.Recognition

namespace ContextFree

/-! ### Spans of a word -/

/-- The symbols of a word in the span of this length from this start. -/
def spanOf (word : List Terminal) (start span : Nat) : List Terminal :=
  (word.drop start).take span

/-- A span that ends within the word is as long as it says. -/
theorem length_spanOf {word : List Terminal} {start span : Nat} (h : start + span ≤ word.length) :
    (spanOf word start span).length = span := by
  rw [spanOf, List.length_take, List.length_drop]
  omega

/-- The beginning of a span is a span from the same start. -/
theorem take_spanOf {word : List Terminal} {start span k : Nat} (hk : k ≤ span) :
    (spanOf word start span).take k = spanOf word start k := by
  rw [spanOf, List.take_take, Nat.min_eq_left hk]
  rfl

/-- The end of a span is a span from a later start. -/
theorem drop_spanOf (word : List Terminal) (start span k : Nat) :
    (spanOf word start span).drop k = spanOf word (start + k) (span - k) := by
  rw [spanOf, List.drop_take, List.drop_drop]
  rfl

/-- A span of length one is the symbol that stands there. -/
theorem spanOf_one {word : List Terminal} {start : Nat} (h : start < word.length) :
    spanOf word start 1 = [word[start]] := by
  rw [spanOf, List.drop_eq_getElem_cons h]
  rfl

/-- The longest span is the word. -/
theorem spanOf_all (word : List Terminal) : spanOf word 0 word.length = word :=
  List.take_length

namespace RuleMap

/-- The variable has a rule whose two variables yield the parts of a span that is
split after `k` symbols. -/
def Splits (rules : RuleMap) (word : List Terminal) (start span k : Nat) (v : Variable) : Prop :=
  ∃ a b, rules.HasRule v (.pair a b) ∧
    rules.Yields a (spanOf word start k) ∧ rules.Yields b (spanOf word (start + k) (span - k))

/-- **A span of several symbols** is yielded by the variables that split it somewhere. -/
theorem yields_spanOf_iff {rules : RuleMap} {word : List Terminal} {start span : Nat}
    (hspan : 2 ≤ span) (hword : start + span ≤ word.length) {v : Variable} :
    rules.Yields v (spanOf word start span) ↔
      ∃ k, 0 < k ∧ k < span ∧ rules.Splits word start span k v := by
  have hlength := length_spanOf hword
  rw [yields_iff_split (by omega), hlength]
  refine exists_congr fun k => and_congr_right fun _ => and_congr_right fun hk => ?_
  rw [take_spanOf (Nat.le_of_lt hk), drop_spanOf, Splits]

end RuleMap

/-! ### Rows -/

/-- A cell holds the variables that yield this word. -/
def NameSet.HoldsYields (rules : RuleMap) (word : List Terminal) (c : NameSet) : Prop :=
  ∀ v, v ∈ c ↔ rules.Yields v word

/-- The first `m` rows of the table for a word are finished: row `i` holds a cell
for each start of a span of `i + 1` symbols. -/
structure Filled (rules : RuleMap) (word : List Terminal) (m : Nat) (rows : List (List NameSet)) :
    Prop where
  length : rows.length = m
  cells : ∀ i < m, ∀ p, p + i < word.length → ∃ row c, rows[i]? = some row ∧ row[p]? = some c ∧
    c.HoldsYields rules (spanOf word p (i + 1))

namespace ProducerIndex

variable {rules : RuleMap} {ix : ProducerIndex} {word : List Terminal} {m : Nat}
  {rows : List (List NameSet)}

/-- A finished cell can be read. -/
theorem exists_finished (h : Filled rules word m rows) {i p : Nat} (hi : i < m)
    (hp : p + i < word.length) :
    ∃ c, finished rows i p = .ok c ∧ c.HoldsYields rules (spanOf word p (i + 1)) := by
  obtain ⟨row, c, hrow, hc, hyields⟩ := h.cells i hi p hp
  refine ⟨c, ?_, hyields⟩
  simp only [finished, hrow, Option.bind_some, hc]

/-- Two cells are combined to the variables with a rule for a variable of each. -/
theorem mem_combine_iff (hix : ofRules rules = .ok ix) {left right : NameSet}
    {u w : List Terminal} (hl : left.HoldsYields rules u) (hr : right.HoldsYields rules w)
    {v : Variable} : v ∈ ix.combine left right ↔
      ∃ a b, rules.HasRule v (.pair a b) ∧ rules.Yields a u ∧ rules.Yields b w := by
  rw [mem_combine]
  constructor
  · rintro ⟨a, ha, b, hb, hv⟩
    exact ⟨a, b, (ofPair_ofRules hix).1 hv, (hl a).1 ha, (hr b).1 hb⟩
  · rintro ⟨a, b, hv, ha, hb⟩
    exact ⟨a, (hl a).2 ha, b, (hr b).2 hb, (ofPair_ofRules hix).2 hv⟩

/-- A cell holds what splits a span after at most `j` symbols. -/
def HoldsSplits (rules : RuleMap) (word : List Terminal) (start span j : Nat) (c : NameSet) : Prop :=
  ∀ v, v ∈ c ↔ ∃ k, 0 < k ∧ k ≤ j ∧ rules.Splits word start span k v

/-- Before the first split nothing is held. -/
theorem holdsSplits_zero (start span : Nat) : HoldsSplits rules word start span 0 ∅ := by
  intro v
  constructor
  · exact fun hv => absurd hv (NameSet.not_mem_empty v)
  · rintro ⟨k, hk, hk0, -⟩
    omega

/-- Splitting after one more symbol adds what the two cells combine to. -/
theorem HoldsSplits.union_combine (hix : ofRules rules = .ok ix) {start span j : Nat}
    {c left right : NameSet} (h : HoldsSplits rules word start span j c)
    (hl : left.HoldsYields rules (spanOf word start (1 + j)))
    (hr : right.HoldsYields rules (spanOf word (start + (1 + j)) (span - (1 + j)))) :
    HoldsSplits rules word start span (j + 1) (c ∪ ix.combine left right) := by
  intro v
  rw [NameSet.mem_union, h v, mem_combine_iff hix hl hr]
  constructor
  · rintro (⟨k, hk, hkj, hs⟩ | hs)
    · exact ⟨k, hk, by omega, hs⟩
    · exact ⟨1 + j, by omega, by omega, hs⟩
  · rintro ⟨k, hk, hkj, hs⟩
    rcases Nat.lt_or_eq_of_le hkj with hkj | rfl
    · exact .inl ⟨k, hk, by omega, hs⟩
    · rw [Nat.add_comm j 1] at hs
      exact .inr hs

/-- **The cell of a span** is read off the rows of all shorter spans. -/
theorem exists_spanCell (hix : ofRules rules = .ok ix) {span p : Nat} (hspan : 2 ≤ span)
    (h : Filled rules word (span - 1) rows) (hp : p + span ≤ word.length) :
    ∃ c, ix.spanCell rows span p = .ok c ∧ c.HoldsYields rules (spanOf word p span) := by
  have hcell : ∃ c, ix.spanCell rows span p = .ok c ∧
      HoldsSplits rules word p span (span - 1) c := by
    refine exists_foldlM_range' (holdsSplits_zero p span) fun j hj c hc => ?_
    have hlast : p + (1 + j) + (span - (1 + j) - 1) < word.length := by omega
    obtain ⟨left, hleft, hl⟩ := exists_finished h hj (by omega : p + j < word.length)
    obtain ⟨right, hright, hr⟩ := exists_finished h (by omega) hlast
    rw [Nat.add_comm j 1] at hl
    rw [Nat.sub_add_cancel (by omega)] at hr
    refine ⟨c ∪ ix.combine left right, ?_, hc.union_combine hix hl hr⟩
    rw [Nat.add_sub_cancel_left, hleft, hright]
    rfl
  obtain ⟨c, hc, hsplits⟩ := hcell
  refine ⟨c, hc, fun v => ?_⟩
  rw [hsplits v, RuleMap.yields_spanOf_iff hspan hp]
  refine exists_congr fun k => and_congr_right fun _ => and_congr_left fun _ => ?_
  omega

/-- **The next row** goes on from the rows before it. -/
theorem exists_spanRow (hix : ofRules rules = .ok ix) {span : Nat} (hspan : 2 ≤ span)
    (hword : span ≤ word.length) (h : Filled rules word (span - 1) rows) :
    ∃ row, ix.spanRow word.length rows span = .ok row ∧
      Filled rules word span (rows ++ [row]) := by
  have hcell : ∀ p ∈ List.range (word.length - span + 1), ∃ c,
      ix.spanCell rows span p = .ok c ∧ c.HoldsYields rules (spanOf word p span) := by
    intro p hp
    rw [List.mem_range] at hp
    exact exists_spanCell hix hspan h (by omega)
  obtain ⟨row, hrow, hcells⟩ := exists_mapM hcell
  refine ⟨row, hrow, ?_, fun i hi p hp => ?_⟩
  · rw [List.length_append, h.length, List.length_singleton]
    omega
  · rcases Nat.lt_or_eq_of_le (Nat.le_sub_one_of_lt hi) with hi' | rfl
    · obtain ⟨old, c, hold, hc, hyields⟩ := h.cells i hi' p hp
      refine ⟨old, c, ?_, hc, hyields⟩
      rw [List.getElem?_append_left (by rw [h.length]; exact hi'), hold]
    · have hlength := hcells.length_eq
      rw [List.length_range] at hlength
      have hp' : p < row.length := by omega
      refine ⟨row, row[p], ?_, List.getElem?_eq_getElem hp', ?_⟩
      · rw [← h.length, List.getElem?_append_right (Nat.le_refl _), Nat.sub_self]
        rfl
      · have hyields := hcells.get (by rw [List.length_range]; omega) hp'
        rw [Nat.sub_add_cancel (by omega)]
        simpa using hyields

/-- The first row is the one of single symbols. -/
theorem filled_one (hix : ofRules rules = .ok ix) :
    Filled rules word 1 [word.map ix.ofTerminal] where
  length := rfl
  cells := by
    intro i hi p hp
    obtain rfl : i = 0 := by omega
    have hp' : p < word.length := by omega
    refine ⟨_, ix.ofTerminal word[p], rfl, ?_, fun v => ?_⟩
    · rw [List.getElem?_map, List.getElem?_eq_getElem hp']
      rfl
    · rw [spanOf_one hp', RuleMap.yields_singleton_iff, ofTerminal_ofRules hix]

/-! ### Row by row -/

variable {span : Nat}

/-- The rows that are finished when the spans of this length come up. -/
def rowsBefore (ix : ProducerIndex) (word : List Terminal) (span : Nat) :
    Except Fault (List (List NameSet)) :=
  (List.range' 2 (span - 2)).foldlM (fun rows span => do
    let row ← ix.spanRow word.length rows span
    return rows ++ [row]) [word.map ix.ofTerminal]

/-- A table has the rows that are finished after the longest span. -/
theorem buildTable_eq_ok_iff (hword : word ≠ []) :
    ix.buildTable word = .ok ⟨rows⟩ ↔ ix.rowsBefore word (word.length + 1) = .ok rows := by
  unfold buildTable
  rw [if_neg (by simpa using hword), bind_eq_ok_iff]
  constructor
  · rintro ⟨finished, hfinished, ⟨⟩⟩
    exact hfinished
  · exact fun h => ⟨rows, h, rfl⟩

/-- The longer spans come up one row later. -/
theorem rowsBefore_succ_eq_ok_iff (hspan : 2 ≤ span) {rows' : List (List NameSet)} :
    ix.rowsBefore word (span + 1) = .ok rows' ↔ ∃ rows row, ix.rowsBefore word span = .ok rows ∧
      ix.spanRow word.length rows span = .ok row ∧ rows ++ [row] = rows' := by
  have hcount : span + 1 - 2 = span - 2 + 1 := by omega
  have hlast : 2 + 1 * (span - 2) = span := by omega
  rw [rowsBefore, hcount, List.range'_concat, hlast, List.foldlM_append, bind_eq_ok_iff]
  refine exists_congr fun rows => ?_
  rw [← rowsBefore, List.foldlM_cons]
  constructor
  · rintro ⟨hrows, h⟩
    obtain ⟨next, hnext, ⟨⟩⟩ := bind_eq_ok_iff.1 h
    obtain ⟨row, hrow, ⟨⟩⟩ := bind_eq_ok_iff.1 hnext
    exact ⟨row, hrows, hrow, rfl⟩
  · rintro ⟨row, hrows, hrow, rfl⟩
    exact ⟨hrows, by rw [hrow]; rfl⟩

/-- Going on row by row from the first one finishes the rows of all shorter spans. -/
theorem exists_rowsBefore (hix : ofRules rules = .ok ix) (hspan : 2 ≤ span)
    (hword : span ≤ word.length + 1) :
    ∃ rows, ix.rowsBefore word span = .ok rows ∧ Filled rules word (span - 1) rows := by
  induction hspan with
  | refl => exact ⟨_, rfl, filled_one hix⟩
  | @step span hspan ih =>
    have hspan2 : 2 ≤ span := hspan
    have hlast : span + 1 - 1 = span := by omega
    obtain ⟨rows, hrows, hfilled⟩ := ih (by omega)
    obtain ⟨row, hrow, hnext⟩ := exists_spanRow hix hspan2 (by omega) hfilled
    rw [hlast]
    exact ⟨rows ++ [row], (rowsBefore_succ_eq_ok_iff hspan2).2 ⟨rows, row, hrows, hrow, rfl⟩, hnext⟩

/-- **Every word that is not empty has a table.** -/
theorem exists_buildTable (hix : ofRules rules = .ok ix) (hword : word ≠ []) :
    ∃ rows, ix.buildTable word = .ok ⟨rows⟩ ∧ Filled rules word word.length rows := by
  have hpos : 0 < word.length := List.length_pos_iff.2 hword
  have hlast : 2 ≤ word.length + 1 := by omega
  obtain ⟨rows, hrows, hfilled⟩ := exists_rowsBefore hix hlast (Nat.le_refl _)
  exact ⟨rows, (buildTable_eq_ok_iff hword).2 hrows, hfilled⟩

end ProducerIndex

/-! ### Reading a table -/

namespace Table

/-- The entry at a place is found by each position that means the place. -/
theorem entry_of_place {α : Type} {xs : List α} {position : Int} {i : Nat} {x : α}
    (hx : xs[i]? = some x) (hposition : position = i ∨ position = (i : Int) - xs.length) :
    entry xs position = .ok x := by
  obtain ⟨hi, -⟩ := List.getElem?_eq_some_iff.1 hx
  have hplace : place xs.length position = some i := place_eq_some_iff.2 ⟨hi, hposition⟩
  simp only [entry, hplace, Option.bind_some, hx]

/-- A table with a cell can be shown. -/
theorem exists_format {t : Table} {i p : Nat} {row : List NameSet} {c : NameSet}
    (hrow : t.rows[i]? = some row) (hc : row[p]? = some c) : ∃ text, t.format = .ok text := by
  have hmem : (cellText c).length ∈ ((t.rows.map (·.map cellText)).flatten.map String.length) := by
    refine List.mem_map_of_mem (List.mem_flatten.2 ⟨row.map cellText, ?_, ?_⟩)
    · exact List.mem_map_of_mem (List.mem_of_getElem? hrow)
    · exact List.mem_map_of_mem (List.mem_of_getElem? hc)
  obtain ⟨width, hwidth⟩ := Option.isSome_iff_exists.1 (List.isSome_max?_of_mem hmem)
  simp only [format, hwidth]
  exact ⟨_, rfl⟩

variable {rules : RuleMap} {word : List Terminal} {rows : List (List NameSet)}

/-- **Each cell of a finished table** holds the variables that derive its span. -/
theorem exists_cell (h : Filled rules word word.length rows) {span p : Nat} (hspan : 0 < span)
    (hword : p + span ≤ word.length) : ∃ c, (⟨rows⟩ : Table).cell span p = .ok c ∧
      ∀ v, v ∈ c ↔ rules.Derives v (spanOf word p span) := by
  obtain ⟨row, c, hrow, hc, hyields⟩ := h.cells (span - 1) (by omega) p (by omega)
  rw [Nat.sub_add_cancel hspan] at hyields
  refine ⟨c, ?_, fun v => (hyields v).trans RuleMap.derives_iff_yields.symm⟩
  have hposition : ((span : Int) - 1) = ((span - 1 : Nat) : Int) := by omega
  unfold cell
  rw [entry_of_place hrow (.inl hposition)]
  exact entry_of_place hc (.inl rfl)

/-- The last row of a finished table says which variables derive the word. -/
theorem exists_derives (h : Filled rules word word.length rows) (hword : word ≠ []) (v : Variable) :
    ∃ b, (⟨rows⟩ : Table).derives v = .ok b ∧ (b = true ↔ rules.Derives v word) := by
  have hpos : 0 < word.length := List.length_pos_iff.2 hword
  obtain ⟨row, c, hrow, hc, hyields⟩ := h.cells (word.length - 1) (by omega) 0 (by omega)
  rw [Nat.sub_add_cancel hpos, spanOf_all] at hyields
  refine ⟨v ∈ c, ?_, ?_⟩
  · have hposition : (-1 : Int) = ((word.length - 1 : Nat) : Int) - rows.length := by
      rw [h.length]
      omega
    have hcell : entry row 0 = .ok c := entry_of_place hc (.inl rfl)
    unfold derives
    rw [entry_of_place hrow (.inr hposition)]
    show (entry row 0 >>= fun c => pure (decide (v ∈ c))) = _
    rw [hcell]
    rfl
  · rw [decide_eq_true_iff, hyields v, RuleMap.derives_iff_yields]

end Table

namespace NormalGrammar

/-- **Any start may be asked about:** a grammar with the index of a rule map recognizes
a word that is not empty exactly when its own start derives it by these rules. -/
theorem exists_recognize {rules : RuleMap} {g : NormalGrammar}
    (hix : ProducerIndex.ofRules rules = .ok g.index) (traced : Bool) {word : List Terminal}
    (hword : word ≠ []) :
    ∃ accepted events, g.recognize traced word = .ok (accepted, events) ∧
      (accepted = true ↔ rules.Derives g.start word) := by
  obtain ⟨rows, hrows, hfilled⟩ := ProducerIndex.exists_buildTable hix hword
  obtain ⟨accepted, haccepted, hiff⟩ := Table.exists_derives hfilled hword g.start
  have hpos : 0 < word.length := List.length_pos_iff.2 hword
  obtain ⟨row, c, hrow, hc, -⟩ := hfilled.cells 0 hpos 0 hpos
  obtain ⟨text, htext⟩ := Table.exists_format (t := ⟨rows⟩) hrow hc
  cases traced
  · refine ⟨accepted, [], ?_, hiff⟩
    simp only [recognize, hrows, haccepted, bind, Except.bind]
    rfl
  · refine ⟨accepted, [.table rows.length text, .verdict accepted g.start], ?_, hiff⟩
    simp only [recognize, hrows, haccepted, htext, bind, Except.bind]
    rfl

/-- A word that is given item by item is recognized as the word of its terminals. -/
theorem exists_recognizeItems {rules : RuleMap} {g : NormalGrammar}
    (hix : ProducerIndex.ofRules rules = .ok g.index) (traced : Bool) {items : List WordItem}
    (hitems : items ≠ []) :
    ∃ accepted events, g.recognizeItems traced items = .ok (accepted, events) ∧
      (accepted = true ↔ rules.Derives g.start (items.map WordItem.toTerminal)) :=
  exists_recognize hix traced (by simpa using hitems)

/-- **The recognizer is sound and complete:** in a grammar that was accepted, each
cell of the table for a word that is not empty holds exactly the variables that
derive its span, and the word is recognized exactly when the start variable
derives it, traced or not. -/
theorem recognizes_iff_derives {start : Variable} {rules : RuleMap} {g : NormalGrammar}
    (hg : ofRules start rules = .ok g) {word : List Terminal} (hword : word ≠ []) :
    (∃ t, g.index.buildTable word = .ok t ∧
      ∀ span p : Nat, 0 < span → p + span ≤ word.length →
        ∃ c, t.cell span p = .ok c ∧ ∀ v, v ∈ c ↔ rules.Derives v (spanOf word p span)) ∧
    ∀ traced, ∃ accepted events, g.recognize traced word = .ok (accepted, events) ∧
      (accepted = true ↔ rules.Derives start word) := by
  obtain ⟨ix, hix, rfl⟩ := exists_index hg
  obtain ⟨rows, hrows, hfilled⟩ := ProducerIndex.exists_buildTable hix hword
  refine ⟨⟨⟨rows⟩, hrows, fun span p hspan hp => Table.exists_cell hfilled hspan hp⟩, ?_⟩
  exact fun traced => exists_recognize hix traced hword

/-- The rules `S -> S S | 'a'`, by which longer words have several derivations. -/
def ambiguous : RuleMap :=
  .ofList [(⟨"S"⟩, [.pair ⟨"S"⟩ ⟨"S"⟩, .terminal ⟨"a"⟩])]

/-- Both are in normal form. -/
theorem exists_ofRules_ambiguous : ∃ g, ofRules ⟨"S"⟩ ambiguous = .ok g :=
  ⟨_, rfl⟩

/-- By the rules `S -> S S | 'a'` the cells for `a a a` hold what derives their spans, and the
word is recognized exactly if `S` derives it. -/
theorem recognizes_iff_derives_ambiguous : ∃ g, ofRules ⟨"S"⟩ ambiguous = .ok g ∧
    (∃ t, g.index.buildTable [⟨"a"⟩, ⟨"a"⟩, ⟨"a"⟩] = .ok t ∧
      ∀ span p : Nat, 0 < span → p + span ≤ 3 → ∃ c, t.cell span p = .ok c ∧
        ∀ v, v ∈ c ↔ ambiguous.Derives v (spanOf [⟨"a"⟩, ⟨"a"⟩, ⟨"a"⟩] p span)) ∧
    ∀ traced, ∃ accepted events,
      g.recognize traced [⟨"a"⟩, ⟨"a"⟩, ⟨"a"⟩] = .ok (accepted, events) ∧
        (accepted = true ↔ ambiguous.Derives ⟨"S"⟩ [⟨"a"⟩, ⟨"a"⟩, ⟨"a"⟩]) :=
  ⟨_, rfl, recognizes_iff_derives rfl (by decide)⟩

end NormalGrammar
end ContextFree
