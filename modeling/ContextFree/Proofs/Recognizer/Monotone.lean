/-
# Tables depend on the set of rules only

More rules put more variables into the cells of a table, and never fewer: what a
variable yields by some rules it yields by more of them (`Yields.mono`), and in a
finished table each cell holds the variables that yield its span
(`Filled.holdsYields`), so that the cells of one table are subsets of those of the
other (`Filled.subset`).

Rule maps with the same rules may still differ in their order, in repeated right-hand
sides, and in variables without any. None of this can be seen in the answers of the
index (`ofTerminal_eq`, `ofPair_eq`), and a table is made of these answers alone
(`buildTable_congr`).
-/

import ContextFree.Proofs.Recognizer.Shape

namespace ContextFree

namespace RuleMap

/-- Every right-hand side of a variable in `rules` is one of its right-hand sides in
`rules'`. -/
def IncludedIn (rules rules' : RuleMap) : Prop :=
  ∀ v c, rules.HasRule v c → rules'.HasRule v c

instance (rules rules' : RuleMap) : Decidable (rules.IncludedIn rules') :=
  decidable_of_iff
    (∀ e ∈ candidatesOf rules.entries, e ∈ candidatesOf rules'.entries) <| by
      simp only [Prod.forall, mem_candidatesOf_entries, IncludedIn]

/-- **More rules yield more.** -/
theorem Yields.mono {rules rules' : RuleMap} (hrules : rules.IncludedIn rules') {v : Variable}
    {word : List Terminal} (h : rules.Yields v word) : rules'.Yields v word := by
  induction h with
  | terminal h => exact .terminal (hrules _ _ h)
  | pair h _ _ iha ihb => exact .pair (hrules _ _ h) iha ihb

end RuleMap

/-! ### Tables of more rules -/

/-- The tables have the same shape, and each cell of the first is a subset of the same
cell of the second. -/
def Table.Below (t u : Table) : Prop :=
  List.Forall₂ (List.Forall₂ (· ⊆ ·)) t.rows u.rows

section

variable {rules rules' : RuleMap} {word : List Terminal} {m : Nat}
  {rows rows' : List (List NameSet)}

/-- A cell of a finished row holds the variables that yield its span. -/
theorem Filled.holdsYields (h : Filled rules word m rows) {i p : Nat} {row : List NameSet}
    {c : NameSet} (hrow : rows[i]? = some row) (hc : row[p]? = some c)
    (hp : p + i < word.length) : c.HoldsYields rules (spanOf word p (i + 1)) := by
  obtain ⟨hi, -⟩ := List.getElem?_eq_some_iff.1 hrow
  rw [h.length] at hi
  obtain ⟨row', c', hrow', hc', hyields⟩ := h.cells i hi p hp
  obtain rfl : row = row' := Option.some.inj (hrow.symm.trans hrow')
  obtain rfl : c = c' := Option.some.inj (hc.symm.trans hc')
  exact hyields

/-- **The cell of a span grows with the rules.** -/
theorem Filled.subset (hrules : rules.IncludedIn rules') (h : Filled rules word m rows)
    (h' : Filled rules' word m rows') {i p : Nat} {row row' : List NameSet} {c c' : NameSet}
    (hrow : rows[i]? = some row) (hrow' : rows'[i]? = some row') (hc : row[p]? = some c)
    (hc' : row'[p]? = some c') (hp : p + i < word.length) : c ⊆ c' := by
  intro v hv
  have hyields : rules.Yields v (spanOf word p (i + 1)) := (h.holdsYields hrow hc hp v).1 hv
  exact (h'.holdsYields hrow' hc' hp v).2 (hyields.mono hrules)

/-- **The table of more rules lies above.** -/
theorem Filled.below (hrules : rules.IncludedIn rules') (h : Filled rules word m rows)
    (h' : Filled rules' word m rows') (hshape : Triangular word.length m rows)
    (hshape' : Triangular word.length m rows') : (⟨rows⟩ : Table).Below ⟨rows'⟩ := by
  have hlength : rows.length = rows'.length := by rw [hshape.length, hshape'.length]
  refine List.forall₂_iff_get.2 ⟨hlength, fun i hi hi' => ?_⟩
  have hrow : rows[i]? = some rows[i] := List.getElem?_eq_getElem hi
  have hrow' : rows'[i]? = some rows'[i] := List.getElem?_eq_getElem hi'
  have hcells := hshape.length_row i rows[i] hrow
  have hcells' := hshape'.length_row i rows'[i] hrow'
  refine List.forall₂_iff_get.2 ⟨hcells.trans hcells'.symm, fun p hp hp' => ?_⟩
  have hword : p + i < word.length := by
    have hlt : p < rows[i].length := hp
    omega
  exact h.subset hrules h' hrow hrow' (List.getElem?_eq_getElem hp)
    (List.getElem?_eq_getElem hp') hword

end

/-! ### Tables of the same rules -/

namespace ProducerIndex

variable {rules rules' : RuleMap} {ix ix' : ProducerIndex}

/-- The same rules answer the same for a terminal. -/
theorem ofTerminal_eq (hix : ofRules rules = .ok ix) (hix' : ofRules rules' = .ok ix')
    (hrules : rules.IncludedIn rules') (hrules' : rules'.IncludedIn rules) (t : Terminal) :
    ix.ofTerminal t = ix'.ofTerminal t := by
  refine NameSet.ext fun v => ?_
  rw [ofTerminal_ofRules hix, ofTerminal_ofRules hix']
  exact ⟨hrules v _, hrules' v _⟩

/-- The same rules answer the same for a pair. -/
theorem ofPair_eq (hix : ofRules rules = .ok ix) (hix' : ofRules rules' = .ok ix')
    (hrules : rules.IncludedIn rules') (hrules' : rules'.IncludedIn rules) (a b : Variable) :
    ix.ofPair a b = ix'.ofPair a b := by
  refine NameSet.ext fun v => ?_
  rw [ofPair_ofRules hix, ofPair_ofRules hix']
  exact ⟨hrules v _, hrules' v _⟩

/-- **A table is made of the answers of the index,** whatever else they are kept with. -/
theorem buildTable_congr (hterminal : ∀ t, ix.ofTerminal t = ix'.ofTerminal t)
    (hpair : ∀ a b, ix.ofPair a b = ix'.ofPair a b) (word : List Terminal) :
    ix.buildTable word = ix'.buildTable word := by
  have hfirst : ix.ofTerminal = ix'.ofTerminal := funext hterminal
  have hcombine : ix.combine = ix'.combine := by
    funext left right
    simp only [combine, hpair]
  have hcell : ix.spanCell = ix'.spanCell := by
    funext rows span start
    simp only [spanCell, hcombine]
  have hrow : ix.spanRow = ix'.spanRow := by
    funext n rows span
    simp only [spanRow, hcell]
  simp only [buildTable, hfirst, hrow]

end ProducerIndex

namespace NormalGrammar

/-- **Tables grow with the rules, and see nothing else of a rule map.** If every rule of
an accepted map is a rule of another one, each cell of the table for a word that is not
empty is a subset of the same cell by the other rules. If both maps have the same
rules, in whichever order and however often, tables and answers of the index agree, for
whichever starts. -/
theorem tables_grow_with_rules {start start' : Variable} {rules rules' : RuleMap}
    {g g' : NormalGrammar} (hg : ofRules start rules = .ok g)
    (hg' : ofRules start' rules' = .ok g') (hrules : rules.IncludedIn rules') :
    (∀ word, word ≠ [] → ∃ t u, g.index.buildTable word = .ok t ∧
      g'.index.buildTable word = .ok u ∧ t.Below u) ∧
    (rules'.IncludedIn rules →
      (∀ word, g.index.buildTable word = g'.index.buildTable word) ∧
      (∀ t, g.index.ofTerminal t = g'.index.ofTerminal t) ∧
      ∀ a b, g.index.ofPair a b = g'.index.ofPair a b) := by
  obtain ⟨ix, hix, rfl⟩ := exists_index hg
  obtain ⟨ix', hix', rfl⟩ := exists_index hg'
  constructor
  · intro word hword
    obtain ⟨rows, htable, hfilled, hshape⟩ :=
      ProducerIndex.exists_triangular_buildTable hix hword
    obtain ⟨rows', htable', hfilled', hshape'⟩ :=
      ProducerIndex.exists_triangular_buildTable hix' hword
    exact ⟨⟨rows⟩, ⟨rows'⟩, htable, htable', hfilled.below hrules hfilled' hshape hshape'⟩
  · intro hrules'
    have hterminal := ProducerIndex.ofTerminal_eq hix hix' hrules hrules'
    have hpair := ProducerIndex.ofPair_eq hix hix' hrules hrules'
    exact ⟨ProducerIndex.buildTable_congr hterminal hpair, hterminal, hpair⟩

/-- The rules of `ambiguous` the other way round, one of them twice, and a variable
without rules before them. -/
def shuffled : RuleMap :=
  .ofList [(⟨"T"⟩, []), (⟨"S"⟩, [.terminal ⟨"a"⟩, .pair ⟨"S"⟩ ⟨"S"⟩, .terminal ⟨"a"⟩])]

/-- Both maps have the rules `S -> S S | 'a'`, so all tables and answers agree. -/
theorem tables_grow_with_rules_shuffled : ∃ g g', ofRules ⟨"S"⟩ ambiguous = .ok g ∧
    ofRules ⟨"T"⟩ shuffled = .ok g' ∧
    (∃ t u, g.index.buildTable [⟨"a"⟩, ⟨"a"⟩, ⟨"a"⟩] = .ok t ∧
      g'.index.buildTable [⟨"a"⟩, ⟨"a"⟩, ⟨"a"⟩] = .ok u ∧ t.Below u) ∧
    (∀ word, g.index.buildTable word = g'.index.buildTable word) ∧
    (∀ t, g.index.ofTerminal t = g'.index.ofTerminal t) ∧
    ∀ a b, g.index.ofPair a b = g'.index.ofPair a b := by
  have hg' : ∃ g, ofRules ⟨"T"⟩ shuffled = .ok g := ⟨_, rfl⟩
  obtain ⟨g, hg⟩ := exists_ofRules_ambiguous
  obtain ⟨g', hg'⟩ := hg'
  obtain ⟨hbelow, hsame⟩ := tables_grow_with_rules hg hg' (by decide)
  exact ⟨g, g', hg, hg', hbelow _ (by decide), hsame (by decide)⟩

end NormalGrammar
end ContextFree
