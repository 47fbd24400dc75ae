/-
# What the index of a grammar answers

The index is filled one right-hand side after another. `Indexes ix seen` says
that it answers exactly for those seen so far, and each right-hand side that is
added keeps it (`Indexes.add`). So the index of an accepted rule map answers for
its rules and for nothing else (`ofTerminal_ofRules`, `ofPair_ofRules`), however
often a right-hand side is repeated and in whichever order they stand.
-/

import ContextFree.Proofs.Loops
import ContextFree.Recognizer.Derivation

namespace ContextFree

/-- The right-hand sides in a list of rules, each with its variable. -/
def candidatesOf (rules : List (Variable × List Candidate)) : List (Variable × Candidate) :=
  rules.flatMap fun rule => rule.2.map (rule.1, ·)

/-- One more rule adds its right-hand sides at the end. -/
theorem candidatesOf_concat (rules : List (Variable × List Candidate))
    (rule : Variable × List Candidate) :
    candidatesOf (rules ++ [rule]) = candidatesOf rules ++ rule.2.map (rule.1, ·) := by
  rw [candidatesOf, List.flatMap_append, List.flatMap_singleton, candidatesOf]

/-- The right-hand sides of a rule map are those of its rules. -/
theorem mem_candidatesOf_entries {rules : RuleMap} {v : Variable} {c : Candidate} :
    (v, c) ∈ candidatesOf rules.entries ↔ rules.HasRule v c := by
  simp only [candidatesOf, RuleMap.HasRule, List.mem_flatMap, List.mem_map,
    Registry.get?_eq_some_iff]
  constructor
  · rintro ⟨⟨x, cs⟩, hmem, d, hd, heq⟩
    obtain ⟨rfl, rfl⟩ := Prod.mk.inj heq
    exact ⟨cs, hmem, hd⟩
  · rintro ⟨cs, hmem, hc⟩
    exact ⟨(v, cs), hmem, c, hc, rfl⟩

namespace ProducerIndex

/-- The index answers for the right-hand sides in `seen` and for no others. -/
structure Indexes (ix : ProducerIndex) (seen : List (Variable × Candidate)) : Prop where
  mem_ofTerminal : ∀ t v, v ∈ ix.ofTerminal t ↔ (v, .terminal t) ∈ seen
  mem_ofPair : ∀ a b v, v ∈ ix.ofPair a b ↔ (v, .pair a b) ∈ seen

/-- The empty index has seen nothing. -/
theorem indexes_empty : Indexes {} [] where
  mem_ofTerminal := by simp [ofTerminal]
  mem_ofPair := by simp [ofPair]

/-- **Each right-hand side that is added is one more that was seen.** -/
theorem Indexes.add {ix ix' : ProducerIndex} {seen : List (Variable × Candidate)} {v : Variable}
    {c : Candidate} (h : ix.Indexes seen) (hadd : ix.add v c = .ok ix') :
    ix'.Indexes (seen ++ [(v, c)]) := by
  cases c with
  | terminal t =>
    cases hadd
    constructor
    · intro s x
      have hold := h.mem_ofTerminal s x
      simp only [ofTerminal] at hold
      simp only [ofTerminal, mem_getD_enter, hold, List.mem_append, List.mem_singleton,
        Prod.mk.injEq, Candidate.terminal.injEq]
      tauto
    · intro a b x
      simpa [ofPair] using h.mem_ofPair a b x
  | pair a b =>
    cases hadd
    constructor
    · intro s x
      simpa [ofTerminal] using h.mem_ofTerminal s x
    · intro d e x
      have hold := h.mem_ofPair d e x
      simp only [ofPair] at hold
      simp only [ofPair, mem_getD_enter, hold, List.mem_append, List.mem_singleton,
        Prod.mk.injEq, Candidate.pair.injEq]
      tauto
  | production _ | symbol _ | text _ | other _ | shapeless => cases hadd

/-- So are all right-hand sides of a rule. -/
theorem Indexes.addAll {ix ix' : ProducerIndex} {seen : List (Variable × Candidate)} {v : Variable}
    {cs : List Candidate} (h : ix.Indexes seen)
    (hadd : cs.foldlM (fun ix c => ix.add v c) ix = .ok ix') :
    ix'.Indexes (seen ++ cs.map (v, ·)) := by
  refine foldlM_invariant (fun cs ix => ix.Indexes (seen ++ cs.map (v, ·))) ?_ ?_ hadd
  · rwa [List.map_nil, List.append_nil]
  · intro done c ix ix' hix hc
    rw [List.map_append, ← List.append_assoc]
    exact hix.add hc

/-- **The index of a rule map** has seen all of its right-hand sides. -/
theorem indexes_ofRules {rules : RuleMap} {ix : ProducerIndex} (h : ofRules rules = .ok ix) :
    ix.Indexes (candidatesOf rules.entries) := by
  refine foldlM_invariant (fun done ix => ix.Indexes (candidatesOf done)) indexes_empty ?_ h
  intro done rule ix ix' hix hrule
  rw [candidatesOf_concat]
  exact hix.addAll hrule

variable {rules : RuleMap} {ix : ProducerIndex}

/-- The variables with this terminal as a right-hand side. -/
theorem ofTerminal_ofRules (h : ofRules rules = .ok ix) {t : Terminal} {v : Variable} :
    v ∈ ix.ofTerminal t ↔ rules.HasRule v (.terminal t) := by
  rw [(indexes_ofRules h).mem_ofTerminal, mem_candidatesOf_entries]

/-- The variables with this pair as a right-hand side. -/
theorem ofPair_ofRules (h : ofRules rules = .ok ix) {a b v : Variable} :
    v ∈ ix.ofPair a b ↔ rules.HasRule v (.pair a b) := by
  rw [(indexes_ofRules h).mem_ofPair, mem_candidatesOf_entries]

end ProducerIndex

/-- A grammar that was accepted has its rules indexed. -/
theorem NormalGrammar.exists_index {start : Variable} {rules : RuleMap} {g : NormalGrammar}
    (h : ofRules start rules = .ok g) :
    ∃ ix, ProducerIndex.ofRules rules = .ok ix ∧ g = { start, rules, index := ix } := by
  unfold ofRules at h
  split at h
  · cases h
  · cases hix : ProducerIndex.ofRules rules with
    | error f =>
      rw [hix] at h
      cases h
    | ok ix =>
      rw [hix] at h
      cases h
      exact ⟨ix, rfl, rfl⟩

end ContextFree
