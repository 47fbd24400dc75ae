/-
# Grammars in Chomsky normal form

In Chomsky normal form every right-hand side is a single terminal or a pair of
variables. A grammar is built from a start variable and a map from variables to
lists of candidates. It needs at least one rule, and the first candidate that
is in another shape, in the order of the map and of its lists, is the fault.

Building the grammar indexes its rules by the terminal and by the pair that
they produce. The answers of the index are sets, so that neither the order of
the rules nor their number matters. Rules that are added afterwards are kept
with the grammar but not indexed.
-/

import ContextFree.Fault
import ContextFree.NameSet
import ContextFree.Registry

namespace ContextFree

/-- What may be offered as a right-hand side. Only a terminal and a pair are in
normal form. -/
inductive Candidate where
  | terminal (t : Terminal)
  | pair (first second : Variable)
  /-- A production of one of the other dialects. -/
  | production (p : Production)
  /-- A bare symbol. -/
  | symbol (s : Symbol)
  /-- A bare text. -/
  | text (s : String)
  /-- Any other value, by its explicit form. -/
  | other (explicit : String)
  /-- A value without an explicit form. -/
  | shapeless
deriving DecidableEq

/-- The explicit form of a candidate that is not in normal form. -/
def Candidate.explicit : Candidate → Option String
  | .terminal _ => none
  | .pair _ _ => none
  | .production p => some p.explicit
  | .symbol s => some s.explicit
  | .text s => some (Text.literal s)
  | .other explicit => some explicit
  | .shapeless => none

/-- The right-hand sides of each variable. -/
abbrev RuleMap := Registry Variable (List Candidate)

/-- The rule map with one more right-hand side; a new variable goes to the end. -/
def RuleMap.addRule (rules : RuleMap) (v : Variable) (c : Candidate) : RuleMap :=
  rules.insert v ((rules.get? v).getD [] ++ [c])

/-- The variables that produce each terminal and each pair of variables. -/
structure ProducerIndex where
  terminals : Registry Terminal NameSet := ∅
  pairs : Registry (Variable × Variable) NameSet := ∅

namespace ProducerIndex

/-- Adds a variable to the set at a key. -/
def enter {κ : Type} [DecidableEq κ] (r : Registry κ NameSet) (k : κ) (v : Variable) :
    Registry κ NameSet :=
  r.insert k (((r.get? k).getD ∅).insert v)

/-- Indexes one right-hand side of `v`. -/
def add (ix : ProducerIndex) (v : Variable) : Candidate → Except Fault ProducerIndex
  | .terminal t => .ok { ix with terminals := enter ix.terminals t v }
  | .pair a b => .ok { ix with pairs := enter ix.pairs (a, b) v }
  | c => .error (.notNormalForm v c.explicit)

/-- The index of a rule map. -/
def ofRules (rules : RuleMap) : Except Fault ProducerIndex :=
  rules.entries.foldlM (fun ix rule => rule.2.foldlM (fun ix c => ix.add rule.1 c) ix) {}

/-- The variables with this terminal as a right-hand side. -/
def ofTerminal (ix : ProducerIndex) (t : Terminal) : NameSet :=
  (ix.terminals.get? t).getD ∅

/-- The variables with this pair as a right-hand side. -/
def ofPair (ix : ProducerIndex) (a b : Variable) : NameSet :=
  (ix.pairs.get? (a, b)).getD ∅

/-- One variable more is found at one key, and all others where they were. -/
theorem mem_getD_enter {κ : Type} [DecidableEq κ] {r : Registry κ NameSet} {k j : κ}
    {v x : Variable} :
    x ∈ ((enter r k v).get? j).getD ∅ ↔ (j = k ∧ x = v) ∨ x ∈ (r.get? j).getD ∅ := by
  unfold enter
  rw [Registry.get?_insert]
  by_cases h : j = k <;> simp [h]

end ProducerIndex

/-- A grammar in Chomsky normal form: its start, its rules, and the index that
was made when it was built. -/
structure NormalGrammar where
  start : Variable
  rules : RuleMap
  index : ProducerIndex

namespace NormalGrammar

/-- Builds a grammar from its rules. -/
def ofRules (start : Variable) (rules : RuleMap) : Except Fault NormalGrammar :=
  if rules.entries.isEmpty then .error .noRules
  else (ProducerIndex.ofRules rules).map fun index => { start, rules, index }

/-- The number of right-hand sides of each variable. -/
def countRules (g : NormalGrammar) : List (Variable × Nat) :=
  g.rules.entries.map fun rule => (rule.1, rule.2.length)

end NormalGrammar
end ContextFree
