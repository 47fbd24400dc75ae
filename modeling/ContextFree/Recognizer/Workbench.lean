/-
# A grammar under use

A workbench holds a grammar in normal form, the rule map that it was built
from, and the events so far if they are traced. A task asks about a word or
about the rules, or changes something: the start of the grammar, its rules, or
the rule map that it was built from. Recognition follows the current start and
the rules that the grammar was built from.
-/

import ContextFree.Recognizer.Recognition

namespace ContextFree

/-- One request to a workbench. -/
inductive Workbench.Task where
  | recognize (word : List Terminal)
  | ask (word : List Terminal) (query : Table.Query)
  | sameTable (word other : List Terminal)
  | producersOfTerminal (t : Terminal)
  | producersOfPair (a b : Variable)
  | countRules
  | setStart (v : Variable)
  | addRule (v : Variable) (c : Candidate)
  | addSourceRule (v : Variable) (c : Candidate)

/-- What a task answers. -/
inductive Workbench.Finding where
  | table (answer : Table.Answer)
  | truth (b : Bool)
  | names (s : NameSet)
  | counts (rules : List (Variable × Nat))
  | done

/-- A grammar, the rule map it was built from, and the events so far if they are
traced. -/
structure Workbench where
  grammar : NormalGrammar
  source : RuleMap
  trace : Option (List Event) := none

namespace Workbench

/-- A workbench with a new grammar. -/
def ofRules (start : Variable) (rules : RuleMap) (trace : Option (List Event)) :
    Except Fault Workbench :=
  (NormalGrammar.ofRules start rules).map fun grammar => { grammar, source := rules, trace }

/-- The workbench with more events. -/
def log (w : Workbench) (events : List Event) : Workbench :=
  { w with trace := w.trace.map (· ++ events) }

/-- Asks a table that was to be built. -/
def ask (table : Except Fault Table) (query : Table.Query) : Except Fault Finding := do
  let t ← table
  let a ← t.answer query
  return .table a

/-- Whether two tables that were to be built are equal. -/
def compare (table other : Except Fault Table) : Except Fault Finding := do
  let t ← table
  let u ← other
  return .truth (t = u)

/-- Performs one task. -/
def perform (w : Workbench) : Task → Except Fault Finding × Workbench
  | .recognize word =>
      match w.grammar.recognize w.trace.isSome word with
      | .ok (accepted, events) => (.ok (.truth accepted), w.log events)
      | .error f => (.error f, w)
  | .ask word query => (ask (w.grammar.index.buildTable word) query, w)
  | .sameTable word other =>
      (compare (w.grammar.index.buildTable word) (w.grammar.index.buildTable other), w)
  | .producersOfTerminal t => (.ok (.names (w.grammar.index.ofTerminal t)), w)
  | .producersOfPair a b => (.ok (.names (w.grammar.index.ofPair a b)), w)
  | .countRules => (.ok (.counts w.grammar.countRules), w)
  | .setStart v => (.ok .done, { w with grammar := { w.grammar with start := v } })
  | .addRule v c =>
      (.ok .done, { w with grammar := { w.grammar with rules := w.grammar.rules.addRule v c } })
  | .addSourceRule v c => (.ok .done, { w with source := w.source.addRule v c })

/-- Performs tasks in turn; each finding stands with the workbench after it. -/
def performAll (w : Workbench) : List Task → List (Except Fault Finding × Workbench)
  | [] => []
  | task :: tasks =>
      let result := w.perform task
      result :: performAll result.2 tasks

end Workbench
end ContextFree
