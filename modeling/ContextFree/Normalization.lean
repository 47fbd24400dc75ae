/-
# Normalizing a grammar

Normalizing an extended grammar converts every rule to the plain dialect, then
every helper rule that those conversions handed back, and so on until none is
left. The replacers are shared by the whole pass, so that a group that occurs
in several rules has one helper. The start variable stays, the rules of the
grammar come first in their order, and the helper rules follow in the order in
which their variables were made.

The variables of the grammar are reserved before anything is converted, in the
given allocator or, if none is given, in one that is made for the grammar. The
pass ends because each step takes a rule from the queue and puts rules there
that weigh less together (`load_step_lt`).
-/

import ContextFree.Conversion.Measure

namespace ContextFree

/-- A pass under way: the rules converted so far, the helpers of the groups met
so far, and the rules still to be converted. -/
structure Worklist where
  done : Registry Variable Production := ∅
  replacers : Replacers := ∅
  queue : List (Variable × Production)

namespace Worklist

/-- The pass before its first step. -/
def ofGrammar (g : Grammar) : Worklist :=
  { queue := g.rules.entries }

/-- Converts one rule that was taken from the queue; `rest` is the queue without
it. -/
def step (w : Worklist) (v : Variable) (p : Production) (rest : List (Variable × Production)) :
    Naming.Run Worklist := do
  Naming.check (if v ∈ w.done.keys then .error (.repeatedRule v) else .ok ())
  let r ← p.toPlain w.replacers.get?
  return {
    done := w.done.insert v r.output
    replacers := w.replacers.extend r.newReplacers
    queue := rest ++ r.newRules }

/-- **A step leaves less to convert.** -/
theorem load_step_lt {w w' : Worklist} {v : Variable} {p : Production}
    {rest : List (Variable × Production)} {s t : Naming} (h : w.step v p rest s = .ok w' t) :
    Production.load w'.queue < Production.load ((v, p) :: rest) := by
  unfold step at h
  obtain ⟨_, _, _, h⟩ := Naming.bind_eq_ok.1 h
  obtain ⟨r, _, hr, h⟩ := Naming.bind_eq_ok.1 h
  obtain ⟨rfl, _⟩ := Naming.pure_eq_ok.1 h
  have := Production.load_newRules_le hr
  simp only [Production.load_append, Production.load]
  omega

/-- Converts rules until the queue is empty. -/
def drain (w : Worklist) : Naming.Run (Registry Variable Production) := fun s =>
  match _hq : w.queue with
  | [] => .ok w.done s
  | (v, p) :: rest =>
    match _h : w.step v p rest s with
    | .ok w' s' => drain w' s'
    | .error f s' => .error f s'
termination_by Production.load w.queue
decreasing_by
  rw [_hq]
  exact load_step_lt _h

end Worklist

namespace Grammar

/-- The plain grammar equivalent to an extended one. -/
def normalize (g : Grammar) : Naming.Run Grammar := do
  Naming.update (·.reserveAll g.allVariables)
  let rules ← (Worklist.ofGrammar g).drain
  let plain : Grammar := { start := g.start, rules }
  Naming.report (plain.format.map .normalized)
  return plain

/-- Normalizes with the given allocator, or else with one that hands out no variable
of the grammar. -/
def normalizeWith (g : Grammar) (trace : Option (List Event)) :
    Option Allocator → EStateM.Result Fault Naming Grammar
  | some a => g.normalize ⟨a, trace⟩
  | none => g.normalize ⟨.forGrammar g, trace⟩

/-- Of an allocator only that matters which is left of it once the variables of the
grammar are reserved. -/
theorem normalize_congr {g : Grammar} {a b : Allocator} (trace : Option (List Event))
    (h : a.reserveAll g.allVariables = b.reserveAll g.allVariables) :
    g.normalize ⟨a, trace⟩ = g.normalize ⟨b, trace⟩ := by
  have hupdate : Naming.update (·.reserveAll g.allVariables) ⟨a, trace⟩ =
      Naming.update (·.reserveAll g.allVariables) ⟨b, trace⟩ := by
    simp only [Naming.update, h]
  simp only [normalize, bind, EStateM.bind, hupdate]

/-- **Without an allocator** a grammar is normalized as with an unused one. -/
theorem normalizeWith_none (g : Grammar) (trace : Option (List Event)) :
    g.normalizeWith trace none = g.normalizeWith trace (some {}) := by
  refine normalize_congr trace ?_
  have hused : g.allVariables ∪ g.allVariables = ∅ ∪ g.allVariables :=
    NameSet.ext fun v => by simp
  simp only [Allocator.reserveAll, Allocator.forGrammar, hused]

end Grammar
end ContextFree
