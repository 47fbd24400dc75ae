/-
# Runs that take names

Converting productions takes names from an allocator and reports events to a
trace, if there is one. Such a run works on the state `Naming`, and the state
survives a fault: names that were taken stay taken.

Reporting an event may itself fault, because showing a production may; without
a trace nothing is shown.
-/

import ContextFree.Fault
import ContextFree.Naming.Allocator
import ContextFree.Naming.Event

namespace ContextFree

/-- The allocator, and the events so far if they are traced. -/
structure Naming where
  allocator : Allocator := {}
  trace : Option (List Event) := none
deriving DecidableEq

namespace Naming

/-- A computation that may take names, report events and fault. -/
abbrev Run (α : Type) := EStateM Fault Naming α

/-- Takes a fresh variable. -/
def fresh : Run Variable := fun s =>
  match s.allocator.fresh with
  | (some v, a) => .ok v { s with allocator := a }
  | (none, a) => .error (.poolExhausted a.inUse.size) { s with allocator := a }

/-- Reports an event, if events are traced. -/
def report (event : Except Fault Event) : Run Unit := fun s =>
  match s.trace, event with
  | none, _ => .ok () s
  | some es, .ok e => .ok () { s with trace := some (es ++ [e]) }
  | some _, .error f => .error f s

/-- Goes on only if a check succeeds. -/
def check {α : Type} (x : Except Fault α) : Run α := fun s =>
  match x with
  | .ok a => .ok a s
  | .error f => .error f s

/-- Changes the allocator. -/
def update (f : Allocator → Allocator) : Run Unit := fun s =>
  .ok () { s with allocator := f s.allocator }

/-- **Two steps succeed exactly when each of them does.** -/
theorem bind_eq_ok {α β : Type} {x : Run α} {f : α → Run β} {s t : Naming} {b : β} :
    (x >>= f) s = .ok b t ↔ ∃ a u, x s = .ok a u ∧ f a u = .ok b t := by
  show EStateM.bind x f s = .ok b t ↔ _
  unfold EStateM.bind
  cases h : x s with
  | ok a u =>
    refine ⟨fun h => ⟨a, u, rfl, h⟩, ?_⟩
    rintro ⟨_, _, ⟨⟩, h⟩
    exact h
  | error e u => simp

/-- **Two steps fault exactly when the first does, or the second after it.** -/
theorem bind_eq_error {α β : Type} {x : Run α} {f : α → Run β} {s t : Naming} {e : Fault} :
    (x >>= f) s = .error e t ↔
      x s = .error e t ∨ ∃ a u, x s = .ok a u ∧ f a u = .error e t := by
  show EStateM.bind x f s = .error e t ↔ _
  unfold EStateM.bind
  cases h : x s with
  | ok a u =>
    simp only [reduceCtorEq, false_or]
    refine ⟨fun h => ⟨a, u, rfl, h⟩, ?_⟩
    rintro ⟨_, _, ⟨⟩, h⟩
    exact h
  | error e u => simp

/-- A run that only returns succeeds with its value and leaves the state alone. -/
theorem pure_eq_ok {α : Type} {a b : α} {s t : Naming} :
    (pure a : Run α) s = .ok b t ↔ a = b ∧ s = t := by
  show EStateM.Result.ok a s = .ok b t ↔ _
  simp

/-- A run that only faults does not succeed. -/
theorem throw_ne_ok {α : Type} {a : α} {f : Fault} {s t : Naming} :
    (throw f : Run α) s ≠ .ok a t := by
  show EStateM.Result.error f s ≠ .ok a t
  simp

/-- A check that succeeds leaves the state alone. -/
theorem check_eq_ok {α : Type} {x : Except Fault α} {a : α} {s t : Naming} :
    check x s = .ok a t ↔ x = .ok a ∧ s = t := by
  cases x <;> simp [check]

/-- Without a trace nothing is shown, so that nothing can go wrong. -/
theorem report_of_untraced {event : Except Fault Event} {s : Naming} (h : s.trace = none) :
    report event s = .ok () s := by
  simp [report, h]

/-- A fresh variable is drawn from the allocator, and the trace is unchanged. -/
theorem fresh_eq_ok {v : Variable} {s t : Naming} :
    fresh s = .ok v t ↔ s.allocator.fresh = (some v, t.allocator) ∧ t.trace = s.trace := by
  rcases s with ⟨a, es⟩
  rcases t with ⟨b, fs⟩
  simp only [fresh]
  rcases a.fresh with ⟨_ | w, c⟩ <;> simp [eq_comm, and_assoc]

end Naming
end ContextFree
