/-
# Sessions

A session is a sequence of steps on one allocator and one map of known
replacers. A step may take or reserve a name, convert a production or a list of
siblings, or normalize a grammar. A conversion sees the known replacers, and
its own are added to them when the step says so. A step that faults leaves the
known replacers alone, but the names it took stay taken.
-/

import ContextFree.Normalization

namespace ContextFree

/-- One request to a session. -/
inductive Session.Step where
  | fresh
  | reserve (v : Variable)
  | convert (p : Production) (keep : Bool)
  | convertAll (ps : List Production)
  | normalize (g : Grammar)

/-- What a step answers. -/
inductive Session.Answer where
  | name (v : Variable)
  | done
  | conversion (r : Conversion)
  | merged (m : Merged)
  | grammar (g : Grammar)

/-- The state of a session. -/
structure Session where
  naming : Naming := {}
  known : Replacers := ∅

namespace Session

/-- The run that answers a step, when `known` are the known replacers. -/
def answer (known : Replacers) : Step → Naming.Run Answer
  | .fresh => do
    let v ← Naming.fresh
    return .name v
  | .reserve v => do
    Naming.update (·.reserve v)
    return .done
  | .convert p _ => do
    let r ← p.toPlain known.get?
    return .conversion r
  | .convertAll ps => do
    let m ← Production.toPlainAll known.get? {} ps
    return .merged m
  | .normalize g => do
    let n ← g.normalize
    return .grammar n

/-- The known replacers after a step was answered. -/
def keep (known : Replacers) : Step → Answer → Replacers
  | .convert _ true, .conversion r => known.extend r.newReplacers
  | _, _ => known

/-- Performs one step. -/
def perform (s : Session) (step : Step) : Except Fault Answer × Session :=
  match answer s.known step s.naming with
  | .ok a naming => (.ok a, ⟨naming, keep s.known step a⟩)
  | .error f naming => (.error f, { s with naming })

/-- Performs steps in turn; each answer stands with the state after its step. -/
def performAll (s : Session) : List Step → List (Except Fault Answer × Session)
  | [] => []
  | step :: steps =>
      let result := s.perform step
      result :: performAll result.2 steps

end Session
end ContextFree
