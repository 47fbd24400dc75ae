/-
# Productions as text, and the repetitions in them

The text of a production glues the texts of its parts together: `?`, `*` and
`+` follow their child, alternatives are joined by ` | `, sequences by one
blank, and there are never any parentheses. It is for reading: different
productions may have the same text.

A production is shown by one dialect, and the first node of the other dialect
in reading order is the fault.
-/

import ContextFree.Fault

namespace ContextFree

/-- What stands between the texts of joined productions. -/
def Connective.separator : Connective → String
  | .alternative => " | "
  | .sequence => " "

namespace Production

mutual

/-- The text of a production in the notation of dialect `d`. -/
def render (d : Dialect) (p : Production) : Except Fault String :=
  if p.dialect = d then
    match p with
    | .epsilon _ => .ok "eps"
    | .terminal _ t => .ok t.text
    | .reference _ v => .ok v.text
    | .optional _ c => (render d c).map (· ++ "?")
    | .join _ op cs => (renderAll d cs).map (op.separator.intercalate ·)
    | .star c => (render d c).map (· ++ "*")
    | .plus c => (render d c).map (· ++ "+")
  else .error (.foreignNode p)

/-- The texts of a list of productions, up to the first fault. -/
def renderAll (d : Dialect) : List Production → Except Fault (List String)
  | [] => .ok []
  | c :: cs => do
    let t ← render d c
    let ts ← renderAll d cs
    return t :: ts

end

/-- The text of a production in its own dialect. -/
def text (p : Production) : Except Fault String :=
  p.render p.dialect

mutual

/-- The number of repetitions in an extended production. -/
def repetitionCount (p : Production) : Except Fault Nat :=
  if p.dialect = .extended then
    match p with
    | .epsilon _ => .ok 0
    | .terminal _ _ => .ok 0
    | .reference _ _ => .ok 0
    | .optional _ c => repetitionCount c
    | .join _ _ cs => repetitionCountAll cs
    | .star c => (repetitionCount c).map (1 + ·)
    | .plus c => (repetitionCount c).map (1 + ·)
  else .error .uncountable

/-- The number of repetitions in a list of extended productions. -/
def repetitionCountAll : List Production → Except Fault Nat
  | [] => .ok 0
  | c :: cs => do
    let m ← repetitionCount c
    let n ← repetitionCountAll cs
    return m + n

end

/-- Siblings are shown one by one, up to the first that cannot be. -/
theorem renderAll_eq (d : Dialect) (cs : List Production) :
    renderAll d cs = cs.mapM (render d) := by
  induction cs with
  | nil => rfl
  | cons c cs ih => simp [renderAll, ih]

end Production
end ContextFree
