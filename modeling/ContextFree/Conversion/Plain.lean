/-
# Conversion to the plain dialect

Most extended nodes have a plain counterpart, and the conversion walks over
them. A repetition `X*` has none: a helper variable `V` takes its place, with
the rule `V -> eps | X V`, and `X+` is converted as `X X*`.

The same group gets the same helper. The conversion looks a repetition up in
the replacers that it was given and in those of the siblings before it; only a
new one takes a fresh variable. The body of `X*` is not converted: it stands
unchanged in the helper rule, which is for the caller to convert in its turn.
It holds one repetition less than `X*` does.
-/

import ContextFree.Conversion.Result
import ContextFree.Naming.Run

namespace ContextFree

/-- The helper variable of each repetition that already has one. -/
abbrev Known := Production → Option Variable

/-- Looks into newer replacers first. -/
def Known.over (newer : Replacers) (known : Known) : Known := fun p =>
  (newer.get? p).or (known p)

namespace Production

/-- The rule of the helper `v` for the repetition of `c`: `v -> eps | c v`. -/
def helperRule (c : Production) (v : Variable) : Production :=
  .join .extended .alternative
    [.epsilon .extended, .join .extended .sequence [c, .reference .extended v]]

/-- Checks that the helper rule for the repetition of `c` has fewer repetitions
than the repetition itself. -/
def checkReduced (c : Production) (v : Variable) : Except Fault Unit := do
  let rule ← (helperRule c v).repetitionCount
  let whole ← (Production.star c).repetitionCount
  if rule < whole then return () else throw .notReduced

/-- The conversion of `c*`: its known helper, or a new one. -/
def replaceStar (known : Known) (c : Production) : Naming.Run Conversion :=
  match known (.star c) with
  | some v => do
    Naming.report ((Production.star c).text.map (.reusing v))
    return { output := .reference .plain v }
  | none => do
    let v ← Naming.fresh
    Naming.report ((Production.star c).text.map (.minted v))
    Naming.check (checkReduced c v)
    return {
      output := .reference .plain v
      newVariables := [v]
      newReplacers := .insert ∅ (.star c) v
      newRules := [(v, helperRule c v)] }

mutual

/-- The conversion of an extended production to the plain dialect. -/
def toPlain (known : Known) (p : Production) : Naming.Run Conversion :=
  if p.dialect = .extended then
    match p with
    | .epsilon _ => return { output := .epsilon .plain }
    | .terminal _ t => return { output := .terminal .plain t }
    | .reference _ v => return { output := .reference .plain v }
    | .optional _ c => do
      let r ← toPlain known c
      return { r with output := .optional .plain r.output }
    | .join _ op cs => do
      let m ← toPlainAll known {} cs
      return m.join op
    | .star c => replaceStar known c
    | .plus c => do
      let r ← toPlain known c
      let m ← Naming.check (Merged.absorbed {} r)
      let rest ← replaceStar (known.over m.newReplacers) c
      let m ← Naming.check (m.absorbed rest)
      return m.join .sequence
  else throw (.foreignNode p)

/-- Converts siblings from left to right and merges their conversions into `m`;
each sees the replacers of those before it. -/
def toPlainAll (known : Known) (m : Merged) : List Production → Naming.Run Merged
  | [] => return m
  | c :: cs => do
    let r ← toPlain (known.over m.newReplacers) c
    let m ← Naming.check (m.absorbed r)
    toPlainAll known m cs

end

end Production
end ContextFree
