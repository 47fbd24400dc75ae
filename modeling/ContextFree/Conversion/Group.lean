/-
# Groups and the normal form they determine

The conversion of a production meets the groups that are not hidden in the body
of a `*`, and `X+` meets those of `X` before `X` itself. Once every group has a
helper, the plain form of a production is determined: `replace` puts the helper
of the group in the place of `X*`, and `X` followed by the helper in the place
of `X+`. `spell` writes every `X+` as `X X*`.

Read the other way, a plain production determines the extended one it came
from, up to the spelling of `+`: `Decodes` puts the repetition of the decoded
body in the place of every reference to a helper.
-/

import ContextFree.Grammar
import ContextFree.Production.Nodes

namespace ContextFree
namespace Production

mutual

/-- The groups that the conversion meets, in the order in which it looks them up. -/
def met : Production → List Production
  | .epsilon _ => []
  | .terminal _ _ => []
  | .reference _ _ => []
  | .optional _ c => met c
  | .join _ _ cs => metAll cs
  | .star c => [c]
  | .plus c => met c ++ [c]

/-- The groups met in a list of productions. -/
def metAll : List Production → List Production
  | [] => []
  | c :: cs => met c ++ metAll cs

end

/-- Siblings meet what each of them does, in turn. -/
theorem metAll_eq (cs : List Production) : metAll cs = cs.flatMap met := by
  induction cs with
  | nil => rfl
  | cons c cs ih => simp [metAll, ih]

mutual

/-- The plain production in which every group is represented by its helper. -/
def replace (helper : Production → Variable) : Production → Production
  | .epsilon _ => .epsilon .plain
  | .terminal _ t => .terminal .plain t
  | .reference _ v => .reference .plain v
  | .optional _ c => .optional .plain (replace helper c)
  | .join _ op cs => .join .plain op (replaceAll helper cs)
  | .star c => .reference .plain (helper c)
  | .plus c => .join .plain .sequence [replace helper c, .reference .plain (helper c)]

/-- The plain productions of a list. -/
def replaceAll (helper : Production → Variable) : List Production → List Production
  | [] => []
  | c :: cs => replace helper c :: replaceAll helper cs

end

/-- Of several productions each is replaced on its own. -/
theorem replaceAll_eq (helper : Production → Variable) (cs : List Production) :
    replaceAll helper cs = cs.map (replace helper) := by
  induction cs with
  | nil => rfl
  | cons c cs ih => simp [replaceAll, ih]

/-- The plain rule of the helper `v` for a group with this plain body:
`v -> eps | body v`. -/
def plainHelperRule (body : Production) (v : Variable) : Production :=
  .join .plain .alternative
    [.epsilon .plain, .join .plain .sequence [body, .reference .plain v]]

mutual

/-- The production with every `X+` written as `X X*`. -/
def spell : Production → Production
  | .epsilon d => .epsilon d
  | .terminal d t => .terminal d t
  | .reference d v => .reference d v
  | .optional d c => .optional d (spell c)
  | .join d op cs => .join d op (spellAll cs)
  | .star c => .star (spell c)
  | .plus c => .join .extended .sequence [spell c, .star (spell c)]

/-- The productions of a list with every `X+` written as `X X*`. -/
def spellAll : List Production → List Production
  | [] => []
  | c :: cs => spell c :: spellAll cs

end

/-- Of several productions each is spelled out on its own. -/
theorem spellAll_eq (cs : List Production) : spellAll cs = cs.map spell := by
  induction cs with
  | nil => rfl
  | cons c cs ih => simp [spellAll, ih]

/-- `Decodes helpers p q`: the plain production `p` reads back as the extended
`q`, where `helpers` holds the rules of the helper variables. -/
inductive Decodes (helpers : Variable → Option Production) : Production → Production → Prop where
  | epsilon : Decodes helpers (.epsilon .plain) (.epsilon .extended)
  | terminal {t : Terminal} : Decodes helpers (.terminal .plain t) (.terminal .extended t)
  | reference {v : Variable} (h : helpers v = none) :
      Decodes helpers (.reference .plain v) (.reference .extended v)
  | repetition {v : Variable} {body c : Production} (hv : helpers v = some (plainHelperRule body v))
      (h : Decodes helpers body c) : Decodes helpers (.reference .plain v) (.star c)
  | optional {p q : Production} (h : Decodes helpers p q) :
      Decodes helpers (.optional .plain p) (.optional .extended q)
  | joinNil {op : Connective} : Decodes helpers (.join .plain op []) (.join .extended op [])
  | joinCons {op : Connective} {p q : Production} {ps qs : List Production}
      (h : Decodes helpers p q) (hs : Decodes helpers (.join .plain op ps) (.join .extended op qs)) :
      Decodes helpers (.join .plain op (p :: ps)) (.join .extended op (q :: qs))

/-- **Decoding has at most one result.** -/
theorem Decodes.unique {helpers : Variable → Option Production} {p q r : Production}
    (hq : Decodes helpers p q) (hr : Decodes helpers p r) : q = r := by
  induction hq generalizing r with
  | epsilon => cases hr; rfl
  | terminal => cases hr; rfl
  | reference h =>
    cases hr with
    | reference => rfl
    | repetition hv => rw [h] at hv; cases hv
  | repetition hv _ ih =>
    cases hr with
    | reference h => rw [h] at hv; cases hv
    | repetition hv' h =>
      rw [hv] at hv'
      cases hv'
      rw [ih h]
  | optional _ ih => cases hr with | optional h => rw [ih h]
  | joinNil => cases hr; rfl
  | joinCons _ _ ih ihs =>
    cases hr with
    | joinCons h hs =>
      rw [ih h]
      have := ihs hs
      simp only [Production.join.injEq, true_and] at this
      rw [this]

end Production

/-- The groups of a grammar, rule by rule in reading order. -/
def Grammar.groups (g : Grammar) : List Production :=
  g.rules.values.flatMap Production.groups

/-- All right-hand sides of a grammar are in dialect `d`. -/
def Grammar.Within (d : Dialect) (g : Grammar) : Prop :=
  ∀ p ∈ g.rules.values, p.Within d

end ContextFree
