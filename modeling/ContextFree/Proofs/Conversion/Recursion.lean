/-
# How a conversion calls itself

The conversion of a production is put together from the conversions of others,
its `calls`: its children, and for `X+` the sequence `X X*`, which is larger than
`X+` itself. `level` is what is done with them. The main statements are that
every call takes less effort (`effort_lt_of_mem_calls`) and that nothing but the
conversions of the calls is needed (`level_eq_toPlain`): the equations for `X+`
and the other nodes have one solution, which is the conversion
(`eq_toPlain_iff`).
-/

import ContextFree.Proofs.Conversion.Walk

namespace ContextFree
namespace Production

/-- The productions whose conversions make up that of a production. The body of
`X*` is not converted, and `X+` is converted as `X X*`. -/
def calls : Production → List Production
  | .epsilon _ => []
  | .terminal _ _ => []
  | .reference _ _ => []
  | .optional _ c => [c]
  | .join _ _ cs => cs
  | .star _ => []
  | .plus c => [.join .extended .sequence [c, .star c]]

mutual

/-- How much there is to do to convert a production. A `+` counts twice, once for
the sequence that takes its place. -/
def effort : Production → Nat
  | .epsilon _ => 0
  | .terminal _ _ => 0
  | .reference _ _ => 0
  | .optional _ c => effort c + 1
  | .join _ _ cs => effortAll cs + 1
  | .star _ => 0
  | .plus c => effort c + 2

/-- How much there is to do for a list of productions. -/
def effortAll : List Production → Nat
  | [] => 0
  | c :: cs => effort c + effortAll cs

end

/-- A member of a list takes no more effort than the list. -/
theorem effort_le_effortAll {c : Production} {cs : List Production} (h : c ∈ cs) :
    c.effort ≤ effortAll cs := by
  induction cs with
  | nil => exact absurd h List.not_mem_nil
  | cons x cs ih =>
    rw [effortAll]
    rcases List.mem_cons.1 h with rfl | h
    · exact Nat.le_add_right _ _
    · exact (ih h).trans (Nat.le_add_left _ _)

/-- **Every call takes less effort,** that for `X+` included. -/
theorem effort_lt_of_mem_calls {p q : Production} (h : q ∈ p.calls) : q.effort < p.effort := by
  cases p with
  | epsilon d | terminal d _ | reference d _ | star _ => exact absurd h List.not_mem_nil
  | optional d c =>
    rw [List.mem_singleton.1 h, effort]
    exact Nat.lt_succ_self _
  | join d op cs =>
    rw [effort]
    exact Nat.lt_succ_of_le (effort_le_effortAll h)
  | plus c =>
    rw [List.mem_singleton.1 h]
    simp [effort, effortAll]

/-- Converts siblings with the conversion `convert` and merges them into `m`. -/
def levelAll (convert : Known → Production → Naming.Run Conversion) (known : Known) (m : Merged) :
    List Production → Naming.Run Merged
  | [] => return m
  | c :: cs => do
    let r ← convert (known.over m.newReplacers) c
    let m ← Naming.check (m.absorbed r)
    levelAll convert known m cs

/-- One level of the conversion: what is done for a production when `convert` does
its calls. -/
def level (convert : Known → Production → Naming.Run Conversion) (known : Known) (p : Production) :
    Naming.Run Conversion :=
  if p.dialect = .extended then
    match p with
    | .epsilon _ => return { output := .epsilon .plain }
    | .terminal _ t => return { output := .terminal .plain t }
    | .reference _ v => return { output := .reference .plain v }
    | .optional _ c => do
      let r ← convert known c
      return { r with output := .optional .plain r.output }
    | .join _ op cs => do
      let m ← levelAll convert known {} cs
      return m.join op
    | .star c => replaceStar known c
    | .plus c => convert known (.join .extended .sequence [c, .star c])
  else throw (.foreignNode p)

variable {convert : Known → Production → Naming.Run Conversion}

/-- Siblings are converted alike by two conversions that agree on each of them. -/
theorem levelAll_eq_toPlainAll {cs : List Production}
    (h : ∀ q ∈ cs, ∀ known, convert known q = toPlain known q) (known : Known) (m : Merged) :
    levelAll convert known m cs = toPlainAll known m cs := by
  induction cs generalizing m with
  | nil => rw [levelAll, toPlainAll]
  | cons c cs ih =>
    rw [levelAll, toPlainAll, h c List.mem_cons_self]
    simp only [ih fun q hq => h q (List.mem_cons_of_mem c hq)]

/-- **Nothing but the conversions of the calls is needed** for a conversion. -/
theorem level_eq_toPlain {p : Production}
    (h : ∀ q ∈ p.calls, ∀ known, convert known q = toPlain known q) (known : Known) :
    level convert known p = toPlain known p := by
  cases p with
  | epsilon d | terminal d _ | reference d _ | star _ => rw [level, toPlain]
  | optional d c => rw [level, toPlain, h c List.mem_cons_self]
  | join d op cs =>
    have hcs : ∀ q ∈ cs, ∀ known, convert known q = toPlain known q := h
    rw [level, toPlain, levelAll_eq_toPlainAll hcs]
  | plus c =>
    rw [toPlain_plus, level, ← h _ List.mem_cons_self]
    rfl

/-- **The equations of all levels have one solution.** -/
theorem eq_toPlain_iff :
    (∀ known p, convert known p = level convert known p) ↔ convert = toPlain := by
  constructor
  · intro h
    funext known p
    induction hn : p.effort using Nat.strong_induction_on generalizing known p with
    | _ n ih =>
      rw [h]
      exact level_eq_toPlain (fun q hq known =>
        ih q.effort (hn ▸ effort_lt_of_mem_calls hq) known q rfl) known
  · rintro rfl known p
    exact (level_eq_toPlain (fun _ _ _ => rfl) known).symm

end Production
end ContextFree
