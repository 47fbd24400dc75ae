/-
# The calls of a recipe

What a recipe is made of, without building it: `leaves op` are the recipes that calls
of one joining kind bring together, however these calls are nested, and `raw` are the
productions that were made in another way. A property that the calls keep holds of
what a recipe builds (`holds_of_build`).
-/

import ContextFree.Production.Builder

namespace ContextFree
namespace Recipe

/-- **Induction on recipes:** a call may assume the property of every argument. -/
theorem induction {motive : Recipe → Prop}
    (given : ∀ p, motive (.given p))
    (epsilon : motive .epsilon)
    (terminal : ∀ t, motive (.terminal t))
    (reference : ∀ v, motive (.reference v))
    (join : ∀ op args, (∀ a ∈ args, motive a) → motive (.join op args))
    (operator : ∀ op left right, motive left → motive right → motive (.operator op left right))
    (optional : ∀ args, (∀ a ∈ args, motive a) → motive (.optional args))
    (zeroOrMore : ∀ args, (∀ a ∈ args, motive a) → motive (.zeroOrMore args))
    (oneOrMore : ∀ args, (∀ a ∈ args, motive a) → motive (.oneOrMore args))
    (r : Recipe) : motive r :=
  Recipe.rec (motive_1 := motive) (motive_2 := fun args => ∀ a ∈ args, motive a)
    given epsilon terminal reference join operator optional zeroOrMore oneOrMore
    (fun _ h => absurd h List.not_mem_nil)
    (fun _ _ ha has x hx => (List.mem_cons.1 hx).elim (fun e => e ▸ ha) (has x)) r

/-- A joining call of kind `op`, written as a call or as an operator. -/
inductive IsCall (op : Connective) : Recipe → Prop where
  | join (args : List Recipe) : IsCall op (.join op args)
  | operator (left right : Recipe) : IsCall op (.operator op left right)

mutual

/-- What nested joining calls of kind `op` bring together, from left to right; any
other recipe stands for itself. -/
def leaves (op : Connective) : Recipe → List Recipe
  | .given p => [.given p]
  | .epsilon => [.epsilon]
  | .terminal t => [.terminal t]
  | .reference v => [.reference v]
  | .join op' args => if op' = op then leavesAll op args else [.join op' args]
  | .operator op' left right =>
      if op' = op then leaves op left ++ leaves op right else [.operator op' left right]
  | .optional args => [.optional args]
  | .zeroOrMore args => [.zeroOrMore args]
  | .oneOrMore args => [.oneOrMore args]

/-- What the recipes in a list bring together. -/
def leavesAll (op : Connective) : List Recipe → List Recipe
  | [] => []
  | r :: rs => leaves op r ++ leavesAll op rs

end

/-- Only joining calls have other leaves than themselves. -/
theorem leaves_of_not_isCall {op : Connective} {r : Recipe} (h : ¬ r.IsCall op) :
    r.leaves op = [r] := by
  cases r with
  | join op' args =>
    rw [leaves, if_neg]
    rintro rfl
    exact h (.join args)
  | operator op' left right =>
    rw [leaves, if_neg]
    rintro rfl
    exact h (.operator left right)
  | _ => rfl

mutual

/-- The productions in a recipe that no call of it has made. -/
def raw : Recipe → List Production
  | .given p => [p]
  | .epsilon => []
  | .terminal _ => []
  | .reference _ => []
  | .join _ args => rawAll args
  | .operator _ left right => raw left ++ raw right
  | .optional args => rawAll args
  | .zeroOrMore args => rawAll args
  | .oneOrMore args => rawAll args

/-- The productions in a list of recipes that no call of them has made. -/
def rawAll : List Recipe → List Production
  | [] => []
  | r :: rs => raw r ++ rawAll rs

end

/-! ### What is built -/

variable {d : Dialect} {r : Recipe} {rs rs' args : List Recipe} {p : Production}
  {ps : List Production}

/-- A list of recipes is built one after another. -/
theorem buildAll_cons_eq_ok_iff :
    buildAll d (r :: rs) = .ok ps ↔
      ∃ q qs, r.build d = .ok q ∧ buildAll d rs = .ok qs ∧ ps = q :: qs := by
  rw [buildAll]
  cases r.build d with
  | error f => simp [bind, Except.bind]
  | ok q =>
    cases buildAll d rs with
    | error f => simp [bind, Except.bind]
    | ok qs => simp [bind, Except.bind, pure, Except.pure, eq_comm]

/-- Two lists of arguments are built exactly when each of them is. -/
theorem buildAll_append_eq_ok_iff :
    buildAll d (rs ++ rs') = .ok ps ↔
      ∃ qs qs', buildAll d rs = .ok qs ∧ buildAll d rs' = .ok qs' ∧ ps = qs ++ qs' := by
  induction rs generalizing ps with
  | nil => simp [buildAll]
  | cons r rs ih =>
    simp only [List.cons_append, buildAll_cons_eq_ok_iff, ih]
    constructor
    · rintro ⟨q, _, hq, ⟨qs, qs', hqs, hqs', rfl⟩, rfl⟩
      exact ⟨q :: qs, qs', ⟨q, qs, hq, hqs, rfl⟩, hqs', rfl⟩
    · rintro ⟨_, qs', ⟨q, qs, hq, hqs, rfl⟩, hqs', rfl⟩
      exact ⟨q, qs ++ qs', hq, ⟨qs, qs', hqs, hqs', rfl⟩, rfl⟩

/-- A joining call succeeds exactly when its arguments do, and joins them. -/
theorem build_join_eq_ok_iff {op : Connective} :
    (join op args).build d = .ok p ↔
      ∃ ps, buildAll d args = .ok ps ∧ p = Production.joinOf d op ps := by
  rw [build]
  cases buildAll d args <;> simp [Except.map, eq_comm]

/-- An operator needs an extended production on its left, and joins both in that dialect. -/
theorem build_operator_eq_ok_iff {op : Connective} {left right : Recipe} :
    (operator op left right).build d = .ok p ↔
      ∃ q q', left.build d = .ok q ∧ right.build d = .ok q' ∧ q.dialect = .extended ∧
        p = Production.joinOf .extended op [q, q'] := by
  rw [build]
  cases left.build d with
  | error f => simp [bind, Except.bind]
  | ok q =>
    cases right.build d with
    | error f => simp [bind, Except.bind]
    | ok q' => simp [bind, Except.bind, Production.operate_eq_ok_iff]

/-- A call on a group makes its node of what the group comes to. -/
theorem bind_group_eq_ok_iff {x : Except Fault (List Production)} {node : Production → Production} :
    x.bind (fun ps => (Production.group ps).map node) = .ok p ↔
      ∃ ps q, x = .ok ps ∧ Production.group ps = .ok q ∧ p = node q := by
  cases x with
  | error f => simp [Except.bind]
  | ok ps => cases h : Production.group ps <;> simp [Except.bind, Except.map, h, eq_comm]

/-- A call for an optional part makes a group of its arguments. -/
theorem build_optional_eq_ok_iff :
    (optional args).build .extended = .ok p ↔ ∃ ps q, buildAll .extended args = .ok ps ∧
      Production.group ps = .ok q ∧ p = .optional .extended q := by
  rw [build]
  exact bind_group_eq_ok_iff

/-- A call for a repetition makes a group of its arguments. -/
theorem build_zeroOrMore_eq_ok_iff :
    (zeroOrMore args).build d = .ok p ↔ ∃ ps q, buildAll d args = .ok ps ∧
      Production.group ps = .ok q ∧ p = .star q := by
  rw [build]
  exact bind_group_eq_ok_iff

/-- So does a call for a repetition of at least once. -/
theorem build_oneOrMore_eq_ok_iff :
    (oneOrMore args).build d = .ok p ↔ ∃ ps q, buildAll d args = .ok ps ∧
      Production.group ps = .ok q ∧ p = .plus q := by
  rw [build]
  exact bind_group_eq_ok_iff

section kept

/-! A property is kept by the calls if everything that a call makes has it once the
arguments have. -/

variable {P : Production → Prop}

/-- **What the calls keep holds of everything built** from productions that have it. -/
theorem holds_of_build (hepsilon : P (.epsilon .extended))
    (hterminal : ∀ t, P (.terminal .extended t)) (hreference : ∀ v, P (.reference .extended v))
    (hjoin : ∀ op ps, (∀ q ∈ ps, P q) → P (Production.joinOf .extended op ps))
    (hgroup : ∀ ps q, (∀ q ∈ ps, P q) → Production.group ps = .ok q →
      P (.optional .extended q) ∧ P (.star q) ∧ P (.plus q))
    (hraw : ∀ q ∈ r.raw, P q) (h : r.build .extended = .ok p) : P p := by
  have hargs {args : List Recipe}
      (ih : ∀ a ∈ args, ∀ {p}, (∀ q ∈ a.raw, P q) → a.build .extended = .ok p → P p)
      {ps : List Production} (hraw : ∀ q ∈ rawAll args, P q)
      (hps : buildAll .extended args = .ok ps) : ∀ q ∈ ps, P q := by
    induction args generalizing ps with
    | nil =>
      cases hps
      exact nofun
    | cons a args iha =>
      obtain ⟨q, qs, hq, hqs, rfl⟩ := buildAll_cons_eq_ok_iff.1 hps
      obtain ⟨ha, has⟩ := List.forall_mem_append.1 hraw
      obtain ⟨ih, ihs⟩ := List.forall_mem_cons.1 ih
      exact List.forall_mem_cons.2 ⟨ih ha hq, iha ihs has hqs⟩
  induction r using induction generalizing p with
  | given q =>
    cases h
    exact hraw q List.mem_cons_self
  | epsilon =>
    cases h
    exact hepsilon
  | terminal t =>
    cases h
    exact hterminal t
  | reference v =>
    cases h
    exact hreference v
  | join op args ih =>
    obtain ⟨ps, hps, rfl⟩ := build_join_eq_ok_iff.1 h
    exact hjoin op ps (hargs ih hraw hps)
  | operator op left right ihl ihr =>
    obtain ⟨q, q', hq, hq', -, rfl⟩ := build_operator_eq_ok_iff.1 h
    obtain ⟨hl, hr⟩ := List.forall_mem_append.1 hraw
    exact hjoin op [q, q'] (by simp [ihl hl hq, ihr hr hq'])
  | optional args ih =>
    obtain ⟨ps, q, hps, hq, rfl⟩ := build_optional_eq_ok_iff.1 h
    exact (hgroup ps q (hargs ih hraw hps) hq).1
  | zeroOrMore args ih =>
    obtain ⟨ps, q, hps, hq, rfl⟩ := build_zeroOrMore_eq_ok_iff.1 h
    exact (hgroup ps q (hargs ih hraw hps) hq).2.1
  | oneOrMore args ih =>
    obtain ⟨ps, q, hps, hq, rfl⟩ := build_oneOrMore_eq_ok_iff.1 h
    exact (hgroup ps q (hargs ih hraw hps) hq).2.2

end kept

end Recipe
end ContextFree
