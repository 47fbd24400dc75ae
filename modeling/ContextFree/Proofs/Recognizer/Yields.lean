/-
# Derivations in any order and derivations by spans

The steps of a derivation replace variables anywhere, in any order, so that the
steps for one part of a form may be scattered among those for another. `Yields`
says the same about words alone: a variable yields a single terminal by a rule
for it, and otherwise a word in two parts, by a rule with two variables that
yield the parts. The main statement is `derives_iff_yields`.

The way from steps to spans goes through forms: `Spells` cuts a word into parts
for the symbols of a form, and a step backwards keeps that there is such a cut
(`Step.spells`).
-/

import ContextFree.Recognizer.Derivation

namespace ContextFree
namespace RuleMap

variable {rules : RuleMap}

/-- What a variable yields, rule by rule from the variable down. -/
inductive Yields (rules : RuleMap) : Variable → List Terminal → Prop where
  | terminal {v : Variable} {t : Terminal} (h : rules.HasRule v (.terminal t)) :
      Yields rules v [t]
  | pair {v a b : Variable} {left right : List Terminal} (h : rules.HasRule v (.pair a b))
      (ha : Yields rules a left) (hb : Yields rules b right) : Yields rules v (left ++ right)

/-- Nothing yields the empty word. -/
theorem Yields.length_pos {v : Variable} {word : List Terminal} (h : rules.Yields v word) :
    0 < word.length := by
  induction h with
  | terminal => exact Nat.one_pos
  | pair _ _ _ iha _ =>
    rw [List.length_append]
    omega

/-- A single terminal is yielded by a rule for it. -/
theorem yields_singleton_iff {v : Variable} {t : Terminal} :
    rules.Yields v [t] ↔ rules.HasRule v (.terminal t) := by
  constructor
  · generalize hword : [t] = word
    intro h
    cases h with
    | terminal h =>
      obtain rfl := List.singleton_inj.1 hword
      exact h
    | pair _ ha hb =>
      have hlength := congrArg List.length hword
      have hleft := ha.length_pos
      have hright := hb.length_pos
      rw [List.length_append, List.length_singleton] at hlength
      omega
  · exact .terminal

/-- **A longer word is yielded in two parts**, neither of which is empty. -/
theorem yields_iff_split {v : Variable} {word : List Terminal} (hword : 2 ≤ word.length) :
    rules.Yields v word ↔ ∃ k, 0 < k ∧ k < word.length ∧ ∃ a b, rules.HasRule v (.pair a b) ∧
      rules.Yields a (word.take k) ∧ rules.Yields b (word.drop k) := by
  constructor
  · intro h
    cases h with
    | terminal => exact absurd hword (by simp)
    | @pair _ a b left right h ha hb =>
      have hleft := ha.length_pos
      have hright := hb.length_pos
      refine ⟨left.length, hleft, ?_, a, b, h, ?_, ?_⟩
      · rw [List.length_append]
        omega
      · rwa [List.take_left]
      · rwa [List.drop_left]
  · rintro ⟨k, -, -, a, b, h, ha, hb⟩
    rw [← List.take_append_drop k word]
    exact .pair h ha hb

/-! ### From spans to steps -/

/-- Two forms side by side are rewritten one after the other. -/
theorem Reaches.append {xs xs' ys ys' : List Symbol} (hx : rules.Reaches xs xs')
    (hy : rules.Reaches ys ys') : rules.Reaches (xs ++ ys) (xs' ++ ys') := by
  have hfirst : rules.Reaches (xs ++ ys) (xs' ++ ys) := by simpa using hx.between [] ys
  have hsecond : rules.Reaches (xs' ++ ys) (xs' ++ ys') := by simpa using hy.between xs' []
  exact hfirst.trans hsecond

/-- What a variable yields, it derives. -/
theorem Yields.derives {v : Variable} {word : List Terminal} (h : rules.Yields v word) :
    rules.Derives v word := by
  induction h with
  | terminal h => exact .step (.intro [] [] h rfl) (.refl _)
  | @pair v a b left right h _ _ iha ihb =>
    have hparts : rules.Reaches [.nonterminal a, .nonterminal b]
        (left.map .terminal ++ right.map .terminal) := Reaches.append iha ihb
    rw [← List.map_append] at hparts
    exact .step (.intro [] [] h rfl) hparts

/-! ### From steps to spans -/

/-- A form spells a word that can be cut into its terminals and into words that
its variables yield. -/
def Spells (rules : RuleMap) : List Symbol → List Terminal → Prop
  | [], word => word = []
  | .terminal t :: xs, word => ∃ rest, word = t :: rest ∧ Spells rules xs rest
  | .nonterminal v :: xs, word =>
      ∃ part rest, word = part ++ rest ∧ rules.Yields v part ∧ Spells rules xs rest

/-- The terminals of a word spell the word. -/
theorem spells_terminals (word : List Terminal) : rules.Spells (word.map .terminal) word := by
  induction word with
  | nil => rfl
  | cons t word ih => exact ⟨word, rfl, ih⟩

/-- **Two forms side by side spell their words one after the other.** -/
theorem spells_append_iff {xs ys : List Symbol} {word : List Terminal} :
    rules.Spells (xs ++ ys) word ↔
      ∃ left right, word = left ++ right ∧ rules.Spells xs left ∧ rules.Spells ys right := by
  induction xs generalizing word with
  | nil =>
    constructor
    · exact fun h => ⟨[], word, rfl, rfl, h⟩
    · rintro ⟨_, right, rfl, rfl, hr⟩
      exact hr
  | cons x xs ih =>
    cases x with
    | terminal t =>
      simp only [List.cons_append, Spells, ih]
      constructor
      · rintro ⟨_, rfl, left, right, rfl, hl, hr⟩
        exact ⟨t :: left, right, rfl, ⟨left, rfl, hl⟩, hr⟩
      · rintro ⟨_, right, rfl, ⟨left, rfl, hl⟩, hr⟩
        exact ⟨left ++ right, rfl, left, right, rfl, hl, hr⟩
    | nonterminal v =>
      simp only [List.cons_append, Spells, ih]
      constructor
      · rintro ⟨part, _, rfl, hv, left, right, rfl, hl, hr⟩
        exact ⟨part ++ left, right, (List.append_assoc ..).symm, ⟨part, left, rfl, hv, hl⟩, hr⟩
      · rintro ⟨_, right, rfl, ⟨part, left, rfl, hv, hl⟩, hr⟩
        exact ⟨part, left ++ right, List.append_assoc .., hv, left, right, rfl, hl, hr⟩

/-- A single variable spells what it yields. -/
theorem spells_singleton_iff {v : Variable} {word : List Terminal} :
    rules.Spells [.nonterminal v] word ↔ rules.Yields v word := by
  constructor
  · rintro ⟨part, _, rfl, hv, rfl⟩
    rwa [List.append_nil]
  · exact fun hv => ⟨word, [], (List.append_nil word).symm, hv, rfl⟩

/-- A right-hand side spells only what its variable yields. -/
theorem HasRule.yields {v : Variable} {c : Candidate} {xs : List Symbol} {word : List Terminal}
    (hr : rules.HasRule v c) (hc : c.symbols? = some xs) (hw : rules.Spells xs word) :
    rules.Yields v word := by
  cases c with
  | terminal t =>
    cases hc
    obtain ⟨_, rfl, rfl⟩ := hw
    exact .terminal hr
  | pair a b =>
    cases hc
    obtain ⟨left, rest, rfl, ha, hb⟩ := hw
    exact .pair hr ha (spells_singleton_iff.1 hb)
  | production _ | symbol _ | text _ | other _ | shapeless => cases hc

/-- **A step backwards:** the form before a step spells what the one after it does. -/
theorem Step.spells {xs ys : List Symbol} {word : List Terminal} (h : rules.Step xs ys)
    (hw : rules.Spells ys word) : rules.Spells xs word := by
  cases h with
  | @intro v c body before after hr hc =>
    rw [List.append_assoc] at hw
    obtain ⟨left, _, rfl, hleft, hw⟩ := spells_append_iff.1 hw
    obtain ⟨part, right, rfl, hpart, hright⟩ := spells_append_iff.1 hw
    exact spells_append_iff.2
      ⟨left, part ++ right, rfl, hleft, part, right, rfl, hr.yields hc hpart, hright⟩

/-- A form from which steps lead to a word spells it. -/
theorem Reaches.spells {xs ys : List Symbol} {word : List Terminal} (h : rules.Reaches xs ys)
    (hw : rules.Spells ys word) : rules.Spells xs word := by
  induction h with
  | refl => exact hw
  | step hstep _ ih => exact hstep.spells (ih hw)

/-- **The order of the steps does not matter:** a variable derives exactly what it
yields. -/
theorem derives_iff_yields {v : Variable} {word : List Terminal} :
    rules.Derives v word ↔ rules.Yields v word := by
  constructor
  · exact fun h => spells_singleton_iff.1 (Reaches.spells h (spells_terminals word))
  · exact Yields.derives

end RuleMap
end ContextFree
