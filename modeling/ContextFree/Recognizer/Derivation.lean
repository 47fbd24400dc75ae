/-
# Derivations in a normal form

A sentential form is a list of symbols. One step replaces one occurrence of a
variable, anywhere in the form, by a right-hand side of that variable: a single
terminal, or two variables. Candidates in another shape replace nothing. A
variable derives a word if any number of steps lead from it to the terminals of
the word.
-/

import ContextFree.Recognizer.Grammar

namespace ContextFree

/-- The symbols that a right-hand side in normal form puts in. -/
def Candidate.symbols? : Candidate → Option (List Symbol)
  | .terminal t => some [.terminal t]
  | .pair a b => some [.nonterminal a, .nonterminal b]
  | _ => none

namespace RuleMap

/-- Whether `c` is a right-hand side of `v`. -/
def HasRule (rules : RuleMap) (v : Variable) (c : Candidate) : Prop :=
  ∃ cs, rules.get? v = some cs ∧ c ∈ cs

/-- One step: an occurrence of a variable gives way to one of its right-hand sides. -/
inductive Step (rules : RuleMap) : List Symbol → List Symbol → Prop where
  | intro {v : Variable} {c : Candidate} {xs : List Symbol} (before after : List Symbol)
      (hr : rules.HasRule v c) (hc : c.symbols? = some xs) :
      Step rules (before ++ .nonterminal v :: after) (before ++ xs ++ after)

/-- Any finite number of steps. -/
inductive Reaches (rules : RuleMap) : List Symbol → List Symbol → Prop where
  | refl (xs : List Symbol) : Reaches rules xs xs
  | step {xs ys zs : List Symbol} (h : Step rules xs ys) (hs : Reaches rules ys zs) :
      Reaches rules xs zs

/-- A variable derives a word when steps lead from it to the terminals of the word. -/
def Derives (rules : RuleMap) (v : Variable) (word : List Terminal) : Prop :=
  rules.Reaches [.nonterminal v] (word.map .terminal)

/-- Steps may be followed by steps. -/
theorem Reaches.trans {rules : RuleMap} {xs ys zs : List Symbol}
    (h₁ : rules.Reaches xs ys) (h₂ : rules.Reaches ys zs) : rules.Reaches xs zs := by
  induction h₁ with
  | refl => exact h₂
  | step h _ ih => exact .step h (ih h₂)

/-- Steps go on between other symbols. -/
theorem Reaches.between {rules : RuleMap} {xs ys : List Symbol} (h : rules.Reaches xs ys)
    (before after : List Symbol) :
    rules.Reaches (before ++ xs ++ after) (before ++ ys ++ after) := by
  induction h with
  | refl => exact .refl _
  | step h _ ih =>
    refine .step ?_ ih
    cases h with
    | intro l r hr hc =>
      have := Step.intro (before ++ l) (r ++ after) hr hc
      simpa only [List.append_assoc, List.cons_append] using this

end RuleMap
end ContextFree
