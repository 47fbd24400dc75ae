/-
# Terminals, variables and symbols

A terminal stands for itself in the words of a language; a variable names the
left-hand side of a rule. Both are plain values: two terminals with the same
text are the same terminal, and so for variables. A symbol is either of them.
Symbols of one kind are ordered by their text, code point by code point;
symbols of different kinds are not comparable.
-/

namespace ContextFree

/-- A symbol that shows up literally in the words of a language. -/
structure Terminal where
  value : String
deriving DecidableEq

/-- A name for the left-hand side of a rule. -/
structure Variable where
  name : String
deriving DecidableEq

/-- A terminal is shown between apostrophes, its own text unchanged. -/
def Terminal.text (t : Terminal) : String :=
  "'" ++ t.value ++ "'"

/-- A variable is shown by its bare name. -/
def Variable.text (v : Variable) : String :=
  v.name

namespace Variable

/-- Variables are ordered by name. -/
instance : LT Variable where
  lt a b := a.name < b.name

instance : DecidableLT Variable := fun a b =>
  inferInstanceAs (Decidable (a.name < b.name))

/-- Variables are in the order of their names. -/
theorem lt_def {a b : Variable} : a < b ↔ a.name < b.name := Iff.rfl

/-- No variable comes before itself. -/
theorem lt_irrefl (a : Variable) : ¬ a < a :=
  String.lt_irrefl a.name

/-- The order of variables is transitive. -/
theorem lt_trans {a b c : Variable} (hab : a < b) (hbc : b < c) : a < c :=
  String.lt_trans hab hbc

/-- Of two variables at most one comes before the other. -/
theorem lt_asymm {a b : Variable} (h : a < b) : ¬ b < a :=
  String.lt_asymm h

/-- Of two different variables one comes first. -/
theorem lt_or_lt_of_ne {a b : Variable} (h : a ≠ b) : a < b ∨ b < a := by
  rcases a with ⟨x⟩
  rcases b with ⟨y⟩
  simp only [lt_def]
  by_cases hxy : x < y
  · exact .inl hxy
  · by_cases hyx : y < x
    · exact .inr hyx
    · exact absurd (String.le_antisymm (String.not_lt.1 hyx) (String.not_lt.1 hxy))
        (fun e => h (by rw [e]))

end Variable

/-- A terminal or a variable. -/
inductive Symbol where
  | terminal (t : Terminal)
  | nonterminal (v : Variable)
deriving DecidableEq

namespace Symbol

/-- A symbol is shown as the terminal or variable that it is. -/
def text : Symbol → String
  | .terminal t => t.text
  | .nonterminal v => v.text

/-- The text by which symbols of one kind are ordered. -/
def key : Symbol → String
  | .terminal t => t.value
  | .nonterminal v => v.name

/-- Whether two symbols are both terminals or both variables. -/
def sameKind : Symbol → Symbol → Bool
  | .terminal _, .terminal _ => true
  | .nonterminal _, .nonterminal _ => true
  | _, _ => false

/-- **A symbol is its kind and its key.** -/
theorem eq_iff_sameKind_and_key {a b : Symbol} : a = b ↔ a.sameKind b ∧ a.key = b.key := by
  rcases a with ⟨⟨x⟩⟩ | ⟨⟨x⟩⟩ <;> rcases b with ⟨⟨y⟩⟩ | ⟨⟨y⟩⟩ <;> simp [sameKind, key]

/-- The order of two symbols of one kind; `none` across kinds. -/
def compare? (a b : Symbol) : Option Ordering :=
  if a.sameKind b then some (compare a.key b.key) else none

end Symbol
end ContextFree
