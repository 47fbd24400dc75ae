/-
# Quoted literals

The literal of a text stands between two quotation marks and keeps every
character visible:

| character | written |
| --- | --- |
| the surrounding mark, a backslash | with a backslash before it |
| line feed, carriage return, tab | `\n`, `\r`, `\t` |
| not printable, up to U+00FF | `\x` and two hexadecimal digits |
| not printable, up to U+FFFF | `\u` and four hexadecimal digits |
| not printable, any other | `\U` and eight hexadecimal digits |
| any other | itself |

The mark is an apostrophe, unless the text holds an apostrophe and no double
quotation mark. Whatever the text holds, its literal consists of printable
characters (`isPrintable_of_mem_literal`).
-/

import ContextFree.Text.Printable

namespace ContextFree
namespace Text

/-- The mark around the literal of `s`: the double quotation mark exactly when
it spares escaping an apostrophe and costs nothing. -/
def quoteMark (s : String) : Char :=
  if '\x27' ∈ s.toList ∧ '\x22' ∉ s.toList then '\x22' else '\x27'

/-- The low four bits of `n` as a lower-case hexadecimal digit. -/
def hexDigit (n : Nat) : Char :=
  Nat.digitChar (n % 16)

/-- The last `k` hexadecimal digits of `n`, the highest first. -/
def hexDigits : Nat → Nat → List Char
  | 0, _ => []
  | k + 1, n => hexDigits k (n / 16) ++ [hexDigit n]

/-- A character by its number, with as many digits as the size of the number
asks for. -/
def escapeNumber (c : Char) : List Char :=
  if c.toNat < 0x100 then '\x5c' :: 'x' :: hexDigits 2 c.toNat
  else if c.toNat < 0x10000 then '\x5c' :: 'u' :: hexDigits 4 c.toNat
  else '\x5c' :: 'U' :: hexDigits 8 c.toNat

/-- One character inside a literal that is surrounded by `mark`. -/
def escape (mark c : Char) : List Char :=
  if c = mark ∨ c = '\x5c' then ['\x5c', c]
  else if c = '\n' then ['\x5c', 'n']
  else if c = '\r' then ['\x5c', 'r']
  else if c = '\t' then ['\x5c', 't']
  else if isPrintable c then [c]
  else escapeNumber c

/-- The literal of a text. -/
def literal (s : String) : String :=
  let mark := quoteMark s
  String.ofList (mark :: s.toList.flatMap (escape mark) ++ [mark])

/-! ### What a literal consists of -/

/-- A hexadecimal digit is printable. -/
theorem isPrintable_hexDigit (n : Nat) : isPrintable (hexDigit n) := by
  have hall : ∀ d < 16, isPrintable (Nat.digitChar d) := by decide
  exact hall (n % 16) (Nat.mod_lt n (by omega))

/-- So is each of several. -/
theorem isPrintable_of_mem_hexDigits {k n : Nat} {d : Char} (h : d ∈ hexDigits k n) :
    isPrintable d := by
  induction k generalizing n with
  | zero => cases h
  | succ k ih =>
    rcases List.mem_append.1 h with h | h
    · exact ih h
    · rw [List.mem_singleton.1 h]
      exact isPrintable_hexDigit n

/-- Characters are given by their numbers in printable characters. -/
theorem isPrintable_of_mem_escapeNumber {c d : Char} (h : d ∈ escapeNumber c) :
    isPrintable d := by
  have hform {kind : Char} {k : Nat} (hkind : isPrintable kind)
      (h : d ∈ '\x5c' :: kind :: hexDigits k c.toNat) : isPrintable d := by
    rcases List.mem_cons.1 h with rfl | h
    · decide
    · rcases List.mem_cons.1 h with rfl | h
      · exact hkind
      · exact isPrintable_of_mem_hexDigits h
  unfold escapeNumber at h
  split at h
  · exact hform (by decide) h
  · split at h
    · exact hform (by decide) h
    · exact hform (by decide) h

/-- A printable mark is escaped by printable characters, and so is anything else. -/
theorem isPrintable_of_mem_escape {mark c d : Char} (hmark : isPrintable mark)
    (h : d ∈ escape mark c) : isPrintable d := by
  have hletter {letter : Char} (hletter : isPrintable letter) (h : d ∈ ['\x5c', letter]) :
      isPrintable d := by
    rcases List.mem_cons.1 h with rfl | h
    · decide
    · rwa [List.mem_singleton.1 h]
  unfold escape at h
  split at h
  · rename_i hc
    refine hletter ?_ h
    rcases hc with rfl | rfl
    · exact hmark
    · decide
  · split at h
    · exact hletter (by decide) h
    · split at h
      · exact hletter (by decide) h
      · split at h
        · exact hletter (by decide) h
        · split at h
          · rename_i hc
            rwa [List.mem_singleton.1 h]
          · exact isPrintable_of_mem_escapeNumber h

/-- **A literal keeps every character visible.** -/
theorem isPrintable_of_mem_literal {s : String} {d : Char} (h : d ∈ (literal s).toList) :
    isPrintable d := by
  have hmark : isPrintable (quoteMark s) := by
    unfold quoteMark
    split
    · decide
    · decide
  rw [literal, String.toList_ofList, List.cons_append, List.mem_cons, List.mem_append,
    List.mem_flatMap, List.mem_singleton] at h
  rcases h with rfl | ⟨c, -, h⟩ | rfl
  · exact hmark
  · exact isPrintable_of_mem_escape hmark h
  · exact hmark

/-- An accented letter is shown, and a space without width is not. -/
example : literal "é\u200b" = "'é\\u200b'" := by decide +kernel

end Text
end ContextFree
