/-
# Comparing and sorting symbols

Comparing a terminal with a variable is a fault, and so is sorting a list that
holds both. A list of symbols of one kind is sorted by text, and equal symbols
keep their order.
-/

import ContextFree.Fault

namespace ContextFree
namespace Symbol

/-- The order of two symbols of one kind. -/
def order (a b : Symbol) : Except Fault Ordering :=
  match a.compare? b with
  | some o => .ok o
  | none => .error .mixedOrder

/-- Whether all symbols of a list are of one kind. -/
def uniform : List Symbol → Bool
  | [] => true
  | a :: as => as.all a.sameKind

/-- The list in increasing order. -/
def sort (symbols : List Symbol) : Except Fault (List Symbol) :=
  if uniform symbols then .ok (symbols.mergeSort fun a b => (compare a.key b.key).isLE)
  else .error .mixedOrder

/-- The number of different symbols in a list. -/
def countDistinct (symbols : List Symbol) : Nat :=
  symbols.eraseDups.length

/-- Each symbol of a list with the one after it. -/
def adjacent (symbols : List Symbol) : List (Symbol × Symbol) :=
  symbols.zip symbols.tail

/-- Sorting faults exactly on a list with symbols of both kinds. -/
theorem sort_eq_error_iff {symbols : List Symbol} :
    sort symbols = .error .mixedOrder ↔ ∃ a ∈ symbols, ∃ b ∈ symbols, ¬ a.sameKind b := by
  have kind {a b c : Symbol} (hab : a.sameKind b) (hac : a.sameKind c) : b.sameKind c := by
    rcases a with _ | _ <;> rcases b with _ | _ <;> rcases c with _ | _ <;> simp_all [sameKind]
  have refl (a : Symbol) : a.sameKind a := by rcases a with _ | _ <;> rfl
  cases symbols with
  | nil => simp [sort, uniform]
  | cons a as =>
    by_cases h : as.all a.sameKind
    · simp only [sort, uniform, h, if_true, reduceCtorEq, false_iff]
      rintro ⟨b, hb, c, hc, hbc⟩
      have near {x : Symbol} (hx : x ∈ a :: as) : a.sameKind x := by
        rcases List.mem_cons.1 hx with rfl | hx
        · exact refl x
        · exact List.all_eq_true.1 h x hx
      exact hbc (kind (near hb) (near hc))
    · simp only [sort, uniform, h, Bool.false_eq_true, if_false, true_iff]
      simp only [List.all_eq_true, Classical.not_forall] at h
      obtain ⟨b, hb, hab⟩ := h
      exact ⟨a, List.mem_cons_self, b, List.mem_cons_of_mem a hb, hab⟩

end Symbol
end ContextFree
