/-
# The words that a variable derives

A variable derives a word when its rule matches it, and the variables in the
rule stand for words that they derive themselves. Derivations are finite: the
variables of a rule stand for words derived in fewer levels, and at level zero
nothing is derived. A variable without a rule derives nothing.
-/

import ContextFree.Grammar
import ContextFree.Production.Meaning

namespace ContextFree
namespace Grammar

/-- The words derived within `n` levels of rules. -/
def derivesWithin (g : Grammar) : Nat → Assignment
  | 0 => fun _ _ => False
  | n + 1 => fun v w => ∃ p, g.rules.get? v = some p ∧ p.Matches (g.derivesWithin n) w

/-- The words that a variable derives. -/
def Derives (g : Grammar) : Assignment := fun v w =>
  ∃ n, g.derivesWithin n v w

/-- More levels derive more words. -/
theorem derivesWithin_succ {g : Grammar} {n : Nat} {v : Variable} {w : Word}
    (h : g.derivesWithin n v w) : g.derivesWithin (n + 1) v w := by
  induction n generalizing v w with
  | zero => exact h.elim
  | succ n ih =>
    obtain ⟨p, hp, hw⟩ := h
    exact ⟨p, hp, hw.mono fun _ _ => ih⟩

/-- What is derived at one depth is derived at every greater one. -/
theorem derivesWithin_mono {g : Grammar} {m n : Nat} (hmn : m ≤ n) {v : Variable} {w : Word}
    (h : g.derivesWithin m v w) : g.derivesWithin n v w := by
  induction hmn with
  | refl => exact h
  | step _ ih => exact derivesWithin_succ ih

/-- A match that uses derived words uses finitely many levels. -/
theorem exists_matches_derivesWithin {g : Grammar} {p : Production} {w : Word}
    (h : p.Matches g.Derives w) : ∃ n, p.Matches (g.derivesWithin n) w := by
  have up {m n : Nat} (hmn : m ≤ n) {q : Production} {u : Word}
      (hq : q.Matches (g.derivesWithin m) u) : q.Matches (g.derivesWithin n) u :=
    hq.mono fun _ _ => derivesWithin_mono hmn
  induction h with
  | epsilon => exact ⟨0, .epsilon⟩
  | terminal => exact ⟨0, .terminal⟩
  | reference h => exact h.imp fun _ => .reference
  | absent => exact ⟨0, .absent⟩
  | present _ ih => exact ih.imp fun _ => .present
  | alternative hc _ ih => exact ih.imp fun _ => .alternative hc
  | sequenceNil => exact ⟨0, .sequenceNil⟩
  | sequenceCons _ _ ih ihs =>
    obtain ⟨m, hm⟩ := ih
    obtain ⟨n, hn⟩ := ihs
    exact ⟨max m n, .sequenceCons (up (Nat.le_max_left m n) hm) (up (Nat.le_max_right m n) hn)⟩
  | starNil => exact ⟨0, .starNil⟩
  | starCons _ _ ih ihs =>
    obtain ⟨m, hm⟩ := ih
    obtain ⟨n, hn⟩ := ihs
    exact ⟨max m n, .starCons (up (Nat.le_max_left m n) hm) (up (Nat.le_max_right m n) hn)⟩
  | plus _ _ ih ihs =>
    obtain ⟨m, hm⟩ := ih
    obtain ⟨n, hn⟩ := ihs
    exact ⟨max m n, .plus (up (Nat.le_max_left m n) hm) (up (Nat.le_max_right m n) hn)⟩

/-- **The derived words solve the rules:** a variable derives what its rule
matches, and nothing else. -/
theorem derives_iff {g : Grammar} {v : Variable} {w : Word} :
    g.Derives v w ↔ ∃ p, g.rules.get? v = some p ∧ p.Matches g.Derives w := by
  constructor
  · rintro ⟨_ | n, h⟩
    · exact h.elim
    · obtain ⟨p, hp, hw⟩ := h
      exact ⟨p, hp, hw.mono fun _ _ hu => ⟨n, hu⟩⟩
  · rintro ⟨p, hp, hw⟩
    obtain ⟨n, hn⟩ := exists_matches_derivesWithin hw
    exact ⟨n + 1, p, hp, hn⟩

/-- **They are the least solution:** every assignment that the rules stay within
holds all derived words. -/
theorem derives_le {g : Grammar} {E : Assignment}
    (hE : ∀ v p w, g.rules.get? v = some p → p.Matches E w → E v w) {v : Variable} {w : Word}
    (h : g.Derives v w) : E v w := by
  obtain ⟨n, h⟩ := h
  induction n generalizing v w with
  | zero => exact h.elim
  | succ n ih =>
    obtain ⟨p, hp, hw⟩ := h
    exact hE v p w hp (hw.mono fun _ _ => ih)

end Grammar
end ContextFree
