/-
# What productions match

A production matches words over terminals, once it is known which words each
variable stands for. The relation `Matches` has one rule for each way to match:
an alternative without children matches nothing, a sequence without children
only the empty word, and a repetition any number of words of its child one
after another. Both dialects mean the same.
-/

import ContextFree.Production.Basic

namespace ContextFree

/-- A word: the terminals that it is made of. -/
abbrev Word := List Terminal

/-- The words that each variable stands for. -/
abbrev Assignment := Variable → Word → Prop

namespace Production

/-- `p` matches a word when each variable `v` stands for the words in `E v`. -/
inductive Matches (E : Assignment) : Production → Word → Prop where
  | epsilon {d : Dialect} : Matches E (.epsilon d) []
  | terminal {d : Dialect} {t : Terminal} : Matches E (.terminal d t) [t]
  | reference {d : Dialect} {v : Variable} {w : Word} (h : E v w) : Matches E (.reference d v) w
  | absent {d : Dialect} {c : Production} : Matches E (.optional d c) []
  | present {d : Dialect} {c : Production} {w : Word} (h : Matches E c w) :
      Matches E (.optional d c) w
  | alternative {d : Dialect} {cs : List Production} {c : Production} {w : Word}
      (hc : c ∈ cs) (h : Matches E c w) : Matches E (.join d .alternative cs) w
  | sequenceNil {d : Dialect} : Matches E (.join d .sequence []) []
  | sequenceCons {d : Dialect} {c : Production} {cs : List Production} {u w : Word}
      (h : Matches E c u) (hs : Matches E (.join d .sequence cs) w) :
      Matches E (.join d .sequence (c :: cs)) (u ++ w)
  | starNil {c : Production} : Matches E (.star c) []
  | starCons {c : Production} {u w : Word} (h : Matches E c u) (hs : Matches E (.star c) w) :
      Matches E (.star c) (u ++ w)
  | plus {c : Production} {u w : Word} (h : Matches E c u) (hs : Matches E (.star c) w) :
      Matches E (.plus c) (u ++ w)

/-- **More words for the variables give more words for a production.** -/
theorem Matches.mono {E F : Assignment} (hEF : ∀ v w, E v w → F v w) {p : Production} {w : Word}
    (h : Matches E p w) : Matches F p w := by
  induction h with
  | epsilon => exact .epsilon
  | terminal => exact .terminal
  | reference h => exact .reference (hEF _ _ h)
  | absent => exact .absent
  | present _ ih => exact .present ih
  | alternative hc _ ih => exact .alternative hc ih
  | sequenceNil => exact .sequenceNil
  | sequenceCons _ _ ih ihs => exact .sequenceCons ih ihs
  | starNil => exact .starNil
  | starCons _ _ ih ihs => exact .starCons ih ihs
  | plus _ _ ih ihs => exact .plus ih ihs

/-- A repetition matches exactly the words made of words of its child. -/
theorem matches_star_iff {E : Assignment} {c : Production} {w : Word} :
    Matches E (.star c) w ↔ ∃ us : List Word, us.flatten = w ∧ ∀ u ∈ us, Matches E c u := by
  constructor
  · intro h
    generalize hp : Production.star c = p at h
    induction h with
    | starNil => exact ⟨[], rfl, by simp⟩
    | @starCons _ u _ h _ _ ih =>
      cases hp
      obtain ⟨us, rfl, hus⟩ := ih rfl
      exact ⟨u :: us, rfl, fun x hx => (List.mem_cons.1 hx).elim (fun e => e ▸ h) (hus x)⟩
    | _ => cases hp
  · rintro ⟨us, rfl, hus⟩
    induction us with
    | nil => exact .starNil
    | cons u us ih =>
      exact .starCons (hus u List.mem_cons_self) (ih fun x hx => hus x (List.mem_cons_of_mem u hx))

end Production
end ContextFree
