/-
# The checks of a pass never fail

A conversion checks itself in two places: merging siblings, it expects that no
group gets two helpers, and making a helper, it expects that the rule has fewer
repetitions than the group. A pass checks that no variable is put out twice. The
main statement is `checks_hold`: none of these checks ever fails, for whatever
trees, replacers, names in use and pool.

Siblings are merged without conflict because each of them sees the replacers of
those before it and makes helpers for new groups only (`snd_absorb_of_toPlain`).
No variable is put out twice because the helpers have names that were in use
nowhere (`Pass.not_mem_done`).
-/

import ContextFree.Proofs.Normalization.Success

namespace ContextFree

open Production

/-- **Siblings are merged without conflict:** a sibling that was converted with the
replacers of those before it has none of their keys. -/
theorem Merged.snd_absorb_of_toPlain {m : Merged} {known : Known} {c : Production} {s t : Naming}
    {r : Conversion} (h : c.toPlain (known.over m.newReplacers) s = .ok r t) :
    (m.absorb r).2 = none := by
  obtain ⟨made, -, -, habsorbed⟩ := absorbed_of_toPlain h
  rw [absorbed_eq_ok_iff.1 habsorbed]

namespace Grammar

/-- **A grammar that fails to be normalized** has drawn the names of the helpers
made before. -/
theorem fails_of_normalize {g : Grammar} {s t : Naming} {f : Fault}
    (h : g.normalize s = .error f t) :
    ∃ vs, (s.allocator.reserveAll g.allVariables).Fails vs f t.allocator := by
  obtain ⟨past, made, w, u, hpass, e, -, herror⟩ := exists_failing_rule h
  obtain ⟨vs, hvs⟩ := fails_of_toPlain herror
  exact ⟨made.names ++ vs, hpass.supply.fails hvs⟩

end Grammar

/-- **The checks hold.** No conversion of a tree or of siblings, in whichever
dialects they are written and whatever is known, fails a check, nor does any step
of it: siblings are merged without conflict, and a helper rule that can be counted
is smaller than its group. No pass over a grammar fails a check either, that for
a second rule included. -/
theorem checks_hold :
    (∀ (known : Known) (p : Production) (s t : Naming) (f : Fault),
      p.toPlain known s = .error f t → ¬ f.Internal) ∧
    (∀ (known : Known) (cs : List Production) (s t : Naming) (f : Fault),
      toPlainAll known {} cs s = .error f t → ¬ f.Internal) ∧
    (∀ (known : Known) (m : Merged) (c : Production) (s t : Naming) (r : Conversion),
      c.toPlain (known.over m.newReplacers) s = .ok r t → (m.absorb r).2 = none) ∧
    (∀ (c : Production) (v : Variable),
      checkReduced c v = if Within .extended c then .ok () else .error .uncountable) ∧
    (∀ (g : Grammar) (s t : Naming) (f : Fault), g.normalize s = .error f t → ¬ f.Internal) := by
  refine ⟨fun known p s t f h => ?_, fun known cs s t f h => ?_, fun known m c s t r h => ?_,
    checkReduced_eq, fun g s t f h => ?_⟩
  · obtain ⟨vs, hvs⟩ := fails_of_toPlain h
    exact hvs.not_internal
  · obtain ⟨vs, hvs⟩ := fails_of_toPlainAll h
    exact hvs.not_internal
  · exact Merged.snd_absorb_of_toPlain h
  · obtain ⟨vs, hvs⟩ := Grammar.fails_of_normalize h
    exact hvs.not_internal

end ContextFree
