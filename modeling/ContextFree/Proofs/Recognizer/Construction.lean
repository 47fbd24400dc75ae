/-
# Which rule maps make a grammar

A rule map is checked right-hand side by right-hand side, in the order of the map and
of its lists. Whether a right-hand side is accepted is up to its shape and not to what
was indexed before it (`exists_add_iff`, `add_eq_error_iff`), so that the loop over a
list stops at the first one that is not in normal form, and the loop over the map in the
first list that has one (`RuleMap.FirstOutside`, `ProducerIndex.ofRules_eq_error_iff`).

The main statement is `ofRules_exact`: which maps are refused and with which fault, and
what the index answers for all others.
-/

import ContextFree.Proofs.Recognizer.Cells

namespace ContextFree

/-- Only a single terminal and a pair of variables are in normal form. -/
inductive Candidate.InNormalForm : Candidate → Prop where
  | terminal (t : Terminal) : InNormalForm (.terminal t)
  | pair (first second : Variable) : InNormalForm (.pair first second)

instance : DecidablePred Candidate.InNormalForm
  | .terminal t => isTrue (.terminal t)
  | .pair a b => isTrue (.pair a b)
  | .production _ | .symbol _ | .text _ | .other _ | .shapeless => isFalse nofun

/-- The first in a list of right-hand sides that is not in normal form. -/
def Candidate.FirstOutside (cs : List Candidate) (c : Candidate) : Prop :=
  ∃ before after, cs = before ++ c :: after ∧ (∀ d ∈ before, d.InNormalForm) ∧ ¬ c.InNormalForm

/-- The first right-hand side that is not in normal form, in the order of the map and
then of its lists, and the variable it stands under. -/
def RuleMap.FirstOutside (rules : RuleMap) (v : Variable) (c : Candidate) : Prop :=
  ∃ earlier cs later, rules.entries = earlier ++ (v, cs) :: later ∧
    (∀ rule ∈ earlier, ∀ d ∈ rule.2, d.InNormalForm) ∧ Candidate.FirstOutside cs c

namespace ProducerIndex

/-- What is in normal form can be indexed, in whichever state the index is. -/
theorem exists_add_iff (ix : ProducerIndex) (v : Variable) (c : Candidate) :
    (∃ ix', ix.add v c = .ok ix') ↔ c.InNormalForm := by
  cases c with
  | terminal t => exact iff_of_true ⟨_, rfl⟩ (.terminal t)
  | pair a b => exact iff_of_true ⟨_, rfl⟩ (.pair a b)
  | production _ | symbol _ | text _ | other _ | shapeless =>
    exact iff_of_false (fun ⟨_, h⟩ => nomatch h) nofun

/-- All else is a fault that names it and its variable. -/
theorem add_eq_error_iff (ix : ProducerIndex) (v : Variable) (c : Candidate) (f : Fault) :
    ix.add v c = .error f ↔ ¬ c.InNormalForm ∧ f = .notNormalForm v c.explicit := by
  cases c with
  | terminal t => exact iff_of_false nofun fun h => h.1 (.terminal t)
  | pair a b => exact iff_of_false nofun fun h => h.1 (.pair a b)
  | production _ | symbol _ | text _ | other _ | shapeless =>
    constructor
    · rintro ⟨⟩
      exact ⟨nofun, rfl⟩
    · rintro ⟨-, rfl⟩
      rfl

/-- The right-hand sides of a rule are indexed if all of them are in normal form. -/
theorem exists_addAll_iff (ix : ProducerIndex) (rule : Variable × List Candidate) :
    (∃ ix', rule.2.foldlM (fun ix c => ix.add rule.1 c) ix = .ok ix') ↔
      ∀ c ∈ rule.2, c.InNormalForm :=
  exists_foldlM_iff fun ix c => exists_add_iff ix rule.1 c

/-- Otherwise the first one that is not is the fault. -/
theorem addAll_eq_error_iff (ix : ProducerIndex) (rule : Variable × List Candidate) (f : Fault) :
    rule.2.foldlM (fun ix c => ix.add rule.1 c) ix = .error f ↔
      ∃ c, Candidate.FirstOutside rule.2 c ∧ f = .notNormalForm rule.1 c.explicit := by
  rw [foldlM_eq_error_iff (fun ix c => exists_add_iff ix rule.1 c)
    fun ix c => add_eq_error_iff ix rule.1 c]
  constructor
  · rintro ⟨before, c, after, hcs, hbefore, hc, hf⟩
    exact ⟨c, ⟨before, after, hcs, hbefore, hc⟩, hf⟩
  · rintro ⟨c, ⟨before, after, hcs, hbefore, hc⟩, hf⟩
    exact ⟨before, c, after, hcs, hbefore, hc, hf⟩

variable {rules : RuleMap} {f : Fault}

/-- **A rule map is indexed** if all of its right-hand sides are in normal form. -/
theorem exists_ofRules_iff :
    (∃ ix, ofRules rules = .ok ix) ↔ ∀ v c, rules.HasRule v c → c.InNormalForm := by
  unfold ofRules
  rw [exists_foldlM_iff exists_addAll_iff]
  constructor
  · rintro h v c ⟨cs, hget, hc⟩
    exact h (v, cs) (Registry.get?_eq_some_iff.1 hget) c hc
  · intro h rule hrule c hc
    exact h rule.1 c ⟨rule.2, Registry.get?_eq_some_iff.2 hrule, hc⟩

/-- **Otherwise the first one that is not,** rule by rule, is the fault. -/
theorem ofRules_eq_error_iff :
    ofRules rules = .error f ↔ ∃ v c, rules.FirstOutside v c ∧ f = .notNormalForm v c.explicit := by
  unfold ofRules
  rw [foldlM_eq_error_iff exists_addAll_iff addAll_eq_error_iff]
  constructor
  · rintro ⟨earlier, ⟨v, cs⟩, later, hentries, hearlier, c, hc, hf⟩
    exact ⟨v, c, ⟨earlier, cs, later, hentries, hearlier, hc⟩, hf⟩
  · rintro ⟨v, c, ⟨earlier, cs, later, hentries, hearlier, hc⟩, hf⟩
    exact ⟨earlier, (v, cs), later, hentries, hearlier, c, hc, hf⟩

end ProducerIndex

/-- If some right-hand side is not in normal form, then there is a first one. -/
theorem RuleMap.exists_firstOutside_iff {rules : RuleMap} :
    (∃ v c, rules.FirstOutside v c) ↔ ∃ v c, rules.HasRule v c ∧ ¬ c.InNormalForm := by
  calc (∃ v c, rules.FirstOutside v c)
      ↔ ∃ f, ProducerIndex.ofRules rules = .error f := by
        constructor
        · rintro ⟨v, c, hfirst⟩
          exact ⟨_, ProducerIndex.ofRules_eq_error_iff.2 ⟨v, c, hfirst, rfl⟩⟩
        · rintro ⟨f, hf⟩
          obtain ⟨v, c, hfirst, -⟩ := ProducerIndex.ofRules_eq_error_iff.1 hf
          exact ⟨v, c, hfirst⟩
    _ ↔ ¬ ∀ v c, rules.HasRule v c → c.InNormalForm := by
        rw [exists_error_iff, ProducerIndex.exists_ofRules_iff]
    _ ↔ ∃ v c, rules.HasRule v c ∧ ¬ c.InNormalForm := by
        simp only [not_forall, exists_prop]

namespace NormalGrammar

variable {start : Variable} {rules : RuleMap} {f : Fault}

/-- A grammar without rules is refused. -/
theorem ofRules_of_entries_eq_nil (h : rules.entries = []) :
    ofRules start rules = .error .noRules :=
  if_pos (List.isEmpty_iff.2 h)

/-- A grammar with rules is refused for what cannot be indexed. -/
theorem ofRules_eq_error_iff_of_ne_nil (h : rules.entries ≠ []) :
    ofRules start rules = .error f ↔ ProducerIndex.ofRules rules = .error f := by
  unfold ofRules
  rw [if_neg (by rwa [List.isEmpty_iff])]
  cases ProducerIndex.ofRules rules with
  | error => exact ⟨fun | rfl => rfl, fun | rfl => rfl⟩
  | ok => exact ⟨nofun, nofun⟩

/-- **A grammar is refused** for having no rules, or for its first right-hand side that is
not in normal form. -/
theorem ofRules_eq_error_iff :
    ofRules start rules = .error f ↔ rules.entries = [] ∧ f = .noRules ∨
      ∃ v c, rules.FirstOutside v c ∧ f = .notNormalForm v c.explicit := by
  by_cases hrules : rules.entries = []
  · have hnone : ∀ v c, ¬ rules.FirstOutside v c := by
      rintro v c ⟨earlier, cs, later, hentries, -⟩
      rw [hrules] at hentries
      exact absurd hentries.symm (by simp)
    rw [ofRules_of_entries_eq_nil hrules]
    constructor
    · rintro ⟨⟩
      exact .inl ⟨hrules, rfl⟩
    · rintro (⟨-, rfl⟩ | ⟨v, c, hfirst, -⟩)
      · rfl
      · exact absurd hfirst (hnone v c)
  · rw [ofRules_eq_error_iff_of_ne_nil hrules, ProducerIndex.ofRules_eq_error_iff]
    simp only [hrules, false_and, false_or]

/-- **What is accepted, what is refused and why, and what the index answers.** A rule map
is refused exactly if it has no rules or if some right-hand side is not in normal form; the
fault is about a value, and names the first of these with its variable by its explicit
form. In a grammar that was accepted
the index answers for a terminal or a pair with the variables that have it as a
right-hand side, which are none for what no rule mentions. -/
theorem ofRules_exact (start : Variable) (rules : RuleMap) :
    ((∃ f, ofRules start rules = .error f) ↔
      rules.entries = [] ∨ ∃ v c, rules.HasRule v c ∧ ¬ c.InNormalForm) ∧
    (∀ f, ofRules start rules = .error f ↔ f.kind = .value ∧ (rules.entries = [] ∧ f = .noRules ∨
      ∃ v c, rules.FirstOutside v c ∧ f = .notNormalForm v c.explicit ∧
        f.message = c.explicit.map (v.text ++ " -> " ++ · ++ " is not in Chomsky Normal Form"))) ∧
    ∀ g, ofRules start rules = .ok g →
      (∀ t v, v ∈ g.index.ofTerminal t ↔ rules.HasRule v (.terminal t)) ∧
      (∀ a b v, v ∈ g.index.ofPair a b ↔ rules.HasRule v (.pair a b)) ∧
      (∀ t, (∀ v, ¬ rules.HasRule v (.terminal t)) → g.index.ofTerminal t = ∅) ∧
      ∀ a b, (∀ v, ¬ rules.HasRule v (.pair a b)) → g.index.ofPair a b = ∅ := by
  refine ⟨?_, fun f => ?_, fun g hg => ?_⟩
  · rw [← RuleMap.exists_firstOutside_iff]
    constructor
    · rintro ⟨f, hf⟩
      rcases ofRules_eq_error_iff.1 hf with ⟨hrules, -⟩ | ⟨v, c, hfirst, -⟩
      · exact .inl hrules
      · exact .inr ⟨v, c, hfirst⟩
    · rintro (hrules | ⟨v, c, hfirst⟩)
      · exact ⟨_, ofRules_of_entries_eq_nil hrules⟩
      · exact ⟨_, ofRules_eq_error_iff.2 (.inr ⟨v, c, hfirst, rfl⟩)⟩
  · rw [ofRules_eq_error_iff]
    constructor
    · rintro (⟨hrules, rfl⟩ | ⟨v, c, hfirst, rfl⟩)
      · exact ⟨rfl, .inl ⟨hrules, rfl⟩⟩
      · exact ⟨rfl, .inr ⟨v, c, hfirst, rfl, rfl⟩⟩
    · rintro ⟨-, hrules | ⟨v, c, hfirst, hf, -⟩⟩
      · exact .inl hrules
      · exact .inr ⟨v, c, hfirst, hf⟩
  · obtain ⟨ix, hix, rfl⟩ := exists_index hg
    have hterminal : ∀ t v, v ∈ ix.ofTerminal t ↔ rules.HasRule v (.terminal t) :=
      fun _ _ => ProducerIndex.ofTerminal_ofRules hix
    have hpair : ∀ a b v, v ∈ ix.ofPair a b ↔ rules.HasRule v (.pair a b) :=
      fun _ _ _ => ProducerIndex.ofPair_ofRules hix
    refine ⟨hterminal, hpair, fun t ht => ?_, fun a b hab => ?_⟩
    · exact NameSet.eq_empty_of_forall_not_mem fun v hv => ht v ((hterminal t v).1 hv)
    · exact NameSet.eq_empty_of_forall_not_mem fun v hv => hab v ((hpair a b v).1 hv)

/-- Rules with an empty list, a repeated pair, and two values in no normal form, the first
of them a production of the other dialects with a character that is not printable. -/
def misshapen : RuleMap :=
  .ofList [(⟨"S"⟩, [.pair ⟨"A"⟩ ⟨"S"⟩, .pair ⟨"A"⟩ ⟨"S"⟩]), (⟨"B"⟩, []),
    (⟨"A"⟩, [.terminal ⟨"a"⟩, .production (.terminal .extended ⟨"\u200b"⟩), .text "a"])]

/-- The rules `misshapen` are refused for the production, and the rules `ambiguous` make a
grammar whose index answers for a terminal that they mention and for one that they do not. -/
theorem ofRules_exact_misshapen :
    (∃ f, ofRules ⟨"S"⟩ misshapen = .error f ∧ f.kind = .value ∧ f.message =
      some "A -> Terminal(symbol=Terminal(value='\\u200b')) is not in Chomsky Normal Form") ∧
    ∃ g, ofRules ⟨"S"⟩ ambiguous = .ok g ∧ (∀ v, v ∈ g.index.ofTerminal ⟨"a"⟩ ↔
      ambiguous.HasRule v (.terminal ⟨"a"⟩)) ∧ g.index.ofTerminal ⟨"b"⟩ = ∅ := by
  obtain ⟨-, herror, -⟩ := ofRules_exact ⟨"S"⟩ misshapen
  obtain ⟨-, -, hok⟩ := ofRules_exact ⟨"S"⟩ ambiguous
  have hfirst : misshapen.FirstOutside ⟨"A"⟩ (.production (.terminal .extended ⟨"\u200b"⟩)) :=
    ⟨misshapen.entries.take 2, _, [], rfl, by decide, [.terminal ⟨"a"⟩], [.text "a"], rfl,
      by decide, by decide⟩
  have hexplicit : Candidate.explicit (.production (.terminal .extended ⟨"\u200b"⟩)) =
      some "Terminal(symbol=Terminal(value='\\u200b'))" := by
    decide +kernel
  have hrefused : ofRules ⟨"S"⟩ misshapen = .error (.notNormalForm ⟨"A"⟩
      (some "Terminal(symbol=Terminal(value='\\u200b'))")) :=
    (herror _).2 ⟨rfl, .inr ⟨_, _, hfirst, by rw [hexplicit], by rw [hexplicit]; rfl⟩⟩
  obtain ⟨g, hg⟩ := exists_ofRules_ambiguous
  obtain ⟨hterminal, -, hnone, -⟩ := hok g hg
  have hb : ∀ v, ¬ ambiguous.HasRule v (.terminal ⟨"b"⟩) := by
    intro v h
    have hentries : candidatesOf ambiguous.entries =
        [(⟨"S"⟩, .pair ⟨"S"⟩ ⟨"S"⟩), (⟨"S"⟩, .terminal ⟨"a"⟩)] := rfl
    have hmem := mem_candidatesOf_entries.2 h
    rw [hentries] at hmem
    simp at hmem
  exact ⟨⟨_, hrefused, rfl, by decide +kernel⟩, g, hg, hterminal _, hnone _ hb⟩

end NormalGrammar
end ContextFree
