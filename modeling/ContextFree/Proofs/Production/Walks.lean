/-
# The walks over a production agree

A production is shown, its repetitions are counted and its references are listed by three
walks of their own. They agree on which trees are well formed. Showing a tree in a
dialect and counting need every node to be of the dialect, and of the extended one; what
keeps a tree from being shown is its first node of the other dialect in reading order.
Listing the references needs nothing, and follows the nodes of both dialects in reading
order (`references_eq`).

A grammar shows each right-hand side in the dialect of its outermost node. So it is shown
unless some right-hand side is mixed, and then the first one that is, in the order of the
rules, gives the fault (`format_eq_error_iff`). The main statement is `walks_agree`.
-/

import ContextFree.Grammar
import ContextFree.Proofs.Production.Dialect

namespace ContextFree
namespace Production

/-- The variable that a node references. -/
def referenced? : Production → Option Variable
  | .reference _ v => some v
  | _ => none

/-- The tree has nodes of both dialects. -/
def Mixed (p : Production) : Prop :=
  ∃ q ∈ p.nodes, ∃ q' ∈ p.nodes, q.dialect ≠ q'.dialect

variable {d : Dialect} {p : Production} {f : Fault}

/-- **The references are those of the nodes,** in reading order. -/
theorem references_eq (p : Production) : p.references = p.nodes.filterMap referenced? := by
  induction p using induction with
  | epsilon d | terminal d _ | reference d _ => rfl
  | optional d c ih | star c ih | plus c ih => exact ih
  | join d op cs ih =>
    rw [references_join, nodes, nodesAll_eq, List.filterMap_cons_none rfl, List.filterMap_flatMap]
    exact List.flatMap_congr ih

/-- **Where repetitions can be counted:** in trees that are extended throughout. -/
theorem exists_repetitionCount_iff : (∃ n, p.repetitionCount = .ok n) ↔ p.Within .extended := by
  rw [repetitionCount_eq]
  split <;> simp [*]

/-- Where they cannot be counted, this is the only fault. -/
theorem repetitionCount_eq_error_iff :
    p.repetitionCount = .error f ↔ ¬ p.Within .extended ∧ f = .uncountable := by
  rw [repetitionCount_eq]
  split <;> simp [*, eq_comm]

/-! ### Right-hand sides in their own dialect -/

/-- A tree is mixed if some node is not of the dialect of the outermost one. -/
theorem mixed_iff : p.Mixed ↔ ¬ p.Within p.dialect := by
  constructor
  · rintro ⟨q, hq, q', hq', hne⟩ h
    exact hne ((h q hq).trans (h q' hq').symm)
  · intro h
    simp only [Within, not_forall] at h
    obtain ⟨q, hq, hne⟩ := h
    exact ⟨q, hq, p, mem_nodes_self p, hne⟩

/-- A production has a text exactly if it is not mixed. -/
theorem exists_text_iff : (∃ t, p.text = .ok t) ↔ ¬ p.Mixed := by
  rw [mixed_iff, not_not]
  exact exists_render_iff

end Production

namespace Grammar

variable {g : Grammar} {rule : Variable × Production} {f : Fault} {text line : String}

/-- The first rule with a mixed right-hand side. -/
def FirstMixed (g : Grammar) (v : Variable) (p : Production) : Prop :=
  ∃ before after, g.rules.entries = before ++ (v, p) :: after ∧
    (∀ rule ∈ before, ¬ rule.2.Mixed) ∧ p.Mixed

/-- A rule is shown with its right-hand side in the one dialect that it is in. -/
theorem formatRule_eq_ok_iff : formatRule rule = .ok line ↔
    ∃ d t, rule.2.Within d ∧ rule.2.render d = .ok t ∧ line = rule.1.text ++ " -> " ++ t := by
  have hown : formatRule rule = .ok line ↔
      ∃ t, rule.2.render rule.2.dialect = .ok t ∧ line = rule.1.text ++ " -> " ++ t := by
    rw [formatRule, Production.text]
    cases rule.2.render rule.2.dialect <;> simp [Except.map, eq_comm]
  rw [hown]
  constructor
  · rintro ⟨t, ht, hline⟩
    exact ⟨_, t, Production.exists_render_iff.1 ⟨t, ht⟩, ht, hline⟩
  · rintro ⟨d, t, hwithin, ht, hline⟩
    obtain rfl := hwithin.dialect_eq
    exact ⟨t, ht, hline⟩

/-- A rule can be shown exactly if its right-hand side is not mixed. -/
theorem exists_formatRule_iff : (∃ line, formatRule rule = .ok line) ↔ ¬ rule.2.Mixed := by
  rw [← Production.exists_text_iff, formatRule]
  cases rule.2.text <;> simp [Except.map]

/-- What keeps a rule from being shown keeps its right-hand side from it. -/
theorem formatRule_eq_error_iff : formatRule rule = .error f ↔
    ∃ q, rule.2.firstForeign? rule.2.dialect = some q ∧ f = .foreignNode q := by
  rw [← Production.render_eq_error_iff, formatRule, Production.text]
  cases rule.2.render rule.2.dialect <;> simp [Except.map]

/-- A grammar is shown rule by rule. -/
theorem format_eq_ok_iff : g.format = .ok text ↔
    ∃ lines, List.Forall₂ (fun rule line => formatRule rule = .ok line) g.rules.entries lines ∧
      text = "\n".intercalate lines := by
  simp only [← mapM_eq_ok_iff, format]
  cases g.rules.entries.mapM formatRule <;> simp [Except.map, eq_comm]

/-- **What keeps a grammar from being shown** is the first foreign node in the first
right-hand side that is mixed. -/
theorem format_eq_error_iff : g.format = .error f ↔
    ∃ v p q, g.FirstMixed v p ∧ p.firstForeign? p.dialect = some q ∧ f = .foreignNode q := by
  have hloop : g.format = .error f ↔ g.rules.entries.mapM formatRule = .error f := by
    rw [format]
    cases g.rules.entries.mapM formatRule <;> simp [Except.map]
  rw [hloop, mapM_eq_error_iff]
  simp only [exists_formatRule_iff]
  constructor
  · rintro ⟨before, ⟨v, p⟩, after, hentries, hbefore, hf⟩
    obtain ⟨q, hq, rfl⟩ := formatRule_eq_error_iff.1 hf
    have hmixed : p.Mixed := by
      rw [Production.mixed_iff, ← Production.firstForeign?_eq_none_iff, hq]
      exact nofun
    exact ⟨v, p, q, ⟨before, after, hentries, hbefore, hmixed⟩, hq, rfl⟩
  · rintro ⟨v, p, q, ⟨before, after, hentries, hbefore, -⟩, hq⟩
    exact ⟨before, (v, p), after, hentries, hbefore, formatRule_eq_error_iff.2 ⟨q, hq⟩⟩

/-- A grammar is shown unless some right-hand side is mixed. -/
theorem exists_format_iff : (∃ text, g.format = .ok text) ↔ ∀ p ∈ g.rules.values, ¬ p.Mixed := by
  have hloop : (∃ text, g.format = .ok text) ↔
      ∃ lines, g.rules.entries.mapM formatRule = .ok lines := by
    rw [format]
    cases g.rules.entries.mapM formatRule <;> simp [Except.map]
  rw [hloop, exists_mapM_iff]
  simp only [exists_formatRule_iff, Registry.values, List.forall_mem_map]

/-- **The walks over a production agree on which trees are well formed.** A tree is shown in
a dialect if all its nodes are of the dialect, and otherwise its first node in reading
order that is not gives the fault; the repetitions of a tree are counted if all its nodes
are extended; and its references are listed in any case, in reading order. A grammar is
shown unless some right-hand side is mixed, a right-hand side of either dialect by this
dialect; otherwise the first mixed one gives the fault. -/
theorem walks_agree (d : Dialect) (p : Production) (g : Grammar) :
    ((∃ t, p.render d = .ok t) ↔ p.Within d) ∧
    (∀ f, p.render d = .error f ↔ ∃ q, p.firstForeign? d = some q ∧ f = .foreignNode q ∧
      f.kind = .general ∧ f.message = some ("unknown production type " ++ q.explicit)) ∧
    ((∃ n, p.repetitionCount = .ok n) ↔ p.Within .extended) ∧
    (∀ f, p.repetitionCount = .error f ↔
      ¬ p.Within .extended ∧ f = .uncountable ∧ f.kind = .attribute) ∧
    p.references = p.nodes.filterMap Production.referenced? ∧
    ((∃ f, g.format = .error f) ↔ ∃ q ∈ g.rules.values, q.Mixed) ∧
    (∀ f, g.format = .error f ↔ ∃ v q q', g.FirstMixed v q ∧
      q.firstForeign? q.dialect = some q' ∧ f = .foreignNode q') ∧
    ∀ text, g.format = .ok text ↔ ∃ lines, List.Forall₂ (fun rule line => ∃ e t,
      rule.2.Within e ∧ rule.2.render e = .ok t ∧ line = rule.1.text ++ " -> " ++ t)
        g.rules.entries lines ∧ text = "\n".intercalate lines := by
  refine ⟨Production.exists_render_iff, fun f => ?_, Production.exists_repetitionCount_iff,
    fun f => ?_, p.references_eq, ?_, fun f => format_eq_error_iff, fun text => ?_⟩
  · rw [Production.render_eq_error_iff]
    refine exists_congr fun q => and_congr_right fun _ => ?_
    constructor
    · rintro rfl
      exact ⟨rfl, rfl, rfl⟩
    · exact And.left
  · rw [Production.repetitionCount_eq_error_iff]
    refine and_congr_right fun _ => ?_
    constructor
    · rintro rfl
      exact ⟨rfl, rfl⟩
    · exact And.left
  · rw [exists_error_iff, exists_format_iff]
    simp
  · rw [format_eq_ok_iff]
    simp only [formatRule_eq_ok_iff]

end Grammar
end ContextFree
