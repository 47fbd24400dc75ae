/-
# How much is left to convert

A conversion hands back rules that are still to be converted, and they must be
less work than what was converted. The weight of a production counts its
repetitions as the conversion meets them: `X*` weighs one more than `X`, and
`X+` as much as the sequence `X X*`. The main statement is
`load_newRules_le`: the rules that a conversion hands back, with one unit for
each rule, weigh together at most as much as the production.
-/

import ContextFree.Conversion.Plain

namespace ContextFree
namespace Production

mutual

/-- The repetitions of a production, with those in the body of a `+` twice. -/
def weight : Production → Nat
  | .epsilon _ => 0
  | .terminal _ _ => 0
  | .reference _ _ => 0
  | .optional _ c => weight c
  | .join _ _ cs => weightAll cs
  | .star c => weight c + 1
  | .plus c => weight c + (weight c + 1)

/-- The weights of a list of productions together. -/
def weightAll : List Production → Nat
  | [] => 0
  | c :: cs => weight c + weightAll cs

end

/-- A helper rule weighs as much as the group it repeats. -/
@[simp] theorem weight_helperRule (c : Production) (v : Variable) :
    (helperRule c v).weight = c.weight := by
  simp [helperRule, weight, weightAll]

/-- The weights of the rules in a list together, with one unit for each rule. -/
def load : List (Variable × Production) → Nat
  | [] => 0
  | r :: rules => r.2.weight + 1 + load rules

/-- The loads of two lists of rules add up. -/
@[simp] theorem load_append (xs ys : List (Variable × Production)) :
    load (xs ++ ys) = load xs + load ys := by
  induction xs with
  | nil => simp [load]
  | cons r xs ih => simp [load, ih, Nat.add_assoc]

/-- For a group at most its own helper rule is handed back. -/
theorem load_replaceStar_le {known : Known} {c : Production} {s t : Naming} {r : Conversion}
    (h : replaceStar known c s = .ok r t) : load r.newRules ≤ c.weight + 1 := by
  cases hk : known (.star c) with
  | some v =>
    simp only [replaceStar, hk] at h
    obtain ⟨_, _, _, h⟩ := Naming.bind_eq_ok.1 h
    obtain ⟨rfl, _⟩ := Naming.pure_eq_ok.1 h
    simp [load]
  | none =>
    simp only [replaceStar, hk] at h
    obtain ⟨_, _, _, h⟩ := Naming.bind_eq_ok.1 h
    obtain ⟨_, _, _, h⟩ := Naming.bind_eq_ok.1 h
    obtain ⟨_, _, _, h⟩ := Naming.bind_eq_ok.1 h
    obtain ⟨rfl, _⟩ := Naming.pure_eq_ok.1 h
    simp [load]

/-- Siblings hand back at most what they weigh together, if each of them hands back at
most what it weighs. -/
theorem load_toPlainAll_le {known : Known} {cs : List Production}
    (hcs : ∀ c ∈ cs, ∀ (known : Known) (s t : Naming) (r : Conversion),
      toPlain known c s = .ok r t → load r.newRules ≤ c.weight)
    {m n : Merged} {s t : Naming} (h : toPlainAll known m cs s = .ok n t) :
    load n.newRules ≤ load m.newRules + weightAll cs := by
  induction cs generalizing m s with
  | nil =>
    unfold toPlainAll at h
    obtain ⟨rfl, _⟩ := Naming.pure_eq_ok.1 h
    simp [weightAll]
  | cons c cs ih =>
    unfold toPlainAll at h
    obtain ⟨r, _, hr, h⟩ := Naming.bind_eq_ok.1 h
    obtain ⟨m', _, hm, h⟩ := Naming.bind_eq_ok.1 h
    have h₁ := hcs c List.mem_cons_self _ _ _ _ hr
    have h₂ := ih (fun x hx => hcs x (List.mem_cons_of_mem c hx)) h
    rw [Merged.newRules_absorbed (Naming.check_eq_ok.1 hm).1, load_append] at h₂
    simp only [weightAll]
    omega

/-- **The rules handed back weigh at most as much as the production.** -/
theorem load_newRules_le {known : Known} {p : Production} {s t : Naming} {r : Conversion}
    (h : toPlain known p s = .ok r t) : load r.newRules ≤ p.weight := by
  induction p using induction generalizing known s t r with
  | epsilon d | terminal d _ | reference d _ =>
    unfold toPlain at h
    split at h
    · obtain ⟨rfl, _⟩ := Naming.pure_eq_ok.1 h
      simp [load]
    · exact absurd h Naming.throw_ne_ok
  | optional d c ih =>
    unfold toPlain at h
    split at h
    · obtain ⟨_, _, hr, h⟩ := Naming.bind_eq_ok.1 h
      obtain ⟨rfl, _⟩ := Naming.pure_eq_ok.1 h
      have := ih hr
      simpa [weight] using this
    · exact absurd h Naming.throw_ne_ok
  | join d op cs ih =>
    unfold toPlain at h
    split at h
    · obtain ⟨m, _, hm, h⟩ := Naming.bind_eq_ok.1 h
      obtain ⟨rfl, _⟩ := Naming.pure_eq_ok.1 h
      have := load_toPlainAll_le (fun c hc known s t r h => ih c hc h) hm
      simpa [weight, Merged.join, load] using this
    · exact absurd h Naming.throw_ne_ok
  | star c =>
    unfold toPlain at h
    exact load_replaceStar_le h
  | plus c ih =>
    unfold toPlain at h
    obtain ⟨r₁, _, hr₁, h⟩ := Naming.bind_eq_ok.1 h
    obtain ⟨m₁, _, hm₁, h⟩ := Naming.bind_eq_ok.1 h
    obtain ⟨r₂, _, hr₂, h⟩ := Naming.bind_eq_ok.1 h
    obtain ⟨m₂, _, hm₂, h⟩ := Naming.bind_eq_ok.1 h
    obtain ⟨rfl, _⟩ := Naming.pure_eq_ok.1 h
    have h₁ := ih hr₁
    have h₂ := load_replaceStar_le hr₂
    have e₁ := Merged.newRules_absorbed (Naming.check_eq_ok.1 hm₁).1
    have e₂ := Merged.newRules_absorbed (Naming.check_eq_ok.1 hm₂).1
    simp only [Merged.join, e₂, e₁, load_append, weight, load]
    omega

end Production
end ContextFree
