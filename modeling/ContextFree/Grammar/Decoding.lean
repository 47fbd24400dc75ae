/-
# Reading a normal form back

A normal form whose first rules are those of the original grammar can be read
back. Every later rule defines a helper, `V -> eps | B V`, and a reference to `V`
stands for the repetition of what `B` reads back as. What comes out is the
original with every `X+` spelled `X X*`.

The rules of the helpers may mention other helpers, but a helper that is reached
again while its own rule is read has no meaning as a repetition. So a helper is
followed only while it is `left`, which is also why reading back ends.
`decode_eq_some_iff` says that this is all that can go wrong.
-/

import ContextFree.Conversion.Group

namespace ContextFree
namespace Production

/-- The body of the rule of a helper `v`, if the rule has the form of one. -/
def helperBody? (v : Variable) : Production → Option Production
  | .join .plain .alternative [.epsilon .plain, .join .plain .sequence [body, .reference .plain w]] =>
      if w = v then some body else none
  | _ => none

/-- A body is read off exactly the helper rule that was made for it. -/
theorem helperBody?_eq_some_iff {v : Variable} {rule body : Production} :
    helperBody? v rule = some body ↔ rule = plainHelperRule body v := by
  constructor
  · intro h
    unfold helperBody? at h
    split at h
    · split at h
      · rename_i hw
        obtain rfl := Option.some.inj h
        rw [hw, plainHelperRule]
      · cases h
    · cases h
  · rintro rfl
    simp [plainHelperRule, helperBody?]

mutual

/-- Reads a plain production back, where `helpers` holds the rules of the helper
variables and those in `left` may still be followed. -/
def decode (helpers : Variable → Option Production) (left : List Variable) :
    Production → Option Production
  | .epsilon .plain => some (.epsilon .extended)
  | .terminal .plain t => some (.terminal .extended t)
  | .reference .plain v =>
      match helpers v with
      | none => some (.reference .extended v)
      | some rule =>
          if _hv : v ∈ left then
            (helperBody? v rule).bind fun body =>
              (decode helpers (left.erase v) body).map .star
          else none
  | .optional .plain c => (decode helpers left c).map (.optional .extended)
  | .join .plain op cs => (decodeAll helpers left cs).map (.join .extended op)
  | _ => none
termination_by p => (left.length, sizeOf p)
decreasing_by
  · have := List.length_pos_of_mem _hv
    rw [Prod.lex_def, List.length_erase_of_mem _hv]
    omega
  · exact Prod.Lex.right _ (by rw [optional.sizeOf_spec]; omega)
  · exact Prod.Lex.right _ (by rw [join.sizeOf_spec]; omega)

/-- Reads a list of plain productions back. -/
def decodeAll (helpers : Variable → Option Production) (left : List Variable) :
    List Production → Option (List Production)
  | [] => some []
  | c :: cs => do
    let q ← decode helpers left c
    let qs ← decodeAll helpers left cs
    return q :: qs
termination_by cs => (left.length, sizeOf cs)
decreasing_by
  · exact Prod.Lex.right _ (by rw [List.cons.sizeOf_spec]; omega)
  · exact Prod.Lex.right _ (by rw [List.cons.sizeOf_spec]; omega)

end
end Production

namespace Grammar

/-- The grammar with every `X+` written as `X X*`. -/
def spelled (g : Grammar) : Grammar :=
  { g with rules := g.rules.mapValues Production.spell }

/-- The rules after the first `k`, which define the helpers. -/
def helperRules (n : Grammar) (k : Nat) : Registry Variable Production :=
  n.rules.drop k

/-- The grammar that `n` reads back as, when its first `k` rules are those of the
original and the others define helpers. -/
def decode (n : Grammar) (k : Nat) : Option Grammar := do
  let helpers := n.helperRules k
  let rules ← (n.rules.entries.take k).mapM fun e =>
    (e.2.decode helpers.get? helpers.keys).map fun q => (e.1, q)
  return { start := n.start, rules := .ofList rules }

end Grammar
end ContextFree
