/-
# Events

What the library reports while it works, for whoever traces it. An event holds
the values that its message shows.
-/

import ContextFree.Symbol

namespace ContextFree

/-- Something worth reporting. -/
inductive Event where
  /-- A helper variable was made for the group with this text. -/
  | minted (v : Variable) (group : String)
  /-- The helper variable of a known group was put in again. -/
  | reusing (v : Variable) (group : String)
  /-- A grammar was normalized to the one with this text. -/
  | normalized (grammar : String)
  /-- A table was built for a word of this length. -/
  | table (symbols : Nat) (cells : String)
  /-- A word was accepted or rejected. -/
  | verdict (accepted : Bool) (start : Variable)
deriving DecidableEq

/-- The message that reports an event. -/
def Event.message : Event → String
  | .minted v group => "minted " ++ v.text ++ " for " ++ group
  | .reusing v group => "reusing " ++ v.text ++ " for " ++ group
  | .normalized grammar => "normalized grammar:\n" ++ grammar
  | .table symbols cells => "table for " ++ toString symbols ++ " symbols:\n" ++ cells
  | .verdict accepted start =>
      (if accepted then "accepted" else "rejected") ++ " (start " ++ start.text ++ ")"

end ContextFree
