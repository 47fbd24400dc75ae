/-
# The explicit form of symbols and productions

Where a message has to say exactly which value it is about, it uses the
explicit form: every node by its name, every field by its name, texts as
quoted literals, and children between parentheses.

| value | explicit form |
| --- | --- |
| terminal `a` | `Terminal(value='a')` |
| reference to `V` | `Variable(symbol=Variable(name='V'))` |
| `X*`, `X+`, `X?` | `RepetitionZero(child=…)`, `RepetitionOne(child=…)`, `Optional(child=…)` |
| a sequence of none, one, two | `Sequence(children=())`, `Sequence(children=(x,))`, `Sequence(children=(x, y))` |

The two dialects share these names.
-/

import ContextFree.Text.Literal
import ContextFree.Production.Basic

namespace ContextFree

/-- A named value with one named field. -/
def Text.field (node label value : String) : String :=
  node ++ "(" ++ label ++ "=" ++ value ++ ")"

/-- The members of a list between parentheses; a single member keeps a comma. -/
def Text.tuple : List String → String
  | [x] => "(" ++ x ++ ",)"
  | xs => "(" ++ ", ".intercalate xs ++ ")"

/-- The explicit form of a terminal. -/
def Terminal.explicit (t : Terminal) : String :=
  Text.field "Terminal" "value" (Text.literal t.value)

/-- The explicit form of a variable. -/
def Variable.explicit (v : Variable) : String :=
  Text.field "Variable" "name" (Text.literal v.name)

/-- The explicit form of a symbol. -/
def Symbol.explicit : Symbol → String
  | .terminal t => t.explicit
  | .nonterminal v => v.explicit

/-- The name of a join in the explicit form. -/
def Connective.explicitName : Connective → String
  | .alternative => "Alternative"
  | .sequence => "Sequence"

namespace Production

mutual

/-- The explicit form of a production. -/
def explicit : Production → String
  | .epsilon _ => "Epsilon()"
  | .terminal _ t => Text.field "Terminal" "symbol" t.explicit
  | .reference _ v => Text.field "Variable" "symbol" v.explicit
  | .optional _ c => Text.field "Optional" "child" (explicit c)
  | .join _ op cs => Text.field op.explicitName "children" (Text.tuple (explicitAll cs))
  | .star c => Text.field "RepetitionZero" "child" (explicit c)
  | .plus c => Text.field "RepetitionOne" "child" (explicit c)

/-- The explicit forms of a list of productions. -/
def explicitAll : List Production → List String
  | [] => []
  | c :: cs => explicit c :: explicitAll cs

end

end Production
end ContextFree
