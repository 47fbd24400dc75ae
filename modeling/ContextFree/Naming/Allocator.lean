/-
# Handing out fresh variables

An allocator knows the names that are in use and a pool of candidates. A fresh
variable is the next candidate that is not in use, and is in use from then on.
Reserving a variable keeps it from ever being handed out.
-/

import ContextFree.Grammar
import ContextFree.Naming.Pool

namespace ContextFree

/-- The names in use, and the candidates for fresh ones. -/
structure Allocator where
  inUse : NameSet := ∅
  pool : Pool := .letters
deriving DecidableEq

namespace Allocator

/-- An allocator that hands out no variable of the grammar. -/
def forGrammar (g : Grammar) (pool : Pool := .letters) : Allocator :=
  ⟨g.allVariables, pool⟩

/-- Marks a variable as used. -/
def reserve (a : Allocator) (v : Variable) : Allocator :=
  { a with inUse := a.inUse.insert v }

/-- Marks all variables of a set as used. -/
def reserveAll (a : Allocator) (vs : NameSet) : Allocator :=
  { a with inUse := a.inUse ∪ vs }

/-- A fresh variable, unless the pool runs dry. -/
def fresh (a : Allocator) : Option Variable × Allocator :=
  match a.pool.draw a.inUse with
  | (some v, pool) => (some v, ⟨a.inUse.insert v, pool⟩)
  | (none, pool) => (none, { a with pool })

end Allocator
end ContextFree
