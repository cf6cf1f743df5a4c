import Codewright.Local
import Std.Data.HashMap

/-!
# Scopes

The locals that names stand for at a place of a body: a stack of tables, the innermost on top. The
outermost table is never taken away.
-/

namespace Codewright

/-- The names declared in one block. -/
abbrev ScopeTable := Std.HashMap String LocalId

/-- The tables in force, from the innermost outwards. -/
structure Scope where
  inner : ScopeTable := ∅
  outer : List ScopeTable := []

namespace Scope

def empty : Scope := {}

/-- Opens a block. -/
def push (s : Scope) : Scope := { inner := ∅, outer := s.inner :: s.outer }

/-- Closes the innermost block, if it is not the only one. -/
def pop (s : Scope) : Scope :=
  match s.outer with
  | [] => s
  | table :: rest => { inner := table, outer := rest }

def declares (s : Scope) (name : String) : Bool := s.inner.contains name

/-- Makes a name of the innermost block stand for a local. -/
def insert (s : Scope) (name : String) (x : LocalId) : Scope :=
  { s with inner := s.inner.insert name x }

/-- Declares a name in the innermost block, unless it is declared there already. -/
def declare? (s : Scope) (name : String) (x : LocalId) : Option Scope :=
  if s.declares name then none else some (s.insert name x)

def lookup? (s : Scope) (name : String) : Option LocalId :=
  (s.inner :: s.outer).findSome? (·[name]?)

end Scope

end Codewright
