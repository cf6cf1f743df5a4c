import Codewright.Value

/-!
# Local variables

A routine's locals, with what the passes know of each: how often it is stored into and read, over
which stretch of the evaluation it is live, and where it lives.
-/

namespace Codewright

/-- The place of a local in its routine's table. Place 0 is the result. -/
abbrev LocalId := Nat

/-- The place of a routine in the program, in the order of declaration. -/
abbrev RoutineId := Nat

/-- The points of an evaluation from the first to the last one that touches a local. Parameters
start at -1, before all points. -/
structure Interval where
  first : Int
  last : Int
  deriving DecidableEq, Inhabited

namespace Interval

/-- Touched at one point only. -/
def isPoint (i : Interval) : Bool := i.first == i.last

/-- Whether two intervals share more than an end point. -/
def overlaps (a b : Interval) : Bool := a.first < b.last && b.first < a.last

end Interval

inductive Storage where
  | unassigned
  | register (n : UInt8)
  | stack (slot : Nat)
  deriving DecidableEq, Inhabited

def Storage.isRegister : Storage → Bool
  | .register _ => true
  | _ => false

def Storage.isStack : Storage → Bool
  | .stack _ => true
  | _ => false

structure Local where
  name : String
  ty : Ty
  /-- Number of nodes that store into it. -/
  assignments : Nat := 0
  /-- Number of nodes that load it. -/
  uses : Nat := 0
  interval : Option Interval := none
  isParameter : Bool := false
  storage : Storage := .unassigned
  deriving DecidableEq, Inhabited

namespace Local

/-- Neither stored into nor read. -/
def isDead (l : Local) : Bool := l.assignments == 0 && l.uses == 0

def reset (l : Local) : Local := { l with interval := none, storage := .unassigned }

end Local

abbrev Locals := Array Local

end Codewright
