import Codewright.Allocation
import Std.Data.HashMap

/-!
# Slots of the stack machine

The stack machine has no registers: every local lives in a slot of its own type. A slot is used
again for the same type once its holder's interval has ended, the one given back last first.
Parameters always get new slots, so they stand first and in the order of declaration.
-/

namespace Codewright.Bytecode

/-- The slots handed out so far, with their types, and the free ones of each type. -/
structure SlotPool where
  types : Array Ty := #[]
  free : Std.HashMap Ty (List Nat) := ∅

namespace SlotPool

/-- The free slots of a type, the one given back last in front. -/
def freeOf (p : SlotPool) (ty : Ty) : List Nat := p.free.getD ty []

def fresh (p : SlotPool) (ty : Ty) : Storage × SlotPool :=
  (.stack p.types.size, { p with types := p.types.push ty })

/-- Hands out a slot: a free one of the type, except for parameters, or else a new one. -/
def take (p : SlotPool) (ty : Ty) (isParameter : Bool) : Storage × SlotPool :=
  if isParameter then p.fresh ty
  else
    match p.freeOf ty with
    | slot :: rest => (.stack slot, { p with free := p.free.insert ty rest })
    | [] => p.fresh ty

def giveBack (p : SlotPool) (storage : Storage) : SlotPool :=
  match storage with
  | .stack slot =>
    match p.types[slot]? with
    | some ty => { p with free := p.free.insert ty (slot :: p.freeOf ty) }
    | none => p
  | _ => p

def source : LocationSource SlotPool where
  take := take
  giveBack := giveBack

/-- For each slot the names of the locals that live there, with bars between them. -/
def names (p : SlotPool) (locals : Locals) : List String :=
  let shared := locals.foldl
    (fun (names : Array (List String)) l => match l.storage with
      | .stack slot => names.modify slot (l.name :: ·)
      | _ => names)
    (Array.replicate p.types.size [])
  shared.toList.map fun names => "|".intercalate names.reverse

end SlotPool

end Codewright.Bytecode
