import Codewright.Tree

/-!
# Allocation

Every live local gets a place: locals are visited in the order in which their intervals begin, and a
place is free again once the interval of its holder has ended. What places there are is a matter of
the target, which hands them out through a `LocationSource`.

When a target has only a stack slot left, the local may take the register of the active local that
lives longest, which then moves to the slot. A local that is touched at one point only is never read
after its store and needs no place.
-/

namespace Codewright

/-- A target's places, with its bookkeeping in `σ`. -/
structure LocationSource (σ : Type) where
  /-- Hands out a place for a value of a type; the flag marks parameters. -/
  take : σ → Ty → Bool → Storage × σ
  giveBack : σ → Storage → σ

/-- A local that holds a place, with the end of its interval. -/
structure Active where
  id : LocalId
  last : Int
  deriving DecidableEq, Inhabited

/-- The state between two locals: the active ones stand in the order of descending ends. -/
structure Allocator (σ : Type) where
  locals : Locals
  active : List Active := []
  source : σ

/-- What an allocation comes to: the stack slots up to the highest in use, and the locals on the
stack. -/
structure Allocation where
  stackSlots : Nat
  spilled : Nat
  deriving DecidableEq, Inhabited

def storageOf (locals : Locals) (x : LocalId) : Storage :=
  (locals[x]?.map (·.storage)).getD .unassigned

def setStorage (locals : Locals) (x : LocalId) (storage : Storage) : Locals :=
  locals.modify x fun l => { l with storage }

namespace Active

/-- Adds a local behind all that end no sooner. -/
def insert (a : Active) : List Active → List Active
  | [] => [a]
  | b :: rest => if a.last ≤ b.last then b :: a.insert rest else a :: b :: rest

/-- Whether the holder of a register could give it to a value of a type. -/
def lends (locals : Locals) (ty : Ty) (a : Active) : Bool :=
  match locals[a.id]? with
  | some l => l.storage.isRegister && !l.isParameter && l.ty == ty
  | none => false

end Active

namespace Allocator

variable {σ : Type}

/-- Gives back the places of the locals that end by a point. -/
def expire (src : LocationSource σ) (first : Int) : Allocator σ → Allocator σ
  | ⟨locals, active, source⟩ =>
    let ended := active.filter (·.last ≤ first)
    { locals
      active := active.filter (first < ·.last)
      source := ended.foldl (fun st a => src.giveBack st (storageOf locals a.id)) source }

/-- Lets a local on the stack change places with the active local that lives longest in a register
of its kind, if that one ends later. -/
def exchange (locals : Locals) (active : List Active) (x : LocalId) (ty : Ty) (last : Int)
    (slot : Storage) : Locals :=
  match active.find? (Active.lends locals ty) with
  | some victim =>
    if last < victim.last then
      let register := storageOf locals victim.id
      setStorage (setStorage locals victim.id slot) x register
    else locals
  | none => locals

def place (src : LocationSource σ) (x : LocalId) (ty : Ty) (isParameter : Bool) (last : Int) :
    Allocator σ → Allocator σ
  | ⟨locals, active, source⟩ =>
    let (storage, source) := src.take source ty isParameter
    let locals := setStorage locals x storage
    { locals :=
        if storage.isStack && !isParameter then exchange locals active x ty last storage else locals
      active := Active.insert ⟨x, last⟩ active
      source }

def visit (src : LocationSource σ) (s : Allocator σ) (x : LocalId) (i : Interval) : Allocator σ :=
  let s := s.expire src i.first
  match s.locals[x]?.map fun l => (l.ty, l.isParameter) with
  | none => s
  | some (ty, isParameter) =>
    if i.isPoint && !isParameter then s else s.place src x ty isParameter i.last

end Allocator

/-- The locals that have an interval, in the order of the beginnings and else of the table. -/
def allocationOrder (locals : Locals) : List (LocalId × Interval) :=
  let live := locals.toList.zipIdx.filterMap fun (l, x) => l.interval.map (x, ·)
  live.mergeSort fun a b => a.2.first ≤ b.2.first

def Allocation.ofLocals (locals : Locals) : Allocation :=
  locals.foldl
    (fun a l => match l.storage with
      | .stack slot => ⟨max a.stackSlots (slot + 1), a.spilled + 1⟩
      | _ => a)
    ⟨0, 0⟩

/-- Gives every live local of a routine a place, by the intervals that are there. -/
def Routine.allocate {σ : Type} (src : LocationSource σ) (start : σ) (r : Routine) :
    Routine × Allocation × σ :=
  let begun : Allocator σ := { locals := r.locals, source := start }
  let s := (allocationOrder r.locals).foldl (fun s (x, i) => s.visit src x i) begun
  ({ r with locals := s.locals }, .ofLocals s.locals, s.source)

end Codewright
