import Codewright.Native.InPlace
import Codewright.Native.Instruction
import Codewright.Tree.Liveness
import Codewright.Tree.Text

/-!
# Code for the processor

Functions stand behind each other, each at a multiple of 16 bytes. A value is computed in registers
that no local lives in and then moved to the place of the node's store. Results are returned in the
first general or the first vector register.

Code that was written before an error stays.
-/

namespace Codewright.Native

/-- Where a value is: in a register, or above the stack pointer. -/
inductive Location where
  | register (r : Register)
  | stack (displacement : Int8)
  deriving DecidableEq

def slotSize : Nat := 8

abbrev Code := Array UInt8

abbrev Emit := EStateM GenerationError Code

/-- What is fixed for one routine: its locals and the size of its frame. -/
structure Frame where
  locals : Locals
  size : Nat

namespace Emit

def instruction (i : Instruction) : Emit Unit :=
  match i.bytes with
  | .ok bytes => modify fun (code : Code) => code ++ bytes
  | .error e => throw e

/-- Where a storage is; a local that is never read has none. -/
def location? (storage : Storage) : Emit (Option Location) :=
  match storage with
  | .unassigned => return none
  | .register r => return some (.register r)
  | .stack slot =>
    if slot * slotSize < 0x80 then return some (.stack (Int8.ofNat (slot * slotSize)))
    else throw (.displacementOutOfRange (slot * slotSize : Nat))

def localLocation (frame : Frame) (x : LocalId) : Emit Location := do
  match ← location? (storageOf frame.locals x) with
  | some l => return l
  | none => throw (.internal (.unplaced ((frame.locals[x]?.map (·.name)).getD "")))

/-- Where the local that a node stores into lives, if it lives anywhere. -/
def storeLocation? (frame : Frame) (t : Tree) : Emit (Option Location) :=
  match t.store with
  | some x => location? (storageOf frame.locals x)
  | none => return none

/-- Moves a value to another place, if it is another one. -/
def move (dst src : Location) : Emit Unit :=
  if dst = src then return
  else
    match dst, src with
    | .register d, .register s =>
      match Register.isVector d, Register.isVector s with
      | false, false => instruction (.move d s)
      | true, true => instruction (.moveReal d s)
      | true, false => instruction (.toVector d s)
      | false, true => instruction (.toGeneral d s)
    | .register d, .stack s =>
      instruction (if Register.isVector d then .loadReal d s else .load d s)
    | .stack d, .register s =>
      instruction (if Register.isVector s then .storeReal d s else .store d s)
    | .stack d, .stack s => do
      instruction (.load .r11 s)
      instruction (.store d .r11)

/-- Puts a constant into a place. What is no general register is reached through one. -/
def loadConstant (dst : Location) (value : Value) : Emit Unit :=
  let bits := value.toBits.toInt64
  match dst with
  | .register r =>
    if Register.isVector r then do
      instruction (.loadImmediate .r11 bits)
      instruction (.toVector r .r11)
    else instruction (.loadImmediate r bits)
  | .stack displacement => do
    instruction (.loadImmediate .r11 bits)
    instruction (.store displacement .r11)

def epilogue (frame : Frame) : Emit Unit := do
  if frame.size > 0 then instruction (.release frame.size.toUInt32)
  instruction .ret

/-- The place of an operand that has been computed. -/
def operandLocation (frame : Frame) (t : Tree) : Emit Location := do
  match ← storeLocation? frame t with
  | some l => return l
  | none => throw (.internal (.unplacedOperand t.text))

/-- The operator on integers, if there is an instruction for it. -/
def intOp? : Intrinsic → Option IntOp
  | .add => some .add
  | .sub => some .sub
  | .mul => some .mul
  | _ => none

/-- The operator on reals, if there is an instruction for it. -/
def realOp? : Intrinsic → Option RealOp
  | .add => some .add
  | .sub => some .sub
  | .mul => some .mul
  | .div => some .div
  | _ => none

/-- Computes a binary operator from the places of its operands. -/
def binary (op : Intrinsic) (ty left right : Ty) (lhs rhs : Location) : Emit Location := do
  if ty = .real ∧ left = .real ∧ right = .real then
    match realOp? op with
    | none => throw (.notImplemented (.binary .real op))
    | some op =>
      move (.register .xmm4) lhs
      move (.register .xmm5) rhs
      instruction (.arithReal op .xmm4 .xmm5)
      return .register .xmm4
  else if ty = .int then
    match intOp? op with
    | none => throw (.notImplemented (.binary .int op))
    | some op =>
      move (.register .r11) lhs
      move (.register .r10) rhs
      instruction (.arith op .r11 .r10)
      return .register .r11
  else throw (.notImplemented (.binary ty op))

/-- Moves a computed value to the place of the store, if there is one. -/
def settle (store : Option Location) (computed : Location) : Emit (Option Location) := do
  match store with
  | some dst =>
    move dst computed
    return some dst
  | none => return some computed

def resultLocation (ty : Ty) : Location := .register (if usesVector ty then .xmm0 else .rax)

/-- The constant of a node that is nothing else. -/
def unstoredConstant? (t : Tree) : Option Value := if t.store.isNone then t.constant? else none

mutual

/-- Computes a node, and where its value is. -/
def node (frame : Frame) (t : Tree) : Emit (Option Location) := do
  let store ← storeLocation? frame t
  match t with
  | .const _ value =>
    match store with
    | some dst =>
      loadConstant dst value
      return store
    | none => return store
  | .load _ x =>
    let source ← localLocation frame x
    settle store source
  | .binary tag op left right =>
    let _ ← node frame left
    let lhs ← operandLocation frame left
    let _ ← node frame right
    let rhs ← operandLocation frame right
    let computed ← binary op tag.ty left.ty right.ty lhs rhs
    settle store computed
  | .toReal _ operand =>
    let _ ← node frame operand
    let source ← operandLocation frame operand
    move (.register .r11) source
    instruction (.convert .xmm4 .r11)
    settle store (.register .xmm4)
  | .ret _ =>
    epilogue frame
    return none
  | .retValue _ value =>
    match unstoredConstant? value with
    | some c => loadConstant (resultLocation value.ty) c
    | none =>
      match ← node frame value with
      | some source => move (resultLocation value.ty) source
      | none => throw (.internal (.noValue value.text))
    epilogue frame
    return none
  | .seq _ body =>
    statements frame body
    return none
  | .unary _ op _ => throw (.notImplemented (.unary op))
  | .call _ _ _ => throw (.notImplemented .calls)
  | .ifThen _ _ _ => throw (.notImplemented .conditionals)
  | .ifElse _ _ _ _ => throw (.notImplemented .conditionals)
  | .loop _ _ _ => throw (.notImplemented .loops)
  | .print _ _ => throw (.notImplemented .print)
  | .failFast _ => throw (.notImplemented .failFast)

def statements (frame : Frame) : List Tree → Emit Unit
  | [] => return
  | t :: rest => do
    let _ ← node frame t
    statements frame rest

end

/-- The code of a routine: the frame is reserved, the body computed, and the function left. -/
def routine (frame : Frame) (body : Tree) : Emit Unit := do
  if frame.size > 0 then instruction (.reserve frame.size.toUInt32)
  let _ ← node frame body
  epilogue frame

end Emit

/-! ## Programs -/

/-- A routine in the form that is emitted: in place and every live local in a register or a slot;
and the number of slots. -/
def placedForm (r : Routine) : Routine × Nat :=
  let r := r.toInPlace.1.computeIntervals
  let (r, allocation, _) := r.allocate RegisterFile.source (.ofParams r.paramTypes)
  (r, allocation.stackSlots)

/-- The form of a routine if it can be called: it has no more parameters than registers for them. -/
def formOf (r : Routine) : Except GenerationError (Routine × Nat) :=
  if argumentRegisters.length < r.paramCount then
    .error (.notImplemented (.parameters r.paramCount r.fullName))
  else .ok (placedForm r)

/-- Machine code with the name and the start of each function, and where it is entered. -/
structure Program where
  code : Code
  entry : Nat
  functions : List (String × Nat)
  deriving DecidableEq

/-- A program in the making: its code, and its functions as far as they are there. -/
structure Assembler where
  code : Code := #[]
  functions : Array (Option (String × Nat)) := #[]

namespace Assembler

/-- Notes the name and the start of the function with a number. -/
def setFunction (a : Assembler) (n : Nat) (name : String) (start : Nat) : Assembler :=
  let grown := a.functions ++ Array.replicate (n + 1 - a.functions.size) none
  { a with functions := grown.setIfInBounds n (some (name, start)) }

/-- Adds the code of a routine. Routines may come in any order. -/
def add (a : Assembler) (r : Routine) : Except GenerationError Unit × Assembler :=
  match formOf r with
  | .error e => (.error e, a)
  | .ok (form, slots) =>
    let aligned := a.code ++ padding a.code.size 16
    let start := aligned.size
    match (Emit.routine ⟨form.locals, slots * slotSize⟩ form.body).run aligned with
    | .error e code => (.error e, { a with code })
    | .ok () code => (.ok (), { a with code }.setFunction form.id form.fullName start)

/-- The functions after those in `done`, if none is missing. -/
def allFunctions (done : Array (String × Nat)) : List (Option (String × Nat)) →
    Except GenerationError (Array (String × Nat))
  | [] => .ok done
  | some f :: rest => allFunctions (done.push f) rest
  | none :: _ => .error (.missingFunction done.size)

def finish (a : Assembler) (main : RoutineId) : Except GenerationError Program := do
  let functions ← allFunctions #[] a.functions.toList
  match functions[main]? with
  | some (_, entry) => return { code := a.code, entry, functions := functions.toList }
  | none => .error (.missingFunction main)

end Assembler

def assemble (routines : List Routine) (main : RoutineId) : Except GenerationError Program :=
  go {} routines
where
  go (a : Assembler) : List Routine → Except GenerationError Program
    | [] => a.finish main
    | r :: rest =>
      match a.add r with
      | (.error e, _) => .error e
      | (.ok (), a) => go a rest

end Codewright.Native
