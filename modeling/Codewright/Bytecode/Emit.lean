import Codewright.Bytecode.Program
import Codewright.Bytecode.Slot
import Codewright.GenerationError
import Codewright.Tree.Liveness
import Codewright.Tree.SingleUse

/-!
# Code for the stack machine

A node that has a value leaves it on the operand stack. A store takes it from there into the local's
slot; where it is still needed it is pushed again, and where a statement leaves a value that nothing
consumes it is discarded. The code of a node is the code of its parts in order, so jumps inside it
do not depend on where it stands.

Equal constants of a program share one entry of the pool, under a name made from the value.
-/

namespace Codewright.Bytecode

def operand (kind : OperandKind) (value : Int) : Except GenerationError Int16 :=
  if -32768 ≤ value ∧ value ≤ 32767 then .ok (Int16.ofInt value)
  else .error (.operandOverflow kind value)

/-! ## The pool of constants -/

/-- The constants of a program, with their numbers by name. -/
structure ConstantPool where
  entries : Array Constant := #[]
  index : Std.HashMap String Int16 := ∅

namespace ConstantPool

/-- The number of a constant, which is added if it is new and there is a number left. -/
def intern (p : ConstantPool) (value : Value) : Except GenerationError Int16 × ConstantPool :=
  let name := value.poolName
  match p.index[name]? with
  | some n => (.ok n, p)
  | none =>
    match operand .constantIndex p.entries.size with
    | .error e => (.error e, p)
    | .ok n =>
      (.ok n, { entries := p.entries.push ⟨name, value⟩, index := p.index.insert name n })

end ConstantPool

/-! ## Emission -/

abbrev Code := Array Instruction

/-- A step of emission. The pool keeps what was added before an error. -/
abbrev Emit := EStateM GenerationError ConstantPool

namespace Emit

/-- The operand of a number, or the error that ends the emission. -/
def operandOf (kind : OperandKind) (value : Int) : Emit Int16 :=
  match operand kind value with
  | .ok n => return n
  | .error e => throw e

def constant (value : Value) : Emit Int16 := fun pool =>
  match pool.intern value with
  | (.ok n, pool) => .ok n pool
  | (.error e, pool) => .error e pool

/-- The slot of a local; a local that is never read has none. -/
def slot? (locals : Locals) (x : LocalId) : Emit (Option Int16) :=
  match storageOf locals x with
  | .stack slot => some <$> operandOf .localSlot slot
  | .unassigned => return none
  | .register _ =>
    throw (.internal (.registerOnStackMachine ((locals[x]?.map (·.name)).getD "")))

def intrinsic (op : Intrinsic) (count : Nat) : Emit Instruction :=
  match Opcode.callIntrinsic? count with
  | some opcode => return ⟨opcode, Int16.ofNat op.id⟩
  | none => throw (.internal (.tooManyOperands op count))

/-- The code of a node where its value is consumed. -/
def asValue (locals : Locals) (t : Tree) (code : Code) : Emit Code := do
  match t.store with
  | none => return code
  | some x =>
    match ← slot? locals x with
    | none => return code
    | some slot => return (code.push ⟨.popLocal, slot⟩).push ⟨.pushLocal, slot⟩

/-- The code of a node where nothing may stay on the stack. -/
def asStatement (locals : Locals) (t : Tree) (code : Code) : Emit Code := do
  match t.store with
  | none => return if t.leavesValue then code.push ⟨.popDiscard, 0⟩ else code
  | some x =>
    match ← slot? locals x with
    | none => return code.push ⟨.popDiscard, 0⟩
    | some slot => return code.push ⟨.popLocal, slot⟩

mutual

/-- The code that computes a node, before its value is stored. -/
def node (locals : Locals) : Tree → Emit Code
  | .const _ value => do
    let n ← constant value
    return #[⟨.pushConst, n⟩]
  | .load _ x => do
    match ← slot? locals x with
    | some slot => return #[⟨.pushLocal, slot⟩]
    | none => throw (.internal (.loadOfUnplaced ((locals[x]?.map (·.name)).getD "")))
  | .binary _ op left right => do
    let l ← node locals left
    let l ← asValue locals left l
    let r ← node locals right
    let r ← asValue locals right r
    let call ← intrinsic op 2
    return (l ++ r).push call
  | .unary _ op operand => do
    let code ← node locals operand
    let code ← asValue locals operand code
    let call ← intrinsic op 1
    return code.push call
  | .toReal _ operand => do
    let code ← node locals operand
    let code ← asValue locals operand code
    let call ← intrinsic .toReal 1
    return code.push call
  | .call _ callee args => do
    let code ← values locals #[] args
    let n ← operandOf .functionIndex callee
    return code.push ⟨.call, n⟩
  | .print _ args => do
    let code ← values locals #[] args
    let call ← intrinsic .print args.length
    return code.push call
  | .failFast _ => do
    let call ← intrinsic .failFast 0
    return #[call]
  | .ret _ => return #[⟨.ret, 0⟩]
  | .retValue _ value => do
    let code ← node locals value
    let code ← asValue locals value code
    return code.push ⟨.ret, 0⟩
  | .seq _ body => statements locals #[] body
  | .ifThen _ condition yes => do
    let c ← node locals condition
    let c ← asValue locals condition c
    let y ← node locals yes
    let y ← asStatement locals yes y
    let skip ← operandOf .jumpOffset y.size
    return c.push ⟨.jumpFalse, skip⟩ ++ y
  | .ifElse _ condition yes no => do
    let c ← node locals condition
    let c ← asValue locals condition c
    let y ← node locals yes
    let y ← asStatement locals yes y
    let skipYes ← operandOf .jumpOffset (y.size + 1)
    let n ← node locals no
    let n ← asStatement locals no n
    let skipNo ← operandOf .jumpOffset n.size
    return (c.push ⟨.jumpFalse, skipYes⟩ ++ y).push ⟨.jump, skipNo⟩ ++ n
  | .loop _ condition body => do
    let c ← node locals condition
    let c ← asValue locals condition c
    let b ← node locals body
    let b ← asStatement locals body b
    let back ← operandOf .jumpOffset (-(c.size + b.size + 2))
    let leave ← operandOf .jumpOffset (b.size + 1)
    return (c.push ⟨.jumpFalse, leave⟩ ++ b).push ⟨.jump, back⟩

def values (locals : Locals) (code : Code) : List Tree → Emit Code
  | [] => return code
  | t :: rest => do
    let c ← node locals t
    let c ← asValue locals t c
    values locals (code ++ c) rest

def statements (locals : Locals) (code : Code) : List Tree → Emit Code
  | [] => return code
  | t :: rest => do
    let c ← node locals t
    let c ← asStatement locals t c
    statements locals (code ++ c) rest

end

def body (locals : Locals) (t : Tree) : Emit Code := do
  let code ← node locals t
  asStatement locals t code

end Emit

/-! ## Programs -/

/-- A routine in the form that is emitted: single uses gone and every live local in a slot. -/
def slotForm (r : Routine) : Routine × SlotPool :=
  let (r, _, pool) := r.removeSingleUses.1.computeIntervals.allocate SlotPool.source {}
  (r, pool)

/-- A program in the making: its constants, and its functions as far as they are there. -/
structure Assembler where
  constants : ConstantPool := {}
  functions : Array (Option Function) := #[]

namespace Assembler

def setFunction (a : Assembler) (n : Nat) (f : Function) : Assembler :=
  let grown := a.functions ++ Array.replicate (n + 1 - a.functions.size) none
  { a with functions := grown.setIfInBounds n (some f) }

/-- Adds the code of a routine. Routines may come in any order. -/
def add (a : Assembler) (r : Routine) : Except GenerationError Unit × Assembler :=
  let (form, pool) := slotForm r
  match (Emit.body form.locals form.body).run a.constants with
  | .error e constants => (.error e, { a with constants })
  | .ok code constants =>
    let slots := (pool.names form.locals).zip pool.types.toList
    let f : Function :=
      { name := form.fullName, result := form.result, paramCount := form.paramCount, code,
        slots := (slots.map fun (name, ty) => ⟨name, ty⟩).toArray }
    (.ok (), { a with constants }.setFunction form.id f)

/-- The functions, if none is missing; `index` counts from the first of the rest. -/
def allFunctions (done : Array Function) : List (Option Function) →
    Except GenerationError (Array Function)
  | [] => .ok done
  | some f :: rest => allFunctions (done.push f) rest
  | none :: _ => .error (.missingFunction done.size)

def finish (a : Assembler) (main : RoutineId) : Except GenerationError Program := do
  let functions ← allFunctions #[] a.functions.toList
  if functions.size ≤ main then .error (.missingFunction main)
  else return { constants := a.constants.entries, functions, main := main.toUInt32 }

end Assembler

def assemble (routines : List Routine) (main : RoutineId) : Except GenerationError Program :=
  go {} routines
where
  go (a : Assembler) : List Routine → Except GenerationError Program
    | [] => a.finish main
    | r :: rest =>
      match a.add r with
      | (.error e, _) => .error e
      | (.ok (), a) => go a rest

end Codewright.Bytecode
