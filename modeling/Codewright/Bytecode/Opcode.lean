import Codewright.Intrinsic

/-!
# Instructions of the stack machine

An instruction is an opcode with a signed operand of 16 bits. What the operand means depends on the
opcode: the number of a constant, a slot, a function or an intrinsic, or the distance of a jump,
counted from the next instruction.
-/

namespace Codewright.Bytecode

inductive Opcode where
  | invalid
  | pushConst
  | pushLocal
  | popLocal
  | popDiscard
  | call
  | ret
  | jump
  | jumpFalse
  /-- Calls an intrinsic with a number of arguments. -/
  | intrinsic (arity : Fin 8)
  deriving DecidableEq, Inhabited

namespace Opcode

def code : Opcode → UInt16
  | .invalid => 0
  | .pushConst => 1
  | .pushLocal => 2
  | .popLocal => 3
  | .popDiscard => 4
  | .call => 5
  | .ret => 6
  | .jump => 7
  | .jumpFalse => 8
  | .intrinsic arity => 9 + arity.val.toUInt16

/-- All opcodes, each at the place of its number. -/
def all : List Opcode :=
  [.invalid, .pushConst, .pushLocal, .popLocal, .popDiscard, .call, .ret, .jump, .jumpFalse,
   .intrinsic 0, .intrinsic 1, .intrinsic 2, .intrinsic 3, .intrinsic 4, .intrinsic 5, .intrinsic 6,
   .intrinsic 7]

def ofCode? (n : UInt16) : Option Opcode := all[n.toNat]?

/-- The opcode that calls an intrinsic with a number of arguments. -/
def callIntrinsic? (count : Nat) : Option Opcode :=
  if h : count < 8 then some (.intrinsic ⟨count, h⟩) else none

/-- The number of arguments, for an opcode that calls an intrinsic. -/
def arity? : Opcode → Option Nat
  | .intrinsic arity => some arity
  | _ => none

def isJump : Opcode → Bool
  | .jump | .jumpFalse => true
  | _ => false

def name : Opcode → String
  | .invalid => "Invalid"
  | .pushConst => "PushConst"
  | .pushLocal => "PushLocal"
  | .popLocal => "PopLocal"
  | .popDiscard => "PopDiscard"
  | .call => "Call"
  | .ret => "Return"
  | .jump => "Jump"
  | .jumpFalse => "JumpFalse"
  | .intrinsic arity => "CallI" ++ toString arity.val

def ofName? (name : String) : Option Opcode := all.find? (·.name == name)

theorem ofCode?_code (op : Opcode) : ofCode? op.code = some op := by
  cases op with
  | intrinsic arity => revert arity; decide
  | _ => rfl

end Opcode

structure Instruction where
  opcode : Opcode
  operand : Int16 := 0
  deriving DecidableEq, Inhabited

end Codewright.Bytecode
