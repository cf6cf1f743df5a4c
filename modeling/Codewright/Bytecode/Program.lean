import Codewright.Bytecode.Opcode

/-!
# Programs of the stack machine

A program has a pool of constants, its functions in the order of their numbers, and the number of
the function where it starts. Names are kept for listings only.
-/

namespace Codewright.Bytecode

structure Constant where
  name : String
  value : Value
  deriving DecidableEq, Inhabited

structure Slot where
  name : String
  ty : Ty
  deriving DecidableEq, Inhabited

/-- A function. Its parameters are the first slots. -/
structure Function where
  name : String
  result : Ty
  paramCount : Nat
  slots : Array Slot
  code : Array Instruction
  deriving DecidableEq, Inhabited

structure Program where
  constants : Array Constant
  functions : Array Function
  main : UInt32
  deriving DecidableEq, Inhabited

def Function.paramTypes (f : Function) : List Ty := (f.slots.toList.take f.paramCount).map (·.ty)

end Codewright.Bytecode
