import Codewright.GenerationError
import Codewright.Native.Register

/-!
# Instructions of the processor

The instructions that generated code consists of, and their bytes. A memory operand is always a
place above the stack pointer within the reach of a signed byte.

An instruction begins with its mandatory byte if it has one, then a `REX` byte where a 64-bit
operand or a register beyond the first eight needs it, then the opcode and a byte that names the
operands.
-/

namespace Codewright.Native

inductive IntOp where
  | add
  | sub
  | mul
  deriving DecidableEq

inductive RealOp where
  | add
  | mul
  | sub
  | div
  deriving DecidableEq

def RealOp.code : RealOp → UInt8
  | .add => 0x58
  | .mul => 0x59
  | .sub => 0x5C
  | .div => 0x5E

inductive Instruction where
  /-- A constant into a general register. -/
  | loadImmediate (dst : Register) (value : Int64)
  | move (dst src : Register)
  | load (dst : Register) (displacement : Int8)
  | store (displacement : Int8) (src : Register)
  /-- The bits of a general register into a vector register. -/
  | toVector (dst src : Register)
  /-- The bits of a vector register into a general register. -/
  | toGeneral (dst src : Register)
  | moveReal (dst src : Register)
  | loadReal (dst : Register) (displacement : Int8)
  | storeReal (displacement : Int8) (src : Register)
  | arith (op : IntOp) (dst src : Register)
  | arithReal (op : RealOp) (dst src : Register)
  | convert (dst src : Register)
  | reserve (size : UInt32)
  | release (size : UInt32)
  | ret
  deriving DecidableEq

/-! ## Parts of an encoding -/

/-- The byte that names two operands. -/
def modRM (mode reg rm : UInt8) : UInt8 := (mode <<< 6) ||| ((reg &&& 7) <<< 3) ||| (rm &&& 7)

/-- The byte for 64-bit operands and registers beyond the first eight, if it is needed. -/
def rex (wide : Bool) (reg rm : UInt8) : List UInt8 :=
  let base : UInt8 := if wide then 0x48 else 0x40
  let byte := base ||| (((reg >>> 3) &&& 1) <<< 2) ||| ((rm >>> 3) &&& 1)
  if byte = 0x40 then [] else [byte]

/-- The bytes that name a register and a place above the stack pointer. -/
def stackOperand (reg : UInt8) (displacement : Int8) : List UInt8 :=
  [modRM 1 reg Register.rsp, 0x24, displacement.toUInt8]

/-- The lowest `count` bytes of a word, the lowest one first. -/
def wordBytes : Nat → UInt64 → List UInt8
  | 0, _ => []
  | count + 1, w => w.toUInt8 :: wordBytes count (w >>> 8)

def general (r : Register) : Except GenerationError UInt8 :=
  if Register.isVector r then .error (.internal (.notGeneral (Register.name r))) else .ok r

def vector (r : Register) : Except GenerationError UInt8 :=
  if Register.isVector r then .ok (Register.encoding r)
  else .error (.internal (.notVector (Register.name r)))

/-- Whether a constant is the sign extension of its lower half. -/
def fitsHalf (value : Int64) : Bool := -0x80000000 ≤ value && value ≤ 0x7FFFFFFF

/-- A constant into a general register: half as long if it is the extension of its lower half. -/
def immediateBytes (dst : UInt8) (value : Int64) : List UInt8 :=
  if fitsHalf value then
    rex true 0 dst ++ [0xC7, modRM 3 0 dst] ++ wordBytes 4 value.toUInt64
  else
    rex true 0 dst ++ [0xB8 + (dst &&& 7)] ++ wordBytes 8 value.toUInt64

/-- A change of the stack pointer; `extension` tells up from down. -/
def stackPointerBytes (extension : UInt8) (size : UInt32) : Except GenerationError (List UInt8) :=
  if size < 0x80 then .ok [0x48, 0x83, modRM 3 extension Register.rsp, size.toUInt8]
  else if size < 0x80000000 then
    .ok ([0x48, 0x81, modRM 3 extension Register.rsp] ++ wordBytes 4 size.toUInt64)
  else .error (.operandOverflow .frameSize size.toNat)

/-! ## Encoding -/

/-- The bytes of an instruction. A register of the wrong class is an error, the target's first. -/
def Instruction.bytes : Instruction → Except GenerationError (List UInt8)
  | .loadImmediate dst value => do
    let d ← general dst
    return immediateBytes d value
  | .move dst src => do
    let d ← general dst
    let s ← general src
    return rex true s d ++ [0x89, modRM 3 s d]
  | .load dst displacement => do
    let d ← general dst
    return rex true d Register.rsp ++ [0x8B] ++ stackOperand d displacement
  | .store displacement src => do
    let s ← general src
    return rex true s Register.rsp ++ [0x89] ++ stackOperand s displacement
  | .toVector dst src => do
    let d ← vector dst
    let s ← general src
    return [0x66] ++ rex true d s ++ [0x0F, 0x6E, modRM 3 d s]
  | .toGeneral dst src => do
    let d ← general dst
    let s ← vector src
    return [0x66] ++ rex true s d ++ [0x0F, 0x7E, modRM 3 s d]
  | .moveReal dst src => do
    let d ← vector dst
    let s ← vector src
    return [0xF2] ++ rex false d s ++ [0x0F, 0x10, modRM 3 d s]
  | .loadReal dst displacement => do
    let d ← vector dst
    return [0xF2] ++ rex false d Register.rsp ++ [0x0F, 0x10] ++ stackOperand d displacement
  | .storeReal displacement src => do
    let s ← vector src
    return [0xF2] ++ rex false s Register.rsp ++ [0x0F, 0x11] ++ stackOperand s displacement
  | .arith op dst src => do
    let d ← general dst
    let s ← general src
    match op with
    | .add => return rex true s d ++ [0x01, modRM 3 s d]
    | .sub => return rex true s d ++ [0x29, modRM 3 s d]
    | .mul => return rex true d s ++ [0x0F, 0xAF, modRM 3 d s]
  | .arithReal op dst src => do
    let d ← vector dst
    let s ← vector src
    return [0xF2] ++ rex false d s ++ [0x0F, op.code, modRM 3 d s]
  | .convert dst src => do
    let d ← vector dst
    let s ← general src
    return [0xF2] ++ rex true d s ++ [0x0F, 0x2A, modRM 3 d s]
  | .reserve size => stackPointerBytes 5 size
  | .release size => stackPointerBytes 0 size
  | .ret => .ok [0xC3]

/-- The breakpoint bytes that bring code of a length up to a multiple of `alignment`. -/
def padding (length alignment : Nat) : List UInt8 :=
  List.replicate ((alignment - length % alignment) % alignment) 0xCC

end Codewright.Native
