import Codewright.Bytecode.Program
import Codewright.Text.Utf8

/-!
# Program images

The file form of a program. Numbers stand with their lowest byte first:

* the letters `PEIS`, the version and the number of the main function, 32 bits each;
* the number of constants, and for each its type (16 bits), six bytes of its name and its payload
  (64 bits);
* the number of functions, and for each its result type, the number of its parameters and the number
  of its slots (16 bits each), the types of the slots (16 bits each, and two more bytes if their
  number is odd), the number of instructions (32 bits), and for each its opcode and its operand (16
  bits each).

Reading gives back all but the names: a constant keeps what its six bytes hold up to a zero byte,
and functions and slots are named by their numbers.
-/

namespace Codewright.Bytecode

/-! ## Numbers -/

/-- The lowest `count` bytes of a number, the lowest one first. -/
def littleEndian : Nat → Nat → List UInt8
  | 0, _ => []
  | count + 1, n => (n % 256).toUInt8 :: littleEndian count (n / 256)

/-- The number that bytes with the lowest one first stand for. -/
def ofLittleEndian : List UInt8 → Nat
  | [] => 0
  | b :: rest => b.toNat + 256 * ofLittleEndian rest

/-- The letters at the beginning of an image. -/
def magic : List UInt8 := [0x50, 0x45, 0x49, 0x53]

def version : Nat := 6

/-- The number of bytes of a constant's name that an image keeps. -/
def nameWidth : Nat := 6

/-! ## Writing -/

inductive Count where
  | constants
  | functions
  | parameters
  | locals
  | instructions
  deriving DecidableEq

def Count.text : Count → String
  | .constants => "constant count"
  | .functions => "function count"
  | .parameters => "parameter count"
  | .locals => "local count"
  | .instructions => "instruction count"

/-- A count that is too large for its place. -/
structure WriteError where
  count : Count
  value : Nat
  deriving DecidableEq

def WriteError.message (e : WriteError) : String :=
  e.count.text ++ " " ++ toString e.value ++ " does not fit the program format"

def countBytes (width : Nat) (count : Count) (value : Nat) : Except WriteError (List UInt8) :=
  if value < Nat.pow 256 width then .ok (littleEndian width value) else .error ⟨count, value⟩

def Constant.bytes (c : Constant) : List UInt8 :=
  let name := c.name.toByteArray.toList.take nameWidth
  littleEndian 2 c.value.ty.code.toNat ++ name ++ List.replicate (nameWidth - name.length) 0
    ++ littleEndian 8 c.value.toBits.toNat

def Instruction.bytes (i : Instruction) : List UInt8 :=
  littleEndian 2 i.opcode.code.toNat ++ littleEndian 2 i.operand.toUInt16.toNat

def Function.bytes (f : Function) : Except WriteError (List UInt8) := do
  let params ← countBytes 2 .parameters f.paramCount
  let slots ← countBytes 2 .locals f.slots.size
  let count ← countBytes 4 .instructions f.code.size
  return littleEndian 2 f.result.code.toNat ++ params ++ slots
    ++ f.slots.toList.flatMap (fun s => littleEndian 2 s.ty.code.toNat)
    ++ List.replicate (f.slots.size % 2 * 2) 0 ++ count ++ f.code.toList.flatMap Instruction.bytes

def Program.bytes (p : Program) : Except WriteError (List UInt8) := do
  let constants ← countBytes 4 .constants p.constants.size
  let functions ← countBytes 4 .functions p.functions.size
  let bodies ← p.functions.toList.mapM Function.bytes
  return magic ++ littleEndian 4 version ++ littleEndian 4 p.main.toNat ++ constants
    ++ p.constants.toList.flatMap Constant.bytes ++ functions ++ bodies.flatten

/-! ## Reading -/

inductive ReadError where
  /-- The bytes end too soon. -/
  | short
  | badMagic
  | wrongVersion (found : Nat)
  | unknownType (code : Nat)
  | constantWithoutValue (ty : Ty)
  | tooFewSlots (function params slots : Nat)
  | unknownOpcode (code : Nat)
  deriving DecidableEq

/-- Whether the bytes are all there and still no image. -/
def ReadError.isMalformed : ReadError → Bool
  | .short => false
  | _ => true

def ReadError.message : ReadError → String
  | .short => "I/O error: failed to fill whole buffer"
  | .badMagic => malformed "bad magic"
  | .wrongVersion found =>
    malformed ("format version " ++ toString found ++ " (expected " ++ toString version ++ ")")
  | .unknownType code => malformed ("unknown type code " ++ toString code)
  | .constantWithoutValue ty => malformed ("constant of type " ++ ty.text)
  | .tooFewSlots function params slots =>
    malformed ("function " ++ toString function ++ " has " ++ toString params
      ++ " parameters but " ++ toString slots ++ " locals")
  | .unknownOpcode code => malformed ("unknown opcode " ++ toString code)
where
  malformed (reason : String) : String := "malformed program image: " ++ reason

/-- A step of reading: it takes bytes from the front. -/
abbrev Reader := StateT (List UInt8) (Except ReadError)

namespace Reader

def take (count : Nat) : Reader (List UInt8) := fun bytes =>
  let front := bytes.take count
  if front.length < count then .error .short else .ok (front, bytes.drop count)

def number (width : Nat) : Reader Nat := do
  return ofLittleEndian (← take width)

def type : Reader Ty := do
  let code ← number 2
  match Ty.ofCode? code.toUInt16 with
  | some ty => return ty
  | none => throw (.unknownType code)

/-- Reads `count` entries of a table after those in `done`; each is given its place. -/
def table {α : Type} (entry : Nat → Reader α) (done : Array α) : Nat → Reader (Array α)
  | 0 => return done
  | count + 1 => do
    let a ← entry done.size
    table entry (done.push a) count

def constant (_ : Nat) : Reader Constant := do
  let ty ← type
  let name ← take nameWidth
  let bits ← number 8
  match Value.ofBits? bits.toUInt64 ty with
  | some value => return ⟨Text.Utf8.decodeLenient (name.takeWhile (· != 0)), value⟩
  | none => throw (.constantWithoutValue ty)

def slot (n : Nat) : Reader Slot := do
  let ty ← type
  return ⟨"$" ++ toString n, ty⟩

def instruction (_ : Nat) : Reader Instruction := do
  let code ← number 2
  match Opcode.ofCode? code.toUInt16 with
  | none => throw (.unknownOpcode code)
  | some opcode =>
    let operand ← number 2
    return ⟨opcode, operand.toUInt16.toInt16⟩

def function (n : Nat) : Reader Function := do
  let result ← type
  let paramCount ← number 2
  let slotCount ← number 2
  if slotCount < paramCount then throw (.tooFewSlots n paramCount slotCount)
  let slots ← table slot #[] slotCount
  let _ ← take (slotCount % 2 * 2)
  let count ← number 4
  let code ← table instruction #[] count
  return { name := "function" ++ toString n, result, paramCount, slots, code }

def program : Reader Program := do
  if (← take magic.length) ≠ magic then throw .badMagic
  let found ← number 4
  if found ≠ version then throw (.wrongVersion found)
  let main ← number 4
  let constants ← table constant #[] (← number 4)
  let functions ← table function #[] (← number 4)
  return { constants, functions, main := main.toUInt32 }

end Reader

/-- The program in an image, and the bytes behind it. -/
def Program.read (bytes : List UInt8) : Except ReadError (Program × List UInt8) :=
  Reader.program.run bytes

end Codewright.Bytecode
