import Codewright.Allocation

/-!
# Registers of the processor

General registers have the numbers 0 to 15 and vector registers those from 16 on, in the order of
their encodings. Reals live in vector registers, all else in general ones. Only registers that a
function need not save are handed out, and two of each class are kept back for the computation
itself.
-/

namespace Codewright.Native

abbrev Register := UInt8

namespace Register

def rax : Register := 0
def rcx : Register := 1
def rdx : Register := 2
def rsp : Register := 4
def r8 : Register := 8
def r9 : Register := 9
def r10 : Register := 10
def r11 : Register := 11
def xmm0 : Register := 16
def xmm1 : Register := 17
def xmm2 : Register := 18
def xmm3 : Register := 19
def xmm4 : Register := 20
def xmm5 : Register := 21

def firstVector : Register := 16

def isVector (r : Register) : Bool := firstVector ≤ r

/-- The number of a register within its class. -/
def encoding (r : Register) : UInt8 := if isVector r then r - firstVector else r

def generalNames : List String :=
  ["rax", "rcx", "rdx", "rbx", "rsp", "rbp", "rsi", "rdi", "r8", "r9", "r10", "r11", "r12", "r13",
   "r14", "r15"]

def name (r : Register) : String :=
  if isVector r then "xmm" ++ toString (encoding r).toNat
  else generalNames[r.toNat]?.getD ("r?" ++ toString r.toNat)

end Register

/-- Whether values of a type live in vector registers. -/
def usesVector (ty : Ty) : Bool := ty == .real

/-- The general registers for arguments, by position. -/
def argumentRegisters : List Register := [.rcx, .rdx, .r8, .r9]

/-- The register of the parameter at a position, if it has one. -/
def parameterRegister? (position : Nat) (ty : Ty) : Option Register :=
  argumentRegisters[position]?.map fun general =>
    if usesVector ty then Register.firstVector + position.toUInt8 else general

/-- The general registers for locals, in the order in which they are handed out. -/
def generalPool : List Register := [.rcx, .rdx, .r8, .r9]

/-- The vector registers for locals, in the order in which they are handed out. -/
def vectorPool : List Register := [.xmm1, .xmm2, .xmm3]

/-- The registers that are free, those handed out next in front, and what the parameters and the
stack slots have taken. -/
structure RegisterFile where
  general : List Register
  vector : List Register
  params : List Ty
  nextParam : Nat := 0
  slots : Nat := 0
  deriving DecidableEq

namespace RegisterFile

/-- All registers but those in which the parameters arrive. -/
def ofParams (params : List Ty) : RegisterFile :=
  let taken := (params.mapIdx parameterRegister?).filterMap id
  { general := generalPool.filter (!taken.contains ·)
    vector := vectorPool.filter (!taken.contains ·)
    params }

/-- A new stack slot. Slots are not used again. -/
def freshSlot (f : RegisterFile) : Storage × RegisterFile :=
  (.stack f.slots, { f with slots := f.slots + 1 })

/-- Hands out the register of the next parameter, or a slot if it has none. -/
def takeParameter (f : RegisterFile) (ty : Ty) : Storage × RegisterFile :=
  let position := f.nextParam
  let f := { f with nextParam := position + 1 }
  match parameterRegister? position (f.params[position]?.getD ty) with
  | some r => (.register r, f)
  | none => f.freshSlot

/-- Hands out a place: the register of a parameter, a free register of the type's class, or a
slot. -/
def take (f : RegisterFile) (ty : Ty) (isParameter : Bool) : Storage × RegisterFile :=
  if isParameter then f.takeParameter ty
  else if usesVector ty then
    match f.vector with
    | r :: rest => (.register r, { f with vector := rest })
    | [] => f.freshSlot
  else
    match f.general with
    | r :: rest => (.register r, { f with general := rest })
    | [] => f.freshSlot

/-- Takes a register back, if it is one for locals. -/
def giveBack (f : RegisterFile) (storage : Storage) : RegisterFile :=
  match storage with
  | .register r =>
    if generalPool.contains r then { f with general := r :: f.general }
    else if vectorPool.contains r then { f with vector := r :: f.vector }
    else f
  | _ => f

def source : LocationSource RegisterFile where
  take := take
  giveBack := giveBack

end RegisterFile

end Codewright.Native
