import Codewright.Proofs.Bytecode.Image
import Codewright.Proofs.Native.Emission

/-!
# Reading machine code back

A decoder for the instructions that generated code consists of, by the rules of the processor: a
mandatory byte, a `REX` byte, an opcode of one byte or one behind the escape byte `0F`, the byte
that names the operands with the bytes that a stack operand needs, and an immediate. It looks at
nothing but the bytes, and an opcode has the same meaning whatever asked for it.

* `decode?_bytes`: what was written for an instruction is read as that instruction, and whatever
  follows is left alone. The lemmas before it read one part of an encoding each.
* `decodeAll?_emitAll`: the bytes of a sequence of requests, some of which are refused, fall apart
  into the instructions of those that are not, and breakpoints where the code was aligned.
-/

namespace Codewright.Native

open Bytecode (ofLittleEndian)

/-! ## The decoder -/

/-- What a processor finds in code. -/
inductive Item where
  | instruction (i : Instruction)
  | breakpoint
  deriving DecidableEq

/-- What the low four bits of a `REX` byte tell; none of it holds without the byte. -/
structure Rex where
  wide : Bool
  reg : Bool
  index : Bool
  rm : Bool
  deriving DecidableEq

def Rex.ofByte (byte : UInt8) : Rex :=
  ⟨byte &&& 8 != 0, byte &&& 4 != 0, byte &&& 2 != 0, byte &&& 1 != 0⟩

/-- An operand that is no register is memory at a distance from the stack pointer. -/
inductive Operand where
  | register (number : UInt8)
  | stack (displacement : Int8)

/-- The byte in front that belongs to the opcode, if there is one. -/
def readMandatory : List UInt8 → Option UInt8 × List UInt8
  | [] => (none, [])
  | b :: rest => if b = 0x66 ∨ b = 0xF2 then (some b, rest) else (none, b :: rest)

def readRex : List UInt8 → Rex × List UInt8
  | [] => (Rex.ofByte 0, [])
  | b :: rest => if b >>> 4 = 4 then (Rex.ofByte b, rest) else (Rex.ofByte 0, b :: rest)

/-- The number of a register from its lower three bits and the one beyond them. -/
def extended (high : Bool) (low : UInt8) : UInt8 := if high then low + 8 else low

/-- The register and the operand that the bytes behind an opcode name. Of the addressing modes there
is the one with a distance of one byte from the stack pointer, which has an index byte that names no
index. -/
def readOperands? (rex : Rex) : List UInt8 → Option (UInt8 × Operand × List UInt8)
  | [] => none
  | byte :: rest =>
    let reg := extended rex.reg ((byte >>> 3) &&& 7)
    if byte >>> 6 = 3 then some (reg, .register (extended rex.rm (byte &&& 7)), rest)
    else if byte >>> 6 = 1 ∧ byte &&& 7 = 4 then
      match rest with
      | sib :: displacement :: rest =>
        if extended rex.index ((sib >>> 3) &&& 7) = 4 ∧ extended rex.rm (sib &&& 7) = 4 then
          some (reg, .stack displacement.toInt8, rest)
        else none
      | _ => none
    else none

/-- A number of `width` bytes, with its sign. -/
def readImmediate? (width : Nat) (bytes : List UInt8) : Option (Int64 × List UInt8) :=
  if bytes.length < width then none
  else
    some (Int64.ofInt (Int.bmod (ofLittleEndian (bytes.take width)) (256 ^ width)),
      bytes.drop width)

/-- A change of the stack pointer; the reserved size is never negative. -/
def stackPointerForm? (extension rm : UInt8) (amount : Int64) : Option Instruction :=
  if rm = 4 ∧ 0 ≤ amount then
    match extension with
    | 5 => some (.reserve amount.toUInt64.toUInt32)
    | 0 => some (.release amount.toUInt64.toUInt32)
    | _ => none
  else none

/-- The opcodes of one byte with a byte for the operands, on 64 bits. -/
def plainForm? (code reg : UInt8) (operand : Operand) (rest : List UInt8) :
    Option (Instruction × List UInt8) :=
  match code, operand with
  | 0x01, .register rm => some (.arith .add rm reg, rest)
  | 0x29, .register rm => some (.arith .sub rm reg, rest)
  | 0x89, .register rm => some (.move rm reg, rest)
  | 0x89, .stack d => some (.store d reg, rest)
  | 0x8B, .register rm => some (.move reg rm, rest)
  | 0x8B, .stack d => some (.load reg d, rest)
  | 0x81, .register rm => do
    let amount ← readImmediate? 4 rest
    return (← stackPointerForm? (reg &&& 7) rm amount.1, amount.2)
  | 0x83, .register rm => do
    let amount ← readImmediate? 1 rest
    return (← stackPointerForm? (reg &&& 7) rm amount.1, amount.2)
  | 0xC7, .register rm => do
    let value ← readImmediate? 4 rest
    if reg &&& 7 = 0 then return (.loadImmediate rm value.1, value.2) else none
  | _, _ => none

def vectorNumber (number : UInt8) : Register := Register.firstVector + number

def escapedForm? (mandatory : Option UInt8) (wide : Bool) (code reg : UInt8) (operand : Operand) :
    Option Instruction :=
  match mandatory, wide, code, operand with
  | none, true, 0xAF, .register rm => some (.arith .mul reg rm)
  | some 0x66, true, 0x6E, .register rm => some (.toVector (vectorNumber reg) rm)
  | some 0x66, true, 0x7E, .register rm => some (.toGeneral rm (vectorNumber reg))
  | some 0xF2, true, 0x2A, .register rm => some (.convert (vectorNumber reg) rm)
  | some 0xF2, _, 0x10, .register rm => some (.moveReal (vectorNumber reg) (vectorNumber rm))
  | some 0xF2, _, 0x10, .stack d => some (.loadReal (vectorNumber reg) d)
  | some 0xF2, _, 0x11, .register rm => some (.moveReal (vectorNumber rm) (vectorNumber reg))
  | some 0xF2, _, 0x11, .stack d => some (.storeReal d (vectorNumber reg))
  | some 0xF2, _, 0x58, .register rm => some (.arithReal .add (vectorNumber reg) (vectorNumber rm))
  | some 0xF2, _, 0x59, .register rm => some (.arithReal .mul (vectorNumber reg) (vectorNumber rm))
  | some 0xF2, _, 0x5C, .register rm => some (.arithReal .sub (vectorNumber reg) (vectorNumber rm))
  | some 0xF2, _, 0x5E, .register rm => some (.arithReal .div (vectorNumber reg) (vectorNumber rm))
  | _, _, _, _ => none

/-- The instruction whose opcode comes next, behind the escape byte. -/
def decodeEscaped? (mandatory : Option UInt8) (rex : Rex) :
    List UInt8 → Option (Instruction × List UInt8)
  | [] => none
  | code :: rest => do
    let operands ← readOperands? rex rest
    return (← escapedForm? mandatory rex.wide code operands.1 operands.2.1, operands.2.2)

/-- The instruction whose opcode comes next. Without the escape byte there are only instructions on
64 bits and without a mandatory byte. -/
def decodeOpcode? (mandatory : Option UInt8) (rex : Rex) :
    List UInt8 → Option (Instruction × List UInt8)
  | [] => none
  | code :: rest =>
    if code = 0x0F then decodeEscaped? mandatory rex rest
    else if mandatory.isSome ∨ rex.wide = false then none
    else if code &&& 0xF8 = 0xB8 then do
      let value ← readImmediate? 8 rest
      return (.loadImmediate (extended rex.rm (code &&& 7)) value.1, value.2)
    else do
      let operands ← readOperands? rex rest
      plainForm? code operands.1 operands.2.1 operands.2.2

/-- What stands first in code, and the code behind it. -/
def decode? : List UInt8 → Option (Item × List UInt8)
  | [] => none
  | b :: rest =>
    if b = 0xCC then some (.breakpoint, rest)
    else if b = 0xC3 then some (.instruction .ret, rest)
    else
      let front := readMandatory (b :: rest)
      let middle := readRex front.2
      (decodeOpcode? front.1 middle.1 middle.2).map fun found => (.instruction found.1, found.2)

/-- Splits code into what stands in it, if nothing is left over. -/
def decodeAll? (bytes : List UInt8) : Option (List Item) :=
  if bytes = [] then some []
  else
    match decode? bytes with
    | none => none
    | some (item, rest) =>
      if rest.length < bytes.length then (decodeAll? rest).map (item :: ·) else none
termination_by bytes.length

/-! ## Parts of an encoding -/

/-- A fact about the numbers of registers within their class is a fact about sixteen of them. -/
theorem forall_lt_sixteen {P : UInt8 → Prop} (h : ∀ n : Fin 16, P (UInt8.ofNat n)) (r : UInt8)
    (hr : r < 16) : P r := by
  have := h ⟨r.toNat, hr⟩
  rwa [UInt8.ofNat_toNat] at this

theorem extended_and_seven : ∀ r : UInt8, r < 16 → extended (decide (8 ≤ r)) (r &&& 7) = r :=
  forall_lt_sixteen (by decide)

/-- A byte for two operands keeps the lower three bits of each. -/
theorem modRM_fields {mode : UInt8} (hmode : mode = 1 ∨ mode = 3) :
    ∀ reg < 16, ∀ rm < 16, modRM mode reg rm >>> 6 = mode ∧
      (modRM mode reg rm >>> 3) &&& 7 = reg &&& 7 ∧ modRM mode reg rm &&& 7 = rm &&& 7 := by
  rcases hmode with rfl | rfl <;>
    exact forall_lt_sixteen fun reg => forall_lt_sixteen (by revert reg; decide)

/-- The `REX` byte for two operands, whether it is needed or not. -/
def rexByte (wide : Bool) (reg rm : UInt8) : UInt8 :=
  (if wide then (0x48 : UInt8) else 0x40) ||| (((reg >>> 3) &&& 1) <<< 2) ||| ((rm >>> 3) &&& 1)

/-- The `REX` byte keeps the fourth bit of each operand. -/
theorem rexByte_fields (wide : Bool) :
    ∀ reg < 16, ∀ rm < 16, rexByte wide reg rm >>> 4 = 4 ∧
      Rex.ofByte (rexByte wide reg rm) = ⟨wide, decide (8 ≤ reg), false, decide (8 ≤ rm)⟩ :=
  forall_lt_sixteen fun reg => forall_lt_sixteen (by revert wide reg; decide)

variable {reg rm op code : UInt8} {rest bytes : List UInt8} {size : UInt32} {i : Instruction}
  {r : Register} {v : Bool}

/-- Where the `REX` byte is left out, it would tell nothing. -/
theorem readRex_rex (wide : Bool) (hreg : reg < 16) (hrm : rm < 16)
    (hop : op >>> 4 ≠ 4) (rest : List UInt8) :
    readRex (rex wide reg rm ++ op :: rest) =
      (⟨wide, decide (8 ≤ reg), false, decide (8 ≤ rm)⟩, op :: rest) := by
  obtain ⟨hhigh, hfields⟩ := rexByte_fields wide reg hreg rm hrm
  have hrex : rex wide reg rm =
      if rexByte wide reg rm = 0x40 then [] else [rexByte wide reg rm] := rfl
  by_cases h : rexByte wide reg rm = 0x40
  · have hnone : Rex.ofByte 0 = Rex.ofByte 0x40 := by decide
    rw [hrex, if_pos h, List.nil_append, readRex, if_neg hop, hnone, ← h, hfields]
  · rw [hrex, if_neg h, List.singleton_append, readRex, if_pos hhigh, hfields]

theorem readOperands?_registers (hreg : reg < 16) (hrm : rm < 16) (wide : Bool)
    (rest : List UInt8) :
    readOperands? ⟨wide, decide (8 ≤ reg), false, decide (8 ≤ rm)⟩ (modRM 3 reg rm :: rest) =
      some (reg, .register rm, rest) := by
  obtain ⟨hmode, hregs, hrms⟩ := modRM_fields (.inr rfl) reg hreg rm hrm
  simp only [readOperands?, hmode, hregs, hrms, if_true, extended_and_seven _ hreg,
    extended_and_seven _ hrm]

theorem readOperands?_stackOperand (hreg : reg < 16) (wide : Bool) (d : Int8) (rest : List UInt8) :
    readOperands? ⟨wide, decide (8 ≤ reg), false, decide (8 ≤ Register.rsp)⟩
        (stackOperand reg d ++ rest) =
      some (reg, .stack d, rest) := by
  obtain ⟨hmode, hregs, hrms⟩ := modRM_fields (.inl rfl) reg hreg Register.rsp (by decide)
  have hbase : Register.rsp &&& 7 = 4 := by decide
  have hsib : extended false (((0x24 : UInt8) >>> 3) &&& 7) = 4 ∧
      extended (decide (8 ≤ Register.rsp)) ((0x24 : UInt8) &&& 7) = 4 := by decide
  simp only [stackOperand, List.cons_append, List.nil_append, readOperands?, hmode, hregs, hrms,
    hbase, if_pos hsib, extended_and_seven _ hreg, Int8.toInt8_toUInt8]
  rfl

/-! ## Immediates -/

@[simp] theorem length_wordBytes (count : Nat) (w : UInt64) :
    (wordBytes count w).length = count := by
  induction count generalizing w with
  | zero => rfl
  | succ count ih => rw [wordBytes, List.length_cons, ih]

theorem ofLittleEndian_wordBytes (count : Nat) (w : UInt64) :
    ofLittleEndian (wordBytes count w) = w.toNat % 256 ^ count := by
  induction count generalizing w with
  | zero => simp [wordBytes, ofLittleEndian, Nat.mod_one]
  | succ count ih =>
    have hshift : (w >>> 8).toNat = w.toNat / 256 := by
      rw [UInt64.toNat_shiftRight, Nat.shiftRight_eq_div_pow]
      rfl
    have hlow : w.toUInt8.toNat = w.toNat % 256 := UInt64.toNat_toUInt8 w
    rw [wordBytes, ofLittleEndian, ih, hshift, hlow, pow_succ', Nat.mod_mul]

/-- A number with its sign is read back if it has its sign in as many bytes as are written. -/
theorem readImmediate?_wordBytes {width : Nat} (hwidth : width ≤ 8) {value : Int64}
    (h : Int.bmod value.toInt (256 ^ width) = value.toInt) (rest : List UInt8) :
    readImmediate? width (wordBytes width value.toUInt64 ++ rest) = some (value, rest) := by
  have hdvd : 256 ^ width ∣ 2 ^ 64 := pow_dvd_pow 256 hwidth
  have hword : value.toInt = Int.bmod value.toUInt64.toNat (2 ^ 64) :=
    BitVec.toInt_eq_toNat_bmod value.toBitVec
  have hbytes : Int.bmod (ofLittleEndian (wordBytes width value.toUInt64)) (256 ^ width) =
      value.toInt := by
    rw [ofLittleEndian_wordBytes, Int.natCast_mod, Int.emod_bmod,
      ← Int.bmod_bmod_of_dvd hdvd, ← hword, h]
  rw [readImmediate?, if_neg (by simp), List.take_left' (by simp),
    List.drop_left' (by simp), hbytes, Int64.ofInt_toInt]

theorem bmod_of_fitsHalf {value : Int64} (h : fitsHalf value = true) :
    Int.bmod value.toInt (256 ^ 4) = value.toInt := by
  simp only [fitsHalf, Bool.and_eq_true, decide_eq_true_eq, Int64.le_iff_toInt_le] at h
  have hlow : (-0x80000000 : Int64).toInt = -0x80000000 := by decide
  have hhigh : (0x7FFFFFFF : Int64).toInt = 0x7FFFFFFF := by decide
  rw [hlow, hhigh] at h
  exact Int.bmod_eq_of_le (by omega) (by omega)

theorem bmod_eight (value : Int64) : Int.bmod value.toInt (256 ^ 8) = value.toInt := by
  have hword : value.toInt = Int.bmod value.toUInt64.toNat (2 ^ 64) :=
    BitVec.toInt_eq_toNat_bmod value.toBitVec
  rw [hword, show 256 ^ 8 = 2 ^ 64 by norm_num, Int.bmod_bmod]

theorem toInt_frameSize (h : size < 0x80000000) : size.toUInt64.toInt64.toInt = size.toNat := by
  have hsize : size.toNat < 0x80000000 := h
  have hword : size.toUInt64.toInt64.toInt = Int.bmod size.toUInt64.toNat (2 ^ 64) :=
    BitVec.toInt_eq_toNat_bmod _
  rw [hword, UInt32.toNat_toUInt64]
  exact Int.bmod_eq_of_le (by omega) (by omega)

theorem stackPointerForm?_frameSize (h : size < 0x80000000) :
    stackPointerForm? 5 Register.rsp size.toUInt64.toInt64 = some (.reserve size) ∧
      stackPointerForm? 0 Register.rsp size.toUInt64.toInt64 = some (.release size) := by
  have hsign : (0 : Int64) ≤ size.toUInt64.toInt64 := by
    rw [Int64.le_iff_toInt_le, toInt_frameSize h]
    exact Int.natCast_nonneg _
  have hword : size.toUInt64.toInt64.toUInt64.toUInt32 = size := by simp
  constructor
  · rw [stackPointerForm?, if_pos ⟨rfl, hsign⟩, hword]
  · rw [stackPointerForm?, if_pos ⟨rfl, hsign⟩, hword]

/-! ## One instruction -/

/-- Code on 64 bits without a mandatory byte is read from its opcode on. -/
theorem decode?_wide (hreg : reg < 16) (hrm : rm < 16) (hop : op >>> 4 ≠ 4)
    (h : decodeOpcode? none ⟨true, decide (8 ≤ reg), false, decide (8 ≤ rm)⟩ (op :: bytes) =
      some (i, rest)) :
    decode? (rex true reg rm ++ op :: bytes) = some (.instruction i, rest) := by
  obtain ⟨hhigh, hfields⟩ := rexByte_fields true reg hreg rm hrm
  -- No byte that stands for something else in front looks like a `REX` byte.
  have hne : ∀ b : UInt8, b >>> 4 ≠ 4 → rexByte true reg rm ≠ b := by
    rintro b hb rfl
    exact hb hhigh
  have hwide : rexByte true reg rm ≠ 0x40 := by
    intro h40
    rw [h40] at hfields
    exact Bool.false_ne_true (congrArg Rex.wide hfields)
  have hrex : rex true reg rm = [rexByte true reg rm] := if_neg hwide
  have hmandatory : readMandatory (rexByte true reg rm :: op :: bytes) =
      (none, rexByte true reg rm :: op :: bytes) :=
    if_neg (not_or.2 ⟨hne _ (by decide), hne _ (by decide)⟩)
  have hread := readRex_rex true hreg hrm hop bytes
  rw [hrex, List.singleton_append] at hread ⊢
  rw [decode?, if_neg (hne _ (by decide)), if_neg (hne _ (by decide))]
  simp only [hmandatory, hread, h, Option.map_some]

/-- Code behind a mandatory byte is read from its opcode on. -/
theorem decode?_mandatory {m : UInt8} (hm : m = 0x66 ∨ m = 0xF2) (wide : Bool)
    (hreg : reg < 16) (hrm : rm < 16) (hop : op >>> 4 ≠ 4)
    (h : decodeOpcode? (some m) ⟨wide, decide (8 ≤ reg), false, decide (8 ≤ rm)⟩ (op :: bytes) =
      some (i, rest)) :
    decode? (m :: (rex wide reg rm ++ op :: bytes)) = some (.instruction i, rest) := by
  have hother : m ≠ 0xCC ∧ m ≠ 0xC3 := by
    rcases hm with rfl | rfl <;> decide
  have hmandatory : readMandatory (m :: (rex wide reg rm ++ op :: bytes)) =
      (some m, rex wide reg rm ++ op :: bytes) := if_pos hm
  rw [decode?, if_neg hother.1, if_neg hother.2]
  simp only [hmandatory, readRex_rex wide hreg hrm hop bytes, h, Option.map_some]

theorem decodeOpcode?_plain {r : Rex} (hwide : r.wide = true)
    (hcode : code ≠ 0x0F ∧ code &&& 0xF8 ≠ 0xB8)
    {operand : Operand} (h : readOperands? r bytes = some (reg, operand, rest)) :
    decodeOpcode? none r (code :: bytes) = plainForm? code reg operand rest := by
  rw [decodeOpcode?, if_neg hcode.1, if_neg (by simp [hwide]), if_neg hcode.2, h]
  rfl

theorem decodeOpcode?_escaped {m : Option UInt8} {r : Rex} {operand : Operand}
    (h : readOperands? r bytes = some (reg, operand, rest))
    (hi : escapedForm? m r.wide code reg operand = some i) :
    decodeOpcode? m r (0x0F :: code :: bytes) = some (i, rest) := by
  rw [decodeOpcode?, if_pos rfl, decodeEscaped?, h, Option.bind_eq_bind, Option.bind_some, hi]
  rfl

theorem movImmediate_fields :
    ∀ r : UInt8, r < 16 → 0xB8 + (r &&& 7) ≠ 0x0F ∧ (0xB8 + (r &&& 7)) &&& 0xF8 = 0xB8 ∧
      (0xB8 + (r &&& 7)) >>> 4 ≠ 4 ∧ (0xB8 + (r &&& 7)) &&& 7 = r &&& 7 :=
  forall_lt_sixteen (by decide)

theorem decode?_plain_registers
    (hcode : code >>> 4 ≠ 4 ∧ code ≠ 0x0F ∧ code &&& 0xF8 ≠ 0xB8) (hreg : reg < 16) (hrm : rm < 16)
    (h : plainForm? code reg (.register rm) bytes = some (i, rest)) :
    decode? (rex true reg rm ++ code :: modRM 3 reg rm :: bytes) = some (.instruction i, rest) := by
  refine decode?_wide hreg hrm hcode.1 ?_
  rw [decodeOpcode?_plain rfl hcode.2 (readOperands?_registers hreg hrm true bytes), h]

theorem decode?_plain_stack
    (hcode : code >>> 4 ≠ 4 ∧ code ≠ 0x0F ∧ code &&& 0xF8 ≠ 0xB8) (hreg : reg < 16) {d : Int8}
    (h : plainForm? code reg (.stack d) bytes = some (i, rest)) :
    decode? (rex true reg Register.rsp ++ code :: (stackOperand reg d ++ bytes)) =
      some (.instruction i, rest) := by
  refine decode?_wide hreg (by decide) hcode.1 ?_
  rw [decodeOpcode?_plain rfl hcode.2 (readOperands?_stackOperand hreg true d bytes), h]

theorem decode?_escaped_registers {m : UInt8} (hm : m = 0x66 ∨ m = 0xF2) {wide : Bool}
    (hreg : reg < 16) (hrm : rm < 16)
    (h : escapedForm? (some m) wide code reg (.register rm) = some i) (rest : List UInt8) :
    decode? (m :: (rex wide reg rm ++ 0x0F :: code :: modRM 3 reg rm :: rest)) =
      some (.instruction i, rest) :=
  decode?_mandatory hm wide hreg hrm (by decide)
    (decodeOpcode?_escaped (readOperands?_registers hreg hrm wide rest) h)

theorem decode?_escaped_stack (hreg : reg < 16) {d : Int8}
    (h : escapedForm? (some 0xF2) false code reg (.stack d) = some i) (rest : List UInt8) :
    decode? (0xF2 :: (rex false reg Register.rsp ++ 0x0F :: code :: (stackOperand reg d ++ rest))) =
      some (.instruction i, rest) :=
  decode?_mandatory (.inr rfl) false hreg (by decide) (by decide)
    (decodeOpcode?_escaped (readOperands?_stackOperand hreg false d rest) h)

theorem decode?_immediateBytes {dst : UInt8} (hdst : dst < 16) (value : Int64) (rest : List UInt8) :
    decode? (immediateBytes dst value ++ rest) =
        some (.instruction (.loadImmediate dst value), rest) := by
  unfold immediateBytes
  split_ifs with hfits
  · have hread := readImmediate?_wordBytes (by decide) (bmod_of_fitsHalf hfits) rest
    simp only [List.append_assoc, List.cons_append, List.nil_append]
    refine decode?_plain_registers (by decide) (by decide) hdst ?_
    rw [plainForm?, hread]
    rfl
  · have hread := readImmediate?_wordBytes le_rfl (bmod_eight value) rest
    obtain ⟨hescape, hmark, hrex, hlow⟩ := movImmediate_fields dst hdst
    simp only [List.append_assoc, List.cons_append, List.nil_append]
    refine decode?_wide (by decide) hdst hrex ?_
    rw [decodeOpcode?, if_neg hescape, if_neg (by simp), if_pos hmark, hlow,
      extended_and_seven dst hdst, hread]
    rfl

/-- A frame size is read back from as many bytes as it takes with its sign. -/
theorem readImmediate?_frameSize {width : Nat} (hwidth : width ≤ 8)
    (h : 2 * size.toNat < 256 ^ width) (hsize : size < 0x80000000) (rest : List UInt8) :
    readImmediate? width (wordBytes width size.toUInt64 ++ rest) =
      some (size.toUInt64.toInt64, rest) := by
  have hbmod : Int.bmod size.toUInt64.toInt64.toInt (256 ^ width) =
      size.toUInt64.toInt64.toInt := by
    rw [toInt_frameSize hsize]
    exact Int.bmod_eq_of_le (by omega) (by omega)
  exact readImmediate?_wordBytes hwidth hbmod rest

theorem decode?_stackPointerBytes {extension : UInt8} (hextension : extension = 5 ∨ extension = 0)
    (hi : size < 0x80000000 → stackPointerForm? extension Register.rsp size.toUInt64.toInt64 =
      some i) (h : stackPointerBytes extension size = .ok bytes) (rest : List UInt8) :
    decode? (bytes ++ rest) = some (.instruction i, rest) := by
  have hrex : rex true extension Register.rsp = [0x48] := by
    rcases hextension with rfl | rfl <;> decide
  have hlow : extension &&& 7 = extension ∧ extension < 16 := by
    rcases hextension with rfl | rfl <;> decide
  have hread : ∀ (code : UInt8) (imm : List UInt8), code >>> 4 ≠ 4 ∧ code ≠ 0x0F ∧
    code &&& 0xF8 ≠ 0xB8 →
      plainForm? code extension (.register Register.rsp) (imm ++ rest) = some (i, rest) →
      decode? ([0x48, code, modRM 3 extension Register.rsp] ++ imm ++ rest) =
        some (.instruction i, rest) := by
    intro code imm hcode himm
    have := decode?_plain_registers hcode hlow.2 (by decide) himm
    rwa [hrex] at this
  unfold stackPointerBytes at h
  split_ifs at h with hshort hlong
  · obtain rfl := Except.ok.inj h
    have hsmall : size.toNat < 0x80 := hshort
    have hsize : size < 0x80000000 := UInt32.lt_trans hshort (by decide)
    have hnumber := readImmediate?_frameSize (by decide)
      (by omega : 2 * size.toNat < 256 ^ 1) hsize rest
    have hbyte : wordBytes 1 size.toUInt64 = [size.toUInt8] := by simp [wordBytes]
    refine hread 0x83 [size.toUInt8] (by decide) ?_
    rw [plainForm?, ← hbyte, hnumber, Option.bind_eq_bind, Option.bind_some, hlow.1, hi hsize]
    rfl
  · obtain rfl := Except.ok.inj h
    have hsmall : size.toNat < 0x80000000 := hlong
    have hnumber := readImmediate?_frameSize (by decide)
      (by omega : 2 * size.toNat < 256 ^ 4) hlong rest
    refine hread 0x81 (wordBytes 4 size.toUInt64) (by decide) ?_
    rw [plainForm?, hnumber, Option.bind_eq_bind, Option.bind_some, hlow.1, hi hlong]
    rfl

/-- The registers of an instruction in the order in which they are looked at, each with whether it
has to be a vector register. -/
def Instruction.operands : Instruction → List (Bool × Register)
  | .loadImmediate dst _ | .load dst _ => [(false, dst)]
  | .store _ src => [(false, src)]
  | .move dst src | .arith _ dst src => [(false, dst), (false, src)]
  | .toVector dst src | .convert dst src => [(true, dst), (false, src)]
  | .toGeneral dst src => [(false, dst), (true, src)]
  | .moveReal dst src | .arithReal _ dst src => [(true, dst), (true, src)]
  | .loadReal dst _ => [(true, dst)]
  | .storeReal _ src => [(true, src)]
  | .reserve _ | .release _ | .ret => []

/-- By how much an instruction moves the stack pointer. -/
def Instruction.frameSize : Instruction → UInt32
  | .reserve size | .release size => size
  | _ => 0

/-- All registers of an instruction exist. -/
def Instruction.InRange (i : Instruction) : Prop := ∀ o ∈ i.operands, o.2 < 32

instance (i : Instruction) : Decidable i.InRange :=
  List.decidableBAll (fun o : Bool × Register => o.2 < 32) i.operands

open Steps

/-- The number of a register within the class that it has to be of. -/
def number : Bool → Register → Except GenerationError UInt8
  | false => general
  | true => vector

/-- The register of a class by its number. -/
def numbered : Bool → UInt8 → Register
  | false => id
  | true => vectorNumber

theorem numbered_of_number {v : Bool} (hr : r < 32) {n : UInt8} (h : number v r = .ok n) :
    n < 16 ∧ r = numbered v n := by
  cases v with
  | false =>
    rw [number, general] at h
    split_ifs at h with hr
    obtain rfl := Except.ok.inj h
    exact ⟨UInt8.not_le.1 fun hle => hr (decide_eq_true hle), rfl⟩
  | true =>
    rw [number, vector] at h
    split_ifs at h with hv
    obtain rfl := Except.ok.inj h
    have hlow : 16 ≤ r := of_decide_eq_true hv
    have hsub : (r - 16).toNat = r.toNat - 16 := UInt8.toNat_sub_of_le r 16 hlow
    rw [Register.encoding, if_pos hv]
    constructor
    · show (r - 16).toNat < 16
      have : r.toNat < 32 := hr
      omega
    · rw [numbered, vectorNumber, UInt8.add_comm]
      exact (UInt8.sub_add_cancel r 16).symm

/-- The number of one operand has been found, and the bytes follow from it. -/
theorem exists_of_operand {v : Bool} {f : UInt8 → List UInt8} (hi : i.InRange)
    (hops : i.operands = [(v, r)])
    (h : (do return f (← number v r)) = Except.ok bytes) : ∃ d < 16, r = numbered v d ∧
      bytes = f d := by
  obtain ⟨d, hd, hf⟩ := except_bind_eq_ok.1 h
  obtain ⟨hlt, hr⟩ := numbered_of_number (hi (v, r) (by simp [hops])) hd
  exact ⟨d, hlt, hr, (Except.ok.inj hf).symm⟩

theorem exists_of_operands {v w : Bool} {r' : Register} {f : UInt8 → UInt8 → List UInt8}
    (hi : i.InRange) (hops : i.operands = [(v, r), (w, r')])
    (h : (do let d ← number v r; let s ← number w r'; return f d s) = Except.ok bytes) :
    ∃ d < 16, ∃ s < 16, r = numbered v d ∧ r' = numbered w s ∧ bytes = f d s := by
  obtain ⟨d, hd, hf⟩ := except_bind_eq_ok.1 h
  obtain ⟨s, hs, hf⟩ := except_bind_eq_ok.1 hf
  obtain ⟨hdlt, hr⟩ := numbered_of_number (hi (v, r) (by simp [hops])) hd
  obtain ⟨hslt, hr'⟩ := numbered_of_number (hi (w, r') (by simp [hops])) hs
  exact ⟨d, hdlt, s, hslt, hr, hr', (Except.ok.inj hf).symm⟩

/-- What was written for an instruction is read as that instruction, whatever follows. -/
theorem decode?_bytes (hi : i.InRange) (h : i.bytes = .ok bytes)
    (rest : List UInt8) : decode? (bytes ++ rest) = some (.instruction i, rest) := by
  cases i with
  | ret =>
    obtain rfl := Except.ok.inj h
    rfl
  | reserve size =>
    exact decode?_stackPointerBytes (.inl rfl) (fun hs => (stackPointerForm?_frameSize hs).1) h rest
  | release size =>
    exact decode?_stackPointerBytes (.inr rfl) (fun hs => (stackPointerForm?_frameSize hs).2) h rest
  | loadImmediate dst value =>
    obtain ⟨d, hd, rfl, rfl⟩ := exists_of_operand hi rfl h
    exact decode?_immediateBytes hd value rest
  | load | store =>
    obtain ⟨n, hn, rfl, rfl⟩ := exists_of_operand hi rfl h
    rw [List.append_assoc, List.append_assoc]
    exact decode?_plain_stack (by decide) hn rfl
  | loadReal | storeReal =>
    obtain ⟨n, hn, rfl, rfl⟩ := exists_of_operand hi rfl h
    simp only [List.append_assoc]
    exact decode?_escaped_stack hn rfl rest
  | move dst src =>
    obtain ⟨d, hd, s, hs, rfl, rfl, rfl⟩ := exists_of_operands hi rfl h
    rw [List.append_assoc]
    exact decode?_plain_registers (by decide) hs hd rfl
  | toVector dst src =>
    obtain ⟨d, hd, s, hs, rfl, rfl, rfl⟩ := exists_of_operands hi rfl h
    rw [List.append_assoc, List.append_assoc]
    exact decode?_escaped_registers (.inl rfl) hd hs rfl rest
  | toGeneral dst src =>
    obtain ⟨d, hd, s, hs, rfl, rfl, rfl⟩ := exists_of_operands hi rfl h
    rw [List.append_assoc, List.append_assoc]
    exact decode?_escaped_registers (.inl rfl) hs hd rfl rest
  | moveReal | convert =>
    obtain ⟨d, hd, s, hs, rfl, rfl, rfl⟩ := exists_of_operands hi rfl h
    rw [List.append_assoc, List.append_assoc]
    exact decode?_escaped_registers (.inr rfl) hd hs rfl rest
  | arithReal op dst src =>
    obtain ⟨d, hd, s, hs, rfl, rfl, rfl⟩ := exists_of_operands hi rfl h
    rw [List.append_assoc, List.append_assoc]
    cases op <;> exact decode?_escaped_registers (.inr rfl) hd hs rfl rest
  | arith op dst src =>
    cases op with
    | add | sub =>
      obtain ⟨d, hd, s, hs, rfl, rfl, rfl⟩ := exists_of_operands hi rfl h
      rw [List.append_assoc]
      exact decode?_plain_registers (by decide) hs hd rfl
    | mul =>
      obtain ⟨d, hd, s, hs, rfl, rfl, rfl⟩ := exists_of_operands hi rfl h
      rw [List.append_assoc]
      exact decode?_wide hd hs (by decide)
        (decodeOpcode?_escaped (readOperands?_registers hd hs true rest) rfl)

/-! ## Refusals -/

/-- What is wrong with an instruction that has no encoding. -/
inductive Instruction.Fault (i : Instruction) : GenerationError → Prop
  | notGeneral {r : Register} (hr : (false, r) ∈ i.operands) (h : r.isVector = true) :
    Fault i (.internal (.notGeneral r.name))
  | notVector {r : Register} (hr : (true, r) ∈ i.operands) (h : r.isVector = false) :
    Fault i (.internal (.notVector r.name))
  | frameSize (h : 0x80000000 ≤ i.frameSize) :
    Fault i (.operandOverflow .frameSize i.frameSize.toNat)

/-- Every register is of its class, and the stack pointer moves by a number that is not negative as
a signed half word. -/
def Instruction.Encodable (i : Instruction) : Prop :=
  (∀ o ∈ i.operands, o.2.isVector = o.1) ∧ i.frameSize < 0x80000000

instance (i : Instruction) : Decidable i.Encodable :=
  @instDecidableAnd _ _ (List.decidableBAll (fun o => o.2.isVector = o.1) i.operands) inferInstance

theorem Instruction.Fault.not_encodable {e : GenerationError} (h : i.Fault e) : ¬ i.Encodable := by
  rintro ⟨hclass, hframe⟩
  cases h with
  | notGeneral hr h => exact Bool.false_ne_true ((hclass _ hr).symm.trans h)
  | notVector hr h => exact Bool.false_ne_true (h.symm.trans (hclass _ hr))
  | frameSize h => exact absurd hframe (UInt32.not_lt.2 h)

theorem number_cases (hr : (v, r) ∈ i.operands) :
    (r.isVector = v ∧ ∃ n, number v r = .ok n) ∨ ∃ e, i.Fault e ∧ number v r = .error e := by
  cases v with
  | false =>
    cases h : r.isVector with
    | false => exact .inl ⟨rfl, r, general_eq_ok h⟩
    | true => exact .inr ⟨_, .notGeneral hr h, by simp [number, general, h]⟩
  | true =>
    cases h : r.isVector with
    | false => exact .inr ⟨_, .notVector hr h, by simp [number, vector, h]⟩
    | true => exact .inl ⟨rfl, _, vector_eq_ok h⟩

/-- An instruction has an encoding, or there is something wrong with it that the error tells. -/
def Instruction.Decided (i : Instruction) : Prop :=
  (i.Encodable ∧ ∃ bytes, i.bytes = .ok bytes) ∨ ∃ e, i.Fault e ∧ i.bytes = .error e

theorem Instruction.decided_of_operand
    {f : UInt8 → List UInt8} (hi : i.operands = [(v, r)]) (hsize : i.frameSize = 0)
    (h : i.bytes = do return f (← number v r)) : i.Decided := by
  rcases number_cases (i := i) (v := v) (r := r) (by simp [hi]) with ⟨hr, n, hn⟩ | ⟨e, he, hn⟩
  · exact .inl ⟨⟨by simp [hi, hr], by simp [hsize]⟩, f n, by rw [h, hn]; rfl⟩
  · exact .inr ⟨e, he, by rw [h, hn]; rfl⟩

theorem Instruction.decided_of_operands {w : Bool} {s : Register}
    {f : UInt8 → UInt8 → List UInt8} (hi : i.operands = [(v, r), (w, s)]) (hsize : i.frameSize = 0)
    (h : i.bytes = do let d ← number v r; let e ← number w s; return f d e) : i.Decided := by
  rcases number_cases (i := i) (v := v) (r := r) (by simp [hi]) with ⟨hr, n, hn⟩ | ⟨e, he, hn⟩
  · rcases number_cases (i := i) (v := w) (r := s) (by simp [hi]) with ⟨hs, m, hm⟩ | ⟨e, he, hm⟩
    · exact .inl ⟨⟨by simp [hi, hr, hs], by simp [hsize]⟩, f n m, by rw [h, hn, hm]; rfl⟩
    · exact .inr ⟨e, he, by rw [h, hn, hm]; rfl⟩
  · exact .inr ⟨e, he, by rw [h, hn]; rfl⟩

theorem Instruction.decided_of_frameSize {extension : UInt8}
    (hi : i.operands = []) (h : i.bytes = stackPointerBytes extension i.frameSize) : i.Decided := by
  by_cases hlong : i.frameSize < 0x80000000
  · refine .inl ⟨⟨by simp [hi], hlong⟩, ?_⟩
    rw [h, stackPointerBytes, if_pos hlong]
    split_ifs
    · exact ⟨_, rfl⟩
    · exact ⟨_, rfl⟩
  · have hshort : ¬ i.frameSize < 0x80 := fun hs => hlong (UInt32.lt_trans hs (by decide))
    refine .inr ⟨_, .frameSize (UInt32.not_lt.1 hlong), ?_⟩
    rw [h, stackPointerBytes, if_neg hshort, if_neg hlong]

theorem Instruction.decided (i : Instruction) : i.Decided := by
  cases i with
  | loadImmediate | load | store => exact decided_of_operand (v := false) rfl rfl rfl
  | loadReal | storeReal => exact decided_of_operand (v := true) rfl rfl rfl
  | move => exact decided_of_operands (v := false) (w := false) rfl rfl rfl
  | arith op => cases op <;> exact decided_of_operands (v := false) (w := false) rfl rfl rfl
  | toVector | convert => exact decided_of_operands (v := true) (w := false) rfl rfl rfl
  | toGeneral => exact decided_of_operands (v := false) (w := true) rfl rfl rfl
  | moveReal | arithReal => exact decided_of_operands (v := true) (w := true) rfl rfl rfl
  | reserve | release => exact decided_of_frameSize rfl rfl
  | ret => exact .inl ⟨by decide, _, rfl⟩

/-! ## Sequences -/

/-- What can be asked for: an instruction, or breakpoints up to a multiple of a number of bytes. -/
inductive Request where
  | instruction (i : Instruction)
  | align (alignment : Nat)

namespace Request

def emit : Request → Emit Unit
  | .instruction i => Emit.instruction i
  | .align alignment => modify fun (code : Code) => code ++ padding code.size alignment

/-- The code after a request, be it granted or refused. -/
def after (r : Request) (code : Code) : Code :=
  match r.emit code with
  | .ok _ code' => code'
  | .error _ code' => code'

def InRange : Request → Prop
  | .instruction i => i.InRange
  | .align alignment => alignment ≠ 0

instance (r : Request) : Decidable r.InRange :=
  match r with
  | .instruction i => inferInstanceAs (Decidable i.InRange)
  | .align alignment => inferInstanceAs (Decidable (alignment ≠ 0))

/-- What is to be found behind code of a size after a request. -/
def items : Request → Nat → List Item
  | .instruction i, _ => if i.Encodable then [.instruction i] else []
  | .align alignment, size => List.replicate (-(size : Int) % alignment).toNat .breakpoint

end Request

/-- The code after requests, which go on after one that is refused. -/
def emitAll (requests : List Request) (code : Code) : Code :=
  requests.foldl (fun code r => r.after code) code

/-- What is to be found behind code after requests. -/
def requested : List Request → Code → List Item
  | [], _ => []
  | r :: rs, code => r.items code.size ++ requested rs (r.after code)

/-- Bytes fall apart into items, whatever follows. -/
def Splits (bytes : List UInt8) (items : List Item) : Prop :=
  ∀ rest, decodeAll? (bytes ++ rest) = (decodeAll? rest).map (items ++ ·)

theorem Splits.nil : Splits [] [] := by
  intro rest
  simp

theorem Splits.append {bytes' : List UInt8} {items items' : List Item} (h : Splits bytes items)
    (h' : Splits bytes' items') : Splits (bytes ++ bytes') (items ++ items') := by
  intro rest
  rw [List.append_assoc, h, h', Option.map_map]
  simp [Function.comp_def]

theorem Splits.of_decode? {item : Item}
    (h : ∀ rest, decode? (bytes ++ rest) = some (item, rest)) : Splits bytes [item] := by
  intro rest
  have hne : bytes ≠ [] := by
    rintro rfl
    exact Option.some_ne_none _ (h []).symm
  have hpos : 0 < bytes.length := List.length_pos_iff.2 hne
  rw [decodeAll?, if_neg (by simp [hne]), h]
  dsimp only
  rw [if_pos (by rw [List.length_append]; omega)]
  rfl

theorem Splits.breakpoints (count : Nat) :
    Splits (List.replicate count 0xCC) (List.replicate count .breakpoint) := by
  induction count with
  | zero => exact .nil
  | succ count ih =>
    have hone : Splits [0xCC] [.breakpoint] := .of_decode? fun rest => rfl
    exact hone.append ih

theorem padding_eq {alignment : Nat} (h : alignment ≠ 0) (size : Nat) :
    padding size alignment = List.replicate (-(size : Int) % alignment).toNat 0xCC := by
  have hlt : size % alignment < alignment := Nat.mod_lt _ (Nat.pos_of_ne_zero h)
  have hdiv : (size : Int) = alignment * (size / alignment : Nat) + (size % alignment : Nat) := by
    exact_mod_cast (Nat.div_add_mod size alignment).symm
  have hgap : ((alignment - size % alignment : Nat) : Int) =
      -(size : Int) + alignment * ((size / alignment : Nat) + 1) := by
    rw [Nat.cast_sub hlt.le, hdiv]
    ring
  have hcount : (((alignment - size % alignment) % alignment : Nat) : Int) =
      -(size : Int) % alignment := by
    rw [Int.natCast_mod, hgap, Int.add_mul_emod_self_left]
  rw [padding, ← hcount, Int.toNat_natCast]

theorem emit_instruction_of_fault {e : GenerationError} (h : i.bytes = .error e)
    (code : Code) : Emit.instruction i code = .error e code := by
  rw [Emit.instruction, h]
  rfl

/-- One request: the code grows by what was asked for, or not at all. -/
theorem Request.after_splits {r : Request} (h : r.InRange) (code : Code) :
    ∃ bytes, (r.after code).toList = code.toList ++ bytes ∧ Splits bytes (r.items code.size) := by
  cases r with
  | align alignment =>
    refine ⟨padding code.size alignment, Array.toList_appendList .., ?_⟩
    rw [padding_eq h]
    exact .breakpoints _
  | instruction i =>
    rw [Request.after, Request.emit, Request.items]
    rcases i.decided with ⟨hi, bytes, hb⟩ | ⟨e, he, hb⟩
    · refine ⟨bytes, ?_, ?_⟩
      · rw [Emit.instruction, hb]
        exact Array.toList_appendList ..
      · rw [if_pos hi]
        exact .of_decode? (decode?_bytes h hb)
    · refine ⟨[], ?_, ?_⟩
      · rw [emit_instruction_of_fault hb, List.append_nil]
      · rw [if_neg he.not_encodable]
        exact .nil

/-- A sequence of requests: the code grows by what was asked for. -/
theorem emitAll_splits {requests : List Request} (h : ∀ r ∈ requests, r.InRange) (code : Code) :
    ∃ bytes, (emitAll requests code).toList = code.toList ++ bytes ∧
      Splits bytes (requested requests code) := by
  induction requests generalizing code with
  | nil => exact ⟨[], by simp [emitAll], .nil⟩
  | cons r rs ih =>
    obtain ⟨hr, hrs⟩ := List.forall_mem_cons.1 h
    obtain ⟨bytes, hcode, hsplits⟩ := Request.after_splits hr code
    obtain ⟨bytes', hcode', hsplits'⟩ := ih hrs (r.after code)
    refine ⟨bytes ++ bytes', ?_, hsplits.append hsplits'⟩
    rw [← List.append_assoc, ← hcode, ← hcode']
    rfl

/-- Code falls apart into what was asked for and into nothing else. An instruction is refused only
if a register is of the wrong class or the stack pointer would move too far, and then the code stays
as it was. -/
theorem decodeAll?_emitAll (requests : List Request) (h : ∀ r ∈ requests, r.InRange) :
    decodeAll? (emitAll requests #[]).toList = some (requested requests #[]) ∧
      ∀ (i : Instruction) (code : Code),
        (i.Encodable ∧ ∃ bytes : List UInt8, Emit.instruction i code = .ok () (code ++ bytes)) ∨
          ∃ e, i.Fault e ∧ Emit.instruction i code = .error e code := by
  constructor
  · obtain ⟨bytes, hcode, hsplits⟩ := emitAll_splits h #[]
    have hempty : decodeAll? [] = some [] := by rw [decodeAll?, if_pos rfl]
    have hall := hsplits []
    rw [List.append_nil] at hall
    rw [hcode]
    rw [List.nil_append, hall, hempty]
    simp
  · intro i code
    rcases i.decided with ⟨hi, bytes, hb⟩ | ⟨e, he, hb⟩
    · refine .inl ⟨hi, bytes, ?_⟩
      rw [Emit.instruction, hb]
      rfl
    · exact .inr ⟨e, he, emit_instruction_of_fault hb code⟩

/-- Requests of which two are refused: a vector register in the place of a general one, and a frame
that is too large. -/
def someRefused : List Request :=
  [.instruction (.loadImmediate .rax (-5)), .instruction (.move .xmm0 .rax), .align 8,
    .instruction (.toVector .xmm1 .r9), .instruction (.reserve 0x80000000), .instruction .ret]

theorem decodeAll?_emitAll_someRefused :
    (∀ r ∈ someRefused, r.InRange) ∧
      decodeAll? (emitAll someRefused #[]).toList =
        some [.instruction (.loadImmediate .rax (-5)), .breakpoint,
          .instruction (.toVector .xmm1 .r9), .instruction .ret] :=
  ⟨by decide, (decodeAll?_emitAll someRefused (by decide)).1.trans (by decide)⟩

end Codewright.Native
