import Codewright.Proofs.Native.Arithmetic
import Codewright.Proofs.Native.Decoding

/-!
# The processor

What the instructions do. The state has the registers, a memory of bytes and the addresses that have
been written; code stands apart from it. A word in memory is its eight bytes, the lowest first, and
addresses wrap around.

A run decodes the bytes at a position, carries out what it finds there and goes on behind it, until
it comes to a return (`run`). For code whose instructions are known this comes to carrying these out
one by one (`run_of_finish`).

A frame is the memory from the stack pointer on, up to a size. Its slots are words that do not
overlap, so a word that is put into one of them leaves the others alone (`word_put_of_ne`).
-/

namespace Codewright.Native

open Bytecode (ofLittleEndian)

/-! ## States -/

def RealOp.apply (R : Reals) : RealOp → Double → Double → Double
  | .add => R.add
  | .sub => R.sub
  | .mul => R.mul
  | .div => R.div

def IntOp.apply : IntOp → UInt64 → UInt64 → UInt64
  | .add => (· + ·)
  | .sub => (· - ·)
  | .mul => (· * ·)

structure State where
  registers : Register → UInt64
  memory : UInt64 → UInt8
  /-- The addresses of the bytes that have been written so far. -/
  written : List UInt64 := []

namespace State

def set (s : State) (r : Register) (word : UInt64) : State :=
  { s with registers := Function.update s.registers r word }

/-- The addresses of the bytes of a word. -/
def span (address : UInt64) : List UInt64 := (List.range 8).map fun k => address + k.toUInt64

def read (s : State) (address : UInt64) : UInt64 :=
  .ofNat (ofLittleEndian ((span address).map s.memory))

def write (s : State) (address word : UInt64) : State :=
  { s with
    memory := fun a => (wordBytes 8 word)[(a - address).toNat]?.getD (s.memory a)
    written := s.written ++ span address }

/-- The address of a displacement from the stack pointer. -/
def address (s : State) (displacement : Int8) : UInt64 :=
  s.registers .rsp + displacement.toInt64.toUInt64

/-- Carries out an instruction other than a return. -/
def execute (R : Reals) (s : State) : Instruction → State
  | .loadImmediate dst value => s.set dst value.toUInt64
  | .move dst src | .moveReal dst src | .toVector dst src | .toGeneral dst src =>
    s.set dst (s.registers src)
  | .load dst displacement | .loadReal dst displacement =>
    s.set dst (s.read (s.address displacement))
  | .store displacement src | .storeReal displacement src =>
    s.write (s.address displacement) (s.registers src)
  | .arith op dst src => s.set dst (op.apply (s.registers dst) (s.registers src))
  | .arithReal op dst src => s.set dst (op.apply R ⟨s.registers dst⟩ ⟨s.registers src⟩).bits
  | .convert dst src => s.set dst (R.ofInt (s.registers src).toInt64).bits
  | .reserve size => s.set .rsp (s.registers .rsp - size.toUInt64)
  | .release size => s.set .rsp (s.registers .rsp + size.toUInt64)
  | .ret => s

@[simp] theorem registers_set_self (s : State) (r : Register) (word : UInt64) :
    (s.set r word).registers r = word := Function.update_self ..

theorem registers_set_of_ne (s : State) {r r' : Register} (h : r' ≠ r) (word : UInt64) :
    (s.set r word).registers r' = s.registers r' := Function.update_of_ne h ..

end State

/-! ## Runs -/

/-- The instruction at a position of code, and the position behind it. -/
def fetch? (code : List UInt8) (position : Nat) : Option (Instruction × Nat) :=
  match decode? (code.drop position) with
  | some (.instruction i, rest) => some (i, code.length - rest.length)
  | _ => none

/-- The state at the return that is reached from a position within so many instructions. -/
def run (R : Reals) (code : List UInt8) : Nat → Nat → State → Option State
  | 0, _, _ => none
  | n + 1, position, s =>
    match fetch? code position with
    | some (.ret, _) => some s
    | some (i, next) => run R code n next (s.execute R i)
    | none => none

/-- The state at the first return among instructions. -/
def finish (R : Reals) : List Instruction → State → Option State
  | [], _ => none
  | i :: rest, s => if i = .ret then some s else finish R rest (s.execute R i)

theorem fetch?_bytes {i : Instruction} (hi : i.InRange) {bytes : List UInt8}
    (h : i.bytes = .ok bytes) (before after : List UInt8) :
    fetch? (before ++ (bytes ++ after)) before.length = some (i, before.length + bytes.length) := by
  unfold fetch?
  rw [List.drop_left, decode?_bytes hi h]
  simp only [List.length_append, Option.some.injEq, Prod.mk.injEq, true_and]
  omega

/-- Encoded instructions are carried out one by one. -/
theorem run_of_finish {R : Reals} {is : List Instruction} {bytes : List UInt8}
    (h : Encoded is bytes) (hin : ∀ i ∈ is, i.InRange) {s s' : State} (hs : finish R is s = some s')
    (before after : List UInt8) :
    run R (before ++ (bytes ++ after)) is.length before.length s = some s' := by
  induction h generalizing s before with
  | nil => cases hs
  | @cons i is b bs hi his ih =>
    rw [finish] at hs
    have hfetch := fetch?_bytes (hin i List.mem_cons_self) hi before (bs ++ after)
    rw [List.length_cons, run, List.append_assoc, hfetch]
    by_cases hret : i = .ret
    · rw [if_pos hret] at hs
      subst hret
      exact hs
    · rw [if_neg hret] at hs
      have hrest := ih (fun j hj => hin j (List.mem_cons_of_mem _ hj)) hs (before ++ b)
      rw [List.length_append, List.append_assoc] at hrest
      cases i <;> first | exact hrest | exact absurd rfl hret

/-- Code leads from a state to another, whatever follows it. -/
def Leads (R : Reals) (code : List Instruction) (s s' : State) : Prop :=
  ∀ rest, finish R (code ++ rest) s = finish R rest s'

section

variable {R : Reals} {code code' : List Instruction} {s s₁ s' : State}

theorem Leads.nil (s : State) : Leads R [] s s := fun _ => rfl

theorem Leads.instruction {i : Instruction} (hi : i ≠ .ret) (h : s.execute R i = s') :
    Leads R [i] s s' := by
  intro rest
  rw [← h]
  exact if_neg hi

theorem Leads.append (h : Leads R code s s₁) (h' : Leads R code' s₁ s') :
    Leads R (code ++ code') s s' := by
  intro rest
  rw [List.append_assoc, h, h']

end

/-! ## Words in memory -/

namespace State

variable (s : State)

theorem mem_span {address a : UInt64} : a ∈ span address ↔ (a - address).toNat < 8 := by
  unfold span
  simp only [List.mem_map, List.mem_range]
  constructor
  · rintro ⟨k, hk, rfl⟩
    rw [UInt64.add_comm, UInt64.add_sub_cancel]
    simp only [Nat.toUInt64_eq, UInt64.toNat_ofNat']
    omega
  · intro h
    refine ⟨(a - address).toNat, h, ?_⟩
    rw [Nat.toUInt64_eq, UInt64.ofNat_toNat, UInt64.add_comm, UInt64.sub_add_cancel]

theorem read_write_self (address word : UInt64) : (s.write address word).read address = word := by
  have hbytes : (span address).map (s.write address word).memory = wordBytes 8 word := by
    refine List.ext_getElem (by simp [span, length_wordBytes]) fun k hk _ => ?_
    have hk : k < 8 := by simpa [span] using hk
    have hoffset : (address + k.toUInt64 - address).toNat = k := by
      rw [UInt64.add_comm, UInt64.add_sub_cancel]
      simp only [Nat.toUInt64_eq, UInt64.toNat_ofNat']
      omega
    simp only [span, List.map_map, List.getElem_map, List.getElem_range, Function.comp_apply, write,
      hoffset]
    rw [List.getElem?_eq_getElem (by rw [length_wordBytes]; exact hk)]
    rfl
  rw [read, hbytes, ofLittleEndian_wordBytes]
  have hlt := word.toNat_lt
  rw [Nat.mod_eq_of_lt (by norm_num; omega), UInt64.ofNat_toNat]

theorem read_write_of_apart {address other : UInt64} (word : UInt64)
    (h : ∀ a ∈ span other, a ∉ span address) :
    (s.write address word).read other = s.read other := by
  have hbytes : (span other).map (s.write address word).memory = (span other).map s.memory := by
    refine List.map_congr_left fun a ha => ?_
    have hout : ¬ (a - address).toNat < 8 := fun hlt => h a ha (mem_span.mpr hlt)
    simp only [write]
    rw [List.getElem?_eq_none (by rw [length_wordBytes]; omega)]
    rfl
  rw [read, hbytes, read]

/-! ## Locations -/

def word (s : State) : Location → UInt64
  | .register r => s.registers r
  | .stack displacement => s.read (s.address displacement)

def put (s : State) (l : Location) (w : UInt64) : State :=
  match l with
  | .register r => s.set r w
  | .stack displacement => s.write (s.address displacement) w

end State

/-- A register other than the stack pointer, or a slot of a frame. -/
inductive Within (size : Nat) : Location → Prop
  | register {r : Register} (h : r ≠ .rsp) : Within size (.register r)
  | slot {k : Nat} (h : k * slotSize + slotSize ≤ size) :
    Within size (.stack (Int8.ofNat (k * slotSize)))

/-- The stack pointer is where it was, and what has been written since lies in the frame above
it. -/
structure Stays (size : Nat) (s s' : State) : Prop where
  rsp : s'.registers .rsp = s.registers .rsp
  written : ∀ a ∈ s'.written, a ∈ s.written ∨ (a - s.registers .rsp).toNat < size

section

variable {size : Nat} {s s₁ s' : State} {l l' : Location}

theorem Stays.refl (size : Nat) (s : State) : Stays size s s := ⟨rfl, fun _ h => .inl h⟩

theorem Stays.trans (h : Stays size s s₁) (h' : Stays size s₁ s') : Stays size s s' where
  rsp := h'.rsp.trans h.rsp
  written := by
    intro a ha
    rcases h'.written a ha with ha | ha
    · exact h.written a ha
    · rw [h.rsp] at ha
      exact .inr ha

theorem address_slot {k : Nat} (h : k * slotSize < 0x80) (s : State) :
    s.address (Int8.ofNat (k * slotSize)) = s.registers .rsp + (k * slotSize).toUInt64 := by
  have hslots : ∀ k : Fin 16,
      (Int8.ofNat (k.val * slotSize)).toInt64.toUInt64 = (k.val * slotSize).toUInt64 := by decide
  have hk : k < 16 := by
    rw [slotSize] at h
    omega
  rw [State.address, hslots ⟨k, hk⟩]

theorem toNat_slot {base a : UInt64} {k : Nat} (hk : k * slotSize < 0x80)
    (h : a ∈ State.span (base + (k * slotSize).toUInt64)) :
    ∃ j < slotSize, (a - base).toNat = k * slotSize + j := by
  rw [State.mem_span] at h
  refine ⟨(a - (base + (k * slotSize).toUInt64)).toNat, h, ?_⟩
  generalize hd : a - (base + (k * slotSize).toUInt64) = d at h
  have ha : a - base = (k * slotSize).toUInt64 + d := by
    grind
  rw [ha, UInt64.toNat_add]
  simp only [Nat.toUInt64_eq, UInt64.toNat_ofNat']
  omega

theorem apart_slots {base : UInt64} {j k : Nat} (hj : j * slotSize < 0x80)
    (hk : k * slotSize < 0x80) (hjk : j ≠ k) : ∀ a ∈ State.span (base + (j * slotSize).toUInt64),
      a ∉ State.span (base + (k * slotSize).toUInt64) := by
  intro a ha ha'
  obtain ⟨i, hi, heq⟩ := toNat_slot hj ha
  obtain ⟨i', hi', heq'⟩ := toNat_slot hk ha'
  rw [slotSize] at *
  omega

theorem Stays.put (hsize : size ≤ 0x80) (h : Within size l) (w : UInt64) :
    Stays size s (s.put l w) := by
  cases h with
  | @register r hr => exact ⟨s.registers_set_of_ne hr.symm w, fun _ h => .inl h⟩
  | @slot k hk =>
    have hlt : k * slotSize < 0x80 := by
      rw [slotSize] at *
      omega
    refine ⟨rfl, fun a ha => ?_⟩
    rw [State.put, address_slot hlt] at ha
    rcases List.mem_append.mp ha with ha | ha
    · exact .inl ha
    · obtain ⟨j, hj, heq⟩ := toNat_slot hlt ha
      exact .inr (by omega)

theorem word_put_self (s : State) (l : Location) (w : UInt64) : (s.put l w).word l = w := by
  cases l with
  | register r => exact s.registers_set_self r w
  | stack d => exact s.read_write_self _ w

theorem word_put_of_ne (hsize : size ≤ 0x80) (h : Within size l) (h' : Within size l')
    (hne : l' ≠ l) (s : State) (w : UInt64) : (s.put l w).word l' = s.word l' := by
  cases h with
  | @register r hr =>
    cases h' with
    | @register r' hr' => exact s.registers_set_of_ne (fun heq => hne (congrArg _ heq)) w
    | @slot k hk =>
      show (s.set r w).read ((s.set r w).address _) = s.read (s.address _)
      rw [State.address, s.registers_set_of_ne hr.symm]
      rfl
  | @slot k hk =>
    cases h' with
    | register hr' => rfl
    | @slot j hj =>
      have hkj : j ≠ k := fun heq => hne (by rw [heq])
      have hlt : k * slotSize < 0x80 := by
        rw [slotSize] at *
        omega
      have hlt' : j * slotSize < 0x80 := by
        rw [slotSize] at *
        omega
      show (s.write (s.address _) w).read (s.address _) = s.read (s.address _)
      rw [address_slot hlt, address_slot hlt']
      exact s.read_write_of_apart w (apart_slots hlt' hlt hkj)

end

end Codewright.Native
