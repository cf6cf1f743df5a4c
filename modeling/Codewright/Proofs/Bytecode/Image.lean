import Codewright.Bytecode.Image
import Codewright.Proofs.Steps

/-!
# Reading an image back

An image holds all of a program but its names. Writing and reading are inverse to each other on the
rest, in both directions:

* bytes that were written are read as what was written, and whatever follows them is left alone
  (`Reads`, one lemma for each part of the format);
* what has been read can be written again, in as many bytes as were read (`Spends`, one lemma for
  each part).

A written image need not be the image that was read: reading looks neither at the bytes of a name
behind a zero nor at the padding, and takes every payload but zero for the same truth value.
-/

namespace Codewright

/-- The number of a type is read back, except for a missing one. -/
theorem Ty.ofCode?_code {ty : Ty} (h : ty ≠ .noType) : Ty.ofCode? ty.code = some ty := by
  cases ty with
  | noType => exact absurd rfl h
  | _ => decide

theorem Ty.ofCode?_ne_noType {n : UInt16} {ty : Ty} (h : Ty.ofCode? n = some ty) :
    ty ≠ .noType := by
  unfold Ty.ofCode? at h
  split_ifs at h <;> cases h <;> decide

namespace Bytecode

/-! ## Numbers -/

@[simp] theorem length_littleEndian (width n : Nat) : (littleEndian width n).length = width := by
  induction width generalizing n with
  | zero => rfl
  | succ width ih => simp [littleEndian, ih]

theorem ofLittleEndian_littleEndian (width n : Nat) (h : n < 256 ^ width) :
    ofLittleEndian (littleEndian width n) = n := by
  induction width generalizing n with
  | zero => simp [littleEndian, ofLittleEndian] at h ⊢; omega
  | succ width ih =>
    have hrest : n / 256 < 256 ^ width := by
      rw [pow_succ] at h
      exact Nat.div_lt_of_lt_mul (by omega)
    have hlow : (n % 256).toUInt8.toNat = n % 256 := by simp
    rw [littleEndian, ofLittleEndian, ih _ hrest, hlow]
    omega

theorem ofLittleEndian_lt (bytes : List UInt8) : ofLittleEndian bytes < 256 ^ bytes.length := by
  induction bytes with
  | nil => simp [ofLittleEndian]
  | cons b rest ih =>
    have hb : b.toNat < 256 := b.toNat_lt
    rw [ofLittleEndian, List.length_cons, pow_succ]
    omega

variable {bytes : List UInt8} {p : Program}

theorem countBytes_eq_ok {width : Nat} {count : Count} {value : Nat} :
    countBytes width count value = .ok bytes ↔
      value < 256 ^ width ∧ bytes = littleEndian width value := by
  unfold countBytes
  by_cases h : value < Nat.pow 256 width
  · rw [if_pos h]
    simp only [Except.ok.injEq, eq_comm]
    exact ⟨fun e => ⟨h, e⟩, And.right⟩
  · rw [if_neg h]
    exact ⟨nofun, fun e => absurd e.1 h⟩

theorem Instruction.length_bytes (i : Instruction) : i.bytes.length = 4 := by
  simp [Instruction.bytes]

theorem Constant.length_bytes (c : Constant) : c.bytes.length = 16 := by
  simp only [Constant.bytes, List.length_append, length_littleEndian, List.length_replicate,
    List.length_take, nameWidth]
  omega

theorem Function.bytes_eq_ok {f : Function} :
    f.bytes = .ok bytes ↔
      f.paramCount < 256 ^ 2 ∧ f.slots.size < 256 ^ 2 ∧ f.code.size < 256 ^ 4 ∧
        bytes = littleEndian 2 f.result.code.toNat ++ littleEndian 2 f.paramCount
          ++ littleEndian 2 f.slots.size
          ++ f.slots.toList.flatMap (fun s => littleEndian 2 s.ty.code.toNat)
          ++ List.replicate (f.slots.size % 2 * 2) 0 ++ littleEndian 4 f.code.size
          ++ f.code.toList.flatMap Instruction.bytes := by
  simp only [Function.bytes, Steps.except_bind_eq_ok, countBytes_eq_ok]
  constructor
  · rintro ⟨_, ⟨hp, rfl⟩, _, ⟨hs, rfl⟩, _, ⟨hc, rfl⟩, h⟩
    exact ⟨hp, hs, hc, (Except.ok.inj h).symm⟩
  · rintro ⟨hp, hs, hc, rfl⟩
    exact ⟨_, ⟨hp, rfl⟩, _, ⟨hs, rfl⟩, _, ⟨hc, rfl⟩, rfl⟩

/-- The number of bytes of a function in an image. -/
def Function.width (f : Function) : Nat :=
  10 + 2 * f.slots.size + f.slots.size % 2 * 2 + 4 * f.code.size

theorem length_flatMap_const {α : Type} {as : List α} {f : α → List UInt8} {width : Nat}
    (h : ∀ a ∈ as, (f a).length = width) : (as.flatMap f).length = width * as.length := by
  rw [List.length_flatMap, List.map_congr_left h, List.map_const', List.sum_replicate,
    smul_eq_mul, Nat.mul_comm]

theorem Function.length_bytes {f : Function} (h : f.bytes = .ok bytes) :
    bytes.length = f.width := by
  obtain ⟨-, -, -, rfl⟩ := Function.bytes_eq_ok.1 h
  simp only [List.length_append, length_littleEndian, List.length_replicate,
    length_flatMap_const fun (s : Slot) _ => length_littleEndian 2 s.ty.code.toNat,
    length_flatMap_const fun (i : Instruction) _ => i.length_bytes, Array.length_toList, width]
  omega

theorem exists_forall₂ {α β : Type} {R : α → β → Prop} {as : List α} (h : ∀ a ∈ as, ∃ b, R a b) :
    ∃ bs, List.Forall₂ R as bs := by
  induction as with
  | nil => exact ⟨[], .nil⟩
  | cons a as ih =>
    obtain ⟨b, hb⟩ := h a List.mem_cons_self
    obtain ⟨bs, hbs⟩ := ih fun a ha => h a (List.mem_cons_of_mem _ ha)
    exact ⟨b :: bs, .cons hb hbs⟩

/-- A program is written exactly when its counts and those of its functions fit. -/
theorem Program.bytes_eq_ok :
    p.bytes = .ok bytes ↔
      p.constants.size < 256 ^ 4 ∧ p.functions.size < 256 ^ 4 ∧
        ∃ bodies, List.Forall₂ (fun (f : Function) body => f.bytes = .ok body)
            p.functions.toList bodies ∧
          bytes = magic ++ littleEndian 4 version ++ littleEndian 4 p.main.toNat
            ++ littleEndian 4 p.constants.size ++ p.constants.toList.flatMap Constant.bytes
            ++ littleEndian 4 p.functions.size ++ bodies.flatten := by
  simp only [Program.bytes, Steps.except_bind_eq_ok, countBytes_eq_ok, Steps.mapM_eq_ok]
  constructor
  · rintro ⟨_, ⟨hc, rfl⟩, _, ⟨hf, rfl⟩, bodies, hb, h⟩
    exact ⟨hc, hf, bodies, hb, (Except.ok.inj h).symm⟩
  · rintro ⟨hc, hf, bodies, hb, rfl⟩
    exact ⟨_, ⟨hc, rfl⟩, _, ⟨hf, rfl⟩, bodies, hb, rfl⟩

def Program.width (p : Program) : Nat :=
  20 + 16 * p.constants.size + (p.functions.toList.map Function.width).sum

theorem length_bodies {fs : List Function} {bodies : List (List UInt8)}
    (h : List.Forall₂ (fun f body => f.bytes = .ok body) fs bodies) :
    bodies.flatten.length = (fs.map Function.width).sum := by
  induction h with
  | nil => rfl
  | cons hf _ ih =>
    rw [List.flatten_cons, List.length_append, Function.length_bytes hf, ih, List.map_cons,
      List.sum_cons]

theorem Program.length_bytes (h : p.bytes = .ok bytes) : bytes.length = p.width := by
  obtain ⟨-, -, bodies, hbodies, rfl⟩ := Program.bytes_eq_ok.1 h
  simp only [List.length_append, length_littleEndian, length_bodies hbodies, Array.length_toList,
    length_flatMap_const fun (c : Constant) _ => c.length_bytes, Program.width]
  show 4 + 4 + 4 + 4 + _ + 4 + _ = _
  omega

/-! ## What is left of the names -/

/-- The bytes of a name that an image keeps, without the padding. -/
def Constant.keptName (c : Constant) : List UInt8 := c.name.toByteArray.toList.take nameWidth

/-- A constant as it comes out of an image. -/
def Constant.asRead (c : Constant) : Constant :=
  { c with name := Text.Utf8.decodeLenient (c.keptName.takeWhile (· != 0)) }

/-- A slot as it comes out of an image, with its place in its function. -/
def Slot.asRead (n : Nat) (s : Slot) : Slot := { s with name := "$" ++ toString n }

/-- A function as it comes out of an image, with its place in the program. -/
def Function.asRead (n : Nat) (f : Function) : Function :=
  { f with name := "function" ++ toString n, slots := f.slots.mapIdx Slot.asRead }

/-- A program as it comes out of an image. -/
def Program.asRead (p : Program) : Program :=
  { p with
    constants := p.constants.map Constant.asRead
    functions := p.functions.mapIdx Function.asRead }

/-- No type is missing, and the parameters are slots. -/
structure Function.Complete (f : Function) : Prop where
  result : f.result ≠ .noType
  slots : ∀ s ∈ f.slots, s.ty ≠ .noType
  params : f.paramCount ≤ f.slots.size

/-- Every function of the program is complete. -/
def Program.Complete (p : Program) : Prop := ∀ f ∈ p.functions, f.Complete

/-! ## What a step reads -/

namespace Reader

variable {α β : Type}

theorem bind_apply (p : Reader α) (f : α → Reader β) (s : List UInt8) :
    (p >>= f) s = (p s).bind fun r => f r.1 r.2 := by
  show StateT.bind p f s = _
  unfold StateT.bind
  cases p s <;> rfl

/-- The step takes these bytes from the front, whatever follows, and gives `a` for them. -/
def Reads (p : Reader α) (bytes : List UInt8) (a : α) : Prop :=
  ∀ rest, p (bytes ++ rest) = .ok (a, rest)

theorem reads_pure (a : α) : Reads (pure a) [] a := fun _ => rfl

variable {p : Reader α} {s bytes t : List UInt8} {a : α} {b : β} {entry : Nat → Reader β}
  {make : Nat → α → β} {as : Array α}

theorem Reads.bind {f : α → Reader β} {bs cs : List UInt8}
    (hp : Reads p bs a) (hf : Reads (f a) cs b) : Reads (p >>= f) (bs ++ cs) b := by
  intro rest
  rw [bind_apply, List.append_assoc, hp]
  exact hf rest

/-- What is read last may be put to use in a result. -/
theorem Reads.result {bs : List UInt8} (hp : Reads p bs a) (f : α → β) :
    Reads (p >>= fun a => pure (f a)) bs (f a) := by
  intro rest
  rw [bind_apply, hp]
  rfl

theorem reads_take {width : Nat} (h : bytes.length = width) : Reads (take width) bytes bytes := by
  subst h
  intro rest
  simp [take]

theorem reads_number {width n : Nat} (h : n < 256 ^ width) :
    Reads (number width) (littleEndian width n) n := by
  have hn := (reads_take (length_littleEndian width n)).result ofLittleEndian
  rwa [ofLittleEndian_littleEndian width n h] at hn

theorem reads_type {ty : Ty} (h : ty ≠ .noType) : Reads type (littleEndian 2 ty.code.toNat) ty := by
  have hn : Reads (number 2) (littleEndian 2 ty.code.toNat) ty.code.toNat :=
    reads_number ty.code.toNat_lt
  rw [← List.append_nil (littleEndian _ _), type]
  refine hn.bind ?_
  rw [Nat.toUInt16_eq, UInt16.ofNat_toNat, Ty.ofCode?_code h]
  exact reads_pure ty

/-- A table is read entry by entry, each knowing how many stand before it. -/
theorem reads_table {as : List α} {bss : List (List UInt8)}
    (h : List.Forall₂ (fun a bs => ∀ n, Reads (entry n) bs (make n a)) as bss) (done : Array β) :
    Reads (table entry done as.length) bss.flatten
      (done ++ as.mapIdx fun i a => make (done.size + i) a) := by
  induction h generalizing done with
  | nil => simpa [table] using reads_pure done
  | @cons a bs as bss ha _ ih =>
    have hrest := ih (done.push (make done.size a))
    have hall : done ++ (a :: as).mapIdx (fun i a => make (done.size + i) a)
        = done.push (make done.size a)
          ++ as.mapIdx (fun i b => make ((done.push (make done.size a)).size + i) b) := by
      apply Array.toList_inj.1
      simp [List.mapIdx_cons, Nat.add_assoc, Nat.add_comm 1]
    rw [hall, List.flatten_cons, List.length_cons, table]
    exact (ha done.size).bind hrest

theorem takeWhile_padded (name : List UInt8) (count : Nat) :
    (name ++ List.replicate count 0).takeWhile (· != 0) = name.takeWhile (· != 0) := by
  induction name with
  | nil => cases count <;> simp [List.replicate_succ]
  | cons b rest ih => by_cases h : b = 0 <;> simp [h, ih]

theorem reads_constant (c : Constant) (n : Nat) : Reads (constant n) c.bytes c.asRead := by
  have hty : c.value.ty ≠ .noType := by cases c.value <;> simp [Value.ty]
  have hname : (c.keptName ++ List.replicate (nameWidth - c.keptName.length) 0).length
      = nameWidth := by
    have : c.keptName.length ≤ nameWidth := List.length_take_le _ _
    rw [List.length_append, List.length_replicate]
    omega
  have hbits : Reads (number 8) (littleEndian 8 c.value.toBits.toNat) c.value.toBits.toNat :=
    reads_number c.value.toBits.toNat_lt
  have hbytes : c.bytes = littleEndian 2 c.value.ty.code.toNat
      ++ ((c.keptName ++ List.replicate (nameWidth - c.keptName.length) 0)
        ++ (littleEndian 8 c.value.toBits.toNat ++ [])) := by
    simp [Constant.bytes, Constant.keptName]
  rw [hbytes, constant]
  refine (reads_type hty).bind ((reads_take hname).bind (hbits.bind ?_))
  rw [Nat.toUInt64_eq, UInt64.ofNat_toNat, Value.ofBits?_toBits, takeWhile_padded]
  exact reads_pure _

theorem reads_slot {s : Slot} (h : s.ty ≠ .noType) (n : Nat) :
    Reads (slot n) (littleEndian 2 s.ty.code.toNat) (s.asRead n) :=
  (reads_type h).result _

theorem reads_instruction (i : Instruction) (n : Nat) : Reads (instruction n) i.bytes i := by
  have hcode : Reads (number 2) (littleEndian 2 i.opcode.code.toNat) i.opcode.code.toNat :=
    reads_number i.opcode.code.toNat_lt
  have hoperand : Reads (number 2) (littleEndian 2 i.operand.toUInt16.toNat)
      i.operand.toUInt16.toNat := reads_number i.operand.toUInt16.toNat_lt
  rw [instruction, Instruction.bytes]
  refine hcode.bind ?_
  rw [Nat.toUInt16_eq, UInt16.ofNat_toNat, Opcode.ofCode?_code]
  have h := hoperand.result fun operand => Instruction.mk i.opcode operand.toUInt16.toInt16
  simpa using h

/-- A whole table, its entries written one after the other. -/
theorem reads_whole_table
    {bss : List (List UInt8)}
    (h : List.Forall₂ (fun a bs => ∀ n, Reads (entry n) bs (make n a)) as.toList bss) :
    Reads (table entry #[] as.size) bss.flatten (as.mapIdx make) := by
  simpa [← Array.toList_mapIdx] using reads_table h #[]

/-- A whole table whose entries are all written by the same rule. -/
theorem reads_entries {bytes : α → List UInt8} (h : ∀ a ∈ as, ∀ n, Reads (entry n) (bytes a)
    (make n a)) : Reads (table entry #[] as.size) (as.toList.flatMap bytes) (as.mapIdx make) := by
  rw [List.flatMap_def]
  apply reads_whole_table
  rw [List.forall₂_map_right_iff, List.forall₂_same]
  exact fun a ha => h a (Array.mem_toList_iff.1 ha)

theorem reads_function {f : Function} (hf : f.Complete)
    (h : f.bytes = .ok bytes) (n : Nat) : Reads (function n) bytes (f.asRead n) := by
  obtain ⟨hparams, hslots, hcode, rfl⟩ := Function.bytes_eq_ok.1 h
  have hs := reads_entries fun s hs => reads_slot (hf.slots s hs)
  have hc : Reads (table instruction #[] f.code.size) (f.code.toList.flatMap Instruction.bytes)
      f.code := by
    have hc := reads_entries fun i (_ : i ∈ f.code) => reads_instruction i
    rwa [show f.code.mapIdx (fun _ i => i) = f.code by ext <;> simp] at hc
  have hpad : Reads (take (f.slots.size % 2 * 2)) (List.replicate (f.slots.size % 2 * 2) 0) _ :=
    reads_take List.length_replicate
  simp only [List.append_assoc]
  rw [function]
  refine (reads_type hf.result).bind ((reads_number hparams).bind ((reads_number hslots).bind ?_))
  rw [if_neg (Nat.not_lt.2 hf.params)]
  exact hs.bind (hpad.bind ((reads_number hcode).bind (hc.result _)))

theorem reads_program {p : Program} (hp : p.Complete)
    (h : p.bytes = .ok bytes) : Reads program bytes p.asRead := by
  obtain ⟨hconstants, hfunctions, bodies, hbodies, rfl⟩ := Program.bytes_eq_ok.1 h
  have hc : Reads (table constant #[] p.constants.size) (p.constants.toList.flatMap Constant.bytes)
      (p.constants.map Constant.asRead) := by
    have hc := reads_entries fun c (_ : c ∈ p.constants) => reads_constant c
    rwa [show p.constants.mapIdx (fun _ c => c.asRead) = p.constants.map Constant.asRead by
      ext <;> simp] at hc
  have hf : Reads (table function #[] p.functions.size) bodies.flatten
      (p.functions.mapIdx Function.asRead) := by
    apply reads_whole_table
    have hall :=
      (List.forall₂_and_left _ _).2 ⟨fun f hf => hp f (Array.mem_toList_iff.1 hf), hbodies⟩
    exact hall.imp fun f bytes h => reads_function h.1 h.2
  simp only [List.append_assoc]
  rw [program]
  refine (reads_take rfl).bind ?_
  rw [if_neg (by simp)]
  refine (reads_number (by decide)).bind ?_
  rw [if_neg (by simp)]
  refine (reads_number p.main.toNat_lt).bind ((reads_number hconstants).bind ?_)
  refine hc.bind ((reads_number hfunctions).bind ?_)
  rw [show p.asRead = _ by rw [Program.asRead, ← UInt32.ofNat_toNat (x := p.main)]]
  exact hf.result _

/-! ## What has been read can be written -/

theorem bind_eq_ok {f : α → Reader β} :
    (p >>= f) s = .ok (b, t) ↔ ∃ a r, p s = .ok (a, r) ∧ f a r = .ok (b, t) := by
  rw [bind_apply]
  cases p s with
  | error e => simp [Except.bind]
  | ok r => obtain ⟨a, r⟩ := r; simp [Except.bind]

theorem pure_eq_ok {b : α} : (pure a : Reader α) s = .ok (b, t) ↔ a = b ∧ s = t := by
  show Except.ok (a, s) = _ ↔ _
  simp

theorem throw_ne_ok {e : ReadError} {b : α} : ¬ (throw e : Reader α) s = .ok (b, t) :=
  nofun

theorem guard_eq_ok {c : Prop} [Decidable c] {e : ReadError} {k : α → Reader β} {g : Reader β} :
    (if c then throw e >>= k else g) s = .ok (b, t) ↔ ¬ c ∧ g s = .ok (b, t) := by
  split
  · next h => simp [bind_eq_ok, throw_ne_ok, h]
  · next h => simp [h]

/-- Whatever the step gives is good, and takes as many bytes as `size` says. -/
def Spends (p : Reader α) (size : α → Nat) (Good : α → Prop) : Prop :=
  ∀ {s a t}, p s = .ok (a, t) → s.length = size a + t.length ∧ Good a

theorem spends_take (width : Nat) :
    Spends (take width) (fun _ => width) (fun bytes => bytes.length = width) := by
  intro s bytes t h
  simp only [take, List.length_take] at h
  split at h
  · exact absurd h nofun
  · next hlong =>
    obtain ⟨rfl, rfl⟩ := Prod.mk.inj (Except.ok.inj h)
    simp only [List.length_take, List.length_drop]
    omega

theorem spends_number (width : Nat) :
    Spends (number width) (fun _ => width) (fun n => n < 256 ^ width) := by
  intro s n t h
  obtain ⟨bytes, r, hb, hn⟩ := bind_eq_ok.1 h
  obtain ⟨rfl, rfl⟩ := pure_eq_ok.1 hn
  obtain ⟨hlen, hwidth⟩ := spends_take width hb
  exact ⟨hlen, hwidth ▸ ofLittleEndian_lt bytes⟩

theorem spends_type : Spends type (fun _ => 2) (fun ty => ty ≠ .noType) := by
  intro s ty t h
  obtain ⟨code, r, hc, hty⟩ := bind_eq_ok.1 h
  cases found : Ty.ofCode? code.toUInt16 with
  | none => rw [found] at hty; exact absurd hty throw_ne_ok
  | some ty' =>
    rw [found] at hty
    obtain ⟨rfl, rfl⟩ := pure_eq_ok.1 hty
    exact ⟨(spends_number 2 hc).1, Ty.ofCode?_ne_noType found⟩

/-- A table takes what its new entries take, and they are good at their places. -/
theorem table_eq_ok {entry : Nat → Reader α} {size : α → Nat} {Good : Nat → α → Prop}
    (h : ∀ n, Spends (entry n) size (Good n)) {count : Nat} {done : Array α}
    (ht : table entry done count s = .ok (as, t)) :
    ∃ new : List α, as = done ++ new ∧ new.length = count ∧
      s.length = (new.map size).sum + t.length ∧
      ∀ i a, new[i]? = some a → Good (done.size + i) a := by
  induction count generalizing done s with
  | zero =>
    obtain ⟨rfl, rfl⟩ := pure_eq_ok.1 ht
    exact ⟨[], by simp, rfl, by simp, by simp⟩
  | succ count ih =>
    obtain ⟨a, r, ha, hr⟩ := bind_eq_ok.1 ht
    obtain ⟨hlen, hgood⟩ := h done.size ha
    obtain ⟨new, rfl, hcount, hsum, hnew⟩ := ih hr
    refine ⟨a :: new, by simp, by simp [hcount], ?_, fun i b hb => ?_⟩
    · rw [List.map_cons, List.sum_cons, hlen, hsum]
      omega
    · cases i with
      | zero =>
        obtain rfl := Option.some.inj hb
        exact hgood
      | succ i =>
        have := hnew i b hb
        rwa [Array.size_push, Nat.add_right_comm] at this

theorem spends_table {entry : Nat → Reader α} {size : α → Nat} {Good : Nat → α → Prop}
    (h : ∀ n, Spends (entry n) size (Good n)) (count : Nat) :
    Spends (table entry #[] count) (fun as => (as.toList.map size).sum)
      (fun as => as.size = count ∧ ∀ i a, as[i]? = some a → Good i a) := by
  intro s as t ht
  obtain ⟨new, rfl, hcount, hsum, hnew⟩ := table_eq_ok h ht
  exact ⟨by simpa using hsum, by simpa using hcount, by simpa using hnew⟩

theorem spends_constant (n : Nat) : Spends (constant n) (fun _ => 16) (fun _ => True) := by
  intro s c t h
  obtain ⟨ty, r₁, hty, h⟩ := bind_eq_ok.1 h
  obtain ⟨name, r₂, hname, h⟩ := bind_eq_ok.1 h
  obtain ⟨bits, r₃, hbits, h⟩ := bind_eq_ok.1 h
  have h₁ : s.length = 2 + r₁.length := (spends_type hty).1
  have h₂ : r₁.length = 6 + r₂.length := (spends_take _ hname).1
  have h₃ : r₂.length = 8 + r₃.length := (spends_number 8 hbits).1
  cases hv : Value.ofBits? bits.toUInt64 ty with
  | none => rw [hv] at h; exact absurd h throw_ne_ok
  | some v =>
    rw [hv] at h
    obtain ⟨rfl, rfl⟩ := pure_eq_ok.1 h
    refine ⟨?_, trivial⟩
    show s.length = 16 + _
    omega

theorem spends_slot (n : Nat) :
    Spends (slot n) (fun _ => 2) (fun s => s.ty ≠ .noType ∧ s.asRead n = s) := by
  intro s a t h
  obtain ⟨ty, r, hty, h⟩ := bind_eq_ok.1 h
  obtain ⟨rfl, rfl⟩ := pure_eq_ok.1 h
  exact ⟨(spends_type hty).1, (spends_type hty).2, rfl⟩

theorem spends_instruction (n : Nat) : Spends (instruction n) (fun _ => 4) (fun _ => True) := by
  intro s i t h
  obtain ⟨code, r, hcode, h⟩ := bind_eq_ok.1 h
  cases hop : Opcode.ofCode? code.toUInt16 with
  | none => rw [hop] at h; exact absurd h throw_ne_ok
  | some opcode =>
    rw [hop] at h
    obtain ⟨operand, r', hoperand, h⟩ := bind_eq_ok.1 h
    obtain ⟨rfl, rfl⟩ := pure_eq_ok.1 h
    have h₁ : s.length = 2 + r.length := (spends_number 2 hcode).1
    have h₂ : r.length = 2 + r'.length := (spends_number 2 hoperand).1
    refine ⟨?_, trivial⟩
    show s.length = 4 + _
    omega

/-- What has been read as a function at place `n` is complete, has its place for a name, and fits
the format. -/
theorem spends_function (n : Nat) :
    Spends (function n) Function.width
      (fun f => f.Complete ∧ f.asRead n = f ∧ ∃ bytes, f.bytes = .ok bytes) := by
  intro s f t h
  obtain ⟨result, r₁, hresult, h⟩ := bind_eq_ok.1 h
  obtain ⟨paramCount, r₂, hparams, h⟩ := bind_eq_ok.1 h
  obtain ⟨slotCount, r₃, hslotCount, h⟩ := bind_eq_ok.1 h
  obtain ⟨hle, h⟩ := guard_eq_ok.1 h
  obtain ⟨slots, r₄, hslots, h⟩ := bind_eq_ok.1 h
  obtain ⟨pad, r₅, hpad, h⟩ := bind_eq_ok.1 h
  obtain ⟨count, r₆, hcount, h⟩ := bind_eq_ok.1 h
  obtain ⟨code, r₇, hcode, h⟩ := bind_eq_ok.1 h
  obtain ⟨rfl, rfl⟩ := pure_eq_ok.1 h
  obtain ⟨hlen₁, hknown⟩ := spends_type hresult
  obtain ⟨hlen₂, hparamsFit⟩ := spends_number 2 hparams
  obtain ⟨hlen₃, hslotsFit⟩ := spends_number 2 hslotCount
  obtain ⟨hlen₄, rfl, hslot⟩ := spends_table spends_slot _ hslots
  obtain ⟨hlen₅, -⟩ := spends_take _ hpad
  obtain ⟨hlen₆, hcodeFits⟩ := spends_number 4 hcount
  obtain ⟨hlen₇, rfl, -⟩ := spends_table spends_instruction _ hcode
  have hfits : ∃ bytes, Function.bytes
      { name := "function" ++ toString n, result, paramCount, slots, code } = .ok bytes :=
    ⟨_, Function.bytes_eq_ok.2 ⟨hparamsFit, hslotsFit, hcodeFits, rfl⟩⟩
  refine ⟨?_, ⟨hknown, ?_, Nat.not_lt.1 hle⟩, ?_, hfits⟩
  · simp only [List.map_const', List.sum_replicate, smul_eq_mul, Array.length_toList] at *
    simp only [Function.width]
    omega
  · intro slot hslot'
    obtain ⟨i, hi⟩ := Array.getElem?_of_mem hslot'
    exact (hslot i slot hi).1
  · have hsame : slots.mapIdx Slot.asRead = slots := by
      ext i hi₁ hi₂ : 1
      · simp
      · rw [Array.getElem_mapIdx]
        exact (hslot i _ (Array.getElem?_eq_getElem _)).2
    simp [Function.asRead, hsame]

theorem spends_program :
    Spends program Program.width
      (fun p => p.Complete ∧ p.asRead.functions = p.functions ∧ ∃ bytes, p.bytes = .ok bytes) := by
  intro s p t h
  obtain ⟨letters, r₁, hletters, h⟩ := bind_eq_ok.1 h
  obtain ⟨-, h⟩ := guard_eq_ok.1 h
  obtain ⟨found, r₂, hfound, h⟩ := bind_eq_ok.1 h
  obtain ⟨-, h⟩ := guard_eq_ok.1 h
  obtain ⟨main, r₃, hmain, h⟩ := bind_eq_ok.1 h
  obtain ⟨constantCount, r₄, hconstantCount, h⟩ := bind_eq_ok.1 h
  obtain ⟨constants, r₅, hconstants, h⟩ := bind_eq_ok.1 h
  obtain ⟨functionCount, r₆, hfunctionCount, h⟩ := bind_eq_ok.1 h
  obtain ⟨functions, r₇, hfunctions, h⟩ := bind_eq_ok.1 h
  obtain ⟨rfl, rfl⟩ := pure_eq_ok.1 h
  obtain ⟨hlen₁, -⟩ := spends_take _ hletters
  obtain ⟨hlen₂, -⟩ := spends_number 4 hfound
  obtain ⟨hlen₃, -⟩ := spends_number 4 hmain
  obtain ⟨hlen₄, hconstantsFit⟩ := spends_number 4 hconstantCount
  obtain ⟨hlen₅, rfl, -⟩ := spends_table spends_constant _ hconstants
  obtain ⟨hlen₆, hfunctionsFit⟩ := spends_number 4 hfunctionCount
  obtain ⟨hlen₇, rfl, hfunction⟩ := spends_table spends_function _ hfunctions
  have hgood : ∀ f ∈ functions, ∃ n, f.Complete ∧ f.asRead n = f ∧
      ∃ bytes, f.bytes = .ok bytes := by
    intro f hf
    obtain ⟨i, hi⟩ := Array.getElem?_of_mem hf
    exact ⟨i, hfunction i f hi⟩
  obtain ⟨bodies, hbodies⟩ : ∃ bodies, List.Forall₂
      (fun (f : Function) body => f.bytes = .ok body) functions.toList bodies := by
    apply exists_forall₂
    intro f hf
    obtain ⟨_, -, -, hbytes⟩ := hgood f (Array.mem_toList_iff.1 hf)
    exact hbytes
  refine ⟨?_, fun f hf => (hgood f hf).elim fun _ h => h.1, ?_,
    _, Program.bytes_eq_ok.2 ⟨hconstantsFit, hfunctionsFit, bodies, hbodies, rfl⟩⟩
  · simp only [List.map_const', List.sum_replicate, smul_eq_mul, Array.length_toList] at *
    simp only [Program.width]
    have : magic.length = 4 := rfl
    omega
  · show functions.mapIdx Function.asRead = functions
    ext i hi₁ hi₂ : 1
    · simp
    · rw [Array.getElem_mapIdx]
      exact (hfunction i _ (Array.getElem?_eq_getElem _)).2.1

end Reader

/-! ## Both ways -/

/-- A written image is read as the program it was written from, but for the names. -/
theorem Program.read_bytes (hp : p.Complete) (h : p.bytes = .ok bytes) (rest : List UInt8) :
    Program.read (bytes ++ rest) = .ok (p.asRead, rest) :=
  Reader.reads_program hp h rest

/-- What has been read from an image is written in as many bytes as were taken, and read again it is
the same but for the names of its constants. -/
theorem Program.bytes_of_read {rest : List UInt8} {q : Program}
    (h : Program.read bytes = .ok (q, rest)) :
    q.Complete ∧ q.asRead.functions = q.functions ∧
      ∃ image, q.bytes = .ok image ∧ image.length + rest.length = bytes.length := by
  obtain ⟨hlen, hcomplete, hsame, image, himage⟩ := Reader.spends_program h
  exact ⟨hcomplete, hsame, image, himage, by rw [hlen, Program.length_bytes himage]⟩

end Bytecode

end Codewright
