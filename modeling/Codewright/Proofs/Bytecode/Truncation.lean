import Codewright.Proofs.Bytecode.Image

/-!
# Truncated images

What a step of reading does is decided by the bytes that it takes: with more bytes behind them, a
result stays the same and leaves these bytes over, and a fault stays the same unless it is a short
read (`Reader.Settled`, one lemma for each part of the format). So where some bytes are read as a
program, any part of them that ends too soon is a short read, and neither a program nor malformed.
-/

namespace Codewright.Bytecode

namespace Reader

variable {α β : Type}

/-- More bytes behind change nothing but a short read. -/
def Settled (p : Reader α) : Prop :=
  ∀ s more, p s ≠ .error .short → p (s ++ more) = (p s).map fun r => (r.1, r.2 ++ more)

/-! ## Steps put together -/

theorem settled_pure (a : α) : Settled (pure a) := fun _ _ _ => rfl

theorem settled_throw (e : ReadError) : Settled (throw e : Reader α) := fun _ _ _ => rfl

/-- Settled readers in a row are settled. -/
theorem Settled.bind {p : Reader α} {f : α → Reader β} (hp : Settled p) (hf : ∀ a, Settled (f a)) :
    Settled (p >>= f) := by
  intro s more hs
  have hfirst : p s ≠ .error .short := by
    intro hshort
    rw [bind_apply, hshort] at hs
    exact hs rfl
  rw [bind_apply, bind_apply, hp s more hfirst]
  cases h : p s with
  | error e => rfl
  | ok r =>
    rw [bind_apply, h] at hs
    exact hf r.1 r.2 more hs

theorem Settled.ite {c : Prop} [Decidable c] {p q : Reader α} (hp : Settled p) (hq : Settled q) :
    Settled (if c then p else q) := by
  split
  · exact hp
  · exact hq

/-- A check that may refuse the input is settled. -/
theorem Settled.guard {c : Prop} [Decidable c] {e : ReadError} {q : Reader β} (hq : Settled q) :
    Settled (if c then (throw e : Reader α) >>= fun _ => q else q) :=
  ((settled_throw e).bind fun _ => hq).ite hq

/-! ## The parts of the format -/

/-- Taking bytes fails for want of bytes only. -/
theorem settled_take (count : Nat) : Settled (take count) := by
  intro s more hs
  by_cases hshort : (s.take count).length < count
  · exact absurd (if_pos hshort) hs
  · have hcount : count ≤ s.length := by
      rw [List.length_take] at hshort
      omega
    have hfront : (s ++ more).take count = s.take count := List.take_append_of_le_length hcount
    simp only [take, hfront, if_neg hshort, List.drop_append_of_le_length hcount, Except.map]

theorem settled_number (width : Nat) : Settled (number width) :=
  (settled_take width).bind fun _ => settled_pure _

theorem settled_type : Settled type := by
  refine (settled_number 2).bind fun code => ?_
  cases Ty.ofCode? code.toUInt16 with
  | none => exact settled_throw _
  | some ty => exact settled_pure ty

/-- A table is settled if its entries are. -/
theorem settled_table {entry : Nat → Reader α} (h : ∀ n, Settled (entry n)) (count : Nat)
    (done : Array α) : Settled (table entry done count) := by
  induction count generalizing done with
  | zero => exact settled_pure done
  | succ count ih => exact (h done.size).bind fun a => ih (done.push a)

theorem settled_constant (n : Nat) : Settled (constant n) := by
  refine settled_type.bind fun ty => (settled_take _).bind fun name =>
    (settled_number 8).bind fun bits => ?_
  cases Value.ofBits? bits.toUInt64 ty with
  | none => exact settled_throw _
  | some value => exact settled_pure _

theorem settled_instruction (n : Nat) : Settled (instruction n) := by
  refine (settled_number 2).bind fun code => ?_
  cases Opcode.ofCode? code.toUInt16 with
  | none => exact settled_throw _
  | some opcode => exact (settled_number 2).bind fun _ => settled_pure _

theorem settled_function (n : Nat) : Settled (function n) := by
  refine settled_type.bind fun result => (settled_number 2).bind fun paramCount =>
    (settled_number 2).bind fun slotCount => .guard ?_
  refine (settled_table (fun _ => settled_type.bind fun _ => settled_pure _) _ _).bind
    fun slots => ?_
  exact (settled_take _).bind fun _ =>
    (settled_number 4).bind fun count => (settled_table settled_instruction _ _).bind fun code =>
      settled_pure _

/-- Reading a whole program is settled. -/
theorem settled_program : Settled program := by
  refine (settled_take _).bind fun letters => .guard ?_
  refine (settled_number 4).bind fun found => .guard ?_
  exact (settled_number 4).bind fun main =>
    (settled_number 4).bind fun _ => (settled_table settled_constant _ _).bind fun constants =>
      (settled_number 4).bind fun _ => (settled_table settled_function _ _).bind fun functions =>
        settled_pure _

/-! ## Cutting -/

/-- A step that takes more bytes than stand in `front` falls short on them. -/
theorem Settled.short_of_cut {p : Reader α} (h : Settled p) {front cut rest : List UInt8} {a : α}
    (hread : p (front ++ cut) = .ok (a, rest)) (hcut : rest.length < cut.length) :
    p front = .error .short := by
  by_contra hne
  have hsame := h front cut hne
  rw [hread] at hsame
  cases hfront : p front with
  | error e =>
    rw [hfront] at hsame
    cases hsame
  | ok r =>
    rw [hfront] at hsame
    have hrest : rest = r.2 ++ cut := congrArg Prod.snd (Except.ok.inj hsame)
    rw [hrest, List.length_append] at hcut
    omega

end Reader

/-- Truncated images are short reads. A part from the front of a written image falls short unless it
is the whole image, whatever the program, as long as no type in it is missing and its parameters
have slots. The same holds of any bytes that are read as a program: a part from the front falls
short if it ends before the bytes that were taken do. -/
theorem truncated_images_short :
    (∀ (p : Program) (image front : List UInt8), p.Complete → p.bytes = .ok image →
      front <+: image →
      (Program.read front = .error .short ↔ front ≠ image)) ∧
    ∀ (bytes front rest : List UInt8) (q : Program), Program.read bytes = .ok (q, rest) →
      front <+: bytes → front.length + rest.length < bytes.length →
      Program.read front = .error .short := by
  have hcut : ∀ (bytes front rest : List UInt8) (q : Program), Program.read bytes = .ok (q, rest) →
      front <+: bytes → front.length + rest.length < bytes.length →
      Program.read front = .error .short := by
    rintro _ front rest q hread ⟨cut, rfl⟩ hlength
    rw [List.length_append] at hlength
    exact Reader.settled_program.short_of_cut hread (by omega)
  refine ⟨fun p image front hp himage hfront => ?_, hcut⟩
  have hread : Program.read image = .ok (p.asRead, []) := by
    simpa using Program.read_bytes hp himage []
  constructor
  · rintro hshort rfl
    rw [hread] at hshort
    cases hshort
  · intro hne
    have hlength : front.length < image.length :=
      Nat.lt_of_le_of_ne hfront.length_le fun h => hne (hfront.eq_of_length h)
    exact hcut image front [] p.asRead hread hfront (by simpa using hlength)

/-- A program with an odd number of slots, so that its image is padded, cut before its last byte. -/
theorem truncated_images_short_padded :
    ∃ p image, Program.Complete p ∧ p.bytes = .ok image ∧ p.functions.map (·.slots.size) = #[1] ∧
      Program.read image.dropLast = .error .short := by
  let f : Function :=
    { name := "main.main", result := .int, paramCount := 0, slots := #[⟨"x", .int⟩],
      code := #[⟨.pushConst, 0⟩, ⟨.popLocal, 0⟩, ⟨.pushLocal, 0⟩, ⟨.ret, 0⟩] }
  let p : Program := { constants := #[⟨"$literal_100", .int 100⟩], functions := #[f], main := 0 }
  have hf : f.Complete := ⟨by decide, by simp [f], by decide⟩
  have hp : p.Complete := by simpa [Program.Complete, p] using hf
  obtain ⟨body, hbody⟩ : ∃ body, f.bytes = .ok body :=
    ⟨_, Function.bytes_eq_ok.mpr ⟨by decide, by decide, by decide, rfl⟩⟩
  obtain ⟨image, himage⟩ : ∃ image, p.bytes = .ok image :=
    ⟨_, Program.bytes_eq_ok.mpr ⟨by decide, by decide, [body], .cons hbody .nil, rfl⟩⟩
  have hlength : image.length = 66 := Program.length_bytes himage
  refine ⟨p, image, hp, himage, by simp [p, f], ?_⟩
  refine (truncated_images_short.1 p image _ hp himage image.dropLast_prefix).mpr fun hsame => ?_
  have := congrArg List.length hsame
  rw [List.length_dropLast] at this
  omega

end Codewright.Bytecode
