import Codewright.Proofs.Bytecode.Machine

/-!
# Flow of control and depth of the stack

What a verifier of code looks at, without running it: where control may go from an instruction, and
how deep the stack is before each one. The depth is found by going through the code from top to
bottom (`scan`), as if there were no jumps; a piece of code is level if every jump in it leads to a
place of the depth that it comes from. A set of positions is closed if control does not leave it.

Both are properties of a piece of code by itself, and pieces are put together by one lemma for each
way in which the code of statements is.
-/

namespace Codewright.Bytecode

/-! ## Positions -/

/-- Control may go from a position to another. -/
inductive Goes (code : List Instruction) (k : Nat) : Int → Prop
  | next {i : Instruction} (hi : code[k]? = some i) (hret : i.opcode ≠ .ret)
    (hjump : i.opcode ≠ .jump) : Goes code k (k + 1)
  | jump {i : Instruction} (hi : code[k]? = some i) (hjump : i.opcode.isJump = true) :
    Goes code k (k + 1 + i.operand.toInt)

/-- Control may come to a position from the beginning. -/
inductive Reachable (code : List Instruction) : Int → Prop
  | start : Reachable code 0
  | step {k : Nat} {q : Int} (h : Reachable code k) (hgoes : Goes code k q) : Reachable code q

theorem getElem?_append_cases {a b : List Instruction} {k : Nat} {i : Instruction}
    (h : (a ++ b)[k]? = some i) : a[k]? = some i ∨ ∃ j, k = a.length + j ∧ b[j]? = some i := by
  by_cases hk : k < a.length
  · rw [List.getElem?_append_left hk] at h
    exact .inl h
  · rw [List.getElem?_append_right (Nat.le_of_not_lt hk)] at h
    exact .inr ⟨k - a.length, by omega, h⟩

theorem getElem?_cons_cases {a i : Instruction} {b : List Instruction} {k : Nat}
    (h : (a :: b)[k]? = some i) : k = 0 ∧ a = i ∨ ∃ j, k = j + 1 ∧ b[j]? = some i := by
  cases k with
  | zero => exact .inl ⟨rfl, by simpa using h⟩
  | succ j => exact .inr ⟨j, rfl, by simpa using h⟩

namespace Goes

variable {a b : List Instruction} {k : Nat} {q : Int}

theorem of_append_left (h : Goes (a ++ b) k q) (hk : k < a.length) : Goes a k q := by
  cases h with
  | next hi hret hjump => exact .next (List.getElem?_append_left hk ▸ hi) hret hjump
  | jump hi hjump => exact .jump (List.getElem?_append_left hk ▸ hi) hjump

theorem of_append_right (h : Goes (a ++ b) (a.length + k) q) : Goes b k (q - a.length) := by
  have hget : (a ++ b)[a.length + k]? = b[k]? := by
    rw [List.getElem?_append_right (Nat.le_add_right _ _), Nat.add_sub_cancel_left]
  cases h with
  | next hi hret hjump =>
    have := Goes.next (hget ▸ hi) hret hjump
    convert this using 1
    push_cast
    ring
  | @jump i hi hjump =>
    have := Goes.jump (hget ▸ hi) hjump
    convert this using 1
    push_cast
    ring

end Goes

/-! ## Closed sets of positions -/

/-- Control does not leave a set of positions of a piece of code. The end of the piece counts as
one. -/
structure Closed (code : List Instruction) (L : Set Nat) : Prop where
  inside : ∀ k ∈ L, k ≤ code.length
  closed : ∀ k ∈ L, ∀ q, Goes code k q → ∃ k' ∈ L, (k' : Int) = q

/-- The positions of a piece that comes behind others. -/
def behind (n : Nat) (L : Set Nat) : Set Nat := {k | ∃ j ∈ L, k = n + j}

namespace Closed

variable {a b code : List Instruction} {L La Lb : Set Nat}

theorem all (h : ∀ (k : Nat) (i : Instruction), code[k]? = some i → i.opcode.isJump = true →
      ∃ k' : Nat, (k' : Int) = k + 1 + i.operand.toInt ∧ k' ≤ code.length) :
    Closed code {k | k ≤ code.length} where
  inside := fun _ hk => hk
  closed := by
    intro k _ q hgoes
    cases hgoes with
    | next hi hret hjump => exact ⟨k + 1, (List.getElem?_eq_some_iff.mp hi).1, by simp⟩
    | jump hi hjump =>
      obtain ⟨k', heq, hle⟩ := h k _ hi hjump
      exact ⟨k', hle, heq⟩

theorem empty (code : List Instruction) : Closed code ∅ := ⟨nofun, nofun⟩

theorem append (ha : Closed a La) (hb : Closed b Lb) (hmid : a.length ∈ La → 0 ∈ Lb) :
    Closed (a ++ b) (La ∪ behind a.length Lb) := by
  have hright : ∀ k ∈ Lb, ∀ q, Goes (a ++ b) (a.length + k) q →
      ∃ k' ∈ La ∪ behind a.length Lb, (k' : Int) = q := by
    intro k hk q hgoes
    obtain ⟨k', hk', heq⟩ := hb.closed k hk _ hgoes.of_append_right
    exact ⟨a.length + k', .inr ⟨k', hk', rfl⟩, by push_cast; omega⟩
  refine ⟨?_, ?_⟩
  · rintro k (hk | ⟨j, hj, rfl⟩)
    · have := ha.inside k hk
      rw [List.length_append]
      omega
    · have := hb.inside j hj
      rw [List.length_append]
      omega
  · rintro k (hk | ⟨j, hj, rfl⟩) q hgoes
    · rcases Nat.lt_or_eq_of_le (ha.inside k hk) with hlt | rfl
      · obtain ⟨k', hk', heq⟩ := ha.closed k hk q (hgoes.of_append_left hlt)
        exact ⟨k', .inl hk', heq⟩
      · exact hright 0 (hmid hk) q hgoes
    · exact hright j hj q hgoes

theorem jumpFalse (hb : Closed b L) {skip : Int16} {n : Nat} (h0 : 0 ∈ L) (hn : n ∈ L)
    (hskip : skip.toInt = n) : Closed (⟨.jumpFalse, skip⟩ :: b) (insert 0 (behind 1 L)) where
  inside := by
    rintro k (rfl | ⟨j, hj, rfl⟩)
    · exact Nat.zero_le _
    · have := hb.inside j hj
      rw [List.length_cons]
      omega
  closed := by
    rintro k (rfl | ⟨j, hj, rfl⟩) q hgoes
    · cases hgoes with
      | next hi hret hjump => exact ⟨1 + 0, .inr ⟨0, h0, rfl⟩, by simp⟩
      | jump hi hjump =>
        cases hi
        exact ⟨1 + n, .inr ⟨n, hn, rfl⟩, by rw [hskip]; push_cast; ring⟩
    · obtain ⟨k', hk', heq⟩ := hb.closed j hj _ (Goes.of_append_right (a := [_]) hgoes)
      refine ⟨1 + k', .inr ⟨k', hk', rfl⟩, ?_⟩
      rw [List.length_singleton] at heq
      push_cast at heq ⊢
      omega

/-- Control does not come to what follows a return. -/
theorem returns (h : Closed a {k | k ≤ a.length}) (operand : Int16) :
    Closed (a ++ [⟨.ret, operand⟩]) {k | k ≤ a.length} where
  inside := by
    intro k (hk : k ≤ a.length)
    rw [List.length_append]
    omega
  closed := by
    intro k (hk : k ≤ a.length) q hgoes
    rcases Nat.lt_or_eq_of_le hk with hlt | rfl
    · exact h.closed k hk q (hgoes.of_append_left hlt)
    · cases hgoes with
      | next hi hret hjump =>
        rw [List.getElem?_concat_length] at hi
        cases hi
        exact absurd rfl hret
      | jump hi hjump =>
        rw [List.getElem?_concat_length] at hi
        cases hi
        cases hjump

end Closed

/-! ## Depths -/

section

variable (effect : Instruction → Option (Nat × Nat))

/-- The depth behind an instruction, if it finds what it takes. A return must leave nothing else. -/
def depthAfter (i : Instruction) (d : Nat) : Option Nat :=
  (effect i).bind fun (pops, pushes) =>
    if pops ≤ d ∧ (i.opcode = .ret → d = pops) then some (d - pops + pushes) else none

/-- The depth behind a piece of code that is gone through from top to bottom. -/
def scan : List Instruction → Nat → Option Nat
  | [], d => some d
  | i :: rest, d => (depthAfter effect i d).bind (scan rest)

/-- A piece of code leads from one depth to another, and every jump in it to a place of the depth
that it comes from. -/
structure Level (code : List Instruction) (d e : Nat) : Prop where
  scan : scan effect code d = some e
  jumps : ∀ (k : Nat) (i : Instruction), code[k]? = some i → i.opcode.isJump = true →
    ∃ k' : Nat, (k' : Int) = k + 1 + i.operand.toInt ∧ k' ≤ code.length ∧
      Bytecode.scan effect (code.take k') d = Bytecode.scan effect (code.take (k + 1)) d

variable {effect}

theorem depthAfter_of_effect {i : Instruction} {pops pushes d : Nat}
    (h : effect i = some (pops, pushes)) (hret : i.opcode ≠ .ret) :
    depthAfter effect i (d + pops) = some (d + pushes) := by
  simp [depthAfter, h, hret]

theorem scan_append (a b : List Instruction) (d : Nat) :
    scan effect (a ++ b) d = (scan effect a d).bind (scan effect b) := by
  induction a generalizing d with
  | nil => rfl
  | cons i rest ih =>
    rw [List.cons_append, scan, scan, Option.bind_assoc]
    congr 1
    funext e
    exact ih e

namespace Level

variable {a b code : List Instruction} {d e e' : Nat}

theorem nil (d : Nat) : Level effect [] d d := ⟨rfl, by simp⟩

theorem straight (hscan : Bytecode.scan effect code d = some e)
    (h : ∀ i ∈ code, i.opcode.isJump = false) : Level effect code d e := by
  refine ⟨hscan, fun k i hi hjump => ?_⟩
  rw [h i (List.mem_of_getElem? hi)] at hjump
  cases hjump

/-- The jumps of a piece of code, seen from a larger one. -/
theorem jumps_inside (h : Level effect b e e') (ha : Bytecode.scan effect a d = some e)
    (c : List Instruction) {k : Nat} {i : Instruction} (hi : b[k]? = some i)
    (hjump : i.opcode.isJump = true) :
    ∃ k' : Nat, (k' : Int) = ↑(a.length + k) + 1 + i.operand.toInt ∧ k' ≤ (a ++ b ++ c).length ∧
      Bytecode.scan effect ((a ++ b ++ c).take k') d =
        Bytecode.scan effect ((a ++ b ++ c).take (a.length + k + 1)) d := by
  have htake : ∀ n ≤ b.length,
      Bytecode.scan effect ((a ++ b ++ c).take (a.length + n)) d =
        Bytecode.scan effect (b.take n) e := by
    intro n hn
    rw [List.append_assoc, List.take_length_add_append, List.take_append_of_le_length hn,
      scan_append, ha, Option.bind_some]
  obtain ⟨k', heq, hle, hsame⟩ := h.jumps k i hi hjump
  refine ⟨a.length + k', by push_cast; omega, ?_, ?_⟩
  · simp only [List.length_append]
    omega
  · rw [htake k' hle, Nat.add_assoc, htake (k + 1) (List.getElem?_eq_some_iff.mp hi).1]
    exact hsame

theorem append (ha : Level effect a d e) (hb : Level effect b e e') :
    Level effect (a ++ b) d e' := by
  refine ⟨by rw [scan_append, ha.scan]; exact hb.scan, fun k i hi hjump => ?_⟩
  rcases getElem?_append_cases hi with hi | ⟨j, rfl, hj⟩
  · have := ha.jumps_inside (a := []) rfl b hi hjump
    simpa using this
  · have := hb.jumps_inside ha.scan [] hj hjump
    simpa using this

theorem forward (hb : Level effect b d e) {i : Instruction} {pops n : Nat}
    (hi : effect i = some (pops, 0)) (hret : i.opcode ≠ .ret) (hn : i.operand.toInt = n)
    (hle : n ≤ b.length) (hsame : Bytecode.scan effect (b.take n) d = some d) :
    Level effect (i :: b) (d + pops) e := by
  have hafter : depthAfter effect i (d + pops) = some d := depthAfter_of_effect hi hret
  refine ⟨by rw [Bytecode.scan, hafter]; exact hb.scan, fun k i' hi' hjump => ?_⟩
  rcases getElem?_cons_cases hi' with ⟨rfl, rfl⟩ | ⟨j, rfl, hi'⟩
  · refine ⟨n + 1, by rw [hn]; push_cast; ring, by simpa using hle, ?_⟩
    simp only [List.take_succ_cons, Bytecode.scan, hafter, Option.bind_some, hsame, List.take_zero]
  · have hone : Bytecode.scan effect [i] (d + pops) = some d := by simp [Bytecode.scan, hafter]
    have := hb.jumps_inside hone [] hi' hjump
    simpa [Nat.add_comm] using this

/-- A loop: behind the test a jump over the body, and at its end a jump back. -/
theorem loop {test body : List Instruction} {leave back : Int16}
    (ht : Level effect test d (d + 1)) (hb : Level effect body d d)
    (hjf : effect ⟨.jumpFalse, leave⟩ = some (1, 0)) (hj : effect ⟨.jump, back⟩ = some (0, 0))
    (hleave : leave.toInt = body.length + 1)
    (hback : back.toInt = -(test.length + body.length + 2)) :
    Level effect (test ++ ⟨.jumpFalse, leave⟩ :: (body ++ [⟨.jump, back⟩])) d d := by
  have hskip : depthAfter effect ⟨.jumpFalse, leave⟩ (d + 1) = some d :=
    depthAfter_of_effect hjf nofun
  have hjump : depthAfter effect ⟨.jump, back⟩ d = some d := depthAfter_of_effect hj nofun
  have hhead : Bytecode.scan effect (test ++ [⟨.jumpFalse, leave⟩]) d = some d := by
    rw [scan_append, ht.scan, Option.bind_some, Bytecode.scan, hskip]
    rfl
  have hwhole : Bytecode.scan effect (test ++ ⟨.jumpFalse, leave⟩ :: (body ++ [⟨.jump, back⟩])) d =
      some d := by
    rw [List.append_cons, scan_append, hhead, Option.bind_some, scan_append, hb.scan,
      Option.bind_some, Bytecode.scan, hjump]
    rfl
  refine ⟨hwhole, fun k i hi hjump' => ?_⟩
  rcases getElem?_append_cases hi with htest | ⟨j, rfl, hrest⟩
  · have := ht.jumps_inside (a := []) rfl (⟨.jumpFalse, leave⟩ :: (body ++ [⟨.jump, back⟩]))
      htest hjump'
    simpa using this
  rcases getElem?_cons_cases hrest with ⟨rfl, rfl⟩ | ⟨j, rfl, hrest⟩
  · refine ⟨_, ?_, le_refl _, ?_⟩
    · simp only [List.length_append, List.length_cons, List.length_nil, hleave]
      push_cast
      ring
    · rw [List.take_length, hwhole, Nat.add_zero, List.take_length_add_append]
      exact hhead.symm
  rcases getElem?_append_cases hrest with hbody | ⟨j, rfl, hlast⟩
  · have := hb.jumps_inside hhead [⟨.jump, back⟩] hbody hjump'
    simpa [Nat.add_assoc, Nat.add_comm 1] using this
  rcases getElem?_cons_cases hlast with ⟨rfl, rfl⟩ | ⟨j, rfl, hnone⟩
  · refine ⟨0, ?_, Nat.zero_le _, ?_⟩
    · simp only [hback]
      push_cast
      ring
    · rw [List.take_zero, List.take_of_length_le (by simp; omega), hwhole]
      rfl
  · simp at hnone

end Level

end

end Codewright.Bytecode
