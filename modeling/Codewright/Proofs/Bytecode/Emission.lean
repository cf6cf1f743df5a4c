import Codewright.Bytecode.Emit
import Codewright.Proofs.Bytecode.Machine
import Codewright.Proofs.WellTyped

/-!
# What is emitted

The code of a tree as a relation, apart from how it is put together: `Emitted C t code` says that
`code` computes `t`, where `C` has the places of the locals and the constants of the program. The
jumps in a piece of code stay inside it, so the rules do not mention where it stands.

Emission either gives such code or fails because a number is too large (`emits_node`). The code
stays right when constants are added later, since the pool only grows.
-/

namespace Codewright

/-- The error that a number does not fit into an instruction. -/
def GenerationError.IsOverflow (e : GenerationError) : Prop :=
  ∃ kind value, e = .operandOverflow kind value

namespace Bytecode

/-! ## The pool -/

/-- A pool is in order: a constant stands under its name, and the index leads to it and knows no
other under that name. -/
structure ConstantPool.Sound (pool : ConstantPool) : Prop where
  named : ∀ c ∈ pool.entries.toList, c.name = c.value.poolName
  indexed : ∀ (name : String) (n : Int16), pool.index[name]? = some n →
    ∃ k : Nat, n.toInt = k ∧ ∃ c, pool.entries[k]? = some c ∧ c.name = name
  listed : ∀ (k : Nat) (c : Constant), pool.entries[k]? = some c →
    ∃ n, pool.index[c.name]? = some n ∧ n.toInt = k

/-- A pool that has got more: what was there has kept its place. -/
structure ConstantPool.Grows (pool pool' : ConstantPool) : Prop where
  sound : pool'.Sound
  kept : pool.entries.toList <+: pool'.entries.toList

/-- Where the locals live, and the constants of the program. -/
structure Coding where
  place : LocalId → Storage
  constants : Array Constant

/-- A constant has the number of an entry under its name. -/
def Coding.Number (C : Coding) (value : Value) (n : Int16) : Prop :=
  ∃ k : Nat, n.toInt = k ∧ ∃ c, C.constants[k]? = some c ∧ c.value.poolName = value.poolName

/-- A local lives in a slot. -/
def Coding.Slot (C : Coding) (x : LocalId) (n : Int16) : Prop :=
  ∃ k : Nat, n.toInt = k ∧ C.place x = .stack k

namespace ConstantPool

variable {pool pool' pool'' : ConstantPool}

theorem sound_empty : ({} : ConstantPool).Sound where
  named := by simp
  indexed := by simp
  listed := by simp

theorem Grows.refl (h : pool.Sound) : pool.Grows pool := ⟨h, List.prefix_rfl⟩

theorem Grows.trans (h : pool.Grows pool') (h' : pool'.Grows pool'') : pool.Grows pool'' :=
  ⟨h'.sound, h.kept.trans h'.kept⟩

theorem operand_eq_ok {kind : OperandKind} {value : Int} {n : Int16}
    (h : operand kind value = .ok n) : n.toInt = value := by
  unfold operand at h
  split at h
  · next hfits =>
    cases h
    rw [Int16.toInt_ofInt_of_le (by simpa using hfits.1) (by simp; omega)]
  · cases h

theorem operand_eq_error {kind : OperandKind} {value : Int} {e : GenerationError}
    (h : operand kind value = .error e) : e.IsOverflow := by
  unfold operand at h
  split at h
  · cases h
  · cases h
    exact ⟨kind, value, rfl⟩

theorem getElem?_of_kept {constants : Array Constant} {k : Nat} {c : Constant}
    (h : pool.entries.toList <+: constants.toList) (hc : pool.entries[k]? = some c) :
    constants[k]? = some c := by
  obtain ⟨more, hmore⟩ := h
  rw [← Array.getElem?_toList] at hc ⊢
  rw [← hmore, List.getElem?_append_left (List.getElem?_eq_some_iff.mp hc).1, hc]

theorem Sound.push (h : pool.Sound) {value : Value} {n : Int16}
    (hnew : pool.index[value.poolName]? = none) (hn : n.toInt = pool.entries.size) :
    pool.Grows { entries := pool.entries.push ⟨value.poolName, value⟩
                 index := pool.index.insert value.poolName n } where
  sound :=
    { named := by
        intro c hc
        rw [Array.toList_push, List.mem_append, List.mem_singleton] at hc
        rcases hc with hc | rfl
        · exact h.named c hc
        · rfl
      indexed := by
        intro name m hm
        rw [Std.HashMap.getElem?_insert] at hm
        split at hm
        · next heq =>
          cases hm
          refine ⟨_, hn, _, Array.getElem?_push_size, ?_⟩
          simpa using heq
        · obtain ⟨k, hk, c, hc, hname⟩ := h.indexed name m hm
          refine ⟨k, hk, c, ?_, hname⟩
          have hlt := (Array.getElem?_eq_some_iff.mp hc).1
          rw [Array.getElem?_push_lt hlt]
          simpa [hlt] using hc
      listed := by
        intro k c hc
        rw [Array.getElem?_push] at hc
        split at hc
        · next hk =>
          cases hc
          exact ⟨n, Std.HashMap.getElem?_insert_self, hk ▸ hn⟩
        · obtain ⟨m, hm, hmk⟩ := h.listed k c hc
          refine ⟨m, ?_, hmk⟩
          rw [Std.HashMap.getElem?_insert, if_neg, hm]
          intro heq
          rw [beq_iff_eq] at heq
          rw [← heq, hnew] at hm
          cases hm }
  kept := by
    rw [Array.toList_push]
    exact List.prefix_append _ _

/-- What comes of asking for a constant: it is found, it is new and goes to the end, or it is new
and there is no number left. -/
inductive Interned (pool : ConstantPool) (value : Value) :
    Except GenerationError Int16 × ConstantPool → Prop
  | found {n : Int16} (h : pool.index[value.poolName]? = some n) : Interned pool value (.ok n, pool)
  | added {n : Int16} (hnew : pool.index[value.poolName]? = none)
    (hn : n.toInt = pool.entries.size) :
    Interned pool value (.ok n, { entries := pool.entries.push ⟨value.poolName, value⟩
                                  index := pool.index.insert value.poolName n })
  | full {e : GenerationError} (hnew : pool.index[value.poolName]? = none) (he : e.IsOverflow)
    (hfull : 32768 ≤ pool.entries.size) : Interned pool value (.error e, pool)

theorem interned (pool : ConstantPool) (value : Value) :
    Interned pool value (pool.intern value) := by
  unfold intern
  dsimp only
  cases hindex : pool.index[value.poolName]? with
  | some n => exact .found hindex
  | none =>
    cases hn : operand .constantIndex pool.entries.size with
    | ok n => exact .added hindex (operand_eq_ok hn)
    | error e =>
      refine .full hindex (operand_eq_error hn) ?_
      unfold operand at hn
      split at hn
      · cases hn
      · omega

end ConstantPool

/-! ## Code -/

/-- What comes after the code of an operand that is stored on the way. -/
inductive Coding.Passes (C : Coding) (t : Tree) : List Instruction → Prop
  | plain (hs : t.store = none) : C.Passes t []
  | unplaced {x : LocalId} (hs : t.store = some x) (hx : C.place x = .unassigned) : C.Passes t []
  | placed {x : LocalId} {n : Int16} (hs : t.store = some x) (hn : C.Slot x n) :
    C.Passes t [⟨.popLocal, n⟩, ⟨.pushLocal, n⟩]

/-- What takes the value of a statement off the stack. -/
inductive Coding.Takes (C : Coding) (t : Tree) : List Instruction → Prop
  | nothing (hs : t.store = none) (hv : t.ty.isValue = false) : C.Takes t []
  | discard (hs : t.store = none) (hv : t.ty.isValue = true) : C.Takes t [⟨.popDiscard, 0⟩]
  | unplaced {x : LocalId} (hs : t.store = some x) (hx : C.place x = .unassigned) :
    C.Takes t [⟨.popDiscard, 0⟩]
  | placed {x : LocalId} {n : Int16} (hs : t.store = some x) (hn : C.Slot x n) :
    C.Takes t [⟨.popLocal, n⟩]

/-- An instruction performs an operation on so many values. -/
inductive Calls : Operation → Nat → Instruction → Prop
  | intrinsic (op : Intrinsic) {count : Nat} (h : count < 8) :
    Calls (.intrinsic op) count ⟨.intrinsic ⟨count, h⟩, Int16.ofNat op.id⟩
  | routine {callee count : Nat} {n : Int16} (hn : n.toInt = callee) :
    Calls (.routine callee) count ⟨.call, n⟩

mutual

/-- The code that computes a node, before its value is stored. -/
inductive Emitted (C : Coding) : Tree → List Instruction → Prop
  | const {tag : Tag} {value : Value} {n : Int16} (hn : C.Number value n) :
    Emitted C (.const tag value) [⟨.pushConst, n⟩]
  | load {tag : Tag} {x : LocalId} {n : Int16} (hn : C.Slot x n) :
    Emitted C (.load tag x) [⟨.pushLocal, n⟩]
  | operator {t : Tree} {f : Operator} {code : List Instruction} {call : Instruction}
    (ht : t.operator? = some f) (h : EmittedValues C f.operands code)
    (hcall : Calls f.operation f.operands.length call) : Emitted C t (code ++ [call])
  | failFast {tag : Tag} {call : Instruction} (hcall : Calls (.intrinsic .failFast) 0 call) :
    Emitted C (.failFast tag) [call]
  | ret {tag : Tag} : Emitted C (.ret tag) [⟨.ret, 0⟩]
  | retValue {tag : Tag} {v : Tree} {code : List Instruction} (h : EmittedValue C v code) :
    Emitted C (.retValue tag v) (code ++ [⟨.ret, 0⟩])
  | seq {tag : Tag} {body : List Tree} {code : List Instruction}
    (h : EmittedStatements C body code) :
    Emitted C (.seq tag body) code
  | ifThen {tag : Tag} {c y : Tree} {test yes : List Instruction} {skip : Int16}
    (hc : EmittedValue C c test) (hy : EmittedStatement C y yes) (hskip : skip.toInt = yes.length) :
    Emitted C (.ifThen tag c y) (test ++ ⟨.jumpFalse, skip⟩ :: yes)
  | ifElse {tag : Tag} {c y n : Tree} {test yes no : List Instruction} {skipYes skipNo : Int16}
    (hc : EmittedValue C c test) (hy : EmittedStatement C y yes) (hn : EmittedStatement C n no)
    (hskipYes : skipYes.toInt = yes.length + 1) (hskipNo : skipNo.toInt = no.length) :
    Emitted C (.ifElse tag c y n)
      (test ++ ⟨.jumpFalse, skipYes⟩ :: (yes ++ ⟨.jump, skipNo⟩ :: no))
  | loop {tag : Tag} {c b : Tree} {test body : List Instruction} {leave back : Int16}
    (hc : EmittedValue C c test) (hb : EmittedStatement C b body)
    (hleave : leave.toInt = body.length + 1)
    (hback : back.toInt = -(test.length + body.length + 2)) :
    Emitted C (.loop tag c b) (test ++ ⟨.jumpFalse, leave⟩ :: (body ++ [⟨.jump, back⟩]))

/-- The code of a node where its value is consumed. -/
inductive EmittedValue (C : Coding) : Tree → List Instruction → Prop
  | intro {t : Tree} {code tail : List Instruction} (h : Emitted C t code)
    (htail : C.Passes t tail) :
    EmittedValue C t (code ++ tail)

/-- The code of a node where nothing may stay on the stack. -/
inductive EmittedStatement (C : Coding) : Tree → List Instruction → Prop
  | intro {t : Tree} {code tail : List Instruction} (h : Emitted C t code)
    (htail : C.Takes t tail) :
    EmittedStatement C t (code ++ tail)

inductive EmittedValues (C : Coding) : List Tree → List Instruction → Prop
  | nil : EmittedValues C [] []
  | cons {t : Tree} {ts : List Tree} {code rest : List Instruction} (h : EmittedValue C t code)
    (hrest : EmittedValues C ts rest) : EmittedValues C (t :: ts) (code ++ rest)

inductive EmittedStatements (C : Coding) : List Tree → List Instruction → Prop
  | nil : EmittedStatements C [] []
  | cons {t : Tree} {ts : List Tree} {code rest : List Instruction} (h : EmittedStatement C t code)
    (hrest : EmittedStatements C ts rest) : EmittedStatements C (t :: ts) (code ++ rest)

end

section

variable {C : Coding} {t : Tree} {code : List Instruction}

theorem EmittedValue.of_store (h : EmittedValue C t code) (hs : t.store = none) :
    Emitted C t code := by
  cases h with
  | intro h htail =>
    cases htail with
    | plain => rwa [List.append_nil]
    | unplaced hs' | placed hs' => rw [hs] at hs'; cases hs'

/-- The code of an operator is that of its operands and an instruction that performs it. -/
theorem Emitted.of_operator {f : Operator} (h : Emitted C t code) (hf : t.operator? = some f) :
    ∃ values call, code = values ++ [call] ∧ EmittedValues C f.operands values ∧
      Calls f.operation f.operands.length call := by
  cases h with
  | operator hf' h hcall =>
    obtain rfl := Option.some.inj (hf.symm.trans hf')
    exact ⟨_, _, rfl, h, hcall⟩
  | _ => cases hf

/-- A statement of a kind that has no value is followed by nothing. -/
theorem EmittedStatement.of_void (h : EmittedStatement C t code) (hs : t.store = none)
    (hty : t.ty = .void) : Emitted C t code := by
  cases h with
  | intro h htail =>
    cases htail with
    | nothing => rwa [List.append_nil]
    | discard hs' hv =>
      rw [hty] at hv
      cases hv
    | unplaced hs' | placed hs' =>
      rw [hs] at hs'
      cases hs'

end

/-! ## Steps of emission -/

/-- A step of emission gives something in `Q`, for whatever constants are there in the end, or fails
with an error in `F`. -/
def Emits {α : Type} (F : GenerationError → Prop) (x : Emit α) (Q : α → Array Constant → Prop) :
    Prop :=
  ∀ pool : ConstantPool, pool.Sound →
    match x pool with
    | .ok a pool' => pool.Grows pool' ∧
      ∀ constants : Array Constant, pool'.entries.toList <+: constants.toList → Q a constants
    | .error e pool' => pool.Grows pool' ∧ F e

namespace Emits

open Steps

variable {α β : Type} {F F' : GenerationError → Prop} {x : Emit α} {g : α → Emit β}
  {Q Q' : α → Array Constant → Prop} {R : β → Array Constant → Prop}

theorem mono (h : Emits F x Q) (hF : ∀ e, F e → F' e) (hQ : ∀ a cs, Q a cs → Q' a cs) :
    Emits F' x Q' := by
  intro pool hpool
  have := h pool hpool
  cases hx : x pool with
  | ok a pool' =>
    rw [hx] at this
    exact ⟨this.1, fun cs hcs => hQ a cs (this.2 cs hcs)⟩
  | error e pool' =>
    rw [hx] at this
    exact ⟨this.1, hF e this.2⟩

theorem pure {a : α} (h : ∀ cs, Q a cs) : Emits F (Pure.pure a) Q :=
  fun _ hpool => ⟨.refl hpool, fun cs _ => h cs⟩

theorem throw {e : GenerationError} (h : F e) : Emits F (MonadExcept.throw e : Emit α) Q :=
  fun _ hpool => ⟨.refl hpool, h⟩

/-- What the first step gave is still right after the second. -/
theorem bind_known (hx : Emits F x Q)
    (hg : ∀ a, (∃ cs, Q a cs) → Emits F (g a) fun b cs => Q a cs → R b cs) :
    Emits F (x >>= g) R := by
  intro pool hpool
  have h := hx pool hpool
  rw [bind_apply]
  cases hr : x pool with
  | error e pool₁ => rwa [hr] at h
  | ok a pool₁ =>
    rw [hr] at h
    have h' := hg a ⟨_, h.2 pool₁.entries List.prefix_rfl⟩ pool₁ h.1.sound
    dsimp only
    cases hr' : g a pool₁ with
    | error e pool₂ =>
      rw [hr'] at h'
      exact ⟨h.1.trans h'.1, h'.2⟩
    | ok b pool₂ =>
      rw [hr'] at h'
      exact ⟨h.1.trans h'.1, fun cs hcs => h'.2 cs hcs (h.2 cs (h'.1.kept.trans hcs))⟩

theorem bind (hx : Emits F x Q) (hg : ∀ a, Emits F (g a) fun b cs => Q a cs → R b cs) :
    Emits F (x >>= g) R :=
  hx.bind_known fun a _ => hg a

theorem operandOf (kind : OperandKind) (value : Int) :
    Emits GenerationError.IsOverflow (Emit.operandOf kind value) fun n _ => n.toInt = value := by
  unfold Emit.operandOf
  cases h : operand kind value with
  | ok n => exact pure fun _ => ConstantPool.operand_eq_ok h
  | error e => exact throw (ConstantPool.operand_eq_error h)

theorem constant (value : Value) (place : LocalId → Storage) :
    Emits GenerationError.IsOverflow (Emit.constant value) fun n cs =>
      Coding.Number ⟨place, cs⟩ value n := by
  intro pool hpool
  unfold Emit.constant
  have hcases := pool.interned value
  generalize pool.intern value = result at hcases ⊢
  cases hcases with
  | @found n h =>
    obtain ⟨k, hk, c, hc, hname⟩ := hpool.indexed _ n h
    refine ⟨.refl hpool, fun cs hcs => ⟨k, hk, c, ConstantPool.getElem?_of_kept hcs hc, ?_⟩⟩
    rw [← hpool.named c (Array.mem_toList_iff.mpr (Array.mem_of_getElem? hc)), hname]
  | added hnew hn =>
    refine ⟨hpool.push hnew hn, fun cs hcs => ⟨_, hn, ⟨value.poolName, value⟩, ?_, rfl⟩⟩
    exact ConstantPool.getElem?_of_kept hcs Array.getElem?_push_size
  | full _ he => exact ⟨.refl hpool, he⟩

/-- The slot of a local, if it has one; the stack machine knows no other places. -/
theorem slot? (locals : Locals) (x : LocalId) :
    Emits (fun e => (storageOf locals x).isRegister = false → e.IsOverflow) (Emit.slot? locals x)
      fun slot cs => match slot with
        | none => storageOf locals x = .unassigned
        | some n => Coding.Slot ⟨storageOf locals, cs⟩ x n := by
  unfold Emit.slot?
  cases h : storageOf locals x with
  | unassigned => exact pure fun _ => rfl
  | register n => exact throw fun hr => by cases hr
  | stack slot =>
    refine bind ((operandOf .localSlot slot).mono (fun e he _ => he) fun n cs hn => hn) fun n => ?_
    exact pure fun cs hn => ⟨slot, hn, h⟩

theorem intrinsic (op : Intrinsic) (count : Nat) :
    Emits (fun e => count < 8 → e.IsOverflow) (Emit.intrinsic op count)
      fun call _ => Calls (.intrinsic op) count call := by
  unfold Emit.intrinsic Opcode.callIntrinsic?
  by_cases h : count < 8
  · rw [dif_pos h]
    exact pure fun _ => .intrinsic op h
  · rw [dif_neg h]
    exact throw fun h' => absurd h' h

end Emits

/-! ## Emission of trees -/

/-- A node has code, as far as the instructions have room: its locals are where the machine can find
them, and it has no more operands than an instruction can have. -/
def EmittableNode (locals : Locals) (t : Tree) : Prop :=
  (∀ x, t.store = some x → (storageOf locals x).isRegister = false) ∧
  match t with
  | .load _ x => ∃ k, storageOf locals x = .stack k
  | .print _ args => args.length < 8
  | _ => True

/-- Every node has code. -/
def Emittable (locals : Locals) (t : Tree) : Prop := ∀ u ∈ t.nodes, EmittableNode locals u

/-- The errors of a tree: numbers that are too large, if it can have code at all. -/
def Overflows (locals : Locals) (t : Tree) (e : GenerationError) : Prop :=
  Emittable locals t → e.IsOverflow

section

variable {locals : Locals} {t : Tree} {f : Operator}

theorem bind_operandOf {β : Type} {kind : OperandKind} {value : Int} {g : Int16 → Emit β}
    {R : β → Array Constant → Prop}
    (hg : ∀ n, Emits (Overflows locals t) (g n) fun b cs => n.toInt = value → R b cs) :
    Emits (Overflows locals t) (Emit.operandOf kind value >>= g) R :=
  .bind ((Emits.operandOf kind value).mono (fun _ he _ => he) fun _ _ h => h) hg

theorem Emittable.self (h : Emittable locals t) : EmittableNode locals t := h t t.self_mem_nodes

theorem Overflows.of_part {a : Tree} (ha : a ∈ t.parts := by simp [Tree.parts]) :
    ∀ e, Overflows locals a e → Overflows locals t e :=
  fun _ he h => he fun u hu => h u (Tree.mem_nodes_of_parts ha hu)

theorem EmittableNode.operands_lt (h : EmittableNode locals t) (hf : t.operator? = some f)
    (op : Intrinsic) (ho : f.operation = .intrinsic op) : f.operands.length < 8 := by
  cases t <;> cases hf <;> first | exact h.2 | cases ho; done | simp

def Emit.performing (o : Operation) (count : Nat) : Emit Instruction :=
  match o with
  | .intrinsic op => Emit.intrinsic op count
  | .routine callee => do
    let n ← Emit.operandOf .functionIndex callee
    return ⟨.call, n⟩

theorem Emit.node_operator (hf : t.operator? = some f) :
    Emit.node locals t = (do
      let code ← Emit.values locals #[] f.operands
      let call ← Emit.performing f.operation f.operands.length
      return code.push call) := by
  cases t <;> cases hf <;>
    simp only [Emit.node, Emit.values, Emit.performing, bind_assoc, pure_bind, Array.empty_append,
      List.length_cons, List.length_nil]

theorem emits_performing (o : Operation) (count : Nat) :
    Emits (fun e => (∀ op, o = .intrinsic op → count < 8) → e.IsOverflow)
      (Emit.performing o count) fun call _ => Calls o count call := by
  cases o with
  | intrinsic op =>
    exact (Emits.intrinsic op count).mono (fun e he h => he (h op rfl)) fun _ _ h => h
  | routine callee =>
    refine .bind ((Emits.operandOf _ _).mono (fun e he _ => he) fun _ _ h => h) fun n => ?_
    exact .pure fun cs hn => .routine hn

variable {code : Code} {F : GenerationError → Prop}

/-- Where a node stands: its value is consumed, or nothing may stay on the stack. -/
inductive Role where
  | value
  | statement

def Emit.inRole (locals : Locals) : Role → Tree → Code → Emit Code
  | .value => Emit.asValue locals
  | .statement => Emit.asStatement locals

def Emit.allInRole (locals : Locals) : Role → Code → List Tree → Emit Code
  | .value => Emit.values locals
  | .statement => Emit.statements locals

def EmittedIn (C : Coding) : Role → Tree → List Instruction → Prop
  | .value => EmittedValue C
  | .statement => EmittedStatement C

def EmittedAllIn (C : Coding) : Role → List Tree → List Instruction → Prop
  | .value => EmittedValues C
  | .statement => EmittedStatements C

theorem Emit.allInRole_nil (role : Role) (code : Code) :
    Emit.allInRole locals role code [] = pure code := by
  cases role <;> simp only [allInRole, values, statements]

theorem Emit.allInRole_cons (role : Role) (code : Code) (t : Tree) (rest : List Tree) :
    Emit.allInRole locals role code (t :: rest) =
      (Emit.node locals t >>= Emit.inRole locals role t) >>= fun c =>
        Emit.allInRole locals role (code ++ c) rest := by
  cases role <;> simp only [allInRole, inRole, values, statements, bind_assoc]

def EmitsNode (locals : Locals) (t : Tree) : Prop :=
  Emits (Overflows locals t) (Emit.node locals t) fun code cs =>
    Emitted ⟨storageOf locals, cs⟩ t code.toList

/-- Behind the code of a node comes what its role asks for. -/
theorem EmitsNode.inRole (h : EmitsNode locals t) (role : Role)
    (hF : ∀ e, Overflows locals t e → F e) :
    Emits F (Emit.node locals t >>= Emit.inRole locals role t) fun code cs =>
      EmittedIn ⟨storageOf locals, cs⟩ role t code.toList := by
  refine .bind (h.mono hF fun _ _ h => h) fun code => ?_
  have hslot := fun x (hs : t.store = some x) => (Emits.slot? locals x).mono
    (fun e he => hF e fun h => he (h.self.1 x hs)) fun _ _ h => h
  cases role with
  | value =>
    simp only [Emit.inRole, Emit.asValue, EmittedIn]
    cases hs : t.store with
    | none => exact .pure fun cs h => by simpa using EmittedValue.intro h (.plain hs)
    | some x =>
      refine .bind (hslot x hs) fun slot => ?_
      cases slot with
      | none => exact .pure fun cs hx h => by simpa using EmittedValue.intro h (.unplaced hs hx)
      | some n => exact .pure fun cs hn h => by simpa using EmittedValue.intro h (.placed hs hn)
  | statement =>
    simp only [Emit.inRole, Emit.asStatement, EmittedIn]
    cases hs : t.store with
    | none =>
      refine .pure fun cs h => ?_
      cases hv : t.ty.isValue with
      | true => simpa [Tree.leavesValue, hs, hv] using EmittedStatement.intro h (.discard hs hv)
      | false => simpa [Tree.leavesValue, hs, hv] using EmittedStatement.intro h (.nothing hs hv)
    | some x =>
      refine .bind (hslot x hs) fun slot => ?_
      cases slot with
      | none => exact .pure fun cs hx h => by simpa using EmittedStatement.intro h (.unplaced hs hx)
      | some n => exact .pure fun cs hn h => by simpa using EmittedStatement.intro h (.placed hs hn)

theorem emits_all (role : Role) {ts : List Tree} (h : ∀ t ∈ ts, EmitsNode locals t)
    (hF : ∀ t ∈ ts, ∀ e, Overflows locals t e → F e) :
    Emits F (Emit.allInRole locals role code ts) fun code' cs =>
      ∃ tail, EmittedAllIn ⟨storageOf locals, cs⟩ role ts tail ∧
        code'.toList = code.toList ++ tail := by
  induction ts generalizing code with
  | nil =>
    rw [Emit.allInRole_nil]
    exact .pure fun cs => ⟨[], by cases role <;> exact .nil, by simp⟩
  | cons t rest ih =>
    rw [Emit.allInRole_cons]
    rw [List.forall_mem_cons] at h hF
    refine .bind (h.1.inRole role hF.1) fun c => (ih h.2 hF.2).mono (fun _ h => h) ?_
    rintro code' cs ⟨tail, htail, heq⟩ hc
    exact ⟨_, by cases role <;> exact .cons hc htail, by simp [heq]⟩

/-- The code of a tree is right, and missing only where a number is too large. -/
theorem emits_node (locals : Locals) (t : Tree) : EmitsNode locals t := by
  induction t using Tree.induction with
  | const tag value =>
    rw [EmitsNode, Emit.node]
    refine .bind ((Emits.constant value (storageOf locals)).mono (fun _ he _ => he) fun _ _ h => h)
      fun n => ?_
    exact .pure fun cs hn => .const hn
  | load tag x =>
    rw [EmitsNode, Emit.node]
    -- the local has a slot, so only the number of the slot can be too large
    have hF : ∀ e, ((storageOf locals x).isRegister = false → e.IsOverflow) →
        Overflows locals (.load tag x) e := by
      intro e he h
      obtain ⟨k, hk⟩ := h.self.2
      exact he (by rw [hk]; rfl)
    refine .bind_known ((Emits.slot? locals x).mono hF fun _ _ h => h) fun slot hslot => ?_
    cases slot with
    | some n => exact .pure fun cs hn => .load hn
    | none =>
      refine .throw fun h => ?_
      obtain ⟨cs, hnone⟩ := hslot
      obtain ⟨k, hk⟩ := h.self.2
      rw [hk] at hnone
      cases hnone
  | failFast tag =>
    rw [EmitsNode, Emit.node]
    refine .bind ((Emits.intrinsic .failFast 0).mono (fun e he _ => he (by decide)) fun _ _ h => h)
      fun call => ?_
    exact .pure fun cs hcall => .failFast hcall
  | operator t f hf ih =>
    rw [EmitsNode, Emit.node_operator hf]
    refine .bind (emits_all .value ih fun a ha =>
      .of_part (Tree.parts_operator hf ▸ ha)) fun code => ?_
    refine .bind ((emits_performing f.operation f.operands.length).mono
      (fun e he h => he (h.self.operands_lt hf)) fun _ _ h => h) fun call => ?_
    refine .pure fun cs hcall hcode => ?_
    obtain ⟨tail, htail, heq⟩ := hcode
    rw [Array.toList_push, heq]
    exact .operator hf htail hcall
  | seq tag body ih =>
    rw [EmitsNode, Emit.node]
    refine (emits_all .statement ih fun a ha =>
      Overflows.of_part (t := .seq tag body) ha).mono (fun _ h => h) ?_
    rintro code cs ⟨tail, htail, heq⟩
    rw [heq]
    exact .seq htail
  | ifThen tag c y ihc ihy =>
    rw [EmitsNode, Emit.node, ← bind_assoc]
    refine .bind (ihc.inRole .value .of_part) fun test => ?_
    rw [← bind_assoc]
    refine .bind (ihy.inRole .statement .of_part) fun yes => ?_
    refine bind_operandOf fun skip => ?_
    refine .pure fun cs hskip hy hc => ?_
    have h : Emitted _ (.ifThen tag c y) _ := .ifThen hc hy (by simpa using hskip)
    simpa using h
  | ifElse tag c y n ihc ihy ihn =>
    rw [EmitsNode, Emit.node, ← bind_assoc]
    refine .bind (ihc.inRole .value .of_part) fun test => ?_
    rw [← bind_assoc]
    refine .bind (ihy.inRole .statement .of_part) fun yes => ?_
    refine bind_operandOf ?_
    intro skipYes
    rw [← bind_assoc]
    refine .bind (ihn.inRole .statement .of_part) fun no => ?_
    refine bind_operandOf fun skipNo => ?_
    refine .pure fun cs hskipNo hn hskipYes hy hc => ?_
    have h : Emitted _ (.ifElse tag c y n) _ :=
      .ifElse hc hy hn (by simpa using hskipYes) (by simpa using hskipNo)
    simpa using h
  | loop tag c b ihc ihb =>
    rw [EmitsNode, Emit.node, ← bind_assoc]
    refine .bind (ihc.inRole .value .of_part) fun test => ?_
    rw [← bind_assoc]
    refine .bind (ihb.inRole .statement .of_part) fun body => ?_
    refine bind_operandOf ?_
    intro back
    refine bind_operandOf ?_
    intro leave
    refine .pure fun cs hleave hback hb hc => ?_
    have h : Emitted _ (.loop tag c b) _ :=
      .loop hc hb (by simpa using hleave) (by simpa using hback)
    simpa using h
  | ret tag => exact .pure fun cs => .ret
  | retValue tag v ih =>
    rw [EmitsNode, Emit.node, ← bind_assoc]
    refine .bind (ih.inRole .value .of_part) fun code => ?_
    refine .pure fun cs hcode => ?_
    rw [Array.toList_push]
    exact .retValue hcode

end

/-! ## What trees hand on -/

/-- The callees of a tree are found, with as many parameters and the results that the types say. -/
def Finds (callee? : Nat → Option Callee) (Θ : Typing) : Prop :=
  ∀ n params result, Θ.callee n params result → callee? n = some ⟨params.length, result⟩

section

variable {callee? : Nat → Option Callee} {Θ : Typing} {t c : Tree} {f : Operator} {tag : Tag}

theorem performed?_intrinsic (callee? : Nat → Option Callee) (op : Intrinsic) (count : Fin 8) :
    Instruction.performed? callee? ⟨.intrinsic count, Int16.ofNat op.id⟩ =
      some (Operation.intrinsic op, count.val, yields op) := by
  cases op <;> rfl

/-- The instruction of an operator takes as many values as there are operands, and leaves one just
if the type has values. -/
theorem performed?_operator (hc : Finds callee? Θ) (ht : t.Typed Θ) (hf : t.operator? = some f)
    {call : Instruction} (hcall : Calls f.operation f.operands.length call) :
    call.performed? callee? = some (f.operation, f.operands.length, t.ty.isValue) := by
  have hintrinsic : ∀ {op : Intrinsic} {ts : List Tree}, yields op = t.ty.isValue →
      Calls (.intrinsic op) ts.length call →
        call.performed? callee? = some (.intrinsic op, ts.length, t.ty.isValue) := by
    rintro op ts hyields ⟨⟩
    rw [performed?_intrinsic, hyields]
  cases t <;> cases hf
  case call tag callee args =>
    cases hcall with
    | routine hn =>
      have hfound := hc _ _ _ ht.2.1
      simp only [Instruction.performed?, Instruction.number?_eq hn, Option.bind_some, hfound,
        Option.map_some, List.length_map]
      rfl
  case binary => exact hintrinsic (yields_of_check ht.2.2.1) hcall
  case unary => exact hintrinsic (yields_of_check ht.2.2.1) hcall
  case print => exact hintrinsic (yields_of_check ht.2.1) hcall
  case toReal tag a =>
    refine hintrinsic ?_ hcall
    rw [show (Tree.toReal tag a).ty = .real from ht.2.1]
    rfl

/-- What is asked of trees: they are typed, operands have no store, and all that is handed on are
values, that is what is loaded and the arguments of the routines that are called. -/
structure PlainTree (Θ : Typing) (t : Tree) : Prop where
  loads : ∀ x ∈ t.loads, (Θ.ofLocal x).isValue = true
  params : ∀ callee params result, Θ.callee callee params result → ∀ ty ∈ params, ty.isValue = true
  bare : t.Bare
  typed : t.Typed Θ

theorem PlainTree.node (h : PlainTree Θ t) {u : Tree} (hu : u ∈ t.nodes) : PlainTree Θ u :=
  ⟨fun x hx => h.loads x (Tree.loads_nodes t u hu hx), h.params, h.bare.nodes u hu,
    h.typed.nodes u hu⟩

theorem PlainTree.part (h : PlainTree Θ t) {a : Tree} (ha : a ∈ t.parts := by simp [Tree.parts]) :
    PlainTree Θ a :=
  h.node (Tree.mem_nodes_of_parts ha a.self_mem_nodes)

/-- What is asked of expressions. -/
structure PlainExpr (Θ : Typing) (t : Tree) : Prop extends PlainTree Θ t where
  expr : t.IsExpr

theorem PlainExpr.operand (h : PlainExpr Θ t) (hf : t.operator? = some f) {a : Tree}
    (ha : a ∈ f.operands) : PlainExpr Θ a :=
  ⟨h.part (Tree.parts_operator hf ▸ ha), (Tree.isExpr_operator hf).mp h.expr a ha⟩

theorem PlainExpr.isValue_operands (h : PlainExpr Θ t) (hf : t.operator? = some f) :
    ∀ a ∈ f.operands, a.ty.isValue = true := by
  by_cases hroutine : ∃ callee, f.operation = .routine callee
  · obtain ⟨callee, hroutine⟩ := hroutine
    have ht := h.typed
    cases t <;> cases hf <;> cases hroutine
    exact fun a ha => h.params _ _ _ ht.2.1 _ (List.mem_map_of_mem ha)
  · exact h.typed.isValue_operands hf fun callee hcallee => hroutine ⟨callee, hcallee⟩

/-- What is asked of statements. -/
structure PlainStmt (Θ : Typing) (t : Tree) : Prop extends PlainTree Θ t where
  inScope : ∃ Γ U, t.Scoped Γ U

namespace PlainStmt

theorem expr (h : PlainStmt Θ t) (he : t.IsExpr) : PlainExpr Θ t := ⟨h.toPlainTree, he⟩

theorem operator (h : PlainStmt Θ t) (hf : t.operator? = some f) : PlainExpr Θ t := by
  obtain ⟨Γ, U, hscoped⟩ := h.inScope
  exact h.expr ((Tree.scoped_operator hf).mp hscoped).isExpr

theorem seq {body : List Tree} (h : PlainStmt Θ (.seq tag body)) :
    tag.store = none ∧ ∀ t ∈ body, PlainStmt Θ t := by
  obtain ⟨Γ, U, hscoped⟩ := h.inScope
  obtain ⟨hstore, hbody⟩ := Tree.scoped_seq.mp hscoped
  refine ⟨hstore, fun t ht => ⟨h.part ht, ?_⟩⟩
  obtain ⟨Γ', U', -, ht'⟩ := hbody.of_mem ht
  exact ⟨Γ', U', ht'⟩

theorem ifThen {y : Tree} (h : PlainStmt Θ (.ifThen tag c y)) :
    tag.store = none ∧ c.store = none ∧ PlainExpr Θ c ∧ PlainStmt Θ y := by
  obtain ⟨Γ, U, hstore, hc, hy⟩ := h.inScope
  exact ⟨hstore, h.bare.1.1, ⟨h.part, hc.isExpr⟩, ⟨h.part, _, _, hy⟩⟩

theorem ifElse {y n : Tree} (h : PlainStmt Θ (.ifElse tag c y n)) :
    tag.store = none ∧ c.store = none ∧ PlainExpr Θ c ∧ PlainStmt Θ y ∧ PlainStmt Θ n := by
  obtain ⟨Γ, U, hstore, hc, hy, hn⟩ := h.inScope
  exact ⟨hstore, h.bare.1.1, ⟨h.part, hc.isExpr⟩, ⟨h.part, _, _, hy⟩, ⟨h.part, _, _, hn⟩⟩

theorem loop {b : Tree} (h : PlainStmt Θ (.loop tag c b)) :
    tag.store = none ∧ c.store = none ∧ PlainExpr Θ c ∧ PlainStmt Θ b := by
  obtain ⟨Γ, U, hstore, hc, hb⟩ := h.inScope
  exact ⟨hstore, h.bare.1.1, ⟨h.part, hc.isExpr⟩, ⟨h.part, _, _, hb⟩⟩

theorem retValue {v : Tree} (h : PlainStmt Θ (.retValue tag v)) :
    tag.store = none ∧ v.store = none ∧ PlainExpr Θ v := by
  obtain ⟨Γ, U, hstore, hv⟩ := h.inScope
  exact ⟨hstore, h.bare.1, ⟨h.part, hv.isExpr⟩⟩

end PlainStmt

end

end Bytecode

end Codewright
