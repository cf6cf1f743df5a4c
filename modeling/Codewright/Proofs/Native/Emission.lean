import Codewright.Native.Emit
import Codewright.Proofs.WellTyped

/-!
# Emission of machine code

What the code of a tree looks like (`Computed`), as lists of instructions and without the bytes, the
state and the errors of the emission. Code is straight: each operand is computed and stored in turn,
then the operator reads the places of its operands, computes in registers of its own and moves the
value to the place of its store.

The emission either writes such code or fails. When it fails, that is because the processor part of
the compiler does not know a construct or because a number is too large, provided that every local
that is read has a place (`Emittable`).
-/

namespace Codewright

/-- A target gives up on a program that it cannot do, and there is no fault of the compiler. -/
def GenerationError.IsRefusal : GenerationError → Prop
  | .notImplemented _ | .displacementOutOfRange _ | .operandOverflow _ _ => True
  | .missingFunction _ | .internal _ => False

namespace Native

/-! ## Steps of emission -/

/-- The bytes of instructions, one behind the other. -/
inductive Encoded : List Instruction → List UInt8 → Prop
  | nil : Encoded [] []
  | cons {i : Instruction} {is : List Instruction} {b bs : List UInt8} (hi : i.bytes = .ok b)
    (his : Encoded is bs) : Encoded (i :: is) (b ++ bs)

theorem Encoded.append {is js : List Instruction} {bs cs : List UInt8} (h : Encoded is bs)
    (h' : Encoded js cs) : Encoded (is ++ js) (bs ++ cs) := by
  induction h with
  | nil => exact h'
  | cons hi _ ih =>
    rw [List.cons_append, List.append_assoc]
    exact .cons hi ih

/-- A step of emission writes instructions so that `Q` holds, or fails with an error in `F`. -/
def Writes {α : Type} (F : GenerationError → Prop) (x : Emit α) (Q : α → List Instruction → Prop) :
    Prop :=
  ∀ code : Code,
    match x code with
    | .ok a code' => ∃ is bytes, Encoded is bytes ∧ code' = code ++ bytes ∧ Q a is
    | .error e _ => F e

namespace Writes

open Steps

variable {α β : Type} {F F' : GenerationError → Prop} {x : Emit α} {g : α → Emit β}
  {Q Q' : α → List Instruction → Prop} {R : β → List Instruction → Prop}

theorem mono (h : Writes F x Q) (hF : ∀ e, F e → F' e) (hQ : ∀ a is, Q a is → Q' a is) :
    Writes F' x Q' := by
  intro code
  have := h code
  cases hx : x code with
  | ok a code' =>
    rw [hx] at this
    obtain ⟨is, bytes, hbytes, hcode, hq⟩ := this
    exact ⟨is, bytes, hbytes, hcode, hQ a is hq⟩
  | error e code' =>
    rw [hx] at this
    exact hF e this

theorem pure {a : α} (h : Q a []) : Writes F (Pure.pure a) Q :=
  fun _ => ⟨[], [], .nil, Array.appendList_nil.symm, h⟩

theorem throw {e : GenerationError} (h : F e) : Writes F (MonadExcept.throw e : Emit α) Q :=
  fun _ => h

theorem bind (hx : Writes F x Q)
    (hg : ∀ a is, Q a is → Writes F (g a) fun b js => R b (is ++ js)) : Writes F (x >>= g) R := by
  intro code
  have h := hx code
  rw [bind_apply]
  cases hr : x code with
  | error e code₁ => rwa [hr] at h
  | ok a code₁ =>
    rw [hr] at h
    obtain ⟨is, bytes, hbytes, rfl, hq⟩ := h
    have h' := hg a is hq (code ++ bytes)
    dsimp only
    cases hr' : g a (code ++ bytes) with
    | error e code₂ => rwa [hr'] at h'
    | ok b code₂ =>
      rw [hr'] at h'
      obtain ⟨js, bytes', hbytes', rfl, hR⟩ := h'
      exact ⟨is ++ js, bytes ++ bytes', hbytes.append hbytes', by rw [← Array.toList_inj]; simp, hR⟩

theorem instruction {i : Instruction} (h : ∀ e, i.bytes = .error e → F e) :
    Writes F (Emit.instruction i) fun _ is => is = [i] := by
  intro code
  unfold Emit.instruction
  cases hi : i.bytes with
  | error e => exact h e hi
  | ok b => exact ⟨[i], b ++ [], .cons hi .nil, by rw [List.append_nil], rfl⟩

end Writes

/-! ## Moves -/

theorem general_eq_ok {r : Register} (h : r.isVector = false) : general r = .ok r := by
  simp [general, h]

theorem vector_eq_ok {r : Register} (h : r.isVector = true) : vector r = .ok r.encoding := by
  simp [vector, h]

def moveCode (dst src : Location) : List Instruction :=
  if dst = src then []
  else
    match dst, src with
    | .register d, .register s =>
      match Register.isVector d, Register.isVector s with
      | false, false => [.move d s]
      | true, true => [.moveReal d s]
      | true, false => [.toVector d s]
      | false, true => [.toGeneral d s]
    | .register d, .stack s => [if Register.isVector d then .loadReal d s else .load d s]
    | .stack d, .register s => [if Register.isVector s then .storeReal d s else .store d s]
    | .stack d, .stack s => [.load .r11 s, .store d .r11]

/-- The instructions that put a constant into a place. -/
def constantCode (dst : Location) (value : Value) : List Instruction :=
  match dst with
  | .register r =>
    if Register.isVector r then [.loadImmediate .r11 value.toBits.toInt64, .toVector r .r11]
    else [.loadImmediate r value.toBits.toInt64]
  | .stack d => [.loadImmediate .r11 value.toBits.toInt64, .store d .r11]

/-- The instructions that move a value to the place of a store. -/
def settleCode (store : Option Location) (computed : Location) : List Instruction :=
  match store with
  | some dst => moveCode dst computed
  | none => []

/-- The instructions that leave a function with a frame. -/
def epilogueCode (size : Nat) : List Instruction :=
  (if size > 0 then [.release size.toUInt32] else []) ++ [.ret]

def prologueCode (size : Nat) : List Instruction :=
  if size > 0 then [.reserve size.toUInt32] else []

section

variable {F : GenerationError → Prop}

theorem writes_known {i : Instruction} {b : List UInt8} (h : i.bytes = .ok b) :
    Writes F (Emit.instruction i) fun _ is => is = [i] :=
  .instruction fun e he => by rw [h] at he; cases he

theorem writes_two {i j : Instruction} {b c : List UInt8} (hi : i.bytes = .ok b)
    (hj : j.bytes = .ok c) :
    Writes F (do Emit.instruction i; Emit.instruction j) fun _ is => is = [i, j] := by
  refine (writes_known hi).bind fun _ is his => ?_
  refine (writes_known hj).mono (fun _ he => he) fun _ js hjs => ?_
  rw [his, hjs]
  rfl

theorem writes_move (dst src : Location) :
    Writes F (Emit.move dst src) fun _ is => is = moveCode dst src := by
  unfold Emit.move moveCode
  by_cases heq : dst = src
  · rw [if_pos heq, if_pos heq]
    exact .pure rfl
  rw [if_neg heq, if_neg heq]
  cases dst with
  | register d =>
    cases src with
    | register s =>
      dsimp only
      cases hd : d.isVector <;> cases hs : s.isVector
      · exact writes_known (by rw [Instruction.bytes, general_eq_ok hd, general_eq_ok hs]; rfl)
      · exact writes_known (by rw [Instruction.bytes, general_eq_ok hd, vector_eq_ok hs]; rfl)
      · exact writes_known (by rw [Instruction.bytes, vector_eq_ok hd, general_eq_ok hs]; rfl)
      · exact writes_known (by rw [Instruction.bytes, vector_eq_ok hd, vector_eq_ok hs]; rfl)
    | stack s =>
      dsimp only
      cases hd : d.isVector
      · exact writes_known
          (by rw [if_neg Bool.false_ne_true, Instruction.bytes, general_eq_ok hd]; rfl)
      · exact writes_known (by rw [if_pos rfl, Instruction.bytes, vector_eq_ok hd]; rfl)
  | stack d =>
    cases src with
    | register s =>
      dsimp only
      cases hs : s.isVector
      · exact writes_known
          (by rw [if_neg Bool.false_ne_true, Instruction.bytes, general_eq_ok hs]; rfl)
      · exact writes_known (by rw [if_pos rfl, Instruction.bytes, vector_eq_ok hs]; rfl)
    | stack s => exact writes_two rfl rfl

theorem writes_loadConstant (dst : Location) (value : Value) :
    Writes F (Emit.loadConstant dst value) fun _ is => is = constantCode dst value := by
  unfold Emit.loadConstant constantCode
  cases dst with
  | register r =>
    dsimp only
    cases hr : r.isVector
    · rw [if_neg Bool.false_ne_true, if_neg Bool.false_ne_true]
      exact writes_known (by rw [Instruction.bytes, general_eq_ok hr]; rfl)
    · rw [if_pos rfl, if_pos rfl]
      exact writes_two rfl (by rw [Instruction.bytes, vector_eq_ok hr]; rfl)
  | stack d => exact writes_two rfl rfl

theorem writes_settle (store : Option Location) (computed : Location) :
    Writes F (Emit.settle store computed) fun l is =>
      l = some (store.getD computed) ∧ is = settleCode store computed := by
  unfold Emit.settle settleCode
  cases store with
  | none => exact .pure ⟨rfl, rfl⟩
  | some dst =>
    refine (writes_move dst computed).bind fun _ is his => .pure ⟨rfl, ?_⟩
    rw [his, List.append_nil]

theorem bytes_stackPointer {extension : UInt8} {size : UInt32} {e : GenerationError}
    (h : stackPointerBytes extension size = .error e) : e.IsRefusal := by
  unfold stackPointerBytes at h
  split at h
  · cases h
  · split at h
    · cases h
    · cases h
      trivial

theorem writes_epilogue (frame : Frame) (hF : ∀ e : GenerationError, e.IsRefusal → F e) :
    Writes F (Emit.epilogue frame) fun _ is => is = epilogueCode frame.size := by
  unfold Emit.epilogue epilogueCode
  split
  · have hrelease : ∀ e, (Instruction.release frame.size.toUInt32).bytes = .error e → F e :=
      fun e he => hF e (bytes_stackPointer he)
    refine (Writes.instruction hrelease).bind fun _ is his => ?_
    refine (writes_known rfl).mono (fun _ he => he) fun _ js hjs => ?_
    rw [his, hjs]
  · exact writes_known rfl

end

/-! ## Locations -/

/-- Where a storage is. A slot is within the reach of a signed byte. -/
inductive Located : Storage → Option Location → Prop
  | nowhere : Located .unassigned none
  | register (r : Register) : Located (.register r) (some (.register r))
  | stack {slot : Nat} (h : slot * slotSize < 0x80) :
    Located (.stack slot) (some (.stack (Int8.ofNat (slot * slotSize))))

theorem Located.eq_unassigned {s : Storage} (h : Located s none) : s = .unassigned := by
  cases h
  rfl

/-- Where a node is stored. -/
inductive StoredAt (frame : Frame) : Option LocalId → Option Location → Prop
  | nothing : StoredAt frame none none
  | placed {x : LocalId} {l : Option Location} (h : Located (storageOf frame.locals x) l) :
    StoredAt frame (some x) l

theorem writes_location? {F : GenerationError → Prop} (s : Storage)
    (hF : ∀ e : GenerationError, e.IsRefusal → F e) :
    Writes F (Emit.location? s) fun l is => is = [] ∧ Located s l := by
  unfold Emit.location?
  cases s with
  | unassigned => exact .pure ⟨rfl, .nowhere⟩
  | register r => exact .pure ⟨rfl, .register r⟩
  | stack slot =>
    dsimp only
    split
    · next h => exact .pure ⟨rfl, .stack h⟩
    · exact .throw (hF _ trivial)

theorem writes_storeLocation? {F : GenerationError → Prop} (frame : Frame) (t : Tree)
    (hF : ∀ e : GenerationError, e.IsRefusal → F e) :
    Writes F (Emit.storeLocation? frame t) fun l is => is = [] ∧ StoredAt frame t.store l := by
  unfold Emit.storeLocation?
  cases t.store with
  | none => exact .pure ⟨rfl, .nothing⟩
  | some x => exact (writes_location? _ hF).mono (fun _ he => he) fun l is h => ⟨h.1, .placed h.2⟩

/-! ## Trees -/

/-- What an operator on operands at two locations comes to, and where. -/
inductive Operated (op : Intrinsic) (lhs rhs : Location) : (ty left right : Ty) →
    List Instruction → Location → Prop
  | real {o : RealOp} (ho : Emit.realOp? op = some o) :
    Operated op lhs rhs .real .real .real
      (moveCode (.register .xmm4) lhs ++ moveCode (.register .xmm5) rhs
        ++ [.arithReal o .xmm4 .xmm5]) (.register .xmm4)
  | int {o : IntOp} {left right : Ty} (ho : Emit.intOp? op = some o) :
    Operated op lhs rhs .int left right
      (moveCode (.register .r11) lhs ++ moveCode (.register .r10) rhs
        ++ [.arith o .r11 .r10]) (.register .r11)

mutual

/-- The code of a tree, and where its value is after it. -/
inductive Computed (frame : Frame) : Tree → List Instruction → Option Location → Prop
  | const {tag : Tag} {value : Value} {dst : Location} (hs : StoredAt frame tag.store (some dst)) :
    Computed frame (.const tag value) (constantCode dst value) (some dst)
  | dropped {tag : Tag} {value : Value} (hs : StoredAt frame tag.store none) :
    Computed frame (.const tag value) [] none
  | load {tag : Tag} {x : LocalId} {store : Option Location} {source : Location}
    (hs : StoredAt frame tag.store store) (hx : Located (storageOf frame.locals x) (some source)) :
    Computed frame (.load tag x) (settleCode store source) (some (store.getD source))
  | binary {tag : Tag} {op : Intrinsic} {left right : Tree} {store l r : Option Location}
    {lhs rhs computed : Location} {code code' code'' : List Instruction}
    (hs : StoredAt frame tag.store store) (hl : Computed frame left code l)
    (hlhs : StoredAt frame left.store (some lhs)) (hr : Computed frame right code' r)
    (hrhs : StoredAt frame right.store (some rhs))
    (ho : Operated op lhs rhs tag.ty left.ty right.ty code'' computed) :
    Computed frame (.binary tag op left right)
      (code ++ (code' ++ (code'' ++ settleCode store computed))) (some (store.getD computed))
  | toReal {tag : Tag} {operand : Tree} {store l : Option Location} {source : Location}
    {code : List Instruction} (hs : StoredAt frame tag.store store)
    (ho : Computed frame operand code l) (hsource : StoredAt frame operand.store (some source)) :
    Computed frame (.toReal tag operand)
      (code ++ (moveCode (.register .r11) source ++ (.convert .xmm4 .r11 ::
        settleCode store (.register .xmm4))))
      (some (store.getD (.register .xmm4)))
  | ret {tag : Tag} : Computed frame (.ret tag) (epilogueCode frame.size) none
  | retConst {tag : Tag} {value : Tree} {c : Value} (hc : Emit.unstoredConstant? value = some c) :
    Computed frame (.retValue tag value)
      (constantCode (Emit.resultLocation value.ty) c ++ epilogueCode frame.size) none
  | retValue {tag : Tag} {value : Tree} {source : Location} {code : List Instruction}
    (hc : Emit.unstoredConstant? value = none) (hv : Computed frame value code (some source)) :
    Computed frame (.retValue tag value)
      (code ++ (moveCode (Emit.resultLocation value.ty) source ++ epilogueCode frame.size)) none
  | seq {tag : Tag} {body : List Tree} {code : List Instruction} (h : ComputedAll frame body code) :
    Computed frame (.seq tag body) code none

inductive ComputedAll (frame : Frame) : List Tree → List Instruction → Prop
  | nil : ComputedAll frame [] []
  | cons {t : Tree} {ts : List Tree} {l : Option Location} {code rest : List Instruction}
    (ht : Computed frame t code l) (hts : ComputedAll frame ts rest) :
    ComputedAll frame (t :: ts) (code ++ rest)

end

/-- A node is stored somewhere. -/
def IsPlaced (frame : Frame) (t : Tree) : Prop :=
  ∃ x, t.store = some x ∧ storageOf frame.locals x ≠ .unassigned

/-- A node has code, as far as it is known to the target: what it reads has a place, and what is
returned is a value that is not stored. -/
def EmittableNode (frame : Frame) : Tree → Prop
  | .load _ x => storageOf frame.locals x ≠ .unassigned
  | .binary _ _ left right => IsPlaced frame left ∧ IsPlaced frame right
  | .toReal _ operand => IsPlaced frame operand
  | .retValue _ value => value.store = none ∧ value.IsExpr
  | _ => True

def Emittable (frame : Frame) (t : Tree) : Prop := ∀ u ∈ t.nodes, EmittableNode frame u

/-- The errors of a tree: refusals, if it can have code at all. -/
def Refuses (frame : Frame) (t : Tree) (e : GenerationError) : Prop :=
  Emittable frame t → e.IsRefusal

section

variable {frame : Frame} {t : Tree}

theorem Emittable.self (h : Emittable frame t) : EmittableNode frame t := h t t.self_mem_nodes

theorem writes_localLocation (x : LocalId) :
    Writes (fun e => storageOf frame.locals x ≠ .unassigned → e.IsRefusal)
      (Emit.localLocation frame x) fun l is => is = [] ∧ Located (storageOf frame.locals x)
      (some l) := by
  unfold Emit.localLocation
  refine (writes_location? _ fun _ he _ => he).bind fun l is his => ?_
  obtain ⟨rfl, hl⟩ := his
  cases l with
  | some l => exact .pure ⟨rfl, hl⟩
  | none => exact .throw fun hne => absurd hl.eq_unassigned hne

theorem writes_operandLocation (t : Tree) :
    Writes (fun e => IsPlaced frame t → e.IsRefusal) (Emit.operandLocation frame t)
      fun l is => is = [] ∧ StoredAt frame t.store (some l) := by
  unfold Emit.operandLocation
  refine (writes_storeLocation? frame t fun _ he _ => he).bind fun l is his => ?_
  obtain ⟨rfl, hl⟩ := his
  cases l with
  | some l => exact .pure ⟨rfl, hl⟩
  | none =>
    refine .throw ?_
    rintro ⟨x, hx, hne⟩
    rw [hx] at hl
    cases hl with
    | placed hl => exact absurd hl.eq_unassigned hne

theorem writes_binary {F : GenerationError → Prop} (op : Intrinsic) (ty left right : Ty)
    (lhs rhs : Location) (hF : ∀ e : GenerationError, e.IsRefusal → F e) :
    Writes F (Emit.binary op ty left right lhs rhs) fun l is =>
      Operated op lhs rhs ty left right is l := by
  unfold Emit.binary
  split
  · next h =>
    obtain ⟨rfl, rfl, rfl⟩ := h
    cases ho : Emit.realOp? op with
    | none => exact .throw (hF _ trivial)
    | some o =>
      refine (writes_move _ _).bind fun _ is his => (writes_move _ _).bind fun _ js hjs => ?_
      refine (writes_known rfl).bind fun _ ks hks => .pure ?_
      rw [his, hjs, hks, List.append_nil, ← List.append_assoc]
      exact .real ho
  · split
    · next h =>
      subst h
      cases ho : Emit.intOp? op with
      | none => exact .throw (hF _ trivial)
      | some o =>
        refine (writes_move _ _).bind fun _ is his => (writes_move _ _).bind fun _ js hjs => ?_
        have hbytes : ∃ b, (Instruction.arith o .r11 .r10).bytes = .ok b := by
          cases o <;> exact ⟨_, rfl⟩
        obtain ⟨b, hb⟩ := hbytes
        refine (writes_known hb).bind fun _ ks hks => .pure ?_
        rw [his, hjs, hks, List.append_nil, ← List.append_assoc]
        exact .int ho
    · exact .throw (hF _ trivial)

/-- The emission of a tree writes its code or refuses. -/
def WritesNode (frame : Frame) (t : Tree) : Prop :=
  Writes (Refuses frame t) (Emit.node frame t) fun l is => Computed frame t is l

/-- Below another node, the emission refuses what that node is refused for. -/
theorem WritesNode.below (h : WritesNode frame t) {u : Tree}
    (ht : t ∈ u.parts := by simp [Tree.parts]) :
    Writes (Refuses frame u) (Emit.node frame t) fun l is => Computed frame t is l :=
  Writes.mono h (fun _ he hu => he fun v hv => hu v (Tree.mem_nodes_of_parts ht hv)) fun _ _ h => h

theorem writes_statements {ts : List Tree} {F : GenerationError → Prop}
    (h : ∀ t ∈ ts, Writes F (Emit.node frame t) fun l is => Computed frame t is l) :
    Writes F (Emit.statements frame ts) fun _ is => ComputedAll frame ts is := by
  induction ts with
  | nil => exact .pure .nil
  | cons t rest ih =>
    rw [Emit.statements]
    refine (h t List.mem_cons_self).bind fun l is his => ?_
    refine (ih fun t ht => h t (List.mem_cons_of_mem _ ht)).mono (fun _ he => he) fun _ js hjs => ?_
    exact .cons his hjs

/-- An expression has its value somewhere, if it is no constant that is dropped. -/
theorem Computed.value {code : List Instruction} {l : Option Location} (h : Computed frame t code l)
    (he : t.IsExpr) (hs : t.store = none) (hc : Emit.unstoredConstant? t = none) : l ≠ none := by
  cases h with
  | dropped =>
    simp [Emit.unstoredConstant?, hs, Tree.constant?] at hc
  | const | load | binary | toReal => simp
  | ret | retConst | retValue | seq => exact he.elim

theorem refuses_of_isRefusal (e : GenerationError) (he : e.IsRefusal) :
    Refuses frame t e := fun _ => he

/-- What follows when it is known where a node is stored. -/
theorem writes_stored {α : Type} {f : Option Location → Emit α} {Q : α → List Instruction → Prop}
    (hf : ∀ store, StoredAt frame t.store store → Writes (Refuses frame t) (f store) Q) :
    Writes (Refuses frame t) (Emit.storeLocation? frame t >>= f) Q := by
  refine (writes_storeLocation? frame t refuses_of_isRefusal).bind fun store is his => ?_
  obtain ⟨rfl, hs⟩ := his
  exact hf store hs

theorem writes_node (frame : Frame) (t : Tree) : WritesNode frame t := by
  unfold WritesNode
  induction t using Tree.induction with
  | const tag value =>
    rw [Emit.node]
    refine writes_stored fun store hs => ?_
    cases store with
    | none => exact .pure (.dropped hs)
    | some dst =>
      refine (writes_loadConstant dst value).bind fun _ js hjs => .pure ?_
      rw [hjs, List.append_nil]
      exact .const hs
  | load tag x =>
    rw [Emit.node]
    refine writes_stored fun store hs => ?_
    refine ((writes_localLocation x).mono (fun e he h => he h.self) fun _ _ h => h).bind
      fun source is his => ?_
    obtain ⟨rfl, hx⟩ := his
    refine (writes_settle store source).mono (fun _ he => he) fun l js hjs => ?_
    rw [hjs.1, hjs.2]
    exact .load hs hx
  | operator t f hf ih =>
    cases t <;> cases hf
    case call.refl | unary.refl | print.refl =>
      rw [Emit.node]
      exact writes_stored fun _ _ => .throw fun _ => trivial
    case binary.refl tag op left right =>
      rw [Emit.node]
      refine writes_stored fun store hs => ?_
      refine (WritesNode.below (ih left (by simp))).bind fun l code hl => ?_
      refine ((writes_operandLocation left).mono (fun e he h => he h.self.1) fun _ _ h => h).bind
        fun lhs is his => ?_
      obtain ⟨rfl, hlhs⟩ := his
      refine (WritesNode.below (ih right (by simp))).bind fun r code' hr => ?_
      refine ((writes_operandLocation right).mono (fun e he h => he h.self.2) fun _ _ h => h).bind
        fun rhs is his => ?_
      obtain ⟨rfl, hrhs⟩ := his
      refine (writes_binary op _ _ _ lhs rhs refuses_of_isRefusal).bind fun computed code'' ho => ?_
      refine (writes_settle store computed).mono (fun _ he => he) fun l js hjs => ?_
      rw [hjs.1, hjs.2]
      exact .binary hs hl hlhs hr hrhs ho
    case toReal.refl tag operand =>
      rw [Emit.node]
      refine writes_stored fun store hs => ?_
      refine (WritesNode.below (ih operand (by simp))).bind fun l code hl => ?_
      refine ((writes_operandLocation operand).mono (fun e he h => he h.self) fun _ _ h => h).bind
        fun source is his => ?_
      obtain ⟨rfl, hsource⟩ := his
      refine (writes_move _ _).bind fun _ is his => (writes_known rfl).bind fun _ js hjs => ?_
      refine (writes_settle store _).mono (fun _ he => he) fun l ks hks => ?_
      rw [hks.1, hks.2, his, hjs]
      exact .toReal hs hl hsource
  | seq tag body ih =>
    rw [Emit.node]
    refine writes_stored fun _ _ => ?_
    refine (writes_statements fun t ht => WritesNode.below (u := .seq tag body) (ih t ht) ht).bind
      fun _ code hcode => .pure ?_
    rw [List.append_nil]
    exact .seq hcode
  | failFast | ifThen | ifElse | loop =>
    rw [Emit.node]
    exact writes_stored fun _ _ => .throw fun _ => trivial
  | ret tag =>
    rw [Emit.node]
    refine writes_stored fun _ _ => ?_
    refine (writes_epilogue frame refuses_of_isRefusal).bind fun _ js hjs => .pure ?_
    rw [hjs, List.append_nil]
    exact .ret
  | retValue tag value ih =>
    rw [Emit.node]
    refine writes_stored fun _ _ => ?_
    have hend : ∀ {code : List Instruction}, Computed frame (.retValue tag value)
        (code ++ epilogueCode frame.size) none →
        Writes (Refuses frame (.retValue tag value)) (do Emit.epilogue frame; return none)
          fun l is => Computed frame (.retValue tag value) (code ++ is) l := by
      intro code hcode
      refine (writes_epilogue frame refuses_of_isRefusal).bind fun _ js hjs => .pure ?_
      rwa [hjs, List.append_nil]
    dsimp only [List.nil_append]
    cases hc : Emit.unstoredConstant? value with
    | some c =>
      refine (writes_loadConstant _ c).bind fun _ js hjs => hend ?_
      rw [hjs]
      exact .retConst hc
    | none =>
      refine (WritesNode.below ih).bind fun l code hv => ?_
      cases l with
      | some source =>
        refine (writes_move _ source).bind fun _ js hjs => ?_
        simp only [← List.append_assoc]
        refine hend ?_
        rw [hjs, List.append_assoc]
        exact .retValue hc hv
      | none =>
        -- a value that is returned is somewhere
        have hfault : ∀ e, Refuses frame (.retValue tag value) e :=
          fun e he => absurd rfl (hv.value he.self.2 he.self.1 hc)
        exact (Writes.throw (Q := fun _ _ => False) (hfault _)).bind fun _ _ h => h.elim

theorem writes_routine (frame : Frame) (body : Tree) :
    Writes (Refuses frame body) (Emit.routine frame body) fun _ is => ∃ code l,
      Computed frame body code l ∧
        is = prologueCode frame.size ++ (code ++ epilogueCode frame.size) := by
  have hrest : Writes (Refuses frame body) (do let _ ← Emit.node frame body; Emit.epilogue frame)
      fun _ is => ∃ code l, Computed frame body code l ∧ is = code ++ epilogueCode frame.size := by
    refine Writes.bind (writes_node frame body) fun l code hcode => ?_
    refine (writes_epilogue frame refuses_of_isRefusal).mono (fun _ he => he) fun _ is his => ?_
    exact ⟨code, l, hcode, by rw [his]⟩
  unfold Emit.routine prologueCode
  split
  · have hreserve : ∀ e, (Instruction.reserve frame.size.toUInt32).bytes = .error e →
        Refuses frame body e := fun e he _ => bytes_stackPointer he
    refine (Writes.instruction hreserve).bind fun _ is his => hrest.mono (fun _ he => he) ?_
    rintro _ js ⟨code, l, hcode, rfl⟩
    exact ⟨code, l, hcode, by rw [his]⟩
  · exact hrest

end

end Native

end Codewright
