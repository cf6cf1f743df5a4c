import Codewright.Proofs.Bytecode.Emission
import Codewright.Proofs.Bytecode.Machine
import Codewright.Proofs.SharedPlaces
import Codewright.Proofs.StoredLoads

/-!
# The machine follows the evaluation

From the beginning of the code of a node, the machine does what the evaluation of the node over
places comes to, and then stands behind the code: with the value on the stack where the node is an
operand (`follows_value`), and with the stack as before where it is a statement
(`follows_statement`).
-/

namespace Codewright

/-- The same meaning, with constants replaced by others. -/
def Interpretation.replaced {V E : Type} (I : Interpretation V E) (g : Value → Value) :
    Interpretation V E :=
  { I with constant := fun v => I.constant (g v) }

namespace Bytecode

open Evaluation Steps

/-! ## Code in its place -/

/-- A piece of code stands in a function from a position on. -/
def Stands (f : Function) (p : Nat) (code : List Instruction) : Prop :=
  ∀ (k : Nat) (i : Instruction), code[k]? = some i → f.code[p + k]? = some i

namespace Stands

variable {f : Function} {p : Nat} {i : Instruction} {a b : List Instruction}

theorem left (h : Stands f p (a ++ b)) : Stands f p a := by
  intro k i hi
  refine h k i ?_
  rwa [List.getElem?_append_left (List.getElem?_eq_some_iff.mp hi).1]

theorem right (h : Stands f p (a ++ b)) : Stands f (p + a.length) b := by
  intro k i hi
  rw [Nat.add_assoc]
  refine h (a.length + k) i ?_
  rwa [List.getElem?_append_right (Nat.le_add_right _ _), Nat.add_sub_cancel_left]

theorem head (h : Stands f p (i :: b)) : f.code[p]? = some i := h 0 i rfl

theorem tail (h : Stands f p (i :: b)) : Stands f (p + 1) b := right (a := [i]) h

end Stands

/-- What the code of a routine takes for granted: numbers of constants lead to the constants that
stand for them, slots exist, and callees take and give what the types say. -/
structure Serves {V E : Type} (S : Surroundings V E) (pooled : Value → Value) (f : Function)
    (C : Coding) (Θ : Typing) : Prop where
  constant : ∀ {value : Value} {n : Int16}, C.Number value n →
    ∃ k : Nat, n.toInt = k ∧ ∃ c, S.constants[k]? = some c ∧ c.value = pooled value
  slot : ∀ {x : LocalId} {k : Nat}, C.place x = .stack k → k < f.slots.size
  callees : Finds S.callee? Θ
  result : f.result = Θ.result

section

variable {V E : Type} {S : Surroundings V E} {pooled : Value → Value} {f : Function} {C : Coding}
  {Θ : Typing} {p : Nat} {stack : List V} {r : Run V E (Storage → V)}

/-! ## Single instructions -/

variable {n : Int16} {q : Nat}

theorem reaches_pushConst (hS : Serves S pooled f C Θ) {value : Value}
    (hn : C.Number value n) (hi : f.code[p]? = some ⟨.pushConst, n⟩) :
    Reaches S f 1 (stateAt p stack r)
      (stateAt (p + 1) (S.meaning.constant (pooled value) :: stack) r) := by
  obtain ⟨k, hk, c, hc, hvalue⟩ := hS.constant hn
  refine reaches_step hi ?_
  simp only [execute?, Instruction.number?_eq hk, Option.bind_some, hc, Option.map_some, hvalue]
  rfl

theorem reaches_pushLocal (hS : Serves S pooled f C Θ) {x : LocalId} (hn : C.Slot x n)
    (hi : f.code[p]? = some ⟨.pushLocal, n⟩) :
    Reaches S f 1 (stateAt p stack r) (stateAt (p + 1) (r.memory (C.place x) :: stack) r) := by
  obtain ⟨k, hk, hplace⟩ := hn
  refine reaches_step hi ?_
  simp only [execute?, Instruction.number?_eq hk, Option.bind_some, if_pos (hS.slot hplace), hplace]
  rfl

theorem reaches_popLocal (hS : Serves S pooled f C Θ) {x : LocalId} (hn : C.Slot x n)
    (hi : f.code[p]? = some ⟨.popLocal, n⟩) (v : V) :
    Reaches S f 1 (stateAt p (v :: stack) r)
      (stateAt (p + 1) stack { r with memory := (placed C.place).write r.memory x v }) := by
  obtain ⟨k, hk, hplace⟩ := hn
  have hslots : Function.update (fun n => r.memory (.stack n)) k v =
      fun n => (placed C.place).write r.memory x v (.stack n) := by
    funext m
    simp only [placed, hplace, reduceCtorEq, if_false]
    by_cases hm : m = k
    · subst hm
      rw [Function.update_self, Function.update_self]
    · have hne : Storage.stack m ≠ .stack k := fun h => hm (Storage.stack.inj h)
      rw [Function.update_of_ne hm, Function.update_of_ne hne]
  refine reaches_step hi ?_
  simp only [execute?, stateAt, Instruction.number?_eq hk, Option.bind_some,
    if_pos (hS.slot hplace), hslots]

theorem reaches_popDiscard (hi : f.code[p]? = some ⟨.popDiscard, 0⟩) (v : V) :
    Reaches S f 1 (stateAt p (v :: stack) r) (stateAt (p + 1) stack r) :=
  reaches_step hi rfl

theorem jump?_stateAt {op : Opcode} (h : (q : Int) = p + 1 + n.toInt) :
    (stateAt p stack r).jump? ⟨op, n⟩ = some (stateAt q stack r) := by
  have hq : ((p : Int) + 1 + n.toInt).toNat? = some q := by
    rw [← h]
    rfl
  simp only [State.jump?, stateAt, hq, Option.map_some]

theorem reaches_jump (hi : f.code[p]? = some ⟨.jump, n⟩)
    (h : (q : Int) = p + 1 + n.toInt) : Reaches S f 1 (stateAt p stack r) (stateAt q stack r) := by
  refine reaches_step hi ?_
  simp only [execute?, jump?_stateAt h, Option.map_some]

variable {least : Nat}

theorem follows_decided (hi : f.code[p]? = some ⟨.jumpFalse, n⟩)
    (h : (q : Int) = p + 1 + n.toInt) (v : V) :
    Follows S f least (stateAt p (v :: stack) r)
      (fun b r' => stateAt (if b then p + 1 else q) stack r')
      (decided (S.meaning.replaced pooled) (some v) r) := by
  have hjump :
    (stateAt p stack { r with events := r.events ++ (S.meaning.truth r.events v).1 }).jump?
      ⟨.jumpFalse, n⟩ = some (stateAt q stack _) := jump?_stateAt h
  refine .ok 1 (reaches_step hi ?_)
  show (if (S.meaning.truth r.events v).2 = true then some _ else Option.map Turn.goesOn _) =
    some (.goesOn (stateAt (if (S.meaning.truth r.events v).2 = true then p + 1 else q) stack _))
  cases (S.meaning.truth r.events v).2 with
  | true => rfl
  | false => exact congrArg (Option.map Turn.goesOn) hjump

/-- An operation takes its arguments from the stack and may leave a value there. -/
theorem follows_perform {o : Operation} {vs : List V} {leaves : Bool} {call : Instruction}
    (hi : f.code[p]? = some call)
    (hcall : ∀ s : State V E, execute? S f call s = s.perform? S.meaning o vs.length leaves) :
    Follows S f least (stateAt p (vs.reverse ++ stack) r)
      (fun v r' => stateAt (p + 1) (if leaves then v :: stack else stack) r')
      (perform (S.meaning.replaced pooled) o vs r) := by
  have hlength : vs.length ≤ (vs.reverse ++ stack).length := by simp
  have htake : ((vs.reverse ++ stack).take vs.length).reverse = vs := by
    rw [List.take_left' List.length_reverse, List.reverse_reverse]
  have hdrop : (vs.reverse ++ stack).drop vs.length = stack := List.drop_left' List.length_reverse
  have hstep := hcall (stateAt p (vs.reverse ++ stack) r)
  unfold State.perform? at hstep
  simp only [stateAt, hlength, if_true, htake, hdrop] at hstep
  unfold perform
  simp only [Interpretation.replaced]
  cases hp : S.meaning.perform r.events o vs with
  | mk more answer =>
    rw [hp] at hstep
    cases answer with
    | none => exact .failed 1 (ends_step hi hstep)
    | some v => exact .ok 1 (reaches_step hi hstep)

end

/-! ## Values -/

section

variable {V E M : Type} {I : Interpretation V E} {K : Keeping V M} {Θ : Typing}
  {fuel : Nat} {t : Tree} {ts : List Tree} {run run' : Run V E M}

theorem isSome_compute (ht : PlainExpr Θ t) {a : Option V}
    (h : compute I K fuel t run = .ok a run') : a.isSome = t.ty.isValue := by
  obtain ⟨⟨hl, -, -, ht⟩, he⟩ := ht
  cases hv : t.ty.isValue with
  | true => exact isSome_of_yields (he.yields ht hv) h
  | false =>
    induction t using Tree.induction with
    | const tag value =>
      rw [show (Tree.const tag value).ty = value.ty from ht.2] at hv
      cases value <;> cases hv
    | load tag x =>
      rw [show (Tree.load tag x).ty = Θ.ofLocal x from ht.2, hl x (by simp [Tree.loads])] at hv
      cases hv
    | failFast tag =>
      obtain ⟨_, _, -, h⟩ := bind_eq_ok.mp h
      cases h
      rfl
    | operator t f hf _ =>
      rw [compute_operator hf, operate, (ht.operator hf).2.1, hv] at h
      obtain ⟨_, _, -, h⟩ := bind_eq_ok.mp h
      obtain ⟨_, _, -, h⟩ := bind_eq_ok.mp h
      obtain ⟨_, _, -, h⟩ := bind_eq_ok.mp h
      cases h
      rfl
    | seq | ifThen | ifElse | loop | ret | retValue => exact he.elim

/-- Operands that are values are all there. -/
theorem length_computeAll (hts : ∀ t ∈ ts, t.store = none ∧ PlainExpr Θ t ∧ t.ty.isValue = true)
    {values : List (Option V)} (h : computeAll I K fuel ts run = .ok values run') :
    values.length = ts.length ∧ values.reduceOption.length = ts.length := by
  induction ts generalizing run values with
  | nil =>
    cases h
    exact ⟨rfl, rfl⟩
  | cons t rest ih =>
    obtain ⟨hunstored, ht, hvalue⟩ := hts t List.mem_cons_self
    rw [computeAll_cons] at h
    obtain ⟨a, run₁, ha, h⟩ := bind_eq_ok.mp h
    obtain ⟨as, run₂, has, h⟩ := bind_eq_ok.mp h
    cases h
    rw [eval_of_unstored hunstored] at ha
    obtain ⟨v, rfl⟩ := Option.isSome_iff_exists.mp ((isSome_compute ht ha).trans hvalue)
    obtain ⟨hlength, hvalues⟩ := ih (fun t ht => hts t (List.mem_cons_of_mem _ ht)) has
    exact ⟨congrArg (· + 1) hlength, by
      rw [List.reduceOption_cons_of_some, List.length_cons, hvalues]; rfl⟩

/-- Operands without a store are found as they were computed. -/
theorem given_unstored (hts : ∀ t ∈ ts, t.store = none) {values : List (Option V)}
    (hlength : values.length = ts.length) :
    given K (ts.map Tree.store) values run = .ok values.reduceOption run := by
  have hfound : ((ts.map Tree.store).zip values).filterMap
      (fun found => found.2.map (fetched K run.memory found.1)) = values.reduceOption := by
    induction ts generalizing values with
    | nil => simp [List.length_eq_zero_iff.mp hlength]
    | cons t rest ih =>
      cases values with
      | nil => cases hlength
      | cons a as =>
        have hrest := ih (fun t ht => hts t (List.mem_cons_of_mem _ ht)) (Nat.succ.inj hlength)
        rw [List.map_cons, hts t List.mem_cons_self, List.zip_cons_cons]
        cases a with
        | none => rw [List.reduceOption_cons_of_none, ← hrest]; rfl
        | some v => rw [List.reduceOption_cons_of_some, ← hrest]; rfl
  rw [given, hfound]

end

/-! ## Expressions -/

section

variable {V E : Type} {S : Surroundings V E} {pooled : Value → Value} {f : Function} {C : Coding}
  {Θ : Typing} {p fuel : Nat} {stack : List V} {r : Run V E (Storage → V)} {t : Tree} {g : Operator}
  {code : List Instruction}

theorem follows_values {ts : List Tree} (hts : ∀ t ∈ ts, t.store = none)
    (ih : ∀ t ∈ ts, ∀ (p : Nat) (stack : List V) (code : List Instruction)
      (r : Run V E (Storage → V)), Emitted C t code → Stands f p code →
      Follows S f fuel (stateAt p stack r)
        (fun v r' => stateAt (p + code.length) (v.toList ++ stack) r')
        (compute (S.meaning.replaced pooled) (placed C.place) fuel t r))
    (hcode : EmittedValues C ts code) (hat : Stands f p code) :
    Follows S f fuel (stateAt p stack r)
      (fun vs r' => stateAt (p + code.length) (vs.reduceOption.reverse ++ stack) r')
      (computeAll (S.meaning.replaced pooled) (placed C.place) fuel ts r) := by
  induction ts generalizing p stack code r with
  | nil =>
    cases hcode
    exact .ok 0 (.refl _)
  | cons t rest ihrest =>
    cases hcode with
    | @cons _ _ first more h hrest =>
      have hunstored := hts t List.mem_cons_self
      rw [computeAll_cons, eval_eq_compute hunstored]
      refine (ih t List.mem_cons_self p stack first r (h.of_store hunstored) hat.left).bind
        fun v r' _ => ?_
      refine (ihrest (fun t ht => hts t (List.mem_cons_of_mem _ ht))
        (fun t ht => ih t (List.mem_cons_of_mem _ ht)) hrest hat.right).bind fun vs r'' _ => ?_
      have hstack : vs.reduceOption.reverse ++ (v.toList ++ stack) =
          (v :: vs).reduceOption.reverse ++ stack := by
        cases v <;> simp [List.reduceOption_cons_of_none, List.reduceOption_cons_of_some]
      refine .ok 0 ?_
      rw [List.length_append, ← Nat.add_assoc, hstack]
      exact .refl _

theorem follows_statements {ts : List Tree}
    (ih : ∀ t ∈ ts, ∀ (p : Nat) (code : List Instruction) (r : Run V E (Storage → V)),
      EmittedStatement C t code → Stands f p code →
      Follows S f fuel (stateAt p stack r) (fun _ r' => stateAt (p + code.length) stack r')
        (eval (S.meaning.replaced pooled) (placed C.place) fuel t r))
    (hcode : EmittedStatements C ts code) (hat : Stands f p code) :
    Follows S f fuel (stateAt p stack r) (fun _ r' => stateAt (p + code.length) stack r')
      (runAll (S.meaning.replaced pooled) (placed C.place) fuel ts r) := by
  induction ts generalizing p code r with
  | nil =>
    cases hcode
    rw [runAll_nil]
    exact .ok 0 (.refl _)
  | cons t rest ihrest =>
    cases hcode with
    | cons h hrest =>
      rw [runAll_cons]
      refine (ih t List.mem_cons_self p _ r h hat.left).bind fun v r' _ => ?_
      rw [List.length_append, ← Nat.add_assoc]
      exact ihrest (fun t ht => ih t (List.mem_cons_of_mem _ ht)) hrest hat.right

variable (hS : Serves S pooled f C Θ)

include hS

/-- The machine computes an expression and leaves its value on the stack. -/
theorem follows_value (ht : PlainExpr Θ t) (hcode : Emitted C t code) (hat : Stands f p code) :
    Follows S f fuel (stateAt p stack r)
      (fun v r' => stateAt (p + code.length) (v.toList ++ stack) r')
      (compute (S.meaning.replaced pooled) (placed C.place) fuel t r) := by
  induction t using Tree.induction generalizing p stack r code with
  | const tag value =>
    cases hcode with
    | const hn => exact .ok 1 (reaches_pushConst hS hn hat.head)
    | operator hg => cases hg
  | load tag x =>
    cases hcode with
    | load hn =>
      have hpush : Reaches S f 1 (stateAt p stack r) _ := reaches_pushLocal hS hn hat.head
      exact .ok 1 hpush
    | operator hg => cases hg
  | failFast tag =>
    cases hcode with
    | failFast hcall =>
      cases hcall with
      | intrinsic op h =>
        have hexecute : ∀ s : State V E, execute? S f _ s =
            s.perform? S.meaning (.intrinsic .failFast) ([] : List V).length (yields .failFast) :=
          fun s => execute?_of_performed? (performed?_intrinsic _ .failFast ⟨0, h⟩)
        exact Follows.bind (follows_perform hat.head hexecute) fun v r' _ => .ok 0 (.refl _)
    | operator hg => cases hg
  | operator t g hg ih =>
    obtain ⟨more, call, rfl, hvalues, hcall⟩ := hcode.of_operator hg
    have hunstored : ∀ a ∈ g.operands, a.store = none := fun a ha =>
      ((Tree.bare_operator hg).mp ht.bare a ha).1
    have hplain : ∀ a ∈ g.operands, PlainExpr Θ a := fun a ha => ht.operand hg ha
    rw [compute_operator hg]
    refine Follows.bind (follows_values hunstored
      (fun a ha p stack code r h hat => ih a ha (hplain a ha) h hat) hvalues hat.left)
      fun values r₁ hvalues => ?_
    obtain ⟨hlength, hcount⟩ := length_computeAll
      (fun a ha => ⟨hunstored a ha, hplain a ha, ht.isValue_operands hg a ha⟩) hvalues
    have hgiven : given (placed C.place) (g.operands.map Tree.store) values r₁ = _ :=
      given_unstored hunstored hlength
    rw [bind_of_ok hgiven]
    have hexecute : ∀ s : State V E, execute? S f call s =
        s.perform? S.meaning g.operation values.reduceOption.length g.yields := by
      intro s
      rw [hcount, (ht.typed.operator hg).2.1]
      exact execute?_of_performed? (performed?_operator hS.callees ht.typed hg hcall)
    refine Follows.bind (follows_perform hat.right.head hexecute) fun v r' _ => ?_
    rw [List.length_append, List.length_singleton, ← Nat.add_assoc]
    cases g.yields <;> exact .ok 0 (.refl _)
  | seq | ifThen | ifElse | loop | ret | retValue => exact ht.expr.elim

/-! ## Statements -/

/-- The machine takes the value of a statement off the stack and stores it if it has a slot. -/
theorem follows_settle (hstores : Θ.Stores t.tag) {tail : List Instruction}
    (htail : C.Takes t tail) (hat : Stands f p tail) {v : Option V} (hv : v.isSome = t.ty.isValue) :
    Follows S f fuel (stateAt p (v.toList ++ stack) r)
      (fun _ r' => stateAt (p + tail.length) stack r') (settle (placed C.place) t.store v r) := by
  have hvalue : ∀ {x : LocalId}, t.store = some x → ∃ a, v = some a := fun hs =>
    Option.isSome_iff_exists.mp (hv.trans (hstores _ hs).2)
  cases htail with
  | nothing hs hty =>
    rw [hty, Option.isSome_eq_false_iff, Option.isNone_iff_eq_none] at hv
    subst hv
    rw [settle_no_value]
    exact .ok 0 (.refl _)
  | discard hs hty =>
    obtain ⟨a, rfl⟩ := Option.isSome_iff_exists.mp (hv.trans hty)
    rw [hs, settle_none]
    exact .ok 1 (reaches_popDiscard hat.head a)
  | unplaced hs hx =>
    obtain ⟨a, rfl⟩ := hvalue hs
    have hwrite : (placed C.place).write r.memory _ a = r.memory := if_pos hx
    simp only [settle, hs, hwrite]
    exact .ok 1 (reaches_popDiscard hat.head a)
  | placed hs hn =>
    obtain ⟨a, rfl⟩ := hvalue hs
    simp only [settle, hs]
    exact .ok 1 (reaches_popLocal hS hn hat.head a)

variable {tag : Tag} {c : Tree}

theorem follows_expr_statement (ht : PlainExpr Θ t) (hstores : Θ.Stores t.tag)
    (hcode : EmittedStatement C t code) (hat : Stands f p code) :
    Follows S f fuel (stateAt p stack r) (fun _ r' => stateAt (p + code.length) stack r')
      (eval (S.meaning.replaced pooled) (placed C.place) fuel t r) := by
  cases hcode with
  | intro h htail =>
    refine (follows_value hS ht h hat.left).bind fun v r' hv => ?_
    rw [List.length_append, ← Nat.add_assoc]
    exact follows_settle hS hstores htail hat.right (isSome_compute ht hv)

theorem follows_condition (hc : PlainExpr Θ c) (hunstored : c.store = none)
    (hbool : c.ty = .bool) {test : List Instruction}
    (htest : EmittedValue C c test) {n : Int16} {q : Nat} {rest : List Instruction}
    (hat : Stands f p (test ++ ⟨.jumpFalse, n⟩ :: rest))
    (hq : (q : Int) = p + test.length + 1 + n.toInt) :
    Follows S f fuel (stateAt p stack r)
      (fun b r' => stateAt (if b then p + test.length + 1 else q) stack r')
      ((eval (S.meaning.replaced pooled) (placed C.place) fuel c >>=
        decided (S.meaning.replaced pooled)) r) := by
  rw [eval_eq_compute hunstored]
  refine (follows_value hS hc (htest.of_store hunstored) hat.left).bind fun v r' hv => ?_
  have hsome : v.isSome = true := by
    rw [isSome_compute hc hv, hbool]
    rfl
  obtain ⟨a, rfl⟩ := Option.isSome_iff_exists.mp hsome
  exact follows_decided hat.right.head (by exact_mod_cast hq) a

/-- The machine runs a statement and leaves the stack as it was. -/
theorem follows_statement (ht : PlainStmt Θ t) (hcode : EmittedStatement C t code)
    (hat : Stands f p code) :
    Follows S f fuel (stateAt p stack r) (fun _ r' => stateAt (p + code.length) stack r')
      (eval (S.meaning.replaced pooled) (placed C.place) fuel t r) := by
  -- on the tree; the rounds of a loop are counted by the fuel, in `Follows.rounds`
  induction t using Tree.induction generalizing p r code with
  | const | load | failFast =>
    exact follows_expr_statement hS (ht.expr trivial) ht.typed.1 hcode hat
  | operator t g hg _ =>
    obtain ⟨Γ, U, hscoped⟩ := ht.inScope
    have he : t.IsExpr := ((Tree.scoped_operator hg).mp hscoped).isExpr
    exact follows_expr_statement hS (ht.expr he) (ht.typed.operator hg).1 hcode hat
  | seq tag body ih =>
    obtain ⟨hstore, hbody⟩ := ht.seq
    rw [eval_seq]
    cases hcode.of_void hstore ht.typed.1 with
    | seq h =>
      refine Follows.bind (follows_statements (fun t ht p code r h hat =>
        ih t ht (hbody t ht) h hat) h
        hat) fun _ r' _ => ?_
      exact .ok 0 (.refl _)
    | operator hg => cases hg
  | ifThen tag c y _ ihy =>
    obtain ⟨hstore, hunstored, hc, hy⟩ := ht.ifThen
    rw [eval_ifThen, ← bind_assoc]
    cases hcode.of_void hstore ht.typed.1 with
    | @ifThen _ _ _ test yes skip htest hyes hskip =>
      have hlength : (test ++ ⟨.jumpFalse, skip⟩ :: yes).length = test.length + 1 + yes.length := by
        rw [List.length_append, List.length_cons]
        omega
      have hend : ((p + (test.length + 1 + yes.length) : Nat) : Int) =
          p + test.length + 1 + skip.toInt := by
        rw [hskip]
        push_cast
        ring
      refine (follows_condition hS hc hunstored ht.typed.2.1 htest hat hend).bind fun b r' _ => ?_
      rw [hlength]
      cases b with
      | false => exact .ok 0 (.refl _)
      | true =>
        refine (ihy hy hyes hat.right.tail).bind fun _ r'' _ => .ok 0 ?_
        simp only [Nat.add_assoc]
        exact .refl _
    | operator hg => cases hg
  | ifElse tag c y n _ ihy ihn =>
    obtain ⟨hstore, hunstored, hc, hy, hn⟩ := ht.ifElse
    rw [eval_ifElse, ← bind_assoc]
    cases hcode.of_void hstore ht.typed.1 with
    | @ifElse _ _ _ _ test yes no skipYes skipNo htest hyes hno hskipYes hskipNo =>
      have hlength : (test ++ ⟨.jumpFalse, skipYes⟩ :: (yes ++ ⟨.jump, skipNo⟩ :: no)).length =
          test.length + 1 + yes.length + 1 + no.length := by
        simp only [List.length_append, List.length_cons]
        omega
      have helse : ((p + test.length + 1 + yes.length + 1 : Nat) : Int) =
          p + test.length + 1 + skipYes.toInt := by
        rw [hskipYes]
        push_cast
        ring
      have hend : ((p + (test.length + 1 + yes.length + 1 + no.length) : Nat) : Int) =
          (p + test.length + 1 + yes.length : Nat) + 1 + skipNo.toInt := by
        rw [hskipNo]
        push_cast
        ring
      have hbranches := hat.right.tail
      refine (follows_condition hS hc hunstored ht.typed.2.1 htest hat helse).bind fun b r' _ => ?_
      rw [hlength]
      cases b with
      | true =>
        refine (ihy hy hyes hbranches.left).bind fun _ r'' _ => ?_
        exact .ok 1 (reaches_jump hbranches.right.head hend)
      | false =>
        refine (ihn hn hno hbranches.right.tail).bind fun _ r'' _ => .ok 0 ?_
        simp only [Nat.add_assoc]
        exact .refl _
    | operator hg => cases hg
  | loop tag c b _ ihb =>
    obtain ⟨hstore, hunstored, hc, hb⟩ := ht.loop
    rw [eval_loop]
    cases hcode.of_void hstore ht.typed.1 with
    | @loop _ _ _ test body leave back htest hbody hleave hback =>
      have hlength :
        (test ++ (⟨.jumpFalse, leave⟩ :: (body ++ [⟨.jump, back⟩]) : List Instruction)).length =
          test.length + 1 + body.length + 1 := by
        simp only [List.length_append, List.length_cons, List.length_nil]
        omega
      have hend : ((p + (test.length + 1 + body.length + 1) : Nat) : Int) =
          p + test.length + 1 + leave.toInt := by
        rw [hleave]
        push_cast
        ring
      have hstart : (p : Int) = (p + test.length + 1 + body.length : Nat) + 1 + back.toInt := by
        rw [hback]
        push_cast
        ring
      have hround := hat.right.tail
      have hrounds := Follows.rounds
        (fun r => follows_condition hS hc hunstored ht.typed.2.1 htest hat hend)
        (fun r => ihb hb hbody hround.left)
        (fun r => reaches_jump hround.right.head hstart) (le_refl fuel) r
      refine hrounds.bind fun _ r' _ => ?_
      rw [hlength]
      exact .ok 0 (.refl _)
    | operator hg => cases hg
  | ret tag =>
    obtain ⟨Γ, U, hscoped⟩ := ht.inScope
    have hstore : (Tree.ret tag).store = none := hscoped
    rw [eval_of_unstored hstore]
    cases hcode.of_void hstore ht.typed.1 with
    | ret =>
      have hresult : f.result.isValue = false := by
        rw [hS.result, ht.typed.2]
        rfl
      refine .returned 1 (ends_step hat.head ?_)
      simp [execute?, hresult, stateAt]
    | operator hg => cases hg
  | retValue tag v _ =>
    obtain ⟨hstore, hunstored, hv⟩ := ht.retValue
    rw [eval_retValue, eval_eq_compute hunstored]
    cases hcode.of_void hstore ht.typed.1 with
    | retValue h =>
      refine (follows_value hS hv (h.of_store hunstored) hat.left).bind fun a r' ha => ?_
      have hresult : a.isSome = f.result.isValue := by
        rw [isSome_compute hv ha, hS.result, ht.typed.2.2.1]
      refine .returned 1 (ends_step hat.right.head ?_)
      cases a with
      | none =>
        have hresult : f.result.isValue = false := hresult.symm
        simp [execute?, hresult, stateAt]
      | some w =>
        have hresult : f.result.isValue = true := hresult.symm
        simp [execute?, hresult, stateAt]
    | operator hg => cases hg

end

end Bytecode

end Codewright
