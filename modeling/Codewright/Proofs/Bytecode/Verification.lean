import Codewright.Proofs.Bytecode.Assembly
import Codewright.Proofs.Bytecode.Flow

/-!
# Emitted code can be verified

A verifier can find out without running it that the code of a function is in order: every
instruction finds on the stack what it takes, whichever way control has come to it, a return finds
just the result, control never runs past the end, and all numbers refer to something that exists.

The depths come from the types of the tree: the code of an expression leaves a value just if its
type has values, and the code of a statement leaves the stack as it was. That control does not run
past the end is due to the tree returning on every path.
-/

namespace Codewright.Bytecode

/-! ## What the types say about the stack -/

/-- The instructions take and put what the types of a tree ask for. -/
structure Weighs (effect : Instruction → Option (Nat × Nat)) (C : Coding) (Θ : Typing) : Prop where
  const : ∀ {value n}, C.Number value n → effect ⟨.pushConst, n⟩ = some (0, 1)
  load : ∀ {x n}, C.Slot x n → effect ⟨.pushLocal, n⟩ = some (0, 1)
  store : ∀ {x n}, C.Slot x n → effect ⟨.popLocal, n⟩ = some (1, 0)
  discard : effect ⟨.popDiscard, 0⟩ = some (1, 0)
  performed : ∃ callee?, Finds callee? Θ ∧ ∀ i o count leaves,
    Instruction.performed? callee? i = some (o, count, leaves) →
      effect i = some (count, if leaves then 1 else 0)
  jump : ∀ n, effect ⟨.jump, n⟩ = some (0, 0)
  jumpFalse : ∀ n, effect ⟨.jumpFalse, n⟩ = some (1, 0)
  ret : effect ⟨.ret, 0⟩ = some (if Θ.result = .void then 0 else 1, 0)

section

variable {effect : Instruction → Option (Nat × Nat)} {C : Coding} {Θ : Typing} {t : Tree}
  {f : Operator} {code : List Instruction}

/-- An instruction from which control just goes on. -/
def Plain (i : Instruction) : Prop := i.opcode ≠ .ret ∧ i.opcode.isJump = false

theorem Calls.plain {o : Operation} {count : Nat} {call : Instruction} (h : Calls o count call) :
    Plain call := by
  cases h <;> exact ⟨by simp, rfl⟩

theorem scan_single {i : Instruction} {pushes : Nat} (hi : effect i = some (0, pushes))
    (hplain : Plain i) (d : Nat) :
    scan effect [i] d = some (d + pushes) ∧ ∀ i' ∈ [i], Plain i' := by
  have hafter : depthAfter effect i (d + 0) = some (d + pushes) := depthAfter_of_effect hi hplain.1
  rw [Nat.add_zero] at hafter
  refine ⟨?_, fun i' hi' => List.mem_singleton.mp hi' ▸ hplain⟩
  rw [scan, hafter]
  rfl

theorem scan_values {ts : List Tree}
    (h : ∀ t ∈ ts, t.store = none ∧ ∀ code d, Emitted C t code →
      scan effect code d = some (d + 1) ∧ ∀ i ∈ code, Plain i)
    (hcode : EmittedValues C ts code) (d : Nat) :
    scan effect code d = some (d + ts.length) ∧ ∀ i ∈ code, Plain i := by
  induction ts generalizing code d with
  | nil =>
    cases hcode
    exact ⟨rfl, by simp⟩
  | cons t rest ih =>
    cases hcode with
    | cons ht hrest =>
      obtain ⟨hs, h₁⟩ := h t List.mem_cons_self
      obtain ⟨hscan, hplain⟩ := h₁ _ d (ht.of_store hs)
      obtain ⟨hscan', hplain'⟩ := ih (fun t ht => h t (List.mem_cons_of_mem _ ht)) hrest (d + 1)
      refine ⟨?_, fun i hi => (List.mem_append.mp hi).elim (hplain i) (hplain' i)⟩
      rw [scan_append, hscan, Option.bind_some, hscan', List.length_cons, Nat.add_assoc,
        Nat.add_comm 1]

/-- The code of an expression leaves a value just if its type has values. -/
theorem scan_expr (hw : Weighs effect C Θ) (t : Tree) (ht : PlainExpr Θ t)
    (hcode : Emitted C t code) (d : Nat) :
    scan effect code d = some (d + if t.ty.isValue then 1 else 0) ∧ ∀ i ∈ code, Plain i := by
  obtain ⟨callee?, hfinds, heffect⟩ := hw.performed
  induction t using Tree.induction generalizing code d with
  | const tag value =>
    cases hcode with
    | operator hf => cases hf
    | const hn =>
      have hvalue : (Tree.const tag value).ty.isValue = true := by
        rw [show (Tree.const tag value).ty = value.ty from ht.typed.2]
        cases value <;> rfl
      rw [hvalue]
      exact scan_single (hw.const hn) ⟨by simp, rfl⟩ d
  | load tag x =>
    cases hcode with
    | operator hf => cases hf
    | load hn =>
      have hvalue : (Tree.load tag x).ty.isValue = true := by
        rw [show (Tree.load tag x).ty = Θ.ofLocal x from ht.typed.2]
        exact ht.loads x (by simp [Tree.loads])
      rw [hvalue]
      exact scan_single (hw.load hn) ⟨by simp, rfl⟩ d
  | failFast tag =>
    cases hcode with
    | operator hf => cases hf
    | failFast hcall =>
      have hvoid : (Tree.failFast tag).ty.isValue = false := by
        rw [show (Tree.failFast tag).ty = .void from ht.typed.2]
        rfl
      rw [hvoid]
      refine scan_single ?_ hcall.plain d
      cases hcall with
      | intrinsic op h => exact heffect _ _ _ _ (performed?_intrinsic _ .failFast ⟨0, h⟩)
  | operator t f hf ih =>
    obtain ⟨values, call, rfl, hvalues, hcall⟩ := hcode.of_operator hf
    have hb := (Tree.bare_operator hf).mp ht.bare
    have hcalled := heffect _ _ _ _ (performed?_operator hfinds ht.typed hf hcall)
    obtain ⟨hscan, hplain⟩ := scan_values (d := d) (fun a ha => ⟨(hb a ha).1, fun code d hcode => by
      have := ih a ha (ht.operand hf ha) hcode d
      rwa [if_pos (ht.isValue_operands hf a ha)] at this⟩) hvalues
    refine ⟨?_, fun i hi => ?_⟩
    · rw [scan_append, hscan, Option.bind_some, scan, depthAfter_of_effect hcalled hcall.plain.1]
      rfl
    · rcases List.mem_append.mp hi with hi | hi
      · exact hplain i hi
      · rw [List.mem_singleton.mp hi]
        exact hcall.plain
  | seq | ifThen | ifElse | loop | ret | retValue => exact ht.expr.elim

/-! ## Statements -/

/-- The code of a statement leaves the stack empty as it was, and control comes to its end only if
the statement may not return. -/
structure Passable (effect : Instruction → Option (Nat × Nat)) (code : List Instruction)
    (returns : Bool) : Prop where
  level : Level effect code 0 0
  closed : ∃ L, Closed code L ∧ 0 ∈ L ∧ (returns = true → code.length ∉ L)

theorem Level.closed_all {d e : Nat} (h : Level effect code d e) :
    Closed code {k | k ≤ code.length} :=
  .all fun k i hi hjump => by
    obtain ⟨k', heq, hle, -⟩ := h.jumps k i hi hjump
    exact ⟨k', heq, hle⟩

theorem Level.passable (h : Level effect code 0 0) : Passable effect code false :=
  ⟨h, _, h.closed_all, Nat.zero_le _, by simp⟩

/-- One statement behind the other. What follows a return is not passed. -/
theorem Passable.append {rest : List Instruction} {r r' : Bool} (h : Passable effect code r)
    (h' : Passable effect rest r') : Passable effect (code ++ rest) (r || r') := by
  refine ⟨h.level.append h'.level, ?_⟩
  obtain ⟨L, hclosed, h0, hend⟩ := h.closed
  obtain ⟨L', hclosed', h0', hend'⟩ := h'.closed
  cases r with
  | true =>
    refine ⟨_, hclosed.append (.empty rest) (fun hmem => (hend rfl hmem).elim), .inl h0, ?_⟩
    rintro - (hmem | ⟨j, hj, -⟩)
    · have hle := hclosed.inside _ hmem
      have heq : (code ++ rest).length = code.length := by
        rw [List.length_append] at hle ⊢
        omega
      exact hend rfl (heq ▸ hmem)
    · exact hj
  | false =>
    refine ⟨_, h.level.closed_all.append hclosed' (fun _ => h0'), .inl (Nat.zero_le _), ?_⟩
    rintro hr (hmem | ⟨j, hj, heq⟩)
    · -- The second statement is empty here, so it would begin where it ends.
      have hle : (code ++ rest).length ≤ code.length := hmem
      have hnil : rest.length = 0 := by
        rw [List.length_append] at hle
        omega
      exact hend' hr (hnil ▸ h0')
    · rw [List.length_append, Nat.add_left_cancel_iff] at heq
      exact hend' hr (heq ▸ hj)

theorem passable_expr (hw : Weighs effect C Θ) (ht : PlainExpr Θ t)
    (hcode : EmittedStatement C t code) : Passable effect code false := by
  have hstores := ht.expr.stores_typed ht.typed
  cases hcode with
  | @intro _ inner tail h htail =>
    obtain ⟨hscan, hplain⟩ := scan_expr hw t ht h 0
    have htake : scan effect tail (0 + if t.ty.isValue then 1 else 0) = some 0 ∧
        ∀ i ∈ tail, Plain i := by
      have hone : ∀ {i : Instruction}, effect i = some (1, 0) → i.opcode ≠ .ret →
          scan effect [i] (0 + 1) = some 0 := by
        intro i hi hret
        rw [scan, depthAfter_of_effect hi hret]
        rfl
      cases htail with
      | nothing hs hvoid =>
        rw [hvoid]
        exact ⟨rfl, by simp⟩
      | discard hs hvalue =>
        rw [hvalue]
        exact ⟨hone hw.discard (by simp), by simp [Plain, Opcode.isJump]⟩
      | unplaced hs hx =>
        rw [show t.ty.isValue = true from (hstores _ hs).2]
        exact ⟨hone hw.discard (by simp), by simp [Plain, Opcode.isJump]⟩
      | placed hs hn =>
        rw [show t.ty.isValue = true from (hstores _ hs).2]
        exact ⟨hone (hw.store hn) (by simp), by simp [Plain, Opcode.isJump]⟩
    refine Level.passable (.straight ?_ fun i hi => ?_)
    · rw [scan_append, hscan, Option.bind_some, htake.1]
    · exact (List.mem_append.mp hi).elim (fun hi => (hplain i hi).2) fun hi => (htake.2 i hi).2

theorem passable_statements {ts : List Tree}
    (h : ∀ t ∈ ts, ∀ code, EmittedStatement C t code → Passable effect code t.returns)
    (hcode : EmittedStatements C ts code) : Passable effect code (Tree.anyReturns ts) := by
  induction ts generalizing code with
  | nil =>
    cases hcode
    exact (Level.nil 0).passable
  | cons t rest ih =>
    cases hcode with
    | cons ht hrest =>
      exact (h t List.mem_cons_self _ ht).append
        (ih (fun t ht => h t (List.mem_cons_of_mem _ ht)) hrest)

theorem level_condition (hw : Weighs effect C Θ) (ht : PlainExpr Θ t) (hs : t.store = none)
    (hbool : t.ty = .bool) (hcode : EmittedValue C t code) : Level effect code 0 1 := by
  obtain ⟨hscan, hplain⟩ := scan_expr hw t ht (hcode.of_store hs) 0
  rw [hbool] at hscan
  exact .straight hscan fun i hi => (hplain i hi).2

theorem Passable.ifElse (hw : Weighs effect C Θ) {test yes no : List Instruction} {r r' : Bool}
    {skipYes skipNo : Int16} (htest : Level effect test 0 1) (hyes : Passable effect yes r)
    (hno : Passable effect no r') (hskipYes : skipYes.toInt = yes.length + 1)
    (hskipNo : skipNo.toInt = no.length) :
    Passable effect (test ++ ⟨.jumpFalse, skipYes⟩ :: (yes ++ ⟨.jump, skipNo⟩ :: no))
        (r && r') := by
  have hlast : Level effect (⟨.jump, skipNo⟩ :: no) 0 0 := by
    refine hno.level.forward (hw.jump _) (by simp) hskipNo (le_refl _) ?_
    rw [List.take_length]
    exact hno.level.scan
  have hlevel :
      Level effect (test ++ ⟨.jumpFalse, skipYes⟩ :: (yes ++ ⟨.jump, skipNo⟩ :: no)) 0 0 := by
    refine htest.append ((hyes.level.append hlast).forward (n := yes.length + 1) (hw.jumpFalse _)
      (by simp) (by rw [hskipYes]; rfl) (by simp) ?_)
    rw [List.take_length_add_append, scan_append, hyes.level.scan, Option.bind_some]
    rw [List.take_succ_cons, List.take_zero, scan, depthAfter_of_effect (hw.jump _) (by simp)]
    rfl
  refine ⟨hlevel, ?_⟩
  by_cases hr : (r && r') = true
  · obtain ⟨hr, hr'⟩ := Bool.and_eq_true_iff.mp hr
    obtain ⟨L, hclosed, h0, hend⟩ := hyes.closed
    obtain ⟨L', hclosed', h0', hend'⟩ := hno.closed
    -- The jump behind the first branch is not reached.
    have hdead : Closed (⟨.jump, skipNo⟩ :: no) (behind 1 L') := by
      have := (Closed.empty [⟨.jump, skipNo⟩]).append hclosed' (by simp)
      rwa [Set.empty_union] at this
    have hbranches := hclosed.append hdead fun hmem => (hend hr hmem).elim
    have hrest := hbranches.jumpFalse (n := yes.length + 1) (.inl h0)
      (.inr ⟨1, ⟨0, h0', rfl⟩, rfl⟩) (by rw [hskipYes]; rfl)
    refine ⟨_, htest.closed_all.append hrest fun _ => .inl rfl, .inl (Nat.zero_le _), ?_⟩
    simp only [List.length_append, List.length_cons]
    rintro - (hmem | ⟨j, rfl | ⟨j, hj | ⟨-, ⟨m, hm, rfl⟩, rfl⟩, rfl⟩, heq⟩)
    · have hle : test.length + (yes.length + (no.length + 1) + 1) ≤ test.length := hmem
      omega
    · omega
    · have := hclosed.inside j hj
      omega
    · have hm' : m = no.length := by omega
      exact hend' hr' (hm' ▸ hm)
  · exact ⟨_, hlevel.closed_all, Nat.zero_le _, fun h => absurd h hr⟩

theorem Passable.ret (hw : Weighs effect C Θ) {d : Nat} (h : Level effect code 0 d)
    (hd : d = if Θ.result = .void then 0 else 1) : Passable effect (code ++ [⟨.ret, 0⟩]) true := by
  have hafter : depthAfter effect ⟨.ret, 0⟩ d = some 0 := by
    simp [depthAfter, hw.ret, hd]
  refine ⟨h.append (.straight (by rw [scan, hafter]; rfl) (by simp [Opcode.isJump])), ?_⟩
  refine ⟨_, h.closed_all.returns 0, Nat.zero_le _, fun _ hmem => ?_⟩
  have hle : (code ++ [(⟨.ret, 0⟩ : Instruction)]).length ≤ code.length := hmem
  rw [List.length_append, List.length_singleton] at hle
  omega

/-- The code of a statement can be passed, and ends where the statement does. -/
theorem passable (hw : Weighs effect C Θ) (hresult : Θ.result ≠ .void → Θ.result.isValue = true)
    (t : Tree) (ht : PlainStmt Θ t) (hcode : EmittedStatement C t code) :
    Passable effect code t.returns := by
  induction t using Tree.induction generalizing code with
  | const | load | failFast => exact passable_expr hw (ht.expr trivial) hcode
  | operator t f hf ih =>
    rw [Tree.returns_operator hf]
    exact passable_expr hw (ht.operator hf) hcode
  | seq tag body ih =>
    obtain ⟨hstore, hbody⟩ := ht.seq
    cases hcode.of_void hstore ht.typed.1 with
    | operator hf => cases hf
    | seq h => exact passable_statements (fun t ht code => ih t ht (hbody t ht)) h
  | ifThen tag c y ihc ihy =>
    obtain ⟨hstore, hunstored, hc, hy⟩ := ht.ifThen
    cases hcode.of_void hstore ht.typed.1 with
    | operator hf => cases hf
    | ifThen htest hyes hskip =>
      have htest := level_condition hw hc hunstored ht.typed.2.1 htest
      have hyes := (ihy hy hyes).level
      refine Level.passable (htest.append ?_)
      -- the jump leads behind the branch, where the stack is as deep as before it
      refine hyes.forward (hw.jumpFalse _) (by simp) hskip (le_refl _) ?_
      rw [List.take_length]
      exact hyes.scan
  | ifElse tag c y n ihc ihy ihn =>
    obtain ⟨hstore, hunstored, hc, hy, hn⟩ := ht.ifElse
    cases hcode.of_void hstore ht.typed.1 with
    | operator hf => cases hf
    | ifElse htest hyes hno hskipYes hskipNo =>
      exact .ifElse hw (level_condition hw hc hunstored ht.typed.2.1 htest) (ihy hy hyes)
        (ihn hn hno)
        hskipYes hskipNo
  | loop tag c b ihc ihb =>
    obtain ⟨hstore, hunstored, hc, hb⟩ := ht.loop
    cases hcode.of_void hstore ht.typed.1 with
    | operator hf => cases hf
    | loop htest hbody hleave hback =>
      have htest := level_condition hw hc hunstored ht.typed.2.1 htest
      exact Level.passable (htest.loop (ihb hb hbody).level (hw.jumpFalse _)
        (hw.jump _) hleave hback)
  | ret tag =>
    obtain ⟨Γ, U, hscoped⟩ := ht.inScope
    cases hcode.of_void hscoped ht.typed.1 with
    | operator hf => cases hf
    | ret =>
      exact .ret hw (.nil 0) (if_pos ht.typed.2).symm
  | retValue tag v ih =>
    obtain ⟨hstore, hunstored, hv⟩ := ht.retValue
    obtain ⟨-, hne, hty, -⟩ := ht.typed
    cases hcode.of_void hstore ht.typed.1 with
    | operator hf => cases hf
    | retValue h =>
      obtain ⟨hscan, hplain⟩ := scan_expr hw v hv (h.of_store hunstored) 0
      rw [hty, if_pos (hresult hne)] at hscan
      exact .ret hw (.straight hscan fun i hi => (hplain i hi).2) (if_neg hne).symm

end

/-! ## Programs -/

def Program.callee? (p : Program) (n : Nat) : Option Callee := p.functions[n]?.map Function.callee

/-- How many values an instruction of a function takes from the stack and how many it leaves there,
if what it refers to exists. -/
def Program.effect? (p : Program) (f : Function) (i : Instruction) : Option (Nat × Nat) :=
  match i.opcode with
  | .invalid => none
  | .pushConst => (i.number?.bind (p.constants[·]?)).map fun _ => (0, 1)
  | .pushLocal => (i.number?.bind (f.slots[·]?)).map fun _ => (0, 1)
  | .popLocal => (i.number?.bind (f.slots[·]?)).map fun _ => (1, 0)
  | .popDiscard => some (1, 0)
  | .call | .intrinsic _ => (i.performed? p.callee?).map fun (_, count, leaves) =>
    (count, if leaves then 1 else 0)
  | .ret => some (if f.result = .void then 0 else 1, 0)
  | .jump => some (0, 0)
  | .jumpFalse => some (1, 0)

/-- The depths of the stack before the instructions of a function, and behind the last one, are in
order. -/
structure Verified (p : Program) (f : Function) (depth : Nat → Nat) : Prop where
  start : depth 0 = 0
  /-- An instruction refers to something that exists and finds what it takes, and wherever control
  may go from it the depth is what it leaves. -/
  instruction : ∀ (k : Nat) (i : Instruction), f.code[k]? = some i → ∃ pops pushes,
    p.effect? f i = some (pops, pushes) ∧ pops ≤ depth k ∧
    ∀ q, Goes f.code.toList k q →
      ∃ k' : Nat, (k' : Int) = q ∧ k' ≤ f.code.size ∧ depth k' = depth k - pops + pushes
  /-- A return finds just the result. -/
  returns : ∀ (k : Nat) (i : Instruction), f.code[k]? = some i → i.opcode = .ret →
    depth k = if f.result = .void then 0 else 1
  /-- Control never comes to the end of the code. -/
  inside : ∀ q, Reachable f.code.toList q → ∃ k < f.code.size, (k : Int) = q

section

variable {effect : Instruction → Option (Nat × Nat)} {code : List Instruction} {d e k : Nat}
  {i : Instruction}

theorem scan_take (h : scan effect code d = some e) (k : Nat) :
    ∃ e', scan effect (code.take k) d = some e' := by
  rw [← List.take_append_drop k code, scan_append] at h
  obtain ⟨e', he', -⟩ := Option.bind_eq_some_iff.mp h
  exact ⟨e', he'⟩

/-- The depth behind an instruction follows from the one before it. -/
theorem scan_take_succ (hi : code[k]? = some i) (h : scan effect (code.take k) d = some e) :
    scan effect (code.take (k + 1)) d = depthAfter effect i e := by
  rw [List.take_add_one, hi, scan_append, h]
  exact Option.bind_fun_some _

theorem depthAfter_eq_some {e' : Nat} (h : depthAfter effect i e = some e') : ∃ pops pushes,
    effect i = some (pops, pushes) ∧ pops ≤ e ∧ (i.opcode = .ret → e = pops) ∧
      e' = e - pops + pushes := by
  obtain ⟨⟨pops, pushes⟩, heffect, h⟩ := Option.bind_eq_some_iff.mp h
  dsimp only at h
  split at h
  · next hle => exact ⟨pops, pushes, heffect, hle.1, hle.2, (Option.some.inj h).symm⟩
  · cases h

theorem Closed.reachable {L : Set Nat} (h : Closed code L) (h0 : 0 ∈ L) {q : Int}
    (hq : Reachable code q) : ∃ k ∈ L, (k : Int) = q := by
  induction hq with
  | start => exact ⟨0, h0, rfl⟩
  | @step k q _ hgoes ih =>
    obtain ⟨k', hk', heq⟩ := ih
    obtain rfl : k' = k := Int.ofNat_inj.mp heq
    exact h.closed k' hk' q hgoes

end

/-- Code that can be passed and that returns has depths in order. -/
theorem Passable.verified {p : Program} {f : Function}
    (h : Passable (p.effect? f) f.code.toList true) : ∃ depth, Verified p f depth := by
  have hscan := h.level.scan
  -- the depth before an instruction is the one behind the instructions above it
  let depth (k : Nat) : Nat := (scan (p.effect? f) (f.code.toList.take k) 0).getD 0
  have hdepth : ∀ k, scan (p.effect? f) (f.code.toList.take k) 0 = some (depth k) := by
    intro k
    obtain ⟨e, he⟩ := scan_take hscan k
    simp only [depth, he, Option.getD_some]
  have hafter : ∀ (k : Nat) (i : Instruction), f.code[k]? = some i → ∃ pops pushes,
      p.effect? f i = some (pops, pushes) ∧ pops ≤ depth k ∧ (i.opcode = .ret → depth k = pops) ∧
        depth (k + 1) = depth k - pops + pushes := by
    intro k i hi
    rw [← Array.getElem?_toList] at hi
    exact depthAfter_eq_some ((scan_take_succ hi (hdepth k)).symm.trans (hdepth (k + 1)))
  refine ⟨depth, rfl, fun k i hi => ?_, fun k i hi hret => ?_, fun q hq => ?_⟩
  · obtain ⟨pops, pushes, heffect, hle, -, hnext⟩ := hafter k i hi
    refine ⟨pops, pushes, heffect, hle, fun q hgoes => ?_⟩
    rw [← Array.getElem?_toList] at hi
    cases hgoes with
    | next hi' hret hjump =>
      exact ⟨k + 1, rfl, (List.getElem?_eq_some_iff.mp hi').1, hnext⟩
    | jump hi' hjump =>
      obtain rfl := Option.some.inj (hi.symm.trans hi')
      obtain ⟨k', heq, hle, hsame⟩ := h.level.jumps k i hi hjump
      refine ⟨k', heq, hle, ?_⟩
      rw [hdepth, hdepth] at hsame
      rw [Option.some.inj hsame, hnext]
  · obtain ⟨pops, pushes, heffect, -, hexact, -⟩ := hafter k i hi
    have hpops : p.effect? f i = some (if f.result = .void then 0 else 1, 0) := by
      simp [Program.effect?, hret]
    rw [heffect] at hpops
    rw [hexact hret]
    exact (Prod.mk.inj (Option.some.inj hpops)).1
  · obtain ⟨L, hclosed, h0, hend⟩ := h.closed
    obtain ⟨k, hk, heq⟩ := hclosed.reachable h0 hq
    have hle := hclosed.inside k hk
    refine ⟨k, Nat.lt_of_le_of_ne hle ?_, heq⟩
    rintro rfl
    exact hend rfl hk

section

variable {modules : List Surface.Module} {symbols : Symbols} {rs : List Routine} {p : Program}

/-- The instructions of a function take and put what the types of its routine ask for. -/
theorem weighs_effect? (hrs : BuiltProgram modules symbols rs)
    (hfs : List.Forall₂ (Generated p.constants) rs p.functions.toList) {r : Routine} {f : Function}
    (hf : Generated p.constants r f) :
    Weighs (p.effect? f) ⟨Target.bytecode.place r.removeSingleUses.1, p.constants⟩
      (r.removeSingleUses.1.typing symbols) where
  const := by
    rintro value n ⟨k, hn, c, hc, -⟩
    have hc : p.constants[k]? = some c := hc
    simp [Program.effect?, Instruction.number?_eq hn, hc]
  load := by
    rintro x n ⟨k, hn, hplace⟩
    simp [Program.effect?, Instruction.number?_eq hn, hf.slot_lt hplace]
  store := by
    rintro x n ⟨k, hn, hplace⟩
    simp [Program.effect?, Instruction.number?_eq hn, hf.slot_lt hplace]
  discard := rfl
  performed := by
    refine ⟨p.callee?, ?_, fun ⟨op, n⟩ o count leaves h => ?_⟩
    · rintro n params result ⟨full, g, hg, rfl, rfl, rfl⟩
      obtain ⟨f', hf', hparams, hresult⟩ := generated_entry hrs hfs hg
      rw [Array.getElem?_toList] at hf'
      simp [Program.callee?, Function.callee, hf', hparams, hresult]
    · cases op <;> first | cases h | simp only [Program.effect?, h, Option.map_some]
  jump := fun _ => rfl
  jumpFalse := fun _ => rfl
  ret := by
    have hresult : r.removeSingleUses.1.result = f.result :=
      (Routine.localType_congr (r.declared_removeSingleUses 0)).trans hf.result.symm
    show some _ = some _
    rw [← hresult]
    rfl

/-- If all parameters are values, a routine hands on values only. -/
theorem plainStmt_of_params (hrs : BuiltProgram modules symbols rs)
    (hvoid : ∀ m ∈ modules, ∀ d ∈ m.functions, ∀ a ∈ d.params, a.type ≠ .void) {n : Nat}
    {m : String} {d : Surface.Function} {r : Routine} (hd : (functionsOf modules)[n]? = some (m, d))
    (hb : r.Built symbols) (hof : r.Of (functionSymbol n m d) d) :
    PlainStmt (r.removeSingleUses.1.typing symbols) r.removeSingleUses.1.body := by
  have hvalues := forall_functionsOf.mpr hvoid
  refine plainStmt_removeSingleUses hb
    (hof.isValue_parameters hb.toWellScoped (hvalues _ (List.mem_of_getElem? hd)))
    (hb.removeSingleUses.typed _ (Routine.fits_typing symbols _) rfl) rfl ?_
  rintro n params result ⟨full, g, hg, rfl, rfl, rfl⟩
  exact hrs.lists.isValue_params hvalues (hrs.lists.place_of_function? hg)

end

/-- The code of every function of a compiled program can be verified, if no function takes a
parameter without values. -/
theorem compiled_functions_verified {options : Options} {modules : List Surface.Module}
    {p : Program} (h : (compile options modules).artifact = some (.bytecode p))
    (hvoid : ∀ m ∈ modules, ∀ d ∈ m.functions, ∀ a ∈ d.params, a.type ≠ .void) :
    ∀ f ∈ p.functions, ∃ depth, Verified p f depth := by
  intro f hf
  obtain ⟨symbols, rs, hrs, hfs⟩ := generated_of_compile h
  obtain ⟨n, m, d, r, hd, hb, hof, hgenerated⟩ :=
    generated_routine hrs hfs (Array.mem_toList_iff.mpr hf)
  have hb' := hb.removeSingleUses
  have hresult : r.removeSingleUses.1.result = .ofName d.result :=
    (Routine.localType_congr (r.declared_removeSingleUses 0)).trans hof.result
  have hpassable := passable (weighs_effect? hrs hfs hgenerated)
    (fun hne => by
      change r.removeSingleUses.1.result ≠ .void at hne
      change r.removeSingleUses.1.result.isValue = true
      rw [hresult] at hne ⊢
      cases hty : d.result <;> first | rfl | exact absurd (congrArg Ty.ofName hty) hne)
    r.removeSingleUses.1.body (plainStmt_of_params hrs hvoid hd hb hof) hgenerated.code
  rw [hb'.returns] at hpassable
  exact hpassable.verified

/-- A program with a loop and a call. -/
theorem compiled_functions_verified_descending :
    ∃ p, (compile { target := .bytecode, optimize := false } [Descending.program]).artifact =
        some (.bytecode p) ∧
      p.functions.size = 2 ∧ ∀ f ∈ p.functions, ∃ depth, Verified p f depth := by
  obtain ⟨p, -, hcompile, -, hfunctions⟩ := assemble_descending
  refine ⟨p, hcompile, ?_, compiled_functions_verified hcompile (by decide)⟩
  simpa using congrArg List.length hfunctions

end Codewright.Bytecode
