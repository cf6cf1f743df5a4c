import Codewright.Bytecode.Program
import Codewright.Proofs.Typing
import Codewright.Symbols

/-!
# The stack machine

What the instructions do. A function runs on a stack of its own and on slots of which the first hold
the arguments. As for trees, the meaning of constants, intrinsics and calls comes from outside; the
machine only brings arguments and results to the stack and back. Jumps count from the next
instruction.

An instruction that makes no sense where it stands, such as one that takes from an empty stack, a
jump out of the code or a slot that the function does not have, leaves the machine stuck.

`Follows` says that the machine does what a part of an evaluation came to. It composes along `>>=`
as the evaluation does, and counts steps, so that an evaluation that is cut off late means a machine
that runs long.
-/

namespace Codewright.Bytecode

/-! ## Instructions -/

/-- A function as its callers see it. -/
structure Callee where
  paramCount : Nat
  result : Ty

def Function.callee (f : Function) : Callee := ⟨f.paramCount, f.result⟩

/-- What code refers to by number: the meaning of operations, the constants of the program, and its
functions. -/
structure Surroundings (V E : Type) where
  meaning : Interpretation V E
  constants : Array Constant
  functions : Array FunctionSymbol

def Surroundings.callee? {V E : Type} (S : Surroundings V E) (n : Nat) : Option Callee :=
  S.functions[n]?.map fun f => ⟨f.params.length, f.result⟩

/-- The state of a function that runs. -/
structure State (V E : Type) where
  /-- The number of the next instruction. -/
  next : Nat := 0
  /-- The operand stack, its top first. -/
  stack : List V := []
  slots : Nat → V
  events : List E := []

/-- How far a run has come. -/
inductive Outcome (V : Type) where
  | returned (value : Option V)
  | failed
  | stuck
  | running
  deriving DecidableEq

inductive Turn (V E : Type) where
  | goesOn (s : State V E)
  | ends (outcome : Outcome V) (events : List E)

/-- The number that an operand stands for. -/
def Instruction.number? (i : Instruction) : Option Nat := i.operand.toInt.toNat?

theorem Instruction.number?_eq {op : Opcode} {n : Int16} {k : Nat} (h : n.toInt = k) :
    Instruction.number? ⟨op, n⟩ = some k := by
  rw [number?, h]
  rfl

/-- Whether an intrinsic leaves a value. -/
def yields (op : Intrinsic) : Bool :=
  match op.signature.result with
  | .fixed ty => ty.isValue
  | .sameAsOperand | .realOrInt => true

/-- The operation that an instruction performs, how many values it takes from the stack for it, and
whether it leaves one there. A call takes as many as its callee has parameters. -/
def Instruction.performed? (callee? : Nat → Option Callee) (i : Instruction) :
    Option (Operation × Nat × Bool) :=
  match i.opcode with
  | .call => i.number?.bind fun n => (callee? n).map fun c =>
    (.routine n, c.paramCount, c.result.isValue)
  | .intrinsic arity => (i.number?.bind Intrinsic.ofId?).map fun op =>
    (.intrinsic op, arity, yields op)
  | _ => none

/-- By the types, the value of an intrinsic is there just if its type has values. -/
theorem yields_of_check {op : Intrinsic} {types : List Ty} {ty : Ty}
    (h : op.check types = .ok ty) : yields op = ty.isValue := by
  by_cases hp : op = .print
  · subst hp
    rw [Intrinsic.resultType_of_check h]
    rfl
  by_cases hf : op = .failFast
  · subst hf
    rw [Intrinsic.resultType_of_check h]
    rfl
  rw [Intrinsic.isValue_of_check h hp hf]
  cases op <;> first | rfl | contradiction

namespace State

variable {V E : Type}

def push (s : State V E) (v : V) : State V E := { s with next := s.next + 1, stack := v :: s.stack }

def jump? (s : State V E) (i : Instruction) : Option (State V E) :=
  (s.next + 1 + i.operand.toInt).toNat?.map fun next => { s with next }

/-- Performs an operation on the `count` values on top of the stack, the deepest of them first. -/
def perform? (s : State V E) (I : Interpretation V E) (o : Operation) (count : Nat)
    (leaves : Bool) : Option (Turn V E) :=
  if count ≤ s.stack.length then
    match I.perform s.events o (s.stack.take count).reverse with
    | (more, none) => some (.ends .failed (s.events ++ more))
    | (more, some v) => some (.goesOn
      { s with
        next := s.next + 1
        stack := if leaves then v :: s.stack.drop count else s.stack.drop count
        events := s.events ++ more })
  else none

end State

section

variable {V E : Type} (S : Surroundings V E) (f : Function)

/-- Carries out an instruction. -/
def execute? (i : Instruction) (s : State V E) : Option (Turn V E) :=
  match i.opcode with
  | .invalid => none
  | .pushConst =>
    (i.number?.bind (S.constants[·]?)).map fun c => .goesOn (s.push (S.meaning.constant c.value))
  | .pushLocal => i.number?.bind fun n =>
    if n < f.slots.size then some (.goesOn (s.push (s.slots n))) else none
  | .popLocal =>
    match s.stack with
    | [] => none
    | v :: rest => i.number?.bind fun n =>
      if n < f.slots.size then
        some (.goesOn { s with
          next := s.next + 1, stack := rest, slots := Function.update s.slots n v })
      else none
  | .popDiscard =>
    match s.stack with
    | [] => none
    | _ :: rest => some (.goesOn { s with next := s.next + 1, stack := rest })
  | .call | .intrinsic _ => (i.performed? S.callee?).bind fun (operation, count, leaves) =>
    s.perform? S.meaning operation count leaves
  | .ret =>
    if f.result.isValue then s.stack.head?.map fun v => .ends (.returned (some v)) s.events
    else some (.ends (.returned none) s.events)
  | .jump => (s.jump? i).map .goesOn
  | .jumpFalse =>
    match s.stack with
    | [] => none
    | v :: rest =>
      let (more, holds) := S.meaning.truth s.events v
      let s := { s with stack := rest, events := s.events ++ more }
      if holds then some (.goesOn { s with next := s.next + 1 }) else (s.jump? i).map .goesOn

def step (s : State V E) : Turn V E :=
  ((f.code[s.next]?).bind fun i => execute? S f i s).getD (.ends .stuck s.events)

/-- What comes out within so many steps, and the events up to there. -/
def run : Nat → State V E → Outcome V × List E
  | 0, s => (.running, s.events)
  | n + 1, s =>
    match step S f s with
    | .goesOn s => run n s
    | .ends outcome events => (outcome, events)

end

/-! ## Runs -/

section

variable {V E : Type} {S : Surroundings V E} {f : Function} {s s' : State V E}

theorem execute?_of_performed? {i : Instruction} {o : Operation} {count : Nat} {leaves : Bool}
    (h : i.performed? S.callee? = some (o, count, leaves)) :
    execute? S f i s = s.perform? S.meaning o count leaves := by
  obtain ⟨op, n⟩ := i
  cases op <;> first | cases h | simp only [execute?, h, Option.bind_some]

/-- The events so far, after an instruction. -/
def Turn.events : Turn V E → List E
  | .goesOn s => s.events
  | .ends _ events => events

theorem State.events_jump? {i : Instruction} (h : s.jump? i = some s') : s'.events = s.events := by
  obtain ⟨next, -, rfl⟩ := Option.map_eq_some_iff.mp h
  rfl

theorem State.events_perform? {I : Interpretation V E} {o : Operation} {count : Nat} {leaves : Bool}
    {turn : Turn V E} (h : s.perform? I o count leaves = some turn) : s.events <+: turn.events := by
  unfold State.perform? at h
  split at h
  · split at h <;> cases h <;> exact List.prefix_append _ _
  · cases h

theorem events_execute? {i : Instruction} {turn : Turn V E} (h : execute? S f i s = some turn) :
    s.events <+: turn.events := by
  unfold execute? at h
  split at h
  · cases h
  · obtain ⟨c, -, rfl⟩ := Option.map_eq_some_iff.mp h
    exact List.prefix_rfl
  · obtain ⟨n, -, h⟩ := Option.bind_eq_some_iff.mp h
    split at h
    · cases h
      exact List.prefix_rfl
    · cases h
  · split at h
    · cases h
    · obtain ⟨n, -, h⟩ := Option.bind_eq_some_iff.mp h
      split at h
      · cases h
        exact List.prefix_rfl
      · cases h
  · split at h
    · cases h
    · cases h
      exact List.prefix_rfl
  · obtain ⟨performed, -, h⟩ := Option.bind_eq_some_iff.mp h
    exact State.events_perform? h
  · obtain ⟨performed, -, h⟩ := Option.bind_eq_some_iff.mp h
    exact State.events_perform? h
  · split at h
    · obtain ⟨v, -, rfl⟩ := Option.map_eq_some_iff.mp h
      exact List.prefix_rfl
    · cases h
      exact List.prefix_rfl
  · obtain ⟨s', hjump, rfl⟩ := Option.map_eq_some_iff.mp h
    exact (State.events_jump? hjump).symm ▸ List.prefix_rfl
  · split at h
    · cases h
    · dsimp only at h
      split at h
      · cases h
        exact List.prefix_append _ _
      · obtain ⟨s', hjump, rfl⟩ := Option.map_eq_some_iff.mp h
        rw [Turn.events, State.events_jump? hjump]
        exact List.prefix_append _ _

theorem events_step (s : State V E) : s.events <+: (step S f s).events := by
  unfold step
  cases h : (f.code[s.next]?).bind fun i => execute? S f i s with
  | none => exact List.prefix_rfl
  | some turn =>
    obtain ⟨i, -, h⟩ := Option.bind_eq_some_iff.mp h
    exact events_execute? h

theorem events_run (n : Nat) (s : State V E) : s.events <+: (run S f n s).2 := by
  induction n generalizing s with
  | zero => exact List.prefix_rfl
  | succ n ih =>
    have hstep := events_step (S := S) (f := f) s
    rw [run]
    cases h : step S f s with
    | goesOn s' =>
      rw [h] at hstep
      exact hstep.trans (ih s')
    | ends outcome events =>
      rw [h] at hstep
      exact hstep

/-- With more steps a run goes on, and a run that has ended stays as it is. -/
theorem run_add (n m : Nat) (s : State V E) :
    (run S f n s).2 <+: (run S f (n + m) s).2 ∧
      ((run S f n s).1 ≠ .running → run S f (n + m) s = run S f n s) := by
  induction n generalizing s with
  | zero => exact ⟨by rw [Nat.zero_add]; exact events_run m s, fun h => absurd rfl h⟩
  | succ n ih =>
    rw [Nat.succ_add, run, run]
    cases step S f s with
    | goesOn s' => exact ih s'
    | ends outcome events => exact ⟨List.prefix_rfl, fun _ => rfl⟩

/-- So many steps lead from one state to another. -/
def Reaches (S : Surroundings V E) (f : Function) (k : Nat) (s s' : State V E) : Prop :=
  ∀ n, run S f (k + n) s = run S f n s'

theorem Reaches.refl (s : State V E) : Reaches S f 0 s s :=
  fun n => by rw [Nat.zero_add]

theorem Reaches.trans {k k' : Nat} {s₁ s₂ s₃ : State V E} (h : Reaches S f k s₁ s₂)
    (h' : Reaches S f k' s₂ s₃) : Reaches S f (k + k') s₁ s₃ :=
  fun n => by rw [Nat.add_assoc, h, h']

/-- So many steps lead to the end of the run. -/
def Ends (S : Surroundings V E) (f : Function) (k : Nat) (s : State V E) (outcome : Outcome V)
    (events : List E) : Prop :=
  ∀ n, run S f (k + n) s = (outcome, events)

theorem Reaches.ends {k k' : Nat} {outcome : Outcome V} {events : List E} (h : Reaches S f k s s')
    (h' : Ends S f k' s' outcome events) : Ends S f (k + k') s outcome events :=
  fun n => by rw [Nat.add_assoc, h, h']

theorem reaches_step {i : Instruction} (hi : f.code[s.next]? = some i)
    (h : execute? S f i s = some (.goesOn s')) : Reaches S f 1 s s' := by
  intro n
  rw [Nat.add_comm, run]
  simp only [step, hi, Option.bind_some, h, Option.getD_some]

theorem ends_step {i : Instruction} {outcome : Outcome V} {events : List E}
    (hi : f.code[s.next]? = some i) (h : execute? S f i s = some (.ends outcome events)) :
    Ends S f 1 s outcome events := by
  intro n
  rw [Nat.add_comm, run]
  simp only [step, hi, Option.bind_some, h, Option.getD_some]

end

/-! ## The machine beside an evaluation -/

section

open Evaluation Steps

variable {V E : Type} {S : Surroundings V E} {f : Function} {α β : Type}

/-- The machine at an instruction, with a stack, and otherwise as far as a run over places: a slot
holds what the run has in that place. -/
def stateAt (p : Nat) (stack : List V) (r : Run V E (Storage → V)) : State V E where
  next := p
  stack := stack
  slots := fun n => r.memory (.stack n)
  events := r.events

/-- From a state the machine does what a part of an evaluation came to. Where that is a value, the
machine gets to where `land` says; where it is a loop cut off, the machine takes at least so many
steps. -/
inductive Follows (S : Surroundings V E) (f : Function) (least : Nat) (s : State V E)
    (land : α → Run V E (Storage → V) → State V E) :
    EStateM.Result (Stop V) (Run V E (Storage → V)) α → Prop
  | ok {a : α} {r : Run V E (Storage → V)} (k : Nat) (h : Reaches S f k s (land a r)) :
    Follows S f least s land (.ok a r)
  | returned {value : Option V} {r : Run V E (Storage → V)} (k : Nat)
    (h : Ends S f k s (.returned value) r.events) :
    Follows S f least s land (.error (.returned value) r)
  | failed {r : Run V E (Storage → V)} (k : Nat) (h : Ends S f k s .failed r.events) :
    Follows S f least s land (.error .failed r)
  | exhausted {r : Run V E (Storage → V)} {s' : State V E} (k : Nat) (hk : least ≤ k)
    (h : Reaches S f k s s') (he : s'.events = r.events) :
    Follows S f least s land (.error .exhausted r)

namespace Follows

variable {least : Nat} {s : State V E} {land : α → Run V E (Storage → V) → State V E}
  {result : EStateM.Result (Stop V) (Run V E (Storage → V)) α} {r : Run V E (Storage → V)}

theorem mono {least' : Nat} (h : Follows S f least s land result) (hle : least' ≤ least) :
    Follows S f least' s land result := by
  cases h with
  | ok k h => exact .ok k h
  | returned k h => exact .returned k h
  | failed k h => exact .failed k h
  | exhausted k hk h he => exact .exhausted k (hle.trans hk) h he

theorem after {k : Nat} {s₀ : State V E} (h₀ : Reaches S f k s₀ s)
    (h : Follows S f least s land result) : Follows S f (k + least) s₀ land result := by
  cases h with
  | ok k' h => exact .ok _ (h₀.trans h)
  | returned k' h => exact .returned _ (h₀.ends h)
  | failed k' h => exact .failed _ (h₀.ends h)
  | exhausted k' hk h he => exact .exhausted _ (Nat.add_le_add_left hk k) (h₀.trans h) he

theorem bind {x : Evaluation V E (Storage → V) α} {g : α → Evaluation V E (Storage → V) β}
    {land' : β → Run V E (Storage → V) → State V E} (hx : Follows S f least s land (x r))
    (hg : ∀ a r', x r = .ok a r' → Follows S f least (land a r') land' (g a r')) :
    Follows S f least s land' ((x >>= g) r) := by
  rw [bind_apply]
  cases hr : x r with
  | ok a r' =>
    rw [hr] at hx
    cases hx with
    | ok k h => exact ((hg a r' hr).after h).mono (Nat.le_add_left _ _)
  | error e r' =>
    rw [hr] at hx
    cases hx with
    | returned k h => exact .returned k h
    | failed k h => exact .failed k h
    | exhausted k hk h he => exact .exhausted k hk h he

/-- A loop goes round with the jump at its end, so a loop that is cut off after `n` rounds has taken
`n` jumps. -/
theorem rounds {fuel p q j e : Nat} {stack : List V} {test : Evaluation V E (Storage → V) Bool}
    {body : Evaluation V E (Storage → V) (Option V)}
    (htest : ∀ r, Follows S f fuel (stateAt p stack r)
      (fun b r' => stateAt (if b then q else e) stack r') (test r))
    (hbody : ∀ r, Follows S f fuel (stateAt q stack r) (fun _ r' => stateAt j stack r') (body r))
    (hjump : ∀ r, Reaches S f 1 (stateAt j stack r) (stateAt p stack r)) {n : Nat} (hn : n ≤ fuel)
    (r : Run V E (Storage → V)) :
    Follows S f n (stateAt p stack r) (fun _ r' => stateAt e stack r')
      (Evaluation.rounds test body n r) := by
  induction n generalizing r with
  | zero => exact .exhausted 0 (le_refl 0) (.refl _) rfl
  | succ n ih =>
    rw [Evaluation.rounds]
    refine ((htest r).mono hn).bind fun b r' _ => ?_
    cases b with
    | false => exact .ok 0 (.refl _)
    | true =>
      refine ((hbody r').mono hn).bind fun _ r'' _ => ?_
      have hnext := (ih (Nat.le_of_succ_le hn) r'').after (hjump r'')
      rwa [Nat.add_comm] at hnext

end Follows

end

end Codewright.Bytecode
