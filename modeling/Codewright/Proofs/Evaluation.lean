import Codewright.Proofs.Steps
import Codewright.Tree

/-!
# Evaluation of trees

What a tree does when it runs. The meaning of constants, intrinsics and calls comes from outside, as
an `Interpretation`; so does the memory that the locals are kept in, as a `Keeping`. A run passes
through the nodes in order: operands first, then the operator, then the store of its value.

The result of an operation may depend on all events before it, so an interpretation can have a state
of its own, read input or fail after a while. A loop that does not end is cut off after `fuel`
rounds; a run that is cut off for every `fuel` does not end.

`Simulates` compares two runs step by step. Everything that is proved about the passes of the
compiler goes through it.
-/

namespace Codewright

/-! ## Surroundings -/

/-- What a tree leaves to its surroundings. -/
inductive Operation where
  | intrinsic (op : Intrinsic)
  | routine (callee : RoutineId)
  deriving DecidableEq

/-- The meaning of constants and operations, in a domain `V` of values and with events from `E`. -/
structure Interpretation (V E : Type) where
  constant : Value → V
  /-- What a condition with a value comes to after some events: the events that it adds, and whether
  it holds. An interpretation that keeps count this way can have any outcome at any time. -/
  truth : List E → V → List E × Bool
  /-- What an operation does after some events: the events that it adds, and its value unless it
  fails. The value of an operation without a result is not used. -/
  perform : List E → Operation → List V → List E × Option V

/-- How the locals are kept in a memory `M`. -/
structure Keeping (V M : Type) where
  read : M → LocalId → V
  write : M → LocalId → V → M
  /-- What an operator finds for an operand that was computed as a value and stored into a local. -/
  fetch : M → LocalId → V → V

/-- A run: the memory, the events so far, and what the loads so far have given. -/
structure Run (V E M : Type) where
  memory : M
  events : List E := []
  reads : List (LocalId × V) := []

/-- Why a run ends before the end of the tree. -/
inductive Stop (V : Type) where
  | returned (value : Option V)
  | failed
  /-- A loop has used up its rounds. -/
  | exhausted
  deriving DecidableEq

abbrev Evaluation (V E M : Type) := EStateM (Stop V) (Run V E M)

namespace Evaluation

open Steps

variable {V E M : Type} (I : Interpretation V E) (K : Keeping V M)

def read (x : LocalId) : Evaluation V E M V := fun run =>
  .ok (K.read run.memory x) { run with reads := run.reads ++ [(x, K.read run.memory x)] }

/-- Leaves an operation to the surroundings. -/
def perform (o : Operation) (args : List V) : Evaluation V E M V := fun run =>
  match I.perform run.events o args with
  | (events, some v) => .ok v { run with events := run.events ++ events }
  | (events, none) => .error .failed { run with events := run.events ++ events }

/-- Stores the value of a node, if it has one and a store. -/
def settle (store : Option LocalId) (value : Option V) : Evaluation V E M (Option V) := fun run =>
  match store, value with
  | some x, some v => .ok value { run with memory := K.write run.memory x v }
  | _, _ => .ok value run

/-- What an operator finds for an operand. -/
def fetched (m : M) (store : Option LocalId) (v : V) : V :=
  match store with
  | some x => K.fetch m x v
  | none => v

/-- The values that an operator finds for its operands. -/
def given (stores : List (Option LocalId)) (values : List (Option V)) :
    Evaluation V E M (List V) := fun run =>
  .ok ((stores.zip values).filterMap fun (store, value) => value.map (fetched K run.memory store))
    run

def decided (value : Option V) : Evaluation V E M Bool := fun run =>
  match value with
  | some v => .ok (I.truth run.events v).2
    { run with events := run.events ++ (I.truth run.events v).1 }
  | none => .error .failed run

/-- Rounds of a loop, at most so many. -/
def rounds (test : Evaluation V E M Bool) (body : Evaluation V E M (Option V)) :
    Nat → Evaluation V E M Unit
  | 0 => throw .exhausted
  | n + 1 => do
    if ← test then
      let _ ← body
      rounds test body n

mutual

/-- The value of a node, before it is stored. -/
def compute (fuel : Nat) : Tree → Evaluation V E M (Option V)
  | .const _ value => return some (I.constant value)
  | .load _ x => do
    let v ← read K x
    return some v
  | .call tag callee args => do
    let values ← computeAll fuel args
    let vs ← given K (args.map Tree.store) values
    let v ← perform I (.routine callee) vs
    return if tag.ty.isValue then some v else none
  | .binary _ op left right => do
    let a ← compute fuel left >>= settle K left.store
    let b ← compute fuel right >>= settle K right.store
    let vs ← given K [left.store, right.store] [a, b]
    let v ← perform I (.intrinsic op) vs
    return some v
  | .unary _ op operand => do
    let a ← compute fuel operand >>= settle K operand.store
    let vs ← given K [operand.store] [a]
    let v ← perform I (.intrinsic op) vs
    return some v
  | .toReal _ operand => do
    let a ← compute fuel operand >>= settle K operand.store
    let vs ← given K [operand.store] [a]
    let v ← perform I (.intrinsic .toReal) vs
    return some v
  | .print _ args => do
    let values ← computeAll fuel args
    let vs ← given K (args.map Tree.store) values
    let _ ← perform I (.intrinsic .print) vs
    return none
  | .failFast _ => do
    let _ ← perform I (.intrinsic .failFast) []
    return none
  | .seq _ body => do
    let _ ← computeAll fuel body
    return none
  | .ifThen _ condition yes => do
    let c ← compute fuel condition >>= settle K condition.store
    if ← decided I c then
      let _ ← compute fuel yes >>= settle K yes.store
    return none
  | .ifElse _ condition yes no => do
    let c ← compute fuel condition >>= settle K condition.store
    if ← decided I c then
      let _ ← compute fuel yes >>= settle K yes.store
    else
      let _ ← compute fuel no >>= settle K no.store
    return none
  | .loop _ condition body => do
    rounds (compute fuel condition >>= settle K condition.store >>= decided I)
      (compute fuel body >>= settle K body.store) fuel
    return none
  | .ret _ => throw (.returned none)
  | .retValue _ value => do
    let v ← compute fuel value >>= settle K value.store
    throw (.returned v)

/-- The values of nodes that are evaluated in order. -/
def computeAll (fuel : Nat) : List Tree → Evaluation V E M (List (Option V))
  | [] => return []
  | t :: rest => do
    let v ← compute fuel t >>= settle K t.store
    let vs ← computeAll fuel rest
    return v :: vs

end

/-- The value of a node, which is stored on the way. -/
def eval (fuel : Nat) (t : Tree) : Evaluation V E M (Option V) :=
  compute I K fuel t >>= settle K t.store

/-- Statements in order; what they leave is not used. -/
def runAll (fuel : Nat) (body : List Tree) : Evaluation V E M Unit := do
  let _ ← computeAll I K fuel body

/-- The separate way of keeping locals: each one in a cell of its own. -/
def separate : Keeping V (LocalId → V) where
  read m x := m x
  write m x v := Function.update m x v
  fetch _ _ v := v

/-! ## Results -/

section

variable {α β : Type} {K : Keeping V M} {I : Interpretation V E}

@[simp] theorem pure_apply (a : α) (run : Run V E M) :
    (pure a : Evaluation V E M α) run = .ok a run := rfl

@[simp] theorem settle_none (value : Option V) (run : Run V E M) :
    settle K none value run = .ok value run := rfl

@[simp] theorem settle_no_value (store : Option LocalId) (run : Run V E M) :
    settle K store none run = .ok none run := by
  cases store <;> rfl

theorem settle_of_no_value (store : Option LocalId) :
    (settle K store none : Evaluation V E M (Option V)) = pure none :=
  funext fun run => settle_no_value store run

theorem eval_failFast (fuel : Nat) (tag : Tag) :
    eval I K fuel (.failFast tag) = (do
      let _ ← perform I (.intrinsic .failFast) []
      pure none) := by
  simp only [eval, compute, bind_assoc, pure_bind, settle_of_no_value]

theorem eval_of_unstored {fuel : Nat} {t : Tree} (h : t.store = none) (run : Run V E M) :
    eval I K fuel t run = compute I K fuel t run := by
  unfold eval
  rw [h, bind_apply]
  cases compute I K fuel t run <;> rfl

theorem eval_eq_compute {fuel : Nat} {t : Tree} (h : t.store = none) :
    eval I K fuel t = compute I K fuel t :=
  funext fun run => eval_of_unstored h run

theorem runAll_nil (fuel : Nat) (run : Run V E M) : runAll I K fuel [] run = .ok () run := by
  simp only [runAll, computeAll, pure_bind]
  rfl

theorem runAll_cons (fuel : Nat) (t : Tree) (rest : List Tree) :
    runAll I K fuel (t :: rest) = eval I K fuel t >>= fun _ => runAll I K fuel rest := by
  simp only [runAll, computeAll, eval, bind_assoc, pure_bind]

theorem eval_eq_of_no_value {fuel : Nat} {t : Tree} {x : Evaluation V E M α}
    (h : compute I K fuel t = x >>= fun _ => pure none) :
    eval I K fuel t = x >>= fun _ => pure none := by
  rw [eval, h, bind_assoc]
  simp only [pure_bind, settle_of_no_value]

theorem eval_seq (fuel : Nat) (tag : Tag) (body : List Tree) :
    eval I K fuel (.seq tag body) = runAll I K fuel body >>= fun _ => pure none :=
  eval_eq_of_no_value (by simp only [compute, runAll, bind_assoc, pure_bind])

theorem eval_ifThen (fuel : Nat) (tag : Tag) (c y : Tree) :
    eval I K fuel (.ifThen tag c y) = (do
      let v ← eval I K fuel c
      let b ← decided I v
      if b then
        let _ ← eval I K fuel y
        pure none
      else pure none) := by
  simp only [eval, compute, bind_assoc]
  refine bind_congr fun a => bind_congr fun v => bind_congr fun b => ?_
  cases b <;> simp [settle_of_no_value]

theorem eval_ifElse (fuel : Nat) (tag : Tag) (c y n : Tree) :
    eval I K fuel (.ifElse tag c y n) = (do
      let v ← eval I K fuel c
      let b ← decided I v
      if b then
        let _ ← eval I K fuel y
        pure none
      else
        let _ ← eval I K fuel n
        pure none) := by
  simp only [eval, compute, bind_assoc]
  refine bind_congr fun a => bind_congr fun v => bind_congr fun b => ?_
  cases b <;> simp [settle_of_no_value]

theorem eval_loop (fuel : Nat) (tag : Tag) (c b : Tree) :
    eval I K fuel (.loop tag c b) = (do
      rounds (eval I K fuel c >>= decided I) (eval I K fuel b) fuel
      pure none) :=
  eval_eq_of_no_value rfl

theorem eval_retValue (fuel : Nat) (tag : Tag) (v : Tree) :
    eval I K fuel (.retValue tag v) = (do
      let a ← eval I K fuel v
      throw (.returned a)) := by
  rw [eval, compute, bind_assoc]
  rfl

end

/-! ## Runs that keep a property -/

section

variable {α β : Type}

/-- The property holds of the run after a result. -/
def After (P : Run V E M → Prop) : EStateM.Result (Stop V) (Run V E M) α → Prop
  | .ok _ run | .error _ run => P run

/-- A part of a run keeps a property, however it ends. -/
def Keeps (P : Run V E M → Prop) (x : Evaluation V E M α) : Prop :=
  ∀ run, P run → After P (x run)

end

/-! ## Runs side by side -/

section

variable {M₁ M₂ α β : Type}

/-- Two results are alike: the same value with runs in `Q`, or the same stop with runs in `F`. -/
inductive Alike (Q : α → Run V E M₁ → Run V E M₂ → Prop) (F : Run V E M₁ → Run V E M₂ → Prop) :
    EStateM.Result (Stop V) (Run V E M₁) α → EStateM.Result (Stop V) (Run V E M₂) α → Prop
  | ok {a : α} {r₁ : Run V E M₁} {r₂ : Run V E M₂} (h : Q a r₁ r₂) : Alike Q F (.ok a r₁) (.ok a r₂)
  | error {e : Stop V} {r₁ : Run V E M₁} {r₂ : Run V E M₂} (h : F r₁ r₂) :
    Alike Q F (.error e r₁) (.error e r₂)

/-- From runs in `P` two parts give alike results. -/
def Simulates (P : Run V E M₁ → Run V E M₂ → Prop) (x : Evaluation V E M₁ α)
    (y : Evaluation V E M₂ α) (Q : α → Run V E M₁ → Run V E M₂ → Prop)
    (F : Run V E M₁ → Run V E M₂ → Prop) : Prop :=
  ∀ r₁ r₂, P r₁ r₂ → Alike Q F (x r₁) (y r₂)

variable {P P' : Run V E M₁ → Run V E M₂ → Prop} {F F' : Run V E M₁ → Run V E M₂ → Prop}
  {Q Q' : α → Run V E M₁ → Run V E M₂ → Prop} {R : β → Run V E M₁ → Run V E M₂ → Prop}
  {x : Evaluation V E M₁ α} {y : Evaluation V E M₂ α}

theorem Alike.mono {a b} (h : Alike Q F a b) (hQ : ∀ v r₁ r₂, Q v r₁ r₂ → Q' v r₁ r₂)
    (hF : ∀ r₁ r₂, F r₁ r₂ → F' r₁ r₂) : Alike Q' F' a b := by
  cases h with
  | ok h => exact .ok (hQ _ _ _ h)
  | error h => exact .error (hF _ _ h)

theorem Alike.refl {Q : α → Run V E M → Run V E M → Prop} {F : Run V E M → Run V E M → Prop}
    (hQ : ∀ v r, Q v r r) (hF : ∀ r, F r r) (a : EStateM.Result (Stop V) (Run V E M) α) :
    Alike Q F a a := by
  cases a with
  | ok v r => exact .ok (hQ v r)
  | error e r => exact .error (hF r)

theorem Alike.trans {M₃ : Type} {Q₁ : α → Run V E M₁ → Run V E M₂ → Prop}
    {F₁ : Run V E M₁ → Run V E M₂ → Prop} {Q₂ : α → Run V E M₂ → Run V E M₃ → Prop}
    {F₂ : Run V E M₂ → Run V E M₃ → Prop} {Q : α → Run V E M₁ → Run V E M₃ → Prop}
    {F : Run V E M₁ → Run V E M₃ → Prop} {a b c} (h₁ : Alike Q₁ F₁ a b) (h₂ : Alike Q₂ F₂ b c)
    (hQ : ∀ v r₁ r₂ r₃, Q₁ v r₁ r₂ → Q₂ v r₂ r₃ → Q v r₁ r₃)
    (hF : ∀ r₁ r₂ r₃, F₁ r₁ r₂ → F₂ r₂ r₃ → F r₁ r₃) : Alike Q F a c := by
  cases h₁ with
  | ok h₁ =>
    cases h₂ with
    | ok h₂ => exact .ok (hQ _ _ _ _ h₁ h₂)
  | error h₁ =>
    cases h₂ with
    | error h₂ => exact .error (hF _ _ _ h₁ h₂)

namespace Simulates

theorem mono (h : Simulates P x y Q F) (hP : ∀ r₁ r₂, P' r₁ r₂ → P r₁ r₂)
    (hQ : ∀ v r₁ r₂, Q v r₁ r₂ → Q' v r₁ r₂) : Simulates P' x y Q' F :=
  fun r₁ r₂ hr => (h r₁ r₂ (hP r₁ r₂ hr)).mono hQ fun _ _ h => h

theorem pure {a : α} (h : ∀ r₁ r₂, P r₁ r₂ → Q a r₁ r₂) :
    Simulates P (Pure.pure a) (Pure.pure a) Q F :=
  fun r₁ r₂ hr => .ok (h r₁ r₂ hr)

theorem throw {e : Stop V} (h : ∀ r₁ r₂, P r₁ r₂ → F r₁ r₂) :
    Simulates P (MonadExcept.throw e) (MonadExcept.throw e) Q F :=
  fun r₁ r₂ hr => .error (h r₁ r₂ hr)

theorem bind {f : α → Evaluation V E M₁ β} {g : α → Evaluation V E M₂ β}
    (hx : Simulates P x y Q F) (hf : ∀ a, Simulates (Q a) (f a) (g a) R F) :
    Simulates P (x >>= f) (y >>= g) R F := by
  intro r₁ r₂ hr
  have h := hx r₁ r₂ hr
  rw [bind_apply, bind_apply]
  generalize x r₁ = a, y r₂ = b at h
  cases h with
  | ok h => exact hf _ _ _ h
  | error h => exact .error h

/-- What the first part keeps stays true beside what the two have in common. -/
theorem and_keeps {C : Run V E M₁ → Prop} (h : Simulates P x y Q F) (hx : Keeps C x) :
    Simulates (fun r₁ r₂ => P r₁ r₂ ∧ C r₁) x y (fun a r₁ r₂ => Q a r₁ r₂ ∧ C r₁) F := by
  rintro r₁ r₂ ⟨hP, hC⟩
  have hr := h r₁ r₂ hP
  have hC' := hx r₁ hC
  generalize x r₁ = a, y r₂ = b at hr hC'
  cases hr with
  | ok h => exact .ok ⟨h, hC'⟩
  | error h => exact .error h

theorem decided (I : Interpretation V E) (value : Option V)
    {Q : Bool → Run V E M₁ → Run V E M₂ → Prop} (hP : ∀ r₁ r₂, P r₁ r₂ → r₁.events = r₂.events)
    (hQ : ∀ r₁ r₂ (more : List E) b, P r₁ r₂ →
      Q b { r₁ with events := r₁.events ++ more } { r₂ with events := r₂.events ++ more })
    (hF : ∀ r₁ r₂, P r₁ r₂ → F r₁ r₂) :
    Simulates P (Evaluation.decided I value) (Evaluation.decided I value) Q F := by
  intro r₁ r₂ hr
  cases value with
  | none => exact .error (hF r₁ r₂ hr)
  | some v =>
    unfold Evaluation.decided
    rw [← hP r₁ r₂ hr]
    have h := hQ r₁ r₂ (I.truth r₁.events v).1 (I.truth r₁.events v).2 hr
    rw [← hP r₁ r₂ hr] at h
    exact .ok h

theorem perform {I : Interpretation V E} {o : Operation} {args : List V}
    {Q : V → Run V E M₁ → Run V E M₂ → Prop} (hP : ∀ r₁ r₂, P r₁ r₂ → r₁.events = r₂.events)
    (hQ : ∀ r₁ r₂ (more : List E) v, P r₁ r₂ →
      Q v { r₁ with events := r₁.events ++ more } { r₂ with events := r₂.events ++ more })
    (hF : ∀ r₁ r₂ (more : List E), P r₁ r₂ →
      F { r₁ with events := r₁.events ++ more } { r₂ with events := r₂.events ++ more }) :
    Simulates P (Evaluation.perform I o args) (Evaluation.perform I o args) Q F := by
  intro r₁ r₂ hr
  unfold Evaluation.perform
  rw [hP r₁ r₂ hr]
  have hQ' := hQ r₁ r₂
  have hF' := hF r₁ r₂
  rw [hP r₁ r₂ hr] at hQ' hF'
  cases h : I.perform r₂.events o args with
  | mk more answer =>
    cases answer with
    | some v => exact .ok (hQ' more v hr)
    | none => exact .error (hF' more hr)

/-- Rounds of a loop are alike if test and body keep an invariant. -/
theorem rounds {N : Run V E M₁ → Run V E M₂ → Prop} {T : Bool → Run V E M₁ → Run V E M₂ → Prop}
    {test₁ : Evaluation V E M₁ Bool} {test₂ : Evaluation V E M₂ Bool}
    {body₁ : Evaluation V E M₁ (Option V)} {body₂ : Evaluation V E M₂ (Option V)}
    (hF : ∀ r₁ r₂, N r₁ r₂ → F r₁ r₂) (htest : Simulates N test₁ test₂ T F)
    (hbody : Simulates (T true) body₁ body₂ (fun _ => N) F) (n : Nat) :
    Simulates N (Evaluation.rounds test₁ body₁ n) (Evaluation.rounds test₂ body₂ n)
      (fun _ => T false) F := by
  induction n with
  | zero => exact throw hF
  | succ n ih =>
    simp only [Evaluation.rounds]
    refine bind htest fun b => ?_
    cases b with
    | true => simpa using bind hbody fun _ => ih
    | false =>
      have h : Simulates (T false) (Pure.pure ()) (Pure.pure ()) (fun _ => T false) F :=
        pure fun _ _ h => h
      simpa using h

end Simulates

end

end Evaluation

end Codewright
