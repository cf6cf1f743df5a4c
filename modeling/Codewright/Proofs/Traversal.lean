import Codewright.Proofs.Evaluation

/-!
# Trees as they are walked through

Five kinds of nodes do the same: they evaluate operands in order, then perform an operation on the
values. `operator?` shows them as one, and `Tree.induction` has one case for them. Each function on
trees has an equation for operators beside its definition, so that proofs need not go through the
five kinds again.

The second part collects the locals that a tree loads, stores into and leaves defined, in the order
of the evaluation.
-/

namespace Codewright

/-- A node that performs an operation on the values of operands. -/
structure Operator where
  operation : Operation
  /-- Whether the node has a value. -/
  yields : Bool
  operands : List Tree

namespace Tree

/-! ## Operators -/

/-- The node as an operator, if it is one. -/
def operator? : Tree → Option Operator
  | .call tag callee args => some ⟨.routine callee, tag.ty.isValue, args⟩
  | .binary _ op left right => some ⟨.intrinsic op, true, [left, right]⟩
  | .unary _ op operand => some ⟨.intrinsic op, true, [operand]⟩
  | .toReal _ operand => some ⟨.intrinsic .toReal, true, [operand]⟩
  | .print _ args => some ⟨.intrinsic .print, false, args⟩
  | _ => none

section

variable {P : Tree → Prop} (const : ∀ tag value, P (.const tag value))
  (load : ∀ tag x, P (.load tag x)) (failFast : ∀ tag, P (.failFast tag))
  (operator : ∀ t f, t.operator? = some f → (∀ a ∈ f.operands, P a) → P t)
  (seq : ∀ tag body, (∀ a ∈ body, P a) → P (.seq tag body))
  (ifThen : ∀ tag c y, P c → P y → P (.ifThen tag c y))
  (ifElse : ∀ tag c y n, P c → P y → P n → P (.ifElse tag c y n))
  (loop : ∀ tag c b, P c → P b → P (.loop tag c b))
  (ret : ∀ tag, P (.ret tag)) (retValue : ∀ tag v, P v → P (.retValue tag v))

include const load failFast operator seq ifThen ifElse loop ret retValue

set_option linter.unusedSectionVars false in
mutual

/-- Induction over trees with one case for all operators. -/
theorem induction : ∀ t, P t
  | .const tag value => const tag value
  | .load tag x => load tag x
  | .failFast tag => failFast tag
  | .call tag callee args => operator (.call tag callee args) _ rfl (induction_all args)
  | .print tag args => operator (.print tag args) _ rfl (induction_all args)
  | .binary tag op l r => by
    have hl := induction l
    have hr := induction r
    exact operator (.binary tag op l r) _ rfl (by simp [hl, hr])
  | .unary tag op t => by
    have ht := induction t
    exact operator (.unary tag op t) _ rfl (by simp [ht])
  | .toReal tag t => by
    have ht := induction t
    exact operator (.toReal tag t) _ rfl (by simp [ht])
  | .seq tag body => seq tag body (induction_all body)
  | .ifThen tag c y => ifThen tag c y (induction c) (induction y)
  | .ifElse tag c y n => ifElse tag c y n (induction c) (induction y) (induction n)
  | .loop tag c b => loop tag c b (induction c) (induction b)
  | .ret tag => ret tag
  | .retValue tag v => retValue tag v (induction v)

theorem induction_all : ∀ ts : List Tree, ∀ a ∈ ts, P a
  | [], _, h => nomatch h
  | t :: rest, a, h => by
    have ht := induction t
    have hrest := induction_all rest
    rcases List.mem_cons.mp h with rfl | h
    · exact ht
    · exact hrest a h

end

end

attribute [elab_as_elim] induction

/-! ## Locals in the order of the evaluation -/

mutual

def loads : Tree → List LocalId
  | .const _ _ | .failFast _ | .ret _ => []
  | .load _ x => [x]
  | .call _ _ args | .print _ args | .seq _ args => loadsAll args
  | .binary _ _ left right => loads left ++ loads right
  | .unary _ _ operand | .toReal _ operand | .retValue _ operand => loads operand
  | .ifThen _ condition yes => loads condition ++ loads yes
  | .ifElse _ condition yes no => loads condition ++ loads yes ++ loads no
  | .loop _ condition body => loads condition ++ loads body

def loadsAll : List Tree → List LocalId
  | [] => []
  | t :: rest => loads t ++ loadsAll rest

end

mutual

/-- The locals that nodes have as their store. -/
def stores : Tree → List LocalId
  | .const tag _ | .load tag _ | .failFast tag | .ret tag => tag.store.toList
  | .call tag _ args | .print tag args | .seq tag args => storesAll args ++ tag.store.toList
  | .binary tag _ left right => stores left ++ stores right ++ tag.store.toList
  | .unary tag _ operand | .toReal tag operand | .retValue tag operand =>
    stores operand ++ tag.store.toList
  | .ifThen tag condition yes => stores condition ++ stores yes ++ tag.store.toList
  | .ifElse tag condition yes no =>
    stores condition ++ stores yes ++ stores no ++ tag.store.toList
  | .loop tag condition body => stores condition ++ stores body ++ tag.store.toList

def storesAll : List Tree → List LocalId
  | [] => []
  | t :: rest => stores t ++ storesAll rest

end

mutual

/-- The locals that have received a value when an expression has been evaluated. A statement defines
none: what is declared in it ends with it, and it may not get to an assignment. -/
def defines : Tree → List LocalId
  | .const tag _ | .load tag _ => tag.store.toList
  | .call tag _ args => definesAll args ++ if tag.ty.isValue then tag.store.toList else []
  | .print _ args => definesAll args
  | .binary tag _ left right => defines left ++ defines right ++ tag.store.toList
  | .unary tag _ operand | .toReal tag operand => defines operand ++ tag.store.toList
  | .failFast _ | .ret _ | .retValue _ _ | .seq _ _ | .ifThen _ _ _ | .ifElse _ _ _ _
  | .loop _ _ _ => []

def definesAll : List Tree → List LocalId
  | [] => []
  | t :: rest => defines t ++ definesAll rest

end

/-- The locals that are loaded or stored into. -/
def mentions (t : Tree) : List LocalId := t.loads ++ t.stores

def mentionsAll (ts : List Tree) : List LocalId := ts.flatMap mentions

section

attribute [local simp] loads loadsAll stores storesAll defines definesAll

variable {t : Tree} {f : Operator}

theorem loads_operator (h : t.operator? = some f) : t.loads = loadsAll f.operands := by
  cases t <;> cases h <;> simp

theorem stores_operator (h : t.operator? = some f) :
    t.stores = storesAll f.operands ++ t.store.toList := by
  cases t <;> cases h <;> simp [store, tag]

theorem defines_operator (h : t.operator? = some f) :
    t.defines = definesAll f.operands ++ if f.yields then t.store.toList else [] := by
  cases t <;> cases h <;> simp [store, tag]

theorem loadsAll_eq (ts : List Tree) : loadsAll ts = ts.flatMap loads := by
  induction ts with
  | nil => rfl
  | cons t rest ih => rw [loadsAll, ih, List.flatMap_cons]

theorem storesAll_eq (ts : List Tree) : storesAll ts = ts.flatMap stores := by
  induction ts with
  | nil => rfl
  | cons t rest ih => rw [storesAll, ih, List.flatMap_cons]

theorem definesAll_eq (ts : List Tree) : definesAll ts = ts.flatMap defines := by
  induction ts with
  | nil => rfl
  | cons t rest ih => rw [definesAll, ih, List.flatMap_cons]

theorem mem_stores_of_store {x : LocalId} (h : t.store = some x) : x ∈ t.stores := by
  cases t <;> simp_all [store, tag]

theorem stores_of_defines (t : Tree) : t.defines ⊆ t.stores := by
  induction t using Tree.induction with
  | const | load => exact fun _ h => h
  | operator t f h ih =>
    intro x hx
    rw [defines_operator h, definesAll_eq] at hx
    rw [stores_operator h, storesAll_eq]
    rcases List.mem_append.mp hx with hx | hx
    · obtain ⟨a, ha, hx⟩ := List.mem_flatMap.mp hx
      exact List.mem_append_left _ (List.mem_flatMap.mpr ⟨a, ha, ih a ha hx⟩)
    · split at hx
      · exact List.mem_append_right _ hx
      · simp at hx
  | failFast | seq | ifThen | ifElse | loop | ret | retValue => simp

@[simp] theorem mentionsAll_nil : mentionsAll [] = [] := rfl

@[simp] theorem mentionsAll_cons (t : Tree) (rest : List Tree) :
    mentionsAll (t :: rest) = t.mentions ++ mentionsAll rest := rfl

theorem mentionsAll_append (ts us : List Tree) :
    mentionsAll (ts ++ us) = mentionsAll ts ++ mentionsAll us := List.flatMap_append

theorem mem_mentions {x : LocalId} : x ∈ t.mentions ↔ x ∈ t.loads ∨ x ∈ t.stores :=
  List.mem_append

theorem mem_mentionsAll {x : LocalId} {ts : List Tree} :
    x ∈ mentionsAll ts ↔ x ∈ loadsAll ts ∨ x ∈ storesAll ts := by
  simp only [mentionsAll, loadsAll_eq, storesAll_eq, List.mem_flatMap, mem_mentions]
  constructor
  · rintro ⟨t, ht, hl | hs⟩
    · exact .inl ⟨t, ht, hl⟩
    · exact .inr ⟨t, ht, hs⟩
  · rintro (⟨t, ht, hl⟩ | ⟨t, ht, hs⟩)
    · exact ⟨t, ht, .inl hl⟩
    · exact ⟨t, ht, .inr hs⟩

theorem mentions_of_defines {x : LocalId} (h : x ∈ t.defines) : x ∈ t.mentions :=
  mem_mentions.mpr (.inr (stores_of_defines t h))

theorem mem_mentions_operator {x : LocalId} (h : t.operator? = some f) :
    x ∈ t.mentions ↔ x ∈ mentionsAll f.operands ∨ t.store = some x := by
  rw [mem_mentions, mem_mentionsAll, loads_operator h, stores_operator h, List.mem_append,
    Option.mem_toList, or_assoc]

section

variable {x : LocalId} {tag : Tag} {c y n v : Tree} {body : List Tree}

theorem mem_mentions_seq :
    x ∈ (Tree.seq tag body).mentions ↔ x ∈ mentionsAll body ∨ tag.store = some x := by
  rw [mem_mentions, mem_mentionsAll]
  simp [or_assoc]

theorem mem_mentions_ifThen :
    x ∈ (Tree.ifThen tag c y).mentions ↔ x ∈ c.mentions ∨ x ∈ y.mentions ∨ tag.store = some x := by
  simp only [mem_mentions, loads, stores, List.mem_append, Option.mem_toList]
  tauto

theorem mem_mentions_ifElse : x ∈ (Tree.ifElse tag c y n).mentions ↔
    x ∈ c.mentions ∨ x ∈ y.mentions ∨ x ∈ n.mentions ∨ tag.store = some x := by
  simp only [mem_mentions, loads, stores, List.mem_append, Option.mem_toList]
  tauto

theorem mem_mentions_loop :
    x ∈ (Tree.loop tag c y).mentions ↔ x ∈ c.mentions ∨ x ∈ y.mentions ∨ tag.store = some x := by
  simp only [mem_mentions, loads, stores, List.mem_append, Option.mem_toList]
  tauto

theorem mem_mentions_retValue :
    x ∈ (Tree.retValue tag v).mentions ↔ x ∈ v.mentions ∨ tag.store = some x := by
  simp only [mem_mentions, loads, stores, List.mem_append, Option.mem_toList, or_assoc]

end

end

end Tree

/-! ## Evaluation of operators -/

namespace Evaluation

variable {V E M : Type} {I : Interpretation V E} {K : Keeping V M}

/-- Evaluates the operands, then performs the operation on what is found for them. -/
def operate (I : Interpretation V E) (K : Keeping V M) (fuel : Nat) (f : Operator) :
    Evaluation V E M (Option V) := do
  let values ← computeAll I K fuel f.operands
  let vs ← given K (f.operands.map Tree.store) values
  let v ← perform I f.operation vs
  return if f.yields then some v else none

theorem computeAll_cons (fuel : Nat) (t : Tree) (rest : List Tree) :
    computeAll I K fuel (t :: rest) = (do
      let v ← eval I K fuel t
      let vs ← computeAll I K fuel rest
      return v :: vs) := rfl

theorem compute_operator {t : Tree} {f : Operator} (h : t.operator? = some f) (fuel : Nat) :
    compute I K fuel t = operate I K fuel f := by
  cases t <;> cases h <;> simp [compute, operate, computeAll]

/-! ## What an evaluation depends on -/

/-- The same events have happened. -/
def SameEvents {M₁ M₂ : Type} (r₁ : Run V E M₁) (r₂ : Run V E M₂) : Prop := r₁.events = r₂.events

/-- A part of a run keeps a relation between runs, with the same results. -/
abbrev Respects {α : Type} (R : Run V E M → Run V E M → Prop) (x : Evaluation V E M α) : Prop :=
  Simulates R x x (fun _ => R) R

/-- Runs in the relation have the same events, and stay in it when more are added and when a local
of `A` is loaded, which gives the same, or one of `B` is stored into. -/
structure Steady (A B : LocalId → Prop)
    (R : Run V E (LocalId → V) → Run V E (LocalId → V) → Prop) : Prop where
  events : ∀ {r₁ r₂}, R r₁ r₂ → r₁.events = r₂.events
  answered : ∀ {r₁ r₂} more, R r₁ r₂ →
    R { r₁ with events := r₁.events ++ more } { r₂ with events := r₂.events ++ more }
  loaded : ∀ {r₁ r₂ x}, A x → R r₁ r₂ → r₁.memory x = r₂.memory x ∧
    ∀ more, R { r₁ with reads := r₁.reads ++ more } { r₂ with reads := r₂.reads ++ more }
  stored : ∀ {r₁ r₂ x} v, B x → R r₁ r₂ →
    R { r₁ with memory := Function.update r₁.memory x v }
      { r₂ with memory := Function.update r₂.memory x v }

namespace Steady

variable {A B : LocalId → Prop} {R : Run V E (LocalId → V) → Run V E (LocalId → V) → Prop}
  {fuel : Nat} {t : Tree} {ts : List Tree}

theorem settle (h : Steady A B R) {store : Option LocalId} (hs : ∀ x, store = some x → B x)
    (value : Option V) : Respects R (settle separate store value) := by
  intro r₁ r₂ hr
  cases store with
  | none => exact .ok hr
  | some x =>
    cases value with
    | none => exact .ok hr
    | some v => exact .ok (h.stored v (hs x rfl) hr)

theorem perform (h : Steady A B R) (I : Interpretation V E) (o : Operation) (args : List V) :
    Respects R (perform I o args) :=
  .perform (fun _ _ => h.events) (fun _ _ more _ => h.answered more) fun _ _ more => h.answered more

theorem decided (h : Steady A B R) (I : Interpretation V E) (value : Option V) :
    Respects R (decided I value) :=
  .decided I value (fun _ _ => h.events) (fun _ _ more _ => h.answered more) fun _ _ h => h

theorem given (R : Run V E (LocalId → V) → Run V E (LocalId → V) → Prop)
    (stores : List (Option LocalId))
    (values : List (Option V)) : Respects R (given separate stores values) := by
  intro r₁ r₂ h
  have hf : ∀ m₁ m₂ : LocalId → V, fetched separate m₁ = fetched separate m₂ := by
    intro m₁ m₂
    funext store v
    cases store <;> rfl
  unfold Evaluation.given
  rw [hf r₁.memory r₂.memory]
  exact .ok h

theorem chosen (h : Steady A B R) {yes yes' no no' : Evaluation V E (LocalId → V) (Option V)}
    (hyes : Simulates R yes yes' (fun _ => R) R) (hno : Simulates R no no' (fun _ => R) R)
    (I : Interpretation V E) (value : Option V) :
    Simulates R (do
      let b ← Evaluation.decided I value
      if b then yes else no) (do
      let b ← Evaluation.decided I value
      if b then yes' else no') (fun _ => R) R := by
  refine .bind (h.decided I value) fun b => ?_
  cases b with
  | true => exact hyes
  | false => exact hno

theorem discarded {x y : Evaluation V E (LocalId → V) (Option V)}
    (h : Simulates R x y (fun _ => R) R) : Simulates (α := Option V) R (do
      let _ ← x
      pure none) (do
      let _ ← y
      pure none) (fun _ => R) R :=
  .bind h fun _ => .pure fun _ _ h => h

theorem computeAll_of
    (ih : ∀ t ∈ ts, (∀ x ∈ t.loads, A x) → (∀ x ∈ t.stores, B x) →
      Respects R (eval I separate fuel t))
    (hl : ∀ x ∈ Tree.loadsAll ts, A x) (hs : ∀ x ∈ Tree.storesAll ts, B x) :
    Respects R (computeAll I separate fuel ts) := by
  induction ts with
  | nil => exact .pure fun _ _ h => h
  | cons t rest ihrest =>
    rw [Tree.loadsAll, List.forall_mem_append] at hl
    rw [Tree.storesAll, List.forall_mem_append] at hs
    rw [List.forall_mem_cons] at ih
    rw [computeAll_cons]
    exact .bind (ih.1 hl.1 hs.1) fun _ => .bind (ihrest ih.2 hl.2 hs.2) fun _ =>
      .pure fun _ _ h => h

theorem eval (h : Steady A B R) (t : Tree) (hl : ∀ x ∈ t.loads, A x) (hs : ∀ x ∈ t.stores, B x) :
    Respects R (eval I separate fuel t) := by
  have hown : ∀ t : Tree, (∀ x ∈ t.stores, B x) →
      ∀ value, Respects R (Evaluation.settle separate t.store value) :=
    fun t hs => h.settle fun x hx => hs x (Tree.mem_stores_of_store hx)
  induction t using Tree.induction with
  | const tag value => exact .bind (.pure fun _ _ h => h) (hown _ hs)
  | load tag x =>
    refine .bind (.bind (Q := fun _ => R) (fun r₁ r₂ hr => ?_) fun a => .pure fun _ _ h =>
      h) (hown _ hs)
    obtain ⟨hx, hr⟩ := h.loaded (hl x List.mem_cons_self) hr
    simp only [read, separate, hx]
    exact .ok (hr _)
  | failFast tag => exact .bind (.bind (h.perform I _ _) fun a => .pure fun _ _ h => h) (hown _ hs)
  | operator t f hf ih =>
    have hset := hown t hs
    rw [Evaluation.eval, compute_operator hf]
    rw [Tree.loads_operator hf] at hl
    rw [Tree.stores_operator hf, List.forall_mem_append] at hs
    refine .bind (.bind (computeAll_of ih hl hs.1) fun values => ?_) hset
    exact .bind (given R _ _) fun _ => .bind (h.perform I _ _) fun _ => .pure fun _ _ h => h
  | seq tag body ih =>
    rw [Tree.stores, List.forall_mem_append] at hs
    rw [eval_seq]
    exact .bind (.bind (computeAll_of ih hl hs.1) fun _ => .pure fun _ _ h => h) fun _ =>
      .pure fun _ _ h => h
  | ifThen tag c y ihc ihy =>
    simp only [Tree.loads, Tree.stores, List.forall_mem_append] at hl hs
    rw [eval_ifThen]
    exact .bind (ihc hl.1 hs.1.1) (h.chosen (discarded (ihy hl.2 hs.1.2)) (.pure fun _ _ h => h) I)
  | ifElse tag c y n ihc ihy ihn =>
    simp only [Tree.loads, Tree.stores, List.forall_mem_append] at hl hs
    rw [eval_ifElse]
    exact .bind (ihc hl.1.1 hs.1.1.1)
      (h.chosen (discarded (ihy hl.1.2 hs.1.1.2)) (discarded (ihn hl.2 hs.1.2)) I)
  | loop tag c b ihc ihb =>
    simp only [Tree.loads, Tree.stores, List.forall_mem_append] at hl hs
    rw [eval_loop]
    refine .bind (.rounds (fun _ _ h => h) (T := fun _ => R) ?_ (ihb hl.2 hs.1.2) fuel)
      fun _ => .pure fun _ _ h => h
    exact .bind (ihc hl.1 hs.1.1) (h.decided I)
  | ret tag => exact .bind (Q := fun _ => R) (.throw fun _ _ h => h) (hown _ hs)
  | retValue tag v ih =>
    rw [Tree.stores, List.forall_mem_append] at hs
    rw [eval_retValue]
    exact .bind (ih hl hs.1) fun a => .throw fun _ _ h => h

theorem computeAll (h : Steady A B R) (hl : ∀ x ∈ Tree.loadsAll ts, A x)
    (hs : ∀ x ∈ Tree.storesAll ts, B x) : Respects R (computeAll I separate fuel ts) :=
  computeAll_of (fun t _ => h.eval t) hl hs

end Steady

/-- A property of the memory is kept if it is by the stores. -/
theorem keeps_computeAll {P : (LocalId → V) → Prop} {ts : List Tree} {fuel : Nat}
    (h : ∀ m, ∀ x ∈ Tree.storesAll ts, ∀ v, P m → P (Function.update m x v)) :
    Keeps (fun run : Run V E (LocalId → V) => P run.memory) (computeAll I separate fuel ts) := by
  have hsteady : Steady (fun _ => True) (· ∈ Tree.storesAll ts)
      fun r₁ r₂ : Run V E (LocalId → V) => r₁ = r₂ ∧ P r₁.memory := by
    constructor
    · rintro r _ ⟨rfl, -⟩
      rfl
    · rintro r _ more ⟨rfl, hr⟩
      exact ⟨rfl, hr⟩
    · rintro r _ x - ⟨rfl, hr⟩
      exact ⟨rfl, fun more => ⟨rfl, hr⟩⟩
    · rintro r _ x v hx ⟨rfl, hr⟩
      exact ⟨rfl, h _ x hx v hr⟩
  intro run hrun
  have hrespects : Respects _ (computeAll I separate fuel ts) :=
    hsteady.computeAll (fun _ _ => trivial) fun _ h => h
  specialize hrespects run run ⟨rfl, hrun⟩
  cases hresult : computeAll I separate fuel ts run <;> rw [hresult] at hrespects <;>
      cases hrespects with
  | _ h => exact h.2

/-- The same events have happened, and all locals but some have the same values. -/
structure AgreeOff (R : Set LocalId) (r₁ r₂ : Run V E (LocalId → V)) : Prop where
  events : r₁.events = r₂.events
  memory : ∀ z, z ∉ R → r₁.memory z = r₂.memory z

/-- Locals that are not loaded do not matter. -/
theorem steady_agreeOff (R : Set LocalId) :
    Steady (· ∉ R) (fun _ => True) (AgreeOff (V := V) (E := E) R) where
  events h := h.events
  answered more h := ⟨by rw [h.events], h.memory⟩
  loaded hx h := ⟨h.memory _ hx, fun _ => ⟨h.events, h.memory⟩⟩
  stored v _ h := ⟨h.events, fun z hz => by
    simp only [Function.update_apply, h.memory z hz]⟩

end Evaluation

end Codewright
