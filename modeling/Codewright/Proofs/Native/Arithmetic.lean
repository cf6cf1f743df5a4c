import Codewright.Proofs.Typing

/-!
# Arithmetic and straight trees

Integers are words that wrap around. What arithmetic on reals comes to is left open (`Reals`): a
program and its code have it in common, whatever it is. An operator on an integer and a real makes
the integer a real first, and so does a division of integers.

`Reals.meaning` is the interpretation of trees by this arithmetic. For trees without conditions,
loops and calls there is also a relation (`Evaluates`, `Performs`) that tells for each node which
value it has, and that the value is of the type of the node.
-/

namespace Codewright

/-- Arithmetic on reals, whatever it comes to. -/
structure Reals where
  add : Double → Double → Double
  sub : Double → Double → Double
  mul : Double → Double → Double
  div : Double → Double → Double
  ofInt : Int64 → Double

/-- The operators that integers have among themselves. -/
def Intrinsic.wrapping? : Intrinsic → Option (Int64 → Int64 → Int64)
  | .add => some (· + ·)
  | .sub => some (· - ·)
  | .mul => some (· * ·)
  | _ => none

namespace Reals

variable (R : Reals)

def real? : Intrinsic → Option (Double → Double → Double)
  | .add => some R.add
  | .sub => some R.sub
  | .mul => some R.mul
  | .div => some R.div
  | _ => none

def promote? : Value → Option Double
  | .int i => some (R.ofInt i)
  | .real x => some x
  | .bool _ => none

/-- An operator on two numbers that are made reals. -/
def promoted? (op : Intrinsic) (a b : Value) : Option Value := do
  let f ← R.real? op
  let x ← R.promote? a
  let y ← R.promote? b
  return .real (f x y)

/-- A binary operator. Two integers stay integers if the operator is one for them. -/
def binary? (op : Intrinsic) (a b : Value) : Option Value :=
  match a, b, op.wrapping? with
  | .int i, .int j, some f => some (.int (f i j))
  | _, _, _ => R.promoted? op a b

def value? (op : Intrinsic) : List Value → Option Value
  | [a, b] => R.binary? op a b
  | [.int i] => if op = .toReal then some (.real (R.ofInt i)) else none
  | _ => none

/-- The meaning of trees. There are no events, and no routine can be called. -/
def meaning : Interpretation Value Empty where
  constant v := v
  truth _ v := ([], v == .bool true)
  perform _ o args :=
    match o with
    | .intrinsic op => ([], R.value? op args)
    | .routine _ => ([], none)

end Reals

/-- A value is of a type, if the type has values. -/
def Ty.Suits (ty : Ty) (v : Value) : Prop := ty.isValue = true → v.ty = ty

/-- The memory after the store of a node. -/
def stored (m : LocalId → Value) (store : Option LocalId) (v : Value) : LocalId → Value :=
  match store with
  | some x => Function.update m x v
  | none => m

/-- The value of an expression, and the memory after it. -/
inductive Evaluates (R : Reals) : Tree → (LocalId → Value) → Value → (LocalId → Value) → Prop
  | const {tag : Tag} {value : Value} {m : LocalId → Value} (hty : tag.ty.Suits value) :
    Evaluates R (.const tag value) m value (stored m tag.store value)
  | load {tag : Tag} {x : LocalId} {m : LocalId → Value} (hty : tag.ty.Suits (m x)) :
    Evaluates R (.load tag x) m (m x) (stored m tag.store (m x))
  | binary {tag : Tag} {op : Intrinsic} {left right : Tree} {m m₁ m₂ : LocalId → Value}
    {a b v : Value}
    (hl : Evaluates R left m a m₁) (hr : Evaluates R right m₁ b m₂) (hv : R.binary? op a b = some v)
    (hty : tag.ty.Suits v) : Evaluates R (.binary tag op left right) m v (stored m₂ tag.store v)
  | toReal {tag : Tag} {operand : Tree} {m m₁ : LocalId → Value} {i : Int64}
    (ho : Evaluates R operand m (.int i) m₁) (hty : tag.ty = .real) :
    Evaluates R (.toReal tag operand) m (.real (R.ofInt i))
      (stored m₁ tag.store (.real (R.ofInt i)))

/-- How a statement ends. -/
inductive Ending where
  | falls (m : LocalId → Value)
  | returns (v : Option Value)

mutual

/-- How a statement without conditions and loops ends. What it returns is of the type `result`. -/
inductive Performs (R : Reals) (result : Ty) : Tree → (LocalId → Value) → Ending → Prop
  | expr {t : Tree} {m m' : LocalId → Value} {v : Value} (h : Evaluates R t m v m') :
    Performs R result t m (.falls m')
  | ret {tag : Tag} {m : LocalId → Value} : Performs R result (.ret tag) m (.returns none)
  | retValue {tag : Tag} {value : Tree} {m m' : LocalId → Value} {v : Value}
    (h : Evaluates R value m v m') (hty : value.ty = result) :
    Performs R result (.retValue tag value) m (.returns (some v))
  | seq {tag : Tag} {body : List Tree} {m : LocalId → Value} {e : Ending}
    (h : PerformsAll R result body m e) : Performs R result (.seq tag body) m e

/-- How statements in order end. -/
inductive PerformsAll (R : Reals) (result : Ty) : List Tree → (LocalId → Value) → Ending → Prop
  | nil {m : LocalId → Value} : PerformsAll R result [] m (.falls m)
  | falls {t : Tree} {ts : List Tree} {m m' : LocalId → Value} {e : Ending}
    (ht : Performs R result t m (.falls m')) (hts : PerformsAll R result ts m' e) :
    PerformsAll R result (t :: ts) m e
  | returns {t : Tree} {ts : List Tree} {m : LocalId → Value} {v : Option Value}
    (ht : Performs R result t m (.returns v)) : PerformsAll R result (t :: ts) m (.returns v)

end

/-! ## Operators and their types -/

theorem Value.int_of_ty {v : Value} (h : v.ty = .int) : ∃ i, v = .int i := by
  cases v <;> first | exact ⟨_, rfl⟩ | cases h

theorem Value.real_of_ty {v : Value} (h : v.ty = .real) : ∃ x, v = .real x := by
  cases v <;> first | exact ⟨_, rfl⟩ | cases h

namespace Reals

variable {R : Reals} {op : Intrinsic} {a b v : Value}

theorem promoted?_real {x y : Double} {f : Double → Double → Double} (hf : R.real? op = some f)
    (ha : R.promote? a = some x) (hb : R.promote? b = some y) :
    R.promoted? op a b = some (.real (f x y)) := by
  simp [promoted?, hf, ha, hb]

theorem promoted?_eq_some (h : R.promoted? op a b = some v) :
    ∃ f x y, R.real? op = some f ∧ R.promote? a = some x ∧ R.promote? b = some y ∧
      v = .real (f x y) := by
  simp only [promoted?, Option.bind_eq_bind, Option.bind_eq_some_iff, Option.pure_def,
    Option.some.injEq] at h
  obtain ⟨f, hf, x, hx, y, hy, rfl⟩ := h
  exact ⟨f, x, y, hf, hx, hy, rfl⟩

theorem binary?_int (h : R.binary? op a b = some v) (hv : v.ty = .int) :
    ∃ i j f, a = .int i ∧ b = .int j ∧ op.wrapping? = some f ∧ v = .int (f i j) := by
  unfold binary? at h
  split at h
  · next i j f hf =>
    cases h
    exact ⟨i, j, f, rfl, rfl, hf, rfl⟩
  · obtain ⟨f, x, y, -, -, -, rfl⟩ := promoted?_eq_some h
    cases hv

theorem binary?_ints {i j : Int64} {f : Int64 → Int64 → Int64} (hf : op.wrapping? = some f) :
    R.binary? op (.int i) (.int j) = some (.int (f i j)) := by
  simp [binary?, hf]

/-- With a real among the operands the other one becomes a real too. -/
theorem binary?_of_real (h : a.ty = .real ∨ b.ty = .real ∨ op.wrapping? = none) :
    R.binary? op a b = R.promoted? op a b := by
  unfold binary?
  split
  · next i j f hf =>
    rcases h with h | h | h
    · cases h
    · cases h
    · cases hf.symm.trans h
  · rfl

end Reals

/-! ## Values and memory -/

section

variable {R : Reals} {t : Tree} {m m' : LocalId → Value} {v : Value}

theorem stored_self (m : LocalId → Value) {store : Option LocalId} {x : LocalId}
    (hx : store = some x) (v : Value) : stored m store v x = v := by
  rw [hx, stored, Function.update_self]

theorem stored_of_ne (m : LocalId → Value) {store : Option LocalId} {x : LocalId}
    (hx : store ≠ some x) (v : Value) : stored m store v x = m x := by
  cases store with
  | none => rfl
  | some y => exact Function.update_of_ne (fun h => hx (congrArg some h.symm)) ..

theorem stored_congr {n : Nat} {m m' : LocalId → Value} (h : ∀ x < n, m' x = m x)
    (store : Option LocalId) (v : Value) : ∀ x < n, stored m' store v x = stored m store v x := by
  intro x hx
  by_cases hstore : store = some x
  · rw [stored_self _ hstore, stored_self _ hstore]
  · rw [stored_of_ne _ hstore, stored_of_ne _ hstore, h x hx]

theorem Evaluates.suits (h : Evaluates R t m v m') : t.ty.Suits v := by
  cases h with
  | const hty | load hty | binary _ _ _ hty => exact hty
  | toReal _ hty => exact fun _ => hty.symm

theorem Evaluates.stored (h : Evaluates R t m v m') {x : LocalId} (hx : t.store = some x) :
    m' x = v ∧ x ∈ t.defines := by
  cases h <;> exact ⟨stored_self _ hx _, by simp_all [Tree.defines, Tree.store, Tree.tag]⟩

theorem Evaluates.unchanged (h : Evaluates R t m v m') {x : LocalId} (hx : x ∉ t.stores) :
    m' x = m x := by
  induction h with
  | @const tag value m _ | @load tag y m _ =>
    exact stored_of_ne _ (fun h => hx (by simp [Tree.stores, h])) _
  | @binary tag op left right m m₁ m₂ a b v _ _ _ _ ihl ihr =>
    simp only [Tree.stores, List.mem_append, Option.mem_toList, not_or] at hx
    rw [stored_of_ne _ hx.2, ihr hx.1.2, ihl hx.1.1]
  | @toReal tag operand m m₁ i _ _ ih =>
    simp only [Tree.stores, List.mem_append, Option.mem_toList, not_or] at hx
    rw [stored_of_ne _ hx.2, ih hx.1]

theorem Evaluates.withStore (h : Evaluates R t m v m') (hs : t.store = none) (x : LocalId) :
    Evaluates R (t.withStore (some x)) m v (Function.update m' x v) := by
  cases h with
  | @const tag value _ hty =>
    rw [show tag.store = none from hs]
    exact @Evaluates.const R { tag with store := some x } v m hty
  | @load tag y _ hty =>
    rw [show tag.store = none from hs]
    exact @Evaluates.load R { tag with store := some x } y m hty
  | @binary tag op left right _ m₁ m₂ a b _ hl hr hv hty =>
    rw [show tag.store = none from hs]
    exact @Evaluates.binary R { tag with store := some x } op left right m m₁ m₂ a b v hl hr hv hty
  | @toReal tag operand _ m₁ i ho hty =>
    rw [show tag.store = none from hs]
    exact @Evaluates.toReal R { tag with store := some x } operand m m₁ i ho hty

end

end Codewright
