import Codewright.Proofs.Native.Arithmetic
import Codewright.Proofs.Native.Assembly

/-!
# The in-place form keeps the meaning

A tree that has code is straight (`Codable`). Evaluated from arguments of the right types it never
fails, and its in-place form has the same values: temporaries are no locals of the tree, and an
integer operand of an operator on reals is converted by the operator or before it, with the same
outcome.
-/

namespace Codewright.Native

open Evaluation Steps

/-! ## Trees that have code -/

mutual

/-- A tree is made of what the processor part knows. -/
def Codable : Tree → Prop
  | .const _ _ | .load _ _ | .ret _ => True
  | .binary tag op left right =>
    ((tag.ty = .int ∧ (Emit.intOp? op).isSome = true) ∨
      (tag.ty = .real ∧ (Emit.realOp? op).isSome = true)) ∧ Codable left ∧ Codable right
  | .toReal _ operand | .retValue _ operand => Codable operand
  | .seq _ body => AllCodable body
  | .unary _ _ _ | .call _ _ _ | .print _ _ | .failFast _ | .ifThen _ _ _ | .ifElse _ _ _ _
  | .loop _ _ _ => False

def AllCodable : List Tree → Prop
  | [] => True
  | t :: rest => Codable t ∧ AllCodable rest

end

theorem allCodable_iff {ts : List Tree} : AllCodable ts ↔ ∀ t ∈ ts, Codable t := by
  induction ts with
  | nil => simp [AllCodable]
  | cons t rest ih => simp [AllCodable, ih]

theorem codable_operated {op : Intrinsic} {lhs rhs l : Location} {ty left right : Ty}
    {code : List Instruction} (h : Operated op lhs rhs ty left right code l) :
    (ty = .int ∧ (Emit.intOp? op).isSome = true) ∨
    (ty = .real ∧ (Emit.realOp? op).isSome = true) := by
  cases h with
  | real ho => exact .inr ⟨rfl, by rw [ho]; rfl⟩
  | int ho => exact .inl ⟨rfl, by rw [ho]; rfl⟩

mutual

/-- Only such trees have code. -/
theorem Computed.codable {frame : Frame} : ∀ {t : Tree} {code : List Instruction}
    {l : Option Location},
    Computed frame t code l → Codable t
  | _, _, _, .const _ => trivial
  | _, _, _, .dropped _ => trivial
  | _, _, _, .load _ _ => trivial
  | _, _, _, .binary _ hl _ hr _ ho => ⟨codable_operated ho, hl.codable, hr.codable⟩
  | _, _, _, .toReal _ ho _ => ho.codable
  | _, _, _, .ret => trivial
  | .retValue _ value, _, _, .retConst hc => by
    cases value <;> first | trivial | simp [Emit.unstoredConstant?, Tree.constant?] at hc
  | _, _, _, .retValue _ hv => hv.codable
  | _, _, _, .seq h => h.codable

theorem ComputedAll.codable {frame : Frame} : ∀ {ts : List Tree} {code : List Instruction},
    ComputedAll frame ts code → AllCodable ts
  | _, _, .nil => trivial
  | _, _, .cons ht hts => ⟨ht.codable, hts.codable⟩

end

section

variable {t : Tree} {ts : List Tree} {s : Temporaries}

theorem codable_of_keep (h : Codable (s.keep t).1) : Codable t := by
  unfold Temporaries.keep at h
  cases hs : t.store with
  | some x =>
    rw [hs] at h
    exact h
  | none =>
    rw [hs] at h
    cases t <;> exact h

theorem codable_of_keepAs {real : Bool} (h : Codable (s.keepAs real t).1) : Codable t := by
  unfold Temporaries.keepAs at h
  dsimp only at h
  split at h
  · have hconverted : Codable (.toReal { ty := .real } (s.keep t).1) := codable_of_keep h
    have hkept : Codable (s.keep t).1 := hconverted
    exact codable_of_keep hkept
  · exact codable_of_keep h

theorem allCodable_of_nodes (ih : ∀ t ∈ ts, ∀ {s : Temporaries}, Codable (s.node t).1 → Codable t)
    (h : AllCodable (s.partAll none ts).1) : AllCodable ts := by
  induction ts generalizing s with
  | nil => trivial
  | cons t rest ihrest =>
    refine ⟨ih t List.mem_cons_self h.1, ?_⟩
    exact ihrest (fun a ha {s} => ih a (List.mem_cons_of_mem _ ha)) h.2

/-- What is made of a tree has code only if the tree is straight. -/
theorem codable_of_node (h : Codable (s.node t).1) : Codable t := by
  induction t using Tree.induction generalizing s with
  | const | load | ret => trivial
  | failFast => exact h
  | operator t f hf ih =>
    cases t <;> cases hf
    case binary.refl tag op left right =>
      obtain ⟨hop, hl, hr⟩ := h
      exact ⟨hop, ih left (by simp) (codable_of_keepAs hl), ih right (by simp)
        (codable_of_keepAs hr)⟩
    case toReal.refl tag operand =>
      have hoperand : Codable ((s.node operand).2.keep (s.node operand).1).1 := h
      exact ih operand (by simp) (codable_of_keep hoperand)
    all_goals exact h
  | seq tag body ih =>
    rw [Temporaries.node_seq] at h
    exact allCodable_of_nodes ih h
  | ifThen | ifElse | loop => exact h
  | retValue tag v ih => exact ih h

end

/-! ## Operators -/

/-- What the types of two operands say about an operator that has code. -/
theorem types_of_check {op : Intrinsic} {left right ty : Ty} (h : op.check [left, right] = .ok ty)
    (hop : (Emit.realOp? op).isSome = true) :
    (left = .int ∨ left = .real) ∧ (right = .int ∨ right = .real) ∧
      ((ty = .int ∧ left = .int ∧ right = .int ∧ op.wrapping?.isSome = true) ∨
        (ty = .real ∧ (left = .real ∨ right = .real ∨ op.wrapping? = none))) := by
  cases op <;> first
    | exact absurd hop (by decide)
    | (cases left <;> cases right <;> cases h <;> decide)

theorem realOp?_of_intOp? {op : Intrinsic} (h : (Emit.intOp? op).isSome = true) :
    (Emit.realOp? op).isSome = true := by
  cases op <;> first | rfl | exact absurd h (by decide)

/-- A value that is made a real if `real` asks for it. -/
def raised (R : Reals) (real : Bool) (v : Value) : Value :=
  match real, v with
  | true, .int i => .real (R.ofInt i)
  | _, v => v

section

variable {R : Reals} {op : Intrinsic} {left right ty : Ty} {a b : Value}

theorem promote?_number (h : a.ty = .int ∨ a.ty = .real) : ∃ x, R.promote? a = some x := by
  cases a with
  | int i => exact ⟨_, rfl⟩
  | real x => exact ⟨_, rfl⟩
  | bool p => rcases h with h | h <;> cases h

theorem promote?_raised : R.promote? (raised R true a) = R.promote? a := by
  cases a <;> rfl

theorem ty_raised (h : a.ty = .int ∨ a.ty = .real) : (raised R true a).ty = .real := by
  cases a with
  | int i => rfl
  | real x => rfl
  | bool p => rcases h with h | h <;> cases h

/-- An operator that has code has a value of its type, also after its operands have been made
reals. -/
theorem exists_binary? (h : op.check [left, right] = .ok ty)
    (hop : (ty = .int ∧ (Emit.intOp? op).isSome = true) ∨
      (ty = .real ∧ (Emit.realOp? op).isSome = true))
    (ha : a.ty = left) (hb : b.ty = right) :
    ∃ v, R.binary? op a b = some v ∧ v.ty = ty ∧
      R.binary? op (raised R (ty == .real) a) (raised R (ty == .real) b) = some v := by
  have hreal : (Emit.realOp? op).isSome = true :=
    hop.elim (fun h => realOp?_of_intOp? h.2) (fun h => h.2)
  subst ha hb
  obtain ⟨hl, hr, ⟨rfl, hli, hri, hints⟩ | ⟨rfl, hsome⟩⟩ := types_of_check h hreal
  · obtain ⟨i, rfl⟩ := Value.int_of_ty hli
    obtain ⟨j, rfl⟩ := Value.int_of_ty hri
    obtain ⟨f, hf⟩ := Option.isSome_iff_exists.mp hints
    exact ⟨_, Reals.binary?_ints hf, rfl, Reals.binary?_ints hf⟩
  · obtain ⟨x, hx⟩ := promote?_number (R := R) hl
    obtain ⟨y, hy⟩ := promote?_number (R := R) hr
    have hf : ∃ f, R.real? op = some f := by
      cases op <;> first | exact ⟨_, rfl⟩ | exact absurd hreal (by decide)
    obtain ⟨f, hf⟩ := hf
    refine ⟨.real (f x y), ?_, rfl, ?_⟩
    · rw [Reals.binary?_of_real hsome]
      exact Reals.promoted?_real hf hx hy
    · rw [beq_self_eq_true, Reals.binary?_of_real (.inl (ty_raised hl))]
      exact Reals.promoted?_real hf (promote?_raised.trans hx) (promote?_raised.trans hy)

end

/-! ## Expressions -/

section

variable {R : Reals} {t : Tree} {m m₁ : LocalId → Value} {v : Value} {s : Temporaries} {n : Nat}

theorem evaluates_keep (h : Evaluates R t m v m₁) (hs : t.store = none) (hn : n ≤ s.locals.size) :
    ∃ m₂, Evaluates R (s.keep t).1 m v m₂ ∧ ∀ x < n, m₂ x = m₁ x := by
  unfold Temporaries.keep
  rw [hs]
  refine ⟨_, h.withStore hs s.locals.size, fun x hx => ?_⟩
  exact Function.update_of_ne (Nat.ne_of_lt (Nat.lt_of_lt_of_le hx hn)) ..

/-- An operand that is kept has its value, made a real if that is asked for. -/
theorem evaluates_keepAs (h : Evaluates R t m v m₁) (hs : t.store = none) (hty : v.ty = t.ty)
    (real : Bool) (hn : n ≤ s.locals.size) :
    ∃ m₂, Evaluates R (s.keepAs real t).1 m (raised R real v) m₂ ∧ ∀ x < n, m₂ x = m₁ x := by
  obtain ⟨m₂, hkept, hm₂⟩ := evaluates_keep h hs hn
  unfold Temporaries.keepAs
  dsimp only
  split
  · next hreal =>
    rw [Bool.and_eq_true, beq_iff_eq] at hreal
    obtain ⟨rfl, hint⟩ := hreal
    obtain ⟨i, rfl⟩ := Value.int_of_ty (hty.trans hint)
    have hn' : n ≤ (s.keep t).2.locals.size := by
      unfold Temporaries.keep
      rw [hs]
      simp only [Array.size_push]
      omega
    have hconverted : Evaluates R (.toReal { ty := .real } (s.keep t).1) m (.real (R.ofInt i)) m₂ :=
      .toReal hkept rfl
    obtain ⟨m₃, hkept', hm₃⟩ := evaluates_keep hconverted rfl hn'
    exact ⟨m₃, hkept', fun x hx => (hm₃ x hx).trans (hm₂ x hx)⟩
  · next hreal =>
    refine ⟨m₂, ?_, hm₂⟩
    have hsame : raised R real v = v := by
      cases real with
      | false => rfl
      | true =>
        cases v with
        | int i =>
          rw [← hty] at hreal
          exact absurd rfl hreal
        | real | bool => rfl
    rw [hsame]
    exact hkept

end

section

variable {R : Reals} {t : Tree} {v : Value} {fuel : Nat}
  {run run₁ run₂ : Run Value Empty (LocalId → Value)}

theorem eval_of_compute (h : compute R.meaning separate fuel t run = .ok (some v) run₁) :
    eval R.meaning separate fuel t run =
      .ok (some v) { run₁ with memory := stored run₁.memory t.store v } := by
  rw [eval, bind_of_ok h]
  cases t.store <;> rfl

/-- An operator finds the values of its operands, wherever they are stored. -/
theorem given_separate (run : Run Value Empty (LocalId → Value)) (stores : List (Option LocalId))
    (vs : List Value) (h : stores.length = vs.length) :
    given separate stores (vs.map some) run = .ok vs run := by
  have hfetched : ∀ (stores : List (Option LocalId)) (vs : List Value), stores.length = vs.length →
      ((stores.zip (vs.map some)).filterMap fun e => e.2.map (fetched separate run.memory e.1)) =
          vs := by
    intro stores
    induction stores with
    | nil =>
      intro vs h
      rw [List.eq_nil_of_length_eq_zero h.symm]
      rfl
    | cons store rest ih =>
      intro vs h
      cases vs with
      | nil => cases h
      | cons v vs =>
        have hv : fetched separate run.memory store v = v := by cases store <;> rfl
        simp only [List.map_cons, List.zip_cons_cons, List.filterMap_cons, Option.map_some, hv]
        rw [ih vs (Nat.succ.inj h)]
  exact congrArg (EStateM.Result.ok · run) (hfetched stores vs h)

theorem perform_intrinsic {op : Intrinsic} {args : List Value} (h : R.value? op args = some v) :
    perform R.meaning (.intrinsic op) args run = .ok v { run with events := run.events ++ [] } := by
  simp only [perform, Reals.meaning, h]

theorem compute_binary {tag : Tag} {op : Intrinsic} {left right : Tree} {a b : Value}
    (hl : eval R.meaning separate fuel left run = .ok (some a) run₁)
    (hr : eval R.meaning separate fuel right run₁ = .ok (some b) run₂)
    (hv : R.binary? op a b = some v) :
    compute R.meaning separate fuel (.binary tag op left right) run =
      .ok (some v) { run₂ with events := run₂.events ++ [] } := by
  have hgiven := given_separate run₂ [left.store, right.store] [a, b] rfl
  have hargs : R.value? op [a, b] = some v := hv
  rw [compute]
  refine (bind_of_ok hl).trans ((bind_of_ok hr).trans ((bind_of_ok hgiven).trans ?_))
  rw [bind_of_ok (perform_intrinsic hargs), pure_apply]

theorem compute_toReal {tag : Tag} {operand : Tree} {i : Int64}
    (ho : eval R.meaning separate fuel operand run = .ok (some (.int i)) run₁) :
    compute R.meaning separate fuel (.toReal tag operand) run =
      .ok (some (.real (R.ofInt i))) { run₁ with events := run₁.events ++ [] } := by
  have hgiven := given_separate run₁ [operand.store] [.int i] rfl
  have hargs : R.value? .toReal [.int i] = some (.real (R.ofInt i)) := rfl
  rw [compute]
  refine (bind_of_ok ho).trans ((bind_of_ok hgiven).trans ?_)
  rw [bind_of_ok (perform_intrinsic hargs), pure_apply]

end

section

variable {R : Reals} {Θ : Typing} {t : Tree} {n fuel : Nat} {s : Temporaries}
  {run : Run Value Empty (LocalId → Value)} {m : LocalId → Value}

theorem suits_node {v : Value} {m' : LocalId → Value} (h : Evaluates R (s.node t).1 m v m') :
    t.ty.Suits v := by
  have hsuits := h.suits
  rwa [Temporaries.ty_node] at hsuits

/-- An expression has a value, and its in-place form has the same one. The first `n` locals are no
temporaries. -/
def NodeEvaluates (R : Reals) (Θ : Typing) (n fuel : Nat) (t : Tree) : Prop :=
  ∀ (s : Temporaries) (run : Run Value Empty (LocalId → Value)) (m : LocalId → Value),
    (∀ x ∈ t.loads, (Θ.ofLocal x).Suits (run.memory x)) → n ≤ s.locals.size →
    (∀ x < n, m x = run.memory x) →
    ∃ v run' m', eval R.meaning separate fuel t run = .ok (some v) run' ∧
      run'.memory = stored run.memory t.store v ∧ Evaluates R (s.node t).1 m v m' ∧
      ∀ x < n, m' x = run'.memory x

/-- The same for an operand, which is kept in a temporary and made a real if `real` asks for it. -/
theorem NodeEvaluates.operand (h : NodeEvaluates R Θ n fuel t) (hs : t.store = none)
    (hvalue : t.ty.isValue = true) (hloads : ∀ x ∈ t.loads, (Θ.ofLocal x).Suits (run.memory x))
    (hn : n ≤ s.locals.size) (hsame : ∀ x < n, m x = run.memory x) (real : Bool) :
    ∃ v run' m', eval R.meaning separate fuel t run = .ok (some v) run' ∧ run'.memory = run.memory ∧
      v.ty = t.ty ∧
      Evaluates R ((s.node t).2.keepAs real (s.node t).1).1 m (raised R real v) m' ∧
      (∀ x < n, m' x = run'.memory x) ∧
      n ≤ ((s.node t).2.keepAs real (s.node t).1).2.locals.size := by
  obtain ⟨v, run', m₁, heval, hmem, hnode, hsame₁⟩ := h s run m hloads hn hsame
  have hn₁ := Nat.le_trans hn (dressed_node t s).grown.size_le
  have hn₂ := Nat.le_trans hn ((dressed_node t s).keepAs real).grown.size_le
  have hty : v.ty = t.ty := suits_node hnode hvalue
  have hs' : (s.node t).1.store = none := by rw [Tree.store, Temporaries.tag_node]; exact hs
  have hty' : v.ty = (s.node t).1.ty := by rw [hty, Temporaries.ty_node]
  obtain ⟨m₂, hkeep, hsame₂⟩ := evaluates_keepAs hnode hs' hty' real hn₁
  rw [hs] at hmem
  exact ⟨v, run', m₂, heval, hmem, hty, hkeep, fun x hx => (hsame₂ x hx).trans (hsame₁ x hx), hn₂⟩

theorem evaluates_node (he : t.IsExpr) (hb : t.Bare) (ht : t.Typed Θ) (hc : Codable t)
    (hm : ∀ x ∈ t.mentions, x < n) : NodeEvaluates R Θ n fuel t := by
  -- temporaries have numbers from `n` on, so the locals of the tree keep their values
  induction t using Tree.induction with
  | const tag value =>
    intro s run m hloads hn hsame
    refine ⟨value, _, _, eval_of_compute rfl, rfl, .const fun _ => ht.2.symm, ?_⟩
    exact stored_congr hsame tag.store value
  | load tag x =>
    intro s run m hloads hn hsame
    have hx : m x = run.memory x := hsame x (hm x (by simp [Tree.mentions, Tree.loads]))
    have hty : tag.ty.Suits (m x) := by
      rw [hx, ht.2]
      exact hloads x (by simp [Tree.loads])
    have hcompute : compute R.meaning separate fuel (.load tag x) run =
        .ok (some (m x)) { run with reads := run.reads ++ [(x, m x)] } := by
      rw [hx]
      rfl
    exact ⟨m x, _, _, eval_of_compute hcompute, rfl, .load hty, stored_congr hsame tag.store (m x)⟩
  | failFast => exact hc.elim
  | operator t f hf ih =>
    intro s run m hloads hn hsame
    have hmf : ∀ a ∈ f.operands, ∀ x ∈ a.mentions, x < n := fun a ha x hx =>
      hm x (Tree.mentions_of_parts (by rwa [Tree.parts_operator hf]) hx)
    cases t <;> cases hf
    case binary.refl tag op left right =>
      obtain ⟨-, -, hcheck, htl, htr⟩ := ht
      obtain ⟨⟨hsl, hbl⟩, hsr, hbr⟩ := hb
      obtain ⟨hop, hcl, hcr⟩ := hc
      have hvalues := Intrinsic.isValue_of_check_operands hcheck
      have hleft := ih left (by simp) he.1 hbl htl hcl (hmf left (by simp))
      have hright := ih right (by simp) he.2 hbr htr hcr (hmf right (by simp))
      obtain ⟨a, run₁, m₁, heval₁, hmem₁, hty₁, hnode₁, hsame₁, hn₁⟩ := hleft.operand hsl
        (hvalues _ (by simp)) (fun x hx => hloads x (by simp [Tree.loads, hx])) hn hsame
        (tag.ty == .real)
      obtain ⟨b, run₂, m₂, heval₂, hmem₂, hty₂, hnode₂, hsame₂, -⟩ := hright.operand hsr
        (hvalues _ (by simp))
          (fun x hx => by rw [hmem₁]; exact hloads x (by simp [Tree.loads, hx])) hn₁
        hsame₁ (tag.ty == .real)
      obtain ⟨v, hv, hvty, hraised⟩ := exists_binary? (R := R) hcheck hop hty₁ hty₂
      refine ⟨v, _, _, eval_of_compute (compute_binary heval₁ heval₂ hv), ?_,
        .binary hnode₁ hnode₂ hraised fun _ => hvty, stored_congr hsame₂ tag.store v⟩
      exact congrArg (stored · tag.store v) (hmem₂.trans hmem₁)
    case toReal.refl tag operand =>
      obtain ⟨-, hreal, hint, hto⟩ := ht
      have hoperand := ih operand (by simp) he hb.2 hto hc (hmf operand (by simp))
      obtain ⟨a, run₁, m₁, heval₁, hmem₁, hty₁, hnode₁, hsame₁, -⟩ := hoperand.operand hb.1
        (by rw [hint]; rfl) (fun x hx => hloads x hx) hn hsame false
      obtain ⟨i, rfl⟩ := Value.int_of_ty (hty₁.trans hint)
      rw [Temporaries.keepAs_false] at hnode₁
      refine ⟨_, _, _, eval_of_compute (compute_toReal heval₁), ?_, .toReal hnode₁ hreal,
        stored_congr hsame₁ tag.store _⟩
      exact congrArg (stored · tag.store _) hmem₁
    all_goals exact hc.elim
  | seq | ifThen | ifElse | loop | ret | retValue => exact he.elim

end

/-! ## Statements -/

/-- The known locals have values of their types. -/
def Suited (Θ : Typing) (Γ : Set LocalId) (m : LocalId → Value) : Prop :=
  ∀ x ∈ Γ, (Θ.ofLocal x).Suits (m x)

/-- An evaluation and an ending are the same: both fall through, which is only for what need not
return, or both return a value that is of the type of the result. -/
inductive Ends (Θ : Typing) (n : Nat) (Γ : Set LocalId) (returns : Bool) {α : Type} :
    EStateM.Result (Stop Value) (Run Value Empty (LocalId → Value)) α → Ending → Prop
  | falls {a : α} {run : Run Value Empty (LocalId → Value)} {m : LocalId → Value}
    (hreturns : returns = false) (hsuited : Suited Θ Γ run.memory)
    (hsame : ∀ x < n, m x = run.memory x) : Ends Θ n Γ returns (.ok a run) (.falls m)
  | returns {v : Option Value} {run : Run Value Empty (LocalId → Value)}
    (hsome : v.isSome = true ↔ Θ.result ≠ .void) (hsuits : ∀ w, v = some w → Θ.result.Suits w) :
    Ends Θ n Γ returns (.error (.returned v) run) (.returns v)

section

variable {R : Reals} {Θ : Typing} {t : Tree} {ts : List Tree} {n fuel : Nat} {s : Temporaries}
  {run : Run Value Empty (LocalId → Value)} {m : LocalId → Value} {Γ U : Set LocalId}

/-- A statement ends, and its in-place form ends alike. -/
def NodePerforms (R : Reals) (Θ : Typing) (n fuel : Nat) (t : Tree) : Prop :=
  ∀ (s : Temporaries) (run : Run Value Empty (LocalId → Value)) (m : LocalId → Value)
    (Γ U : Set LocalId),
    t.Scoped Γ U → Suited Θ Γ run.memory → n ≤ s.locals.size → (∀ x < n, m x = run.memory x) →
    ∃ e, Performs R Θ.result (s.node t).1 m e ∧
      Ends Θ n (withLocals Γ t.defines) t.returns (eval R.meaning separate fuel t run) e

theorem suited_stored {v : Value} (he : t.IsExpr) (hb : t.Bare) (ht : t.Typed Θ)
    (hm : Suited Θ Γ m) (hv : t.ty.Suits v) :
    Suited Θ (withLocals Γ t.defines) (stored m t.store v) := by
  intro x hx
  by_cases hstore : t.store = some x
  · obtain ⟨hty, -⟩ := he.stores_typed ht x hstore
    rw [stored_self m hstore, hty]
    exact hv
  · rw [stored_of_ne m hstore]
    refine hm x (hx.resolve_right fun hx => hstore ?_)
    have hmem := Tree.stores_of_defines t hx
    rwa [he.stores_of_bare hb, Option.mem_toList] at hmem

theorem performs_expr (he : t.IsExpr) (hb : t.Bare) (ht : t.Typed Θ) (hc : Codable t)
    (hm : ∀ x ∈ t.mentions, x < n) : NodePerforms R Θ n fuel t := by
  intro s run m Γ U hs hsuited hn hsame
  have hloads := (he.scopedExpr hs).loads_of_bare hb
  obtain ⟨v, run', m', heval, hmem, hnode, hsame'⟩ := evaluates_node he hb ht hc hm s run m
    (fun x hx => hsuited x (hloads x hx)) hn hsame
  refine ⟨.falls m', .expr hnode, ?_⟩
  rw [heval]
  refine .falls ?_ ?_ hsame'
  · cases t <;> first | rfl | exact he.elim
  · rw [hmem]
    exact suited_stored he hb ht hsuited (suits_node hnode)

theorem performs_nodes (ih : ∀ t ∈ ts, NodePerforms R Θ n fuel t)
    (hs : Tree.InOrder Tree.Scoped Γ U ts)
    (hsuited : Suited Θ Γ run.memory) (hn : n ≤ s.locals.size)
    (hsame : ∀ x < n, m x = run.memory x) :
    ∃ e, PerformsAll R Θ.result (s.partAll none ts).1 m e ∧
      Ends Θ n (withLocals Γ (Tree.definesAll ts)) (Tree.anyReturns ts)
        (runAll R.meaning separate fuel ts run) e := by
  induction ts generalizing s run m Γ U with
  | nil =>
    refine ⟨.falls m, .nil, ?_⟩
    rw [runAll_nil]
    exact .falls rfl (by simpa [Tree.definesAll] using hsuited) hsame
  | cons t rest ihrest =>
    obtain ⟨e, hperforms, hends⟩ := ih t List.mem_cons_self s run m Γ U hs.1 hsuited hn hsame
    rw [runAll_cons, Steps.bind_apply]
    generalize eval R.meaning separate fuel t run = result at hends
    cases hends with
    | @falls a run' m' hreturns hsuited' hsame' =>
      obtain ⟨e', hperforms', hends'⟩ := ihrest (fun a ha => ih a (List.mem_cons_of_mem _ ha))
        hs.2 hsuited' (Nat.le_trans hn (dressed_node t s).grown.size_le) hsame'
      refine ⟨e', .falls hperforms hperforms', ?_⟩
      rw [Tree.definesAll, withLocals_append, Tree.anyReturns, hreturns, Bool.false_or]
      exact hends'
    | @returns v run' hsome hsuits => exact ⟨.returns v, .returns hperforms, .returns hsome hsuits⟩

theorem performs_node (hb : t.Bare) (ht : t.Typed Θ) (hc : Codable t)
    (hm : ∀ x ∈ t.mentions, x < n) : NodePerforms R Θ n fuel t := by
  induction t using Tree.induction with
  | const | load => exact performs_expr trivial hb ht hc hm
  | failFast | ifThen | ifElse | loop => exact hc.elim
  | operator t f hf _ =>
    intro s run m Γ U hs
    exact performs_expr ((Tree.scoped_operator hf).mp hs).isExpr hb ht hc hm s run m Γ U hs
  | seq tag body ih =>
    intro s run m Γ U hs hsuited hn hsame
    have hstatements : ∀ a ∈ body, NodePerforms R Θ n fuel a := fun a ha =>
      ih a ha (Tree.allBare_iff.mp hb a ha) (Tree.allTyped_iff.mp ht.2 a ha)
        (allCodable_iff.mp hc a ha)
        fun x hx => hm x (Tree.mentions_of_parts (t := .seq tag body) ha hx)
    obtain ⟨e, hperforms, hends⟩ :=
      performs_nodes hstatements (Tree.scoped_seq.mp hs).2 hsuited hn hsame
    refine ⟨e, by rw [Temporaries.node_seq]; exact .seq hperforms, ?_⟩
    rw [eval_seq, Steps.bind_apply]
    generalize runAll R.meaning separate fuel body run = result at hends
    cases hends with
    | falls hreturns hsuited' hsame' =>
      refine .falls hreturns (fun x hx => hsuited' x (hx.imp_right ?_)) hsame'
      exact fun hx => absurd hx List.not_mem_nil
    | returns hsome hsuits => exact .returns hsome hsuits
  | ret tag =>
    intro s run m Γ U hs hsuited hn hsame
    exact ⟨.returns none, .ret, .returns (by simp [ht.2]) (by simp)⟩
  | retValue tag value _ =>
    intro s run m Γ U hs hsuited hn hsame
    obtain ⟨-, hresult, hty, htv⟩ := ht
    have hmv : ∀ x ∈ value.mentions, x < n :=
      fun x hx => hm x (Tree.mem_mentions_retValue.mpr (.inl hx))
    have hloads := hs.2.loads_of_bare hb.2
    obtain ⟨v, run', m', heval, -, hnode, -⟩ := evaluates_node hs.2.isExpr hb.2 htv hc hmv s run m
      (fun x hx => hsuited x (hloads x hx)) hn hsame
    refine ⟨.returns (some v), .retValue hnode (by rw [Temporaries.ty_node]; exact hty), ?_⟩
    rw [eval_retValue, Steps.bind_of_ok heval]
    refine .returns (by simpa using hresult) ?_
    rintro w hw
    cases hw
    rw [← hty]
    exact suits_node hnode

end

end Codewright.Native
