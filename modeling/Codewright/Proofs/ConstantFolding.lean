import Codewright.Proofs.Parts
import Codewright.Tree.ConstantFolding

/-!
# Constant folding keeps types and meaning

A folded operator takes its type from the value that it became, not from the node that was there.
That the two agree is a property of the table of intrinsics: wherever `onConstants?` gives a value,
`check` admits the operands and gives the type of that value (`check_of_onConstants?`).

For the meaning, an interpretation has to do on constants what folding does, without an event. Then
the folded tree runs like the tree itself, from every memory and under every way of keeping locals
(`eval_folded`). Operators that have no rule, or a divisor that is zero, stay where they are.
-/

namespace Codewright

/-! ## Types of operators -/

namespace Intrinsic

theorem check_of_onInts? {op : Intrinsic} {x y : Int64} {c : Value} (h : op.onInts? x y = some c) :
    op.check [.int, .int] = .ok c.ty := by
  cases op <;> simp only [onInts?] at h <;> (try split at h) <;> cases h <;> rfl

theorem check_of_onBools? {op : Intrinsic} {x y : Bool} {c : Value} (h : op.onBools? x y = some c) :
    op.check [.bool, .bool] = .ok c.ty := by
  cases op <;> cases h <;> rfl

theorem check_of_onReals? {op : Intrinsic} {x y : Double} {c : Value}
    (h : op.onReals? x y = some c) :
    op.check [.real, .real] = .ok c.ty ∧ op.check [.int, .real] = .ok c.ty
      ∧ op.check [.real, .int] = .ok c.ty := by
  cases op <;> simp only [onReals?] at h <;> (try split at h) <;> cases h <;> exact ⟨rfl, rfl, rfl⟩

/-- Where a binary operator has a value on constants, it suits them and has the type of that
value. -/
theorem check_of_onConstants? {op : Intrinsic} {a b c : Value} (h : op.onConstants? a b = some c) :
    op.check [a.ty, b.ty] = .ok c.ty := by
  cases a with
  | int x =>
    cases b with
    | int y => exact check_of_onInts? h
    | real y => exact (check_of_onReals? h).2.1
    | bool y => simp [onConstants?, Value.toReal?] at h
  | real x =>
    cases b with
    | int y => exact (check_of_onReals? h).2.2
    | real y => exact (check_of_onReals? h).1
    | bool y => simp [onConstants?, Value.toReal?] at h
  | bool x =>
    cases b with
    | bool y => exact check_of_onBools? h
    | _ => simp [onConstants?, Value.toReal?] at h

/-- Where a unary operator has a value on a constant, it suits it and has the type of that value. -/
theorem check_of_onConstant? {op : Intrinsic} {a c : Value} (h : op.onConstant? a = some c) :
    op.check [a.ty] = .ok c.ty := by
  cases op <;> cases a <;> cases h <;> rfl

end Intrinsic

/-- A number that cannot be divided by. -/
def Value.isZero : Value → Bool
  | .int n => n == 0
  | .real x => x.isZero
  | .bool _ => false

namespace Intrinsic

/-- The operators that fail on a zero. -/
def divides : Intrinsic → Bool
  | .div | .intDiv | .mod => true
  | _ => false

/-- Nothing is divided by zero ahead of the run. -/
theorem onConstants?_zero {op : Intrinsic} (hop : op.divides = true) (a : Value) {b : Value}
    (hb : b.isZero = true) : op.onConstants? a b = none := by
  have h0 : (Double.ofInt 0).isZero = true := by decide
  cases op <;> simp only [divides, Bool.false_eq_true] at hop <;> cases a <;> cases b <;>
    simp_all [onConstants?, onInts?, onReals?, Value.toReal?, Value.isZero]

end Intrinsic

namespace Tree

/-! ## Trees to be folded -/

mutual

/-- Every node that the table of intrinsics decides on has the type that the table gives for its
operands, and every constant has the type of its value. -/
def OperatorsTyped : Tree → Prop
  | .const tag value => tag.ty = value.ty
  | .binary tag op left right =>
    op.check [left.ty, right.ty] = .ok tag.ty ∧ OperatorsTyped left ∧ OperatorsTyped right
  | .unary tag op operand => op.check [operand.ty] = .ok tag.ty ∧ OperatorsTyped operand
  | .toReal tag operand =>
    Intrinsic.toReal.check [operand.ty] = .ok tag.ty ∧ OperatorsTyped operand
  | .print tag args => Intrinsic.print.check (args.map ty) = .ok tag.ty ∧ AllOperatorsTyped args
  | .failFast tag => Intrinsic.failFast.check [] = .ok tag.ty
  | .call _ _ args => AllOperatorsTyped args
  | .seq _ body => AllOperatorsTyped body
  | .ifThen _ condition yes => OperatorsTyped condition ∧ OperatorsTyped yes
  | .ifElse _ condition yes no =>
    OperatorsTyped condition ∧ OperatorsTyped yes ∧ OperatorsTyped no
  | .loop _ condition body => OperatorsTyped condition ∧ OperatorsTyped body
  | .retValue _ value => OperatorsTyped value
  | .load _ _ | .ret _ => True

def AllOperatorsTyped : List Tree → Prop
  | [] => True
  | t :: rest => OperatorsTyped t ∧ AllOperatorsTyped rest

end

mutual

/-- No operand of a binary or unary operator carries a store. -/
def BareOperands : Tree → Prop
  | .binary _ _ left right =>
    left.store = none ∧ right.store = none ∧ BareOperands left ∧ BareOperands right
  | .unary _ _ operand => operand.store = none ∧ BareOperands operand
  | .toReal _ operand => BareOperands operand
  | .print _ args => AllBareOperands args
  | .call _ _ args => AllBareOperands args
  | .seq _ body => AllBareOperands body
  | .ifThen _ condition yes => BareOperands condition ∧ BareOperands yes
  | .ifElse _ condition yes no => BareOperands condition ∧ BareOperands yes ∧ BareOperands no
  | .loop _ condition body => BareOperands condition ∧ BareOperands body
  | .retValue _ value => BareOperands value
  | .const _ _ | .load _ _ | .failFast _ | .ret _ => True

def AllBareOperands : List Tree → Prop
  | [] => True
  | t :: rest => BareOperands t ∧ AllBareOperands rest

end

theorem allBareOperands_iff {ts : List Tree} : AllBareOperands ts ↔ ∀ t ∈ ts, t.BareOperands := by
  induction ts with
  | nil => simp [AllBareOperands]
  | cons t rest ih => simp [AllBareOperands, ih]

theorem BareOperands.parts {t : Tree} (h : t.BareOperands) : ∀ p ∈ t.parts, p.BareOperands := by
  cases t <;> simp_all [BareOperands, Tree.parts, allBareOperands_iff]

/-! ## The folded tree -/

mutual

/-- The tree that folding gives, without the count. -/
def folded : Tree → Tree
  | .binary tag op left right => (foldBinary tag op (folded left) (folded right) 0).1
  | .unary tag op operand => (foldUnary tag op (folded operand) 0).1
  | .call tag callee args => .call tag callee (allFolded args)
  | .ifThen tag condition yes => .ifThen tag (folded condition) (folded yes)
  | .ifElse tag condition yes no => .ifElse tag (folded condition) (folded yes) (folded no)
  | .loop tag condition body => .loop tag (folded condition) (folded body)
  | .retValue tag value => .retValue tag (folded value)
  | .seq tag body => .seq tag (allFolded body)
  | .print tag args => .print tag (allFolded args)
  | .toReal tag operand => .toReal tag (folded operand)
  | .const tag value => .const tag value
  | .load tag x => .load tag x
  | .ret tag => .ret tag
  | .failFast tag => .failFast tag

def allFolded : List Tree → List Tree
  | [] => []
  | t :: rest => folded t :: allFolded rest

end

theorem allFolded_eq_map (ts : List Tree) : allFolded ts = ts.map folded := by
  induction ts with
  | nil => rfl
  | cons t rest ih => simp [allFolded, ih]

/-- The value of an operator on constants that have a rule. -/
def foldValue? : Tree → Option Value
  | .binary _ op left right => left.constant?.bind fun a => right.constant?.bind (op.onConstants? a)
  | .unary _ op operand => operand.constant?.bind op.onConstant?
  | _ => none

/-- What folding makes of a node when its parts are folded. -/
def foldNode (t : Tree) (n : Nat) : Tree × Nat :=
  match t.foldValue? with
  | some c => (.const { t.tag with ty := c.ty } c, n + 1)
  | none => (t, n)

section

variable {t : Tree} {c : Value}

theorem constant?_eq_some {v : Value} (h : t.constant? = some v) : ∃ tag, t = .const tag v := by
  cases t <;> simp_all [constant?]

theorem foldValue?_eq_some (h : t.foldValue? = some c) :
    (∃ tag op tl a tr b, t = .binary tag op (.const tl a) (.const tr b) ∧
      op.onConstants? a b = some c) ∨
      ∃ tag op tt a, t = .unary tag op (.const tt a) ∧ op.onConstant? a = some c := by
  cases t with
  | binary tag op l r =>
    obtain ⟨a, ha, h⟩ := Option.bind_eq_some_iff.mp h
    obtain ⟨b, hb, hab⟩ := Option.bind_eq_some_iff.mp h
    obtain ⟨tl, rfl⟩ := constant?_eq_some ha
    obtain ⟨tr, rfl⟩ := constant?_eq_some hb
    exact .inl ⟨tag, op, tl, a, tr, b, rfl, hab⟩
  | unary tag op t =>
    obtain ⟨a, ha, hc⟩ := Option.bind_eq_some_iff.mp h
    obtain ⟨tt, rfl⟩ := constant?_eq_some ha
    exact .inr ⟨tag, op, tt, a, rfl, hc⟩
  | _ => cases h

theorem foldBinary_eq (tag : Tag) (op : Intrinsic) (l r : Tree) (n : Nat) :
    foldBinary tag op l r n = foldNode (.binary tag op l r) n := by
  simp only [foldBinary, foldNode, foldValue?]
  cases l.constant? with
  | none => rfl
  | some a => cases r.constant? <;> rfl

theorem fold_eq (t : Tree) (n : Nat) :
    t.fold n = foldNode (t.withParts (foldAll n [] t.parts).1) (foldAll n [] t.parts).2 := by
  cases t with
  | binary tag op l r => exact foldBinary_eq ..
  | unary => rfl
  | _ => simp [fold, foldAll, parts, withParts, foldNode, foldValue?]

theorem folded_eq (t : Tree) : t.folded = (foldNode (t.withParts (t.parts.map folded)) 0).1 := by
  cases t with
  | binary tag op l r => exact congrArg Prod.fst (foldBinary_eq ..)
  | unary => rfl
  | _ => simp [folded, allFolded_eq_map, parts, withParts, foldNode, foldValue?]

theorem foldAll_fst {ts : List Tree} (ih : ∀ t ∈ ts, ∀ n, (t.fold n).1 = t.folded) (n : Nat)
    (done : List Tree) : (foldAll n done ts).1 = done.reverse ++ ts.map folded := by
  induction ts generalizing n done with
  | nil => simp [foldAll]
  | cons t rest ihrest =>
    rw [foldAll, ihrest (fun t ht => ih t (List.mem_cons_of_mem _ ht)), ih t List.mem_cons_self]
    simp

theorem fold_fst (n : Nat) (t : Tree) : (t.fold n).1 = t.folded := by
  induction t using induction_parts generalizing n with
  | h t ih =>
    rw [fold_eq, folded_eq, foldAll_fst ih, List.reverse_nil, List.nil_append]
    unfold foldNode
    split <;> rfl

@[simp] theorem store_folded (t : Tree) : t.folded.store = t.store := by
  rw [← store_withParts t (t.parts.map folded), folded_eq, foldNode]
  split <;> rfl

end

/-! ## Types -/

section

variable {t : Tree} {ts : List Tree} {c : Value}

theorem allOperatorsTyped_iff : AllOperatorsTyped ts ↔ ∀ t ∈ ts, t.OperatorsTyped := by
  induction ts with
  | nil => simp [AllOperatorsTyped]
  | cons t rest ih => simp [AllOperatorsTyped, ih]

theorem OperatorsTyped.parts (h : t.OperatorsTyped) : ∀ p ∈ t.parts, p.OperatorsTyped := by
  cases t <;> simp_all [OperatorsTyped, Tree.parts, allOperatorsTyped_iff]

theorem OperatorsTyped.withParts (h : t.OperatorsTyped) (hty : ts.map ty = t.parts.map ty)
    (hts : ∀ p ∈ ts, p.OperatorsTyped) : (t.withParts ts).OperatorsTyped := by
  fun_cases Tree.withParts t ts <;> simp_all [OperatorsTyped, Tree.parts, allOperatorsTyped_iff]

/-- The value has the type of the operator. -/
theorem OperatorsTyped.ty_foldValue? (h : t.OperatorsTyped) (hc : t.foldValue? = some c) :
    c.ty = t.ty := by
  rcases foldValue?_eq_some hc with ⟨tag, op, tl, a, tr, b, rfl, hab⟩ | ⟨tag, op, tt, a, rfl, ha⟩
  · obtain ⟨hcheck, hl, hr⟩ := h
    have hc := Intrinsic.check_of_onConstants? hab
    rw [← hl, ← hr] at hc
    exact Except.ok.inj (hc.symm.trans hcheck)
  · obtain ⟨hcheck, ht⟩ := h
    have hc := Intrinsic.check_of_onConstant? ha
    rw [← ht] at hc
    exact Except.ok.inj (hc.symm.trans hcheck)

/-- Folding keeps the type at the root and the types of all nodes right. -/
theorem typed_folded (t : Tree) (h : t.OperatorsTyped) : t.folded.ty = t.ty ∧
    t.folded.OperatorsTyped := by
  induction t using induction_parts with
  | h t ih =>
    have ih := fun p hp => ih p hp (h.parts p hp)
    have hty : (t.withParts (t.parts.map folded)).ty = t.ty := congrArg Tag.ty (tag_withParts ..)
    have hparts : (t.withParts (t.parts.map folded)).OperatorsTyped := by
      refine h.withParts ?_ (List.forall_mem_map.mpr fun p hp => (ih p hp).2)
      rw [List.map_map]
      exact List.map_congr_left fun p hp => (ih p hp).1
    rw [folded_eq, foldNode]
    cases hc : (t.withParts (t.parts.map folded)).foldValue? with
    | none => exact ⟨hty, hparts⟩
    | some c => exact ⟨(hparts.ty_foldValue? hc).trans hty, rfl⟩

end

end Tree

/-! ## Meaning -/

/-- On constants the operators do what folding does, and nothing else. -/
structure Interpretation.FoldsConstants {V E : Type} (I : Interpretation V E) : Prop where
  binary : ∀ {op : Intrinsic} {a b c : Value}, op.onConstants? a b = some c → ∀ past,
    I.perform past (.intrinsic op) [I.constant a, I.constant b] = ([], some (I.constant c))
  unary : ∀ {op : Intrinsic} {a c : Value}, op.onConstant? a = some c → ∀ past,
    I.perform past (.intrinsic op) [I.constant a] = ([], some (I.constant c))

namespace Evaluation

variable {V E M : Type} {I : Interpretation V E} {K : Keeping V M}

/-- An operation that answers without an event leaves the run as it is. -/
theorem perform_silent {o : Operation} {args : List V} {v : V}
    (h : ∀ past, I.perform past o args = ([], some v)) :
    (perform I o args : Evaluation V E M V) = pure v := by
  funext run
  simp only [perform, h, List.append_nil]
  rfl

theorem eval_const (fuel : Nat) {tag : Tag} {value : Value}
    (h : (Tree.const tag value).store = none) :
    eval I K fuel (.const tag value) = pure (some (I.constant value)) := by
  funext run
  rw [eval_of_unstored h]
  rfl

theorem eval_congr {fuel : Nat} {t u : Tree} (hs : t.store = u.store)
    (hc : compute I K fuel t = compute I K fuel u) : eval I K fuel t = eval I K fuel u := by
  unfold eval
  rw [hs, hc]

theorem computeAll_congr {fuel : Nat} {ts us : List Tree}
    (hs : ts.map Tree.store = us.map Tree.store)
    (hc : ts.map (compute I K fuel) = us.map (compute I K fuel)) :
    computeAll I K fuel ts = computeAll I K fuel us := by
  induction ts generalizing us with
  | nil => rw [List.map_eq_nil_iff.mp hc.symm]
  | cons t rest ih =>
    cases us with
    | nil => cases hc
    | cons u us =>
      obtain ⟨hs, hs'⟩ := List.cons.inj hs
      obtain ⟨hc, hc'⟩ := List.cons.inj hc
      rw [computeAll_cons, computeAll_cons, eval_congr hs hc, ih hs' hc']

/-- A node does the same on parts that do the same. -/
theorem compute_withParts {fuel : Nat} {t : Tree} {ts : List Tree}
    (hs : ts.map Tree.store = t.parts.map Tree.store)
    (hc : ts.map (compute I K fuel) = t.parts.map (compute I K fuel)) :
    compute I K fuel (t.withParts ts) = compute I K fuel t := by
  have hall := computeAll_congr hs hc
  fun_cases Tree.withParts t ts <;> simp_all [compute, Tree.parts]

theorem compute_foldNode (hI : I.FoldsConstants) (fuel : Nat) {t : Tree}
    (h : ∀ p ∈ t.parts, p.store = none)
    (n : Nat) : compute I K fuel (t.foldNode n).1 = compute I K fuel t := by
  rw [Tree.foldNode]
  cases hc : t.foldValue? with
  | none => rfl
  | some c =>
    rcases Tree.foldValue?_eq_some hc with ⟨tag, op, tl, a, tr, b, rfl, hab⟩
      | ⟨tag, op, tt, a, rfl, ha⟩
    · have hl : (Tree.const tl a).store = none := h _ (by simp [Tree.parts])
      have hr : (Tree.const tr b).store = none := h _ (by simp [Tree.parts])
      have ha := eval_const (I := I) (K := K) fuel hl
      have hb := eval_const (I := I) (K := K) fuel hr
      unfold eval at ha hb
      simp only [compute] at ha hb ⊢
      rw [ha, pure_bind, hb, pure_bind, hl, hr]
      exact (congrArg (· >>= fun v => pure (some v)) (perform_silent (hI.binary hab))).symm
    · have ht : (Tree.const tt a).store = none := h _ (by simp [Tree.parts])
      have hv := eval_const (I := I) (K := K) fuel ht
      unfold eval at hv
      simp only [compute] at hv ⊢
      rw [hv, pure_bind, ht]
      exact (congrArg (· >>= fun v => pure (some v)) (perform_silent (hI.unary ha))).symm

theorem compute_folded (hI : I.FoldsConstants) (fuel : Nat) (t : Tree) (h : t.BareOperands) :
    compute I K fuel t.folded = compute I K fuel t := by
  induction t using Tree.induction_parts with
  | h t ih =>
    have hparts : compute I K fuel (t.withParts (t.parts.map Tree.folded)) =
        compute I K fuel t := by
      refine compute_withParts ?_ ?_ <;> rw [List.map_map]
      · exact List.map_congr_left fun p _ => Tree.store_folded p
      · exact List.map_congr_left fun p hp => ih p hp (h.parts p hp)
    rw [Tree.folded_eq, ← hparts]
    cases t with
    | binary | unary =>
      exact compute_foldNode hI fuel (by simp_all [Tree.parts, Tree.withParts, Tree.BareOperands]) 0
    | _ => rfl

theorem eval_folded (hI : I.FoldsConstants) (fuel : Nat) {t : Tree} (h : t.BareOperands) :
    eval I K fuel t.folded = eval I K fuel t :=
  eval_congr (Tree.store_folded t) (compute_folded hI fuel t h)

end Evaluation

namespace Tree

/-- An operator whose divisor folds to zero stays, with its operands folded. -/
theorem folded_divides (tag : Tag) {op : Intrinsic} (hop : op.divides = true) (l : Tree) {r : Tree}
    {z : Value} (hr : r.folded.constant? = some z) (hz : z.isZero = true) :
    (Tree.binary tag op l r).folded = .binary tag op l.folded r.folded := by
  have hnone : (Tree.binary tag op l.folded r.folded).foldValue? = none := by
    cases hl :
      l.folded.constant? <;> simp [foldValue?, hl, hr, Intrinsic.onConstants?_zero hop _ hz]
  rw [folded_eq]
  simp [parts, withParts, foldNode, hnone]

/-- Folding keeps the type and the store at the root, leaves every node typed as the table of
intrinsics asks, and gives a tree that runs like the tree itself, under every interpretation that
does on constants what folding does. An operator that would divide by zero is still there. -/
theorem fold_keeps_types_and_meaning {V E M : Type} (I : Interpretation V E) (K : Keeping V M)
    (hI : I.FoldsConstants) (t : Tree) (ht : t.OperatorsTyped) (hb : t.BareOperands) (n : Nat) :
    (t.fold n).1.ty = t.ty ∧ (t.fold n).1.store = t.store ∧ (t.fold n).1.OperatorsTyped ∧
      (∀ fuel run, Evaluation.eval I K fuel (t.fold n).1 run = Evaluation.eval I K fuel t run) ∧
      ∀ tag op l r, t = .binary tag op l r → op.divides = true →
        ∀ k z, (r.fold k).1.constant? = some z → z.isZero = true →
          (t.fold n).1 = .binary tag op (l.fold k).1 (r.fold k).1 := by
  obtain ⟨hty, hop⟩ := typed_folded t ht
  rw [fold_fst]
  refine ⟨hty, store_folded t, hop, ?_, ?_⟩
  · intro fuel run
    rw [Evaluation.eval_folded hI fuel hb]
  · rintro tag op l r rfl hdiv k z hr hz
    rw [fold_fst] at hr
    rw [fold_fst, fold_fst]
    exact folded_divides tag hdiv l hr hz

end Tree

/-- The interpretation that knows nothing but the rules for constants: without a rule an operation
fails. -/
def Interpretation.onConstants : Interpretation Value Unit where
  constant v := v
  truth _ v := ([], v == .bool true)
  perform _ o args :=
    match o, args with
    | .intrinsic op, [a] => ([], op.onConstant? a)
    | .intrinsic op, [a, b] => ([], op.onConstants? a b)
    | _, _ => ([], none)

theorem Interpretation.onConstants_folds : Interpretation.onConstants.FoldsConstants where
  binary h past := by simp only [onConstants, h]
  unary h past := by simp only [onConstants, h]

/-- `x := (2 + 3) // (7 - 7)`: the sum and the difference are folded, the division stays and
fails. -/
theorem Tree.fold_keeps_division_by_zero :
    let t : Tree := .binary { ty := .int, store := some 1 } .intDiv
      (.binary { ty := .int } .add (.ofValue (.int 2)) (.ofValue (.int 3)))
      (.binary { ty := .int } .sub (.ofValue (.int 7)) (.ofValue (.int 7)))
    (t.fold 0).1.ty = .int ∧ (t.fold 0).1.store = some 1 ∧ (t.fold 0).1.OperatorsTyped ∧
      (∀ fuel run,
        Evaluation.eval Interpretation.onConstants (Evaluation.separate) fuel (t.fold 0).1 run
          = Evaluation.eval Interpretation.onConstants Evaluation.separate fuel t run) ∧
      (t.fold 0).1
        = .binary { ty := .int, store := some 1 } .intDiv (.ofValue (.int 5))
            (.ofValue (.int 0)) := by
  intro t
  have h := Tree.fold_keeps_types_and_meaning Interpretation.onConstants Evaluation.separate
    Interpretation.onConstants_folds t ⟨rfl, ⟨rfl, rfl, rfl⟩, rfl, rfl, rfl⟩
    ⟨rfl, rfl, ⟨rfl, rfl, trivial, trivial⟩, rfl, rfl, trivial, trivial⟩ 0
  exact ⟨h.1, h.2.1, h.2.2.1, h.2.2.2.1, h.2.2.2.2 _ _ _ _ rfl rfl 0 (.int 0) rfl rfl⟩

end Codewright
