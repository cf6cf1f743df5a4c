import Codewright.Proofs.ConstantFolding

/-!
# The folded form

Folding leaves no operator that it could fold, so folding again does nothing. Each operator that
goes is counted. What goes with it are operators and constants only: without these a tree is its
`skeleton`, the other nodes in their order, each with what stands below its parts, and folding keeps
that.
-/

namespace Codewright

namespace Tree

/-! ## Operators that fold -/

def isOperator : Tree → Bool
  | .binary _ _ _ _ | .unary _ _ _ => true
  | _ => false

/-- An operator on constants that have a rule. -/
def isFoldable : Tree → Bool
  | .binary _ op left right =>
    match left.constant?, right.constant? with
    | some a, some b => (op.onConstants? a b).isSome
    | _, _ => false
  | .unary _ op operand => (operand.constant?.bind op.onConstant?).isSome
  | _ => false

/-- The number of binary and unary operators in a tree. -/
def operatorCount (t : Tree) : Nat := t.nodes.countP isOperator

/-- No operator of the tree folds. -/
def IsFolded (t : Tree) : Prop := ∀ u ∈ t.nodes, u.isFoldable = false

theorem isFoldable_eq (t : Tree) : t.isFoldable = t.foldValue?.isSome := by
  cases t with
  | binary tag op l r =>
    simp only [isFoldable, foldValue?]
    cases l.constant? with
    | none => rfl
    | some a => cases r.constant? <;> rfl
  | _ => rfl

/-! ## Folded trees by their parts -/

section

variable {t : Tree}

theorem isFolded_iff : t.IsFolded ↔ t.isFoldable = false ∧ ∀ p ∈ t.parts, p.IsFolded :=
  forall_nodes_iff

theorem operatorCount_eq (t : Tree) : t.operatorCount =
    (t.parts.map operatorCount).sum + if t.isOperator = true then 1 else 0 := by
  rw [operatorCount, nodes_eq, List.countP_cons, List.countP_flatMap]
  rfl

end

/-! ## Nothing is left to fold -/

theorem isFolded_folded (t : Tree) : t.folded.IsFolded := by
  induction t using induction_parts with
  | h t ih =>
    rw [folded_eq, foldNode]
    cases hc : (t.withParts (t.parts.map folded)).foldValue? with
    | none =>
      rw [isFolded_iff, parts_withParts (List.length_map _)]
      exact ⟨by rw [isFoldable_eq, hc]; rfl, List.forall_mem_map.mpr ih⟩
    | some c => simp [IsFolded, nodes, isFoldable]

theorem isFolded_fold (t : Tree) (n : Nat) : (t.fold n).1.IsFolded := by
  rw [fold_fst]
  exact isFolded_folded t

theorem foldAll_eq_self {ts : List Tree} (h : ∀ t ∈ ts, ∀ n, t.fold n = (t, n)) (n : Nat)
    (done : List Tree) : foldAll n done ts = (done.reverse ++ ts, n) := by
  induction ts generalizing done with
  | nil => simp [foldAll]
  | cons t rest ih =>
    simp only [foldAll, h t List.mem_cons_self n]
    rw [ih fun t ht => h t (List.mem_cons_of_mem _ ht)]
    simp

theorem IsFolded.fold_eq {t : Tree} (h : t.IsFolded) (n : Nat) : t.fold n = (t, n) := by
  induction t using induction_parts generalizing n with
  | h t ih =>
    obtain ⟨hroot, hparts⟩ := isFolded_iff.mp h
    rw [isFoldable_eq, Option.isSome_eq_false_iff, Option.isNone_iff_eq_none] at hroot
    rw [Tree.fold_eq, foldAll_eq_self (fun p hp n => ih p hp (hparts p hp) n), List.reverse_nil,
      List.nil_append, withParts_parts, foldNode, hroot]

/-! ## What folding counts -/

theorem count_foldNode (t : Tree) (n : Nat) :
    (t.foldNode n).2 + (t.foldNode n).1.operatorCount = n + t.operatorCount := by
  rw [foldNode]
  cases hc : t.foldValue? with
  | none => rfl
  | some c =>
    rcases foldValue?_eq_some hc with ⟨tag, op, tl, a, tr, b, rfl, -⟩ | ⟨tag, op, tt, a,
      rfl, -⟩ <;> rfl

theorem operatorCount_withParts {t : Tree} {ts : List Tree} (h : ts.length = t.parts.length) :
    (t.withParts ts).operatorCount = (ts.map operatorCount).sum + if t.isOperator =
      true then 1 else 0 := by
  have hop : (t.withParts ts).isOperator = t.isOperator := by fun_cases withParts t ts <;> rfl
  rw [operatorCount_eq, parts_withParts h, hop]

theorem count_foldAll {ts : List Tree}
    (ih : ∀ t ∈ ts, ∀ n, (t.fold n).2 + (t.fold n).1.operatorCount = n + t.operatorCount) (n : Nat)
    (done : List Tree) : (foldAll n done ts).2 + ((foldAll n done ts).1.map operatorCount).sum =
      n + (done.map operatorCount).sum + (ts.map operatorCount).sum := by
  induction ts generalizing n done with
  | nil => simp [foldAll]
  | cons t rest ihrest =>
    have ht := ih t List.mem_cons_self n
    have hrest := ihrest (fun t ht => ih t (List.mem_cons_of_mem _ ht))
      (t.fold n).2 ((t.fold n).1 :: done)
    simp only [foldAll, List.map_cons, List.sum_cons] at hrest ⊢
    omega

/-- Each operator that is gone has been counted. -/
theorem count_fold (t : Tree) (n : Nat) :
    (t.fold n).2 + (t.fold n).1.operatorCount = n + t.operatorCount := by
  induction t using induction_parts generalizing n with
  | h t ih =>
    have hall := count_foldAll ih n []
    have hlength : (foldAll n [] t.parts).1.length = t.parts.length := by
      rw [foldAll_fst fun t _ n => fold_fst n t]
      simp
    rw [fold_eq, count_foldNode, operatorCount_withParts hlength, operatorCount_eq t,
      ← Nat.add_assoc, hall]
    simp only [List.map_nil, List.sum_nil]
    omega

end Tree

/-! ## What folding leaves where it is -/

/-- What a node is besides its tag and its parts, where it is neither a constant nor a binary or
unary operator. -/
inductive NodeKind where
  | load (x : LocalId)
  | call (callee : RoutineId)
  | print
  | toReal
  | failFast
  | ifThen
  | ifElse
  | loop
  | ret
  | retValue
  | seq
  deriving DecidableEq

/-- A node, and for each of its parts the nodes that stand highest in it. -/
inductive Skeleton where
  | node (kind : NodeKind) (tag : Tag) (parts : List (List Skeleton))

namespace Tree

mutual

/-- The highest nodes of a tree that are neither constants nor binary or unary operators, each with
those below it, in their order. -/
def skeleton : Tree → List Skeleton
  | .const _ _ => []
  | .binary _ _ left right => skeleton left ++ skeleton right
  | .unary _ _ operand => skeleton operand
  | .load tag x => [.node (.load x) tag []]
  | .call tag callee args => [.node (.call callee) tag (skeletons args)]
  | .print tag args => [.node .print tag (skeletons args)]
  | .toReal tag operand => [.node .toReal tag [skeleton operand]]
  | .failFast tag => [.node .failFast tag []]
  | .ifThen tag condition yes => [.node .ifThen tag [skeleton condition, skeleton yes]]
  | .ifElse tag condition yes no =>
    [.node .ifElse tag [skeleton condition, skeleton yes, skeleton no]]
  | .loop tag condition body => [.node .loop tag [skeleton condition, skeleton body]]
  | .ret tag => [.node .ret tag []]
  | .retValue tag value => [.node .retValue tag [skeleton value]]
  | .seq tag body => [.node .seq tag (skeletons body)]

def skeletons : List Tree → List (List Skeleton)
  | [] => []
  | t :: rest => skeleton t :: skeletons rest

end

theorem skeletons_eq_map (ts : List Tree) : skeletons ts = ts.map skeleton := by
  induction ts with
  | nil => rfl
  | cons t rest ih => rw [skeletons, ih, List.map_cons]

/-- Folding keeps all nodes but operators and constants, in their order and below one another. -/
theorem skeleton_folded (t : Tree) : t.folded.skeleton = t.skeleton := by
  induction t using induction_parts with
  | h t ih =>
    have hmap : (t.parts.map folded).map skeleton = t.parts.map skeleton := by
      rw [List.map_map]
      exact List.map_congr_left ih
    have hparts : (t.withParts (t.parts.map folded)).skeleton = t.skeleton := by
      generalize t.parts.map folded = ts at hmap
      fun_cases withParts t ts <;> simp_all [skeleton, parts, skeletons_eq_map]
    rw [folded_eq, ← hparts, foldNode]
    cases hc : (t.withParts (t.parts.map folded)).foldValue? with
    | none => rfl
    | some c =>
      rcases foldValue?_eq_some hc with ⟨tag, op, tl, a, tr, b, heq, -⟩ | ⟨tag, op, tt, a, heq, -⟩
        <;> rw [heq] <;> rfl

/-- Folding leaves no operator on constants that have a rule, so folding again changes nothing and
counts nothing. It counts the operators that are gone, from any number on, and all other nodes but
constants are still there, in their order and below one another. -/
theorem fold_complete_and_counted (t : Tree) (n : Nat) :
    (∀ u ∈ (t.fold n).1.nodes, u.isFoldable = false) ∧
    (∀ m, (t.fold n).1.fold m = ((t.fold n).1, m)) ∧
    (t.fold n).2 + (t.fold n).1.operatorCount = n + t.operatorCount ∧
    (t.fold n).1.skeleton = t.skeleton := by
  refine ⟨isFolded_fold t n, (isFolded_fold t n).fold_eq, count_fold t n, ?_⟩
  rw [fold_fst, skeleton_folded]

end Tree

end Codewright
