import Codewright.Intrinsic.Constant
import Codewright.Tree

/-!
# Constant folding

Operators whose operands are constants become constants, from the leaves upwards. A folded node
keeps its store. Conditions fold like other nodes, but no branch is dropped.
-/

namespace Codewright

namespace Tree

/-- A binary node, folded if its operands are constants with a rule; `folded` counts on. -/
def foldBinary (tag : Tag) (op : Intrinsic) (left right : Tree) (folded : Nat) : Tree × Nat :=
  match left.constant?, right.constant? with
  | some a, some b =>
    match op.onConstants? a b with
    | some value => (.const { tag with ty := value.ty } value, folded + 1)
    | none => (.binary tag op left right, folded)
  | _, _ => (.binary tag op left right, folded)

/-- A unary node, folded if its operand is a constant with a rule; `folded` counts on. -/
def foldUnary (tag : Tag) (op : Intrinsic) (operand : Tree) (folded : Nat) : Tree × Nat :=
  match operand.constant?.bind op.onConstant? with
  | some value => (.const { tag with ty := value.ty } value, folded + 1)
  | none => (.unary tag op operand, folded)

mutual

/-- Folds a tree; `folded` counts the operators that became constants. -/
def fold (folded : Nat) : Tree → Tree × Nat
  | .binary tag op left right =>
    let (left, folded) := fold folded left
    let (right, folded) := fold folded right
    foldBinary tag op left right folded
  | .unary tag op operand =>
    let (operand, folded) := fold folded operand
    foldUnary tag op operand folded
  | .call tag callee args =>
    let (args, folded) := foldAll folded [] args
    (.call tag callee args, folded)
  | .ifThen tag condition yes =>
    let (condition, folded) := fold folded condition
    let (yes, folded) := fold folded yes
    (.ifThen tag condition yes, folded)
  | .ifElse tag condition yes no =>
    let (condition, folded) := fold folded condition
    let (yes, folded) := fold folded yes
    let (no, folded) := fold folded no
    (.ifElse tag condition yes no, folded)
  | .loop tag condition body =>
    let (condition, folded) := fold folded condition
    let (body, folded) := fold folded body
    (.loop tag condition body, folded)
  | .retValue tag value =>
    let (value, folded) := fold folded value
    (.retValue tag value, folded)
  | .seq tag body =>
    let (body, folded) := foldAll folded [] body
    (.seq tag body, folded)
  | .print tag args =>
    let (args, folded) := foldAll folded [] args
    (.print tag args, folded)
  | .toReal tag operand =>
    let (operand, folded) := fold folded operand
    (.toReal tag operand, folded)
  | .const tag value => (.const tag value, folded)
  | .load tag x => (.load tag x, folded)
  | .ret tag => (.ret tag, folded)
  | .failFast tag => (.failFast tag, folded)

/-- Folds trees after the reversed ones `done`. -/
def foldAll (folded : Nat) (done : List Tree) : List Tree → List Tree × Nat
  | [] => (done.reverse, folded)
  | t :: rest =>
    let (t, folded) := fold folded t
    foldAll folded (t :: done) rest

end

end Tree

/-- Folds the body of a routine, and how many operators became constants. -/
def Routine.foldConstants (r : Routine) : Routine × Nat :=
  let (body, folded) := r.body.fold 0
  ({ r with body }, folded)

end Codewright
