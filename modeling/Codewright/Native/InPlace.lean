import Codewright.Tree

/-!
# In-place form

The processor computes an operator from places, so every operand has to be stored somewhere. A tree
is in place when each operand of an operator, a conversion, a call or a print carries a store, and
no operator on reals has an integer operand. Operands without a store get a new local, and an
integer operand of an operator on reals is converted first.
-/

namespace Codewright.Native

/-- The locals while temporaries are added, and how many have been. -/
structure Temporaries where
  locals : Locals
  count : Nat := 0

namespace Temporaries

/-- Makes a node store into a new local, unless it stores already. -/
def keep (s : Temporaries) (t : Tree) : Tree × Temporaries :=
  match t.store with
  | some _ => (t, s)
  | none =>
    let x := s.locals.size
    let temporary : Local :=
      { name := "$t" ++ toString s.count, ty := t.ty, assignments := 1, uses := 1 }
    (t.withStore (some x), { locals := s.locals.push temporary, count := s.count + 1 })

/-- Makes a node store, and an integer a real on top of that if `real` asks for it. -/
def keepAs (s : Temporaries) (real : Bool) (t : Tree) : Tree × Temporaries :=
  let (kept, s) := s.keep t
  if real && t.ty == .int then s.keep (.toReal { ty := .real } kept) else (kept, s)

mutual

def node (s : Temporaries) : Tree → Tree × Temporaries
  | .binary tag op left right =>
    let (left, s) := s.node left
    let (left, s) := s.keepAs (tag.ty == .real) left
    let (right, s) := s.node right
    let (right, s) := s.keepAs (tag.ty == .real) right
    (.binary tag op left right, s)
  | .unary tag op operand =>
    let (operand, s) := s.node operand
    let (operand, s) := s.keep operand
    (.unary tag op operand, s)
  | .toReal tag operand =>
    let (operand, s) := s.node operand
    let (operand, s) := s.keep operand
    (.toReal tag operand, s)
  | .call tag callee args =>
    let (args, s) := s.operands [] args
    (.call tag callee args, s)
  | .print tag args =>
    let (args, s) := s.operands [] args
    (.print tag args, s)
  | .retValue tag value =>
    let (value, s) := s.node value
    (.retValue tag value, s)
  | .seq tag body =>
    let (body, s) := s.nodes [] body
    (.seq tag body, s)
  | .ifThen tag condition yes =>
    let (condition, s) := s.node condition
    let (yes, s) := s.node yes
    (.ifThen tag condition yes, s)
  | .ifElse tag condition yes no =>
    let (condition, s) := s.node condition
    let (yes, s) := s.node yes
    let (no, s) := s.node no
    (.ifElse tag condition yes no, s)
  | .loop tag condition body =>
    let (condition, s) := s.node condition
    let (body, s) := s.node body
    (.loop tag condition body, s)
  | .const tag value => (.const tag value, s)
  | .load tag x => (.load tag x, s)
  | .ret tag => (.ret tag, s)
  | .failFast tag => (.failFast tag, s)

/-- Brings operands into the in-place form, after the reversed ones `done`. -/
def operands (s : Temporaries) (done : List Tree) : List Tree → List Tree × Temporaries
  | [] => (done.reverse, s)
  | t :: rest =>
    let (t, s) := s.node t
    let (t, s) := s.keep t
    s.operands (t :: done) rest

/-- Brings statements into the in-place form, after the reversed ones `done`. -/
def nodes (s : Temporaries) (done : List Tree) : List Tree → List Tree × Temporaries
  | [] => (done.reverse, s)
  | t :: rest =>
    let (t, s) := s.node t
    s.nodes (t :: done) rest

end

end Temporaries

end Codewright.Native

/-- Brings the body of a routine into the in-place form, and how many locals that took. -/
def Codewright.Routine.toInPlace (r : Codewright.Routine) : Codewright.Routine × Nat :=
  let (body, s) := Codewright.Native.Temporaries.node { locals := r.locals } r.body
  ({ r with body, locals := s.locals }, s.count)
