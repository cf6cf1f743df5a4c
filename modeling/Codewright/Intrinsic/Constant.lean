import Codewright.Intrinsic

/-!
# Intrinsics on constants

What an operator gives for constants that are known before the program runs. Integers wrap around at
64 bits. `none` means that the operator is left to the running program: it has no rule here, or its
divisor is zero, so that the failure happens where it is written.
-/

namespace Codewright

namespace Intrinsic

/-- The remainder that is never negative: below the divisor's magnitude. -/
def remainder (x y : Int64) : Int64 :=
  let r := x % y
  if r < 0 then r + y.abs else r

def onInts? (op : Intrinsic) (x y : Int64) : Option Value :=
  match op with
  | .add => some (.int (x + y))
  | .sub => some (.int (x - y))
  | .mul => some (.int (x * y))
  | .div => if y = 0 then none else some (.real ((Double.ofInt x.toInt).div (Double.ofInt y.toInt)))
  | .intDiv => if y = 0 then none else some (.int (x / y))
  | .mod => if y = 0 then none else some (.int (remainder x y))
  | .and => some (.int (x &&& y))
  | .or => some (.int (x ||| y))
  | .xor => some (.int (x ^^^ y))
  | .eq => some (.bool (x == y))
  | .ne => some (.bool (x != y))
  | .lt => some (.bool (x < y))
  | .le => some (.bool (x ≤ y))
  | .gt => some (.bool (y < x))
  | .ge => some (.bool (y ≤ x))
  | _ => none

def onBools? (op : Intrinsic) (x y : Bool) : Option Value :=
  match op with
  | .and => some (.bool (x && y))
  | .or => some (.bool (x || y))
  | .xor => some (.bool (x ^^ y))
  | .eq => some (.bool (x == y))
  | .ne => some (.bool (x != y))
  | _ => none

def onReals? (op : Intrinsic) (x y : Double) : Option Value :=
  match op with
  | .add => some (.real (x.add y))
  | .sub => some (.real (x.sub y))
  | .mul => some (.real (x.mul y))
  | .div => if y.isZero then none else some (.real (x.div y))
  | .eq => some (.bool (x.numEq y))
  | .ne => some (.bool (!x.numEq y))
  | .lt => some (.bool (x.lt y))
  | .le => some (.bool (x.le y))
  | .gt => some (.bool (y.lt x))
  | .ge => some (.bool (y.le x))
  | _ => none

/-- A binary operator on constants. Of an integer and a real the integer is made a real. -/
def onConstants? (op : Intrinsic) (a b : Value) : Option Value :=
  match a, b with
  | .int x, .int y => op.onInts? x y
  | .bool x, .bool y => op.onBools? x y
  | a, b =>
    match a.toReal?, b.toReal? with
    | some x, some y => op.onReals? x y
    | _, _ => none

def onConstant? (op : Intrinsic) (a : Value) : Option Value :=
  match op, a with
  | .neg, .int x => some (.int (-x))
  | .neg, .real x => some (.real x.neg)
  | .not, .bool x => some (.bool !x)
  | .not, .int x => some (.int (~~~x))
  | _, _ => none

end Intrinsic

end Codewright
