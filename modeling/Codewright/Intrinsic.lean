import Codewright.Surface.Tree

/-!
# Intrinsics

The operations that the language has built in: its operators and a handful of functions. Each has a
number, a name and a rule for its operands and its result. A name of the source that spells an
intrinsic always means the intrinsic.
-/

namespace Codewright

/-- A built-in operation, in the order of the numbers. -/
inductive Intrinsic where
  | add
  | sub
  | mul
  | div
  | intDiv
  | mod
  | eq
  | ne
  | lt
  | le
  | gt
  | ge
  | and
  | or
  | xor
  | not
  | neg
  | pow
  | sqrt
  | abs
  | min
  | max
  | toReal
  | trunc
  | print
  | failFast
  deriving DecidableEq, Inhabited

/-- What an intrinsic asks of its operands. -/
inductive Constraint where
  /-- Anything that is a value. -/
  | none
  | numeric
  /-- Values of one type. -/
  | sameType
  /-- `Bool`s only or `Int`s only. -/
  | boolOrInt
  | int
  deriving DecidableEq

/-- How the type of the result follows from the operands. -/
inductive ResultRule where
  | fixed (ty : Ty)
  /-- The type of the first operand. -/
  | sameAsOperand
  /-- `Real` if some operand is `Real`, else `Int`. -/
  | realOrInt
  deriving DecidableEq

/-- The rule of an intrinsic: how many operands, of which types, with which result. -/
structure Signature where
  least : Nat
  most : Nat
  constraint : Constraint
  result : ResultRule

inductive OperandFault where
  | tooFew (expected found : Nat)
  | tooMany (expected found : Nat)
  | wrongType (index : Nat) (found : Ty) (expected : String)
  | typesDiffer (first other : Ty)
  deriving DecidableEq

namespace Constraint

/-- Whether an operand of a type is admitted, taken by itself. -/
def admits : Constraint → Ty → Bool
  | .none, ty | .sameType, ty => ty.isValue
  | .numeric, ty => ty.isNumeric
  | .boolOrInt, ty => ty == .bool || ty == .int
  | .int, ty => ty == .int

def description : Constraint → String
  | .none | .sameType => "a value"
  | .numeric => "Int or Real"
  | .boolOrInt => "Bool or Int"
  | .int => "Int"

/-- Whether all operands must have one type. -/
def wantsOneType : Constraint → Bool
  | .sameType | .boolOrInt => true
  | _ => false

end Constraint

namespace Signature

/-- The first operand, counted from `index`, whose type is not admitted. -/
def firstUnsuited? (s : Signature) (index : Nat) : List Ty → Option (Nat × Ty)
  | [] => none
  | ty :: rest =>
    if s.constraint.admits ty then s.firstUnsuited? (index + 1) rest else some (index, ty)

/-- The first operand whose type differs from that of the first one. -/
def firstDifferent? : List Ty → Option (Ty × Ty)
  | [] => none
  | first :: rest => (rest.find? (· != first)).map (first, ·)

def resultType (s : Signature) (operands : List Ty) : Ty :=
  match s.result with
  | .fixed ty => ty
  | .sameAsOperand => operands.head?.getD .void
  | .realOrInt => if operands.contains .real then .real else .int

/-- Checks the operands: their number, then each type, then that the types agree. -/
def check (s : Signature) (operands : List Ty) : Except OperandFault Ty :=
  if operands.length < s.least then .error (.tooFew s.least operands.length)
  else if s.most < operands.length then .error (.tooMany s.most operands.length)
  else
    match s.firstUnsuited? 0 operands with
    | some (index, found) => .error (.wrongType index found s.constraint.description)
    | none =>
      match (if s.constraint.wantsOneType then firstDifferent? operands else none) with
      | some (first, other) => .error (.typesDiffer first other)
      | none => .ok (s.resultType operands)

end Signature

namespace Intrinsic

/-- All intrinsics, each at the place of its number. -/
def all : List Intrinsic :=
  [.add, .sub, .mul, .div, .intDiv, .mod, .eq, .ne, .lt, .le, .gt, .ge, .and, .or, .xor, .not, .neg,
   .pow, .sqrt, .abs, .min, .max, .toReal, .trunc, .print, .failFast]

/-- The number by which instructions refer to an intrinsic. -/
def id : Intrinsic → Nat
  | .add => 0
  | .sub => 1
  | .mul => 2
  | .div => 3
  | .intDiv => 4
  | .mod => 5
  | .eq => 6
  | .ne => 7
  | .lt => 8
  | .le => 9
  | .gt => 10
  | .ge => 11
  | .and => 12
  | .or => 13
  | .xor => 14
  | .not => 15
  | .neg => 16
  | .pow => 17
  | .sqrt => 18
  | .abs => 19
  | .min => 20
  | .max => 21
  | .toReal => 22
  | .trunc => 23
  | .print => 24
  | .failFast => 25

def ofId? (n : Nat) : Option Intrinsic := all[n]?

def name : Intrinsic → String
  | .add => "+"
  | .sub => "-"
  | .mul => "*"
  | .div => "/"
  | .intDiv => "//"
  | .mod => "%"
  | .eq => "=="
  | .ne => "!="
  | .lt => "<"
  | .le => "<="
  | .gt => ">"
  | .ge => ">="
  | .and => "and"
  | .or => "or"
  | .xor => "xor"
  | .not => "not"
  | .neg => "neg"
  | .pow => "math.pow"
  | .sqrt => "math.sqrt"
  | .abs => "abs"
  | .min => "min"
  | .max => "max"
  | .toReal => "toreal"
  | .trunc => "trunc"
  | .print => "print"
  | .failFast => "failfast"

def ofName? (name : String) : Option Intrinsic := all.find? (·.name == name)

def signature : Intrinsic → Signature
  | .add | .sub | .mul | .min | .max => ⟨2, 2, .numeric, .realOrInt⟩
  | .div | .pow => ⟨2, 2, .numeric, .fixed .real⟩
  | .intDiv | .mod => ⟨2, 2, .int, .fixed .int⟩
  | .eq | .ne => ⟨2, 2, .none, .fixed .bool⟩
  | .lt | .le | .gt | .ge => ⟨2, 2, .numeric, .fixed .bool⟩
  | .and | .or | .xor => ⟨2, 2, .boolOrInt, .sameAsOperand⟩
  | .not => ⟨1, 1, .boolOrInt, .sameAsOperand⟩
  | .neg | .abs => ⟨1, 1, .numeric, .sameAsOperand⟩
  | .sqrt | .toReal => ⟨1, 1, .numeric, .fixed .real⟩
  | .trunc => ⟨1, 1, .numeric, .fixed .int⟩
  | .print => ⟨0, 7, .none, .fixed .void⟩
  | .failFast => ⟨0, 0, .none, .fixed .void⟩

/-- Checks operand types and gives the type of the result. -/
def check (op : Intrinsic) (operands : List Ty) : Except OperandFault Ty :=
  op.signature.check operands

theorem ofId?_id (op : Intrinsic) : ofId? op.id = some op := by
  cases op <;> rfl

end Intrinsic

/-- The intrinsic that an operator means. -/
def Surface.BinaryOp.intrinsic : Surface.BinaryOp → Intrinsic
  | .add => .add
  | .sub => .sub
  | .mul => .mul
  | .div => .div
  | .intDiv => .intDiv
  | .mod => .mod
  | .eq => .eq
  | .ne => .ne
  | .lt => .lt
  | .le => .le
  | .gt => .gt
  | .ge => .ge
  | .and => .and
  | .or => .or
  | .xor => .xor

def Surface.UnaryOp.intrinsic : Surface.UnaryOp → Intrinsic
  | .neg => .neg
  | .not => .not

/-- The name by which the intrinsic of an operator is looked up. -/
def Surface.BinaryOp.intrinsicName : Surface.BinaryOp → String
  | .add => "+"
  | .sub => "-"
  | .mul => "*"
  | .div => "/"
  | .intDiv => "//"
  | .mod => "%"
  | .eq => "=="
  | .ne => "!="
  | .lt => "<"
  | .le => "<="
  | .gt => ">"
  | .ge => ">="
  | .and => "and"
  | .or => "or"
  | .xor => "xor"

@[inherit_doc BinaryOp.intrinsicName]
def Surface.UnaryOp.intrinsicName : Surface.UnaryOp → String
  | .neg => "neg"
  | .not => "not"

/-- Every operator has an intrinsic. -/
theorem Surface.BinaryOp.ofName?_intrinsicName (op : Surface.BinaryOp) :
    Intrinsic.ofName? op.intrinsicName = some op.intrinsic := by
  cases op <;> rfl

theorem Surface.UnaryOp.ofName?_intrinsicName (op : Surface.UnaryOp) :
    Intrinsic.ofName? op.intrinsicName = some op.intrinsic := by
  cases op <;> rfl

end Codewright
