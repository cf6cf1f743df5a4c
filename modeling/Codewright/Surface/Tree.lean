import Codewright.Source.Span
import Codewright.Value

/-!
# Syntax trees

A module as it is written: its imports, constants and functions, and the statements and expressions
of the function bodies. Every node keeps the span of the text it was read from.
-/

namespace Codewright.Surface

open Source (Span)

inductive BinaryOp where
  | add
  | sub
  | mul
  | div
  | intDiv
  | mod
  | eq
  | ne
  | lt
  | le
  | gt
  | ge
  | and
  | or
  | xor
  deriving DecidableEq, Inhabited

inductive UnaryOp where
  | neg
  | not
  deriving DecidableEq, Inhabited

/-- An expression. Names may be qualified by a module: `util.limit`. -/
inductive Expr where
  | literal (value : Value) (span : Span)
  | name (name : String) (span : Span)
  | call (callee : String) (args : List Expr) (span : Span)
  | binary (op : BinaryOp) (left right : Expr) (span : Span)
  | unary (op : UnaryOp) (operand : Expr) (span : Span)
  deriving Inhabited

/-- The text an expression was read from; parentheses around it do not belong to it. -/
def Expr.span : Expr → Span
  | .literal _ span | .name _ span | .call _ _ span | .binary _ _ _ span | .unary _ _ span => span

inductive Stmt where
  /-- `begin … end` -/
  | block (body : List Stmt) (span : Span)
  /-- `target := value` -/
  | assign (target : String) (value : Expr) (span : Span)
  /-- `if condition yes` -/
  | ifThen (condition : Expr) (yes : Stmt) (span : Span)
  /-- `if condition yes else no` -/
  | ifElse (condition : Expr) (yes no : Stmt) (span : Span)
  /-- `while condition body` -/
  | loop (condition : Expr) (body : Stmt) (span : Span)
  /-- `return`, with a value or without -/
  | ret (value : Option Expr) (span : Span)
  /-- An expression evaluated for its effect. -/
  | expr (value : Expr)
  deriving Inhabited

def Stmt.span : Stmt → Span
  | .block _ span | .assign _ _ span | .ifThen _ _ span | .ifElse _ _ _ span | .loop _ _ span
  | .ret _ span => span
  | .expr e => e.span

/-- `begin … end` as the body of a function. -/
structure Block where
  body : List Stmt
  span : Span
  deriving Inhabited

/-- `import name` -/
structure Import where
  name : String
  span : Span
  deriving DecidableEq, Inhabited

/-- `[public] const type name = value` -/
structure Constant where
  name : String
  isPublic : Bool
  type : TypeName
  value : Value
  span : Span
  deriving DecidableEq, Inhabited

/-- A parameter: `type name`. -/
structure Param where
  name : String
  type : TypeName
  span : Span
  deriving DecidableEq, Inhabited

/-- `[public] type name(params) begin … end` -/
structure Function where
  name : String
  isPublic : Bool
  result : TypeName
  params : List Param
  body : Block
  span : Span
  deriving Inhabited

structure Module where
  name : String
  imports : List Import
  constants : List Constant
  functions : List Function
  span : Span
  deriving Inhabited

end Codewright.Surface
