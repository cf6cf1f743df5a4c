import Codewright.Surface.Tree
import Codewright.Text.Quoted

/-!
# Outlines

A syntax tree with all its details over many lines, four blanks of indentation per level, to look at
what was read. An outline is a tree of labelled parts, and writing it out is independent of what it
describes.
-/

namespace Codewright.Surface

open Source (Position Span)

/-- A part with a label before it: a text, or parts between an opening and a closing text. -/
inductive Outline where
  | text (label s : String)
  | group (label opening closing : String) (parts : List Outline)
  deriving Inhabited

namespace Outline

def indentation (level : Nat) : String := String.join (List.replicate level "    ")

mutual

/-- The lines of an outline; the first one is indented by whoever writes before it. -/
def lines (level : Nat) : Outline → String
  | .text label s => label ++ s
  | .group label opening closing parts =>
    if parts.isEmpty then label ++ opening ++ closing
    else label ++ opening ++ "\n" ++ partLines (level + 1) parts ++ indentation level ++ closing

/-- The lines of parts, each with a comma behind it. -/
def partLines (level : Nat) : List Outline → String
  | [] => ""
  | part :: rest => indentation level ++ lines level part ++ ",\n" ++ partLines level rest

end

/-- A record: the name of its kind and its fields. -/
def record (label kind : String) (fields : List Outline) : Outline :=
  .group label (kind ++ " \x7b") "\x7d" fields

/-- One part in round brackets after a word. -/
def wrapped (label word : String) (part : Outline) : Outline :=
  .group label (word ++ "(") ")" [part]

def listed (label : String) (parts : List Outline) : Outline := .group label "[" "]" parts

def number (label : String) (n : Nat) : Outline := .text label (toString n)

def name (label s : String) : Outline := .text label (Text.quoted s)

def position (label : String) (p : Position) : Outline :=
  record label "Position"
    [number "line: " p.line, number "column: " p.column, number "offset: " p.offset]

def span (s : Span) : Outline :=
  record "span: " "Span"
    [position "start: " s.start, position "end: " s.stop, number "file_id: " s.file]

def visibility (isPublic : Bool) : Outline :=
  .text "visibility: " (if isPublic then "Public" else "Private")

def type (label : String) (t : TypeName) : Outline := .text label (Ty.ofName t).text

def literal (v : Value) : Outline := wrapped "value: " v.ty.text (.text "" v.text)

def binaryName : BinaryOp → String
  | .add => "Add"
  | .sub => "Sub"
  | .mul => "Mul"
  | .div => "Div"
  | .intDiv => "IntDiv"
  | .mod => "Mod"
  | .eq => "Eq"
  | .ne => "Ne"
  | .lt => "Lt"
  | .le => "Le"
  | .gt => "Gt"
  | .ge => "Ge"
  | .and => "And"
  | .or => "Or"
  | .xor => "Xor"

def unaryName : UnaryOp → String
  | .neg => "Neg"
  | .not => "Not"

mutual

def expr (label : String) : Expr → Outline
  | .literal v s => record label "Literal" [literal v, span s]
  | .name n s => record label "Name" [name "name: " n, span s]
  | .call callee args s =>
    record label "Call" [name "callee: " callee, listed "args: " (exprs args), span s]
  | .binary op left right s =>
    record label "Binary"
      [.text "op: " (binaryName op), expr "left: " left, expr "right: " right, span s]
  | .unary op operand s =>
    record label "Unary" [.text "op: " (unaryName op), expr "operand: " operand, span s]

def exprs : List Expr → List Outline
  | [] => []
  | e :: rest => expr "" e :: exprs rest

end

def returned : Option Expr → Outline
  | some e => wrapped "value: " "Some" (expr "" e)
  | none => .text "value: " "None"

mutual

def stmt (label : String) : Stmt → Outline
  | .block body s =>
    wrapped label "Block" (record "" "Block" [listed "statements: " (stmts body), span s])
  | .assign target value s =>
    record label "Assign" [name "target: " target, expr "value: " value, span s]
  | .ifThen condition yes s =>
    record label "If"
      [expr "condition: " condition, stmt "then_branch: " yes, .text "else_branch: " "None", span s]
  | .ifElse condition yes no s =>
    record label "If"
      [expr "condition: " condition, stmt "then_branch: " yes,
       wrapped "else_branch: " "Some" (stmt "" no), span s]
  | .loop condition body s =>
    record label "While" [expr "condition: " condition, stmt "body: " body, span s]
  | .ret value s => record label "Return" [returned value, span s]
  | .expr e => wrapped label "Expr" (expr "" e)

def stmts : List Stmt → List Outline
  | [] => []
  | s :: rest => stmt "" s :: stmts rest

end

def import' (i : Import) : Outline := record "" "Import" [name "module: " i.name, span i.span]

def constant (c : Constant) : Outline :=
  record "" "ConstDecl"
    [name "name: " c.name, visibility c.isPublic, type "ty: " c.type, literal c.value, span c.span]

def param (p : Param) : Outline :=
  record "" "Param" [name "name: " p.name, type "ty: " p.type, span p.span]

def function (f : Function) : Outline :=
  record "" "FnDecl"
    [name "name: " f.name, visibility f.isPublic, type "return_type: " f.result,
     listed "params: " (f.params.map param),
     record "body: " "Block" [listed "statements: " (stmts f.body.body), span f.body.span],
     span f.span]

end Outline

def Module.outline (m : Module) : Outline :=
  .record "" "Module"
    [.name "name: " m.name, .listed "imports: " (m.imports.map .import'),
     .listed "constants: " (m.constants.map .constant),
     .listed "functions: " (m.functions.map .function), .span m.span]

def Module.outlineText (m : Module) : String := m.outline.lines 0

end Codewright.Surface
