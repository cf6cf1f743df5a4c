import Codewright.Tree

/-!
# Text of trees

A node on one line, and a routine's body over several lines with two blanks of indentation per
level. Conditionals, loops and sequences lie open in the second form; in the first they are only
hinted at.
-/

namespace Codewright

/-- A local in text: `%` and its place. -/
def localText (x : LocalId) : String := "%" ++ toString x

namespace Tree

/-- The assignment before a node that stores. -/
def storeText (t : Tree) : String :=
  match t.store with
  | some x => localText x ++ " := "
  | none => ""

mutual

def text (t : Tree) : String :=
  t.storeText ++ match t with
    | .const _ value => value.text
    | .load _ x => localText x
    | .call _ callee args => "call @" ++ toString callee ++ "(" ++ argsText args ++ ")"
    | .binary _ op left right => "(" ++ left.text ++ " " ++ op.name ++ " " ++ right.text ++ ")"
    | .unary _ op operand => op.name ++ "(" ++ operand.text ++ ")"
    | .ifThen _ condition _ => "if " ++ condition.text ++ " ..."
    | .ifElse _ condition _ _ => "if " ++ condition.text ++ " ..."
    | .loop _ condition _ => "while " ++ condition.text ++ " ..."
    | .ret _ => "return"
    | .retValue _ value => "return " ++ value.text
    | .seq _ body => "begin (" ++ toString body.length ++ " statements) end"
    | .print _ args => "print(" ++ argsText args ++ ")"
    | .failFast _ => "failfast()"
    | .toReal _ operand => "real(" ++ operand.text ++ ")"

def argsText : List Tree → String
  | [] => ""
  | [t] => t.text
  | t :: rest => t.text ++ ", " ++ argsText rest

end

def pad (level : Nat) : String := String.join (List.replicate level "  ")

mutual

/-- A node over several lines, at a level of indentation. -/
def lines (level : Nat) : Tree → String
  | .ifThen _ condition yes =>
    pad level ++ "if " ++ condition.text ++ "\n" ++ lines (level + 1) yes
  | .ifElse _ condition yes no =>
    pad level ++ "if " ++ condition.text ++ "\n" ++ lines (level + 1) yes
      ++ pad level ++ "else\n" ++ lines (level + 1) no
  | .loop _ condition body =>
    pad level ++ "while " ++ condition.text ++ "\n" ++ lines (level + 1) body
  | .seq _ body => pad level ++ "begin\n" ++ allLines (level + 1) body ++ pad level ++ "end\n"
  | t => pad level ++ t.text ++ "\n"

def allLines (level : Nat) : List Tree → String
  | [] => ""
  | t :: rest => lines level t ++ allLines level rest

end

end Tree

namespace Routine

def typedText (ty : Ty) (x : LocalId) : String := ty.text ++ " " ++ localText x

def localLine (x : LocalId) (l : Local) : String :=
  "  ; " ++ localText x ++ " " ++ l.ty.text ++ " " ++ l.name ++ " (assigned "
    ++ toString l.assignments ++ ", used " ++ toString l.uses ++ ")\n"

/-- A routine: its head, a line per local that is no parameter, and its body. -/
def text (r : Routine) : String :=
  let params := r.params.mapIdx fun i p => typedText p.ty (i + 1)
  let others := (r.locals.toList.drop (r.paramCount + 1)).mapIdx fun i l =>
    localLine (r.paramCount + 1 + i) l
  r.result.text ++ " " ++ r.fullName ++ "(" ++ ", ".intercalate params ++ ")\n"
    ++ String.join others ++ r.body.lines 0

end Routine

end Codewright
