import Codewright.Intrinsic
import Codewright.Local

/-!
# Trees

The body of a routine is one tree. Statements are nodes without a value. Any node may store its
value into a local on the way, which is how assignment is written; so every node carries a tag with
its type and the local it stores into.
-/

namespace Codewright

/-- What every node carries: its type and the local that receives its value. -/
structure Tag where
  ty : Ty
  store : Option LocalId := none
  deriving DecidableEq, Inhabited

inductive Tree where
  | const (tag : Tag) (value : Value)
  | load (tag : Tag) (x : LocalId)
  | call (tag : Tag) (callee : RoutineId) (args : List Tree)
  | binary (tag : Tag) (op : Intrinsic) (left right : Tree)
  | unary (tag : Tag) (op : Intrinsic) (operand : Tree)
  | ifThen (tag : Tag) (condition yes : Tree)
  | ifElse (tag : Tag) (condition yes no : Tree)
  | loop (tag : Tag) (condition body : Tree)
  | ret (tag : Tag)
  | retValue (tag : Tag) (value : Tree)
  | seq (tag : Tag) (body : List Tree)
  | print (tag : Tag) (args : List Tree)
  | failFast (tag : Tag)
  | toReal (tag : Tag) (operand : Tree)
  deriving Inhabited

namespace Tree

def tag : Tree → Tag
  | .const tag _ | .load tag _ | .call tag _ _ | .binary tag _ _ _ | .unary tag _ _
  | .ifThen tag _ _ | .ifElse tag _ _ _ | .loop tag _ _ | .ret tag | .retValue tag _ | .seq tag _
  | .print tag _ | .failFast tag | .toReal tag _ => tag

def withTag (tag : Tag) : Tree → Tree
  | .const _ value => .const tag value
  | .load _ x => .load tag x
  | .call _ callee args => .call tag callee args
  | .binary _ op left right => .binary tag op left right
  | .unary _ op operand => .unary tag op operand
  | .ifThen _ condition yes => .ifThen tag condition yes
  | .ifElse _ condition yes no => .ifElse tag condition yes no
  | .loop _ condition body => .loop tag condition body
  | .ret _ => .ret tag
  | .retValue _ value => .retValue tag value
  | .seq _ body => .seq tag body
  | .print _ args => .print tag args
  | .failFast _ => .failFast tag
  | .toReal _ operand => .toReal tag operand

def ty (t : Tree) : Ty := t.tag.ty

def store (t : Tree) : Option LocalId := t.tag.store

def withStore (t : Tree) (store : Option LocalId) : Tree := t.withTag { t.tag with store }

def ofValue (value : Value) : Tree := .const { ty := value.ty } value

def ofStatements (body : List Tree) : Tree := .seq { ty := .void } body

/-- A constant or a load. -/
def isLeaf : Tree → Bool
  | .const _ _ | .load _ _ => true
  | _ => false

/-- Leaves a value that nothing consumes when it stands as a statement. -/
def leavesValue (t : Tree) : Bool := t.store.isNone && t.ty.isValue

def constant? : Tree → Option Value
  | .const _ value => some value
  | _ => none

/-- Makes a node store elsewhere and keeps the counts of the locals in step. -/
def setStore (t : Tree) (store : Option LocalId) (locals : Locals) : Tree × Locals :=
  let released := match t.store with
    | some old => locals.modify old fun l => { l with assignments := l.assignments - 1 }
    | none => locals
  let counted := match store with
    | some new => released.modify new fun l => { l with assignments := l.assignments + 1 }
    | none => released
  (t.withStore store, counted)

end Tree

/-- A function in tree form: its result, its parameters and then its other locals, and its body. -/
structure Routine where
  id : RoutineId
  fullName : String
  locals : Locals
  paramCount : Nat
  body : Tree
  deriving Inhabited

namespace Routine

/-- The type of the local at a place, the missing type for a place outside the table. -/
def localType (r : Routine) (x : LocalId) : Ty := (r.locals[x]?.map (·.ty)).getD .noType

def result (r : Routine) : Ty := r.localType 0

def params (r : Routine) : List Local := (r.locals.toList.drop 1).take r.paramCount

def paramTypes (r : Routine) : List Ty := r.params.map (·.ty)

def reset (r : Routine) : Routine := { r with locals := r.locals.map Local.reset }

end Routine

end Codewright
