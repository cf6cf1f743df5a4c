import Codewright.Double

/-!
# Types and values

The types of the language and its constant values. A type name is what can be written in a source; a
type may also be missing, for a local that nothing has been assigned to yet. Every value has a
payload of 64 bits, which is how images and machine code carry it.
-/

namespace Codewright

inductive TypeName where
  | void
  | bool
  | int
  | real
  deriving DecidableEq, Inhabited

def TypeName.text : TypeName → String
  | .void => "void"
  | .bool => "bool"
  | .int => "int"
  | .real => "real"

/-- The type of a local, an expression or a function's result. -/
inductive Ty where
  | void
  | bool
  | int
  | real
  /-- Not known yet; never the type of a value. -/
  | noType
  deriving DecidableEq, Inhabited, Hashable

namespace Ty

def ofName : TypeName → Ty
  | .void => .void
  | .bool => .bool
  | .int => .int
  | .real => .real

def text : Ty → String
  | .void => "Void"
  | .bool => "Bool"
  | .int => "Int"
  | .real => "Real"
  | .noType => "NoType"

def code : Ty → UInt16
  | .void => 0
  | .bool => 1
  | .int => 2
  | .real => 3
  | .noType => 0xFFFF

/-- The type with a number. A missing type is never read back. -/
def ofCode? (n : UInt16) : Option Ty :=
  if n = 0 then some .void
  else if n = 1 then some .bool
  else if n = 2 then some .int
  else if n = 3 then some .real
  else none

def isNumeric : Ty → Bool
  | .int | .real => true
  | _ => false

def isValue : Ty → Bool
  | .void | .noType => false
  | _ => true

end Ty

inductive Value where
  | int (n : Int64)
  | real (x : Double)
  | bool (b : Bool)
  deriving DecidableEq, Inhabited

namespace Value

def ty : Value → Ty
  | .int _ => .int
  | .real _ => .real
  | .bool _ => .bool

def text : Value → String
  | .int n => toString n.toInt
  | .real x => x.text
  | .bool b => if b then "true" else "false"

/-- The name under which equal constants of a program are pooled. -/
def poolName : Value → String
  | .int n => "$literal_" ++ toString n.toInt
  | .real x => "$literal_" ++ x.plainText ++ "r"
  | .bool b => "$literal_" ++ (if b then "true" else "false")

/-- The payload of 64 bits. -/
def toBits : Value → UInt64
  | .int n => n.toUInt64
  | .real x => x.bits
  | .bool b => if b then 1 else 0

/-- The value of a type with a payload, if the type has values. -/
def ofBits? (bits : UInt64) : Ty → Option Value
  | .int => some (.int bits.toInt64)
  | .real => some (.real ⟨bits⟩)
  | .bool => some (.bool (bits != 0))
  | .void | .noType => none

def toReal? : Value → Option Double
  | .int n => some (.ofInt n.toInt)
  | .real x => some x
  | .bool _ => none

/-- Reading a value's own payload gives the value back. -/
theorem ofBits?_toBits (v : Value) : ofBits? v.toBits v.ty = some v := by
  cases v with
  | int n => simp [ofBits?, toBits, ty]
  | real x => rfl
  | bool b => cases b <;> rfl

end Value

end Codewright
