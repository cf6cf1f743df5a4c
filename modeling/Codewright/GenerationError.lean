import Codewright.Diagnostic
import Codewright.Intrinsic
import Codewright.Local

/-!
# Errors of code generation

Why a target has no code for a program: a construct it does not know, a number too large for its
instructions, or a fault of the compiler itself.
-/

namespace Codewright

/-- A construct without native code. -/
inductive Feature where
  | parameters (count : Nat) (routine : String)
  | binary (ty : Ty) (op : Intrinsic)
  | unary (op : Intrinsic)
  | calls
  | conditionals
  | loops
  | print
  | failFast
  deriving DecidableEq

def Feature.text : Feature → String
  | .parameters count routine => toString count ++ " parameters in " ++ routine
  | .binary ty op => ty.text ++ " `" ++ op.name ++ "`"
  | .unary op => "unary `" ++ op.name ++ "`"
  | .calls => "function calls"
  | .conditionals => "if statements"
  | .loops => "while loops"
  | .print => "print"
  | .failFast => "failfast"

/-- A number inside an instruction. -/
inductive OperandKind where
  | constantIndex
  | localSlot
  | functionIndex
  | jumpOffset
  | frameSize
  deriving DecidableEq

def OperandKind.text : OperandKind → String
  | .constantIndex => "constant index"
  | .localSlot => "local slot"
  | .functionIndex => "function index"
  | .jumpOffset => "jump offset"
  | .frameSize => "stack frame size"

/-- A fault of the compiler: a pass left something undone that a later one relies on. -/
inductive GenerationFault where
  /-- The stack machine has no registers. -/
  | registerOnStackMachine (name : String)
  | loadOfUnplaced (name : String)
  | tooManyOperands (op : Intrinsic) (count : Nat)
  | unplaced (name : String)
  | unplacedOperand (text : String)
  | noValue (text : String)
  | notGeneral (register : String)
  | notVector (register : String)
  deriving DecidableEq

def GenerationFault.text : GenerationFault → String
  | .registerOnStackMachine name => "local " ++ name ++ " was given a register by the stack machine"
  | .loadOfUnplaced name => "load of unallocated local " ++ name
  | .tooManyOperands op count => op.name ++ " called with " ++ toString count ++ " arguments"
  | .unplaced name => name ++ " has no location"
  | .unplacedOperand text => "operand `" ++ text ++ "` has no location"
  | .noValue text => "`" ++ text ++ "` produced no value"
  | .notGeneral register => register ++ " used as a general purpose register"
  | .notVector register => register ++ " used as an SSE register"

inductive GenerationError where
  | notImplemented (feature : Feature)
  | operandOverflow (kind : OperandKind) (value : Int)
  | displacementOutOfRange (displacement : Int)
  | missingFunction (index : Nat)
  | internal (fault : GenerationFault)
  deriving DecidableEq

namespace GenerationError

def message : GenerationError → String
  | .notImplemented feature => "not implemented for x64: " ++ feature.text
  | .operandOverflow kind value =>
    "operand " ++ toString value ++ " does not fit in a 16-bit instruction operand (" ++ kind.text
      ++ ")"
  | .displacementOutOfRange displacement =>
    "stack displacement " ++ toString displacement ++ " does not fit in a signed byte"
  | .missingFunction index => "function " ++ toString index ++ " was never generated"
  | .internal fault => "internal code generation error: " ++ fault.text

/-- What a target cannot do yet is told apart from what should not happen. -/
def code : GenerationError → Code
  | .notImplemented _ | .displacementOutOfRange _ => .notImplemented
  | _ => .internalFault

def report (e : GenerationError) : Diagnostic := Diagnostic.error e.code e.message

end GenerationError

end Codewright
