import Codewright.Bytecode.Program
import Codewright.Text.Blank

/-!
# Listings

A program in text: for each function a line with its type and then a line per instruction, with the
operand's name where it has one. An empty line stands between functions.
-/

namespace Codewright.Bytecode

def Function.header (f : Function) : String :=
  f.result.text ++ " " ++ f.name ++ "(" ++ ", ".intercalate (f.paramTypes.map Ty.text) ++ ") ["
    ++ toString f.slots.size ++ " locals]"

/-- A number with its sign, also if it is positive. -/
def signed (n : Int) : String := if n < 0 then toString n else "+" ++ toString n

/-- The text without blanks at its end. -/
def trimEnd (s : String) : String :=
  String.ofList (s.toList.reverse.dropWhile Text.isBlank).reverse

namespace Program

/-- The entry of a table that an operand counts. -/
def counted? {α : Type} (table : Array α) (operand : Int16) : Option α :=
  if operand < 0 then none else table[operand.toNatClampNeg]?

/-- The operand in text: the name of what it counts, or the number after `#` if there is no such
thing. -/
def operandText (p : Program) (f : Function) (i : Instruction) : String :=
  let named (name : Option String) : String := name.getD ("#" ++ toString i.operand.toInt)
  match i.opcode with
  | .pushConst => named ((counted? p.constants i.operand).map (·.name))
  | .pushLocal | .popLocal => named ((counted? f.slots i.operand).map (·.name))
  | .call => named ((counted? p.functions i.operand).map (·.name))
  | .jump | .jumpFalse => signed i.operand.toInt
  | .intrinsic _ => named ((counted? Intrinsic.all.toArray i.operand).map (·.name))
  | .invalid | .popDiscard | .ret => ""

def instructionLine (p : Program) (f : Function) (i : Instruction) : String :=
  let name := i.opcode.name
  let pad := String.ofList (List.replicate (12 - name.length) ' ')
  trimEnd (name ++ pad ++ p.operandText f i) ++ "\n"

def functionListing (p : Program) (f : Function) : String :=
  f.code.foldl (fun text i => text ++ p.instructionLine f i) (f.header ++ "\n")

def functionListing? (p : Program) (n : Nat) : Option String :=
  p.functions[n]?.map p.functionListing

def listing (p : Program) : String :=
  "\n".intercalate (p.functions.toList.map p.functionListing)

end Program

end Codewright.Bytecode
