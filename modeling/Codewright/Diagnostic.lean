import Codewright.Source.Span

/-!
# Diagnostics

What the compiler reports: a level, a code, a message, labels that point into the sources, notes and
help. Each stage keeps its own type of causes and turns a cause into a diagnostic in one place.
-/

namespace Codewright

open Source (Span)

/-- How serious a report is. Only an error stops a compilation. -/
inductive Level where
  | error
  | warning
  | note
  deriving DecidableEq

def Level.text : Level → String
  | .error => "error"
  | .warning => "warning"
  | .note => "note"

/-- Code of a report: a letter for the stage and a number. -/
structure Code where
  category : Char
  number : Nat
  deriving DecidableEq

namespace Code

def unexpectedCharacter : Code := ⟨'L', 1⟩
def invalidNumber : Code := ⟨'L', 2⟩
def unexpectedToken : Code := ⟨'P', 1⟩
def expectedExpression : Code := ⟨'P', 2⟩
def expectedType : Code := ⟨'P', 3⟩
def wrongType : Code := ⟨'T', 1⟩
def operandTypesDiffer : Code := ⟨'T', 2⟩
def tooFewArguments : Code := ⟨'T', 3⟩
def tooManyArguments : Code := ⟨'T', 4⟩
def nameNotFound : Code := ⟨'N', 1⟩
def nameTaken : Code := ⟨'N', 2⟩
def assignedConstant : Code := ⟨'N', 3⟩
def unknownModule : Code := ⟨'N', 4⟩
def noMain : Code := ⟨'N', 5⟩
def returnNotGuaranteed : Code := ⟨'F', 1⟩
def unreachable : Code := ⟨'F', 2⟩
def notImplemented : Code := ⟨'B', 1⟩
def internalFault : Code := ⟨'B', 2⟩

/-- `E`, the letter, and the number with at least three digits. -/
def text (c : Code) : String :=
  let digits := toString c.number
  "E" ++ c.category.toString ++ String.ofList (List.replicate (3 - digits.length) '0') ++ digits

end Code

/-- A region of a source with a remark. A primary label marks the fault itself. -/
structure Label where
  span : Span
  message : String
  primary : Bool
  deriving DecidableEq

structure Diagnostic where
  level : Level
  code : Option Code
  message : String
  labels : List Label
  notes : List String
  help : List String
  deriving DecidableEq

namespace Diagnostic

def error (code : Code) (message : String) : Diagnostic :=
  { level := .error, code := some code, message, labels := [], notes := [], help := [] }

def warning (code : Code) (message : String) : Diagnostic :=
  { level := .warning, code := some code, message, labels := [], notes := [], help := [] }

def label (d : Diagnostic) (span : Span) (message : String) : Diagnostic :=
  { d with labels := d.labels ++ [⟨span, message, true⟩] }

def secondary (d : Diagnostic) (span : Span) (message : String) : Diagnostic :=
  { d with labels := d.labels ++ [⟨span, message, false⟩] }

def withNote (d : Diagnostic) (note : String) : Diagnostic :=
  { d with notes := d.notes ++ [note] }

def withHelp (d : Diagnostic) (help : String) : Diagnostic :=
  { d with help := d.help ++ [help] }

def isError (d : Diagnostic) : Bool := d.level == .error

def has (d : Diagnostic) (c : Code) : Bool := d.code == some c

def heading (d : Diagnostic) : String :=
  match d.code with
  | some c => d.level.text ++ "[" ++ c.text ++ "]"
  | none => d.level.text

def oneLine (d : Diagnostic) : String := d.heading ++ ": " ++ d.message

end Diagnostic

def hasErrors (ds : List Diagnostic) : Bool := ds.any Diagnostic.isError

def countCode (ds : List Diagnostic) (c : Code) : Nat := (ds.filter (·.has c)).length

end Codewright
