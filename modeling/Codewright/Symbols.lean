import Codewright.Diagnostic
import Codewright.Surface.Tree
import Codewright.Text.Lowercase
import Std.Data.HashMap

/-!
# Symbols of a program

The modules, constants and functions of a program, collected before any body is looked at, so that a
body can refer to what is declared later or elsewhere. Names do not distinguish capitals: the table
holds them in small letters, and a symbol's full name is its module's name, a dot and its own name.

From a module one sees all its own symbols and the public ones of the modules it imports.
-/

namespace Codewright

open Source (Span)

def foldName (name : String) : String := Text.lowercase name

/-- The full name of a symbol of a module. -/
def fullName (moduleName name : String) : String := foldName moduleName ++ "." ++ foldName name

/-- A function as callers see it. `id` is its place in the order of declaration. -/
structure FunctionSymbol where
  id : Nat
  fullName : String
  moduleName : String
  isPublic : Bool
  result : Ty
  params : List Ty
  span : Span
  deriving DecidableEq, Inhabited

structure ConstantSymbol where
  fullName : String
  isPublic : Bool
  value : Value
  span : Span
  deriving DecidableEq, Inhabited

structure ModuleSymbol where
  name : String
  imports : List String
  span : Span
  deriving DecidableEq, Inhabited

/-- Why the symbols of a program do not fit together. -/
inductive SymbolError where
  | moduleTwice (name : String) (second first : Span)
  | nameTwice (name : String) (second first : Span)
  | constantType (name : String) (declared found : Ty) (span : Span)
  | unknownModule (name : String) (span : Span)
  deriving DecidableEq

def SymbolError.report : SymbolError → Diagnostic
  | .moduleTwice name second first =>
    ((Diagnostic.error .nameTaken ("module `" ++ name ++ "` is defined twice")).label
      second "second definition").secondary first "first defined here"
  | .nameTwice name second first =>
    ((Diagnostic.error .nameTaken ("`" ++ name ++ "` is already defined")).label
      second "redefined here").secondary first "first defined here"
  | .constantType name declared found span =>
    (Diagnostic.error .wrongType
      ("constant `" ++ name ++ "` is declared " ++ declared.text ++ " but initialized with "
        ++ found.text)).label span ("expected a " ++ declared.text ++ " literal")
  | .unknownModule name span =>
    (Diagnostic.error .unknownModule ("unknown module `" ++ name ++ "`")).label
      span "no source file declares this module"

/-- The symbols of a program. `index` finds the number of a function by its full name. -/
structure Symbols where
  modules : Array ModuleSymbol := #[]
  functions : Array FunctionSymbol := #[]
  index : Std.HashMap String Nat := ∅
  constants : Std.HashMap String ConstantSymbol := ∅

namespace Symbols

def empty : Symbols := {}

/-! ## Look-up -/

def module? (s : Symbols) (name : String) : Option ModuleSymbol :=
  s.modules.find? (·.name == name)

def function? (s : Symbols) (full : String) : Option FunctionSymbol :=
  s.index[full]?.bind (s.functions[·]?)

def constant? (s : Symbols) (full : String) : Option ConstantSymbol :=
  s.constants[full]?

/-- Where a full name was declared first. -/
def declaredAt? (s : Symbols) (full : String) : Option Span :=
  match s.constant? full with
  | some c => some c.span
  | none => (s.function? full).map (·.span)

/-! ## Declarations -/

/-- A change to the table. It may be refused, and what the table is then belongs to the outcome
too. -/
abbrev Change := EStateM SymbolError Symbols

/-- Refuses a full name that is in use. -/
def checkFree (full written : String) (span : Span) : Change Unit := do
  match (← get).declaredAt? full with
  | some first => throw (.nameTwice written span first)
  | none => return ()

def addModule (m : Surface.Module) : Change Unit := do
  let name := foldName m.name
  match (← get).module? name with
  | some first => throw (.moduleTwice m.name m.span first.span)
  | none =>
    let symbol : ModuleSymbol :=
      { name, imports := m.imports.map (foldName ·.name), span := m.span }
    modify fun ⟨modules, functions, index, constants⟩ =>
      { modules := modules.push symbol, functions, index, constants }

def declareConstant (moduleName : String) (c : Surface.Constant) : Change Unit := do
  let full := fullName moduleName c.name
  checkFree full c.name c.span
  let declared := Ty.ofName c.type
  if c.value.ty ≠ declared then throw (.constantType c.name declared c.value.ty c.span)
  let symbol : ConstantSymbol :=
    { fullName := full, isPublic := c.isPublic, value := c.value, span := c.span }
  modify fun ⟨modules, functions, index, constants⟩ =>
    { modules, functions, index, constants := constants.insert full symbol }

def declareFunction (moduleName : String) (f : Surface.Function) : Change Nat := do
  let full := fullName moduleName f.name
  checkFree full f.name f.span
  let id := (← get).functions.size
  let symbol : FunctionSymbol :=
    { id, fullName := full, moduleName := foldName moduleName, isPublic := f.isPublic,
      result := .ofName f.result, params := f.params.map (.ofName ·.type), span := f.span }
  modify fun ⟨modules, functions, index, constants⟩ =>
    { modules, functions := functions.push symbol, index, constants }
  modify fun ⟨modules, functions, index, constants⟩ =>
    { modules, functions, index := index.insert full id, constants }
  return id

/-- Declares all modules, then all constants, then all functions. -/
def declareAll (modules : List Surface.Module) : Change Unit := do
  modules.forM addModule
  modules.forM fun m => m.constants.forM (declareConstant m.name)
  modules.forM fun m => m.functions.forM fun f => do
    let _ ← declareFunction m.name f

/-- Checks that every import names a module of the program. -/
def validateImports (s : Symbols) (modules : List Surface.Module) : Except SymbolError Unit :=
  modules.forM fun m => m.imports.forM fun i =>
    if (s.module? (foldName i.name)).isSome then .ok () else .error (.unknownModule i.name i.span)

/-- The symbols of a program. The first clash ends the collection, and an import of an unknown
module spoils it in the end. -/
def collect (modules : List Surface.Module) : Except SymbolError Symbols :=
  match (declareAll modules).run empty with
  | .error e _ => .error e
  | .ok _ s => do
    s.validateImports modules
    return s

/-! ## Resolution -/

/-- A name cut at its last dot. -/
def splitQualifier? (name : String) : Option (String × String) :=
  let reversed := name.toList.reverse
  match reversed.dropWhile (· != '.') with
  | [] => none
  | _ :: qualifier =>
    some (String.ofList qualifier.reverse,
      String.ofList (reversed.takeWhile (· != '.')).reverse)

/-- Resolves a name in small letters as seen from a module. A qualified name must name the module
itself or one of its imports; another one means the module's own symbol or else the first public
symbol among the imports, in their order. -/
def resolve? {α : Type} (s : Symbols) (find : String → Option α) (isPublic : α → Bool)
    (home name : String) : Option α :=
  match s.module? home with
  | none => none
  | some current =>
    let publicOf (m simple : String) : Option α := (find (m ++ "." ++ simple)).filter isPublic
    match splitQualifier? name with
    | some (qualifier, simple) =>
      if qualifier = home then find (qualifier ++ "." ++ simple)
      else if current.imports.contains qualifier then publicOf qualifier simple
      else none
    | none =>
      match find (home ++ "." ++ name) with
      | some symbol => some symbol
      | none => current.imports.findSome? (publicOf · name)

def resolveConstant? (s : Symbols) (home name : String) : Option ConstantSymbol :=
  s.resolve? s.constant? (·.isPublic) home name

def resolveFunction? (s : Symbols) (home name : String) : Option FunctionSymbol :=
  s.resolve? s.function? (·.isPublic) home name

end Symbols

end Codewright
