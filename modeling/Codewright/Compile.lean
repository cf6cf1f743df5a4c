import Codewright.Bytecode.Emit
import Codewright.Bytecode.Image
import Codewright.Native.Executable
import Codewright.Surface.Module
import Codewright.Token.Scan
import Codewright.Tree.Build
import Codewright.Tree.ConstantFolding

/-!
# Compilation

From sources to a program: each source is read into a module, the symbols of all modules are
collected, every function is built into a tree and folded, the main function is found, and the
target makes code. The first error ends the compilation and is the last report; the reports before
it are warnings.
-/

namespace Codewright

open Source (Span)

/-! ## Options -/

inductive Target where
  | bytecode
  | x64
  deriving DecidableEq, Inhabited

namespace Target

def text : Target → String
  | .bytecode => "bytecode"
  | .x64 => "x64"

def extension : Target → String
  | .bytecode => "peis"
  | .x64 => "exe"

/-- The target with a name; capitals do not matter. -/
def ofName? (name : String) : Option Target :=
  match name.toLower with
  | "bytecode" | "vm" => some .bytecode
  | "x64" | "x86_64" | "native" => some .x64
  | _ => none

def unknown (name : String) : String :=
  "unknown target `" ++ name.toLower ++ "` (expected bytecode or x64)"

end Target

/-- How to compile: `entry` names the module whose `main` is started, by default the first one. -/
structure Options where
  target : Target := .bytecode
  optimize : Bool := true
  entry : Option String := none

/-! ## Sources -/

/-- Reads a source, which has a number among the files. There is no module if there are errors, and
what cannot be scanned is not read any further. -/
def readModule (file : Nat) (source : String) : Option Surface.Module × List Diagnostic :=
  let tokens := scan file source
  let faults := scanReports tokens
  if hasErrors faults then (none, faults)
  else
    let (m, ds) := Surface.parseModule tokens
    (if hasErrors ds then none else some m, faults ++ ds)

/-! ## Trees -/

inductive MainError where
  | nothingToCompile
  | takesParameters (fullName : String) (span : Span)
  | missing (moduleName : String)
  deriving DecidableEq

/-- The report on a missing main function. `entry` is where the first module stands. -/
def MainError.report (entry : Option Span) (e : MainError) : Diagnostic :=
  let pointed (message : String) : Diagnostic :=
    let d := Diagnostic.error .noMain message
    match entry with
    | some span => d.label span "entry module"
    | none => d
  match e with
  | .nothingToCompile => pointed "nothing to compile"
  | .takesParameters fullName span =>
    (pointed ("`" ++ fullName ++ "` must not take parameters")).secondary span "declared here"
  | .missing moduleName =>
    (pointed ("no function `main` in module `" ++ moduleName ++ "`")).withHelp
      "declare `int main()` as the program entry point"

inductive CompileError where
  | symbols (e : SymbolError)
  | semantic (e : SemanticError)
  | main (e : MainError) (entry : Option Span)
  | generation (e : GenerationError)
  deriving DecidableEq

def CompileError.report : CompileError → Diagnostic
  | .symbols e => e.report
  | .semantic e => e.report
  | .main e entry => e.report entry
  | .generation e => e.report

structure TreeProgram where
  symbols : Symbols
  routines : List Routine

/-- The trees of a program, or why there are none, and the warnings up to there. -/
def buildTrees (optimize : Bool) (modules : List Surface.Module) :
    Except CompileError TreeProgram × List Diagnostic :=
  match Symbols.collect modules with
  | .error e => (.error (.symbols e), [])
  | .ok symbols =>
    match buildRoutines symbols modules with
    | (.error e, spans) => (.error (.semantic e), spans.map unreachableReport)
    | (.ok routines, spans) =>
      let routines := if optimize then routines.map fun r => r.foldConstants.1 else routines
      (.ok { symbols, routines }, spans.map unreachableReport)

/-- The function at which a program starts: `main` without parameters in the entry module. -/
def findMain (entry : Option String) (modules : List Surface.Module) (symbols : Symbols) :
    Except MainError RoutineId :=
  match entry.orElse fun _ => modules.head?.map (·.name) with
  | none => .error .nothingToCompile
  | some moduleName =>
    match symbols.function? (fullName moduleName "main") with
    | none => .error (.missing moduleName)
    | some f =>
      if f.params.isEmpty then .ok f.id
      else .error (.takesParameters (fullName moduleName "main") f.span)

/-! ## Programs -/

inductive Artifact where
  | bytecode (program : Bytecode.Program)
  | native (program : Native.Program)

def Artifact.bytes : Artifact → Except Bytecode.WriteError (List UInt8)
  | .bytecode program => program.bytes
  | .native program => .ok program.executable

def generate (target : Target) (routines : List Routine) (main : RoutineId) :
    Except GenerationError Artifact :=
  match target with
  | .bytecode => (Bytecode.assemble routines main).map .bytecode
  | .x64 => (Native.assemble routines main).map .native

structure Compilation where
  artifact : Option Artifact
  diagnostics : List Diagnostic

/-- The program of trees, or why there is none. -/
def compileTrees (options : Options) (modules : List Surface.Module) (trees : TreeProgram) :
    Except CompileError Artifact :=
  match findMain options.entry modules trees.symbols with
  | .error e => .error (.main e (modules.head?.map (·.span)))
  | .ok main =>
    match generate options.target trees.routines main with
    | .error e => .error (.generation e)
    | .ok artifact => .ok artifact

def compile (options : Options) (modules : List Surface.Module) : Compilation :=
  let (trees, warnings) := buildTrees options.optimize modules
  match trees >>= compileTrees options modules with
  | .ok artifact => { artifact := some artifact, diagnostics := warnings }
  | .error e => { artifact := none, diagnostics := warnings ++ [e.report] }

end Codewright
