import Codewright.Bytecode.Listing
import Codewright.Command.Arguments
import Codewright.Command.Script
import Codewright.Diagnostic.Render
import Codewright.Surface.Outline

/-!
# Commands

What each command does, as a script. Reports go to the error output, in colour.
-/

namespace Codewright

namespace Script

def fail (text : String) : Script := .err text (.exit 1)

/-- Writes reports to the error output, if there are any. -/
def report (files : Source.Files) (ds : List Diagnostic) (next : Script) : Script :=
  if ds.isEmpty then next else .err (Diagnostic.renderAll files ds ++ "\n") next

/-- Goes on with the bytes of a file. -/
def readBytes (path : String) (next : List UInt8 → Script) : Script :=
  .read path fun
    | .ok bytes => next bytes
    | .error e => fail ("Error reading " ++ path ++ ": " ++ e.text ++ "\n")

/-- Goes on with the text of a file. -/
def readText (path : String) (next : String → Script) : Script :=
  readBytes path fun bytes =>
    match Text.Utf8.decode? bytes with
    | some text => next text
    | none => fail ("Error reading " ++ path ++ ": stream did not contain valid UTF-8\n")

/-- Goes on with the modules of files after those read so far. The first file with errors ends the
script. -/
def readModules (files : Source.Files) (modules : List Surface.Module)
    (next : Source.Files → List Surface.Module → Script) : List String → Script
  | [] => next files modules
  | path :: rest =>
    readText path fun text =>
      let files := files ++ [.ofText path text]
      match readModule (files.length - 1) text with
      | (some m, _) => readModules files (modules ++ [m]) next rest
      | (none, ds) => .err ("Syntax errors in " ++ path ++ ":\n\n") (report files ds (.exit 1))

end Script

namespace Command

open Script

def summary : Artifact → String
  | .bytecode p =>
    "  [ok] Bytecode: " ++ toString p.functions.size ++ " functions, "
      ++ toString p.constants.size ++ " constants\n"
  | .native p => "  [ok] x64: " ++ toString p.code.size ++ " bytes of code\n"

/-- Writes a program to a file. -/
def save (path : String) (artifact : Artifact) : Script :=
  match artifact.bytes with
  | .error e => fail ("Error encoding output: " ++ e.message ++ "\n")
  | .ok bytes =>
    .write path bytes fun
      | .error e => fail ("Error writing " ++ path ++ ": " ++ e.text ++ "\n")
      | .ok () =>
        .out (summary artifact) <|
          .out ("\nWrote " ++ path ++ " (" ++ toString bytes.length ++ " bytes)\n") (.exit 0)

/-- The file that is written unless one is named: the first input with the target's extension. -/
def defaultOutput (inputs : List String) (target : Target) : String :=
  Path.withExtension (inputs.headD "") target.extension

def buildScript (inputs : List String) (output : Option String) (options : Options) : Script :=
  let go (files : Source.Files) (modules : List Surface.Module) : Script :=
    let c := compile options modules
    .out ("  [ok] Parser: " ++ toString modules.length ++ " modules\n") <|
      report files c.diagnostics <|
        match c.artifact with
        | none => fail "\nCompilation failed\n"
        | some artifact => save (output.getD (defaultOutput inputs options.target)) artifact
  .out ("Compiling: " ++ ", ".intercalate inputs ++ "\n") (readModules [] [] go inputs)

def checkScript (inputs : List String) : Script :=
  let go (files : Source.Files) (modules : List Surface.Module) : Script :=
    let c := compile {} modules
    report files c.diagnostics <|
      if c.artifact.isSome then .out "No errors found\n" (.exit 0) else fail "\nCheck failed\n"
  .out ("Checking: " ++ ", ".intercalate inputs ++ "\n\n") (readModules [] [] go inputs)

/-- Blanks that bring a text up to a width. -/
def blanks (width : Nat) (s : String) : String :=
  String.ofList (List.replicate (width - s.length) ' ')

def tokenLine (t : Token) : String :=
  let line := toString t.span.start.line
  let column := toString t.span.start.column
  blanks 4 line ++ line ++ ":" ++ column ++ blanks 4 column ++ " " ++ t.kind.listing ++ "\n"

def lexScript (input : String) : Script :=
  readText input fun text =>
    let tokens := scan 0 text
    .out (String.join ((tokens.takeWhile (·.kind != .eof)).map tokenLine)) <|
      report [.ofText input text] (scanReports tokens) (.exit 0)

def parseScript (input : String) : Script :=
  let go (_ : Source.Files) (modules : List Surface.Module) : Script :=
    .out (String.join (modules.map fun m => m.outlineText ++ "\n")) (.exit 0)
  readModules [] [] go [input]

def irScript (inputs : List String) (optimize : Bool) : Script :=
  let go (files : Source.Files) (modules : List Surface.Module) : Script :=
    match buildTrees optimize modules with
    | (.ok p, ds) =>
      report files ds (.out (String.join (p.routines.map fun r => r.text ++ "\n")) (.exit 0))
    | (.error e, ds) => report files (ds ++ [e.report]) (.exit 1)
  readModules [] [] go inputs

def list (p : Bytecode.Program) : Script := .out (p.listing ++ "\n") (.exit 0)

def disasmImage (path : String) : Script :=
  readBytes path fun bytes =>
    match Bytecode.Program.read bytes with
    | .ok (p, _) => list p
    | .error e => fail (path ++ ": " ++ e.message ++ "\n")

def disasmSources (inputs : List String) : Script :=
  let go (files : Source.Files) (modules : List Surface.Module) : Script :=
    let c := compile {} modules
    report files c.diagnostics <|
      match c.artifact with
      | some (.bytecode p) => list p
      | _ => .exit 1
  readModules [] [] go inputs

/-- The script of `disasm`: a single file with the extension of images is an image, anything else is
compiled. -/
def disasmScript (inputs : List String) : Script :=
  match inputs with
  | [path] => if Path.extension? path = some "peis" then disasmImage path else disasmSources [path]
  | _ => disasmSources inputs

def script : Command → Script
  | .build inputs output options => buildScript inputs output options
  | .check inputs => checkScript inputs
  | .lex input => lexScript input
  | .parse input => parseScript input
  | .ir inputs optimize => irScript inputs optimize
  | .disasm inputs => disasmScript inputs

/-- The script of the words of a command line. -/
def scriptOf (words : List String) : Script :=
  match ofWords words with
  | .ok command => command.script
  | .error e => .err ("error: " ++ e.message ++ "\n") (.exit 2)

end Command

end Codewright
