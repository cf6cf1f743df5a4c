import Codewright.Command

/-!
# The program

Performs the script of the command line on the files of the system.
-/

namespace Codewright

def FileError.ofSystem : IO.Error → FileError
  | .noFileOrDirectory _ _ _ => .notFound
  | e => .other (toString e)

def Script.perform : Script → IO UInt8
  | .exit code => return code
  | .out text next => do
    (← IO.getStdout).putStr text
    next.perform
  | .err text next => do
    (← IO.getStderr).putStr text
    next.perform
  | .read path next => do
    let result ← (IO.FS.readBinFile path).toBaseIO
    match result with
    | .ok bytes => (next (.ok bytes.toList)).perform
    | .error e => (next (.error (.ofSystem e))).perform
  | .write path bytes next => do
    let result ← (IO.FS.writeBinFile path ⟨bytes.toArray⟩).toBaseIO
    match result with
    | .ok () => (next (.ok ())).perform
    | .error e => (next (.error (.ofSystem e))).perform

end Codewright

def main (args : List String) : IO UInt32 := do
  let code ← (Codewright.Command.scriptOf args).perform
  return code.toUInt32
