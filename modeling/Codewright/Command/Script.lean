import Codewright.Command.Path

/-!
# Scripts

What a command does to the world: it writes to the two outputs, reads and writes files, and ends
with a code. A script is a value, so that one and the same command can be performed on real files or
run on a directory that is a value too.
-/

namespace Codewright

inductive FileError where
  | notFound
  | isDirectory
  | notDirectory
  | other (text : String)
  deriving DecidableEq

def FileError.text : FileError → String
  | .notFound => "No such file or directory (os error 2)"
  | .isDirectory => "Is a directory (os error 21)"
  | .notDirectory => "Not a directory (os error 20)"
  | .other text => text

inductive Script where
  | exit (code : UInt8)
  | out (text : String) (next : Script)
  | err (text : String) (next : Script)
  | read (path : String) (next : Except FileError (List UInt8) → Script)
  | write (path : String) (bytes : List UInt8) (next : Except FileError Unit → Script)

/-! ## Directories -/

/-- A file of a directory, at the place that `path` leads to. -/
structure StoredFile where
  path : List String
  bytes : List UInt8

/-- A directory with all that is below it. A directory below it exists if a file is in it. -/
abbrev Directory := List StoredFile

namespace Directory

/-- Whether a place is a directory. -/
def isDirectory (d : Directory) (place : List String) : Bool :=
  place.isEmpty || d.any fun f => place.isPrefixOf f.path && place.length < f.path.length

def find? (d : Directory) (place : List String) : Option (List UInt8) :=
  (List.find? (·.path == place) d).map (·.bytes)

def put (d : Directory) (place : List String) (bytes : List UInt8) : Directory :=
  ⟨place, bytes⟩ :: d.filter (·.path != place)

/-- Where the parts of a path lead to from the place `way`. A part can be followed only from a
directory, also one that leads back. -/
def follow (d : Directory) (way : List String) : List String → Except FileError (List String)
  | [] => .ok way
  | part :: rest =>
    if !d.isDirectory way then
      .error (if (d.find? way).isSome then .notDirectory else .notFound)
    else if Path.isIdle part then d.follow way rest
    else if part != ".." then d.follow (way ++ [part]) rest
    else if way.isEmpty then .error .notFound
    else d.follow way.dropLast rest

/-- Where a path leads to. Nothing is found outside the directory. -/
def place (d : Directory) (path : String) : Except FileError (List String) :=
  if path.isEmpty || path.startsWith "/" then .error .notFound
  else d.follow [] (Path.parts path)

def read (d : Directory) (path : String) : Except FileError (List UInt8) := do
  let place ← d.place path
  match d.find? place with
  | some bytes => .ok bytes
  | none => .error (if d.isDirectory place then .isDirectory else .notFound)

def write (d : Directory) (path : String) (bytes : List UInt8) : Except FileError Directory := do
  let place ← d.place path
  if d.isDirectory place then .error .isDirectory else .ok (d.put place bytes)

end Directory

structure Outcome where
  code : UInt8
  stdout : String
  stderr : String
  directory : Directory

/-- Runs a script on a directory, after the outputs so far. -/
def Script.run (s : Script) (d : Directory) (stdout stderr : String) : Outcome :=
  match s with
  | .exit code => ⟨code, stdout, stderr, d⟩
  | .out text next => next.run d (stdout ++ text) stderr
  | .err text next => next.run d stdout (stderr ++ text)
  | .read path next => (next (d.read path)).run d stdout stderr
  | .write path bytes next =>
    match d.write path bytes with
    | .ok d => (next (.ok ())).run d stdout stderr
    | .error e => (next (.error e)).run d stdout stderr

end Codewright
