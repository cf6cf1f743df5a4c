/-!
# Paths

Names of files with slashes between their parts. The extension of a file is what follows the last
dot of its name, unless the dot is the first character.
-/

namespace Codewright.Path

def parts (path : String) : List String := path.splitOn "/"

/-- Whether a part leads nowhere else. -/
def isIdle (part : String) : Bool := part.isEmpty || part == "."

def steps (path : String) : List String := (parts path).filter fun part => !isIdle part

/-- The parts up to the name of a file, with the name last; slashes and idle parts behind it do not
count. -/
def upToName (path : String) : List String :=
  ((parts path).reverse.dropWhile isIdle).reverse

def fileName? (path : String) : Option String := (upToName path).getLast?.filter (· != "..")

/-- A file name cut at the last dot: what stands before it, and the extension if there is one. -/
def splitExtension (name : String) : String × Option String :=
  let reversed := name.toList.reverse
  match reversed.dropWhile (· != '.') with
  | _ :: stem@(_ :: _) =>
    (String.ofList stem.reverse, some (String.ofList (reversed.takeWhile (· != '.')).reverse))
  | _ => (name, none)

def extension? (path : String) : Option String := (fileName? path).bind fun n =>
    (splitExtension n).2

/-- The path with another extension. A path without a file name stays as it is. -/
def withExtension (path extension : String) : String :=
  match fileName? path with
  | none => path
  | some name =>
    "/".intercalate ((upToName path).dropLast ++ [(splitExtension name).1 ++ "." ++ extension])

end Codewright.Path
