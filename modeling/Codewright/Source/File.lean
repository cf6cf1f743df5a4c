/-!
# Source files

The texts that diagnostics point into. A file is asked for its lines, which it finds through a table
of the byte offsets at which they start. A line has no terminator, and carriage returns at its end
are not shown.
-/

namespace Codewright.Source

/-- The offsets of the lines after the line feeds of a text that goes on at the byte `offset`;
`starts` holds the offsets found before. -/
def lineStartsFrom (starts : Array Nat) (offset : Nat) : List Char → Array Nat
  | [] => starts
  | c :: cs =>
    lineStartsFrom (if c = '\n' then starts.push (offset + 1) else starts) (offset + c.utf8Size) cs

/-- A text in two parts, the first of so many bytes; `front` holds the reversed characters taken
before. Bytes that end within a character or after the text make no part. -/
def cutAt? (front : List Char) : Nat → List Char → Option (List Char × List Char)
  | 0, cs => some (front.reverse, cs)
  | _ + 1, [] => none
  | n + 1, c :: cs => if c.utf8Size ≤ n + 1 then cutAt? (c :: front)
    (n + 1 - c.utf8Size) cs else none

/-- The characters between two byte offsets. -/
def slice? (start stop : Nat) (text : List Char) : Option (List Char) :=
  if start ≤ stop then do
    let (_, rest) ← cutAt? [] start text
    let (piece, _) ← cutAt? [] (stop - start) rest
    return piece
  else none

/-- A line as it is shown: without the carriage returns at its end. -/
def shownLine (cs : List Char) : List Char :=
  (cs.reverse.dropWhile (· == '\r')).reverse

/-- A text as reports show it: its name and where its lines start. -/
structure File where
  name : String
  text : String
  lineStarts : Array Nat
  deriving Inhabited

namespace File

def ofText (name text : String) : File :=
  { name, text, lineStarts := lineStartsFrom #[0] 0 text.toList }

/-- The line after `n` others. It ends before the line feed that the next line starts after, and the
last one with the text. -/
def lineAfter? (f : File) (n : Nat) : Option (List Char) := do
  let start ← f.lineStarts[n]?
  let stop := (f.lineStarts[n + 1]?.map (· - 1)).getD f.text.utf8ByteSize
  slice? start stop f.text.toList

/-- The line with the number `n`, counted from 1. -/
def line? (f : File) : Nat → Option String
  | 0 => none
  | n + 1 => (f.lineAfter? n).map fun cs => String.ofList (shownLine cs)

end File

/-- The files of a run; a file's number is its place in the list. -/
abbrev Files := List File

end Codewright.Source
