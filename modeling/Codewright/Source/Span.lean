/-!
# Places in a source text

A position counts lines and columns from one, columns in characters, and the offset in bytes of the
UTF-8 text. A span is a region between two positions of one file.
-/

namespace Codewright.Source

/-- A place between two characters of a text. -/
structure Position where
  line : Nat
  column : Nat
  offset : Nat
  deriving DecidableEq, Inhabited

namespace Position

/-- The start of every text. -/
def origin : Position := ⟨1, 1, 0⟩

def advance (p : Position) (c : Char) : Position :=
  if c = '\n' then ⟨p.line + 1, 1, p.offset + c.utf8Size⟩
  else ⟨p.line, p.column + 1, p.offset + c.utf8Size⟩

def advanceAll (p : Position) (cs : List Char) : Position :=
  cs.foldl advance p

end Position

/-- A region of the file with number `file`. -/
structure Span where
  start : Position
  stop : Position
  file : Nat
  deriving DecidableEq, Inhabited

namespace Span

/-- The region of no width at a position. -/
def point (p : Position) (file : Nat) : Span := ⟨p, p, file⟩

/-- The region from the earlier start to the later end. -/
def join (a b : Span) : Span :=
  { start := if a.start.offset ≤ b.start.offset then a.start else b.start
    stop := if b.stop.offset ≤ a.stop.offset then a.stop else b.stop
    file := a.file }

/-- Number of bytes, none for a region that ends before it starts. -/
def size (a : Span) : Nat := a.stop.offset - a.start.offset

def isEmpty (a : Span) : Bool := a.size == 0

end Span

end Codewright.Source
