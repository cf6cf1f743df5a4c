import Codewright.Diagnostic
import Codewright.Source.File

/-!
# Rendering of diagnostics

A report is shown with the source line of each label and a row of markers under the labelled
columns: `^` for a primary label and `-` for a secondary one. Colours are terminal escapes around
the parts and can be left out.
-/

namespace Codewright

/-- The escapes that colour a rendering, or empty texts. -/
structure Palette where
  reset : String
  bold : String
  blue : String
  green : String
  level : Level → String

namespace Palette

def plain : Palette :=
  { reset := "", bold := "", blue := "", green := "", level := fun _ => "" }

/-- Terminal colours: errors red, warnings yellow, notes cyan. -/
def colored : Palette :=
  { reset := "\x1b[0m"
    bold := "\x1b[1m"
    blue := "\x1b[1;34m"
    green := "\x1b[1;32m"
    level := fun
      | .error => "\x1b[1;31m"
      | .warning => "\x1b[1;33m"
      | .note => "\x1b[1;36m" }

end Palette

namespace Label

def row (c : Char) (n : Nat) : String := String.ofList (List.replicate n c)

def indent (l : Label) : Nat := l.span.start.column - 1

/-- Number of markers under the line `shown`. A label that ends on a later line runs on by the size
of the shown line; there is always one marker. -/
def width (l : Label) (shown : String) : Nat :=
  max 1 <|
    if l.span.stop.line = l.span.start.line then l.span.stop.column - l.span.start.column
    else shown.utf8ByteSize - l.indent

/-- The marked source line of a label: its place, an empty row, the line and the markers. A label of
an unknown file shows nothing, and one of an unknown line shows its place only. -/
def render (p : Palette) (files : Source.Files) (levelColor : String) (l : Label) : String :=
  match files[l.span.file]? with
  | none => ""
  | some file =>
    let line := toString l.span.start.line
    let place := " " ++ p.blue ++ "-->" ++ p.reset ++ " " ++ file.name ++ ":" ++ line ++ ":"
      ++ toString l.span.start.column ++ "\n"
    match file.line? l.span.start.line with
    | none => place
    | some shown =>
      let gutter := " " ++ row ' ' line.length ++ " " ++ p.blue ++ "|" ++ p.reset
      let (marker, color) := if l.primary then ('^', levelColor) else ('-', p.blue)
      place
        ++ gutter ++ "\n"
        ++ " " ++ p.blue ++ line ++ p.reset ++ " | " ++ shown ++ "\n"
        ++ gutter ++ " " ++ row ' ' l.indent ++ color ++ row marker (l.width shown) ++ p.reset
        ++ " " ++ l.message ++ "\n"

end Label

namespace Diagnostic

def render (p : Palette) (files : Source.Files) (d : Diagnostic) : String :=
  let color := p.level d.level
  color ++ d.heading ++ p.reset ++ p.bold ++ ": " ++ d.message ++ p.reset ++ "\n"
    ++ String.join (d.labels.map (Label.render p files color))
    ++ String.join (d.notes.map fun n => "   = " ++ p.bold ++ "note" ++ p.reset ++
      ": " ++ n ++ "\n")
    ++ String.join (d.help.map fun h => "   = " ++ p.green ++ "help" ++ p.reset ++
      ": " ++ h ++ "\n")

/-- All reports in colour, with an empty line between two of them. -/
def renderAll (files : Source.Files) (ds : List Diagnostic) : String :=
  "\n".intercalate (ds.map (render .colored files))

end Diagnostic

end Codewright
