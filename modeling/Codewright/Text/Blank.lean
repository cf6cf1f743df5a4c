import Codewright.Text.Range

/-!
# Blank characters

The characters with the Unicode property White_Space. They separate tokens and mean nothing else.
-/

namespace Codewright.Text

/-- The code points with the property White_Space. -/
def blankRanges : Ranges :=
  [9, 5, 18, 1, 100, 1, 26, 1, 5599, 1, 2431, 11, 29, 2, 5, 1, 47, 1, 4000, 1]

def isBlank (c : Char) : Bool :=
  blankRanges.holds c

end Codewright.Text
