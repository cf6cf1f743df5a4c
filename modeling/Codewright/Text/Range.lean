/-!
# Ranges of code points

A character class that a standard defines by a table is kept here as the lengths of its ranges and
of the gaps between them, from code point zero on. So ranges cannot overlap or be out of order.
Membership walks the lengths and stops at the gap or range of the code point, so the common low code
points are decided at once.
-/

namespace Codewright.Text

/-- Lengths of gaps and of ranges, in turn. -/
abbrev Ranges := List Nat

def Ranges.contains (n : Nat) : Ranges → Bool
  | gap :: range :: rest =>
    if n < gap then false else n < gap + range || contains (n - (gap + range)) rest
  | _ => false

/-- Whether the code point of `c` lies in one of the ranges. -/
def Ranges.holds (table : Ranges) (c : Char) : Bool :=
  contains c.toNat table

end Codewright.Text
