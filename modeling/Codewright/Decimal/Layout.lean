import Codewright.Decimal.Shortest

/-!
# Layout of decimals

How the digits of a decimal are set out as text: positionally, with a point where it falls, or with
an exponent after the first digit.
-/

namespace Codewright.Decimal

def Digits.chars (d : Digits) : List Char :=
  Nat.toDigits 10 d.digits

def Digits.magnitude (d : Digits) : Int :=
  d.exponent + d.chars.length - 1

/-- The decimal written out in full. A whole number ends in `tail`. -/
def Digits.positional (d : Digits) (tail : String) : String :=
  let cs := d.chars
  match d.exponent with
  | .ofNat n => String.ofList (cs ++ List.replicate n '0') ++ tail
  | .negSucc n =>
    let places := n + 1
    if places < cs.length then
      String.ofList (cs.take (cs.length - places)) ++ "."
        ++ String.ofList (cs.drop (cs.length - places))
    else "0." ++ String.ofList (List.replicate (places - cs.length) '0' ++ cs)

/-- The decimal with one digit before the point and the power of ten after an `e`. -/
def Digits.scientific (d : Digits) : String :=
  let fraction :=
    match d.chars with
    | [] => ""
    | [c] => c.toString
    | c :: cs => c.toString ++ "." ++ String.ofList cs
  fraction ++ "e" ++ toString d.magnitude

end Codewright.Decimal
