import Codewright.Decimal.Layout

/-!
# Double-precision reals

A real value of the language is a 64-bit IEEE number, kept as its bits: two reals are the same value
exactly when all their bits agree, also for the many bit patterns that are not a number. Arithmetic
rounds to nearest. An operand that is not a number is handed on, the left one first; an operation
without a result gives the one pattern that the hardware gives.
-/

namespace Codewright

/-- A 64-bit real by its bits: sign, eleven bits of exponent, fifty-two bits of fraction. -/
structure Double where
  bits : UInt64
  deriving DecidableEq, Inhabited

namespace Double

/-! ## Parts -/

def isNegative (x : Double) : Bool :=
  x.bits >>> 63 == 1

/-- The eleven bits of the exponent. -/
def exponentBits (x : Double) : Nat :=
  ((x.bits >>> 52) &&& 0x7FF).toNat

/-- The fifty-two bits of the fraction. -/
def fractionBits (x : Double) : Nat :=
  (x.bits &&& 0xFFFFFFFFFFFFF).toNat

def isNaN (x : Double) : Bool :=
  x.exponentBits == 0x7FF && x.fractionBits != 0

def isInfinite (x : Double) : Bool :=
  x.exponentBits == 0x7FF && x.fractionBits == 0

def isZero (x : Double) : Bool :=
  x.exponentBits == 0 && x.fractionBits == 0

/-- The usual pattern for "not a number". -/
def nan : Double := ⟨0x7FF8000000000000⟩

/-- What an operation without a result gives: "not a number" with the sign set. -/
def invalid : Double := ⟨0xFFF8000000000000⟩

/-- The same pattern with the bit set that marks a quiet one. -/
def quiet (x : Double) : Double := ⟨x.bits ||| 0x8000000000000⟩

/-! ## Arithmetic -/

def toFloat (x : Double) : Float := Float.ofBits x.bits

/-- The bits of a computed number. -/
def ofFloat (f : Float) : Double :=
  if f.isNaN then invalid else ⟨f.toBits⟩

def lift₂ (op : Float → Float → Float) (x y : Double) : Double :=
  if x.isNaN then x.quiet
  else if y.isNaN then y.quiet
  else ofFloat (op x.toFloat y.toFloat)

def add (x y : Double) : Double := lift₂ (· + ·) x y
def sub (x y : Double) : Double := lift₂ (· - ·) x y
def mul (x y : Double) : Double := lift₂ (· * ·) x y
def div (x y : Double) : Double := lift₂ (· / ·) x y

/-- The sign turned around, also of a zero and of a pattern that is not a number. -/
def neg (x : Double) : Double := ⟨x.bits ^^^ 0x8000000000000000⟩

/-- Equality as numbers: the two zeros are equal and "not a number" equals nothing. -/
def numEq (x y : Double) : Bool := x.toFloat == y.toFloat

def lt (x y : Double) : Bool := x.toFloat < y.toFloat

def le (x y : Double) : Bool := x.toFloat ≤ y.toFloat

/-- The nearest real to an integer, a half going to the even neighbour. -/
def ofInt (n : Int) : Double := ⟨(Float.ofInt n).toBits⟩

/-- The nearest real to `mantissa * 10 ^ -places`; too large a number becomes infinite. -/
def ofDecimal (mantissa places : Nat) : Double :=
  ⟨(Float.ofScientific mantissa true places).toBits⟩

/-! ## Text -/

/-- The reals that round to the absolute value of a finite number other than zero. The interval is
closed for an even significand, and its lower half is shorter below a power of two. -/
def interval (x : Double) : Decimal.Interval :=
  let e := x.exponentBits
  let significand := if e = 0 then x.fractionBits else x.fractionBits + 0x10000000000000
  -- the value is `significand * 2 ^ (scale - 1075)`
  let scale := if e = 0 then 1 else e
  let lower := if x.fractionBits = 0 && 1 < e then 1 else 2
  let up := scale - 1077
  let bits := 1077 - scale
  { low := (4 * significand - lower) <<< up
    value := (4 * significand) <<< up
    high := (4 * significand + 2) <<< up
    bits
    closed := significand % 2 == 0 }

/-- The shortest decimal of a finite number other than zero, without its sign. -/
def digits (x : Double) : Decimal.Digits := x.interval.shortest

/-- Text of the values that have no digits, and otherwise the sign and the layout of the digits. -/
def format (zero : String) (layout : Decimal.Digits → String) (x : Double) : String :=
  if x.isNaN then "NaN"
  else
    let sign := if x.isNegative then "-" else ""
    if x.isInfinite then sign ++ "inf"
    else if x.isZero then sign ++ zero
    else sign ++ layout x.digits

/-- Text of a literal: the fewest digits that read back, always with a point or an exponent. The
exponent is written from `10 ^ 16` upwards and below `10 ^ -4`. -/
def text (x : Double) : String :=
  x.format "0.0" fun d =>
    if -4 ≤ d.magnitude && d.magnitude < 16 then d.positional ".0" else d.scientific

/-- Text in full: the fewest digits that read back, never an exponent, and no point after a whole
number. -/
def plainText (x : Double) : String :=
  x.format "0" fun d => d.positional ""

end Double

end Codewright
