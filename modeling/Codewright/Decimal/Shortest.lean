/-!
# Shortest decimals

The decimal with the fewest digits that stands for a binary number: it lies among the reals that
round to the number. All arithmetic is exact. The number and the two ends of its rounding interval
are given as numerators over one power of two, and multiples of `10 ^ p` are tried for falling `p`:
the first `p` with a multiple inside the interval wins. Of two multiples the nearer is taken, and a
tie goes up.

The search ends without fuel from outside: over a denominator of `2 ^ f` the number itself is a
multiple of `10 ^ -f`, so the fractional part of the search is bounded by `f`.
-/

namespace Codewright.Decimal

/-- A positive number `value / 2 ^ bits` with its rounding interval. The ends belong to the interval
when `closed` holds. -/
structure Interval where
  low : Nat
  value : Nat
  high : Nat
  bits : Nat
  closed : Bool

/-- The decimal `digits * 10 ^ exponent`. -/
structure Digits where
  digits : Nat
  exponent : Int
  deriving DecidableEq

namespace Interval

/-- Whether `n` lies above the lower end. -/
def aboveLow (i : Interval) (n : Nat) : Bool :=
  i.low < n || (i.closed && i.low == n)

/-- Whether `n` lies below the upper end. -/
def belowHigh (i : Interval) (n : Nat) : Bool :=
  n < i.high || (i.closed && n == i.high)

/-- The denominator of the three numerators. -/
def denominator (i : Interval) : Nat := Nat.pow 2 i.bits

/-- The factor of the multiple of `unit` inside the interval that is nearest to the number. -/
def multiple? (i : Interval) (unit : Nat) : Option Nat :=
  let d := i.value / unit
  let down := 0 < d && i.aboveLow (d * unit)
  let up := i.belowHigh ((d + 1) * unit)
  match down, up with
  | true, true => some (if 2 * (i.value % unit) < unit then d else d + 1)
  | true, false => some d
  | false, true => some (d + 1)
  | false, false => none

/-- The interval with all numerators multiplied by ten. -/
def times10 (i : Interval) : Interval :=
  { i with low := i.low * 10, value := i.value * 10, high := i.high * 10 }

/-- The search among the multiples of `10 ^ -1`, `10 ^ -2`, …, the numerators having been multiplied
by ten `done` times already. -/
def searchFraction (i : Interval) : (fuel done : Nat) → Digits
  | 0, done => ⟨i.value / i.denominator, -(done : Int)⟩
  | fuel + 1, done =>
    match i.times10.multiple? i.denominator with
    | some d => ⟨d, -((done : Int) + 1)⟩
    | none => searchFraction i.times10 fuel (done + 1)

/-- The search among the multiples of `10 ^ p`, `10 ^ (p - 1)`, …, `1`, and then below. -/
def searchWhole (i : Interval) : (p : Nat) → Digits
  | 0 =>
    match i.multiple? i.denominator with
    | some d => ⟨d, 0⟩
    | none => i.searchFraction (i.bits + 1) 0
  | p + 1 =>
    match i.multiple? (Nat.pow 10 (p + 1) * i.denominator) with
    | some d => ⟨d, (p : Int) + 1⟩
    | none => searchWhole i p

def shortest (i : Interval) : Digits :=
  i.searchWhole (Nat.toDigits 10 (i.high / i.denominator)).length

end Interval

end Codewright.Decimal
