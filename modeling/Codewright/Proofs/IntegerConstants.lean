import Mathlib
import Codewright.Intrinsic.Constant

/-!
# Operators on integer constants

Constants are folded in words of 64 bits. Each result is tied to the integers here: sums,
differences, products and quotients come to the exact result modulo `2 ^ 64`, and the remainder is
the exact one (`toInt_remainder`). For a negative remainder the code adds the divisor's magnitude.
The magnitude of the least word does not fit into a word and wraps, and so does the sum; the two
cancel, because the sum itself does fit.
-/

namespace Codewright.Intrinsic

theorem toInt_abs (y : Int64) : y.abs.toInt = |y.toInt|.bmod (2 ^ 64) := by
  rw [show y.abs.toInt = y.toBitVec.abs.toInt from rfl, ← Int64.toInt_toBitVec, BitVec.abs_eq,
    BitVec.msb_eq_toInt]
  split
  · next hneg => rw [BitVec.toInt_neg, abs_of_neg (of_decide_eq_true hneg)]
  · next hneg =>
    rw [abs_of_nonneg (Int.not_lt.mp fun h => hneg (decide_eq_true h)), Int64.toInt_toBitVec]
    exact y.toInt_bmod.symm

/-- The remainder is the one of the integers, between zero and the divisor's magnitude. -/
theorem toInt_remainder (x : Int64) {y : Int64} (hy : y ≠ 0) :
    (remainder x y).toInt = x.toInt % y.toInt := by
  have hzero : y.toInt ≠ 0 := fun h => hy (Int64.toInt_inj.mp h)
  have hle := y.le_toInt
  have hlt := y.toInt_lt
  have hpos := Int.emod_nonneg x.toInt hzero
  have hsmall := Int.emod_lt_abs x.toInt hzero
  have habs : |y.toInt| ≤ 2 ^ 63 := abs_le.mpr ⟨hle, hlt.le⟩
  have hmod := @Int.tmod_eq_emod x.toInt y.toInt
  unfold remainder
  dsimp only
  split
  · next hneg =>
    rw [Int64.lt_iff_toInt_lt, Int64.toInt_mod, Int64.toInt_zero] at hneg
    rw [Int64.toInt_add, Int64.toInt_mod, toInt_abs, Int.add_bmod_bmod]
    -- Before the reduction the sum is the remainder, which is in range.
    have hsum : x.toInt.tmod y.toInt + |y.toInt| = x.toInt % y.toInt := by
      rw [hmod] at hneg ⊢
      split_ifs at hneg ⊢
      · omega
      · rw [Int.abs_eq_natAbs]
        omega
    rw [hsum]
    exact Int.bmod_eq_of_le (by norm_num; omega) (by norm_num; omega)
  · next hneg =>
    rw [Int64.lt_iff_toInt_lt, Int64.toInt_mod, Int64.toInt_zero, Int.not_lt] at hneg
    rw [Int64.toInt_mod, hmod] at *
    rw [Int.abs_eq_natAbs] at hsmall
    split_ifs at hneg ⊢ <;> omega

/-- The quotient is exact but for one pair of words. -/
theorem toInt_div_eq_iff (x : Int64) {y : Int64} :
    (x / y).toInt = x.toInt.tdiv y.toInt ↔ ¬(x.toInt = -2 ^ 63 ∧ y.toInt = -1) := by
  constructor
  · rintro h ⟨hx, hy⟩
    rw [Int64.toInt_div, hx, hy] at h
    exact absurd h (by decide)
  · intro h
    by_cases hx : x = Int64.minValue
    · refine Int64.toInt_div_of_ne_right x y fun hy => h ?_
      subst hx hy
      decide
    · exact Int64.toInt_div_of_ne_left x y hx

/-- The result is the word of an integer modulo `2 ^ 64`. -/
def Wraps (n : Int) (result : Option Value) : Prop :=
  ∃ r : Int64, result = some (.int r) ∧ r.toInt ≡ n [ZMOD 2 ^ 64]

theorem Wraps.of_bmod {n : Int} {r : Int64} (h : r.toInt = n.bmod (2 ^ 64)) :
    Wraps n (some (.int r)) :=
  ⟨r, rfl, h ▸ Int.bmod_emod⟩

/-- Folding integers is exact at the limits of the words. Sums, differences, products and negations
come to the exact result modulo `2 ^ 64`, and so does the quotient truncated toward zero, which is
the exact one but for the least word divided by `-1`. The remainder lies between zero and the
divisor's magnitude, for every divisor. The divisions are left to the program when the divisor is
zero, and only then. Comparisons are those of the integers. -/
theorem integer_constants_exact (x y : Int64) :
    let on (op : Intrinsic) : Option Value := onConstants? op (.int x) (.int y)
    let m := x.toInt
    let n := y.toInt
    (Wraps (m + n) (on .add) ∧ Wraps (m - n) (on .sub) ∧ Wraps (m * n) (on .mul) ∧
      Wraps (-m) (onConstant? .neg (.int x))) ∧
    (∀ op ∈ [div, intDiv, mod], on op = none ↔ y = 0) ∧
    (y ≠ 0 → Wraps (m.tdiv n) (on .intDiv) ∧
      (∀ q, on .intDiv = some (.int q) → (q.toInt = m.tdiv n ↔ ¬(m = -2 ^ 63 ∧ n = -1))) ∧
      ∃ r, on .mod = some (.int r) ∧ 0 ≤ r.toInt ∧ r.toInt < |n| ∧ n ∣ m - r.toInt) ∧
    on .eq = some (.bool (m = n)) ∧ on .ne = some (.bool (m ≠ n)) ∧
    on .lt = some (.bool (m < n)) ∧ on .le = some (.bool (m ≤ n)) ∧
    on .gt = some (.bool (n < m)) ∧ on .ge = some (.bool (n ≤ m)) := by
  intro on m n
  refine ⟨⟨.of_bmod (x.toInt_add y), .of_bmod (x.toInt_sub y), .of_bmod (x.toInt_mul y),
    .of_bmod x.toInt_neg⟩, ?_, fun hy => ?_, ?_⟩
  · intro op hop
    fin_cases hop <;> simp [on, onConstants?, onInts?]
  · have hzero : n ≠ 0 := fun h => hy (Int64.toInt_inj.mp h)
    have hdiv : on .intDiv = some (.int (x / y)) := if_neg hy
    refine ⟨hdiv ▸ .of_bmod (x.toInt_div y), fun q hq => ?_, remainder x y, if_neg hy, ?_⟩
    · cases hdiv.symm.trans hq
      exact toInt_div_eq_iff x
    · rw [toInt_remainder x hy]
      exact ⟨Int.emod_nonneg m hzero, Int.emod_lt_abs m hzero, Int.dvd_self_sub_emod⟩
  · simp [on, m, n, onConstants?, onInts?, Int64.lt_iff_toInt_lt, Int64.le_iff_toInt_le,
      Int64.toInt_inj, bne, beq_eq_decide]

/-- The magnitude of the least word wraps, and the remainder is right all the same. -/
theorem integer_constants_exact_least : (Int64.minValue ≠ 0) ∧
    ∃ r, onConstants? .mod (.int (-1)) (.int Int64.minValue) = some (.int r) ∧ 0 ≤ r.toInt ∧
      r.toInt < 2 ^ 63 ∧ -2 ^ 63 ∣ -1 - r.toInt :=
  have hy : Int64.minValue ≠ 0 := by decide
  ⟨hy, ((integer_constants_exact (-1) Int64.minValue).2.2.1 hy).2.2⟩

end Codewright.Intrinsic
