import Mathlib
import Codewright.Value

/-!
# Shortest decimals tell numbers apart

The decimal that is written for a number lies in its rounding interval (`contains_shortest`), and
the intervals of two numbers have no point in common: one begins where the one below ends, and of
two neighbours only the one with an even significand includes the end. So no two numbers have the
same text, those apart that are not a number.
-/

namespace Codewright

namespace Decimal

/-- The number that a decimal stands for. -/
def Digits.value (d : Digits) : ℚ := d.digits * 10 ^ d.exponent

namespace Interval

variable {i : Interval} {q : ℚ} {n unit : Nat}

/-- The number lies strictly between the ends. -/
structure Proper (i : Interval) : Prop where
  low : i.low < i.value
  high : i.value < i.high

/-- A number lies in the interval. -/
structure Contains (i : Interval) (q : ℚ) : Prop where
  low : i.low < q * i.denominator ∨ i.closed = true ∧ i.low = q * i.denominator
  high : q * i.denominator < i.high ∨ i.closed = true ∧ q * i.denominator = i.high

theorem denominator_pos (i : Interval) : 0 < i.denominator := Nat.two_pow_pos i.bits

theorem Proper.times10 (h : i.Proper) : i.times10.Proper where
  low := Nat.mul_lt_mul_of_pos_right h.low (by decide)
  high := Nat.mul_lt_mul_of_pos_right h.high (by decide)

theorem contains_times10 (h : i.times10.Contains (q * 10)) : i.Contains q := by
  have hlow : (i.times10.low : ℚ) = i.low * 10 := by simp [times10]
  have hhigh : (i.times10.high : ℚ) = i.high * 10 := by simp [times10]
  have hden : i.times10.denominator = i.denominator := rfl
  obtain ⟨hl, hh⟩ := h
  rw [hlow, hden] at hl
  rw [hhigh, hden] at hh
  refine ⟨hl.imp (fun h => ?_) (And.imp_right fun h => ?_), hh.imp (fun h => ?_)
    (And.imp_right fun h => ?_)⟩ <;>
    linarith

theorem multiple?_spec (hi : i.Proper) (hu : 0 < unit) (h : i.multiple? unit = some n) :
    0 < n ∧ i.aboveLow (n * unit) = true ∧ i.belowHigh (n * unit) = true := by
  have hdown : i.value / unit * unit ≤ i.value := Nat.div_mul_le_self _ _
  have hup : i.value < (i.value / unit + 1) * unit := by
    rw [Nat.add_mul, Nat.one_mul]
    exact Nat.lt_div_mul_add hu
  have hbelow : i.belowHigh (i.value / unit * unit) = true := by
    simp only [belowHigh, Bool.or_eq_true, decide_eq_true_eq]
    exact .inl (Nat.lt_of_le_of_lt hdown hi.high)
  have habove : i.aboveLow ((i.value / unit + 1) * unit) = true := by
    simp only [aboveLow, Bool.or_eq_true, decide_eq_true_eq]
    exact .inl (Nat.lt_trans hi.low hup)
  unfold multiple? at h
  dsimp only at h
  split at h
  · next h₁ h₂ =>
    rw [Bool.and_eq_true, decide_eq_true_eq] at h₁
    cases h
    split
    · exact ⟨h₁.1, h₁.2, hbelow⟩
    · exact ⟨Nat.succ_pos _, habove, h₂⟩
  · next h₁ h₂ =>
    rw [Bool.and_eq_true, decide_eq_true_eq] at h₁
    cases h
    exact ⟨h₁.1, h₁.2, hbelow⟩
  · next h₁ h₂ =>
    cases h
    exact ⟨Nat.succ_pos _, habove, h₂⟩
  · cases h

theorem contains_of_multiple {k : Nat} (hk : (k : ℚ) = q * i.denominator)
    (h : i.aboveLow k = true ∧ i.belowHigh k = true) : i.Contains q := by
  simp only [aboveLow, belowHigh, Bool.or_eq_true, Bool.and_eq_true, decide_eq_true_eq,
    beq_iff_eq] at h
  constructor
  · rw [← hk]
    exact_mod_cast h.1
  · rw [← hk]
    exact_mod_cast h.2

theorem searchFraction_spec {fuel : Nat} (done : Nat) (hi : i.Proper)
    (hdiv : i.denominator ∣ i.value * 10 ^ fuel) : 0 < (i.searchFraction fuel done).digits ∧
      i.Contains ((i.searchFraction fuel done).digits *
          10 ^ ((i.searchFraction fuel done).exponent + done)) := by
  induction fuel generalizing i done with
  | zero =>
    rw [pow_zero, mul_one] at hdiv
    have hvalue : i.value / i.denominator * i.denominator = i.value := Nat.div_mul_cancel hdiv
    refine ⟨Nat.div_pos (Nat.le_of_dvd (Nat.zero_lt_of_lt hi.low) hdiv) i.denominator_pos, ?_⟩
    refine contains_of_multiple (k := i.value) ?_ ⟨?_, ?_⟩
    · simp only [searchFraction]
      rw [neg_add_cancel, zpow_zero, mul_one]
      exact_mod_cast hvalue.symm
    · simp [aboveLow, hi.low]
    · simp [belowHigh, hi.high]
  | succ fuel ih =>
    rw [searchFraction]
    cases h : i.times10.multiple? i.denominator with
    | some d =>
      obtain ⟨hpos, habove, hbelow⟩ := multiple?_spec hi.times10 i.denominator_pos h
      refine ⟨hpos,
        contains_times10 (contains_of_multiple (k := d * i.denominator) ?_ ⟨habove, hbelow⟩)⟩
      have hexp : -((done : Int) + 1) + done = -1 := by ring
      dsimp only
      rw [hexp, zpow_neg_one, inv_mul_cancel_right₀ (by norm_num)]
      push_cast
      rfl
    | none =>
      dsimp only
      have hdiv' : i.times10.denominator ∣ i.times10.value * 10 ^ fuel := by
        show i.denominator ∣ i.value * 10 * 10 ^ fuel
        rwa [mul_assoc, ← pow_succ']
      obtain ⟨hpos, hc⟩ := ih (done + 1) hi.times10 hdiv'
      refine ⟨hpos, contains_times10 ?_⟩
      rw [mul_assoc, ← zpow_add_one₀ (by norm_num), add_assoc]
      exact_mod_cast hc

theorem searchWhole_spec {p : Nat} (hi : i.Proper) :
    0 < (i.searchWhole p).digits ∧ i.Contains (i.searchWhole p).value := by
  have hfound : ∀ {p d : Nat}, i.multiple? (Nat.pow 10 p * i.denominator) = some d →
      0 < d ∧ i.Contains (d * 10 ^ (p : Int)) := by
    intro p d h
    obtain ⟨hpos, hd⟩ :=
      multiple?_spec hi (Nat.mul_pos (Nat.pow_pos (by decide)) i.denominator_pos) h
    refine ⟨hpos, contains_of_multiple ?_ hd⟩
    push_cast
    rw [zpow_natCast, mul_assoc]
  induction p with
  | zero =>
    rw [searchWhole]
    cases h : i.multiple? i.denominator with
    | some d =>
      refine hfound (p := 0) ?_
      rw [show Nat.pow 10 0 = 1 from rfl, one_mul, h]
    | none =>
      have hdiv : i.denominator ∣ i.value * 10 ^ (i.bits + 1) := by
        refine Dvd.dvd.mul_left ?_ _
        refine dvd_trans ?_ (pow_dvd_pow 10 (Nat.le_succ i.bits))
        exact pow_dvd_pow_of_dvd (by decide) i.bits
      have := searchFraction_spec 0 hi hdiv
      rwa [Nat.cast_zero, add_zero] at this
  | succ p ih =>
    rw [searchWhole]
    cases h : i.multiple? (Nat.pow 10 (p + 1) * i.denominator) with
    | some d => exact hfound h
    | none => exact ih

theorem contains_shortest (hi : i.Proper) : 0 < i.shortest.digits ∧ i.Contains i.shortest.value :=
  searchWhole_spec hi

end Interval

end Decimal

/-! ## Reading a decimal back -/

namespace Decimal

/-- The number that is written out in full. -/
def readPlain (cs : List Char) : ℚ :=
  let fraction := (cs.dropWhile (· != '.')).tail
  Nat.ofDigitChars 10 (cs.takeWhile (· != '.') ++ fraction) 0 / 10 ^ fraction.length

theorem isDigit_ne_point {c : Char} (h : c.isDigit = true) : (c != '.') = true := by
  rw [bne_iff_ne]
  rintro rfl
  exact absurd h (by decide)

theorem readPlain_whole {cs : List Char} (h : ∀ c ∈ cs, c.isDigit = true) :
    readPlain cs = Nat.ofDigitChars 10 cs 0 := by
  have hpoint : ∀ c ∈ cs, (c != '.') = true := fun c hc => isDigit_ne_point (h c hc)
  simp [readPlain, List.takeWhile_eq_self_iff.mpr hpoint, List.dropWhile_eq_nil_iff.mpr hpoint]

theorem readPlain_point {cs fraction : List Char} (h : ∀ c ∈ cs, c.isDigit = true) :
    readPlain (cs ++ '.' :: fraction) = Nat.ofDigitChars 10 (cs ++ fraction) 0 /
        10 ^ fraction.length := by
  have hpoint : ∀ c ∈ cs, (c != '.') = true := fun c hc => isDigit_ne_point (h c hc)
  simp [readPlain, List.takeWhile_append_of_pos hpoint, List.dropWhile_append_of_pos hpoint]

theorem ofDigitChars_zeros_append (n : Nat) (cs : List Char) :
    Nat.ofDigitChars 10 (List.replicate n '0' ++ cs) 0 = Nat.ofDigitChars 10 cs 0 := by
  induction n with
  | zero => rfl
  | succ n ih => rw [← ih]; rfl

theorem ofDigitChars_append_zeros (cs : List Char) (n init : Nat) :
    Nat.ofDigitChars 10 (cs ++ List.replicate n '0') init = Nat.ofDigitChars 10 cs init *
        10 ^ n := by
  induction n with
  | zero => simp
  | succ n ih =>
    have hnext : Nat.ofDigitChars 10 (cs ++ List.replicate (n + 1) '0') init =
        10 * Nat.ofDigitChars 10 (cs ++ List.replicate n '0') init := by
      rw [List.replicate_succ', ← List.append_assoc]
      simp [Nat.ofDigitChars, List.foldl_append]
    rw [hnext, ih, pow_succ]
    ring

namespace Digits

theorem isDigit_of_mem_chars {d : Digits} {c : Char} (h : c ∈ d.chars) : c.isDigit = true :=
  Nat.isDigit_of_mem_toDigits (by decide) (by decide) h

theorem ofDigitChars_chars (d : Digits) : Nat.ofDigitChars 10 d.chars 0 = d.digits :=
  Nat.ofDigitChars_toDigits (by decide) (by decide)

theorem readPlain_positional (d : Digits) : readPlain (d.positional "").toList = d.value := by
  have hdigits : ∀ c ∈ d.chars, c.isDigit = true := fun c hc => isDigit_of_mem_chars hc
  unfold positional value
  cases h : d.exponent with
  | ofNat n =>
    have hzeros : ∀ c ∈ d.chars ++ List.replicate n '0', c.isDigit = true := by
      intro c hc
      rcases List.mem_append.mp hc with hc | hc
      · exact hdigits c hc
      · rw [List.eq_of_mem_replicate hc]
        decide
    simp only [String.append_empty, String.toList_ofList]
    rw [readPlain_whole hzeros, ofDigitChars_append_zeros, ofDigitChars_chars]
    push_cast
    rfl
  | negSucc n =>
    dsimp only
    split
    · next hlt =>
      have htake : ∀ c ∈ d.chars.take (d.chars.length - (n + 1)), c.isDigit = true :=
        fun c hc => hdigits c (List.mem_of_mem_take hc)
      simp only [String.toList_append, String.toList_ofList]
      show readPlain (_ ++ ['.'] ++ _) = _
      rw [List.append_assoc, List.singleton_append, readPlain_point htake, List.take_append_drop,
        ofDigitChars_chars, List.length_drop, Nat.sub_sub_self (Nat.le_of_lt hlt), zpow_negSucc,
        div_eq_mul_inv]
    · next hle =>
      simp only [String.toList_append, String.toList_ofList]
      have hzero : ∀ c ∈ ['0'], c.isDigit = true := by
        intro c hc
        rw [List.mem_singleton.mp hc]
        decide
      change readPlain (['0'] ++ '.' :: (List.replicate _ '0' ++ d.chars)) = _
      rw [readPlain_point hzero, ← List.append_assoc]
      have hzeros : ['0'] ++ List.replicate (n + 1 - d.chars.length) '0' =
          List.replicate (n + 1 - d.chars.length + 1) '0' := rfl
      have hlength : (List.replicate (n + 1 - d.chars.length) '0' ++ d.chars).length = n + 1 := by
        rw [List.length_append, List.length_replicate]
        omega
      rw [hzeros, ofDigitChars_zeros_append, ofDigitChars_chars, hlength, zpow_negSucc,
        div_eq_mul_inv]

theorem isDigit_of_mem_positional {d : Digits} {c : Char} (h : c ∈ (d.positional "").toList) :
    c.isDigit = true ∨ c = '.' := by
  have hzero : ∀ n, c ∈ List.replicate n '0' → c.isDigit = true := by
    intro n hc
    rw [List.eq_of_mem_replicate hc]
    decide
  unfold positional at h
  split at h
  · simp only [String.append_empty, String.toList_ofList, List.mem_append] at h
    exact .inl (h.elim isDigit_of_mem_chars (hzero _))
  · dsimp only at h
    split at h
    · simp only [String.toList_append, String.toList_ofList, List.mem_append] at h
      rcases h with (h | h) | h
      · exact .inl (isDigit_of_mem_chars (List.mem_of_mem_take h))
      · exact .inr (List.mem_singleton.mp h)
      · exact .inl (isDigit_of_mem_chars (List.mem_of_mem_drop h))
    · simp only [String.toList_append, String.toList_ofList, List.mem_append] at h
      rcases h with h | h | h
      · rcases List.mem_cons.mp h with rfl | h
        · exact .inl (by decide)
        · exact .inr (List.mem_singleton.mp h)
      · exact .inl (hzero _ h)
      · exact .inl (isDigit_of_mem_chars h)

end Digits

end Decimal

namespace Double

variable {x y : Double} {q : ℚ}

/-! ## Rounding intervals -/

/-- The bits without the sign, which count the numbers upwards from zero. -/
def rank (x : Double) : Nat := x.exponentBits * 2 ^ 52 + x.fractionBits

theorem exponentBits_eq (x : Double) : x.exponentBits = x.bits.toNat / 2 ^ 52 % 2 ^ 11 := by
  rw [exponentBits, UInt64.toNat_and, UInt64.toNat_shiftRight, Nat.shiftRight_eq_div_pow]
  exact Nat.and_two_pow_sub_one_eq_mod _ 11

theorem fractionBits_eq (x : Double) : x.fractionBits = x.bits.toNat % 2 ^ 52 := by
  rw [fractionBits, UInt64.toNat_and]
  exact Nat.and_two_pow_sub_one_eq_mod _ 52

theorem isNegative_eq (x : Double) : x.isNegative = decide (2 ^ 63 ≤ x.bits.toNat) := by
  have hlt := x.bits.toNat_lt
  rw [isNegative, Bool.eq_iff_iff, beq_iff_eq, decide_eq_true_eq, ← UInt64.toNat_inj,
    UInt64.toNat_shiftRight, Nat.shiftRight_eq_div_pow]
  show x.bits.toNat / 2 ^ 63 = 1 ↔ _
  omega

theorem fractionBits_lt (x : Double) : x.fractionBits < 2 ^ 52 := by
  rw [fractionBits_eq]
  exact Nat.mod_lt _ (by decide)

theorem eq_of_rank (hs : x.isNegative = y.isNegative) (hr : x.rank = y.rank) : x = y := by
  have hx := x.bits.toNat_lt
  have hy := y.bits.toNat_lt
  have hs' : 2 ^ 63 ≤ x.bits.toNat ↔ 2 ^ 63 ≤ y.bits.toNat := by
    simpa [isNegative_eq] using hs
  simp only [rank, exponentBits_eq, fractionBits_eq] at hr
  have hbits : x.bits.toNat = y.bits.toNat := by omega
  cases x
  cases y
  exact congrArg Double.mk (UInt64.toNat_inj.mp hbits)

/-- The integer that makes up a number with its power of two, by exponent and fraction. -/
def significand (e f : Nat) : Nat := if e = 0 then f else f + 2 ^ 52

def scale (e : Nat) : Nat := if e = 0 then 1 else e

/-- A denominator that the ends of all rounding intervals have in common. -/
def commonDenominator : Nat := 2 ^ 1077

/-- The lower end of the rounding interval of the number with a rank, over the common
denominator. -/
def edge (rank : Nat) : Nat :=
  let e := rank / 2 ^ 52
  let f := rank % 2 ^ 52
  (4 * significand e f - if f = 0 ∧ 1 < e then 1 else 2) * 2 ^ scale e

/-- The upper end of a rounding interval is the lower end of the next. -/
theorem edge_succ (k : Nat) :
    edge (k + 1) = (4 * significand (k / 2 ^ 52) (k % 2 ^ 52) + 2) * 2 ^ scale (k / 2 ^ 52) := by
  unfold edge
  dsimp only
  by_cases hf : k % 2 ^ 52 + 1 < 2 ^ 52
  · have he : (k + 1) / 2 ^ 52 = k / 2 ^ 52 := by omega
    have hf' : (k + 1) % 2 ^ 52 = k % 2 ^ 52 + 1 := by omega
    rw [he, hf', if_neg (by omega)]
    congr 1
    unfold significand
    split <;> omega
  · -- the fraction overflows into the exponent
    have he : (k + 1) / 2 ^ 52 = k / 2 ^ 52 + 1 := by omega
    have hf' : (k + 1) % 2 ^ 52 = 0 := by omega
    have hlast : k % 2 ^ 52 = 2 ^ 52 - 1 := by omega
    rw [he, hf', hlast]
    generalize k / 2 ^ 52 = e
    cases e with
    | zero => decide
    | succ e =>
      have hscale : scale (e + 1 + 1) = scale (e + 1) + 1 := rfl
      rw [if_pos ⟨rfl, by omega⟩, hscale, pow_succ']
      show (4 * (0 + 2 ^ 52) - 1) * (2 * 2 ^ (e + 1)) =
        (4 * (2 ^ 52 - 1 + 2 ^ 52) + 2) * 2 ^ (e + 1)
      ring

theorem edge_strictMono : StrictMono edge := by
  refine strictMono_nat_of_lt_succ fun k => ?_
  rw [edge_succ]
  unfold edge
  refine Nat.mul_lt_mul_of_pos_right ?_ (Nat.two_pow_pos _)
  omega

theorem rank_div (x : Double) : x.rank / 2 ^ 52 = x.exponentBits := by
  have := x.fractionBits_lt
  unfold rank
  omega

theorem rank_mod (x : Double) : x.rank % 2 ^ 52 = x.fractionBits := by
  have := x.fractionBits_lt
  unfold rank
  omega

theorem shiftLeft_denominator (m scale : Nat) :
    (m <<< (scale - 1077)) * commonDenominator = m * 2 ^ scale * 2 ^ (1077 - scale) := by
  have hsum : scale - 1077 + 1077 = scale + (1077 - scale) := by omega
  rw [commonDenominator, Nat.shiftLeft_eq, mul_assoc, mul_assoc, ← pow_add, ← pow_add, hsum]

theorem interval_low (x : Double) :
    x.interval.low * commonDenominator = edge x.rank * x.interval.denominator := by
  unfold edge
  rw [rank_div, rank_mod]
  refine (shiftLeft_denominator _ _).trans ?_
  simp only [significand, scale, Bool.and_eq_true, decide_eq_true_eq]
  rfl

theorem interval_high (x : Double) :
    x.interval.high * commonDenominator = edge (x.rank + 1) * x.interval.denominator := by
  rw [edge_succ, rank_div, rank_mod]
  exact shiftLeft_denominator _ _

theorem interval_closed (x : Double) : x.interval.closed = (x.rank % 2 == 0) := by
  show ((if x.exponentBits = 0 then x.fractionBits else x.fractionBits + 0x10000000000000)
    % 2 == 0) = _
  have hmod :
    (if x.exponentBits = 0 then x.fractionBits else x.fractionBits + 0x10000000000000) % 2 =
      x.rank % 2 := by
    unfold rank
    split <;> omega
  rw [hmod]

theorem interval_proper (h : x.isZero = false) : x.interval.Proper := by
  have hpos :
      0 < (if x.exponentBits = 0 then x.fractionBits else x.fractionBits + 0x10000000000000) := by
    simp only [isZero, Bool.and_eq_false_iff, beq_eq_false_iff_ne] at h
    split <;> omega
  generalize hm :
    (if x.exponentBits = 0 then x.fractionBits else x.fractionBits + 0x10000000000000) = m
    at hpos
  constructor
  · show (_ <<< _ : Nat) < _ <<< _
    rw [hm, Nat.shiftLeft_eq, Nat.shiftLeft_eq]
    refine Nat.mul_lt_mul_of_pos_right ?_ (Nat.two_pow_pos _)
    split <;> omega
  · show (_ <<< _ : Nat) < _ <<< _
    rw [hm, Nat.shiftLeft_eq, Nat.shiftLeft_eq]
    exact Nat.mul_lt_mul_of_pos_right (by omega) (Nat.two_pow_pos _)

/-- The ends of the intervals, over the common denominator. -/
theorem edge_of_contains (h : x.interval.Contains q) :
    (edge x.rank < q * commonDenominator ∨ x.rank % 2 = 0 ∧ edge x.rank = q * commonDenominator) ∧
      (q * commonDenominator < edge (x.rank + 1) ∨ x.rank % 2 = 0 ∧
        q * commonDenominator = edge (x.rank + 1)) := by
  have hden : (0 : ℚ) < x.interval.denominator := by exact_mod_cast x.interval.denominator_pos
  have hcommon : (0 : ℚ) < commonDenominator := Nat.cast_pos.mpr (pow_pos two_pos _)
  have hlow : (x.interval.low : ℚ) * commonDenominator = edge x.rank * x.interval.denominator := by
    exact_mod_cast x.interval_low
  have hhigh : (x.interval.high : ℚ) * commonDenominator = edge (x.rank + 1) *
      x.interval.denominator := by
    exact_mod_cast x.interval_high
  have hclosed : x.interval.closed = true ↔ x.rank % 2 = 0 := by rw [interval_closed, beq_iff_eq]
  generalize (commonDenominator : ℚ) = c at hcommon hlow hhigh ⊢
  obtain ⟨hl, hh⟩ := h
  rw [hclosed] at hl hh
  refine ⟨hl.imp (fun h => ?_) (And.imp_right fun h => ?_),
    hh.imp (fun h => ?_) (And.imp_right fun h => ?_)⟩
  · refine lt_of_mul_lt_mul_right ?_ hden.le
    calc (edge x.rank : ℚ) * x.interval.denominator = x.interval.low * c := hlow.symm
      _ < q * x.interval.denominator * c := mul_lt_mul_of_pos_right h hcommon
      _ = q * c * x.interval.denominator := by ring
  · refine mul_right_cancel₀ hden.ne' ?_
    rw [← hlow, h]
    ring
  · refine lt_of_mul_lt_mul_right ?_ hden.le
    calc q * c * x.interval.denominator = q * x.interval.denominator * c := by ring
      _ < x.interval.high * c := mul_lt_mul_of_pos_right h hcommon
      _ = edge (x.rank + 1) * x.interval.denominator := hhigh
  · refine mul_right_cancel₀ hden.ne' ?_
    rw [← hhigh, ← h]
    ring

theorem rank_le_of_contains (hx : x.interval.Contains q) (hy : y.interval.Contains q) :
    y.rank ≤ x.rank := by
  obtain ⟨-, hupper⟩ := edge_of_contains hx
  obtain ⟨hlower, -⟩ := edge_of_contains hy
  by_contra hlt
  -- what lies in both is the end of one interval and the beginning of the other, which is the next
  have hle : (edge y.rank : ℚ) ≤ edge (x.rank + 1) :=
    (hlower.elim le_of_lt fun h => h.2.le).trans (hupper.elim le_of_lt fun h => h.2.le)
  have hle' : y.rank ≤ x.rank + 1 := edge_strictMono.le_iff_le.mp (by exact_mod_cast hle)
  have hnext : y.rank = x.rank + 1 := by omega
  rw [hnext] at hlower
  rcases hlower with hlower | ⟨heven, hlower⟩
  · rcases hupper with hupper | ⟨-, hupper⟩
    · exact absurd (hlower.trans hupper) (lt_irrefl _)
    · exact absurd (hlower.trans_eq hupper) (lt_irrefl _)
  · rcases hupper with hupper | ⟨heven', -⟩
    · exact absurd (hlower.trans_lt hupper) (lt_irrefl _)
    · omega

/-! ## Texts -/

def magnitudeText (x : Double) : String :=
  if x.isInfinite then "inf" else if x.isZero then "0" else x.digits.positional ""

theorem plainText_eq (h : x.isNaN = false) :
    x.plainText = (if x.isNegative then "-" else "") ++ x.magnitudeText := by
  have hnan : ¬ x.isNaN = true := by rw [h]; decide
  unfold plainText format magnitudeText
  rw [if_neg hnan]
  dsimp only
  split
  · rfl
  · split <;> rfl

theorem magnitudeText_infinite (h : x.isInfinite = true) : x.magnitudeText = "inf" := by
  rw [magnitudeText, if_pos h]

theorem mem_magnitudeText {c : Char} (hx : x.isInfinite = false) (h : c ∈ x.magnitudeText.toList) :
    c.isDigit = true ∨ c = '.' := by
  have hfinite : ¬ x.isInfinite = true := by rw [hx]; decide
  rw [magnitudeText, if_neg hfinite] at h
  split at h
  · exact .inl (by rw [List.mem_singleton.mp h]; decide)
  · exact Decimal.Digits.isDigit_of_mem_positional h

/-- It reads back as zero or as a number in the rounding interval. -/
theorem readPlain_magnitudeText (h : x.isInfinite = false) :
    if x.isZero then Decimal.readPlain x.magnitudeText.toList = 0
    else 0 < Decimal.readPlain x.magnitudeText.toList ∧
      x.interval.Contains (Decimal.readPlain x.magnitudeText.toList) := by
  have hfinite : ¬ x.isInfinite = true := by rw [h]; decide
  unfold magnitudeText
  rw [if_neg hfinite]
  split
  · show (Nat.ofDigitChars 10 ['0'] 0 : ℚ) / 10 ^ 0 = 0
    simp [Nat.ofDigitChars]
  · next hz =>
    rw [Decimal.Digits.readPlain_positional]
    obtain ⟨hpos, hcontains⟩ :=
      Decimal.Interval.contains_shortest (interval_proper (by simpa using hz))
    refine ⟨?_, hcontains⟩
    exact mul_pos (Nat.cast_pos.mpr hpos) (zpow_pos (by norm_num) _)

theorem isInfinite_of_magnitudeText (hx : x.isInfinite = true)
    (h : x.magnitudeText = y.magnitudeText) : y.isInfinite = true := by
  rw [magnitudeText_infinite hx] at h
  by_contra hy
  have hi : 'i' ∈ y.magnitudeText.toList := by
    rw [← h]
    decide
  rcases mem_magnitudeText (by simpa using hy) hi with hi | hi
  · exact absurd hi (by decide)
  · exact absurd hi (by decide)

theorem rank_of_isInfinite (h : x.isInfinite = true) : x.rank = 0x7FF * 2 ^ 52 := by
  simp only [isInfinite, Bool.and_eq_true, beq_iff_eq] at h
  rw [rank, h.1, h.2, Nat.add_zero]

theorem rank_of_isZero (h : x.isZero = true) : x.rank = 0 := by
  simp only [isZero, Bool.and_eq_true, beq_iff_eq] at h
  rw [rank, h.1, h.2, Nat.zero_mul]

theorem rank_eq_of_magnitudeText (h : x.magnitudeText = y.magnitudeText) : x.rank = y.rank := by
  cases hx : x.isInfinite with
  | true => rw [rank_of_isInfinite hx, rank_of_isInfinite (isInfinite_of_magnitudeText hx h)]
  | false =>
    have hy : y.isInfinite = false := by
      rw [← Bool.not_eq_true]
      exact fun hy => absurd (hx.symm.trans (isInfinite_of_magnitudeText hy h.symm)) (by decide)
    have hx' := readPlain_magnitudeText hx
    have hy' := readPlain_magnitudeText hy
    rw [← h] at hy'
    cases hzx : x.isZero <;> cases hzy : y.isZero <;> simp only [hzx, hzy, if_true, if_false,
      Bool.false_eq_true] at hx' hy'
    · exact le_antisymm (rank_le_of_contains hy'.2 hx'.2) (rank_le_of_contains hx'.2 hy'.2)
    · exact absurd hy' hx'.1.ne'
    · exact absurd hx' hy'.1.ne'
    · rw [rank_of_isZero hzx, rank_of_isZero hzy]

theorem notMem_magnitudeText {c : Char} (hd : c.isDigit = false) (hp : c ∉ ['.', 'i', 'n', 'f']) :
    c ∉ x.magnitudeText.toList := by
  intro h
  cases hx : x.isInfinite with
  | true =>
    rw [magnitudeText_infinite hx] at h
    exact hp (List.mem_cons_of_mem _ h)
  | false =>
    rcases mem_magnitudeText hx h with h | rfl
    · exact absurd (hd.symm.trans h) (by decide)
    · exact hp List.mem_cons_self

theorem eq_of_plainText (hx : x.isNaN = false) (hy : y.isNaN = false)
    (h : x.plainText = y.plainText) : x = y := by
  have hminus : ∀ z : Double, '-' ∉ z.magnitudeText.toList := fun z =>
    notMem_magnitudeText (by decide) (by decide)
  rw [plainText_eq hx, plainText_eq hy, ← String.toList_inj, String.toList_append,
    String.toList_append] at h
  cases hnx : x.isNegative <;> cases hny : y.isNegative <;> rw [hnx, hny] at h
  · exact eq_of_rank (hnx.trans hny.symm) (rank_eq_of_magnitudeText (String.toList_inj.mp h))
  · refine absurd ?_ (hminus x)
    have h : x.magnitudeText.toList = '-' :: y.magnitudeText.toList := h
    rw [h]
    exact List.mem_cons_self
  · refine absurd ?_ (hminus y)
    have h : '-' :: x.magnitudeText.toList = y.magnitudeText.toList := h
    rw [← h]
    exact List.mem_cons_self
  · have h :=
      List.cons.inj (show '-' :: x.magnitudeText.toList = '-' :: y.magnitudeText.toList from h)
    exact eq_of_rank (hnx.trans hny.symm) (rank_eq_of_magnitudeText (String.toList_inj.mp h.2))

theorem isNaN_of_plainText (hx : x.isNaN = true) (h : x.plainText = y.plainText) :
    y.isNaN = true := by
  have hnan : x.plainText = "NaN" := by rw [plainText, format, if_pos hx]
  by_contra hy
  have hN : 'N' ∈ y.plainText.toList := by
    rw [← h, hnan]
    decide
  rw [plainText_eq (by simpa using hy), String.toList_append, List.mem_append] at hN
  rcases hN with hN | hN
  · split at hN
    · exact absurd hN (by decide)
    · exact absurd hN (by decide)
  · exact notMem_magnitudeText (by decide) (by decide) hN

end Double

/-! ## Names in the pool -/

namespace Value

def IsNaN (v : Value) : Prop := ∃ x : Double, v = .real x ∧ x.isNaN = true

/-- The name without what all names begin with. -/
def poolSuffix : Value → List Char
  | .int n => (toString n.toInt).toList
  | .real x => x.plainText.toList ++ ['r']
  | .bool b => (if b then "true" else "false" : String).toList

theorem toList_poolName (v : Value) : v.poolName.toList = "$literal_".toList ++ v.poolSuffix := by
  cases v with
  | int | bool => exact String.toList_append
  | real x =>
    rw [poolName, String.toList_append, String.toList_append, List.append_assoc]
    rfl

theorem mem_toString {n : Int} {c : Char} (h : c ∈ (toString n).toList) : c.isDigit = true ∨
    c = '-' := by
  have hnat : ∀ m : Nat, c ∈ m.repr.toList → c.isDigit = true := by
    intro m hm
    rw [Nat.toList_repr] at hm
    exact Nat.isDigit_of_mem_toDigits (by decide) (by decide) hm
  cases n with
  | ofNat m => exact .inl (hnat m h)
  | negSucc m =>
    have h : c ∈ ("-" ++ Nat.repr (m + 1)).toList := h
    rw [String.toList_append, List.mem_append] at h
    exact h.elim (fun h => .inr (List.mem_singleton.mp h)) fun h => .inl (hnat _ h)

/-- Integers have no letters in their names, and all others have. -/
theorem int_ne_poolSuffix {n : Int64} {v : Value} (h : (Value.int n).poolSuffix = v.poolSuffix) :
    ∃ m, v = .int m := by
  have hletter : ∀ c, c ∈ v.poolSuffix → c ∈ ['r', 'e'] → False := by
    intro c hc hletter
    rw [← h] at hc
    rcases mem_toString hc with hc | rfl
    · revert hc
      rcases List.mem_cons.mp hletter with rfl | hletter
      · decide
      · rw [List.mem_singleton.mp hletter]
        decide
    · exact absurd hletter (by decide)
  cases v with
  | int m => exact ⟨m, rfl⟩
  | real x => exact (hletter 'r' (by simp [poolSuffix]) (by decide)).elim
  | bool b => exact (hletter 'e' (by cases b <;> decide) (by decide)).elim

theorem real_ne_poolSuffix {x : Double} {b : Bool}
    (h : (Value.real x).poolSuffix = (Value.bool b).poolSuffix) : False := by
  have hlast := congrArg List.getLast? h
  rw [poolSuffix, List.getLast?_concat] at hlast
  cases b <;> exact absurd hlast (by decide)

/-- Constants under one name are the same, or both are not a number. -/
theorem eq_of_poolName {v w : Value} (h : v.poolName = w.poolName) : v = w ∨ v.IsNaN ∧ w.IsNaN := by
  have h : v.poolSuffix = w.poolSuffix := by
    rw [← String.toList_inj, toList_poolName, toList_poolName] at h
    exact List.append_cancel_left h
  cases v with
  | int n =>
    obtain ⟨m, rfl⟩ := int_ne_poolSuffix h
    exact .inl (congrArg Value.int (Int64.toInt_inj.mp (Int.repr_inj.mp (String.toList_inj.mp h))))
  | bool b =>
    cases w with
    | int n =>
      obtain ⟨m, hm⟩ := int_ne_poolSuffix h.symm
      cases hm
    | real x => exact (real_ne_poolSuffix h.symm).elim
    | bool c =>
      refine .inl (congrArg Value.bool ?_)
      revert h
      cases b <;> cases c <;> decide
  | real x =>
    cases w with
    | int n =>
      obtain ⟨m, hm⟩ := int_ne_poolSuffix h.symm
      cases hm
    | bool b => exact (real_ne_poolSuffix h).elim
    | real y =>
      have h : x.plainText = y.plainText := String.toList_inj.mp (List.append_cancel_right h)
      cases hx : x.isNaN with
      | true => exact .inr ⟨⟨x, rfl, hx⟩, y, rfl, Double.isNaN_of_plainText hx h⟩
      | false =>
        have hy : y.isNaN = false := by
          rw [← Bool.not_eq_true]
          exact fun hy => absurd (hx.symm.trans (Double.isNaN_of_plainText hy h.symm)) (by decide)
        exact .inl (congrArg Value.real (Double.eq_of_plainText hx hy h))

theorem poolName_eq_iff {v w : Value} : v.poolName = w.poolName ↔ v = w ∨ v.IsNaN ∧ w.IsNaN := by
  refine ⟨eq_of_poolName, ?_⟩
  rintro (rfl | ⟨⟨x, rfl, hx⟩, y, rfl, hy⟩)
  · rfl
  · simp [poolName, Double.plainText, Double.format, hx, hy]

end Value

end Codewright
