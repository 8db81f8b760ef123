import Mathlib.Data.Int.Log
import Mathlib.Data.Rat.Floor
import Mathlib.Tactic.Linarith
import Mathlib.Tactic.Positivity

/-!
# Binary floating point as rounded rationals

A binary float with a `p`-bit mantissa and no exponent limit is a rational of the form
`m * 2 ^ e` with `|m| < 2 ^ p`. An arithmetic operation computes the exact rational result and
rounds it (`round p`): to the nearest such value, a tie going to the even mantissa. This is the
rounding of IEEE formats inside their exponent range and of arbitrary-precision floats such as
Go's `big.Float` in its default mode. The one fact the rest rests on is the relative error bound
`abs_round_sub_le`. `truncate` is the conversion to an integer toward zero.
-/

namespace BinaryFloat

/-- The integer nearest to `x`, a tie going to the even neighbour. -/
def roundHalfEven (x : ℚ) : ℤ :=
  if x - ⌊x⌋ < 1 / 2 then ⌊x⌋
  else if 1 / 2 < x - ⌊x⌋ then ⌊x⌋ + 1
  else if ⌊x⌋ % 2 = 0 then ⌊x⌋ else ⌊x⌋ + 1

theorem abs_roundHalfEven_sub_le (x : ℚ) : |(roundHalfEven x : ℚ) - x| ≤ 1 / 2 := by
  have h0 := Int.floor_le x
  have h1 := Int.lt_floor_add_one x
  rw [abs_le]
  unfold roundHalfEven
  split_ifs <;> push_cast <;> constructor <;> linarith

theorem roundHalfEven_intCast (n : ℤ) : roundHalfEven n = n := by
  simp [roundHalfEven]

theorem floor_le_roundHalfEven (x : ℚ) : ⌊x⌋ ≤ roundHalfEven x := by
  unfold roundHalfEven
  split_ifs <;> omega

theorem roundHalfEven_le (x : ℚ) : (roundHalfEven x : ℚ) ≤ x + 1 / 2 := by
  have h := (abs_le.mp (abs_roundHalfEven_sub_le x)).2
  linarith

/-- The exponent of the leading bit of `x ≠ 0`: `2 ^ e ≤ |x| < 2 ^ (e + 1)`. -/
def exponent (x : ℚ) : ℤ := Int.log 2 |x|

/-- The weight of the last bit of a `p`-bit mantissa at the magnitude of `x`. -/
def ulp (p : ℕ) (x : ℚ) : ℚ := 2 ^ (exponent x + 1 - p)

/-- `x` rounded to `p` significant bits, to nearest, ties to even. -/
def round (p : ℕ) (x : ℚ) : ℚ := roundHalfEven (x / ulp p x) * ulp p x

/-- The nearest binary64 value to `x`, ties to even: 53 significant bits down to the subnormal
grid `2 ^ -1074`. Overflow is left to the caller. -/
def roundBinary64 (x : ℚ) : ℚ :=
  roundHalfEven (x / 2 ^ max (exponent x - 52) (-1074)) * 2 ^ max (exponent x - 52) (-1074)

/-- The integer part of `x`, toward zero. -/
def truncate (x : ℚ) : ℤ := if 0 ≤ x then ⌊x⌋ else ⌈x⌉

theorem ulp_pos (p : ℕ) (x : ℚ) : 0 < ulp p x := zpow_pos (by norm_num) _

theorem zpow_exponent_le {x : ℚ} (hx : x ≠ 0) : (2 : ℚ) ^ exponent x ≤ |x| := by
  have := Int.zpow_log_le_self (by norm_num : 1 < 2) (abs_pos.mpr hx)
  exact_mod_cast this

/-- Half a last-bit weight is at most `|x| / 2 ^ p`. -/
theorem ulp_div_two_le (p : ℕ) {x : ℚ} (hx : x ≠ 0) : ulp p x / 2 ≤ |x| / 2 ^ p := by
  have hsplit : ulp p x / 2 = 2 ^ exponent x / 2 ^ p := by
    rw [ulp, zpow_sub₀ (by norm_num), zpow_add_one₀ (by norm_num), zpow_natCast]
    field_simp
  rw [hsplit]
  exact div_le_div_of_nonneg_right (zpow_exponent_le hx) (by positivity)

@[simp] theorem round_zero (p : ℕ) : round p 0 = 0 := by simp [round, roundHalfEven]

/-- The relative error of rounding to `p` bits is at most `2 ^ -p`. -/
theorem abs_round_sub_le (p : ℕ) (x : ℚ) : |round p x - x| ≤ |x| / 2 ^ p := by
  rcases eq_or_ne x 0 with rfl | hx
  · simp
  have hu := ulp_pos p x
  have hsub : round p x - x = ((roundHalfEven (x / ulp p x) : ℚ) - x / ulp p x) * ulp p x := by
    rw [round, sub_mul, div_mul_cancel₀ _ hu.ne']
  have herr : |round p x - x| = |(roundHalfEven (x / ulp p x) : ℚ) - x / ulp p x| * ulp p x := by
    rw [hsub, abs_mul, abs_of_pos hu]
  calc |round p x - x| = |(roundHalfEven (x / ulp p x) : ℚ) - x / ulp p x| * ulp p x := herr
    _ ≤ 1 / 2 * ulp p x := mul_le_mul_of_nonneg_right (abs_roundHalfEven_sub_le _) hu.le
    _ = ulp p x / 2 := by ring
    _ ≤ |x| / 2 ^ p := ulp_div_two_le p hx

theorem round_le_of_nonneg (p : ℕ) {x : ℚ} (hx : 0 ≤ x) : round p x ≤ x + x / 2 ^ p := by
  have h := (abs_le.mp (abs_round_sub_le p x)).2
  rw [abs_of_nonneg hx] at h
  linarith

theorem le_round_of_nonneg (p : ℕ) {x : ℚ} (hx : 0 ≤ x) : x - x / 2 ^ p ≤ round p x := by
  have h := (abs_le.mp (abs_round_sub_le p x)).1
  rw [abs_of_nonneg hx] at h
  linarith

theorem round_nonneg (p : ℕ) {x : ℚ} (hx : 0 ≤ x) : 0 ≤ round p x := by
  have h := le_round_of_nonneg p hx
  have hp : x / 2 ^ p ≤ x := div_le_self hx (one_le_pow₀ (by norm_num))
  linarith

/-- The error bound as a factor: rounding a nonnegative value scales it by at most
`1 ± 2 ^ -p`. -/
theorem round_le_mul_of_nonneg (p : ℕ) {x : ℚ} (hx : 0 ≤ x) : round p x ≤ x * (1 + 1 / 2 ^ p) := by
  have h := round_le_of_nonneg p hx
  rwa [mul_add, mul_one, mul_one_div]

theorem mul_le_round_of_nonneg (p : ℕ) {x : ℚ} (hx : 0 ≤ x) : x * (1 - 1 / 2 ^ p) ≤ round p x := by
  have h := le_round_of_nonneg p hx
  rwa [mul_sub, mul_one, mul_one_div]

section Binary64

variable {x : ℚ}

/-- The grid of `roundBinary64` at `x ≥ 2 ^ -1074` is at most `x`. -/
theorem grid_le (hx : (2 : ℚ) ^ (-1074 : ℤ) ≤ x) : (2 : ℚ) ^ max (exponent x - 52) (-1074) ≤ x := by
  have hpos : 0 < x := lt_of_lt_of_le (zpow_pos (by norm_num) _) hx
  rcases le_total (exponent x - 52) (-1074) with h | h
  · rwa [max_eq_right h]
  · rw [max_eq_left h]
    calc (2 : ℚ) ^ (exponent x - 52) ≤ 2 ^ exponent x := zpow_le_zpow_right₀ (by norm_num) (by omega)
      _ ≤ |x| := zpow_exponent_le hpos.ne'
      _ = x := abs_of_pos hpos

theorem roundBinary64_pos (hx : (2 : ℚ) ^ (-1074 : ℤ) ≤ x) : 0 < roundBinary64 x := by
  have hu : (0 : ℚ) < 2 ^ max (exponent x - 52) (-1074) := zpow_pos (by norm_num) _
  have hone : 1 ≤ x / 2 ^ max (exponent x - 52) (-1074) := (one_le_div hu).mpr (grid_le hx)
  have hround : 1 ≤ roundHalfEven (x / 2 ^ max (exponent x - 52) (-1074)) :=
    le_trans (Int.le_floor.mpr (by exact_mod_cast hone)) (floor_le_roundHalfEven _)
  have : (1 : ℚ) ≤ roundHalfEven (x / 2 ^ max (exponent x - 52) (-1074)) := by exact_mod_cast hround
  unfold roundBinary64
  positivity

theorem roundBinary64_le_two_mul (hx : (2 : ℚ) ^ (-1074 : ℤ) ≤ x) : roundBinary64 x ≤ 2 * x := by
  have hu : (0 : ℚ) < 2 ^ max (exponent x - 52) (-1074) := zpow_pos (by norm_num) _
  have hr := roundHalfEven_le (x / 2 ^ max (exponent x - 52) (-1074))
  have hgrid := grid_le hx
  calc roundBinary64 x
      ≤ (x / 2 ^ max (exponent x - 52) (-1074) + 1 / 2) * 2 ^ max (exponent x - 52) (-1074) :=
        mul_le_mul_of_nonneg_right hr hu.le
    _ = x + 2 ^ max (exponent x - 52) (-1074) / 2 := by field_simp
    _ ≤ 2 * x := by linarith

@[simp] theorem roundBinary64_zero : roundBinary64 0 = 0 := by simp [roundBinary64, roundHalfEven]

/-- A natural number below `2 ^ 53` is a binary64 value: rounding leaves it. -/
theorem roundBinary64_natCast {n : ℕ} (h : n < 2 ^ 53) : roundBinary64 n = n := by
  rcases Nat.eq_zero_or_pos n with rfl | hn
  · simp
  have hpos : (0 : ℚ) < n := by exact_mod_cast hn
  have hexp : exponent (n : ℚ) = Int.log 2 (n : ℚ) := by rw [exponent, abs_of_pos hpos]
  have hlt : exponent (n : ℚ) < 53 := by
    rw [hexp, ← Int.lt_zpow_iff_log_lt (by norm_num) hpos]
    exact_mod_cast h
  have hge : 0 ≤ exponent (n : ℚ) := by
    rw [hexp, ← Int.zpow_le_iff_le_log (by norm_num) hpos]
    simpa using (show (1 : ℚ) ≤ n by exact_mod_cast hn)
  -- the grid is `2 ^ -m` for `m = 52 - exponent n`, so `n` is a whole number of grid steps
  obtain ⟨m, hm⟩ : ∃ m : ℕ, max (exponent (n : ℚ) - 52) (-1074) = -(m : ℤ) :=
    ⟨(52 - exponent (n : ℚ)).toNat, by rw [max_eq_left (by omega)]; omega⟩
  have hgrid : (2 : ℚ) ^ max (exponent (n : ℚ) - 52) (-1074) = ((2 : ℚ) ^ m)⁻¹ := by
    rw [hm, zpow_neg, zpow_natCast]
  have hsteps : (n : ℚ) / ((2 : ℚ) ^ m)⁻¹ = ((n * 2 ^ m : ℤ) : ℚ) := by
    push_cast
    rw [div_inv_eq_mul]
  unfold roundBinary64
  rw [hgrid, hsteps, roundHalfEven_intCast]
  push_cast
  field_simp

end Binary64

theorem truncate_of_nonneg {x : ℚ} (hx : 0 ≤ x) : truncate x = ⌊x⌋ := if_pos hx

theorem truncate_le_of_nonneg {x : ℚ} (hx : 0 ≤ x) : (truncate x : ℚ) ≤ x := by
  rw [truncate_of_nonneg hx]
  exact Int.floor_le x

theorem truncate_nonneg {x : ℚ} (hx : 0 ≤ x) : 0 ≤ truncate x := by
  rw [truncate_of_nonneg hx]
  exact Int.floor_nonneg.mpr hx

@[simp] theorem truncate_natCast (n : ℕ) : truncate n = n := by
  rw [truncate_of_nonneg (Nat.cast_nonneg n)]
  exact Int.floor_natCast n

end BinaryFloat
