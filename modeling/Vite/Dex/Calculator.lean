import Vite.Dex.Price

/-!
# Amount arithmetic (`calculator.go`, the amount helpers of `matcher.go`)

Amounts are `big.Int`s kept as bytes. Every amount the DEX stores was written by
`big.Int.Bytes()`, whose encoding has no leading zero byte and is empty for `0`: an amount is a
natural number here, and `len(a) == 0` is `a = 0`. `SubBigIntAbs` is the absolute difference,
so a subtraction that would go negative silently flips sign; the matcher's proofs show where
the minuend is the larger.

Amounts derived from a price or a rate go through `big.Float` at precision `bigFloatPrec` and
are rounded half up by `RoundAmount`. `CalculateAmountForRate_le` bounds a fee by the exact
product: a fee of at most one percent is at most half the amount it is charged on.
-/

namespace Vite.Dex

open BinaryFloat BigFloat

/-- `AddBigInt`. -/
def AddBigInt (a b : ℕ) : ℕ := a + b

/-- `SubBigIntAbs`: `|a - b|`. -/
def SubBigIntAbs (a b : ℕ) : ℕ := ((a : ℤ) - b).natAbs

/-- `CmpForBigInt`, with an empty encoding read as `0`. -/
def CmpForBigInt (a b : ℕ) : ℤ :=
  if a = 0 ∧ b = 0 then 0
  else if a = 0 then -1
  else if b = 0 then 1
  else if a < b then -1 else if a = b then 0 else 1

/-- `SafeSubBigInt`: the difference, the amount actually taken, and whether `sub` exceeded
`amt` (then the result is `0`). -/
def SafeSubBigInt (amt sub : ℕ) : ℕ × ℕ × Bool :=
  if CmpForBigInt sub amt > 0 then (0, amt, true) else (SubBigIntAbs amt sub, sub, false)

/-- `MinBigInt`. -/
def MinBigInt (a b : ℕ) : ℕ := if a > b then b else a

/-- `CmpToBigZero`: the sign of an amount. -/
def CmpToBigZero (a : ℕ) : ℤ := if a = 0 then 0 else 1

/-- `bigFloatPrec`. -/
def bigFloatPrec : ℕ := 120

/-- `GetAbs`: absolute value and sign of an `int32` (decimal differences are small). -/
def GetAbs (v : ℤ) : ℤ × ℤ := if v < 0 then (-v, -1) else (v, 1)

/-- `AdjustForDecimalsDiff`: divide by `10 ^ decimalsDiff`, or multiply for a negative one. -/
def AdjustForDecimalsDiff (sourceAmountF : ℚ) (decimalsDiff : ℤ) : ℚ :=
  if decimalsDiff = 0 then sourceAmountF
  else
    let (dcDiffAbs, dcDiffSign) := GetAbs decimalsDiff
    let decimalDiffFloat := setInt bigFloatPrec (10 ^ dcDiffAbs.toNat)
    if dcDiffSign > 0 then quo bigFloatPrec sourceAmountF decimalDiffFloat
    else mul bigFloatPrec sourceAmountF decimalDiffFloat

/-- `RoundAmount`: add one half, then the integer part. -/
def RoundAmount (amountF : ℚ) : ℤ := toInt (add bigFloatPrec amountF (1 / 2))

/-- `CalculateRawAmountF`: quantity times price, adjusted for the tokens' decimals; `none`
where Go panics on a price `BytesToPrice` cannot print. -/
def CalculateRawAmountF (quantity : ℕ) (price : List UInt8) (decimalsDiff : ℤ) : Option ℚ := do
  let qtF := setInt bigFloatPrec quantity
  let prStr ← BytesToPrice price
  let prF ← setString bigFloatPrec prStr
  return AdjustForDecimalsDiff (mul bigFloatPrec prF qtF) decimalsDiff

/-- `CalculateRawAmount`. -/
def CalculateRawAmount (quantity : ℕ) (price : List UInt8) (decimalsDiff : ℤ) : Option ℕ :=
  (CalculateRawAmountF quantity price decimalsDiff).map fun amountF => (RoundAmount amountF).natAbs

/-- `CalculateAmountForRate`: `amount * rate / 100000` rounded; `0` (`nil`) for a rate that is
not positive. -/
def CalculateAmountForRate (amount : ℕ) (rate : ℤ) : Option ℕ :=
  if rate > 0 then do
    let amtF := setInt bigFloatPrec amount
    let rateF ← setString bigFloatPrec (CardinalRateToString rate)
    return (RoundAmount (mul bigFloatPrec amtF rateF)).natAbs
  else some 0

/-! ## Comparisons -/

theorem CmpForBigInt_pos_iff (a b : ℕ) : CmpForBigInt a b > 0 ↔ b < a := by
  unfold CmpForBigInt
  split_ifs <;> omega

theorem CmpForBigInt_le_zero_iff (a b : ℕ) : CmpForBigInt a b ≤ 0 ↔ a ≤ b := by
  have := CmpForBigInt_pos_iff a b
  omega

theorem SubBigIntAbs_of_le {a b : ℕ} (h : b ≤ a) : SubBigIntAbs a b = a - b := by
  unfold SubBigIntAbs
  omega

theorem MinBigInt_eq (a b : ℕ) : MinBigInt a b = min a b := by
  unfold MinBigInt
  split_ifs <;> omega

/-! ## Fees -/

/-- A nonnegative value rounded at `bigFloatPrec` grows by at most a factor `1 + 2 ^ -120`. -/
theorem round_le_mul {x : ℚ} (hx : 0 ≤ x) :
    round bigFloatPrec x ≤ x * (1 + 1 / 2 ^ bigFloatPrec) := by
  calc round bigFloatPrec x ≤ x + x / 2 ^ bigFloatPrec := round_le_of_nonneg bigFloatPrec hx
    _ = x * (1 + 1 / 2 ^ bigFloatPrec) := by ring

theorem RoundAmount_nonneg {x : ℚ} (hx : 0 ≤ x) : 0 ≤ RoundAmount x :=
  truncate_nonneg (round_nonneg _ (by linarith))

/-- `RoundAmount` is at most the value plus one half, up to one rounding. -/
theorem RoundAmount_le {x : ℚ} (hx : 0 ≤ x) :
    (RoundAmount x : ℚ) ≤ (x + 1 / 2) * (1 + 1 / 2 ^ bigFloatPrec) :=
  calc (RoundAmount x : ℚ) ≤ round bigFloatPrec (x + 1 / 2) :=
        truncate_le_of_nonneg (round_nonneg _ (by linarith))
    _ ≤ (x + 1 / 2) * (1 + 1 / 2 ^ bigFloatPrec) := round_le_mul (by linarith)

/-- A fee computed for a positive rate below `10 ^ 6`, bounded by the exact product with three
roundings and the half added by `RoundAmount`. -/
theorem CalculateAmountForRate_le (amount : ℕ) {rate : ℤ} (h0 : 0 < rate) (h1 : rate < 10 ^ 6) :
    ∃ fee, CalculateAmountForRate amount rate = some fee ∧
      (fee : ℚ) ≤ (amount * (rate / 100000) * (1 + 1 / 2 ^ bigFloatPrec) ^ 3 + 1 / 2) *
        (1 + 1 / 2 ^ bigFloatPrec) := by
  set c : ℚ := 1 + 1 / 2 ^ bigFloatPrec
  have hc : 1 ≤ c := by simp [c]
  have hr : (0 : ℚ) ≤ rate / 100000 := by positivity
  have hamt : round bigFloatPrec ((amount : ℤ) : ℚ) ≤ amount * c := by
    rw [Int.cast_natCast]
    exact round_le_mul (Nat.cast_nonneg _)
  have hrate := round_le_mul hr
  have hamt0 : 0 ≤ round bigFloatPrec (amount : ℤ) := round_nonneg _ (by positivity)
  have hrate0 := round_nonneg bigFloatPrec hr
  -- the product of the two rounded operands, rounded once more
  have hprod : mul bigFloatPrec (setInt bigFloatPrec amount) (round bigFloatPrec (rate / 100000)) ≤
      amount * (rate / 100000) * c ^ 3 := by
    have hp0 : 0 ≤ round bigFloatPrec (amount : ℤ) * round bigFloatPrec (rate / 100000) :=
      mul_nonneg hamt0 hrate0
    calc mul bigFloatPrec (setInt bigFloatPrec amount) (round bigFloatPrec (rate / 100000))
        ≤ round bigFloatPrec (amount : ℤ) * round bigFloatPrec (rate / 100000) * c :=
          round_le_mul hp0
      _ ≤ (amount * c) * ((rate / 100000) * c) * c := by gcongr
      _ = amount * (rate / 100000) * c ^ 3 := by ring
  have hprod0 : 0 ≤ mul bigFloatPrec (setInt bigFloatPrec amount) (round bigFloatPrec (rate / 100000)) :=
    round_nonneg _ (mul_nonneg hamt0 hrate0)
  refine ⟨(RoundAmount (mul bigFloatPrec (setInt bigFloatPrec amount)
    (round bigFloatPrec (rate / 100000)))).natAbs, ?_, ?_⟩
  · rw [CalculateAmountForRate, if_pos h0, setString_CardinalRateToString _ h0 h1]
    rfl
  · rw [Nat.cast_natAbs, abs_of_nonneg (by exact_mod_cast RoundAmount_nonneg hprod0)]
    calc _ ≤ _ := RoundAmount_le hprod0
      _ ≤ (amount * (rate / 100000) * c ^ 3 + 1 / 2) * c := by gcongr

/-- A fee at a rate of at most one percent is at most half the amount; a rate that is not
positive charges nothing. -/
theorem two_mul_CalculateAmountForRate_le (amount : ℕ) {rate : ℤ} (h1 : rate ≤ 1000) :
    ∃ fee, CalculateAmountForRate amount rate = some fee ∧ 2 * fee ≤ amount := by
  rcases le_or_gt rate 0 with hneg | hpos
  · exact ⟨0, by simp [CalculateAmountForRate, not_lt.mpr hneg], by omega⟩
  obtain ⟨fee, hfee, hle⟩ := CalculateAmountForRate_le amount hpos (by omega)
  refine ⟨fee, hfee, ?_⟩
  have hc : (1 : ℚ) + 1 / 2 ^ bigFloatPrec ≤ 1001 / 1000 := by
    rw [bigFloatPrec]
    norm_num
  have hc3 : ((1 : ℚ) + 1 / 2 ^ bigFloatPrec) ^ 3 ≤ 1003 / 1000 := by
    rw [bigFloatPrec]
    norm_num
  have hr : (rate : ℚ) / 100000 ≤ 1 / 100 := by
    have : (rate : ℚ) ≤ 1000 := by exact_mod_cast h1
    rw [div_le_iff₀ (by norm_num)]
    linarith
  have hfee : (fee : ℚ) ≤ (amount * (1 / 100) * (1003 / 1000) + 1 / 2) * (1001 / 1000) := by
    refine hle.trans ?_
    gcongr
  -- below two units the bound is under one, so the fee is zero
  rcases Nat.lt_or_ge amount 2 with hsmall | hbig
  · have hlt : (fee : ℚ) < 1 := by
      have : (amount : ℚ) ≤ 1 := by exact_mod_cast Nat.lt_succ_iff.mp hsmall
      linarith
    have : fee = 0 := by exact_mod_cast Nat.lt_one_iff.mp (by exact_mod_cast hlt)
    omega
  · have : (2 : ℚ) ≤ amount := by exact_mod_cast hbig
    have : (2 * fee : ℚ) ≤ amount := by linarith
    exact_mod_cast this

end Vite.Dex
