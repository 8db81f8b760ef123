import Vite.Lib.BinaryFloat
import Vite.Lib.Strconv

/-!
# Go's `big.Float` at a fixed precision

A `big.Float` whose precision is set to `prec` holds a rational with a `prec`-bit mantissa, and
each operation rounds its exact result to nearest, ties to even (the default mode). `setString`
reads a plain decimal: Go scans the digits into an exact mantissa and divides by the power of
five of the fraction digits, which it takes exact from a table up to `5 ^ 27`, so the result is
rounded once. Longer fractions and the other syntaxes (signs, exponents, infinities) are not
modelled here and give `none`.
-/

namespace BigFloat

open BinaryFloat Strconv

variable (prec : ℕ)

/-- `new(big.Float).SetPrec(prec).SetInt(x)`. -/
def setInt (x : ℤ) : ℚ := round prec x

/-- `z.SetPrec(prec).Mul(x, y)`. -/
def mul (x y : ℚ) : ℚ := round prec (x * y)

/-- `z.SetPrec(prec).Quo(x, y)`. -/
def quo (x y : ℚ) : ℚ := round prec (x / y)

/-- `z.SetPrec(prec).Add(x, y)`. -/
def add (x y : ℚ) : ℚ := round prec (x + y)

/-- `new(big.Float).SetPrec(prec).SetString(s)` on a plain decimal. -/
def setString (s : List Char) : Option ℚ :=
  match splitDecimal s with
  | some (ip, fp) => if fp.length ≤ 27 then some (round prec (decimalValue ip fp)) else none
  | none => none

/-- `x.Int(nil)`: the integer part, toward zero. -/
def toInt (x : ℚ) : ℤ := truncate x

theorem setString_eq {s ip fp : List Char} (h : splitDecimal s = some (ip, fp))
    (hfp : fp.length ≤ 27) : setString prec s = some (round prec (decimalValue ip fp)) := by
  simp only [setString, h, if_pos hfp]

end BigFloat
