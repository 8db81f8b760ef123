import Mathlib.Data.Int.Bitwise
import Mathlib.Tactic.Linarith
import Mathlib.Tactic.Positivity
import Mathlib.Tactic.Ring

/-!
# Two's-complement integers against fixed-width words

Arbitrary-precision integers read in two's complement (Mathlib's `Int.land`, `Int.lor`,
`Int.lnot`) against `w`-bit words (`BitVec w`). A mask `2 ^ n - 1` keeps the residue modulo
`2 ^ n`, and so does `BitVec.ofInt`; the signed reading of a word is its `toInt`; truncating
division and remainder are read off absolute values. Nothing here names a program: the word
model of a virtual machine instantiates these lemmas at its own width.
-/

namespace TwosComplement

theorem two_mul_add_emod (x m c : Int) (hm : 0 < m) (hc0 : 0 ≤ c) (hc1 : c < 2) :
    (2 * x + c) % (2 * m) = 2 * (x % m) + c := by
  have hx := Int.emod_add_ediv_mul x m
  have h0 := Int.emod_nonneg x hm.ne'
  have h1 := Int.emod_lt_of_pos x hm
  rw [show 2 * x + c = (2 * (x % m) + c) + (2 * m) * (x / m) by linarith,
    Int.add_mul_emod_self_left]
  exact Int.emod_eq_of_lt (by omega) (by omega)

theorem bit_emod (b : Bool) (x : Int) (n : Nat) :
    Int.bit b x % 2 ^ (n + 1) = Int.bit b (x % 2 ^ n) := by
  rw [Int.bit_val, Int.bit_val, pow_succ, mul_comm _ (2 : Int)]
  exact two_mul_add_emod x _ _ (by positivity) (by cases b <;> decide) (by cases b <;> decide)

theorem ldiff_zero_left (m : Nat) : Nat.ldiff 0 m = 0 :=
  Nat.eq_of_testBit_eq fun i => by simp [Nat.testBit_ldiff]

theorem two_pow_succ_sub_one (n : Nat) :
    (2 : Int) ^ (n + 1) - 1 = Int.bit true (2 ^ n - 1) := by
  rw [Int.bit_val, pow_succ]
  simp only [cond_true]
  ring

/-- A mask of `n` low ones keeps the residue modulo `2 ^ n`, negative operands included. -/
theorem land_two_pow_sub_one (x : Int) (n : Nat) : x.land (2 ^ n - 1) = x % 2 ^ n := by
  induction n generalizing x with
  | zero => cases x <;> simp [Int.land, ldiff_zero_left]
  | succ n ih =>
    rw [two_pow_succ_sub_one, ← Int.bit_decomp x, Int.land_bit, ih, Bool.and_true, bit_emod]

theorem lor_neg_one (x : Int) : x.lor (-1) = -1 := by
  cases x with
  | ofNat m =>
    show Int.lor m (Int.negSucc 0) = _
    simp [Int.lor, ldiff_zero_left]
  | negSucc m =>
    show Int.lor _ (Int.negSucc 0) = _
    simp [Int.lor]

/-- Setting every bit from `n` up: the low `n` bits are kept, the rest read as `-2 ^ n`. -/
theorem lor_lnot_two_pow_sub_one (x : Int) (n : Nat) :
    x.lor (Int.lnot (2 ^ n - 1)) = x % 2 ^ n - 2 ^ n := by
  induction n generalizing x with
  | zero => simpa [Int.lnot] using lor_neg_one x
  | succ n ih =>
    rw [two_pow_succ_sub_one, Int.lnot_bit, ← Int.bit_decomp x, Int.lor_bit, ih, Bool.not_true,
      Bool.or_false]
    have low := bit_emod (Int.bodd x) (Int.div2 x) n
    rw [Int.bit_val] at low ⊢
    rw [Int.bit_val, pow_succ] at *
    linarith

theorem lnot_eq (x : Int) : Int.lnot x = -x - 1 := by
  cases x <;> simp [Int.lnot, Int.negSucc_eq]
  omega

theorem land_natCast (a b : Nat) : Int.land a b = (a &&& b : Nat) := rfl

theorem lor_natCast (a b : Nat) : Int.lor a b = (a ||| b : Nat) := rfl

theorem xor_natCast (a b : Nat) : Int.xor a b = (a ^^^ b : Nat) := rfl

theorem testBit_natCast (n i : Nat) : Int.testBit n i = n.testBit i := rfl

/-- `BitVec.ofInt` keeps the residue of its argument. -/
theorem toNat_ofInt {w : Nat} (z : Int) : ((BitVec.ofInt w z).toNat : Int) = z % 2 ^ w := by
  rw [BitVec.toNat_ofInt, Int.toNat_of_nonneg (Int.emod_nonneg _ (by positivity))]
  push_cast
  rfl

theorem ofInt_bmod {w : Nat} (z : Int) : BitVec.ofInt w (z.bmod (2 ^ w)) = BitVec.ofInt w z := by
  apply BitVec.eq_of_toNat_eq
  simp only [BitVec.toNat_ofInt, Int.bmod_emod]

theorem ofInt_emod {w : Nat} (z : Int) : BitVec.ofInt w (z % 2 ^ w) = BitVec.ofInt w z := by
  apply BitVec.eq_of_toNat_eq
  simp only [BitVec.toNat_ofInt]
  push_cast
  rw [Int.emod_emod_of_dvd _ (dvd_refl _)]

/-- The signed reading of the word with unsigned value `x < 2 ^ w`. -/
theorem toInt_ofNat_of_lt {w x : Nat} (hx : x < 2 ^ w) :
    (BitVec.ofNat w x).toInt = if 2 * x < 2 ^ w then (x : Int) else x - 2 ^ w := by
  rw [BitVec.toInt_eq_toNat_cond, BitVec.toNat_ofNat, Nat.mod_eq_of_lt hx]
  push_cast
  rfl

/-- Truncating division through absolute values, the quotient negated when the signs differ. -/
theorem tdiv_eq_abs {x y : Int} (hx : x ≠ 0) (hy : y ≠ 0) :
    x.tdiv y = if x.sign ≠ y.sign then -(|x| / |y|) else |x| / |y| := by
  rcases lt_or_gt_of_ne hx with xn | xp <;> rcases lt_or_gt_of_ne hy with yn | yp
  · rw [Int.sign_eq_neg_one_of_neg xn, Int.sign_eq_neg_one_of_neg yn, if_neg (by simp),
      abs_of_neg xn, abs_of_neg yn, ← Int.tdiv_eq_ediv_of_nonneg (by omega), Int.neg_tdiv_neg]
  · rw [Int.sign_eq_neg_one_of_neg xn, Int.sign_eq_one_of_pos yp, if_pos (by decide),
      abs_of_neg xn, abs_of_pos yp, ← Int.tdiv_eq_ediv_of_nonneg (by omega), Int.neg_tdiv, neg_neg]
  · rw [Int.sign_eq_one_of_pos xp, Int.sign_eq_neg_one_of_neg yn, if_pos (by decide),
      abs_of_pos xp, abs_of_neg yn, ← Int.tdiv_eq_ediv_of_nonneg (by omega), Int.tdiv_neg, neg_neg]
  · rw [Int.sign_eq_one_of_pos xp, Int.sign_eq_one_of_pos yp, if_neg (by simp),
      abs_of_pos xp, abs_of_pos yp, Int.tdiv_eq_ediv_of_nonneg (by omega)]

/-- Truncating remainder through absolute values, negated for a negative dividend. -/
theorem tmod_eq_abs (x y : Int) : x.tmod y = if x < 0 then -(|x| % |y|) else |x| % |y| := by
  have hy : x.tmod y = x.tmod |y| := by
    rcases abs_choice y with h | h <;> rw [h]
    rw [Int.tmod_neg]
  split
  · rename_i hx
    rw [hy, abs_of_neg hx, ← Int.tmod_eq_emod_of_nonneg (by omega), Int.neg_tmod, neg_neg]
  · rename_i hx
    rw [hy, abs_of_nonneg (show 0 ≤ x by omega), Int.tmod_eq_emod_of_nonneg (by omega)]

/-- The residue modulo `2 ^ (k + 1)` adds bit `k` to the residue modulo `2 ^ k`. -/
theorem mod_two_pow_succ (n k : Nat) :
    n % 2 ^ (k + 1) = n % 2 ^ k + if n.testBit k then 2 ^ k else 0 := by
  rw [Nat.mod_pow_succ, Nat.testBit_eq_decide_div_mod_eq]
  have : n / 2 ^ k % 2 = 0 ∨ n / 2 ^ k % 2 = 1 := Nat.mod_two_eq_zero_or_one _
  rcases this with h | h <;> simp [h]

/-- A byte that lies below bit `b` reads the same after truncation to `b` bits. -/
theorem mod_two_pow_div_mod (m : Nat) {a b : Nat} (hab : a + 8 ≤ b) :
    m % 2 ^ b / 2 ^ a % 256 = m / 2 ^ a % 256 := by
  have hsplit : 2 ^ b = 2 ^ a * 2 ^ (b - a) := by rw [← pow_add]; congr 1; omega
  have hdvd : 256 ∣ 2 ^ (b - a) := pow_dvd_pow 2 (show 8 ≤ b - a by omega)
  rw [hsplit, Nat.mod_mul_right_div_self, Nat.mod_mod_of_dvd _ hdvd]

theorem toNat_pow {w : Nat} (x : BitVec w) (n : Nat) : (x ^ n).toNat = x.toNat ^ n % 2 ^ w := by
  induction n with
  | zero => simp
  | succ n ih =>
    rw [BitVec.pow_succ, BitVec.toNat_mul, ih, Nat.mod_mul_mod, pow_succ]

end TwosComplement
