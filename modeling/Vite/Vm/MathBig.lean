import Vite.Lib.TwosComplement
import Vite.Vm.Instructions
import Mathlib.Data.Int.ModEq

/-!
# What the helpers of `common/helper/math_big.go` compute

On the values of 256-bit words (`wordValue`), the helpers are arithmetic modulo `2 ^ 256`:
`U256` is the residue, `S256` the two's-complement reading, `Byte` a base-256 digit and `Exp`
exponentiation modulo `2 ^ 256`. `Exp` is proved by an induction over the words of `Bits`
(`foldl_Bits_expWord`) inside which runs an induction over the bits of one word
(`expWord_eq`).
-/

namespace Vite.Vm

open TwosComplement

/-- A VM word. -/
abbrev Word := BitVec 256

/-- The value of a word as the `*big.Int` the interpreter holds. -/
def wordValue (w : Word) : Int := w.toNat

theorem U256_eq_emod (z : Int) : U256 z = z % 2 ^ 256 := by
  simpa [U256, Tt256m1] using land_two_pow_sub_one z 256

theorem U256_eq_ofInt (z : Int) : U256 z = wordValue (BitVec.ofInt 256 z) := by
  rw [U256_eq_emod, wordValue, toNat_ofInt]

@[simp] theorem ofInt_value (w : Word) : BitVec.ofInt 256 (wordValue w) = w := by
  rw [wordValue, BitVec.ofInt_natCast, BitVec.ofNat_toNat, BitVec.setWidth_eq]

theorem wordValue_lt (w : Word) : wordValue w < 2 ^ 256 := by
  have := w.isLt
  simp only [wordValue]
  omega

theorem wordValue_nonneg (w : Word) : 0 ≤ wordValue w := Int.natCast_nonneg _

theorem wordValue_inj {v w : Word} : wordValue v = wordValue w ↔ v = w := by
  simp [wordValue, BitVec.toNat_inj]

theorem wordValue_eq_zero {w : Word} : wordValue w = 0 ↔ w = 0 := by
  rw [show (0 : Int) = wordValue 0 from rfl, wordValue_inj]

theorem U256_wordValue (w : Word) : U256 (wordValue w) = wordValue w := by
  rw [U256_eq_ofInt, ofInt_value]

theorem U256_of_lt {z : Int} (h0 : 0 ≤ z) (h1 : z < 2 ^ 256) : U256 z = z := by
  rw [U256_eq_emod, Int.emod_eq_of_lt h0 h1]

/-- `S256` of a word's value is the word's signed reading. -/
theorem S256_wordValue (w : Word) : S256 (wordValue w) = w.toInt := by
  have hw := w.isLt
  rw [wordValue, S256, BitVec.toInt_eq_toNat_cond]
  simp only [Tt255, Tt256]
  push_cast
  split_ifs <;> omega

/-! ## `Bits` and `Byte` -/

theorem Bits_zero : Bits 0 = [] := by rw [Bits]; simp

theorem Bits_of_ne_zero {n : Nat} (h : n ≠ 0) :
    Bits n = n % 2 ^ WordBits :: Bits (n / 2 ^ WordBits) := by
  rw [Bits, dif_neg h]

/-- Word `i` of `Bits n` is digit `i` of `n` in base `2 ^ 64`, present while some digit from
`i` up is nonzero. -/
theorem getElem?_Bits (n i : Nat) :
    (Bits n)[i]? = if n / 2 ^ (WordBits * i) = 0 then none
      else some (n / 2 ^ (WordBits * i) % 2 ^ WordBits) := by
  induction n using Bits.induct generalizing i with
  | case1 => simp [Bits_zero]
  | case2 n hn ih =>
    rw [Bits_of_ne_zero hn]
    cases i with
    | zero => simp [hn]
    | succ i =>
      rw [List.getElem?_cons_succ, ih, Nat.div_div_eq_div_mul, ← pow_add,
        show WordBits + WordBits * i = WordBits * (i + 1) by ring]

theorem bigEndianByteAt_eq (n k : Nat) : bigEndianByteAt n k = n / 2 ^ (8 * k) % 256 := by
  have hk : 8 * k = WordBits * (k / WordBytes) + 8 * (k % WordBytes) := by
    simp only [WordBits, WordBytes]; omega
  have hw := getElem?_Bits n (k / WordBytes)
  simp only [bigEndianByteAt, Int.natAbs_natCast]
  split
  · rename_i h
    rw [List.getElem?_eq_getElem h] at hw
    split at hw
    · exact absurd hw (by simp)
    · have hword : (Bits n)[k / WordBytes] = n / 2 ^ (WordBits * (k / WordBytes)) % 2 ^ 64 := by
        simpa [WordBits] using hw
      have hr : 8 * (k % WordBytes) + 8 ≤ 64 := by simp only [WordBytes, WordBits]; omega
      rw [hword, Nat.shiftRight_eq_div_pow, mod_two_pow_div_mod _ hr, hk, pow_add,
        ← Nat.div_div_eq_div_mul]
  · rename_i h
    rw [List.getElem?_eq_none (by omega)] at hw
    split at hw
    · rename_i hz
      rw [hk, pow_add, ← Nat.div_div_eq_div_mul, hz]
      simp
    · simp at hw

/-- `Byte` on a word: the `n`-th byte from the most significant end. -/
theorem Byte_wordValue (w : Word) {n : Nat} (hn : n < 32) :
    Byte (wordValue w) WordSize n = w.toNat / 2 ^ (8 * (31 - n)) % 256 := by
  rw [Byte, if_neg (by simp only [WordSize]; omega), wordValue, bigEndianByteAt_eq]
  simp only [WordSize]

/-! ## `Exp` -/

theorem expWord_eq (r b : Int) (word k : Nat) (hr : r % 2 ^ 256 = r) (hb : b % 2 ^ 256 = b) :
    expWord r b word k = (r * b ^ (word % 2 ^ k) % 2 ^ 256, b ^ (2 ^ k) % 2 ^ 256) := by
  induction k generalizing r b word with
  | zero => rw [expWord, pow_zero, Nat.mod_one, pow_zero, mul_one, pow_one, hr, hb]
  | succ k ih =>
    have hb' : b * b % 2 ^ 256 % 2 ^ 256 = b * b % 2 ^ 256 := Int.emod_emod_of_dvd _ (dvd_refl _)
    have hdigits : word % 2 ^ (k + 1) = word % 2 + 2 * (word / 2 % 2 ^ k) := by
      rw [pow_succ', Nat.mod_mul]
    rw [expWord, U256_eq_emod (b * b), Nat.and_one_is_mod, Nat.shiftRight_eq_div_pow, pow_one]
    split
    · rename_i hodd
      rw [U256_eq_emod (r * b), ih _ _ _ (Int.emod_emod_of_dvd _ (dvd_refl _)) hb', hdigits, hodd]
      refine Prod.ext ?_ ?_
      · change _ ≡ _ [ZMOD 2 ^ 256]
        calc r * b % 2 ^ 256 * (b * b % 2 ^ 256) ^ (word / 2 % 2 ^ k)
            ≡ r * b * (b * b) ^ (word / 2 % 2 ^ k) [ZMOD 2 ^ 256] :=
              ((Int.mod_modEq _ _).mul ((Int.mod_modEq _ _).pow _))
          _ = r * b ^ (1 + 2 * (word / 2 % 2 ^ k)) := by ring
      · change _ ≡ _ [ZMOD 2 ^ 256]
        calc (b * b % 2 ^ 256) ^ 2 ^ k ≡ (b * b) ^ 2 ^ k [ZMOD 2 ^ 256] := (Int.mod_modEq _ _).pow _
          _ = b ^ 2 ^ (k + 1) := by ring
    · rename_i heven
      have h0 : word % 2 = 0 := by omega
      rw [ih _ _ _ hr hb', hdigits, h0]
      refine Prod.ext ?_ ?_
      · change _ ≡ _ [ZMOD 2 ^ 256]
        calc r * (b * b % 2 ^ 256) ^ (word / 2 % 2 ^ k)
            ≡ r * (b * b) ^ (word / 2 % 2 ^ k) [ZMOD 2 ^ 256] :=
              (Int.ModEq.refl r).mul ((Int.mod_modEq _ _).pow _)
          _ = r * b ^ (0 + 2 * (word / 2 % 2 ^ k)) := by ring
      · change _ ≡ _ [ZMOD 2 ^ 256]
        calc (b * b % 2 ^ 256) ^ 2 ^ k ≡ (b * b) ^ 2 ^ k [ZMOD 2 ^ 256] := (Int.mod_modEq _ _).pow _
          _ = b ^ 2 ^ (k + 1) := by ring

/-- The word loop of `Exp`: over the words of `Bits n`, the accumulator gains `base ^ n`. -/
theorem foldl_Bits_expWord (n : Nat) (r b : Int) (hr : r % 2 ^ 256 = r)
    (hb : b % 2 ^ 256 = b) :
    ((Bits n).foldl (fun acc word => expWord acc.1 acc.2 word WordBits) (r, b)).1 =
      r * b ^ n % 2 ^ 256 := by
  induction n using Bits.induct generalizing r b with
  | case1 => rw [Bits_zero, List.foldl_nil, pow_zero, mul_one, hr]
  | case2 n hn ih =>
    rw [Bits_of_ne_zero hn, List.foldl_cons, expWord_eq _ _ _ _ hr hb,
      Nat.mod_mod_of_dvd _ (dvd_refl _)]
    rw [ih _ _ (Int.emod_emod_of_dvd _ (dvd_refl _)) (Int.emod_emod_of_dvd _ (dvd_refl _))]
    change _ ≡ _ [ZMOD 2 ^ 256]
    calc r * b ^ (n % 2 ^ WordBits) % 2 ^ 256 * (b ^ 2 ^ WordBits % 2 ^ 256) ^ (n / 2 ^ WordBits)
        ≡ r * b ^ (n % 2 ^ WordBits) * (b ^ 2 ^ WordBits) ^ (n / 2 ^ WordBits) [ZMOD 2 ^ 256] :=
          (Int.mod_modEq _ _).mul ((Int.mod_modEq _ _).pow _)
      _ = r * b ^ (n % 2 ^ WordBits + 2 ^ WordBits * (n / 2 ^ WordBits)) := by ring
      _ = r * b ^ n := by rw [Nat.mod_add_div]

/-- `Exp` is exponentiation modulo `2 ^ 256`. -/
theorem Exp_wordValue (a b : Word) :
    Exp (wordValue a) (wordValue b) = wordValue a ^ b.toNat % 2 ^ 256 := by
  have ha : wordValue a % 2 ^ 256 = wordValue a :=
    Int.emod_eq_of_lt (wordValue_nonneg a) (wordValue_lt a)
  rw [Exp, show (wordValue b).natAbs = b.toNat from Int.natAbs_natCast _,
    foldl_Bits_expWord _ _ _ (by decide) ha, one_mul]

end Vite.Vm
