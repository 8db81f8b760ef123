import Mathlib.Data.Nat.Bitwise

/-!
# Bit sets in bytes, the first position in the top bit

Position `p` of a byte list is bit `7 - p % 8` of byte `p / 8` (`bit`), a byte past the end
reading as zero. Or-ing a mask into byte `i` sets, in that byte, the positions the mask has
(`bit_modify_or`); a one-bit mask `0x80 >> r`, the tail mask `0xFF >> r` and its complement, the
head mask, hold the position `r`, the positions from `r`, and those before it (`testBit_oneMask`,
`testBit_tailMask`, `testBit_headMask`).
-/

namespace BitBytes

/-- Whether position `p` is set. -/
def bit (bits : List UInt8) (p : ℕ) : Bool := (bits.getD (p / 8) 0).toNat.testBit (7 - p % 8)

@[simp] theorem bit_replicate_zero (n p : ℕ) : bit (List.replicate n 0) p = false := by
  unfold bit
  rw [List.getD_eq_getElem?_getD, List.getElem?_replicate]
  split <;> simp

/-- Or-ing `m` into byte `i` sets the positions of that byte that `m` has. -/
theorem bit_modify_or {bits : List UInt8} {i : ℕ} (hi : i < bits.length) (m : UInt8) (p : ℕ) :
    bit (bits.modify i (· ||| m)) p =
      (bit bits p || (p / 8 == i && m.toNat.testBit (7 - p % 8))) := by
  unfold bit
  rw [List.getD_eq_getElem?_getD, List.getD_eq_getElem?_getD, List.getElem?_modify]
  by_cases hp : i = p / 8
  · subst hp
    simp only [if_true, List.getElem?_eq_getElem hi, Option.map_eq_map, Option.map_some,
      Option.getD_some, UInt8.toNat_or, Nat.testBit_or, beq_self_eq_true, Bool.true_and]
  · have hp' : (p / 8 == i) = false := beq_false_of_ne (Ne.symm hp)
    simp only [hp, if_false, Option.map_eq_map, Option.map_id', hp', Bool.false_and, Bool.or_false]

/-- The one-bit mask `0x80 >> r` holds position `r` of its byte. -/
theorem testBit_oneMask {r s : ℕ} (hr : r < 8) (hs : s < 8) :
    ((0x80 : UInt8) >>> r.toUInt8).toNat.testBit (7 - s) = decide (r = s) := by
  have h : ∀ r s : Fin 8,
      ((0x80 : UInt8) >>> r.val.toUInt8).toNat.testBit (7 - s.val) = decide (r.val = s.val) := by
    decide
  exact h ⟨r, hr⟩ ⟨s, hs⟩

/-- The tail mask `0xFF >> r` holds the positions from `r`. -/
theorem testBit_tailMask {r s : ℕ} (hr : r < 8) (hs : s < 8) :
    ((0xFF : UInt8) >>> r.toUInt8).toNat.testBit (7 - s) = decide (r ≤ s) := by
  have h : ∀ r s : Fin 8,
      ((0xFF : UInt8) >>> r.val.toUInt8).toNat.testBit (7 - s.val) = decide (r.val ≤ s.val) := by
    decide
  exact h ⟨r, hr⟩ ⟨s, hs⟩

/-- The head mask `^(0xFF >> r)` holds the positions before `r`. -/
theorem testBit_headMask {r s : ℕ} (hr : r < 8) (hs : s < 8) :
    (~~~((0xFF : UInt8) >>> r.toUInt8)).toNat.testBit (7 - s) = decide (s < r) := by
  have h : ∀ r s : Fin 8,
      (~~~((0xFF : UInt8) >>> r.val.toUInt8)).toNat.testBit (7 - s.val) = decide (s.val < r.val) := by
    decide
  exact h ⟨r, hr⟩ ⟨s, hs⟩

/-- Testing a position against its one-bit mask reads its bit. -/
theorem and_oneMask_eq_zero (b : UInt8) {r : ℕ} (hr : r < 8) :
    ((b &&& (0x80 : UInt8) >>> r.toUInt8) == 0) = !b.toNat.testBit (7 - r) := by
  have hmask : ((0x80 : UInt8) >>> r.toUInt8).toNat = 2 ^ (7 - r) := by
    have h : ∀ r : Fin 8, ((0x80 : UInt8) >>> r.val.toUInt8).toNat = 2 ^ (7 - r.val) := by decide
    exact h ⟨r, hr⟩
  have hand : (b &&& (0x80 : UInt8) >>> r.toUInt8).toNat =
      (b.toNat.testBit (7 - r)).toNat * 2 ^ (7 - r) := by
    rw [UInt8.toNat_and, hmask, Nat.and_two_pow]
  cases htest : b.toNat.testBit (7 - r)
  · rw [htest, Bool.toNat_false, zero_mul] at hand
    simpa [← UInt8.toNat_inj] using hand
  · rw [htest, Bool.toNat_true, one_mul] at hand
    have hne : (b &&& (0x80 : UInt8) >>> r.toUInt8) ≠ 0 := by
      intro h0
      rw [h0, UInt8.toNat_zero] at hand
      exact absurd hand.symm (Nat.two_pow_pos _).ne'
    simpa using hne

end BitBytes
