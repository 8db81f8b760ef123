import Mathlib.Data.Nat.Digits.Lemmas
import Mathlib.Data.List.Lex
import Mathlib.Tactic.Ring

/-!
# Fixed-width big-endian encodings and their byte order

`toBytesBE n v` is the `n`-byte big-endian encoding of `v` modulo `256 ^ n`, and `beValue` reads
a byte list back. Byte lists are ordered lexicographically, a proper prefix first (`compare` on
`List UInt8`, the order of Go's `bytes.Compare`). The facts a key layout rests on: reading back
an encoding gives the residue (`beValue_toBytesBE`), the byte order of two encodings of one width
is the order of their values (`compare_toBytesBE`), the order of two keys built from fields of
fixed widths is lexicographic in the fields (`compare_append_of_length_eq`), and complementing
every byte reverses the order (`compare_map_complement`).
-/

namespace BigEndian

/-- The `n`-byte big-endian encoding of `v` modulo `256 ^ n`. -/
def toBytesBE : ℕ → ℕ → List UInt8
  | 0, _ => []
  | n + 1, v => UInt8.ofNat (v / 256 ^ n % 256) :: toBytesBE n v

/-- The value of a big-endian byte list. -/
def beValue : List UInt8 → ℕ
  | [] => 0
  | b :: bs => b.toNat * 256 ^ bs.length + beValue bs

@[simp] theorem length_toBytesBE (n v : ℕ) : (toBytesBE n v).length = n := by
  induction n with
  | zero => rfl
  | succ n ih => simp [toBytesBE, ih]

theorem toBytesBE_zero (n : ℕ) : toBytesBE n 0 = List.replicate n 0 := by
  induction n with
  | zero => rfl
  | succ n ih => simp [toBytesBE, ih, List.replicate_succ]

/-- Dropping the top `k` bytes of an encoding leaves the narrower encoding. -/
theorem drop_toBytesBE (n k v : ℕ) : (toBytesBE (k + n) v).drop k = toBytesBE n v := by
  induction k with
  | zero => simp
  | succ k ih => rw [show k + 1 + n = k + n + 1 by omega, toBytesBE, List.drop_succ_cons, ih]

@[simp] theorem beValue_zero_cons (bs : List UInt8) : beValue (0 :: bs) = beValue bs := by
  simp [beValue]

theorem beValue_lt (bs : List UInt8) : beValue bs < 256 ^ bs.length := by
  induction bs with
  | nil => simp [beValue]
  | cons b bs ih =>
    have hb := b.toNat_lt
    simp only [beValue, List.length_cons, pow_succ]
    nlinarith

/-- The residue modulo `256 ^ (n + 1)` is the top digit above the residue modulo `256 ^ n`. -/
theorem mod_pow_succ_digit (v n : ℕ) :
    v % 256 ^ (n + 1) = v / 256 ^ n % 256 * 256 ^ n + v % 256 ^ n := by
  rw [pow_succ, Nat.mod_mul, Nat.add_comm, Nat.mul_comm]

theorem beValue_toBytesBE (n v : ℕ) : beValue (toBytesBE n v) = v % 256 ^ n := by
  induction n with
  | zero => simp [toBytesBE, beValue, Nat.mod_one]
  | succ n ih =>
    have hdigit : (UInt8.ofNat (v / 256 ^ n % 256)).toNat = v / 256 ^ n % 256 :=
      Nat.mod_eq_of_lt (Nat.mod_lt _ (by norm_num))
    rw [toBytesBE, beValue, length_toBytesBE, ih, hdigit, mod_pow_succ_digit]

/-- An encoding only reads the residue of its value. -/
theorem toBytesBE_mod (n v : ℕ) : toBytesBE n (v % 256 ^ n) = toBytesBE n v := by
  induction n generalizing v with
  | zero => rfl
  | succ n ih =>
    have hdvd : 256 ^ n ∣ 256 ^ (n + 1) := pow_dvd_pow 256 (Nat.le_succ n)
    have hdigit : v % 256 ^ (n + 1) / 256 ^ n % 256 = v / 256 ^ n % 256 := by
      rw [pow_succ, Nat.mod_mul_right_div_self, Nat.mod_mod]
    have htail : toBytesBE n (v % 256 ^ (n + 1)) = toBytesBE n v := by
      rw [← ih, Nat.mod_mod_of_dvd _ hdvd, ih]
    rw [toBytesBE, toBytesBE, hdigit, htail]

theorem toBytesBE_beValue (bs : List UInt8) : toBytesBE bs.length (beValue bs) = bs := by
  induction bs with
  | nil => rfl
  | cons b bs ih =>
    have hlt := beValue_lt bs
    have hb := b.toNat_lt
    have htop : (b.toNat * 256 ^ bs.length + beValue bs) / 256 ^ bs.length % 256 = b.toNat := by
      rw [Nat.add_comm, Nat.add_mul_div_right _ _ (by positivity), Nat.div_eq_of_lt hlt,
        Nat.zero_add, Nat.mod_eq_of_lt hb]
    have hrest : toBytesBE bs.length (b.toNat * 256 ^ bs.length + beValue bs) = bs := by
      rw [← toBytesBE_mod, Nat.add_comm, Nat.add_mul_mod_self_right, Nat.mod_eq_of_lt hlt, ih]
    rw [List.length_cons, toBytesBE, beValue, htop, hrest, UInt8.ofNat_toNat]

private theorem compare_self_nat (a : ℕ) : compare a a = .eq := Nat.compare_eq_eq.mpr rfl

theorem compare_uInt8 (a b : UInt8) : compare a b = compare a.toNat b.toNat := by
  rcases lt_trichotomy a.toNat b.toNat with h | h | h
  · rw [Nat.compare_eq_lt.mpr h]
    exact compareOfLessAndEq_eq_lt.mpr (UInt8.lt_iff_toNat_lt.mpr h)
  · rw [UInt8.toNat_inj.mp h, compare_self_nat]
    exact (compareOfLessAndEq_eq_eq UInt8.le_refl UInt8.not_le).mpr rfl
  · rw [Nat.compare_eq_gt.mpr h]
    exact (compareOfLessAndEq_eq_gt UInt8.le_antisymm UInt8.le_total UInt8.not_le a b).mpr
      (UInt8.lt_iff_toNat_lt.mpr h)

/-- `bytes.Compare(a, b) < 0` is the lexicographic order of the byte values. -/
theorem compare_eq_lt_iff {a b : List UInt8} :
    compare a b = .lt ↔ List.Lex (· < ·) (a.map UInt8.toNat) (b.map UInt8.toNat) := by
  induction a generalizing b with
  | nil =>
    cases b with
    | nil => simp
    | cons y ys => simp [List.compare_nil_cons]
  | cons x xs ih =>
    cases b with
    | nil => simp [List.compare_cons_nil]
    | cons y ys =>
      rw [List.compare_cons_cons, compare_uInt8, List.map_cons, List.map_cons, List.cons_lex_cons_iff,
        ← ih, Ordering.then_eq_lt, Nat.compare_eq_lt, Nat.compare_eq_eq]

/-- Distinct byte lists have distinct byte values. -/
theorem map_toNat_injective : Function.Injective fun a : List UInt8 => a.map UInt8.toNat :=
  List.map_injective_iff.mpr fun _ _ h => UInt8.toNat_inj.mp h

/-- Two keys built from fields of equal widths compare field by field. -/
theorem compare_append_of_length_eq {a b : List UInt8} (c d : List UInt8)
    (h : a.length = b.length) :
    compare (a ++ c) (b ++ d) = (compare a b).then (compare c d) := by
  induction a generalizing b with
  | nil =>
    rw [List.length_nil, eq_comm, List.length_eq_zero_iff] at h
    subst h
    rfl
  | cons x xs ih =>
    cases b with
    | nil => simp at h
    | cons y ys =>
      simp only [List.cons_append, List.compare_cons_cons, Ordering.then_assoc]
      rw [ih (by simpa using h)]

/-- A common first field leaves the order to what follows it. -/
theorem compare_append_left (c : List UInt8) (a b : List UInt8) :
    compare (c ++ a) (c ++ b) = compare a b := by
  rw [compare_append_of_length_eq a b rfl, Std.compare_self, Ordering.eq_then]

/-- Numbers written with a top digit above a remainder below `B` compare digit first. -/
theorem compare_mul_add {a b r s B : ℕ} (hr : r < B) (hs : s < B) :
    compare (a * B + r) (b * B + s) = (compare a b).then (compare r s) := by
  rcases lt_trichotomy a b with h | rfl | h
  · have hlt : a * B + r < b * B + s := by nlinarith
    rw [Nat.compare_eq_lt.mpr hlt, Nat.compare_eq_lt.mpr h]
    rfl
  · rw [compare_self_nat, Ordering.eq_then]
    rcases lt_trichotomy r s with h' | rfl | h'
    · rw [Nat.compare_eq_lt.mpr h', Nat.compare_eq_lt.mpr (by omega)]
    · rw [compare_self_nat, compare_self_nat]
    · rw [Nat.compare_eq_gt.mpr h', Nat.compare_eq_gt.mpr (by omega)]
  · have hgt : b * B + s < a * B + r := by nlinarith
    rw [Nat.compare_eq_gt.mpr hgt, Nat.compare_eq_gt.mpr h]
    rfl

/-- Of two values below `256 ^ n`, the smaller has the smaller encoding. -/
theorem compare_toBytesBE {n v w : ℕ} (hv : v < 256 ^ n) (hw : w < 256 ^ n) :
    compare (toBytesBE n v) (toBytesBE n w) = compare v w := by
  induction n generalizing v w with
  | zero =>
    simp only [pow_zero, Nat.lt_one_iff] at hv hw
    subst hv hw
    rfl
  | succ n ih =>
    -- split each value into its top digit and the remainder the tail encodes
    have hpos : 0 < 256 ^ n := by positivity
    have hv' := mod_pow_succ_digit v n
    have hw' := mod_pow_succ_digit w n
    rw [Nat.mod_eq_of_lt hv] at hv'
    rw [Nat.mod_eq_of_lt hw] at hw'
    have hdigit (u : ℕ) : (UInt8.ofNat (u / 256 ^ n % 256)).toNat = u / 256 ^ n % 256 :=
      Nat.mod_eq_of_lt (Nat.mod_lt _ (by norm_num))
    have htail := ih (Nat.mod_lt v hpos) (Nat.mod_lt w hpos)
    rw [toBytesBE_mod, toBytesBE_mod] at htail
    rw [toBytesBE, toBytesBE, List.compare_cons_cons, compare_uInt8, hdigit, hdigit, htail]
    conv_rhs => rw [hv', hw']
    exact (compare_mul_add (Nat.mod_lt v hpos) (Nat.mod_lt w hpos)).symm

/-- Byte lists of one length compare as their values. -/
theorem compare_eq_compare_beValue {a b : List UInt8} (h : a.length = b.length) :
    compare a b = compare (beValue a) (beValue b) := by
  have ha := beValue_lt a
  have hb := beValue_lt b
  rw [h] at ha
  conv_lhs => rw [← toBytesBE_beValue a, ← toBytesBE_beValue b, h]
  exact compare_toBytesBE ha hb

theorem compare_complement (a b : UInt8) : compare (~~~a) (~~~b) = compare b a := by
  rw [compare_uInt8, compare_uInt8, UInt8.toNat_not, UInt8.toNat_not]
  have ha := a.toNat_lt
  have hb := b.toNat_lt
  have hsize : UInt8.size = 256 := rfl
  rcases lt_trichotomy a.toNat b.toNat with h | h | h
  · rw [Nat.compare_eq_gt.mpr (by omega), Nat.compare_eq_gt.mpr h]
  · rw [h, compare_self_nat, compare_self_nat]
  · rw [Nat.compare_eq_lt.mpr (by omega), Nat.compare_eq_lt.mpr h]

/-- Complementing every byte of two lists of one length reverses their order. -/
theorem compare_map_complement {a b : List UInt8} (h : a.length = b.length) :
    compare (a.map (~~~·)) (b.map (~~~·)) = compare b a := by
  induction a generalizing b with
  | nil =>
    rw [List.length_nil, eq_comm, List.length_eq_zero_iff] at h
    subst h
    rfl
  | cons x xs ih =>
    cases b with
    | nil => simp at h
    | cons y ys =>
      simp only [List.map_cons, List.compare_cons_cons, compare_complement]
      rw [ih (by simpa using h)]

theorem map_complement_involutive (a : List UInt8) : (a.map (~~~·)).map (~~~·) = a := by
  simp [List.map_map, Function.comp_def]

end BigEndian
