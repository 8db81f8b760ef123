import Mathlib.Data.Rat.Defs
import Mathlib.Algebra.Order.Field.Basic
import Mathlib.Tactic.Ring
import Mathlib.Data.List.DropRight
import Vite.Lib.BinaryFloat

/-!
# Decimal strings

The decimal conversions of Go's `strconv` as they are documented, on strings of characters:
`FormatUint` writes a natural number in base ten (`Nat.toDigits`), `ParseUint` reads one back
(`0` on a syntax error, the largest value on overflow), and `splitDecimal` recognises a plain
decimal `ddd`, `ddd.ddd`, `.ddd` or `ddd.`, the strings that `strconv.ParseFloat` and
`big.Float.SetString` read as the exact rational `decimalValue`. `digitsValue_FormatUint` is the
round trip; the padding lemmas say how leading and trailing zeros move the value.
`ParseFloat` is `strconv.ParseFloat(s, 64)` on plain decimals: the value rounded to binary64.
Two digit strings of one length and one value are equal (`eq_of_digitsValue_eq`), so a print
is determined by its value: `FormatUint_digitsValue_dropWhile` reads the digits back without
their leading zeros, and `canonicalDecimal` is the print with no padding at either end.
-/

namespace Strconv

/-- The value of a string of decimal digits. -/
def digitsValue (s : List Char) : ℕ :=
  s.foldl (fun acc c => 10 * acc + (c.toNat - '0'.toNat)) 0

/-- `strconv.FormatUint(v, 10)`. -/
def FormatUint (v : ℕ) : List Char := Nat.toDigits 10 v

/-- `strconv.ParseUint(s, 10, bitSize)` as documented: `0` when `s` is empty or holds a
non-digit, the largest `bitSize`-bit value when the number does not fit. -/
def ParseUint (s : List Char) (bitSize : ℕ) : ℕ :=
  if s = [] ∨ ¬s.all Char.isDigit then 0 else min (digitsValue s) (2 ^ bitSize - 1)

/-- `strconv.Atoi` on a string of decimal digits: its value, or a range error (`none`) past the
largest `int`. Signs are not read here: every caller passes digits a regular expression matched. -/
def Atoi (s : List Char) : Option ℕ :=
  if digitsValue s < 2 ^ 63 then some (digitsValue s) else none

/-- A plain decimal: digits, then optionally a point and digits, with at least one digit;
its integer and fraction digits. -/
def splitDecimal (s : List Char) : Option (List Char × List Char) :=
  let ip := s.takeWhile Char.isDigit
  match s.drop ip.length with
  | [] => if ip = [] then none else some (ip, [])
  | c :: fp =>
    if c = '.' ∧ fp.all Char.isDigit ∧ (ip ≠ [] ∨ fp ≠ []) then some (ip, fp) else none

/-- The exact value of the decimal with integer digits `ip` and fraction digits `fp`. -/
def decimalValue (ip fp : List Char) : ℚ := digitsValue ip + digitsValue fp / 10 ^ fp.length

/-- `strconv.ParseFloat(s, 64)` on a plain decimal: the nearest binary64 value, or a range error
(`none`) past the largest finite one. Signs, exponents, hexadecimal mantissas, underscores and
the spellings of infinity and NaN are not read here: each needs a character besides digits and
`'.'`, and every caller in this development rejects such strings on its own. -/
def ParseFloat (s : List Char) : Option ℚ :=
  match splitDecimal s with
  | some (ip, fp) =>
    if BinaryFloat.roundBinary64 (decimalValue ip fp) < 2 ^ 1024 then
      some (BinaryFloat.roundBinary64 (decimalValue ip fp))
    else none
  | none => none

/-- The number a plain decimal denotes (`0` for any other string). -/
def decimalOf (s : List Char) : ℚ :=
  match splitDecimal s with
  | some (ip, fp) => decimalValue ip fp
  | none => 0

/-- Reading on from an accumulated value `acc` shifts it by the digits read. -/
theorem foldl_digits (acc : ℕ) (t : List Char) :
    t.foldl (fun acc c => 10 * acc + (c.toNat - '0'.toNat)) acc =
      acc * 10 ^ t.length + digitsValue t := by
  induction t generalizing acc with
  | nil => simp [digitsValue]
  | cons c t ih =>
    have hc : digitsValue (c :: t) = (c.toNat - '0'.toNat) * 10 ^ t.length + digitsValue t := by
      rw [digitsValue, List.foldl_cons, ih]
      ring
    rw [List.foldl_cons, ih, hc, List.length_cons, pow_succ]
    ring

theorem digitsValue_cons (c : Char) (t : List Char) :
    digitsValue (c :: t) = (c.toNat - '0'.toNat) * 10 ^ t.length + digitsValue t := by
  rw [digitsValue, List.foldl_cons, foldl_digits]
  simp

theorem digit_lt_ten {c : Char} (h : c.isDigit = true) : c.toNat - '0'.toNat < 10 := by
  simp only [Char.isDigit, Bool.and_eq_true, decide_eq_true_eq] at h
  have h57 : c.val.toNat ≤ 57 := UInt32.le_iff_toNat_le.mp h.2
  change c.val.toNat - 48 < 10
  omega

/-- A string of `n` digits is worth less than `10 ^ n`. -/
theorem digitsValue_lt {s : List Char} (hs : s.all Char.isDigit) : digitsValue s < 10 ^ s.length := by
  induction s with
  | nil => simp [digitsValue]
  | cons c t ih =>
    simp only [List.all_cons, Bool.and_eq_true] at hs
    have hc := digit_lt_ten hs.1
    have ht := ih hs.2
    rw [digitsValue_cons, List.length_cons, pow_succ]
    nlinarith

theorem digitsValue_append (s t : List Char) :
    digitsValue (s ++ t) = digitsValue s * 10 ^ t.length + digitsValue t := by
  rw [digitsValue, List.foldl_append, foldl_digits, ← digitsValue]

theorem digitsValue_digitChar {n : ℕ} (h : n < 10) : digitsValue [Nat.digitChar n] = n := by
  have key : ∀ m < 10, (Nat.digitChar m).toNat - 48 = m := by decide
  simp [digitsValue, key n h]

theorem digitsValue_FormatUint (v : ℕ) : digitsValue (FormatUint v) = v := by
  induction v using Nat.strong_induction_on with
  | _ v ih =>
    rw [FormatUint, Nat.toDigits_eq_if (by norm_num)]
    split
    · exact digitsValue_digitChar ‹_›
    · rename_i hv
      have hq : v / 10 < v := Nat.div_lt_self (by omega) (by norm_num)
      rw [digitsValue_append, ← FormatUint, ih _ hq, List.length_singleton, pow_one,
        digitsValue_digitChar (Nat.mod_lt _ (by norm_num))]
      omega

theorem Atoi_FormatUint {v : ℕ} (hv : v < 2 ^ 63) : Atoi (FormatUint v) = some v := by
  rw [Atoi, digitsValue_FormatUint, if_pos hv]

theorem all_isDigit_FormatUint (v : ℕ) : (FormatUint v).all Char.isDigit := by
  rw [List.all_eq_true]
  intro c hc
  exact Nat.isDigit_of_mem_toDigits (by norm_num) (by norm_num) hc

/-- `ParseUint` reads a string of digits whose value fits. -/
theorem ParseUint_eq {s : List Char} {bitSize : ℕ} (hne : s ≠ []) (hd : s.all Char.isDigit)
    (hlt : digitsValue s < 2 ^ bitSize) : ParseUint s bitSize = digitsValue s := by
  rw [ParseUint, if_neg (by simp [hne, hd])]
  omega

theorem length_FormatUint_le_iff {v k : ℕ} (hk : 0 < k) : (FormatUint v).length ≤ k ↔ v < 10 ^ k :=
  Nat.length_toDigits_le_iff (by norm_num) hk

theorem digitsValue_replicate_zero (k : ℕ) : digitsValue (List.replicate k '0') = 0 := by
  induction k with
  | zero => rfl
  | succ k ih =>
    rw [List.replicate_succ', digitsValue_append, ih]
    rfl

/-- Leading zeros do not change the value. -/
theorem digitsValue_zeros_append (k : ℕ) (s : List Char) :
    digitsValue (List.replicate k '0' ++ s) = digitsValue s := by
  rw [digitsValue_append, digitsValue_replicate_zero, zero_mul, zero_add]

/-- Trailing zeros scale the value by a power of ten. -/
theorem digitsValue_append_zeros (s : List Char) (k : ℕ) :
    digitsValue (s ++ List.replicate k '0') = digitsValue s * 10 ^ k := by
  rw [digitsValue_append, digitsValue_replicate_zero, List.length_replicate, add_zero]

/-- Trailing zeros of a fraction do not change its value. -/
theorem decimalValue_append_zeros (ip fp : List Char) (k : ℕ) :
    decimalValue ip (fp ++ List.replicate k '0') = decimalValue ip fp := by
  rw [decimalValue, decimalValue, digitsValue_append_zeros, List.length_append,
    List.length_replicate, pow_add]
  push_cast
  rw [mul_div_mul_right _ _ (pow_ne_zero _ (by norm_num))]

theorem splitDecimal_digits {ip : List Char} (hne : ip ≠ []) (hd : ip.all Char.isDigit) :
    splitDecimal ip = some (ip, []) := by
  have hall : ∀ c ∈ ip, c.isDigit = true := by simpa [List.all_eq_true] using hd
  have htake : ip.takeWhile Char.isDigit = ip := List.takeWhile_eq_self_iff.mpr hall
  simp only [splitDecimal, htake, List.drop_length, if_neg hne]

theorem splitDecimal_point {ip fp : List Char} (hne : ip ≠ []) (hd : ip.all Char.isDigit)
    (hf : fp.all Char.isDigit) : splitDecimal (ip ++ '.' :: fp) = some (ip, fp) := by
  have hall : ∀ c ∈ ip, c.isDigit = true := by simpa [List.all_eq_true] using hd
  have htake : (ip ++ '.' :: fp).takeWhile Char.isDigit = ip := by
    rw [List.takeWhile_append_of_pos hall, List.takeWhile_cons_of_neg (by decide),
      List.append_nil]
  simp only [splitDecimal, htake, List.drop_left, hf]
  simp [hne]

/-- What `splitDecimal` accepts: digits, optionally a point and more digits. -/
theorem splitDecimal_eq_some {s ip fp : List Char} (h : splitDecimal s = some (ip, fp)) :
    ip.all Char.isDigit ∧ fp.all Char.isDigit ∧ ((fp = [] ∧ s = ip) ∨ s = ip ++ '.' :: fp) := by
  have hs : s.takeWhile Char.isDigit ++ s.drop (s.takeWhile Char.isDigit).length = s := by
    conv_rhs => rw [← List.take_append_drop (s.takeWhile Char.isDigit).length s]
    rw [← List.prefix_iff_eq_take.mp (List.takeWhile_prefix _)]
  have hdig : (s.takeWhile Char.isDigit).all Char.isDigit :=
    List.all_eq_true.mpr fun c hc => List.mem_takeWhile_imp hc
  simp only [splitDecimal] at h
  split at h
  · rename_i hdrop
    split at h
    · cases h
    · cases h
      rw [hdrop, List.append_nil] at hs
      exact ⟨hdig, rfl, .inl ⟨rfl, hs.symm⟩⟩
  · rename_i c rest hdrop
    split at h
    · rename_i hc
      obtain ⟨rfl, hrest, -⟩ := hc
      cases h
      rw [hdrop] at hs
      exact ⟨hdig, hrest, .inr hs.symm⟩
    · cases h

theorem ne_point_of_isDigit {c : Char} (h : c.isDigit = true) : (c == '.') = false := by
  rcases eq_or_ne c '.' with rfl | hc
  · exact absurd h (by decide)
  · exact beq_false_of_ne hc

theorem splitOn_digits {ip : List Char} (hd : ip.all Char.isDigit) : ip.splitOn '.' = [ip] := by
  rw [List.splitOn_eq_splitOnP]
  exact List.splitOnP_eq_singleton fun c hc => ne_point_of_isDigit (List.all_eq_true.mp hd c hc)

theorem splitOn_point {ip fp : List Char} (hd : ip.all Char.isDigit) (hf : fp.all Char.isDigit) :
    (ip ++ '.' :: fp).splitOn '.' = [ip, fp] := by
  rw [List.splitOn_eq_splitOnP, List.splitOnP_append_cons_of_forall_mem
    (fun c hc => ne_point_of_isDigit (List.all_eq_true.mp hd c hc)) '.' (by decide),
    ← List.splitOn_eq_splitOnP, splitOn_digits hf]

theorem idxOf?_point {ip : List Char} (hd : ip.all Char.isDigit) (fp : List Char) :
    (ip ++ '.' :: fp).idxOf? '.' = some ip.length := by
  induction ip with
  | nil => simp [List.idxOf?_cons]
  | cons c t ih =>
    simp only [List.all_cons, Bool.and_eq_true] at hd
    rw [List.cons_append, List.idxOf?_cons, if_neg (by simp [ne_point_of_isDigit hd.1]), ih hd.2]
    rfl

theorem idxOf?_digits {ip : List Char} (hd : ip.all Char.isDigit) : ip.idxOf? '.' = none := by
  induction ip with
  | nil => rfl
  | cons c t ih =>
    simp only [List.all_cons, Bool.and_eq_true] at hd
    rw [List.idxOf?_cons, if_neg (by simp [ne_point_of_isDigit hd.1]), ih hd.2]
    rfl

theorem ParseFloat_eq_some {s : List Char} {pr : ℚ} (h : ParseFloat s = some pr) :
    ∃ ip fp, splitDecimal s = some (ip, fp) ∧ pr = BinaryFloat.roundBinary64 (decimalValue ip fp) := by
  unfold ParseFloat at h
  split at h
  · rename_i ip fp hs
    split at h
    · cases h
      exact ⟨ip, fp, hs, rfl⟩
    · cases h
  · cases h

/-- A plain decimal in the normal range reads as its rounding. -/
theorem ParseFloat_of_split {s ip fp : List Char} (h : splitDecimal s = some (ip, fp))
    (hlo : (2 : ℚ) ^ (-1074 : ℤ) ≤ decimalValue ip fp) (hhi : decimalValue ip fp < 2 ^ 1023) :
    ParseFloat s = some (BinaryFloat.roundBinary64 (decimalValue ip fp)) := by
  have hround := BinaryFloat.roundBinary64_le_two_mul hlo
  have hlt : BinaryFloat.roundBinary64 (decimalValue ip fp) < 2 ^ 1024 :=
    calc _ ≤ 2 * decimalValue ip fp := hround
      _ < 2 * 2 ^ 1023 := mul_lt_mul_of_pos_left hhi two_pos
      _ = 2 ^ 1024 := (pow_succ' 2 1023).symm
  simp only [ParseFloat, h]
  rw [if_pos hlt]

theorem decimalValue_nonneg (ip fp : List Char) : 0 ≤ decimalValue ip fp := by
  unfold decimalValue
  positivity

/-- A positive decimal is at least one unit of its last fraction digit. -/
theorem one_div_le_decimalValue {ip fp : List Char} (h : 0 < decimalValue ip fp) :
    1 / 10 ^ fp.length ≤ decimalValue ip fp := by
  unfold decimalValue at h ⊢
  have hpow : (0 : ℚ) < 10 ^ fp.length := by positivity
  rcases Nat.eq_zero_or_pos (digitsValue ip) with hi | hi
  · rw [hi, Nat.cast_zero, zero_add] at h ⊢
    have hf : 0 < digitsValue fp := by
      rcases Nat.eq_zero_or_pos (digitsValue fp) with hf | hf
      · simp [hf] at h
      · exact hf
    have hf' : (1 : ℚ) ≤ digitsValue fp := by exact_mod_cast hf
    exact div_le_div_of_nonneg_right hf' hpow.le
  · have hi' : (1 : ℚ) ≤ digitsValue ip := by exact_mod_cast hi
    have hle : 1 / (10 : ℚ) ^ fp.length ≤ 1 := div_le_one_of_le₀ (one_le_pow₀ (by norm_num)) hpow.le
    have hfrac : (0 : ℚ) ≤ digitsValue fp / 10 ^ fp.length := by positivity
    linarith

/-- A decimal with `n` integer digits is below `10 ^ n + 1`. -/
theorem decimalValue_lt {ip fp : List Char} (hf : fp.all Char.isDigit) :
    decimalValue ip fp < digitsValue ip + 1 := by
  unfold decimalValue
  have hpow : (0 : ℚ) < 10 ^ fp.length := by positivity
  have hlt : (digitsValue fp : ℚ) < 10 ^ fp.length := by exact_mod_cast digitsValue_lt hf
  have : (digitsValue fp : ℚ) / 10 ^ fp.length < 1 := (div_lt_one hpow).mpr hlt
  linarith

/-- The number of `'0'`s that end `s`. -/
def trailingZeros (s : List Char) : ℕ := (s.rtakeWhile (· = '0')).length

/-- A string is its part before the trailing zeros, then the zeros. -/
theorem rdropWhile_append_trailingZeros (s : List Char) :
    s.rdropWhile (· = '0') ++ List.replicate (trailingZeros s) '0' = s := by
  have hzeros : s.rtakeWhile (· = '0') = List.replicate (trailingZeros s) '0' := by
    rw [List.eq_replicate_iff]
    refine ⟨rfl, fun c hc => ?_⟩
    simpa using List.mem_rtakeWhile_imp hc
  rw [← hzeros]
  exact List.rdropWhile_append_rtakeWhile

/-- Cutting the trailing zeros off by length leaves the part before them. -/
theorem take_trailingZeros (s : List Char) :
    s.take (s.length - trailingZeros s) = s.rdropWhile (· = '0') := by
  have hsplit := rdropWhile_append_trailingZeros s
  have hlen : (s.rdropWhile (· = '0')).length = s.length - trailingZeros s := by
    have := congrArg List.length hsplit
    rw [List.length_append, List.length_replicate] at this
    omega
  rw [← hlen]
  exact (List.prefix_iff_eq_take.mp (List.rdropWhile_prefix _ _)).symm

/-- Cutting the trailing zeros off and putting them back gives the string. -/
theorem take_append_trailingZeros (s : List Char) :
    s.take (s.length - trailingZeros s) ++ List.replicate (trailingZeros s) '0' = s := by
  rw [take_trailingZeros, rdropWhile_append_trailingZeros]

/-- Zeros put after a string are cut off again with its own trailing zeros. -/
theorem rdropWhile_append_zeros (s : List Char) (k : ℕ) :
    (s ++ List.replicate k '0').rdropWhile (· = '0') = s.rdropWhile (· = '0') := by
  induction k with
  | zero => rw [List.replicate_zero, List.append_nil]
  | succ k ih =>
    rw [List.replicate_succ', ← List.append_assoc, List.rdropWhile_concat_pos _ _ _ rfl, ih]

/-! ## Canonical prints -/

/-- The leading digit of a value, and the rest, are read off the value. -/
theorem digitsValue_cons_inj {c d : Char} {s t : List Char} (hc : c.isDigit = true)
    (hd : d.isDigit = true) (hs : s.all Char.isDigit) (ht : t.all Char.isDigit)
    (hlen : s.length = t.length) (h : digitsValue (c :: s) = digitsValue (d :: t)) :
    c = d ∧ digitsValue s = digitsValue t := by
  rw [digitsValue_cons, digitsValue_cons, hlen] at h
  have hB : 0 < 10 ^ t.length := by positivity
  have hs' : digitsValue s < 10 ^ t.length := hlen ▸ digitsValue_lt hs
  have ht' := digitsValue_lt ht
  have hdiv := congrArg (· / 10 ^ t.length) h
  have hmod := congrArg (· % 10 ^ t.length) h
  simp only [Nat.add_comm _ (digitsValue _), Nat.add_mul_div_right _ _ hB, Nat.div_eq_of_lt hs',
    Nat.div_eq_of_lt ht', Nat.add_mul_mod_self_right, Nat.mod_eq_of_lt hs', Nat.mod_eq_of_lt ht',
    zero_add] at hdiv hmod
  refine ⟨?_, hmod⟩
  simp only [Char.isDigit, Bool.and_eq_true, decide_eq_true_eq] at hc hd
  have hc48 : 48 ≤ c.val.toNat := UInt32.le_iff_toNat_le.mp hc.1
  have hd48 : 48 ≤ d.val.toNat := UInt32.le_iff_toNat_le.mp hd.1
  apply Char.toNat_inj.mp
  change c.val.toNat - 48 = d.val.toNat - 48 at hdiv
  change c.val.toNat = d.val.toNat
  omega

/-- Two digit strings of one length and one value are equal. -/
theorem eq_of_digitsValue_eq {s t : List Char} (hs : s.all Char.isDigit) (ht : t.all Char.isDigit)
    (hlen : s.length = t.length) (h : digitsValue s = digitsValue t) : s = t := by
  induction s generalizing t with
  | nil => exact (List.eq_nil_of_length_eq_zero hlen.symm).symm
  | cons c s ih =>
    cases t with
    | nil => simp at hlen
    | cons d t =>
      simp only [List.all_cons, Bool.and_eq_true] at hs ht
      simp only [List.length_cons, Nat.add_right_cancel_iff] at hlen
      obtain ⟨rfl, hv⟩ := digitsValue_cons_inj hs.1 ht.1 hs.2 ht.2 hlen h
      rw [ih hs.2 ht.2 hlen hv]

/-- A digit string that does not start with `'0'` is what `FormatUint` prints for its value. -/
theorem FormatUint_digitsValue {s : List Char} (hs : s.all Char.isDigit) (hne : s ≠ [])
    (hhead : s.head hne ≠ '0') : FormatUint (digitsValue s) = s := by
  obtain ⟨c, t, rfl⟩ := List.exists_cons_of_ne_nil hne
  simp only [List.head_cons] at hhead
  have hct : c.isDigit = true ∧ t.all Char.isDigit := by simpa using hs
  -- a leading digit of one or more gives the value exactly `t.length + 1` digits
  have hc1 : 1 ≤ c.toNat - '0'.toNat := by
    have hne0 : c.toNat ≠ '0'.toNat := fun h => hhead (Char.toNat_inj.mp h)
    have h48 : 48 ≤ c.val.toNat := by
      have := hct.1
      simp only [Char.isDigit, Bool.and_eq_true, decide_eq_true_eq] at this
      exact UInt32.le_iff_toNat_le.mp this.1
    change c.val.toNat ≠ 48 at hne0
    change 1 ≤ c.val.toNat - 48
    omega
  have hlow : 10 ^ t.length ≤ digitsValue (c :: t) := by
    rw [digitsValue_cons]
    calc 10 ^ t.length ≤ (c.toNat - '0'.toNat) * 10 ^ t.length := Nat.le_mul_of_pos_left _ hc1
      _ ≤ _ := Nat.le_add_right _ _
  have hhigh : digitsValue (c :: t) < 10 ^ (t.length + 1) := digitsValue_lt hs
  have hlen : (FormatUint (digitsValue (c :: t))).length = t.length + 1 := by
    apply le_antisymm ((length_FormatUint_le_iff (Nat.succ_pos _)).mpr hhigh)
    by_contra hshort
    rcases Nat.eq_zero_or_pos t.length with h0 | hpos
    · exact Nat.toDigits_ne_nil (List.eq_nil_of_length_eq_zero
        (show (FormatUint (digitsValue (c :: t))).length = 0 by omega))
    · have := (length_FormatUint_le_iff hpos).mp
        (show (FormatUint (digitsValue (c :: t))).length ≤ t.length by omega)
      omega
  exact eq_of_digitsValue_eq (all_isDigit_FormatUint _) hs (by rw [hlen, List.length_cons])
    (digitsValue_FormatUint _)

/-- A digit string worth zero is all zeros. -/
theorem eq_zero_of_digitsValue_eq_zero {s : List Char} (hs : s.all Char.isDigit)
    (h : digitsValue s = 0) : ∀ c ∈ s, c = '0' := by
  induction s with
  | nil => simp
  | cons c t ih =>
    have hct : c.isDigit = true ∧ t.all Char.isDigit := by simpa using hs
    rw [digitsValue_cons, Nat.add_eq_zero_iff, Nat.mul_eq_zero] at h
    have hc : c = '0' := by
      rcases h.1 with hc | hpow
      · have h48 : 48 ≤ c.val.toNat := by
          have := hct.1
          simp only [Char.isDigit, Bool.and_eq_true, decide_eq_true_eq] at this
          exact UInt32.le_iff_toNat_le.mp this.1
        apply Char.toNat_inj.mp
        change c.val.toNat - 48 = 0 at hc
        change c.val.toNat = 48
        omega
      · exact absurd hpow (by positivity)
    intro x hx
    rcases List.mem_cons.mp hx with rfl | hx
    · exact hc
    · exact ih hct.2 h.2 x hx

/-- With its leading zeros dropped, a digit string of nonzero value is what `FormatUint` prints. -/
theorem FormatUint_digitsValue_dropWhile {s : List Char} (hs : s.all Char.isDigit)
    (hv : digitsValue s ≠ 0) : FormatUint (digitsValue s) = s.dropWhile (· = '0') := by
  have hsplit : s.takeWhile (· = '0') ++ s.dropWhile (· = '0') = s := List.takeWhile_append_dropWhile
  have hzeros : s.takeWhile (· = '0') = List.replicate (s.takeWhile (· = '0')).length '0' := by
    rw [List.eq_replicate_iff]
    refine ⟨rfl, fun c hc => ?_⟩
    simpa using List.mem_takeWhile_imp hc
  have hval : digitsValue s = digitsValue (s.dropWhile (· = '0')) := by
    conv_lhs => rw [← hsplit, hzeros, digitsValue_zeros_append]
  have hdigits : (s.dropWhile (· = '0')).all Char.isDigit := by
    rw [List.all_eq_true] at hs ⊢
    exact fun c hc => hs c ((List.dropWhile_suffix _).subset hc)
  have hne : s.dropWhile (· = '0') ≠ [] := by
    intro hnil
    rw [hnil] at hval
    exact hv hval
  rw [hval]
  refine FormatUint_digitsValue hdigits hne ?_
  simpa using List.head_dropWhile_not (· = '0') hne

/-- The canonical print of a plain decimal with integer digits `ip` and fraction digits `fp`:
no leading zeros (`0` for an integer part of zeros), no trailing zeros, and no point when no
fraction digit is left. -/
def canonicalDecimal (ip fp : List Char) : List Char :=
  let intDigits := ip.dropWhile (· = '0')
  let fracDigits := fp.rdropWhile (· = '0')
  (if intDigits = [] then ['0'] else intDigits) ++ (if fracDigits = [] then [] else '.' :: fracDigits)

end Strconv
