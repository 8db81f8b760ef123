import Vite.Lib.BigEndian
import Vite.Lib.BigFloat

/-!
# Prices and rates as decimal strings (`utils.go`)

An order's price is ten bytes: a five-byte big-endian integer part and a five-byte fraction in
units of `10 ^ -12`. The matcher computes amounts in `big.Float`, reading a price through the
decimal string `BytesToPrice` writes and a fee rate through `CardinalRateToString`. Both strings
are plain decimals that `big.Float.SetString` reads exactly before rounding once:
`setString_BytesToPrice` and `setString_CardinalRateToString` give their values.
`BytesToPrice` fails (Go panics) on a fraction of thirteen digits or more, which a five-byte
fraction can hold.

On the prices `ValidPrice` accepts the codec is a round trip: `BytesToPrice` prints what
`PriceToBytes` wrote in canonical form, `PriceToBytes` writes back any ten bytes whose halves are
below `10 ^ 12`, and the bytes compare as the prices (`price_codec_round_trip`).
-/

namespace Vite.Dex

open BigEndian Strconv

/-- `PriceBytesLength`. -/
def PriceBytesLength : ℕ := 10

/-- `priceIntMaxLen`. -/
def priceIntMaxLen : ℕ := 12

/-- `priceDecimalMaxLen`. -/
def priceDecimalMaxLen : ℕ := 12

/-- `RateCardinalNum`. -/
def RateCardinalNum : ℤ := 100000

/-- `Uint32ToBytes`: four big-endian bytes. -/
def Uint32ToBytes (value : ℕ) : List UInt8 := toBytesBE 4 value

/-- `Uint64ToBytes`: eight big-endian bytes. -/
def Uint64ToBytes (value : ℕ) : List UInt8 := toBytesBE 8 value

/-- `BytesToUint32` on four bytes. -/
def BytesToUint32 (bytes : List UInt8) : ℕ := beValue bytes

/-- `BytesToUint64` on eight bytes. -/
def BytesToUint64 (bytes : List UInt8) : ℕ := beValue bytes

/-- `BitwiseNotBytes`, which complements a slice in place. -/
def BitwiseNotBytes (bytes : List UInt8) : List UInt8 := bytes.map (~~~·)

/-- `PriceToBytes`: the integer digits, then the fraction digits right-padded to twelve, each
read by `strconv.ParseUint` (errors ignored) and cut to its low five bytes. -/
def PriceToBytes (price : List Char) : List UInt8 :=
  let parts := price.splitOn '.'
  let intPart := parts.headD []
  let decimalPart := if parts.length = 2 then parts.getD 1 [] else []
  let intBytes :=
    if intPart.length > 0 then (Uint64ToBytes (ParseUint intPart 64)).drop 3
    else List.replicate 5 0
  let decimalLen := decimalPart.length
  let decimalBytes :=
    if decimalLen > 0 then
      let padded :=
        if decimalLen < priceDecimalMaxLen then
          decimalPart ++ List.replicate (priceDecimalMaxLen - decimalLen) '0'
        else decimalPart
      (Uint64ToBytes (ParseUint padded 64)).drop 3
    else List.replicate 5 0
  intBytes ++ decimalBytes

/-- `checkPriceChar`: every rune is `'.'` or, cut to a byte, a decimal digit. -/
def checkPriceChar (price : List Char) : Bool :=
  price.all fun v => v == '.' || (48 ≤ v.toNat % 256 && v.toNat % 256 ≤ 57)

/-- `strings.Index(s, ".")`. -/
def indexOfPoint (s : List Char) : ℤ :=
  match s.idxOf? '.' with
  | some i => i
  | none => -1

/-- `ValidPrice`. -/
def ValidPrice (price : List Char) (isFork : Bool) : Bool :=
  if price.length = 0 then false
  else
    match ParseFloat price with
    | none => false
    | some pr =>
      if pr ≤ 0 then false
      else if !checkPriceChar price then false
      else
        let idx := indexOfPoint price
        -- 10^12 < 2^40: the integer and the fraction each fit five bytes
        if idx > priceIntMaxLen then false
        else if idx ≥ 0 ∧ (price.length : ℤ) - (idx + 1) > priceDecimalMaxLen then false
        else if idx = -1 ∧ isFork ∧ price.length > priceIntMaxLen then false
        else true

/-- `copy(buf[3:], src)` into a zeroed eight-byte buffer, as the five bytes it fills. -/
def fiveBytes (src : List UInt8) : List UInt8 :=
  src.take 5 ++ List.replicate (5 - (src.take 5).length) 0

/-- The integer part of a price. -/
def priceIntPart (priceBytes : List UInt8) : ℕ := beValue (priceBytes.take 5)

/-- The fraction of a price, in units of `10 ^ -12`. -/
def priceDecimalPart (priceBytes : List UInt8) : ℕ := beValue (fiveBytes (priceBytes.drop 5))

/-- The price ten bytes stand for. -/
def priceValue (priceBytes : List UInt8) : ℚ :=
  priceIntPart priceBytes + priceDecimalPart priceBytes / 10 ^ priceDecimalMaxLen

/-- A price in units of `10 ^ -12`. -/
def priceUnits (priceBytes : List UInt8) : ℕ :=
  priceIntPart priceBytes * 10 ^ priceDecimalMaxLen + priceDecimalPart priceBytes

/-- Ten price bytes whose fraction is below `10 ^ 12`: what `PriceToBytes` writes for a price
`ValidPrice` accepts, and what `BytesToPrice` can print. -/
structure WellFormedPrice (priceBytes : List UInt8) : Prop where
  length_eq : priceBytes.length = PriceBytesLength
  decimal_lt : priceDecimalPart priceBytes < 10 ^ priceDecimalMaxLen

/-- `BytesToPrice`; `none` where Go panics. -/
def BytesToPrice (priceBytes : List UInt8) : Option (List Char) :=
  if priceBytes.length < 5 then none else
  let intValue := priceIntPart priceBytes
  let decimalValue := priceDecimalPart priceBytes
  let intStr := if intValue = 0 then ['0'] else FormatUint intValue
  if decimalValue = 0 then some intStr
  else
    let decimalStr := FormatUint decimalValue
    -- more than twelve digits make the left padding's slice index negative
    if priceDecimalMaxLen < decimalStr.length then none
    else
      let decimalPartArr :=
        List.replicate (priceDecimalMaxLen - decimalStr.length) '0' ++ decimalStr
      let rightTruncate := trailingZeros decimalPartArr
      some (intStr ++ '.' :: decimalPartArr.take (priceDecimalMaxLen - rightTruncate))

/-- `strconv.Itoa`. -/
def Itoa (v : ℤ) : List Char :=
  if v < 0 then '-' :: FormatUint v.natAbs else FormatUint v.natAbs

/-- `CardinalRateToString`: `rawRate / RateCardinalNum` in decimal. From seven digits on, the
fraction slice ends at the cardinal's length and loses the rate's last digits. -/
def CardinalRateToString (rawRate : ℤ) : List Char :=
  let rateStr := Itoa rawRate
  let cardinalStr := Itoa RateCardinalNum
  let rateLen := rateStr.length
  let cardinalLen := cardinalStr.length
  if rateLen ≥ cardinalLen then
    rateStr.take (rateLen - cardinalLen + 1) ++
      '.' :: (rateStr.drop (rateLen - cardinalLen + 1)).take (cardinalLen - (rateLen - cardinalLen + 1))
  else
    '0' :: '.' :: (List.replicate (cardinalLen - rateLen - 1) '0' ++ rateStr)

theorem intStr_eq (v : ℕ) : (if v = 0 then ['0'] else FormatUint v) = FormatUint v := by
  split
  · subst_vars
    rfl
  · rfl

theorem FormatUint_ne_nil (v : ℕ) : FormatUint v ≠ [] := Nat.toDigits_ne_nil

theorem all_isDigit_replicate_zero (k : ℕ) : (List.replicate k '0').all Char.isDigit := by
  simp

/-- `BytesToPrice` prints the integer part's digits and, as a fraction of at most twelve digits,
the fraction of the price. -/
theorem splitDecimal_BytesToPrice {priceBytes : List UInt8} {s : List Char}
    (h : BytesToPrice priceBytes = some s) :
    ∃ fp, splitDecimal s = some (FormatUint (priceIntPart priceBytes), fp) ∧
      fp.length ≤ priceDecimalMaxLen ∧
      digitsValue fp * 10 ^ (priceDecimalMaxLen - fp.length) = priceDecimalPart priceBytes := by
  unfold BytesToPrice at h
  split at h
  · cases h
  simp only [intStr_eq] at h
  split at h
  · -- no fraction: the string is the integer part
    rename_i hdec
    cases h
    refine ⟨[], splitDecimal_digits (FormatUint_ne_nil _) (all_isDigit_FormatUint _),
      Nat.zero_le _, ?_⟩
    rw [hdec]
    rfl
  split at h
  · cases h
  rename_i hdec hlen
  cases h
  -- the fraction with its trailing zeros cut, padded back, is the twelve digits printed
  set arr := List.replicate (priceDecimalMaxLen - (FormatUint (priceDecimalPart priceBytes)).length)
    '0' ++ FormatUint (priceDecimalPart priceBytes) with harr
  have hlen12 : arr.length = priceDecimalMaxLen := by
    rw [harr, List.length_append, List.length_replicate]
    omega
  have hdigits : arr.all Char.isDigit := by
    rw [harr, List.all_append, all_isDigit_replicate_zero, all_isDigit_FormatUint]
    rfl
  have hcut := take_append_trailingZeros arr
  rw [hlen12] at hcut
  have hfrac : (arr.take (priceDecimalMaxLen - trailingZeros arr)).all Char.isDigit := by
    rw [List.all_eq_true] at hdigits ⊢
    exact fun c hc => hdigits c (List.mem_of_mem_take hc)
  have hfp : (arr.take (priceDecimalMaxLen - trailingZeros arr)).length =
      priceDecimalMaxLen - trailingZeros arr := by
    rw [List.length_take, hlen12]
    omega
  refine ⟨_, splitDecimal_point (FormatUint_ne_nil _) (all_isDigit_FormatUint _) hfrac,
    hfp.trans_le (Nat.sub_le _ _), ?_⟩
  have htz : trailingZeros arr ≤ priceDecimalMaxLen := by
    rw [← hlen12]
    exact (List.rtakeWhile_suffix _ _).length_le
  rw [hfp, Nat.sub_sub_self htz, ← digitsValue_append_zeros, hcut, harr, digitsValue_zeros_append,
    digitsValue_FormatUint]

/-- The integer digits and a fraction of at most twelve digits are worth the price whose parts
they print. -/
theorem decimalValue_of_parts {priceBytes : List UInt8} {fp : List Char}
    (hfp : fp.length ≤ priceDecimalMaxLen)
    (hdec : digitsValue fp * 10 ^ (priceDecimalMaxLen - fp.length) = priceDecimalPart priceBytes) :
    decimalValue (FormatUint (priceIntPart priceBytes)) fp = priceValue priceBytes := by
  have hsplit10 : (10 : ℚ) ^ priceDecimalMaxLen =
      10 ^ fp.length * 10 ^ (priceDecimalMaxLen - fp.length) := by
    rw [← pow_add, Nat.add_sub_cancel' hfp]
  rw [decimalValue, priceValue, digitsValue_FormatUint, ← hdec, hsplit10]
  push_cast
  rw [mul_div_mul_right _ _ (by positivity)]

/-- `big.Float` reads `BytesToPrice` as the price, rounded once. -/
theorem setString_BytesToPrice (prec : ℕ) {priceBytes : List UInt8} {s : List Char}
    (h : BytesToPrice priceBytes = some s) :
    BigFloat.setString prec s = some (BinaryFloat.round prec (priceValue priceBytes)) := by
  obtain ⟨fp, hsplit, hfp, hdec⟩ := splitDecimal_BytesToPrice h
  rw [BigFloat.setString_eq prec hsplit (hfp.trans (by decide)), decimalValue_of_parts hfp hdec]

/-- The print of a price is worth the price. -/
theorem decimalOf_BytesToPrice {priceBytes : List UInt8} {s : List Char}
    (h : BytesToPrice priceBytes = some s) : decimalOf s = priceValue priceBytes := by
  obtain ⟨fp, hsplit, hfp, hdec⟩ := splitDecimal_BytesToPrice h
  simp only [decimalOf, hsplit, decimalValue_of_parts hfp hdec]

/-- The low five bytes `PriceToBytes` keeps of a string of at most twelve digits. -/
theorem low5_ParseUint {s : List Char} (hs : s.all Char.isDigit) (hlen : s.length ≤ 12) :
    (Uint64ToBytes (ParseUint s 64)).drop 3 = toBytesBE 5 (digitsValue s) := by
  rcases eq_or_ne s [] with rfl | hne
  · simp [ParseUint, Uint64ToBytes]
    rfl
  have hlt : digitsValue s < 10 ^ 12 :=
    lt_of_lt_of_le (digitsValue_lt hs) (Nat.pow_le_pow_right (by norm_num) hlen)
  rw [ParseUint_eq hne hs (by omega), Uint64ToBytes]
  exact drop_toBytesBE 5 3 _

theorem intBytes_eq {ip : List Char} (hd : ip.all Char.isDigit) (hlen : ip.length ≤ priceIntMaxLen) :
    (if ip.length > 0 then (Uint64ToBytes (ParseUint ip 64)).drop 3 else List.replicate 5 0) =
      toBytesBE 5 (digitsValue ip) := by
  split
  · exact low5_ParseUint hd hlen
  · rw [List.eq_nil_of_length_eq_zero (by omega : ip.length = 0)]
    exact (toBytesBE_zero 5).symm

theorem decimalBytes_eq {fp : List Char} (hd : fp.all Char.isDigit) (hlen : fp.length ≤ priceDecimalMaxLen) :
    (if fp.length > 0 then
      (Uint64ToBytes (ParseUint (if fp.length < priceDecimalMaxLen then
          fp ++ List.replicate (priceDecimalMaxLen - fp.length) '0' else fp) 64)).drop 3
     else List.replicate 5 0) =
      toBytesBE 5 (digitsValue fp * 10 ^ (priceDecimalMaxLen - fp.length)) := by
  split
  · split
    · -- shorter than twelve digits: right-padded with zeros
      have hpad : (fp ++ List.replicate (priceDecimalMaxLen - fp.length) '0').all Char.isDigit := by
        rw [List.all_append, hd, all_isDigit_replicate_zero]
        rfl
      rw [low5_ParseUint hpad (by simp [priceDecimalMaxLen] at hlen ⊢; omega), digitsValue_append_zeros]
    · rw [low5_ParseUint hd hlen, show priceDecimalMaxLen - fp.length = 0 by omega, pow_zero, mul_one]
  · rw [List.eq_nil_of_length_eq_zero (by omega : fp.length = 0)]
    exact (toBytesBE_zero 5).symm

theorem PriceToBytes_eq {price ip fp : List Char} (h : splitDecimal price = some (ip, fp))
    (hip : ip.length ≤ priceIntMaxLen) (hfp : fp.length ≤ priceDecimalMaxLen) :
    PriceToBytes price =
      toBytesBE 5 (digitsValue ip) ++ toBytesBE 5 (digitsValue fp * 10 ^ (priceDecimalMaxLen - fp.length)) := by
  obtain ⟨hdi, hdf, hcases⟩ := splitDecimal_eq_some h
  rw [← intBytes_eq hdi hip, ← decimalBytes_eq hdf hfp]
  rcases hcases with ⟨rfl, rfl⟩ | rfl
  · simp only [PriceToBytes, splitOn_digits hdi]
    simp
  · simp only [PriceToBytes, splitOn_point hdi hdf]
    simp

theorem checkPriceChar_of_split {price ip fp : List Char} (h : splitDecimal price = some (ip, fp)) :
    checkPriceChar price = true := by
  obtain ⟨hdi, hdf, hcases⟩ := splitDecimal_eq_some h
  have hdigit : ∀ c : Char, c.isDigit = true →
      (c == '.' || (48 ≤ c.toNat % 256 && c.toNat % 256 ≤ 57)) = true := by
    intro c hc
    simp only [Char.isDigit, Bool.and_eq_true, decide_eq_true_eq] at hc
    have h48 : 48 ≤ c.val.toNat := UInt32.le_iff_toNat_le.mp hc.1
    have h57 : c.val.toNat ≤ 57 := UInt32.le_iff_toNat_le.mp hc.2
    have hmod : c.toNat % 256 = c.toNat := Nat.mod_eq_of_lt (by change c.val.toNat < 256; omega)
    simp only [hmod, Bool.or_eq_true, Bool.and_eq_true, decide_eq_true_eq]
    exact .inr ⟨h48, h57⟩
  rw [checkPriceChar, List.all_eq_true]
  intro c hc
  rcases hcases with ⟨-, rfl⟩ | rfl
  · exact hdigit c (List.all_eq_true.mp hdi c hc)
  · rcases List.mem_append.mp hc with hc | hc
    · exact hdigit c (List.all_eq_true.mp hdi c hc)
    · rcases List.mem_cons.mp hc with rfl | hc
      · rfl
      · exact hdigit c (List.all_eq_true.mp hdf c hc)

theorem indexOfPoint_digits {ip : List Char} (hd : ip.all Char.isDigit) : indexOfPoint ip = -1 := by
  rw [indexOfPoint, idxOf?_digits hd]

theorem indexOfPoint_point {ip : List Char} (hd : ip.all Char.isDigit) (fp : List Char) :
    indexOfPoint (ip ++ '.' :: fp) = ip.length := by
  rw [indexOfPoint, idxOf?_point hd]

/-- What `ValidPrice` accepts after the fork: a positive plain decimal with at most twelve
integer and twelve fraction digits. -/
theorem split_of_ValidPrice {price : List Char} (h : ValidPrice price true = true) :
    ∃ ip fp, splitDecimal price = some (ip, fp) ∧ ip.length ≤ priceIntMaxLen ∧
      fp.length ≤ priceDecimalMaxLen ∧ 0 < decimalValue ip fp := by
  unfold ValidPrice at h
  split at h
  · cases h
  split at h
  · cases h
  rename_i pr hpf
  obtain ⟨ip, fp, hsplit, rfl⟩ := ParseFloat_eq_some hpf
  obtain ⟨hdi, hdf, hcases⟩ := splitDecimal_eq_some hsplit
  split_ifs at h with hpos
  simp only at h
  split_ifs at h with hidx hfrac hnone
  have hv : 0 < decimalValue ip fp := by
    rcases (decimalValue_nonneg ip fp).lt_or_eq with hv | hv
    · exact hv
    · rw [← hv, BinaryFloat.roundBinary64_zero] at hpos
      exact absurd le_rfl hpos
  refine ⟨ip, fp, hsplit, ?_, ?_, hv⟩
  all_goals rcases hcases with ⟨rfl, rfl⟩ | rfl
  · rw [indexOfPoint_digits hdi] at hnone
    simpa using hnone
  · rw [indexOfPoint_point hdi] at hidx
    exact_mod_cast not_lt.mp hidx
  · simp [priceDecimalMaxLen]
  · rw [indexOfPoint_point hdi] at hfrac
    simp only [List.length_append, List.length_cons, priceDecimalMaxLen] at hfrac ⊢
    omega

theorem ten_pow_le_two_pow (n : ℕ) : (10 : ℚ) ^ n ≤ 2 ^ (4 * n) := by
  rw [pow_mul]
  exact pow_le_pow_left₀ (by norm_num) (by norm_num) n

theorem ValidPrice_of_split {price ip fp : List Char} (h : splitDecimal price = some (ip, fp))
    (hip : ip.length ≤ priceIntMaxLen) (hfp : fp.length ≤ priceDecimalMaxLen)
    (hv : 0 < decimalValue ip fp) : ValidPrice price true = true := by
  obtain ⟨hdi, hdf, hcases⟩ := splitDecimal_eq_some h
  simp only [priceIntMaxLen, priceDecimalMaxLen] at hip hfp
  -- the value lies in [10 ^ -12, 10 ^ 12], inside the normal binary64 range
  have hlo : (2 : ℚ) ^ (-1074 : ℤ) ≤ decimalValue ip fp := by
    have hpow : (10 : ℚ) ^ fp.length ≤ 2 ^ 1074 :=
      (ten_pow_le_two_pow _).trans (pow_le_pow_right₀ (by norm_num) (by omega))
    calc (2 : ℚ) ^ (-1074 : ℤ) = 1 / 2 ^ 1074 := by rw [zpow_neg, one_div, ← zpow_natCast]; rfl
      _ ≤ 1 / 10 ^ fp.length := one_div_le_one_div_of_le (by positivity) hpow
      _ ≤ decimalValue ip fp := one_div_le_decimalValue hv
  have hhi : decimalValue ip fp < 2 ^ 1023 := by
    have hint : (digitsValue ip : ℚ) + 1 ≤ 10 ^ 12 := by
      have := lt_of_lt_of_le (digitsValue_lt hdi) (Nat.pow_le_pow_right (by norm_num) hip)
      exact_mod_cast this
    calc decimalValue ip fp < digitsValue ip + 1 := decimalValue_lt hdf
      _ ≤ 10 ^ 12 := hint
      _ ≤ 2 ^ 48 := ten_pow_le_two_pow 12
      _ < 2 ^ 1023 := pow_lt_pow_right₀ (by norm_num) (by norm_num)
  have hne : price.length ≠ 0 := by
    intro h0
    rw [List.length_eq_zero_iff.mp h0] at h
    cases h
  unfold ValidPrice
  rw [if_neg hne, ParseFloat_of_split h hlo hhi]
  simp only
  rw [if_neg (not_le.mpr (BinaryFloat.roundBinary64_pos hlo)), checkPriceChar_of_split h]
  rcases hcases with ⟨rfl, rfl⟩ | rfl
  · rw [indexOfPoint_digits hdi]
    simp [priceIntMaxLen]
    omega
  · rw [indexOfPoint_point hdi]
    simp [priceIntMaxLen, priceDecimalMaxLen]
    omega

theorem ValidPrice_iff {price : List Char} :
    ValidPrice price true = true ↔
      ∃ ip fp, splitDecimal price = some (ip, fp) ∧ ip.length ≤ priceIntMaxLen ∧
        fp.length ≤ priceDecimalMaxLen ∧ 0 < decimalValue ip fp :=
  ⟨split_of_ValidPrice, fun ⟨_, _, h, hip, hfp, hv⟩ => ValidPrice_of_split h hip hfp hv⟩

theorem priceValue_eq_units (priceBytes : List UInt8) :
    priceValue priceBytes = priceUnits priceBytes / 10 ^ priceDecimalMaxLen := by
  rw [priceValue, priceUnits]
  push_cast
  field_simp

theorem fiveBytes_of_length {src : List UInt8} (h : src.length = 5) : fiveBytes src = src := by
  simp [fiveBytes, h]

theorem priceIntPart_append {a : ℕ} (b : ℕ) (ha : a < 256 ^ 5) :
    priceIntPart (toBytesBE 5 a ++ toBytesBE 5 b) = a := by
  rw [priceIntPart, List.take_left' (length_toBytesBE 5 a), beValue_toBytesBE, Nat.mod_eq_of_lt ha]

theorem priceDecimalPart_append (a : ℕ) {b : ℕ} (hb : b < 256 ^ 5) :
    priceDecimalPart (toBytesBE 5 a ++ toBytesBE 5 b) = b := by
  rw [priceDecimalPart, List.drop_left' (length_toBytesBE 5 a),
    fiveBytes_of_length (length_toBytesBE 5 b), beValue_toBytesBE, Nat.mod_eq_of_lt hb]

/-- Well-formed prices compare as the numbers they stand for: integer parts first, then the
fractions, each five big-endian bytes. -/
theorem compare_of_wellFormed {a b : List UInt8} (ha : WellFormedPrice a) (hb : WellFormedPrice b) :
    compare a b = compare (priceUnits a) (priceUnits b) := by
  have hla := ha.length_eq
  have hlb := hb.length_eq
  simp only [PriceBytesLength] at hla hlb
  have hda := ha.decimal_lt
  have hdb := hb.decimal_lt
  rw [priceDecimalPart, fiveBytes_of_length (by simp [hla])] at hda
  rw [priceDecimalPart, fiveBytes_of_length (by simp [hlb])] at hdb
  conv_lhs => rw [← List.take_append_drop 5 a, ← List.take_append_drop 5 b]
  rw [compare_append_of_length_eq _ _ (by simp [hla, hlb]),
    compare_eq_compare_beValue (by simp [hla, hlb]), compare_eq_compare_beValue (by simp [hla, hlb]),
    priceUnits, priceUnits, priceIntPart, priceIntPart, priceDecimalPart, priceDecimalPart,
    fiveBytes_of_length (by simp [hla]), fiveBytes_of_length (by simp [hlb])]
  exact (compare_mul_add hda hdb).symm

/-- The fraction digits right-padded to twelve are worth less than `10 ^ 12`. -/
theorem padded_lt {fp : List Char} (hd : fp.all Char.isDigit) (hlen : fp.length ≤ priceDecimalMaxLen) :
    digitsValue fp * 10 ^ (priceDecimalMaxLen - fp.length) < 10 ^ priceDecimalMaxLen := by
  have hlt := digitsValue_lt hd
  calc digitsValue fp * 10 ^ (priceDecimalMaxLen - fp.length)
      < 10 ^ fp.length * 10 ^ (priceDecimalMaxLen - fp.length) :=
        Nat.mul_lt_mul_of_pos_right hlt (by positivity)
    _ = 10 ^ priceDecimalMaxLen := by rw [← pow_add, Nat.add_sub_cancel' hlen]

/-- What `PriceToBytes` writes for a price `ValidPrice` accepts: its integer digits and its
fraction in units of `10 ^ -12`, each in five bytes. -/
theorem PriceToBytes_of_ValidPrice {price : List Char} (h : ValidPrice price true = true) :
    WellFormedPrice (PriceToBytes price) ∧ priceValue (PriceToBytes price) = decimalOf price := by
  obtain ⟨ip, fp, hsplit, hip, hfp, -⟩ := split_of_ValidPrice h
  obtain ⟨hdi, hdf, -⟩ := splitDecimal_eq_some hsplit
  -- 10 ^ 12 < 2 ^ 40: both parts fit their five bytes
  have h40 : (10 : ℕ) ^ 12 < 256 ^ 5 := by norm_num
  have hint : digitsValue ip < 256 ^ 5 :=
    lt_of_lt_of_le (digitsValue_lt hdi) ((Nat.pow_le_pow_right (by norm_num) hip).trans h40.le)
  have hdec := padded_lt hdf hfp
  have hdec40 := hdec.trans h40
  rw [PriceToBytes_eq hsplit hip hfp]
  refine ⟨⟨by simp [PriceBytesLength], ?_⟩, ?_⟩
  · rw [priceDecimalPart_append _ hdec40]
    exact hdec
  · have hof : decimalOf price = decimalValue ip fp := by simp only [decimalOf, hsplit]
    rw [priceValue, priceIntPart_append _ hint, priceDecimalPart_append _ hdec40, hof, decimalValue]
    have hsplit10 : (10 : ℚ) ^ priceDecimalMaxLen =
        10 ^ fp.length * 10 ^ (priceDecimalMaxLen - fp.length) := by
      rw [← pow_add, Nat.add_sub_cancel' hfp]
    push_cast
    rw [hsplit10, mul_div_mul_right _ _ (by positivity)]

/-- `BytesToPrice` prints every well-formed price, and `big.Float` reads the print back as the
price rounded once. -/
theorem setString_of_wellFormed (prec : ℕ) {priceBytes : List UInt8} (h : WellFormedPrice priceBytes) :
    ∃ s, BytesToPrice priceBytes = some s ∧
      BigFloat.setString prec s = some (BinaryFloat.round prec (priceValue priceBytes)) := by
  have hprint : ∃ s, BytesToPrice priceBytes = some s := by
    have hlen : ¬priceBytes.length < 5 := by
      rw [h.length_eq, PriceBytesLength]
      omega
    have hdigits : ¬priceDecimalMaxLen < (FormatUint (priceDecimalPart priceBytes)).length :=
      not_lt.mpr ((length_FormatUint_le_iff (by decide)).mpr h.decimal_lt)
    unfold BytesToPrice
    simp only [if_neg hlen, if_neg hdigits]
    split <;> exact ⟨_, rfl⟩
  obtain ⟨s, hs⟩ := hprint
  exact ⟨s, hs, setString_BytesToPrice prec hs⟩

theorem Itoa_of_nonneg {v : ℤ} (h : 0 ≤ v) : Itoa v = FormatUint v.natAbs := by
  rw [Itoa, if_neg (not_lt.mpr h)]

/-- A fee rate below `10 ^ 6` prints as `rate / 100000` exactly, and `big.Float` reads it back
rounded once. -/
theorem setString_CardinalRateToString (prec : ℕ) {rate : ℤ} (h0 : 0 < rate) (h1 : rate < 10 ^ 6) :
    BigFloat.setString prec (CardinalRateToString rate) =
      some (BinaryFloat.round prec (rate / 100000)) := by
  have hcard : Itoa RateCardinalNum = "100000".toList := by decide
  have hdigits := all_isDigit_FormatUint rate.natAbs
  have hval := digitsValue_FormatUint rate.natAbs
  have hrate : ((rate.natAbs : ℕ) : ℚ) = rate := by
    rw [Nat.cast_natAbs, abs_of_pos h0]
  have hlen : (FormatUint rate.natAbs).length ≤ 6 :=
    (length_FormatUint_le_iff (by norm_num)).mpr (by omega)
  have hcl : "100000".toList.length = 6 := rfl
  have hsub : ∀ t : List Char, (∀ c ∈ t, c ∈ FormatUint rate.natAbs) → t.all Char.isDigit := by
    intro t ht
    exact List.all_eq_true.mpr fun c hc => List.all_eq_true.mp hdigits c (ht c hc)
  simp only [CardinalRateToString, Itoa_of_nonneg h0.le, hcard, hcl]
  split
  · -- six digits: the first is the integer part
    rename_i h6
    set str := FormatUint rate.natAbs
    have h6' : str.length = 6 := by omega
    have htake : (str.drop 1).take 5 = str.drop 1 := List.take_of_length_le (by simp [h6'])
    rw [h6', show 6 - 6 + 1 = 1 from rfl, show 6 - 1 = 5 from rfl, htake]
    have hip : str.take 1 ≠ [] := by simp [← List.length_pos_iff, h6']
    have hfp5 : (str.drop 1).length = 5 := by simp [h6']
    rw [BigFloat.setString_eq prec (splitDecimal_point hip
      (hsub _ fun c hc => List.mem_of_mem_take hc) (hsub _ fun c hc => List.mem_of_mem_drop hc))
      (by omega)]
    have hsplit := digitsValue_append (str.take 1) (str.drop 1)
    rw [List.take_append_drop, hfp5, hval] at hsplit
    rw [decimalValue, hfp5, ← hrate, hsplit]
    push_cast
    norm_num [add_div]
  · -- fewer digits: "0." and the rate left-padded to five places
    rename_i h6
    set str := FormatUint rate.natAbs
    have hfp5 : (List.replicate (6 - str.length - 1) '0' ++ str).length = 5 := by
      simp only [List.length_append, List.length_replicate]
      omega
    have hfp : (List.replicate (6 - str.length - 1) '0' ++ str).all Char.isDigit := by
      rw [List.all_append, all_isDigit_replicate_zero, hdigits]
      rfl
    rw [show '0' :: '.' :: (List.replicate (6 - str.length - 1) '0' ++ str) =
      ['0'] ++ '.' :: (List.replicate (6 - str.length - 1) '0' ++ str) from rfl,
      BigFloat.setString_eq prec (splitDecimal_point (by simp) (by decide) hfp) (by omega),
      decimalValue, hfp5, digitsValue_zeros_append, hval, hrate]
    have hzero : digitsValue ['0'] = 0 := by decide
    rw [hzero]
    norm_num

example : ValidPrice "0.5".toList true = true :=
  ValidPrice_iff.mpr ⟨"0".toList, "5".toList, by decide, by decide, by decide, by
    rw [decimalValue, show digitsValue "5".toList = 5 by decide]
    positivity⟩

/-! ## The codec round trip -/

/-- The twelve digits `BytesToPrice` prints for the fraction `PriceToBytes` wrote are the fraction
digits, right-padded with zeros. -/
theorem padded_FormatUint {fp : List Char} (hd : fp.all Char.isDigit)
    (hlen : fp.length ≤ priceDecimalMaxLen) :
    List.replicate (priceDecimalMaxLen -
        (FormatUint (digitsValue fp * 10 ^ (priceDecimalMaxLen - fp.length))).length) '0' ++
      FormatUint (digitsValue fp * 10 ^ (priceDecimalMaxLen - fp.length)) =
      fp ++ List.replicate (priceDecimalMaxLen - fp.length) '0' := by
  have hprint : (FormatUint (digitsValue fp * 10 ^ (priceDecimalMaxLen - fp.length))).length ≤
      priceDecimalMaxLen := (length_FormatUint_le_iff (by decide)).mpr (padded_lt hd hlen)
  apply eq_of_digitsValue_eq
  · rw [List.all_append, all_isDigit_replicate_zero, all_isDigit_FormatUint]
    rfl
  · rw [List.all_append, hd, all_isDigit_replicate_zero]
    rfl
  · simp only [List.length_append, List.length_replicate]
    omega
  · rw [digitsValue_zeros_append, digitsValue_FormatUint, digitsValue_append_zeros]

/-- The integer part `BytesToPrice` prints: the integer digits without their leading zeros, or
`0`. -/
theorem intStr_digitsValue {ip : List Char} (hd : ip.all Char.isDigit) :
    (if digitsValue ip = 0 then ['0'] else FormatUint (digitsValue ip)) =
      if ip.dropWhile (· = '0') = [] then ['0'] else ip.dropWhile (· = '0') := by
  by_cases h0 : digitsValue ip = 0
  · have hnil : ip.dropWhile (· = '0') = [] := by
      rw [List.dropWhile_eq_nil_iff]
      intro c hc
      simpa using eq_zero_of_digitsValue_eq_zero hd h0 c hc
    rw [if_pos h0, if_pos hnil]
  · have hne : ip.dropWhile (· = '0') ≠ [] := by
      rw [← FormatUint_digitsValue_dropWhile hd h0]
      exact Nat.toDigits_ne_nil
    rw [if_neg h0, if_neg hne, FormatUint_digitsValue_dropWhile hd h0]

/-- `BytesToPrice` prints what `PriceToBytes` wrote for a plain decimal of at most twelve integer
and twelve fraction digits in its canonical form. -/
theorem BytesToPrice_PriceToBytes {price ip fp : List Char} (hsplit : splitDecimal price = some (ip, fp))
    (hip : ip.length ≤ priceIntMaxLen) (hfp : fp.length ≤ priceDecimalMaxLen) :
    BytesToPrice (PriceToBytes price) = some (canonicalDecimal ip fp) := by
  obtain ⟨hdi, hdf, -⟩ := splitDecimal_eq_some hsplit
  have h40 : (10 : ℕ) ^ 12 < 256 ^ 5 := by norm_num
  have hint : digitsValue ip < 256 ^ 5 :=
    lt_of_lt_of_le (digitsValue_lt hdi) ((Nat.pow_le_pow_right (by norm_num) hip).trans h40.le)
  have hdec := padded_lt hdf hfp
  rw [PriceToBytes_eq hsplit hip hfp]
  unfold BytesToPrice
  rw [if_neg (by simp), priceIntPart_append _ hint, priceDecimalPart_append _ (hdec.trans h40)]
  simp only [intStr_digitsValue hdi, canonicalDecimal]
  rw [padded_FormatUint hdf hfp]
  have hprint : ¬priceDecimalMaxLen <
      (FormatUint (digitsValue fp * 10 ^ (priceDecimalMaxLen - fp.length))).length :=
    not_lt.mpr ((length_FormatUint_le_iff (by decide)).mpr hdec)
  by_cases hD : digitsValue fp * 10 ^ (priceDecimalMaxLen - fp.length) = 0
  -- a zero fraction prints no point
  · have hv : digitsValue fp = 0 := (Nat.mul_eq_zero.mp hD).resolve_right (by positivity)
    have hnil : fp.rdropWhile (· = '0') = [] := by
      rw [List.rdropWhile_eq_nil_iff]
      intro c hc
      simpa using eq_zero_of_digitsValue_eq_zero hdf hv c hc
    rw [if_pos hD, if_pos hnil, List.append_nil]
  · have hne : fp.rdropWhile (· = '0') ≠ [] := by
      intro hnil
      apply hD
      have hzero : ∀ c ∈ fp, c = '0' := by simpa using List.rdropWhile_eq_nil_iff.mp hnil
      rw [List.eq_replicate_iff.mpr ⟨rfl, hzero⟩, digitsValue_replicate_zero, zero_mul]
    have htake := take_trailingZeros (fp ++ List.replicate (priceDecimalMaxLen - fp.length) '0')
    have hlen12 : (fp ++ List.replicate (priceDecimalMaxLen - fp.length) '0').length =
        priceDecimalMaxLen := by
      simp only [List.length_append, List.length_replicate]
      omega
    rw [hlen12, rdropWhile_append_zeros] at htake
    rw [if_neg hD, if_neg hprint, if_neg hne, htake]

/-- Ten bytes whose two halves are below `10 ^ 12` are what `PriceToBytes` writes for their
print. -/
theorem PriceToBytes_BytesToPrice {priceBytes : List UInt8}
    (hlen : priceBytes.length = PriceBytesLength)
    (hint : priceIntPart priceBytes < 10 ^ priceIntMaxLen)
    (hdec : priceDecimalPart priceBytes < 10 ^ priceDecimalMaxLen) :
    (BytesToPrice priceBytes).map PriceToBytes = some priceBytes := by
  obtain ⟨s, hs, -⟩ := setString_of_wellFormed 0 ⟨hlen, hdec⟩
  obtain ⟨fp, hsplit, hfp, hval⟩ := splitDecimal_BytesToPrice hs
  have hip : (FormatUint (priceIntPart priceBytes)).length ≤ priceIntMaxLen :=
    (length_FormatUint_le_iff (by decide)).mpr hint
  rw [hs, Option.map_some, PriceToBytes_eq hsplit hip hfp, digitsValue_FormatUint, hval]
  -- the two halves, each read and written back
  have h10 : priceBytes.length = 10 := hlen
  have htake : toBytesBE 5 (priceIntPart priceBytes) = priceBytes.take 5 := by
    have hround := toBytesBE_beValue (priceBytes.take 5)
    rwa [List.length_take, h10] at hround
  have hdrop : toBytesBE 5 (priceDecimalPart priceBytes) = priceBytes.drop 5 := by
    have hround := toBytesBE_beValue (priceBytes.drop 5)
    rw [List.length_drop, h10] at hround
    rwa [priceDecimalPart, fiveBytes_of_length (by simp [h10])]
  rw [htake, hdrop, List.take_append_drop]

theorem price_codec_round_trip :
    (∀ price, ValidPrice price true = true → ∃ ip fp, splitDecimal price = some (ip, fp) ∧
      BytesToPrice (PriceToBytes price) = some (canonicalDecimal ip fp) ∧
      decimalOf (canonicalDecimal ip fp) = decimalOf price) ∧
    (∀ priceBytes : List UInt8, priceBytes.length = PriceBytesLength →
      priceIntPart priceBytes < 10 ^ priceIntMaxLen → priceDecimalPart priceBytes < 10 ^ priceDecimalMaxLen →
      (BytesToPrice priceBytes).map PriceToBytes = some priceBytes) ∧
    (∀ p q, ValidPrice p true = true → ValidPrice q true = true → decimalOf p < decimalOf q →
      compare (PriceToBytes p) (PriceToBytes q) = .lt) := by
  refine ⟨fun price h => ?_, fun priceBytes => PriceToBytes_BytesToPrice, fun p q hp hq hlt => ?_⟩
  · obtain ⟨ip, fp, hsplit, hip, hfp, -⟩ := split_of_ValidPrice h
    have hprint := BytesToPrice_PriceToBytes hsplit hip hfp
    refine ⟨ip, fp, hsplit, hprint, ?_⟩
    rw [decimalOf_BytesToPrice hprint]
    exact (PriceToBytes_of_ValidPrice h).2
  · -- the bytes compare as the units they stand for, and the units as the values
    obtain ⟨hwp, hvp⟩ := PriceToBytes_of_ValidPrice hp
    obtain ⟨hwq, hvq⟩ := PriceToBytes_of_ValidPrice hq
    rw [compare_of_wellFormed hwp hwq, Nat.compare_eq_lt]
    rw [← hvp, ← hvq, priceValue_eq_units, priceValue_eq_units] at hlt
    have hunits := (div_lt_div_iff_of_pos_right (by positivity)).mp hlt
    exact_mod_cast hunits

theorem price_codec_round_trip_sample :
    ValidPrice ['0', '1', '.', '5', '0'] true = true ∧
      BytesToPrice (PriceToBytes ['0', '1', '.', '5', '0']) = some ['1', '.', '5'] := by
  have hvalid : ValidPrice ['0', '1', '.', '5', '0'] true = true := by decide +kernel
  obtain ⟨ip, fp, hsplit, hprint, -⟩ := price_codec_round_trip.1 _ hvalid
  have hparts : splitDecimal ['0', '1', '.', '5', '0'] = some (['0', '1'], ['5', '0']) := by decide
  rw [hparts, Option.some.injEq, Prod.mk.injEq] at hsplit
  obtain ⟨rfl, rfl⟩ := hsplit
  refine ⟨hvalid, hprint.trans ?_⟩
  decide

end Vite.Dex
