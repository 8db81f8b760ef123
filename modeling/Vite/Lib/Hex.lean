import Mathlib.Data.List.Basic
import Vite.Lib.ExceptRun

/-!
# Hexadecimal text of bytes (Go's `encoding/hex`)

`EncodeToString` writes each byte as two lowercase digits, high half first; `DecodeString` reads
the digits back two at a time, either case, and fails on a byte that is no digit or on a digit
left alone at the end. Text is a list of bytes, as a Go string is.

Decoding what was encoded gives the bytes back (`DecodeString_EncodeToString`), and text that
decodes is the encoding of what it decodes to, up to the case of its letters
(`EncodeToString_of_DecodeString`).
-/

namespace Hex

/-- `hextable`, `"0123456789abcdef"`. -/
def hextable : List UInt8 := [48, 49, 50, 51, 52, 53, 54, 55, 56, 57, 97, 98, 99, 100, 101, 102]

def EncodeToString (src : List UInt8) : List UInt8 :=
  src.flatMap fun v : UInt8 => [hextable[(v >>> 4).toNat]!, hextable[(v &&& 0x0f).toNat]!]

/-- `fromHexChar`: the value of a digit of either case. -/
def fromHexChar (c : UInt8) : Option UInt8 :=
  if 48 ≤ c ∧ c ≤ 57 then some (c - 48)
  else if 97 ≤ c ∧ c ≤ 102 then some (c - 97 + 10)
  else if 65 ≤ c ∧ c ≤ 70 then some (c - 65 + 10)
  else none

inductive Error where
  /-- `InvalidByteError`: `encoding/hex: invalid byte: %#U`. -/
  | InvalidByteError (b : UInt8)
  /-- `ErrLength`: `encoding/hex: odd length hex string`. -/
  | ErrLength
  deriving DecidableEq, Repr

/-- `DecodeString`: pairs of digits, then a check of a digit left alone. -/
def DecodeString : List UInt8 → Except Error (List UInt8)
  | [] => .ok []
  | [p] =>
    match fromHexChar p with
    | none => .error (.InvalidByteError p)
    | some _ => .error .ErrLength
  | p :: q :: rest =>
    match fromHexChar p, fromHexChar q with
    | none, _ => .error (.InvalidByteError p)
    | some _, none => .error (.InvalidByteError q)
    | some a, some b => (DecodeString rest).map (((a <<< 4) ||| b) :: ·)

/-- ASCII lowercase. -/
def toLower (c : UInt8) : UInt8 := if 65 ≤ c ∧ c ≤ 90 then c + 32 else c

/-! ## One byte

A byte is its two halves, each below sixteen; the facts about digits are checked once over the
sixteen values of a half, or once over every byte read as a digit. -/

theorem toNat_shiftRight_four (v : UInt8) : (v >>> 4).toNat = v.toNat / 16 := by
  rw [UInt8.toNat_shiftRight, Nat.shiftRight_eq_div_pow]
  rfl

theorem toNat_and_fifteen (v : UInt8) : (v &&& 0x0f).toNat = v.toNat % 16 := by
  rw [UInt8.toNat_and]
  exact Nat.and_two_pow_sub_one_eq_mod v.toNat 4

theorem toNat_shiftRight_four_lt (v : UInt8) : (v >>> 4).toNat < 16 := by
  have h := v.toNat_lt
  rw [toNat_shiftRight_four]
  omega

theorem toNat_and_fifteen_lt (v : UInt8) : (v &&& 0x0f).toNat < 16 := by
  rw [toNat_and_fifteen]
  omega

/-- Two halves below sixteen make the byte `16 * a + b`. -/
theorem toNat_pack_ofNat : ∀ a < 16, ∀ b < 16, ((UInt8.ofNat a <<< 4) ||| UInt8.ofNat b).toNat = 16 * a + b := by
  decide

theorem toNat_pack {a b : UInt8} (ha : a.toNat < 16) (hb : b.toNat < 16) :
    ((a <<< 4) ||| b).toNat = 16 * a.toNat + b.toNat := by
  have h := toNat_pack_ofNat a.toNat ha b.toNat hb
  rwa [UInt8.ofNat_toNat, UInt8.ofNat_toNat] at h

theorem fromHexChar_hextable_ofNat : ∀ n < 16, fromHexChar hextable[n]! = some (UInt8.ofNat n) := by
  decide

theorem fromHexChar_hextable_high (v : UInt8) : fromHexChar hextable[(v >>> 4).toNat]! = some (v >>> 4) := by
  have h := fromHexChar_hextable_ofNat (v >>> 4).toNat (toNat_shiftRight_four_lt v)
  rwa [UInt8.ofNat_toNat] at h

theorem fromHexChar_hextable_low (v : UInt8) : fromHexChar hextable[(v &&& 0x0f).toNat]! = some (v &&& 0x0f) := by
  have h := fromHexChar_hextable_ofNat (v &&& 0x0f).toNat (toNat_and_fifteen_lt v)
  rwa [UInt8.ofNat_toNat] at h

theorem halves (v : UInt8) : ((v >>> 4) <<< 4) ||| (v &&& 0x0f) = v := by
  apply UInt8.toNat_inj.mp
  rw [toNat_pack (toNat_shiftRight_four_lt v) (toNat_and_fifteen_lt v), toNat_shiftRight_four,
    toNat_and_fifteen]
  omega

/-- What a digit reads as, every byte checked. -/
def DigitSpec (p : UInt8) : Prop :=
  match fromHexChar p with
  | some a => a.toNat < 16 ∧ hextable[a.toNat]! = toLower p
  | none => True

instance (p : UInt8) : Decidable (DigitSpec p) :=
  match h : fromHexChar p with
  | some a => decidable_of_iff (a.toNat < 16 ∧ hextable[a.toNat]! = toLower p) (by simp [DigitSpec, h])
  | none => isTrue (by simp [DigitSpec, h])

set_option maxRecDepth 4000 in
theorem fromHexChar_toLower_ofNat : ∀ n < 256, fromHexChar (toLower (UInt8.ofNat n)) = fromHexChar (UInt8.ofNat n) := by
  decide

/-- A letter reads as the same digit in either case. -/
theorem fromHexChar_toLower (c : UInt8) : fromHexChar (toLower c) = fromHexChar c := by
  have h := fromHexChar_toLower_ofNat c.toNat c.toNat_lt
  rwa [UInt8.ofNat_toNat] at h

set_option maxRecDepth 4000 in
theorem digitSpec_ofNat : ∀ n < 256, DigitSpec (UInt8.ofNat n) := by
  decide

/-- A digit read as `a` is written back as `a`'s digit, in lowercase. -/
theorem digitSpec (p : UInt8) : DigitSpec p := by
  have h := digitSpec_ofNat p.toNat p.toNat_lt
  rwa [UInt8.ofNat_toNat] at h

theorem shiftRight_pack {a b : UInt8} (ha : a.toNat < 16) (hb : b.toNat < 16) : ((a <<< 4) ||| b) >>> 4 = a := by
  apply UInt8.toNat_inj.mp
  rw [toNat_shiftRight_four, toNat_pack ha hb]
  omega

theorem and_pack {a b : UInt8} (ha : a.toNat < 16) (hb : b.toNat < 16) : ((a <<< 4) ||| b) &&& 0x0f = b := by
  apply UInt8.toNat_inj.mp
  rw [toNat_and_fifteen, toNat_pack ha hb]
  omega

/-! ## Text -/

@[simp] theorem EncodeToString_cons (v : UInt8) (src : List UInt8) :
    EncodeToString (v :: src) = hextable[(v >>> 4).toNat]! :: hextable[(v &&& 0x0f).toNat]! :: EncodeToString src := by
  simp [EncodeToString]

@[simp] theorem length_EncodeToString (src : List UInt8) : (EncodeToString src).length = 2 * src.length := by
  induction src with
  | nil => simp [EncodeToString]
  | cons v src ih =>
    rw [EncodeToString_cons, List.length_cons, List.length_cons, ih, List.length_cons]
    omega

/-- Text that decodes has two digits for each byte. -/
theorem length_of_DecodeString : ∀ {s b : List UInt8}, DecodeString s = .ok b → s.length = 2 * b.length
  | [], b, h => by
    cases h
    rfl
  | [p], b, h => by
    unfold DecodeString at h
    split at h <;> cases h
  | p :: q :: rest, b, h => by
    unfold DecodeString at h
    rcases hp : fromHexChar p with _ | a <;> rcases hq : fromHexChar q with _ | c <;>
      simp only [hp, hq] at h
    · cases h
    · cases h
    · cases h
    obtain ⟨b', hb', rfl⟩ := Except.map_eq_ok.mp h
    rw [List.length_cons, List.length_cons, List.length_cons, length_of_DecodeString hb']
    omega

theorem DecodeString_EncodeToString (src : List UInt8) : DecodeString (EncodeToString src) = .ok src := by
  induction src with
  | nil => simp [EncodeToString, DecodeString]
  | cons v src ih =>
    rw [EncodeToString_cons, DecodeString, fromHexChar_hextable_high, fromHexChar_hextable_low]
    dsimp only
    rw [ih, halves]
    rfl

/-- Text that decodes is the encoding of its bytes, its letters in lowercase. -/
theorem EncodeToString_of_DecodeString : ∀ {s b : List UInt8}, DecodeString s = .ok b →
    EncodeToString b = s.map toLower
  | [], b, h => by
    cases h
    rfl
  | [p], b, h => by
    unfold DecodeString at h
    split at h <;> cases h
  | p :: q :: rest, b, h => by
    unfold DecodeString at h
    have dp := digitSpec p
    have dq := digitSpec q
    unfold DigitSpec at dp dq
    rcases hp : fromHexChar p with _ | a <;> rcases hq : fromHexChar q with _ | c <;>
      simp only [hp, hq] at h dp dq
    · cases h
    · cases h
    · cases h
    obtain ⟨b', hb', rfl⟩ := Except.map_eq_ok.mp h
    rw [EncodeToString_cons, shiftRight_pack dp.1 dq.1, and_pack dp.1 dq.1, dp.2, dq.2,
      EncodeToString_of_DecodeString hb']
    rfl

/-- Text whose letters, lowered, spell the encoding of `b` decodes to `b`. -/
theorem DecodeString_of_map_toLower : ∀ {s : List UInt8} {b : List UInt8}, s.map toLower = EncodeToString b →
    DecodeString s = .ok b
  | s, [], h => by
    rw [List.map_eq_nil_iff.mp (h.trans (by simp [EncodeToString]))]
    rfl
  | s, v :: b, h => by
    rw [EncodeToString_cons] at h
    obtain ⟨p, s', rfl, hp, h'⟩ := List.map_eq_cons_iff.mp h
    obtain ⟨q, rest, rfl, hq, hrest⟩ := List.map_eq_cons_iff.mp h'
    have hp' : fromHexChar p = some (v >>> 4) := by
      rw [← fromHexChar_toLower, hp, fromHexChar_hextable_high]
    have hq' : fromHexChar q = some (v &&& 0x0f) := by
      rw [← fromHexChar_toLower, hq, fromHexChar_hextable_low]
    rw [DecodeString, hp', hq']
    dsimp only
    rw [DecodeString_of_map_toLower hrest, halves]
    rfl

/-- What `DecodeString` accepts, and what it reads: exactly the encodings, in either case. -/
theorem DecodeString_eq_ok_iff {s b : List UInt8} : DecodeString s = .ok b ↔ EncodeToString b = s.map toLower :=
  ⟨EncodeToString_of_DecodeString, fun h => DecodeString_of_map_toLower h.symm⟩

end Hex
