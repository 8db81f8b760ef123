import Mathlib

/-!
# The protocol buffers wire format, for lengths

A message is written field after field in the order of their numbers: a key, the field number and
the wire type in one varint, then the value: a varint for the integer types (`varintField`), left
out at the default `0` in proto3, and a length varint and the bytes for `bytes` (`bytesField`). `putUvarint` writes seven bits a byte, low
bits first, with the top bit set on every byte but the last.

What these lemmas give is lengths: a value below `2^7` takes one byte (`length_uvarint_of_lt`),
every value at least one (`length_uvarint_pos`), so a field of a small number takes its value's
bytes and two more (`length_bytesField`).
-/

namespace Protobuf

/-- The varint of `v` in at most `fuel` bytes; ten hold a 64-bit value. -/
def putUvarint : ℕ → ℕ → List UInt8
  | 0, _ => []
  | fuel + 1, v => if v < 128 then [v.toUInt8] else (v % 128 + 128).toUInt8 :: putUvarint fuel (v / 128)

/-- The varint of a 64-bit value. -/
def uvarint (v : ℕ) : List UInt8 := putUvarint 10 v

def wireVarint : ℕ := 0
def wireBytes : ℕ := 2

/-- The key of field `field` of wire type `wire`. -/
def key (field wire : ℕ) : List UInt8 := uvarint (field * 8 + wire)

/-- A proto3 integer or `bool` field, left out at its default `0`. -/
def varintField (field v : ℕ) : List UInt8 := if v = 0 then [] else key field wireVarint ++ uvarint v

/-- An element of a repeated `bytes` field, written even when empty. -/
def bytesField (field : ℕ) (b : List UInt8) : List UInt8 := key field wireBytes ++ uvarint b.length ++ b

theorem length_uvarint_of_lt {v : ℕ} (h : v < 128) : (uvarint v).length = 1 := by
  simp [uvarint, putUvarint, h]

theorem length_uvarint_pos (v : ℕ) : 0 < (uvarint v).length := by
  unfold uvarint putUvarint
  split_ifs <;> simp

/-- A field of a number below 16 holding fewer than `2^7` bytes takes them and two bytes more. -/
theorem length_bytesField {field : ℕ} (hf : field < 16) {b : List UInt8} (hb : b.length < 128) :
    (bytesField field b).length = b.length + 2 := by
  have hkey : (key field wireBytes).length = 1 := length_uvarint_of_lt (by unfold wireBytes; omega)
  rw [bytesField, List.length_append, List.length_append, hkey, length_uvarint_of_lt hb]
  omega

end Protobuf
