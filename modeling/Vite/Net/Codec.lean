import Mathlib
import Vite.Lib.BigEndian
import Vite.Lib.ExceptRun

/-!
# Message framing over TCP (net/codec.go)

`WriteMsg` writes a message as a head, the meta byte, the code, the id and the payload length,
then the payload, compressed with snappy where that makes it shorter. The meta byte holds the
sizes of the id and of the length in two bits each, and the compression flag. `ReadMsg` reads a
frame back.

A payload of at most `maxPayloadSize` bytes after compression round-trips: `WriteMsg` writes a
frame, and `ReadMsg` on it, whatever follows, returns the message and what follows
(`ReadMsg_WriteMsg`). `WriteMsg` never checks that bound. A longer payload has a length of four
bytes, which does not fit the two bits of the meta byte and sets a bit of the id size instead, and
with a four-byte id it does not fit the nine bytes of the head buffer: `WriteMsg` panics, or writes
a frame that `ReadMsg` reads as another message (`WriteMsg_over_maxPayloadSize`).
-/

namespace Vite.Net

open BigEndian

abbrev Code := UInt8
abbrev MsgId := UInt32

/-- `Msg` as the codec writes and reads it; the peer sets `ReceivedAt` and `Sender`. -/
structure Msg where
  Code : Code
  Id : MsgId
  Payload : List UInt8
  deriving DecidableEq, Repr

def maxPayloadLength : ℕ := 3
def maxPayloadSize : ℕ := 2 ^ (maxPayloadLength * 8) - 1

/-- The snappy block format as the codec uses it: `Encode`, `Decode` (with `DecodedLen`), which
reads back what `Encode` writes, and `MaxEncodedLen`, negative for a source too long to encode. -/
structure Snappy where
  Encode : List UInt8 → List UInt8
  Decode : List UInt8 → Option (List UInt8)
  MaxEncodedLen : ℕ → ℤ
  Decode_Encode : ∀ src, Decode (Encode src) = some src

/-- Snappy as the identity, enough for a payload sent uncompressed. -/
def identitySnappy : Snappy := ⟨id, some, fun _ => 0, fun _ => rfl⟩

/-! ## The head -/

def idLengthToBits (idLength : UInt8) : UInt8 := if idLength = 4 then 3 else idLength

def bitsToIdLength (bits : UInt8) : UInt8 := if bits = 3 then 4 else bits

/-- `putId`: the bytes it writes into `buf`, as many as it returns. -/
def putId (id : MsgId) : List UInt8 :=
  if id = 0 then []
  else if id > 65535 then [(id >>> 24).toUInt8, (id >>> 16).toUInt8, (id >>> 8).toUInt8, id.toUInt8]
  else if id > 255 then [(id >>> 8).toUInt8, id.toUInt8]
  else [id.toUInt8]

def retrieveMeta (metaByte : UInt8) : UInt8 × UInt8 × Bool :=
  (bitsToIdLength (metaByte >>> 6), metaByte <<< 2 >>> 6, metaByte <<< 4 >>> 7 > 0)

def storeMeta (isize lsize : UInt8) (compressed : Bool) : UInt8 :=
  let metaByte := idLengthToBits isize <<< 6 ||| lsize <<< 4
  if compressed then metaByte ||| 8 else metaByte

/-- `Varint`: each byte ORed in at its big-endian place. A `uint` holds the eight bytes it is ever
given without overflow. -/
def Varint (buf : List UInt8) : ℕ :=
  (List.range buf.length).foldl (fun n i => n ||| (buf.getD i 0).toNat <<< ((buf.length - i - 1) * 8)) 0

/-- The loop `for m = 1; (n >> uint(m*8)) > 0; m++` of `PutVarint`, which ends by eight bytes. -/
def putVarintSize (n : ℕ) : ℕ → ℕ → ℕ
  | 0, m => m
  | fuel + 1, m => if n >>> (m * 8) > 0 then putVarintSize n fuel (m + 1) else m

/-- `PutVarint`: the bytes it writes into `buf`, as many as it returns. -/
def PutVarint (n : ℕ) : List UInt8 :=
  if n = 0 then []
  else
    let m := putVarintSize n 7 1
    (List.range m).map fun i => (n >>> ((m - i - 1) * 8)).toUInt8

/-! ## Writing and reading -/

/-- The "compress payload" block of `WriteMsg`: the payload to send and whether it is compressed,
or `none` where slicing `writeBuf` to a negative `MaxEncodedLen` panics. -/
def compressPayload (sn : Snappy) (minCompressLength : ℤ) (payload : List UInt8) :
    Option (List UInt8 × Bool) :=
  if (payload.length : ℤ) > minCompressLength then
    if sn.MaxEncodedLen payload.length < 0 then none
    else
      let payloadCompressed := sn.Encode payload
      -- kept only if smaller after compression
      if payloadCompressed.length < payload.length then some (payloadCompressed, true) else some (payload, false)
  else some (payload, false)

/-- `WriteMsg` on a connection that takes every byte: the frame it writes, or `none` where it
panics, `PutVarint` writing past the nine bytes of `writeHeadBuf`. -/
def WriteMsg (sn : Snappy) (minCompressLength : ℤ) (msg : Msg) : Option (List UInt8) := do
  let idBuf := putId msg.Id
  let headLen := 2 + idBuf.length
  let (payload, compress) ← compressPayload sn minCompressLength msg.Payload
  let lenBuf := PutVarint payload.length
  if headLen + lenBuf.length > 9 then none
  pure ([storeMeta idBuf.length.toUInt8 lenBuf.length.toUInt8 compress, msg.Code] ++ idBuf ++ lenBuf ++ payload)

/-- Where `ReadMsg` fails: the stream ends in the meta and code, the id, the length or the payload,
the length is over `maxPayloadSize`, or snappy cannot decode the payload. -/
inductive ReadError where
  | head
  | id
  | length
  | payloadTooLarge
  | payload
  | decode
  deriving DecidableEq, Repr

/-- `io.ReadFull` of `n` bytes of the stream `s`: they and the rest, or `none` where it ends first. -/
def readFull (n : ℕ) (s : List UInt8) : Option (List UInt8 × List UInt8) :=
  if n ≤ s.length then some (s.take n, s.drop n) else none

/-- The "retrieve id" block of `ReadMsg`. -/
def readId (isize : UInt8) (s : List UInt8) : Except ReadError (MsgId × List UInt8) :=
  if isize > 0 then
    match readFull isize.toNat s with
    | none => .error .id
    | some (buf, s) => .ok ((Varint buf).toUInt32, s)
  else .ok (0, s)

/-- The "retrieve payload" block of `ReadMsg`: no length read, no payload, the nil slice. -/
def readPayload (lsize : UInt8) (s : List UInt8) : Except ReadError (List UInt8 × List UInt8) :=
  if lsize > 0 then
    match readFull lsize.toNat s with
    | none => .error .length
    | some (buf, s) =>
      if Varint buf > maxPayloadSize then .error .payloadTooLarge
      else
        match readFull (Varint buf) s with
        | none => .error .payload
        | some (payload, s) => .ok (payload, s)
  else .ok ([], s)

/-- The "compressed" block of `ReadMsg`. -/
def decompress (sn : Snappy) (compressed : Bool) (payload : List UInt8) : Except ReadError (List UInt8) :=
  if compressed then
    match sn.Decode payload with
    | none => .error .decode
    | some payloadUncompressed => .ok payloadUncompressed
  else .ok payload

/-- `ReadMsg` on the stream `s`: the message and the rest of the stream. -/
def ReadMsg (sn : Snappy) (s : List UInt8) : Except ReadError (Msg × List UInt8) :=
  match readFull 2 s with
  | none => .error .head
  | some (head, s) =>
    let (isize, lsize, compressed) := retrieveMeta (head.getD 0 0)
    do
      let (id, s) ← readId isize s
      let (payload, s) ← readPayload lsize s
      let payload ← decompress sn compressed payload
      pure (⟨head.getD 1 0, id, payload⟩, s)

/-! ## The head round-trips -/

/-- The meta byte gives back the sizes and the flag stored in it, for an id of 0, 1, 2 or 4 bytes
and a length of at most 3. -/
theorem retrieveMeta_storeMeta {isize : ℕ} (hi : isize ∈ [0, 1, 2, 4]) {lsize : ℕ} (hl : lsize < 4) (c : Bool) :
    retrieveMeta (storeMeta isize.toUInt8 lsize.toUInt8 c) = (isize.toUInt8, lsize.toUInt8, c) := by
  have key : ∀ i ∈ [0, 1, 2, 4], ∀ l < 4, ∀ c : Bool,
      retrieveMeta (storeMeta (Nat.toUInt8 i) (Nat.toUInt8 l) c) = (i.toUInt8, l.toUInt8, c) := by
    decide
  exact key isize hi lsize hl c

/-- A length of four bytes sets a bit of the id size and leaves no length. -/
theorem retrieveMeta_storeMeta_four {isize : ℕ} (hi : isize ∈ [0, 1, 2]) :
    (retrieveMeta (storeMeta isize.toUInt8 4 false)).2 = (0, false) := by
  have key : ∀ i ∈ [0, 1, 2], (retrieveMeta (storeMeta (Nat.toUInt8 i) 4 false)).2 = (0, false) := by
    decide
  exact key isize hi

theorem beValue_append_singleton (l : List UInt8) (b : UInt8) : beValue (l ++ [b]) = beValue l * 256 + b.toNat := by
  induction l with
  | nil => simp [beValue]
  | cons a l ih =>
    rw [List.cons_append, beValue, ih, beValue, List.length_append, List.length_singleton, pow_succ]
    ring

/-- `Varint` reads a byte list as a big-endian number. -/
theorem Varint_eq_beValue (buf : List UInt8) : Varint buf = beValue buf := by
  -- the first `k` bytes ORed in are the value of `buf.take k`, shifted past the bytes left
  have hprefix : ∀ k ≤ buf.length, (List.range k).foldl
      (fun n i => n ||| (buf.getD i 0).toNat <<< ((buf.length - i - 1) * 8)) 0 =
        beValue (buf.take k) <<< ((buf.length - k) * 8) := by
    intro k
    induction k with
    | zero => simp [beValue]
    | succ k ih =>
      intro hk
      have hb : (buf.getD k 0).toNat < 2 ^ 8 := (buf.getD k 0).toNat_lt
      have htake : buf.take (k + 1) = buf.take k ++ [buf.getD k 0] := by
        rw [List.take_add_one, List.getElem?_eq_getElem (by omega), List.getD_eq_getElem _ _ (by omega)]
        rfl
      rw [List.range_succ, List.foldl_append, ih (by omega), List.foldl_cons, List.foldl_nil, htake,
        beValue_append_singleton, show (buf.length - k) * 8 = 8 + (buf.length - k - 1) * 8 by omega,
        Nat.shiftLeft_add, ← Nat.shiftLeft_or_distrib, ← Nat.shiftLeft_add_eq_or_of_lt hb,
        Nat.shiftLeft_eq (beValue (buf.take k)) 8, show (buf.length - (k + 1)) = buf.length - k - 1 by omega]
  rw [Varint, hprefix buf.length le_rfl, List.take_length, Nat.sub_self, Nat.zero_mul, Nat.shiftLeft_zero]

theorem Varint_toBytesBE (m n : ℕ) : Varint (toBytesBE m n) = n % 256 ^ m := by
  rw [Varint_eq_beValue, beValue_toBytesBE]

theorem toNat_toUInt8_shiftRight (id : MsgId) {k : UInt32} (hk : k.toNat < 32) :
    ((id >>> k).toUInt8).toNat = id.toNat / 2 ^ k.toNat % 256 := by
  simp [UInt32.toNat_toUInt8, UInt32.toNat_shiftRight, Nat.shiftRight_eq_div_pow, Nat.mod_eq_of_lt hk]

/-- `putId` writes 0, 1, 2 or 4 bytes, as few as hold the id, and `Varint` reads the id back. -/
theorem putId_spec (id : MsgId) :
    (putId id).length ∈ [0, 1, 2, 4] ∧ Varint (putId id) = id.toNat ∧ (putId id = [] ↔ id = 0) ∧
      (id ≤ 65535 → (putId id).length ≤ 2) ∧ (65535 < id → (putId id).length = 4) := by
  have hlt := id.toNat_lt
  have h24 : ((id >>> 24).toUInt8).toNat = id.toNat / 2 ^ 24 % 256 := toNat_toUInt8_shiftRight id (by decide)
  have h16 : ((id >>> 16).toUInt8).toNat = id.toNat / 2 ^ 16 % 256 := toNat_toUInt8_shiftRight id (by decide)
  have h8 : ((id >>> 8).toUInt8).toNat = id.toNat / 2 ^ 8 % 256 := toNat_toUInt8_shiftRight id (by decide)
  have h0 : id.toUInt8.toNat = id.toNat % 256 := by simp [UInt32.toNat_toUInt8]
  have hle : id ≤ 65535 ↔ id.toNat ≤ 65535 := UInt32.le_iff_toNat_le
  unfold putId
  by_cases hz : id = 0
  · subst hz
    simp [Varint]
  · have hz' : id.toNat ≠ 0 := fun h => hz (UInt32.toNat_inj.mp h)
    rw [if_neg hz]
    by_cases hbig : id > 65535
    · -- four bytes
      have hbig' : 65535 < id.toNat := UInt32.lt_iff_toNat_lt.mp hbig
      rw [if_pos hbig, Varint_eq_beValue]
      refine ⟨by simp, ?_, by simp [hz], fun h => absurd (hle.mp h) (by omega), fun _ => rfl⟩
      simp only [beValue, List.length_cons, List.length_nil, h24, h16, h8, h0]
      omega
    · have hbig' : id.toNat ≤ 65535 := Nat.le_of_not_lt fun h => hbig (UInt32.lt_iff_toNat_lt.mpr h)
      rw [if_neg hbig]
      by_cases hmid : id > 255
      · -- two bytes
        have hmid' : 255 < id.toNat := UInt32.lt_iff_toNat_lt.mp hmid
        rw [if_pos hmid, Varint_eq_beValue]
        refine ⟨by simp, ?_, by simp [hz], fun _ => by simp, fun h => absurd h hbig⟩
        simp only [beValue, List.length_cons, List.length_nil, h8, h0]
        omega
      · -- one byte
        have hmid' : id.toNat ≤ 255 := Nat.le_of_not_lt fun h => hmid (UInt32.lt_iff_toNat_lt.mpr h)
        rw [if_neg hmid, Varint_eq_beValue]
        refine ⟨by simp, ?_, by simp [hz], fun _ => by simp, fun h => absurd h hbig⟩
        simp only [beValue, List.length_nil, h0]
        omega

theorem pow_shift_eq (j : ℕ) : 2 ^ (j * 8) = 256 ^ j := by
  rw [pow_mul']
  norm_num

/-- The loop of `PutVarint` stops at the number of bytes that hold `n`. -/
theorem putVarintSize_eq {n m : ℕ} (hlo : 256 ^ (m - 1) ≤ n) (hhi : n < 256 ^ m) :
    ∀ fuel j, 1 ≤ j → j ≤ m → m ≤ j + fuel → putVarintSize n fuel j = m := by
  intro fuel
  induction fuel with
  | zero =>
    intro j _ hjm hmj
    unfold putVarintSize
    omega
  | succ fuel ih =>
    intro j hj hjm hmj
    unfold putVarintSize
    rw [Nat.shiftRight_eq_div_pow, pow_shift_eq]
    by_cases hjm' : j < m
    · -- `n` has a byte above the first `j`
      have hle : 256 ^ j ≤ n := le_trans (Nat.pow_le_pow_right (by norm_num) (by omega)) hlo
      rw [if_pos (Nat.div_pos hle (by positivity))]
      exact ih (j + 1) (by omega) hjm' (by omega)
    · have hj' : j = m := by omega
      subst hj'
      rw [if_neg (by rw [Nat.div_eq_of_lt hhi]; exact Nat.lt_irrefl 0)]

theorem map_range_shiftRight (n : ℕ) :
    ∀ m, (List.range m).map (fun i => (n >>> ((m - i - 1) * 8)).toUInt8) = toBytesBE m n := by
  intro m
  induction m with
  | zero => rfl
  | succ m ih =>
    have hhead : (n >>> ((m + 1 - 0 - 1) * 8)).toUInt8 = UInt8.ofNat (n / 256 ^ m % 256) := by
      apply UInt8.toNat_inj.mp
      simp [Nat.toUInt8, Nat.shiftRight_eq_div_pow, pow_shift_eq]
    have htail : (List.range m).map (fun i => (n >>> ((m + 1 - (i + 1) - 1) * 8)).toUInt8) =
        (List.range m).map (fun i => (n >>> ((m - i - 1) * 8)).toUInt8) :=
      List.map_congr_left fun i _ => by rw [show m + 1 - (i + 1) - 1 = m - i - 1 by omega]
    rw [List.range_succ_eq_map, List.map_cons, List.map_map, hhead, toBytesBE]
    exact congrArg _ (htail.trans ih)

/-- `PutVarint` writes the big-endian bytes of `n`, as many as hold it. -/
theorem PutVarint_spec {n m : ℕ} (hm : 1 ≤ m) (hm8 : m ≤ 8) (hlo : 256 ^ (m - 1) ≤ n) (hhi : n < 256 ^ m) :
    PutVarint n = toBytesBE m n := by
  have hn : n ≠ 0 := fun h => by
    have := Nat.one_le_pow (m - 1) 256 (by norm_num)
    omega
  rw [PutVarint, if_neg hn]
  dsimp only
  rw [putVarintSize_eq hlo hhi 7 1 le_rfl hm (by omega), map_range_shiftRight]

/-- A length of at most `maxPayloadSize` takes at most three bytes, none for `0`, and reads back. -/
theorem PutVarint_le_maxPayloadSize {n : ℕ} (hn : n ≤ maxPayloadSize) :
    (PutVarint n).length < 4 ∧ ((PutVarint n).length = 0 ↔ n = 0) ∧ Varint (PutVarint n) = n := by
  have hmax : maxPayloadSize = 2 ^ 24 - 1 := rfl
  rcases Nat.eq_zero_or_pos n with rfl | hpos
  · simp [PutVarint, Varint]
  · obtain ⟨m, hm, hm3, hlo, hhi⟩ : ∃ m, 1 ≤ m ∧ m ≤ 3 ∧ 256 ^ (m - 1) ≤ n ∧ n < 256 ^ m := by
      by_cases h1 : n < 256
      · exact ⟨1, le_rfl, by norm_num, by norm_num; omega, by norm_num; omega⟩
      · by_cases h2 : n < 65536
        · exact ⟨2, by norm_num, by norm_num, by norm_num; omega, by norm_num; omega⟩
        · exact ⟨3, by norm_num, le_rfl, by norm_num; omega, by norm_num; omega⟩
    rw [PutVarint_spec hm (by omega) hlo hhi, length_toBytesBE, Varint_toBytesBE, Nat.mod_eq_of_lt hhi]
    omega

/-- A length of 2^24 to 2^32 - 1 takes four bytes. -/
theorem length_PutVarint_of_ge {n : ℕ} (hlo : 2 ^ 24 ≤ n) (hhi : n < 2 ^ 32) : (PutVarint n).length = 4 := by
  rw [PutVarint_spec (m := 4) (by norm_num) (by norm_num) (by norm_num; omega) (by norm_num; omega),
    length_toBytesBE]

/-! ## Frames round-trip -/

theorem readFull_append {n : ℕ} {b : List UInt8} (hb : b.length = n) (s : List UInt8) :
    readFull n (b ++ s) = some (b, s) := by
  subst hb
  simp [readFull]

theorem toNat_length_toUInt8 {l : List UInt8} (h : l.length < 256) : l.length.toUInt8.toNat = l.length := by
  simp [Nat.toUInt8, Nat.mod_eq_of_lt h]

/-- `ReadMsg` reads back the id `putId` wrote. -/
theorem readId_putId (id : MsgId) (s : List UInt8) :
    readId (putId id).length.toUInt8 (putId id ++ s) = .ok (id, s) := by
  obtain ⟨hlen, hval, hnil, -, -⟩ := putId_spec id
  have hsmall : (putId id).length < 256 := by
    simp only [List.mem_cons, List.not_mem_nil, or_false] at hlen
    omega
  unfold readId
  by_cases hz : id = 0
  · rw [hnil.mpr hz, hz]
    rfl
  · have hpos : (putId id).length ≠ 0 := fun h => hz (hnil.mp (List.eq_nil_of_length_eq_zero h))
    rw [if_pos (UInt8.lt_iff_toNat_lt.mpr (by rw [toNat_length_toUInt8 hsmall]; simp; omega)),
      toNat_length_toUInt8 hsmall, readFull_append rfl]
    simp [hval]

/-- `ReadMsg` reads back a payload of at most `maxPayloadSize` bytes after its length. -/
theorem readPayload_PutVarint {p : List UInt8} (hp : p.length ≤ maxPayloadSize) (s : List UInt8) :
    readPayload (PutVarint p.length).length.toUInt8 (PutVarint p.length ++ p ++ s) = .ok (p, s) := by
  obtain ⟨hlt, hzero, hval⟩ := PutVarint_le_maxPayloadSize hp
  have hsmall : (PutVarint p.length).length < 256 := by omega
  unfold readPayload
  by_cases h0 : p.length = 0
  · -- no length and no payload: the nil slice
    obtain rfl := List.eq_nil_of_length_eq_zero h0
    rw [List.eq_nil_of_length_eq_zero (hzero.mpr h0)]
    rfl
  · rw [if_pos (UInt8.lt_iff_toNat_lt.mpr (by rw [toNat_length_toUInt8 hsmall]; simp; omega)),
      toNat_length_toUInt8 hsmall, List.append_assoc, readFull_append rfl]
    dsimp only
    rw [hval, if_neg (by omega), readFull_append rfl]

/-- What `WriteMsg` compressed, `ReadMsg` decompresses. -/
theorem decompress_compressPayload {sn : Snappy} {minCompressLength : ℤ} {payload q : List UInt8} {c : Bool}
    (h : compressPayload sn minCompressLength payload = some (q, c)) : decompress sn c q = .ok payload := by
  unfold compressPayload at h
  dsimp only at h
  split_ifs at h
  · cases h
    simp [decompress, sn.Decode_Encode]
  · cases h
    rfl
  · cases h
    rfl

/-- The frame `WriteMsg` writes for a payload it sends with at most `maxPayloadSize` bytes. -/
theorem WriteMsg_eq {sn : Snappy} {minCompressLength : ℤ} {msg : Msg} {q : List UInt8} {c : Bool}
    (hc : compressPayload sn minCompressLength msg.Payload = some (q, c)) (hq : q.length ≤ maxPayloadSize) :
    WriteMsg sn minCompressLength msg = some ([storeMeta (putId msg.Id).length.toUInt8
      (PutVarint q.length).length.toUInt8 c, msg.Code] ++ putId msg.Id ++ PutVarint q.length ++ q) := by
  obtain ⟨hlen, -, -, -, -⟩ := putId_spec msg.Id
  obtain ⟨hlt, -, -⟩ := PutVarint_le_maxPayloadSize hq
  have hfit : ¬ 2 + (putId msg.Id).length + (PutVarint q.length).length > 9 := by
    simp only [List.mem_cons, List.not_mem_nil, or_false] at hlen
    omega
  simp only [WriteMsg, hc, Option.bind_eq_bind, Option.bind_some, if_neg hfit]
  rfl

/-- A message whose payload, compressed or not, has at most `maxPayloadSize` bytes: `WriteMsg`
writes a frame, and `ReadMsg` on it, whatever follows, returns the message and what follows. -/
theorem ReadMsg_WriteMsg (sn : Snappy) (minCompressLength : ℤ) (msg : Msg) {q : List UInt8} {c : Bool}
    (hc : compressPayload sn minCompressLength msg.Payload = some (q, c)) (hq : q.length ≤ maxPayloadSize) :
    ∃ frame, WriteMsg sn minCompressLength msg = some frame ∧ ∀ rest, ReadMsg sn (frame ++ rest) = .ok (msg, rest) := by
  refine ⟨_, WriteMsg_eq hc hq, fun rest => ?_⟩
  obtain ⟨hlen, -, -, -, -⟩ := putId_spec msg.Id
  obtain ⟨hlt, -, -⟩ := PutVarint_le_maxPayloadSize hq
  have hhead := retrieveMeta_storeMeta hlen hlt c
  have hframe : [storeMeta (putId msg.Id).length.toUInt8 (PutVarint q.length).length.toUInt8 c, msg.Code] ++
      putId msg.Id ++ PutVarint q.length ++ q ++ rest =
      [storeMeta (putId msg.Id).length.toUInt8 (PutVarint q.length).length.toUInt8 c, msg.Code] ++
      (putId msg.Id ++ (PutVarint q.length ++ q ++ rest)) := by
    simp only [List.append_assoc]
  rw [hframe, ReadMsg, readFull_append (n := 2) (b := [_, msg.Code]) rfl]
  simp only [List.getD_cons_zero, List.getD_cons_succ, hhead, readId_putId, readPayload_PutVarint hq,
    decompress_compressPayload hc, Except.ok_bind]
  rfl

theorem ReadMsg_WriteMsg_hello :
    compressPayload identitySnappy 100 [104, 105] = some ([104, 105], false) ∧
      ([104, 105] : List UInt8).length ≤ maxPayloadSize ∧
      ∃ frame, WriteMsg identitySnappy 100 ⟨1, 7, [104, 105]⟩ = some frame ∧
        ∀ rest, ReadMsg identitySnappy (frame ++ rest) = .ok (⟨1, 7, [104, 105]⟩, rest) :=
  ⟨rfl, by decide, ReadMsg_WriteMsg identitySnappy 100 ⟨1, 7, [104, 105]⟩ rfl (by decide)⟩

/-! ## Payloads over `maxPayloadSize` -/

/-- A meta byte whose length size reads as zero and whose flag is clear: every message `ReadMsg`
returns from such a frame has the nil payload. -/
theorem ReadMsg_payload_nil {sn : Snappy} {a b : UInt8} {t rest : List UInt8} {m : Msg}
    (hmeta : (retrieveMeta a).2 = (0, false)) (h : ReadMsg sn (a :: b :: t) = .ok (m, rest)) :
    m.Payload = [] := by
  have hhead : readFull 2 (a :: b :: t) = some ([a, b], t) := readFull_append (b := [a, b]) rfl t
  rcases hr : retrieveMeta a with ⟨isize, lsize, c⟩
  obtain ⟨rfl, rfl⟩ : lsize = 0 ∧ c = false := by simpa [hr] using hmeta
  rw [ReadMsg, hhead] at h
  simp only [List.getD_cons_zero, List.getD_cons_succ, hr] at h
  -- whatever id the head announces, no length follows it
  rcases hid : readId isize t with e | ⟨id, s⟩
  · simp [hid] at h
  · simp only [hid, Except.ok_bind] at h
    have hpay : readPayload 0 s = .ok ([], s) := rfl
    simp only [hpay, Except.ok_bind, decompress, Bool.false_eq_true, if_false, Except.pure_eq_ok,
      Except.ok.injEq, Prod.mk.injEq] at h
    rw [← h.1]

/-- A message whose payload is sent uncompressed with 2^24 to 2^32 - 1 bytes: with an id over 65535
`WriteMsg` panics, and with a smaller id it writes a frame from which `ReadMsg` does not read the
message back. -/
theorem WriteMsg_over_maxPayloadSize (sn : Snappy) {minCompressLength : ℤ} {msg : Msg}
    (hlen : maxPayloadSize < msg.Payload.length) (hlt : msg.Payload.length < 2 ^ 32)
    (hmcl : (msg.Payload.length : ℤ) ≤ minCompressLength) :
    (65535 < msg.Id → WriteMsg sn minCompressLength msg = none) ∧
    (msg.Id ≤ 65535 → ∃ frame, WriteMsg sn minCompressLength msg = some frame ∧
      ∀ rest, ReadMsg sn (frame ++ rest) ≠ .ok (msg, rest)) := by
  have hmax : maxPayloadSize = 2 ^ 24 - 1 := rfl
  have hc : compressPayload sn minCompressLength msg.Payload = some (msg.Payload, false) := by
    rw [compressPayload, if_neg (not_lt.mpr hmcl)]
  have hfour : (PutVarint msg.Payload.length).length = 4 := length_PutVarint_of_ge (by omega) hlt
  obtain ⟨hmem, -, -, hsmall, hbig⟩ := putId_spec msg.Id
  simp only [WriteMsg, hc, Option.bind_eq_bind, Option.bind_some, hfour]
  refine ⟨fun hid => ?_, fun hid => ?_⟩
  · -- a four-byte id and a four-byte length: ten bytes of head
    rw [if_pos (by rw [hbig hid]; norm_num)]
    rfl
  · have hid2 := hsmall hid
    refine ⟨_, if_neg (by omega), fun rest h => ?_⟩
    have hmeta : (retrieveMeta (storeMeta (putId msg.Id).length.toUInt8 (4 : ℕ).toUInt8 false)).2 =
        (0, false) := by
      refine retrieveMeta_storeMeta_four ?_
      simp only [List.mem_cons, List.not_mem_nil, or_false] at hmem ⊢
      omega
    have hnil := ReadMsg_payload_nil hmeta (by simpa only [hfour, List.append_assoc, List.cons_append, List.nil_append] using h)
    rw [hnil] at hlen
    simp at hlen


def bigPayload : List UInt8 := List.replicate (2 ^ 24) 0

theorem WriteMsg_over_maxPayloadSize_bigPayload :
    WriteMsg identitySnappy (2 ^ 24) ⟨0, 65536, bigPayload⟩ = none ∧
    ∃ frame, WriteMsg identitySnappy (2 ^ 24) ⟨0, 1, bigPayload⟩ = some frame ∧
      ∀ rest, ReadMsg identitySnappy (frame ++ rest) ≠ .ok (⟨0, 1, bigPayload⟩, rest) := by
  have hlen : maxPayloadSize < bigPayload.length := by
    rw [bigPayload, List.length_replicate]
    decide
  have hlt : bigPayload.length < 2 ^ 32 := by
    rw [bigPayload, List.length_replicate]
    norm_num
  have hmcl : (bigPayload.length : ℤ) ≤ 2 ^ 24 := by
    rw [bigPayload, List.length_replicate]
    norm_num
  exact ⟨(@WriteMsg_over_maxPayloadSize identitySnappy _ ⟨0, 65536, bigPayload⟩ hlen hlt hmcl).1 (by decide),
    (@WriteMsg_over_maxPayloadSize identitySnappy _ ⟨0, 1, bigPayload⟩ hlen hlt hmcl).2 (by decide)⟩

end Vite.Net
