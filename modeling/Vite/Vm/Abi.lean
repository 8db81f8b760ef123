import Vite.Vm.Instructions
import Vite.Lib.BigEndian

/-!
# The ABI codec

`Arguments.Pack` (vm/abi/argument.go) lays a list of values out as the contract ABI does: one
32-byte word per argument (one per element for a static array, inlined), and each string, bytes
or slice behind an offset into a tail after the words. `Arguments.UnpackValues` reads them back
with `toGoType`, following the offsets with `lengthPrefixPointsTo`.

A Go value is one of four shapes here: an integer (a machine integer or a `*big.Int`), a bool, a
byte string (a `string`, a `[]byte`, or a fixed-size byte array such as an `Address`) or a list
of values (a slice or an array). Integers are written in 256-bit two's complement by `U256`; an
integer type of 8, 16, 32 or 64 bits is read back in its width, signed or not, but any other width
is a `*big.Int`, which `readInteger` reads with `SetBytes`, that is, unsigned. So a negative value
of such a type comes back as itself plus `2^256`.

The input is taken with a capacity equal to its length, so that a slice past its end is the
panic `AbiError.panicked`.
-/

namespace Vite.Abi

open BigEndian Vite.Vm

/-- The `T` of a `Type`, with what `NewType` gives each kind: the width of an integer, the
element and length of an array, the element of a slice, the length of fixed bytes. -/
inductive Ty where
  | IntTy (size : ℕ)
  | UintTy (size : ℕ)
  | BoolTy
  | StringTy
  | SliceTy (elem : Ty)
  | ArrayTy (elem : Ty) (size : ℕ)
  | AddressTy
  | GidTy
  | TokenIdTy
  | FixedBytesTy (size : ℕ)
  | BytesTy
  deriving DecidableEq, Repr

/-- A Go value as the codec sees it. -/
inductive Value where
  | int (v : ℤ)
  | bool (b : Bool)
  | bytes (bs : List UInt8)
  | list (vs : List Value)
  deriving Repr

mutual
/-- Equality of values, through their lists. -/
def Value.decEq : (a b : Value) → Decidable (a = b)
  | .int a, .int b => decidable_of_iff (a = b) (by simp)
  | .bool a, .bool b => decidable_of_iff (a = b) (by simp)
  | .bytes a, .bytes b => decidable_of_iff (a = b) (by simp)
  | .list a, .list b =>
    match Value.decEqList a b with
    | isTrue h => isTrue (by rw [h])
    | isFalse h => isFalse (by simpa using h)
  | .int _, .bool _ | .int _, .bytes _ | .int _, .list _ => isFalse Value.noConfusion
  | .bool _, .int _ | .bool _, .bytes _ | .bool _, .list _ => isFalse Value.noConfusion
  | .bytes _, .int _ | .bytes _, .bool _ | .bytes _, .list _ => isFalse Value.noConfusion
  | .list _, .int _ | .list _, .bool _ | .list _, .bytes _ => isFalse Value.noConfusion

def Value.decEqList : (a b : List Value) → Decidable (a = b)
  | [], [] => isTrue rfl
  | [], _ :: _ => isFalse (by simp)
  | _ :: _, [] => isFalse (by simp)
  | x :: xs, y :: ys =>
    match Value.decEq x y, Value.decEqList xs ys with
    | isTrue h, isTrue h' => isTrue (by rw [h, h'])
    | isFalse h, _ => isFalse (by simp [h])
    | _, isFalse h' => isFalse (by simp [h'])
end

instance : DecidableEq Value := Value.decEq

inductive AbiError where
  | errType
  | errPackFailed
  | errArgLengthMismatch
  | errInsufficientLength
  | errBadBool
  | errArrayOffsetOverflow
  | errBigSliceOffsetOverflow
  | errBigOffsetOverflow
  | errBigLengthOverflow
  | errInsufficientBigLength
  /-- a Go run-time panic: a slice past its capacity, or an array too large to allocate -/
  | panicked
  deriving DecidableEq, Repr

/-- `types.AddressSize`. -/
def AddressSize : ℕ := 21

/-- `types.GidSize`. -/
def GidSize : ℕ := 10

/-- `types.TokenTypeIdSize`. -/
def TokenTypeIdSize : ℕ := 10

/-- `reflectIntKindAndType`: the widths with a Go machine integer type; every other width is a
`*big.Int`. -/
def isNative (size : ℕ) : Bool := size = 8 || size = 16 || size = 32 || size = 64

def Ty.requiresLengthPrefix : Ty → Bool
  | .StringTy | .BytesTy | .SliceTy _ => true
  | _ => false

/-! ## Packing -/

def RightPadBytes (slice : List UInt8) (l : ℕ) : List UInt8 :=
  if l ≤ slice.length then slice else slice ++ List.replicate (l - slice.length) 0

def LeftPadBytes (slice : List UInt8) (l : ℕ) : List UInt8 :=
  if l ≤ slice.length then slice else List.replicate (l - slice.length) 0 ++ slice

/-- `U256(n)`: `PaddedBigBytes(helper.U256(n), 32)`, the 32-byte word of `n` in 256-bit two's
complement. -/
def U256 (n : ℤ) : List UInt8 := toBytesBE WordSize (n % 2 ^ 256).toNat

/-- `packNum`, of any Go integer. -/
def packNum (n : ℤ) : List UInt8 := U256 n

/-- `packBytesSlice(bytes, l)`: the count `l`, then the bytes padded to whole words. -/
def packBytesSlice (bytes : List UInt8) (l : ℕ) : List UInt8 :=
  packNum l ++ RightPadBytes bytes ((l + WordSize - 1) / WordSize * WordSize)

def packElement : Ty → Value → Except AbiError (List UInt8)
  | .IntTy _, .int v | .UintTy _, .int v => .ok (packNum v)
  | .StringTy, .bytes bs => .ok (packBytesSlice bs bs.length)
  | .AddressTy, .bytes bs | .GidTy, .bytes bs | .TokenIdTy, .bytes bs =>
    .ok (LeftPadBytes bs WordSize)
  | .BoolTy, .bool b => .ok (toBytesBE WordSize (if b then 1 else 0))
  | .BytesTy, .bytes bs => .ok (packBytesSlice bs bs.length)
  | .FixedBytesTy _, .bytes bs => .ok (RightPadBytes bs WordSize)
  | _, _ => .error .errPackFailed

/-- `typeCheck` on the shape of the value: an array has its length, fixed bytes theirs; an
address, gid or token id is not checked here. -/
def typeCheck : Ty → Value → Except AbiError Unit
  | .SliceTy _, .list _ => .ok ()
  | .ArrayTy _ n, .list vs => if vs.length = n then .ok () else .error .errType
  | .IntTy _, .int _ | .UintTy _, .int _ | .BoolTy, .bool _ => .ok ()
  | .StringTy, .bytes _ | .BytesTy, .bytes _ => .ok ()
  | .AddressTy, _ | .GidTy, _ | .TokenIdTy, _ => .ok ()
  | .FixedBytesTy n, .bytes bs => if bs.length = n then .ok () else .error .errType
  | _, _ => .error .errType

/-- `Type.pack`: the elements of a slice or array packed one after the other, a slice behind its
count. -/
def Ty.pack : Ty → Value → Except AbiError (List UInt8)
  | .SliceTy e, .list vs => do
    let packed ← vs.mapM e.pack
    pure (packBytesSlice packed.flatten vs.length)
  | .ArrayTy e n, .list vs => do
    typeCheck (.ArrayTy e n) (.list vs)
    let packed ← vs.mapM e.pack
    pure packed.flatten
  | t, v => do
    typeCheck t v
    packElement t v

/-- The words an argument takes in the head. -/
def Ty.headWords : Ty → ℕ
  | .ArrayTy _ n => n
  | _ => 1

/-- The loop of `Pack`: the head so far, and the variable input that follows it. -/
def packArgs (inputOffset : ℕ) :
    List Ty → List Value → List UInt8 → List UInt8 → Except AbiError (List UInt8)
  | t :: ts, v :: vs, ret, variableInput => do
    let packed ← t.pack v
    if t.requiresLengthPrefix then
      let offset := inputOffset + variableInput.length
      packArgs inputOffset ts vs (ret ++ packNum offset) (variableInput ++ packed)
    else packArgs inputOffset ts vs (ret ++ packed) variableInput
  | _, _, ret, variableInput => .ok (ret ++ variableInput)

/-- `Arguments.Pack`. -/
def Pack (args : List Ty) (vals : List Value) : Except AbiError (List UInt8) :=
  if vals.length ≠ args.length then .error .errArgLengthMismatch
  else packArgs ((args.map fun t => WordSize * t.headWords).sum) args vals [] []

/-! ## Unpacking -/

/-- `output[start:end]`. -/
def slice (output : List UInt8) (start stop : ℕ) : List UInt8 := (output.drop start).take (stop - start)

/-- `readInteger` by the kind `NewType` gave the type: the last `size / 8` bytes of the word in a
machine integer, signed for an `int`; the whole word by `SetBytes` for a `*big.Int`. -/
def readInteger (signed : Bool) (size : ℕ) (b : List UInt8) : ℤ :=
  if isNative size then
    let u := beValue (b.drop (b.length - size / 8))
    if signed ∧ 2 ^ (size - 1) ≤ u then u - 2 ^ size else u
  else beValue b

def readBool (word : List UInt8) : Except AbiError Bool :=
  if (word.take 31).all (· = 0) then
    match word.getD 31 0 with
    | 0 => .ok false
    | 1 => .ok true
    | _ => .error .errBadBool
  else .error .errBadBool

/-- `getArraySize`: the words an array takes, nested arrays counted out; `1` for any other type. -/
def getArraySize : Ty → ℕ
  | .ArrayTy e n => n * getArraySize e
  | _ => 1

/-- `getFullElemSize`: the bytes an element takes inline. -/
def getFullElemSize (e : Ty) : ℕ := WordSize * getArraySize e

/-- `lengthPrefixPointsTo`: the start and length of what the offset at `index` points to. -/
def lengthPrefixPointsTo (index : ℕ) (output : List UInt8) : Except AbiError (ℕ × ℕ) :=
  let bigOffsetEnd := beValue (slice output index (index + WordSize)) + WordSize
  if output.length < bigOffsetEnd then .error .errBigSliceOffsetOverflow
  else if 2 ^ 63 ≤ bigOffsetEnd then .error .errBigOffsetOverflow
  else
    let lengthBig := beValue (slice output (bigOffsetEnd - WordSize) bigOffsetEnd)
    let totalSize := bigOffsetEnd + lengthBig
    if 2 ^ 63 ≤ totalSize then .error .errBigLengthOverflow
    else if output.length < totalSize then .error .errInsufficientBigLength
    else .ok (bigOffsetEnd, lengthBig)

/-- `forEachUnpack`: `size` elements from `start`, `elemSize` bytes apart. The bound is tested
in Go's 64-bit `int`, which wraps for a static array of `2^58` words or more; past the test,
`reflect.New` is asked for an array of that many elements, which no memory holds. -/
def forEachUnpack (output : List UInt8) (elemSize start size : ℕ)
    (unpackElem : ℕ → Except AbiError Value) : Except AbiError Value :=
  if (output.length : ℤ) < ((start + WordSize * size : ℕ) : ℤ).bmod (2 ^ 64) then
    .error .errArrayOffsetOverflow
  else if output.length < start + WordSize * size then .error .panicked
  else .list <$> (List.range size).mapM fun j => unpackElem (start + j * elemSize)

/-- `toGoType`: the value of type `t` at `index`. -/
def toGoType (output : List UInt8) (t : Ty) (index : ℕ) : Except AbiError Value :=
  if output.length < index + WordSize then .error .errInsufficientLength
  else
    let returnOutput := slice output index (index + WordSize)
    match t with
    | .SliceTy e => do
      let (start, length) ← lengthPrefixPointsTo index output
      forEachUnpack output WordSize start length (toGoType output e)
    | .ArrayTy e n => forEachUnpack output (getFullElemSize e) index n (toGoType output e)
    | .StringTy => do
      let (start, length) ← lengthPrefixPointsTo index output
      pure (.bytes (slice output start (start + length)))
    | .IntTy size => pure (.int (readInteger true size returnOutput))
    | .UintTy size => pure (.int (readInteger false size returnOutput))
    | .BoolTy => .bool <$> readBool returnOutput
    | .AddressTy => pure (.bytes (returnOutput.drop (WordSize - AddressSize)))
    | .GidTy => pure (.bytes (returnOutput.drop (WordSize - GidSize)))
    | .TokenIdTy => pure (.bytes (returnOutput.drop (WordSize - TokenTypeIdSize)))
    | .BytesTy => do
      let (start, length) ← lengthPrefixPointsTo index output
      pure (.bytes (slice output start (start + length)))
    -- `readFixedBytes` copies `word[0:t.Size]`, which runs on past the word into the rest of the
    -- input and panics past its end (the input's capacity taken as its length)
    | .FixedBytesTy size =>
      if output.length < index + size then .error .panicked
      else pure (.bytes (slice output index (index + size)))

/-- The loop of `UnpackValues`: a static array shifts the arguments after it by the words it
took beyond one. -/
def unpackArgs (data : List UInt8) : List Ty → ℕ → ℕ → Except AbiError (List Value)
  | [], _, _ => .ok []
  | t :: ts, index, virtualArgs => do
    let v ← toGoType data t ((index + virtualArgs) * WordSize)
    let virtualArgs := match t with
      | .ArrayTy _ _ => virtualArgs + getArraySize t - 1
      | _ => virtualArgs
    let rest ← unpackArgs data ts (index + 1) virtualArgs
    pure (v :: rest)

/-- `Arguments.UnpackValues`. -/
def UnpackValues (args : List Ty) (data : List UInt8) : Except AbiError (List Value) :=
  unpackArgs data args 0 0


/-! ## One word -/

/-- A value of a type that takes one word of the head, and that the word gives back: an integer
in the range of its width (a `*big.Int` of a signed width not negative), a bool, an address, gid
or token id of its size, fixed bytes of theirs. -/
def IsWord : Ty → Value → Prop
  | .IntTy size, .int v =>
    0 < size ∧ size ≤ 256 ∧ (if isNative size then -2 ^ (size - 1) ≤ v else 0 ≤ v) ∧
      v < 2 ^ (size - 1)
  | .UintTy size, .int v => size ≤ 256 ∧ 0 ≤ v ∧ v < 2 ^ size
  | .BoolTy, .bool _ => True
  | .AddressTy, .bytes bs => bs.length = AddressSize
  | .GidTy, .bytes bs => bs.length = GidSize
  | .TokenIdTy, .bytes bs => bs.length = TokenTypeIdSize
  | .FixedBytesTy n, .bytes bs => bs.length = n ∧ n ≤ WordSize
  | _, _ => False

@[simp] theorem length_U256 (n : ℤ) : (U256 n).length = WordSize := by
  simp [U256]

theorem slice_middle (pre w post : List UInt8) :
    slice (pre ++ w ++ post) pre.length (pre.length + w.length) = w := by
  simp [slice]

/-- The native widths are whole bytes within a word. -/
theorem isNative_cases {size : ℕ} (h : isNative size = true) :
    size / 8 * 8 = size ∧ size / 8 ≤ WordSize ∧ 0 < size := by
  simp only [isNative, Bool.or_eq_true, decide_eq_true_eq] at h
  rcases h with ((rfl | rfl) | rfl) | rfl <;> decide

/-- The low `size` bits of a word, as a machine integer reads them. -/
theorem beValue_drop_U256 {size : ℕ} (h : isNative size = true) (v : ℤ) :
    (beValue ((U256 v).drop ((U256 v).length - size / 8)) : ℤ) = v % 2 ^ size := by
  obtain ⟨hsize, hle, -⟩ := isNative_cases h
  have hsplit : (WordSize - size / 8) + size / 8 = WordSize := Nat.sub_add_cancel hle
  have hdrop : ∀ x, (toBytesBE WordSize x).drop (WordSize - size / 8) = toBytesBE (size / 8) x := by
    intro x
    have := drop_toBytesBE (size / 8) (WordSize - size / 8) x
    rwa [hsplit] at this
  rw [length_U256, U256, hdrop, beValue_toBytesBE]
  have hpow : (256 : ℕ) ^ (size / 8) = 2 ^ size := by
    rw [show (256 : ℕ) = 2 ^ 8 by norm_num, ← pow_mul, Nat.mul_comm, hsize]
  have hdvd : (2 : ℤ) ^ size ∣ 2 ^ 256 := pow_dvd_pow 2 (by
    unfold WordSize at hle
    omega)
  rw [hpow, Int.natCast_mod, Int.toNat_of_nonneg (Int.emod_nonneg v (by positivity)),
    Nat.cast_pow, Nat.cast_ofNat, Int.emod_emod_of_dvd v hdvd]

/-- A big integer's word is read back whole, without its sign. -/
theorem readInteger_U256_big {size : ℕ} (hsize : isNative size = false) (signed : Bool) (v : ℤ) :
    readInteger signed size (U256 v) = v % 2 ^ 256 := by
  have hlt : (v % 2 ^ 256).toNat < 256 ^ WordSize := by
    have := Int.emod_lt_of_pos v (show (0 : ℤ) < 2 ^ 256 by positivity)
    have h0 := Int.emod_nonneg v (show (2 : ℤ) ^ 256 ≠ 0 by positivity)
    rw [show (256 : ℕ) ^ WordSize = 2 ^ 256 by decide]
    omega
  rw [readInteger, if_neg (by simp [hsize]), U256, beValue_toBytesBE, Nat.mod_eq_of_lt hlt,
    Int.toNat_of_nonneg (Int.emod_nonneg v (by positivity))]

theorem readInteger_int {size : ℕ} {v : ℤ} (h : IsWord (.IntTy size) (.int v)) :
    readInteger true size (U256 v) = v := by
  obtain ⟨hpos, hle, hlo, hhi⟩ := h
  have hpow : (2 : ℤ) ^ size = 2 * 2 ^ (size - 1) := by
    rw [← pow_succ']
    congr 1
    omega
  cases hn : isNative size
  · -- a `*big.Int`: the whole word, which is `v` for `v ≥ 0`
    rw [if_neg (by simp [hn])] at hlo
    have hbig : (2 : ℤ) ^ (size - 1) ≤ 2 ^ 256 := pow_le_pow_right₀ (by norm_num) (by omega)
    rw [readInteger_U256_big hn, Int.emod_eq_of_lt hlo (by omega)]
  · rw [if_pos hn] at hlo
    have hu := beValue_drop_U256 hn v
    unfold readInteger
    rw [if_pos hn]
    simp only [true_and]
    by_cases hneg : v < 0
    · -- a negative value comes back from `u = v + 2^size`
      have hmod : v % 2 ^ size = v + 2 ^ size := by
        rw [← Int.add_mul_emod_self_right v 1 (2 ^ size), one_mul]
        exact Int.emod_eq_of_lt (by omega) (by omega)
      rw [hmod] at hu
      rw [if_pos (by zify; omega)]
      omega
    · have hmod : v % 2 ^ size = v := Int.emod_eq_of_lt (by omega) (by omega)
      rw [hmod] at hu
      rw [if_neg (by zify; omega)]
      omega

theorem readInteger_uint {size : ℕ} {v : ℤ} (h : IsWord (.UintTy size) (.int v)) :
    readInteger false size (U256 v) = v := by
  obtain ⟨hle, hlo, hhi⟩ := h
  cases hn : isNative size
  · have hbig : (2 : ℤ) ^ size ≤ 2 ^ 256 := pow_le_pow_right₀ (by norm_num) hle
    rw [readInteger_U256_big hn, Int.emod_eq_of_lt hlo (by omega)]
  · have hu := beValue_drop_U256 hn v
    rw [Int.emod_eq_of_lt hlo hhi] at hu
    unfold readInteger
    rw [if_pos hn]
    simp only [Bool.false_eq_true, false_and, if_false]
    exact hu

theorem not_lt_word {pre w post : List UInt8} (hw : w.length = WordSize) :
    ¬(pre ++ w ++ post).length < pre.length + WordSize := by
  simp only [List.length_append]
  omega

theorem slice_word {pre w post : List UInt8} (hw : w.length = WordSize) :
    slice (pre ++ w ++ post) pre.length (pre.length + WordSize) = w :=
  hw ▸ slice_middle pre w post

theorem length_LeftPadBytes {bs : List UInt8} {l : ℕ} (h : bs.length ≤ l) :
    (LeftPadBytes bs l).length = l := by
  unfold LeftPadBytes
  split_ifs with hle
  · omega
  · simp only [List.length_append, List.length_replicate]
    omega

theorem drop_LeftPadBytes {bs : List UInt8} {l : ℕ} (h : bs.length ≤ l) :
    (LeftPadBytes bs l).drop (l - bs.length) = bs := by
  unfold LeftPadBytes
  split_ifs with hle
  · rw [show l - bs.length = 0 by omega, List.drop_zero]
  · rw [List.drop_left' (by simp)]

theorem length_RightPadBytes {bs : List UInt8} {l : ℕ} (h : bs.length ≤ l) :
    (RightPadBytes bs l).length = l := by
  unfold RightPadBytes
  split_ifs with hle
  · omega
  · simp only [List.length_append, List.length_replicate]
    omega

theorem take_RightPadBytes (bs : List UInt8) (l : ℕ) :
    (RightPadBytes bs l).take bs.length = bs := by
  unfold RightPadBytes
  split_ifs <;> simp

/-- A value of a word type packs to one word of the head, which `toGoType` reads back wherever
it stands. -/
theorem pack_word {t : Ty} {v : Value} (h : IsWord t v) :
    ∃ w, t.pack v = .ok w ∧ w.length = WordSize ∧ t.requiresLengthPrefix = false ∧
      t.headWords = 1 ∧ ∀ pre post, toGoType (pre ++ w ++ post) t pre.length = .ok v := by
  cases t <;> cases v <;> simp only [IsWord] at h <;> try exact h.elim
  case IntTy.int size v =>
    refine ⟨U256 v, rfl, length_U256 v, rfl, rfl, fun pre post => ?_⟩
    simp only [toGoType, if_neg (not_lt_word (length_U256 v)), slice_word (length_U256 v),
      readInteger_int h]
    rfl
  case UintTy.int size v =>
    refine ⟨U256 v, rfl, length_U256 v, rfl, rfl, fun pre post => ?_⟩
    simp only [toGoType, if_neg (not_lt_word (length_U256 v)), slice_word (length_U256 v),
      readInteger_uint h]
    rfl
  case BoolTy.bool b =>
    have hw : (toBytesBE WordSize (if b then 1 else 0)).length = WordSize := length_toBytesBE _ _
    refine ⟨_, rfl, hw, rfl, rfl, fun pre post => ?_⟩
    simp only [toGoType, if_neg (not_lt_word hw), slice_word hw]
    cases b <;> decide +kernel
  case AddressTy.bytes bs =>
    have hle : bs.length ≤ WordSize := by rw [h]; decide
    refine ⟨_, rfl, length_LeftPadBytes hle, rfl, rfl, fun pre post => ?_⟩
    simp only [toGoType, if_neg (not_lt_word (length_LeftPadBytes hle)),
      slice_word (length_LeftPadBytes hle), ← h, drop_LeftPadBytes hle]
    rfl
  case GidTy.bytes bs =>
    have hle : bs.length ≤ WordSize := by rw [h]; decide
    refine ⟨_, rfl, length_LeftPadBytes hle, rfl, rfl, fun pre post => ?_⟩
    simp only [toGoType, if_neg (not_lt_word (length_LeftPadBytes hle)),
      slice_word (length_LeftPadBytes hle), ← h, drop_LeftPadBytes hle]
    rfl
  case TokenIdTy.bytes bs =>
    have hle : bs.length ≤ WordSize := by rw [h]; decide
    refine ⟨_, rfl, length_LeftPadBytes hle, rfl, rfl, fun pre post => ?_⟩
    simp only [toGoType, if_neg (not_lt_word (length_LeftPadBytes hle)),
      slice_word (length_LeftPadBytes hle), ← h, drop_LeftPadBytes hle]
    rfl
  case FixedBytesTy.bytes n bs =>
    obtain ⟨rfl, hle⟩ := h
    refine ⟨RightPadBytes bs WordSize, ?_, length_RightPadBytes hle, rfl, rfl, fun pre post => ?_⟩
    · simp only [Ty.pack, typeCheck, packElement, if_true]
      rfl
    · -- the bytes read run to `n ≤ WordSize`, inside the word
      have hw := length_RightPadBytes hle
      have hfits : ¬(pre ++ RightPadBytes bs WordSize ++ post).length < pre.length + bs.length := by
        simp only [List.length_append, hw]
        omega
      have hslice : slice (pre ++ RightPadBytes bs WordSize ++ post) pre.length
          (pre.length + bs.length) = bs := by
        rw [slice, List.append_assoc, List.drop_left, Nat.add_sub_cancel_left,
          List.take_append_of_le_length (by omega), take_RightPadBytes]
      simp only [toGoType, if_neg (not_lt_word hw), if_neg hfits, hslice]
      rfl

theorem IsWord.not_array {t : Ty} {v : Value} (h : IsWord t v) (e : Ty) (n : ℕ) :
    t ≠ .ArrayTy e n := by
  rintro rfl
  cases v <;> exact h

/-! ## Heads of words -/

/-- The run lemma of packing and unpacking: arguments that each take one word are packed into
consecutive words, and read back from wherever those words stand. -/
theorem packArgs_words {args : List Ty} {vals : List Value} (h : List.Forall₂ IsWord args vals)
    (inputOffset : ℕ) (ret : List UInt8) :
    ∃ ws, packArgs inputOffset args vals ret [] = .ok (ret ++ ws) ∧
      ∀ pre post index, pre.length = index * WordSize →
        unpackArgs (pre ++ ws ++ post) args index 0 = .ok vals := by
  induction h generalizing ret with
  | nil =>
    refine ⟨[], by simp [packArgs], fun pre post index _ => ?_⟩
    rfl
  | @cons t v ts vs hword _ ih =>
    obtain ⟨w, hpack, hw, hprefix, -, hread⟩ := pack_word hword
    obtain ⟨ws, hrest, hunpack⟩ := ih (ret ++ w)
    refine ⟨w ++ ws, ?_, fun pre post index hpre => ?_⟩
    · simp only [packArgs, hpack, hprefix, Bool.false_eq_true, if_false]
      show packArgs inputOffset ts vs (ret ++ w) [] = _
      rw [hrest, List.append_assoc]
    · -- the word of `t` stands at `index`, the others after it
      have hat : toGoType (pre ++ (w ++ ws) ++ post) t ((index + 0) * WordSize) = .ok v := by
        rw [Nat.add_zero, ← hpre, ← List.append_assoc pre w ws, List.append_assoc (pre ++ w) ws post]
        exact hread pre (ws ++ post)
      have htail : unpackArgs (pre ++ (w ++ ws) ++ post) ts (index + 1) 0 = .ok vs := by
        rw [← List.append_assoc pre w ws]
        exact hunpack (pre ++ w) post (index + 1) (by rw [List.length_append, hpre, hw]; ring)
      simp only [unpackArgs, hat]
      split
      · exact absurd rfl (hword.not_array _ _)
      · rw [htail]
        rfl

/-- Arguments that each take one word of the head come back as they went in. -/
theorem UnpackValues_Pack_words {args : List Ty} {vals : List Value}
    (h : List.Forall₂ IsWord args vals) :
    ∃ p, Pack args vals = .ok p ∧ UnpackValues args p = .ok vals := by
  obtain ⟨ws, hpack, hunpack⟩ := packArgs_words h ((args.map fun t => WordSize * t.headWords).sum) []
  refine ⟨ws, ?_, ?_⟩
  · rw [Pack, if_neg (by rw [h.length_eq]; simp), hpack, List.nil_append]
  · simpa [UnpackValues] using hunpack [] [] 0 rfl

/-! ## Where decoding does not undo encoding -/

/-- Every integer of a width with no machine type comes back modulo `2^256`. -/
theorem UnpackValues_Pack_big {size : ℕ} (hsize : isNative size = false) (v : ℤ) :
    ∃ p, Pack [.IntTy size] [.int v] = .ok p ∧
      UnpackValues [.IntTy size] p = .ok [.int (v % 2 ^ 256)] := by
  refine ⟨U256 v, rfl, ?_⟩
  have hlen := length_U256 v
  simp only [UnpackValues, unpackArgs, toGoType, hlen, zero_add, Nat.zero_mul]
  rw [if_neg (by simp [WordSize])]
  have hword : slice (U256 v) 0 WordSize = U256 v := by
    rw [slice, List.drop_zero, Nat.sub_zero, ← hlen, List.take_length]
  rw [hword, readInteger_U256_big hsize]
  rfl

/-- Decoding does not undo encoding: a negative value of an integer type with no machine type
(`int256` among them) comes back as itself plus `2^256`, and a slice of strings, whose elements
`Type.pack` writes inline with no offsets, is not read back at all. -/
theorem UnpackValues_Pack_breaks :
    (∀ size, isNative size = false → ∀ v : ℤ, -2 ^ 255 ≤ v → v < 0 →
      ∃ p, Pack [.IntTy size] [.int v] = .ok p ∧
        UnpackValues [.IntTy size] p = .ok [.int (v + 2 ^ 256)]) ∧
    ∃ p, Pack [.SliceTy .StringTy] [.list [.bytes [97]]] = .ok p ∧
      UnpackValues [.SliceTy .StringTy] p = .error .errInsufficientBigLength := by
  refine ⟨?_, packNum 32 ++ packBytesSlice (packBytesSlice [97] 1) 1, by decide +kernel,
    by decide +kernel⟩
  intro size hsize v hlo hneg
  have hmod : v % 2 ^ 256 = v + 2 ^ 256 := by omega
  rw [← hmod]
  exact UnpackValues_Pack_big hsize v

theorem int256_minus_one_breaks :
    ∃ p, Pack [.IntTy 256] [.int (-1)] = .ok p ∧
      UnpackValues [.IntTy 256] p = .ok [.int (-1 + 2 ^ 256)] :=
  UnpackValues_Pack_breaks.1 256 rfl (-1) (by norm_num) (by norm_num)

end Vite.Abi
