import Mathlib
import Vite.Vm.Abi
import Vite.Lib.ExceptRun
import Vite.Lib.Strconv

/-!
# The ABI type parser

`NewType` (vm/abi/type.go) reads an argument type of a contract's ABI: at most one pair of
brackets, whose prefix is read again as the element type and whose digits give an array's length,
or else the first match of `([a-zA-Z]+)([0-9]+)?`, whose letters name the kind and whose digits
its size. The match is not anchored and the size is not checked against the kind, so the parser
takes every `int<N>` for `0 < N < 2^63`, with anything after it that has no digit first and no
bracket (`NewType_accepts_any_int_width`): `int7`, `int300` and `int256abc` are integer types.
What it accepts keeps its text as the type's name (`NewType_String`).

Nor is a fixed-bytes size checked against the word: `bytes33` is a type, and `readFixedBytes`
copies `word[0:33]`, one byte past the word, which panics on an input that ends there
(`UnpackValues_wide_fixed_bytes_panics`). Without such types, and without static arrays large
enough to wrap the bound of `forEachUnpack`, decoding never panics (`UnpackValues_ne_panicked`).
-/

namespace Vite.Abi

open Strconv

/-- The errors of `NewType`; `panicked` is the index panic on a type in which the regular
expression matches nothing. -/
inductive TypeError where
  | errUnsupportedArgType
  | errParsingVariableSize
  | errInvalidZeroVariableSize
  | errInvalidArrayTypeFormatting
  | panicked
  deriving DecidableEq, Repr

/-- `Type`: the kind with its sizes and element, and the text it was read from. -/
structure AbiType where
  ty : Ty
  stringKind : List Char
  deriving DecidableEq, Repr

/-- `Type.String`. -/
def AbiType.String (t : AbiType) : List Char := t.stringKind

/-- The first match of `typeRegex`, `([a-zA-Z]+)([0-9]+)?`: the letters from the first letter on
and the digits right after them. -/
def typeRegexFirst (t : List Char) : Option (List Char × List Char) :=
  let rest := t.dropWhile (fun c => !c.isAlpha)
  if rest = [] then none
  else some (rest.takeWhile Char.isAlpha, (rest.dropWhile Char.isAlpha).takeWhile Char.isDigit)

/-- The matches of `[0-9]+` from a run of digits `run` already begun. -/
def digitRunsFrom : List Char → List Char → List (List Char)
  | [], run => if run = [] then [] else [run]
  | c :: cs, run =>
    if c.isDigit then digitRunsFrom cs (run ++ [c])
    else (if run = [] then [] else [run]) ++ digitRunsFrom cs []

/-- `FindAllString` of `[0-9]+`: the maximal runs of digits. -/
def digitRuns (t : List Char) : List (List Char) := digitRunsFrom t []

/-- `strings.LastIndex(t, string(c))`, for a character that occurs in `t`. -/
def lastIndex (c : Char) (t : List Char) : ℕ := t.length - 1 - t.reverse.idxOf c

/-- The size digits of the type: none is size `0`; `Atoi` fails past `2^63 - 1`; `0` is refused. -/
def parseVarSize (sizeDigits : List Char) : Except TypeError ℕ :=
  if 0 < sizeDigits.length then
    match Atoi sizeDigits with
    | none => .error .errParsingVariableSize
    | some 0 => .error .errInvalidZeroVariableSize
    | some varSize => .ok varSize
  else .ok 0

/-- The kind the letters name, with the size. -/
def kindOf (varType : List Char) (varSize : ℕ) : Except TypeError Ty :=
  if varType = "int".toList then .ok (.IntTy varSize)
  else if varType = "uint".toList then .ok (.UintTy varSize)
  else if varType = "bool".toList then .ok .BoolTy
  else if varType = "address".toList then .ok .AddressTy
  else if varType = "gid".toList then .ok .GidTy
  else if varType = "tokenId".toList then .ok .TokenIdTy
  else if varType = "string".toList then .ok .StringTy
  else if varType = "bytes".toList then
    .ok (if varSize = 0 then .BytesTy else .FixedBytesTy varSize)
  else .error .errUnsupportedArgType

/-- `NewType`. -/
def NewType (t : List Char) : Except TypeError AbiType :=
  if t = "uint".toList ∨ t = "int".toList then .error .errUnsupportedArgType
  else if t.count '[' ≠ t.count ']' ∨ 1 < t.count '[' then .error .errUnsupportedArgType
  else if _hbr : t.count '[' ≠ 0 then
    let i := lastIndex '[' t
    match NewType (t.take i) with
    | .error err => .error err
    | .ok embeddedType =>
      match digitRuns (t.drop i) with
      | [] => .ok ⟨.SliceTy embeddedType.ty, t⟩
      | [intz] =>
        match Atoi intz with
        | none => .error .errParsingVariableSize
        | some 0 => .error .errInvalidZeroVariableSize
        | some size => .ok ⟨.ArrayTy embeddedType.ty size, t⟩
      | _ => .error .errInvalidArrayTypeFormatting
  else
    match typeRegexFirst t with
    | none => .error .panicked
    | some (varType, sizeDigits) => do
      let varSize ← parseVarSize sizeDigits
      let ty ← kindOf varType varSize
      pure ⟨ty, t⟩
termination_by t.length
decreasing_by
  have hne : t ≠ [] := by
    rintro rfl
    exact _hbr rfl
  have hpos : 0 < t.length := List.length_pos_iff.mpr hne
  simp only [List.length_take, lastIndex]
  omega

/-! ## What the parser accepts -/

/-- Every type `NewType` accepts keeps the text it was read from as its name. -/
theorem NewType_String {t : List Char} {typ : AbiType} (h : NewType t = .ok typ) :
    typ.String = t := by
  rw [NewType] at h
  split_ifs at h
  · -- an array or a slice of the element the prefix names
    dsimp only at h
    split at h
    · cases h
    · split at h
      · cases h
        rfl
      · split at h
        · cases h
        · cases h
        · cases h
          rfl
      · cases h
  · split at h
    · cases h
    · obtain ⟨varSize, -, h⟩ := Except.bind_eq_ok.mp h
      obtain ⟨ty, -, h⟩ := Except.bind_eq_ok.mp h
      cases h
      rfl

theorem isAlpha_eq_false_of_isDigit {c : Char} (h : c.isDigit = true) : c.isAlpha = false := by
  simp only [Char.isDigit, Char.isAlpha, Char.isUpper, Char.isLower, Bool.and_eq_true,
    decide_eq_true_eq, UInt32.le_iff_toNat_le] at h ⊢
  have hZ : 'Z'.val.toNat = 90 := rfl
  have hz : 'z'.val.toNat = 122 := rfl
  have hA : 'A'.val.toNat = 65 := rfl
  have ha : 'a'.val.toNat = 97 := rfl
  have h0 : '0'.val.toNat = 48 := rfl
  have h9 : '9'.val.toNat = 57 := rfl
  simp only [Bool.or_eq_false_iff, Bool.and_eq_false_imp, decide_eq_true_eq,
    decide_eq_false_iff_not]
  omega

/-- The first match of the type pattern on letters, digits, and a rest that does not go on with
a digit. -/
theorem typeRegexFirst_letters {letters digits rest : List Char} (hne : letters ≠ [])
    (halpha : ∀ c ∈ letters, c.isAlpha = true) (hdigits : digits ≠ [])
    (hdigit : ∀ c ∈ digits, c.isDigit = true) (hrest : ∀ c ∈ rest.head?, c.isDigit = false) :
    typeRegexFirst (letters ++ digits ++ rest) = some (letters, digits) := by
  obtain ⟨l, ls, rfl⟩ := List.exists_cons_of_ne_nil hne
  obtain ⟨d, ds, rfl⟩ := List.exists_cons_of_ne_nil hdigits
  have hstop : ¬ (d.isAlpha = true) := by
    rw [isAlpha_eq_false_of_isDigit (hdigit d List.mem_cons_self)]
    decide
  have hdigits_rest : (rest.takeWhile Char.isDigit) = [] := by
    cases rest with
    | nil => rfl
    | cons r rs => exact List.takeWhile_cons_of_neg (by simpa using hrest r rfl)
  have hdrop : (l :: ls ++ d :: ds ++ rest).dropWhile (fun c => !c.isAlpha) =
      l :: ls ++ d :: ds ++ rest :=
    List.dropWhile_cons_of_neg (by simp [halpha l List.mem_cons_self])
  rw [typeRegexFirst, hdrop, if_neg (by simp), List.append_assoc,
    List.takeWhile_append_of_pos halpha, List.dropWhile_append_of_pos halpha,
    @List.cons_append _ d ds rest, List.takeWhile_cons_of_neg hstop, List.dropWhile_cons_of_neg hstop,
    ← @List.cons_append _ d ds rest,
    List.takeWhile_append_of_pos hdigit, hdigits_rest, List.append_nil, List.append_nil]

theorem parseVarSize_FormatUint {N : ℕ} (hpos : 0 < N) (hlt : N < 2 ^ 63) :
    parseVarSize (FormatUint N) = .ok N := by
  have hlen : 0 < (FormatUint N).length := List.length_pos_iff.mpr Nat.toDigits_ne_nil
  rw [parseVarSize, if_pos hlen, Atoi_FormatUint hlt]
  obtain ⟨n, rfl⟩ := Nat.exists_eq_add_one_of_ne_zero hpos.ne'
  rfl

/-- A name that goes on with a digit is none of the two bare integer names `NewType` refuses. -/
theorem ne_bare_integer {t : List Char} {d : Char} (hd : d ∈ t) (hdigit : d.isDigit = true) :
    ¬(t = "uint".toList ∨ t = "int".toList) := by
  have hout : ∀ c ∈ "uint".toList ++ "int".toList, c.isDigit = false := by simp [Char.isDigit]
  rintro (rfl | rfl)
  · exact absurd (hout d (List.mem_append_left _ hd)) (by rw [hdigit]; decide)
  · exact absurd (hout d (List.mem_append_right _ hd)) (by rw [hdigit]; decide)

/-- What `NewType` makes of letters, then a size that `Atoi` reads and is not zero, then a rest
that does not go on with a digit, with no bracket anywhere: the kind the letters name, at that
size. -/
theorem NewType_letters_size {letters rest : List Char} {N : ℕ} (hpos : 0 < N) (hlt : N < 2 ^ 63)
    (hne : letters ≠ []) (halpha : ∀ c ∈ letters, c.isAlpha = true)
    (hopen : '[' ∉ letters ++ rest) (hclose : ']' ∉ letters ++ rest)
    (hnext : ∀ c ∈ rest.head?, c.isDigit = false) :
    NewType (letters ++ FormatUint N ++ rest) =
      (kindOf letters N >>= fun ty => pure ⟨ty, letters ++ FormatUint N ++ rest⟩) := by
  have hdigit : ∀ c ∈ FormatUint N, c.isDigit = true := List.all_eq_true.mp (all_isDigit_FormatUint N)
  have hdigits : FormatUint N ≠ [] := Nat.toDigits_ne_nil
  -- no bracket: the digits have none, nor have the letters and the rest
  have hout : ∀ b : Char, b.isDigit = false → b ∉ letters ++ rest →
      (letters ++ FormatUint N ++ rest).count b = 0 := by
    intro b hb hmem
    rw [List.count_eq_zero]
    simp only [List.mem_append, not_or] at hmem ⊢
    exact ⟨⟨hmem.1, fun h => absurd (hdigit b h) (by rw [hb]; decide)⟩, hmem.2⟩
  have hopen' := hout '[' (by decide) hopen
  have hclose' := hout ']' (by decide) hclose
  obtain ⟨d, hd⟩ := List.exists_mem_of_ne_nil _ hdigits
  have hname := ne_bare_integer
    (List.mem_append_left rest (List.mem_append_right letters hd)) (hdigit d hd)
  rw [NewType, if_neg hname, if_neg (by omega), dif_neg (by omega),
    typeRegexFirst_letters hne halpha hdigits hdigit hnext]
  simp only [parseVarSize_FormatUint hpos hlt, Except.ok_bind]

/-- `NewType` takes `int` with any size that `Atoi` reads and is not zero, followed by anything
that does not go on with a digit and has no bracket: the width is neither bounded by 256 nor a
multiple of 8, and the text after it is not read. -/
theorem NewType_accepts_any_int_width {N : ℕ} (hpos : 0 < N) (hlt : N < 2 ^ 63) {rest : List Char}
    (hopen : '[' ∉ rest) (hclose : ']' ∉ rest) (hnext : ∀ c ∈ rest.head?, c.isDigit = false) :
    NewType ("int".toList ++ FormatUint N ++ rest) =
      .ok ⟨.IntTy N, "int".toList ++ FormatUint N ++ rest⟩ := by
  rw [NewType_letters_size hpos hlt (by decide) (by simp [Char.isAlpha, Char.isUpper, Char.isLower])
    (by simpa using hopen) (by simpa using hclose) hnext]
  rfl

theorem NewType_accepts_any_int_width_int7 :
    NewType "int7".toList = .ok ⟨.IntTy 7, "int7".toList⟩ ∧
      NewType "int256abc".toList = .ok ⟨.IntTy 256, "int256abc".toList⟩ :=
  ⟨@NewType_accepts_any_int_width 7 (by decide) (by decide) [] (by decide) (by decide) (by simp),
    @NewType_accepts_any_int_width 256 (by decide) (by decide) "abc".toList (by decide) (by decide)
      (by simp [Char.isDigit])⟩

/-! ## Decoding the types it accepts -/

/-- `NewType` takes `bytes<N>` for every size `Atoi` reads; past a word, `readFixedBytes` slices
the word beyond its end, so an input that ends before `N` bytes makes `UnpackValues` panic. -/
theorem UnpackValues_wide_fixed_bytes_panics {N : ℕ} (hwide : Vm.WordSize < N) (hlt : N < 2 ^ 63)
    {data : List UInt8} (hword : Vm.WordSize ≤ data.length) (hshort : data.length < N) :
    NewType ("bytes".toList ++ FormatUint N) =
        .ok ⟨.FixedBytesTy N, "bytes".toList ++ FormatUint N⟩ ∧
      UnpackValues [.FixedBytesTy N] data = .error .panicked := by
  have hpos : 0 < N := Nat.lt_of_le_of_lt (Nat.zero_le _) hwide
  have hnew := @NewType_letters_size "bytes".toList [] N hpos hlt (by decide)
    (by simp [Char.isAlpha, Char.isUpper, Char.isLower]) (by decide) (by decide) (by simp)
  rw [List.append_nil] at hnew
  have hkind : kindOf "bytes".toList N = .ok (.FixedBytesTy N) := by
    simp [kindOf, hpos.ne']
  have htoGo : toGoType data (.FixedBytesTy N) 0 = .error .panicked := by
    rw [toGoType, if_neg (by omega)]
    exact if_pos (by omega)
  refine ⟨by rw [hnew, hkind]; rfl, ?_⟩
  simp [UnpackValues, unpackArgs, htoGo]

theorem UnpackValues_wide_fixed_bytes_panics_bytes33 :
    NewType ("bytes".toList ++ FormatUint 33) =
        .ok ⟨.FixedBytesTy 33, "bytes".toList ++ FormatUint 33⟩ ∧
      UnpackValues [.FixedBytesTy 33] (List.replicate 32 0) = .error .panicked :=
  @UnpackValues_wide_fixed_bytes_panics 33 (by decide) (by decide) (List.replicate 32 0)
    (by simp [Vm.WordSize]) (by simp)

/-- The types the decoder reads without a panic: fixed bytes within a word, and static arrays of
at most `2^57` elements at every level, so that `start + 32 * size` stays below `2^63`. -/
def Ty.Decodable : Ty → Bool
  | .SliceTy e => e.Decodable
  | .ArrayTy e n => decide (n ≤ 2 ^ 57) && e.Decodable
  | .FixedBytesTy size => decide (size ≤ Vm.WordSize)
  | _ => true

theorem lengthPrefixPointsTo_ne_panicked (index : ℕ) (output : List UInt8) :
    lengthPrefixPointsTo index output ≠ .error .panicked := by
  unfold lengthPrefixPointsTo
  dsimp only
  split_ifs <;> simp

theorem lengthPrefixPointsTo_le {index start length : ℕ} {output : List UInt8}
    (h : lengthPrefixPointsTo index output = .ok (start, length)) :
    start + length ≤ output.length := by
  unfold lengthPrefixPointsTo at h
  dsimp only at h
  split_ifs at h with hoffset hbig hlength hshort
  simp only [Except.ok.injEq, Prod.mk.injEq] at h
  obtain ⟨rfl, rfl⟩ := h
  omega

theorem readBool_ne_panicked (word : List UInt8) : readBool word ≠ .error .panicked := by
  unfold readBool
  split_ifs
  · split <;> simp
  · simp

/-- A loop whose bound does not wrap `int` panics only where an element does. -/
theorem forEachUnpack_ne_panicked {output : List UInt8} {elemSize start size : ℕ}
    {unpackElem : ℕ → Except AbiError Value} (hsum : start + Vm.WordSize * size < 2 ^ 63)
    (helem : ∀ j, unpackElem j ≠ .error .panicked) :
    forEachUnpack output elemSize start size unpackElem ≠ .error .panicked := by
  have hbmod : ((start + Vm.WordSize * size : ℕ) : ℤ).bmod (2 ^ 64) =
      ((start + Vm.WordSize * size : ℕ) : ℤ) := by
    rw [Int.bmod_def, Int.emod_eq_of_lt (by omega) (by push_cast; omega), if_pos (by push_cast; omega)]
  unfold forEachUnpack
  rw [hbmod]
  split_ifs with hover hwrap
  · simp
  · omega
  · rw [Ne, Except.map_eq_error]
    exact List.mapM_ne_error fun j _ => helem _

theorem toGoType_ne_panicked {output : List UInt8} (hlen : output.length < 2 ^ 57) (t : Ty)
    (ht : t.Decodable = true) (index : ℕ) : toGoType output t index ≠ .error .panicked := by
  induction t generalizing index with
  | SliceTy e ih =>
    rw [toGoType]
    split_ifs
    · simp
    · rw [Ne, Except.bind_eq_error]
      rintro (hpointer | ⟨⟨start, length⟩, hok, hrest⟩)
      · exact lengthPrefixPointsTo_ne_panicked index output hpointer
      · -- a slice's elements lie inside the input, so their count is below `2^57`
        have hle := lengthPrefixPointsTo_le hok
        exact forEachUnpack_ne_panicked (by simp only [Vm.WordSize]; omega) (ih ht) hrest
  | ArrayTy e n ih =>
    simp only [Ty.Decodable, Bool.and_eq_true, decide_eq_true_eq] at ht
    rw [toGoType]
    split_ifs with hshort
    · simp
    · exact forEachUnpack_ne_panicked (by simp only [Vm.WordSize] at hshort ⊢; omega) (ih ht.2)
  | FixedBytesTy size =>
    simp only [Ty.Decodable, decide_eq_true_eq] at ht
    rw [toGoType]
    split_ifs with hshort
    · simp
    · -- the bytes copied end inside the word
      dsimp only
      rw [if_neg (by omega)]
      simp
  | BoolTy =>
    rw [toGoType]
    split_ifs
    · simp
    · rw [Ne, Except.map_eq_error]
      exact readBool_ne_panicked _
  | StringTy | BytesTy =>
    rw [toGoType]
    split_ifs
    · simp
    · rw [Ne, Except.bind_eq_error]
      rintro (hpointer | ⟨_, -, hpure⟩)
      · exact lengthPrefixPointsTo_ne_panicked index output hpointer
      · cases hpure
  | IntTy | UintTy | AddressTy | GidTy | TokenIdTy =>
    rw [toGoType]
    split_ifs <;> simp

/-- Outside wide fixed bytes and static arrays of more than `2^57` elements, decoding never
panics: on every input shorter than `2^57` bytes, `UnpackValues` returns values or one of the
decoder's errors. -/
theorem UnpackValues_ne_panicked {args : List Ty} (hargs : ∀ t ∈ args, t.Decodable = true)
    {data : List UInt8} (hlen : data.length < 2 ^ 57) :
    UnpackValues args data ≠ .error .panicked := by
  -- the loop over the arguments, whatever index and shift it has reached
  suffices h : ∀ index virtualArgs, unpackArgs data args index virtualArgs ≠ .error .panicked from
    h 0 0
  induction args with
  | nil => simp [unpackArgs]
  | cons t ts ih =>
    intro index virtualArgs
    unfold unpackArgs
    rw [Ne, Except.bind_eq_error]
    rintro (hhead | ⟨v, -, hrest⟩)
    · exact toGoType_ne_panicked hlen t (hargs t List.mem_cons_self) _ hhead
    · rcases Except.bind_eq_error.mp hrest with htail | ⟨vs, -, hpure⟩
      · exact ih (fun t' ht' => hargs t' (List.mem_cons_of_mem _ ht')) _ _ htail
      · cases hpure

example :
    UnpackValues [.FixedBytesTy 32, .ArrayTy (.UintTy 8) 3] (List.replicate 100 7) ≠
      .error .panicked :=
  UnpackValues_ne_panicked (by decide) (by simp)

end Vite.Abi
