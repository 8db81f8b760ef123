import Vite.Lib.Hex

/-!
# Addresses, token ids and hashes as text (common/types)

An address is twenty bytes of core and a last byte that says whether it is a user's (`0`) or a
contract's (`1`). Its text is `vite_`, the core in hexadecimal, and a five-byte checksum, the
BLAKE2b digest of the core, written as it is for a user and with every bit flipped (`LDI`) for a
contract. A token id is ten bytes, written `tti_`, the bytes and a two-byte digest; a hash is its
thirty-two bytes in hexadecimal. Text is bytes, as a Go string is; the digest is any function
with the digest's length (`Blake2b`).

A text reads as an address exactly when it starts with `vite_`, the address's last byte is `0`
or `1`, the only addresses with a text, and the text is that address's text, up to the case of
its hexadecimal letters (`ValidHexAddress_eq_ok_iff`). Token ids and hashes read back the same
way (`HexToTokenTypeId_eq_ok_iff`, `HexToHash_eq_ok_iff`).
-/

namespace Vite.Types

/-- `vcrypto.Hash(size, data)`: the BLAKE2b digest of `size` bytes, for a size BLAKE2b allows. -/
structure Blake2b where
  Hash : ℕ → List UInt8 → List UInt8
  length_Hash : ∀ size data, 0 < size → size ≤ 64 → (Hash size data).length = size

/-- Go's `var b [n]byte` filled from the front by a copy of `src`. -/
def fixedBytes (n : ℕ) (src : List UInt8) : { b : List UInt8 // b.length = n } :=
  ⟨(src ++ List.replicate n 0).take n, by simp⟩

theorem fixedBytes_of_length {n : ℕ} {src : List UInt8} (h : src.length = n) : (fixedBytes n src).1 = src := by
  simp [fixedBytes, ← h]

/-- `helper.LDI`: every bit flipped. -/
def LDI (slice : List UInt8) : List UInt8 := slice.map (~~~ ·)

theorem LDI_LDI (slice : List UInt8) : LDI (LDI slice) = slice := by
  simp [LDI, Function.comp_def]

/-- A nonempty digest is never its own flip. -/
theorem LDI_ne_self {slice : List UInt8} (h : slice ≠ []) : slice ≠ LDI slice := by
  obtain ⟨x, rest, rfl⟩ := List.exists_cons_of_ne_nil h
  intro heq
  have hx : (~~~x).toNat = x.toNat := congrArg UInt8.toNat (List.cons.inj heq).1.symm
  rw [UInt8.toNat_not] at hx
  have hsize : UInt8.size = 256 := rfl
  have := x.toNat_lt
  omega

/-! ## Addresses -/

/-- `"vite_"` -/
def AddressPrefix : List UInt8 := [118, 105, 116, 101, 95]
def AddressSize : ℕ := 21
def AddressCoreSize : ℕ := 20
def addressChecksumSize : ℕ := 5
def addressPrefixLen : ℕ := AddressPrefix.length
def hexAddrCoreLen : ℕ := 2 * AddressCoreSize
def hexAddrChecksumLen : ℕ := 2 * addressChecksumSize
def hexAddressLength : ℕ := addressPrefixLen + hexAddrCoreLen + hexAddrChecksumLen

def UserAddrByte : UInt8 := 0
def ContractAddrByte : UInt8 := 1

/-- `Address`, `[AddressSize]byte`. -/
def Address := { b : List UInt8 // b.length = AddressSize }

instance : DecidableEq Address := inferInstanceAs (DecidableEq { b : List UInt8 // b.length = AddressSize })

inductive AddressError where
  /-- `error address size  %v` -/
  | size (length : ℕ)
  /-- `error hex address or prefix` -/
  | hexOrPrefix
  /-- the error of `hex.Decode` -/
  | hex (e : Hex.Error)
  /-- `error address[%s] checksum` -/
  | checksum (hexStr : List UInt8)

/-- `SetBytes` of a `[n]byte`: exactly `n` bytes, or the size error. -/
def setBytes {E : Type} (n : ℕ) (sizeError : ℕ → E) (b : List UInt8) : Except E { a : List UInt8 // a.length = n } :=
  if h : b.length = n then .ok ⟨b, h⟩ else .error (sizeError b.length)

def BytesToAddress (b : List UInt8) : Except AddressError Address := setBytes AddressSize .size b

def GenUserAddress (data : List UInt8) : Except AddressError Address := BytesToAddress (data ++ [UserAddrByte])

def GenContractAddress (data : List UInt8) : Except AddressError Address :=
  BytesToAddress (data ++ [ContractAddrByte])

/-- `hexStr[addressPrefixLen : hexAddrCoreLen + addressPrefixLen]` decoded into `[AddressCoreSize]byte`. -/
def getAddrCoreFromHex (hexStr : List UInt8) : Except Hex.Error { b : List UInt8 // b.length = AddressCoreSize } :=
  (Hex.DecodeString ((hexStr.drop addressPrefixLen).take hexAddrCoreLen)).map (fixedBytes AddressCoreSize)

/-- `hexStr[hexAddrCoreLen + addressPrefixLen:]` decoded into `[addressChecksumSize]byte`. -/
def getAddressChecksumFromHex (hexStr : List UInt8) :
    Except Hex.Error { b : List UInt8 // b.length = addressChecksumSize } :=
  (Hex.DecodeString (hexStr.drop (hexAddrCoreLen + addressPrefixLen))).map (fixedBytes addressChecksumSize)

/-- `"error address["`, the byte in decimal, `"]"`: `fmt.Sprintf("error address[%d]", byt)`. -/
def errorAddressText (byt : UInt8) : List UInt8 :=
  [101, 114, 114, 111, 114, 32, 97, 100, 100, 114, 101, 115, 115, 91] ++
    (Nat.toDigits 10 byt.toNat).map (fun c => c.toNat.toUInt8) ++ [93]

variable (vcrypto : Blake2b)

def ValidHexAddress (hexStr : List UInt8) : Except AddressError Address := do
  if hexStr.length ≠ hexAddressLength ∨ ¬ AddressPrefix <+: hexStr then
    throw .hexOrPrefix
  let addrCore ← (getAddrCoreFromHex hexStr).mapError .hex
  let addressChecksum ← (getAddressChecksumFromHex hexStr).mapError .hex
  let checksum := vcrypto.Hash addressChecksumSize addrCore.1
  if checksum = addressChecksum.1 then GenUserAddress addrCore.1
  else if checksum = LDI addressChecksum.1 then GenContractAddress addrCore.1
  else throw (.checksum hexStr)

def HexToAddress (hexStr : List UInt8) : Except AddressError Address := ValidHexAddress vcrypto hexStr

def IsValidHexAddress (hexStr : List UInt8) : Bool := (ValidHexAddress vcrypto hexStr).toBool

/-- `Address.Hex`. -/
def Address.Hex (addr : Address) : List UInt8 :=
  let coreAddr := addr.1.take AddressCoreSize
  let byt := addr.1[AddressCoreSize]!
  if byt = UserAddrByte then
    AddressPrefix ++ Hex.EncodeToString coreAddr ++ Hex.EncodeToString (vcrypto.Hash addressChecksumSize coreAddr)
  else if byt = ContractAddrByte then
    AddressPrefix ++ Hex.EncodeToString coreAddr ++
      Hex.EncodeToString (LDI (vcrypto.Hash addressChecksumSize coreAddr))
  else errorAddressText byt

/-! ## Reading texts -/

theorem setBytes_eq_ok {E : Type} {n : ℕ} {sizeError : ℕ → E} {b : List UInt8} {a : { a : List UInt8 // a.length = n }} :
    setBytes n sizeError b = .ok a ↔ a.1 = b := by
  unfold setBytes
  split
  · constructor
    · rintro ⟨⟩
      rfl
    · intro h
      exact congrArg Except.ok (Subtype.ext h.symm)
  · rename_i hne
    constructor
    · rintro ⟨⟩
    · intro h
      exact absurd (h ▸ a.2) hne

/-- `hex.Decode` of exactly `2 * n` digits into a `[n]byte`. -/
theorem map_fixedBytes_eq_ok {t : List UInt8} {n : ℕ} (ht : t.length = 2 * n) {b : { b : List UInt8 // b.length = n }} :
    (Hex.DecodeString t).map (fixedBytes n) = .ok b ↔ Hex.DecodeString t = .ok b.1 := by
  constructor
  · intro h
    obtain ⟨c, hc, rfl⟩ := Except.map_eq_ok.mp h
    have hlen : c.length = n := by
      have := Hex.length_of_DecodeString hc
      omega
    rwa [fixedBytes_of_length hlen]
  · intro h
    rw [h]
    exact congrArg Except.ok (Subtype.ext (fixedBytes_of_length b.2))

/-- Text under a prefix, split where the checks slice it. -/
theorem eq_prefix_slices {P s : List UInt8} (hp : P <+: s) (l : ℕ) :
    s = P ++ (s.drop P.length).take l ++ s.drop (l + P.length) := by
  obtain ⟨t, rfl⟩ := hp
  rw [List.drop_left, Nat.add_comm, ← List.drop_drop, List.drop_left, List.append_assoc, List.take_append_drop]

theorem drop_take_prefix_append (P t₁ t₂ : List UInt8) : ((P ++ t₁ ++ t₂).drop P.length).take t₁.length = t₁ := by
  rw [List.append_assoc, List.drop_left, List.take_left]

theorem drop_prefix_append (P t₁ t₂ : List UInt8) : (P ++ t₁ ++ t₂).drop (P.length + t₁.length) = t₂ := by
  rw [← List.length_append, List.drop_left]

/-- A lowercase prefix and two encodings, in any case. -/
theorem map_toLower_prefix_append {P t₁ t₂ b₁ b₂ : List UInt8} (hP : P.map Hex.toLower = P)
    (h₁ : Hex.DecodeString t₁ = .ok b₁) (h₂ : Hex.DecodeString t₂ = .ok b₂) :
    (P ++ t₁ ++ t₂).map Hex.toLower = P ++ Hex.EncodeToString b₁ ++ Hex.EncodeToString b₂ := by
  rw [List.map_append, List.map_append, hP, Hex.EncodeToString_of_DecodeString h₁,
    Hex.EncodeToString_of_DecodeString h₂]

theorem split_of_map_toLower {P s b₁ b₂ : List UInt8} (hP : P.map Hex.toLower = P) (hp : P <+: s)
    (h : P ++ Hex.EncodeToString b₁ ++ Hex.EncodeToString b₂ = s.map Hex.toLower) :
    ∃ t₁ t₂, s = P ++ t₁ ++ t₂ ∧ Hex.DecodeString t₁ = .ok b₁ ∧ Hex.DecodeString t₂ = .ok b₂ := by
  obtain ⟨t, rfl⟩ := hp
  rw [List.map_append, hP, List.append_assoc] at h
  obtain ⟨t₁, t₂, rfl, h₁, h₂⟩ := List.map_eq_append_iff.mp (List.append_cancel_left h).symm
  exact ⟨t₁, t₂, (List.append_assoc P t₁ t₂).symm, Hex.DecodeString_of_map_toLower h₁,
    Hex.DecodeString_of_map_toLower h₂⟩

theorem map_toLower_AddressPrefix : AddressPrefix.map Hex.toLower = AddressPrefix := by
  decide

/-! ## Addresses read back -/

theorem Address.take_core {addr : Address} {core : List UInt8} {byt : UInt8} (h : addr.1 = core ++ [byt])
    (hcore : core.length = AddressCoreSize) : addr.1.take AddressCoreSize = core := by
  rw [h, ← hcore, List.take_left]

theorem Address.getElem!_core {addr : Address} {core : List UInt8} {byt : UInt8} (h : addr.1 = core ++ [byt])
    (hcore : core.length = AddressCoreSize) : addr.1[AddressCoreSize]! = byt := by
  rw [h, ← hcore]
  simp

/-- An address is its core and its last byte. -/
theorem Address.eq_core_append (addr : Address) : addr.1 = addr.1.take AddressCoreSize ++ [addr.1[AddressCoreSize]!] := by
  have hlen : addr.1.length = AddressCoreSize + 1 := addr.2
  have hlt : AddressCoreSize < addr.1.length := by omega
  rw [getElem!_pos addr.1 AddressCoreSize hlt, List.take_append_getElem, ← hlen, List.take_length]

theorem Address.Hex_of_user {addr : Address} {core : List UInt8} (h : addr.1 = core ++ [UserAddrByte])
    (hcore : core.length = AddressCoreSize) :
    addr.Hex vcrypto =
      AddressPrefix ++ Hex.EncodeToString core ++ Hex.EncodeToString (vcrypto.Hash addressChecksumSize core) := by
  simp only [Address.Hex, Address.take_core h hcore, Address.getElem!_core h hcore, if_true]

theorem Address.Hex_of_contract {addr : Address} {core : List UInt8} (h : addr.1 = core ++ [ContractAddrByte])
    (hcore : core.length = AddressCoreSize) :
    addr.Hex vcrypto =
      AddressPrefix ++ Hex.EncodeToString core ++ Hex.EncodeToString (LDI (vcrypto.Hash addressChecksumSize core)) := by
  have hne : ContractAddrByte ≠ UserAddrByte := by decide
  simp only [Address.Hex, Address.take_core h hcore, Address.getElem!_core h hcore, hne, if_false, if_true]

theorem length_take_core (addr : Address) : (addr.1.take AddressCoreSize).length = AddressCoreSize := by
  have hlen : addr.1.length = AddressSize := addr.2
  simp [hlen, AddressSize, AddressCoreSize]

theorem length_address_checksum (core : List UInt8) :
    (vcrypto.Hash addressChecksumSize core).length = addressChecksumSize :=
  vcrypto.length_Hash _ _ (by decide) (by decide)

/-- What a text that reads as an address is made of: the prefix, the core's digits and the checksum's
digits, the checksum of the core written plainly for a user and flipped for a contract. -/
theorem ValidHexAddress_eq_ok {s : List UInt8} {addr : Address} (h : ValidHexAddress vcrypto s = .ok addr) :
    ∃ t₁ t₂ core sum, s = AddressPrefix ++ t₁ ++ t₂ ∧ Hex.DecodeString t₁ = .ok core ∧
      Hex.DecodeString t₂ = .ok sum ∧ core.length = AddressCoreSize ∧
      (vcrypto.Hash addressChecksumSize core = sum ∧ addr.1 = core ++ [UserAddrByte] ∨
        vcrypto.Hash addressChecksumSize core = LDI sum ∧ addr.1 = core ++ [ContractAddrByte]) := by
  unfold ValidHexAddress at h
  dsimp only at h
  split at h
  · cases h
  rename_i hg
  obtain ⟨hs, hp⟩ : s.length = hexAddressLength ∧ AddressPrefix <+: s := by
    simpa only [not_or, not_not] using hg
  obtain ⟨core, hcore, h⟩ := Except.bind_eq_ok.mp h
  obtain ⟨sum, hsum, h⟩ := Except.bind_eq_ok.mp h
  have hs' := eq_prefix_slices hp hexAddrCoreLen
  have ht₁ : ((s.drop AddressPrefix.length).take hexAddrCoreLen).length = 2 * AddressCoreSize := by
    rw [List.length_take, List.length_drop, hs]
    rfl
  have ht₂ : (s.drop (hexAddrCoreLen + AddressPrefix.length)).length = 2 * addressChecksumSize := by
    rw [List.length_drop, hs]
    rfl
  have hcore' := (map_fixedBytes_eq_ok ht₁).mp (Except.mapError_eq_ok.mp hcore)
  have hsum' := (map_fixedBytes_eq_ok ht₂).mp (Except.mapError_eq_ok.mp hsum)
  refine ⟨_, _, core.1, sum.1, hs', hcore', hsum', core.2, ?_⟩
  split at h
  · exact .inl ⟨‹_›, setBytes_eq_ok.mp h⟩
  split at h
  · exact .inr ⟨‹_›, setBytes_eq_ok.mp h⟩
  · cases h

/-- On the prefix and two parts that decode to a core and a checksum, reading comes down to the
checksum. -/
theorem ValidHexAddress_append {t₁ t₂ core sum : List UInt8} (h₁ : Hex.DecodeString t₁ = .ok core)
    (h₂ : Hex.DecodeString t₂ = .ok sum) (hcore : core.length = AddressCoreSize)
    (hsum : sum.length = addressChecksumSize) :
    ValidHexAddress vcrypto (AddressPrefix ++ t₁ ++ t₂) =
      if vcrypto.Hash addressChecksumSize core = sum then GenUserAddress core
      else if vcrypto.Hash addressChecksumSize core = LDI sum then GenContractAddress core
      else throw (.checksum (AddressPrefix ++ t₁ ++ t₂)) := by
  have ht₁ : t₁.length = hexAddrCoreLen := by
    rw [Hex.length_of_DecodeString h₁, hcore]
    rfl
  have ht₂ : t₂.length = hexAddrChecksumLen := by
    rw [Hex.length_of_DecodeString h₂, hsum]
    rfl
  have hg : ¬((AddressPrefix ++ t₁ ++ t₂).length ≠ hexAddressLength ∨ ¬AddressPrefix <+: AddressPrefix ++ t₁ ++ t₂) := by
    simp only [List.length_append, ht₁, ht₂, List.append_assoc, List.prefix_append, not_true, or_false, not_not]
    rfl
  have hcore' : getAddrCoreFromHex (AddressPrefix ++ t₁ ++ t₂) = .ok ⟨core, hcore⟩ := by
    have hslice : ((AddressPrefix ++ t₁ ++ t₂).drop addressPrefixLen).take hexAddrCoreLen = t₁ := by
      rw [← ht₁]
      exact drop_take_prefix_append _ _ _
    unfold getAddrCoreFromHex
    rw [hslice]
    exact (map_fixedBytes_eq_ok (by rw [ht₁]; rfl)).mpr h₁
  have hsum' : getAddressChecksumFromHex (AddressPrefix ++ t₁ ++ t₂) = .ok ⟨sum, hsum⟩ := by
    unfold getAddressChecksumFromHex
    rw [addressPrefixLen, ← ht₁, Nat.add_comm, drop_prefix_append]
    exact (map_fixedBytes_eq_ok (by rw [ht₂]; rfl)).mpr h₂
  unfold ValidHexAddress
  dsimp only
  rw [if_neg hg, hcore', hsum']
  rfl

/-- **Address text.** A text reads as an address exactly when it starts with the prefix in
lowercase, the address is a user's or a contract's, and the text is that address's text, the case
of its hexadecimal letters aside. -/
theorem ValidHexAddress_eq_ok_iff {s : List UInt8} {addr : Address} :
    ValidHexAddress vcrypto s = .ok addr ↔
      AddressPrefix <+: s ∧ (addr.1[AddressCoreSize]! = UserAddrByte ∨ addr.1[AddressCoreSize]! = ContractAddrByte) ∧
        addr.Hex vcrypto = s.map Hex.toLower := by
  constructor
  · intro h
    obtain ⟨t₁, t₂, core, sum, rfl, h₁, h₂, hcore, hkind⟩ := ValidHexAddress_eq_ok vcrypto h
    refine ⟨List.prefix_append_of_prefix (List.prefix_append _ _), ?_⟩
    rw [map_toLower_prefix_append map_toLower_AddressPrefix h₁ h₂]
    rcases hkind with ⟨hsum, hu⟩ | ⟨hsum, hc⟩
    · refine ⟨.inl (Address.getElem!_core hu hcore), ?_⟩
      rw [Address.Hex_of_user vcrypto hu hcore, hsum]
    · refine ⟨.inr (Address.getElem!_core hc hcore), ?_⟩
      rw [Address.Hex_of_contract vcrypto hc hcore, hsum, LDI_LDI]
  · rintro ⟨hp, hkind, hhex⟩
    have haddr := Address.eq_core_append addr
    have hcore := length_take_core addr
    have hne := LDI_ne_self (List.ne_nil_of_length_pos
      (by rw [length_address_checksum vcrypto (addr.1.take AddressCoreSize)]; decide))
    rcases hkind with hu | hc
    · rw [Address.Hex, if_pos hu] at hhex
      obtain ⟨t₁, t₂, rfl, h₁, h₂⟩ := split_of_map_toLower map_toLower_AddressPrefix hp hhex
      rw [ValidHexAddress_append vcrypto h₁ h₂ hcore (length_address_checksum vcrypto _), if_pos rfl]
      exact setBytes_eq_ok.mpr (hu ▸ haddr)
    · rw [Address.Hex, if_neg (by rw [hc]; decide), if_pos hc] at hhex
      obtain ⟨t₁, t₂, rfl, h₁, h₂⟩ := split_of_map_toLower map_toLower_AddressPrefix hp hhex
      rw [ValidHexAddress_append vcrypto h₁ h₂ hcore (by rw [LDI, List.length_map, length_address_checksum]),
        if_neg hne, LDI_LDI, if_pos rfl]
      exact setBytes_eq_ok.mpr (hc ▸ haddr)

/-! ## Token ids and hashes -/

/-- `"tti_"` -/
def TokenTypeIdPrefix : List UInt8 := [116, 116, 105, 95]
def TokenTypeIdSize : ℕ := 10
def tokenTypeIdChecksumSize : ℕ := 2
def tokenTypeIdPrefixLen : ℕ := TokenTypeIdPrefix.length
def hexTokenTypeIdLength : ℕ := tokenTypeIdPrefixLen + 2 * TokenTypeIdSize + 2 * tokenTypeIdChecksumSize

/-- `TokenTypeId`, `[TokenTypeIdSize]byte`. -/
def TokenTypeId := { b : List UInt8 // b.length = TokenTypeIdSize }

instance : DecidableEq TokenTypeId := inferInstanceAs (DecidableEq { b : List UInt8 // b.length = TokenTypeIdSize })

def TokenTypeId.Hex (tid : TokenTypeId) : List UInt8 :=
  TokenTypeIdPrefix ++ Hex.EncodeToString tid.1 ++ Hex.EncodeToString (vcrypto.Hash tokenTypeIdChecksumSize tid.1)

def getTokenTypeIdFromHex (hexStr : List UInt8) : Except Hex.Error TokenTypeId :=
  (Hex.DecodeString ((hexStr.drop tokenTypeIdPrefixLen).take (2 * TokenTypeIdSize))).map
    (fixedBytes TokenTypeIdSize)

def getTtiChecksumFromHex (hexStr : List UInt8) :
    Except Hex.Error { b : List UInt8 // b.length = tokenTypeIdChecksumSize } :=
  (Hex.DecodeString (hexStr.drop (tokenTypeIdPrefixLen + 2 * TokenTypeIdSize))).map
    (fixedBytes tokenTypeIdChecksumSize)

def IsValidHexTokenTypeId (hexStr : List UInt8) : Bool :=
  if hexStr.length ≠ hexTokenTypeIdLength ∨ ¬ TokenTypeIdPrefix <+: hexStr then false
  else
    match getTokenTypeIdFromHex hexStr, getTtiChecksumFromHex hexStr with
    | .ok tti, .ok ttiChecksum => vcrypto.Hash tokenTypeIdChecksumSize tti.1 = ttiChecksum.1
    | _, _ => false

/-- `HexToTokenTypeId`; its error is `Not valid hex TokenTypeId`. -/
def HexToTokenTypeId (hexStr : List UInt8) : Except Unit TokenTypeId :=
  if IsValidHexTokenTypeId vcrypto hexStr then
    match getTokenTypeIdFromHex hexStr with
    | .ok tti => .ok tti
    | .error _ => .ok (fixedBytes TokenTypeIdSize [])
  else .error ()

def HashSize : ℕ := 32

/-- `Hash`, `[HashSize]byte`. -/
def Hash := { b : List UInt8 // b.length = HashSize }

instance : DecidableEq Hash := inferInstanceAs (DecidableEq { b : List UInt8 // b.length = HashSize })

inductive HashError where
  /-- `error hex hash size %v` -/
  | hexSize (length : ℕ)
  | hex (e : Hex.Error)
  /-- `error hash size %v` -/
  | size (length : ℕ)

def BytesToHash (b : List UInt8) : Except HashError Hash := setBytes HashSize .size b

def HexToHash (hexstr : List UInt8) : Except HashError Hash :=
  if hexstr.length ≠ 2 * HashSize then .error (.hexSize hexstr.length)
  else
    match Hex.DecodeString hexstr with
    | .error e => .error (.hex e)
    | .ok b => BytesToHash b

def Hash.Hex (h : Hash) : List UInt8 := Hex.EncodeToString h.1

/-! ## Token ids and hashes read back -/

theorem map_toLower_TokenTypeIdPrefix : TokenTypeIdPrefix.map Hex.toLower = TokenTypeIdPrefix := by
  decide

theorem length_tti_checksum (tti : List UInt8) :
    (vcrypto.Hash tokenTypeIdChecksumSize tti).length = tokenTypeIdChecksumSize :=
  vcrypto.length_Hash _ _ (by decide) (by decide)

theorem getTokenTypeIdFromHex_append {t₁ t₂ tti : List UInt8} (h₁ : Hex.DecodeString t₁ = .ok tti)
    (htti : tti.length = TokenTypeIdSize) :
    getTokenTypeIdFromHex (TokenTypeIdPrefix ++ t₁ ++ t₂) = .ok ⟨tti, htti⟩ := by
  have ht₁ : t₁.length = 2 * TokenTypeIdSize := by
    rw [Hex.length_of_DecodeString h₁, htti]
  have hslice : ((TokenTypeIdPrefix ++ t₁ ++ t₂).drop tokenTypeIdPrefixLen).take (2 * TokenTypeIdSize) = t₁ := by
    rw [← ht₁]
    exact drop_take_prefix_append _ _ _
  unfold getTokenTypeIdFromHex
  rw [hslice]
  exact (map_fixedBytes_eq_ok ht₁).mpr h₁

theorem getTtiChecksumFromHex_append {t₁ t₂ sum : List UInt8} (ht₁ : t₁.length = 2 * TokenTypeIdSize)
    (h₂ : Hex.DecodeString t₂ = .ok sum) (hsum : sum.length = tokenTypeIdChecksumSize) :
    getTtiChecksumFromHex (TokenTypeIdPrefix ++ t₁ ++ t₂) = .ok ⟨sum, hsum⟩ := by
  unfold getTtiChecksumFromHex
  rw [tokenTypeIdPrefixLen, ← ht₁, drop_prefix_append]
  exact (map_fixedBytes_eq_ok (by rw [Hex.length_of_DecodeString h₂, hsum])).mpr h₂

/-- On the prefix and two parts that decode to an id and a checksum, the check is the checksum's. -/
theorem IsValidHexTokenTypeId_append {t₁ t₂ tti sum : List UInt8} (h₁ : Hex.DecodeString t₁ = .ok tti)
    (h₂ : Hex.DecodeString t₂ = .ok sum) (htti : tti.length = TokenTypeIdSize)
    (hsum : sum.length = tokenTypeIdChecksumSize) :
    IsValidHexTokenTypeId vcrypto (TokenTypeIdPrefix ++ t₁ ++ t₂) = decide (vcrypto.Hash tokenTypeIdChecksumSize tti = sum) := by
  have ht₁ : t₁.length = 2 * TokenTypeIdSize := by
    rw [Hex.length_of_DecodeString h₁, htti]
  have ht₂ : t₂.length = 2 * tokenTypeIdChecksumSize := by
    rw [Hex.length_of_DecodeString h₂, hsum]
  have hg : ¬((TokenTypeIdPrefix ++ t₁ ++ t₂).length ≠ hexTokenTypeIdLength ∨
      ¬TokenTypeIdPrefix <+: TokenTypeIdPrefix ++ t₁ ++ t₂) := by
    simp only [List.length_append, ht₁, ht₂, List.append_assoc, List.prefix_append, not_true, or_false, not_not]
    rfl
  unfold IsValidHexTokenTypeId
  rw [if_neg hg, getTokenTypeIdFromHex_append h₁ htti, getTtiChecksumFromHex_append ht₁ h₂ hsum]

/-- What a valid token id text is made of. -/
theorem IsValidHexTokenTypeId_eq_true {s : List UInt8} (h : IsValidHexTokenTypeId vcrypto s = true) :
    ∃ t₁ t₂ tti sum, s = TokenTypeIdPrefix ++ t₁ ++ t₂ ∧ Hex.DecodeString t₁ = .ok tti ∧
      Hex.DecodeString t₂ = .ok sum ∧ tti.length = TokenTypeIdSize ∧ vcrypto.Hash tokenTypeIdChecksumSize tti = sum := by
  unfold IsValidHexTokenTypeId at h
  split at h
  · cases h
  rename_i hg
  obtain ⟨hs, hp⟩ : s.length = hexTokenTypeIdLength ∧ TokenTypeIdPrefix <+: s := by
    simpa only [not_or, not_not] using hg
  have ht₁ : ((s.drop TokenTypeIdPrefix.length).take (2 * TokenTypeIdSize)).length = 2 * TokenTypeIdSize := by
    rw [List.length_take, List.length_drop, hs]
    rfl
  have ht₂ : (s.drop (tokenTypeIdPrefixLen + 2 * TokenTypeIdSize)).length = 2 * tokenTypeIdChecksumSize := by
    rw [List.length_drop, hs]
    rfl
  split at h
  · rename_i tti sum htti hsum
    have hs' := eq_prefix_slices hp (2 * TokenTypeIdSize)
    rw [Nat.add_comm] at hs'
    exact ⟨_, _, tti.1, sum.1, hs', (map_fixedBytes_eq_ok ht₁).mp htti, (map_fixedBytes_eq_ok ht₂).mp hsum,
      tti.2, of_decide_eq_true h⟩
  · cases h

/-- **Token id text.** A text reads as a token id exactly when it starts with the prefix in
lowercase and is that id's text, the case of its hexadecimal letters aside. -/
theorem HexToTokenTypeId_eq_ok_iff {s : List UInt8} {tid : TokenTypeId} :
    HexToTokenTypeId vcrypto s = .ok tid ↔ TokenTypeIdPrefix <+: s ∧ tid.Hex vcrypto = s.map Hex.toLower := by
  constructor
  · intro h
    unfold HexToTokenTypeId at h
    split at h
    · rename_i hv
      obtain ⟨t₁, t₂, tti, sum, rfl, h₁, h₂, htti, hck⟩ := IsValidHexTokenTypeId_eq_true vcrypto hv
      rw [getTokenTypeIdFromHex_append h₁ htti] at h
      cases h
      refine ⟨List.prefix_append_of_prefix (List.prefix_append _ _), ?_⟩
      rw [map_toLower_prefix_append map_toLower_TokenTypeIdPrefix h₁ h₂]
      unfold TokenTypeId.Hex
      rw [hck]
    · cases h
  · rintro ⟨hp, hhex⟩
    rw [TokenTypeId.Hex] at hhex
    obtain ⟨t₁, t₂, rfl, h₁, h₂⟩ := split_of_map_toLower map_toLower_TokenTypeIdPrefix hp hhex
    unfold HexToTokenTypeId
    rw [IsValidHexTokenTypeId_append vcrypto h₁ h₂ tid.2 (length_tti_checksum vcrypto _), decide_eq_true rfl,
      if_pos rfl, getTokenTypeIdFromHex_append h₁ tid.2]
    rfl

/-- A hash's text is its sixty-four digits, read back in either case. -/
theorem HexToHash_eq_ok_iff {s : List UInt8} {h : Hash} : HexToHash s = .ok h ↔ h.Hex = s.map Hex.toLower := by
  constructor
  · intro hs
    unfold HexToHash at hs
    split at hs
    · cases hs
    split at hs
    · cases hs
    · rename_i b hb
      rw [Hash.Hex, setBytes_eq_ok.mp hs]
      exact Hex.EncodeToString_of_DecodeString hb
  · intro hh
    have hlen : s.length = 2 * HashSize := by
      rw [← List.length_map (f := Hex.toLower), ← hh, Hash.Hex, Hex.length_EncodeToString, h.2]
    unfold HexToHash
    rw [if_neg (not_not.mpr hlen), Hex.DecodeString_of_map_toLower hh.symm]
    exact setBytes_eq_ok.mpr rfl

end Vite.Types
