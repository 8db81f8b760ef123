import Mathlib.Data.Vector.Basic
import Vite.Vm.Abi
import Vite.Vm.Quota

/-!
# The hash preimage of an account block

`hashSource` (interfaces/core/account_block.go) lays out the fields a block's hash covers: a head
of fixed width (the type, the previous hash, the height, the account, then the recipient, the
amount padded to 32 bytes and the token for a send, or the hash of the send for a receive),
followed by a tail whose parts are optional or of any count: the hash of the data if there is
data, the fee padded to 32 bytes, the log hash if there is one, the nonce padded to 8 bytes, and
the hashes of the send blocks. `ComputeSendHash` appends the host's previous hash, height and the
send's index.

The head is read back from the preimage (`hashSource_head`), and so is the host of a sub-send
(`sendHashExtra_determined`). The tail is not: nothing in it says which optional parts are
present, and the self checks of the verifier do not pin them down. A send with data and no log
hash has the preimage of the same send without data, with the data's hash as its fee and its old
padded fee as its log hash (`hashSource_dataHash_as_fee`); both pass the self checks.
-/

namespace Vite.Core

open BigEndian Vite.Abi Vite.Vm

/-- The fields of a `ledger.AccountBlock` that the hash, the self checks and the nonce check read.
`Amount` and `Fee` are `*big.Int`s, a nil one read as `0` as the checks and the hash read it. -/
structure AccountBlock where
  BlockType : UInt8
  Hash : Vector UInt8 32
  PrevHash : Vector UInt8 32
  Height : UInt64
  AccountAddress : Vector UInt8 21
  PublicKey : List UInt8
  ToAddress : Vector UInt8 21
  Amount : ℤ
  TokenId : Vector UInt8 10
  FromBlockHash : Vector UInt8 32
  Data : List UInt8
  Fee : ℤ
  LogHash : Option (Vector UInt8 32)
  Difficulty : Option ℤ
  Nonce : List UInt8
  SendBlockList : List AccountBlock
  Signature : List UInt8

def ZERO_HASH : Vector UInt8 32 := Vector.replicate 32 0

def ZERO_ADDRESS : Vector UInt8 21 := Vector.replicate 21 0

def ZERO_TOKENID : Vector UInt8 10 := Vector.replicate 10 0

/-- `types.IsContractAddr`: the last byte of the address is `ContractAddrByte`. -/
def IsContractAddr (addr : Vector UInt8 21) : Bool := addr[20] == 1

def IsSendBlock (blockType : UInt8) : Bool :=
  blockType == 1 || blockType == 2 || blockType == 3 || blockType == 6

/-! ## The preimage -/

section Preimage

-- `crypto.Hash256`, the 32-byte blake2b digest, is left abstract
variable (Hash256 : List UInt8 → List UInt8)

/-- The head of the preimage: the fixed-width fields. -/
def hashSourceHead (ab : AccountBlock) : List UInt8 :=
  [ab.BlockType] ++ ab.PrevHash.toList ++ toBytesBE 8 ab.Height.toNat ++ ab.AccountAddress.toList ++
    if IsSendBlock ab.BlockType then
      ab.ToAddress.toList ++ LeftPadBytes (bigBytes ab.Amount.natAbs) 32 ++ ab.TokenId.toList
    else ab.FromBlockHash.toList

/-- The tail of the preimage: the data's hash, the fee, the log hash, the nonce and the send
hashes. -/
def hashSourceTail (ab : AccountBlock) : List UInt8 :=
  (if 0 < ab.Data.length then Hash256 ab.Data else []) ++
    LeftPadBytes (bigBytes ab.Fee.natAbs) 32 ++
    (match ab.LogHash with
      | some logHash => logHash.toList
      | none => []) ++
    LeftPadBytes ab.Nonce 8 ++
    (ab.SendBlockList.map fun sendBlock => sendBlock.Hash.toList).flatten

def hashSource (ab : AccountBlock) (extraByte : List UInt8) : List UInt8 :=
  hashSourceHead ab ++ hashSourceTail Hash256 ab ++ extraByte

/-- The bytes `ComputeSendHash` appends: the host's previous hash, its height and the index. -/
def sendHashExtra (hostBlock : AccountBlock) (index : UInt8) : List UInt8 :=
  hostBlock.PrevHash.toList ++ toBytesBE 8 hostBlock.Height.toNat ++ [index]

def ComputeHash (ab : AccountBlock) : List UInt8 := Hash256 (hashSource Hash256 ab [])

def ComputeSendHash (ab hostBlock : AccountBlock) (index : UInt8) : List UInt8 :=
  Hash256 (hashSource Hash256 ab (sendHashExtra hostBlock index))

end Preimage

/-! ## The self checks -/

/-- The errors of the self checks: a text, or a sub-send's error with the contract, the index of
the sub-send and the two hashes that `recv-subSends[k](hash, sendHash)` prints. -/
inductive VerifyError where
  | text (msg : String)
  | subSend (err : String) (contract : Vector UInt8 21) (k : ℕ) (hash sendHash : Vector UInt8 32)

def ErrVerifyAccountNotInvalid : String := "general account's sendBlock.Height must be larger than 1"

def ErrVerifyPowNotEligible : String := "verify that it's not eligible to do pow"

def ErrVerifyNonceFailed : String := "check pow nonce failed"

/-- `math.MaxBigIntLen`: a `BitLen` above it is out of bounds. -/
def MaxBigIntLen : ℕ := 256

def verifySendBlockIntegrity (block : AccountBlock) : Except String Unit :=
  if block.TokenId = ZERO_TOKENID ∧ block.Amount ≠ 0 then
    .error "sendBlock.TokenId can't be ZERO_TOKENID when amount has value"
  else if block.Amount < 0 ∨ 2 ^ MaxBigIntLen ≤ block.Amount then
    .error "sendBlock.Amount out of bounds"
  else if block.Fee < 0 ∨ 2 ^ MaxBigIntLen ≤ block.Fee then .error "sendBlock.Fee out of bounds"
  else if block.FromBlockHash ≠ ZERO_HASH then .error "sendBlock.FromBlockHash must be ZERO_HASH"
  else if IsContractAddr block.AccountAddress then
    if block.Height ≠ 0 then .error "contract's sendBlock.Height must be 0"
    else if block.Signature.length ≠ 0 ∨ block.PublicKey.length ≠ 0 then
      .error "signature and publicKey of the contract's send must be nil"
    else .ok ()
  else if block.Height ≤ 1 then .error ErrVerifyAccountNotInvalid
  else .ok ()

/-- The loop of `verifyReceiveBlockIntegrity` over the sub-sends, from index `k`. -/
def verifySubSends (block : AccountBlock) : ℕ → List AccountBlock → Except VerifyError Unit
  | _, [] => .ok ()
  | k, sendBlock :: rest =>
    match verifySendBlockIntegrity sendBlock with
    | .error err => .error (.subSend err block.AccountAddress k block.Hash sendBlock.Hash)
    | .ok () => verifySubSends block (k + 1) rest

def verifyReceiveBlockIntegrity (block : AccountBlock) : Except VerifyError Unit :=
  if block.TokenId ≠ ZERO_TOKENID then .error (.text "receive.TokenId must be ZERO_TOKENID")
  else if block.Amount ≠ 0 then
    .error (.text "receive.Amount can't be anything other than nil or 0 ")
  else if block.Fee ≠ 0 then .error (.text "receive.Fee can't be anything other than nil or 0")
  else if block.ToAddress ≠ ZERO_ADDRESS then .error (.text "receive.ToAddress must be ZERO_ADDRESS")
  else if block.Height ≤ 0 then .error (.text "receive.Height must be larger than 0")
  else if 0 < block.Data.length ∧ !IsContractAddr block.AccountAddress then
    .error (.text "receive.Data is not allowed when the account is general user")
  else if 0 < block.SendBlockList.length ∧ !IsContractAddr block.AccountAddress then
    .error (.text "generalAddr's receive.SendBlockList must be nil")
  else verifySubSends block 0 block.SendBlockList

/-- `verifyNonce`, with `pow.CheckPowNonce` left abstract: a nonce is eight bytes with a
difficulty, from a general account, and passes the PoW check; no nonce goes with no difficulty. -/
def verifyNonce (Hash256 : List UInt8 → List UInt8) (CheckPowNonce : ℤ → List UInt8 → List UInt8 → Bool)
    (block : AccountBlock) : Except String Unit :=
  if block.Nonce.length ≠ 0 then
    if IsContractAddr block.AccountAddress then .error ErrVerifyPowNotEligible
    else
      match block.Difficulty with
      | none => .error ErrVerifyPowNotEligible
      | some difficulty =>
        if block.Nonce.length ≠ 8 then .error ErrVerifyPowNotEligible
        else if !CheckPowNonce difficulty block.Nonce
            (Hash256 (block.AccountAddress.toList ++ block.PrevHash.toList)) then
          .error ErrVerifyNonceFailed
        else .ok ()
  else if block.Difficulty.isSome then .error ErrVerifyPowNotEligible
  else .ok ()

/-- The self checks under which the preimage is meant to be unambiguous: the integrity check of
the block's kind and the nonce check. -/
def PassesSelfChecks (Hash256 : List UInt8 → List UInt8)
    (CheckPowNonce : ℤ → List UInt8 → List UInt8 → Bool) (block : AccountBlock) : Prop :=
  (if IsSendBlock block.BlockType then verifySendBlockIntegrity block = .ok ()
    else verifyReceiveBlockIntegrity block = .ok ()) ∧
    verifyNonce Hash256 CheckPowNonce block = .ok ()

/-! ## Big-endian bytes of an amount -/

theorem beValue_bigBytes_go (fuel v : ℕ) (acc : List UInt8) (hfuel : v ≤ fuel) :
    beValue (bigBytes.go fuel v acc) = v * 256 ^ acc.length + beValue acc := by
  induction fuel generalizing v acc with
  | zero =>
    obtain rfl : v = 0 := by omega
    simp [bigBytes.go]
  | succ fuel ih =>
    unfold bigBytes.go
    split_ifs with hv
    · simp [hv]
    · have hdigit : (UInt8.ofNat (v % 256)).toNat = v % 256 := by
        rw [UInt8.toNat_ofNat', Nat.mod_mod]
      rw [ih (v / 256) _ (by omega), List.length_cons, beValue, hdigit]
      -- one more digit: `v = 256 * (v / 256) + v % 256`
      conv_rhs => rw [← Nat.div_add_mod v 256]
      ring

theorem length_bigBytes_go_le (fuel v n : ℕ) (acc : List UInt8) (hv : v < 256 ^ n) :
    (bigBytes.go fuel v acc).length ≤ acc.length + n := by
  induction fuel generalizing v acc n with
  | zero => simp [bigBytes.go]
  | succ fuel ih =>
    unfold bigBytes.go
    split_ifs with hzero
    · omega
    · obtain ⟨m, rfl⟩ : ∃ m, n = m + 1 :=
        Nat.exists_eq_add_one_of_ne_zero fun h => by simp [h] at hv; omega
      have hrest : v / 256 < 256 ^ m := by
        rw [pow_succ] at hv
        omega
      have := ih (v / 256) m (UInt8.ofNat (v % 256) :: acc) hrest
      simp only [List.length_cons] at this
      omega

theorem beValue_bigBytes (v : ℕ) : beValue (bigBytes v) = v := by
  simpa [bigBytes, beValue] using beValue_bigBytes_go v v [] le_rfl

theorem length_bigBytes_le {v n : ℕ} (hv : v < 256 ^ n) : (bigBytes v).length ≤ n := by
  simpa [bigBytes] using length_bigBytes_go_le v v n [] hv

theorem beValue_replicate_zero_append (k : ℕ) (bs : List UInt8) :
    beValue (List.replicate k 0 ++ bs) = beValue bs := by
  induction k with
  | zero => rfl
  | succ k ih => rw [List.replicate_succ, List.cons_append, beValue_zero_cons, ih]

theorem beValue_LeftPadBytes (bs : List UInt8) (l : ℕ) : beValue (LeftPadBytes bs l) = beValue bs := by
  unfold LeftPadBytes
  split_ifs
  · rfl
  · exact beValue_replicate_zero_append _ _

/-- An amount within 256 bits takes exactly its 32 padded bytes. -/
theorem length_padded_amount {v : ℤ} (h0 : 0 ≤ v) (hv : v < 2 ^ MaxBigIntLen) :
    (LeftPadBytes (bigBytes v.natAbs) 32).length = 32 := by
  apply length_LeftPadBytes
  apply length_bigBytes_le
  simp only [MaxBigIntLen] at hv
  omega

/-- Below `256 ^ n`, the padded minimal bytes of a value are its `n` big-endian bytes. -/
theorem LeftPadBytes_bigBytes {v n : ℕ} (hv : v < 256 ^ n) :
    LeftPadBytes (bigBytes v) n = toBytesBE n v := by
  have hlen := length_LeftPadBytes (length_bigBytes_le hv)
  rw [← toBytesBE_beValue (LeftPadBytes (bigBytes v) n), hlen, beValue_LeftPadBytes,
    beValue_bigBytes]

theorem padded_amount_inj {v w : ℤ} (hv : 0 ≤ v) (hw : 0 ≤ w)
    (h : LeftPadBytes (bigBytes v.natAbs) 32 = LeftPadBytes (bigBytes w.natAbs) 32) : v = w := by
  have := congrArg beValue h
  rw [beValue_LeftPadBytes, beValue_LeftPadBytes, beValue_bigBytes, beValue_bigBytes] at this
  omega

theorem toBytesBE_eight_inj {a b : UInt64} (h : toBytesBE 8 a.toNat = toBytesBE 8 b.toNat) :
    a = b := by
  have := congrArg beValue h
  rw [beValue_toBytesBE, beValue_toBytesBE, Nat.mod_eq_of_lt (by simpa using a.toNat_lt),
    Nat.mod_eq_of_lt (by simpa using b.toNat_lt)] at this
  exact UInt64.toNat_inj.mp this

/-! ## What the self checks accept -/

/-- An accepted send has its amount and its fee within 256 bits. -/
theorem verifySendBlockIntegrity_bounds {block : AccountBlock}
    (h : verifySendBlockIntegrity block = .ok ()) :
    (0 ≤ block.Amount ∧ block.Amount < 2 ^ MaxBigIntLen) ∧
      (0 ≤ block.Fee ∧ block.Fee < 2 ^ MaxBigIntLen) := by
  unfold verifySendBlockIntegrity at h
  -- the error branches are closed by `h`; both accepting branches passed the two range checks
  split_ifs at h with htoken hamount hfee <;> exact ⟨by omega, by omega⟩

/-- The check reads the fee only through its range: a send stays accepted with any fee within
256 bits. -/
theorem verifySendBlockIntegrity_with_fee {block : AccountBlock} {fee : ℤ}
    (hfee : 0 ≤ fee ∧ fee < 2 ^ MaxBigIntLen) (h : verifySendBlockIntegrity block = .ok ()) :
    verifySendBlockIntegrity { block with Fee := fee } = .ok () := by
  have hold := (verifySendBlockIntegrity_bounds h).2
  have hnew : ¬(fee < 0 ∨ 2 ^ MaxBigIntLen ≤ fee) := by omega
  have hold' : ¬(block.Fee < 0 ∨ 2 ^ MaxBigIntLen ≤ block.Fee) := by omega
  rw [← h]
  unfold verifySendBlockIntegrity
  simp only [hnew, hold', if_false]

section SelfChecks

variable {Hash256 : List UInt8 → List UInt8} {CheckPowNonce : ℤ → List UInt8 → List UInt8 → Bool}

theorem PassesSelfChecks.send_integrity {block : AccountBlock}
    (h : PassesSelfChecks Hash256 CheckPowNonce block) (hsend : IsSendBlock block.BlockType) :
    verifySendBlockIntegrity block = .ok () := by
  have h1 := h.1
  rwa [if_pos hsend] at h1

theorem PassesSelfChecks.amount_bounds {block : AccountBlock}
    (h : PassesSelfChecks Hash256 CheckPowNonce block) (hsend : IsSendBlock block.BlockType) :
    0 ≤ block.Amount ∧ block.Amount < 2 ^ MaxBigIntLen :=
  (verifySendBlockIntegrity_bounds (h.send_integrity hsend)).1

end SelfChecks

/-! ## The head of the preimage is read back -/

/-- Two blocks agree on the fields of the head. -/
def HeadAgree (a b : AccountBlock) : Prop :=
  a.BlockType = b.BlockType ∧ a.PrevHash = b.PrevHash ∧ a.Height = b.Height ∧
    a.AccountAddress = b.AccountAddress ∧
    if IsSendBlock a.BlockType then
      a.ToAddress = b.ToAddress ∧ a.Amount = b.Amount ∧ a.TokenId = b.TokenId
    else a.FromBlockHash = b.FromBlockHash

/-- The head is 125 bytes for a send whose amount fits in 256 bits, and 94 for a receive. -/
theorem length_hashSourceHead {ab : AccountBlock}
    (hamount : IsSendBlock ab.BlockType → 0 ≤ ab.Amount ∧ ab.Amount < 2 ^ MaxBigIntLen) :
    (hashSourceHead ab).length = 62 + if IsSendBlock ab.BlockType then 63 else 32 := by
  unfold hashSourceHead
  by_cases hsend : IsSendBlock ab.BlockType
  · obtain ⟨h0, hlt⟩ := hamount hsend
    simp [hsend, length_padded_amount h0 hlt]
  · simp [hsend]

theorem hashSourceHead_inj {a b : AccountBlock}
    (ha : IsSendBlock a.BlockType → 0 ≤ a.Amount ∧ a.Amount < 2 ^ MaxBigIntLen)
    (hb : IsSendBlock b.BlockType → 0 ≤ b.Amount ∧ b.Amount < 2 ^ MaxBigIntLen)
    (h : hashSourceHead a = hashSourceHead b) : HeadAgree a b := by
  unfold hashSourceHead at h
  simp only [List.append_assoc, List.singleton_append] at h
  obtain ⟨htype, h⟩ := List.cons_eq_cons.mp h
  -- the fixed-width fields, peeled off the front one after the other
  obtain ⟨hprev, h⟩ := List.append_inj h (by simp)
  obtain ⟨hheight, h⟩ := List.append_inj h (by simp)
  obtain ⟨haddr, h⟩ := List.append_inj h (by simp)
  refine ⟨htype, Vector.toList_inj.mp hprev, toBytesBE_eight_inj hheight,
    Vector.toList_inj.mp haddr, ?_⟩
  rw [← htype] at h hb
  by_cases hsend : IsSendBlock a.BlockType
  · simp only [hsend, if_true] at h ⊢
    obtain ⟨ha0, halt⟩ := ha hsend
    obtain ⟨hb0, hblt⟩ := hb hsend
    obtain ⟨hto, h⟩ := List.append_inj h (by simp)
    obtain ⟨hamount, htoken⟩ := List.append_inj h
      (by rw [length_padded_amount ha0 halt, length_padded_amount hb0 hblt])
    exact ⟨Vector.toList_inj.mp hto, padded_amount_inj ha0 hb0 hamount,
      Vector.toList_inj.mp htoken⟩
  · simp only [hsend, Bool.false_eq_true, if_false] at h ⊢
    exact Vector.toList_inj.mp h

/-- Two blocks that pass the self checks and have one preimage agree on the head. -/
theorem hashSource_head {Hash256 : List UInt8 → List UInt8}
    {CheckPowNonce : ℤ → List UInt8 → List UInt8 → Bool} {a b : AccountBlock}
    (ha : PassesSelfChecks Hash256 CheckPowNonce a) (hb : PassesSelfChecks Hash256 CheckPowNonce b)
    (h : hashSource Hash256 a [] = hashSource Hash256 b []) : HeadAgree a b := by
  -- the first byte is the type, and the type fixes the width of the head
  have htype : a.BlockType = b.BlockType := by
    simpa [hashSource, hashSourceHead] using congrArg List.head? h
  have hlen : (hashSourceHead a).length = (hashSourceHead b).length := by
    rw [length_hashSourceHead ha.amount_bounds, length_hashSourceHead hb.amount_bounds, htype]
  unfold hashSource at h
  rw [List.append_nil, List.append_nil] at h
  exact hashSourceHead_inj ha.amount_bounds hb.amount_bounds (List.append_inj h hlen).1

/-- The bytes a sub-send's hash appends read back as the host's previous hash and height and
the index. -/
theorem sendHashExtra_determined (Hash256 : List UInt8 → List UInt8)
    (s hostBlock hostBlock' : AccountBlock) (index index' : UInt8)
    (h : hashSource Hash256 s (sendHashExtra hostBlock index) =
      hashSource Hash256 s (sendHashExtra hostBlock' index')) :
    hostBlock.PrevHash = hostBlock'.PrevHash ∧ hostBlock.Height = hostBlock'.Height ∧
      index = index' := by
  unfold hashSource sendHashExtra at h
  have hextra := List.append_cancel_left h
  obtain ⟨hrest, hindex⟩ := List.append_inj' hextra rfl
  obtain ⟨hprev, hheight⟩ := List.append_inj' hrest (by simp)
  exact ⟨Vector.toList_inj.mp hprev, toBytesBE_eight_inj hheight, by simpa using hindex⟩

/-! ## The tail of the preimage is not read back -/

/-- The fee of `hashSource_dataHash_as_fee`'s block: a 32-byte digest read as a number is a fee
that the range check accepts, and its padded bytes are the digest. -/
theorem LeftPadBytes_digest_fee {digest : List UInt8} (hdigest : digest.length = 32) :
    (0 ≤ (beValue digest : ℤ) ∧ (beValue digest : ℤ) < 2 ^ MaxBigIntLen) ∧
      LeftPadBytes (bigBytes (beValue digest : ℤ).natAbs) 32 = digest := by
  have hlt : beValue digest < 256 ^ 32 := hdigest ▸ beValue_lt digest
  refine ⟨⟨by positivity, ?_⟩, ?_⟩
  · simp only [MaxBigIntLen]
    omega
  · rw [Int.natAbs_natCast, LeftPadBytes_bigBytes hlt, ← hdigest, toBytesBE_beValue]

/-- A send with data and no log hash, and the same send with no data, the data's hash as its fee
and its own padded fee as its log hash, pass the self checks alike and have one preimage. -/
theorem hashSource_dataHash_as_fee (Hash256 : List UInt8 → List UInt8)
    (CheckPowNonce : ℤ → List UInt8 → List UInt8 → Bool) (a : AccountBlock)
    (hsend : IsSendBlock a.BlockType) (hpass : PassesSelfChecks Hash256 CheckPowNonce a)
    (hdata : 0 < a.Data.length) (hlog : a.LogHash = none) (hdigest : (Hash256 a.Data).length = 32) :
    ∃ b : AccountBlock, PassesSelfChecks Hash256 CheckPowNonce b ∧
      hashSource Hash256 b [] = hashSource Hash256 a [] ∧ b.Data = [] ∧ b.LogHash.isSome := by
  have hintegrity := hpass.send_integrity hsend
  obtain ⟨hfee0, hfee⟩ := (verifySendBlockIntegrity_bounds hintegrity).2
  obtain ⟨hdigestFee, hdigestBytes⟩ := LeftPadBytes_digest_fee hdigest
  refine ⟨{ a with
      Data := []
      Fee := beValue (Hash256 a.Data)
      LogHash := some ⟨(LeftPadBytes (bigBytes a.Fee.natAbs) 32).toArray,
        by simpa using length_padded_amount hfee0 hfee⟩ }, ⟨?_, hpass.2⟩, ?_, rfl, rfl⟩
  · rw [if_pos hsend]
    exact verifySendBlockIntegrity_with_fee hdigestFee hintegrity
  · -- the heads are the same fields; in the tails the digest moves into the fee's place and the
    -- fee into the log hash's
    unfold hashSource hashSourceTail
    simp only [hlog, hdata, if_pos, List.length_nil, lt_irrefl, if_false, hdigestBytes,
      List.nil_append, List.append_nil]
    rfl

/-- A user's call: a send of nothing with one byte of data, from a general account at height 2. -/
def dataSend : AccountBlock where
  BlockType := 2
  Hash := ZERO_HASH
  PrevHash := ZERO_HASH
  Height := 2
  AccountAddress := ZERO_ADDRESS
  PublicKey := []
  ToAddress := ZERO_ADDRESS
  Amount := 0
  TokenId := ZERO_TOKENID
  FromBlockHash := ZERO_HASH
  Data := [1]
  Fee := 0
  LogHash := none
  Difficulty := none
  Nonce := []
  SendBlockList := []
  Signature := []

/-- `crypto.Hash256`, blake2b-256, on the one input the call's checks and preimage hash: its data,
the byte `0x01`. No other input is hashed here. -/
def dataSendHash256 (data : List UInt8) : List UInt8 :=
  if data = [1] then
    [0xee, 0x15, 0x5a, 0xce, 0x9c, 0x40, 0x29, 0x20, 0x74, 0xcb, 0x6a, 0xff, 0x8c, 0x9c, 0xcd, 0xd2,
      0x73, 0xc8, 0x16, 0x48, 0xff, 0x11, 0x49, 0xef, 0x36, 0xbc, 0xea, 0x6e, 0xbb, 0x8a, 0x3e, 0x25]
  else []

theorem hashSource_dataHash_as_fee_call :
    ∃ b : AccountBlock, PassesSelfChecks dataSendHash256 (fun _ _ _ => true) b ∧
      hashSource dataSendHash256 b [] = hashSource dataSendHash256 dataSend [] ∧
      b.Data = [] ∧ b.LogHash.isSome :=
  hashSource_dataHash_as_fee _ _ dataSend rfl ⟨rfl, rfl⟩ (by decide) rfl rfl

end Vite.Core
