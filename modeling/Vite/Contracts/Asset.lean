import Vite.Lib.AssocList
import Vite.Lib.ExceptRun
import Vite.Vm.Abi

/-!
# The asset contract's receives

`MethodReIssue`, `MethodBurn`, `MethodBurn2`, `MethodTransferOwnership` and `MethodDisableReIssue`
of vm/contracts/contracts_asset.go, on the token records the contract stores and its own balances,
with the builtin branch of `receiveCall` (vm/vm.go) around them: the send's amount is credited to
the contract, the method runs, and a failed method is reverted. `RunV2` hands the method a copy
of the receive block whose `Data` it has set to `nil`.

Every method reads its parameters from the send block, except `MethodBurn2`, which unpacks them
from the receive block; with `nil` data the unpacking fails and `util.DealWithErr` panics. Every
accepted `Burn2` send therefore crashes its receive (`burn2_receive_panics`); the other methods
change only the record of the token they name (`receiveCall_frame`), a re-issue raises its supply
and a burn lowers it by exactly the amount (`receiveCall_ReIssue`, `receiveCall_Burn`).
-/

namespace Vite.Contracts

abbrev Address := List UInt8

abbrev TokenTypeId := List UInt8

/-- The decoded `tokenInfo` variable: `big.Int` amounts are integers. -/
structure TokenInfo where
  TokenName : String
  TokenSymbol : String
  TotalSupply : ℤ
  Decimals : ℕ
  Owner : Address
  IsReIssuable : Bool
  MaxSupply : ℤ
  OwnerBurnOnly : Bool
  Index : ℕ
  deriving DecidableEq, Repr

/-- The fields of an account block the asset methods read. -/
structure AccountBlock where
  AccountAddress : Address
  Amount : ℤ
  TokenId : TokenTypeId
  Data : List UInt8
  deriving DecidableEq, Repr

/-- The asset contract's state: its token records (`GetTokenInfoKey`), its own balances, and the
forks `util.CheckFork` reads. -/
structure AssetDb where
  tokens : List (TokenTypeId × TokenInfo)
  balance : List (TokenTypeId × ℤ)
  earth : Bool
  versionX : Bool

structure ParamReIssue where
  TokenId : TokenTypeId
  Amount : ℤ
  ReceiveAddress : Address
  deriving DecidableEq, Repr

/-- `ParamBurn2`; `Target` is a `*big.Int` read from a `uint256`. -/
structure ParamBurn2 where
  Target : ℕ
  To : List UInt8
  deriving DecidableEq, Repr

structure ParamTransferOwnership where
  TokenId : TokenTypeId
  NewOwner : Address
  deriving DecidableEq, Repr

/-- A `SendReward` block the receive emits: `Amount` units of `TokenId` to `ToAddress`. -/
structure SendReward where
  ToAddress : Address
  Amount : ℤ
  TokenId : TokenTypeId
  deriving DecidableEq, Repr

inductive AssetError where
  | ErrInvalidMethodParam
  | ErrInsufficientBalance
  | errEmptyInput
  | errCouldNotLocateNamedMethod
  /-- an error of `Arguments.Unpack` -/
  | abi (e : Abi.AbiError)
  /-- `util.DealWithErr` panicked: the receive does not return. -/
  | panicked
  deriving DecidableEq, Repr

/-- The method a send calls, with the parameters its `DoSend` accepted. -/
inductive AssetCall where
  | ReIssue (param : ParamReIssue)
  | Burn
  | Burn2
  | TransferOwnership (param : ParamTransferOwnership)
  | DisableReIssue (tokenId : TokenTypeId)
  deriving DecidableEq, Repr

/-- The inputs of the asset ABI's method `Burn2`: `target` and `to`. -/
def Burn2Inputs : List Abi.Ty := [.UintTy 256, .BytesTy]

/-- The id of `Burn2`: the first four bytes of the blake2b-256 hash of its signature
`Burn2(uint256,bytes)`. No other method of the asset ABI has this id, so `MethodById` finds
`Burn2` exactly on it. -/
def Burn2Id : List UInt8 := [0x3d, 0x2d, 0x39, 0x5a]

/-- `ABIContract.UnpackMethod` for `Burn2`: an input of at most a selector is empty; one whose
selector is not `Burn2`'s names another method, or none; otherwise `Arguments.Unpack` reads the
parameters from the rest. `UnpackValues` gives an integer and a byte string for these inputs, so
the tuple's fields take them. -/
def UnpackMethod (input : List UInt8) : Except AssetError ParamBurn2 :=
  if input.length ≤ 4 then .error .errEmptyInput
  else if input.take 4 ≠ Burn2Id then .error .errCouldNotLocateNamedMethod
  else
    match Abi.UnpackValues Burn2Inputs (input.drop 4) with
    | .ok [.int target, .bytes toData] => .ok ⟨target.toNat, toData⟩
    | .ok _ => .error (.abi .errType)
    | .error e => .error (.abi e)

def GetTokenByID (db : AssetDb) (tokenId : TokenTypeId) : Option TokenInfo :=
  AssocList.find? tokenId db.tokens

def setTokenInfo (db : AssetDb) (tokenId : TokenTypeId) (info : TokenInfo) : AssetDb :=
  { db with tokens := AssocList.insert tokenId info db.tokens }

def AddBalance (db : AssetDb) (tokenId : TokenTypeId) (amount : ℤ) : AssetDb :=
  { db with balance := AssocList.modify tokenId (· + amount) 0 db.balance }

def balanceOf (db : AssetDb) (tokenId : TokenTypeId) : ℤ :=
  (AssocList.find? tokenId db.balance).getD 0

/-- `util.SubBalance`: `none` where the balance is short. -/
def SubBalance (db : AssetDb) (tokenId : TokenTypeId) (amount : ℤ) : Option AssetDb :=
  if balanceOf db tokenId < amount then none
  else some { db with balance := AssocList.insert tokenId (balanceOf db tokenId - amount) db.balance }

def MethodReIssue.DoReceive (db : AssetDb) (sendBlock : AccountBlock) (param : ParamReIssue) :
    Except AssetError (AssetDb × List SendReward) :=
  match GetTokenByID db param.TokenId with
  | none => .error .ErrInvalidMethodParam
  | some old =>
    if !old.IsReIssuable || old.Owner != sendBlock.AccountAddress ||
        decide (old.MaxSupply - old.TotalSupply < param.Amount) then .error .ErrInvalidMethodParam
    else
      .ok (setTokenInfo db param.TokenId { old with TotalSupply := old.TotalSupply + param.Amount },
        [⟨param.ReceiveAddress, param.Amount, param.TokenId⟩])

/-- The body `MethodBurn.DoReceive` runs and `MethodBurn2.DoReceive` copies: the send's amount
leaves the supply and the contract's balance. -/
def burnSent (db : AssetDb) (sendBlock : AccountBlock) :
    Except AssetError (AssetDb × List SendReward) :=
  match GetTokenByID db sendBlock.TokenId with
  | none => .error .ErrInvalidMethodParam
  | some old =>
    if (!db.earth && !old.IsReIssuable) ||
        (old.OwnerBurnOnly && old.Owner != sendBlock.AccountAddress) then .error .ErrInvalidMethodParam
    else
      match SubBalance db sendBlock.TokenId sendBlock.Amount with
      | none => .error .ErrInsufficientBalance
      | some db' =>
        .ok (setTokenInfo db' sendBlock.TokenId
          { old with TotalSupply := old.TotalSupply - sendBlock.Amount }, [])

def MethodBurn.DoReceive (db : AssetDb) (sendBlock : AccountBlock) :
    Except AssetError (AssetDb × List SendReward) :=
  burnSent db sendBlock

/-- `MethodBurn2.DoReceive` unpacks its parameters from `block.Data`, the receive block's, and
hands the error to `util.DealWithErr`. -/
def MethodBurn2.DoReceive (db : AssetDb)
    (block sendBlock : AccountBlock) : Except AssetError (AssetDb × List SendReward) :=
  match UnpackMethod block.Data with
  | .error _ => .error .panicked
  | .ok _ => burnSent db sendBlock

def MethodTransferOwnership.DoReceive (db : AssetDb) (sendBlock : AccountBlock)
    (param : ParamTransferOwnership) : Except AssetError (AssetDb × List SendReward) :=
  match GetTokenByID db param.TokenId with
  | none => .error .ErrInvalidMethodParam
  | some old =>
    if !old.IsReIssuable || old.Owner != sendBlock.AccountAddress then .error .ErrInvalidMethodParam
    else .ok (setTokenInfo db param.TokenId { old with Owner := param.NewOwner }, [])

def MethodDisableReIssue.DoReceive (db : AssetDb) (sendBlock : AccountBlock)
    (tokenId : TokenTypeId) : Except AssetError (AssetDb × List SendReward) :=
  match GetTokenByID db tokenId with
  | none => .error .ErrInvalidMethodParam
  | some old =>
    if !old.IsReIssuable || old.Owner != sendBlock.AccountAddress then .error .ErrInvalidMethodParam
    else
      .ok (setTokenInfo db tokenId
        { old with IsReIssuable := false, MaxSupply := 0, OwnerBurnOnly := false }, [])

def DoReceive (db : AssetDb)
    (block sendBlock : AccountBlock) : AssetCall → Except AssetError (AssetDb × List SendReward)
  | .ReIssue param => MethodReIssue.DoReceive db sendBlock param
  | .Burn => MethodBurn.DoReceive db sendBlock
  | .Burn2 => MethodBurn2.DoReceive db block sendBlock
  | .TransferOwnership param => MethodTransferOwnership.DoReceive db sendBlock param
  | .DisableReIssue tokenId => MethodDisableReIssue.DoReceive db sendBlock tokenId

/-- The builtin branch of `receiveCall`: credit the send's amount, run the method; a method that
returns an error is reverted (`vm.revert`) and its error returned, a panic stops the receive. -/
def receiveCall (db : AssetDb) (block sendBlock : AccountBlock) (call : AssetCall) :
    Except AssetError (AssetDb × List SendReward) :=
  DoReceive (AddBalance db sendBlock.TokenId sendBlock.Amount) block sendBlock call

/-- `VM.RunV2` on a receive: the method gets a copy of the block with `Data = nil`. -/
def RunV2Receive (db : AssetDb) (block sendBlock : AccountBlock) (call : AssetCall) :
    Except AssetError (AssetDb × List SendReward) :=
  receiveCall db { block with Data := [] } sendBlock call

/-- `MethodBurn2.DoSend`: a positive amount, after the VersionX fork, with data that unpacks. -/
def MethodBurn2.DoSend (versionX : Bool) (block : AccountBlock) : Except AssetError ParamBurn2 :=
  if block.Amount ≤ 0 then .error .ErrInvalidMethodParam
  else if !versionX then .error .ErrInvalidMethodParam
  else UnpackMethod block.Data

/-! ## What a receive does -/

section Storage

variable {db db' : AssetDb} {t t' : TokenTypeId} {info : TokenInfo} {x : ℤ}

@[simp] theorem GetTokenByID_setTokenInfo_self : GetTokenByID (setTokenInfo db t info) t = some info :=
  AssocList.find?_insert_self t info db.tokens

theorem GetTokenByID_setTokenInfo_ne (h : t' ≠ t) :
    GetTokenByID (setTokenInfo db t info) t' = GetTokenByID db t' :=
  AssocList.find?_insert_ne h info db.tokens

@[simp] theorem GetTokenByID_AddBalance : GetTokenByID (AddBalance db t x) t' = GetTokenByID db t' :=
  rfl

@[simp] theorem balanceOf_setTokenInfo : balanceOf (setTokenInfo db t info) = balanceOf db := rfl

@[simp] theorem balanceOf_AddBalance_self : balanceOf (AddBalance db t x) t = balanceOf db t + x := by
  simp [balanceOf, AddBalance, AssocList.find?_modify_self]

theorem SubBalance_ok (h : SubBalance db t x = some db') :
    x ≤ balanceOf db t ∧ balanceOf db' t = balanceOf db t - x ∧ db'.tokens = db.tokens := by
  unfold SubBalance at h
  split_ifs at h with hlt
  cases h
  refine ⟨not_lt.mp hlt, ?_, rfl⟩
  simp [balanceOf, AssocList.find?_insert_self]

end Storage

section Methods

variable {db db' : AssetDb} {block sendBlock : AccountBlock} {out : List SendReward}

theorem UnpackMethod_nil : UnpackMethod [] = .error .errEmptyInput := rfl

theorem MethodReIssue.DoReceive_ok {param : ParamReIssue}
    (h : MethodReIssue.DoReceive db sendBlock param = .ok (db', out)) :
    ∃ old, GetTokenByID db param.TokenId = some old ∧ old.IsReIssuable = true ∧
      old.Owner = sendBlock.AccountAddress ∧ param.Amount ≤ old.MaxSupply - old.TotalSupply ∧
      db' = setTokenInfo db param.TokenId { old with TotalSupply := old.TotalSupply + param.Amount } ∧
      out = [⟨param.ReceiveAddress, param.Amount, param.TokenId⟩] := by
  unfold MethodReIssue.DoReceive at h
  split at h
  · cases h
  rename_i old hold
  split_ifs at h with hbad
  cases h
  simp only [Bool.or_eq_true, Bool.not_eq_true', bne_iff_ne, ne_eq, decide_eq_true_eq, not_or,
    Bool.not_eq_false, not_not, not_lt] at hbad
  exact ⟨old, hold, hbad.1.1, hbad.1.2, hbad.2, rfl, rfl⟩

theorem burnSent_ok (h : burnSent db sendBlock = .ok (db', out)) :
    ∃ old db₁, GetTokenByID db sendBlock.TokenId = some old ∧
      (db.earth = true ∨ old.IsReIssuable = true) ∧
      (old.OwnerBurnOnly = true → old.Owner = sendBlock.AccountAddress) ∧
      SubBalance db sendBlock.TokenId sendBlock.Amount = some db₁ ∧
      db' = setTokenInfo db₁ sendBlock.TokenId
        { old with TotalSupply := old.TotalSupply - sendBlock.Amount } ∧ out = [] := by
  unfold burnSent at h
  split at h
  · cases h
  rename_i old hold
  split_ifs at h with hbad
  split at h
  · cases h
  rename_i db₁ hsub
  cases h
  simp only [Bool.or_eq_true, Bool.and_eq_true, Bool.not_eq_true', bne_iff_ne, ne_eq, not_or,
    not_and, not_not] at hbad
  refine ⟨old, db₁, hold, ?_, hbad.2, hsub, rfl, rfl⟩
  cases hearth : db.earth
  · exact Or.inr (by simpa using hbad.1 hearth)
  · exact Or.inl rfl

theorem MethodTransferOwnership.DoReceive_ok {param : ParamTransferOwnership}
    (h : MethodTransferOwnership.DoReceive db sendBlock param = .ok (db', out)) :
    ∃ old, GetTokenByID db param.TokenId = some old ∧ old.IsReIssuable = true ∧
      old.Owner = sendBlock.AccountAddress ∧
      db' = setTokenInfo db param.TokenId { old with Owner := param.NewOwner } ∧ out = [] := by
  unfold MethodTransferOwnership.DoReceive at h
  split at h
  · cases h
  rename_i old hold
  split_ifs at h with hbad
  cases h
  simp only [Bool.or_eq_true, Bool.not_eq_true', bne_iff_ne, ne_eq, not_or, Bool.not_eq_false,
    not_not] at hbad
  exact ⟨old, hold, hbad.1, hbad.2, rfl, rfl⟩

theorem MethodDisableReIssue.DoReceive_ok {tokenId : TokenTypeId}
    (h : MethodDisableReIssue.DoReceive db sendBlock tokenId = .ok (db', out)) :
    ∃ old, GetTokenByID db tokenId = some old ∧ old.IsReIssuable = true ∧
      old.Owner = sendBlock.AccountAddress ∧
      db' = setTokenInfo db tokenId
        { old with IsReIssuable := false, MaxSupply := 0, OwnerBurnOnly := false } ∧ out = [] := by
  unfold MethodDisableReIssue.DoReceive at h
  split at h
  · cases h
  rename_i old hold
  split_ifs at h with hbad
  cases h
  simp only [Bool.or_eq_true, Bool.not_eq_true', bne_iff_ne, ne_eq, not_or, Bool.not_eq_false,
    not_not] at hbad
  exact ⟨old, hold, hbad.1, hbad.2, rfl, rfl⟩

end Methods

/-- The token a call is about: the one named in its parameters, or the token sent to be burned. -/
def AssetCall.tokenId (sendBlock : AccountBlock) : AssetCall → TokenTypeId
  | .ReIssue param => param.TokenId
  | .Burn => sendBlock.TokenId
  | .Burn2 => sendBlock.TokenId
  | .TransferOwnership param => param.TokenId
  | .DisableReIssue tokenId => tokenId

section Receive

variable {db db' : AssetDb} {block sendBlock : AccountBlock} {out : List SendReward}

/-- A receive changes no token record but the one its call names. -/
theorem receiveCall_frame {call : AssetCall}
    (h : receiveCall db block sendBlock call = .ok (db', out)) {t : TokenTypeId}
    (ht : t ≠ call.tokenId sendBlock) : GetTokenByID db' t = GetTokenByID db t := by
  cases call with
  | ReIssue param =>
    simp only [AssetCall.tokenId] at ht
    obtain ⟨old, -, -, -, -, rfl, -⟩ := MethodReIssue.DoReceive_ok h
    rw [GetTokenByID_setTokenInfo_ne ht, GetTokenByID_AddBalance]
  | Burn =>
    simp only [AssetCall.tokenId] at ht
    obtain ⟨old, db₁, -, -, -, hsub, rfl, -⟩ := burnSent_ok h
    rw [GetTokenByID_setTokenInfo_ne ht]
    simp [GetTokenByID, (SubBalance_ok hsub).2.2, AddBalance]
  | Burn2 =>
    simp only [AssetCall.tokenId] at ht
    have hrun : MethodBurn2.DoReceive (AddBalance db sendBlock.TokenId sendBlock.Amount)
        block sendBlock = .ok (db', out) := h
    unfold MethodBurn2.DoReceive at hrun
    split at hrun
    · cases hrun
    obtain ⟨old, db₁, -, -, -, hsub, rfl, -⟩ := burnSent_ok hrun
    rw [GetTokenByID_setTokenInfo_ne ht]
    simp [GetTokenByID, (SubBalance_ok hsub).2.2, AddBalance]
  | TransferOwnership param =>
    simp only [AssetCall.tokenId] at ht
    obtain ⟨old, -, -, -, rfl, -⟩ := MethodTransferOwnership.DoReceive_ok h
    rw [GetTokenByID_setTokenInfo_ne ht, GetTokenByID_AddBalance]
  | DisableReIssue tokenId =>
    simp only [AssetCall.tokenId] at ht
    obtain ⟨old, -, -, -, rfl, -⟩ := MethodDisableReIssue.DoReceive_ok h
    rw [GetTokenByID_setTokenInfo_ne ht, GetTokenByID_AddBalance]

/-- A re-issue of `x` raises the supply by exactly `x` and sends `x` units to the receiver. -/
theorem receiveCall_ReIssue {param : ParamReIssue}
    (h : receiveCall db block sendBlock (.ReIssue param) = .ok (db', out)) :
    ∃ old, GetTokenByID db param.TokenId = some old ∧
      GetTokenByID db' param.TokenId =
        some { old with TotalSupply := old.TotalSupply + param.Amount } ∧
      out = [⟨param.ReceiveAddress, param.Amount, param.TokenId⟩] := by
  obtain ⟨old, hold, -, -, -, rfl, rfl⟩ := MethodReIssue.DoReceive_ok h
  exact ⟨old, by simpa using hold, GetTokenByID_setTokenInfo_self, rfl⟩

/-- A burn of `x` lowers the supply by exactly `x`; the contract's balance, credited `x` by the
send, is debited `x` again. -/
theorem receiveCall_Burn
    (h : receiveCall db block sendBlock .Burn = .ok (db', out)) :
    ∃ old, GetTokenByID db sendBlock.TokenId = some old ∧
      GetTokenByID db' sendBlock.TokenId =
        some { old with TotalSupply := old.TotalSupply - sendBlock.Amount } ∧
      balanceOf db' sendBlock.TokenId = balanceOf db sendBlock.TokenId ∧ out = [] := by
  obtain ⟨old, db₁, hold, -, -, hsub, rfl, rfl⟩ := burnSent_ok h
  have hbal := (SubBalance_ok hsub).2.1
  rw [balanceOf_AddBalance_self] at hbal
  refine ⟨old, by simpa using hold, GetTokenByID_setTokenInfo_self, ?_, rfl⟩
  rw [balanceOf_setTokenInfo, hbal]
  omega

/-- `RunV2` runs every `Burn2` receive on `nil` data, so its unpacking fails and the receive
panics, whatever the state and the send; and `DoSend` does accept such sends after the VersionX
fork: here one of target `1` to the bytes `0xab`, ABI-encoded behind `Burn2`'s id. -/
theorem burn2_receive_panics :
    (∀ db block sendBlock, RunV2Receive db block sendBlock .Burn2 = .error .panicked) ∧
      MethodBurn2.DoSend true ⟨[1], 1, [7], Burn2Id ++ Abi.packNum 1 ++ Abi.packNum 64 ++
        Abi.packBytesSlice [0xab] 1⟩ = .ok ⟨1, [0xab]⟩ := by
  constructor
  · intro db block sendBlock
    simp only [RunV2Receive, receiveCall, DoReceive, MethodBurn2.DoReceive, UnpackMethod_nil]
  · decide +kernel

end Receive

end Vite.Contracts
