import Mathlib.Algebra.BigOperators.Group.List.Basic
import Vite.Contracts.Governance
import Vite.Vm.Quota

/-!
# A contract's receive, its revert and its refund

`receiveCall` (vm/vm.go) runs a contract on a send it receives: a builtin contract's `DoReceive`,
or the code of a user contract. The send's amount is credited first. A run that fails is reverted
(`vm.revert`, which drops the block's unsaved changes), and `doRefund` then credits the amount and
the fee again and emits send blocks back to the sender, which `doSendBlockList` debits.

The contracts, the quota the account gets and the hashes the block records are left abstract
(`ReceiveEnv`); what a contract may change is the unsaved state of the account, never what the
chain holds for it. Balances and amounts are natural numbers: the verifier accepts no negative
amount and `util.SubBalance` never leaves a negative balance.

A receive past the maximum call depth credits the amount and refunds nothing
(`receiveCall_depth_credits`). Every other failed receive that produces a block leaves storage and
logs as they were and sends the amount and the fee back to the sender, and the balances come back
to where they were, less the fees builtin recipients charge on the refunds
(`receiveCall_failure_refunds`).
-/

namespace Vite.Receive

open Vite.Contracts (Address TokenTypeId)
open Vite.Contracts.Governance (ViteTokenId)

/-- The errors `receiveCall` tells apart, and the others it passes on. -/
inductive ReceiveError where
  | ErrDepth
  | ErrNoReliableStatus
  | ErrInsufficientBalance
  | ErrInvalidMethodParam
  /-- An interpreter error, `ErrOutOfQuota` among them. -/
  | vm (err : Vite.Vm.VmError)
  /-- An error a builtin method or the quota calculation returns. -/
  | other (msg : String)
  deriving DecidableEq, Repr

def ErrOutOfQuota : ReceiveError := .vm .ErrOutOfQuota

def BlockTypeSendCall : UInt8 := 2

def BlockTypeSendReward : UInt8 := 3

def BlockTypeReceive : UInt8 := 4

def BlockTypeReceiveError : UInt8 := 5

def BlockTypeSendRefund : UInt8 := 6

def BlockTypeGenesisReceive : UInt8 := 7

def IsReceiveBlock (blockType : UInt8) : Bool :=
  blockType == BlockTypeReceive || blockType == BlockTypeReceiveError ||
    blockType == BlockTypeGenesisReceive

/-- The fields of a `ledger.AccountBlock` that a receive and the sends it makes read or set. -/
structure AccountBlock where
  BlockType : UInt8
  Hash : List UInt8
  AccountAddress : Address
  ToAddress : Address
  Amount : ℕ
  TokenId : TokenTypeId
  Data : List UInt8
  Fee : ℕ
  LogHash : Option (List UInt8)
  SendBlockList : List AccountBlock

structure VmLog where
  Topics : List (List UInt8)
  Data : List UInt8

/-- The state of an account the VM reads and writes. -/
structure AccountState where
  balance : TokenTypeId → ℕ
  storage : List UInt8 → Option (List UInt8)
  logList : List VmLog

/-- The `VmDb` of the receiving account: what the chain holds for it after its latest block, which
the VM cannot write, and the account as the block's unsaved changes leave it. -/
structure VmDb where
  latestBalance : TokenTypeId → ℕ
  latestStorage : List UInt8 → Option (List UInt8)
  current : AccountState
  /-- `GetCallDepth`: the depth of the chain of calls a send hash belongs to. -/
  GetCallDepth : List UInt8 → UInt16
  /-- The number of the account's blocks no snapshot block has confirmed yet. -/
  UnconfirmedBlocks : ℕ

def VmDb.GetBalance (db : VmDb) (id : TokenTypeId) : ℕ := db.current.balance id

def VmDb.setBalance (db : VmDb) (balance : TokenTypeId → ℕ) : VmDb :=
  { db with current := { db.current with balance := balance } }

/-- `vmDb.Reset`: the unsaved balances, storage and logs are dropped. -/
def VmDb.Reset (db : VmDb) : VmDb :=
  { db with current := ⟨db.latestBalance, db.latestStorage, []⟩ }

def AddBalance (db : VmDb) (id : TokenTypeId) (amount : ℕ) : VmDb :=
  db.setBalance (Function.update db.current.balance id (db.GetBalance id + amount))

/-- `util.SubBalance`: `none` where the balance is short. -/
def SubBalance (db : VmDb) (id : TokenTypeId) (amount : ℕ) : Option VmDb :=
  if amount ≤ db.GetBalance id then
    some (db.setBalance (Function.update db.current.balance id (db.GetBalance id - amount)))
  else none

/-- A `SubBalance` whose failure the send returns as `ErrInsufficientBalance`. -/
def chargeBalance (db : VmDb) (id : TokenTypeId) (amount : ℕ) : Except ReceiveError VmDb :=
  match SubBalance db id amount with
  | none => .error .ErrInsufficientBalance
  | some db => .ok db

def IsViteToken (tokenId : TokenTypeId) : Bool := tokenId == ViteTokenId

/-- The node's `canTransfer` outside test mode: the balances cover the amount and, in VITE, the
fee. -/
def canTransfer (db : VmDb) (tokenTypeId : TokenTypeId) (tokenAmount feeAmount : ℕ) : Bool :=
  if feeAmount = 0 then decide (tokenAmount ≤ db.GetBalance tokenTypeId)
  else if IsViteToken tokenTypeId then decide (tokenAmount + feeAmount ≤ db.GetBalance tokenTypeId)
  else decide (tokenAmount ≤ db.GetBalance tokenTypeId) && decide (feeAmount ≤ db.GetBalance ViteTokenId)

/-- The methods of a builtin contract that a receive and a send call. A method's `DoSend` only
checks the send: no builtin method writes to the database there. -/
structure BuiltinContractMethod where
  GetFee : AccountBlock → Except ReceiveError ℕ
  DoSend : VmDb → AccountBlock → Except ReceiveError Unit
  GetReceiveQuota : UInt64
  DoReceive : VmDb → AccountBlock → AccountBlock → AccountState × Except ReceiveError (List AccountBlock)
  GetRefundData : AccountBlock → List UInt8 × Bool

structure ContractMeta where
  SendConfirmedTimes : UInt8

/-- What the receive reads besides the account's database: the builtin contracts, the quota, the
interpreter on the contract's code, and the hashes the block records. -/
structure ReceiveEnv where
  /-- `contracts.GetBuiltinContractMethod` at the latest snapshot height: `none` where the address
  is no builtin contract, an error where it is one but the data names none of its methods. -/
  GetBuiltinContractMethod : Address → List UInt8 → Option (Except ReceiveError BuiltinContractMethod)
  /-- `quota.GetQuotaForBlock` for the receiving account: its quota total. -/
  GetQuotaForBlock : Except ReceiveError UInt64
  gasReceive : Option ContractMeta → Except ReceiveError UInt64
  /-- `contract.run` on the receiving contract's code: the state it leaves the account in and the
  sends it appended, or its error. -/
  run : VmDb → AccountState × Except ReceiveError (List AccountBlock)
  GetReceiptHash : VmDb → List UInt8
  GetLogListHash : VmDb → Option (List UInt8)

/-- `types.AddressGovernance`. -/
def AddressGovernance : Address := List.replicate 19 0 ++ [4, 1]

/-- `types.AddressAsset`. -/
def AddressAsset : Address := List.replicate 19 0 ++ [5, 1]

def callDepth : UInt16 := 512

def retry : Bool := true

def noRetry : Bool := false

def checkDepth (db : VmDb) (sendBlock : AccountBlock) : Bool :=
  callDepth ≤ db.GetCallDepth sendBlock.Hash

def resultSuccess : UInt8 := 0

def resultFail : UInt8 := 1

def resultDepthErr : UInt8 := 2

def getReceiveCallData (env : ReceiveEnv) (db : VmDb) (err : Option ReceiveError) : List UInt8 :=
  env.GetReceiptHash db ++
    [match err with
      | none => resultSuccess
      | some .ErrDepth => resultDepthErr
      | some _ => resultFail]

/-- `vm.updateBlock` on the fields this model keeps: a receive records the log hash, and its type
says whether it ran out of quota. -/
def updateBlock (env : ReceiveEnv) (db : VmDb) (block : AccountBlock) (err : Option ReceiveError) :
    AccountBlock :=
  if IsReceiveBlock block.BlockType then
    { block with
      LogHash := env.GetLogListHash db
      BlockType := if err = some ErrOutOfQuota then BlockTypeReceiveError else BlockTypeReceive }
  else block

def MakeRequestBlock (fromAddress toAddress : Address) (blockType : UInt8) (amount : ℕ)
    (tokenID : TokenTypeId) (data : List UInt8) : AccountBlock where
  BlockType := blockType
  Hash := []
  AccountAddress := fromAddress
  ToAddress := toAddress
  Amount := amount
  TokenId := tokenID
  Data := data
  Fee := 0
  LogHash := none
  SendBlockList := []

structure VmAccountBlock where
  AccountBlock : AccountBlock
  VmDb : VmDb

def mergeReceiveBlock (db : VmDb) (receiveBlock : AccountBlock) (sendBlockList : List AccountBlock) :
    VmAccountBlock :=
  ⟨{ receiveBlock with SendBlockList := sendBlockList }, db⟩

/-! ## The sends a receive makes -/

/-- `sendRefund` with no quota used: the fee is zero and the amount is debited. -/
def sendRefund (db : VmDb) (block : AccountBlock) : Except ReceiveError VmAccountBlock := do
  let block := { block with Fee := 0 }
  if !canTransfer db block.TokenId block.Amount block.Fee then throw .ErrInsufficientBalance
  let db ← chargeBalance db block.TokenId block.Amount
  pure ⟨block, db⟩

/-- `sendCall` with no quota used. To a builtin contract the method sets the fee and checks the
send, and the amount and the fee are debited; to any other account the branch is `sendRefund`'s
body. -/
def sendCall (env : ReceiveEnv) (db : VmDb) (block : AccountBlock) :
    Except ReceiveError VmAccountBlock :=
  match env.GetBuiltinContractMethod block.ToAddress block.Data with
  | some method => do
    let p ← method
    let fee ← p.GetFee block
    let block := { block with Fee := fee }
    if !canTransfer db block.TokenId block.Amount block.Fee then throw .ErrInsufficientBalance
    p.DoSend db block
    let db ← chargeBalance db block.TokenId block.Amount
    let db ← chargeBalance db ViteTokenId block.Fee
    pure ⟨block, db⟩
  | none => sendRefund db block

/-- `sendReward` with no quota used: only the governance and the asset contracts reward. -/
def sendReward (db : VmDb) (block : AccountBlock) : Except ReceiveError VmAccountBlock :=
  if block.AccountAddress ≠ AddressGovernance ∧ block.AccountAddress ≠ AddressAsset then
    .error .ErrInvalidMethodParam
  else .ok ⟨block, db⟩

/-- The `switch` of `doSendBlockList` on a block's type; `none` for a type it has no case for. -/
def sendByType (env : ReceiveEnv) (db : VmDb) (block : AccountBlock) :
    Option (Except ReceiveError VmAccountBlock) :=
  if block.BlockType = BlockTypeSendCall then some (sendCall env db block)
  else if block.BlockType = BlockTypeSendReward then some (sendReward db block)
  else if block.BlockType = BlockTypeSendRefund then some (sendRefund db block)
  else none

/-- `doSendBlockList`: the sends one after the other, each replaced by the block its send returns;
`none` where a block of another type leaves `sendBlock` nil and the loop dereferences it. Every
caller reverts or drops the database a failed send leaves, so the one before it stands for it. -/
def doSendBlockList (env : ReceiveEnv) (db : VmDb) :
    List AccountBlock → Option (VmDb × Except ReceiveError (List AccountBlock))
  | [] => some (db, .ok [])
  | block :: rest =>
    match sendByType env db block with
    | none => none
    | some (.error err) => some (db, .error err)
    | some (.ok sendBlock) =>
      (doSendBlockList env sendBlock.VmDb rest).map fun r =>
        (r.1, r.2.map (sendBlock.AccountBlock :: ·))

/-! ## The refund -/

/-- What `doRefund` has done so far: the flag it returns, the blocks it appended to
`vm.sendBlockList` and the database. -/
structure Refund where
  refundFlag : Bool
  sendBlockList : List AccountBlock
  db : VmDb

/-- One refund block appended, its amount credited back in its token. -/
def Refund.credit (r : Refund) (refundBlock : AccountBlock) : Refund :=
  ⟨true, r.sendBlockList ++ [refundBlock], AddBalance r.db refundBlock.TokenId refundBlock.Amount⟩

/-- The refund blocks `doRefund` credits: one of the amount and the fee together where both are
VITE, else one of the amount and one of the fee, each where it is positive. -/
def refundCredits (db : VmDb) (block sendBlock : AccountBlock) (refundData : List UInt8)
    (refundBlockType : UInt8) : Refund :=
  let start : Refund := ⟨false, [], db⟩
  if 0 < sendBlock.Amount ∧ 0 < sendBlock.Fee ∧ sendBlock.TokenId = ViteTokenId then
    start.credit (MakeRequestBlock block.AccountAddress sendBlock.AccountAddress refundBlockType
      (sendBlock.Amount + sendBlock.Fee) ViteTokenId refundData)
  else
    let r :=
      if 0 < sendBlock.Amount then
        start.credit (MakeRequestBlock block.AccountAddress sendBlock.AccountAddress
          refundBlockType sendBlock.Amount sendBlock.TokenId refundData)
      else start
    if 0 < sendBlock.Fee then
      r.credit (MakeRequestBlock block.AccountAddress sendBlock.AccountAddress refundBlockType
        sendBlock.Fee ViteTokenId refundData)
    else r

def doRefund (db : VmDb) (block sendBlock : AccountBlock) (refundData : List UInt8)
    (needRefund : Bool) (refundBlockType : UInt8) : Refund :=
  let r := refundCredits db block sendBlock refundData refundBlockType
  -- a callback with nothing to refund is still sent, as a call of zero VITE
  if !r.refundFlag && needRefund then
    { r with
      refundFlag := true
      sendBlockList := r.sendBlockList ++ [MakeRequestBlock block.AccountAddress
        sendBlock.AccountAddress BlockTypeSendCall 0 ViteTokenId refundData] }
  else r

/-- The tail of every failed receive after the revert: refund, record the error in the block, and
run the refund sends; a refund send that fails makes the receive retry. -/
def refundAndReturn (env : ReceiveEnv) (db : VmDb) (block sendBlock : AccountBlock)
    (refundData : List UInt8) (needRefund : Bool) (refundBlockType : UInt8) (err : ReceiveError) :
    Option (Option VmAccountBlock × Bool × Option ReceiveError) :=
  let r := doRefund db block sendBlock refundData needRefund refundBlockType
  let block := updateBlock env r.db block (some err)
  if r.refundFlag then
    match doSendBlockList env r.db r.sendBlockList with
    | none => none
    | some (_, .error _) => some (none, retry, some err)
    | some (db, .ok sent) =>
      some (some (mergeReceiveBlock db { block with Data := getReceiveCallData env db (some err) }
        sent), noRetry, some err)
  else some (some ⟨{ block with Data := getReceiveCallData env r.db (some err) }, r.db⟩, noRetry,
    some err)

/-! ## The receive -/

/-- A builtin method that failed, in its receive or in the sends it made: revert, and refund with
the method's refund data as calls. -/
def builtinFailed (env : ReceiveEnv) (p : BuiltinContractMethod) (db : VmDb)
    (block sendBlock : AccountBlock) (err : ReceiveError) :
    Option (Option VmAccountBlock × Bool × Option ReceiveError) :=
  refundAndReturn env db.Reset block sendBlock (p.GetRefundData sendBlock).1
    (p.GetRefundData sendBlock).2 BlockTypeSendCall err

/-- The builtin branch of `receiveCall` once the quota is settled. -/
def receiveBuiltinRun (env : ReceiveEnv) (db : VmDb) (block sendBlock : AccountBlock)
    (p : BuiltinContractMethod) : Option (Option VmAccountBlock × Bool × Option ReceiveError) :=
  let db := AddBalance db sendBlock.TokenId sendBlock.Amount
  match p.DoReceive db block sendBlock with
  | (state, .error err) => builtinFailed env p { db with current := state } block sendBlock err
  | (state, .ok blockListToSend) =>
    let db := { db with current := state }
    let block := updateBlock env db block none
    match doSendBlockList env db blockListToSend with
    | none => none
    | some (db, .ok sent) =>
      some (some (mergeReceiveBlock db { block with Data := getReceiveCallData env db none } sent),
        noRetry, none)
    | some (db, .error err) => builtinFailed env p db block sendBlock err

/-- The builtin branch of `receiveCall`: a method that uses quota needs it first. -/
def receiveBuiltin (env : ReceiveEnv) (db : VmDb) (block sendBlock : AccountBlock)
    (p : BuiltinContractMethod) : Option (Option VmAccountBlock × Bool × Option ReceiveError) :=
  if 0 < p.GetReceiveQuota then
    match env.GetQuotaForBlock with
    | .error err => some (none, noRetry, some err)
    | .ok quotaTotal =>
      match Vite.Vm.UseQuota quotaTotal p.GetReceiveQuota with
      | .error err => some (none, retry, some (.vm err))
      | .ok _ => receiveBuiltinRun env db block sendBlock p
  else receiveBuiltinRun env db block sendBlock p

/-- A user contract's run that failed: no reliable status, or out of quota with blocks still
unconfirmed, retries; anything else is reverted and refunded. -/
def userFailed (env : ReceiveEnv) (db : VmDb) (block sendBlock : AccountBlock) (err : ReceiveError) :
    Option (Option VmAccountBlock × Bool × Option ReceiveError) :=
  if err = .ErrNoReliableStatus then some (none, retry, some err)
  else
    let db := db.Reset
    if err = ErrOutOfQuota ∧ 0 < db.UnconfirmedBlocks then some (none, retry, some err)
    else refundAndReturn env db block sendBlock [] false BlockTypeSendRefund err

/-- The user-contract branch of `receiveCall`. -/
def receiveUser (env : ReceiveEnv) (db : VmDb) (block sendBlock : AccountBlock)
    (contractMeta : Option ContractMeta) : Option (Option VmAccountBlock × Bool × Option ReceiveError) :=
  match env.GetQuotaForBlock with
  -- `util.DealWithErr` panics
  | .error _ => none
  | .ok quotaTotal =>
    match env.gasReceive contractMeta with
    | .error err => some (none, noRetry, some err)
    | .ok cost =>
      match Vite.Vm.UseQuota quotaTotal cost with
      | .error err => some (none, retry, some (.vm err))
      | .ok _ =>
        let db := AddBalance db sendBlock.TokenId sendBlock.Amount
        match contractMeta with
        | none => some (some ⟨updateBlock env db block none, db⟩, noRetry, none)
        | some _ =>
          match env.run db with
          | (state, .error err) => userFailed env { db with current := state } block sendBlock err
          | (state, .ok sends) =>
            let db := { db with current := state }
            let block := updateBlock env db block none
            match doSendBlockList env db sends with
            | none => none
            | some (db, .ok sent) =>
              some (some (mergeReceiveBlock db { block with Data := getReceiveCallData env db none }
                sent), noRetry, none)
            | some (db, .error err) => userFailed env db block sendBlock err

/-- `receiveCall`: the block and its database (`none` for a nil block), whether to retry, and the
error; `none` where the node panics. -/
def receiveCall (env : ReceiveEnv) (db : VmDb) (block sendBlock : AccountBlock)
    (contractMeta : Option ContractMeta) : Option (Option VmAccountBlock × Bool × Option ReceiveError) :=
  if checkDepth db sendBlock then
    let db := AddBalance db sendBlock.TokenId sendBlock.Amount
    let block := updateBlock env db { block with Data := getReceiveCallData env db (some .ErrDepth) }
      (some .ErrDepth)
    some (some ⟨block, db⟩, noRetry, some .ErrDepth)
  else
    match env.GetBuiltinContractMethod block.AccountAddress sendBlock.Data with
    -- `ok` with a nil method: `p.GetReceiveQuota` dereferences it
    | some (.error _) => none
    | some (.ok p) => receiveBuiltin env db block sendBlock p
    | none => receiveUser env db block sendBlock contractMeta

/-! ## What the sends do to the account -/

/-- What a send costs the account in token `t`: its amount in its token and its fee in VITE. -/
def debit (t : TokenTypeId) (block : AccountBlock) : ℕ :=
  (if block.TokenId = t then block.Amount else 0) + if ViteTokenId = t then block.Fee else 0

/-- What a refund block gives back in token `t`. -/
def credit (t : TokenTypeId) (block : AccountBlock) : ℕ :=
  if block.TokenId = t then block.Amount else 0

/-- `db'` differs from `db` in the current balances at most. -/
def VmDb.BalanceOnly (db db' : VmDb) : Prop := db' = db.setBalance db'.GetBalance

theorem VmDb.BalanceOnly.refl (db : VmDb) : db.BalanceOnly db := rfl

theorem VmDb.BalanceOnly.trans {db db' db'' : VmDb} (h : db.BalanceOnly db')
    (h' : db'.BalanceOnly db'') : db.BalanceOnly db'' := by
  unfold VmDb.BalanceOnly at *
  rw [h', h]
  rfl

/-- `db'` holds what the chain holds for the account as `db` does. -/
def VmDb.SameLatest (db db' : VmDb) : Prop :=
  db'.latestBalance = db.latestBalance ∧ db'.latestStorage = db.latestStorage

theorem VmDb.BalanceOnly.sameLatest {db db' : VmDb} (h : db.BalanceOnly db') : db.SameLatest db' := by
  rw [h]
  exact ⟨rfl, rfl⟩

theorem VmDb.SameLatest.trans {db db' db'' : VmDb} (h : db.SameLatest db')
    (h' : db'.SameLatest db'') : db.SameLatest db'' :=
  ⟨h'.1.trans h.1, h'.2.trans h.2⟩

theorem VmDb.BalanceOnly.current_storage {db db' : VmDb} (h : db.BalanceOnly db') :
    db'.current.storage = db.current.storage := by
  rw [h]
  rfl

theorem VmDb.BalanceOnly.current_logList {db db' : VmDb} (h : db.BalanceOnly db') :
    db'.current.logList = db.current.logList := by
  rw [h]
  rfl

@[simp] theorem GetBalance_setBalance (db : VmDb) (balance : TokenTypeId → ℕ) :
    (db.setBalance balance).GetBalance = balance := rfl

@[simp] theorem GetBalance_Reset (db : VmDb) : db.Reset.GetBalance = db.latestBalance := rfl

theorem GetBalance_AddBalance (db : VmDb) (id t : TokenTypeId) (amount : ℕ) :
    (AddBalance db id amount).GetBalance t = db.GetBalance t + if id = t then amount else 0 := by
  show Function.update db.GetBalance id (db.GetBalance id + amount) t = _
  by_cases h : id = t
  · subst h
    simp
  · simp [Function.update_of_ne (Ne.symm h), h]

theorem AddBalance_balanceOnly (db : VmDb) (id : TokenTypeId) (amount : ℕ) :
    db.BalanceOnly (AddBalance db id amount) := rfl

theorem chargeBalance_ok {db db' : VmDb} {id : TokenTypeId} {amount : ℕ}
    (h : chargeBalance db id amount = .ok db') :
    db.BalanceOnly db' ∧ ∀ t, db'.GetBalance t + (if id = t then amount else 0) = db.GetBalance t := by
  unfold chargeBalance SubBalance at h
  split_ifs at h with hle
  cases h
  refine ⟨rfl, fun t => ?_⟩
  show Function.update db.GetBalance id (db.GetBalance id - amount) t + _ = _
  by_cases hid : id = t
  · subst hid
    simp only [Function.update_self, if_true]
    omega
  · simp [Function.update_of_ne (Ne.symm hid), hid]

section Sends

variable {env : ReceiveEnv} {db : VmDb} {block : AccountBlock} {sent : VmAccountBlock}

theorem sendRefund_ok (h : sendRefund db block = .ok sent) :
    sent.AccountBlock = { block with Fee := 0 } ∧ db.BalanceOnly sent.VmDb ∧
      ∀ t, sent.VmDb.GetBalance t + debit t sent.AccountBlock = db.GetBalance t := by
  unfold sendRefund at h
  dsimp only at h
  split at h
  · simp at h
  · obtain ⟨db', hcharge, hsent⟩ := Except.bind_eq_ok.mp h
    rw [Except.pure_eq_ok, Except.ok.injEq] at hsent
    subst hsent
    obtain ⟨hframe, hbalance⟩ := chargeBalance_ok hcharge
    exact ⟨rfl, hframe, fun t => by simpa [debit] using hbalance t⟩

/-- A call changes only the fee of its block, and debits the amount and the fee; the fee is zero
unless a builtin method set it. -/
theorem sendCall_ok (h : sendCall env db block = .ok sent) :
    sent.AccountBlock = { block with Fee := sent.AccountBlock.Fee } ∧ db.BalanceOnly sent.VmDb ∧
      (∀ t, sent.VmDb.GetBalance t + debit t sent.AccountBlock = db.GetBalance t) ∧
      (env.GetBuiltinContractMethod block.ToAddress block.Data = none → sent.AccountBlock.Fee = 0) := by
  unfold sendCall at h
  split at h
  · rename_i method hmethod
    dsimp only at h
    obtain ⟨p, -, h⟩ := Except.bind_eq_ok.mp h
    obtain ⟨fee, -, h⟩ := Except.bind_eq_ok.mp h
    split at h
    · simp at h
    -- past the method's own check, the amount and then the fee are charged
    obtain ⟨_, -, h⟩ := Except.bind_eq_ok.mp h
    obtain ⟨db₁, hamount, h⟩ := Except.bind_eq_ok.mp h
    obtain ⟨db₂, hfee, hsent⟩ := Except.bind_eq_ok.mp h
    rw [Except.pure_eq_ok, Except.ok.injEq] at hsent
    subst hsent
    obtain ⟨hframe₁, hbalance₁⟩ := chargeBalance_ok hamount
    obtain ⟨hframe₂, hbalance₂⟩ := chargeBalance_ok hfee
    refine ⟨rfl, hframe₁.trans hframe₂, fun t => ?_, fun hnone => by simp [hmethod] at hnone⟩
    have h₁ := hbalance₁ t
    have h₂ := hbalance₂ t
    dsimp only [debit] at h₁ h₂ ⊢
    omega
  · obtain ⟨hblock, hframe, hbalance⟩ := sendRefund_ok h
    exact ⟨by rw [hblock], hframe, hbalance, fun _ => by rw [hblock]⟩

theorem sendReward_ok (h : sendReward db block = .ok sent) : sent = ⟨block, db⟩ := by
  unfold sendReward at h
  split_ifs at h
  exact (Except.ok.inj h).symm

theorem sendByType_balanceOnly (h : sendByType env db block = some (.ok sent)) :
    db.BalanceOnly sent.VmDb := by
  unfold sendByType at h
  split_ifs at h
  · exact (sendCall_ok (Option.some.inj h)).2.1
  · rw [sendReward_ok (Option.some.inj h)]
    exact .refl db
  · exact (sendRefund_ok (Option.some.inj h)).2.1

/-- What one call or refund that went through did: it changed only the fee of its block, only the
balances of the account, and debited the amount and the fee. -/
structure SendDone (env : ReceiveEnv) (db : VmDb) (block : AccountBlock) (sent : VmAccountBlock) :
    Prop where
  block_eq : sent.AccountBlock = { block with Fee := sent.AccountBlock.Fee }
  balanceOnly : db.BalanceOnly sent.VmDb
  balance : ∀ t, sent.VmDb.GetBalance t + debit t sent.AccountBlock = db.GetBalance t
  fee_eq_zero : sent.AccountBlock.BlockType = BlockTypeSendRefund ∨
    env.GetBuiltinContractMethod sent.AccountBlock.ToAddress sent.AccountBlock.Data = none →
    sent.AccountBlock.Fee = 0

theorem sendByType_done
    (htype : block.BlockType = BlockTypeSendCall ∨ block.BlockType = BlockTypeSendRefund)
    (h : sendByType env db block = some (.ok sent)) : SendDone env db block sent := by
  unfold sendByType at h
  rcases htype with htype | htype
  · rw [if_pos htype] at h
    obtain ⟨hblock, hframe, hbalance, hfee⟩ := sendCall_ok (Option.some.inj h)
    refine ⟨hblock, hframe, hbalance, fun hzero => hfee ?_⟩
    -- the call keeps its type, its recipient and its data
    rw [hblock] at hzero
    simpa [htype, BlockTypeSendCall, BlockTypeSendRefund] using hzero
  · rw [if_neg (by simp [htype, BlockTypeSendCall, BlockTypeSendRefund]),
      if_neg (by simp [htype, BlockTypeSendReward, BlockTypeSendRefund]), if_pos htype] at h
    obtain ⟨hblock, hframe, hbalance⟩ := sendRefund_ok (Option.some.inj h)
    exact ⟨by rw [hblock], hframe, hbalance, fun _ => by rw [hblock]⟩

end Sends

/-! ## The send loop -/

/-- What a list of calls and refunds that all went through did. -/
structure SentAll (env : ReceiveEnv) (db db' : VmDb) (blocks sent : List AccountBlock) : Prop where
  blocks_eq : List.Forall₂ (fun block s => s = { block with Fee := s.Fee }) blocks sent
  balanceOnly : db.BalanceOnly db'
  balance : ∀ t, db'.GetBalance t + (sent.map (debit t)).sum = db.GetBalance t
  fee_eq_zero : ∀ s ∈ sent, s.BlockType = BlockTypeSendRefund ∨
    env.GetBuiltinContractMethod s.ToAddress s.Data = none → s.Fee = 0

section Loop

variable {env : ReceiveEnv} {db db' : VmDb}

theorem SentAll.nil : SentAll env db db [] [] :=
  ⟨.nil, .refl db, fun _ => rfl, fun _ h => absurd h List.not_mem_nil⟩

theorem SentAll.cons {block : AccountBlock} {sendBlock : VmAccountBlock}
    {blocks sent : List AccountBlock} (hdone : SendDone env db block sendBlock)
    (hrest : SentAll env sendBlock.VmDb db' blocks sent) :
    SentAll env db db' (block :: blocks) (sendBlock.AccountBlock :: sent) := by
  refine ⟨.cons hdone.block_eq hrest.blocks_eq, hdone.balanceOnly.trans hrest.balanceOnly,
    fun t => ?_, ?_⟩
  · have h₁ := hdone.balance t
    have h₂ := hrest.balance t
    simp only [List.map_cons, List.sum_cons]
    omega
  · intro s hs
    rcases List.mem_cons.mp hs with rfl | hs
    · exact hdone.fee_eq_zero
    · exact hrest.fee_eq_zero s hs

/-- Whatever the loop returns, it changed only the balances. -/
theorem doSendBlockList_balanceOnly {blocks : List AccountBlock}
    {r : Except ReceiveError (List AccountBlock)} (h : doSendBlockList env db blocks = some (db', r)) :
    db.BalanceOnly db' := by
  induction blocks generalizing db r with
  | nil =>
    cases h
    exact .refl _
  | cons block rest ih =>
    unfold doSendBlockList at h
    split at h
    · cases h
    · cases h
      exact .refl _
    · rename_i sendBlock hsend
      obtain ⟨⟨db'', r'⟩, hrest, hr⟩ := Option.map_eq_some_iff.mp h
      cases hr
      exact (sendByType_balanceOnly hsend).trans (ih hrest)

/-- The loop on calls and refunds, all of which went through. -/
theorem doSendBlockList_ok {blocks sent : List AccountBlock}
    (htype : ∀ b ∈ blocks, b.BlockType = BlockTypeSendCall ∨ b.BlockType = BlockTypeSendRefund)
    (h : doSendBlockList env db blocks = some (db', .ok sent)) : SentAll env db db' blocks sent := by
  induction blocks generalizing db sent with
  | nil =>
    cases h
    exact .nil
  | cons block rest ih =>
    unfold doSendBlockList at h
    split at h
    · cases h
    · cases h
    · rename_i sendBlock hsend
      obtain ⟨⟨db'', r'⟩, hrest, hr⟩ := Option.map_eq_some_iff.mp h
      simp only [Prod.mk.injEq] at hr
      obtain ⟨rfl, hr⟩ := hr
      -- the rest of the loop went through too, and the first block heads the list
      obtain ⟨rest', rfl, rfl⟩ : ∃ rest', r' = .ok rest' ∧ sent = sendBlock.AccountBlock :: rest' := by
        cases r' with
        | error e => cases hr
        | ok rest' => exact ⟨rest', rfl, (Except.ok.inj hr).symm⟩
      exact .cons (sendByType_done (htype block (List.mem_cons_self ..)) hsend)
        (ih (fun b hb => htype b (List.mem_cons_of_mem _ hb)) hrest)

end Loop

/-! ## The refund -/

@[simp] theorem credit_MakeRequestBlock (t fromAddress toAddress : TokenTypeId) (blockType : UInt8)
    (amount : ℕ) (tokenID : TokenTypeId) (data : List UInt8) :
    credit t (MakeRequestBlock fromAddress toAddress blockType amount tokenID data) =
      if tokenID = t then amount else 0 := rfl

/-- What `doRefund`'s credits keep: the database changes by the credits alone, and every refund
block goes from the contract to the sender with no fee. -/
structure Credited (block sendBlock : AccountBlock) (refundBlockType : UInt8) (db : VmDb)
    (r : Refund) : Prop where
  balanceOnly : db.BalanceOnly r.db
  balance : ∀ t, r.db.GetBalance t = db.GetBalance t + (r.sendBlockList.map (credit t)).sum
  blocks : ∀ b ∈ r.sendBlockList, b.Fee = 0 ∧ b.AccountAddress = block.AccountAddress ∧
    b.ToAddress = sendBlock.AccountAddress ∧
    (b.BlockType = refundBlockType ∨ b.BlockType = BlockTypeSendCall)

section Refunds

variable {block sendBlock : AccountBlock} {refundBlockType : UInt8} {db : VmDb}
  {refundData : List UInt8}

theorem Credited.start : Credited block sendBlock refundBlockType db ⟨false, [], db⟩ :=
  ⟨.refl db, fun _ => rfl, fun _ h => absurd h List.not_mem_nil⟩

theorem Credited.credit {r : Refund} (h : Credited block sendBlock refundBlockType db r)
    (amount : ℕ) (tokenID : TokenTypeId) :
    Credited block sendBlock refundBlockType db (r.credit (MakeRequestBlock block.AccountAddress
      sendBlock.AccountAddress refundBlockType amount tokenID refundData)) := by
  refine ⟨h.balanceOnly.trans (AddBalance_balanceOnly _ _ _), fun t => ?_, fun b hb => ?_⟩
  · simp only [Refund.credit, MakeRequestBlock, GetBalance_AddBalance, h.balance t, Receive.credit,
      List.map_append, List.sum_append, List.map_cons, List.map_nil, List.sum_cons, List.sum_nil]
    omega
  · rcases List.mem_append.mp hb with hb | hb
    · exact h.blocks b hb
    · rw [List.mem_singleton.mp hb]
      exact ⟨rfl, rfl, rfl, .inl rfl⟩

theorem refundCredits_credited :
    Credited block sendBlock refundBlockType db
      (refundCredits db block sendBlock refundData refundBlockType) := by
  unfold refundCredits
  dsimp only
  split_ifs
  · exact Credited.start.credit _ _
  · exact (Credited.start.credit _ _).credit _ _
  · exact Credited.start.credit _ _
  · exact Credited.start.credit _ _
  · exact Credited.start

/-- Per token, the credited refund blocks total the send's amount in its token and its fee in
VITE. -/
theorem refundCredits_amounts (t : TokenTypeId) :
    ((refundCredits db block sendBlock refundData refundBlockType).sendBlockList.map (credit t)).sum =
      (if sendBlock.TokenId = t then sendBlock.Amount else 0) +
        if ViteTokenId = t then sendBlock.Fee else 0 := by
  unfold refundCredits
  dsimp only
  by_cases hmerged : 0 < sendBlock.Amount ∧ 0 < sendBlock.Fee ∧ sendBlock.TokenId = ViteTokenId
  · -- one block of both, in VITE
    rw [if_pos hmerged, hmerged.2.2]
    simp only [Refund.credit, List.nil_append, List.map_cons, List.map_nil, List.sum_cons,
      List.sum_nil, credit_MakeRequestBlock, add_zero]
    split_ifs <;> simp
  · -- a block of the amount and a block of the fee, each where it is positive
    rw [if_neg hmerged]
    by_cases hamount : 0 < sendBlock.Amount <;> by_cases hfee : 0 < sendBlock.Fee <;>
      simp [hamount, hfee, Refund.credit, Nat.eq_zero_of_not_pos]

theorem refundCredits_merged (hamount : 0 < sendBlock.Amount) (hfee : 0 < sendBlock.Fee)
    (htoken : sendBlock.TokenId = ViteTokenId) :
    (refundCredits db block sendBlock refundData refundBlockType).sendBlockList.length = 1 := by
  unfold refundCredits
  rw [if_pos ⟨hamount, hfee, htoken⟩]
  rfl

theorem refundCredits_flag
    (h : (refundCredits db block sendBlock refundData refundBlockType).refundFlag = false) :
    (refundCredits db block sendBlock refundData refundBlockType).sendBlockList = [] := by
  unfold refundCredits at h ⊢
  dsimp only at h ⊢
  split_ifs at h ⊢ <;> first | rfl | cases h

/-- What the refund blocks of a failed receive do: each goes from the contract to the sender with
no fee; per token they total the send's amount in its token and its fee in VITE, in one block
where both are VITE; and the database changed only by their credits. -/
structure Refunds (block sendBlock : AccountBlock) (refundBlockType : UInt8) (db : VmDb)
    (r : Refund) : Prop extends Credited block sendBlock refundBlockType db r where
  amounts : ∀ t, (r.sendBlockList.map (credit t)).sum =
    (if sendBlock.TokenId = t then sendBlock.Amount else 0) +
      if ViteTokenId = t then sendBlock.Fee else 0
  merged : 0 < sendBlock.Amount → 0 < sendBlock.Fee → sendBlock.TokenId = ViteTokenId →
    r.sendBlockList.length = 1
  flag : r.refundFlag = false → r.sendBlockList = []

theorem doRefund_refunds {needRefund : Bool} :
    Refunds block sendBlock refundBlockType db
      (doRefund db block sendBlock refundData needRefund refundBlockType) := by
  have hcredited : Credited block sendBlock refundBlockType db
      (refundCredits db block sendBlock refundData refundBlockType) := refundCredits_credited
  unfold doRefund
  dsimp only
  split_ifs with hcallback
  · -- nothing was credited: the callback of zero VITE is the only block
    simp only [Bool.and_eq_true, Bool.not_eq_true'] at hcallback
    have hnil := refundCredits_flag hcallback.1
    have hzero := @refundCredits_amounts block sendBlock refundBlockType db refundData
    simp only [hnil, List.map_nil, List.sum_nil] at hzero hcredited
    refine ⟨⟨hcredited.balanceOnly, fun t => ?_, fun b hb => ?_⟩, fun t => ?_, fun ha hf ht => ?_,
      fun h => by simp at h⟩
    · simp [hnil, hcredited.balance t]
    · simp only [hnil, List.nil_append, List.mem_singleton] at hb
      subst hb
      exact ⟨rfl, rfl, rfl, .inr rfl⟩
    · simp [hnil, ← hzero t]
    · have := @refundCredits_merged block sendBlock refundBlockType db refundData ha hf ht
      simp [hnil] at this
  · exact ⟨hcredited, refundCredits_amounts, refundCredits_merged, refundCredits_flag⟩

end Refunds

/-! ## A failed receive -/

theorem debit_eq_credit_add (t : TokenTypeId) (block : AccountBlock) :
    debit t block = credit t block + if ViteTokenId = t then block.Fee else 0 := rfl

/-- The sends' cost in `t`: what they carry in `t`, and their fees where `t` is VITE. -/
theorem sum_debit (t : TokenTypeId) (sent : List AccountBlock) :
    (sent.map (debit t)).sum =
      (sent.map (credit t)).sum + if ViteTokenId = t then (sent.map (·.Fee)).sum else 0 := by
  induction sent with
  | nil => simp
  | cons block rest ih =>
    simp only [List.map_cons, List.sum_cons, ih, debit_eq_credit_add]
    split_ifs <;> omega

/-- Sends that differ only in their fees agree on everything a fee-blind reading sees. -/
theorem map_eq_of_forall₂_fee {α : Type} (f : AccountBlock → α)
    (hf : ∀ block fee, f { block with Fee := fee } = f block) {blocks sent : List AccountBlock}
    (h : List.Forall₂ (fun block s => s = { block with Fee := s.Fee }) blocks sent) :
    sent.map f = blocks.map f := by
  induction h with
  | nil => rfl
  | cons hhead _ ih => rw [List.map_cons, List.map_cons, ih, hhead, hf]

theorem updateBlock_SendBlockList (env : ReceiveEnv) (db : VmDb) (block : AccountBlock)
    (err : Option ReceiveError) : (updateBlock env db block err).SendBlockList = block.SendBlockList := by
  unfold updateBlock
  split_ifs <;> rfl

theorem updateBlock_AccountAddress (env : ReceiveEnv) (db : VmDb) (block : AccountBlock)
    (err : Option ReceiveError) :
    (updateBlock env db block err).AccountAddress = block.AccountAddress := by
  unfold updateBlock
  split_ifs <;> rfl

/-- What a failed receive that returns its block leaves, against the database `before` it:
storage and logs as they were; balances as they were, less the fees the refund sends paid; refund
blocks from the contract to the sender, with no fee unless a builtin recipient charged one, that
per token total the send's amount in its token and its fee in VITE, in one block where both are
VITE. -/
structure FailedReceive (env : ReceiveEnv) (before : VmDb) (block sendBlock : AccountBlock)
    (res : VmAccountBlock) : Prop where
  storage : res.VmDb.current.storage = before.latestStorage
  logList : res.VmDb.current.logList = []
  balance : ∀ t, res.VmDb.GetBalance t +
    (if ViteTokenId = t then (res.AccountBlock.SendBlockList.map (·.Fee)).sum else 0) =
      before.latestBalance t
  refunds : ∀ b ∈ res.AccountBlock.SendBlockList, b.AccountAddress = block.AccountAddress ∧
    b.ToAddress = sendBlock.AccountAddress ∧
    (b.BlockType = BlockTypeSendRefund ∨ env.GetBuiltinContractMethod b.ToAddress b.Data = none →
      b.Fee = 0)
  amounts : ∀ t, (res.AccountBlock.SendBlockList.map (credit t)).sum =
    (if sendBlock.TokenId = t then sendBlock.Amount else 0) +
      if ViteTokenId = t then sendBlock.Fee else 0
  merged : 0 < sendBlock.Amount → 0 < sendBlock.Fee → sendBlock.TokenId = ViteTokenId →
    res.AccountBlock.SendBlockList.length = 1

section Failed

variable {env : ReceiveEnv} {db : VmDb} {block sendBlock : AccountBlock} {refundData : List UInt8}
  {needRefund : Bool} {refundBlockType : UInt8} {err err' : ReceiveError} {res : VmAccountBlock}

/-- The refund after a revert, where its sends went through and the block is returned. -/
theorem refundAndReturn_failed
    (htype : refundBlockType = BlockTypeSendCall ∨ refundBlockType = BlockTypeSendRefund)
    (hfresh : block.SendBlockList = [])
    (h : refundAndReturn env db.Reset block sendBlock refundData needRefund refundBlockType err =
      some (some res, noRetry, some err')) :
    err' = err ∧ FailedReceive env db block sendBlock res := by
  unfold refundAndReturn at h
  dsimp only at h
  have hr : Refunds block sendBlock refundBlockType db.Reset
      (doRefund db.Reset block sendBlock refundData needRefund refundBlockType) := doRefund_refunds
  set r := doRefund db.Reset block sendBlock refundData needRefund refundBlockType
  split_ifs at h with hflag
  · split at h
    · cases h
    · simp [retry, noRetry] at h
    · rename_i db' sent hsend
      simp only [Option.some.injEq, Prod.mk.injEq] at h
      obtain ⟨hres, -, rfl⟩ := h
      have hdb : res.VmDb = db' := by rw [← hres]; rfl
      have hsends : res.AccountBlock.SendBlockList = sent := by rw [← hres]; rfl
      -- the refund blocks are calls or refunds, so the loop's accounting applies
      have hsent := doSendBlockList_ok (fun b hb => (hr.blocks b hb).2.2.2.elim
        (fun h => h ▸ htype) .inl) hsend
      have hcredit (t : TokenTypeId) : sent.map (credit t) = r.sendBlockList.map (credit t) :=
        map_eq_of_forall₂_fee (credit t) (fun _ _ => rfl) hsent.blocks_eq
      have haddress := map_eq_of_forall₂_fee (fun b : AccountBlock => (b.AccountAddress, b.ToAddress))
        (fun _ _ => rfl) hsent.blocks_eq
      have hframe := hr.balanceOnly.trans hsent.balanceOnly
      rw [← hdb] at hframe
      refine ⟨rfl, ⟨hframe.current_storage, hframe.current_logList, fun t => ?_, fun b hb => ?_,
        fun t => ?_, fun ha hf ht => ?_⟩⟩
      · have h₁ := hsent.balance t
        have h₂ := hr.balance t
        rw [sum_debit, hcredit t] at h₁
        rw [hdb, hsends]
        change db'.GetBalance t + _ = db.Reset.GetBalance t
        omega
      · rw [hsends] at hb
        have hmem : (b.AccountAddress, b.ToAddress) ∈
            sent.map fun b : AccountBlock => (b.AccountAddress, b.ToAddress) :=
          List.mem_map.mpr ⟨b, hb, rfl⟩
        obtain ⟨b', hb', hsame⟩ := List.mem_map.mp (haddress ▸ hmem)
        obtain ⟨-, hfrom, hto, -⟩ := hr.blocks b' hb'
        simp only [Prod.mk.injEq] at hsame
        exact ⟨hsame.1 ▸ hfrom, hsame.2 ▸ hto, hsent.fee_eq_zero b hb⟩
      · rw [hsends, hcredit t]
        exact hr.amounts t
      · rw [hsends, ← hsent.blocks_eq.length_eq]
        exact hr.merged ha hf ht
  · -- nothing to refund: the block keeps its empty list of sends
    simp only [Option.some.injEq, Prod.mk.injEq] at h
    obtain ⟨hres, -, rfl⟩ := h
    have hdb : res.VmDb = r.db := by rw [← hres]
    have hsends : res.AccountBlock.SendBlockList = [] := by
      rw [← hres, ← hfresh]
      exact updateBlock_SendBlockList env _ block _
    have hnil := hr.flag (by simpa using hflag)
    have hframe := hr.balanceOnly
    rw [← hdb] at hframe
    refine ⟨rfl, ⟨hframe.current_storage, hframe.current_logList, fun t => ?_,
      fun b hb => ?_, fun t => ?_, fun ha hf ht => ?_⟩⟩
    · simpa [hdb, hsends, hnil, GetBalance_Reset] using hr.balance t
    · simp [hsends] at hb
    · simpa [hsends, hnil] using hr.amounts t
    · simpa [hnil] using hr.merged ha hf ht

/-- The facts are about the account's latest state and the contract's address, whichever database
and block the failure was handled on. -/
theorem FailedReceive.transport {db₀ : VmDb} {block₀ : AccountBlock}
    (h : FailedReceive env db₀ block₀ sendBlock res) (hsame : db.SameLatest db₀)
    (haddress : block₀.AccountAddress = block.AccountAddress) :
    FailedReceive env db block sendBlock res := by
  refine ⟨?_, h.logList, fun t => ?_, fun b hb => ?_, h.amounts, h.merged⟩
  · rw [h.storage, hsame.2]
  · rw [h.balance t, hsame.1]
  · rw [← haddress]
    exact h.refunds b hb

end Failed

/-! ## Where a receive fails -/

/-- Where a failed receive returns a block, it was handled on a database with the account's
latest state and a block of the same contract, by a revert and a refund. -/
def HandledByRefund (env : ReceiveEnv) (db : VmDb) (block sendBlock : AccountBlock)
    (res : VmAccountBlock) (err : ReceiveError) : Prop :=
  ∃ db₀ block₀ refundData needRefund refundBlockType, db.SameLatest db₀ ∧
    block₀.AccountAddress = block.AccountAddress ∧ block₀.SendBlockList = block.SendBlockList ∧
    (refundBlockType = BlockTypeSendCall ∨ refundBlockType = BlockTypeSendRefund) ∧
    refundAndReturn env db₀.Reset block₀ sendBlock refundData needRefund refundBlockType err =
      some (some res, noRetry, some err)

section Paths

variable {env : ReceiveEnv} {db : VmDb} {block sendBlock : AccountBlock} {res : VmAccountBlock}
  {err : ReceiveError}

theorem HandledByRefund.of_db {db₀ : VmDb} {block₀ : AccountBlock} (hsame : db.SameLatest db₀)
    (haddress : block₀.AccountAddress = block.AccountAddress)
    (hsends : block₀.SendBlockList = block.SendBlockList)
    (h : HandledByRefund env db₀ block₀ sendBlock res err) :
    HandledByRefund env db block sendBlock res err := by
  obtain ⟨db₁, block₁, refundData, needRefund, refundBlockType, hsame₁, haddress₁, hsends₁, htype,
    hrefund⟩ := h
  exact ⟨db₁, block₁, refundData, needRefund, refundBlockType, hsame.trans hsame₁,
    haddress₁.trans haddress, hsends₁.trans hsends, htype, hrefund⟩

theorem builtinFailed_handled {p : BuiltinContractMethod} {err' : ReceiveError}
    (h : builtinFailed env p db block sendBlock err' = some (some res, noRetry, some err)) :
    HandledByRefund env db block sendBlock res err := by
  -- the refund returns the error it was given
  have herr : err' = err := by
    unfold builtinFailed refundAndReturn at h
    dsimp only at h
    split_ifs at h
    · split at h <;> simp_all
    · simp_all
  subst herr
  exact ⟨db, block, _, _, BlockTypeSendCall, ⟨rfl, rfl⟩, rfl, rfl, .inl rfl, h⟩

theorem userFailed_handled {err' : ReceiveError}
    (h : userFailed env db block sendBlock err' = some (some res, noRetry, some err)) :
    HandledByRefund env db block sendBlock res err := by
  unfold userFailed at h
  dsimp only at h
  split_ifs at h
  · simp at h
  · simp at h
  -- past the two retries, the refund returns the error it was given
  have herr : err' = err := by
    unfold refundAndReturn at h
    dsimp only at h
    split_ifs at h
    · split at h <;> simp_all
    · simp_all
  subst herr
  exact ⟨db, block, _, _, BlockTypeSendRefund, ⟨rfl, rfl⟩, rfl, rfl, .inr rfl, h⟩

theorem receiveBuiltinRun_handled {p : BuiltinContractMethod}
    (h : receiveBuiltinRun env db block sendBlock p = some (some res, noRetry, some err)) :
    HandledByRefund env db block sendBlock res err := by
  unfold receiveBuiltinRun at h
  dsimp only at h
  split at h
  · -- the method failed: reverted on the database it left
    exact (builtinFailed_handled h).of_db ⟨rfl, rfl⟩ rfl rfl
  · split at h
    · cases h
    · simp at h
    · -- a send of the method failed: reverted on the database the loop left
      rename_i db' _ hsend
      exact (builtinFailed_handled h).of_db
        (VmDb.SameLatest.trans ⟨rfl, rfl⟩ (doSendBlockList_balanceOnly hsend).sameLatest)
        (updateBlock_AccountAddress ..) (updateBlock_SendBlockList ..)

theorem receiveBuiltin_handled {p : BuiltinContractMethod}
    (h : receiveBuiltin env db block sendBlock p = some (some res, noRetry, some err)) :
    HandledByRefund env db block sendBlock res err := by
  unfold receiveBuiltin at h
  split_ifs at h
  · -- without quota the receive returns no block
    split at h
    · simp at h
    · split at h
      · simp at h
      · exact receiveBuiltinRun_handled h
  · exact receiveBuiltinRun_handled h

theorem receiveUser_handled {contractMeta : Option ContractMeta}
    (h : receiveUser env db block sendBlock contractMeta = some (some res, noRetry, some err)) :
    HandledByRefund env db block sendBlock res err := by
  unfold receiveUser at h
  -- the quota and the gas checks return no block
  split at h
  · cases h
  split at h
  · simp at h
  split at h
  · simp at h
  dsimp only at h
  split at h
  · simp at h
  · split at h
    · -- the code failed: handled on the database it left
      exact (userFailed_handled h).of_db ⟨rfl, rfl⟩ rfl rfl
    · split at h
      · cases h
      · simp at h
      · -- a send of the code failed: handled on the database the loop left
        rename_i db' _ hsend
        exact (userFailed_handled h).of_db
          (VmDb.SameLatest.trans ⟨rfl, rfl⟩ (doSendBlockList_balanceOnly hsend).sameLatest)
          (updateBlock_AccountAddress ..) (updateBlock_SendBlockList ..)

/-- A receive that fails with a block, no retry and an error other than `ErrDepth` was handled by
a revert and a refund. -/
theorem receiveCall_handled {contractMeta : Option ContractMeta}
    (h : receiveCall env db block sendBlock contractMeta = some (some res, noRetry, some err))
    (hdepth : err ≠ .ErrDepth) : HandledByRefund env db block sendBlock res err := by
  unfold receiveCall at h
  split_ifs at h
  · simp only [Option.some.injEq, Prod.mk.injEq] at h
    exact absurd h.2.2.symm hdepth
  · split at h
    · cases h
    · exact receiveBuiltin_handled h
    · exact receiveUser_handled h

end Paths

/-! ## The receive's failures -/

/-- Past the maximum call depth, the receive credits the send's amount to the contract, returns
its block with `ErrDepth` and no retry, and sends nothing back. -/
theorem receiveCall_depth_credits (env : ReceiveEnv) (db : VmDb) (block sendBlock : AccountBlock)
    (contractMeta : Option ContractMeta) (hdepth : checkDepth db sendBlock = true) :
    ∃ res, receiveCall env db block sendBlock contractMeta = some (some res, noRetry, some .ErrDepth) ∧
      (∀ t, res.VmDb.GetBalance t =
        db.GetBalance t + if sendBlock.TokenId = t then sendBlock.Amount else 0) ∧
      res.AccountBlock.SendBlockList = block.SendBlockList := by
  refine ⟨_, by unfold receiveCall; rw [if_pos hdepth], fun t => GetBalance_AddBalance .., ?_⟩
  exact updateBlock_SendBlockList ..

/-- A fresh database of an account that holds nothing, at a given call depth. -/
def emptyDb (depth : UInt16) : VmDb where
  latestBalance := fun _ => 0
  latestStorage := fun _ => none
  current := ⟨fun _ => 0, fun _ => none, []⟩
  GetCallDepth := fun _ => depth
  UnconfirmedBlocks := 0

/-- A user contract whose code writes to its storage and then reverts. -/
def revertingEnv : ReceiveEnv where
  GetBuiltinContractMethod := fun _ _ => none
  GetQuotaForBlock := .ok 21000
  gasReceive := fun _ => .ok 21000
  run := fun db =>
    ({ db.current with storage := fun _ => some [1] }, .error (.vm .ErrExecutionReverted))
  GetReceiptHash := fun _ => []
  GetLogListHash := fun _ => none

def contractReceive : AccountBlock where
  BlockType := BlockTypeReceive
  Hash := []
  AccountAddress := [7, 1]
  ToAddress := []
  Amount := 0
  TokenId := []
  Data := []
  Fee := 0
  LogHash := none
  SendBlockList := []

/-- A user's call of the contract with 5 VITE. -/
def viteCall : AccountBlock where
  BlockType := BlockTypeSendCall
  Hash := [9]
  AccountAddress := [2, 0]
  ToAddress := [7, 1]
  Amount := 5
  TokenId := ViteTokenId
  Data := []
  Fee := 0
  LogHash := none
  SendBlockList := []

theorem receiveCall_depth_refunds_nothing :
    ∃ res, receiveCall revertingEnv (emptyDb 512) contractReceive viteCall (some ⟨0⟩) =
        some (some res, noRetry, some .ErrDepth) ∧
      res.VmDb.GetBalance ViteTokenId = (emptyDb 512).latestBalance ViteTokenId + 5 ∧
      res.AccountBlock.SendBlockList = [] := by
  obtain ⟨res, hcall, hbalance, hsends⟩ := receiveCall_depth_credits revertingEnv (emptyDb 512)
    contractReceive viteCall (some ⟨0⟩) (by decide)
  exact ⟨res, hcall, by simpa [viteCall, emptyDb, VmDb.GetBalance] using hbalance ViteTokenId, hsends⟩

/-- Every other failed receive that returns a block and does not retry undoes what it did to the
account and refunds the send to its sender. -/
theorem receiveCall_failure_refunds (env : ReceiveEnv) (db : VmDb) (block sendBlock : AccountBlock)
    (contractMeta : Option ContractMeta) (res : VmAccountBlock) (err : ReceiveError)
    (h : receiveCall env db block sendBlock contractMeta = some (some res, noRetry, some err))
    (hdepth : err ≠ .ErrDepth) (hfresh : block.SendBlockList = []) :
    FailedReceive env db block sendBlock res := by
  obtain ⟨db₀, block₀, refundData, needRefund, refundBlockType, hsame, haddress, hsends, htype,
    hrefund⟩ := receiveCall_handled h hdepth
  exact (refundAndReturn_failed htype (hsends.trans hfresh) hrefund).2.transport hsame haddress

theorem receiveCall_failure_refunds_revert :
    ∃ res err, receiveCall revertingEnv (emptyDb 0) contractReceive viteCall (some ⟨0⟩) =
        some (some res, noRetry, some err) ∧ err ≠ .ErrDepth ∧
      FailedReceive revertingEnv (emptyDb 0) contractReceive viteCall res :=
  ⟨_, _, rfl, by decide, receiveCall_failure_refunds revertingEnv (emptyDb 0) contractReceive viteCall
    (some ⟨0⟩) _ _ rfl (by decide) rfl⟩

end Vite.Receive
