import Vite.Contracts.Asset
import Vite.Lib.ExceptRun

/-!
# The quota contract's stakes

The receives of vm/contracts/contracts_quota.go on the contract's storage: the stake records, the
staked amount of each beneficiary, and the id index of the records `StakeV3` creates.

A record is stored in one of two layouts, `stakeInfo` (192 bytes) and `stakeInfoV2` (128 bytes,
with the id of the send that created it), and `UnpackStakeInfo` tells them apart by length. A
`V2` record decodes as not delegated, with the zero delegate address and bid `0`, which is
exactly what `MethodStake` looks for with `getStakeInfo`: a plain stake of a staker for a
beneficiary is added into that staker's id record for the same beneficiary, rewritten in the
first layout. The id index still points at the record, which no longer carries the id, and a
`CancelStake` may now take it apart.
-/

namespace Vite.Contracts.Quota

abbrev Hash := List UInt8

/-- `types.ZERO_ADDRESS`, the `noDelegateAddress` of a plain stake. -/
def ZERO_ADDRESS : Address := List.replicate 21 0

/-- `stakeAmountMin`: 134 VITE in attov. -/
def stakeAmountMin : ℤ := 134 * 10 ^ 18

/-- `stakeHeightMax`. -/
def stakeHeightMax : ℕ := 3600 * 24 * 365

/-- A stored record, in the layout it was written with. -/
inductive StakeRecord where
  | V1 (Amount : ℤ) (ExpirationHeight : ℕ) (Beneficiary : Address) (IsDelegated : Bool)
      (DelegateAddress : Address) (Bid : ℕ)
  | V2 (Amount : ℤ) (ExpirationHeight : ℕ) (Beneficiary : Address) (Id : Hash)
  deriving DecidableEq, Repr

/-- `types.StakeInfo`, as `UnpackStakeInfo` decodes a record. -/
structure StakeInfo where
  Amount : ℤ
  ExpirationHeight : ℕ
  Beneficiary : Address
  IsDelegated : Bool
  DelegateAddress : Address
  Bid : ℕ
  Id : Option Hash
  deriving DecidableEq, Repr

def UnpackStakeInfo : StakeRecord → StakeInfo
  | .V1 a e b d da bid => ⟨a, e, b, d, da, bid, none⟩
  | .V2 a e b id => ⟨a, e, b, false, ZERO_ADDRESS, 0, some id⟩

/-- A stake info key: the staker and the index. -/
abbrev StakeInfoKey := Address × ℕ

/-- The contract's storage: the records by stake info key, the amount by beneficiary
(`GetStakeBeneficialKey`; a missing entry is `0`), and the key by id. -/
structure QuotaDb where
  stakeInfos : List (StakeInfoKey × StakeRecord)
  beneficial : List (Address × ℤ)
  ids : List (Hash × StakeInfoKey)
  deriving DecidableEq, Repr

def QuotaDb.empty : QuotaDb := ⟨[], [], []⟩

/-- What a receive reads besides its storage: the height of the snapshot block, the height of
the receive block (the index of a new record), and the node's `StakeHeight`. -/
structure Env where
  snapshotHeight : ℕ
  height : ℕ
  StakeHeight : ℕ

/-- The fields of the send block the receives read. -/
structure SendBlock where
  AccountAddress : Address
  Amount : ℤ
  Hash : Hash
  deriving DecidableEq, Repr

/-- A send the contract emits: VITE to `ToAddress`, with a callback or not. -/
structure Refund where
  ToAddress : Address
  Amount : ℤ
  callback : Bool
  deriving DecidableEq, Repr

inductive QuotaError where
  | ErrInvalidMethodParam
  deriving DecidableEq, Repr

/-- The methods with their unpacked parameters. `Stake` and `StakeV2` run `MethodStake`, and so
on for each pair; `StakeV3` and `StakeWithCallback` run `MethodStakeV3` (`withCallback` tells
them apart, with the stake height the callback form gives), `CancelStakeV3` and
`CancelStakeWithCallback` run `MethodCancelStakeV3`. -/
inductive QuotaCall where
  | Stake (Beneficiary : Address)
  | CancelStake (Beneficiary : Address) (Amount : ℤ)
  | DelegateStake (StakeAddress Beneficiary : Address) (Bid StakeHeight : ℕ)
  | CancelDelegateStake (StakeAddress Beneficiary : Address) (Amount : ℤ) (Bid : ℕ)
  | StakeV3 (Beneficiary : Address) (StakeHeight : ℕ) (withCallback : Bool)
  | CancelStakeV3 (Id : Hash) (withCallback : Bool)
  deriving DecidableEq, Repr

/-! ## Storage -/

section Storage

open AssocList

/-- The staker's records in the order of their keys, as the storage iterator visits them. -/
def recordsOf (db : QuotaDb) (stakeAddr : Address) : List (ℕ × StakeRecord) :=
  (db.stakeInfos.filterMap fun e => if e.1.1 = stakeAddr then some (e.1.2, e.2) else none).mergeSort
    fun a b => a.1 ≤ b.1

/-- The key of a new record: past every index of the staker's records visited, and not below
the receive's height. -/
def nextKey (stakeAddr : Address) (maxIndex currentIndex : ℕ) : StakeInfoKey :=
  if maxIndex < currentIndex then (stakeAddr, currentIndex) else (stakeAddr, maxIndex + 1)

/-- The loop of `getStakeInfo` from `maxIndex`: the first record matching the beneficiary, the
delegation, the delegate and the bid, or the key for a new one. -/
def findStakeInfo (stakeAddr beneficiary : Address) (isDelegated : Bool) (delegateAddr : Address)
    (bid currentIndex : ℕ) : List (ℕ × StakeRecord) → ℕ → StakeInfoKey × Option StakeInfo
  | [], maxIndex => (nextKey stakeAddr maxIndex currentIndex, none)
  | (index, r) :: rest, maxIndex =>
    let stakeInfo := UnpackStakeInfo r
    if stakeInfo.Beneficiary = beneficiary ∧ stakeInfo.IsDelegated = isDelegated ∧
        stakeInfo.DelegateAddress = delegateAddr ∧ stakeInfo.Bid = bid then
      ((stakeAddr, index), some stakeInfo)
    else findStakeInfo stakeAddr beneficiary isDelegated delegateAddr bid currentIndex rest
      (max maxIndex index)

def getStakeInfo (db : QuotaDb) (stakeAddr beneficiary : Address) (isDelegated : Bool)
    (delegateAddr : Address) (bid currentIndex : ℕ) : StakeInfoKey × Option StakeInfo :=
  findStakeInfo stakeAddr beneficiary isDelegated delegateAddr bid currentIndex
    (recordsOf db stakeAddr) 0

def getNextStakeInfoKey (db : QuotaDb) (stakeAddr : Address) (currentIndex : ℕ) : StakeInfoKey :=
  nextKey stakeAddr ((recordsOf db stakeAddr).foldl (fun m e => max m e.1) 0) currentIndex

def getStakeExpirationHeight (env : Env) (height : ℕ) : ℕ := env.snapshotHeight + height

def stakeNotDue (oldStakeInfo : StakeInfo) (env : Env) : Bool :=
  env.snapshotHeight < oldStakeInfo.ExpirationHeight

def beneficialAmount (db : QuotaDb) (beneficiary : Address) : ℤ :=
  (find? beneficiary db.beneficial).getD 0

/-- `util.SetValue` of a beneficial amount: a zero amount deletes the entry. -/
def setBeneficial (db : QuotaDb) (beneficiary : Address) (amount : ℤ) : QuotaDb :=
  if amount = 0 then { db with beneficial := erase beneficiary db.beneficial }
  else { db with beneficial := insert beneficiary amount db.beneficial }

def setStakeInfo (db : QuotaDb) (key : StakeInfoKey) (r : StakeRecord) : QuotaDb :=
  { db with stakeInfos := insert key r db.stakeInfos }

def deleteStakeInfo (db : QuotaDb) (key : StakeInfoKey) : QuotaDb :=
  { db with stakeInfos := erase key db.stakeInfos }

end Storage

/-! ## Receives -/

section Receives

variable (db : QuotaDb) (env : Env) (sendBlock : SendBlock)

/-- An addition to a beneficiary's amount, as the staking receives write it: packed, so never
deleted. -/
def addBeneficial (beneficiary : Address) (amount : ℤ) : QuotaDb :=
  { db with
    beneficial :=
      AssocList.insert beneficiary (beneficialAmount db beneficiary + amount) db.beneficial }

/-- The cancel receives' common tail: the beneficiary must hold `amount`, which it loses. -/
def subBeneficial (beneficiary : Address) (amount : ℤ) : Except QuotaError QuotaDb :=
  -- a missing entry does not unpack: `err != nil`
  match AssocList.find? beneficiary db.beneficial with
  | none => .error .ErrInvalidMethodParam
  | some old =>
    if old < amount then .error .ErrInvalidMethodParam
    else .ok (setBeneficial db beneficiary (old - amount))

def MethodStake.DoReceive (beneficiary : Address) : QuotaDb × List Refund :=
  let (stakeInfoKey, oldStakeInfo) :=
    getStakeInfo db sendBlock.AccountAddress beneficiary false ZERO_ADDRESS 0 env.height
  let amount := (oldStakeInfo.map (·.Amount)).getD 0 + sendBlock.Amount
  let db := setStakeInfo db stakeInfoKey
    (.V1 amount (getStakeExpirationHeight env env.StakeHeight) beneficiary false ZERO_ADDRESS 0)
  (addBeneficial db beneficiary sendBlock.Amount, [])

/-- `MethodCancelStake.DoReceive` and `MethodCancelDelegateStake.DoReceive`: they differ in the
record they look up and in what they write back. -/
def cancelRecord (stakeInfoKey : StakeInfoKey) (oldStakeInfo : Option StakeInfo)
    (beneficiary : Address) (amount : ℤ) (rewrite : StakeInfo → ℤ → StakeRecord)
    (callback : Bool) : Except QuotaError (QuotaDb × List Refund) :=
  match oldStakeInfo with
  | none => .error .ErrInvalidMethodParam
  | some old =>
    if stakeNotDue old env ∨ old.Amount < amount ∨ old.Id.isSome then .error .ErrInvalidMethodParam
    else
      let left := old.Amount - amount
      if left ≠ 0 ∧ left < stakeAmountMin then .error .ErrInvalidMethodParam
      else do
        let db ← subBeneficial db beneficiary amount
        let db := if left = 0 then deleteStakeInfo db stakeInfoKey
          else setStakeInfo db stakeInfoKey (rewrite old left)
        pure (db, [⟨sendBlock.AccountAddress, amount, callback⟩])

def MethodCancelStake.DoReceive (beneficiary : Address) (amount : ℤ) :
    Except QuotaError (QuotaDb × List Refund) :=
  let (stakeInfoKey, oldStakeInfo) :=
    getStakeInfo db sendBlock.AccountAddress beneficiary false ZERO_ADDRESS 0 env.height
  cancelRecord db env sendBlock stakeInfoKey oldStakeInfo beneficiary amount
    (fun old left => .V1 left old.ExpirationHeight old.Beneficiary false ZERO_ADDRESS 0) false

def MethodDelegateStake.DoReceive (stakeAddress beneficiary : Address) (bid stakeHeight : ℕ) :
    QuotaDb × List Refund :=
  let (stakeInfoKey, oldStakeInfo) :=
    getStakeInfo db stakeAddress beneficiary true sendBlock.AccountAddress bid env.height
  let amount := (oldStakeInfo.map (·.Amount)).getD 0 + sendBlock.Amount
  let oldExpirationHeight := (oldStakeInfo.map (·.ExpirationHeight)).getD 0
  let db := setStakeInfo db stakeInfoKey
    (.V1 amount (max oldExpirationHeight (getStakeExpirationHeight env stakeHeight)) beneficiary
      true       sendBlock.AccountAddress bid)
  -- the callback send carries no VITE
  (addBeneficial db beneficiary sendBlock.Amount, [⟨sendBlock.AccountAddress, 0, true⟩])

def MethodCancelDelegateStake.DoReceive (stakeAddress beneficiary : Address) (amount : ℤ)
    (bid : ℕ) : Except QuotaError (QuotaDb × List Refund) :=
  let (stakeInfoKey, oldStakeInfo) :=
    getStakeInfo db stakeAddress beneficiary true sendBlock.AccountAddress bid env.height
  cancelRecord db env sendBlock stakeInfoKey oldStakeInfo beneficiary amount
    (fun old left => .V1 left old.ExpirationHeight old.Beneficiary true old.DelegateAddress bid)
    true

def MethodStakeV3.DoReceive (beneficiary : Address) (stakeHeight : ℕ) (withCallback : Bool) :
    QuotaDb × List Refund :=
  let stakeInfoKey := getNextStakeInfoKey db sendBlock.AccountAddress env.height
  let stakeHeight := if withCallback then stakeHeight else env.StakeHeight
  let db := setStakeInfo db stakeInfoKey
    (.V2 sendBlock.Amount (getStakeExpirationHeight env stakeHeight) beneficiary sendBlock.Hash)
  let db := { db with ids := AssocList.insert sendBlock.Hash stakeInfoKey db.ids }
  (addBeneficial db beneficiary sendBlock.Amount,
    if withCallback then [⟨sendBlock.AccountAddress, 0, true⟩] else [])

def MethodCancelStakeV3.DoReceive (id : Hash) (withCallback : Bool) :
    Except QuotaError (QuotaDb × List Refund) :=
  match AssocList.find? id db.ids with
  | none => .error .ErrInvalidMethodParam
  | some stakeInfoKey =>
    match AssocList.find? stakeInfoKey db.stakeInfos with
    | none => .error .ErrInvalidMethodParam
    | some r =>
      let stakeInfo := UnpackStakeInfo r
      if stakeInfoKey.1 ≠ sendBlock.AccountAddress ∨ stakeNotDue stakeInfo env then
        .error .ErrInvalidMethodParam
      else do
        let db ← subBeneficial db stakeInfo.Beneficiary stakeInfo.Amount
        let db := deleteStakeInfo db stakeInfoKey
        let db := { db with ids := AssocList.erase id db.ids }
        pure (db, [⟨sendBlock.AccountAddress, stakeInfo.Amount, withCallback⟩])

/-- The receive of a call the contract accepted. -/
def DoReceive : QuotaCall → Except QuotaError (QuotaDb × List Refund)
  | .Stake beneficiary => .ok (MethodStake.DoReceive db env sendBlock beneficiary)
  | .CancelStake beneficiary amount =>
    MethodCancelStake.DoReceive db env sendBlock beneficiary amount
  | .DelegateStake stakeAddress beneficiary bid stakeHeight =>
    .ok (MethodDelegateStake.DoReceive db env sendBlock stakeAddress beneficiary bid stakeHeight)
  | .CancelDelegateStake stakeAddress beneficiary amount bid =>
    MethodCancelDelegateStake.DoReceive db env sendBlock stakeAddress beneficiary amount bid
  | .StakeV3 beneficiary stakeHeight withCallback =>
    .ok (MethodStakeV3.DoReceive db env sendBlock beneficiary stakeHeight withCallback)
  | .CancelStakeV3 id withCallback => MethodCancelStakeV3.DoReceive db env sendBlock id withCallback

end Receives

/-- The checks of `DoSend` on a VITE send: a staking send carries at least `stakeAmountMin`
and a stake height in range where it gives one; a cancel carries no VITE and asks for at least
`stakeAmountMin`. -/
def DoSend (call : QuotaCall) (sendBlock : SendBlock) (StakeHeight : ℕ) : Bool :=
  match call with
  | .Stake _ => stakeAmountMin ≤ sendBlock.Amount
  | .CancelStake _ amount | .CancelDelegateStake _ _ amount _ =>
    sendBlock.Amount ≤ 0 ∧ stakeAmountMin ≤ amount
  | .DelegateStake _ _ _ stakeHeight =>
    stakeAmountMin ≤ sendBlock.Amount ∧ StakeHeight ≤ stakeHeight ∧ stakeHeight ≤ stakeHeightMax
  | .StakeV3 _ stakeHeight withCallback =>
    stakeAmountMin ≤ sendBlock.Amount ∧
      (withCallback → StakeHeight ≤ stakeHeight ∧ stakeHeight ≤ stakeHeightMax)
  | .CancelStakeV3 _ _ => sendBlock.Amount ≤ 0

/-- The storage after the receives of a sequence of sends: a send `DoSend` refuses never reaches
the contract, and a receive that fails is rolled back. -/
def runReceives : QuotaDb → List (Env × SendBlock × QuotaCall) → QuotaDb
  | db, [] => db
  | db, (env, sendBlock, call) :: rest =>
    if DoSend call sendBlock env.StakeHeight then
      match DoReceive db env sendBlock call with
      | .ok (db', _) => runReceives db' rest
      | .error _ => runReceives db rest
    else runReceives db rest

/-! ## Lookups -/

section Lookups

open AssocList

variable {db : QuotaDb} {stakeAddr beneficiary delegateAddr : Address} {isDelegated : Bool}
  {bid currentIndex : ℕ}

theorem mem_recordsOf {index : ℕ} {r : StakeRecord} :
    (index, r) ∈ recordsOf db stakeAddr ↔ ((stakeAddr, index), r) ∈ db.stakeInfos := by
  simp [recordsOf, List.mem_mergeSort, List.mem_filterMap]

theorem lt_nextKey (stakeAddr : Address) (maxIndex currentIndex : ℕ) :
    (nextKey stakeAddr maxIndex currentIndex).1 = stakeAddr ∧
      maxIndex < (nextKey stakeAddr maxIndex currentIndex).2 := by
  unfold nextKey
  split_ifs with h
  · exact ⟨rfl, h⟩
  · exact ⟨rfl, Nat.lt_succ_self _⟩

/-- The record the loop stops at matches every field it tests. -/
theorem findStakeInfo_found {recs : List (ℕ × StakeRecord)} {maxIndex : ℕ} {key : StakeInfoKey}
    {info : StakeInfo}
    (h : findStakeInfo stakeAddr beneficiary isDelegated delegateAddr bid currentIndex recs
      maxIndex =
      (key, some info)) :
    key.1 = stakeAddr ∧ ∃ r, (key.2, r) ∈ recs ∧ info = UnpackStakeInfo r ∧
      info.Beneficiary = beneficiary ∧ info.IsDelegated = isDelegated ∧
      info.DelegateAddress = delegateAddr ∧ info.Bid = bid := by
  induction recs generalizing maxIndex with
  | nil =>
    simp [findStakeInfo] at h
  | cons e rest ih =>
    obtain ⟨index, r⟩ := e
    simp only [findStakeInfo] at h
    split_ifs at h with hm
    · simp only [Prod.mk.injEq, Option.some.injEq] at h
      obtain ⟨rfl, rfl⟩ := h
      exact ⟨rfl, r, List.mem_cons_self, rfl, hm⟩
    · obtain ⟨hs, r', hr, hinfo⟩ := ih h
      exact ⟨hs, r', List.mem_cons_of_mem _ hr, hinfo⟩

/-- Where no record matches, the loop has seen every index and the new key is past them all. -/
theorem findStakeInfo_fresh {recs : List (ℕ × StakeRecord)} {maxIndex : ℕ} {key : StakeInfoKey}
    (h : findStakeInfo stakeAddr beneficiary isDelegated delegateAddr bid currentIndex recs
      maxIndex =
      (key, none)) :
    key.1 = stakeAddr ∧ maxIndex < key.2 ∧ ∀ e ∈ recs, e.1 < key.2 := by
  induction recs generalizing maxIndex with
  | nil =>
    simp only [findStakeInfo, Prod.mk.injEq, and_true] at h
    subst h
    simpa using lt_nextKey stakeAddr maxIndex currentIndex
  | cons e rest ih =>
    obtain ⟨index, r⟩ := e
    simp only [findStakeInfo] at h
    split_ifs at h
    · simp at h
    obtain ⟨hs, hmax, hrest⟩ := ih h
    refine ⟨hs, lt_of_le_of_lt (le_max_left _ _) hmax, ?_⟩
    intro e he
    rcases List.mem_cons.mp he with rfl | he
    · exact lt_of_le_of_lt (le_max_right _ _) hmax
    · exact hrest e he

/-- `getStakeInfo` returns the staker's record that matches, read back from its key. -/
theorem getStakeInfo_found (hdb : (db.stakeInfos.map Prod.fst).Nodup) {key : StakeInfoKey}
    {info : StakeInfo}
    (h : getStakeInfo db stakeAddr beneficiary isDelegated delegateAddr bid currentIndex =
      (key, some info)) :
    ∃ r, find? key db.stakeInfos = some r ∧ info = UnpackStakeInfo r ∧
      info.Beneficiary = beneficiary ∧ info.IsDelegated = isDelegated ∧
      info.DelegateAddress = delegateAddr ∧ info.Bid = bid := by
  obtain ⟨hs, r, hr, hinfo⟩ := findStakeInfo_found h
  have hmem : (key, r) ∈ db.stakeInfos := by
    have hkey : key = (stakeAddr, key.2) := Prod.ext hs rfl
    rw [hkey]
    exact mem_recordsOf.mp hr
  exact ⟨r, find?_of_mem hdb hmem, hinfo⟩

theorem not_mem_of_past {key : StakeInfoKey} (hpast : ∀ e ∈ recordsOf db key.1, e.1 < key.2) :
    find? key db.stakeInfos = none := by
  apply find?_eq_none
  intro hk
  obtain ⟨⟨k, r⟩, hmem, rfl⟩ := List.mem_map.mp hk
  exact lt_irrefl _ (hpast (k.2, r) (mem_recordsOf.mpr hmem))

/-- Where nothing matches, `getStakeInfo`'s key holds no record. -/
theorem getStakeInfo_fresh {key : StakeInfoKey}
    (h : getStakeInfo db stakeAddr beneficiary isDelegated delegateAddr bid currentIndex =
      (key, none)) :
    key.1 = stakeAddr ∧ find? key db.stakeInfos = none := by
  obtain ⟨hs, -, hpast⟩ := findStakeInfo_fresh h
  subst hs
  exact ⟨rfl, not_mem_of_past hpast⟩

theorem le_foldl_max (recs : List (ℕ × StakeRecord)) (m : ℕ) :
    m ≤ recs.foldl (fun m e => max m e.1) m ∧
      ∀ e ∈ recs, e.1 ≤ recs.foldl (fun m e => max m e.1) m := by
  induction recs generalizing m with
  | nil => simp
  | cons e rest ih =>
    obtain ⟨hm, hrest⟩ := ih (max m e.1)
    refine ⟨le_trans (le_max_left _ _) hm, ?_⟩
    intro e' he'
    rcases List.mem_cons.mp he' with rfl | he'
    · exact le_trans (le_max_right _ _) hm
    · exact hrest e' he'

/-- `getNextStakeInfoKey` is past every index of the staker. -/
theorem getNextStakeInfoKey_fresh :
    (getNextStakeInfoKey db stakeAddr currentIndex).1 = stakeAddr ∧
      find? (getNextStakeInfoKey db stakeAddr currentIndex) db.stakeInfos = none := by
  obtain ⟨hs, hlt⟩ := lt_nextKey stakeAddr
    ((recordsOf db stakeAddr).foldl (fun m e => max m e.1) 0) currentIndex
  refine ⟨hs, not_mem_of_past ?_⟩
  intro e he
  rw [getNextStakeInfoKey, hs] at *
  exact lt_of_le_of_lt ((le_foldl_max _ 0).2 e he) hlt

/-- `getStakeInfo` returns a key of the staker and what the record at that key decodes to, which
matches every field the loop tests; a key with no record is one for a new record. -/
theorem getStakeInfo_spec (hdb : (db.stakeInfos.map Prod.fst).Nodup) {key : StakeInfoKey}
    {old : Option StakeInfo}
    (h : getStakeInfo db stakeAddr beneficiary isDelegated delegateAddr bid currentIndex =
      (key, old)) :
    key.1 = stakeAddr ∧ (find? key db.stakeInfos).map UnpackStakeInfo = old ∧
      ∀ info ∈ old, info.Beneficiary = beneficiary ∧ info.IsDelegated = isDelegated ∧
        info.DelegateAddress = delegateAddr ∧ info.Bid = bid := by
  cases old with
  | none =>
    obtain ⟨hs, hnone⟩ := getStakeInfo_fresh h
    simp [hs, hnone]
  | some info =>
    obtain ⟨hs, -⟩ := findStakeInfo_found h
    obtain ⟨r, hr, rfl, hmatch⟩ := getStakeInfo_found hdb h
    simp [hs, hr, hmatch]

end Lookups

/-! ## Writes -/

section Writes

open AssocList

variable {db : QuotaDb} {beneficiary b : Address} {amount : ℤ}

@[simp] theorem setBeneficial_stakeInfos : (setBeneficial db beneficiary amount).stakeInfos =
    db.stakeInfos := by
  unfold setBeneficial
  split_ifs <;> rfl

@[simp] theorem addBeneficial_stakeInfos : (addBeneficial db beneficiary amount).stakeInfos =
    db.stakeInfos := rfl

@[simp] theorem setStakeInfo_stakeInfos (key : StakeInfoKey) (r : StakeRecord) :
    (setStakeInfo db key r).stakeInfos = insert key r db.stakeInfos := rfl

@[simp] theorem deleteStakeInfo_stakeInfos (key : StakeInfoKey) :
    (deleteStakeInfo db key).stakeInfos = erase key db.stakeInfos := rfl

@[simp] theorem beneficialAmount_setStakeInfo (key : StakeInfoKey) (r : StakeRecord) :
    beneficialAmount (setStakeInfo db key r) b = beneficialAmount db b := rfl

@[simp] theorem beneficialAmount_deleteStakeInfo (key : StakeInfoKey) :
    beneficialAmount (deleteStakeInfo db key) b = beneficialAmount db b := rfl

theorem beneficialAmount_setBeneficial :
    beneficialAmount (setBeneficial db beneficiary amount) b =
      if b = beneficiary then amount else beneficialAmount db b := by
  unfold setBeneficial beneficialAmount
  by_cases hb : b = beneficiary
  · subst hb
    rw [if_pos rfl]
    split_ifs with ha
    · simp [find?_erase_self, ha]
    · simp [find?_insert_self]
  · rw [if_neg hb]
    split_ifs <;> simp [find?_erase_ne hb, find?_insert_ne hb]

theorem beneficialAmount_addBeneficial :
    beneficialAmount (addBeneficial db beneficiary amount) b =
      if b = beneficiary then beneficialAmount db beneficiary + amount
      else beneficialAmount db b := by
  unfold addBeneficial
  by_cases hb : b = beneficiary
  · subst hb
    simp [beneficialAmount, find?_insert_self]
  · simp [beneficialAmount, find?_insert_ne hb, hb]

/-- A cancel's check of the beneficial amount: it holds at least `amount`, and loses it. -/
theorem subBeneficial_ok {db₁ : QuotaDb} (h : subBeneficial db beneficiary amount = .ok db₁) :
    amount ≤ beneficialAmount db beneficiary ∧
      db₁ = setBeneficial db beneficiary (beneficialAmount db beneficiary - amount) := by
  unfold subBeneficial at h
  split at h
  · cases h
  · rename_i old hold
    split_ifs at h with hlt
    cases h
    have hamount : beneficialAmount db beneficiary = old := by simp [beneficialAmount, hold]
    rw [hamount]
    exact ⟨not_lt.mp hlt, rfl⟩

end Writes

/-! ## What a successful cancel did -/

section Cancels

open AssocList

variable {db db' : QuotaDb} {env : Env} {sendBlock : SendBlock} {refunds : List Refund}

/-- A cancel that goes through: the record it found is due, holds at least `amount` and no id,
and keeps either nothing, which deletes it, or at least `stakeAmountMin`; the beneficiary loses
`amount`, which is sent back to the sender. -/
theorem cancelRecord_ok {key : StakeInfoKey} {oldStakeInfo : Option StakeInfo}
    {beneficiary : Address} {amount : ℤ} {rewrite : StakeInfo → ℤ → StakeRecord} {callback : Bool}
    (h : cancelRecord db env sendBlock key oldStakeInfo beneficiary amount rewrite callback =
      .ok (db', refunds)) :
    ∃ old db₁, oldStakeInfo = some old ∧ stakeNotDue old env = false ∧ amount ≤ old.Amount ∧
      old.Id = none ∧ (old.Amount - amount = 0 ∨ stakeAmountMin ≤ old.Amount - amount) ∧
      subBeneficial db beneficiary amount = .ok db₁ ∧
      db' = (if old.Amount - amount = 0 then deleteStakeInfo db₁ key
        else setStakeInfo db₁ key (rewrite old (old.Amount - amount))) ∧
      refunds = [⟨sendBlock.AccountAddress, amount, callback⟩] := by
  unfold cancelRecord at h
  cases oldStakeInfo with
  | none => cases h
  | some old =>
    simp only at h
    split at h
    · cases h
    rename_i hbad
    split at h
    · cases h
    rename_i hleft
    obtain ⟨db₁, hsub, h⟩ := Except.bind_eq_ok.mp h
    simp only [Except.pure_eq_ok, Except.ok.injEq, Prod.mk.injEq] at h
    obtain ⟨rfl, rfl⟩ := h
    simp only [not_or, Bool.not_eq_true, not_lt] at hbad
    have hid : old.Id = none := by simpa using hbad.2.2
    have hmin : old.Amount - amount = 0 ∨ stakeAmountMin ≤ old.Amount - amount := by
      by_cases hzero : old.Amount - amount = 0
      · exact .inl hzero
      · exact .inr (not_lt.mp fun hlt => hleft ⟨hzero, hlt⟩)
    exact ⟨old, db₁, rfl, hbad.1, hbad.2.1, hid, hmin, hsub, rfl, rfl⟩

/-- `CancelStakeV3` that goes through: the id leads to a due record of the sender, whose whole
amount its beneficiary loses and the sender gets back; the record and the id are deleted. -/
theorem MethodCancelStakeV3.DoReceive_ok {id : Hash} {withCallback : Bool}
    (h : MethodCancelStakeV3.DoReceive db env sendBlock id withCallback = .ok (db', refunds)) :
    ∃ key r db₁, find? id db.ids = some key ∧ find? key db.stakeInfos = some r ∧
      key.1 = sendBlock.AccountAddress ∧ stakeNotDue (UnpackStakeInfo r) env = false ∧
      subBeneficial db (UnpackStakeInfo r).Beneficiary (UnpackStakeInfo r).Amount = .ok db₁ ∧
      db' = { deleteStakeInfo db₁ key with ids := erase id db₁.ids } ∧
      refunds = [⟨sendBlock.AccountAddress, (UnpackStakeInfo r).Amount, withCallback⟩] := by
  unfold MethodCancelStakeV3.DoReceive at h
  split at h
  · cases h
  rename_i key hkey
  split at h
  · cases h
  rename_i r hr
  simp only at h
  split at h
  · cases h
  rename_i hbad
  obtain ⟨db₁, hsub, h⟩ := Except.bind_eq_ok.mp h
  simp only [Except.pure_eq_ok, Except.ok.injEq, Prod.mk.injEq] at h
  obtain ⟨rfl, rfl⟩ := h
  simp only [not_or, not_not, Bool.not_eq_true] at hbad
  exact ⟨key, r, db₁, hkey, hr, hbad.1, hbad.2, hsub, rfl, rfl⟩

end Cancels

/-! ## The bookkeeping invariant -/

/-- What a record adds to `b`'s stake. -/
def contribution (b : Address) (info : StakeInfo) : ℤ :=
  if info.Beneficiary = b then info.Amount else 0

/-- The sum of the amounts of `b`'s records. -/
def stakedFor (db : QuotaDb) (b : Address) : ℤ :=
  AssocList.total (fun _ r => contribution b (UnpackStakeInfo r)) db.stakeInfos

/-- The bookkeeping the receives keep: the record keys are distinct, every beneficiary's stored
amount is the sum of its records' amounts, and every record holds at least `stakeAmountMin`. -/
structure Consistent (db : QuotaDb) : Prop where
  nodup : (db.stakeInfos.map Prod.fst).Nodup
  beneficial_eq : ∀ b, beneficialAmount db b = stakedFor db b
  amount_ge : ∀ e ∈ db.stakeInfos, stakeAmountMin ≤ (UnpackStakeInfo e.2).Amount

section Invariant

open AssocList

variable {db : QuotaDb} {b : Address} {amount : ℤ}

theorem stakedFor_setStakeInfo (key : StakeInfoKey) (r : StakeRecord) :
    stakedFor (setStakeInfo db key r) b =
      stakedFor db b -
          ((find? key db.stakeInfos).map fun r₀ => contribution b (UnpackStakeInfo r₀)).getD 0 +
        contribution b (UnpackStakeInfo r) :=
  total_insert _ key r db.stakeInfos

theorem stakedFor_deleteStakeInfo (hdb : (db.stakeInfos.map Prod.fst).Nodup) (key : StakeInfoKey) :
    stakedFor (deleteStakeInfo db key) b =
      stakedFor db b -
        ((find? key db.stakeInfos).map fun r₀ => contribution b (UnpackStakeInfo r₀)).getD 0 :=
  total_erase _ key hdb

theorem stakedFor_of_stakeInfos {db' : QuotaDb} (h : db'.stakeInfos = db.stakeInfos) :
    stakedFor db' b = stakedFor db b := by
  rw [stakedFor, h, stakedFor]

theorem Consistent.empty : Consistent QuotaDb.empty :=
  ⟨List.nodup_nil, fun _ => rfl, fun _ he => absurd he List.not_mem_nil⟩

theorem Consistent.ids (hc : Consistent db) (ids : List (Hash × StakeInfoKey)) :
    Consistent { db with ids := ids } :=
  ⟨hc.nodup, hc.beneficial_eq, hc.amount_ge⟩

theorem stakeAmountMin_pos : 0 < stakeAmountMin := by
  decide

theorem contribution_eq {info : StakeInfo} (h : info.Beneficiary = b) (b' : Address) :
    contribution b' info = if b' = b then info.Amount else 0 := by
  simp [contribution, h, eq_comm]

/-- The amount a key holds, `0` where it holds no record: at least `0` in a consistent storage. -/
theorem Consistent.amount_nonneg (hc : Consistent db) (key : StakeInfoKey) :
    0 ≤ (((find? key db.stakeInfos).map UnpackStakeInfo).map (·.Amount)).getD 0 := by
  cases hf : find? key db.stakeInfos with
  | none => exact le_refl 0
  | some r₀ => exact le_trans stakeAmountMin_pos.le (hc.amount_ge _ (mem_of_find? hf))

/-- A staking receive's writes, into a storage `db₂` that differs from `db` only in the record at
`key` (and in the ids): that record, which held `old` for `b` if anything, now holds `old + amount`
for `b`, and `b`'s amount grows by `amount`. -/
theorem Consistent.stake (hc : Consistent db) {db₂ : QuotaDb} {key : StakeInfoKey}
    {old : Option StakeInfo} {r : StakeRecord}
    (hs : db₂.stakeInfos = insert key r db.stakeInfos) (hben : db₂.beneficial = db.beneficial)
    (hkey : (find? key db.stakeInfos).map UnpackStakeInfo = old)
    (hold : ∀ info ∈ old, info.Beneficiary = b) (hmin : stakeAmountMin ≤ amount)
    (hb : (UnpackStakeInfo r).Beneficiary = b)
    (hamount : (UnpackStakeInfo r).Amount = (old.map (·.Amount)).getD 0 + amount) :
    Consistent (addBeneficial db₂ b amount) := by
  have hstaked : ∀ b', stakedFor db₂ b' = stakedFor (setStakeInfo db key r) b' :=
    fun _ => stakedFor_of_stakeInfos hs
  have hbeneficial : ∀ b', beneficialAmount db₂ b' = beneficialAmount db b' := by
    simp [beneficialAmount, hben]
  constructor
  · rw [addBeneficial_stakeInfos, hs]
    exact nodup_modify hc.nodup
  · intro b'
    rw [beneficialAmount_addBeneficial, stakedFor_of_stakeInfos addBeneficial_stakeInfos, hstaked,
      hbeneficial, hbeneficial, stakedFor_setStakeInfo, ← hc.beneficial_eq, contribution_eq hb]
    cases hf : find? key db.stakeInfos with
    | none =>
      rw [hf, Option.map_none] at hkey
      subst hkey
      rw [Option.map_none, Option.getD_none] at hamount ⊢
      split_ifs with hb' <;> simp [hb', hamount]
    | some r₀ =>
      rw [hf, Option.map_some] at hkey
      subst hkey
      rw [Option.map_some, Option.getD_some, contribution_eq (hold _ rfl)] at *
      split_ifs with hb' <;> simp [hb', hamount]
      omega
  · intro e he
    rw [addBeneficial_stakeInfos, hs] at he
    rcases mem_insert he with he | rfl
    · exact hc.amount_ge e he
    · have hnonneg := hc.amount_nonneg key
      rw [hkey] at hnonneg
      show stakeAmountMin ≤ (UnpackStakeInfo r).Amount
      omega

/-- A cancel that takes a whole record: its beneficiary loses the record's amount. -/
theorem Consistent.withdraw (hc : Consistent db) {key : StakeInfoKey} {r₀ : StakeRecord}
    {db₁ : QuotaDb} (hr₀ : find? key db.stakeInfos = some r₀)
    (hsub : subBeneficial db (UnpackStakeInfo r₀).Beneficiary (UnpackStakeInfo r₀).Amount =
      .ok db₁) :
    Consistent (deleteStakeInfo db₁ key) := by
  obtain ⟨-, rfl⟩ := subBeneficial_ok hsub
  have hs : (setBeneficial db (UnpackStakeInfo r₀).Beneficiary
      (beneficialAmount db (UnpackStakeInfo r₀).Beneficiary -
        (UnpackStakeInfo r₀).Amount)).stakeInfos =
      db.stakeInfos := setBeneficial_stakeInfos
  constructor
  · rw [deleteStakeInfo_stakeInfos, hs]
    exact nodup_erase key hc.nodup
  · intro b'
    rw [beneficialAmount_deleteStakeInfo, beneficialAmount_setBeneficial,
      stakedFor_deleteStakeInfo (hs ▸ hc.nodup), stakedFor_of_stakeInfos hs, hs, hr₀,
      ← hc.beneficial_eq, Option.map_some, Option.getD_some, contribution_eq rfl]
    split_ifs with hb'
    · rw [hb']
    · simp
  · intro e he
    rw [deleteStakeInfo_stakeInfos, hs] at he
    exact hc.amount_ge e ((erase_sublist key _).subset he)

/-- A cancel that leaves part of a record: its beneficiary loses `amount`, and the record keeps the
rest, at least `stakeAmountMin`. -/
theorem Consistent.reduce (hc : Consistent db) {key : StakeInfoKey} {r₀ r : StakeRecord}
    {db₁ : QuotaDb} (hr₀ : find? key db.stakeInfos = some r₀)
    (hb : (UnpackStakeInfo r).Beneficiary = (UnpackStakeInfo r₀).Beneficiary)
    (hamount : (UnpackStakeInfo r).Amount = (UnpackStakeInfo r₀).Amount - amount)
    (hmin : stakeAmountMin ≤ (UnpackStakeInfo r).Amount)
    (hsub : subBeneficial db (UnpackStakeInfo r₀).Beneficiary amount = .ok db₁) :
    Consistent (setStakeInfo db₁ key r) := by
  obtain ⟨-, rfl⟩ := subBeneficial_ok hsub
  have hs : (setBeneficial db (UnpackStakeInfo r₀).Beneficiary
      (beneficialAmount db (UnpackStakeInfo r₀).Beneficiary - amount)).stakeInfos =
      db.stakeInfos := setBeneficial_stakeInfos
  constructor
  · rw [setStakeInfo_stakeInfos, hs]
    exact nodup_modify hc.nodup
  · intro b'
    rw [beneficialAmount_setStakeInfo, beneficialAmount_setBeneficial, stakedFor_setStakeInfo,
      stakedFor_of_stakeInfos hs, hs, hr₀, ← hc.beneficial_eq, Option.map_some, Option.getD_some,
      contribution_eq rfl, contribution_eq hb]
    split_ifs with hb'
    · rw [hb', hamount]
      omega
    · simp
  · intro e he
    rw [setStakeInfo_stakeInfos, hs] at he
    rcases mem_insert he with he | rfl
    · exact hc.amount_ge e he
    · exact hmin

end Invariant

/-! ## Every receive keeps the bookkeeping -/

section Steps

open AssocList

variable {db db' : QuotaDb} {env : Env} {sendBlock : SendBlock} {refunds : List Refund}

theorem MethodStake.DoReceive_consistent (hc : Consistent db)
    (hmin : stakeAmountMin ≤ sendBlock.Amount) (beneficiary : Address) :
    Consistent (MethodStake.DoReceive db env sendBlock beneficiary).1 := by
  rcases hp : getStakeInfo db sendBlock.AccountAddress beneficiary false ZERO_ADDRESS 0 env.height
    with ⟨key, old⟩
  obtain ⟨-, hkey, hmatch⟩ := getStakeInfo_spec hc.nodup hp
  simp only [MethodStake.DoReceive, hp]
  exact hc.stake rfl rfl hkey (fun info hi => (hmatch info hi).1) hmin rfl rfl

theorem MethodDelegateStake.DoReceive_consistent (hc : Consistent db)
    (hmin : stakeAmountMin ≤ sendBlock.Amount) (stakeAddress beneficiary : Address)
    (bid stakeHeight : ℕ) :
    Consistent (MethodDelegateStake.DoReceive db env sendBlock stakeAddress beneficiary bid
      stakeHeight).1 := by
  rcases hp : getStakeInfo db stakeAddress beneficiary true sendBlock.AccountAddress bid env.height
    with ⟨key, old⟩
  obtain ⟨-, hkey, hmatch⟩ := getStakeInfo_spec hc.nodup hp
  simp only [MethodDelegateStake.DoReceive, hp]
  exact hc.stake rfl rfl hkey (fun info hi => (hmatch info hi).1) hmin rfl rfl

theorem MethodStakeV3.DoReceive_consistent (hc : Consistent db)
    (hmin : stakeAmountMin ≤ sendBlock.Amount) (beneficiary : Address) (stakeHeight : ℕ)
    (withCallback : Bool) :
    Consistent
      (MethodStakeV3.DoReceive db env sendBlock beneficiary stakeHeight withCallback).1 := by
  have hfresh : find? (getNextStakeInfoKey db sendBlock.AccountAddress env.height) db.stakeInfos =
      none := getNextStakeInfoKey_fresh.2
  have hkey : (find? (getNextStakeInfoKey db sendBlock.AccountAddress env.height)
      db.stakeInfos).map UnpackStakeInfo = none := by
    rw [hfresh, Option.map_none]
  exact hc.stake rfl rfl hkey (fun _ h => nomatch h) hmin rfl (by simp [UnpackStakeInfo])

/-- The cancels' common part keeps the bookkeeping, for a rewrite that keeps the beneficiary and
stores the amount left. -/
theorem cancelRecord_consistent (hc : Consistent db) {key : StakeInfoKey}
    {old : Option StakeInfo} {beneficiary : Address} {amount : ℤ}
    {rewrite : StakeInfo → ℤ → StakeRecord} {callback : Bool}
    (hkey : (find? key db.stakeInfos).map UnpackStakeInfo = old)
    (hold : ∀ info ∈ old, info.Beneficiary = beneficiary)
    (hrewrite : ∀ info left, (UnpackStakeInfo (rewrite info left)).Beneficiary = info.Beneficiary ∧
      (UnpackStakeInfo (rewrite info left)).Amount = left)
    (h : cancelRecord db env sendBlock key old beneficiary amount rewrite callback =
      .ok (db', refunds)) :
    Consistent db' := by
  obtain ⟨info, db₁, rfl, -, -, -, hleft, hsub, rfl, -⟩ := cancelRecord_ok h
  obtain ⟨r₀, hr₀, rfl⟩ := Option.map_eq_some_iff.mp hkey
  rw [← hold _ rfl] at hsub
  split_ifs with hzero
  · have hamount : amount = (UnpackStakeInfo r₀).Amount := by omega
    rw [hamount] at hsub
    exact hc.withdraw hr₀ hsub
  · obtain ⟨hb, hamount⟩ := hrewrite (UnpackStakeInfo r₀) ((UnpackStakeInfo r₀).Amount - amount)
    have hmin : stakeAmountMin ≤ (UnpackStakeInfo (rewrite (UnpackStakeInfo r₀)
        ((UnpackStakeInfo r₀).Amount - amount))).Amount := by
      rw [hamount]
      exact hleft.resolve_left hzero
    exact hc.reduce hr₀ hb hamount hmin hsub

theorem MethodCancelStake.DoReceive_consistent (hc : Consistent db) {beneficiary : Address}
    {amount : ℤ} (h : MethodCancelStake.DoReceive db env sendBlock beneficiary amount =
      .ok (db', refunds)) :
    Consistent db' := by
  unfold MethodCancelStake.DoReceive at h
  rcases hp : getStakeInfo db sendBlock.AccountAddress beneficiary false ZERO_ADDRESS 0 env.height
    with ⟨key, old⟩
  rw [hp] at h
  obtain ⟨-, hkey, hmatch⟩ := getStakeInfo_spec hc.nodup hp
  exact cancelRecord_consistent hc hkey (fun info hi => (hmatch info hi).1)
    (fun _ _ => ⟨rfl, rfl⟩) h

theorem MethodCancelDelegateStake.DoReceive_consistent (hc : Consistent db)
    {stakeAddress beneficiary : Address} {amount : ℤ} {bid : ℕ}
    (h : MethodCancelDelegateStake.DoReceive db env sendBlock stakeAddress beneficiary amount bid =
      .ok (db', refunds)) :
    Consistent db' := by
  unfold MethodCancelDelegateStake.DoReceive at h
  rcases hp : getStakeInfo db stakeAddress beneficiary true sendBlock.AccountAddress bid env.height
    with ⟨key, old⟩
  rw [hp] at h
  obtain ⟨-, hkey, hmatch⟩ := getStakeInfo_spec hc.nodup hp
  exact cancelRecord_consistent hc hkey (fun info hi => (hmatch info hi).1)
    (fun _ _ => ⟨rfl, rfl⟩) h

theorem MethodCancelStakeV3.DoReceive_consistent (hc : Consistent db) {id : Hash}
    {withCallback : Bool}
    (h : MethodCancelStakeV3.DoReceive db env sendBlock id withCallback = .ok (db', refunds)) :
    Consistent db' := by
  obtain ⟨key, r, db₁, -, hr, -, -, hsub, rfl, -⟩ := MethodCancelStakeV3.DoReceive_ok h
  exact (hc.withdraw hr hsub).ids _

/-- One receive of a send `DoSend` accepted keeps the bookkeeping. -/
theorem DoReceive_consistent (hc : Consistent db) {call : QuotaCall}
    (hsend : DoSend call sendBlock env.StakeHeight = true)
    (h : DoReceive db env sendBlock call = .ok (db', refunds)) :
    Consistent db' := by
  cases call with
  | Stake beneficiary =>
    obtain rfl : db' = (MethodStake.DoReceive db env sendBlock beneficiary).1 := by
      simp only [DoReceive, Except.ok.injEq] at h
      rw [h]
    exact MethodStake.DoReceive_consistent hc (by simpa [DoSend] using hsend) beneficiary
  | CancelStake beneficiary amount =>
    exact MethodCancelStake.DoReceive_consistent hc h
  | DelegateStake stakeAddress beneficiary bid stakeHeight =>
    obtain rfl : db' = (MethodDelegateStake.DoReceive db env sendBlock stakeAddress beneficiary bid
        stakeHeight).1 := by
      simp only [DoReceive, Except.ok.injEq] at h
      rw [h]
    have hmin : stakeAmountMin ≤ sendBlock.Amount := by
      simp only [DoSend, decide_eq_true_eq] at hsend
      exact hsend.1
    exact MethodDelegateStake.DoReceive_consistent hc hmin stakeAddress beneficiary bid stakeHeight
  | CancelDelegateStake stakeAddress beneficiary amount bid =>
    exact MethodCancelDelegateStake.DoReceive_consistent hc h
  | StakeV3 beneficiary stakeHeight withCallback =>
    obtain rfl : db' = (MethodStakeV3.DoReceive db env sendBlock beneficiary stakeHeight
        withCallback).1 := by
      simp only [DoReceive, Except.ok.injEq] at h
      rw [h]
    have hmin : stakeAmountMin ≤ sendBlock.Amount := by
      simp only [DoSend, decide_eq_true_eq] at hsend
      exact hsend.1
    exact MethodStakeV3.DoReceive_consistent hc hmin beneficiary stakeHeight withCallback
  | CancelStakeV3 id withCallback =>
    exact MethodCancelStakeV3.DoReceive_consistent hc h

/-- The bookkeeping holds after every run of receives from a storage where it holds. -/
theorem runReceives_consistent (hc : Consistent db) (sends : List (Env × SendBlock × QuotaCall)) :
    Consistent (runReceives db sends) := by
  induction sends generalizing db with
  | nil => exact hc
  | cons send rest ih =>
    obtain ⟨env, sendBlock, call⟩ := send
    unfold runReceives
    split_ifs with hsend
    · split
      · next db' refunds h => exact ih (DoReceive_consistent hc hsend h)
      · exact ih hc
    · exact ih hc

/-- What the cancels' common part pays: `amount`, at most what the record it found held, to the
sender, who is the record's staker or delegate as the caller checked. -/
theorem cancelRecord_refund {key : StakeInfoKey} {old : Option StakeInfo} {beneficiary : Address}
    {amount : ℤ} {rewrite : StakeInfo → ℤ → StakeRecord} {callback : Bool}
    (hkey : (find? key db.stakeInfos).map UnpackStakeInfo = old)
    (hto : ∀ info ∈ old, sendBlock.AccountAddress = key.1 ∨
      info.IsDelegated = true ∧ sendBlock.AccountAddress = info.DelegateAddress)
    (h : cancelRecord db env sendBlock key old beneficiary amount rewrite callback =
      .ok (db', refunds)) :
    ∀ refund ∈ refunds, ∃ r, find? key db.stakeInfos = some r ∧
      refund.Amount ≤ (UnpackStakeInfo r).Amount ∧ (refund.ToAddress = key.1 ∨
        (UnpackStakeInfo r).IsDelegated = true ∧
          refund.ToAddress = (UnpackStakeInfo r).DelegateAddress) := by
  obtain ⟨info, db₁, rfl, -, hle, -, -, -, -, rfl⟩ := cancelRecord_ok h
  obtain ⟨r₀, hr₀, rfl⟩ := Option.map_eq_some_iff.mp hkey
  intro refund hrefund
  rw [List.mem_singleton] at hrefund
  subst hrefund
  exact ⟨r₀, hr₀, hle, hto _ rfl⟩

/-- What a receive pays out: nothing, or for a cancel at most what the record it found held, to
the record's staker or, for a delegated record, to its delegate. -/
theorem DoReceive_refunds (hc : Consistent db) {call : QuotaCall}
    (h : DoReceive db env sendBlock call = .ok (db', refunds)) :
    ∀ refund ∈ refunds, refund.Amount = 0 ∨ ∃ key r, find? key db.stakeInfos = some r ∧
      refund.Amount ≤ (UnpackStakeInfo r).Amount ∧ (refund.ToAddress = key.1 ∨
        (UnpackStakeInfo r).IsDelegated = true ∧
          refund.ToAddress = (UnpackStakeInfo r).DelegateAddress) := by
  cases call with
  | Stake beneficiary =>
    rcases hp : getStakeInfo db sendBlock.AccountAddress beneficiary false ZERO_ADDRESS 0 env.height
      with ⟨key, old⟩
    simp [DoReceive, MethodStake.DoReceive, hp] at h
    simp [h.2]
  | CancelStake beneficiary amount =>
    simp only [DoReceive] at h
    unfold MethodCancelStake.DoReceive at h
    rcases hp : getStakeInfo db sendBlock.AccountAddress beneficiary false ZERO_ADDRESS 0 env.height
      with ⟨key, old⟩
    rw [hp] at h
    obtain ⟨hs, hkey, -⟩ := getStakeInfo_spec hc.nodup hp
    intro refund hrefund
    exact .inr ⟨key, cancelRecord_refund hkey (fun _ _ => .inl hs.symm) h refund hrefund⟩
  | DelegateStake stakeAddress beneficiary bid stakeHeight =>
    rcases hp :
        getStakeInfo db stakeAddress beneficiary true sendBlock.AccountAddress bid env.height with
      ⟨key, old⟩
    simp [DoReceive, MethodDelegateStake.DoReceive, hp] at h
    simp [← h.2]
  | CancelDelegateStake stakeAddress beneficiary amount bid =>
    simp only [DoReceive] at h
    unfold MethodCancelDelegateStake.DoReceive at h
    rcases hp :
        getStakeInfo db stakeAddress beneficiary true sendBlock.AccountAddress bid env.height with
      ⟨key, old⟩
    rw [hp] at h
    obtain ⟨-, hkey, hmatch⟩ := getStakeInfo_spec hc.nodup hp
    have hto : ∀ info ∈ old, sendBlock.AccountAddress = key.1 ∨
        info.IsDelegated = true ∧ sendBlock.AccountAddress = info.DelegateAddress :=
      fun info hi => .inr ⟨(hmatch info hi).2.1, (hmatch info hi).2.2.1.symm⟩
    intro refund hrefund
    exact .inr ⟨key, cancelRecord_refund hkey hto h refund hrefund⟩
  | StakeV3 beneficiary stakeHeight withCallback =>
    simp only [DoReceive, MethodStakeV3.DoReceive, Except.ok.injEq, Prod.mk.injEq] at h
    rw [← h.2]
    cases withCallback <;> simp
  | CancelStakeV3 id withCallback =>
    obtain ⟨key, r, -, -, hr, hs, -, -, -, rfl⟩ := MethodCancelStakeV3.DoReceive_ok h
    intro refund hrefund
    rw [List.mem_singleton] at hrefund
    subst hrefund
    exact .inr ⟨key, r, hr, le_refl _, .inl hs.symm⟩

/-- A `StakeV3` from empty storage, cancelled by its id: the refund is the whole record's amount,
to its staker. -/
theorem DoReceive_refunds_cancelStakeV3 :
    Consistent (runReceives .empty
        [(⟨0, 1, 0⟩, ⟨[2], stakeAmountMin, [1]⟩, .StakeV3 [3] 0 false)]) ∧
      DoReceive (runReceives .empty [(⟨0, 1, 0⟩, ⟨[2], stakeAmountMin, [1]⟩, .StakeV3 [3] 0 false)])
          ⟨5, 2, 0⟩ ⟨[2], 0, [4]⟩ (.CancelStakeV3 [1] false) =
          .ok (⟨[], [], []⟩, [⟨[2], stakeAmountMin, false⟩]) ∧
        ∀ refund ∈ [(⟨[2], stakeAmountMin, false⟩ : Refund)], refund.Amount = 0 ∨ ∃ key r,
          find? key (runReceives .empty
            [(⟨0, 1, 0⟩, ⟨[2], stakeAmountMin, [1]⟩, .StakeV3 [3] 0 false)]).stakeInfos = some r ∧
          refund.Amount ≤ (UnpackStakeInfo r).Amount ∧ (refund.ToAddress = key.1 ∨
            (UnpackStakeInfo r).IsDelegated = true ∧
              refund.ToAddress = (UnpackStakeInfo r).DelegateAddress) := by
  -- the stake's receive, computed: `recordsOf` sorts with `mergeSort`, which `decide` does not run
  have hrun : runReceives .empty [(⟨0, 1, 0⟩, ⟨[2], stakeAmountMin, [1]⟩, .StakeV3 [3] 0 false)] =
      ⟨[(([2], 1), .V2 stakeAmountMin 0 [3] [1])], [([3], stakeAmountMin)], [([1], ([2], 1))]⟩ := by
    simp [runReceives, DoSend, DoReceive, MethodStakeV3.DoReceive, QuotaDb.empty,
      getNextStakeInfoKey, recordsOf, nextKey, setStakeInfo, addBeneficial, beneficialAmount,
      AssocList.insert, AssocList.modify, AssocList.find?, getStakeExpirationHeight]
  have hc := runReceives_consistent Consistent.empty
    [(⟨0, 1, 0⟩, ⟨[2], stakeAmountMin, [1]⟩, .StakeV3 [3] 0 false)]
  have h : DoReceive (runReceives .empty
      [(⟨0, 1, 0⟩, ⟨[2], stakeAmountMin, [1]⟩, .StakeV3 [3] 0 false)]) ⟨5, 2, 0⟩ ⟨[2], 0, [4]⟩
      (.CancelStakeV3 [1] false) = .ok (⟨[], [], []⟩, [⟨[2], stakeAmountMin, false⟩]) := by
    rw [hrun]
    decide
  exact ⟨hc, h, DoReceive_refunds hc h⟩

end Steps

/-- From empty storage, after the receives of any sequence of sends: every beneficiary's stored
amount is the sum of the amounts of the records staked for it, and every record holds at least
`stakeAmountMin`. -/
theorem stake_bookkeeping (sends : List (Env × SendBlock × QuotaCall)) :
    (∀ b, beneficialAmount (runReceives .empty sends) b = stakedFor (runReceives .empty sends) b) ∧
      ∀ e ∈ (runReceives .empty sends).stakeInfos, stakeAmountMin ≤ (UnpackStakeInfo e.2).Amount :=
  have hc := runReceives_consistent Consistent.empty sends
  ⟨hc.beneficial_eq, hc.amount_ge⟩

/-! ## The id index

The bookkeeping above holds, but the id index does not stay in step with the records. -/

/-- A `StakeV3` and then a plain `Stake` of the same staker for the same beneficiary, both
accepted, from empty storage: the id still leads to the record, which the `Stake` has rewritten
in the first layout, without the id and holding both amounts. -/
theorem stake_rewrites_id_record (staker beneficiary : Address) (id hash : Hash)
    (amount₁ amount₂ : ℤ) (env₁ env₂ : Env) (h₁ : stakeAmountMin ≤ amount₁)
    (h₂ : stakeAmountMin ≤ amount₂) :
    ∃ key, AssocList.find? id (runReceives .empty
        [(env₁, ⟨staker, amount₁, id⟩, .StakeV3 beneficiary 0 false),
          (env₂, ⟨staker, amount₂, hash⟩, .Stake beneficiary)]).ids = some key ∧
      (AssocList.find? key (runReceives .empty
        [(env₁, ⟨staker, amount₁, id⟩, .StakeV3 beneficiary 0 false),
          (env₂, ⟨staker, amount₂, hash⟩, .Stake beneficiary)]).stakeInfos).map UnpackStakeInfo =
        some ⟨amount₁ + amount₂, env₂.snapshotHeight + env₂.StakeHeight, beneficiary, false,
          ZERO_ADDRESS, 0, none⟩ := by
  let key := nextKey staker 0 env₁.height
  let record := StakeRecord.V2 amount₁ (env₁.snapshotHeight + env₁.StakeHeight) beneficiary id
  -- the `StakeV3` receive writes its id record at the staker's first key
  have hV3 : MethodStakeV3.DoReceive .empty env₁ ⟨staker, amount₁, id⟩ beneficiary 0 false =
      (⟨[(key, record)], [(beneficiary, amount₁)], [(id, key)]⟩, []) := by
    simp [MethodStakeV3.DoReceive, QuotaDb.empty, getNextStakeInfoKey, recordsOf, setStakeInfo,
      addBeneficial, beneficialAmount, AssocList.insert, AssocList.modify, AssocList.find?,
      getStakeExpirationHeight, key, record]
  have hkey₁ : key.1 = staker := (lt_nextKey staker 0 env₁.height).1
  have hkey : (staker, key.2) = key := Prod.ext hkey₁.symm rfl
  -- the `Stake` receive matches that record, which decodes as an undelegated one
  have hfound : getStakeInfo ⟨[(key, record)], [(beneficiary, amount₁)], [(id, key)]⟩ staker
      beneficiary false ZERO_ADDRESS 0 env₂.height = (key, some (UnpackStakeInfo record)) := by
    simp only [getStakeInfo, recordsOf, List.filterMap_cons, hkey₁, List.filterMap_nil, ite_true,
      List.mergeSort_singleton]
    unfold findStakeInfo
    simp [UnpackStakeInfo, record, hkey]
  -- so it adds into that record, rewritten in the first layout, and leaves the id in place
  have hStake : MethodStake.DoReceive ⟨[(key, record)], [(beneficiary, amount₁)], [(id, key)]⟩ env₂
      ⟨staker, amount₂, hash⟩ beneficiary =
      (⟨[(key, .V1 (amount₁ + amount₂) (env₂.snapshotHeight + env₂.StakeHeight) beneficiary false
        ZERO_ADDRESS 0)], [(beneficiary, amount₁ + amount₂)], [(id, key)]⟩, []) := by
    simp [MethodStake.DoReceive, hfound, UnpackStakeInfo, record, setStakeInfo, addBeneficial,
      beneficialAmount, AssocList.insert, AssocList.modify, AssocList.find?,
      getStakeExpirationHeight]
  have hrun : runReceives .empty [(env₁, ⟨staker, amount₁, id⟩, .StakeV3 beneficiary 0 false),
      (env₂, ⟨staker, amount₂, hash⟩, .Stake beneficiary)] =
      ⟨[(key, .V1 (amount₁ + amount₂) (env₂.snapshotHeight + env₂.StakeHeight) beneficiary false
        ZERO_ADDRESS 0)], [(beneficiary, amount₁ + amount₂)], [(id, key)]⟩ := by
    simp [runReceives, DoSend, DoReceive, hV3, hStake, h₁, h₂]
  rw [hrun]
  exact ⟨key, by simp [AssocList.find?], by simp [AssocList.find?, UnpackStakeInfo]⟩

theorem stake_rewrites_id_record_at_min :
    stakeAmountMin ≤ stakeAmountMin ∧ ∃ key, AssocList.find? (List.replicate 32 1) (runReceives .empty
        [(⟨0, 1, 3600⟩, ⟨List.replicate 21 2, stakeAmountMin, List.replicate 32 1⟩,
            .StakeV3 (List.replicate 21 3) 0 false),
          (⟨5, 2, 3600⟩, ⟨List.replicate 21 2, stakeAmountMin, List.replicate 32 4⟩,
            .Stake (List.replicate 21 3))]).ids = some key ∧
      (AssocList.find? key (runReceives .empty
        [(⟨0, 1, 3600⟩, ⟨List.replicate 21 2, stakeAmountMin, List.replicate 32 1⟩,
            .StakeV3 (List.replicate 21 3) 0 false),
          (⟨5, 2, 3600⟩, ⟨List.replicate 21 2, stakeAmountMin, List.replicate 32 4⟩,
            .Stake (List.replicate 21 3))]).stakeInfos).map UnpackStakeInfo =
        some ⟨stakeAmountMin + stakeAmountMin, 5 + 3600, List.replicate 21 3, false, ZERO_ADDRESS,
          0, none⟩ :=
  ⟨le_rfl, stake_rewrites_id_record (List.replicate 21 2) (List.replicate 21 3)
    (List.replicate 32 1) (List.replicate 32 4) stakeAmountMin stakeAmountMin ⟨0, 1, 3600⟩
    ⟨5, 2, 3600⟩ le_rfl le_rfl⟩

end Vite.Contracts.Quota
