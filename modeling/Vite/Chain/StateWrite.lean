import Vite.Lib.AssocList
import Vite.Lib.ExceptRun
import Vite.Vm.Abi

/-!
# Writing a block's state, and writing it again from the redo log

`StateDB.Write` (ledger/chain/state/write.go) turns the VM result of an account block into one
write batch on the latest state: storage values, balances, code, contract metas with their
gid-to-contract index keys, the vm log list and the call depths of the sends of a receive. It
records the same data in a `LogItem`, and `StateDB.WriteByRedo` replays that item into a batch
of its own when the state is rebuilt.

The two batches are built by separate code. `WriteByRedo` lays out the index key of a contract
as prefix, address, gid, where `Write` and `GetContractList` use prefix, gid, address; and it
writes the code only when it is not empty, where `Write` writes any code the VM left. A store
is an association list of keys to values; Go's map iterations are the lists' orders, which no
result depends on since their keys are distinct.
-/

namespace Vite.ChainState

open AssocList

abbrev Bytes := List UInt8

/-- `types.AddressSize`. -/
def AddressSize : ℕ := 21

/-- `types.GidSize`. -/
def GidSize : ℕ := 10

/-- `types.HashSize`. -/
def HashSize : ℕ := 32

/-! ## Keys (`generate_key.go`) -/

def StorageKeyPrefix : UInt8 := 1
def BalanceKeyPrefix : UInt8 := 3
def CodeKeyPrefix : UInt8 := 5
def ContractMetaKeyPrefix : UInt8 := 7
def GidContractKeyPrefix : UInt8 := 9
def VmLogListKeyPrefix : UInt8 := 10
def CallDepthKeyPrefix : UInt8 := 11

/-- `CreateStorageValueKey`: the address, the storage key right-padded to a hash, and its
length; `none` where Go panics on a key longer than a hash. -/
def CreateStorageValueKey (address storageKey : Bytes) : Option Bytes :=
  if storageKey.length > HashSize then none
  else some (StorageKeyPrefix :: address ++ Abi.RightPadBytes storageKey HashSize ++
    [storageKey.length.toUInt8])

def CreateBalanceKey (address tokenTypeId : Bytes) : Bytes := BalanceKeyPrefix :: address ++ tokenTypeId

def CreateCodeKey (address : Bytes) : Bytes := CodeKeyPrefix :: address

def CreateContractMetaKey (address : Bytes) : Bytes := ContractMetaKeyPrefix :: address

/-- `CreateGidContractKey`: the gid, then the address. -/
def CreateGidContractKey (gid address : Bytes) : Bytes := GidContractKeyPrefix :: gid ++ address

def CreateGidContractPrefixKey (gid : Bytes) : Bytes := GidContractKeyPrefix :: gid

def CreateVmLogListKey (logHash : Bytes) : Bytes := VmLogListKeyPrefix :: logHash

def CreateCallDepthKey (blockHash : Bytes) : Bytes := CallDepthKeyPrefix :: blockHash

/-- `binary.BigEndian.PutUint16`. -/
def PutUint16 (v : UInt16) : Bytes := [(v >>> 8).toUInt8, v.toUInt8]

/-! ## Data -/

/-- `ContractMeta`. -/
structure ContractMeta where
  Gid : Bytes
  SendConfirmedTimes : UInt8
  CreateBlockHash : Bytes
  QuotaRatio : UInt8
  SeedConfirmedTimes : UInt8
  deriving DecidableEq, Repr

/-- `ContractMeta.Serialize`. -/
def ContractMeta.Serialize (cm : ContractMeta) : Bytes :=
  cm.Gid ++ [cm.SendConfirmedTimes] ++ cm.CreateBlockHash ++ [cm.QuotaRatio, cm.SeedConfirmedTimes]

/-- The fields of the account block the writers read. -/
structure AccountBlock where
  Hash : Bytes
  AccountAddress : Bytes
  Height : ℕ
  LogHash : Option Bytes
  IsReceiveBlock : Bool
  FromBlockHash : Bytes
  /-- The hashes of `SendBlockList`. -/
  SendBlockList : List Bytes
  deriving DecidableEq, Repr

/-- What the block's `vmDb` holds when it is written. A balance is the bytes of its `big.Int`,
the code `none` where `GetUnsavedContractCode` is `nil`, the log list its serialization, and
`callDepth` what `GetCallDepth(FromBlockHash)` returns. -/
structure VmResult where
  unsavedStorage : List (Bytes × Bytes)
  unsavedBalanceMap : List (Bytes × Bytes)
  unsavedCode : Option Bytes
  unsavedContractMeta : List (Bytes × ContractMeta)
  logList : Bytes
  callDepth : UInt16
  deriving DecidableEq, Repr

/-- `LogItem`, the redo log of one block. A `nil` byte slice is `[]`. -/
structure LogItem where
  Storage : List (Bytes × Bytes)
  BalanceMap : List (Bytes × Bytes)
  Code : Bytes
  ContractMeta : List (Bytes × Bytes)
  VmLogList : List (Bytes × Bytes)
  CallDepth : List (Bytes × UInt16)
  Height : ℕ
  deriving DecidableEq, Repr

/-! ## Batches -/

/-- One write of a batch. -/
inductive BatchOp where
  | put (key value : Bytes)
  | delete (key : Bytes)
  deriving DecidableEq, Repr

/-- The latest state: values by key. -/
abbrev Store := List (Bytes × Bytes)

def BatchOp.apply (s : Store) : BatchOp → Store
  | .put key value => insert key value s
  | .delete key => erase key s

/-- Writing a batch applies its writes in order. -/
def applyBatch (s : Store) (batch : List BatchOp) : Store := batch.foldl BatchOp.apply s

/-- The storage loop both writers share: an empty value deletes its key. -/
def writeStorage (address : Bytes) (storage : List (Bytes × Bytes)) : Option (List BatchOp) :=
  storage.mapM fun kv => do
    let key ← CreateStorageValueKey address kv.1
    pure (if kv.2.length = 0 then .delete key else .put key kv.2)

/-! ## The two writers -/

/-- `StateDB.Write`: the batch of a block, and its redo log. `canWriteVmLog` is
`sDB.canWriteVmLog(AccountAddress)`. -/
def Write (block : AccountBlock) (vm : VmResult) (canWriteVmLog : Bool) :
    Option (List BatchOp × LogItem) := do
  let storageOps ← writeStorage block.AccountAddress vm.unsavedStorage
  let balanceOps := vm.unsavedBalanceMap.map fun e =>
    BatchOp.put (CreateBalanceKey block.AccountAddress e.1) e.2
  let codeOps := match vm.unsavedCode with
    | some code => [BatchOp.put (CreateCodeKey block.AccountAddress) code]
    | none => []
  -- the meta is stored with the block's hash as its create block hash
  let metas := vm.unsavedContractMeta.map fun e => (e.1, { e.2 with CreateBlockHash := block.Hash })
  let metaOps := metas.flatMap fun e =>
    [BatchOp.put (CreateContractMetaKey e.1) e.2.Serialize, .put (CreateGidContractKey e.2.Gid e.1) []]
  let vmLog := match block.LogHash with
    | some logHash => if canWriteVmLog then [(logHash, vm.logList)] else []
    | none => []
  let callDepth := vm.callDepth + 1
  let callDepths := if block.IsReceiveBlock ∧ block.SendBlockList ≠ [] then
      block.SendBlockList.map fun sendHash => (sendHash, callDepth)
    else []
  let logOps := vmLog.map fun e => BatchOp.put (CreateVmLogListKey e.1) e.2
  let callDepthOps := callDepths.map fun e => BatchOp.put (CreateCallDepthKey e.1) (PutUint16 e.2)
  let redoLog : LogItem :=
    { Storage := vm.unsavedStorage, BalanceMap := vm.unsavedBalanceMap
      Code := vm.unsavedCode.getD [], ContractMeta := metas.map fun e => (e.1, e.2.Serialize)
      VmLogList := vmLog, CallDepth := callDepths, Height := block.Height }
  pure (storageOps ++ balanceOps ++ codeOps ++ metaOps ++ logOps ++ callDepthOps, redoLog)

/-- `StateDB.WriteByRedo`: the batch rebuilt from a redo log. The index key of a contract is the
prefix, the address and the first `GidSize` bytes of the meta. -/
def WriteByRedo (addr : Bytes) (redoLog : LogItem) : Option (List BatchOp) := do
  let storageOps ← writeStorage addr redoLog.Storage
  let balanceOps := redoLog.BalanceMap.map fun e => BatchOp.put (CreateBalanceKey addr e.1) e.2
  let codeOps := if redoLog.Code.length > 0 then [BatchOp.put (CreateCodeKey addr) redoLog.Code]
    else []
  let metaOps := redoLog.ContractMeta.flatMap fun e =>
    [BatchOp.put (CreateContractMetaKey e.1) e.2,
      .put (GidContractKeyPrefix :: e.1 ++ e.2.take GidSize) []]
  let logOps := redoLog.VmLogList.map fun e => BatchOp.put (CreateVmLogListKey e.1) e.2
  let callDepthOps := redoLog.CallDepth.map fun e =>
    BatchOp.put (CreateCallDepthKey e.1) (PutUint16 e.2)
  pure (storageOps ++ balanceOps ++ codeOps ++ metaOps ++ logOps ++ callDepthOps)

/-- `StateDB.GetContractList`: the addresses at the end of the index keys under the gid, in key
order. -/
def GetContractList (s : Store) (gid : Bytes) : List Bytes :=
  ((s.filter fun e => (CreateGidContractPrefixKey gid).isPrefixOf e.1).mergeSort
    fun a b => compare a.1 b.1 != .gt).map fun e => e.1.drop (e.1.length - AddressSize)

/-! ## Frame lemmas -/

/-- The key a write goes to. -/
def BatchOp.key : BatchOp → Bytes
  | .put key _ => key
  | .delete key => key

@[simp] theorem applyBatch_cons (s : Store) (op : BatchOp) (batch : List BatchOp) :
    applyBatch s (op :: batch) = applyBatch (op.apply s) batch := rfl

/-- A write to another key leaves the value at `k`. -/
theorem find?_apply_of_ne {op : BatchOp} {k : Bytes} (h : op.key ≠ k) (s : Store) :
    find? k (op.apply s) = find? k s := by
  cases op with
  | put key value => exact find?_insert_ne (Ne.symm h) value s
  | delete key => exact find?_erase_ne (Ne.symm h) s

/-- A batch none of whose writes goes to `k` leaves the value at `k`. -/
theorem find?_applyBatch_of_forall_ne {k : Bytes} {batch : List BatchOp}
    (h : ∀ op ∈ batch, op.key ≠ k) (s : Store) : find? k (applyBatch s batch) = find? k s := by
  induction batch generalizing s with
  | nil => rfl
  | cons op rest ih =>
    rw [applyBatch_cons, ih (fun o ho => h o (List.mem_cons_of_mem _ ho))]
    exact find?_apply_of_ne (h op List.mem_cons_self) s

/-- A batch whose every write to `k` puts `v` there, and that has one, leaves `v` at `k`. -/
theorem find?_applyBatch_of_put {k v : Bytes} {batch : List BatchOp}
    (hmem : BatchOp.put k v ∈ batch) (h : ∀ op ∈ batch, op.key = k → op = .put k v)
    (s : Store) : find? k (applyBatch s batch) = some v := by
  induction batch generalizing s with
  | nil => simp at hmem
  | cons op rest ih =>
    have hrest : ∀ o ∈ rest, o.key = k → o = .put k v := fun o ho => h o (List.mem_cons_of_mem _ ho)
    rw [applyBatch_cons]
    by_cases hin : BatchOp.put k v ∈ rest
    · exact ih hin hrest _
    -- the last write to `k` is `op` itself
    · have hop : op = .put k v := by
        rcases List.mem_cons.mp hmem with rfl | h'
        · rfl
        · exact absurd h' hin
      have hne : ∀ o ∈ rest, o.key ≠ k := fun o ho hk => hin (hrest o ho hk ▸ ho)
      rw [find?_applyBatch_of_forall_ne hne, hop]
      exact find?_insert_self k v s

/-- A batch that writes no key a filter keeps leaves the kept entries as they were. -/
theorem filter_applyBatch {q : Bytes → Bool} {batch : List BatchOp}
    (h : ∀ op ∈ batch, q op.key = false) (s : Store) :
    (applyBatch s batch).filter (fun e => q e.1) = s.filter (fun e => q e.1) := by
  induction batch generalizing s with
  | nil => rfl
  | cons op rest ih =>
    rw [applyBatch_cons, ih (fun o ho => h o (List.mem_cons_of_mem _ ho))]
    have hop := h op List.mem_cons_self
    cases op with
    | put key value => exact filter_modify_of_not hop _ _ s
    | delete key => exact filter_erase_of_not hop s

/-! ## Index keys -/

/-- Every storage write goes under the storage prefix. -/
theorem writeStorage_key_head {address : Bytes} {storage : List (Bytes × Bytes)}
    {ops : List BatchOp} (h : writeStorage address storage = some ops) :
    ∀ op ∈ ops, op.key.head? = some StorageKeyPrefix := by
  intro op hop
  obtain ⟨kv, -, hkv⟩ := List.exists_of_mem_mapM_eq_some h op hop
  simp only [Option.bind_eq_bind, Option.bind_eq_some_iff, pure, Option.some.injEq] at hkv
  obtain ⟨key, hkey, rfl⟩ := hkv
  unfold CreateStorageValueKey at hkey
  split at hkey
  · simp at hkey
  · cases hkey
    split <;> rfl

/-- A key is off the index of `gid` when the index prefix of `gid` does not start it. -/
def OffIndex (gid key : Bytes) : Prop := (CreateGidContractPrefixKey gid).isPrefixOf key = false

theorem offIndex_of_head {gid key : Bytes} (h : key.head? ≠ some GidContractKeyPrefix) :
    OffIndex gid key := by
  cases key with
  | nil => rfl
  | cons b rest =>
    have hb : b ≠ GidContractKeyPrefix := fun hb => h (by simp [hb])
    simp [OffIndex, CreateGidContractPrefixKey, List.isPrefixOf, Ne.symm hb]

/-- The index key `WriteByRedo` writes, prefix then address then gid, is off the gid's index
unless the address starts with the gid. -/
theorem offIndex_redo_key {gid address : Bytes} (hlen : GidSize ≤ address.length)
    (hgid : gid.length = GidSize) (h : address.take GidSize ≠ gid) :
    OffIndex gid (GidContractKeyPrefix :: address ++ gid) := by
  unfold OffIndex CreateGidContractPrefixKey
  rw [Bool.eq_false_iff]
  intro hp
  have hpre : gid <+: address ++ gid := by
    simpa using List.isPrefixOf_iff_prefix.mp hp
  apply h
  rw [List.prefix_iff_eq_take, hgid, List.take_append_of_le_length hlen] at hpre
  exact hpre.symm

theorem ne_of_offIndex {gid address key : Bytes} (h : OffIndex gid key) :
    key ≠ CreateGidContractKey gid address := by
  rintro rfl
  have hp : gid.isPrefixOf (gid ++ address) = true :=
    List.isPrefixOf_iff_prefix.mpr (List.prefix_append _ _)
  simp [OffIndex, CreateGidContractPrefixKey, CreateGidContractKey, hp] at h

/-- An index entry lists its address under its gid. -/
theorem mem_GetContractList {s : Store} {gid address v : Bytes} (haddr : address.length = AddressSize)
    (h : find? (CreateGidContractKey gid address) s = some v) : address ∈ GetContractList s gid := by
  have hmem := mem_of_find? h
  unfold GetContractList
  refine List.mem_map.mpr ⟨(CreateGidContractKey gid address, v), ?_, ?_⟩
  · rw [List.mem_mergeSort, List.mem_filter]
    refine ⟨hmem, List.isPrefixOf_iff_prefix.mpr ?_⟩
    exact ⟨address, by simp [CreateGidContractKey, CreateGidContractPrefixKey]⟩
  · have hlen : (CreateGidContractKey gid address).length - AddressSize = gid.length + 1 := by
      simp only [CreateGidContractKey, List.cons_append, List.length_cons, List.length_append, haddr]
      omega
    rw [hlen]
    simp [CreateGidContractKey]

/-- A batch that writes nothing under the index prefix of `gid` leaves the contract list of `gid`
as it was. -/
theorem GetContractList_applyBatch {gid : Bytes} {batch : List BatchOp}
    (h : ∀ op ∈ batch, OffIndex gid op.key) (s : Store) :
    GetContractList (applyBatch s batch) gid = GetContractList s gid := by
  unfold GetContractList
  rw [filter_applyBatch h s]

/-! ## What each writer writes -/

/-- The redo log `Write` records holds the VM's storage and the metas as it wrote them. -/
theorem Write_redoLog {block : AccountBlock} {vm : VmResult} {canWriteVmLog : Bool}
    {batch : List BatchOp} {redoLog : LogItem}
    (hw : Write block vm canWriteVmLog = some (batch, redoLog)) :
    redoLog.Storage = vm.unsavedStorage ∧
      redoLog.ContractMeta = vm.unsavedContractMeta.map fun e =>
        (e.1, { e.2 with CreateBlockHash := block.Hash }.Serialize) := by
  simp only [Write, Option.bind_eq_bind, Option.bind_eq_some_iff, pure, Option.some.injEq,
    Prod.mk.injEq] at hw
  obtain ⟨storageOps, -, -, rfl⟩ := hw
  simp

/-- Each write of `Write` goes under a prefix other than the index's, or is the index entry of one
of the block's contract metas. -/
theorem Write_ops {block : AccountBlock} {vm : VmResult} {canWriteVmLog : Bool}
    {batch : List BatchOp} {redoLog : LogItem}
    (hw : Write block vm canWriteVmLog = some (batch, redoLog)) :
    ∀ op ∈ batch, op.key.head? ≠ some GidContractKeyPrefix ∨
      ∃ e ∈ vm.unsavedContractMeta, op = .put (CreateGidContractKey e.2.Gid e.1) [] := by
  simp only [Write, Option.bind_eq_bind, Option.bind_eq_some_iff, pure, Option.some.injEq,
    Prod.mk.injEq] at hw
  obtain ⟨storageOps, hs, rfl, -⟩ := hw
  intro op hop
  simp only [List.mem_append, List.mem_map, List.mem_flatMap] at hop
  rcases hop with ((((hst | ⟨e, -, rfl⟩) | hcode) | ⟨e, he, hop⟩) | ⟨e, -, rfl⟩) | ⟨e, -, rfl⟩
  · left; rw [writeStorage_key_head hs op hst]; decide
  · left; simp [BatchOp.key, CreateBalanceKey, BalanceKeyPrefix, GidContractKeyPrefix]
  · left
    split at hcode
    · simp only [List.mem_singleton] at hcode
      subst hcode
      simp [BatchOp.key, CreateCodeKey, CodeKeyPrefix, GidContractKeyPrefix]
    · simp at hcode
  · obtain ⟨e', he', rfl⟩ := he
    simp only [List.mem_cons, List.not_mem_nil, or_false] at hop
    rcases hop with rfl | rfl
    · left; simp [BatchOp.key, CreateContractMetaKey, ContractMetaKeyPrefix, GidContractKeyPrefix]
    · exact .inr ⟨e', he', rfl⟩
  · left; simp [BatchOp.key, CreateVmLogListKey, VmLogListKeyPrefix, GidContractKeyPrefix]
  · left; simp [BatchOp.key, CreateCallDepthKey, CallDepthKeyPrefix, GidContractKeyPrefix]


/-- Each write of a replay goes under a prefix other than the index's, or is the index entry it
builds for one of the log's metas: prefix, address, then the first `GidSize` bytes of the meta. -/
theorem WriteByRedo_ops {addr : Bytes} {redoLog : LogItem} {redoBatch : List BatchOp}
    (hr : WriteByRedo addr redoLog = some redoBatch) :
    ∀ op ∈ redoBatch, op.key.head? ≠ some GidContractKeyPrefix ∨
      ∃ e ∈ redoLog.ContractMeta, op = .put (GidContractKeyPrefix :: e.1 ++ e.2.take GidSize) [] := by
  simp only [WriteByRedo, Option.bind_eq_bind, Option.bind_eq_some_iff, pure,
    Option.some.injEq] at hr
  obtain ⟨storageOps, hs, rfl⟩ := hr
  intro op hop
  simp only [List.mem_append, List.mem_map, List.mem_flatMap] at hop
  rcases hop with ((((hst | ⟨e, -, rfl⟩) | hcode) | ⟨e, he, hop⟩) | ⟨e, -, rfl⟩) | ⟨e, -, rfl⟩
  · left; rw [writeStorage_key_head hs op hst]; decide
  · left; simp [BatchOp.key, CreateBalanceKey, BalanceKeyPrefix, GidContractKeyPrefix]
  · left
    split at hcode
    · simp only [List.mem_singleton] at hcode
      subst hcode
      simp [BatchOp.key, CreateCodeKey, CodeKeyPrefix, GidContractKeyPrefix]
    · simp at hcode
  · simp only [List.mem_cons, List.not_mem_nil, or_false] at hop
    rcases hop with rfl | rfl
    · left; simp [BatchOp.key, CreateContractMetaKey, ContractMetaKeyPrefix, GidContractKeyPrefix]
    · exact .inr ⟨e, he, rfl⟩
  · left; simp [BatchOp.key, CreateVmLogListKey, VmLogListKeyPrefix, GidContractKeyPrefix]
  · left; simp [BatchOp.key, CreateCallDepthKey, CallDepthKeyPrefix, GidContractKeyPrefix]

/-- The redo log of a block that was written can be replayed. -/
theorem WriteByRedo_of_Write {block : AccountBlock} {vm : VmResult} {canWriteVmLog : Bool}
    {batch : List BatchOp} {redoLog : LogItem}
    (hw : Write block vm canWriteVmLog = some (batch, redoLog)) :
    ∃ redoBatch, WriteByRedo block.AccountAddress redoLog = some redoBatch := by
  obtain ⟨hst, -⟩ := Write_redoLog hw
  simp only [Write, Option.bind_eq_bind, Option.bind_eq_some_iff] at hw
  obtain ⟨storageOps, hs, -⟩ := hw
  simp [WriteByRedo, hst, hs]

/-- The index entries `Write` makes for the block's contract metas are in its batch. -/
theorem mem_Write_of_meta {block : AccountBlock} {vm : VmResult} {canWriteVmLog : Bool}
    {batch : List BatchOp} {redoLog : LogItem}
    (hw : Write block vm canWriteVmLog = some (batch, redoLog)) {e : Bytes × ContractMeta}
    (he : e ∈ vm.unsavedContractMeta) : BatchOp.put (CreateGidContractKey e.2.Gid e.1) [] ∈ batch := by
  simp only [Write, Option.bind_eq_bind, Option.bind_eq_some_iff, pure, Option.some.injEq,
    Prod.mk.injEq] at hw
  obtain ⟨storageOps, -, rfl, -⟩ := hw
  simp only [List.mem_append, List.mem_flatMap, List.mem_map]
  exact .inl (.inl (.inr ⟨_, ⟨e, he, rfl⟩, by simp⟩))

/-! ## Replaying the redo log of a contract creation -/

/-- A block that creates one contract, whose address does not start with its gid, on a state
without its index entry: `Write` makes the entry prefix, gid, address and so lists the contract
under its gid, but the replay of the redo log `Write` recorded makes prefix, address, gid
instead; the state it leaves has no index entry and the same contract list as before. -/
theorem WriteByRedo_loses_gid_contract_key (s : Store) (block : AccountBlock) (vm : VmResult)
    (canWriteVmLog : Bool) (address : Bytes) (cm : ContractMeta)
    (hmeta : vm.unsavedContractMeta = [(address, cm)]) (hgid : cm.Gid.length = GidSize)
    (haddr : address.length = AddressSize) (hne : address.take GidSize ≠ cm.Gid)
    (hfresh : find? (CreateGidContractKey cm.Gid address) s = none)
    {batch : List BatchOp} {redoLog : LogItem}
    (hw : Write block vm canWriteVmLog = some (batch, redoLog)) :
    ∃ redoBatch, WriteByRedo block.AccountAddress redoLog = some redoBatch ∧
      find? (CreateGidContractKey cm.Gid address) (applyBatch s batch) = some [] ∧
      find? (CreateGidContractKey cm.Gid address) (applyBatch s redoBatch) = none ∧
      address ∈ GetContractList (applyBatch s batch) cm.Gid ∧
      GetContractList (applyBatch s redoBatch) cm.Gid = GetContractList s cm.Gid := by
  obtain ⟨redoBatch, hr⟩ := WriteByRedo_of_Write hw
  have hcm := (Write_redoLog hw).2
  rw [hmeta] at hcm
  -- `Write` puts the index entry, and no other write of its batch goes to that key
  have hput : find? (CreateGidContractKey cm.Gid address) (applyBatch s batch) = some [] := by
    have hmem : (address, cm) ∈ vm.unsavedContractMeta := by simp [hmeta]
    refine find?_applyBatch_of_put (mem_Write_of_meta hw hmem) ?_ s
    intro op hop hkey
    rcases Write_ops hw op hop with hhead | ⟨e, he, rfl⟩
    · exact absurd (by simp [hkey, CreateGidContractKey]) hhead
    · rw [hmeta, List.mem_singleton] at he
      subst he
      rfl
  -- the redo batch writes nothing under the gid's index prefix
  have hoff : ∀ op ∈ redoBatch, OffIndex cm.Gid op.key := by
    intro op hop
    rcases WriteByRedo_ops hr op hop with hhead | ⟨e, he, rfl⟩
    · exact offIndex_of_head hhead
    · rw [hcm, List.map_singleton, List.mem_singleton] at he
      subst he
      have htake : (({ cm with CreateBlockHash := block.Hash } : ContractMeta).Serialize).take GidSize = cm.Gid := by
        simp [ContractMeta.Serialize, ← hgid]
      rw [htake]
      exact offIndex_redo_key (by simp [haddr, AddressSize, GidSize]) hgid hne
  refine ⟨redoBatch, hr, hput, ?_, mem_GetContractList haddr hput, GetContractList_applyBatch hoff s⟩
  rw [find?_applyBatch_of_forall_ne (fun op hop => ne_of_offIndex (hoff op hop)) s, hfresh]

theorem WriteByRedo_loses_gid_contract_key_at_sample :
    Write ⟨[7], List.replicate 21 5, 1, none, false, [], []⟩
        ⟨[], [], none, [(List.replicate 21 2, ⟨List.replicate 10 1, 1, [], 0, 1⟩)], [], 0⟩ false =
      some ([.put (CreateContractMetaKey (List.replicate 21 2))
          (ContractMeta.Serialize ⟨List.replicate 10 1, 1, [7], 0, 1⟩),
        .put (CreateGidContractKey (List.replicate 10 1) (List.replicate 21 2)) []],
        ⟨[], [], [], [(List.replicate 21 2, ContractMeta.Serialize ⟨List.replicate 10 1, 1, [7], 0, 1⟩)],
          [], [], 1⟩) ∧
    (List.replicate 21 2).take GidSize ≠ List.replicate 10 1 ∧
    ∃ redoBatch, WriteByRedo (List.replicate 21 5)
        ⟨[], [], [], [(List.replicate 21 2, ContractMeta.Serialize ⟨List.replicate 10 1, 1, [7], 0, 1⟩)],
          [], [], 1⟩ = some redoBatch ∧
      find? (CreateGidContractKey (List.replicate 10 1) (List.replicate 21 2))
          (applyBatch [] [.put (CreateContractMetaKey (List.replicate 21 2))
              (ContractMeta.Serialize ⟨List.replicate 10 1, 1, [7], 0, 1⟩),
            .put (CreateGidContractKey (List.replicate 10 1) (List.replicate 21 2)) []]) = some [] ∧
      find? (CreateGidContractKey (List.replicate 10 1) (List.replicate 21 2))
          (applyBatch [] redoBatch) = none ∧
      List.replicate 21 2 ∈ GetContractList (applyBatch [] [.put (CreateContractMetaKey
            (List.replicate 21 2)) (ContractMeta.Serialize ⟨List.replicate 10 1, 1, [7], 0, 1⟩),
          .put (CreateGidContractKey (List.replicate 10 1) (List.replicate 21 2)) []])
          (List.replicate 10 1) ∧
      GetContractList (applyBatch [] redoBatch) (List.replicate 10 1) =
        GetContractList [] (List.replicate 10 1) :=
  ⟨rfl, by decide, WriteByRedo_loses_gid_contract_key [] ⟨[7], List.replicate 21 5, 1, none, false, [], []⟩
    ⟨[], [], none, [(List.replicate 21 2, ⟨List.replicate 10 1, 1, [], 0, 1⟩)], [], 0⟩ false
    (List.replicate 21 2) ⟨List.replicate 10 1, 1, [], 0, 1⟩ rfl rfl rfl (by decide) rfl rfl⟩

end Vite.ChainState
