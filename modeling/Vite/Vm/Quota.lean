import Mathlib
import Vite.Lib.ExceptRun

/-!
# SSTORE net metering

`gasSStore` (vm/gas_table.go) prices a storage write from three values of the slot: its value
before the run (`originalValue`), its value now (`currentValue`) and the value written. The first
change of a slot is charged in full; a later write that undoes the change hands quota back (flag
`false`), which `UseQuotaWithFlag` adds to `quotaLeft` without a check.

The model keeps the SSTORE quotas of `QuotaTable`, the fork points that choose a table, and a run
as `runLoop` meters it: every other opcode only charges. The result is that metering never hands
back more than it took for a slot: the net charge of each slot covers `baseCost`, the price of
moving it from its original value to its current one, so that `quotaLeft` never exceeds the quota
the run started with and the unchecked addition never wraps.
-/

namespace Vite.Vm

/-! ## Fork points and quota tables -/

/-- The configured fork points: the activation height of each upgrade version, if any. -/
structure UpgradeBox where
  pointMap : ℕ → Option ℕ

def UpgradeBox.isActive (box : UpgradeBox) (version height : ℕ) : Bool :=
  match box.pointMap version with
  | none => false
  | some point => decide (point ≤ height)

def IsSeedUpgrade (box : UpgradeBox) (sHeight : ℕ) : Bool := box.isActive 1 sHeight

def IsDexUpgrade (box : UpgradeBox) (sHeight : ℕ) : Bool := box.isActive 2 sHeight

def IsStemUpgrade (box : UpgradeBox) (sHeight : ℕ) : Bool := box.isActive 4 sHeight

def IsLeafUpgrade (box : UpgradeBox) (sHeight : ℕ) : Bool := box.isActive 5 sHeight

def IsEarthUpgrade (box : UpgradeBox) (sHeight : ℕ) : Bool := box.isActive 6 sHeight

def IsDexRobotUpgrade (box : UpgradeBox) (sHeight : ℕ) : Bool := box.isActive 8 sHeight

def IsDexStableMarketUpgrade (box : UpgradeBox) (sHeight : ℕ) : Bool := box.isActive 9 sHeight

def IsVersion10Upgrade (box : UpgradeBox) (sHeight : ℕ) : Bool := box.isActive 10 sHeight

def IsVersionXUpgrade (box : UpgradeBox) (sHeight : ℕ) : Bool := box.isActive 11 sHeight

/-- The quotas of a quota table that the modelled gas functions read: SSTORE's, and those of
JUMP, JUMPI and PUSH. -/
structure QuotaTable where
  SstoreResetQuota : UInt64
  SstoreInitQuota : UInt64
  SstoreCleanQuota : UInt64
  SstoreNoopQuota : UInt64
  SstoreMemQuota : UInt64
  JumpQuota : UInt64
  JumpiQuota : UInt64
  PushQuota : UInt64
  deriving DecidableEq, Repr

def initQuotaTable : QuotaTable where
  SstoreResetQuota := 5000
  SstoreInitQuota := 20000
  SstoreCleanQuota := 100
  SstoreNoopQuota := 200
  SstoreMemQuota := 200
  JumpQuota := 8
  JumpiQuota := 10
  PushQuota := 3

def newViteQuotaTable : QuotaTable where
  SstoreResetQuota := 15000
  SstoreInitQuota := 15000
  SstoreCleanQuota := 0
  SstoreNoopQuota := 200
  SstoreMemQuota := 200
  JumpQuota := 4
  JumpiQuota := 4
  PushQuota := 1

-- Each later table starts from the one before and changes only quotas of built-in methods.
def newDexAgentQuotaTable : QuotaTable := newViteQuotaTable

def newEarthQuotaTable : QuotaTable := newDexAgentQuotaTable

def newDexRobotQuotaTable : QuotaTable := newEarthQuotaTable

def newDexStableMarketQuotaTable : QuotaTable := newDexRobotQuotaTable

def newVersion10QuotaTable : QuotaTable := newDexStableMarketQuotaTable

def newVersionXQuotaTable : QuotaTable := newVersion10QuotaTable

def QuotaTableByHeight (box : UpgradeBox) (sbHeight : ℕ) : QuotaTable :=
  if IsVersionXUpgrade box sbHeight then newVersionXQuotaTable
  else if IsVersion10Upgrade box sbHeight then newVersion10QuotaTable
  else if IsDexStableMarketUpgrade box sbHeight then newDexStableMarketQuotaTable
  else if IsDexRobotUpgrade box sbHeight then newDexRobotQuotaTable
  else if IsEarthUpgrade box sbHeight then newEarthQuotaTable
  else if IsStemUpgrade box sbHeight then newDexAgentQuotaTable
  else if IsDexUpgrade box sbHeight then newViteQuotaTable
  else initQuotaTable

/-! ## Metering -/

inductive VmError where
  | ErrOutOfQuota
  | ErrStorageModifyLimitReached
  | ErrInvalidOpCode
  | ErrMemSizeOverflow
  | ErrStackUnderflow
  | ErrStackLimitReached
  | ErrInvalidJumpDestination
  | ErrExecutionReverted
  deriving DecidableEq, Repr

def UseQuota (quotaLeft cost : UInt64) : Except VmError UInt64 :=
  if quotaLeft < cost then .error .ErrOutOfQuota else .ok (quotaLeft - cost)

def UseQuotaWithFlag (quotaLeft cost : UInt64) (flag : Bool) : Except VmError UInt64 :=
  if flag then UseQuota quotaLeft cost else .ok (quotaLeft + cost)

/-- `big.Int.Bytes` of a stack word: big-endian, no leading zero byte, empty for `0`. The fuel
`v` is enough, since each round divides by 256. -/
def bigBytes (v : ℕ) : List UInt8 := go v v []
where
  go : ℕ → ℕ → List UInt8 → List UInt8
    | 0, _, acc => acc
    | fuel + 1, v, acc => if v = 0 then acc else go fuel (v / 256) (UInt8.ofNat (v % 256) :: acc)

def contractModifyStorageMax : ℕ := 100

/-- After the Earth fork a run may modify at most `contractModifyStorageMax` slots. -/
def markStorageModified (storageModified : List ℕ) (loc : ℕ) : Except VmError (List ℕ) :=
  let modified := if loc ∈ storageModified then storageModified else loc :: storageModified
  if contractModifyStorageMax < modified.length then .error .ErrStorageModifyLimitReached
  else .ok modified

/-- The quota of writing `newValue` to a slot holding `currentValue`, whose value before the run
was `originalValue`: the amount, charged (`true`) or handed back (`false`). -/
def sstoreQuota (gt : QuotaTable) (originalValue currentValue : List UInt8) (newValue : ℕ) :
    UInt64 × Bool :=
  if currentValue = bigBytes newValue then (gt.SstoreNoopQuota, true)
  else if originalValue = currentValue then
    if originalValue.length = 0 then (gt.SstoreInitQuota, true)
    else if newValue = 0 then (gt.SstoreCleanQuota, true)
    else (gt.SstoreResetQuota, true)
  -- the slot changed before in this run: a write back to the original value is refunded
  else if originalValue = bigBytes newValue then
    if originalValue.length = 0 then
      (gt.SstoreInitQuota - gt.SstoreMemQuota - gt.SstoreNoopQuota, false)
    else if currentValue.length = 0 then
      (gt.SstoreNoopQuota + gt.SstoreMemQuota - gt.SstoreCleanQuota, true)
    else (gt.SstoreResetQuota - gt.SstoreMemQuota - gt.SstoreNoopQuota, false)
  else if 0 < originalValue.length then
    if currentValue.length = 0 ∧ 0 < newValue then
      (gt.SstoreResetQuota + gt.SstoreMemQuota - gt.SstoreCleanQuota, true)
    else if 0 < currentValue.length ∧ newValue = 0 then
      (gt.SstoreResetQuota - gt.SstoreMemQuota - gt.SstoreCleanQuota, false)
    else (gt.SstoreMemQuota, true)
  else (gt.SstoreMemQuota, true)

def gasSStore (earth : Bool) (gt : QuotaTable) (storageModified : List ℕ)
    (originalValue currentValue : List UInt8) (loc newValue : ℕ) :
    Except VmError (UInt64 × Bool × List ℕ) := do
  let modified ← (if earth then markStorageModified storageModified loc else pure storageModified)
  let (cost, flag) := sstoreQuota gt originalValue currentValue newValue
  pure (cost, flag, modified)

/-- What a contract run holds that SSTORE metering reads or writes: the storage as `GetValue`
sees it (the run's last write to a slot, else the slot's original value), the slots modified so
far and the quota left. -/
structure Contract where
  storage : ℕ → List UInt8
  storageModified : List ℕ
  quotaLeft : UInt64

/-- An opcode as metering sees it: a storage write, or another opcode with the cost its gas
function returned; only `gasSStore` ever returns the flag `false`. -/
inductive Op where
  | SSTORE (loc val : ℕ)
  | other (cost : UInt64)

def Op.loc? : Op → Option ℕ
  | .SSTORE loc _ => some loc
  | .other _ => none

/-- One iteration of `runLoop`: the gas function, `UseQuotaWithFlag`, then the opcode, together
with the `(cost, flag)` that was metered. -/
def step (earth offChain : Bool) (gt : QuotaTable) (original : ℕ → List UInt8) (c : Contract) :
    Op → Except VmError (Contract × UInt64 × Bool)
  | .SSTORE loc val => do
    let (cost, flag, modified) ←
      gasSStore earth gt c.storageModified (original loc) (c.storage loc) loc val
    let quotaLeft ← UseQuotaWithFlag c.quotaLeft cost flag
    -- opSStore writes val.Bytes(); the off-chain sets' opOffchainSStore writes nothing
    let storage := if offChain then c.storage else Function.update c.storage loc (bigBytes val)
    pure ({ storage, storageModified := modified, quotaLeft }, cost, flag)
  | .other cost => do
    let quotaLeft ← UseQuota c.quotaLeft cost
    pure ({ c with quotaLeft }, cost, true)

/-- A run of `ops` and the log of what each of them metered. -/
def exec (earth offChain : Bool) (gt : QuotaTable) (original : ℕ → List UInt8) :
    List Op → Contract → Except VmError (Contract × List (Op × UInt64 × Bool))
  | [], c => pure (c, [])
  | op :: ops, c => do
    let (c', cost, flag) ← step earth offChain gt original c op
    let (c'', log) ← exec earth offChain gt original ops c'
    pure (c'', (op, cost, flag) :: log)

/-- The quota a log moved in direction `flag` for the opcodes `select` picks. -/
def metered (select : Op → Bool) (flag : Bool) (log : List (Op × UInt64 × Bool)) : ℕ :=
  (log.map fun e => if select e.1 ∧ e.2.2 = flag then e.2.1.toNat else 0).sum

/-- The quota charged for writes to slot `loc`. -/
def charged (log : List (Op × UInt64 × Bool)) (loc : ℕ) : ℕ :=
  metered (fun op => op.loc? = some loc) true log

/-- The quota handed back for writes to slot `loc`. -/
def returned (log : List (Op × UInt64 × Bool)) (loc : ℕ) : ℕ :=
  metered (fun op => op.loc? = some loc) false log

/-- The price of moving a slot from its original value to its current one in a single write. -/
def baseCost (gt : QuotaTable) (originalValue currentValue : List UInt8) : ℕ :=
  if originalValue = currentValue then 0
  else if originalValue.length = 0 then gt.SstoreInitQuota.toNat
  else if currentValue.length = 0 then gt.SstoreCleanQuota.toNat
  else gt.SstoreResetQuota.toNat

/-! ## Metering lemmas -/

theorem bigBytes_go_ne_nil {acc : List UInt8} (h : acc ≠ []) (fuel v : ℕ) :
    bigBytes.go fuel v acc ≠ [] := by
  induction fuel generalizing v acc with
  | zero => exact h
  | succ n ih =>
    simp only [bigBytes.go]
    split_ifs
    · exact h
    · exact ih (List.cons_ne_nil _ _) _

@[simp] theorem bigBytes_eq_nil {v : ℕ} : bigBytes v = [] ↔ v = 0 := by
  constructor
  · intro h
    cases v with
    | zero => rfl
    | succ n =>
      simp only [bigBytes, bigBytes.go, Nat.add_one_ne_zero, if_false] at h
      exact absurd h (bigBytes_go_ne_nil (List.cons_ne_nil _ _) _ _)
  · rintro rfl
    rfl

/-- What net metering needs of a table's SSTORE quotas: each refund is at most the charge of the
change it undoes, and no sum the gas function forms overflows. -/
structure QuotaTable.SstoreSound (gt : QuotaTable) : Prop where
  init_ge : gt.SstoreMemQuota.toNat + gt.SstoreNoopQuota.toNat ≤ gt.SstoreInitQuota.toNat
  reset_ge_noop : gt.SstoreMemQuota.toNat + gt.SstoreNoopQuota.toNat ≤ gt.SstoreResetQuota.toNat
  reset_ge_clean : gt.SstoreMemQuota.toNat + gt.SstoreCleanQuota.toNat ≤ gt.SstoreResetQuota.toNat
  clean_le : gt.SstoreCleanQuota.toNat ≤ gt.SstoreNoopQuota.toNat + gt.SstoreMemQuota.toNat
  reset_mem_lt : gt.SstoreResetQuota.toNat + gt.SstoreMemQuota.toNat < 2 ^ 64
  noop_mem_lt : gt.SstoreNoopQuota.toNat + gt.SstoreMemQuota.toNat < 2 ^ 64

theorem initQuotaTable_sstoreSound : initQuotaTable.SstoreSound := by
  constructor <;> decide

theorem newViteQuotaTable_sstoreSound : newViteQuotaTable.SstoreSound := by
  constructor <;> decide

/-- Every fork's table prices SSTORE as the first table or as the table of the Dex fork. -/
theorem QuotaTableByHeight_eq (box : UpgradeBox) (sbHeight : ℕ) :
    QuotaTableByHeight box sbHeight = initQuotaTable ∨
      QuotaTableByHeight box sbHeight = newViteQuotaTable := by
  unfold QuotaTableByHeight
  split_ifs <;> simp [newVersionXQuotaTable, newVersion10QuotaTable, newDexStableMarketQuotaTable,
    newDexRobotQuotaTable, newEarthQuotaTable, newDexAgentQuotaTable]

theorem QuotaTableByHeight_sstoreSound (box : UpgradeBox) (sbHeight : ℕ) :
    (QuotaTableByHeight box sbHeight).SstoreSound := by
  rcases QuotaTableByHeight_eq box sbHeight with h | h <;> rw [h]
  · exact initQuotaTable_sstoreSound
  · exact newViteQuotaTable_sstoreSound

/-! 64-bit subtraction and addition that stay in range. -/

theorem toNat_sub_sub {a b c : UInt64} (h : b.toNat + c.toNat ≤ a.toNat) :
    (a - b - c).toNat = a.toNat - b.toNat - c.toNat := by
  have hab : (a - b).toNat = a.toNat - b.toNat :=
    UInt64.toNat_sub_of_le a b (UInt64.le_iff_toNat_le.mpr (by omega))
  have hc : c ≤ a - b := UInt64.le_iff_toNat_le.mpr (by omega)
  rw [UInt64.toNat_sub_of_le _ _ hc, hab]

theorem toNat_add_sub {a b c : UInt64} (hlt : a.toNat + b.toNat < 2 ^ 64)
    (hle : c.toNat ≤ a.toNat + b.toNat) : (a + b - c).toNat = a.toNat + b.toNat - c.toNat := by
  have hab : (a + b).toNat = a.toNat + b.toNat := by
    rw [UInt64.toNat_add]
    exact Nat.mod_eq_of_lt hlt
  have hc : c ≤ a + b := UInt64.le_iff_toNat_le.mpr (by omega)
  rw [UInt64.toNat_sub_of_le _ _ hc, hab]

variable {gt : QuotaTable} {O C : List UInt8} {v : ℕ} {cost : UInt64}

@[simp] theorem baseCost_self : baseCost gt O O = 0 := if_pos rfl

theorem baseCost_of_nil (h : O ≠ C) (hO : O = []) : baseCost gt O C = gt.SstoreInitQuota.toNat := by
  rw [baseCost, if_neg h, if_pos (List.length_eq_zero_iff.mpr hO)]

theorem baseCost_to_nil (h : O ≠ C) (hO : O ≠ []) (hC : C = []) :
    baseCost gt O C = gt.SstoreCleanQuota.toNat := by
  rw [baseCost, if_neg h, if_neg (mt List.length_eq_zero_iff.mp hO),
    if_pos (List.length_eq_zero_iff.mpr hC)]

theorem baseCost_reset (h : O ≠ C) (hO : O ≠ []) (hC : C ≠ []) :
    baseCost gt O C = gt.SstoreResetQuota.toNat := by
  rw [baseCost, if_neg h, if_neg (mt List.length_eq_zero_iff.mp hO),
    if_neg (mt List.length_eq_zero_iff.mp hC)]

/-- A charged write raises the base cost of the slot by at most what it charged. -/
theorem sstoreQuota_charge (hgt : gt.SstoreSound) (h : sstoreQuota gt O C v = (cost, true)) :
    baseCost gt O (bigBytes v) ≤ baseCost gt O C + cost.toNat := by
  unfold sstoreQuota at h
  simp only [List.length_eq_zero_iff, List.length_pos_iff] at h
  by_cases hnoop : C = bigBytes v
  · rw [← hnoop]
    omega
  rw [if_neg hnoop] at h
  by_cases hfirst : O = C
  · -- the first change of the slot is charged its base cost
    subst hfirst
    rw [if_pos rfl] at h
    split_ifs at h with hO hv <;> obtain ⟨rfl, -⟩ := Prod.mk.inj h
    · rw [baseCost_of_nil hnoop hO]
      omega
    · rw [baseCost_to_nil hnoop hO (bigBytes_eq_nil.mpr hv)]
      omega
    · rw [baseCost_reset hnoop hO (mt bigBytes_eq_nil.mp hv)]
      omega
  rw [if_neg hfirst] at h
  by_cases hback : O = bigBytes v
  · rw [← hback, baseCost_self]
    omega
  rw [if_neg hback] at h
  by_cases hO : O = []
  · -- from an empty original both values cost `SstoreInitQuota`
    rw [baseCost_of_nil hback hO, baseCost_of_nil hfirst hO]
    omega
  rw [if_pos hO] at h
  by_cases hrefill : C = [] ∧ 0 < v
  · -- refilling an emptied slot: from `SstoreCleanQuota` up to `SstoreResetQuota`
    rw [if_pos hrefill] at h
    obtain ⟨rfl, -⟩ := Prod.mk.inj h
    have hv : bigBytes v ≠ [] := mt bigBytes_eq_nil.mp (by omega)
    rw [baseCost_reset hback hO hv, baseCost_to_nil hfirst hO hrefill.1,
      toNat_add_sub hgt.reset_mem_lt (by have := hgt.reset_ge_clean; omega)]
    omega
  rw [if_neg hrefill] at h
  by_cases hclear : C ≠ [] ∧ v = 0
  · rw [if_pos hclear] at h
    cases h
  rw [if_neg hclear] at h
  obtain ⟨rfl, -⟩ := Prod.mk.inj h
  -- a change between two nonempty values, each costing `SstoreResetQuota`
  have hC : C ≠ [] := fun hC => hnoop (by
    rw [hC, eq_comm, bigBytes_eq_nil]
    by_contra hv
    exact hrefill ⟨hC, Nat.pos_of_ne_zero hv⟩)
  have hv : bigBytes v ≠ [] := fun hv => hclear ⟨hC, bigBytes_eq_nil.mp hv⟩
  rw [baseCost_reset hback hO hv, baseCost_reset hfirst hO hC]
  omega

/-- A refund is covered by the fall of the slot's base cost. -/
theorem sstoreQuota_refund (hgt : gt.SstoreSound) (h : sstoreQuota gt O C v = (cost, false)) :
    cost.toNat + baseCost gt O (bigBytes v) ≤ baseCost gt O C := by
  unfold sstoreQuota at h
  simp only [List.length_eq_zero_iff, List.length_pos_iff] at h
  -- the write keeps the value or is the slot's first change: always charged
  by_cases hnoop : C = bigBytes v
  · rw [if_pos hnoop] at h
    cases h
  rw [if_neg hnoop] at h
  by_cases hfirst : O = C
  · rw [if_pos hfirst] at h
    split_ifs at h <;> cases h
  rw [if_neg hfirst] at h
  by_cases hback : O = bigBytes v
  · -- a write back to the original value hands back the price of the change less two slots
    rw [if_pos hback] at h
    rw [← hback, baseCost_self]
    by_cases hO : O = []
    · rw [if_pos hO] at h
      obtain ⟨rfl, -⟩ := Prod.mk.inj h
      rw [toNat_sub_sub hgt.init_ge, baseCost_of_nil hfirst hO]
      omega
    rw [if_neg hO] at h
    split_ifs at h with hC
    · cases h
    obtain ⟨rfl, -⟩ := Prod.mk.inj h
    rw [toNat_sub_sub hgt.reset_ge_noop, baseCost_reset hfirst hO hC]
    omega
  rw [if_neg hback] at h
  by_cases hO : O = []
  · rw [if_neg (not_not.mpr hO)] at h
    cases h
  rw [if_pos hO] at h
  split_ifs at h with hrefill hclear
  · cases h
  · -- clearing a slot whose original value was not empty
    obtain ⟨rfl, -⟩ := Prod.mk.inj h
    rw [toNat_sub_sub hgt.reset_ge_clean, baseCost_reset hfirst hO hclear.1,
      baseCost_to_nil hback hO (bigBytes_eq_nil.mpr hclear.2)]
    have := hgt.reset_ge_clean
    omega
  · cases h

example : (sstoreQuota initQuotaTable [] [5] 0) = (19600, false) := by decide

theorem sstoreQuota_self_charges : (sstoreQuota gt O O v).2 = true := by
  unfold sstoreQuota
  by_cases hnoop : O = bigBytes v
  · rw [if_pos hnoop]
  rw [if_neg hnoop, if_pos rfl]
  split_ifs <;> rfl

theorem gasSStore_ok {earth : Bool} {storageModified modified : List ℕ} {loc : ℕ} {flag : Bool}
    (h : gasSStore earth gt storageModified O C loc v = .ok (cost, flag, modified)) :
    sstoreQuota gt O C v = (cost, flag) := by
  unfold gasSStore at h
  obtain ⟨m, -, h⟩ := Except.bind_eq_ok.mp h
  rcases hq : sstoreQuota gt O C v with ⟨q, f⟩
  rw [hq] at h
  cases h
  rfl

theorem UseQuota_ok {quotaLeft quotaLeft' : UInt64} (h : UseQuota quotaLeft cost = .ok quotaLeft') :
    quotaLeft'.toNat + cost.toNat = quotaLeft.toNat := by
  unfold UseQuota at h
  split_ifs at h with hlt
  cases h
  have hle : cost ≤ quotaLeft := UInt64.le_iff_toNat_le.mpr (by
    have := mt UInt64.lt_iff_toNat_lt.mpr hlt
    omega)
  rw [UInt64.toNat_sub_of_le _ _ hle]
  have := UInt64.le_iff_toNat_le.mp hle
  omega

section Run

variable {earth offChain : Bool} {original : ℕ → List UInt8} {c c' : Contract} {flag : Bool}

theorem step_SSTORE_ok {loc val : ℕ}
    (h : step earth offChain gt original c (.SSTORE loc val) = .ok (c', cost, flag)) :
    sstoreQuota gt (original loc) (c.storage loc) val = (cost, flag) ∧
      UseQuotaWithFlag c.quotaLeft cost flag = .ok c'.quotaLeft ∧
      c'.storage = if offChain then c.storage else Function.update c.storage loc (bigBytes val) := by
  simp only [step] at h
  obtain ⟨⟨q, f, m⟩, hgas, h⟩ := Except.bind_eq_ok.mp h
  obtain ⟨left, hleft, h⟩ := Except.bind_eq_ok.mp h
  cases h
  exact ⟨gasSStore_ok hgas, hleft, rfl⟩

theorem step_other_ok {k : UInt64} (h : step earth offChain gt original c (.other k) = .ok (c', cost, flag)) :
    cost = k ∧ flag = true ∧ UseQuota c.quotaLeft k = .ok c'.quotaLeft ∧ c'.storage = c.storage := by
  simp only [step] at h
  obtain ⟨left, hleft, h⟩ := Except.bind_eq_ok.mp h
  cases h
  exact ⟨rfl, rfl, hleft, rfl⟩

theorem step_offChain_storage (hoff : offChain = true)
    (h : step earth offChain gt original c op = .ok (c', cost, flag)) : c'.storage = c.storage := by
  cases op with
  | SSTORE loc val =>
    rw [(step_SSTORE_ok h).2.2, if_pos hoff]
  | other k => exact (step_other_ok h).2.2.2

/-- Off the chain a slot is never written, so no write is ever refunded. -/
theorem step_offChain_charges (hoff : offChain = true → c.storage = original)
    (h : step earth offChain gt original c op = .ok (c', cost, flag)) (hon : offChain = true) :
    flag = true := by
  cases op with
  | SSTORE loc val =>
    have hq := (step_SSTORE_ok h).1
    rw [hoff hon] at hq
    have hself : (sstoreQuota gt (original loc) (original loc) val).2 = true :=
      sstoreQuota_self_charges
    simpa [hq] using hself
  | other k => exact (step_other_ok h).2.1

@[simp] theorem metered_nil (select : Op → Bool) (f : Bool) : metered select f [] = 0 := rfl

@[simp] theorem metered_cons (select : Op → Bool) (f : Bool) (e : Op × UInt64 × Bool)
    (log : List (Op × UInt64 × Bool)) :
    metered select f (e :: log) =
      (if select e.1 ∧ e.2.2 = f then e.2.1.toNat else 0) + metered select f log := by
  simp [metered]

/-- The quota a run may still spend or get back: what is left, plus for each slot of `T` the
base cost of its change so far. -/
def potential (gt : QuotaTable) (original : ℕ → List UInt8) (T : Finset ℕ) (c : Contract) : ℕ :=
  c.quotaLeft.toNat + ∑ loc ∈ T, baseCost gt (original loc) (c.storage loc)

theorem baseCost_le_sum (gt : QuotaTable) (original : ℕ → List UInt8) (c : Contract)
    {T : Finset ℕ} {loc : ℕ} (hloc : loc ∈ T) :
    baseCost gt (original loc) (c.storage loc) ≤
      ∑ l ∈ T, baseCost gt (original l) (c.storage l) :=
  Finset.single_le_sum (f := fun l => baseCost gt (original l) (c.storage l))
    (fun _ _ => Nat.zero_le _) hloc

/-- Writing one slot of `T` changes the sum only in that slot's term. -/
theorem sum_baseCost_update (gt : QuotaTable) (original : ℕ → List UInt8) (c : Contract)
    {T : Finset ℕ} {loc : ℕ} (hloc : loc ∈ T) (w : List UInt8) :
    (∑ l ∈ T, baseCost gt (original l) (Function.update c.storage loc w l)) +
        baseCost gt (original loc) (c.storage loc) =
      (∑ l ∈ T, baseCost gt (original l) (c.storage l)) + baseCost gt (original loc) w := by
  rw [← Finset.add_sum_erase T _ hloc, ← Finset.add_sum_erase T _ hloc, Function.update_self]
  have hrest : ∑ l ∈ T.erase loc, baseCost gt (original l) (Function.update c.storage loc w l) =
      ∑ l ∈ T.erase loc, baseCost gt (original l) (c.storage l) :=
    Finset.sum_congr rfl fun l hl => by rw [Function.update_of_ne (Finset.ne_of_mem_erase hl)]
  rw [hrest]
  omega

/-- One step never raises the potential, and its quota moves exactly as metered: the addition of
a refund does not wrap while the potential fits in 64 bits. -/
theorem step_potential_le {T : Finset ℕ} (hgt : gt.SstoreSound)
    (hoff : offChain = true → c.storage = original) (hloc : ∀ loc, op.loc? = some loc → loc ∈ T)
    (hB : potential gt original T c < 2 ^ 64)
    (h : step earth offChain gt original c op = .ok (c', cost, flag)) :
    potential gt original T c' ≤ potential gt original T c ∧
      c'.quotaLeft.toNat + (if flag then cost.toNat else 0) =
        c.quotaLeft.toNat + (if flag then 0 else cost.toNat) := by
  cases op with
  | other k =>
    obtain ⟨rfl, rfl, huse, hstorage⟩ := step_other_ok h
    have hq := UseQuota_ok huse
    simp only [potential, hstorage, if_true]
    omega
  | SSTORE loc val =>
    obtain ⟨hq, huse, hstorage⟩ := step_SSTORE_ok h
    have hmem : loc ∈ T := hloc loc rfl
    cases flag with
    | true =>
      have hleft := UseQuota_ok huse
      by_cases hon : offChain = true
      · simp only [potential, hstorage, if_pos hon, if_true]
        omega
      rw [if_neg hon] at hstorage
      have hsum := sum_baseCost_update gt original c hmem (bigBytes val)
      have hcharge := sstoreQuota_charge hgt hq
      simp only [potential, hstorage, if_true] at hsum ⊢
      omega
    | false =>
      have hon : offChain = false := by
        cases hoc : offChain
        · rfl
        · exact absurd (step_offChain_charges hoff h hoc) (by simp)
      rw [hon, if_neg (by simp)] at hstorage
      have hrefund := sstoreQuota_refund hgt hq
      have hbase := baseCost_le_sum gt original c hmem
      -- the refund is at most the slot's base cost, so the unchecked addition stays in range
      have hfit : c.quotaLeft.toNat + cost.toNat < 2 ^ 64 := by
        unfold potential at hB
        omega
      have hleft : c'.quotaLeft.toNat = c.quotaLeft.toNat + cost.toNat := by
        simp only [UseQuotaWithFlag, Bool.false_eq_true, if_false, Except.ok.injEq] at huse
        rw [← huse, UInt64.toNat_add, Nat.mod_eq_of_lt hfit]
      have hsum := sum_baseCost_update gt original c hmem (bigBytes val)
      simp only [potential, hstorage, Bool.false_eq_true, if_false] at hsum ⊢
      omega

/-- Per slot, the base cost after a step is covered by the base cost before it and what the
step metered for that slot. -/
theorem step_slot_ledger (hgt : gt.SstoreSound) (hoff : offChain = true → c.storage = original)
    (h : step earth offChain gt original c op = .ok (c', cost, flag)) (l : ℕ) :
    returned [(op, cost, flag)] l + baseCost gt (original l) (c'.storage l) ≤
      charged [(op, cost, flag)] l + baseCost gt (original l) (c.storage l) := by
  cases op with
  | other k =>
    obtain ⟨rfl, rfl, -, hstorage⟩ := step_other_ok h
    simp [returned, charged, Op.loc?, hstorage]
  | SSTORE loc val =>
    obtain ⟨hq, -, hstorage⟩ := step_SSTORE_ok h
    by_cases hl : loc = l
    · subst hl
      by_cases hon : offChain = true
      · have hflag := step_offChain_charges hoff h hon
        subst hflag
        simp [returned, charged, Op.loc?, hstorage, hon]
      rw [if_neg hon] at hstorage
      have hslot : c'.storage loc = bigBytes val := by rw [hstorage, Function.update_self]
      cases flag with
      | true =>
        have := sstoreQuota_charge hgt hq
        simp [returned, charged, Op.loc?, hslot]
        omega
      | false =>
        have := sstoreQuota_refund hgt hq
        simp [returned, charged, Op.loc?, hslot]
        omega
    · have hsame : c'.storage l = c.storage l := by
        rw [hstorage]
        split_ifs
        · rfl
        · exact Function.update_of_ne (Ne.symm hl) _ _
      simp [returned, charged, Op.loc?, hsame, hl]

theorem exec_nil_ok {c'' : Contract} {log : List (Op × UInt64 × Bool)}
    (h : exec earth offChain gt original [] c = .ok (c'', log)) : c'' = c ∧ log = [] := by
  cases h
  exact ⟨rfl, rfl⟩

theorem exec_cons_ok {op : Op} {ops : List Op} {c'' : Contract} {log : List (Op × UInt64 × Bool)}
    (h : exec earth offChain gt original (op :: ops) c = .ok (c'', log)) :
    ∃ c' cost flag log', step earth offChain gt original c op = .ok (c', cost, flag) ∧
      exec earth offChain gt original ops c' = .ok (c'', log') ∧ log = (op, cost, flag) :: log' := by
  simp only [exec] at h
  obtain ⟨⟨c', cost, flag⟩, hstep, h⟩ := Except.bind_eq_ok.mp h
  obtain ⟨⟨c₂, log'⟩, hrest, h⟩ := Except.bind_eq_ok.mp h
  cases h
  exact ⟨c', cost, flag, log', hstep, hrest, rfl⟩

/-- Off the chain the storage stays as it was, step after step. -/
theorem step_offChain_original (hoff : offChain = true → c.storage = original)
    (h : step earth offChain gt original c op = .ok (c', cost, flag)) :
    offChain = true → c'.storage = original := fun hon =>
  (step_offChain_storage hon h).trans (hoff hon)

/-- The run lemma for the potential: it never rises over a run, and the quota left plus all that
was charged is the quota at the start plus all that was handed back. -/
theorem exec_potential_le {T : Finset ℕ} {ops : List Op} {c'' : Contract}
    {log : List (Op × UInt64 × Bool)} (hgt : gt.SstoreSound)
    (hoff : offChain = true → c.storage = original)
    (hloc : ∀ op ∈ ops, ∀ loc, op.loc? = some loc → loc ∈ T)
    (hB : potential gt original T c < 2 ^ 64)
    (h : exec earth offChain gt original ops c = .ok (c'', log)) :
    potential gt original T c'' ≤ potential gt original T c ∧
      c''.quotaLeft.toNat + metered (fun _ => true) true log =
        c.quotaLeft.toNat + metered (fun _ => true) false log := by
  induction ops generalizing c log with
  | nil =>
    obtain ⟨rfl, rfl⟩ := exec_nil_ok h
    simp
  | cons op ops ih =>
    obtain ⟨c', cost, flag, log', hstep, hrest, rfl⟩ := exec_cons_ok h
    have hone := step_potential_le hgt hoff (hloc op List.mem_cons_self) hB hstep
    have htail := ih (step_offChain_original hoff hstep)
      (fun op' hop' => hloc op' (List.mem_cons_of_mem op hop')) (by omega) hrest
    constructor
    · omega
    · cases flag <;> simp only [metered_cons] at htail ⊢ <;> simp at hone htail ⊢ <;> omega

/-- The run lemma per slot: what was handed back for a slot, plus its base cost at the end, is
covered by what was charged for it plus its base cost at the start. -/
theorem exec_slot_ledger {ops : List Op} {c'' : Contract} {log : List (Op × UInt64 × Bool)}
    (hgt : gt.SstoreSound) (hoff : offChain = true → c.storage = original)
    (h : exec earth offChain gt original ops c = .ok (c'', log)) (l : ℕ) :
    returned log l + baseCost gt (original l) (c''.storage l) ≤
      charged log l + baseCost gt (original l) (c.storage l) := by
  induction ops generalizing c log with
  | nil =>
    obtain ⟨rfl, rfl⟩ := exec_nil_ok h
    simp [returned, charged]
  | cons op ops ih =>
    obtain ⟨c', cost, flag, log', hstep, hrest, rfl⟩ := exec_cons_ok h
    have hone := step_slot_ledger hgt hoff hstep l
    have htail := ih (step_offChain_original hoff hstep) hrest
    simp only [returned, charged, metered_cons, metered_nil, add_zero] at hone htail ⊢
    omega

end Run

/-- SSTORE metering over a whole run, under every table `QuotaTableByHeight` returns: for each
slot, what was handed back plus the base cost of the slot's change is at most what was charged
for it; the quota left never exceeds the quota at the start; and the quota left plus all charges
equals the start plus all refunds, so no refund's unchecked addition wrapped. -/
theorem sstore_refunds_within_charges (box : UpgradeBox) (sbHeight : ℕ) (earth offChain : Bool)
    (original : ℕ → List UInt8) (modified₀ : List ℕ) (q₀ : UInt64) (ops : List Op) {c : Contract}
    {log : List (Op × UInt64 × Bool)}
    (h : exec earth offChain (QuotaTableByHeight box sbHeight) original ops
      ⟨original, modified₀, q₀⟩ = .ok (c, log)) :
    (∀ loc, returned log loc + baseCost (QuotaTableByHeight box sbHeight) (original loc)
      (c.storage loc) ≤ charged log loc) ∧
    c.quotaLeft ≤ q₀ ∧
    c.quotaLeft.toNat + metered (fun _ => true) true log =
      q₀.toNat + metered (fun _ => true) false log := by
  have hgt := QuotaTableByHeight_sstoreSound box sbHeight
  have hstart : potential (QuotaTableByHeight box sbHeight) original
      (ops.filterMap Op.loc?).toFinset ⟨original, modified₀, q₀⟩ = q₀.toNat := by
    simp [potential]
  have hrun := exec_potential_le (c := ⟨original, modified₀, q₀⟩)
    (T := (ops.filterMap Op.loc?).toFinset) hgt (fun _ => rfl)
    (fun op hop loc hl => List.mem_toFinset.mpr (List.mem_filterMap.mpr ⟨op, hop, hl⟩))
    (hstart ▸ UInt64.toNat_lt q₀) h
  refine ⟨fun loc => ?_, ?_, hrun.2⟩
  · simpa using exec_slot_ledger (c := ⟨original, modified₀, q₀⟩) hgt (fun _ => rfl) h loc
  · rw [hstart] at hrun
    apply UInt64.le_iff_toNat_le.mpr
    unfold potential at hrun
    omega

/-- A slot set from empty and cleared again in one run: the clearing write is refunded, and the
refund stays within the first write's charge. -/
theorem sstore_set_then_clear :
    ∃ c log, exec false false (QuotaTableByHeight ⟨fun _ => none⟩ 0) (fun _ => [])
        [.SSTORE 1 5, .SSTORE 1 0] ⟨fun _ => [], [], 30000⟩ = .ok (c, log) ∧
      c.quotaLeft ≤ 30000 ∧ returned log 1 ≤ charged log 1 := by
  obtain ⟨hslot, hle, -⟩ := sstore_refunds_within_charges ⟨fun _ => none⟩ 0 false false
    (fun _ => []) [] 30000 [.SSTORE 1 5, .SSTORE 1 0] rfl
  refine ⟨_, _, rfl, hle, ?_⟩
  have := hslot 1
  omega

end Vite.Vm
