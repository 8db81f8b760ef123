import Mathlib.Algebra.Order.Ring.Int
import Mathlib.Data.List.GetD
import Vite.Vm.Quota
import Vite.Chain.QuotaList

/-!
# PoW difficulty and the quota of a block

`CalcPoWDifficulty` (vm/quota/quota.go) turns a quota into the PoW difficulty that buys it: the
quota is rounded up to a whole number of sections of `quotaForSection`, the section's entry of
`difficultyList` is the difficulty at rest, and under congestion it is scaled by
`qcDivision / qc` and raised by the loop of `calcStakeTargetParam` until `calcStakeParam` scales it
back. `calcPoWQuota` goes the other way, by a binary search in the same list. On a strictly
increasing list whose first entry is not negative, the difficulty returned is the least one whose
quota covers the request (`CalcPoWDifficulty_least_sufficient`), and the loop raises its start at
most once.

`GetQuotaForBlock` reads the quota an account has for a block from `calcQuotaTotal`: the stake quota
of each snapshot of the window, less what the snapshot's blocks took, clipped at zero, less the
unconfirmed use, plus the PoW quota, all in uint64, then clipped to `quotaLimitForBlock`.
`CalcQuotaUsed` splits what a block used into its stake part and its PoW part.
-/

namespace Vite.BlockQuota

open Vite.Vm Vite.ChainCache

/-! ## Parameters -/

def quotaForSection : ℕ := 280

def sectionLen : ℕ := 3571

def quotaLimitForBlock : ℕ := 1000000

def outOfQuotaBlockTime : ℕ := 75

def qcGap : ℕ := 21000 * 74

def qcDivision : ℤ := 10 ^ 18

inductive QuotaError where
  | ErrCalcPoWTwice
  | ErrBlockQuotaLimitReached
  | ErrInvalidUnconfirmedQuota
  /-- an error of the database, passed on -/
  | db (err : String)
  deriving DecidableEq, Repr

/-- `quotaConfigParams` under the configuration of `calcQuotaV3`: the two section tables and the
congestion ratios, positive on the indices `CalcQc` reads, as in `qcMapMainnet`. -/
structure quotaConfigParams where
  difficultyList : List ℤ
  stakeAmountList : List ℤ
  qcIndexMin : ℕ
  qcIndexMax : ℕ
  qcMap : ℕ → ℤ
  qcIndexMin_le : qcIndexMin ≤ qcIndexMax
  qcMap_pos : ∀ i, qcIndexMin ≤ i → i ≤ qcIndexMax → 0 < qcMap i

/-- The fields of a `ledger.AccountBlock` the quota reads. -/
structure AccountBlock where
  BlockType : UInt8
  Hash : List UInt8
  Nonce : List UInt8
  deriving DecidableEq, Repr

def BlockTypeReceiveError : UInt8 := 5

/-- `quotaDb`. -/
structure quotaDb where
  GetGlobalQuota : QuotaInfo
  GetQuotaUsedList : Address → List QuotaInfo
  GetUnconfirmedBlocks : Address → List AccountBlock
  GetLatestAccountBlock : Address → Except String (Option AccountBlock)
  GetConfirmedTimes : List UInt8 → Except String ℕ

def IsContractAddr (addr : Address) : Bool := addr.getD 20 0 == 1

def IsPoW (block : AccountBlock) : Bool := 0 < block.Nonce.length

/-! ## Congestion -/

/-- What `CalcQc` returns: the congestion ratio (in units of `1 / qcDivision`), the global quota
used and whether the chain is congested; a congested ratio is positive. -/
structure Congestion where
  qc : ℤ
  globalQuota : ℕ
  isCongestion : Bool
  qc_pos : isCongestion = true → 0 < qc

def CalcQc (cfg : quotaConfigParams) (box : UpgradeBox) (db : quotaDb) (sbHeight : ℕ) :
    Congestion :=
  if !IsDexUpgrade box sbHeight then ⟨0, 0, false, nofun⟩
  else
    let globalQuota := db.GetGlobalQuota.QuotaUsedTotal.toNat
    let qcIndex := (globalQuota + qcGap - 1) % 2 ^ 64 / qcGap
    if hmin : qcIndex < cfg.qcIndexMin then ⟨qcDivision, globalQuota, false, nofun⟩
    else
      ⟨cfg.qcMap (min qcIndex cfg.qcIndexMax), globalQuota, true, fun _ =>
        cfg.qcMap_pos _ (le_min (Nat.le_of_not_lt hmin) cfg.qcIndexMin_le) (min_le_right _ _)⟩

def calcStakeParam (qc : ℤ) (isCongestion : Bool) (param : ℤ) : ℤ :=
  if !isCongestion then param else param * qc / qcDivision

theorem qcDivision_pos : 0 < qcDivision := by decide

/-- The `for` loop of `calcStakeTargetParam`: the candidate goes up by one until `calcStakeParam`
scales it back to at least `target`. Each round takes `qc` off `target * qcDivision - newTarget * qc`
(one off `target - newTarget` when the chain is not congested), which stays positive while the
loop goes on. -/
def raiseTarget (qc : ℤ) (isCongestion : Bool) (hqc : isCongestion = true → 0 < qc)
    (target newTarget : ℤ) : ℤ :=
  if target ≤ calcStakeParam qc isCongestion newTarget then newTarget
  else raiseTarget qc isCongestion hqc target (newTarget + 1)
termination_by
  (if isCongestion then target * qcDivision - newTarget * qc else target - newTarget).toNat
decreasing_by
  cases isCongestion with
  | false =>
    simp only [calcStakeParam, Bool.not_false, if_true, Bool.false_eq_true, if_false] at *
    omega
  | true =>
    have hpos := hqc rfl
    simp only [calcStakeParam, Bool.not_true, Bool.false_eq_true, if_false, if_true] at *
    have hlt : newTarget * qc < target * qcDivision :=
      (Int.ediv_lt_iff_lt_mul qcDivision_pos).mp (not_le.mp ‹_›)
    rw [add_one_mul]
    omega

/-- `calcStakeTargetParam`: the search starts from `target * qcDivision / qc`, and a result wider
than 256 bits is refused. -/
def calcStakeTargetParam (qc : ℤ) (isCongestion : Bool) (hqc : isCongestion = true → 0 < qc)
    (target : ℤ) : Except QuotaError ℤ :=
  let newTarget := raiseTarget qc isCongestion hqc target (target * qcDivision / qc)
  if newTarget.natAbs < 2 ^ 256 then .ok newTarget else .error .ErrBlockQuotaLimitReached

/-- `calcStakeTargetParamByQc`: the target, scaled when the chain is congested, with the ratio. -/
def calcStakeTargetParamByQc (cfg : quotaConfigParams) (box : UpgradeBox) (db : quotaDb)
    (target : ℤ) (sbHeight : ℕ) : Except QuotaError ℤ × ℤ :=
  let c := CalcQc cfg box db sbHeight
  if !c.isCongestion then (.ok target, c.qc)
  else (calcStakeTargetParam c.qc c.isCongestion c.qc_pos target, c.qc)

/-! ## Sections -/

def getExactIndex (x : ℤ) (list : List ℤ) (index : ℕ) : ℕ :=
  if index = 0 ∨ list.getD index 0 ≤ x then index else index - 1

/-- `getIndexInBigIntList`: the binary search for the last entry at most `x`. The source stops on
`left == right`; every call keeps `left ≤ right`, where that is `right ≤ left`. -/
def getIndexInBigIntList (x : ℤ) (list : List ℤ) (left right : ℕ) : ℕ :=
  if right ≤ left then getExactIndex x list left
  else
    let mid := (left + right + 1) / 2
    if list.getD mid 0 = x then mid
    else if x < list.getD mid 0 then getIndexInBigIntList x list left (mid - 1)
    else getIndexInBigIntList x list mid right
termination_by right - left

def calcQuotaByIndex (index : ℕ) : ℕ :=
  if index ≤ sectionLen then index * quotaForSection else 0

def getIndexByQuota (q : ℕ) : Except QuotaError ℕ :=
  let index := (q + quotaForSection - 1) % 2 ^ 64 / quotaForSection
  if sectionLen < index ∨ index * quotaForSection < q then .error .ErrBlockQuotaLimitReached
  else .ok index

def calcPoWQuota (cfg : quotaConfigParams) (qc : ℤ) (isCongestion : Bool) (difficulty : ℤ) : ℕ :=
  if difficulty ≤ 0 then 0
  else
    calcQuotaByIndex (getIndexInBigIntList (calcStakeParam qc isCongestion difficulty)
      cfg.difficultyList 0 sectionLen)

def calcStakeQuota (cfg : quotaConfigParams) (qc : ℤ) (isCongestion : Bool) (stakeAmount : ℤ) :
    ℕ :=
  if stakeAmount ≤ 0 then 0
  else
    calcQuotaByIndex (getIndexInBigIntList (calcStakeParam qc isCongestion stakeAmount)
      cfg.stakeAmountList 0 sectionLen)

/-- `types.Quota`. -/
structure Quota where
  current : ℕ
  stakeQuotaPerSnapshotBlock : ℕ
  avg : ℕ
  snapshotCurrent : ℕ
  blocked : Bool
  blockReleaseHeight : ℕ
  deriving DecidableEq, Repr

def CalcPoWDifficulty (cfg : quotaConfigParams) (box : UpgradeBox) (db : quotaDb)
    (quotaRequired : ℕ) (q : Quota) (sbHeight : ℕ) : Except QuotaError ℤ :=
  if quotaLimitForBlock < quotaRequired then .error .ErrBlockQuotaLimitReached
  else if quotaRequired ≤ q.current then .ok 0
  else do
    let index ← getIndexByQuota quotaRequired
    let difficulty := cfg.difficultyList.getD index 0
    (calcStakeTargetParamByQc cfg box db difficulty sbHeight).1

/-! ## The quota of a block -/

def CanPoW (db : quotaDb) (address : Address) : Bool :=
  !(db.GetUnconfirmedBlocks address).any IsPoW

/-- `isBlocked`: whether a contract waits after an out-of-quota receive (its latest block a
`BlockTypeReceiveError` confirmed fewer than `outOfQuotaBlockTime` times), and for how many more
snapshots. -/
def isBlocked (db : quotaDb) (addr : Address) : Bool × ℕ × Option QuotaError :=
  if !IsContractAddr addr then (false, 0, none)
  else
    match db.GetLatestAccountBlock addr with
    | .error err => (true, 0, some (.db err))
    | .ok none => (false, 0, none)
    | .ok (some prevBlock) =>
      if prevBlock.BlockType = BlockTypeReceiveError then
        match db.GetConfirmedTimes prevBlock.Hash with
        | .error err => (true, 0, some (.db err))
        | .ok confirmTime =>
          if confirmTime < outOfQuotaBlockTime then
            (true, outOfQuotaBlockTime - confirmTime, none)
          else (false, 0, none)
      else (false, 0, none)

/-- The three uint64 sums of `calcQuotaTotal`'s loop. -/
structure Totals where
  quotaTotal : ℕ
  quotaUsedTotal : ℕ
  blockCountTotal : ℕ
  deriving DecidableEq, Repr

/-- A snapshot before the last: its stake quota comes in, what its blocks used goes out, clipped
at zero. -/
def Totals.addSnapshot (quotaStake : ℕ) (t : Totals) (q : QuotaInfo) : Totals :=
  let quotaTotal := (t.quotaTotal + quotaStake) % 2 ^ 64
  ⟨if q.QuotaTotal.toNat ≤ quotaTotal then quotaTotal - q.QuotaTotal.toNat else 0,
    (t.quotaUsedTotal + q.QuotaUsedTotal.toNat) % 2 ^ 64, (t.blockCountTotal + q.BlockCount.toNat) % 2 ^ 64⟩

/-- The last snapshot, the one of the unconfirmed blocks: its stake quota comes in and its use is
kept apart. Returns the totals, `snapshotCurrentQuota` and `unconfirmedQuota`. -/
def Totals.addLast (quotaStake : ℕ) (t : Totals) : Option QuotaInfo → Totals × ℕ × ℕ
  | some q =>
    let quotaTotal := (t.quotaTotal + quotaStake) % 2 ^ 64
    (⟨quotaTotal, (t.quotaUsedTotal + q.QuotaUsedTotal.toNat) % 2 ^ 64,
      (t.blockCountTotal + q.BlockCount.toNat) % 2 ^ 64⟩, quotaTotal, q.QuotaTotal.toNat)
  | none => (t, t.quotaTotal, 0)

/-- What `calcQuotaTotal` returns. -/
structure QuotaResult where
  quotaTotal : ℕ
  quotaStake : ℕ
  quotaAddition : ℕ
  snapshotCurrentQuota : ℕ
  quotaAvg : ℕ
  blocked : Bool
  blockReleaseHeight : ℕ
  err : Option QuotaError
  deriving DecidableEq, Repr

def calcQuotaTotal (cfg : quotaConfigParams) (box : UpgradeBox) (db : quotaDb) (addr : Address)
    (stakeAmount difficulty : ℤ) (sbHeight : ℕ) : QuotaResult :=
  match isBlocked db addr with
  | (_, _, some err) => ⟨0, 0, 0, 0, 0, false, 0, some err⟩
  | (blocked, blockReleaseHeight, none) =>
    let c := CalcQc cfg box db sbHeight
    let quotaStake := calcStakeQuota cfg c.qc c.isCongestion stakeAmount
    let quotaAddition := calcPoWQuota cfg c.qc c.isCongestion difficulty
    let quotaList := db.GetQuotaUsedList addr
    -- the loop runs over `quotaList[:len(quotaList)-1]`; its guard `len(quotaList) > 1` only
    -- skips a loop with nothing to do
    let last := (quotaList.dropLast.foldl (Totals.addSnapshot quotaStake) ⟨0, 0, 0⟩).addLast
      quotaStake quotaList.getLast?
    let t := last.1
    let quotaAvg := if 0 < t.blockCountTotal then t.quotaUsedTotal / t.blockCountTotal else 0
    if last.2.2 ≤ t.quotaTotal then
      if blocked then
        ⟨0, quotaStake, 0, last.2.1, quotaAvg, blocked, blockReleaseHeight, none⟩
      else
        ⟨(t.quotaTotal - last.2.2 + quotaAddition) % 2 ^ 64, quotaStake, quotaAddition, last.2.1,
          quotaAvg, blocked, blockReleaseHeight, none⟩
    else
      ⟨0, quotaStake, 0, last.2.1, quotaAvg, blocked, blockReleaseHeight,
        some .ErrInvalidUnconfirmedQuota⟩

def calcQuotaV3 (cfg : quotaConfigParams) (box : UpgradeBox) (db : quotaDb) (addr : Address)
    (stakeAmount difficulty : ℤ) (sbHeight : ℕ) : QuotaResult :=
  if 0 < difficulty ∧ !CanPoW db addr then ⟨0, 0, 0, 0, 0, false, 0, some .ErrCalcPoWTwice⟩
  else calcQuotaTotal cfg box db addr stakeAmount difficulty sbHeight

/-- `GetQuota`: the quota of an account, with no PoW. -/
def GetQuota (cfg : quotaConfigParams) (box : UpgradeBox) (db : quotaDb) (beneficial : Address)
    (stakeAmount : ℤ) (sbHeight : ℕ) : Quota × Option QuotaError :=
  let r := calcQuotaV3 cfg box db beneficial stakeAmount 0 sbHeight
  (⟨r.quotaTotal, r.quotaStake, r.quotaAvg, r.snapshotCurrentQuota, r.blocked,
    r.blockReleaseHeight⟩, r.err)

/-- `GetQuotaForBlock`: the quota a block may use and its PoW part, clipped to the block limit. -/
def GetQuotaForBlock (cfg : quotaConfigParams) (box : UpgradeBox) (db : quotaDb) (addr : Address)
    (stakeAmount difficulty : ℤ) (sbHeight : ℕ) : Except QuotaError (ℕ × ℕ) :=
  let r := calcQuotaV3 cfg box db addr stakeAmount difficulty sbHeight
  match r.err with
  | some err => .error err
  | none =>
    if quotaLimitForBlock < r.quotaTotal then
      if quotaLimitForBlock < r.quotaAddition then .ok (quotaLimitForBlock, quotaLimitForBlock)
      else .ok (quotaLimitForBlock, r.quotaAddition)
    else .ok (r.quotaTotal, r.quotaAddition)

/-- `CalcQuotaUsed` (vm/util/quota.go): the stake part and the whole of what a block used, the PoW
part spent first; a block that does not use quota, or ran out of it, used none. -/
def CalcQuotaUsed (useQuota : Bool) (quotaTotal quotaAddition quotaLeft : ℕ)
    (err : Option VmError) : ℕ × ℕ :=
  if !useQuota then (0, 0)
  else if err = some .ErrOutOfQuota then (0, 0)
  else
    let qUsed := (quotaTotal + 2 ^ 64 - quotaLeft) % 2 ^ 64
    if qUsed < quotaAddition then (0, qUsed) else (qUsed - quotaAddition, qUsed)

/-! ## The binary search -/

section Search

variable {x : ℤ} {list : List ℤ} {n : ℕ}

theorem getD_lt_getD (hs : list.Pairwise (· < ·)) {i j : ℕ} (hij : i < j) (hj : j < list.length) :
    list.getD i 0 < list.getD j 0 := by
  rw [List.getD_eq_getElem _ _ (by omega), List.getD_eq_getElem _ _ hj]
  exact List.pairwise_iff_getElem.mp hs i j (by omega) hj hij

theorem getD_le_getD (hs : list.Pairwise (· < ·)) {i j : ℕ} (hij : i ≤ j) (hj : j < list.length) :
    list.getD i 0 ≤ list.getD j 0 := by
  rcases Nat.lt_or_eq_of_le hij with hlt | rfl
  · exact (getD_lt_getD hs hlt hj).le
  · exact le_rfl

/-- The interval `[left, right]` of the search still holds the last entry at most `x`: the entry
at `left` is at most `x` (or `left` is the first index) and the one after `right` is above it (or
`right` is the last index). -/
structure SearchInv (x : ℤ) (list : List ℤ) (n left right : ℕ) : Prop where
  le : left ≤ right
  right_le : right ≤ n
  left_ok : left = 0 ∨ list.getD left 0 ≤ x
  right_ok : right = n ∨ x < list.getD (right + 1) 0

theorem SearchInv.init (x : ℤ) (list : List ℤ) (n : ℕ) : SearchInv x list n 0 n :=
  ⟨Nat.zero_le n, le_rfl, Or.inl rfl, Or.inl rfl⟩

/-- The search ends on an index `r` with `SearchInv` at `[r, r]`: the last index whose entry is at
most `x`, or `0` when none is. -/
theorem getIndexInBigIntList_inv (hs : list.Pairwise (· < ·)) (hlen : list.length = n + 1)
    {left right : ℕ} (h : SearchInv x list n left right) :
    SearchInv x list n (getIndexInBigIntList x list left right)
      (getIndexInBigIntList x list left right) := by
  fun_induction getIndexInBigIntList x list left right with
  | case1 left right hstop =>
    have heq : left = right := le_antisymm h.le hstop
    subst heq
    rw [getExactIndex, if_pos h.left_ok]
    exact h
  | case2 left right hstop mid hfound =>
    -- the entry after `mid` is above `x`, the list being strictly increasing
    have hmid : mid ≤ n := by have := h.right_le; omega
    refine ⟨le_rfl, hmid, Or.inr hfound.le, ?_⟩
    rcases Nat.lt_or_ge mid n with hlt | hge
    · exact Or.inr (hfound ▸ getD_lt_getD hs (Nat.lt_succ_self mid) (by omega))
    · exact Or.inl (by omega)
  | case3 left right hstop mid hfound hbelow ih =>
    exact ih ⟨by omega, by have := h.right_le; omega, h.left_ok,
      Or.inr (by rwa [Nat.sub_add_cancel (by omega)])⟩
  | case4 left right hstop mid hfound hbelow ih =>
    exact ih ⟨by omega, h.right_le, Or.inr (by omega), h.right_ok⟩

theorem getIndexInBigIntList_le (hs : list.Pairwise (· < ·)) (hlen : list.length = n + 1) :
    getIndexInBigIntList x list 0 n ≤ n :=
  (getIndexInBigIntList_inv hs hlen (SearchInv.init x list n)).right_le

/-- Every index whose entry is at most `x` is at or before the one the search returns. -/
theorem le_getIndexInBigIntList (hs : list.Pairwise (· < ·)) (hlen : list.length = n + 1)
    {i : ℕ} (hi : i ≤ n) (hx : list.getD i 0 ≤ x) : i ≤ getIndexInBigIntList x list 0 n := by
  have hr := getIndexInBigIntList_inv hs hlen (SearchInv.init x list n)
  by_contra hlt
  rcases hr.right_ok with hn | habove
  · omega
  · have := getD_le_getD hs (show getIndexInBigIntList x list 0 n + 1 ≤ i by omega) (by omega)
    omega

/-- Every index past the first whose entry is above `x` is after the one the search returns. -/
theorem getIndexInBigIntList_lt (hs : list.Pairwise (· < ·)) (hlen : list.length = n + 1)
    {i : ℕ} (hi0 : 0 < i) (hx : x < list.getD i 0) :
    getIndexInBigIntList x list 0 n < i := by
  have hr := getIndexInBigIntList_inv hs hlen (SearchInv.init x list n)
  by_contra hge
  rcases hr.left_ok with h0 | hle
  · omega
  · have := getD_le_getD hs (Nat.le_of_not_lt hge) (by have := hr.right_le; omega)
    omega

/-- The search over a strictly increasing list with indices `0..n` returns the last index whose
entry is at most `x`, and `0` when `x` is below every entry. -/
theorem getIndexInBigIntList_isGreatest (hs : list.Pairwise (· < ·)) (hlen : list.length = n + 1)
    (x : ℤ) :
    (list.getD 0 0 ≤ x →
      IsGreatest {i | i ≤ n ∧ list.getD i 0 ≤ x} (getIndexInBigIntList x list 0 n)) ∧
    (x < list.getD 0 0 → getIndexInBigIntList x list 0 n = 0) := by
  have hr := getIndexInBigIntList_inv hs hlen (SearchInv.init x list n)
  constructor
  · intro h0
    have hle : list.getD (getIndexInBigIntList x list 0 n) 0 ≤ x := by
      rcases hr.left_ok with hz | hle
      · rwa [hz]
      · exact hle
    exact ⟨⟨hr.right_le, hle⟩, fun i hi => le_getIndexInBigIntList hs hlen hi.1 hi.2⟩
  · intro hbelow
    rcases hr.left_ok with hz | hle
    · exact hz
    · -- an entry at most `x` would put the first entry at most `x` too
      have := getD_le_getD hs (Nat.zero_le (getIndexInBigIntList x list 0 n))
        (by have := hr.right_le; omega)
      omega

theorem getIndexInBigIntList_isGreatest_sample :
    ([1, 3, 5] : List ℤ).Pairwise (· < ·) ∧
      IsGreatest {i | i ≤ 2 ∧ ([1, 3, 5] : List ℤ).getD i 0 ≤ 4} (getIndexInBigIntList 4 [1, 3, 5] 0 2) :=
  ⟨by decide, (getIndexInBigIntList_isGreatest (by decide) rfl 4).1 (by decide)⟩

end Search

/-! ## Sections and quotas -/

theorem calcPoWQuota_of_nonpos {cfg : quotaConfigParams} {qc : ℤ} {isCongestion : Bool}
    {difficulty : ℤ} (h : difficulty ≤ 0) : calcPoWQuota cfg qc isCongestion difficulty = 0 :=
  if_pos h

theorem calcQuotaByIndex_of_le {index : ℕ} (h : index ≤ sectionLen) :
    calcQuotaByIndex index = index * quotaForSection := if_pos h

theorem calcQuotaByIndex_le (index : ℕ) :
    calcQuotaByIndex index ≤ sectionLen * quotaForSection := by
  unfold calcQuotaByIndex
  split_ifs with h
  · exact Nat.mul_le_mul_right _ h
  · exact Nat.zero_le _

/-- Below the block limit, the section of a quota is its ceiling quotient by the section. -/
theorem getIndexByQuota_eq {q : ℕ} (hq : q ≤ sectionLen * quotaForSection) :
    getIndexByQuota q = .ok ((q + quotaForSection - 1) / quotaForSection) := by
  have hmod : (q + quotaForSection - 1) % 2 ^ 64 = q + quotaForSection - 1 := by
    apply Nat.mod_eq_of_lt
    simp only [sectionLen, quotaForSection] at hq ⊢
    omega
  have hfits : ¬(sectionLen < (q + quotaForSection - 1) / quotaForSection ∨
      (q + quotaForSection - 1) / quotaForSection * quotaForSection < q) := by
    simp only [sectionLen, quotaForSection] at hq ⊢
    omega
  simp only [getIndexByQuota, hmod]
  exact if_neg hfits

/-- The section of a quota covers it, and the section before does not. -/
theorem section_bounds {q : ℕ} (hq0 : 0 < q) (hq : q ≤ sectionLen * quotaForSection) :
    0 < (q + quotaForSection - 1) / quotaForSection ∧
      (q + quotaForSection - 1) / quotaForSection ≤ sectionLen ∧
      q ≤ (q + quotaForSection - 1) / quotaForSection * quotaForSection ∧
      ((q + quotaForSection - 1) / quotaForSection - 1) * quotaForSection < q := by
  simp only [sectionLen, quotaForSection] at hq ⊢
  omega

section PoW

variable {cfg : quotaConfigParams} {qc : ℤ} {isCongestion : Bool}

/-- A difficulty that scales to at least the entry of a section buys the section's quota. -/
theorem le_calcPoWQuota (hs : cfg.difficultyList.Pairwise (· < ·))
    (hlen : cfg.difficultyList.length = sectionLen + 1) {d : ℤ} (hd : 0 < d) {index : ℕ}
    (hidx : index ≤ sectionLen)
    (hx : cfg.difficultyList.getD index 0 ≤ calcStakeParam qc isCongestion d) :
    index * quotaForSection ≤ calcPoWQuota cfg qc isCongestion d := by
  rw [calcPoWQuota, if_neg (not_le.mpr hd), calcQuotaByIndex_of_le (getIndexInBigIntList_le hs hlen)]
  exact Nat.mul_le_mul_right _ (le_getIndexInBigIntList hs hlen hidx hx)

/-- A difficulty that scales below the entry of a section buys at most the section before. -/
theorem calcPoWQuota_le (hs : cfg.difficultyList.Pairwise (· < ·))
    (hlen : cfg.difficultyList.length = sectionLen + 1) {d : ℤ} {index : ℕ} (h0 : 0 < index)
    (hx : calcStakeParam qc isCongestion d < cfg.difficultyList.getD index 0) :
    calcPoWQuota cfg qc isCongestion d ≤ (index - 1) * quotaForSection := by
  unfold calcPoWQuota
  split_ifs
  · exact Nat.zero_le _
  · rw [calcQuotaByIndex_of_le (getIndexInBigIntList_le hs hlen)]
    exact Nat.mul_le_mul_right _ (Nat.le_sub_one_of_lt (getIndexInBigIntList_lt hs hlen h0 hx))

theorem pos_of_one_le_calcStakeParam (hqc : isCongestion = true → 0 < qc) {d : ℤ}
    (h : 1 ≤ calcStakeParam qc isCongestion d) : 0 < d := by
  cases isCongestion with
  | false =>
    simp only [calcStakeParam, Bool.not_false, if_true] at h
    omega
  | true =>
    have hpos := hqc rfl
    simp only [calcStakeParam, Bool.not_true, Bool.false_eq_true, if_false] at h
    have hD := (Int.le_ediv_iff_mul_le qcDivision_pos).mp h
    by_contra hd
    have : d * qc ≤ 0 := Int.mul_nonpos_of_nonpos_of_nonneg (not_lt.mp hd) hpos.le
    have : (0 : ℤ) < qcDivision := qcDivision_pos
    omega

/-- A difficulty that scales to at least the entry of the request's section, one less scaling
below it, is the least difficulty whose PoW quota covers the request. -/
theorem sufficient_minimal_of_scaled (hs : cfg.difficultyList.Pairwise (· < ·))
    (hlen : cfg.difficultyList.length = sectionLen + 1) (hfirst : 0 ≤ cfg.difficultyList.getD 0 0)
    (hqc : isCongestion = true → 0 < qc) {q : ℕ} (hq0 : 0 < q)
    (hq : q ≤ sectionLen * quotaForSection) {d : ℤ}
    (hd : cfg.difficultyList.getD ((q + quotaForSection - 1) / quotaForSection) 0 ≤
      calcStakeParam qc isCongestion d)
    (hprev : calcStakeParam qc isCongestion (d - 1) <
      cfg.difficultyList.getD ((q + quotaForSection - 1) / quotaForSection) 0) :
    q ≤ calcPoWQuota cfg qc isCongestion d ∧ calcPoWQuota cfg qc isCongestion (d - 1) < q := by
  obtain ⟨hidx0, hidx, hcover, hbefore⟩ := section_bounds hq0 hq
  generalize (q + quotaForSection - 1) / quotaForSection = index at hidx0 hidx hcover hbefore hd hprev
  -- the entry of a section past the first is at least one, so `d` is positive
  have hentry : 1 ≤ cfg.difficultyList.getD index 0 := by
    have := getD_lt_getD hs hidx0 (by omega)
    omega
  have hdpos := pos_of_one_le_calcStakeParam hqc (hentry.trans hd)
  exact ⟨hcover.trans (le_calcPoWQuota hs hlen hdpos hidx hd),
    (calcPoWQuota_le hs hlen hidx0 hprev).trans_lt hbefore⟩

end PoW

/-! ## The adjustment loop -/

/-- The loop stops on the first candidate from its start that scales back to `target`. -/
theorem raiseTarget_spec {qc : ℤ} {isCongestion : Bool} (hqc : isCongestion = true → 0 < qc)
    (target start : ℤ) :
    start ≤ raiseTarget qc isCongestion hqc target start ∧
      target ≤ calcStakeParam qc isCongestion (raiseTarget qc isCongestion hqc target start) ∧
      ∀ e, start ≤ e → e < raiseTarget qc isCongestion hqc target start →
        calcStakeParam qc isCongestion e < target := by
  fun_induction raiseTarget qc isCongestion hqc target start with
  | case1 start hstop => exact ⟨le_rfl, hstop, fun e he hlt => absurd he (not_le.mpr hlt)⟩
  | case2 start hgo ih =>
    obtain ⟨hle, hstop, hbelow⟩ := ih
    refine ⟨by omega, hstop, fun e he hlt => ?_⟩
    rcases eq_or_lt_of_le he with rfl | hgt
    · exact not_le.mp hgo
    · exact hbelow e (by omega) hlt

section Congested

variable {qc : ℤ} (target : ℤ)

/-- One past the start, the candidate scales back to at least `target`. -/
theorem le_calcStakeParam_start_succ (hqc : 0 < qc) :
    target ≤ calcStakeParam qc true (target * qcDivision / qc + 1) := by
  simp only [calcStakeParam, Bool.not_true, Bool.false_eq_true, if_false]
  rw [Int.le_ediv_iff_mul_le qcDivision_pos]
  exact (Int.lt_ediv_add_one_mul_self _ hqc).le

/-- One before the start, the candidate scales back below `target`. -/
theorem calcStakeParam_start_pred_lt (hqc : 0 < qc) :
    calcStakeParam qc true (target * qcDivision / qc - 1) < target := by
  simp only [calcStakeParam, Bool.not_true, Bool.false_eq_true, if_false]
  rw [Int.ediv_lt_iff_lt_mul qcDivision_pos]
  have hle := Int.ediv_mul_le (target * qcDivision) hqc.ne'
  rw [sub_one_mul]
  omega

/-- The loop raises its start at most once. -/
theorem raiseTarget_le_start_succ (hqc : 0 < qc) :
    raiseTarget qc true (fun _ => hqc) target (target * qcDivision / qc) ≤
      target * qcDivision / qc + 1 := by
  obtain ⟨-, -, hbelow⟩ := raiseTarget_spec (fun _ => hqc) target (target * qcDivision / qc)
  by_contra hgt
  exact absurd (le_calcStakeParam_start_succ target hqc)
    (not_le.mpr (hbelow _ (by omega) (by omega)))

/-- The candidate before the loop's result scales back below `target`. -/
theorem calcStakeParam_raiseTarget_pred_lt (hqc : 0 < qc) :
    calcStakeParam qc true (raiseTarget qc true (fun _ => hqc) target (target * qcDivision / qc) - 1)
      < target := by
  obtain ⟨hge, -, hbelow⟩ := raiseTarget_spec (fun _ => hqc) target (target * qcDivision / qc)
  rcases eq_or_lt_of_le hge with heq | hgt
  · rw [← heq]
    exact calcStakeParam_start_pred_lt target hqc
  · exact hbelow _ (by omega) (by omega)

end Congested

/-! ## The difficulty of a quota -/

/-- Past the checks, `CalcPoWDifficulty` is the target of the request's section. -/
theorem CalcPoWDifficulty_eq {cfg : quotaConfigParams} {box : UpgradeBox} {db : quotaDb}
    {sbHeight : ℕ} {q : Quota} {quotaRequired : ℕ} (hcur : q.current < quotaRequired)
    (hreq : quotaRequired ≤ sectionLen * quotaForSection) :
    CalcPoWDifficulty cfg box db quotaRequired q sbHeight =
      (calcStakeTargetParamByQc cfg box db
        (cfg.difficultyList.getD ((quotaRequired + quotaForSection - 1) / quotaForSection) 0)
        sbHeight).1 := by
  have hlimit : ¬quotaLimitForBlock < quotaRequired := by
    simp only [quotaLimitForBlock, sectionLen, quotaForSection] at hreq ⊢
    omega
  rw [CalcPoWDifficulty, if_neg hlimit, if_neg (not_le.mpr hcur), getIndexByQuota_eq hreq]
  rfl

/-- The PoW difficulty of a quota is the least that buys it. On a strictly increasing list of
`sectionLen + 1` difficulties whose first is not negative, for a request above the current quota
and within `sectionLen` sections, there is a difficulty `d` whose PoW quota (under the congestion
`CalcQc` reads) covers the request while that of `d - 1` does not, and `CalcPoWDifficulty`
returns it, unless the chain is congested and `d` is wider than 256 bits; the adjustment loop
raises its start at most once. -/
theorem CalcPoWDifficulty_least_sufficient (cfg : quotaConfigParams)
    (hs : cfg.difficultyList.Pairwise (· < ·)) (hlen : cfg.difficultyList.length = sectionLen + 1)
    (hfirst : 0 ≤ cfg.difficultyList.getD 0 0) (box : UpgradeBox) (db : quotaDb) (sbHeight : ℕ)
    (q : Quota) (quotaRequired : ℕ) (hcur : q.current < quotaRequired)
    (hreq : quotaRequired ≤ sectionLen * quotaForSection) :
    (∃ d, quotaRequired ≤ calcPoWQuota cfg (CalcQc cfg box db sbHeight).qc
          (CalcQc cfg box db sbHeight).isCongestion d ∧
        calcPoWQuota cfg (CalcQc cfg box db sbHeight).qc (CalcQc cfg box db sbHeight).isCongestion
          (d - 1) < quotaRequired ∧
        CalcPoWDifficulty cfg box db quotaRequired q sbHeight =
          if (CalcQc cfg box db sbHeight).isCongestion = true ∧ 2 ^ 256 ≤ d.natAbs then
            .error .ErrBlockQuotaLimitReached
          else .ok d) ∧
      ∀ (qc : ℤ) (hqc : 0 < qc) (target : ℤ),
        raiseTarget qc true (fun _ => hqc) target (target * qcDivision / qc) ≤
          target * qcDivision / qc + 1 := by
  refine ⟨?_, fun qc hqc target => raiseTarget_le_start_succ target hqc⟩
  have hq0 : 0 < quotaRequired := Nat.lt_of_le_of_lt (Nat.zero_le _) hcur
  rw [CalcPoWDifficulty_eq hcur hreq]
  simp only [calcStakeTargetParamByQc]
  generalize CalcQc cfg box db sbHeight = c
  obtain ⟨qc, globalQuota, isCongestion, hqc⟩ := c
  set target := cfg.difficultyList.getD ((quotaRequired + quotaForSection - 1) / quotaForSection) 0
  cases isCongestion with
  | false =>
    -- at rest the difficulty is the section's entry itself
    have hscaled : ∀ d, calcStakeParam qc false d = d := fun d => rfl
    obtain ⟨hcover, hbefore⟩ := sufficient_minimal_of_scaled hs hlen hfirst hqc hq0 hreq
      (show target ≤ calcStakeParam qc false target from (hscaled target).ge)
      (by rw [hscaled]; omega)
    exact ⟨target, hcover, hbefore, by simp⟩
  | true =>
    -- under congestion it is what the loop returns, refused past 256 bits
    have hpos : 0 < qc := hqc rfl
    obtain ⟨-, hstop, -⟩ := raiseTarget_spec hqc target (target * qcDivision / qc)
    obtain ⟨hcover, hbefore⟩ := sufficient_minimal_of_scaled hs hlen hfirst hqc hq0 hreq hstop
      (calcStakeParam_raiseTarget_pred_lt target hpos)
    refine ⟨_, hcover, hbefore, ?_⟩
    simp only [Bool.not_true, Bool.false_eq_true, if_false, calcStakeTargetParam, true_and]
    by_cases hwide : 2 ^ 256 ≤ (raiseTarget qc true hqc target (target * qcDivision / qc)).natAbs
    · rw [if_neg (not_lt.mpr hwide), if_pos hwide]
    · rw [if_pos (not_le.mp hwide), if_neg hwide]

/-- The difficulties `s, s + 1, …, s + sectionLen`. -/
def shiftedRange (s : ℤ) : List ℤ := (List.range (sectionLen + 1)).map fun i : ℕ => (i : ℤ) + s

theorem shiftedRange_pairwise (s : ℤ) : (shiftedRange s).Pairwise (· < ·) := by
  unfold shiftedRange
  rw [List.pairwise_map]
  exact List.pairwise_lt_range.imp fun h => by omega

theorem shiftedRange_length (s : ℤ) : (shiftedRange s).length = sectionLen + 1 := by
  rw [shiftedRange, List.length_map, List.length_range]

theorem shiftedRange_getD (s : ℤ) {i : ℕ} (hi : i ≤ sectionLen) :
    (shiftedRange s).getD i 0 = i + s := by
  rw [shiftedRange, List.getD_eq_getElem _ _ (by rw [List.length_map, List.length_range]; omega),
    List.getElem_map, List.getElem_range]

/-- A configuration with the given difficulties, no stake table, and `qcIndexMin = 1`, so that
a chain past the Dex fork with no global quota used is not congested, at ratio one. -/
def sampleConfig (difficultyList : List ℤ) : quotaConfigParams where
  difficultyList := difficultyList
  stakeAmountList := []
  qcIndexMin := 1
  qcIndexMax := 1
  qcMap := fun _ => qcDivision
  qcIndexMin_le := le_rfl
  qcMap_pos := fun _ _ _ => qcDivision_pos

theorem sampleConfig_difficultyList (difficultyList : List ℤ) :
    (sampleConfig difficultyList).difficultyList = difficultyList := rfl

/-- The Dex fork from the first snapshot on. -/
def dexBox : UpgradeBox := ⟨fun v => if v = 2 then some 0 else none⟩

def emptyDb : quotaDb where
  GetGlobalQuota := ⟨0, 0, 0⟩
  GetQuotaUsedList := fun _ => []
  GetUnconfirmedBlocks := fun _ => []
  GetLatestAccountBlock := fun _ => .ok none
  GetConfirmedTimes := fun _ => .ok 0

def zeroQuota : Quota := ⟨0, 0, 0, 0, false, 0⟩

/-- The sample configuration at a congestion ratio of one half. -/
def congestedConfig (difficultyList : List ℤ) : quotaConfigParams where
  difficultyList := difficultyList
  stakeAmountList := []
  qcIndexMin := 1
  qcIndexMax := 1
  qcMap := fun _ => qcDivision / 2
  qcIndexMin_le := le_rfl
  qcMap_pos := fun _ _ _ => by decide

theorem congestedConfig_difficultyList (difficultyList : List ℤ) :
    (congestedConfig difficultyList).difficultyList = difficultyList := rfl

/-- A chain past the Dex fork on which some global quota is used, so congested. -/
def congestedDb : quotaDb := { emptyDb with GetGlobalQuota := ⟨1, 1, 1⟩ }

/-- A request for the first section, on a chain at rest and on a congested one, where the
section's difficulty `1` doubles. -/
theorem CalcPoWDifficulty_least_sufficient_one_section :
    ((∃ d, 1 ≤ calcPoWQuota (sampleConfig (shiftedRange 0))
          (CalcQc (sampleConfig (shiftedRange 0)) dexBox emptyDb 0).qc
          (CalcQc (sampleConfig (shiftedRange 0)) dexBox emptyDb 0).isCongestion d ∧
        calcPoWQuota (sampleConfig (shiftedRange 0))
          (CalcQc (sampleConfig (shiftedRange 0)) dexBox emptyDb 0).qc
          (CalcQc (sampleConfig (shiftedRange 0)) dexBox emptyDb 0).isCongestion (d - 1) < 1 ∧
        CalcPoWDifficulty (sampleConfig (shiftedRange 0)) dexBox emptyDb 1 zeroQuota 0 =
          if (CalcQc (sampleConfig (shiftedRange 0)) dexBox emptyDb 0).isCongestion = true ∧
              2 ^ 256 ≤ d.natAbs then
            .error .ErrBlockQuotaLimitReached
          else .ok d) ∧
      ∀ (qc : ℤ) (hqc : 0 < qc) (target : ℤ),
        raiseTarget qc true (fun _ => hqc) target (target * qcDivision / qc) ≤
          target * qcDivision / qc + 1) ∧
    (CalcQc (congestedConfig (shiftedRange 0)) dexBox congestedDb 0).isCongestion = true ∧
    CalcPoWDifficulty (congestedConfig (shiftedRange 0)) dexBox congestedDb 1 zeroQuota 0 = .ok 2 ∧
    ∃ d, 1 ≤ calcPoWQuota (congestedConfig (shiftedRange 0))
          (CalcQc (congestedConfig (shiftedRange 0)) dexBox congestedDb 0).qc true d ∧
      calcPoWQuota (congestedConfig (shiftedRange 0))
          (CalcQc (congestedConfig (shiftedRange 0)) dexBox congestedDb 0).qc true (d - 1) < 1 ∧
      CalcPoWDifficulty (congestedConfig (shiftedRange 0)) dexBox congestedDb 1 zeroQuota 0 =
        if 2 ^ 256 ≤ d.natAbs then .error .ErrBlockQuotaLimitReached else .ok d := by
  have hcong : (CalcQc (congestedConfig (shiftedRange 0)) dexBox congestedDb 0).isCongestion = true := by
    decide
  obtain ⟨⟨d, hcover, hbefore, heq⟩, -⟩ :=
    CalcPoWDifficulty_least_sufficient (congestedConfig (shiftedRange 0))
    (by rw [congestedConfig_difficultyList]; exact shiftedRange_pairwise 0)
    (by rw [congestedConfig_difficultyList]; exact shiftedRange_length 0)
    (by rw [congestedConfig_difficultyList, shiftedRange_getD 0 (Nat.zero_le _)]; decide)
    dexBox congestedDb 0 zeroQuota 1 (by decide) (by decide)
  rw [hcong] at hcover hbefore heq
  refine ⟨CalcPoWDifficulty_least_sufficient (sampleConfig (shiftedRange 0))
    (by rw [sampleConfig_difficultyList]; exact shiftedRange_pairwise 0)
    (by rw [sampleConfig_difficultyList]; exact shiftedRange_length 0)
    (by rw [sampleConfig_difficultyList, shiftedRange_getD 0 (Nat.zero_le _)]; decide)
    dexBox emptyDb 0 zeroQuota 1 (by decide) (by decide), hcong, by decide +kernel, d, hcover, hbefore, ?_⟩
  rw [heq]
  simp only [true_and]

/-- With a first difficulty below zero, the first section's entry is `0`, which buys no quota:
`CalcPoWDifficulty` returns `0` for a request of one, on a chain that is not congested. -/
theorem CalcPoWDifficulty_below_zero_entry :
    (shiftedRange (-1)).Pairwise (· < ·) ∧ (shiftedRange (-1)).length = sectionLen + 1 ∧
      0 < (CalcQc (sampleConfig (shiftedRange (-1))) dexBox emptyDb 0).qc ∧
      CalcPoWDifficulty (sampleConfig (shiftedRange (-1))) dexBox emptyDb 1 zeroQuota 0 = .ok 0 ∧
      calcPoWQuota (sampleConfig (shiftedRange (-1)))
        (CalcQc (sampleConfig (shiftedRange (-1))) dexBox emptyDb 0).qc
        (CalcQc (sampleConfig (shiftedRange (-1))) dexBox emptyDb 0).isCongestion 0 = 0 :=
  ⟨shiftedRange_pairwise _, shiftedRange_length _, by decide, by
    rw [CalcPoWDifficulty_eq (by decide) (by decide), sampleConfig_difficultyList,
      shiftedRange_getD _ (by decide)]
    decide, calcPoWQuota_of_nonpos le_rfl⟩

/-! ## The quota of a block within its limit -/

theorem calcStakeQuota_le (cfg : quotaConfigParams) (qc : ℤ) (isCongestion : Bool)
    (stakeAmount : ℤ) :
    calcStakeQuota cfg qc isCongestion stakeAmount ≤ sectionLen * quotaForSection := by
  unfold calcStakeQuota
  split_ifs
  · exact Nat.zero_le _
  · exact calcQuotaByIndex_le _

theorem calcPoWQuota_le_max (cfg : quotaConfigParams) (qc : ℤ) (isCongestion : Bool)
    (difficulty : ℤ) :
    calcPoWQuota cfg qc isCongestion difficulty ≤ sectionLen * quotaForSection := by
  unfold calcPoWQuota
  split_ifs
  · exact Nat.zero_le _
  · exact calcQuotaByIndex_le _

/-- Over snapshots that do not wrap the sum, the loop gains at most the stake quota of each. -/
theorem foldl_addSnapshot_le (s : ℕ) (l : List QuotaInfo) (t : Totals)
    (h : t.quotaTotal + l.length * s < 2 ^ 64) :
    (l.foldl (Totals.addSnapshot s) t).quotaTotal ≤ t.quotaTotal + l.length * s := by
  induction l generalizing t with
  | nil => simp
  | cons q l ih =>
    rw [List.length_cons, add_one_mul] at h ⊢
    have hstep : (t.addSnapshot s q).quotaTotal ≤ t.quotaTotal + s := by
      simp only [Totals.addSnapshot]
      rw [Nat.mod_eq_of_lt (by omega)]
      split_ifs <;> omega
    have hrest := ih (t.addSnapshot s q) (by omega)
    rw [List.foldl_cons]
    omega

/-- The quota of a window of snapshots is at most its stake quota times its length. -/
theorem window_quotaTotal_le (s : ℕ) (quotaList : List QuotaInfo)
    (h : quotaList.length * s < 2 ^ 64) :
    ((quotaList.dropLast.foldl (Totals.addSnapshot s) ⟨0, 0, 0⟩).addLast s
      quotaList.getLast?).1.quotaTotal ≤ quotaList.length * s := by
  cases hlast : quotaList.getLast? with
  | none =>
    rw [List.getLast?_eq_none_iff] at hlast
    subst hlast
    simp [Totals.addLast]
  | some q =>
    obtain ⟨k, hk⟩ : ∃ k, quotaList.length = k + 1 :=
      Nat.exists_eq_add_one_of_ne_zero (List.length_pos_of_mem (List.mem_of_getLast? hlast)).ne'
    rw [hk, add_one_mul] at h ⊢
    have hfold := foldl_addSnapshot_le s quotaList.dropLast ⟨0, 0, 0⟩
      (by rw [List.length_dropLast, hk, Nat.add_sub_cancel]; dsimp only; omega)
    rw [List.length_dropLast, hk, Nat.add_sub_cancel] at hfold
    dsimp only at hfold
    simp only [Totals.addLast]
    rw [Nat.mod_eq_of_lt (by omega)]
    omega

section Window

variable {cfg : quotaConfigParams} {box : UpgradeBox} {db : quotaDb} {addr : Address}
  {stakeAmount difficulty : ℤ} {sbHeight : ℕ}

/-- With a window too short to wrap uint64, the quota `calcQuotaTotal` returns holds its PoW part,
and is zero for a blocked contract. -/
theorem calcQuotaTotal_addition_le
    (hwindow : ((db.GetQuotaUsedList addr).length + 1) * (sectionLen * quotaForSection) < 2 ^ 64)
    (herr : (calcQuotaTotal cfg box db addr stakeAmount difficulty sbHeight).err = none) :
    (calcQuotaTotal cfg box db addr stakeAmount difficulty sbHeight).quotaAddition ≤
        (calcQuotaTotal cfg box db addr stakeAmount difficulty sbHeight).quotaTotal ∧
      ((isBlocked db addr).1 = true →
        (calcQuotaTotal cfg box db addr stakeAmount difficulty sbHeight).quotaTotal = 0) := by
  rcases hb : isBlocked db addr with ⟨blocked, blockReleaseHeight, _ | err⟩
  · simp only [calcQuotaTotal, hb] at herr ⊢
    have hs := calcStakeQuota_le cfg (CalcQc cfg box db sbHeight).qc
      (CalcQc cfg box db sbHeight).isCongestion stakeAmount
    have ha := calcPoWQuota_le_max cfg (CalcQc cfg box db sbHeight).qc
      (CalcQc cfg box db sbHeight).isCongestion difficulty
    generalize calcStakeQuota cfg (CalcQc cfg box db sbHeight).qc
      (CalcQc cfg box db sbHeight).isCongestion stakeAmount = s at *
    generalize calcPoWQuota cfg (CalcQc cfg box db sbHeight).qc
      (CalcQc cfg box db sbHeight).isCongestion difficulty = a at *
    generalize db.GetQuotaUsedList addr = quotaList at *
    -- the window's quota and the PoW quota are each at most the whole of `sectionLen` sections
    have hstake : quotaList.length * s ≤ quotaList.length * (sectionLen * quotaForSection) :=
      Nat.mul_le_mul_left _ hs
    rw [add_one_mul] at hwindow
    have hwin := window_quotaTotal_le s quotaList (by omega)
    generalize (quotaList.dropLast.foldl (Totals.addSnapshot s) ⟨0, 0, 0⟩).addLast s
      quotaList.getLast? = last at *
    by_cases hunconfirmed : last.2.2 ≤ last.1.quotaTotal
    · rw [if_pos hunconfirmed]
      cases blocked with
      | true => exact ⟨le_rfl, fun _ => rfl⟩
      | false =>
        simp only [Bool.false_eq_true, if_false]
        rw [Nat.mod_eq_of_lt (by omega)]
        exact ⟨Nat.le_add_left _ _, nofun⟩
    · rw [if_neg hunconfirmed] at herr
      cases herr
  · simp [calcQuotaTotal, hb] at herr

theorem calcQuotaV3_addition_le
    (hwindow : ((db.GetQuotaUsedList addr).length + 1) * (sectionLen * quotaForSection) < 2 ^ 64)
    (herr : (calcQuotaV3 cfg box db addr stakeAmount difficulty sbHeight).err = none) :
    (calcQuotaV3 cfg box db addr stakeAmount difficulty sbHeight).quotaAddition ≤
        (calcQuotaV3 cfg box db addr stakeAmount difficulty sbHeight).quotaTotal ∧
      ((isBlocked db addr).1 = true →
        (calcQuotaV3 cfg box db addr stakeAmount difficulty sbHeight).quotaTotal = 0) := by
  unfold calcQuotaV3 at herr ⊢
  -- a second PoW in the snapshot is refused with `ErrCalcPoWTwice`
  split_ifs at herr ⊢
  exact calcQuotaTotal_addition_le hwindow herr

end Window

/-- What a block used, with uint64 operands and `quotaLeft ≤ quotaTotal`: when it uses quota and
did not run out, the PoW part first, then the stake part; otherwise nothing. -/
theorem CalcQuotaUsed_eq {quotaTotal quotaAddition quotaLeft : ℕ} (htotal : quotaTotal < 2 ^ 64)
    (hleft : quotaLeft ≤ quotaTotal) (useQuota : Bool) (err : Option VmError) :
    CalcQuotaUsed useQuota quotaTotal quotaAddition quotaLeft err =
      if useQuota = true ∧ err ≠ some .ErrOutOfQuota then
        (quotaTotal - quotaLeft - min (quotaTotal - quotaLeft) quotaAddition, quotaTotal - quotaLeft)
      else (0, 0) := by
  have hsub : (quotaTotal + 2 ^ 64 - quotaLeft) % 2 ^ 64 = quotaTotal - quotaLeft := by
    rw [show quotaTotal + 2 ^ 64 - quotaLeft = quotaTotal - quotaLeft + 2 ^ 64 by omega,
      Nat.add_mod_right, Nat.mod_eq_of_lt (by omega)]
  cases useQuota with
  | false => rfl
  | true =>
    by_cases hout : err = some .ErrOutOfQuota
    · simp [CalcQuotaUsed, hout]
    · simp only [CalcQuotaUsed, Bool.not_true, Bool.false_eq_true, if_false, hout, hsub, true_and,
        ne_eq, not_false_eq_true, if_true]
      split_ifs with hpow
      · rw [Nat.min_eq_left hpow.le, Nat.sub_self]
      · rw [Nat.min_eq_right (Nat.le_of_not_lt hpow)]

/-- The quota of a block stays within the block limit and holds its PoW part, and a blocked
contract has none, for a quota-used window too short to wrap uint64. Of that quota, a block that
uses quota and does not run out used `quotaTotal - quotaLeft`, the PoW part first; one that uses
no quota, or runs out, used nothing. -/
theorem GetQuotaForBlock_within_limit (cfg : quotaConfigParams) (box : UpgradeBox) (db : quotaDb)
    (addr : Address) (stakeAmount difficulty : ℤ) (sbHeight : ℕ)
    (hwindow : ((db.GetQuotaUsedList addr).length + 1) * (sectionLen * quotaForSection) < 2 ^ 64)
    (quotaTotal quotaAddition : ℕ)
    (hok : GetQuotaForBlock cfg box db addr stakeAmount difficulty sbHeight =
      .ok (quotaTotal, quotaAddition)) :
    quotaAddition ≤ quotaTotal ∧ quotaTotal ≤ quotaLimitForBlock ∧
      ((isBlocked db addr).1 = true → quotaTotal = 0) ∧
      ∀ useQuota quotaLeft err, quotaLeft ≤ quotaTotal →
        (useQuota = true → err ≠ some .ErrOutOfQuota →
          (CalcQuotaUsed useQuota quotaTotal quotaAddition quotaLeft err).2 =
              quotaTotal - quotaLeft ∧
            (CalcQuotaUsed useQuota quotaTotal quotaAddition quotaLeft err).1 ≤
              (CalcQuotaUsed useQuota quotaTotal quotaAddition quotaLeft err).2 ∧
            (CalcQuotaUsed useQuota quotaTotal quotaAddition quotaLeft err).2 -
                (CalcQuotaUsed useQuota quotaTotal quotaAddition quotaLeft err).1 ≤
              quotaAddition) ∧
        ((useQuota = false ∨ err = some .ErrOutOfQuota) →
          CalcQuotaUsed useQuota quotaTotal quotaAddition quotaLeft err = (0, 0)) := by
  -- the bounds of the result, from those of `calcQuotaV3` and the clipping
  have hbounds : quotaAddition ≤ quotaTotal ∧ quotaTotal ≤ quotaLimitForBlock ∧
      ((isBlocked db addr).1 = true → quotaTotal = 0) := by
    unfold GetQuotaForBlock at hok
    dsimp only at hok
    split at hok
    · cases hok
    · next herr =>
      obtain ⟨hpow, hblocked⟩ := calcQuotaV3_addition_le hwindow herr
      split_ifs at hok with hover hpowover
      · cases hok
        exact ⟨le_rfl, le_rfl, fun h => absurd (hblocked h) (by omega)⟩
      · cases hok
        exact ⟨Nat.le_of_not_lt hpowover, le_rfl, fun h => absurd (hblocked h) (by omega)⟩
      · cases hok
        exact ⟨hpow, Nat.le_of_not_lt hover, hblocked⟩
  obtain ⟨hpow, hlimit, hblocked⟩ := hbounds
  refine ⟨hpow, hlimit, hblocked, fun useQuota quotaLeft err hleft => ⟨fun huse hout => ?_, ?_⟩⟩
  · have htotal : quotaTotal < 2 ^ 64 := by simp only [quotaLimitForBlock] at hlimit; omega
    rw [CalcQuotaUsed_eq htotal hleft, if_pos ⟨huse, hout⟩]
    exact ⟨rfl, Nat.sub_le _ _, by omega⟩
  · rintro (rfl | rfl)
    · rfl
    · simp [CalcQuotaUsed]

/-- The sample configuration with the stake amounts `0, 1, …, sectionLen` too. -/
def windowConfig : quotaConfigParams := { sampleConfig (shiftedRange 0) with stakeAmountList := shiftedRange 0 }

/-- An account with a window of two snapshots: one whose blocks used `100`, and the unconfirmed
blocks, which used `50`. -/
def windowDb : quotaDb := { emptyDb with GetQuotaUsedList := fun _ => [⟨1, 100, 100⟩, ⟨1, 50, 50⟩] }

/-- A stake of two sections and a difficulty of one on that window: each snapshot brings `560`,
the first less the `100` it used, the unconfirmed `50` is taken off, and the PoW brings `280`. -/
theorem GetQuotaForBlock_within_limit_window :
    GetQuotaForBlock windowConfig dexBox windowDb [] 2 1 0 = .ok (1250, 280) ∧
      280 ≤ 1250 ∧ 1250 ≤ quotaLimitForBlock ∧ ((isBlocked windowDb []).1 = true → 1250 = 0) ∧
      ∀ useQuota quotaLeft err, quotaLeft ≤ 1250 →
        (useQuota = true → err ≠ some .ErrOutOfQuota →
          (CalcQuotaUsed useQuota 1250 280 quotaLeft err).2 = 1250 - quotaLeft ∧
            (CalcQuotaUsed useQuota 1250 280 quotaLeft err).1 ≤
              (CalcQuotaUsed useQuota 1250 280 quotaLeft err).2 ∧
            (CalcQuotaUsed useQuota 1250 280 quotaLeft err).2 -
                (CalcQuotaUsed useQuota 1250 280 quotaLeft err).1 ≤ 280) ∧
        ((useQuota = false ∨ err = some .ErrOutOfQuota) →
          CalcQuotaUsed useQuota 1250 280 quotaLeft err = (0, 0)) := by
  have hok : GetQuotaForBlock windowConfig dexBox windowDb [] 2 1 0 = .ok (1250, 280) := by decide +kernel
  exact ⟨hok, GetQuotaForBlock_within_limit windowConfig dexBox windowDb [] 2 1 0 (by decide) 1250 280 hok⟩

/-- A difficulty of one buys one section on the difficulties `0, 1, …, sectionLen`. -/
theorem calcPoWQuota_shiftedRange_one :
    calcPoWQuota (sampleConfig (shiftedRange 0))
      (CalcQc (sampleConfig (shiftedRange 0)) dexBox emptyDb 0).qc
      (CalcQc (sampleConfig (shiftedRange 0)) dexBox emptyDb 0).isCongestion 1 = 280 := by
  have hs : (sampleConfig (shiftedRange 0)).difficultyList.Pairwise (· < ·) := by
    rw [sampleConfig_difficultyList]
    exact shiftedRange_pairwise 0
  have hlen : (sampleConfig (shiftedRange 0)).difficultyList.length = sectionLen + 1 := by
    rw [sampleConfig_difficultyList]
    exact shiftedRange_length 0
  have hentry : ∀ i ≤ sectionLen, (sampleConfig (shiftedRange 0)).difficultyList.getD i 0 = i := by
    intro i hi
    rw [sampleConfig_difficultyList, shiftedRange_getD 0 hi, add_zero]
  -- the search lands on section one: entry `1` is reached, entry `2` is not
  have hge := @le_calcPoWQuota (sampleConfig (shiftedRange 0))
    (CalcQc (sampleConfig (shiftedRange 0)) dexBox emptyDb 0).qc
    (CalcQc (sampleConfig (shiftedRange 0)) dexBox emptyDb 0).isCongestion hs hlen 1 (by decide) 1
    (by decide) (by rw [hentry 1 (by decide)]; decide)
  have hle := @calcPoWQuota_le (sampleConfig (shiftedRange 0))
    (CalcQc (sampleConfig (shiftedRange 0)) dexBox emptyDb 0).qc
    (CalcQc (sampleConfig (shiftedRange 0)) dexBox emptyDb 0).isCongestion hs hlen 1 2 (by decide)
    (by rw [hentry 2 (by decide)]; decide)
  simp only [quotaForSection] at hge hle
  omega

/-- A block given one section of PoW quota that runs out of quota is charged nothing. -/
theorem CalcQuotaUsed_out_of_quota :
    GetQuotaForBlock (sampleConfig (shiftedRange 0)) dexBox emptyDb [] 0 1 0 = .ok (280, 280) ∧
      CalcQuotaUsed true 280 280 0 (some .ErrOutOfQuota) = (0, 0) := by
  refine ⟨?_, rfl⟩
  simp only [GetQuotaForBlock, calcQuotaV3, calcQuotaTotal, calcPoWQuota_shiftedRange_one]
  decide

end Vite.BlockQuota
