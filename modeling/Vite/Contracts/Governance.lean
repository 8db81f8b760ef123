import Mathlib.Algebra.BigOperators.Ring.List
import Mathlib.Tactic.Positivity
import Mathlib.Tactic.Ring
import Vite.Contracts.Asset
import Vite.Vm.Abi
import Vite.Vm.Quota

/-!
# The snapshot block producers' rewards

`MethodRegister`, `MethodRevoke` and `MethodWithdrawReward` of vm/contracts/contracts_governance.go
on the registrations of the snapshot consensus group, with `calcReward` and the consensus reader's
day index (vm/util/consensus_reader.go). A registration keeps in `RewardTime` the time from which
its reward is still due, `-1` once all of it is paid; a withdrawal pays the whole days from the
first that starts at `RewardTime` or later to the last that ends an hour before the snapshot
block, and moves `RewardTime` to the end of that last day.
-/

namespace Vite.Contracts.Governance

open AssocList Vite.Vm

/-- `rewardTimeLimit`: the last hour is not rewarded yet, its snapshot blocks may be reverted. -/
def rewardTimeLimit : ℤ := 3600

/-- `rewardPerBlock`, in attov. -/
def rewardPerBlock : ℕ := 951293759512937595

/-- `SbpStakeAmountPreMainnet`: 500,000 VITE. -/
def SbpStakeAmountPreMainnet : ℕ := 500000 * 10 ^ 18

/-- `SbpStakeAmountMainnet`: 1,000,000 VITE. -/
def SbpStakeAmountMainnet : ℕ := 1000000 * 10 ^ 18

/-- `ledger.ViteTokenId`. -/
def ViteTokenId : TokenTypeId := [0x56, 0x49, 0x54, 0x45, 0x20, 0x54, 0x4f, 0x4b, 0x45, 0x4e]

/-! ## The consensus reader -/

/-- The reader's day index on Unix seconds: day `index` runs from
`GenesisTime + index * Interval` to the next day's start. -/
structure DayIndex where
  GenesisTime : ℤ
  Interval : ℕ
  deriving DecidableEq, Repr

/-- `getIndexByTime`: `Time2Index` of the day index. -/
def DayIndex.getIndexByTime (r : DayIndex) (t : ℤ) : ℕ :=
  ((t - r.GenesisTime) / r.Interval).toNat

/-- `getStartTimeByIndex`. -/
def DayIndex.getStartTimeByIndex (r : DayIndex) (index : ℕ) : ℤ :=
  r.GenesisTime + index * r.Interval

/-- `getEndTimeByIndex`. -/
def DayIndex.getEndTimeByIndex (r : DayIndex) (index : ℕ) : ℤ :=
  r.GenesisTime + (index + 1) * r.Interval

/-- `GetIndexByStartTime`: the first day starting at `t` or later and its start time, or that the
reward is drained (`t = -1`). -/
def GetIndexByStartTime (r : DayIndex) (t genesisTime : ℤ) : ℕ × ℤ × Bool :=
  if t < 0 then (0, 0, true)
  else if t ≤ genesisTime then (0, genesisTime, false)
  else
    let index := r.getIndexByTime (t - 1) + 1
    (index, r.getStartTimeByIndex index, false)

/-- `GetIndexByEndTime`: the last day ending at `t` or earlier and its end time, or that no day
has ended by `t`. -/
def GetIndexByEndTime (r : DayIndex) (t genesisTime : ℤ) : ℕ × ℤ × Bool :=
  if t < genesisTime then (0, genesisTime, true)
  else
    let index := r.getIndexByTime t
    if index = 0 then (0, genesisTime, true)
    else (index - 1, r.getEndTimeByIndex (index - 1), false)

/-- An SBP's line of a day's statistics. -/
structure SbpStats where
  VoteCnt : ℕ
  BlockNum : ℕ
  ExceptedBlockNum : ℕ
  deriving DecidableEq, Repr

/-- `core.DayStats`: the SBPs' lines by name (a map: each name once), the blocks of the day and
the votes. -/
structure DayStats where
  Index : ℕ
  Stats : List (String × SbpStats)
  BlockTotal : ℕ
  VoteSum : ℕ
  nodup_names : (Stats.map Prod.fst).Nodup
  deriving Repr

/-- `VMConsensusReader`: the day index and the statistics of each day, which know their day. -/
structure ConsensusReader where
  dayIndex : DayIndex
  dayStats : ℕ → DayStats
  index_dayStats : ∀ index, (dayStats index).Index = index

/-- `GetConsensusDetailByDay`: the days from `startIndex` to `endIndex`. -/
def ConsensusReader.GetConsensusDetailByDay (r : ConsensusReader) (startIndex endIndex : ℕ) :
    List DayStats :=
  (List.range' startIndex (endIndex + 1 - startIndex)).map r.dayStats

/-- `GetIndexByTime`. -/
def ConsensusReader.GetIndexByTime (r : ConsensusReader) (t genesisTime : ℤ) : ℕ :=
  if t < genesisTime then 0 else r.dayIndex.getIndexByTime t

/-! ## Rewards -/

/-- `Reward`, in attov. -/
structure Reward where
  VoteReward : ℕ
  BlockReward : ℕ
  TotalReward : ℕ
  BlockNum : ℕ
  ExpectedBlockNum : ℕ
  deriving DecidableEq, Repr

def newZeroReward : Reward := ⟨0, 0, 0, 0, 0⟩

/-- `Reward.add`: the three amounts add up. -/
def Reward.add (r a : Reward) : Reward :=
  { r with
    VoteReward := r.VoteReward + a.VoteReward
    BlockReward := r.BlockReward + a.BlockReward
    TotalReward := r.TotalReward + a.TotalReward }

/-- `calcRewardByDayDetail`: half the day's block reward shared by produced blocks and votes with
the stake, half by produced blocks alone. -/
def calcRewardByDayDetail (detail : DayStats) (name : String) (stakeAmount : ℕ) : Reward :=
  match find? name detail.Stats with
  | none => newZeroReward
  | some selfDetail =>
    if selfDetail.ExceptedBlockNum = 0 then newZeroReward
    else
      let voteReward := (selfDetail.VoteCnt + stakeAmount) * detail.BlockTotal * 50 *
          rewardPerBlock * selfDetail.BlockNum /
          (detail.Stats.length * stakeAmount + detail.VoteSum) / selfDetail.ExceptedBlockNum / 100
      let blockReward := selfDetail.BlockNum * 50 * rewardPerBlock / 100
      ⟨voteReward, blockReward, voteReward + blockReward, selfDetail.BlockNum,
        selfDetail.ExceptedBlockNum⟩

/-- `types.Registration` of the snapshot group, as `GetRegistration` decodes it. -/
structure Registration where
  Name : String
  BlockProducingAddress : Address
  RewardWithdrawAddress : Address
  StakeAddress : Address
  Amount : ℕ
  ExpirationHeight : ℕ
  RewardTime : ℤ
  RevokeTime : ℤ
  HisAddrList : List Address
  deriving DecidableEq, Repr

def Registration.IsActive (r : Registration) : Bool := r.RevokeTime == 0

/-- What a receive reads besides the contract's storage: the fork points, the snapshot block the
receive refers to, the height of the latest snapshot block (which decides the forks), the genesis
and Leaf fork snapshot blocks' times, and the consensus reader. -/
structure Env where
  box : UpgradeBox
  snapshotHeight : ℕ
  snapshotTimestamp : ℤ
  latestHeight : ℕ
  genesisTime : ℤ
  leafForkTime : ℤ
  reader : ConsensusReader

/-- `getRewardTimeLimit`. -/
def getRewardTimeLimit (env : Env) : ℤ := env.snapshotTimestamp - rewardTimeLimit

/-- `getSnapshotGroupStakeAmount` for day `index`, with the Leaf fork's day as far as it is
known. -/
def getSnapshotGroupStakeAmount (env : Env) (index forkIndex : ℕ) : ℕ × ℕ :=
  if !IsLeafUpgrade env.box env.latestHeight then (SbpStakeAmountPreMainnet, 0)
  else
    let forkIndex :=
      if forkIndex = 0 then env.reader.GetIndexByTime env.leafForkTime env.genesisTime
      else forkIndex
    if index ≤ forkIndex then (SbpStakeAmountPreMainnet, forkIndex)
    else (SbpStakeAmountMainnet, forkIndex)

/-- The loop of `calcReward` over the days' details. -/
def addDayRewards (env : Env) (name : String) : List DayStats → ℕ → Reward → Reward
  | [], _, reward => reward
  | detail :: details, forkIndex, reward =>
    let (stakeAmount, forkIndex) := getSnapshotGroupStakeAmount env detail.Index forkIndex
    addDayRewards env name details forkIndex
      (reward.add (calcRewardByDayDetail detail name stakeAmount))

/-- The end of the days due in `calcReward`: the last day ending by the time limit, or by the
revocation when that is earlier, which drains the registration. -/
def rewardEnd (env : Env) (old : Registration) : ℕ × ℤ × Bool × Bool :=
  let timeLimit := getRewardTimeLimit env
  if !old.IsActive then
    let (endIndex, endTime, withinOneDayFlag) :=
      GetIndexByEndTime env.reader.dayIndex old.RevokeTime env.genesisTime
    if endTime ≤ timeLimit then (endIndex, endTime, withinOneDayFlag, true)
    else
      let (endIndex, endTime, withinOneDayFlag) :=
        GetIndexByEndTime env.reader.dayIndex timeLimit env.genesisTime
      (endIndex, endTime, withinOneDayFlag, false)
  else
    let (endIndex, endTime, withinOneDayFlag) :=
      GetIndexByEndTime env.reader.dayIndex timeLimit env.genesisTime
    (endIndex, endTime, withinOneDayFlag, false)

/-- `calcReward`: the start and end of the days due, their reward, and whether the registration
is drained by them. -/
def calcReward (env : Env) (old : Registration) : ℤ × ℤ × Option Reward × Bool :=
  let (startIndex, startTime, drained) :=
    GetIndexByStartTime env.reader.dayIndex old.RewardTime env.genesisTime
  if drained then (0, 0, none, true)
  else
    let (endIndex, endTime, withinOneDayFlag, drained) := rewardEnd env old
    if withinOneDayFlag ∨ startIndex > endIndex then
      (startTime, endTime, some newZeroReward, drained)
    else
      let details := env.reader.GetConsensusDetailByDay startIndex endIndex
      (startTime, endTime, some (addDayRewards env old.Name details 0 newZeroReward), drained)

/-- `RewardDrained`. -/
def RewardDrained (reward : Option Reward) (drained : Bool) : Bool :=
  drained && match reward with
    | none => true
    | some reward => reward.TotalReward == 0

/-- `checkRewardDrained`. -/
def checkRewardDrained (env : Env) (old : Registration) : Bool :=
  let (_, _, reward, drained) := calcReward env old
  RewardDrained reward drained

/-! ## The receives -/

/-- The field of `types.ConsensusGroupInfo` the register reads: the ABI encoding of the
group's `registerStakeParam`. -/
structure ConsensusGroupInfo where
  RegisterConditionParam : List UInt8
  deriving DecidableEq, Repr

/-- The inputs of the governance ABI's variable `registerStakeParam`: `stakeAmount`, `stakeToken`
and `stakeHeight`. -/
def registerStakeParamInputs : List Abi.Ty := [.UintTy 256, .TokenIdTy, .UintTy 64]

/-- The field of `VariableRegisterStakeParam` the register reads; `GetRegisterStakeParamOfConsensusGroup`
sets `StakeAmount` to `nil`, and nothing reads `StakeToken`. -/
structure VariableRegisterStakeParam where
  StakeHeight : ℕ
  deriving DecidableEq, Repr

/-- `GetRegisterStakeParamOfConsensusGroup`: `UnpackVariable` of `registerStakeParam`. An empty
input is `errEmptyInput`, and `Arguments.Unpack` assigns no field when `UnpackValues` fails, so on
an error the stake height is left `0`; the register drops the error. -/
def GetRegisterStakeParamOfConsensusGroup (data : List UInt8) : VariableRegisterStakeParam :=
  if data.length = 0 then ⟨0⟩
  else match Abi.UnpackValues registerStakeParamInputs data with
    | .ok [_, _, .int stakeHeight] => ⟨stakeHeight.toNat⟩
    | _ => ⟨0⟩

/-- The contract's storage for the snapshot group: the registrations by name, the name each
block producing address was first registered under (`GetHisNameKey`), and the group's info as
`GetConsensusGroup` reads it, `none` where nothing is stored. -/
structure GovernanceDb where
  registrations : List (String × Registration)
  hisNames : List (Address × String)
  snapshotGroup : Option ConsensusGroupInfo
  deriving DecidableEq, Repr

/-- Write a registration under the name of the request, in the layout of the fork: before Earth
the layout has no withdraw address, and `GetRegistration` reads the stake address for it. -/
def GovernanceDb.setRegistration (db : GovernanceDb) (isEarth : Bool) (sbpName : String)
    (reg : Registration) : GovernanceDb :=
  { db with
    registrations := insert sbpName
      (if isEarth then reg else { reg with RewardWithdrawAddress := reg.StakeAddress })
      db.registrations }

inductive GovernanceError where
  | ErrInvalidMethodParam
  | ErrRewardIsNotDrained
  deriving DecidableEq, Repr

/-- The fields of the send block the receives read. -/
structure SendBlock where
  AccountAddress : Address
  Amount : ℕ
  TokenId : TokenTypeId
  deriving DecidableEq, Repr

/-- `ParamRegister`; the methods before `RegisterV3` withdraw to the sender. -/
structure ParamRegister where
  SbpName : String
  BlockProducingAddress : Address
  RewardWithdrawAddress : Address
  deriving DecidableEq, Repr

/-- `MethodRegister.DoReceive` for the snapshot group. -/
def MethodRegister.DoReceive (env : Env) (db : GovernanceDb) (sendBlock : SendBlock)
    (param : ParamRegister) : Except GovernanceError GovernanceDb := do
  let isLeafFork := IsLeafUpgrade env.box env.latestHeight
  if (!isLeafFork ∧ sendBlock.Amount ≠ SbpStakeAmountPreMainnet) ∨
      (isLeafFork ∧ sendBlock.Amount ≠ SbpStakeAmountMainnet) ∨ sendBlock.TokenId ≠ ViteTokenId then
    throw .ErrInvalidMethodParam
  let rewardTime := env.snapshotTimestamp
  let hisAddrList ← match find? param.SbpName db.registrations with
    | none => pure []
    | some old =>
      if old.IsActive ∨ old.StakeAddress ≠ sendBlock.AccountAddress then
        throw .ErrInvalidMethodParam
      else if !checkRewardDrained env old then throw .ErrRewardIsNotDrained
      else pure old.HisAddrList
  let (db, hisAddrList) ← match find? param.BlockProducingAddress db.hisNames with
    | none =>
      pure ({ db with hisNames := insert param.BlockProducingAddress param.SbpName db.hisNames },
        hisAddrList ++ [param.BlockProducingAddress])
    | some hisName =>
      if hisName ≠ param.SbpName then throw .ErrInvalidMethodParam else pure (db, hisAddrList)
  let some groupInfo := db.snapshotGroup | throw .ErrInvalidMethodParam
  let stakeParam := GetRegisterStakeParamOfConsensusGroup groupInfo.RegisterConditionParam
  return db.setRegistration (IsEarthUpgrade env.box env.latestHeight) param.SbpName
    { Name := param.SbpName
      BlockProducingAddress := param.BlockProducingAddress
      RewardWithdrawAddress := param.RewardWithdrawAddress
      StakeAddress := sendBlock.AccountAddress
      Amount := sendBlock.Amount
      ExpirationHeight := env.snapshotHeight + stakeParam.StakeHeight
      RewardTime := rewardTime
      RevokeTime := 0
      HisAddrList := hisAddrList }

/-- A send of VITE the contract emits. -/
structure Send where
  ToAddress : Address
  Amount : ℕ
  deriving DecidableEq, Repr

/-- `MethodRevoke.DoReceive`: the stake goes back, and the registration keeps its reward time
unless the reward is drained. -/
def MethodRevoke.DoReceive (env : Env) (db : GovernanceDb) (sender : Address) (sbpName : String) :
    Except GovernanceError (GovernanceDb × List Send) := do
  let some old := find? sbpName db.registrations | throw .ErrInvalidMethodParam
  if !old.IsActive ∨ old.StakeAddress ≠ sender ∨ old.ExpirationHeight > env.snapshotHeight then
    throw .ErrInvalidMethodParam
  let rewardTime := if checkRewardDrained env old then -1 else old.RewardTime
  let db := db.setRegistration (IsEarthUpgrade env.box env.snapshotHeight) sbpName
    { old with
      Amount := 0
      ExpirationHeight := 0
      RewardTime := rewardTime
      RevokeTime := env.snapshotTimestamp }
  return (db, if 0 < old.Amount then [⟨sender, old.Amount⟩] else [])

/-- A re-issue of VITE to the receive address the contract asks the asset contract for. -/
structure ReIssue where
  Amount : ℕ
  ReceiveAddress : Address
  deriving DecidableEq, Repr

/-- `MethodWithdrawReward.DoReceive`: the reward due is re-issued to `receiveAddress`, and the
registration's reward time moves to the end of the days paid, `-1` once it is drained. -/
def MethodWithdrawReward.DoReceive (env : Env) (db : GovernanceDb) (sender : Address)
    (sbpName : String) (receiveAddress : Address) :
    Except GovernanceError (GovernanceDb × List ReIssue) := do
  let some old := find? sbpName db.registrations | throw .ErrInvalidMethodParam
  if old.RewardTime = -1 ∨ (sender ≠ old.StakeAddress ∧ sender ≠ old.RewardWithdrawAddress) then
    throw .ErrInvalidMethodParam
  let (_, endTime, reward, drained) := calcReward env old
  let endTime := if drained then -1 else endTime
  if endTime ≠ old.RewardTime then
    let db := db.setRegistration (IsEarthUpgrade env.box env.latestHeight) sbpName
      { old with RewardTime := endTime }
    match reward with
    | some reward =>
      if 0 < reward.TotalReward then return (db, [⟨reward.TotalReward, receiveAddress⟩])
      else return (db, [])
    | none => return (db, [])
  else return (db, [])

/-! ## The reward of a day -/

/-- Truncating each term of a sum loses at least as much as truncating the sum. -/
theorem sum_map_div_le {α : Type*} (l : List α) (f : α → ℕ) (c : ℕ) :
    (l.map fun a => f a / c).sum ≤ (l.map f).sum / c := by
  induction l with
  | nil => simp
  | cons a l ih =>
    simp only [List.map_cons, List.sum_cons]
    exact (Nat.add_le_add_left ih _).trans Nat.div_add_div_le_add_div

/-- The weights of the vote shares, a line's votes and the stake, add up to the divisor. -/
theorem sum_voteWeights (stats : List (String × SbpStats)) (stakeAmount : ℕ) :
    (stats.map fun e => e.2.VoteCnt + stakeAmount).sum =
      stats.length * stakeAmount + (stats.map fun e => e.2.VoteCnt).sum := by
  induction stats with
  | nil => simp
  | cons e stats ih =>
    simp only [List.map_cons, List.sum_cons, List.length_cons, ih]
    ring

theorem calcRewardByDayDetail_TotalReward (detail : DayStats) (name : String)
    (stakeAmount : ℕ) :
    (calcRewardByDayDetail detail name stakeAmount).TotalReward =
      (calcRewardByDayDetail detail name stakeAmount).VoteReward +
        (calcRewardByDayDetail detail name stakeAmount).BlockReward := by
  unfold calcRewardByDayDetail
  split
  · rfl
  · split_ifs <;> rfl

theorem calcRewardByDayDetail_eq_zero {detail : DayStats} {name : String} (stakeAmount : ℕ)
    (hzero : ∀ selfDetail, find? name detail.Stats = some selfDetail →
      selfDetail.ExceptedBlockNum = 0) :
    calcRewardByDayDetail detail name stakeAmount = newZeroReward := by
  unfold calcRewardByDayDetail
  split
  · rfl
  · next selfDetail hfind => rw [if_pos (hzero selfDetail hfind)]

/-- The reward of a line of the day that holds its entry. -/
theorem calcRewardByDayDetail_of_mem {detail : DayStats} {e : String × SbpStats}
    (he : e ∈ detail.Stats) (stakeAmount : ℕ) :
    calcRewardByDayDetail detail e.1 stakeAmount =
      if e.2.ExceptedBlockNum = 0 then newZeroReward
      else
        let voteReward := (e.2.VoteCnt + stakeAmount) * detail.BlockTotal * 50 *
            rewardPerBlock * e.2.BlockNum /
            (detail.Stats.length * stakeAmount + detail.VoteSum) / e.2.ExceptedBlockNum / 100
        let blockReward := e.2.BlockNum * 50 * rewardPerBlock / 100
        ⟨voteReward, blockReward, voteReward + blockReward, e.2.BlockNum, e.2.ExceptedBlockNum⟩ := by
  rw [calcRewardByDayDetail, find?_of_mem detail.nodup_names he]

/-- Producing no more blocks than expected, a line's vote reward is at most its weight's share of
half the day's reward. -/
theorem voteReward_le_share {detail : DayStats} {e : String × SbpStats} (he : e ∈ detail.Stats)
    (stakeAmount : ℕ) (hblocks : e.2.BlockNum ≤ e.2.ExceptedBlockNum) :
    (calcRewardByDayDetail detail e.1 stakeAmount).VoteReward ≤
      (e.2.VoteCnt + stakeAmount) * (detail.BlockTotal * 50 * rewardPerBlock) /
        ((detail.Stats.length * stakeAmount + detail.VoteSum) * 100) := by
  rw [calcRewardByDayDetail_of_mem he]
  split_ifs with hzero
  · exact Nat.zero_le _
  · set weight := e.2.VoteCnt + stakeAmount
    set divisor := detail.Stats.length * stakeAmount + detail.VoteSum
    have hE : 0 < e.2.ExceptedBlockNum := Nat.pos_of_ne_zero hzero
    calc weight * detail.BlockTotal * 50 * rewardPerBlock * e.2.BlockNum / divisor /
            e.2.ExceptedBlockNum / 100
        = weight * (detail.BlockTotal * 50 * rewardPerBlock) * e.2.BlockNum /
            (divisor * 100 * e.2.ExceptedBlockNum) := by
          rw [Nat.div_div_eq_div_mul, Nat.div_div_eq_div_mul]
          congr 1 <;> ring
      _ ≤ weight * (detail.BlockTotal * 50 * rewardPerBlock) * e.2.ExceptedBlockNum /
            (divisor * 100 * e.2.ExceptedBlockNum) :=
          Nat.div_le_div_right (Nat.mul_le_mul_left _ hblocks)
      _ = weight * (detail.BlockTotal * 50 * rewardPerBlock) / (divisor * 100) :=
          Nat.mul_div_mul_right _ _ hE

theorem blockReward_le {detail : DayStats} {e : String × SbpStats} (he : e ∈ detail.Stats)
    (stakeAmount : ℕ) :
    (calcRewardByDayDetail detail e.1 stakeAmount).BlockReward ≤
      e.2.BlockNum * 50 * rewardPerBlock / 100 := by
  rw [calcRewardByDayDetail_of_mem he]
  split_ifs
  · exact Nat.zero_le _
  · exact le_rfl

/-- Half the reward of `blockTotal` blocks. -/
theorem half_reward (blockTotal : ℕ) :
    blockTotal * 50 * rewardPerBlock / 100 = rewardPerBlock * blockTotal / 2 := by
  rw [show blockTotal * 50 * rewardPerBlock = rewardPerBlock * blockTotal * 50 by ring,
    show (100 : ℕ) = 2 * 50 by rfl, Nat.mul_div_mul_right _ _ (by decide)]

/-- The vote rewards of a day's lines add up to at most half the reward of its blocks. -/
theorem sum_voteReward_le (detail : DayStats) (stakeAmount : ℕ)
    (hvotes : detail.VoteSum = (detail.Stats.map fun e => e.2.VoteCnt).sum)
    (hexpected : ∀ e ∈ detail.Stats, e.2.BlockNum ≤ e.2.ExceptedBlockNum) :
    (detail.Stats.map fun e => (calcRewardByDayDetail detail e.1 stakeAmount).VoteReward).sum ≤
      rewardPerBlock * detail.BlockTotal / 2 := by
  set divisor := detail.Stats.length * stakeAmount + detail.VoteSum
  set half := detail.BlockTotal * 50 * rewardPerBlock
  have hweights : (detail.Stats.map fun e => (e.2.VoteCnt + stakeAmount) * half).sum =
      divisor * half := by
    rw [List.sum_map_mul_right, sum_voteWeights, ← hvotes]
  calc (detail.Stats.map fun e => (calcRewardByDayDetail detail e.1 stakeAmount).VoteReward).sum
      ≤ (detail.Stats.map fun e => (e.2.VoteCnt + stakeAmount) * half / (divisor * 100)).sum :=
        List.sum_le_sum fun e he => voteReward_le_share he stakeAmount (hexpected e he)
    _ ≤ divisor * half / (divisor * 100) := hweights ▸ sum_map_div_le _ _ _
    _ ≤ half / 100 := by
        rcases Nat.eq_zero_or_pos divisor with h0 | hpos
        · simp [h0]
        · rw [Nat.mul_div_mul_left _ _ hpos]
    _ = rewardPerBlock * detail.BlockTotal / 2 := half_reward _

/-- The block rewards of a day's lines add up to at most half the reward of its blocks. -/
theorem sum_blockReward_le (detail : DayStats) (stakeAmount : ℕ)
    (hblocks : (detail.Stats.map fun e => e.2.BlockNum).sum ≤ detail.BlockTotal) :
    (detail.Stats.map fun e => (calcRewardByDayDetail detail e.1 stakeAmount).BlockReward).sum ≤
      rewardPerBlock * detail.BlockTotal / 2 := by
  calc (detail.Stats.map fun e => (calcRewardByDayDetail detail e.1 stakeAmount).BlockReward).sum
      ≤ (detail.Stats.map fun e => e.2.BlockNum * 50 * rewardPerBlock / 100).sum :=
        List.sum_le_sum fun e he => blockReward_le he stakeAmount
    _ ≤ (detail.Stats.map fun e => e.2.BlockNum * 50 * rewardPerBlock).sum / 100 :=
        sum_map_div_le _ _ _
    _ ≤ detail.BlockTotal * 50 * rewardPerBlock / 100 := by
        apply Nat.div_le_div_right
        rw [List.sum_map_mul_right, List.sum_map_mul_right]
        exact Nat.mul_le_mul_right _ (Nat.mul_le_mul_right _ hblocks)
    _ = rewardPerBlock * detail.BlockTotal / 2 := half_reward _

/-- A day's rewards stay within the blocks' emission: the vote rewards and the block rewards of
its lines each add up to at most half of it, each reward is the sum of its two parts, and a name
without a line, or whose line expects no block, gets nothing. -/
theorem calcRewardByDayDetail_within_emission (detail : DayStats) (stakeAmount : ℕ)
    (hvotes : detail.VoteSum = (detail.Stats.map fun e => e.2.VoteCnt).sum)
    (hblocks : (detail.Stats.map fun e => e.2.BlockNum).sum ≤ detail.BlockTotal)
    (hexpected : ∀ e ∈ detail.Stats, e.2.BlockNum ≤ e.2.ExceptedBlockNum) :
    (detail.Stats.map fun e => (calcRewardByDayDetail detail e.1 stakeAmount).VoteReward).sum ≤
        rewardPerBlock * detail.BlockTotal / 2 ∧
      (detail.Stats.map fun e =>
          (calcRewardByDayDetail detail e.1 stakeAmount).BlockReward).sum ≤
        rewardPerBlock * detail.BlockTotal / 2 ∧
      (detail.Stats.map fun e =>
          (calcRewardByDayDetail detail e.1 stakeAmount).TotalReward).sum ≤
        rewardPerBlock * detail.BlockTotal ∧
      ∀ name, (calcRewardByDayDetail detail name stakeAmount).TotalReward =
          (calcRewardByDayDetail detail name stakeAmount).VoteReward +
            (calcRewardByDayDetail detail name stakeAmount).BlockReward ∧
        ((∀ selfDetail, find? name detail.Stats = some selfDetail →
            selfDetail.ExceptedBlockNum = 0) →
          calcRewardByDayDetail detail name stakeAmount = newZeroReward) := by
  have hvote := sum_voteReward_le detail stakeAmount hvotes hexpected
  have hblock := sum_blockReward_le detail stakeAmount hblocks
  have htotal : (detail.Stats.map fun e =>
      (calcRewardByDayDetail detail e.1 stakeAmount).TotalReward).sum ≤
        rewardPerBlock * detail.BlockTotal := by
    simp only [calcRewardByDayDetail_TotalReward, List.sum_map_add]
    have := Nat.div_mul_le_self (rewardPerBlock * detail.BlockTotal) 2
    omega
  exact ⟨hvote, hblock, htotal, fun name =>
    ⟨calcRewardByDayDetail_TotalReward detail name stakeAmount,
      calcRewardByDayDetail_eq_zero stakeAmount⟩⟩

/-- A day of three blocks: `"a"` with three votes produced both of its two, `"b"` with one vote one
of its two. -/
def twoLineDay : DayStats :=
  ⟨1, [("a", ⟨3, 2, 2⟩), ("b", ⟨1, 1, 2⟩)], 3, 4, by decide⟩

theorem calcRewardByDayDetail_within_emission_twoLineDay :
    (twoLineDay.Stats.map fun e =>
          (calcRewardByDayDetail twoLineDay e.1 SbpStakeAmountPreMainnet).VoteReward).sum ≤
        rewardPerBlock * twoLineDay.BlockTotal / 2 ∧
      (twoLineDay.Stats.map fun e =>
          (calcRewardByDayDetail twoLineDay e.1 SbpStakeAmountPreMainnet).BlockReward).sum ≤
        rewardPerBlock * twoLineDay.BlockTotal / 2 ∧
      (twoLineDay.Stats.map fun e =>
          (calcRewardByDayDetail twoLineDay e.1 SbpStakeAmountPreMainnet).TotalReward).sum ≤
        rewardPerBlock * twoLineDay.BlockTotal ∧
      ∀ name, (calcRewardByDayDetail twoLineDay name SbpStakeAmountPreMainnet).TotalReward =
          (calcRewardByDayDetail twoLineDay name SbpStakeAmountPreMainnet).VoteReward +
            (calcRewardByDayDetail twoLineDay name SbpStakeAmountPreMainnet).BlockReward ∧
        ((∀ selfDetail, find? name twoLineDay.Stats = some selfDetail →
            selfDetail.ExceptedBlockNum = 0) →
          calcRewardByDayDetail twoLineDay name SbpStakeAmountPreMainnet = newZeroReward) :=
  calcRewardByDayDetail_within_emission twoLineDay SbpStakeAmountPreMainnet rfl (by decide)
    (by decide)

/-! ## Days -/

theorem DayIndex.getIndexByTime_add (r : DayIndex) (s : ℕ) :
    r.getIndexByTime (r.GenesisTime + s) = s / r.Interval := by
  unfold DayIndex.getIndexByTime
  rw [add_sub_cancel_left, ← Int.natCast_div, Int.toNat_natCast]

theorem DayIndex.getEndTimeByIndex_pred (r : DayIndex) {index : ℕ} (h : index ≠ 0) :
    r.getEndTimeByIndex (index - 1) = r.getStartTimeByIndex index := by
  unfold DayIndex.getEndTimeByIndex DayIndex.getStartTimeByIndex
  rw [Nat.cast_sub (Nat.one_le_iff_ne_zero.mpr h), Nat.cast_one, sub_add_cancel]

/-- A day's start is the start of that day. -/
theorem GetIndexByStartTime_day {r : DayIndex} (hG : 0 ≤ r.GenesisTime) (hD : 0 < r.Interval)
    (k : ℕ) :
    GetIndexByStartTime r (r.getStartTimeByIndex k) r.GenesisTime =
      (k, r.getStartTimeByIndex k, false) := by
  unfold GetIndexByStartTime DayIndex.getStartTimeByIndex
  have hkD : (0 : ℤ) ≤ k * r.Interval := by positivity
  rw [if_neg (by omega)]
  cases k with
  | zero => simp
  | succ k =>
    have hpos : 0 < (k + 1) * r.Interval := Nat.mul_pos (Nat.succ_pos k) hD
    have hprev : r.GenesisTime + ((k + 1 : ℕ) : ℤ) * r.Interval - 1 =
        r.GenesisTime + (((k + 1) * r.Interval - 1 : ℕ) : ℤ) := by
      push_cast [Nat.cast_sub hpos]
      ring
    have hidx : ((k + 1) * r.Interval - 1) / r.Interval = k := by
      apply Nat.div_eq_of_lt_le <;> rw [Nat.add_mul, one_mul] <;> omega
    have hposZ : (0 : ℤ) < ((k + 1 : ℕ) : ℤ) * (r.Interval : ℤ) := by exact_mod_cast hpos
    rw [if_neg (by omega)]
    simp only [hprev, DayIndex.getIndexByTime_add, hidx]

/-- The last day ended `s` seconds after genesis. -/
theorem GetIndexByEndTime_add (r : DayIndex) (s : ℕ) :
    GetIndexByEndTime r (r.GenesisTime + s) r.GenesisTime =
      if s / r.Interval = 0 then (0, r.GenesisTime, true)
      else (s / r.Interval - 1, r.getStartTimeByIndex (s / r.Interval), false) := by
  unfold GetIndexByEndTime
  rw [if_neg (by omega), DayIndex.getIndexByTime_add]
  dsimp only
  split_ifs with h
  · rfl
  · rw [r.getEndTimeByIndex_pred h]

/-- The first day starting `s > 0` seconds after genesis or later. -/
theorem GetIndexByStartTime_add {r : DayIndex} (hG : 0 ≤ r.GenesisTime) {s : ℕ} (hs : 0 < s) :
    GetIndexByStartTime r (r.GenesisTime + s) r.GenesisTime =
      ((s - 1) / r.Interval + 1, r.getStartTimeByIndex ((s - 1) / r.Interval + 1), false) := by
  unfold GetIndexByStartTime
  have hprev : r.GenesisTime + (s : ℤ) - 1 = r.GenesisTime + ((s - 1 : ℕ) : ℤ) := by omega
  rw [if_neg (by omega), if_neg (by omega), hprev, DayIndex.getIndexByTime_add]

/-- The receive's day index counts days of `Interval` seconds from the genesis time, at or after
the Unix epoch. -/
structure Env.Days (env : Env) : Prop where
  genesis : env.reader.dayIndex.GenesisTime = env.genesisTime
  genesis_nonneg : 0 ≤ env.genesisTime
  interval_pos : 0 < env.reader.dayIndex.Interval

theorem rewardEnd_active {env : Env} {old : Registration} (hactive : old.RevokeTime = 0) :
    rewardEnd env old =
      ((GetIndexByEndTime env.reader.dayIndex (getRewardTimeLimit env) env.genesisTime).1,
        (GetIndexByEndTime env.reader.dayIndex (getRewardTimeLimit env) env.genesisTime).2.1,
        (GetIndexByEndTime env.reader.dayIndex (getRewardTimeLimit env) env.genesisTime).2.2,
        false) := by
  simp [rewardEnd, Registration.IsActive, hactive]

/-- A withdrawal whose time limit falls before the reward time pays nothing and reports the start
of the day of the time limit as the end of the days paid. -/
theorem calcReward_rewind {env : Env} (hdays : env.Days) {old : Registration}
    (hactive : old.RevokeTime = 0) {sR sL : ℕ} (hR : old.RewardTime = env.genesisTime + sR)
    (hpos : 0 < sR) (hL : getRewardTimeLimit env = env.genesisTime + sL) (hlt : sL < sR) :
    calcReward env old =
      (env.reader.dayIndex.getStartTimeByIndex ((sR - 1) / env.reader.dayIndex.Interval + 1),
        env.reader.dayIndex.getStartTimeByIndex (sL / env.reader.dayIndex.Interval),
        some newZeroReward, false) := by
  obtain ⟨hgen, hG, hD⟩ := hdays
  have hstart := GetIndexByStartTime_add (r := env.reader.dayIndex) (hgen ▸ hG) hpos
  have hend := GetIndexByEndTime_add env.reader.dayIndex sL
  rw [hgen, ← hR] at hstart
  rw [hgen, ← hL] at hend
  have hle : sL / env.reader.dayIndex.Interval ≤ (sR - 1) / env.reader.dayIndex.Interval :=
    Nat.div_le_div_right (by omega)
  by_cases h0 : sL / env.reader.dayIndex.Interval = 0
  · rw [if_pos h0] at hend
    simp [calcReward, hstart, rewardEnd_active hactive, hend, h0, DayIndex.getStartTimeByIndex,
      hgen]
  · rw [if_neg h0] at hend
    simp only [calcReward, hstart, rewardEnd_active hactive, hend, Bool.false_eq_true, if_false,
      false_or]
    rw [if_pos (Nat.lt_succ_of_le ((Nat.sub_le _ 1).trans hle))]

/-- A withdrawal from the start of day `k`, with the time limit past the end of that day, pays the
days from `k` to the last day ended by the time limit. -/
theorem calcReward_from_day {env : Env} (hdays : env.Days) {old : Registration}
    (hactive : old.RevokeTime = 0) {k sL : ℕ}
    (hR : old.RewardTime = env.reader.dayIndex.getStartTimeByIndex k)
    (hL : getRewardTimeLimit env = env.genesisTime + sL)
    (hk : k + 1 ≤ sL / env.reader.dayIndex.Interval) :
    calcReward env old =
      (env.reader.dayIndex.getStartTimeByIndex k,
        env.reader.dayIndex.getStartTimeByIndex (sL / env.reader.dayIndex.Interval),
        some (addDayRewards env old.Name
          (env.reader.GetConsensusDetailByDay k (sL / env.reader.dayIndex.Interval - 1)) 0
          newZeroReward),
        false) := by
  obtain ⟨hgen, hG, hD⟩ := hdays
  have hstart := GetIndexByStartTime_day (hgen ▸ hG) hD k
  have hend := GetIndexByEndTime_add env.reader.dayIndex sL
  rw [hgen, ← hR] at hstart
  rw [hgen, ← hL, if_neg (by omega)] at hend
  simp only [calcReward, hstart, rewardEnd_active hactive, hend, Bool.false_eq_true, if_false,
    false_or]
  rw [if_neg (by omega), hR]

theorem find?_setRegistration (db : GovernanceDb) (isEarth : Bool) (sbpName : String)
    (reg : Registration) :
    find? sbpName (db.setRegistration isEarth sbpName reg).registrations =
      some (if isEarth then reg else { reg with RewardWithdrawAddress := reg.StakeAddress }) :=
  find?_insert_self _ _ _

/-- A withdrawal by the registration's stake or withdraw address whose days end elsewhere than
the reward time: the reward time moves to the end of the days and their reward is re-issued. -/
theorem MethodWithdrawReward.DoReceive_moves {env : Env} {db : GovernanceDb} {sender : Address}
    {sbpName : String} {receiveAddress : Address} {old : Registration}
    (hfind : find? sbpName db.registrations = some old) (hlive : old.RewardTime ≠ -1)
    (hsender : sender = old.StakeAddress ∨ sender = old.RewardWithdrawAddress)
    {startTime endTime : ℤ} {reward : Reward}
    (hcalc : calcReward env old = (startTime, endTime, some reward, false))
    (hmove : endTime ≠ old.RewardTime) :
    MethodWithdrawReward.DoReceive env db sender sbpName receiveAddress =
      .ok (db.setRegistration (IsEarthUpgrade env.box env.latestHeight) sbpName
          { old with RewardTime := endTime },
        if 0 < reward.TotalReward then [⟨reward.TotalReward, receiveAddress⟩] else []) := by
  have hguard : ¬(old.RewardTime = -1 ∨
      (sender ≠ old.StakeAddress ∧ sender ≠ old.RewardWithdrawAddress)) := by
    tauto
  simp only [MethodWithdrawReward.DoReceive, hfind, hcalc, if_neg hguard, Bool.false_eq_true,
    if_false, ne_eq, hmove, not_false_eq_true, if_true]
  split_ifs <;> rfl

theorem DayIndex.getStartTimeByIndex_lt (r : DayIndex) (hD : 0 < r.Interval) {i j : ℕ}
    (h : i < j) : r.getStartTimeByIndex i < r.getStartTimeByIndex j := by
  unfold DayIndex.getStartTimeByIndex
  have hij : (i : ℤ) * r.Interval < j * r.Interval := by
    exact_mod_cast Nat.mul_lt_mul_of_pos_right h hD
  omega

theorem DayIndex.getStartTimeByIndex_div_le (r : DayIndex) (s : ℕ) :
    r.getStartTimeByIndex (s / r.Interval) ≤ r.GenesisTime + s := by
  unfold DayIndex.getStartTimeByIndex
  have hle : ((s / r.Interval : ℕ) : ℤ) * r.Interval ≤ s := by
    exact_mod_cast Nat.div_mul_le_self s r.Interval
  omega

theorem DayIndex.getStartTimeByIndex_nonneg {r : DayIndex} (hG : 0 ≤ r.GenesisTime) (k : ℕ) :
    0 ≤ r.getStartTimeByIndex k := by
  unfold DayIndex.getStartTimeByIndex
  positivity

/-- What a write leaves under the name in either layout: the registration, up to the withdraw
address. -/
theorem setRegistration_found (db : GovernanceDb) (isEarth : Bool) (sbpName : String)
    (reg : Registration) :
    ∃ stored, find? sbpName (db.setRegistration isEarth sbpName reg).registrations = some stored ∧
      stored.Name = reg.Name ∧ stored.StakeAddress = reg.StakeAddress ∧
      stored.RewardTime = reg.RewardTime ∧ stored.RevokeTime = reg.RevokeTime ∧
      stored.ExpirationHeight = reg.ExpirationHeight := by
  refine ⟨_, find?_setRegistration db isEarth sbpName reg, ?_⟩
  cases isEarth <;> simp

/-- A registration leaves the name registered, active, staked by the sender, with its reward
time at the registration, and locked for the stake height of the snapshot group, which must be
stored. -/
theorem MethodRegister.DoReceive_registration {env : Env} {db db' : GovernanceDb}
    {sendBlock : SendBlock} {param : ParamRegister}
    (h : MethodRegister.DoReceive env db sendBlock param = .ok db') :
    ∃ groupInfo, db.snapshotGroup = some groupInfo ∧
      ∃ reg, find? param.SbpName db'.registrations = some reg ∧ reg.Name = param.SbpName ∧
        reg.StakeAddress = sendBlock.AccountAddress ∧ reg.RewardTime = env.snapshotTimestamp ∧
        reg.RevokeTime = 0 ∧ reg.ExpirationHeight = env.snapshotHeight +
          (GetRegisterStakeParamOfConsensusGroup groupInfo.RegisterConditionParam).StakeHeight := by
  unfold MethodRegister.DoReceive at h
  simp only [Except.throw_eq_error, Except.pure_eq_ok, Except.ok_bind, Except.error_bind] at h
  -- the amount and token passed the check
  split_ifs at h
  -- the name's earlier registration, then the producing address's first name, then the group:
  -- every branch that does not throw ends in the write of the registration
  split at h <;> (try split_ifs at h) <;> split at h <;> (try split_ifs at h) <;> split at h <;>
    cases h <;> exact ⟨_, by assumption, setRegistration_found ..⟩

/-- The stake height a group's register condition is packed with is the one the register reads
back from it. -/
theorem GetRegisterStakeParamOfConsensusGroup_Pack {stakeAmount stakeHeight : ℕ}
    {stakeToken : List UInt8} (hamount : stakeAmount < 2 ^ 256)
    (htoken : stakeToken.length = Abi.TokenTypeIdSize) (hheight : stakeHeight < 2 ^ 64) :
    ∃ data, Abi.Pack registerStakeParamInputs
        [.int stakeAmount, .bytes stakeToken, .int stakeHeight] = .ok data ∧
      (GetRegisterStakeParamOfConsensusGroup data).StakeHeight = stakeHeight := by
  have hwords : List.Forall₂ Abi.IsWord registerStakeParamInputs
      [.int stakeAmount, .bytes stakeToken, .int stakeHeight] :=
    .cons ⟨le_refl _, by positivity, by exact_mod_cast hamount⟩
      (.cons htoken (.cons ⟨by decide, by positivity, by exact_mod_cast hheight⟩ .nil))
  obtain ⟨data, hpack, hunpack⟩ := Abi.UnpackValues_Pack_words hwords
  -- the decoding read three words, so the input is not empty
  have hne : data.length ≠ 0 := by
    intro hlen
    rw [List.length_eq_zero_iff.mp hlen] at hunpack
    cases hunpack
  refine ⟨data, hpack, ?_⟩
  simp [GetRegisterStakeParamOfConsensusGroup, hne, hunpack]

/-- A registration cannot be revoked before the snapshot height its group's stake height locks it
to. -/
theorem MethodRevoke.DoReceive_locked {env₀ env : Env} {db₀ db : GovernanceDb}
    {sendBlock : SendBlock} {param : ParamRegister}
    (hreg : MethodRegister.DoReceive env₀ db₀ sendBlock param = .ok db) {groupInfo : ConsensusGroupInfo}
    (hgroup : db₀.snapshotGroup = some groupInfo)
    (hlocked : env.snapshotHeight < env₀.snapshotHeight +
      (GetRegisterStakeParamOfConsensusGroup groupInfo.RegisterConditionParam).StakeHeight)
    (sender : Address) :
    MethodRevoke.DoReceive env db sender param.SbpName = .error .ErrInvalidMethodParam := by
  obtain ⟨groupInfo', hgroup', reg, hfind, -, -, -, -, hexp⟩ :=
    MethodRegister.DoReceive_registration hreg
  rw [hgroup, Option.some.injEq] at hgroup'
  subst hgroup'
  have hguard : (!reg.IsActive) = true ∨ reg.StakeAddress ≠ sender ∨
      reg.ExpirationHeight > env.snapshotHeight := by
    omega
  simp only [MethodRevoke.DoReceive, hfind]
  rw [if_pos hguard]
  rfl

/-- Two withdrawals from an active registration: the first, with its time limit before the reward
time, moves the reward time back to the start of the day of the time limit; the second, after
the end of that day, pays the days from there. -/
theorem withdrawReward_rewind_then_pay {env₁ env₂ : Env} (hdays : env₁.Days)
    (hgenesis : env₂.genesisTime = env₁.genesisTime)
    (hindex : env₂.reader.dayIndex = env₁.reader.dayIndex) {db : GovernanceDb}
    {sbpName : String} {old : Registration} (hfind : find? sbpName db.registrations = some old)
    (hactive : old.RevokeTime = 0) {sR sL₁ sL₂ : ℕ} (hR : old.RewardTime = env₁.genesisTime + sR)
    (hpos : 0 < sR) (hL₁ : getRewardTimeLimit env₁ = env₁.genesisTime + sL₁) (hlt : sL₁ < sR)
    (hL₂ : getRewardTimeLimit env₂ = env₁.genesisTime + sL₂)
    (hnext : sL₁ / env₁.reader.dayIndex.Interval + 1 ≤ sL₂ / env₁.reader.dayIndex.Interval)
    (receiveAddress₁ receiveAddress₂ : Address) :
    env₁.reader.dayIndex.getStartTimeByIndex (sL₁ / env₁.reader.dayIndex.Interval) <
        old.RewardTime ∧
      ∃ db₁ db₂,
        MethodWithdrawReward.DoReceive env₁ db old.StakeAddress sbpName receiveAddress₁ =
          .ok (db₁, []) ∧
        (find? sbpName db₁.registrations).map Registration.RewardTime =
          some (env₁.reader.dayIndex.getStartTimeByIndex (sL₁ / env₁.reader.dayIndex.Interval)) ∧
        MethodWithdrawReward.DoReceive env₂ db₁ old.StakeAddress sbpName receiveAddress₂ =
          .ok (db₂,
            let reward := addDayRewards env₂ old.Name
              (env₂.reader.GetConsensusDetailByDay (sL₁ / env₁.reader.dayIndex.Interval)
                (sL₂ / env₁.reader.dayIndex.Interval - 1)) 0 newZeroReward
            if 0 < reward.TotalReward then [⟨reward.TotalReward, receiveAddress₂⟩] else []) := by
  have hgen := hdays.genesis
  have hG := hdays.genesis_nonneg
  have hbefore := env₁.reader.dayIndex.getStartTimeByIndex_div_le sL₁
  generalize hk : sL₁ / env₁.reader.dayIndex.Interval = k at hnext hbefore ⊢
  -- the first withdrawal: nothing is due, and the reward time goes back to the start of day `k`,
  -- the day of the time limit
  have hback : env₁.reader.dayIndex.getStartTimeByIndex k < old.RewardTime := by omega
  have hcalc₁ := calcReward_rewind hdays hactive hR hpos hL₁ hlt
  rw [hk] at hcalc₁
  have h₁ := @MethodWithdrawReward.DoReceive_moves env₁ db old.StakeAddress sbpName
    receiveAddress₁ old hfind (by omega) (.inl rfl) _ _ _ hcalc₁ hback.ne
  set old₁ : Registration := { old with RewardTime := env₁.reader.dayIndex.getStartTimeByIndex k }
  obtain ⟨stored, hfind₁, hname, hstake, htime, hrevoke, -⟩ :=
    setRegistration_found db (IsEarthUpgrade env₁.box env₁.latestHeight) sbpName old₁
  -- the second withdrawal pays the days from `k` on
  have hdays₂ : env₂.Days :=
    ⟨by rw [hindex, hgenesis]; exact hgen, hgenesis ▸ hG, hindex ▸ hdays.interval_pos⟩
  have hcalc₂ := @calcReward_from_day env₂ hdays₂ stored (hrevoke.trans hactive) k sL₂
    (by rw [htime, hindex]) (by rw [hL₂, hgenesis]) (by rw [hindex]; exact hnext)
  have hlive₁ : env₁.reader.dayIndex.getStartTimeByIndex k ≠ -1 := by
    have := DayIndex.getStartTimeByIndex_nonneg (hgen ▸ hG) k
    omega
  have hmove₂ : env₂.reader.dayIndex.getStartTimeByIndex (sL₂ / env₂.reader.dayIndex.Interval) ≠
      stored.RewardTime := by
    rw [hindex, htime]
    exact (env₁.reader.dayIndex.getStartTimeByIndex_lt hdays.interval_pos (by omega)).ne'
  have h₂ := @MethodWithdrawReward.DoReceive_moves env₂ _ old.StakeAddress sbpName receiveAddress₂
    stored hfind₁ (by rw [htime]; exact hlive₁) (.inl hstake.symm) _ _ _ hcalc₂ hmove₂
  refine ⟨hback, ?db₁, ?db₂, ?first, ?rewound, ?second⟩
  case first => rw [h₁]; rfl
  case rewound => rw [hfind₁, Option.map_some, htime]
  case second => rw [h₂, hname, hindex]

/-- A withdrawal in the first hour after a registration moves its reward time back to the start of
the day of the time limit, before the registration; the next withdrawal after that day pays the
days from there, the one that began before the registration included. -/
theorem withdrawReward_pays_day_before_registration {env₀ env₁ env₂ : Env} (hdays : env₁.Days)
    (hgenesis : env₂.genesisTime = env₁.genesisTime)
    (hindex : env₂.reader.dayIndex = env₁.reader.dayIndex) {db₀ db : GovernanceDb}
    {sendBlock : SendBlock} {param : ParamRegister}
    (hreg : MethodRegister.DoReceive env₀ db₀ sendBlock param = .ok db) {sR sL₁ sL₂ : ℕ}
    (hR : env₀.snapshotTimestamp = env₁.genesisTime + sR) (hpos : 0 < sR)
    (hL₁ : getRewardTimeLimit env₁ = env₁.genesisTime + sL₁) (hlt : sL₁ < sR)
    (hL₂ : getRewardTimeLimit env₂ = env₁.genesisTime + sL₂)
    (hnext : sL₁ / env₁.reader.dayIndex.Interval + 1 ≤ sL₂ / env₁.reader.dayIndex.Interval)
    (receiveAddress₁ receiveAddress₂ : Address) :
    env₁.reader.dayIndex.getStartTimeByIndex (sL₁ / env₁.reader.dayIndex.Interval) <
        env₀.snapshotTimestamp ∧
      ∃ db₁ db₂,
        MethodWithdrawReward.DoReceive env₁ db sendBlock.AccountAddress param.SbpName
          receiveAddress₁ = .ok (db₁, []) ∧
        (find? param.SbpName db₁.registrations).map Registration.RewardTime =
          some (env₁.reader.dayIndex.getStartTimeByIndex (sL₁ / env₁.reader.dayIndex.Interval)) ∧
        MethodWithdrawReward.DoReceive env₂ db₁ sendBlock.AccountAddress param.SbpName
          receiveAddress₂ =
          .ok (db₂,
            let reward := addDayRewards env₂ param.SbpName
              (env₂.reader.GetConsensusDetailByDay (sL₁ / env₁.reader.dayIndex.Interval)
                (sL₂ / env₁.reader.dayIndex.Interval - 1)) 0 newZeroReward
            if 0 < reward.TotalReward then [⟨reward.TotalReward, receiveAddress₂⟩] else []) := by
  obtain ⟨-, -, old, hfind, hname, hstake, htime, hrevoke, -⟩ :=
    MethodRegister.DoReceive_registration hreg
  have hruns := withdrawReward_rewind_then_pay hdays hgenesis hindex hfind hrevoke (htime.trans hR)
    hpos hL₁ hlt hL₂ hnext receiveAddress₁ receiveAddress₂
  rwa [hname, hstake, htime] at hruns

/-- Days of 86400 seconds from the Unix epoch, in which the only block is one of `"s"`, on day 1. -/
def sampleReader : ConsensusReader where
  dayIndex := ⟨0, 86400⟩
  dayStats index :=
    if index = 1 then ⟨1, [("s", ⟨0, 1, 1⟩)], 1, 0, List.nodup_singleton "s"⟩
    else ⟨index, [], 0, 0, List.nodup_nil⟩
  index_dayStats index := by
    by_cases h : index = 1
    · simp [h]
    · simp [h]

/-- A receive at the snapshot block of time `t`, before every fork. -/
def sampleEnv (t : ℤ) : Env where
  box := ⟨fun _ => none⟩
  snapshotHeight := 1
  snapshotTimestamp := t
  latestHeight := 1
  genesisTime := 0
  leafForkTime := 0
  reader := sampleReader

/-- The snapshot group of the genesis block, whose registrations stake 500,000 VITE for 7776000
snapshot blocks (common/config/genesis_json.go). -/
def genesisSnapshotGroup : ConsensusGroupInfo where
  RegisterConditionParam := Abi.packNum SbpStakeAmountPreMainnet ++
    Abi.LeftPadBytes ViteTokenId WordSize ++ Abi.packNum 7776000

/-- No registration yet, and the genesis snapshot group. -/
def genesisDb : GovernanceDb := ⟨[], [], some genesisSnapshotGroup⟩

/-- `"s"` registered at time 129600, a day and a half after genesis. -/
def sampleDb : GovernanceDb where
  registrations := [("s",
    { Name := "s"
      BlockProducingAddress := [2]
      RewardWithdrawAddress := [1]
      StakeAddress := [1]
      Amount := SbpStakeAmountPreMainnet
      ExpirationHeight := 7776001
      RewardTime := 129600
      RevokeTime := 0
      HisAddrList := [[2]] })]
  hisNames := [([2], "s")]
  snapshotGroup := some genesisSnapshotGroup

theorem withdrawReward_pays_day_before_registration_at_day_one :
    MethodRegister.DoReceive (sampleEnv 129600) genesisDb ⟨[1], SbpStakeAmountPreMainnet, ViteTokenId⟩
        ⟨"s", [2], [1]⟩ = .ok sampleDb ∧
      (addDayRewards (sampleEnv 262800) "s" (sampleReader.GetConsensusDetailByDay 1 2) 0
        newZeroReward).TotalReward = 951293759512937594 ∧
      sampleReader.dayIndex.getStartTimeByIndex 1 < 129600 ∧
      ∃ db₁ db₂,
        MethodWithdrawReward.DoReceive (sampleEnv 129600) sampleDb [1] "s" [1] = .ok (db₁, []) ∧
        (find? "s" db₁.registrations).map Registration.RewardTime =
          some (sampleReader.dayIndex.getStartTimeByIndex 1) ∧
        MethodWithdrawReward.DoReceive (sampleEnv 262800) db₁ [1] "s" [1] =
          .ok (db₂,
            let reward := addDayRewards (sampleEnv 262800) "s"
              (sampleReader.GetConsensusDetailByDay 1 2) 0 newZeroReward
            if 0 < reward.TotalReward then [⟨reward.TotalReward, [1]⟩] else []) := by
  have hreg : MethodRegister.DoReceive (sampleEnv 129600) genesisDb
      ⟨[1], SbpStakeAmountPreMainnet, ViteTokenId⟩ ⟨"s", [2], [1]⟩ = .ok sampleDb := rfl
  have hdays : (sampleEnv 129600).Days := ⟨rfl, le_refl 0, by decide⟩
  exact ⟨hreg, rfl, @withdrawReward_pays_day_before_registration (sampleEnv 129600)
    (sampleEnv 129600) (sampleEnv 262800) hdays rfl rfl _ _ _ _ hreg 129600 126000 259200 rfl
    (by decide) rfl (by decide) rfl (by decide) [1] [1]⟩

end Vite.Contracts.Governance
