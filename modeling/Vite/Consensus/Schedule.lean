import Vite.Lib.BinaryFloat

/-!
# The production schedule of a consensus group

`GroupInfo.GenPlanByAddress` (ledger/consensus/core/group.go) lays out a round of block
production: `Repeat` times over the elected members, `PerCount` slots of `Interval` seconds each,
then an idle gap for the members not elected. `timeIndex` (core/time_index.go) numbers the rounds:
`Index2Time` by multiplying the round length, `Time2Index` by dividing the float seconds since
genesis. `verifyProducer` (consensus_snapshot.go) accepts an address at a time if one of its plans
starts there.

Times are nanoseconds; a `time.Duration` is an int64, and its products wrap (`int64`). The plans
are `Repeat * NodeCount * PerCount` slots in order (`repeatSlots`), which gives their layout for
every round; the boundaries of `Index2Time` and `Time2Index` agree with it while the round's end
is a representable duration past genesis, and wrap beyond that.
-/

namespace Vite.Consensus

open BinaryFloat

/-- `time.Duration`: nanoseconds. -/
abbrev Duration := ℤ

/-- `time.Time`: nanoseconds on a time line wider than a duration. -/
abbrev Time := ℤ

abbrev Address := List UInt8

/-- An int64 result: the value wrapped into `[-2 ^ 63, 2 ^ 63)`. -/
def int64 (x : ℤ) : ℤ := x.bmod (2 ^ 64)

/-- A conversion to uint64: the value modulo `2 ^ 64`. -/
def uint64 (x : ℤ) : ℕ := (x % 2 ^ 64).toNat

/-- `time.Second`. -/
def Second : Duration := 1000000000

def maxDuration : Duration := 2 ^ 63 - 1

def minDuration : Duration := -2 ^ 63

/-- `time.Time.Sub`: the difference, saturated to the range of a duration. -/
def Sub (t u : Time) : Duration := max minDuration (min maxDuration (t - u))

/-- `Duration.Seconds`: `float64(sec) + float64(nsec)/1e9`, each step rounded to binary64. -/
def Seconds (d : Duration) : ℚ :=
  roundBinary64 (roundBinary64 (d.tdiv Second) +
    roundBinary64 (roundBinary64 (d.tmod Second) / 1000000000))

/-- The fields of `types.ConsensusGroupInfo` the schedule reads. -/
structure ConsensusGroupInfo where
  NodeCount : ℕ
  Interval : ℤ
  PerCount : ℤ
  Repeat : ℕ
  deriving DecidableEq, Repr

structure timeIndex where
  GenesisTime : Time
  Interval : Duration
  deriving DecidableEq, Repr

def timeIndex.Index2Time (ti : timeIndex) (index : ℕ) : Time × Time :=
  (ti.GenesisTime + int64 (ti.Interval * int64 index),
    ti.GenesisTime + int64 (ti.Interval * int64 (index + 1)))

def timeIndex.Time2Index (ti : timeIndex) (t : Time) : ℕ :=
  let subSec := truncate (Seconds (Sub t ti.GenesisTime))
  uint64 subSec / uint64 (truncate (Seconds ti.Interval))

structure GroupInfo where
  info : ConsensusGroupInfo
  GenesisTime : Time
  PlanInterval : ℕ
  toTimeIndex : timeIndex
  deriving DecidableEq, Repr

/-- `planInterval`: the round length in seconds, a uint64 product. -/
def planInterval (info : ConsensusGroupInfo) : ℕ :=
  uint64 info.Interval * info.NodeCount * uint64 info.PerCount * info.Repeat % 2 ^ 64

def NewGroupInfo (genesisTime : Time) (info : ConsensusGroupInfo) : GroupInfo :=
  let plan := planInterval info
  { info, GenesisTime := genesisTime, PlanInterval := plan,
    toTimeIndex := ⟨genesisTime, int64 (Second * int64 plan)⟩ }

structure MemberPlan where
  STime : Time
  ETime : Time
  Member : Address
  deriving DecidableEq, Repr

/-- The innermost loop: `n` plans of `member` from `sTime`, each `interval` long, and the time
after them. -/
def memberPlans (interval : Duration) (member : Address) : ℕ → Time → List MemberPlan × Time
  | 0, sTime => ([], sTime)
  | n + 1, sTime =>
    let etime := sTime + interval
    let rest := memberPlans interval member n etime
    (⟨sTime, etime, member⟩ :: rest.1, rest.2)

/-- One pass over the members. -/
def roundPlans (interval : Duration) (perCount : ℕ) : List Address → Time → List MemberPlan × Time
  | [], sTime => ([], sTime)
  | member :: members, sTime =>
    let own := memberPlans interval member perCount sTime
    let rest := roundPlans interval perCount members own.2
    (own.1 ++ rest.1, rest.2)

/-- The `Repeat` loop: a pass over the members, then the idle `gap`. -/
def repeatPlans (interval gap : Duration) (perCount : ℕ) (members : List Address) :
    ℕ → Time → List MemberPlan
  | 0, _ => []
  | j + 1, sTime =>
    let pass := roundPlans interval perCount members sTime
    pass.1 ++ repeatPlans interval gap perCount members j (pass.2 + gap)

def GroupInfo.GenPlanByAddress (g : GroupInfo) (index : ℕ) (members : List Address) :
    List MemberPlan :=
  let sTime := (g.toTimeIndex.Index2Time index).1
  if g.info.NodeCount < members.length then []
  else
    let interval := int64 (g.info.Interval * Second)
    -- the slots of the members not elected stay idle
    let gap := if members.length < g.info.NodeCount then
      int64 (int64 (int64 (g.info.Interval * g.info.PerCount) *
        (g.info.NodeCount - members.length)) * Second)
    else 0
    repeatPlans interval gap g.info.PerCount.toNat members g.info.Repeat sTime

structure electionResult where
  Plans : List MemberPlan
  STime : Time
  ETime : Time
  Index : ℕ
  deriving DecidableEq, Repr

def genElectionResult (g : GroupInfo) (index : ℕ) (members : List Address) : electionResult :=
  let times := g.toTimeIndex.Index2Time index
  { Plans := g.GenPlanByAddress index members, STime := times.1, ETime := times.2, Index := index }

def verifyProducer (t : Time) (address : Address) (result : electionResult) : Bool :=
  result.Plans.any fun plan => plan.Member == address && plan.STime == t

/-! ## The plans as slots -/

/-- Slot `k` of a schedule that starts at `start`, for its member. -/
def slotPlan (start : Time) (interval : Duration) (slot : ℕ × Address) : MemberPlan :=
  ⟨start + slot.1 * interval, start + (slot.1 + 1) * interval, slot.2⟩

/-- The slots of one member's turn: `n` consecutive numbers from `base`. -/
def memberSlots (member : Address) : ℕ → ℕ → List (ℕ × Address)
  | 0, _ => []
  | n + 1, base => (base, member) :: memberSlots member n (base + 1)

def roundSlots (perCount : ℕ) : List Address → ℕ → List (ℕ × Address)
  | [], _ => []
  | member :: members, base =>
    memberSlots member perCount base ++ roundSlots perCount members (base + perCount)

/-- The slots of a whole schedule: a pass takes `nodeCount * perCount` numbers, used or not. -/
def repeatSlots (nodeCount perCount : ℕ) (members : List Address) : ℕ → ℕ → List (ℕ × Address)
  | 0, _ => []
  | j + 1, base =>
    roundSlots perCount members base ++
      repeatSlots nodeCount perCount members j (base + nodeCount * perCount)

section Loops

variable {interval : Duration} {start : Time}

theorem memberPlans_eq (member : Address) (n base : ℕ) :
    memberPlans interval member n (start + base * interval) =
      ((memberSlots member n base).map (slotPlan start interval),
        start + ((base + n : ℕ) : ℤ) * interval) := by
  induction n generalizing base with
  | zero => simp [memberPlans, memberSlots]
  | succ n ih =>
    have hnext : start + base * interval + interval = start + (base + 1 : ℕ) * interval := by
      push_cast
      ring
    simp only [memberPlans, memberSlots, List.map_cons, hnext, ih]
    refine Prod.ext rfl ?_
    push_cast
    ring

theorem roundPlans_eq (perCount : ℕ) (members : List Address) (base : ℕ) :
    roundPlans interval perCount members (start + base * interval) =
      ((roundSlots perCount members base).map (slotPlan start interval),
        start + ((base + members.length * perCount : ℕ) : ℤ) * interval) := by
  induction members generalizing base with
  | nil => simp [roundPlans, roundSlots]
  | cons member members ih =>
    simp only [roundPlans, roundSlots, List.map_append]
    rw [memberPlans_eq, ih]
    refine Prod.ext rfl ?_
    simp only [List.length_cons]
    push_cast
    ring

/-- With the gap of the members not elected, every pass takes `nodeCount * perCount` slots. -/
theorem repeatPlans_eq {gap : Duration} {nodeCount perCount : ℕ} {members : List Address}
    (hlen : members.length ≤ nodeCount)
    (hgap : gap = ((nodeCount - members.length : ℕ) * perCount : ℕ) * interval) (j base : ℕ) :
    repeatPlans interval gap perCount members j (start + base * interval) =
      (repeatSlots nodeCount perCount members j base).map (slotPlan start interval) := by
  induction j generalizing base with
  | zero => simp [repeatPlans, repeatSlots]
  | succ j ih =>
    have hpass : start + ((base + members.length * perCount : ℕ) : ℤ) * interval + gap =
        start + ((base + nodeCount * perCount : ℕ) : ℤ) * interval := by
      have hsplit : nodeCount * perCount =
          members.length * perCount + (nodeCount - members.length) * perCount := by
        rw [← Nat.add_mul, Nat.add_sub_cancel' hlen]
      rw [hgap, hsplit]
      push_cast
      ring
    simp only [repeatPlans, repeatSlots, List.map_append]
    rw [roundPlans_eq]
    simp only
    rw [hpass, ih]

end Loops

section Slots

variable {nodeCount perCount : ℕ} {x : ℕ × Address}

theorem mem_memberSlots {member : Address} {n base : ℕ} (hx : x ∈ memberSlots member n base) :
    base ≤ x.1 ∧ x.1 < base + n ∧ x.2 = member := by
  induction n generalizing base with
  | zero => simp [memberSlots] at hx
  | succ n ih =>
    rcases List.mem_cons.mp hx with rfl | hx
    · exact ⟨le_refl _, by omega, rfl⟩
    · obtain ⟨hlo, hhi, hmem⟩ := ih hx
      exact ⟨by omega, by omega, hmem⟩

theorem memberSlots_sorted (member : Address) (n base : ℕ) :
    (memberSlots member n base).Pairwise (·.1 < ·.1) := by
  induction n generalizing base with
  | zero => exact List.Pairwise.nil
  | succ n ih =>
    apply List.Pairwise.cons
    · intro y hy
      have := mem_memberSlots hy
      omega
    · exact ih (base + 1)

theorem mem_roundSlots {members : List Address} {base : ℕ} (hx : x ∈ roundSlots perCount members base) :
    base ≤ x.1 ∧ x.1 < base + members.length * perCount := by
  induction members generalizing base with
  | nil => simp [roundSlots] at hx
  | cons member members ih =>
    rcases List.mem_append.mp hx with hx | hx
    · have := mem_memberSlots hx
      simp only [List.length_cons, Nat.succ_mul]
      omega
    · have := ih hx
      simp only [List.length_cons, Nat.succ_mul]
      omega

theorem roundSlots_sorted (members : List Address) (base : ℕ) :
    (roundSlots perCount members base).Pairwise (·.1 < ·.1) := by
  induction members generalizing base with
  | nil => exact List.Pairwise.nil
  | cons member members ih =>
    apply List.pairwise_append.mpr
    refine ⟨memberSlots_sorted member perCount base, ih (base + perCount), ?_⟩
    intro a ha b hb
    have := mem_memberSlots ha
    have := mem_roundSlots hb
    omega

theorem mem_repeatSlots {members : List Address} (hlen : members.length ≤ nodeCount) {j base : ℕ}
    (hx : x ∈ repeatSlots nodeCount perCount members j base) :
    base ≤ x.1 ∧ x.1 < base + j * (nodeCount * perCount) := by
  have hpass : members.length * perCount ≤ nodeCount * perCount := Nat.mul_le_mul_right _ hlen
  induction j generalizing base with
  | zero => simp [repeatSlots] at hx
  | succ j ih =>
    rcases List.mem_append.mp hx with hx | hx
    · have := mem_roundSlots hx
      rw [Nat.succ_mul]
      omega
    · have := ih hx
      rw [Nat.succ_mul]
      omega

theorem repeatSlots_sorted {members : List Address} (hlen : members.length ≤ nodeCount) (j base : ℕ) :
    (repeatSlots nodeCount perCount members j base).Pairwise (·.1 < ·.1) := by
  have hpass : members.length * perCount ≤ nodeCount * perCount := Nat.mul_le_mul_right _ hlen
  induction j generalizing base with
  | zero => exact List.Pairwise.nil
  | succ j ih =>
    apply List.pairwise_append.mpr
    refine ⟨roundSlots_sorted members base, ih _, ?_⟩
    intro a ha b hb
    have := mem_roundSlots ha
    have := mem_repeatSlots hlen hb
    omega

theorem count_memberSlots (member a : Address) (n base : ℕ) :
    ((memberSlots member n base).map Prod.snd).count a = if member = a then n else 0 := by
  induction n generalizing base with
  | zero => simp [memberSlots]
  | succ n ih =>
    simp only [memberSlots, List.map_cons, List.count_cons, ih]
    split_ifs <;> simp_all

theorem count_roundSlots (a : Address) (members : List Address) (base : ℕ) :
    ((roundSlots perCount members base).map Prod.snd).count a = perCount * members.count a := by
  induction members generalizing base with
  | nil => simp [roundSlots]
  | cons member members ih =>
    simp only [roundSlots, List.map_append, List.count_append, count_memberSlots, ih,
      List.count_cons]
    by_cases h : member = a <;> simp [h, Nat.mul_add, Nat.add_comm]

theorem count_repeatSlots (a : Address) (members : List Address) (j base : ℕ) :
    ((repeatSlots nodeCount perCount members j base).map Prod.snd).count a =
      j * (perCount * members.count a) := by
  induction j generalizing base with
  | zero => simp [repeatSlots]
  | succ j ih =>
    simp only [repeatSlots, List.map_append, List.count_append, count_roundSlots, ih]
    ring

theorem repeatSlots_head {member : Address} {members : List Address} {j base : ℕ} (hj : 0 < j)
    (hper : 0 < perCount) :
    (repeatSlots nodeCount perCount (member :: members) j base).head? = some (base, member) := by
  obtain ⟨j, rfl⟩ := Nat.exists_eq_add_of_lt hj
  obtain ⟨p, rfl⟩ := Nat.exists_eq_add_of_lt hper
  simp [repeatSlots, roundSlots, memberSlots]

end Slots

/-! ## Rounds that fit in a duration -/

theorem int64_of_lt {x : ℤ} (h0 : -2 ^ 63 ≤ x) (h1 : x < 2 ^ 63) : int64 x = x :=
  Int.bmod_eq_of_le h0 h1

/-- The length of a round in seconds, as the group's parameters give it. -/
def roundSeconds (info : ConsensusGroupInfo) : ℤ :=
  info.Interval * info.NodeCount * info.PerCount * info.Repeat

/-- The parameters of a group whose rounds up to `index` end a representable duration after
genesis: every product the schedule forms is then exact. -/
structure Fits (info : ConsensusGroupInfo) (index : ℕ) : Prop where
  interval_pos : 0 < info.Interval
  nodeCount_pos : 0 < info.NodeCount
  perCount_pos : 0 < info.PerCount
  repeat_pos : 0 < info.Repeat
  fits : (index + 1) * (roundSeconds info * Second) < 2 ^ 63

/-! ## Whole seconds -/

/-- A whole number of seconds below `2 ^ 53` converts to float seconds exactly. -/
theorem Seconds_natCast_mul {n : ℕ} (h : n < 2 ^ 53) : Seconds (n * Second) = n := by
  have hdiv : ((n : ℤ) * Second).tdiv Second = n := Int.mul_tdiv_cancel _ (by decide)
  have hmod : ((n : ℤ) * Second).tmod Second = 0 := Int.mul_tmod_left _ _
  unfold Seconds
  rw [hdiv, hmod]
  simp only [Int.cast_natCast, Int.cast_zero, roundBinary64_zero, zero_div, add_zero]
  rw [roundBinary64_natCast h, roundBinary64_natCast h]

/-- `Sub` of two times a representable duration apart is their difference. -/
theorem Sub_of_lt {t u : Time} (h0 : -2 ^ 63 ≤ t - u) (h1 : t - u < 2 ^ 63) : Sub t u = t - u := by
  unfold Sub minDuration maxDuration
  rw [min_eq_right (Int.le_sub_one_of_lt h1), max_eq_right h0]

section Fits

variable {info : ConsensusGroupInfo} {index : ℕ}

theorem Fits.roundSeconds_pos (h : Fits info index) : 0 < roundSeconds info := by
  have := h.interval_pos
  have := h.perCount_pos
  have : (0 : ℤ) < info.NodeCount := by exact_mod_cast h.nodeCount_pos
  have : (0 : ℤ) < info.Repeat := by exact_mod_cast h.repeat_pos
  unfold roundSeconds
  positivity

theorem Fits.round_lt (h : Fits info index) : roundSeconds info * Second < 2 ^ 63 := by
  have := h.fits
  have := h.roundSeconds_pos
  unfold Second at *
  nlinarith

theorem Fits.interval_le (h : Fits info index) : info.Interval ≤ roundSeconds info := by
  have hI := h.interval_pos
  have hNC : (1 : ℤ) ≤ info.NodeCount := by exact_mod_cast h.nodeCount_pos
  have hPC : (1 : ℤ) ≤ info.PerCount := h.perCount_pos
  have hR : (1 : ℤ) ≤ info.Repeat := by exact_mod_cast h.repeat_pos
  calc info.Interval ≤ info.Interval * info.NodeCount := le_mul_of_one_le_right hI.le hNC
    _ ≤ info.Interval * info.NodeCount * info.PerCount :=
      le_mul_of_one_le_right (by positivity) hPC
    _ ≤ roundSeconds info := le_mul_of_one_le_right (by positivity) hR

theorem Fits.perCount_le (h : Fits info index) : info.PerCount ≤ roundSeconds info := by
  have hI : (1 : ℤ) ≤ info.Interval := h.interval_pos
  have hNC : (1 : ℤ) ≤ info.NodeCount := by exact_mod_cast h.nodeCount_pos
  have hPC := h.perCount_pos
  have hR : (1 : ℤ) ≤ info.Repeat := by exact_mod_cast h.repeat_pos
  calc info.PerCount ≤ info.Interval * info.NodeCount * info.PerCount :=
      le_mul_of_one_le_left hPC.le (one_le_mul_of_one_le_of_one_le hI hNC)
    _ ≤ roundSeconds info := le_mul_of_one_le_right (by positivity) hR

theorem uint64_of_lt {x : ℤ} (h0 : 0 ≤ x) (h1 : x < 2 ^ 64) : (uint64 x : ℤ) = x := by
  unfold uint64
  rw [Int.toNat_of_nonneg (Int.emod_nonneg _ (by norm_num)), Int.emod_eq_of_lt h0 h1]

theorem Fits.planInterval_eq (h : Fits info index) : (planInterval info : ℤ) = roundSeconds info := by
  have hround : roundSeconds info < 2 ^ 64 := by
    have := h.round_lt
    unfold Second at this
    omega
  have hI : (uint64 info.Interval : ℤ) = info.Interval :=
    uint64_of_lt h.interval_pos.le (lt_of_le_of_lt h.interval_le hround)
  have hPC : (uint64 info.PerCount : ℤ) = info.PerCount :=
    uint64_of_lt h.perCount_pos.le (lt_of_le_of_lt h.perCount_le hround)
  unfold planInterval
  push_cast
  rw [hI, hPC]
  exact Int.emod_eq_of_lt h.roundSeconds_pos.le hround

theorem Fits.round_pos (h : Fits info index) : 0 < roundSeconds info * Second := by
  have := h.roundSeconds_pos
  unfold Second
  omega

/-- The time index's round length is the round in nanoseconds. -/
theorem Fits.timeIndex_Interval (h : Fits info index) (genesisTime : Time) :
    (NewGroupInfo genesisTime info).toTimeIndex.Interval = roundSeconds info * Second := by
  have hround := h.round_lt
  have hplan : int64 (planInterval info) = roundSeconds info := by
    rw [h.planInterval_eq]
    exact int64_of_lt (by linarith [h.roundSeconds_pos]) (by unfold Second at hround; omega)
  simp only [NewGroupInfo]
  rw [hplan, int64_of_lt (by nlinarith [h.round_pos]) (by linarith), mul_comm]

/-- While the round fits, `Index2Time` is exact: round `index` is
`[index * length, (index + 1) * length)` after genesis. -/
theorem Fits.Index2Time_eq (h : Fits info index) (genesisTime : Time) :
    (NewGroupInfo genesisTime info).toTimeIndex.Index2Time index =
      (genesisTime + index * (roundSeconds info * Second),
        genesisTime + (index + 1) * (roundSeconds info * Second)) := by
  have hpos := h.round_pos
  have hend := h.fits
  have hround := h.round_lt
  -- each product stays below `2 ^ 63`, so no `int64` wraps
  have hstart : (index : ℤ) * (roundSeconds info * Second) < 2 ^ 63 := by nlinarith
  have hindex : (index : ℤ) < 2 ^ 63 := by nlinarith
  have hi : int64 (index : ℤ) = index := int64_of_lt (by omega) hindex
  have hi1 : int64 ((index : ℤ) + 1) = index + 1 := int64_of_lt (by omega) (by nlinarith)
  have hs : int64 (roundSeconds info * Second * index) = index * (roundSeconds info * Second) := by
    rw [int64_of_lt (by nlinarith) (by linarith)]
    ring
  have he : int64 (roundSeconds info * Second * (index + 1)) =
      (index + 1) * (roundSeconds info * Second) := by
    rw [int64_of_lt (by nlinarith) (by linarith)]
    ring
  simp only [timeIndex.Index2Time, h.timeIndex_Interval, hi, hi1, hs, he]
  rfl

theorem Fits.idle_le (h : Fits info index) {k : ℕ} (hk : k ≤ info.NodeCount) :
    info.Interval * info.PerCount * k ≤ roundSeconds info := by
  have hI := h.interval_pos
  have hPC := h.perCount_pos
  have hR : (1 : ℤ) ≤ info.Repeat := by exact_mod_cast h.repeat_pos
  have hk' : (k : ℤ) ≤ info.NodeCount := by exact_mod_cast hk
  calc info.Interval * info.PerCount * k ≤ info.Interval * info.PerCount * info.NodeCount :=
      mul_le_mul_of_nonneg_left hk' (by positivity)
    _ = info.Interval * info.NodeCount * info.PerCount := by ring
    _ ≤ roundSeconds info := le_mul_of_one_le_right (by positivity) hR

/-- While the round fits, the plans are the slots of `repeatSlots`, laid out from the round's
start one `Interval` apart. -/
theorem Fits.GenPlanByAddress_eq (h : Fits info index) (genesisTime : Time) {members : List Address}
    (hlen : members.length ≤ info.NodeCount) :
    (NewGroupInfo genesisTime info).GenPlanByAddress index members =
      (repeatSlots info.NodeCount info.PerCount.toNat members info.Repeat 0).map
        (slotPlan (genesisTime + index * (roundSeconds info * Second)) (info.Interval * Second)) := by
  have hround := h.round_lt
  have hS : (0 : ℤ) < Second := by unfold Second; norm_num
  have hinterval : int64 (info.Interval * Second) = info.Interval * Second := by
    have := h.interval_le
    exact int64_of_lt (by nlinarith [h.interval_pos]) (by nlinarith)
  -- the idle gap is the slots of the members not elected
  have hgap : (if members.length < info.NodeCount then
      int64 (int64 (int64 (info.Interval * info.PerCount) *
        ((info.NodeCount : ℤ) - members.length)) * Second) else 0) =
      (((info.NodeCount - members.length : ℕ) * info.PerCount.toNat : ℕ) : ℤ) *
        (info.Interval * Second) := by
    have hPC : ((info.PerCount.toNat : ℕ) : ℤ) = info.PerCount := Int.toNat_of_nonneg h.perCount_pos.le
    have hidle := h.idle_le (Nat.sub_le info.NodeCount members.length)
    have hnonneg : 0 ≤ info.Interval * info.PerCount * ((info.NodeCount - members.length : ℕ) : ℤ) :=
      by have := h.interval_pos; have := h.perCount_pos; positivity
    split_ifs with hlt
    · have hcast : ((info.NodeCount : ℤ) - members.length) = ((info.NodeCount - members.length : ℕ) : ℤ) := by
        push_cast [Nat.cast_sub hlen]
        ring
      have hIP : int64 (info.Interval * info.PerCount) = info.Interval * info.PerCount :=
        int64_of_lt (by nlinarith [h.interval_pos, h.perCount_pos])
          (by nlinarith [h.idle_le (le_refl info.NodeCount), h.nodeCount_pos])
      have hidle' : int64 (info.Interval * info.PerCount * ((info.NodeCount - members.length : ℕ) : ℤ)) =
          info.Interval * info.PerCount * ((info.NodeCount - members.length : ℕ) : ℤ) :=
        int64_of_lt (by linarith) (by nlinarith)
      have hsec : int64 (info.Interval * info.PerCount * ((info.NodeCount - members.length : ℕ) : ℤ) *
          Second) = info.Interval * info.PerCount * ((info.NodeCount - members.length : ℕ) : ℤ) * Second :=
        int64_of_lt (by nlinarith) (by nlinarith)
      rw [hcast, hIP, hidle', hsec]
      push_cast [hPC]
      ring
    · have : info.NodeCount - members.length = 0 := by omega
      simp [this]
  have hplans : repeatPlans (info.Interval * Second)
      (((info.NodeCount - members.length : ℕ) * info.PerCount.toNat : ℕ) * (info.Interval * Second))
      info.PerCount.toNat members info.Repeat
      (genesisTime + index * (roundSeconds info * Second) + ((0 : ℕ) : ℤ) * (info.Interval * Second)) =
      (repeatSlots info.NodeCount info.PerCount.toNat members info.Repeat 0).map
        (slotPlan (genesisTime + index * (roundSeconds info * Second)) (info.Interval * Second)) :=
    repeatPlans_eq hlen rfl info.Repeat 0
  have hsTime := congrArg Prod.fst (h.Index2Time_eq genesisTime)
  simp only [GroupInfo.GenPlanByAddress, hsTime]
  simp only [NewGroupInfo, hinterval, if_neg (not_lt.mpr hlen)]
  rw [← hgap, Nat.cast_zero, zero_mul, add_zero] at hplans
  exact hplans

theorem uint64_natCast {n : ℕ} (h : n < 2 ^ 64) : uint64 n = n := by
  have := uint64_of_lt (Nat.cast_nonneg n) (by exact_mod_cast h)
  exact_mod_cast this

/-- A time a whole number `s` of seconds after genesis, in a round that fits, is as many seconds
past the round's start as the rest of `s` divided by the round length. -/
theorem Fits.seconds_lt {s : ℕ} (h : Fits info (s / planInterval info)) :
    (s : ℤ) * Second < 2 ^ 63 ∧ s / planInterval info * planInterval info ≤ s ∧
      s < (s / planInterval info + 1) * planInterval info := by
  have hP := h.planInterval_eq
  have hPpos : 0 < planInterval info := by
    have := h.roundSeconds_pos
    omega
  have hnext : s < (s / planInterval info + 1) * planInterval info := by
    rw [Nat.succ_mul]
    exact Nat.lt_div_mul_add hPpos
  have hnext' : (s : ℤ) < ((s / planInterval info : ℕ) + 1) * roundSeconds info := by
    rw [← hP]
    exact_mod_cast hnext
  refine ⟨?_, Nat.div_mul_le_self s _, hnext⟩
  calc (s : ℤ) * Second < ((s / planInterval info : ℕ) + 1) * roundSeconds info * Second :=
        mul_lt_mul_of_pos_right hnext' (by decide)
    _ = ((s / planInterval info : ℕ) + 1) * (roundSeconds info * Second) := by ring
    _ < 2 ^ 63 := h.fits

/-- `Time2Index` of a time whole seconds after genesis is the round that `Index2Time` places it
in, while that round fits. -/
theorem Fits.Time2Index_eq {s : ℕ} (h : Fits info (s / planInterval info)) (genesisTime : Time) :
    (NewGroupInfo genesisTime info).toTimeIndex.Time2Index (genesisTime + s * Second) =
      s / planInterval info := by
  obtain ⟨hs, -, -⟩ := h.seconds_lt
  have hs53 : s < 2 ^ 53 := by
    unfold Second at hs
    omega
  have hP53 : planInterval info < 2 ^ 53 := by
    have := h.round_lt
    rw [← h.planInterval_eq] at this
    unfold Second at this
    omega
  have hsub : Sub (genesisTime + s * Second) genesisTime = s * Second := by
    rw [Sub_of_lt] <;> simp only [add_sub_cancel_left]
    · have : (0 : ℤ) ≤ s * Second := by unfold Second; positivity
      linarith
    · exact hs
  unfold timeIndex.Time2Index
  rw [h.timeIndex_Interval, ← h.planInterval_eq]
  simp only [NewGroupInfo, hsub]
  rw [Seconds_natCast_mul hs53, Seconds_natCast_mul hP53, truncate_natCast, truncate_natCast,
    uint64_natCast (by omega), uint64_natCast (by omega)]

theorem Fits.Time2Index_mem {s : ℕ} (h : Fits info (s / planInterval info)) (genesisTime : Time) :
    ((NewGroupInfo genesisTime info).toTimeIndex.Index2Time (s / planInterval info)).1 ≤
        genesisTime + s * Second ∧
      genesisTime + s * Second <
        ((NewGroupInfo genesisTime info).toTimeIndex.Index2Time (s / planInterval info)).2 := by
  obtain ⟨-, hlo, hhi⟩ := h.seconds_lt
  have hP := h.planInterval_eq
  have hS : (0 : ℤ) < Second := by decide
  have hlo' : ((s / planInterval info : ℕ) : ℤ) * roundSeconds info ≤ s := by
    rw [← hP]
    exact_mod_cast hlo
  have hhi' : (s : ℤ) < ((s / planInterval info : ℕ) + 1) * roundSeconds info := by
    rw [← hP]
    exact_mod_cast hhi
  rw [h.Index2Time_eq]
  constructor
  · have := mul_le_mul_of_nonneg_right hlo' hS.le
    simp only
    linarith
  · have := mul_lt_mul_of_pos_right hhi' hS
    simp only
    linarith

end Fits

/-! ## The plans of a round -/

section Plans

variable {start : Time} {interval : Duration}

theorem slotPlans_sorted {slots : List (ℕ × Address)} (hs : slots.Pairwise (·.1 < ·.1))
    (hi : 0 < interval) : (slots.map (slotPlan start interval)).Pairwise (·.STime < ·.STime) := by
  rw [List.pairwise_map]
  refine hs.imp ?_
  intro a b hab
  have : (a.1 : ℤ) < b.1 := by exact_mod_cast hab
  simp only [slotPlan]
  nlinarith

/-- A producer is unique at any time where no two plans start together. -/
theorem verifyProducer_unique {r : electionResult} (hr : r.Plans.Pairwise (·.STime < ·.STime))
    {t : Time} {a b : Address} (ha : verifyProducer t a r = true) (hb : verifyProducer t b r = true) :
    a = b := by
  unfold verifyProducer at ha hb
  obtain ⟨p, hp, hpa⟩ := List.any_eq_true.mp ha
  obtain ⟨q, hq, hqb⟩ := List.any_eq_true.mp hb
  simp only [Bool.and_eq_true, beq_iff_eq] at hpa hqb
  have hnodup : (r.Plans.map MemberPlan.STime).Nodup := (List.pairwise_map.mpr hr).nodup
  have hpq : p = q := List.inj_on_of_nodup_map hnodup hp hq (hpa.2.trans hqb.2.symm)
  rw [← hpa.1, ← hqb.1, hpq]

end Plans

section Round

variable {info : ConsensusGroupInfo} {index : ℕ} {members : List Address} (genesisTime : Time)

theorem Fits.genElectionResult_ETime (h : Fits info index) :
    (genElectionResult (NewGroupInfo genesisTime info) index members).ETime =
      (genElectionResult (NewGroupInfo genesisTime info) index members).STime +
        roundSeconds info * Second := by
  simp only [genElectionResult, h.Index2Time_eq]
  ring

theorem Fits.genElectionResult_Plans (h : Fits info index) (hlen : members.length ≤ info.NodeCount) :
    (genElectionResult (NewGroupInfo genesisTime info) index members).Plans =
      (repeatSlots info.NodeCount info.PerCount.toNat members info.Repeat 0).map
        (slotPlan (genElectionResult (NewGroupInfo genesisTime info) index members).STime
          (info.Interval * Second)) := by
  simp only [genElectionResult, h.Index2Time_eq]
  exact h.GenPlanByAddress_eq genesisTime hlen

theorem Fits.slot_pos (h : Fits info index) : 0 < info.Interval * Second := by
  have := h.interval_pos
  unfold Second
  omega

/-- The round is its `Repeat * NodeCount * PerCount` slots. -/
theorem Fits.round_eq_slots (h : Fits info index) :
    roundSeconds info * Second =
      ((info.Repeat * (info.NodeCount * info.PerCount.toNat) : ℕ) : ℤ) * (info.Interval * Second) := by
  have hPC : ((info.PerCount.toNat : ℕ) : ℤ) = info.PerCount := Int.toNat_of_nonneg h.perCount_pos.le
  push_cast [hPC]
  unfold roundSeconds
  ring

theorem Fits.genElectionResult_sorted (h : Fits info index) (hlen : members.length ≤ info.NodeCount) :
    (genElectionResult (NewGroupInfo genesisTime info) index members).Plans.Pairwise
      (·.STime < ·.STime) := by
  rw [h.genElectionResult_Plans genesisTime hlen]
  exact slotPlans_sorted (repeatSlots_sorted hlen _ _) h.slot_pos

/-- Every plan is a slot of the round: a whole number of slots after its start, one slot long. -/
theorem Fits.mem_genElectionResult (h : Fits info index) (hlen : members.length ≤ info.NodeCount)
    {p : MemberPlan} (hp : p ∈ (genElectionResult (NewGroupInfo genesisTime info) index members).Plans) :
    (∃ k : ℕ, p.STime =
        (genElectionResult (NewGroupInfo genesisTime info) index members).STime +
          k * (info.Interval * Second)) ∧
      p.ETime = p.STime + info.Interval * Second ∧
      p.ETime ≤ (genElectionResult (NewGroupInfo genesisTime info) index members).ETime := by
  rw [h.genElectionResult_Plans genesisTime hlen] at hp
  obtain ⟨x, hx, rfl⟩ := List.mem_map.mp hp
  have hk : x.1 + 1 ≤ info.Repeat * (info.NodeCount * info.PerCount.toNat) := by
    have := (mem_repeatSlots hlen hx).2
    omega
  have hk' : ((x.1 : ℤ) + 1) * (info.Interval * Second) ≤
      ((info.Repeat * (info.NodeCount * info.PerCount.toNat) : ℕ) : ℤ) * (info.Interval * Second) :=
    mul_le_mul_of_nonneg_right (by exact_mod_cast hk) h.slot_pos.le
  refine ⟨⟨x.1, rfl⟩, ?_, ?_⟩
  · simp only [slotPlan]
    ring
  · rw [h.genElectionResult_ETime, h.round_eq_slots]
    simp only [slotPlan]
    linarith

theorem Fits.count_genElectionResult (h : Fits info index) (hlen : members.length ≤ info.NodeCount)
    (hnodup : members.Nodup) {a : Address} (ha : a ∈ members) :
    ((genElectionResult (NewGroupInfo genesisTime info) index members).Plans.map
      MemberPlan.Member).count a = info.Repeat * info.PerCount.toNat := by
  have hmember : ∀ start, MemberPlan.Member ∘ slotPlan start (info.Interval * Second) = Prod.snd :=
    fun _ => rfl
  rw [h.genElectionResult_Plans genesisTime hlen, List.map_map, hmember, count_repeatSlots,
    List.count_eq_one_of_mem hnodup ha, Nat.mul_one]

/-- With a member elected, the first plan starts the round. -/
theorem Fits.genElectionResult_head (h : Fits info index) (hlen : members.length ≤ info.NodeCount)
    (hne : members ≠ []) :
    (genElectionResult (NewGroupInfo genesisTime info) index members).Plans.head?.map MemberPlan.STime =
      some (genElectionResult (NewGroupInfo genesisTime info) index members).STime := by
  obtain ⟨m, ms, hms⟩ := List.exists_cons_of_ne_nil hne
  have hper : 0 < info.PerCount.toNat := by
    have := h.perCount_pos
    omega
  rw [h.genElectionResult_Plans genesisTime hlen, List.head?_map, hms,
    repeatSlots_head h.repeat_pos hper]
  simp [slotPlan]

end Round

/-! ## The schedule of an election -/

/-- The schedule of a round that fits: the plans start the round, in strictly increasing slots
of `Interval` seconds that end within it, `Repeat * PerCount` for each elected member; a time whole
seconds after genesis is placed by `Time2Index` in the round that contains it; and at any time in
a round that fits at most one address passes `verifyProducer`. -/
theorem genElectionResult_schedule (genesisTime : Time) (info : ConsensusGroupInfo)
    (members : List Address) (hnodup : members.Nodup) (hlen : members.length ≤ info.NodeCount) :
    (∀ index, Fits info index →
      let r := genElectionResult (NewGroupInfo genesisTime info) index members
      (members ≠ [] → r.Plans.head?.map MemberPlan.STime = some r.STime) ∧
      r.Plans.Pairwise (·.STime < ·.STime) ∧
      (∀ p ∈ r.Plans, (∃ k : ℕ, p.STime = r.STime + k * (info.Interval * Second)) ∧
        p.ETime = p.STime + info.Interval * Second ∧ p.ETime ≤ r.ETime) ∧
      r.ETime = r.STime + (NewGroupInfo genesisTime info).PlanInterval * Second ∧
      ∀ a ∈ members, (r.Plans.map MemberPlan.Member).count a = info.Repeat * info.PerCount.toNat) ∧
    (∀ s : ℕ, Fits info (s / planInterval info) →
      let index := (NewGroupInfo genesisTime info).toTimeIndex.Time2Index (genesisTime + s * Second)
      index = s / planInterval info ∧
      ((NewGroupInfo genesisTime info).toTimeIndex.Index2Time index).1 ≤ genesisTime + s * Second ∧
      genesisTime + s * Second < ((NewGroupInfo genesisTime info).toTimeIndex.Index2Time index).2) ∧
    ∀ t : Time, Fits info ((NewGroupInfo genesisTime info).toTimeIndex.Time2Index t) →
      ∀ a b : Address,
        verifyProducer t a (genElectionResult (NewGroupInfo genesisTime info)
          ((NewGroupInfo genesisTime info).toTimeIndex.Time2Index t) members) = true →
        verifyProducer t b (genElectionResult (NewGroupInfo genesisTime info)
          ((NewGroupInfo genesisTime info).toTimeIndex.Time2Index t) members) = true → a = b := by
  refine ⟨?_, ?_, ?_⟩
  · intro index h
    have hend : (genElectionResult (NewGroupInfo genesisTime info) index members).ETime =
        (genElectionResult (NewGroupInfo genesisTime info) index members).STime +
          (NewGroupInfo genesisTime info).PlanInterval * Second := by
      rw [h.genElectionResult_ETime, ← h.planInterval_eq]
      rfl
    exact ⟨h.genElectionResult_head genesisTime hlen, h.genElectionResult_sorted genesisTime hlen,
      fun p hp => h.mem_genElectionResult genesisTime hlen hp, hend,
      fun a ha => h.count_genElectionResult genesisTime hlen hnodup ha⟩
  · intro s h
    rw [h.Time2Index_eq genesisTime]
    exact ⟨rfl, h.Time2Index_mem genesisTime⟩
  · intro t h a b ha hb
    exact verifyProducer_unique (h.genElectionResult_sorted genesisTime hlen) ha hb

theorem schedule_one_of_two :
    (genElectionResult (NewGroupInfo 0 ⟨2, 1, 1, 1⟩) 3 [[1]]).Plans.Pairwise (·.STime < ·.STime) ∧
      (NewGroupInfo 0 ⟨2, 1, 1, 1⟩).toTimeIndex.Time2Index (0 + 7 * Second) = 3 :=
  ⟨((genElectionResult_schedule 0 ⟨2, 1, 1, 1⟩ [[1]] (by decide) (by decide)).1 3
      ⟨by decide, by decide, by decide, by decide, by decide⟩).2.1,
    ((genElectionResult_schedule 0 ⟨2, 1, 1, 1⟩ [[1]] (by decide) (by decide)).2.1 7
      ⟨by decide, by decide, by decide, by decide, by decide⟩).1⟩

/-- Past the last round that fits, `Index2Time` wraps: round `9223372036` of a one-second group
ends before it starts, and before its own plan ends. -/
theorem round_end_wraps :
    genElectionResult (NewGroupInfo 0 ⟨1, 1, 1, 1⟩) 9223372036 [[1]] =
      ⟨[⟨9223372036000000000, 9223372037000000000, [1]⟩], 9223372036000000000,
        -9223372036709551616, 9223372036⟩ ∧
      (NewGroupInfo 0 ⟨1, 1, 1, 1⟩).PlanInterval = 1 := by
  decide

end Vite.Consensus
