import Vite.Dex.Matcher

/-!
# One trade (`calculateOrderAndTx` and its helpers)

A trade between a taker and a maker changes only the two orders' execution state: the terms an
order was placed with (`Order.terms`) stay. `OrderInv` is what an order in the book satisfies:
nothing executed beyond its quantity, and a buy has spent no more than its amount and its locked
fee. A trade keeps it on both sides (`Fill.inv`): `calculateOrderAmount` caps a buy's amount, and
`calculateExecutedFee` caps a buy's fees at what is left of its lock.

A seller's fees come out of the amount it receives. Every fee increment is at most the fee at
its rate, so at rates of at most one percent the two fees of one side never exceed the amount
(`calculateOrderAndTx_sellerFee_le`).
-/

namespace Vite.Dex

/-! ## Terms and invariants -/

/-- The terms an order was placed with: every field but its execution state. -/
structure OrderTerms where
  Id : List UInt8
  Address : List UInt8
  MarketId : ℤ
  Side : Bool
  OrderType : OrderType
  Price : List UInt8
  TakerFeeRate : ℤ
  MakerFeeRate : ℤ
  TakerOperatorFeeRate : ℤ
  MakerOperatorFeeRate : ℤ
  Quantity : ℕ
  Amount : ℕ
  LockedBuyFee : ℕ
  Timestamp : ℤ
  Agent : List UInt8
  SendHash : List UInt8
  MarketOrderAmtThreshold : ℕ
deriving DecidableEq

/-- An order's terms. -/
def Order.terms (o : Order) : OrderTerms :=
  ⟨o.Id, o.Address, o.MarketId, o.Side, o.OrderType, o.Price, o.TakerFeeRate, o.MakerFeeRate,
    o.TakerOperatorFeeRate, o.MakerOperatorFeeRate, o.Quantity, o.Amount, o.LockedBuyFee,
    o.Timestamp, o.Agent, o.SendHash, o.MarketOrderAmtThreshold⟩

/-- Whether a maker crosses depends on the taker's terms only. -/
theorem matchPrice_congr {t t' : Order} (h : t'.terms = t.terms) (maker : Order) :
    matchPrice t' maker = matchPrice t maker := by
  have hp : t'.Price = t.Price := congrArg OrderTerms.Price h
  have hs : t'.Side = t.Side := congrArg OrderTerms.Side h
  have ht : t'.OrderType = t.OrderType := congrArg OrderTerms.OrderType h
  unfold matchPrice priceCompare
  rw [hp, hs, ht]

/-- What every order in the book satisfies. -/
structure OrderInv (o : Order) : Prop where
  executedQuantity_le : o.ExecutedQuantity ≤ o.Quantity
  executedAmount_le : o.Side = false → o.ExecutedAmount ≤ o.Amount
  executedFee_le : o.Side = false → o.ExecutedBaseFee + o.ExecutedOperatorFee ≤ o.LockedBuyFee

/-- Fee rates of at most one percent each. `RenderFeeRate` gives base rates of at most
`BaseFeeRate` (`200`) and a market's operator rates pass `ValidOperatorFeeRate` (at most `200`). -/
structure FeeRatesBounded (o : Order) : Prop where
  taker : o.TakerFeeRate ≤ 1000
  maker : o.MakerFeeRate ≤ 1000
  takerOperator : o.TakerOperatorFeeRate ≤ 1000
  makerOperator : o.MakerOperatorFeeRate ≤ 1000

theorem FeeRatesBounded.of_terms {o o' : Order} (h : FeeRatesBounded o) (ht : o'.terms = o.terms) :
    FeeRatesBounded o' := by
  obtain ⟨h1, h2, h3, h4⟩ := h
  exact ⟨(congrArg OrderTerms.TakerFeeRate ht).trans_le h1,
    (congrArg OrderTerms.MakerFeeRate ht).trans_le h2,
    (congrArg OrderTerms.TakerOperatorFeeRate ht).trans_le h3,
    (congrArg OrderTerms.MakerOperatorFeeRate ht).trans_le h4⟩

/-! ## Fees -/

/-- The outcomes of `calculateExecutedFee`, with `used` the sum of the used amounts: no rate, a
sell, or a buy whose lock was already used up, is capped by this fee, or has room left. -/
inductive ExecutedFeeOutcome (amount : ℕ) (rate : ℤ) (origin locked used : ℕ) :
    Bool → ℕ × ℕ × Bool → Prop
  | zeroRate (side : Bool) : rate = 0 → ExecutedFeeOutcome amount rate origin locked used side (0, origin, true)
  | sell (fee : ℕ) : rate ≠ 0 → CalculateAmountForRate amount rate = some fee →
      ExecutedFeeOutcome amount rate origin locked used true (fee, origin + fee, true)
  | exhausted (fee : ℕ) : rate ≠ 0 → CalculateAmountForRate amount rate = some fee → locked ≤ used →
      ExecutedFeeOutcome amount rate origin locked used false (0, origin, false)
  | capped (fee : ℕ) : rate ≠ 0 → CalculateAmountForRate amount rate = some fee → used < locked →
      locked ≤ used + fee →
      ExecutedFeeOutcome amount rate origin locked used false
        (locked - used, origin + (locked - used), false)
  | within (fee : ℕ) : rate ≠ 0 → CalculateAmountForRate amount rate = some fee → used + fee < locked →
      ExecutedFeeOutcome amount rate origin locked used false (fee, origin + fee, true)

theorem calculateExecutedFee_outcome {amount : ℕ} {rate : ℤ} {side : Bool} {origin locked : ℕ}
    {usedAmounts : List ℕ} {r : ℕ × ℕ × Bool}
    (h : calculateExecutedFee amount rate side origin locked usedAmounts = some r) :
    ExecutedFeeOutcome amount rate origin locked (usedAmounts.foldl AddBigInt 0) side r := by
  unfold calculateExecutedFee at h
  split_ifs at h with h0
  · cases h
    exact .zeroRate side h0
  obtain ⟨fee, hfee, h⟩ := Option.bind_eq_some_iff.mp h
  cases side with
  | true =>
    cases h
    exact .sell fee h0 hfee
  | false =>
    simp only [CmpForBigInt_le_zero_iff, AddBigInt] at h
    split_ifs at h with h1 h2
    · cases h
      exact .exhausted fee h0 hfee h1
    · cases h
      rw [SubBigIntAbs_of_le (by omega)]
      exact .capped fee h0 hfee (by omega) h2
    · cases h
      exact .within fee h0 hfee (by omega)

/-- The new executed fee is the old one plus the increment. -/
theorem calculateExecutedFee_exec {amount : ℕ} {rate : ℤ} {side : Bool} {origin locked : ℕ}
    {usedAmounts : List ℕ} {inc exec : ℕ} {leaved : Bool}
    (h : calculateExecutedFee amount rate side origin locked usedAmounts = some (inc, exec, leaved)) :
    exec = origin + inc := by
  cases calculateExecutedFee_outcome h <;> rfl

/-- A buy's fee keeps the used amounts within the lock. -/
theorem calculateExecutedFee_buy_le {amount : ℕ} {rate : ℤ} {origin locked : ℕ}
    {usedAmounts : List ℕ} {inc exec : ℕ} {leaved : Bool}
    (h : calculateExecutedFee amount rate false origin locked usedAmounts = some (inc, exec, leaved))
    (hu : usedAmounts.foldl AddBigInt 0 ≤ locked) :
    usedAmounts.foldl AddBigInt 0 + inc ≤ locked := by
  have ho := calculateExecutedFee_outcome h
  generalize usedAmounts.foldl AddBigInt 0 = used at ho hu ⊢
  cases ho <;> omega

/-- No increment exceeds the fee at its rate. -/
theorem calculateExecutedFee_inc_le {amount : ℕ} {rate : ℤ} {side : Bool} {origin locked : ℕ}
    {usedAmounts : List ℕ} {inc exec : ℕ} {leaved : Bool}
    (h : calculateExecutedFee amount rate side origin locked usedAmounts = some (inc, exec, leaved))
    {fee : ℕ} (hfee : CalculateAmountForRate amount rate = some fee) : inc ≤ fee := by
  cases calculateExecutedFee_outcome h with
  | zeroRate => exact Nat.zero_le fee
  | exhausted => exact Nat.zero_le fee
  | sell fee' _ hfee' =>
    cases hfee.symm.trans hfee'
    exact le_rfl
  | capped fee' _ hfee' _ hcap =>
    cases hfee.symm.trans hfee'
    omega
  | within fee' _ hfee' =>
    cases hfee.symm.trans hfee'
    exact le_rfl

/-- At a rate of at most one percent an increment is at most half the amount. -/
theorem calculateExecutedFee_two_mul_le {amount : ℕ} {rate : ℤ} {side : Bool} {origin locked : ℕ}
    {usedAmounts : List ℕ} {inc exec : ℕ} {leaved : Bool}
    (h : calculateExecutedFee amount rate side origin locked usedAmounts = some (inc, exec, leaved))
    (hr : rate ≤ 1000) : 2 * inc ≤ amount := by
  obtain ⟨fee, hfee, hle⟩ := two_mul_CalculateAmountForRate_le amount hr
  have hinc := calculateExecutedFee_inc_le h hfee
  omega

/-- A buy's fee leaves no room in the lock exactly when it is charged at a non-zero rate and the
lock is at most the used amounts and the fee together. -/
theorem calculateExecutedFee_buy_leaved_iff {amount : ℕ} {rate : ℤ} {origin locked : ℕ}
    {usedAmounts : List ℕ} {inc exec : ℕ} {leaved : Bool}
    (h : calculateExecutedFee amount rate false origin locked usedAmounts = some (inc, exec, leaved))
    {fee : ℕ} (hfee : CalculateAmountForRate amount rate = some fee) :
    leaved = false ↔ rate ≠ 0 ∧ locked ≤ usedAmounts.foldl AddBigInt 0 + fee := by
  have ho := calculateExecutedFee_outcome h
  generalize usedAmounts.foldl AddBigInt 0 = used at ho ⊢
  cases ho with
  | zeroRate _ h0 => exact iff_of_false (by decide) (fun h' => h'.1 h0)
  | exhausted fee' h0 hfee' hle =>
    cases hfee.symm.trans hfee'
    exact iff_of_true rfl ⟨h0, by omega⟩
  | capped fee' h0 hfee' _ hcap =>
    cases hfee.symm.trans hfee'
    exact iff_of_true rfl ⟨h0, hcap⟩
  | within fee' h0 hfee' hroom =>
    cases hfee.symm.trans hfee'
    exact iff_of_false (by decide) (fun h' => by omega)

/-- `calculateExecutedFee` returns once the fee at its rate is computed. -/
theorem calculateExecutedFee_isSome_of_rate {amount : ℕ} {rate : ℤ} {fee : ℕ}
    (hfee : CalculateAmountForRate amount rate = some fee) (side : Bool) (origin locked : ℕ)
    (usedAmounts : List ℕ) :
    ∃ r, calculateExecutedFee amount rate side origin locked usedAmounts = some r := by
  unfold calculateExecutedFee
  split_ifs
  · exact ⟨_, rfl⟩
  simp only [hfee, Option.bind_eq_bind, Option.bind_some]
  cases side
  · simp only
    split_ifs <;> exact ⟨_, rfl⟩
  · exact ⟨_, rfl⟩

theorem calculateExecutedFee_isSome (amount : ℕ) {rate : ℤ} (side : Bool) (origin locked : ℕ)
    (usedAmounts : List ℕ) (hr : rate ≤ 1000) :
    ∃ r, calculateExecutedFee amount rate side origin locked usedAmounts = some r := by
  obtain ⟨fee, hfee, -⟩ := two_mul_CalculateAmountForRate_le amount hr
  exact calculateExecutedFee_isSome_of_rate hfee side origin locked usedAmounts

theorem calculateExecutedFee_isSome_at_max_rate :
    (1000 : ℤ) ≤ 1000 ∧ ∃ r, calculateExecutedFee 100 1000 true 0 0 [] = some r :=
  ⟨le_refl _, calculateExecutedFee_isSome 100 true 0 0 [] (le_refl _)⟩

/-- What `CalculateFeeAndExecutedFee` does: the base fee first; the operator fee only where the
base fee left room in the lock; otherwise no operator fee, and the executed operator fee kept
(after the DEX-fee fork) or reset to `0` (before it). -/
theorem CalculateFeeAndExecutedFee_cases {order : Order} {amount : ℕ} {feeRate operatorFeeRate : ℤ}
    {fork : Bool} {ib eb io eo : ℕ}
    (h : CalculateFeeAndExecutedFee order amount feeRate operatorFeeRate fork = some (ib, eb, io, eo)) :
    ∃ leaved, calculateExecutedFee amount feeRate order.Side order.ExecutedBaseFee order.LockedBuyFee
        [order.ExecutedBaseFee, order.ExecutedOperatorFee] = some (ib, eb, leaved) ∧
      (leaved = true ∧ (∃ l, calculateExecutedFee amount operatorFeeRate order.Side
          order.ExecutedOperatorFee order.LockedBuyFee [eb, order.ExecutedOperatorFee] = some (io, eo, l)) ∨
        leaved = false ∧ io = 0 ∧ eo = if fork then order.ExecutedOperatorFee else 0) := by
  unfold CalculateFeeAndExecutedFee at h
  obtain ⟨⟨ib', eb', leaved⟩, hbase, h⟩ := Option.bind_eq_some_iff.mp h
  refine ⟨leaved, ?_⟩
  cases leaved with
  | true =>
    obtain ⟨⟨io', eo', l⟩, hop, h⟩ := Option.bind_eq_some_iff.mp h
    cases h
    exact ⟨hbase, .inl ⟨rfl, l, hop⟩⟩
  | false =>
    cases fork <;> (simp only [Bool.false_eq_true, if_false, if_true] at h; cases h) <;>
      exact ⟨hbase, .inr ⟨rfl, rfl, rfl⟩⟩

theorem CalculateFeeAndExecutedFee_baseFee {order : Order} {amount : ℕ} {feeRate operatorFeeRate : ℤ}
    {fork : Bool} {ib eb io eo : ℕ}
    (h : CalculateFeeAndExecutedFee order amount feeRate operatorFeeRate fork = some (ib, eb, io, eo)) :
    eb = order.ExecutedBaseFee + ib := by
  obtain ⟨_, hbase, -⟩ := CalculateFeeAndExecutedFee_cases h
  exact calculateExecutedFee_exec hbase

/-- After the DEX-fee fork the executed operator fee grows by the operator fee charged. -/
theorem CalculateFeeAndExecutedFee_operatorFee {order : Order} {amount : ℕ}
    {feeRate operatorFeeRate : ℤ} {ib eb io eo : ℕ}
    (h : CalculateFeeAndExecutedFee order amount feeRate operatorFeeRate true = some (ib, eb, io, eo)) :
    eo = order.ExecutedOperatorFee + io := by
  obtain ⟨_, -, ⟨-, _, hop⟩ | ⟨-, rfl, rfl⟩⟩ := CalculateFeeAndExecutedFee_cases h
  · exact calculateExecutedFee_exec hop
  · rfl

/-- A buy's executed fees stay within its lock. -/
theorem CalculateFeeAndExecutedFee_buy_le {order : Order} {amount : ℕ} {feeRate operatorFeeRate : ℤ}
    {fork : Bool} {ib eb io eo : ℕ}
    (h : CalculateFeeAndExecutedFee order amount feeRate operatorFeeRate fork = some (ib, eb, io, eo))
    (hside : order.Side = false)
    (hle : order.ExecutedBaseFee + order.ExecutedOperatorFee ≤ order.LockedBuyFee) :
    eb + eo ≤ order.LockedBuyFee := by
  obtain ⟨_, hbase, hrest⟩ := CalculateFeeAndExecutedFee_cases h
  rw [hside] at hbase hrest
  have hb := calculateExecutedFee_buy_le hbase (by simpa [AddBigInt] using hle)
  have heb := calculateExecutedFee_exec hbase
  simp only [List.foldl, AddBigInt, zero_add] at hb
  rcases hrest with ⟨-, _, hop⟩ | ⟨-, -, rfl⟩
  · have ho := calculateExecutedFee_buy_le hop (by simp only [List.foldl, AddBigInt]; omega)
    have heo := calculateExecutedFee_exec hop
    simp only [List.foldl, AddBigInt, zero_add] at ho
    omega
  · split <;> omega

/-- At rates of at most one percent, the two fees charged on one side of a trade are at most its
amount. -/
theorem CalculateFeeAndExecutedFee_le {order : Order} {amount : ℕ} {feeRate operatorFeeRate : ℤ}
    {fork : Bool} {ib eb io eo : ℕ}
    (h : CalculateFeeAndExecutedFee order amount feeRate operatorFeeRate fork = some (ib, eb, io, eo))
    (hr : feeRate ≤ 1000) (hor : operatorFeeRate ≤ 1000) : ib + io ≤ amount := by
  obtain ⟨_, hbase, hrest⟩ := CalculateFeeAndExecutedFee_cases h
  have hb := calculateExecutedFee_two_mul_le hbase hr
  rcases hrest with ⟨-, _, hop⟩ | ⟨-, rfl, -⟩
  · have ho := calculateExecutedFee_two_mul_le hop hor
    omega
  · omega

/-- `CalculateFeeAndExecutedFee` returns once the fees at both rates are computed. -/
theorem CalculateFeeAndExecutedFee_isSome_of_rates (order : Order) {amount : ℕ}
    {feeRate operatorFeeRate : ℤ} {fee opFee : ℕ} (hfee : CalculateAmountForRate amount feeRate = some fee)
    (hop : CalculateAmountForRate amount operatorFeeRate = some opFee) (fork : Bool) :
    ∃ r, CalculateFeeAndExecutedFee order amount feeRate operatorFeeRate fork = some r := by
  obtain ⟨⟨ib, eb, leaved⟩, hbase⟩ := calculateExecutedFee_isSome_of_rate hfee order.Side
    order.ExecutedBaseFee order.LockedBuyFee [order.ExecutedBaseFee, order.ExecutedOperatorFee]
  obtain ⟨⟨io, eo, l⟩, hop⟩ := calculateExecutedFee_isSome_of_rate hop order.Side
    order.ExecutedOperatorFee order.LockedBuyFee [eb, order.ExecutedOperatorFee]
  unfold CalculateFeeAndExecutedFee
  simp only [hbase, Option.bind_eq_bind, Option.bind_some]
  cases leaved
  · cases fork <;> exact ⟨_, rfl⟩
  · simp only [if_true, hop, Option.bind_some]
    exact ⟨_, rfl⟩

theorem CalculateFeeAndExecutedFee_isSome (order : Order) (amount : ℕ) {feeRate operatorFeeRate : ℤ}
    (fork : Bool) (hr : feeRate ≤ 1000) (hor : operatorFeeRate ≤ 1000) :
    ∃ r, CalculateFeeAndExecutedFee order amount feeRate operatorFeeRate fork = some r := by
  obtain ⟨fee, hfee, -⟩ := two_mul_CalculateAmountForRate_le amount hr
  obtain ⟨opFee, hop, -⟩ := two_mul_CalculateAmountForRate_le amount hor
  exact CalculateFeeAndExecutedFee_isSome_of_rates order hfee hop fork

/-- Neither increment exceeds the fee at its rate. -/
theorem CalculateFeeAndExecutedFee_inc_le {order : Order} {amount : ℕ} {feeRate operatorFeeRate : ℤ}
    {fork : Bool} {ib eb io eo : ℕ}
    (h : CalculateFeeAndExecutedFee order amount feeRate operatorFeeRate fork = some (ib, eb, io, eo))
    {fee opFee : ℕ} (hfee : CalculateAmountForRate amount feeRate = some fee)
    (hop : CalculateAmountForRate amount operatorFeeRate = some opFee) : ib ≤ fee ∧ io ≤ opFee := by
  obtain ⟨_, hbase, hrest⟩ := CalculateFeeAndExecutedFee_cases h
  refine ⟨calculateExecutedFee_inc_le hbase hfee, ?_⟩
  rcases hrest with ⟨-, _, hop'⟩ | ⟨-, rfl, -⟩
  · exact calculateExecutedFee_inc_le hop' hop
  · exact Nat.zero_le opFee

/-- A buy's operator fee after its base fee: where the base fee at a non-zero rate uses up the lock
no operator fee is charged, and the executed operator fee is kept after the DEX-fee fork and reset
to `0` before it; elsewhere the executed operator fee grows by the operator fee charged. -/
theorem CalculateFeeAndExecutedFee_buy_operatorFee {order : Order} (hside : order.Side = false)
    {amount : ℕ} {feeRate operatorFeeRate : ℤ} {fork : Bool} {ib eb io eo : ℕ}
    (h : CalculateFeeAndExecutedFee order amount feeRate operatorFeeRate fork = some (ib, eb, io, eo))
    {fee : ℕ} (hfee : CalculateAmountForRate amount feeRate = some fee) :
    (feeRate ≠ 0 ∧ order.LockedBuyFee ≤ order.ExecutedBaseFee + order.ExecutedOperatorFee + fee →
        io = 0 ∧ eo = if fork then order.ExecutedOperatorFee else 0) ∧
      (¬(feeRate ≠ 0 ∧ order.LockedBuyFee ≤ order.ExecutedBaseFee + order.ExecutedOperatorFee + fee) →
        eo = order.ExecutedOperatorFee + io) := by
  obtain ⟨leaved, hbase, hrest⟩ := CalculateFeeAndExecutedFee_cases h
  rw [hside] at hbase
  have hleaved := calculateExecutedFee_buy_leaved_iff hbase hfee
  simp only [List.foldl, AddBigInt, zero_add] at hleaved
  rcases hrest with ⟨rfl, _, hop⟩ | ⟨rfl, rfl, rfl⟩
  · -- room left: the operator fee is charged on top
    refine ⟨fun hused => absurd (hleaved.mpr hused) (by decide), fun _ => calculateExecutedFee_exec hop⟩
  · exact ⟨fun _ => ⟨rfl, rfl⟩, fun hroom => absurd (hleaved.mp rfl) hroom⟩

/-- For a buy whose executed fees are within its lock, one trade charges at most the fee at each
rate, the executed fees grow by what is charged (before the DEX-fee fork a base fee that uses up
the lock resets the executed operator fee instead), and they stay within the lock. -/
theorem CalculateFeeAndExecutedFee_buy_within_lock {order : Order} (hside : order.Side = false)
    (hlock : order.ExecutedBaseFee + order.ExecutedOperatorFee ≤ order.LockedBuyFee) (amount : ℕ)
    {feeRate operatorFeeRate : ℤ} {fee opFee : ℕ} (hfee : CalculateAmountForRate amount feeRate = some fee)
    (hop : CalculateAmountForRate amount operatorFeeRate = some opFee) (fork : Bool) :
    ∃ ib eb io eo, CalculateFeeAndExecutedFee order amount feeRate operatorFeeRate fork =
        some (ib, eb, io, eo) ∧
      ib ≤ fee ∧ io ≤ opFee ∧ eb = order.ExecutedBaseFee + ib ∧
      (fork = true ∨
          ¬(feeRate ≠ 0 ∧ order.LockedBuyFee ≤ order.ExecutedBaseFee + order.ExecutedOperatorFee + fee) →
        eo = order.ExecutedOperatorFee + io) ∧
      (fork = false → feeRate ≠ 0 →
        order.LockedBuyFee ≤ order.ExecutedBaseFee + order.ExecutedOperatorFee + fee → io = 0 ∧ eo = 0) ∧
      eb + eo ≤ order.LockedBuyFee := by
  obtain ⟨⟨ib, eb, io, eo⟩, h⟩ := CalculateFeeAndExecutedFee_isSome_of_rates order hfee hop fork
  obtain ⟨hib, hio⟩ := CalculateFeeAndExecutedFee_inc_le h hfee hop
  obtain ⟨hused, hroom⟩ := CalculateFeeAndExecutedFee_buy_operatorFee hside h hfee
  refine ⟨ib, eb, io, eo, h, hib, hio, CalculateFeeAndExecutedFee_baseFee h, ?_, ?_,
    CalculateFeeAndExecutedFee_buy_le h hside hlock⟩
  · intro hcase
    by_cases hu : feeRate ≠ 0 ∧ order.LockedBuyFee ≤ order.ExecutedBaseFee + order.ExecutedOperatorFee + fee
    · rcases hcase with rfl | hn
      · obtain ⟨rfl, heo⟩ := hused hu
        rw [heo, if_pos rfl, Nat.add_zero]
      · exact absurd hu hn
    · exact hroom hu
  · rintro rfl h0 hle
    obtain ⟨hio0, heo⟩ := hused ⟨h0, hle⟩
    exact ⟨hio0, heo⟩

/-- A buy that has used its lock of ten, five on each fee. -/
def resetSample : Order :=
  { Id := [], Address := [], MarketId := 1, Side := false, OrderType := .Limited, Price := [],
    TakerFeeRate := 1000, MakerFeeRate := 1000, TakerOperatorFeeRate := 1000, MakerOperatorFeeRate := 1000,
    Quantity := 1000, Amount := 1000, LockedBuyFee := 10, Status := .PartialExecuted,
    CancelReason := .cancelledByUser, ExecutedQuantity := 500, ExecutedAmount := 500,
    ExecutedBaseFee := 5, ExecutedOperatorFee := 5, RefundToken := [], RefundQuantity := 0,
    Timestamp := 0, Agent := [], SendHash := [], MarketOrderAmtThreshold := 0 }

/-- Before the fork, on the buy that has used its lock, the base fee at one percent uses it up. -/
theorem CalculateFeeAndExecutedFee_buy_within_lock_sample :
    ∃ fee, CalculateAmountForRate 1000 1000 = some fee ∧
      ∃ ib eb io eo, CalculateFeeAndExecutedFee resetSample 1000 1000 1000 false = some (ib, eb, io, eo) ∧
        ib ≤ fee ∧ io ≤ fee ∧ eb = 5 + ib ∧
        (false = true ∨ ¬((1000 : ℤ) ≠ 0 ∧ 10 ≤ 5 + 5 + fee) → eo = 5 + io) ∧
        (false = false → (1000 : ℤ) ≠ 0 → 10 ≤ 5 + 5 + fee → io = 0 ∧ eo = 0) ∧ eb + eo ≤ 10 := by
  obtain ⟨fee, hfee, -⟩ := two_mul_CalculateAmountForRate_le 1000 (le_refl 1000)
  exact ⟨fee, hfee, CalculateFeeAndExecutedFee_buy_within_lock rfl (by decide) 1000 hfee hfee false⟩

/-- Before the fork, a base fee at a non-zero rate that finds a buy's lock used up charges nothing
and resets the executed operator fee. -/
theorem CalculateFeeAndExecutedFee_resets_operator_fee {order : Order} (hside : order.Side = false)
    (hused : order.LockedBuyFee ≤ order.ExecutedBaseFee + order.ExecutedOperatorFee) (amount : ℕ)
    {feeRate : ℤ} (h0 : feeRate ≠ 0) {fee : ℕ} (hfee : CalculateAmountForRate amount feeRate = some fee)
    (operatorFeeRate : ℤ) :
    CalculateFeeAndExecutedFee order amount feeRate operatorFeeRate false =
      some (0, order.ExecutedBaseFee, 0, 0) := by
  have hbase : calculateExecutedFee amount feeRate order.Side order.ExecutedBaseFee order.LockedBuyFee
      [order.ExecutedBaseFee, order.ExecutedOperatorFee] = some (0, order.ExecutedBaseFee, false) := by
    simp only [calculateExecutedFee, if_neg h0, hfee, hside, Option.bind_eq_bind, Option.bind_some,
      CmpForBigInt_le_zero_iff, List.foldl, AddBigInt, zero_add, if_pos hused]
  unfold CalculateFeeAndExecutedFee
  simp only [hbase, Option.bind_eq_bind, Option.bind_some]
  rfl

/-- Before the fork, a trade of a thousand at one percent on that buy leaves its executed operator
fee at zero, not at the five it had plus the nothing charged. -/
theorem CalculateFeeAndExecutedFee_resets_operator_fee_sample :
    CalculateFeeAndExecutedFee resetSample 1000 1000 1000 false = some (0, 5, 0, 0) ∧
      0 ≠ resetSample.ExecutedOperatorFee + 0 := by
  obtain ⟨fee, hfee, -⟩ := two_mul_CalculateAmountForRate_le 1000 (le_refl 1000)
  exact ⟨CalculateFeeAndExecutedFee_resets_operator_fee rfl (by decide) 1000 (by decide) hfee 1000, by decide⟩

/-! ## Amounts -/

theorem CalculateRawAmountF_isSome (quantity : ℕ) {price : List UInt8} (decimalsDiff : ℤ)
    (hp : WellFormedPrice price) : ∃ x, CalculateRawAmountF quantity price decimalsDiff = some x := by
  obtain ⟨s, hs, hset⟩ := setString_of_wellFormed bigFloatPrec hp
  unfold CalculateRawAmountF
  simp only [hs, hset, Option.bind_eq_bind, Option.bind_some]
  exact ⟨_, rfl⟩

theorem calculateOrderAmount_isSome (order : Order) (quantity : ℕ) {price : List UInt8}
    (decimalsDiff : ℤ) (hp : WellFormedPrice price) :
    ∃ a, calculateOrderAmount order quantity price decimalsDiff = some a := by
  obtain ⟨x, hx⟩ := CalculateRawAmountF_isSome quantity decimalsDiff hp
  unfold calculateOrderAmount CalculateRawAmount
  simp only [hx, Option.map_some, Option.bind_eq_bind, Option.bind_some]
  split_ifs <;> exact ⟨_, rfl⟩

/-- A buy's amount is capped by what is left of it. -/
theorem calculateOrderAmount_le {order : Order} {quantity : ℕ} {price : List UInt8}
    {decimalsDiff : ℤ} {a : ℕ} (h : calculateOrderAmount order quantity price decimalsDiff = some a)
    (hside : order.Side = false) (hle : order.ExecutedAmount ≤ order.Amount) :
    order.ExecutedAmount + a ≤ order.Amount := by
  unfold calculateOrderAmount at h
  obtain ⟨raw, -, h⟩ := Option.bind_eq_some_iff.mp h
  simp only [hside, Bool.not_false, true_and, AddBigInt] at h
  split_ifs at h with hcap
  · cases h
    rw [SubBigIntAbs_of_le hle]
    omega
  · cases h
    omega

/-! ## Updating an order -/

/-- `updateOrder` sets the executed amounts and fees and a status, nothing else. -/
theorem updateOrder_eq {order o' : Order} {quantity amount executedBaseFee executedOperatorFee : ℕ}
    {decimalsDiff : ℤ} {executedPrice : List UInt8}
    (h : updateOrder order quantity amount executedBaseFee executedOperatorFee decimalsDiff
      executedPrice = some o') :
    ∃ full : Bool, o' = { order with
      ExecutedAmount := order.ExecutedAmount + amount
      Status := if full then .FullyExecuted else .PartialExecuted
      ExecutedBaseFee := executedBaseFee
      ExecutedOperatorFee := executedOperatorFee
      ExecutedQuantity := order.ExecutedQuantity + quantity } := by
  unfold updateOrder at h
  simp only [Option.bind_eq_bind, Option.pure_def, Option.bind_some] at h
  -- the first two tests mark the order fully executed; the dust test decides otherwise
  split_ifs at h
  · cases h
    exact ⟨true, rfl⟩
  · cases h
    exact ⟨true, rfl⟩
  · obtain ⟨full, -, h⟩ := Option.bind_eq_some_iff.mp h
    cases h
    exact ⟨full, rfl⟩

theorem IsOrderDustForPrice_isSome (order : Order) (quantity : ℕ) (decimalsDiff : ℤ)
    {price : List UInt8} (hp : WellFormedPrice price) :
    ∃ b, IsOrderDustForPrice order quantity decimalsDiff price = some b := by
  obtain ⟨x, hx⟩ := CalculateRawAmountF_isSome
    (SubBigIntAbs (SubBigIntAbs order.Quantity order.ExecutedQuantity) quantity) decimalsDiff hp
  unfold IsOrderDustForPrice
  simp only [hx, Option.bind_eq_bind, Option.bind_some]
  exact ⟨_, rfl⟩

/-- An order whose own price is well formed unless it is a market order, traded at a well-formed
price, can always be updated. -/
theorem updateOrder_isSome (order : Order) (quantity amount executedBaseFee executedOperatorFee : ℕ)
    (decimalsDiff : ℤ) {executedPrice : List UInt8}
    (hown : order.OrderType ≠ .Market → WellFormedPrice order.Price)
    (hp : WellFormedPrice executedPrice) :
    ∃ o', updateOrder order quantity amount executedBaseFee executedOperatorFee decimalsDiff
      executedPrice = some o' := by
  have hdust : ∀ o : Order, o.OrderType = order.OrderType → o.Price = order.Price →
      ∃ b, IsDustOrder o quantity decimalsDiff executedPrice = some b := by
    intro o ht hpr
    unfold IsDustOrder
    split_ifs with hm
    · exact IsOrderDustForPrice_isSome o quantity decimalsDiff (hpr ▸ hown (ht ▸ hm))
    · exact IsOrderDustForPrice_isSome o quantity decimalsDiff hp
  obtain ⟨b, hb⟩ := hdust { order with ExecutedAmount := AddBigInt order.ExecutedAmount amount } rfl rfl
  unfold updateOrder
  simp only [Option.bind_eq_bind, Option.pure_def, Option.bind_some]
  split_ifs
  · exact ⟨_, rfl⟩
  · exact ⟨_, rfl⟩
  · simp only [hb, Option.bind_some]
    exact ⟨_, rfl⟩

/-! ## A trade -/

/-- How one side of a trade changes: its terms stay, it is fully or partly executed, its executed
quantity, amount and base fee grow by the trade's, its operator fee too after the DEX-fee fork,
and it keeps `OrderInv`. -/
structure Fill (fork : Bool) (o : Order) (quantity amount fee operatorFee : ℕ) (o' : Order) : Prop where
  terms_eq : o'.terms = o.terms
  status : o'.Status = .FullyExecuted ∨ o'.Status = .PartialExecuted
  executedQuantity : o'.ExecutedQuantity = o.ExecutedQuantity + quantity
  executedAmount : o'.ExecutedAmount = o.ExecutedAmount + amount
  executedBaseFee : o'.ExecutedBaseFee = o.ExecutedBaseFee + fee
  executedOperatorFee : fork = true → o'.ExecutedOperatorFee = o.ExecutedOperatorFee + operatorFee
  inv : OrderInv o → OrderInv o'

/-- One side of a trade, from the three calls `calculateOrderAndTx` makes for it. -/
theorem fill_of_updateOrder {fork : Bool} {o o' : Order} {quantity amount fee eb operatorFee eo : ℕ}
    {feeRate operatorFeeRate decimalsDiff : ℤ} {price : List UInt8}
    (hq : quantity ≤ SubBigIntAbs o.Quantity o.ExecutedQuantity)
    (ha : o.Side = false → o.ExecutedAmount ≤ o.Amount → o.ExecutedAmount + amount ≤ o.Amount)
    (hfee : CalculateFeeAndExecutedFee o amount feeRate operatorFeeRate fork = some (fee, eb, operatorFee, eo))
    (hup : updateOrder o quantity amount eb eo decimalsDiff price = some o') :
    Fill fork o quantity amount fee operatorFee o' := by
  obtain ⟨full, rfl⟩ := updateOrder_eq hup
  have heb := CalculateFeeAndExecutedFee_baseFee hfee
  refine ⟨rfl, by cases full <;> simp, rfl, rfl, heb, ?_, ?_⟩
  · rintro rfl
    exact CalculateFeeAndExecutedFee_operatorFee hfee
  · intro hinv
    have hq' : o.ExecutedQuantity + quantity ≤ o.Quantity := by
      have := hinv.executedQuantity_le
      rw [SubBigIntAbs_of_le this] at hq
      omega
    exact ⟨hq', fun hs => ha hs (hinv.executedAmount_le hs),
      fun hs => (CalculateFeeAndExecutedFee_buy_le hfee hs (hinv.executedFee_le hs) :)⟩

/-- `calculateOrderAndTx`, call by call. -/
theorem calculateOrderAndTx_eq_some {taker maker taker' maker' : Order} {marketInfo : MarketInfo}
    {fork : Bool} {tx : OrderTx}
    (h : calculateOrderAndTx taker maker marketInfo fork = some (tx, taker', maker')) :
    let decimalsDiff := marketInfo.TradeTokenDecimals - marketInfo.QuoteTokenDecimals
    let quantity := MinBigInt (SubBigIntAbs taker.Quantity taker.ExecutedQuantity)
      (SubBigIntAbs maker.Quantity maker.ExecutedQuantity)
    ∃ takerAmount makerAmount tEb tEo mEb mEo,
      calculateOrderAmount taker quantity maker.Price decimalsDiff = some takerAmount ∧
      calculateOrderAmount maker quantity maker.Price decimalsDiff = some makerAmount ∧
      CalculateFeeAndExecutedFee taker (MinBigInt takerAmount makerAmount) taker.TakerFeeRate
        taker.TakerOperatorFeeRate fork = some (tx.TakerFee, tEb, tx.TakerOperatorFee, tEo) ∧
      CalculateFeeAndExecutedFee maker (MinBigInt takerAmount makerAmount) maker.MakerFeeRate
        maker.MakerOperatorFeeRate fork = some (tx.MakerFee, mEb, tx.MakerOperatorFee, mEo) ∧
      updateOrder taker quantity (MinBigInt takerAmount makerAmount) tEb tEo decimalsDiff
        maker.Price = some taker' ∧
      updateOrder maker quantity (MinBigInt takerAmount makerAmount) mEb mEo decimalsDiff
        maker.Price = some maker' ∧
      tx.TakerSide = taker.Side ∧ tx.TakerId = taker.Id ∧ tx.MakerId = maker.Id ∧
      tx.Price = maker.Price ∧ tx.Quantity = quantity ∧
      tx.Amount = MinBigInt takerAmount makerAmount ∧ tx.takerAddress = taker.Address ∧
      tx.makerAddress = maker.Address := by
  simp only [calculateOrderAndTx, Option.bind_eq_bind, Option.pure_def,
    Option.bind_eq_some_iff] at h
  obtain ⟨ta, hta, ma, hma, ⟨tf, teb, tof, teo⟩, htf, ⟨mf, meb, mof, meo⟩, hmf, t', ht', m', hm',
    heq⟩ := h
  simp only [Option.some.injEq, Prod.mk.injEq] at heq
  obtain ⟨rfl, rfl, rfl⟩ := heq
  exact ⟨ta, ma, teb, teo, meb, meo, hta, hma, htf, hmf, ht', hm', rfl, rfl, rfl, rfl, rfl, rfl,
    rfl, rfl⟩

/-- Both sides of a trade are fills of the trade's quantity and amount, each with its own fees. -/
theorem calculateOrderAndTx_fill {taker maker taker' maker' : Order} {marketInfo : MarketInfo}
    {fork : Bool} {tx : OrderTx}
    (h : calculateOrderAndTx taker maker marketInfo fork = some (tx, taker', maker')) :
    Fill fork taker tx.Quantity tx.Amount tx.TakerFee tx.TakerOperatorFee taker' ∧
      Fill fork maker tx.Quantity tx.Amount tx.MakerFee tx.MakerOperatorFee maker' := by
  obtain ⟨ta, ma, tEb, tEo, mEb, mEo, hta, hma, htf, hmf, ht', hm', -, -, -, -, hq, hamt, -, -⟩ :=
    calculateOrderAndTx_eq_some h
  rw [hq, hamt]
  refine ⟨fill_of_updateOrder ?_ ?_ htf ht', fill_of_updateOrder ?_ ?_ hmf hm'⟩
  · rw [MinBigInt_eq]
    exact min_le_left _ _
  · intro hs hle
    have := calculateOrderAmount_le hta hs hle
    rw [MinBigInt_eq]
    omega
  · rw [MinBigInt_eq]
    exact min_le_right _ _
  · intro hs hle
    have := calculateOrderAmount_le hma hs hle
    rw [MinBigInt_eq]
    omega

/-- The fees of a trade's seller, taken from the amount it receives (`handleTxFundSettle`). -/
def OrderTx.sellerFee (tx : OrderTx) : ℕ :=
  if tx.TakerSide then AddBigInt tx.TakerFee tx.TakerOperatorFee
  else AddBigInt tx.MakerFee tx.MakerOperatorFee

/-- At rates of at most one percent, a seller's fees never exceed the amount it receives. -/
theorem calculateOrderAndTx_sellerFee_le {taker maker taker' maker' : Order}
    {marketInfo : MarketInfo} {fork : Bool} {tx : OrderTx}
    (h : calculateOrderAndTx taker maker marketInfo fork = some (tx, taker', maker'))
    (ht : FeeRatesBounded taker) (hm : FeeRatesBounded maker) : tx.sellerFee ≤ tx.Amount := by
  obtain ⟨ta, ma, tEb, tEo, mEb, mEo, -, -, htf, hmf, -, -, -, -, -, -, -, hamt, -, -⟩ :=
    calculateOrderAndTx_eq_some h
  rw [OrderTx.sellerFee, hamt, AddBigInt, AddBigInt]
  split
  · exact CalculateFeeAndExecutedFee_le htf ht.taker ht.takerOperator
  · exact CalculateFeeAndExecutedFee_le hmf hm.maker hm.makerOperator

/-- A trade between orders with well-formed prices and bounded fee rates always goes through. -/
theorem calculateOrderAndTx_isSome {taker maker : Order} (marketInfo : MarketInfo) (fork : Bool)
    (ht : FeeRatesBounded taker) (hm : FeeRatesBounded maker)
    (htp : taker.OrderType ≠ .Market → WellFormedPrice taker.Price) (hmp : WellFormedPrice maker.Price) :
    ∃ r, calculateOrderAndTx taker maker marketInfo fork = some r := by
  generalize hd : marketInfo.TradeTokenDecimals - marketInfo.QuoteTokenDecimals = decimalsDiff
  generalize hq : MinBigInt (SubBigIntAbs taker.Quantity taker.ExecutedQuantity)
    (SubBigIntAbs maker.Quantity maker.ExecutedQuantity) = quantity
  obtain ⟨ta, hta⟩ := calculateOrderAmount_isSome taker quantity decimalsDiff hmp
  obtain ⟨ma, hma⟩ := calculateOrderAmount_isSome maker quantity decimalsDiff hmp
  obtain ⟨⟨tf, teb, tof, teo⟩, htf⟩ := CalculateFeeAndExecutedFee_isSome taker (MinBigInt ta ma)
    fork ht.taker ht.takerOperator
  obtain ⟨⟨mf, meb, mof, meo⟩, hmf⟩ := CalculateFeeAndExecutedFee_isSome maker (MinBigInt ta ma)
    fork hm.maker hm.makerOperator
  obtain ⟨t', ht'⟩ := updateOrder_isSome taker quantity (MinBigInt ta ma) teb teo decimalsDiff htp hmp
  obtain ⟨m', hm'⟩ := updateOrder_isSome maker quantity (MinBigInt ta ma) meb meo decimalsDiff
    (fun _ => hmp) hmp
  simp only [calculateOrderAndTx, Option.bind_eq_bind, Option.pure_def, hd, hq, hta, hma, htf, hmf,
    ht', hm', Option.bind_some]
  exact ⟨_, rfl⟩

end Vite.Dex
