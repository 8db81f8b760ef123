import Vite.Dex.Trade
import Vite.Lib.ExceptRun

/-!
# Placing an order (`DoPlaceOrder`, `RenderOrder`, `CheckAndLockFundForNewOrder`)

DexFund renders a new order from the user's parameters, locks its funds and sends it to
DexTrade. What `RenderOrder` and its callees read from the storage is `PlaceView`. A limit (or,
after the enrich-order fork, advanced limit) order gets its amount from its price and, for a buy,
a fee lock at the highest of its total fee rates; a market buy locks the whole available balance
and `RenderMarketBuyOrderAmountAndFee` splits it into amount and fee lock with a rate computed in
`float32` (`BinaryFloat.round 24` at each operation).

`DoPlaceOrder_locks` says what the lock is: the quantity of a sell, and the amount plus the fee
lock of a buy. For a market buy this rests on the split leaving the fee lock within the balance
(`adjustedFeeRate_le`): the float rate of a total rate of at most `400` is at most `1000`.
-/

namespace Vite.Dex

open BinaryFloat

/-- Errors of placing an order. `panicked` stands for a Go panic. -/
inductive DexError
  | InvalidOrderQuantity
  | InvalidOrderType
  | InvalidOrderPrice
  | OrderAmountTooSmall
  | DexStopped
  | TradeMarketNotExists
  | TradeMarketStopped
  | TradeMarketNotGranted
  | ExceedFundAvailable
  | InvalidOrderId
  | InvalidOrderHash
  | OrderNotExists
  | CancelOrderOwnerInvalid
  | CancelOrderInvalidStatus
  | panicked
deriving DecidableEq, Repr

/-- `BaseFeeRate`: `200 / 100000`. -/
def BaseFeeRate : ℤ := 200

/-- `VipReduceFeeRate`. -/
def VipReduceFeeRate : ℤ := 100

/-- `MaxOperatorFeeRate`. -/
def MaxOperatorFeeRate : ℤ := 200

/-- `ValidOperatorFeeRate`. -/
def ValidOperatorFeeRate (feeRate : ℤ) : Bool := 0 ≤ feeRate ∧ feeRate ≤ MaxOperatorFeeRate

/-- A market as DexFund stores it: what the matcher reads and what placing an order reads. -/
structure MarketConfig extends MarketInfo where
  Valid : Bool
  Stopped : Bool
  TakerOperatorFeeRate : ℤ
  MakerOperatorFeeRate : ℤ
  StableMarket : Bool
deriving DecidableEq, Repr

/-- What `RenderFeeRate` reads for the placing address. -/
structure FeeRateView where
  stableMarketFork : Bool
  superVIP : Bool
  vip : Bool
  invited : Bool
deriving DecidableEq, Repr

/-- `RenderFeeRate`: base rates less a VIP reduction, the market's operator rates, nine tenths
of each for an invited address; a stable market after its fork charges nothing. -/
def RenderFeeRate (view : FeeRateView) (market : MarketConfig) (order : Order) : Order :=
  if view.stableMarketFork ∧ market.StableMarket then order
  else
    let vipReduceFeeRate :=
      if view.superVIP then BaseFeeRate else if view.vip then VipReduceFeeRate else 0
    let order := { order with
      TakerFeeRate := BaseFeeRate - vipReduceFeeRate
      TakerOperatorFeeRate := market.TakerOperatorFeeRate
      MakerFeeRate := BaseFeeRate - vipReduceFeeRate
      MakerOperatorFeeRate := market.MakerOperatorFeeRate }
    if view.invited then
      { order with
        TakerFeeRate := (order.TakerFeeRate * 9).tdiv 10
        TakerOperatorFeeRate := (order.TakerOperatorFeeRate * 9).tdiv 10
        MakerFeeRate := (order.MakerFeeRate * 9).tdiv 10
        MakerOperatorFeeRate := (order.MakerOperatorFeeRate * 9).tdiv 10 }
    else order

/-- `MaxTotalFeeRate`: the larger of the taker's and the maker's total rate. -/
def MaxTotalFeeRate (order : Order) : ℤ :=
  let takerRate := order.TakerFeeRate + order.TakerOperatorFeeRate
  let makerRate := order.MakerFeeRate + order.MakerOperatorFeeRate
  if takerRate > makerRate then takerRate else makerRate

/-- `IsAdvancedLimitOrder`. -/
def IsAdvancedLimitOrder (order : Order) (enrichOrderFork : Bool) : Bool :=
  enrichOrderFork ∧
    (order.OrderType = .PostOnly ∨ order.OrderType = .FillOrKill ∨ order.OrderType = .ImmediateOrCancel)

/-- `IsMarketOrder`. -/
def IsMarketOrder (order : Order) (enrichOrderFork : Bool) : Bool :=
  enrichOrderFork ∧ order.OrderType = .Market

/-- `float32` rounding of one operation. -/
def float32 (x : ℚ) : ℚ := round 24 x

/-- The fee rate of a market buy's split, computed in `float32` and truncated, plus one. -/
def adjustedFeeRate (feeRate : ℤ) : ℤ :=
  truncate (float32 (float32 (float32 feeRate /
      float32 (float32 (RateCardinalNum : ℚ) + float32 feeRate)) * float32 (RateCardinalNum : ℚ))) + 1

/-- `RenderMarketBuyOrderAmountAndFee`: split a market buy's amount into amount and fee lock. -/
def RenderMarketBuyOrderAmountAndFee (order : Order) : Option Order :=
  let feeRate := MaxTotalFeeRate order
  if feeRate > 0 then do
    let lockedBuyFee ← CalculateAmountForRate order.Amount (adjustedFeeRate feeRate)
    return { order with
      LockedBuyFee := lockedBuyFee
      Amount := SubBigIntAbs order.Amount lockedBuyFee }
  else some order

/-- A DexFund account of one token. -/
structure Account where
  Available : ℕ
  Locked : ℕ
deriving DecidableEq, Repr

/-- `CheckAndLockFundForNewOrder` on the account of the lock token (`none` where the fund has
none): lock a limit buy's amount and fee lock, a sell's quantity, or a market buy's whole
available balance, which becomes its amount. -/
def CheckAndLockFundForNewOrder (account : Option Account) (order : Order) (enrichOrderFork : Bool)
    (isAmountTooSmall : ℕ → Bool) (marketOrderAmtThreshold : ℕ) : Except DexError (Account × Order) := do
  let lockAmount :=
    match order.Side with
    | false =>
      if order.OrderType = .Limited ∨ IsAdvancedLimitOrder order enrichOrderFork then
        AddBigInt order.Amount order.LockedBuyFee
      else 0
    | true => order.Quantity
  let some account := account | throw .ExceedFundAvailable
  let available := account.Available
  let (lockAmountToInc, order) ← (
    if order.Side ∨ order.OrderType = .Limited ∨ IsAdvancedLimitOrder order enrichOrderFork then
      pure (lockAmount, order)
    else if isAmountTooSmall available then throw .OrderAmountTooSmall
    else pure (available, { order with Amount := available }) : Except DexError (ℕ × Order))
  if (available : ℤ) - lockAmountToInc < 0 then throw .ExceedFundAvailable
  let order :=
    if order.OrderType = .Market then { order with MarketOrderAmtThreshold := marketOrderAmtThreshold }
    else order
  return (⟨available - lockAmountToInc, AddBigInt account.Locked lockAmountToInc⟩, order)

/-- `ParamPlaceOrder`; the market the two tokens name is `PlaceView.market`. -/
structure ParamPlaceOrder where
  Side : Bool
  OrderType : OrderType
  Price : List Char
  Quantity : ℕ
deriving DecidableEq, Repr

/-- `PreCheckOrderParam`, run when the request is sent: a positive quantity and, for every type
but a market order, a price `ValidPrice` accepts. A type out of range cannot be built here. -/
def PreCheckOrderParam (orderParam : ParamPlaceOrder) (isStemFork : Bool) : Except DexError Unit := do
  if orderParam.Quantity = 0 then throw .InvalidOrderQuantity
  if orderParam.OrderType = .Limited ∨ orderParam.OrderType = .PostOnly ∨
      orderParam.OrderType = .FillOrKill ∨ orderParam.OrderType = .ImmediateOrCancel then
    if !ValidPrice orderParam.Price isStemFork then throw .InvalidOrderPrice
  return ()

/-- What placing an order reads from the DexFund storage. -/
structure PlaceView where
  dexStopped : Bool
  enrichOrderFork : Bool
  market : Option MarketConfig
  IsMarketGrantedToAgent : List UInt8 → List UInt8 → ℤ → Bool
  orderIdDb : OrderIdDb
  feeRates : FeeRateView
  isAmountTooSmall : ℕ → Bool
  marketOrderAmtThreshold : ℕ
  stemFork : Bool
  dexRobotFork : Bool
  fund : Option (List (List UInt8 × Account))

/-- A fresh `Order{}`. -/
def emptyOrder : Order :=
  { Id := [], Address := [], MarketId := 0, Side := false, OrderType := .Limited, Price := [],
    TakerFeeRate := 0, MakerFeeRate := 0, TakerOperatorFeeRate := 0, MakerOperatorFeeRate := 0,
    Quantity := 0, Amount := 0, LockedBuyFee := 0, Status := .Pending,
    CancelReason := .cancelledByUser, ExecutedQuantity := 0, ExecutedAmount := 0,
    ExecutedBaseFee := 0, ExecutedOperatorFee := 0, RefundToken := [], RefundQuantity := 0,
    Timestamp := 0, Agent := [], SendHash := [], MarketOrderAmtThreshold := 0 }

/-- The checks `RenderOrder` starts with: the DEX runs, the market exists, is valid and not
stopped, and an agent placing for the owner holds the owner's grant for the market. -/
def checkMarketForOrder (view : PlaceView) (accountAddress : List UInt8)
    (agent : Option (List UInt8)) : Except DexError MarketConfig := do
  if view.dexStopped then throw .DexStopped
  let some marketInfo := view.market | throw .TradeMarketNotExists
  if !marketInfo.Valid then throw .TradeMarketNotExists
  if marketInfo.Stopped then throw .TradeMarketStopped
  if let some agent := agent then
    if !view.IsMarketGrantedToAgent accountAddress agent marketInfo.MarketId then
      throw .TradeMarketNotGranted
  return marketInfo

/-- The block of `RenderOrder` for a limit order: its amount from quantity and price, a buy's fee
lock at its highest total rate, and the market's minimum on their sum. -/
def renderLimitAmount (view : PlaceView) (marketInfo : MarketConfig) (order : Order) :
    Except DexError Order := do
  let some amount := CalculateRawAmount order.Quantity order.Price
      (marketInfo.TradeTokenDecimals - marketInfo.QuoteTokenDecimals) | throw .panicked
  let order := { order with Amount := amount }
  let order ← (
    if !order.Side then
      match CalculateAmountForRate order.Amount (MaxTotalFeeRate order) with
      | some lockedBuyFee => pure { order with LockedBuyFee := lockedBuyFee }
      | none => throw .panicked
    else pure order : Except DexError Order)
  if view.isAmountTooSmall (AddBigInt order.Amount order.LockedBuyFee) then
    throw .OrderAmountTooSmall
  return order

/-- `RenderOrder`: the order's id (advancing the serial number), terms and fee rates, and for a
limit order its amount and a buy's fee lock. -/
def RenderOrder (view : PlaceView) (order : Order) (param : ParamPlaceOrder)
    (accountAddress : List UInt8) (agent : Option (List UInt8)) (sendHash : List UInt8)
    (enrichOrderFork : Bool) : Except DexError (MarketConfig × Order × OrderIdDb) := do
  let marketInfo ← checkMarketForOrder view accountAddress agent
  let some (id, orderIdDb) := ComposeOrderId view.orderIdDb marketInfo.MarketId param.Side param.Price
    | throw .panicked
  let order := { order with
    Id := id, MarketId := marketInfo.MarketId, Address := accountAddress, Side := param.Side
    OrderType := param.OrderType, Price := PriceToBytes param.Price, Quantity := param.Quantity }
  let order := RenderFeeRate view.feeRates marketInfo order
  let order ← (
    if order.OrderType = .Limited ∨ IsAdvancedLimitOrder order enrichOrderFork then
      renderLimitAmount view marketInfo order
    else pure order : Except DexError Order)
  let some timestamp := GetTimestampInt64 view.orderIdDb | throw .panicked
  let order := { order with
    Status := .Pending, ExecutedQuantity := 0, ExecutedAmount := 0, RefundToken := []
    RefundQuantity := 0, Timestamp := timestamp }
  let order :=
    if view.stemFork then
      { order with
        Agent := if agent.isSome ∧ !view.dexRobotFork then agent.getD [] else order.Agent
        SendHash := sendHash }
    else order
  return (marketInfo, order, orderIdDb)

/-- The token an order locks: the quote token for a buy, the trade token for a sell. -/
def lockToken (marketInfo : MarketInfo) (side : Bool) : List UInt8 :=
  if side then marketInfo.TradeToken else marketInfo.QuoteToken

/-- `DoPlaceOrder`: render, lock, split a market buy; the new fund, the order sent to DexTrade
and the serial-number record. -/
def DoPlaceOrder (view : PlaceView) (param : ParamPlaceOrder) (accountAddress : List UInt8)
    (agent : Option (List UInt8)) (sendHash : List UInt8) :
    Except DexError (List (List UInt8 × Account) × Order × OrderIdDb) := do
  let enrichOrderFork := if param.OrderType ≠ .Limited then view.enrichOrderFork else false
  if param.OrderType ≠ .Limited ∧ !enrichOrderFork then throw .InvalidOrderType
  -- Go tests the type of the fresh order here, which is never a market order
  let param := if emptyOrder.OrderType = .Market then { param with Price := ['0'] } else param
  let (marketInfo, order, orderIdDb) ←
    RenderOrder view emptyOrder param accountAddress agent sendHash enrichOrderFork
  let some fund := view.fund | throw .ExceedFundAvailable
  let token := lockToken marketInfo.toMarketInfo order.Side
  let (account, order) ← CheckAndLockFundForNewOrder (AssocList.find? token fund) order enrichOrderFork
    view.isAmountTooSmall view.marketOrderAmtThreshold
  let fund := AssocList.insert token account fund
  let order ←
    if !order.Side ∧ IsMarketOrder order enrichOrderFork then
      match RenderMarketBuyOrderAmountAndFee order with
      | some order => pure order
      | none => throw .panicked
    else pure order
  return (fund, order, orderIdDb)

/-! ## Fee rates -/

/-- Each of the four fee rates lies in `[0, 200]`. -/
structure FeeRatesValid (order : Order) : Prop where
  taker : 0 ≤ order.TakerFeeRate ∧ order.TakerFeeRate ≤ 200
  maker : 0 ≤ order.MakerFeeRate ∧ order.MakerFeeRate ≤ 200
  takerOperator : 0 ≤ order.TakerOperatorFeeRate ∧ order.TakerOperatorFeeRate ≤ 200
  makerOperator : 0 ≤ order.MakerOperatorFeeRate ∧ order.MakerOperatorFeeRate ≤ 200

theorem FeeRatesValid.bounded {order : Order} (h : FeeRatesValid order) : FeeRatesBounded order :=
  ⟨h.taker.2.trans (by norm_num), h.maker.2.trans (by norm_num),
    h.takerOperator.2.trans (by norm_num), h.makerOperator.2.trans (by norm_num)⟩

theorem FeeRatesValid.maxTotalFeeRate {order : Order} (h : FeeRatesValid order) :
    0 ≤ MaxTotalFeeRate order ∧ MaxTotalFeeRate order ≤ 400 := by
  obtain ⟨⟨_, _⟩, ⟨_, _⟩, ⟨_, _⟩, ⟨_, _⟩⟩ := h
  unfold MaxTotalFeeRate
  dsimp only
  split_ifs <;> omega

/-- A market's operator rates pass `ValidOperatorFeeRate`, as the market owner's config
requires. -/
def MarketConfig.OperatorRatesValid (market : MarketConfig) : Prop :=
  ValidOperatorFeeRate market.TakerOperatorFeeRate = true ∧
    ValidOperatorFeeRate market.MakerOperatorFeeRate = true

/-- Nine tenths of a rate in `[0, 200]`, truncated, stays there. -/
theorem tdiv_nine_tenths {r : ℤ} (h : 0 ≤ r ∧ r ≤ 200) :
    0 ≤ (r * 9).tdiv 10 ∧ (r * 9).tdiv 10 ≤ 200 := by
  rw [Int.tdiv_eq_ediv_of_nonneg (by omega)]
  omega

theorem RenderFeeRate_valid (view : FeeRateView) {market : MarketConfig} {order : Order}
    (hmarket : market.OperatorRatesValid) (horder : FeeRatesValid order) :
    FeeRatesValid (RenderFeeRate view market order) := by
  obtain ⟨htaker, hmaker⟩ := hmarket
  simp only [ValidOperatorFeeRate, decide_eq_true_eq] at htaker hmaker
  unfold RenderFeeRate
  dsimp only
  -- the base rate less the VIP reduction is `200`, `100` or `0`
  have hbase : 0 ≤ BaseFeeRate - (if view.superVIP then BaseFeeRate else
      if view.vip then VipReduceFeeRate else 0) ∧ BaseFeeRate - (if view.superVIP then BaseFeeRate
      else if view.vip then VipReduceFeeRate else 0) ≤ 200 := by
    split_ifs <;> simp [BaseFeeRate, VipReduceFeeRate]
  generalize (if view.superVIP then BaseFeeRate else if view.vip then VipReduceFeeRate else 0) = vip
    at hbase ⊢
  split_ifs
  · exact horder
  · exact ⟨tdiv_nine_tenths hbase, tdiv_nine_tenths hbase, tdiv_nine_tenths htaker,
      tdiv_nine_tenths hmaker⟩
  · exact ⟨hbase, hbase, htaker, hmaker⟩

/-! ## The market buy's split -/

section Float32

variable {x : ℚ}

theorem float32_le (hx : 0 ≤ x) : float32 x ≤ x * (1 + 1 / 2 ^ 24) := round_le_mul_of_nonneg 24 hx

theorem le_float32 (hx : 0 ≤ x) : x * (1 - 1 / 2 ^ 24) ≤ float32 x := mul_le_round_of_nonneg 24 hx

theorem float32_nonneg (hx : 0 ≤ x) : 0 ≤ float32 x := round_nonneg 24 hx

end Float32

/-- The split's float rate is at most one above the total rate: the four roundings move the
quotient by a factor below `1 + 10 ^ -4`, and the truncation adds no more than the final `+ 1`. -/
theorem adjustedFeeRate_le {feeRate : ℤ} (h0 : 0 ≤ feeRate) (h1 : feeRate ≤ 1000) :
    adjustedFeeRate feeRate ≤ feeRate + 1 := by
  set ε : ℚ := 1 / 2 ^ 24 with hε
  set fr : ℚ := (feeRate : ℚ)
  set N : ℚ := ((RateCardinalNum : ℤ) : ℚ)
  have hN : N = 100000 := by simp [N, RateCardinalNum]
  have hfr0 : 0 ≤ fr := by
    simp only [fr]
    exact_mod_cast h0
  have hfr1 : fr ≤ 1000 := by
    simp only [fr]
    exact_mod_cast h1
  have hε1 : 0 ≤ 1 - ε := by rw [hε]; norm_num
  -- the rounded operands
  set a := float32 fr
  set b := float32 N
  have ha0 : 0 ≤ a := float32_nonneg hfr0
  have ha : a ≤ fr * (1 + ε) := float32_le hfr0
  have hb : N * (1 - ε) ≤ b := le_float32 (by rw [hN]; norm_num)
  have hb' : b ≤ N * (1 + ε) := float32_le (by rw [hN]; norm_num)
  have hb0 : 0 ≤ b := le_trans (by rw [hN, hε]; norm_num) hb
  have hNε : 0 < N * (1 - ε) ^ 2 := by rw [hN, hε]; norm_num
  -- the rounded denominator is at least `N (1 - ε) ^ 2`
  set c := float32 (b + a)
  have hc : N * (1 - ε) ^ 2 ≤ c := by
    have hbc := le_float32 (x := b + a) (by linarith)
    calc N * (1 - ε) ^ 2 = N * (1 - ε) * (1 - ε) := by ring
      _ ≤ (b + a) * (1 - ε) := mul_le_mul_of_nonneg_right (by linarith) hε1
      _ ≤ c := hbc
  -- the rounded quotient and product
  set d := float32 (a / c)
  have hd0 : 0 ≤ a / c := div_nonneg ha0 (hNε.le.trans hc)
  have hd : d ≤ fr * (1 + ε) / (N * (1 - ε) ^ 2) * (1 + ε) :=
    (float32_le hd0).trans (mul_le_mul_of_nonneg_right
      (div_le_div₀ (by positivity) ha hNε hc) (by positivity))
  set e := float32 (d * b)
  have he : e ≤ fr * ((1 + ε) ^ 4 / (1 - ε) ^ 2) := by
    have hdb0 : 0 ≤ d * b := mul_nonneg (float32_nonneg hd0) (by linarith)
    calc e ≤ d * b * (1 + ε) := float32_le hdb0
      _ ≤ fr * (1 + ε) / (N * (1 - ε) ^ 2) * (1 + ε) * (N * (1 + ε)) * (1 + ε) := by
          gcongr
      _ = fr * ((1 + ε) ^ 4 / (1 - ε) ^ 2) := by
          field_simp
  have hK : (1 + ε) ^ 4 / (1 - ε) ^ 2 ≤ 10001 / 10000 := by rw [hε]; norm_num
  have hlt : e < (feeRate : ℚ) + 1 := by
    calc e ≤ fr * ((1 + ε) ^ 4 / (1 - ε) ^ 2) := he
      _ ≤ fr * (10001 / 10000) := mul_le_mul_of_nonneg_left hK hfr0
      _ < fr + 1 := by linarith
  have he0 : 0 ≤ e := float32_nonneg (mul_nonneg (float32_nonneg hd0) (by linarith))
  have htrunc : truncate e ≤ feeRate := by
    rw [truncate_of_nonneg he0]
    exact Int.floor_le_iff.mpr (by exact_mod_cast hlt)
  show truncate e + 1 ≤ feeRate + 1
  omega

/-- With a total rate of at most `999` and no fee lock yet, the split moves part of the amount
into the fee lock and keeps their sum. -/
theorem RenderMarketBuyOrderAmountAndFee_split {order : Order} (hfee : order.LockedBuyFee = 0)
    (hrate : MaxTotalFeeRate order ≤ 999) :
    ∃ fee ≤ order.Amount, RenderMarketBuyOrderAmountAndFee order =
      some { order with LockedBuyFee := fee, Amount := order.Amount - fee } := by
  unfold RenderMarketBuyOrderAmountAndFee
  dsimp only
  split_ifs with hpos
  · have hadj : adjustedFeeRate (MaxTotalFeeRate order) ≤ 1000 :=
      (adjustedFeeRate_le hpos.le (by omega)).trans (by omega)
    obtain ⟨fee, hcalc, hle⟩ := two_mul_CalculateAmountForRate_le order.Amount hadj
    refine ⟨fee, by omega, ?_⟩
    simp only [hcalc, Option.bind_eq_bind, Option.bind_some, Option.pure_def,
      SubBigIntAbs_of_le (by omega : fee ≤ order.Amount)]
  · refine ⟨0, Nat.zero_le _, ?_⟩
    rw [Nat.sub_zero, ← hfee]

/-! ## The lock -/

/-- What an order locks: a sell its quantity of the trade token, a buy its amount and fee lock
of the quote token. -/
def lockedAmount (order : Order) : ℕ :=
  if order.Side then order.Quantity else order.Amount + order.LockedBuyFee

/-- An order as `DoPlaceOrder` sends it: pending, nothing executed, fee rates in range. -/
structure Fresh (order : Order) : Prop where
  status : order.Status = .Pending
  executedQuantity : order.ExecutedQuantity = 0
  executedAmount : order.ExecutedAmount = 0
  executedBaseFee : order.ExecutedBaseFee = 0
  executedOperatorFee : order.ExecutedOperatorFee = 0
  rates : FeeRatesValid order

theorem Fresh.inv {order : Order} (h : Fresh order) : OrderInv order where
  executedQuantity_le := by rw [h.executedQuantity]; exact Nat.zero_le _
  executedAmount_le _ := by rw [h.executedAmount]; exact Nat.zero_le _
  executedFee_le _ := by rw [h.executedBaseFee, h.executedOperatorFee]; exact Nat.zero_le _

/-- Placing writes the amount, the fee lock and the market threshold of a fresh order; it stays
fresh. -/
theorem Fresh.withAmounts {order : Order} (h : Fresh order) (amount lockedBuyFee threshold : ℕ) :
    Fresh { order with Amount := amount, LockedBuyFee := lockedBuyFee,
                       MarketOrderAmtThreshold := threshold } :=
  ⟨h.status, h.executedQuantity, h.executedAmount, h.executedBaseFee, h.executedOperatorFee,
    ⟨h.rates.taker, h.rates.maker, h.rates.takerOperator, h.rates.makerOperator⟩⟩

theorem fresh_emptyOrder : Fresh emptyOrder :=
  ⟨rfl, rfl, rfl, rfl, rfl, ⟨by decide, by decide, by decide, by decide⟩⟩

/-- Whether `CheckAndLockFundForNewOrder` locks the order's own terms; otherwise the order is a
market buy and locks the whole available balance. -/
def locksOwnTerms (order : Order) (enrichOrderFork : Bool) : Prop :=
  order.Side = true ∨ order.OrderType = .Limited ∨ IsAdvancedLimitOrder order enrichOrderFork = true

instance (order : Order) (enrichOrderFork : Bool) : Decidable (locksOwnTerms order enrichOrderFork) :=
  inferInstanceAs (Decidable (_ ∨ _))

/-- A successful lock moves `lock` from available to locked: the order's own lock, or for a
market buy the whole balance, which becomes its amount. Only the amount and the market threshold
of the order change. -/
theorem CheckAndLockFundForNewOrder_ok {account : Option Account} {order order' : Order}
    {enrichOrderFork : Bool} {isAmountTooSmall : ℕ → Bool} {threshold : ℕ} {account' : Account}
    (h : CheckAndLockFundForNewOrder account order enrichOrderFork isAmountTooSmall threshold =
      .ok (account', order')) :
    ∃ acc lock, account = some acc ∧ lock ≤ acc.Available ∧
      account' = ⟨acc.Available - lock, acc.Locked + lock⟩ ∧
      order' = { order with
        Amount := order'.Amount
        MarketOrderAmtThreshold := order'.MarketOrderAmtThreshold } ∧
      (locksOwnTerms order enrichOrderFork → lock = lockedAmount order ∧ order'.Amount = order.Amount) ∧
      (¬locksOwnTerms order enrichOrderFork → lock = order'.Amount) := by
  unfold CheckAndLockFundForNewOrder at h
  cases account with
  | none => cases h
  | some acc =>
    dsimp only at h
    -- the choice of lock, then the balance test
    obtain ⟨⟨lock, order₁⟩, hchoice, h⟩ := Except.bind_eq_ok.mp h
    dsimp only at h
    by_cases hneg : (acc.Available : ℤ) - lock < 0
    · rw [if_pos hneg] at h
      simp at h
    rw [if_neg hneg] at h
    have hle : lock ≤ acc.Available := by omega
    obtain ⟨rfl, rfl⟩ := Prod.mk.inj (Except.ok.inj h)
    by_cases hown : locksOwnTerms order enrichOrderFork <;> unfold locksOwnTerms at hown
    · rw [if_pos hown] at hchoice
      obtain ⟨rfl, rfl⟩ := Prod.mk.inj (Except.ok.inj hchoice)
      refine ⟨acc, _, rfl, hle, rfl, by split_ifs <;> rfl, fun _ => ⟨?_, by split_ifs <;> rfl⟩,
        fun hn => absurd hown hn⟩
      -- a sell locks its quantity, a limit buy its amount and fee lock
      unfold lockedAmount
      cases hs : order.Side
      · have hlim : order.OrderType = .Limited ∨ IsAdvancedLimitOrder order enrichOrderFork = true := by
          simpa [hs] using hown
        simp [hlim, AddBigInt]
      · rfl
    · rw [if_neg hown] at hchoice
      -- a market buy too small to place has thrown
      split_ifs at hchoice with hsmall
      obtain ⟨rfl, rfl⟩ := Prod.mk.inj (Except.ok.inj hchoice)
      exact ⟨acc, _, rfl, hle, rfl, by split_ifs <;> rfl, fun h => absurd h hown,
        fun _ => by split_ifs <;> rfl⟩

/-- `RenderFeeRate` writes the four rates and nothing else. -/
theorem RenderFeeRate_frame (view : FeeRateView) (market : MarketConfig) (order : Order) :
    ∃ taker maker takerOperator makerOperator, RenderFeeRate view market order =
      { order with TakerFeeRate := taker, MakerFeeRate := maker,
                   TakerOperatorFeeRate := takerOperator, MakerOperatorFeeRate := makerOperator } := by
  unfold RenderFeeRate
  split_ifs <;> exact ⟨_, _, _, _, rfl⟩

theorem checkMarketForOrder_ok {view : PlaceView} {accountAddress : List UInt8}
    {agent : Option (List UInt8)} {market : MarketConfig}
    (h : checkMarketForOrder view accountAddress agent = .ok market) : view.market = some market := by
  unfold checkMarketForOrder at h
  dsimp only at h
  -- every path that does not throw returns the market it read
  cases hm : view.market with
  | none => split_ifs at h <;> simp [hm] at h
  | some marketInfo =>
    cases agent <;> simp only [hm] at h <;> split_ifs at h <;> simp_all

/-- The limit block writes the amount and the fee lock and nothing else. -/
theorem renderLimitAmount_frame {view : PlaceView} {marketInfo : MarketConfig} {order order' : Order}
    (h : renderLimitAmount view marketInfo order = .ok order') :
    order' = { order with Amount := order'.Amount, LockedBuyFee := order'.LockedBuyFee } := by
  unfold renderLimitAmount at h
  split at h
  · obtain ⟨order₁, hfee, h⟩ := Except.bind_eq_ok.mp h
    -- an amount below the minimum has thrown
    split_ifs at h
    · simp at h
    obtain rfl := Except.ok.inj h
    split_ifs at hfee
    · split at hfee
      · obtain rfl := Except.ok.inj hfee
        rfl
      · cases hfee
    · obtain rfl := Except.ok.inj hfee
      rfl
  · cases h

theorem RenderOrder_ok {view : PlaceView} {order : Order} {param : ParamPlaceOrder}
    {accountAddress sendHash : List UInt8} {agent : Option (List UInt8)} {enrichOrderFork : Bool}
    {market : MarketConfig} {order' : Order} {orderIdDb : OrderIdDb}
    (hmarket : ∀ m, view.market = some m → m.OperatorRatesValid) (horder : Fresh order)
    (h : RenderOrder view order param accountAddress agent sendHash enrichOrderFork =
      .ok (market, order', orderIdDb)) :
    view.market = some market ∧ Fresh order' ∧
      (¬locksOwnTerms order' enrichOrderFork → order'.LockedBuyFee = order.LockedBuyFee) := by
  unfold RenderOrder at h
  obtain ⟨marketInfo, hcheck, h⟩ := Except.bind_eq_ok.mp h
  have hm := checkMarketForOrder_ok hcheck
  split at h
  case h_2 => cases h
  rename_i id db' _
  -- the rendered terms and fee rates
  set rendered := RenderFeeRate view.feeRates marketInfo { order with
    Id := id, MarketId := marketInfo.MarketId, Address := accountAddress, Side := param.Side
    OrderType := param.OrderType, Price := PriceToBytes param.Price, Quantity := param.Quantity }
    with hrendered
  have hvalid : FeeRatesValid rendered := RenderFeeRate_valid _ (hmarket _ hm)
    ⟨horder.rates.taker, horder.rates.maker, horder.rates.takerOperator, horder.rates.makerOperator⟩
  obtain ⟨tRate, mRate, tOpRate, mOpRate, hR⟩ := RenderFeeRate_frame view.feeRates marketInfo { order with
    Id := id, MarketId := marketInfo.MarketId, Address := accountAddress, Side := param.Side
    OrderType := param.OrderType, Price := PriceToBytes param.Price, Quantity := param.Quantity }
  -- the limit block leaves every field but the amount and the fee lock
  obtain ⟨order₁, hlimit, h⟩ := Except.bind_eq_ok.mp h
  have hframe : order₁ = { rendered with Amount := order₁.Amount, LockedBuyFee := order₁.LockedBuyFee } ∧
      (¬(rendered.OrderType = .Limited ∨ IsAdvancedLimitOrder rendered enrichOrderFork = true) →
        order₁ = rendered) := by
    split_ifs at hlimit with hlim
    · exact ⟨renderLimitAmount_frame hlimit, fun hn => absurd hlim hn⟩
    · obtain rfl := Except.ok.inj hlimit
      exact ⟨rfl, fun _ => rfl⟩
  split at h
  case h_2 => cases h
  obtain ⟨rfl, rfl, rfl⟩ : marketInfo = market ∧ _ ∧ db' = orderIdDb := by
    have := Except.ok.inj h
    simp only [Prod.mk.injEq] at this
    exact ⟨this.1, this.2.1, this.2.2⟩
  have hR' := hrendered.trans hR
  -- what the stamp keeps of the rendered order
  have hrates : FeeRatesValid order₁ := by
    rw [hframe.1]
    exact ⟨hvalid.taker, hvalid.maker, hvalid.takerOperator, hvalid.makerOperator⟩
  have hebf : order₁.ExecutedBaseFee = 0 := by
    rw [hframe.1, hR']
    exact horder.executedBaseFee
  have heof : order₁.ExecutedOperatorFee = 0 := by
    rw [hframe.1, hR']
    exact horder.executedOperatorFee
  -- a market order keeps the fee lock it came with
  have hlbf : ¬(order₁.OrderType = .Limited ∨ IsAdvancedLimitOrder order₁ enrichOrderFork = true) →
      order₁.LockedBuyFee = order.LockedBuyFee := by
    intro hn
    have hsame : order₁.OrderType = rendered.OrderType := by rw [hframe.1]
    have hlim : ¬(rendered.OrderType = .Limited ∨ IsAdvancedLimitOrder rendered enrichOrderFork = true) := by
      simpa [IsAdvancedLimitOrder, hsame] using hn
    rw [hframe.2 hlim, hR']
  refine ⟨hm, ?_, ?_⟩
  · -- the stem fork writes only the agent and the send hash
    split_ifs <;> exact ⟨rfl, rfl, rfl, hebf, heof,
      ⟨hrates.taker, hrates.maker, hrates.takerOperator, hrates.makerOperator⟩⟩
  · intro hn
    split_ifs at hn ⊢ <;> exact hlbf (fun hl => hn (.inr (by simpa [IsAdvancedLimitOrder] using hl)))

/-- A placed order: the lock token's account moves `lockedAmount order` from available to locked,
and the order DexFund sends to DexTrade is fresh. -/
theorem DoPlaceOrder_locks {view : PlaceView} {param : ParamPlaceOrder}
    {accountAddress sendHash : List UInt8} {agent : Option (List UInt8)}
    {fund' : List (List UInt8 × Account)} {order : Order} {orderIdDb : OrderIdDb}
    (hmarket : ∀ m, view.market = some m → m.OperatorRatesValid)
    (h : DoPlaceOrder view param accountAddress agent sendHash = .ok (fund', order, orderIdDb)) :
    ∃ market fund account, view.market = some market ∧ view.fund = some fund ∧
      AssocList.find? (lockToken market.toMarketInfo order.Side) fund = some account ∧
      lockedAmount order ≤ account.Available ∧
      fund' = AssocList.insert (lockToken market.toMarketInfo order.Side)
        ⟨account.Available - lockedAmount order, account.Locked + lockedAmount order⟩ fund ∧
      Fresh order := by
  unfold DoPlaceOrder at h
  extract_lets fork param₁ rest at h
  clear_value fork param₁
  -- past the order-type check, the rendered order is locked and a market buy split
  split_ifs at h
  · simp at h
  simp only [rest] at h
  obtain ⟨⟨market, order₁, db₁⟩, hrender, h⟩ := Except.bind_eq_ok.mp h
  obtain ⟨hm, hfresh, hlbf⟩ := RenderOrder_ok hmarket fresh_emptyOrder hrender
  dsimp only at h
  split at h
  case h_2 => cases h
  rename_i fund hfund
  obtain ⟨⟨account', order₂⟩, hlock, h⟩ := Except.bind_eq_ok.mp h
  obtain ⟨acc, lock, hacc, hle, rfl, hframe, hown, hmkt⟩ := CheckAndLockFundForNewOrder_ok hlock
  dsimp only at h
  have hfresh₂ : Fresh order₂ := by
    rw [hframe]
    exact hfresh.withAmounts _ order₁.LockedBuyFee _
  have hside : order₂.Side = order₁.Side := by rw [hframe]
  have htype : order₂.OrderType = order₁.OrderType := by rw [hframe]
  have hlbf₂ : order₂.LockedBuyFee = order₁.LockedBuyFee := by rw [hframe]
  -- the lock is what the order sent to DexTrade locks
  have hlock₂ : ¬locksOwnTerms order₁ fork → lock = lockedAmount order₂ ∧ order₂.Side = false ∧
      order₂.LockedBuyFee = 0 := by
    intro hn
    have hs : order₁.Side = false := by
      cases hs : order₁.Side
      · rfl
      · exact absurd (.inl hs) hn
    have hzero : order₂.LockedBuyFee = 0 := hlbf₂.trans (hlbf hn)
    refine ⟨?_, hside.trans hs, hzero⟩
    rw [hmkt hn, lockedAmount, if_neg (by rw [hside, hs]; decide), hzero, Nat.add_zero]
  by_cases hsplit : (!order₂.Side) = true ∧ IsMarketOrder order₂ fork = true
  · -- a market buy: its whole lock is split into amount and fee lock
    rw [if_pos hsplit] at h
    have hn : ¬locksOwnTerms order₁ fork := by
      intro hown'
      rcases hown' with hs | hl | ha
      · simp [hside, hs] at hsplit
      · simp [IsMarketOrder, htype, hl] at hsplit
      · simp [IsMarketOrder, IsAdvancedLimitOrder, htype] at hsplit ha
        rcases ha.2 with h1 | h1 | h1 <;> simp [h1] at hsplit
    obtain ⟨hlockEq, -, hzero⟩ := hlock₂ hn
    obtain ⟨fee, hfee, hrmb⟩ := RenderMarketBuyOrderAmountAndFee_split hzero
      (hfresh₂.rates.maxTotalFeeRate.2.trans (by norm_num))
    rw [hrmb] at h
    simp only [Except.pure_eq_ok, Except.ok_bind, Except.ok.injEq, Prod.mk.injEq] at h
    obtain ⟨rfl, rfl, rfl⟩ := h
    have hbuy : order₂.Side = false := by simpa using hsplit.1
    have hL : lockedAmount { order₂ with LockedBuyFee := fee, Amount := order₂.Amount - fee } = lock := by
      rw [hlockEq, lockedAmount, lockedAmount, hzero]
      dsimp only
      rw [if_neg (by rw [hbuy]; decide), if_neg (by rw [hbuy]; decide)]
      omega
    refine ⟨market, fund, acc, hm, hfund, by rwa [← hside] at hacc, by rw [hL]; exact hle, ?_,
      hfresh₂.withAmounts _ _ _⟩
    dsimp only
    rw [hL, hside]
  · -- otherwise the order goes as it was locked
    rw [if_neg hsplit] at h
    simp only [Except.pure_eq_ok, Except.ok_bind, Except.ok.injEq, Prod.mk.injEq] at h
    obtain ⟨rfl, rfl, rfl⟩ := h
    have hquantity : order₂.Quantity = order₁.Quantity := by rw [hframe]
    have hL : lock = lockedAmount order₂ := by
      by_cases ho : locksOwnTerms order₁ fork
      · obtain ⟨hl, hamt⟩ := hown ho
        rw [hl, lockedAmount, lockedAmount, hside, hamt, hlbf₂, hquantity]
      · exact (hlock₂ ho).1
    refine ⟨market, fund, acc, hm, hfund, by rwa [hside], by rw [← hL]; exact hle, ?_, hfresh₂⟩
    rw [← hL, hside]

end Vite.Dex
