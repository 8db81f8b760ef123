import Vite.Dex.Order

/-!
# The matcher (`matcher.go`)

`MatchOrder` takes a new order against the book of the other side: `recursiveTakeOrder` walks the
book from its best maker, trading while the prices cross, and returns the taker, the makers it
touched and the transactions; `handleTakerRes`, `handleModifiedMakers` and `handleTxs` then write
the orders back, refund what is left locked, and record the balance changes (`fundSettles`) and
fees (`feeSettles`) that DexTrade sends to DexFund.

Go mutates the taker and maker in place; here each function returns the updated orders. A Go
panic (a price `BytesToPrice` cannot print) is `none`. The events the matcher adds to the VM
database with `AddLog` are kept in `logs`, as the events themselves: `newLog`'s encoding of an
event into topics and data is left out. `MatchEnv` is what the matcher reads of the chain: the two
forks its branches depend on.
-/

namespace Vite.Dex

/-- The forks the matcher reads. -/
structure MatchEnv where
  dexFeeFork : Bool
  enrichOrderFork : Bool

/-- `maxTxsCountPerTaker`. -/
def maxTxsCountPerTaker : ℕ := 100

/-- `timeoutSecond`: thirty days. -/
def timeoutSecond : ℤ := 30 * 24 * 3600

/-- `proto.OrderUpdateInfo`. -/
structure OrderUpdateInfo where
  Id : List UInt8
  TradeToken : List UInt8
  QuoteToken : List UInt8
  Status : OrderStatus
  CancelReason : CancelReason
  ExecutedQuantity : ℕ
  ExecutedAmount : ℕ
  ExecutedBaseFee : ℕ
  ExecutedOperatorFee : ℕ
  RefundToken : List UInt8
  RefundQuantity : ℕ
deriving DecidableEq, Repr

/-- The events of the matcher: `NewOrderEvent` (the order with the market's tokens),
`OrderUpdateEvent` and `TransactionEvent`. -/
inductive DexEvent where
  | NewOrder (order : Order) (tradeToken quoteToken : List UInt8)
  | OrderUpdate (info : OrderUpdateInfo)
  | Transaction (tx : OrderTx)
deriving DecidableEq, Repr

/-- The matcher's state: the market, the settles it accumulates, the DexTrade storage, and the
events it has logged. The nested `map[Address]map[bool]` of fund settles is keyed here by the
pair. -/
structure Matcher where
  MarketInfo : MarketInfo
  fundSettles : List ((List UInt8 × Bool) × AccountSettle)
  feeSettles : List (List UInt8 × FeeSettle)
  db : TradeDb
  logs : List DexEvent

/-- `NewMatcherWithMarketInfo`: no settles and no events yet. -/
def NewMatcherWithMarketInfo (db : TradeDb) (marketInfo : MarketInfo) : Matcher :=
  ⟨marketInfo, [], [], db, []⟩

/-! ## Prices, timeouts and fees -/

/-- `priceCompare`: `bytes.Compare`. -/
def priceCompare (a b : List UInt8) : Ordering := compare a b

/-- `matchPrice`: whether the maker's price crosses the taker's, and the price of the trade. -/
def matchPrice (taker maker : Order) : Bool × List UInt8 :=
  let cmp := priceCompare taker.Price maker.Price
  if taker.OrderType = .Market ∨ cmp = .eq then (true, maker.Price)
  else
    match taker.Side with
    | false => (cmp != .lt, maker.Price)
    | true => (cmp != .gt, maker.Price)

/-- `filterTimeout`: before the enrich-order fork, a maker older than thirty days at the trade
timestamp is cancelled and skipped. -/
def filterTimeout (tradeTimestamp : ℤ) (enrichOrderFork : Bool) (maker : Order) : Bool × Order :=
  if tradeTimestamp = 0 then (false, maker)
  else if tradeTimestamp > maker.Timestamp + timeoutSecond ∧ !enrichOrderFork then
    let reason :=
      match maker.Status with
      | .Pending => CancelReason.cancelledOnTimeout
      | .PartialExecuted => .partialExecutedCancelledOnTimeout
      | _ => .unknownCancelledOnTimeout
    (true, { maker with CancelReason := reason, Status := .Cancelled })
  else (false, maker)

/-- `calculateExecutedFee`: the fee of one trade, the order's new executed fee, and whether the
lock left room for more (`leaved`). A buy's fee is capped by what is left of `LockedBuyFee`
after the fees already used. -/
def calculateExecutedFee (amount : ℕ) (feeRate : ℤ) (side : Bool) (originExecutedFee totalLockedAmount : ℕ)
    (usedAmounts : List ℕ) : Option (ℕ × ℕ × Bool) :=
  if feeRate = 0 then some (0, originExecutedFee, true)
  else do
    let incFee ← CalculateAmountForRate amount feeRate
    match side with
    | false =>
      let totalUsedAmount := usedAmounts.foldl AddBigInt 0
      if CmpForBigInt totalLockedAmount totalUsedAmount ≤ 0 then some (0, originExecutedFee, false)
      else
        let totalUsedAmountNew := AddBigInt totalUsedAmount incFee
        if CmpForBigInt totalLockedAmount totalUsedAmountNew ≤ 0 then
          let incFee := SubBigIntAbs totalLockedAmount totalUsedAmount
          some (incFee, AddBigInt originExecutedFee incFee, false)
        else some (incFee, AddBigInt originExecutedFee incFee, true)
    | true => some (incFee, AddBigInt originExecutedFee incFee, true)

/-- `CalculateFeeAndExecutedFee`: base fee, executed base fee, operator fee, executed operator
fee. When the base fee exhausts a buy's lock, no operator fee is charged, and before the DEX-fee
fork the executed operator fee is reset to `nil`. -/
def CalculateFeeAndExecutedFee (order : Order) (amount : ℕ) (feeRate operatorFeeRate : ℤ)
    (isDexFeeFork : Bool) : Option (ℕ × ℕ × ℕ × ℕ) := do
  let (incBaseFee, executedBaseFee, leaved) ← calculateExecutedFee amount feeRate order.Side
    order.ExecutedBaseFee order.LockedBuyFee [order.ExecutedBaseFee, order.ExecutedOperatorFee]
  if leaved then
    let (incOperatorFee, executedOperatorFee, _) ← calculateExecutedFee amount operatorFeeRate
      order.Side order.ExecutedOperatorFee order.LockedBuyFee [executedBaseFee, order.ExecutedOperatorFee]
    some (incBaseFee, executedBaseFee, incOperatorFee, executedOperatorFee)
  else if isDexFeeFork then some (incBaseFee, executedBaseFee, 0, order.ExecutedOperatorFee)
  else some (incBaseFee, executedBaseFee, 0, 0)

/-! ## One trade -/

/-- `calculateOrderAmount`: the quote amount of `quantity` at `price`, capped for a buy by what
is left of its amount. -/
def calculateOrderAmount (order : Order) (quantity : ℕ) (price : List UInt8) (decimalsDiff : ℤ) :
    Option ℕ := do
  let amount ← CalculateRawAmount quantity price decimalsDiff
  if !order.Side ∧ order.Amount < AddBigInt order.ExecutedAmount amount then
    some (SubBigIntAbs order.Amount order.ExecutedAmount)
  else some amount

/-- `IsOrderDustForPrice`: what would be left after this trade is worth less than one unit. -/
def IsOrderDustForPrice (order : Order) (quantity : ℕ) (decimalsDiff : ℤ) (price : List UInt8) :
    Option Bool := do
  let leftF ← CalculateRawAmountF
    (SubBigIntAbs (SubBigIntAbs order.Quantity order.ExecutedQuantity) quantity) price decimalsDiff
  return decide (leftF < 1)

/-- `IsDustOrder`: at the order's own price, or at the trade's for a market order. -/
def IsDustOrder (order : Order) (quantity : ℕ) (decimalsDiff : ℤ) (executedPrice : List UInt8) :
    Option Bool :=
  if order.OrderType ≠ .Market then IsOrderDustForPrice order quantity decimalsDiff order.Price
  else IsOrderDustForPrice order quantity decimalsDiff executedPrice

/-- `updateOrder`. The executed amount is added first, and the market-buy test reads it so. The
tests are `||` in Go: the dust test runs only when the first two fail. -/
def updateOrder (order : Order) (quantity amount executedBaseFee executedOperatorFee : ℕ)
    (decimalsDiff : ℤ) (executedPrice : List UInt8) : Option Order := do
  let order := { order with ExecutedAmount := AddBigInt order.ExecutedAmount amount }
  let full ←
    if SubBigIntAbs order.Quantity order.ExecutedQuantity = quantity then some true
    else if order.OrderType = .Market ∧ !order.Side ∧
        SubBigIntAbs order.Amount order.ExecutedAmount = amount then some true
    else IsDustOrder order quantity decimalsDiff executedPrice
  return { order with
    Status := if full then .FullyExecuted else .PartialExecuted
    ExecutedBaseFee := executedBaseFee
    ExecutedOperatorFee := executedOperatorFee
    ExecutedQuantity := AddBigInt order.ExecutedQuantity quantity }

/-- `calculateOrderAndTx`: the trade of a taker with one maker at the maker's price, and both
orders after it. -/
def calculateOrderAndTx (taker maker : Order) (marketInfo : MarketInfo) (isDexFeeFork : Bool) :
    Option (OrderTx × Order × Order) := do
  let decimalsDiff := marketInfo.TradeTokenDecimals - marketInfo.QuoteTokenDecimals
  let executeQuantity := MinBigInt (SubBigIntAbs taker.Quantity taker.ExecutedQuantity)
    (SubBigIntAbs maker.Quantity maker.ExecutedQuantity)
  let takerAmount ← calculateOrderAmount taker executeQuantity maker.Price decimalsDiff
  let makerAmount ← calculateOrderAmount maker executeQuantity maker.Price decimalsDiff
  let executeAmount := MinBigInt takerAmount makerAmount
  let (takerFee, takerExecutedFee, takerOperatorFee, takerExecutedOperatorFee) ←
    CalculateFeeAndExecutedFee taker executeAmount taker.TakerFeeRate taker.TakerOperatorFeeRate
      isDexFeeFork
  let (makerFee, makerExecutedFee, makerOperatorFee, makerExecutedOperatorFee) ←
    CalculateFeeAndExecutedFee maker executeAmount maker.MakerFeeRate maker.MakerOperatorFeeRate
      isDexFeeFork
  let taker' ← updateOrder taker executeQuantity executeAmount takerExecutedFee
    takerExecutedOperatorFee decimalsDiff maker.Price
  let maker' ← updateOrder maker executeQuantity executeAmount makerExecutedFee
    makerExecutedOperatorFee decimalsDiff maker.Price
  let tx : OrderTx :=
    { TakerSide := taker.Side, TakerId := taker.Id, MakerId := maker.Id, Price := maker.Price
      Quantity := executeQuantity, Amount := executeAmount
      TakerFee := takerFee, MakerFee := makerFee
      TakerOperatorFee := takerOperatorFee, MakerOperatorFee := makerOperatorFee
      Timestamp := taker.Timestamp, takerAddress := taker.Address, makerAddress := maker.Address
      tradeToken := marketInfo.TradeToken, quoteToken := marketInfo.QuoteToken }
  return (tx, taker', maker')

/-! ## Walking the book -/

/-- The body of `recursiveTakeOrder` for one maker: whether it returns here, then the taker, the
modified makers and the txs. -/
def takeMaker (env : MatchEnv) (marketInfo : MarketInfo) (tradeTimestamp : ℤ) (taker maker : Order)
    (modifiedMakers : List Order) (txs : List OrderTx) :
    Option (Bool × Order × List Order × List OrderTx) :=
  let (timedOut, maker) := filterTimeout tradeTimestamp env.enrichOrderFork maker
  if timedOut then some (false, taker, modifiedMakers ++ [maker], txs)
  else if (matchPrice taker maker).1 then
    if taker.OrderType = .PostOnly then
      some (true, { taker with Status := .Cancelled, CancelReason := .cancelledByPostOnlyMatched },
        modifiedMakers, txs)
    else do
      let (tx, taker, maker) ← calculateOrderAndTx taker maker marketInfo env.dexFeeFork
      let txs := txs ++ [tx]
      let taker :=
        if taker.Status = .PartialExecuted ∧ maxTxsCountPerTaker ≤ txs.length then
          { taker with Status := .Cancelled, CancelReason := .partialExecutedCancelledByMarket }
        else taker
      some (false, taker, modifiedMakers ++ [maker], txs)
  else some (true, taker, modifiedMakers, txs)

/-- `recursiveTakeOrder`: take `maker`, then the makers of `rest` in order, until a price does
not cross, the taker is done or cancelled, or the book ends. -/
def recursiveTakeOrder (env : MatchEnv) (marketInfo : MarketInfo) (tradeTimestamp : ℤ)
    (taker maker : Order) (rest : List Order) (modifiedMakers : List Order) (txs : List OrderTx) :
    Option (Order × List Order × List OrderTx) := do
  let (stop, taker, modifiedMakers, txs) ←
    takeMaker env marketInfo tradeTimestamp taker maker modifiedMakers txs
  if stop ∨ taker.Status = .FullyExecuted ∨ taker.Status = .Cancelled then
    some (taker, modifiedMakers, txs)
  else
    match rest with
    | [] => some (taker, modifiedMakers, txs)
    | newMaker :: rest =>
      recursiveTakeOrder env marketInfo tradeTimestamp taker newMaker rest modifiedMakers txs

/-! ## Settling -/

/-- Add one settle to another. -/
def AccountSettle.add (ac settle : AccountSettle) : AccountSettle :=
  { ac with
    IncAvailable := AddBigInt ac.IncAvailable settle.IncAvailable
    ReleaseLocked := AddBigInt ac.ReleaseLocked settle.ReleaseLocked
    ReduceLocked := AddBigInt ac.ReduceLocked settle.ReduceLocked }

/-- `updateFundSettle`: add a settle to the address's settle of that token. -/
def Matcher.updateFundSettle (mc : Matcher) (address : List UInt8) (settle : AccountSettle) :
    Matcher :=
  { mc with
    fundSettles := AssocList.modify (address, settle.IsTradeToken) (·.add settle)
      ⟨settle.IsTradeToken, 0, 0, 0⟩ mc.fundSettles }

/-- `updateFee`: add a trade's base and operator fee to the address's fee settle. -/
def Matcher.updateFee (mc : Matcher) (address : List UInt8) (feeAmt operatorFee : ℕ) : Matcher :=
  { mc with
    feeSettles := AssocList.modify address
      (fun fs => { fs with
        BaseFee := AddBigInt fs.BaseFee feeAmt
        OperatorFee := AddBigInt fs.OperatorFee operatorFee })
      ⟨address, 0, 0⟩ mc.feeSettles }

/-- `handleRefund`: a finished or cancelled order gets back what is still locked for it. -/
def Matcher.handleRefund (mc : Matcher) (order : Order) : Matcher × Order :=
  if order.Status = .FullyExecuted ∨ order.Status = .Cancelled then
    let (refundToken, refundQuantity) :=
      match order.Side with
      | false =>
        (mc.MarketInfo.QuoteToken,
          AddBigInt (SubBigIntAbs order.Amount order.ExecutedAmount)
            (SubBigIntAbs (SubBigIntAbs order.LockedBuyFee order.ExecutedBaseFee)
              order.ExecutedOperatorFee))
      | true => (mc.MarketInfo.TradeToken, SubBigIntAbs order.Quantity order.ExecutedQuantity)
    if CmpToBigZero refundQuantity > 0 then
      (mc.updateFundSettle order.Address ⟨order.Side, 0, 0, refundQuantity⟩,
        { order with RefundToken := refundToken, RefundQuantity := refundQuantity })
    else (mc, { order with RefundToken := [], RefundQuantity := 0 })
  else (mc, order)

/-- `handleTxFundSettle`: the four balance changes of a trade and the two parties' fees. A buy
taker's lock pays the amount and its fees; a seller receives the amount less its fees. -/
def Matcher.handleTxFundSettle (mc : Matcher) (tx : OrderTx) : Matcher :=
  let (takerInSettle, takerOutSettle, makerInSettle, makerOutSettle) :
      AccountSettle × AccountSettle × AccountSettle × AccountSettle :=
    match tx.TakerSide with
    | false =>
      (⟨true, tx.Quantity, 0, 0⟩,
        ⟨false, 0, AddBigInt tx.Amount (AddBigInt tx.TakerFee tx.TakerOperatorFee), 0⟩,
        ⟨false, SubBigIntAbs tx.Amount (AddBigInt tx.MakerFee tx.MakerOperatorFee), 0, 0⟩,
        ⟨true, 0, tx.Quantity, 0⟩)
    | true =>
      (⟨false, SubBigIntAbs tx.Amount (AddBigInt tx.TakerFee tx.TakerOperatorFee), 0, 0⟩,
        ⟨true, 0, tx.Quantity, 0⟩,
        ⟨true, tx.Quantity, 0, 0⟩,
        ⟨false, 0, AddBigInt tx.Amount (AddBigInt tx.MakerFee tx.MakerOperatorFee), 0⟩)
  let mc := mc.updateFundSettle tx.takerAddress takerInSettle
  let mc := mc.updateFundSettle tx.takerAddress takerOutSettle
  let mc := mc.updateFundSettle tx.makerAddress makerInSettle
  let mc := mc.updateFundSettle tx.makerAddress makerOutSettle
  let mc := mc.updateFee tx.takerAddress tx.TakerFee tx.TakerOperatorFee
  mc.updateFee tx.makerAddress tx.MakerFee tx.MakerOperatorFee

/-- `AddLog` on the matcher's VM database. -/
def Matcher.AddLog (mc : Matcher) (event : DexEvent) : Matcher :=
  { mc with logs := mc.logs ++ [event] }

/-- `emitNewOrder`. -/
def Matcher.emitNewOrder (mc : Matcher) (taker : Order) : Matcher :=
  mc.AddLog (.NewOrder taker mc.MarketInfo.TradeToken mc.MarketInfo.QuoteToken)

/-- `emitOrderUpdate`. -/
def Matcher.emitOrderUpdate (mc : Matcher) (order : Order) : Matcher :=
  mc.AddLog (.OrderUpdate
    { Id := order.Id, TradeToken := mc.MarketInfo.TradeToken, QuoteToken := mc.MarketInfo.QuoteToken
      Status := order.Status, CancelReason := order.CancelReason
      ExecutedQuantity := order.ExecutedQuantity, ExecutedAmount := order.ExecutedAmount
      ExecutedBaseFee := order.ExecutedBaseFee, ExecutedOperatorFee := order.ExecutedOperatorFee
      RefundToken := order.RefundToken, RefundQuantity := order.RefundQuantity })

/-- `handleTxs`: each trade's settles, then its `TransactionEvent`. -/
def Matcher.handleTxs (mc : Matcher) (txs : List OrderTx) : Matcher :=
  txs.foldl (fun mc tx => (mc.handleTxFundSettle tx).AddLog (.Transaction tx)) mc

/-- `saveOrder` on the matcher's storage. -/
def Matcher.saveOrder (mc : Matcher) (order : Order) (isTaker : Bool) : Matcher :=
  { mc with db := mc.db.saveOrder order isTaker }

/-- `deleteOrder` on the matcher's storage. -/
def Matcher.deleteOrder (mc : Matcher) (order : Order) : Matcher :=
  { mc with db := mc.db.deleteOrder order }

/-- `handleModifiedMakers`: finished and cancelled makers are refunded and deleted, the others
saved; each gets an `OrderUpdateEvent`. -/
def Matcher.handleModifiedMakers (mc : Matcher) (makers : List Order) : Matcher :=
  makers.foldl (fun mc maker =>
    if maker.Status = .FullyExecuted ∨ maker.Status = .Cancelled then
      let (mc, maker) := mc.handleRefund maker
      (mc.deleteOrder maker).emitOrderUpdate maker
    else (mc.saveOrder maker false).emitOrderUpdate maker) mc

/-- `checkMarketOrderAmtThreshold`: a market order whose execution would spend more than its
threshold is cancelled with nothing executed. -/
def checkMarketOrderAmtThreshold (taker : Order) : Bool × Order :=
  if taker.OrderType = .Market ∧
      taker.MarketOrderAmtThreshold <
        AddBigInt (AddBigInt taker.ExecutedAmount taker.ExecutedBaseFee) taker.ExecutedOperatorFee then
    (true, { taker with
      Status := .Cancelled
      CancelReason := .cancelledByExceedMarketOrderAmtThreshold
      ExecutedAmount := 0, ExecutedBaseFee := 0, ExecutedOperatorFee := 0, ExecutedQuantity := 0 })
  else (false, taker)

/-- `handleTakerRes`: a market or immediate-or-cancel taker left open is cancelled, a
fill-or-kill one is cancelled with nothing executed, a limit one is saved; a finished or
cancelled taker is refunded. Every taker then gets its `NewOrderEvent`. -/
def Matcher.handleTakerRes (mc : Matcher) (taker : Order) : Matcher × Order :=
  let (res, taker) := checkMarketOrderAmtThreshold taker
  let (mc, taker) :=
    if res then mc.handleRefund taker
    else if taker.Status = .PartialExecuted ∨ taker.Status = .Pending then
      let taker :=
        if taker.OrderType = .Market ∨ taker.OrderType = .ImmediateOrCancel then
          { taker with Status := .Cancelled, CancelReason := .cancelledByMarket }
        else if taker.OrderType = .FillOrKill then
          { taker with
            Status := .Cancelled
            CancelReason := .cancelledByFillOrKillNotFilled
            ExecutedAmount := 0, ExecutedBaseFee := 0, ExecutedOperatorFee := 0, ExecutedQuantity := 0 }
        else taker
      if taker.Status = .Cancelled then mc.handleRefund taker
      else (mc.saveOrder taker true, taker)
    else mc.handleRefund taker
  (mc.emitNewOrder taker, taker)

/-- Whether the taker's result undoes its trades: fill-or-kill unfilled, or over the market
order threshold. -/
def undoesTrades (taker : Order) : Bool :=
  taker.CancelReason = .cancelledByFillOrKillNotFilled ∨
    taker.CancelReason = .cancelledByExceedMarketOrderAmtThreshold

/-- `doMatchTaker` over a book. -/
def Matcher.doMatchTaker (env : MatchEnv) (mc : Matcher) (taker : Order) (makerBook : List Order)
    (preHash : List UInt8) : Option (Matcher × Order) :=
  match makerBook with
  | [] =>
    let (mc, taker) := mc.handleTakerRes taker
    some ({ mc with db := mc.db.TryUpdateTimestamp taker.Timestamp preHash }, taker)
  | maker :: rest => do
    let (taker, modifiedMakers, txs) ←
      recursiveTakeOrder env mc.MarketInfo mc.db.tradeTimestamp taker maker rest [] []
    let (mc, taker) := mc.handleTakerRes taker
    let mc := if !undoesTrades taker then (mc.handleModifiedMakers modifiedMakers).handleTxs txs
      else mc
    some ({ mc with db := mc.db.TryUpdateTimestamp taker.Timestamp preHash }, taker)

/-- `MatchOrder`: match a taker against the book of the other side. -/
def Matcher.MatchOrder (env : MatchEnv) (mc : Matcher) (taker : Order) (preHash : List UInt8) :
    Option (Matcher × Order) :=
  mc.doMatchTaker env taker (getMakerBook mc.db mc.MarketInfo.MarketId (!taker.Side)) preHash

end Vite.Dex
