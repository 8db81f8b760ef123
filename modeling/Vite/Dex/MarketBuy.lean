import Vite.Dex.Priority

/-!
# A buy whose amount runs out (`calculateOrderAmount`, `updateOrder`)

`calculateOrderAndTx` takes the trade quantity as the smaller of the two remaining quantities and
prices it separately for each side; `calculateOrderAmount` caps a buy's price at what is left of
its amount, and nothing shrinks the quantity to match. A market buy locks its whole available
balance as `Amount` next to a quantity of the owner's choosing, so the cap is reached in
practice: the trade then delivers the full quantity for the capped amount
(`calculateOrderAndTx_buy_pays_capped`).

`updateOrder` tests a market buy for an exhausted amount by comparing what is left after the fill
(the executed amount already counts it) with the fill, not with zero. A fill that spends the
amount exactly leaves the order partly executed (`calculateOrderAndTx_spent_market_buy_partial`),
and every later trade of it has amount zero (`calculateOrderAndTx_spent_buy_amount_zero`).
-/

namespace Vite.Dex

/-! ## Pricing one side -/

/-- A buy that cannot pay the raw amount of the quantity is priced at what is left of its amount. -/
theorem calculateOrderAmount_capped {order : Order} {quantity raw : ℕ} {price : List UInt8}
    {decimalsDiff : ℤ} (hraw : CalculateRawAmount quantity price decimalsDiff = some raw)
    (hbuy : order.Side = false) (hshort : order.Amount < order.ExecutedAmount + raw) :
    calculateOrderAmount order quantity price decimalsDiff =
      some (SubBigIntAbs order.Amount order.ExecutedAmount) := by
  unfold calculateOrderAmount
  simp [hraw, hbuy, AddBigInt, hshort]

/-- A sell is priced at the raw amount of the quantity. -/
theorem calculateOrderAmount_sell {order : Order} (quantity : ℕ) (price : List UInt8)
    (decimalsDiff : ℤ) (hsell : order.Side = true) :
    calculateOrderAmount order quantity price decimalsDiff =
      CalculateRawAmount quantity price decimalsDiff := by
  unfold calculateOrderAmount
  cases CalculateRawAmount quantity price decimalsDiff <;> simp [hsell]

/-- A buy whose amount is spent is priced at zero, whatever the quantity. -/
theorem calculateOrderAmount_spent {order : Order} {quantity amount : ℕ} {price : List UInt8}
    {decimalsDiff : ℤ} (hbuy : order.Side = false) (hspent : order.ExecutedAmount = order.Amount)
    (h : calculateOrderAmount order quantity price decimalsDiff = some amount) : amount = 0 := by
  unfold calculateOrderAmount at h
  obtain ⟨raw, -, h⟩ := Option.bind_eq_some_iff.mp h
  simp only [hbuy, hspent, AddBigInt, Bool.not_false, true_and] at h
  split_ifs at h with hshort
  · cases h
    simp [SubBigIntAbs]
  -- uncapped: the raw amount is zero
  · cases h
    omega

/-! ## A trade at the cap -/

/-- A buy taker that cannot pay the raw amount of the trade quantity at the maker's price pays
what is left of its amount, less than that raw amount, for the whole quantity. -/
theorem calculateOrderAndTx_buy_pays_capped {taker maker taker' maker' : Order}
    {marketInfo : MarketInfo} {fork : Bool} {tx : OrderTx} {raw : ℕ}
    (h : calculateOrderAndTx taker maker marketInfo fork = some (tx, taker', maker'))
    (hbuy : taker.Side = false) (hsell : maker.Side = true)
    (hraw : CalculateRawAmount tx.Quantity tx.Price
      (marketInfo.TradeTokenDecimals - marketInfo.QuoteTokenDecimals) = some raw)
    (hin : taker.ExecutedAmount ≤ taker.Amount) (hshort : taker.Amount < taker.ExecutedAmount + raw) :
    tx.Amount = taker.Amount - taker.ExecutedAmount ∧ tx.Amount < raw := by
  obtain ⟨ta, ma, _, _, _, _, hta, hma, -, -, -, -, -, -, -, hprice, hq, hamt, -, -⟩ :=
    calculateOrderAndTx_eq_some h
  rw [hprice, hq] at hraw
  -- the taker is priced at its remaining amount, the maker at the raw amount
  have hta' : ta = taker.Amount - taker.ExecutedAmount := by
    rw [calculateOrderAmount_capped hraw hbuy hshort, SubBigIntAbs_of_le hin] at hta
    exact (Option.some.inj hta).symm
  have hma' : ma = raw := by
    rw [calculateOrderAmount_sell _ _ _ hsell, hraw] at hma
    exact (Option.some.inj hma).symm
  rw [hamt, MinBigInt_eq, hta', hma']
  omega

/-! ## The status of a fill -/

/-- The dust test reads the quantities of the order only. -/
@[simp] theorem IsOrderDustForPrice_executedAmount (order : Order) (executedAmount quantity : ℕ)
    (decimalsDiff : ℤ) (price : List UInt8) :
    IsOrderDustForPrice { order with ExecutedAmount := executedAmount } quantity decimalsDiff price =
      IsOrderDustForPrice order quantity decimalsDiff price := rfl

/-- The status `updateOrder` sets: fully executed exactly when the fill takes the rest of the
quantity, or a market buy has as much amount left after the fill as the fill itself, or the dust
test says so. -/
theorem updateOrder_status {order o' : Order} {quantity amount executedBaseFee executedOperatorFee : ℕ}
    {decimalsDiff : ℤ} {executedPrice : List UInt8}
    (h : updateOrder order quantity amount executedBaseFee executedOperatorFee decimalsDiff
      executedPrice = some o') :
    o'.Status = .FullyExecuted ↔
      SubBigIntAbs order.Quantity order.ExecutedQuantity = quantity ∨
        order.OrderType = .Market ∧ order.Side = false ∧
          SubBigIntAbs order.Amount (order.ExecutedAmount + amount) = amount ∨
        IsDustOrder order quantity decimalsDiff executedPrice = some true := by
  unfold updateOrder at h
  simp only [Option.bind_eq_bind, Option.pure_def, Option.bind_some, AddBigInt] at h
  split_ifs at h with hq hm
  · cases h
    simp [hq]
  · cases h
    simp only [Bool.not_eq_eq_eq_not, Bool.not_true] at hm
    simp [hm]
  -- neither test holds: the dust test decides
  · obtain ⟨full, hdust, h⟩ := Option.bind_eq_some_iff.mp h
    cases h
    simp only [Bool.not_eq_eq_eq_not, Bool.not_true, not_and] at hm
    have hdust' : IsDustOrder order quantity decimalsDiff executedPrice = some full := by
      rw [← hdust]
      unfold IsDustOrder
      rfl
    cases full
    · simp only [Bool.false_eq_true, if_false, reduceCtorEq, false_iff]
      rintro (hq' | ⟨hmk, hs, heq⟩ | hd)
      · exact hq hq'
      · exact hm hmk hs heq
      · rw [hdust'] at hd
        cases hd
    · simp [hdust']

/-- A market taker whose fill spends exactly its remaining amount, and leaves it quantity that is
not dust, is only partly executed. -/
theorem calculateOrderAndTx_spent_market_buy_partial {taker maker taker' maker' : Order}
    {marketInfo : MarketInfo} {fork : Bool} {tx : OrderTx}
    (h : calculateOrderAndTx taker maker marketInfo fork = some (tx, taker', maker'))
    (hmarket : taker.OrderType = .Market) (hspent : taker'.ExecutedAmount = taker.Amount)
    (hpos : 0 < tx.Amount)
    (hleft : SubBigIntAbs taker.Quantity taker.ExecutedQuantity ≠ tx.Quantity)
    (hdust : IsOrderDustForPrice taker tx.Quantity
      (marketInfo.TradeTokenDecimals - marketInfo.QuoteTokenDecimals) tx.Price = some false) :
    taker'.Status = .PartialExecuted := by
  obtain ⟨_, _, _, _, _, _, -, -, -, -, hup, -, -, -, -, hprice, hq, hamt, -, -⟩ :=
    calculateOrderAndTx_eq_some h
  rw [← hprice, ← hq, ← hamt] at hup
  have hfill := (calculateOrderAndTx_fill h).1
  -- the amount left after the fill is zero, not the fill
  have hleftAmt : SubBigIntAbs taker.Amount (taker.ExecutedAmount + tx.Amount) ≠ tx.Amount := by
    rw [← hfill.executedAmount, hspent, SubBigIntAbs_of_le le_rfl, Nat.sub_self]
    omega
  have hnotDust : IsDustOrder taker tx.Quantity
      (marketInfo.TradeTokenDecimals - marketInfo.QuoteTokenDecimals) tx.Price = some false := by
    unfold IsDustOrder
    rw [if_neg (not_not.mpr hmarket), hdust]
  have hnotFull : taker'.Status ≠ .FullyExecuted := by
    rw [Ne, updateOrder_status hup]
    rintro (hq' | ⟨-, -, hamt'⟩ | hd)
    · exact hleft hq'
    · exact hleftAmt hamt'
    · rw [hnotDust] at hd
      cases hd
  exact hfill.status.resolve_left hnotFull

/-- Every trade of a buy taker whose amount is spent has amount zero. -/
theorem calculateOrderAndTx_spent_buy_amount_zero {taker maker taker' maker' : Order}
    {marketInfo : MarketInfo} {fork : Bool} {tx : OrderTx}
    (h : calculateOrderAndTx taker maker marketInfo fork = some (tx, taker', maker'))
    (hbuy : taker.Side = false) (hspent : taker.ExecutedAmount = taker.Amount) : tx.Amount = 0 := by
  obtain ⟨ta, ma, _, _, _, _, hta, -, -, -, -, -, -, -, -, -, -, hamt, -, -⟩ :=
    calculateOrderAndTx_eq_some h
  rw [hamt, calculateOrderAmount_spent hbuy hspent hta, MinBigInt_eq]
  exact Nat.zero_min ma

/-! ## A market buy of ten that can pay for one -/

/-- A market buy of ten whose amount pays for one unit. -/
def sampleMarketBuy : Order :=
  { sampleOrder [9] false (unitPrice 1) 1 with OrderType := .Market, Quantity := 10, Amount := 1 }

/-- A sell of two at one unit. -/
def sampleSellTwo : Order := { sampleOrder [0, 0, 1, 1, 5] true (unitPrice 1) 0 with Quantity := 2 }

theorem calculateOrderAndTx_buy_pays_capped_sample :
    ∃ tx taker' maker', calculateOrderAndTx sampleMarketBuy sampleSellTwo sampleMarket true =
        some (tx, taker', maker') ∧
      CalculateRawAmount tx.Quantity tx.Price 0 = some 2 ∧ tx.Amount = 1 ∧ tx.Amount < 2 := by
  have hs : (calculateOrderAndTx sampleMarketBuy sampleSellTwo sampleMarket true).map
      (fun r => (r.1.Quantity, r.1.Price)) = some (2, unitPrice 1) := by decide +kernel
  obtain ⟨⟨tx, taker', maker'⟩, h, heq⟩ := Option.map_eq_some_iff.mp hs
  simp only [Prod.mk.injEq] at heq
  have hraw : CalculateRawAmount tx.Quantity tx.Price 0 = some 2 := by
    rw [heq.1, heq.2]
    decide +kernel
  obtain ⟨hamt, hlt⟩ := calculateOrderAndTx_buy_pays_capped h rfl rfl hraw (by decide) (by decide)
  exact ⟨tx, taker', maker', h, hraw, hamt, hlt⟩

theorem calculateOrderAndTx_spent_market_buy_partial_sample :
    ∃ tx taker' maker', calculateOrderAndTx sampleMarketBuy sampleSellTwo sampleMarket true =
        some (tx, taker', maker') ∧
      taker'.ExecutedAmount = sampleMarketBuy.Amount ∧ taker'.Status = .PartialExecuted := by
  -- the trade is two at one unit, paid with the one unit of amount
  have hs : (calculateOrderAndTx sampleMarketBuy sampleSellTwo sampleMarket true).map
      (fun r => (r.1.Quantity, r.1.Price, r.1.Amount, r.2.1.ExecutedAmount)) =
        some (2, unitPrice 1, 1, 1) := by decide +kernel
  obtain ⟨⟨tx, taker', maker'⟩, h, heq⟩ := Option.map_eq_some_iff.mp hs
  simp only [Prod.mk.injEq] at heq
  obtain ⟨hq, hp, ha, he⟩ := heq
  have hdust : IsOrderDustForPrice sampleMarketBuy tx.Quantity 0 tx.Price = some false := by
    rw [hq, hp]
    decide +kernel
  exact ⟨tx, taker', maker', h, he, calculateOrderAndTx_spent_market_buy_partial h rfl he
    (by rw [ha]; decide) (by rw [hq]; decide) hdust⟩

end Vite.Dex
