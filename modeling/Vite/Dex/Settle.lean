import Vite.Dex.Priority

/-!
# What a match settles (`handleTxs`, `handleRefund`, `MatchOrder`)

The matcher hands DexFund one `AccountSettle` per address and token and one `FeeSettle` per
address. `Matcher.Conserves` is the balance of a match: the trade token credited equals the
trade token taken from locks, and the quote token taken from locks equals the quote token
credited plus the fees. Every write moves these sums by what it adds (`settleSum_updateFundSettle`,
`feeSum_updateFee`), so each handler keeps the balance; a trade keeps it exactly when its seller's
fees fit in its amount, the one `SubBigIntAbs` of `handleTxFundSettle`.

`RefundInRange` says the `SubBigIntAbs` calls of `handleRefund` subtract no more than they
subtract from; `OrderInv` gives it. With the walk's invariant (`recursiveTakeOrder_inv`),
`MatchOrder_conserves` is the whole call.
-/

namespace Vite.Dex

/-! ## Sums over the settles -/

/-- The sum of one field of the fund settles of one token (`isTradeToken`), over all addresses. -/
def settleSum (isTradeToken : Bool) (field : AccountSettle → ℕ)
    (fundSettles : List ((List UInt8 × Bool) × AccountSettle)) : ℕ :=
  AssocList.total (fun k v => if k.2 = isTradeToken then field v else 0) fundSettles

/-- The base and operator fees of all fee settles. -/
def feeSum (feeSettles : List (List UInt8 × FeeSettle)) : ℕ :=
  AssocList.total (fun _ v => v.BaseFee + v.OperatorFee) feeSettles

/-- The balance of the settles a matcher has accumulated. -/
structure Matcher.Conserves (mc : Matcher) : Prop where
  trade : settleSum true AccountSettle.IncAvailable mc.fundSettles =
    settleSum true AccountSettle.ReduceLocked mc.fundSettles
  quote : settleSum false AccountSettle.ReduceLocked mc.fundSettles =
    settleSum false AccountSettle.IncAvailable mc.fundSettles + feeSum mc.feeSettles

theorem conserves_NewMatcherWithMarketInfo (db : TradeDb) (marketInfo : MarketInfo) :
    (NewMatcherWithMarketInfo db marketInfo).Conserves :=
  ⟨rfl, rfl⟩

section Writes

variable (mc : Matcher) (address : List UInt8)

@[simp] theorem updateFundSettle_feeSettles (settle : AccountSettle) :
    (mc.updateFundSettle address settle).feeSettles = mc.feeSettles := rfl

@[simp] theorem updateFundSettle_db (settle : AccountSettle) :
    (mc.updateFundSettle address settle).db = mc.db := rfl

@[simp] theorem updateFundSettle_MarketInfo (settle : AccountSettle) :
    (mc.updateFundSettle address settle).MarketInfo = mc.MarketInfo := rfl

@[simp] theorem updateFee_fundSettles (feeAmt operatorFee : ℕ) :
    (mc.updateFee address feeAmt operatorFee).fundSettles = mc.fundSettles := rfl

@[simp] theorem updateFee_MarketInfo (feeAmt operatorFee : ℕ) :
    (mc.updateFee address feeAmt operatorFee).MarketInfo = mc.MarketInfo := rfl

@[simp] theorem saveOrder_fundSettles (order : Order) (isTaker : Bool) :
    (mc.saveOrder order isTaker).fundSettles = mc.fundSettles := rfl

@[simp] theorem saveOrder_feeSettles (order : Order) (isTaker : Bool) :
    (mc.saveOrder order isTaker).feeSettles = mc.feeSettles := rfl

@[simp] theorem deleteOrder_fundSettles (order : Order) :
    (mc.deleteOrder order).fundSettles = mc.fundSettles := rfl

@[simp] theorem deleteOrder_feeSettles (order : Order) :
    (mc.deleteOrder order).feeSettles = mc.feeSettles := rfl

@[simp] theorem AddLog_fundSettles (event : DexEvent) : (mc.AddLog event).fundSettles = mc.fundSettles :=
  rfl

@[simp] theorem AddLog_feeSettles (event : DexEvent) : (mc.AddLog event).feeSettles = mc.feeSettles := rfl

@[simp] theorem AddLog_db (event : DexEvent) : (mc.AddLog event).db = mc.db := rfl

@[simp] theorem AddLog_MarketInfo (event : DexEvent) : (mc.AddLog event).MarketInfo = mc.MarketInfo := rfl

@[simp] theorem AddLog_logs (event : DexEvent) : (mc.AddLog event).logs = mc.logs ++ [event] := rfl

@[simp] theorem updateFundSettle_logs (settle : AccountSettle) :
    (mc.updateFundSettle address settle).logs = mc.logs := rfl

/-- A settle moves the sum of a field it adds to by its own value of the field, on its token. -/
theorem settleSum_updateFundSettle (isTradeToken : Bool) {field : AccountSettle → ℕ}
    (settle : AccountSettle) (hadd : ∀ v, field (v.add settle) = field v + field settle)
    (hzero : field ⟨settle.IsTradeToken, 0, 0, 0⟩ = 0) :
    settleSum isTradeToken field (mc.updateFundSettle address settle).fundSettles =
      settleSum isTradeToken field mc.fundSettles +
        if settle.IsTradeToken = isTradeToken then field settle else 0 := by
  refine AssocList.total_modify _ (fun v => ?_) ?_ mc.fundSettles
  · split <;> simp [hadd]
  · split <;> simp [hzero]

@[simp] theorem settleSum_IncAvailable_updateFundSettle (isTradeToken : Bool) (settle : AccountSettle) :
    settleSum isTradeToken AccountSettle.IncAvailable (mc.updateFundSettle address settle).fundSettles =
      settleSum isTradeToken AccountSettle.IncAvailable mc.fundSettles +
        if settle.IsTradeToken = isTradeToken then settle.IncAvailable else 0 :=
  settleSum_updateFundSettle mc address isTradeToken settle (fun _ => rfl) rfl

@[simp] theorem settleSum_ReduceLocked_updateFundSettle (isTradeToken : Bool) (settle : AccountSettle) :
    settleSum isTradeToken AccountSettle.ReduceLocked (mc.updateFundSettle address settle).fundSettles =
      settleSum isTradeToken AccountSettle.ReduceLocked mc.fundSettles +
        if settle.IsTradeToken = isTradeToken then settle.ReduceLocked else 0 :=
  settleSum_updateFundSettle mc address isTradeToken settle (fun _ => rfl) rfl

@[simp] theorem feeSum_updateFee (feeAmt operatorFee : ℕ) :
    feeSum (mc.updateFee address feeAmt operatorFee).feeSettles =
      feeSum mc.feeSettles + (feeAmt + operatorFee) := by
  refine AssocList.total_modify _ (fun v => ?_) (by simp) mc.feeSettles
  simp only [AddBigInt]
  omega

end Writes

/-! ## The handlers keep the balance -/

/-- An event leaves the settles as they are. -/
theorem Matcher.Conserves.AddLog {mc : Matcher} (h : mc.Conserves) (event : DexEvent) :
    (mc.AddLog event).Conserves :=
  ⟨h.trade, h.quote⟩

/-- A trade whose seller's fees fit in its amount keeps the balance: the buyer's lock pays the
amount and the buyer's fees, the seller gets the amount less its fees, the fees go to the fee
settles, and the trade token moves from the seller's lock to the buyer. -/
theorem Matcher.Conserves.handleTxFundSettle {mc : Matcher} (h : mc.Conserves) {tx : OrderTx}
    (hfee : tx.sellerFee ≤ tx.Amount) : (mc.handleTxFundSettle tx).Conserves := by
  obtain ⟨htrade, hquote⟩ := h
  have hsub := SubBigIntAbs_of_le hfee
  unfold OrderTx.sellerFee at hfee hsub
  unfold Matcher.handleTxFundSettle
  -- the seller is the taker or the maker; in both the fees leave the amount the seller gets
  cases hside : tx.TakerSide <;> simp only [hside, if_false, if_true, Bool.false_eq_true] at hfee hsub ⊢ <;>
    refine ⟨?_, ?_⟩ <;>
    simp only [settleSum_IncAvailable_updateFundSettle, settleSum_ReduceLocked_updateFundSettle,
      feeSum_updateFee, updateFee_fundSettles, updateFundSettle_feeSettles, if_true, if_false,
      Bool.true_eq_false, Bool.false_eq_true, AddBigInt] at htrade hquote hfee hsub ⊢ <;>
    omega

/-- `handleTxs` keeps the balance when every trade's seller fees fit in its amount. -/
theorem Matcher.Conserves.handleTxs {mc : Matcher} (h : mc.Conserves) {txs : List OrderTx}
    (hfee : ∀ tx ∈ txs, tx.sellerFee ≤ tx.Amount) : (mc.handleTxs txs).Conserves := by
  induction txs generalizing mc with
  | nil => exact h
  | cons tx txs ih =>
    exact ih ((h.handleTxFundSettle (hfee tx (by simp))).AddLog _) fun tx' hm => hfee tx' (by simp [hm])

/-- What `handleRefund` does to the matcher: nothing, or one settle releasing a lock. -/
theorem handleRefund_fst (mc : Matcher) (order : Order) :
    (mc.handleRefund order).1 = mc ∨
      ∃ address quantity, (mc.handleRefund order).1 =
        mc.updateFundSettle address ⟨order.Side, 0, 0, quantity⟩ := by
  unfold Matcher.handleRefund
  split_ifs
  · cases order.Side <;> simp only <;> split_ifs
    all_goals first | exact .inl rfl | exact .inr ⟨_, _, rfl⟩
  · exact .inl rfl

/-- `handleRefund` changes the order's refund fields only. -/
theorem handleRefund_snd (mc : Matcher) (order : Order) :
    ∃ token quantity, (mc.handleRefund order).2 = order ∨
      (mc.handleRefund order).2 = { order with RefundToken := token, RefundQuantity := quantity } := by
  unfold Matcher.handleRefund
  split_ifs
  · cases order.Side <;> simp only <;> split_ifs
    all_goals exact ⟨_, _, .inr rfl⟩
  · exact ⟨[], 0, .inl rfl⟩

/-- A refund releases a lock only; the balance reads no released amount. -/
theorem Matcher.Conserves.handleRefund {mc : Matcher} (h : mc.Conserves) (order : Order) :
    (mc.handleRefund order).1.Conserves := by
  rcases handleRefund_fst mc order with heq | ⟨address, quantity, heq⟩ <;> rw [heq]
  · exact h
  · obtain ⟨htrade, hquote⟩ := h
    constructor <;> simp [htrade, hquote]

theorem Matcher.Conserves.handleModifiedMakers {mc : Matcher} (h : mc.Conserves)
    (makers : List Order) : (mc.handleModifiedMakers makers).Conserves := by
  induction makers generalizing mc with
  | nil => exact h
  | cons maker makers ih =>
    apply ih
    show (if maker.Status = .FullyExecuted ∨ maker.Status = .Cancelled then
        ((mc.handleRefund maker).1.deleteOrder (mc.handleRefund maker).2).emitOrderUpdate
          (mc.handleRefund maker).2
      else (mc.saveOrder maker false).emitOrderUpdate maker).Conserves
    split_ifs
    · obtain ⟨htrade, hquote⟩ := h.handleRefund maker
      exact ⟨htrade, hquote⟩
    · obtain ⟨htrade, hquote⟩ := h
      exact ⟨htrade, hquote⟩

/-- The taker's end of a match: refunded or saved, the balance stays. -/
theorem Matcher.Conserves.handleTakerRes {mc : Matcher} (h : mc.Conserves) (taker : Order) :
    (mc.handleTakerRes taker).1.Conserves := by
  unfold Matcher.handleTakerRes
  obtain ⟨res, taker₁⟩ := checkMarketOrderAmtThreshold taker
  dsimp only
  -- every branch refunds the taker or saves it, then logs it
  split_ifs <;> refine Matcher.Conserves.AddLog ?_ _ <;> first
    | exact h.handleRefund _
    | exact ⟨h.trade, h.quote⟩

/-! ## No subtraction goes negative -/

/-- The `SubBigIntAbs` calls of `handleRefund` on this order subtract at most what they subtract
from. -/
def RefundInRange (o : Order) : Prop :=
  if o.Side then o.ExecutedQuantity ≤ o.Quantity
  else o.ExecutedAmount ≤ o.Amount ∧ o.ExecutedBaseFee ≤ o.LockedBuyFee ∧
    o.ExecutedOperatorFee ≤ SubBigIntAbs o.LockedBuyFee o.ExecutedBaseFee

theorem OrderInv.refundInRange {o : Order} (h : OrderInv o) : RefundInRange o := by
  unfold RefundInRange
  cases hs : o.Side
  · have hfee := h.executedFee_le hs
    simp only [Bool.false_eq_true, if_false]
    refine ⟨h.executedAmount_le hs, by omega, ?_⟩
    rw [SubBigIntAbs_of_le (by omega)]
    omega
  · exact h.executedQuantity_le

/-- An order whose executed amounts are reset to zero satisfies `OrderInv`. -/
theorem OrderInv.of_reset (o : Order) (s : OrderStatus) (r : CancelReason) :
    OrderInv { o with
      Status := s, CancelReason := r, ExecutedAmount := 0, ExecutedBaseFee := 0,
      ExecutedOperatorFee := 0, ExecutedQuantity := 0 } :=
  ⟨Nat.zero_le _, fun _ => Nat.zero_le _, fun _ => by simp⟩

theorem checkMarketOrderAmtThreshold_inv {taker : Order} (h : OrderInv taker) :
    OrderInv (checkMarketOrderAmtThreshold taker).2 := by
  unfold checkMarketOrderAmtThreshold
  split_ifs
  · exact OrderInv.of_reset _ _ _
  · exact h

theorem handleRefund_inv (mc : Matcher) {order : Order} (h : OrderInv order) :
    OrderInv (mc.handleRefund order).2 := by
  obtain ⟨token, quantity, heq | heq⟩ := handleRefund_snd mc order <;> rw [heq]
  · exact h
  · exact ⟨h.executedQuantity_le, h.executedAmount_le, h.executedFee_le⟩

/-- The taker `handleTakerRes` refunds or saves keeps `OrderInv`: its executed amounts are the
walk's, or zero where the trades are undone. -/
theorem handleTakerRes_inv (mc : Matcher) {taker : Order} (h : OrderInv taker) :
    OrderInv (mc.handleTakerRes taker).2 := by
  have hc := checkMarketOrderAmtThreshold_inv h
  unfold Matcher.handleTakerRes
  generalize checkMarketOrderAmtThreshold taker = checked at hc ⊢
  obtain ⟨res, taker₁⟩ := checked
  dsimp only at hc ⊢
  -- the taker is refunded or saved as the threshold check left it, cancelled, or reset
  split_ifs <;> first
    | exact handleRefund_inv mc hc
    | exact handleRefund_inv mc (hc.withStatus _ _)
    | exact handleRefund_inv mc (OrderInv.of_reset _ _ _)
    | exact hc.withStatus _ _
    | exact OrderInv.of_reset _ _ _

/-! ## A match -/

/-- The orders a match reads: `OrderInv`, bounded fee rates, and a well-formed price (for the
taker unless it is a market order). -/
structure MatchReady (taker : Order) (book : List Order) : Prop where
  taker_inv : OrderInv taker
  taker_rates : FeeRatesBounded taker
  taker_price : taker.OrderType ≠ .Market → WellFormedPrice taker.Price
  book : ∀ m ∈ book, OrderInv m ∧ FeeRatesBounded m ∧ WellFormedPrice m.Price

/-- A match over a ready book goes through, keeps the balance, leaves the taker in range, and its
walk leaves every modified maker in range and every trade's seller fees within its amount. -/
theorem Matcher.doMatchTaker_conserves (env : MatchEnv) {mc : Matcher} (hmc : mc.Conserves)
    {taker : Order} {book : List Order} (preHash : List UInt8) (hready : MatchReady taker book) :
    ∃ mc' taker', mc.doMatchTaker env taker book preHash = some (mc', taker') ∧ mc'.Conserves ∧
      RefundInRange taker' ∧
      ∀ maker rest, book = maker :: rest →
        ∃ taker₁ makers txs, recursiveTakeOrder env mc.MarketInfo mc.db.tradeTimestamp taker maker rest
            [] [] = some (taker₁, makers, txs) ∧
          (∀ m ∈ makers, RefundInRange m) ∧ ∀ tx ∈ txs, tx.sellerFee ≤ tx.Amount := by
  cases book with
  | nil =>
    have hres := hmc.handleTakerRes taker
    refine ⟨_, _, rfl, ⟨hres.trade, hres.quote⟩,
      (handleTakerRes_inv mc hready.taker_inv).refundInRange, ?_⟩
    intro maker rest h
    cases h
  | cons maker rest =>
    obtain ⟨⟨taker₁, makers, txs⟩, hwalk⟩ := recursiveTakeOrder_isSome env mc.MarketInfo
      mc.db.tradeTimestamp [] [] (fun m hm => ⟨(hready.book m hm).2.1, (hready.book m hm).2.2⟩)
      hready.taker_rates hready.taker_price
    have hinv := recursiveTakeOrder_inv hwalk (fun m hm => ⟨(hready.book m hm).1, (hready.book m hm).2.1⟩)
      hready.taker_rates ⟨hready.taker_inv, by simp, by simp⟩
    have hres := hmc.handleTakerRes taker₁
    -- a taker whose trades are undone settles only its own refund
    let settled := if !undoesTrades (mc.handleTakerRes taker₁).2 then
        ((mc.handleTakerRes taker₁).1.handleModifiedMakers makers).handleTxs txs
      else (mc.handleTakerRes taker₁).1
    have hrest : settled.Conserves := by
      simp only [settled]
      split_ifs
      · exact (hres.handleModifiedMakers makers).handleTxs hinv.sellerFee_le
      · exact hres
    refine ⟨{ settled with
        db := settled.db.TryUpdateTimestamp (mc.handleTakerRes taker₁).2.Timestamp preHash },
      (mc.handleTakerRes taker₁).2, ?_, ⟨hrest.trade, hrest.quote⟩,
      (handleTakerRes_inv mc hinv.taker_inv).refundInRange, ?_⟩
    · simp only [Matcher.doMatchTaker, hwalk, Option.bind_eq_bind, Option.bind_some]
      rfl
    intro maker' rest' hbook
    cases hbook
    exact ⟨taker₁, makers, txs, hwalk, fun m hm => (hinv.makers_inv m hm).refundInRange,
      hinv.sellerFee_le⟩

theorem MatchOrder_conserves (env : MatchEnv) (db : TradeDb) (marketInfo : MarketInfo)
    (taker : Order) (preHash : List UInt8)
    (hready : MatchReady taker (getMakerBook db marketInfo.MarketId (!taker.Side))) :
    ∃ mc taker', (NewMatcherWithMarketInfo db marketInfo).MatchOrder env taker preHash = some (mc, taker') ∧
      mc.Conserves ∧ RefundInRange taker' ∧
      ∀ maker rest, getMakerBook db marketInfo.MarketId (!taker.Side) = maker :: rest →
        ∃ taker₁ makers txs, recursiveTakeOrder env marketInfo db.tradeTimestamp taker maker rest
            [] [] = some (taker₁, makers, txs) ∧
          (∀ m ∈ makers, RefundInRange m) ∧ ∀ tx ∈ txs, tx.sellerFee ≤ tx.Amount :=
  (NewMatcherWithMarketInfo db marketInfo).doMatchTaker_conserves env
    (conserves_NewMatcherWithMarketInfo db marketInfo) preHash hready

/-- A store holding one sell at one unit in market `1`, for the sample match. -/
def sampleTradeDb : TradeDb :=
  ⟨[([0, 0, 1, 1, 5], sampleOrder [0, 0, 1, 1, 5] true (unitPrice 1) 0)], [], 0⟩

theorem getMakerBook_sampleTradeDb :
    getMakerBook sampleTradeDb 1 true = [sampleOrder [0, 0, 1, 1, 5] true (unitPrice 1) 0] := by
  have hfilter : (sampleTradeDb.orders.filter fun e => (getBookPrefix 1 true).isPrefixOf e.1) =
      sampleTradeDb.orders := by decide
  rw [getMakerBook, hfilter]
  simp [sampleTradeDb]

theorem orderInv_sampleOrder (id : List UInt8) (side : Bool) (price : List UInt8) (timestamp : ℤ) :
    OrderInv (sampleOrder id side price timestamp) :=
  ⟨Nat.zero_le _, fun _ => Nat.zero_le _, fun _ => Nat.zero_le _⟩

/-- A buy at one unit taking the sample store's sell: the match goes through and balances. -/
theorem MatchOrder_conserves_sample :
    ∃ mc taker', (NewMatcherWithMarketInfo sampleTradeDb sampleMarket).MatchOrder ⟨true, true⟩
        (sampleOrder [9] false (unitPrice 1) 1) [0] = some (mc, taker') ∧
      mc.Conserves ∧ RefundInRange taker' := by
  obtain ⟨mc, taker', hmatch, hcons, hrange, -⟩ := MatchOrder_conserves ⟨true, true⟩ sampleTradeDb
    sampleMarket (sampleOrder [9] false (unitPrice 1) 1) [0]
    ⟨orderInv_sampleOrder _ _ _ _, feeRatesBounded_sampleOrder _ _ _ _, fun _ => wellFormed_unitPrice 1,
      by
        intro m hm
        rw [show sampleMarket.MarketId = 1 from rfl, show (!(sampleOrder [9] false (unitPrice 1) 1).Side) = true from rfl,
          getMakerBook_sampleTradeDb, List.mem_singleton] at hm
        subst hm
        exact ⟨orderInv_sampleOrder _ _ _ _, feeRatesBounded_sampleOrder _ _ _ _, wellFormed_unitPrice 1⟩⟩
  exact ⟨mc, taker', hmatch, hcons, hrange⟩

end Vite.Dex
