import Vite.Dex.Place
import Vite.Dex.Settle

/-!
# The life of one order

An order placed by `DoPlaceOrder` trades as the taker of its first match and then as a maker
of later ones, and ends fully executed or cancelled, refunded by `handleRefund`. `OrderLife`
lists what can happen to it in between, with the `ReduceLocked` each settled trade books to its
lock token (`reduceLockedAt_handleTxFundSettle` says this is what `handleTxFundSettle` books):
a trade as taker or as maker (`calculateOrderAndTx` after the DEX-fee fork), a cancellation
(by its owner, on timeout, for a post-only cross, at the trade cap, or a market or
immediate-or-cancel leftover), and the cancellation of a fill-or-kill or over-threshold taker,
which resets what it executed and whose trades are never settled.

Along every life the lock at placement is what the settled trades have taken plus what the
order still holds (`remainingLock`), which is what `handleRefund` returns at the end.

The undone taker is all or nothing: a match that ends with it writes no order, books no fee and
no trade, logs the taker's new-order event and no other, and its one settle releases the whole
lock (`doMatchTaker_undone_releases_lock`).
-/

namespace Vite.Dex

/-- What an order still holds of its lock: a sell its unexecuted quantity; a buy its unexecuted
amount and the part of its fee lock no fee has taken. -/
def remainingLock (o : Order) : ℕ :=
  if o.Side then o.Quantity - o.ExecutedQuantity
  else (o.Amount - o.ExecutedAmount) + (o.LockedBuyFee - o.ExecutedBaseFee - o.ExecutedOperatorFee)

/-- The `ReduceLocked` a trade books to the taker's lock token. -/
def OrderTx.takerReduceLocked (tx : OrderTx) : ℕ :=
  if tx.TakerSide then tx.Quantity else AddBigInt tx.Amount (AddBigInt tx.TakerFee tx.TakerOperatorFee)

/-- The `ReduceLocked` a trade books to the maker's lock token. -/
def OrderTx.makerReduceLocked (tx : OrderTx) : ℕ :=
  if tx.TakerSide then AddBigInt tx.Amount (AddBigInt tx.MakerFee tx.MakerOperatorFee) else tx.Quantity

/-! ## What a trade books -/

/-- The `ReduceLocked` the matcher has collected for an address and a token. -/
def Matcher.reduceLockedAt (mc : Matcher) (key : List UInt8 × Bool) : ℕ :=
  ((AssocList.find? key mc.fundSettles).map AccountSettle.ReduceLocked).getD 0

@[simp] theorem Matcher.reduceLockedAt_updateFee (mc : Matcher) (address : List UInt8)
    (feeAmt operatorFee : ℕ) (key : List UInt8 × Bool) :
    (mc.updateFee address feeAmt operatorFee).reduceLockedAt key = mc.reduceLockedAt key := rfl

theorem Matcher.reduceLockedAt_updateFundSettle (mc : Matcher) (address : List UInt8)
    (settle : AccountSettle) (key : List UInt8 × Bool) :
    (mc.updateFundSettle address settle).reduceLockedAt key =
      mc.reduceLockedAt key + if key = (address, settle.IsTradeToken) then settle.ReduceLocked else 0 := by
  unfold Matcher.reduceLockedAt Matcher.updateFundSettle
  by_cases hk : key = (address, settle.IsTradeToken)
  · subst hk
    rw [AssocList.find?_modify_self, if_pos rfl]
    cases AssocList.find? (address, settle.IsTradeToken) mc.fundSettles <;>
      simp [AccountSettle.add, AddBigInt]
  · rw [AssocList.find?_modify_ne hk, if_neg hk, Nat.add_zero]

/-- A trade books `takerReduceLocked` to the taker's lock token and `makerReduceLocked` to the
maker's, and no other `ReduceLocked`. -/
theorem Matcher.reduceLockedAt_handleTxFundSettle (mc : Matcher) (tx : OrderTx)
    (key : List UInt8 × Bool) :
    (mc.handleTxFundSettle tx).reduceLockedAt key = mc.reduceLockedAt key +
      (if key = (tx.takerAddress, tx.TakerSide) then tx.takerReduceLocked else 0) +
      (if key = (tx.makerAddress, !tx.TakerSide) then tx.makerReduceLocked else 0) := by
  unfold Matcher.handleTxFundSettle OrderTx.takerReduceLocked OrderTx.makerReduceLocked
  cases tx.TakerSide <;>
    simp only [Matcher.reduceLockedAt_updateFee, Matcher.reduceLockedAt_updateFundSettle,
      Bool.not_false, Bool.not_true, Bool.false_eq_true, if_true, if_false] <;>
    split_ifs <;> omega

/-! ## The life -/

/-- What can happen to an order `o₀` after the DEX-fee fork: the order it has become and the
`ReduceLocked` its settled trades have booked, in order. -/
inductive OrderLife (o₀ : Order) : Order → List ℕ → Prop
  | placed : OrderLife o₀ o₀ []
  /-- A trade as the taker. -/
  | taker {o maker o' maker' : Order} {charged : List ℕ} {tx : OrderTx} (marketInfo : MarketInfo) :
      OrderLife o₀ o charged → calculateOrderAndTx o maker marketInfo true = some (tx, o', maker') →
      OrderLife o₀ o' (charged ++ [tx.takerReduceLocked])
  /-- A trade as a maker, with a taker of the other side. -/
  | maker {o taker o' taker' : Order} {charged : List ℕ} {tx : OrderTx} (marketInfo : MarketInfo) :
      OrderLife o₀ o charged → taker.Side = !o.Side →
      calculateOrderAndTx taker o marketInfo true = some (tx, taker', o') →
      OrderLife o₀ o' (charged ++ [tx.makerReduceLocked])
  /-- A cancellation that keeps what was executed. -/
  | cancel {o : Order} {charged : List ℕ} (reason : CancelReason) :
      OrderLife o₀ o charged → OrderLife o₀ { o with Status := .Cancelled, CancelReason := reason } charged
  /-- A taker's trades undone: nothing executed, nothing settled. -/
  | undo {o : Order} {charged : List ℕ} (reason : CancelReason) :
      OrderLife o₀ o charged → OrderLife o₀ { o with
        Status := .Cancelled, CancelReason := reason, ExecutedAmount := 0, ExecutedBaseFee := 0,
        ExecutedOperatorFee := 0, ExecutedQuantity := 0 } []

/-- What holds along a life: the order invariant, the placed terms, and the lock split into
what was taken and what is still held. -/
structure LifeInv (o₀ o : Order) (charged : List ℕ) : Prop where
  inv : OrderInv o
  terms_eq : o.terms = o₀.terms
  conserves : lockedAmount o₀ = charged.sum + remainingLock o

/-- A fill with the invariant after it moves exactly its own side's lock: the quantity of a
sell, the amount and both fees of a buy. -/
theorem remainingLock_fill {o o' : Order} {quantity amount fee operatorFee : ℕ}
    (hfill : Fill true o quantity amount fee operatorFee o') (hinv : OrderInv o') :
    remainingLock o = remainingLock o' +
      if o.Side then quantity else AddBigInt amount (AddBigInt fee operatorFee) := by
  have hs : o'.Side = o.Side := congrArg OrderTerms.Side hfill.terms_eq
  have hq : o'.Quantity = o.Quantity := congrArg OrderTerms.Quantity hfill.terms_eq
  have ha : o'.Amount = o.Amount := congrArg OrderTerms.Amount hfill.terms_eq
  have hl : o'.LockedBuyFee = o.LockedBuyFee := congrArg OrderTerms.LockedBuyFee hfill.terms_eq
  have heq := hfill.executedQuantity
  have hea := hfill.executedAmount
  have heb := hfill.executedBaseFee
  have heo := hfill.executedOperatorFee rfl
  unfold remainingLock AddBigInt
  cases hside : o.Side
  · -- a buy: the invariant after the fill keeps every subtraction exact
    have h1 := hinv.executedAmount_le (hs.trans hside)
    have h2 := hinv.executedFee_le (hs.trans hside)
    simp only [hs, hside, Bool.false_eq_true, if_false]
    omega
  · have h1 := hinv.executedQuantity_le
    simp only [hs, hside, if_true]
    omega

theorem LifeInv.taker {o₀ o maker o' maker' : Order} {charged : List ℕ} {tx : OrderTx}
    {marketInfo : MarketInfo} (hi : LifeInv o₀ o charged)
    (h : calculateOrderAndTx o maker marketInfo true = some (tx, o', maker')) :
    LifeInv o₀ o' (charged ++ [tx.takerReduceLocked]) := by
  obtain ⟨hfill, -⟩ := calculateOrderAndTx_fill h
  obtain ⟨-, -, -, -, -, -, -, -, -, -, -, -, hside, -⟩ := calculateOrderAndTx_eq_some h
  have hinv' := hfill.inv hi.inv
  refine ⟨hinv', hfill.terms_eq.trans hi.terms_eq, ?_⟩
  rw [hi.conserves, remainingLock_fill hfill hinv', OrderTx.takerReduceLocked, hside,
    List.sum_append, List.sum_singleton]
  omega

theorem LifeInv.maker {o₀ o taker o' taker' : Order} {charged : List ℕ} {tx : OrderTx}
    {marketInfo : MarketInfo} (hi : LifeInv o₀ o charged) (hside : taker.Side = !o.Side)
    (h : calculateOrderAndTx taker o marketInfo true = some (tx, taker', o')) :
    LifeInv o₀ o' (charged ++ [tx.makerReduceLocked]) := by
  obtain ⟨-, hfill⟩ := calculateOrderAndTx_fill h
  obtain ⟨-, -, -, -, -, -, -, -, -, -, -, -, htside, -⟩ := calculateOrderAndTx_eq_some h
  have hinv' := hfill.inv hi.inv
  refine ⟨hinv', hfill.terms_eq.trans hi.terms_eq, ?_⟩
  rw [hi.conserves, remainingLock_fill hfill hinv', OrderTx.makerReduceLocked, htside, hside,
    List.sum_append, List.sum_singleton]
  -- the maker's side is the other one of the trade's taker side
  cases o.Side <;> simp only [Bool.not_false, Bool.not_true, if_true, if_false,
    Bool.false_eq_true] <;> omega

theorem lockedAmount_congr {o o' : Order} (h : o'.terms = o.terms) : lockedAmount o' = lockedAmount o := by
  have hs : o'.Side = o.Side := congrArg OrderTerms.Side h
  have hq : o'.Quantity = o.Quantity := congrArg OrderTerms.Quantity h
  have ha : o'.Amount = o.Amount := congrArg OrderTerms.Amount h
  have hl : o'.LockedBuyFee = o.LockedBuyFee := congrArg OrderTerms.LockedBuyFee h
  rw [lockedAmount, lockedAmount, hs, hq, ha, hl]

/-- With nothing executed, an order still holds its whole lock. -/
theorem remainingLock_of_unexecuted {o : Order} (hq : o.ExecutedQuantity = 0)
    (ha : o.ExecutedAmount = 0) (hb : o.ExecutedBaseFee = 0) (he : o.ExecutedOperatorFee = 0) :
    remainingLock o = lockedAmount o := by
  unfold remainingLock lockedAmount
  rw [hq, ha, hb, he]
  split_ifs <;> rfl

theorem LifeInv.cancel {o₀ o : Order} {charged : List ℕ} (hi : LifeInv o₀ o charged)
    (reason : CancelReason) :
    LifeInv o₀ { o with Status := .Cancelled, CancelReason := reason } charged :=
  ⟨hi.inv.withStatus _ _, hi.terms_eq, hi.conserves⟩

theorem LifeInv.undo {o₀ o : Order} {charged : List ℕ} (hi : LifeInv o₀ o charged)
    (reason : CancelReason) :
    LifeInv o₀ { o with
      Status := .Cancelled, CancelReason := reason, ExecutedAmount := 0, ExecutedBaseFee := 0,
      ExecutedOperatorFee := 0, ExecutedQuantity := 0 } [] := by
  refine ⟨OrderInv.of_reset o _ _, hi.terms_eq, ?_⟩
  rw [List.sum_nil, Nat.zero_add, remainingLock_of_unexecuted rfl rfl rfl rfl]
  exact (lockedAmount_congr hi.terms_eq).symm

/-- The run lemma: every life of a fresh order keeps `LifeInv`. -/
theorem OrderLife.lifeInv {o₀ o : Order} {charged : List ℕ} (hfresh : Fresh o₀)
    (hlife : OrderLife o₀ o charged) : LifeInv o₀ o charged := by
  induction hlife with
  | placed =>
    refine ⟨hfresh.inv, rfl, ?_⟩
    rw [List.sum_nil, Nat.zero_add, remainingLock_of_unexecuted hfresh.executedQuantity
      hfresh.executedAmount hfresh.executedBaseFee hfresh.executedOperatorFee]
  | taker marketInfo _ htx ih => exact ih.taker htx
  | maker marketInfo _ hside htx ih => exact ih.maker hside htx
  | cancel reason _ ih => exact ih.cancel reason
  | undo reason _ ih => exact ih.undo reason

/-! ## The fees of a life -/

/-- The trades of an order after the DEX-fee fork, with the base and the operator fee each one
charges it: its taker fees when it takes, its maker fees when it is taken. -/
inductive FeeLife (o₀ : Order) : Order → List ℕ → List ℕ → Prop
  | placed : FeeLife o₀ o₀ [] []
  | taker {o maker o' maker' : Order} {baseFees operatorFees : List ℕ} {tx : OrderTx}
      (marketInfo : MarketInfo) :
      FeeLife o₀ o baseFees operatorFees → calculateOrderAndTx o maker marketInfo true = some (tx, o', maker') →
      FeeLife o₀ o' (baseFees ++ [tx.TakerFee]) (operatorFees ++ [tx.TakerOperatorFee])
  | maker {o taker o' taker' : Order} {baseFees operatorFees : List ℕ} {tx : OrderTx}
      (marketInfo : MarketInfo) :
      FeeLife o₀ o baseFees operatorFees → calculateOrderAndTx taker o marketInfo true = some (tx, taker', o') →
      FeeLife o₀ o' (baseFees ++ [tx.MakerFee]) (operatorFees ++ [tx.MakerOperatorFee])

/-- A fill after the fork adds its fees to the executed ones. -/
theorem Fill.executedFees {o o' : Order} {quantity amount fee operatorFee : ℕ}
    (hfill : Fill true o quantity amount fee operatorFee o') {base op : ℕ}
    (hb : o.ExecutedBaseFee = base) (ho : o.ExecutedOperatorFee = op) :
    o'.ExecutedBaseFee = base + fee ∧ o'.ExecutedOperatorFee = op + operatorFee := by
  rw [hfill.executedBaseFee, hfill.executedOperatorFee rfl, hb, ho]
  exact ⟨rfl, rfl⟩

/-- Along every life after the fork, the executed base fee is what the order started with plus
the base fees of its trades, and the executed operator fee likewise: every branch of
`CalculateFeeAndExecutedFee`, a zero rate, a lock used up or capping the fee, adds exactly what
the trade charges. -/
theorem FeeLife.executedFees_eq_sum {o₀ o : Order} {baseFees operatorFees : List ℕ}
    (hlife : FeeLife o₀ o baseFees operatorFees) :
    o.ExecutedBaseFee = o₀.ExecutedBaseFee + baseFees.sum ∧
      o.ExecutedOperatorFee = o₀.ExecutedOperatorFee + operatorFees.sum := by
  induction hlife with
  | placed => simp
  | taker marketInfo _ htx ih =>
    rw [List.sum_append, List.sum_append, List.sum_singleton, List.sum_singleton, ← Nat.add_assoc,
      ← Nat.add_assoc]
    exact (calculateOrderAndTx_fill htx).1.executedFees ih.1 ih.2
  | maker marketInfo _ htx ih =>
    rw [List.sum_append, List.sum_append, List.sum_singleton, List.sum_singleton, ← Nat.add_assoc,
      ← Nat.add_assoc]
    exact (calculateOrderAndTx_fill htx).2.executedFees ih.1 ih.2

/-- A sell of a thousand at fee rates of one percent takes a buy of four hundred and is then
taken by a buy of six hundred: the first trade charges it a taker fee of four, the second a maker
fee of six, and its executed base fee is their sum. -/
theorem executedFees_eq_sum_takerThenMaker :
    ∃ tx₁ o₁ maker₁ tx₂ taker₂ o₂,
      calculateOrderAndTx
        { sampleOrder [9] true (unitPrice 1) 1 with
          Quantity := 1000, Amount := 1000, TakerFeeRate := 1000, MakerFeeRate := 1000 }
        { sampleOrder [0, 0, 1, 1, 5] false (unitPrice 1) 0 with Quantity := 400, Amount := 400 }
        sampleMarket true = some (tx₁, o₁, maker₁) ∧
      calculateOrderAndTx { sampleOrder [0, 0, 1, 1, 6] false (unitPrice 1) 2 with Quantity := 600, Amount := 600 }
        o₁ sampleMarket true = some (tx₂, taker₂, o₂) ∧
      tx₁.TakerFee = 4 ∧ tx₂.MakerFee = 6 ∧
      o₂.ExecutedBaseFee = 0 + ([] ++ [tx₁.TakerFee] ++ [tx₂.MakerFee]).sum ∧
      o₂.ExecutedOperatorFee = 0 + ([] ++ [tx₁.TakerOperatorFee] ++ [tx₂.MakerOperatorFee]).sum := by
  have hs : ((calculateOrderAndTx
        { sampleOrder [9] true (unitPrice 1) 1 with
          Quantity := 1000, Amount := 1000, TakerFeeRate := 1000, MakerFeeRate := 1000 }
        { sampleOrder [0, 0, 1, 1, 5] false (unitPrice 1) 0 with Quantity := 400, Amount := 400 }
        sampleMarket true).bind fun r₁ =>
      (calculateOrderAndTx { sampleOrder [0, 0, 1, 1, 6] false (unitPrice 1) 2 with Quantity := 600, Amount := 600 }
        r₁.2.1 sampleMarket true).map fun r₂ => (r₁.1.TakerFee, r₂.1.MakerFee)) = some (4, 6) := by
    decide +kernel
  obtain ⟨⟨tx₁, o₁, maker₁⟩, h₁, h⟩ := Option.bind_eq_some_iff.mp hs
  obtain ⟨⟨tx₂, taker₂, o₂⟩, h₂, heq⟩ := Option.map_eq_some_iff.mp h
  obtain ⟨hfee₁, hfee₂⟩ := Prod.mk.inj heq
  exact ⟨tx₁, o₁, maker₁, tx₂, taker₂, o₂, h₁, h₂, hfee₁, hfee₂,
    FeeLife.executedFees_eq_sum (.maker sampleMarket (.taker sampleMarket .placed h₁) h₂)⟩

/-- At the end of a life `handleRefund` returns what the order still holds. -/
theorem handleRefund_refundQuantity (mc : Matcher) {o : Order} (hinv : OrderInv o)
    (hfin : o.Status = .FullyExecuted ∨ o.Status = .Cancelled) :
    (mc.handleRefund o).2.RefundQuantity = remainingLock o := by
  unfold Matcher.handleRefund remainingLock
  rw [if_pos hfin]
  cases hs : o.Side
  · have h1 := hinv.executedAmount_le hs
    have h2 := hinv.executedFee_le hs
    simp only [SubBigIntAbs_of_le h1, SubBigIntAbs_of_le (show o.ExecutedBaseFee ≤ o.LockedBuyFee by omega),
      SubBigIntAbs_of_le (show o.ExecutedOperatorFee ≤ o.LockedBuyFee - o.ExecutedBaseFee by omega),
      AddBigInt, Bool.false_eq_true, if_false, CmpToBigZero]
    split_ifs <;> simp_all
  · simp only [SubBigIntAbs_of_le hinv.executedQuantity_le, if_true, CmpToBigZero]
    split_ifs <;> simp_all

theorem order_lifetime_conserves {view : PlaceView} {param : ParamPlaceOrder}
    {accountAddress sendHash : List UInt8} {agent : Option (List UInt8)}
    {fund' : List (List UInt8 × Account)} {o₀ : Order} {orderIdDb : OrderIdDb}
    (hmarket : ∀ m, view.market = some m → m.OperatorRatesValid)
    (hplace : DoPlaceOrder view param accountAddress agent sendHash = .ok (fund', o₀, orderIdDb))
    {o : Order} {charged : List ℕ} (hlife : OrderLife o₀ o charged) :
    OrderInv o ∧
      (o.Status = .FullyExecuted ∨ o.Status = .Cancelled →
        ∃ market fund account, view.market = some market ∧ view.fund = some fund ∧
          AssocList.find? (lockToken market.toMarketInfo o₀.Side) fund = some account ∧
          AssocList.find? (lockToken market.toMarketInfo o₀.Side) fund' =
            some ⟨account.Available - lockedAmount o₀, account.Locked + lockedAmount o₀⟩ ∧
          ∀ mc : Matcher, lockedAmount o₀ = charged.sum + (mc.handleRefund o).2.RefundQuantity) := by
  obtain ⟨market, fund, account, hm, hfund, hacc, -, hfund', hfresh⟩ := DoPlaceOrder_locks hmarket hplace
  have hi := hlife.lifeInv hfresh
  refine ⟨hi.inv, fun hfin => ⟨market, fund, account, hm, hfund, hacc, ?_, fun mc => ?_⟩⟩
  · rw [hfund', AssocList.find?_insert_self]
  · rw [handleRefund_refundQuantity mc hi.inv hfin]
    exact hi.conserves

/-- A market with no operator fee, trading token `[7]` against `[8]`. -/
def samplePlaceMarket : MarketConfig :=
  { MarketId := 1, TradeToken := [7], QuoteToken := [8], TradeTokenDecimals := 0,
    QuoteTokenDecimals := 0, Valid := true, Stopped := false, TakerOperatorFeeRate := 0,
    MakerOperatorFeeRate := 0, StableMarket := false }

/-- A running DEX after the enrich-order fork, and a fund holding ten units of token `[7]`. -/
def samplePlaceView : PlaceView :=
  { dexStopped := false, enrichOrderFork := true, market := some samplePlaceMarket,
    IsMarketGrantedToAgent := fun _ _ _ => true, orderIdDb := ⟨1, none⟩,
    feeRates := ⟨false, false, false, false⟩, isAmountTooSmall := fun _ => false,
    marketOrderAmtThreshold := 0, stemFork := false, dexRobotFork := false,
    fund := some [([7], ⟨10, 0⟩)] }

/-- The limit sell of three at one unit that `DoPlaceOrder` builds on that view. -/
def samplePlacedSell : Order :=
  { sampleOrder [0, 0, 1, 1, 0, 0, 0, 0, 1, 0, 0, 0, 0, 0, 0, 0, 0, 0, 1, 0, 0, 0] true (unitPrice 1) 1 with
    Address := [1], TakerFeeRate := 200, MakerFeeRate := 200, Quantity := 3, Amount := 3 }

/-- A buy of one at one unit, on the book. -/
def sampleBuyOne : Order := { sampleOrder [0, 0, 1, 1, 5] false (unitPrice 1) 0 with Address := [2] }

/-- A buy of two at one unit, taking. -/
def sampleBuyTwo : Order :=
  { sampleOrder [0, 0, 1, 1, 6] false (unitPrice 1) 2 with Address := [3], Quantity := 2, Amount := 2 }

/-- A limit sell of three at one unit takes a buy of one, then is taken by a buy of two and is
fully executed: its lock of three is what the two trades took, and nothing is refunded. -/
theorem order_lifetime_conserves_traded :
    DoPlaceOrder samplePlaceView ⟨true, .Limited, "1".toList, 3⟩ [1] none [] =
        .ok ([([7], ⟨7, 3⟩)], samplePlacedSell, ⟨1, some ⟨1, 0⟩⟩) ∧
      ∃ tx₁ o₁ maker₁ tx₂ taker₂ o₂,
        calculateOrderAndTx samplePlacedSell sampleBuyOne samplePlaceMarket.toMarketInfo true =
          some (tx₁, o₁, maker₁) ∧
        calculateOrderAndTx sampleBuyTwo o₁ samplePlaceMarket.toMarketInfo true = some (tx₂, taker₂, o₂) ∧
        tx₁.takerReduceLocked = 1 ∧ tx₂.makerReduceLocked = 2 ∧ o₂.Status = .FullyExecuted ∧
        OrderInv o₂ ∧ ∀ mc : Matcher, lockedAmount samplePlacedSell = 1 + 2 + (mc.handleRefund o₂).2.RefundQuantity := by
  have hplace : DoPlaceOrder samplePlaceView ⟨true, .Limited, "1".toList, 3⟩ [1] none [] =
      .ok ([([7], ⟨7, 3⟩)], samplePlacedSell, ⟨1, some ⟨1, 0⟩⟩) := by decide +kernel
  have hmarket : ∀ m, samplePlaceView.market = some m → m.OperatorRatesValid := by
    intro m hm
    obtain rfl := Option.some.inj hm
    exact ⟨rfl, rfl⟩
  have hs : ((calculateOrderAndTx samplePlacedSell sampleBuyOne samplePlaceMarket.toMarketInfo true).bind fun r₁ =>
      (calculateOrderAndTx sampleBuyTwo r₁.2.1 samplePlaceMarket.toMarketInfo true).map fun r₂ =>
        (r₁.1.takerReduceLocked, r₁.2.1.Side, r₂.1.makerReduceLocked, r₂.2.2.Status)) =
      some (1, true, 2, .FullyExecuted) := by decide +kernel
  obtain ⟨⟨tx₁, o₁, maker₁⟩, h₁, h⟩ := Option.bind_eq_some_iff.mp hs
  obtain ⟨⟨tx₂, taker₂, o₂⟩, h₂, heq⟩ := Option.map_eq_some_iff.mp h
  simp only [Prod.mk.injEq] at heq
  obtain ⟨hr₁, hside, hr₂, hst⟩ := heq
  -- first the taker of its own match, then a maker of a later one
  have hlife : OrderLife samplePlacedSell o₂ ([] ++ [tx₁.takerReduceLocked] ++ [tx₂.makerReduceLocked]) :=
    .maker _ (.taker _ .placed h₁) (by rw [hside]; rfl) h₂
  obtain ⟨hinv, hfin⟩ := order_lifetime_conserves hmarket hplace hlife
  obtain ⟨-, -, -, -, -, -, -, hrefund⟩ := hfin (.inl hst)
  refine ⟨hplace, tx₁, o₁, maker₁, tx₂, taker₂, o₂, h₁, h₂, hr₁, hr₂, hst, hinv, fun mc => ?_⟩
  rw [hrefund mc, hr₁, hr₂]
  rfl

/-! ## A taker whose trades are undone -/

/-- The refund of an order cancelled with nothing executed releases its whole lock. -/
theorem handleRefund_reset (mc : Matcher) (o : Order) (r : CancelReason) :
    (mc.handleRefund { o with
      Status := .Cancelled, CancelReason := r, ExecutedAmount := 0, ExecutedBaseFee := 0,
      ExecutedOperatorFee := 0, ExecutedQuantity := 0 }).1 =
      if lockedAmount o = 0 then mc else mc.updateFundSettle o.Address ⟨o.Side, 0, 0, lockedAmount o⟩ := by
  unfold Matcher.handleRefund lockedAmount
  cases o.Side
  · by_cases h0 : o.Amount = 0 ∧ o.LockedBuyFee = 0 <;> simp [SubBigIntAbs, AddBigInt, CmpToBigZero, h0]
  · by_cases h0 : o.Quantity = 0 <;> simp [SubBigIntAbs, CmpToBigZero, h0]

theorem handleRefund_status (mc : Matcher) (o : Order) : (mc.handleRefund o).2.Status = o.Status := by
  obtain ⟨token, quantity, heq | heq⟩ := handleRefund_snd mc o <;> rw [heq]

theorem handleRefund_undoesTrades (mc : Matcher) (o : Order) :
    undoesTrades (mc.handleRefund o).2 = undoesTrades o := by
  obtain ⟨token, quantity, heq | heq⟩ := handleRefund_snd mc o <;> rw [heq]
  rfl

/-- The threshold check resets a market taker over its threshold and leaves any other taker. -/
theorem checkMarketOrderAmtThreshold_cases (taker : Order) :
    checkMarketOrderAmtThreshold taker = (true, { taker with
      Status := .Cancelled, CancelReason := .cancelledByExceedMarketOrderAmtThreshold,
      ExecutedAmount := 0, ExecutedBaseFee := 0, ExecutedOperatorFee := 0, ExecutedQuantity := 0 }) ∨
    checkMarketOrderAmtThreshold taker = (false, taker) := by
  unfold checkMarketOrderAmtThreshold
  split_ifs
  · exact .inl rfl
  · exact .inr rfl

/-- A taker `handleTakerRes` leaves cancelled for a reason that undoes its trades gets its whole
lock back and its `NewOrderEvent`, and nothing else: it was reset by the threshold check or as an
unfilled fill-or-kill, since the walk cancels only for other reasons. -/
theorem handleTakerRes_undone (mc : Matcher) {taker : Order} (hwalk : NotUndone taker)
    (hc : (mc.handleTakerRes taker).2.Status = .Cancelled)
    (hu : undoesTrades (mc.handleTakerRes taker).2 = true) :
    (mc.handleTakerRes taker).1 = (if lockedAmount taker = 0 then mc
      else mc.updateFundSettle taker.Address ⟨taker.Side, 0, 0, lockedAmount taker⟩).emitNewOrder
        (mc.handleTakerRes taker).2 := by
  unfold Matcher.handleTakerRes at hc hu ⊢
  rcases checkMarketOrderAmtThreshold_cases taker with hcheck | hcheck <;>
    simp only [hcheck, if_true, Bool.false_eq_true, if_false] at hc hu ⊢
  -- over the threshold: the reset taker is refunded
  · rw [handleRefund_reset mc taker _]
  by_cases hopen : taker.Status = .PartialExecuted ∨ taker.Status = .Pending
  · simp only [hopen, if_true] at hc hu ⊢
    by_cases hmarket : taker.OrderType = .Market ∨ taker.OrderType = .ImmediateOrCancel
    -- cancelled by market: not a reason that undoes trades
    · simp only [hmarket, if_true] at hu
      rw [handleRefund_undoesTrades] at hu
      simp [undoesTrades] at hu
    simp only [hmarket, if_false] at hc hu ⊢
    by_cases hfok : taker.OrderType = .FillOrKill
    · rw [if_pos hfok, if_pos rfl]
      rw [handleRefund_reset mc taker _]
    -- a limit taker stays open and is saved
    · simp only [hfok, if_false] at hc
      have hns : taker.Status ≠ .Cancelled := by rcases hopen with h | h <;> simp [h]
      rw [if_neg hns] at hc
      exact absurd hc hns
  -- already finished or cancelled: the walk's cancel reasons do not undo trades
  · simp only [hopen, if_false, handleRefund_status, handleRefund_undoesTrades] at hc hu ⊢
    rw [hwalk hc] at hu
    cases hu

/-- A match whose taker ends with its trades undone is `handleTakerRes` on the walked taker and
the timestamp update: the makers and the txs of the walk are dropped. -/
theorem doMatchTaker_of_undone (env : MatchEnv) {mc mc' : Matcher} {taker taker' : Order}
    {makerBook : List Order} {preHash : List UInt8} (hnew : NotUndone taker)
    (h : mc.doMatchTaker env taker makerBook preHash = some (mc', taker'))
    (hu : undoesTrades taker' = true) :
    ∃ t, NotUndone t ∧ t.terms = taker.terms ∧ taker' = (mc.handleTakerRes t).2 ∧
      mc' = { (mc.handleTakerRes t).1 with
        db := (mc.handleTakerRes t).1.db.TryUpdateTimestamp taker'.Timestamp preHash } := by
  cases makerBook with
  | nil =>
    simp only [Matcher.doMatchTaker, Option.some.injEq, Prod.mk.injEq] at h
    obtain ⟨rfl, rfl⟩ := h
    exact ⟨taker, hnew, rfl, rfl, rfl⟩
  | cons maker rest =>
    simp only [Matcher.doMatchTaker, Option.bind_eq_bind, Option.bind_eq_some_iff] at h
    obtain ⟨⟨t, makers, txs⟩, hwalk, h⟩ := h
    simp only [Option.some.injEq, Prod.mk.injEq] at h
    obtain ⟨rfl, rfl⟩ := h
    -- the taker's trades are undone, so the walk's makers and txs are not handled
    rw [hu, Bool.not_true, if_neg Bool.false_ne_true]
    obtain ⟨_, _, -, -, hwr⟩ := recursiveTakeOrder_walk hwalk
    exact ⟨t, recursiveTakeOrder_notUndone hwalk hnew, hwr.terms_eq, rfl, rfl⟩

/-- A match that ends with the taker cancelled as an unfilled fill-or-kill or over its market
threshold, from a taker not already cancelled, is all or nothing: the DexTrade storage changes only
by the timestamp, no fee is booked, the one fund settle releases the taker's whole lock, and the
one event logged is the taker's `NewOrderEvent`, so no trade's `TransactionEvent` and no maker's
`OrderUpdateEvent`. -/
theorem doMatchTaker_undone_releases_lock (env : MatchEnv) (mc : Matcher) (taker : Order)
    (makerBook : List Order) (preHash : List UInt8) {mc' : Matcher} {taker' : Order}
    (hnew : taker.Status ≠ .Cancelled)
    (h : mc.doMatchTaker env taker makerBook preHash = some (mc', taker'))
    (hc : taker'.Status = .Cancelled) (hu : undoesTrades taker' = true) :
    mc'.db = mc.db.TryUpdateTimestamp taker'.Timestamp preHash ∧ mc'.feeSettles = mc.feeSettles ∧
      mc'.fundSettles = (if lockedAmount taker = 0 then mc.fundSettles
        else (mc.updateFundSettle taker.Address ⟨taker.Side, 0, 0, lockedAmount taker⟩).fundSettles) ∧
      mc'.logs = mc.logs ++ [.NewOrder taker' mc.MarketInfo.TradeToken mc.MarketInfo.QuoteToken] := by
  obtain ⟨t, ht, hterms, rfl, rfl⟩ := doMatchTaker_of_undone env (fun hc' => absurd hc' hnew) h hu
  have hres := handleTakerRes_undone mc ht hc hu
  have haddr : t.Address = taker.Address := congrArg OrderTerms.Address hterms
  have hside : t.Side = taker.Side := congrArg OrderTerms.Side hterms
  rw [lockedAmount_congr hterms, haddr, hside] at hres
  rw [hres]
  split_ifs <;> simp [Matcher.emitNewOrder]

/-- A fill-or-kill buy of two at one unit. -/
def sampleFillOrKill : Order :=
  { sampleOrder [9] false (unitPrice 1) 1 with OrderType := .FillOrKill, Quantity := 2, Amount := 2 }

theorem doMatchTaker_undone_releases_lock_fillOrKill :
    sampleFillOrKill.Status ≠ .Cancelled ∧
    ∃ mc' taker', (NewMatcherWithMarketInfo sampleTradeDb sampleMarket).doMatchTaker ⟨true, true⟩
        sampleFillOrKill [sampleOrder [0, 0, 1, 1, 5] true (unitPrice 1) 0] [0] = some (mc', taker') ∧
      taker'.Status = .Cancelled ∧ undoesTrades taker' = true ∧
      mc'.db = sampleTradeDb.TryUpdateTimestamp taker'.Timestamp [0] ∧ mc'.feeSettles = [] ∧
      mc'.fundSettles = (if lockedAmount sampleFillOrKill = 0 then []
        else ((NewMatcherWithMarketInfo sampleTradeDb sampleMarket).updateFundSettle
          sampleFillOrKill.Address ⟨sampleFillOrKill.Side, 0, 0, lockedAmount sampleFillOrKill⟩).fundSettles) ∧
      mc'.logs = [] ++ [.NewOrder taker' sampleMarket.TradeToken sampleMarket.QuoteToken] := by
  have hnew : sampleFillOrKill.Status ≠ .Cancelled := by decide
  -- the walk trades one of the two, so the fill-or-kill taker is undone
  have hs : ((NewMatcherWithMarketInfo sampleTradeDb sampleMarket).doMatchTaker ⟨true, true⟩
      sampleFillOrKill [sampleOrder [0, 0, 1, 1, 5] true (unitPrice 1) 0] [0]).map
        (fun r => (r.2.Status, undoesTrades r.2)) = some (.Cancelled, true) := by decide +kernel
  obtain ⟨⟨mc', taker'⟩, hr, hcu⟩ := Option.map_eq_some_iff.mp hs
  simp only [Prod.mk.injEq] at hcu
  exact ⟨hnew, mc', taker', hr, hcu.1, hcu.2,
    doMatchTaker_undone_releases_lock ⟨true, true⟩ _ _ _ [0] hnew hr hcu.1 hcu.2⟩

end Vite.Dex
