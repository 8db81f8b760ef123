import Vite.Dex.Walk

/-!
# Price-time priority of the walk

`FollowsBook` is the matching rule stated on prices as numbers: the walk modifies a prefix of the
book, trades with the makers of that prefix that did not time out, each at its own price and
only where it is within the taker's limit (`Crosses`), and ends before the book does only for a
finished taker or a maker that is live and out of the limit. `matchPrice_iff` says the byte
comparison the matcher makes is `Crosses` for well-formed prices.

`getMakerBook` reads the book in key order (`getMakerBook_pairwise`), and a key is the id
`ComposeOrderId` gave the order, which orders the book by price, then timestamp
(`priorTo_of_compare_ne_gt`), so the book is best price first, and every walk over it follows it
(`recursiveTakeOrder_follows_book`).

Before the enrich-order fork a maker more than thirty days old is cancelled and skipped without
ending the walk, so the makers traded with need not be a prefix of the book
(`recursiveTakeOrder_skips_timedOut`).
-/

namespace Vite.Dex

/-- The maker's price is within the taker's limit: a buy pays at most its price, a sell receives
at least its price, a market order takes any price. -/
def Crosses (taker maker : Order) : Prop :=
  taker.OrderType = .Market ∨
    taker.Side = false ∧ priceValue maker.Price ≤ priceValue taker.Price ∨
    taker.Side = true ∧ priceValue taker.Price ≤ priceValue maker.Price

theorem priceValue_le_iff (a b : List UInt8) :
    priceValue a ≤ priceValue b ↔ priceUnits a ≤ priceUnits b := by
  rw [priceValue_eq_units, priceValue_eq_units, div_le_div_iff_of_pos_right (by positivity)]
  exact Nat.cast_le

/-- For well-formed prices the matcher's byte comparison is the numeric limit test. -/
theorem matchPrice_iff {taker maker : Order}
    (hprice : taker.OrderType ≠ .Market → WellFormedPrice taker.Price)
    (hmprice : WellFormedPrice maker.Price) :
    (matchPrice taker maker).1 = true ↔ Crosses taker maker := by
  unfold matchPrice priceCompare Crosses
  by_cases hm : taker.OrderType = .Market
  · simp [hm]
  rw [compare_of_wellFormed (hprice hm) hmprice, priceValue_le_iff, priceValue_le_iff]
  -- the units of the two prices are in one of three orders; each decides both sides
  rcases lt_trichotomy (priceUnits taker.Price) (priceUnits maker.Price) with hlt | heq | hgt
  · rw [Nat.compare_eq_lt.mpr hlt]
    cases taker.Side <;> simp [hm] <;> omega
  · rw [Nat.compare_eq_eq.mpr heq]
    cases taker.Side <;> simp [hm] <;> omega
  · rw [Nat.compare_eq_gt.mpr hgt]
    cases taker.Side <;> simp [hm] <;> omega

/-- Price-time priority for one walk from `taker` over `book`, ending with `taker'` after
modifying `makers` and making `txs`. -/
structure FollowsBook (tradeTimestamp : ℤ) (fork : Bool) (taker : Order) (book : List Order)
    (taker' : Order) (makers : List Order) (txs : List OrderTx) : Prop where
  makers_prefix : makers.map Order.Id <+: book.map Order.Id
  traded : txs.map OrderTx.MakerId =
    ((book.take makers.length).filter fun m => !(filterTimeout tradeTimestamp fork m).1).map Order.Id
  at_maker_price : ∀ tx ∈ txs, ∃ m ∈ book, tx.MakerId = m.Id ∧ tx.Price = m.Price ∧ Crosses taker m
  stop : ∀ m, book[makers.length]? = some m →
    taker'.Status = .FullyExecuted ∨ taker'.Status = .Cancelled ∨
      (filterTimeout tradeTimestamp fork m).1 = false ∧ ¬Crosses taker m
  txs_le : txs.length ≤ maxTxsCountPerTaker

/-- A walk over makers with well-formed prices follows them as a book. -/
theorem FollowsBook.of_recursiveTakeOrder (env : MatchEnv) (marketInfo : MarketInfo)
    (tradeTimestamp : ℤ) {taker maker taker' : Order} {rest makers : List Order}
    {txs : List OrderTx} (hprice : taker.OrderType ≠ .Market → WellFormedPrice taker.Price)
    (hbook : ∀ m ∈ maker :: rest, WellFormedPrice m.Price)
    (h : recursiveTakeOrder env marketInfo tradeTimestamp taker maker rest [] [] =
      some (taker', makers, txs)) :
    FollowsBook tradeTimestamp env.enrichOrderFork taker (maker :: rest) taker' makers txs := by
  have hle := recursiveTakeOrder_txs_le h (by simp [maxTxsCountPerTaker])
  obtain ⟨makers', newTxs, hmakers, htxs, hwalk⟩ := recursiveTakeOrder_walk h
  rw [List.nil_append] at hmakers htxs
  subst hmakers htxs
  refine ⟨?_, hwalk.txs_makers, ?_, ?_, hle⟩
  · rw [List.prefix_iff_eq_take, List.length_map, ← List.map_take]
    exact hwalk.makers_prefix
  · intro tx htx
    obtain ⟨m, hm, hid, hpr, hmatch⟩ := hwalk.txs_cross tx htx
    exact ⟨m, hm, hid, hpr, (matchPrice_iff hprice (hbook m hm)).mp hmatch⟩
  · intro m hm
    have hmem : m ∈ maker :: rest := List.mem_of_getElem? hm
    rcases hwalk.stop m hm with hs | hs | ⟨hto, hmatch⟩
    · exact .inl hs
    · exact .inr (.inl hs)
    · refine .inr (.inr ⟨hto, fun hc => ?_⟩)
      rw [← matchPrice_iff hprice (hbook m hmem), hmatch] at hc
      cases hc

/-! ## The book in key order -/

/-- `getMakerBook` reads the book in key order: over a store that keeps each order under its id,
no order of the book has a greater id than one after it. -/
theorem getMakerBook_pairwise {db : TradeDb} (hkeys : ∀ e ∈ db.orders, e.1 = e.2.Id) (marketId : ℤ)
    (side : Bool) : (getMakerBook db marketId side).Pairwise fun a b => compare a.Id b.Id ≠ .gt := by
  have hsorted : ((db.orders.filter fun e => (getBookPrefix marketId side).isPrefixOf e.1).mergeSort
      fun a b => compare a.1 b.1 != .gt).Pairwise fun a b => (compare a.1 b.1 != .gt) = true :=
    List.pairwise_mergeSort (fun a b c hab hbc => by
      simp only [bne_iff_ne, ne_eq] at hab hbc ⊢
      exact Std.TransCmp.le_trans hab hbc)
    (fun a b => by
      by_cases h : compare a.1 b.1 = .gt
      · simp [h, Std.OrientedCmp.gt_iff_lt.mp h]
      · simp [h]) _
  unfold getMakerBook
  rw [List.pairwise_map]
  refine hsorted.imp_of_mem fun {a b} ha hb hab => ?_
  -- a book entry is a stored one, kept under its id
  have hstored : ∀ e ∈ (db.orders.filter fun e => (getBookPrefix marketId side).isPrefixOf e.1).mergeSort
      (fun a b => compare a.1 b.1 != .gt), e.1 = e.2.Id :=
    fun e he => hkeys e (List.mem_filter.mp ((List.mergeSort_perm _ _).mem_iff.mp he)).1
  rw [← hstored a ha, ← hstored b hb]
  simpa using hab

/-- `o` has the id `ComposeOrderId` gives an order of market `marketId` and side `side` at its
price and timestamp, with serial number `serialNo`. -/
structure IdOf (marketId : ℤ) (side : Bool) (o : Order) (serialNo : ℕ) : Prop where
  price : ∃ p, ValidPrice p true = true ∧ o.Price = PriceToBytes p ∧
    o.Id = orderIdBytes marketId side p o.Timestamp serialNo
  timestamp_nonneg : 0 ≤ o.Timestamp
  timestamp_lt : o.Timestamp < 2 ^ 40
  serialNo_lt : serialNo < 2 ^ 24

/-- `a` comes no later than `b` in the book of side `side` by price-time priority: a better price
(lower in the sell book, higher in the buy book), or the same price and no later timestamp. -/
def PriorTo (side : Bool) (a b : Order) : Prop :=
  (if side then priceUnits a.Price < priceUnits b.Price else priceUnits b.Price < priceUnits a.Price) ∨
    priceUnits a.Price = priceUnits b.Price ∧ a.Timestamp ≤ b.Timestamp

/-- The price comparison of two ids decides unless the prices are equal; then the timestamps do. -/
theorem lt_or_eq_of_then_ne_gt {x y : ℕ} {t₁ t₂ : ℤ} {s₁ s₂ : ℕ} (ht₁ : 0 ≤ t₁) (ht₂ : 0 ≤ t₂)
    (h : (compare x y).then ((compare t₁.toNat t₂.toNat).then (compare s₁ s₂)) ≠ .gt) :
    x < y ∨ x = y ∧ t₁ ≤ t₂ := by
  rcases lt_trichotomy x y with hlt | rfl | hgt
  · exact .inl hlt
  · refine .inr ⟨rfl, ?_⟩
    have hts : ¬t₂.toNat < t₁.toNat := by
      intro hlt
      rw [Nat.compare_eq_eq.mpr rfl, Nat.compare_eq_gt.mpr hlt] at h
      exact h rfl
    omega
  · rw [Nat.compare_eq_gt.mpr hgt] at h
    exact absurd rfl h

/-- Two orders of one book with the ids `ComposeOrderId` gave them, in key order, are in
price-time priority. -/
theorem priorTo_of_compare_ne_gt {marketId : ℤ} {side : Bool} {a b : Order} {sa sb : ℕ}
    (ha : IdOf marketId side a sa) (hb : IdOf marketId side b sb) (h : compare a.Id b.Id ≠ .gt) :
    PriorTo side a b := by
  obtain ⟨pa, hpa, hpra, hida⟩ := ha.price
  obtain ⟨pb, hpb, hprb, hidb⟩ := hb.price
  rw [hida, hidb, compare_orderIdBytes marketId side hpa hpb ⟨ha.timestamp_nonneg, ha.timestamp_lt⟩
    ⟨hb.timestamp_nonneg, hb.timestamp_lt⟩ ha.serialNo_lt hb.serialNo_lt, ← hpra, ← hprb] at h
  unfold PriorTo
  cases side
  · simp only [Bool.false_eq_true, if_false] at h ⊢
    rcases lt_or_eq_of_then_ne_gt ha.timestamp_nonneg hb.timestamp_nonneg h with hlt | ⟨heq, hts⟩
    · exact .inl hlt
    · exact .inr ⟨heq.symm, hts⟩
  · simp only [if_true] at h ⊢
    exact lt_or_eq_of_then_ne_gt ha.timestamp_nonneg hb.timestamp_nonneg h

/-- Price-time priority of the walk over the book `getMakerBook` reads, from a store that keeps
each order under the id `ComposeOrderId` gave it: the book is in price-time priority, best
price first, and the walk follows it. -/
theorem recursiveTakeOrder_follows_book (env : MatchEnv) (marketInfo : MarketInfo) {db : TradeDb}
    {taker maker taker' : Order} {rest makers : List Order} {txs : List OrderTx}
    (hkeys : ∀ e ∈ db.orders, e.1 = e.2.Id)
    (hbook : getMakerBook db marketInfo.MarketId (!taker.Side) = maker :: rest)
    (hids : ∀ m ∈ maker :: rest, ∃ s, IdOf marketInfo.MarketId (!taker.Side) m s)
    (hprice : taker.OrderType ≠ .Market → WellFormedPrice taker.Price)
    (h : recursiveTakeOrder env marketInfo db.tradeTimestamp taker maker rest [] [] =
      some (taker', makers, txs)) :
    (maker :: rest).Pairwise (PriorTo (!taker.Side)) ∧
      FollowsBook db.tradeTimestamp env.enrichOrderFork taker (maker :: rest) taker' makers txs := by
  have hwf : ∀ m ∈ maker :: rest, WellFormedPrice m.Price := by
    intro m hm
    obtain ⟨s, hs⟩ := hids m hm
    obtain ⟨p, hp, hpr, -⟩ := hs.price
    rw [hpr]
    exact (PriceToBytes_of_ValidPrice hp).1
  refine ⟨?_, FollowsBook.of_recursiveTakeOrder env marketInfo db.tradeTimestamp hprice hwf h⟩
  have hsorted := getMakerBook_pairwise hkeys marketInfo.MarketId (!taker.Side)
  rw [hbook] at hsorted
  refine hsorted.imp_of_mem fun {a b} ha hb hab => ?_
  obtain ⟨sa, hsa⟩ := hids a ha
  obtain ⟨sb, hsb⟩ := hids b hb
  exact priorTo_of_compare_ne_gt hsa hsb hab

/-! ## Runs on sample books -/

/-- A pending limit order for one unit, at the given price bytes, for the sample runs. -/
def sampleOrder (id : List UInt8) (side : Bool) (price : List UInt8) (timestamp : ℤ) : Order :=
  { Id := id, Address := [], MarketId := 1, Side := side, OrderType := .Limited, Price := price,
    TakerFeeRate := 0, MakerFeeRate := 0, TakerOperatorFeeRate := 0, MakerOperatorFeeRate := 0,
    Quantity := 1, Amount := 1, LockedBuyFee := 0, Status := .Pending,
    CancelReason := .cancelledByUser, ExecutedQuantity := 0, ExecutedAmount := 0,
    ExecutedBaseFee := 0, ExecutedOperatorFee := 0, RefundToken := [], RefundQuantity := 0,
    Timestamp := timestamp, Agent := [], SendHash := [], MarketOrderAmtThreshold := 0 }

/-- The market of the sample runs. -/
def sampleMarket : MarketInfo := ⟨1, [], [], 0, 0⟩

/-- The price bytes of a whole number of units below `256`. -/
def unitPrice (n : UInt8) : List UInt8 := [0, 0, 0, 0, n, 0, 0, 0, 0, 0]

theorem wellFormed_unitPrice (n : UInt8) : WellFormedPrice (unitPrice n) :=
  ⟨rfl, by simp [priceDecimalPart, unitPrice, fiveBytes, BigEndian.beValue, priceDecimalMaxLen]⟩

theorem feeRatesBounded_sampleOrder (id : List UInt8) (side : Bool) (price : List UInt8)
    (timestamp : ℤ) : FeeRatesBounded (sampleOrder id side price timestamp) :=
  ⟨(by norm_num : (0 : ℤ) ≤ 1000), (by norm_num : (0 : ℤ) ≤ 1000), (by norm_num : (0 : ℤ) ≤ 1000),
    (by norm_num : (0 : ℤ) ≤ 1000)⟩

/-- A sell of one unit at `price` in market `1` at timestamp `5`, under the id `ComposeOrderId`
gives it with serial number `serialNo`. -/
def bookSell (price : List Char) (serialNo : ℕ) : Order :=
  sampleOrder (orderIdBytes 1 true price 5 serialNo) true (PriceToBytes price) 5

/-- A store holding a sell at two, then one at one, each under its id. -/
def sampleBookDb : TradeDb :=
  ⟨[((bookSell "2".toList 1).Id, bookSell "2".toList 1), ((bookSell "1".toList 0).Id, bookSell "1".toList 0)],
    [], 0⟩

/-- A buy of two at two units on that store: the book reads the sell at one first, and the walk
trades with both makers, best price first. -/
theorem recursiveTakeOrder_follows_book_twoMakers :
    getMakerBook sampleBookDb 1 true = [bookSell "1".toList 0, bookSell "2".toList 1] ∧
      ∃ taker' makers txs,
        recursiveTakeOrder ⟨true, true⟩ sampleMarket sampleBookDb.tradeTimestamp
            { sampleOrder [9] false (unitPrice 2) 5 with Quantity := 2, Amount := 4 }
            (bookSell "1".toList 0) [bookSell "2".toList 1] [] [] = some (taker', makers, txs) ∧
          txs.length = 2 ∧
          [bookSell "1".toList 0, bookSell "2".toList 1].Pairwise (PriorTo true) ∧
          FollowsBook sampleBookDb.tradeTimestamp true
            { sampleOrder [9] false (unitPrice 2) 5 with Quantity := 2, Amount := 4 }
            [bookSell "1".toList 0, bookSell "2".toList 1] taker' makers txs := by
  have hbook : getMakerBook sampleBookDb 1 true = [bookSell "1".toList 0, bookSell "2".toList 1] := by
    have hpair : ∀ (a b : List UInt8 × Order) (le : List UInt8 × Order → List UInt8 × Order → Bool),
        [a, b].mergeSort le = if le a b then [a, b] else [b, a] := by
      intro a b le
      simp [List.mergeSort, List.MergeSort.Internal.splitInTwo, List.merge]
    have hfilter : (sampleBookDb.orders.filter fun e => (getBookPrefix 1 true).isPrefixOf e.1) =
        sampleBookDb.orders := by decide +kernel
    -- the id of the sell at two is the greater, so the sort swaps the two entries
    have hgt : compare (bookSell "2".toList 1).Id (bookSell "1".toList 0).Id = .gt := by decide +kernel
    rw [getMakerBook, hfilter, sampleBookDb, hpair, hgt]
    rfl
  have hkeys : ∀ e ∈ sampleBookDb.orders, e.1 = e.2.Id := by
    intro e he
    simp only [sampleBookDb, List.mem_cons, List.not_mem_nil, or_false] at he
    rcases he with rfl | rfl <;> rfl
  have hids : ∀ m ∈ [bookSell "1".toList 0, bookSell "2".toList 1], ∃ s, IdOf 1 true m s := by
    intro m hm
    simp only [List.mem_cons, List.not_mem_nil, or_false] at hm
    rcases hm with rfl | rfl
    · exact ⟨0, ⟨"1".toList, by decide +kernel, rfl, rfl⟩, by decide, by decide, by decide⟩
    · exact ⟨1, ⟨"2".toList, by decide +kernel, rfl, rfl⟩, by decide, by decide, by decide⟩
  have hrun : (recursiveTakeOrder ⟨true, true⟩ sampleMarket sampleBookDb.tradeTimestamp
      { sampleOrder [9] false (unitPrice 2) 5 with Quantity := 2, Amount := 4 }
      (bookSell "1".toList 0) [bookSell "2".toList 1] [] []).map (fun r => r.2.2.length) = some 2 := by
    decide +kernel
  obtain ⟨⟨taker', makers, txs⟩, h, hlen⟩ := Option.map_eq_some_iff.mp hrun
  have hbook' : getMakerBook sampleBookDb sampleMarket.MarketId
      (!({ sampleOrder [9] false (unitPrice 2) 5 with Quantity := 2, Amount := 4 } : Order).Side) =
        [bookSell "1".toList 0, bookSell "2".toList 1] := hbook
  obtain ⟨hprior, hfollows⟩ := recursiveTakeOrder_follows_book ⟨true, true⟩ sampleMarket hkeys hbook' hids
    (fun _ => wellFormed_unitPrice 2) h
  exact ⟨hbook, taker', makers, txs, h, hlen, hprior, hfollows⟩

/-- Before the enrich-order fork, a maker thirty days old at the head of the book is skipped and
the next one traded with: the makers traded with are not a prefix of the book. -/
theorem recursiveTakeOrder_skips_timedOut :
    ∃ taker' makers txs,
      recursiveTakeOrder ⟨false, false⟩ sampleMarket (timeoutSecond + 1)
          (sampleOrder [0] false (unitPrice 1) (timeoutSecond + 1))
          (sampleOrder [1] true (unitPrice 1) 0)
          [sampleOrder [2] true (unitPrice 1) (timeoutSecond + 1)] [] [] =
        some (taker', makers, txs) ∧
      ¬(txs.map OrderTx.MakerId <+: [sampleOrder [1] true (unitPrice 1) 0,
          sampleOrder [2] true (unitPrice 1) (timeoutSecond + 1)].map Order.Id) := by
  obtain ⟨⟨tx, taker', maker'⟩, htx⟩ := calculateOrderAndTx_isSome sampleMarket false
    (feeRatesBounded_sampleOrder [0] false (unitPrice 1) (timeoutSecond + 1))
    (feeRatesBounded_sampleOrder [2] true (unitPrice 1) (timeoutSecond + 1))
    (fun _ => wellFormed_unitPrice 1) (wellFormed_unitPrice 1)
  obtain ⟨-, -, -, -, -, -, -, -, -, -, -, -, -, -, hmid, -⟩ := calculateOrderAndTx_eq_some htx
  -- the first maker times out, the second trades
  have hfirst : takeMaker ⟨false, false⟩ sampleMarket (timeoutSecond + 1)
      (sampleOrder [0] false (unitPrice 1) (timeoutSecond + 1)) (sampleOrder [1] true (unitPrice 1) 0)
      [] [] = some (false, sampleOrder [0] false (unitPrice 1) (timeoutSecond + 1),
        [(filterTimeout (timeoutSecond + 1) false (sampleOrder [1] true (unitPrice 1) 0)).2], []) := by
    decide
  have hsecond : takeMaker ⟨false, false⟩ sampleMarket (timeoutSecond + 1)
      (sampleOrder [0] false (unitPrice 1) (timeoutSecond + 1))
      (sampleOrder [2] true (unitPrice 1) (timeoutSecond + 1))
      [(filterTimeout (timeoutSecond + 1) false (sampleOrder [1] true (unitPrice 1) 0)).2] [] =
      some (false, capTaker taker' 1,
        [(filterTimeout (timeoutSecond + 1) false (sampleOrder [1] true (unitPrice 1) 0)).2, maker'],
        [tx]) := by
    have hto : filterTimeout (timeoutSecond + 1) false
        (sampleOrder [2] true (unitPrice 1) (timeoutSecond + 1)) =
        (false, sampleOrder [2] true (unitPrice 1) (timeoutSecond + 1)) := by decide
    have hmatch : (matchPrice (sampleOrder [0] false (unitPrice 1) (timeoutSecond + 1))
        (sampleOrder [2] true (unitPrice 1) (timeoutSecond + 1))).1 = true := by decide
    unfold takeMaker
    simp only [hto, hmatch, Bool.false_eq_true, if_false, if_true]
    rw [if_neg (by decide)]
    simp only [htx, Option.bind_eq_bind, Option.bind_some]
    rfl
  refine ⟨capTaker taker' 1,
    [(filterTimeout (timeoutSecond + 1) false (sampleOrder [1] true (unitPrice 1) 0)).2, maker'], [tx],
    ?_, ?_⟩
  · rw [recursiveTakeOrder_unfold, hfirst, Option.bind_some]
    simp only [Bool.false_eq_true, false_or]
    rw [if_neg (by decide), recursiveTakeOrder_unfold, hsecond, Option.bind_some]
    simp only [Bool.false_eq_true, false_or]
    split_ifs <;> rfl
  · simp [hmid, sampleOrder]

end Vite.Dex
