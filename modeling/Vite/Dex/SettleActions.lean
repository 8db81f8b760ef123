import Mathlib.Data.List.Permutation
import Mathlib.Data.Fintype.Card
import Mathlib.Logic.Relation
import Vite.Dex.Cancel
import Vite.Lib.GoSort.Sorted

/-!
# The settle message (`handleSettleActions`)

After a match DexTrade sends DexFund one block whose data is the marshalled `SettleActions`: the
fund settles by address, each with its settles of the two tokens, and the fee settles. Go reads
them from maps, which it iterates in a random order, and sorts each slice before marshalling:
the addresses by `bytes.Compare`, the fee settles likewise, and the settles of one address by a
`Less` that only says whether the first is of the trade token. That `Less` is no order (it holds
of a trade-token settle against itself), but an address holds at most one settle per token, and
Go orders any two by the one test `sort_pair` describes.

`handleSettleActions` takes the iteration orders as arguments. Every handler writes the settles
through `updateFundSettle` and `updateFee` (`Matcher.Step`; its other writes, to the storage and
the event log, leave the settles alone), which keep each inner map keyed by its settle's token
and each fee settle by its address (`SettlesKeyed`), so any two iteration orders of the maps a
match leaves give one message (`handleSettleActions_independent_of_order`).
-/

namespace Vite.Dex

open GoSort

/-! ## The message -/

/-- `dexproto.FundSettle`. -/
structure FundSettle where
  Address : List UInt8
  AccountSettles : List AccountSettle
  deriving DecidableEq, Repr

/-- `dexproto.SettleActions`; the settle block's data is its marshalled bytes. -/
structure SettleActions where
  FundActions : List FundSettle
  FeeActions : List FeeSettle
  TradeToken : List UInt8
  QuoteToken : List UInt8
  deriving DecidableEq, Repr

/-- `AccountSettleSorter.Less`. -/
def AccountSettleSorter.Less (a _ : AccountSettle) : Bool := a.IsTradeToken

/-- `FundSettleSorter.Less`: `bytes.Compare` of the addresses below zero. -/
def FundSettleSorter.Less (a b : FundSettle) : Bool := compare a.Address b.Address == .lt

/-- `FeeSettleSorter.Less`. -/
def FeeSettleSorter.Less (a b : FeeSettle) : Bool := compare a.Address b.Address == .lt

/-- `handleSettleActions`, with Go's map iterations given: the addresses of `fundSettles` in the
order `addresses`, the settles of an address in the order `settles address`, and the fee settles
in the order `fees`. `none` where no block is sent. -/
def handleSettleActions (addresses : List (List UInt8)) (settles : List UInt8 → List AccountSettle)
    (fees : List FeeSettle) (marketInfo : MarketInfo) : Option SettleActions :=
  if addresses.length = 0 ∧ fees.length = 0 then none
  else
    let fundActions := addresses.map fun address =>
      (⟨address, sort AccountSettleSorter.Less (settles address)⟩ : FundSettle)
    some
      { FundActions := sort FundSettleSorter.Less fundActions
        FeeActions := sort FeeSettleSorter.Less fees
        TradeToken := marketInfo.TradeToken
        QuoteToken := marketInfo.QuoteToken }

/-- The addresses of the matcher's fund settles, each once: the keys of Go's outer map. -/
def Matcher.settleAddresses (mc : Matcher) : List (List UInt8) :=
  (mc.fundSettles.map fun e => e.1.1).dedup

/-- The settles of an address: the values of its inner map. -/
def Matcher.settlesOf (mc : Matcher) (address : List UInt8) : List AccountSettle :=
  (mc.fundSettles.filter fun e => e.1.1 = address).map Prod.snd

/-! ## What the handlers write -/

/-- One write of a handler to the matcher: a settle added to an address's settle of its token,
fees added to an address's fee settle, the storage changed, or an event logged. -/
inductive Matcher.Step : Matcher → Matcher → Prop
  | fund (mc : Matcher) (address : List UInt8) (settle : AccountSettle) :
      Matcher.Step mc (mc.updateFundSettle address settle)
  | fee (mc : Matcher) (address : List UInt8) (feeAmt operatorFee : ℕ) :
      Matcher.Step mc (mc.updateFee address feeAmt operatorFee)
  | db (mc : Matcher) (db : TradeDb) : Matcher.Step mc { mc with db := db }
  | log (mc : Matcher) (event : DexEvent) : Matcher.Step mc (mc.AddLog event)

section Steps

open Relation

theorem Matcher.steps_handleRefund (mc : Matcher) (order : Order) :
    ReflTransGen Matcher.Step mc (mc.handleRefund order).1 := by
  rcases handleRefund_fst mc order with heq | ⟨address, quantity, heq⟩
  · rw [heq]
  · rw [heq]
    exact .single (.fund _ _ _)

theorem Matcher.steps_handleTxFundSettle (mc : Matcher) (tx : OrderTx) :
    ReflTransGen Matcher.Step mc (mc.handleTxFundSettle tx) := by
  unfold Matcher.handleTxFundSettle
  -- the four settles, then the two parties' fees
  cases tx.TakerSide <;>
    exact (((((ReflTransGen.single (.fund _ _ _)).tail (.fund _ _ _)).tail (.fund _ _ _)).tail
      (.fund _ _ _)).tail (.fee _ _ _ _)).tail (.fee _ _ _ _)

theorem Matcher.steps_handleTxs (mc : Matcher) (txs : List OrderTx) :
    ReflTransGen Matcher.Step mc (mc.handleTxs txs) := by
  induction txs generalizing mc with
  | nil => exact .refl
  | cons tx txs ih => exact ((mc.steps_handleTxFundSettle tx).tail (.log _ _)).trans (ih _)

theorem Matcher.steps_handleModifiedMakers (mc : Matcher) (makers : List Order) :
    ReflTransGen Matcher.Step mc (mc.handleModifiedMakers makers) := by
  induction makers generalizing mc with
  | nil => exact .refl
  | cons maker makers ih =>
    refine ReflTransGen.trans ?_ (ih _)
    show ReflTransGen Matcher.Step mc (if maker.Status = .FullyExecuted ∨ maker.Status = .Cancelled then
        ((mc.handleRefund maker).1.deleteOrder (mc.handleRefund maker).2).emitOrderUpdate
          (mc.handleRefund maker).2
      else (mc.saveOrder maker false).emitOrderUpdate maker)
    split_ifs
    · exact ((mc.steps_handleRefund maker).tail (.db _ _)).tail (.log _ _)
    · exact (ReflTransGen.single (.db _ _)).tail (.log _ _)

theorem Matcher.steps_handleTakerRes (mc : Matcher) (taker : Order) :
    ReflTransGen Matcher.Step mc (mc.handleTakerRes taker).1 := by
  unfold Matcher.handleTakerRes
  obtain ⟨res, taker₁⟩ := checkMarketOrderAmtThreshold taker
  dsimp only
  -- the taker is refunded or saved, then logged
  split_ifs <;> refine ReflTransGen.tail ?_ (.log _ _) <;> first
    | exact mc.steps_handleRefund _
    | exact .single (.db _ _)

/-- A match writes the matcher by handler writes only. -/
theorem Matcher.steps_doMatchTaker (env : MatchEnv) {mc mc' : Matcher} {taker taker' : Order}
    {makerBook : List Order} {preHash : List UInt8}
    (h : mc.doMatchTaker env taker makerBook preHash = some (mc', taker')) :
    ReflTransGen Matcher.Step mc mc' := by
  cases makerBook with
  | nil =>
    simp only [Matcher.doMatchTaker, Option.some.injEq, Prod.mk.injEq] at h
    obtain ⟨rfl, -⟩ := h
    exact (mc.steps_handleTakerRes taker).tail (.db _ _)
  | cons maker rest =>
    simp only [Matcher.doMatchTaker, Option.bind_eq_bind, Option.bind_eq_some_iff] at h
    obtain ⟨⟨t, makers, txs⟩, -, h⟩ := h
    simp only [Option.some.injEq, Prod.mk.injEq] at h
    obtain ⟨rfl, -⟩ := h
    have hres := mc.steps_handleTakerRes t
    refine ReflTransGen.tail ?_ (.db _ _)
    split_ifs
    · exact (hres.trans (Matcher.steps_handleModifiedMakers _ makers)).trans (Matcher.steps_handleTxs _ txs)
    · exact hres

theorem Matcher.steps_CancelOrderById (mc : Matcher) (order : Order) :
    ReflTransGen Matcher.Step mc (mc.CancelOrderById order).1 := by
  unfold Matcher.CancelOrderById
  generalize ({ order with CancelReason := _, Status := .Cancelled } : Order) = cancelled
  exact ((mc.steps_handleRefund cancelled).tail (.log _ _)).tail (.db _ _)

/-! ## The keys of the settle maps -/

/-- The settle maps as Go keys them: an address's inner map by its settle's token, the fee map by
its settle's address. -/
structure Matcher.SettlesKeyed (mc : Matcher) : Prop where
  fund_nodup : (mc.fundSettles.map Prod.fst).Nodup
  fund_token : ∀ e ∈ mc.fundSettles, e.2.IsTradeToken = e.1.2
  fee_nodup : (mc.feeSettles.map Prod.fst).Nodup
  fee_address : ∀ e ∈ mc.feeSettles, e.2.Address = e.1

theorem settlesKeyed_NewMatcherWithMarketInfo (db : TradeDb) (marketInfo : MarketInfo) :
    (NewMatcherWithMarketInfo db marketInfo).SettlesKeyed :=
  ⟨List.nodup_nil, fun _ h => absurd h List.not_mem_nil, List.nodup_nil,
    fun _ h => absurd h List.not_mem_nil⟩

/-- A write keeps the keys: `updateFundSettle` adds to the entry of the settle's own token and
`updateFee` to the entry of its address, starting both from a settle of that key. -/
theorem Matcher.SettlesKeyed.step {mc mc' : Matcher} (h : mc.SettlesKeyed)
    (hs : Matcher.Step mc mc') : mc'.SettlesKeyed := by
  cases hs with
  | fund address settle =>
    refine ⟨AssocList.nodup_modify h.fund_nodup, ?_, h.fee_nodup, h.fee_address⟩
    exact AssocList.forall_mem_modify
      (P := fun (k : List UInt8 × Bool) (v : AccountSettle) => v.IsTradeToken = k.2)
      h.fund_token rfl fun _ hv => hv
  | fee address feeAmt operatorFee =>
    refine ⟨h.fund_nodup, h.fund_token, AssocList.nodup_modify h.fee_nodup, ?_⟩
    exact AssocList.forall_mem_modify (P := fun k (v : FeeSettle) => v.Address = k) h.fee_address
      rfl fun _ hv => hv
  | db db => exact ⟨h.fund_nodup, h.fund_token, h.fee_nodup, h.fee_address⟩
  | log event => exact ⟨h.fund_nodup, h.fund_token, h.fee_nodup, h.fee_address⟩

theorem Matcher.SettlesKeyed.steps {mc mc' : Matcher} (h : mc.SettlesKeyed)
    (hs : ReflTransGen Matcher.Step mc mc') : mc'.SettlesKeyed := by
  induction hs with
  | refl => exact h
  | tail _ hstep ih => exact ih.step hstep

end Steps

/-- The settles of one address have distinct tokens. -/
theorem Matcher.SettlesKeyed.settlesOf_nodup {mc : Matcher} (h : mc.SettlesKeyed)
    (address : List UInt8) : ((mc.settlesOf address).map AccountSettle.IsTradeToken).Nodup := by
  set entries := mc.fundSettles.filter fun e => e.1.1 = address
  have hkeys : (entries.map Prod.fst).Nodup :=
    h.fund_nodup.sublist (List.filter_sublist.map _)
  -- a settle's token is the second half of its key, whose first half is the address
  have htoken : (mc.settlesOf address).map AccountSettle.IsTradeToken =
      (entries.map Prod.fst).map Prod.snd := by
    simp only [Matcher.settlesOf, List.map_map]
    exact List.map_congr_left fun e he => h.fund_token e (List.mem_of_mem_filter he)
  rw [htoken]
  refine hkeys.map_on fun k hk k' hk' hkk' => Prod.ext ?_ hkk'
  obtain ⟨e, he, rfl⟩ := List.mem_map.mp hk
  obtain ⟨e', he', rfl⟩ := List.mem_map.mp hk'
  simp only [entries, List.mem_filter, decide_eq_true_eq] at he he'
  exact he.2.trans he'.2.symm

/-- The fee settles have distinct addresses. -/
theorem Matcher.SettlesKeyed.feeAddresses_nodup {mc : Matcher} (h : mc.SettlesKeyed) :
    ((mc.feeSettles.map Prod.snd).map FeeSettle.Address).Nodup := by
  have haddr : (mc.feeSettles.map Prod.snd).map FeeSettle.Address = mc.feeSettles.map Prod.fst := by
    rw [List.map_map]
    exact List.map_congr_left fun e he => h.fee_address e he
  rw [haddr]
  exact h.fee_nodup

/-! ## The sorts -/

/-- Two orders of one address's settles, at most one per token, sort to one slice: there are at
most two, and Go orders two by whether the second is of the trade token. -/
theorem sort_AccountSettleSorter_eq_of_perm {l₁ l₂ : List AccountSettle} (hp : l₁.Perm l₂)
    (htoken : (l₁.map AccountSettle.IsTradeToken).Nodup) :
    sort AccountSettleSorter.Less l₁ = sort AccountSettleSorter.Less l₂ := by
  have hlen : l₁.length ≤ 2 := by simpa using htoken.length_le_card
  match l₁, hlen, hp, htoken with
  | [], _, hp, _ => rw [← hp.nil_eq]
  | [a], _, hp, _ => rw [List.perm_singleton.mp hp.symm]
  | [a, b], _, hp, htoken =>
    rcases List.pair_perm.mp hp with rfl | rfl
    · rfl
    · have hab : a.IsTradeToken ≠ b.IsTradeToken := by simpa using htoken
      rw [sort_pair, sort_pair]
      simp only [AccountSettleSorter.Less]
      by_cases hb : b.IsTradeToken
      · have ha : a.IsTradeToken = false := by simpa [hb] using hab
        simp [ha, hb]
      · have ha : a.IsTradeToken = true := by simpa [hb] using hab
        simp [ha, hb]
  | _ :: _ :: _ :: _, hlen, _, _ => simp at hlen

/-- A `Less` by `bytes.Compare` of an address orders by the address's byte values. -/
theorem bytesCompare_lt_eq_keyLess {α : Type*} (address : α → List UInt8) (a b : α) :
    (compare (address a) (address b) == .lt) =
      keyLess (fun x => (address x).map UInt8.toNat) a b := by
  rw [keyLess, Bool.eq_iff_iff]
  simp only [beq_iff_eq, decide_eq_true_eq, BigEndian.compare_eq_lt_iff]
  exact Iff.rfl

theorem FundSettleSorter.Less_eq_keyLess :
    FundSettleSorter.Less = keyLess fun f : FundSettle => f.Address.map UInt8.toNat := by
  funext a b
  exact bytesCompare_lt_eq_keyLess FundSettle.Address a b

theorem FeeSettleSorter.Less_eq_keyLess :
    FeeSettleSorter.Less = keyLess fun f : FeeSettle => f.Address.map UInt8.toNat := by
  funext a b
  exact bytesCompare_lt_eq_keyLess FeeSettle.Address a b

/-- With the settle maps keyed as Go keys them, any two iteration orders of them give one
message. -/
theorem handleSettleActions_eq_of_settlesKeyed {mc : Matcher} (h : mc.SettlesKeyed)
    {addresses₁ addresses₂ : List (List UInt8)} {settles₁ settles₂ : List UInt8 → List AccountSettle}
    {fees₁ fees₂ : List FeeSettle}
    (haddr₁ : addresses₁.Perm mc.settleAddresses) (haddr₂ : addresses₂.Perm mc.settleAddresses)
    (hsettles₁ : ∀ a, (settles₁ a).Perm (mc.settlesOf a))
    (hsettles₂ : ∀ a, (settles₂ a).Perm (mc.settlesOf a))
    (hfees₁ : fees₁.Perm (mc.feeSettles.map Prod.snd))
    (hfees₂ : fees₂.Perm (mc.feeSettles.map Prod.snd)) (marketInfo : MarketInfo) :
    handleSettleActions addresses₁ settles₁ fees₁ marketInfo =
      handleSettleActions addresses₂ settles₂ fees₂ marketInfo := by
  have hinner : ∀ a, sort AccountSettleSorter.Less (settles₁ a) =
      sort AccountSettleSorter.Less (settles₂ a) := fun a =>
    sort_AccountSettleSorter_eq_of_perm ((hsettles₁ a).trans (hsettles₂ a).symm)
      (((hsettles₁ a).map _).nodup_iff.mpr (h.settlesOf_nodup a))
  have haddr := haddr₁.trans haddr₂.symm
  have hfees := hfees₁.trans hfees₂.symm
  -- the addresses are the outer map's keys, so the fund settles have distinct keys
  have hfund : sort FundSettleSorter.Less (addresses₁.map fun a =>
        (⟨a, sort AccountSettleSorter.Less (settles₁ a)⟩ : FundSettle)) =
      sort FundSettleSorter.Less (addresses₂.map fun a =>
        (⟨a, sort AccountSettleSorter.Less (settles₂ a)⟩ : FundSettle)) := by
    simp only [hinner, FundSettleSorter.Less_eq_keyLess]
    refine sort_eq_of_perm (haddr.map _) ?_
    rw [List.map_map]
    exact (haddr₁.nodup_iff.mpr (List.nodup_dedup _)).map BigEndian.map_toNat_injective
  have hfee : sort FeeSettleSorter.Less fees₁ = sort FeeSettleSorter.Less fees₂ := by
    rw [FeeSettleSorter.Less_eq_keyLess]
    refine sort_eq_of_perm hfees ?_
    have hkeys := ((hfees₁.map FeeSettle.Address).nodup_iff.mpr h.feeAddresses_nodup).map
      BigEndian.map_toNat_injective
    rw [List.map_map] at hkeys
    exact hkeys
  have hnone : (addresses₁.length = 0 ∧ fees₁.length = 0) ↔
      (addresses₂.length = 0 ∧ fees₂.length = 0) := by
    rw [haddr.length_eq, hfees.length_eq]
  unfold handleSettleActions
  simp only [hfund, hfee, hnone]

/-- Every node computes one settle block: from a fresh matcher, after any run of handler writes
(a match, `steps_doMatchTaker`, or a cancel, `steps_CancelOrderById`), whatever order Go iterates
the fund settles' addresses, each address's settles and the fee settles in, `handleSettleActions`
builds one message, and so one marshalled block. -/
theorem handleSettleActions_independent_of_order {db : TradeDb} {marketInfo : MarketInfo}
    {mc : Matcher}
    (hmc : Relation.ReflTransGen Matcher.Step (NewMatcherWithMarketInfo db marketInfo) mc)
    {addresses₁ addresses₂ : List (List UInt8)} {settles₁ settles₂ : List UInt8 → List AccountSettle}
    {fees₁ fees₂ : List FeeSettle}
    (haddr₁ : addresses₁.Perm mc.settleAddresses) (haddr₂ : addresses₂.Perm mc.settleAddresses)
    (hsettles₁ : ∀ a, (settles₁ a).Perm (mc.settlesOf a))
    (hsettles₂ : ∀ a, (settles₂ a).Perm (mc.settlesOf a))
    (hfees₁ : fees₁.Perm (mc.feeSettles.map Prod.snd))
    (hfees₂ : fees₂.Perm (mc.feeSettles.map Prod.snd)) :
    handleSettleActions addresses₁ settles₁ fees₁ mc.MarketInfo =
      handleSettleActions addresses₂ settles₂ fees₂ mc.MarketInfo := by
  have hkeyed : mc.SettlesKeyed := (settlesKeyed_NewMatcherWithMarketInfo db marketInfo).steps hmc
  exact handleSettleActions_eq_of_settlesKeyed hkeyed haddr₁ haddr₂ hsettles₁ hsettles₂ hfees₁
    hfees₂ mc.MarketInfo

/-- The sample buy, sent from address `[2]`; the sample store's sell is from `[]`. -/
def sampleBuyFromTwo : Order := { sampleOrder [9] false (unitPrice 1) 1 with Address := [2] }

/-- The sample match settles two addresses; iterating every map of it backwards gives the same
message. -/
theorem handleSettleActions_independent_of_order_sample :
    ∃ mc taker', (NewMatcherWithMarketInfo sampleTradeDb sampleMarket).MatchOrder ⟨true, true⟩
        sampleBuyFromTwo [0] = some (mc, taker') ∧ mc.settleAddresses.length = 2 ∧
      handleSettleActions mc.settleAddresses mc.settlesOf (mc.feeSettles.map Prod.snd)
          mc.MarketInfo =
        handleSettleActions mc.settleAddresses.reverse (fun a => (mc.settlesOf a).reverse)
          (mc.feeSettles.map Prod.snd).reverse mc.MarketInfo := by
  have hlen : ((NewMatcherWithMarketInfo sampleTradeDb sampleMarket).MatchOrder ⟨true, true⟩
      sampleBuyFromTwo [0]).map (fun r => r.1.settleAddresses.length) = some 2 := by
    decide +kernel
  obtain ⟨⟨mc, taker'⟩, hm, hlen⟩ := Option.map_eq_some_iff.mp hlen
  exact ⟨mc, taker', hm, hlen, handleSettleActions_independent_of_order
    (Matcher.steps_doMatchTaker _ hm) (List.Perm.refl _) (List.reverse_perm _)
    (fun _ => List.Perm.refl _) (fun _ => List.reverse_perm _) (List.Perm.refl _)
    (List.reverse_perm _)⟩

end Vite.Dex
