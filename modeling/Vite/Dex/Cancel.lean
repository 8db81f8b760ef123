import Vite.Dex.Lifetime

/-!
# Cancelling an order (`handleCancelOrderById`, `CheckCancelAgentOrder`)

An order is cancelled on DexTrade by id (`CancelOrder`, `CancelOrderV2`), by the hash of the
transaction that placed it (`CancelOrderByTransactionHash`), or through DexFund
(`CancelOrderBySendHash`): DexFund decides the owner (the sender, or a principal that granted
the sender the market named by two tokens) and forwards the send hash and the owner as
`InnerCancelOrderBySendHash`, which only DexFund may send. DexTrade then cancels the order found
when the operator, the sender or the forwarded owner, is the order's address or its agent.

`tradeCancel_authorised` says what this guarantees: the original sender is the order's owner or
agent, or holds the owner's grant for the market it named. The market named need not be the
order's own (`cancelBySendHash_other_market`).
-/

namespace Vite.Dex

/-- `types.ZERO_ADDRESS`. -/
def ZERO_ADDRESS : List UInt8 := List.replicate 21 0

/-- `ParamCancelOrderByHash`. -/
structure ParamCancelOrderByHash where
  SendHash : List UInt8
  Principal : List UInt8
  TradeToken : List UInt8
  QuoteToken : List UInt8
deriving DecidableEq, Repr

/-- `ParamDexInnerCancelOrder`: what DexFund forwards. -/
structure ParamDexInnerCancelOrder where
  SendHash : List UInt8
  Owner : List UInt8
deriving DecidableEq, Repr

/-- What the cancel paths read besides the orders: markets by their tokens (DexFund) and by id
(DexTrade), and the agents' grants. -/
structure CancelView where
  GetMarketInfo : List UInt8 → List UInt8 → Option MarketInfo
  GetMarketInfoById : ℤ → Option MarketInfo
  IsMarketGrantedToAgent : List UInt8 → List UInt8 → ℤ → Bool

/-- `CheckCancelAgentOrder`: the owner is the principal, if the sender names another one and
holds its grant for the market of the two tokens, and the sender otherwise. -/
def CheckCancelAgentOrder (view : CancelView) (sender : List UInt8) (param : ParamCancelOrderByHash) :
    Except DexError (List UInt8) :=
  if param.Principal ≠ ZERO_ADDRESS ∧ param.Principal ≠ sender then
    match view.GetMarketInfo param.TradeToken param.QuoteToken with
    | none => throw .TradeMarketNotExists
    | some marketInfo =>
      if !view.IsMarketGrantedToAgent param.Principal sender marketInfo.MarketId then
        throw .TradeMarketNotGranted
      else pure param.Principal
  else pure sender

/-- DexFund's receive of `CancelOrderBySendHash`: the owner check, then `DoCancelOrder`. -/
def DexFundCancelOrderBySendHash (view : CancelView) (sender : List UInt8)
    (param : ParamCancelOrderByHash) : Except DexError ParamDexInnerCancelOrder := do
  let owner ← CheckCancelAgentOrder view sender param
  return ⟨param.SendHash, owner⟩

/-- `GetOrderIdByHash`: the id indexed under a send hash's key, if it has an id's length. -/
def GetOrderIdByHash (db : TradeDb) (sendHash : List UInt8) : Option (List UInt8) :=
  match AssocList.find? (GetHashMapOrderIdKey sendHash) db.hashMapOrderId with
  | some orderId => if orderId.length = OrderIdBytesLength then some orderId else none
  | none => none

/-- `CancelOrderById`: cancelled, refunded, announced by an `OrderUpdateEvent` and deleted. -/
def Matcher.CancelOrderById (mc : Matcher) (order : Order) : Matcher × Order :=
  let order := { order with
    CancelReason :=
      match order.Status with
      | .Pending => .cancelledByUser
      | .PartialExecuted => .partialExecutedUserCancelled
      | _ => order.CancelReason
    Status := .Cancelled }
  let (mc, order) := mc.handleRefund order
  ((mc.emitOrderUpdate order).deleteOrder order, order)

/-- `handleCancelOrderById`: the operator must be the order's address or agent, and the order
open. -/
def handleCancelOrderById (view : CancelView) (db : TradeDb) (orderId operator : List UInt8) :
    Except DexError (Matcher × Order) := do
  let some (marketId, _) := DeComposeOrderId orderId | throw .InvalidOrderId
  let some marketInfo := view.GetMarketInfoById marketId | throw .TradeMarketNotExists
  let some order := AssocList.find? orderId db.orders | throw .OrderNotExists
  if operator ≠ order.Address ∧ operator ≠ order.Agent then throw .CancelOrderOwnerInvalid
  if order.Status ≠ .Pending ∧ order.Status ≠ .PartialExecuted then throw .CancelOrderInvalidStatus
  return (NewMatcherWithMarketInfo db marketInfo).CancelOrderById order

/-- The three cancel methods DexTrade receives, with the sender of the receiving transaction. -/
inductive TradeCancel
  | CancelOrder (sender orderId : List UInt8)
  | CancelOrderByTransactionHash (sender sendHash : List UInt8)
  | InnerCancelOrderBySendHash (param : ParamDexInnerCancelOrder)

/-- DexTrade's receive of a cancel method. -/
def TradeCancel.receive (view : CancelView) (db : TradeDb) : TradeCancel → Except DexError (Matcher × Order)
  | .CancelOrder sender orderId => handleCancelOrderById view db orderId sender
  | .CancelOrderByTransactionHash sender sendHash =>
    match GetOrderIdByHash db sendHash with
    | none => throw .InvalidOrderHash
    | some orderId => handleCancelOrderById view db orderId sender
  | .InnerCancelOrderBySendHash param =>
    match GetOrderIdByHash db param.SendHash with
    | none => throw .InvalidOrderHash
    | some orderId => handleCancelOrderById view db orderId param.Owner

/-! ## Who can cancel -/

theorem CheckCancelAgentOrder_ok {view : CancelView} {sender owner : List UInt8}
    {param : ParamCancelOrderByHash} (h : CheckCancelAgentOrder view sender param = .ok owner) :
    owner = sender ∨ owner = param.Principal ∧ ∃ marketInfo,
      view.GetMarketInfo param.TradeToken param.QuoteToken = some marketInfo ∧
      view.IsMarketGrantedToAgent param.Principal sender marketInfo.MarketId = true := by
  unfold CheckCancelAgentOrder at h
  split_ifs at h with hother
  · split at h
    · cases h
    · rename_i marketInfo hm
      split_ifs at h with hgrant
      refine .inr ⟨(Except.ok.inj h).symm, marketInfo, hm, ?_⟩
      simpa using hgrant
  · exact .inl (Except.ok.inj h).symm

/-- `CancelOrderById` returns the order it was given, cancelled. -/
theorem Matcher.CancelOrderById_snd (mc : Matcher) (order : Order) :
    (mc.CancelOrderById order).2.Id = order.Id ∧ (mc.CancelOrderById order).2.Status = .Cancelled := by
  obtain ⟨token, quantity, heq | heq⟩ := handleRefund_snd mc { order with
    CancelReason := match order.Status with
      | .Pending => .cancelledByUser
      | .PartialExecuted => .partialExecutedUserCancelled
      | _ => order.CancelReason
    Status := .Cancelled }
  all_goals simp [Matcher.CancelOrderById, heq]

/-- A cancel DexTrade performs: the order it finds under the id, open, with the operator as its
address or agent. -/
theorem handleCancelOrderById_ok {view : CancelView} {db : TradeDb} {orderId operator : List UInt8}
    {mc : Matcher} {cancelled : Order}
    (h : handleCancelOrderById view db orderId operator = .ok (mc, cancelled)) :
    ∃ order, AssocList.find? orderId db.orders = some order ∧
      (operator = order.Address ∨ operator = order.Agent) ∧
      (order.Status = .Pending ∨ order.Status = .PartialExecuted) ∧ cancelled.Id = order.Id ∧
      cancelled.Status = .Cancelled := by
  unfold handleCancelOrderById at h
  split at h
  case h_2 => cases h
  split at h
  case h_2 => cases h
  split at h
  case h_2 => cases h
  rename_i order horder
  dsimp only at h
  -- the owner check, then the status check
  by_cases howner : operator ≠ order.Address ∧ operator ≠ order.Agent
  · rw [if_pos howner] at h
    cases h
  rw [if_neg howner] at h
  by_cases hstatus : order.Status ≠ .Pending ∧ order.Status ≠ .PartialExecuted
  · rw [if_pos hstatus] at h
    cases h
  rw [if_neg hstatus] at h
  have hcancel : cancelled.Id = order.Id ∧ cancelled.Status = .Cancelled := by
    have hc := congrArg Prod.snd (Except.ok.inj h)
    dsimp only at hc
    rw [← hc]
    exact Matcher.CancelOrderById_snd _ order
  refine ⟨order, horder, ?_, ?_, hcancel.1, hcancel.2⟩
  · by_contra hn
    exact howner ⟨fun h₁ => hn (.inl h₁), fun h₂ => hn (.inr h₂)⟩
  · by_contra hn
    exact hstatus ⟨fun h₁ => hn (.inl h₁), fun h₂ => hn (.inr h₂)⟩

/-- Where a DexTrade cancel comes from: a direct request of its sender, or DexFund's answer to a
`CancelOrderBySendHash` of its sender. -/
inductive CancelOrigin (fundView : CancelView) : TradeCancel → List UInt8 → Prop
  | direct (sender orderId : List UInt8) : CancelOrigin fundView (.CancelOrder sender orderId) sender
  | byTransactionHash (sender sendHash : List UInt8) :
      CancelOrigin fundView (.CancelOrderByTransactionHash sender sendHash) sender
  | forwarded (sender : List UInt8) (param : ParamCancelOrderByHash) (inner : ParamDexInnerCancelOrder) :
      DexFundCancelOrderBySendHash fundView sender param = .ok inner →
      CancelOrigin fundView (.InnerCancelOrderBySendHash inner) sender

/-- What the cancel paths do guarantee: the original sender is the cancelled order's address or
agent, or holds a grant for the market of the tokens it named, from the order's address or from
its agent. -/
theorem tradeCancel_authorised {fundView view : CancelView} {db : TradeDb} {req : TradeCancel}
    {sender : List UInt8} (horigin : CancelOrigin fundView req sender) {mc : Matcher}
    {cancelled : Order} (h : req.receive view db = .ok (mc, cancelled)) :
    ∃ orderId order, AssocList.find? orderId db.orders = some order ∧ cancelled.Id = order.Id ∧
      (sender = order.Address ∨ sender = order.Agent ∨
        ∃ principal tradeToken quoteToken marketInfo,
          (principal = order.Address ∨ principal = order.Agent) ∧
          fundView.GetMarketInfo tradeToken quoteToken = some marketInfo ∧
          fundView.IsMarketGrantedToAgent principal sender marketInfo.MarketId = true) := by
  cases horigin with
  | direct sender orderId =>
    obtain ⟨order, horder, hop, -, hid, -⟩ := handleCancelOrderById_ok h
    exact ⟨orderId, order, horder, hid, hop.elim .inl (.inr ∘ .inl)⟩
  | byTransactionHash sender sendHash =>
    simp only [TradeCancel.receive] at h
    split at h
    · cases h
    · rename_i orderId _
      obtain ⟨order, horder, hop, -, hid, -⟩ := handleCancelOrderById_ok h
      exact ⟨orderId, order, horder, hid, hop.elim .inl (.inr ∘ .inl)⟩
  | forwarded sender param inner hfund =>
    obtain ⟨owner, hcheck, hinner⟩ := Except.bind_eq_ok.mp hfund
    obtain rfl := (Except.ok.inj hinner).symm
    simp only [TradeCancel.receive] at h
    split at h
    · cases h
    · rename_i orderId _
      obtain ⟨order, horder, hop, -, hid, -⟩ := handleCancelOrderById_ok h
      refine ⟨orderId, order, horder, hid, ?_⟩
      -- the forwarded owner is the sender, or a principal that granted the sender a market
      rcases CheckCancelAgentOrder_ok hcheck with rfl | ⟨rfl, marketInfo, hm, hgrant⟩
      · exact hop.elim .inl (.inr ∘ .inl)
      · exact .inr (.inr ⟨_, _, _, marketInfo, hop, hm, hgrant⟩)

/-! ## A grant for one market cancels in another -/

/-- A send hash: 31 zero bytes, then `9`. -/
def sampleSendHash : List UInt8 := List.replicate 31 0 ++ [9]

/-- A sell of market `2` by address `[1]`, placed with `sampleSendHash`. -/
def otherMarketOrder : Order :=
  { sampleOrder (orderIdBytes 2 true "1".toList 1 0) true (unitPrice 1) 1 with
    Address := [1], SendHash := sampleSendHash }

/-- Tokens `[7]` and `[8]` name market `1`, and `[1]` granted agent `[2]` market `1` only. -/
def grantView : CancelView where
  GetMarketInfo _ _ := some ⟨1, [7], [8], 0, 0⟩
  GetMarketInfoById marketId := some ⟨marketId, [7], [8], 0, 0⟩
  IsMarketGrantedToAgent owner agent marketId := owner = [1] && agent = [2] && marketId = 1

/-- DexTrade's storage holding the order under its id and its send hash. -/
def grantDb : TradeDb :=
  ⟨[(otherMarketOrder.Id, otherMarketOrder)], [(GetHashMapOrderIdKey sampleSendHash, otherMarketOrder.Id)], 0⟩

/-- Agent `[2]`, granted market `1` by `[1]`, cancels `[1]`'s order of market `2` through DexFund
by naming the tokens of market `1`. -/
theorem cancelBySendHash_other_market :
    ∃ inner mc cancelled,
      DexFundCancelOrderBySendHash grantView [2] ⟨sampleSendHash, [1], [7], [8]⟩ = .ok inner ∧
      (TradeCancel.InnerCancelOrderBySendHash inner).receive grantView grantDb = .ok (mc, cancelled) ∧
      cancelled.Id = otherMarketOrder.Id ∧ cancelled.Status = .Cancelled ∧
      (DeComposeOrderId otherMarketOrder.Id).map Prod.fst = some 2 ∧
      [2] ≠ otherMarketOrder.Address ∧ [2] ≠ otherMarketOrder.Agent ∧
      grantView.IsMarketGrantedToAgent otherMarketOrder.Address [2] 2 = false :=
  ⟨_, _, _, rfl, rfl, rfl, rfl, by decide, by decide, by decide, by decide⟩

end Vite.Dex
