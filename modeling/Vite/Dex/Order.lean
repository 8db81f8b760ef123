import Vite.Dex.OrderId
import Vite.Dex.Calculator
import Vite.Lib.AssocList

/-!
# Orders, the DexTrade order store and maker books (`order.go`, `leveldb_book.go`)

An `Order` holds the protobuf fields the matcher and the fund reads and writes; amounts are
natural numbers (see `Calculator`), the status, cancel reason and type are the enumerations of
`order.go`. DexTrade keeps every open order under its id. `SerializeCompact` drops the id,
market, side, price and timestamp, which `RenderOrderById` reads back from the key
(`DeComposeOrderId_orderIdBytes`), so a stored order is kept here as the whole record.

A maker book is the stored orders whose key starts with the market's three bytes and the side
byte, read in key order (`getMakerBook`). The other DexTrade keys (`ttmsp:`, `hmId:...`) have
a letter as fourth byte, never a side byte, so no other key lies under a book prefix.
-/

namespace Vite.Dex

/-- Order statuses. -/
inductive OrderStatus
  | Pending
  | PartialExecuted
  | FullyExecuted
  | Cancelled
  | NewFailed
deriving DecidableEq, Repr

/-- Cancel reasons; `cancelledByUser` is also the value of a fresh order (`0`). -/
inductive CancelReason
  | cancelledByUser
  | cancelledByMarket
  | cancelledOnTimeout
  | partialExecutedUserCancelled
  | partialExecutedCancelledByMarket
  | partialExecutedCancelledOnTimeout
  | unknownCancelledOnTimeout
  | cancelledByPostOnlyMatched
  | cancelledByFillOrKillNotFilled
  | cancelledByExceedMarketOrderAmtThreshold
deriving DecidableEq, Repr

/-- Order types. -/
inductive OrderType
  | Limited
  | Market
  | PostOnly
  | FillOrKill
  | ImmediateOrCancel
deriving DecidableEq, Repr

/-- `dexproto.Order`. `Side` is `false` for a buy and `true` for a sell; the proto's `Type` is
`OrderType` here (`Type` is a keyword). -/
structure Order where
  Id : List UInt8
  Address : List UInt8
  MarketId : ℤ
  Side : Bool
  OrderType : OrderType
  Price : List UInt8
  TakerFeeRate : ℤ
  MakerFeeRate : ℤ
  TakerOperatorFeeRate : ℤ
  MakerOperatorFeeRate : ℤ
  Quantity : ℕ
  Amount : ℕ
  LockedBuyFee : ℕ
  Status : OrderStatus
  CancelReason : CancelReason
  ExecutedQuantity : ℕ
  ExecutedAmount : ℕ
  ExecutedBaseFee : ℕ
  ExecutedOperatorFee : ℕ
  RefundToken : List UInt8
  RefundQuantity : ℕ
  Timestamp : ℤ
  Agent : List UInt8
  SendHash : List UInt8
  MarketOrderAmtThreshold : ℕ
deriving DecidableEq, Repr

/-- The fields of `MarketInfo` the matcher reads. -/
structure MarketInfo where
  MarketId : ℤ
  TradeToken : List UInt8
  QuoteToken : List UInt8
  TradeTokenDecimals : ℤ
  QuoteTokenDecimals : ℤ
deriving DecidableEq, Repr

/-- `OrderTx`: a `proto.Transaction` with the parties' addresses and the market's tokens. The
transaction id, a hash of the two order ids, is read by nothing modelled here. -/
structure OrderTx where
  TakerSide : Bool
  TakerId : List UInt8
  MakerId : List UInt8
  Price : List UInt8
  Quantity : ℕ
  Amount : ℕ
  TakerFee : ℕ
  MakerFee : ℕ
  TakerOperatorFee : ℕ
  MakerOperatorFee : ℕ
  Timestamp : ℤ
  takerAddress : List UInt8
  makerAddress : List UInt8
  tradeToken : List UInt8
  quoteToken : List UInt8
deriving DecidableEq, Repr

/-- `proto.AccountSettle`. -/
structure AccountSettle where
  IsTradeToken : Bool
  IncAvailable : ℕ
  ReduceLocked : ℕ
  ReleaseLocked : ℕ
deriving DecidableEq, Repr

/-- `proto.FeeSettle`. -/
structure FeeSettle where
  Address : List UInt8
  BaseFee : ℕ
  OperatorFee : ℕ
deriving DecidableEq, Repr

/-- The DexTrade storage: open orders by id, the send-hash index, and the trade timestamp
(`0` while unset). -/
structure TradeDb where
  orders : List (List UInt8 × Order)
  hashMapOrderId : List (List UInt8 × List UInt8)
  tradeTimestamp : ℤ
deriving DecidableEq, Repr

/-- `getBookPrefix`: the market's low three bytes and the side. -/
def getBookPrefix (marketId : ℤ) (side : Bool) : List UInt8 :=
  (Uint32ToBytes (marketId % 2 ^ 32).toNat).drop 1 ++ [if side then 1 else 0]

/-- `getMakerBook` read to its end: the orders under the book's prefix in key order. -/
def getMakerBook (db : TradeDb) (marketId : ℤ) (side : Bool) : List Order :=
  ((db.orders.filter fun e => (getBookPrefix marketId side).isPrefixOf e.1).mergeSort
    fun a b => compare a.1 b.1 != .gt).map Prod.snd

/-- `sendHashMapOrderIdPrefixKey`, the bytes of `"hmId:"`. -/
def sendHashMapOrderIdPrefixKey : List UInt8 := [0x68, 0x6d, 0x49, 0x64, 0x3a]

/-- `GetHashMapOrderIdKey`: the prefix, then the send hash past as many bytes as the prefix has,
`sendHash[len(prefix):]`; two hashes that differ only in their first five bytes share a key.
Go's slice panics on a hash shorter than the prefix, and a send hash has 32 bytes. -/
def GetHashMapOrderIdKey (sendHash : List UInt8) : List UInt8 :=
  sendHashMapOrderIdPrefixKey ++ sendHash.drop sendHashMapOrderIdPrefixKey.length

/-- `SaveHashMapOrderId`. -/
def TradeDb.SaveHashMapOrderId (db : TradeDb) (sendHash orderId : List UInt8) : TradeDb :=
  { db with hashMapOrderId := AssocList.insert (GetHashMapOrderIdKey sendHash) orderId db.hashMapOrderId }

/-- `DeleteHashMapOrderId`: the key set to `nil`, which deletes it. -/
def TradeDb.DeleteHashMapOrderId (db : TradeDb) (sendHash : List UInt8) : TradeDb :=
  { db with hashMapOrderId := AssocList.erase (GetHashMapOrderIdKey sendHash) db.hashMapOrderId }

/-- `saveOrder`: the order under its id, and the send hash of a taker indexed to it. -/
def TradeDb.saveOrder (db : TradeDb) (order : Order) (isTaker : Bool) : TradeDb :=
  let db := { db with orders := AssocList.insert order.Id order db.orders }
  if isTaker ∧ order.SendHash ≠ [] then db.SaveHashMapOrderId order.SendHash order.Id else db

/-- `deleteOrder`. -/
def TradeDb.deleteOrder (db : TradeDb) (order : Order) : TradeDb :=
  let db := { db with orders := AssocList.erase order.Id db.orders }
  if order.SendHash ≠ [] then db.DeleteHashMapOrderId order.SendHash else db

/-- `TryUpdateTimestamp`: the trade timestamp follows the taker's when the previous block hash
starts with a byte below `32`. -/
def TradeDb.TryUpdateTimestamp (db : TradeDb) (timestamp : ℤ) (preHash : List UInt8) : TradeDb :=
  if preHash.getD 0 0 < 32 then { db with tradeTimestamp := timestamp } else db

@[simp] theorem TradeDb.saveOrder_tradeTimestamp (db : TradeDb) (order : Order) (isTaker : Bool) :
    (db.saveOrder order isTaker).tradeTimestamp = db.tradeTimestamp := by
  unfold TradeDb.saveOrder
  split_ifs <;> rfl

@[simp] theorem TradeDb.deleteOrder_tradeTimestamp (db : TradeDb) (order : Order) :
    (db.deleteOrder order).tradeTimestamp = db.tradeTimestamp := by
  unfold TradeDb.deleteOrder
  split_ifs <;> rfl

theorem TradeDb.saveOrder_orders (db : TradeDb) (order : Order) (isTaker : Bool) :
    (db.saveOrder order isTaker).orders = AssocList.insert order.Id order db.orders := by
  unfold TradeDb.saveOrder
  split_ifs <;> rfl

theorem TradeDb.deleteOrder_orders (db : TradeDb) (order : Order) :
    (db.deleteOrder order).orders = AssocList.erase order.Id db.orders := by
  unfold TradeDb.deleteOrder
  split_ifs <;> rfl

theorem TradeDb.find?_saveOrder (db : TradeDb) (order : Order) (isTaker : Bool) (id : List UInt8) :
    AssocList.find? id (db.saveOrder order isTaker).orders =
      if id = order.Id then some order else AssocList.find? id db.orders := by
  rw [TradeDb.saveOrder_orders]
  split
  · rename_i h
    rw [h]
    exact AssocList.find?_insert_self _ _ _
  · exact AssocList.find?_insert_ne ‹_› _ _

theorem TradeDb.find?_deleteOrder (db : TradeDb) (order : Order) (id : List UInt8) :
    AssocList.find? id (db.deleteOrder order).orders =
      if id = order.Id then none else AssocList.find? id db.orders := by
  rw [TradeDb.deleteOrder_orders]
  split
  · rename_i h
    rw [h]
    exact AssocList.find?_erase_self _ _
  · exact AssocList.find?_erase_ne ‹_› _

end Vite.Dex
