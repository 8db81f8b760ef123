import Vite.Dex.Price

/-!
# Order ids (`ComposeOrderId`, `DeComposeOrderId`, `NewAndSaveOrderSerialNo`)

An order id is 22 bytes: the market id's low three bytes, the side, the ten price bytes
(complemented for a buy), the timestamp's low five bytes and the serial number's low three
bytes. A maker book is the store's keys under a market-and-side prefix, read in byte order, so
the layout of an id is the book's priority. `DeComposeOrderId_orderIdBytes` reads an id back,
`compare_orderIdBytes` orders two ids of one book by price, then timestamp, then serial number,
and `ComposeRun.nodup` says the ids of successive calls are pairwise distinct while no timestamp
gets `2 ^ 24` of them.
-/

namespace Vite.Dex

open BigEndian Strconv

/-- `OrderIdBytesLength`. -/
def OrderIdBytesLength : ℕ := 22

/-- The serial-number record (`SerialNo`): the timestamp of the last id and its number. The
number is an `int32` in Go; its wrap at `2 ^ 31` changes none of the three bytes an id keeps
(`2 ^ 24` divides `2 ^ 32`), so it is unbounded here. -/
structure SerialNo where
  Timestamp : ℤ
  No : ℕ
deriving DecidableEq, Repr

/-- The DexFund storage the id functions read and write: the DEX timestamp (`0` while unset)
and the serial-number record (`none` before the first id). -/
structure OrderIdDb where
  dexTimestamp : ℤ
  serialNo : Option SerialNo
deriving DecidableEq, Repr

/-- `GetTimestampInt64`; `none` where Go panics on an unset timestamp. -/
def GetTimestampInt64 (db : OrderIdDb) : Option ℤ :=
  if db.dexTimestamp = 0 then none else some db.dexTimestamp

/-- `NewAndSaveOrderSerialNo`: one more than the record's number at the record's timestamp,
`0` at any other; the record is overwritten. -/
def NewAndSaveOrderSerialNo (db : OrderIdDb) (timestamp : ℤ) : ℕ × OrderIdDb :=
  let newSerialNo :=
    match db.serialNo with
    | none => 0
    | some serialNo => if timestamp = serialNo.Timestamp then serialNo.No + 1 else 0
  (newSerialNo, { db with serialNo := some ⟨timestamp, newSerialNo⟩ })

/-- The bytes `ComposeOrderId` copies into an id, field by field. -/
def orderIdBytes (marketId : ℤ) (side : Bool) (price : List Char) (timestamp : ℤ)
    (serialNo : ℕ) : List UInt8 :=
  (Uint32ToBytes (marketId % 2 ^ 32).toNat).drop 1 ++
    [if side then 1 else 0] ++
    (if side then PriceToBytes price else BitwiseNotBytes (PriceToBytes price)) ++
    (Uint64ToBytes (timestamp % 2 ^ 64).toNat).drop 3 ++
    (Uint32ToBytes (serialNo % 2 ^ 32)).drop 1

/-- `ComposeOrderId`; `none` where Go panics. -/
def ComposeOrderId (db : OrderIdDb) (marketId : ℤ) (side : Bool) (price : List Char) :
    Option (List UInt8 × OrderIdDb) := do
  let timestamp ← GetTimestampInt64 db
  let (serialNo, db) := NewAndSaveOrderSerialNo db timestamp
  return (orderIdBytes marketId side price timestamp serialNo, db)

/-- `DeComposeOrderId`: market id, side, price bytes and timestamp; `none` for the error on an
id of the wrong length. -/
def DeComposeOrderId (idBytes : List UInt8) : Option (ℤ × Bool × List UInt8 × ℤ) :=
  if idBytes.length ≠ OrderIdBytesLength then none
  else
    let marketId : ℤ := BytesToUint32 (0 :: idBytes.take 3)
    let side := idBytes.getD 3 0 == 1
    let price := (idBytes.drop 4).take 10
    let price := if side then price else BitwiseNotBytes price
    let timestamp : ℤ := BytesToUint64 ([0, 0, 0] ++ (idBytes.drop 14).take 5)
    some (marketId, side, price, timestamp)

/-! ## The layout -/

@[simp] theorem length_PriceToBytes (price : List Char) : (PriceToBytes price).length = 10 := by
  simp only [PriceToBytes, Uint64ToBytes]
  split_ifs <;> simp

@[simp] theorem length_BitwiseNotBytes (bytes : List UInt8) :
    (BitwiseNotBytes bytes).length = bytes.length := List.length_map _

theorem BitwiseNotBytes_involutive (bytes : List UInt8) :
    BitwiseNotBytes (BitwiseNotBytes bytes) = bytes := map_complement_involutive bytes

/-- The three low bytes of a value below `2 ^ 24` give it back, whatever wrap came before. -/
theorem low3_of_lt {v : ℤ} (h0 : 0 ≤ v) (h : v < 2 ^ 24) :
    (Uint32ToBytes (v % 2 ^ 32).toNat).drop 1 = toBytesBE 3 v.toNat := by
  rw [Uint32ToBytes, drop_toBytesBE 3 1, Int.emod_eq_of_lt h0 (by omega)]

theorem low5_of_lt {v : ℤ} (h0 : 0 ≤ v) (h : v < 2 ^ 40) :
    (Uint64ToBytes (v % 2 ^ 64).toNat).drop 3 = toBytesBE 5 v.toNat := by
  rw [Uint64ToBytes, drop_toBytesBE 5 3, Int.emod_eq_of_lt h0 (by omega)]

theorem low3_serial {s : ℕ} (h : s < 2 ^ 24) : (Uint32ToBytes (s % 2 ^ 32)).drop 1 = toBytesBE 3 s := by
  rw [Uint32ToBytes, drop_toBytesBE 3 1, Nat.mod_eq_of_lt (by omega)]

theorem length_low3 (v : ℕ) : ((Uint32ToBytes v).drop 1).length = 3 := by
  rw [Uint32ToBytes, List.length_drop, length_toBytesBE]

/-- `DeComposeOrderId` reads back the market id, side, price bytes and timestamp of an id whose
market id and timestamp are in range. -/
theorem DeComposeOrderId_orderIdBytes {marketId timestamp : ℤ} (side : Bool) (price : List Char)
    (serialNo : ℕ) (hm0 : 0 ≤ marketId) (hm : marketId < 2 ^ 24) (ht0 : 0 ≤ timestamp)
    (ht : timestamp < 2 ^ 40) :
    DeComposeOrderId (orderIdBytes marketId side price timestamp serialNo) =
      some (marketId, side, PriceToBytes price, timestamp) := by
  rw [orderIdBytes, low3_of_lt hm0 hm, low5_of_lt ht0 ht]
  have hpl : (if side then PriceToBytes price else BitwiseNotBytes (PriceToBytes price)).length = 10 := by
    split <;> simp
  simp only [DeComposeOrderId, OrderIdBytesLength, List.length_append, length_toBytesBE, hpl,
    List.length_singleton, length_low3]
  have h4 : (toBytesBE 3 marketId.toNat).drop 4 = [] := List.drop_eq_nil_of_le (by simp)
  have h14 : (toBytesBE 3 marketId.toNat).drop 14 = [] := List.drop_eq_nil_of_le (by simp)
  simp [List.drop_append, hpl, BytesToUint32, BytesToUint64, beValue_toBytesBE, h4, h14]
  refine ⟨by omega, ?_, ?_, by omega⟩
  · cases side <;> rfl
  · cases side <;> simp [BitwiseNotBytes_involutive]

/-! ## Byte order of ids -/

/-- The price field of an id orders a book best price first: ascending for sells, descending
(complemented bytes) for buys. -/
theorem compare_priceField (side : Bool) {p1 p2 : List Char} (hp1 : ValidPrice p1 true = true)
    (hp2 : ValidPrice p2 true = true) :
    compare (if side then PriceToBytes p1 else BitwiseNotBytes (PriceToBytes p1))
        (if side then PriceToBytes p2 else BitwiseNotBytes (PriceToBytes p2)) =
      if side then compare (priceUnits (PriceToBytes p1)) (priceUnits (PriceToBytes p2))
      else compare (priceUnits (PriceToBytes p2)) (priceUnits (PriceToBytes p1)) := by
  have hw1 := (PriceToBytes_of_ValidPrice hp1).1
  have hw2 := (PriceToBytes_of_ValidPrice hp2).1
  cases side
  · rw [if_neg Bool.false_ne_true, if_neg Bool.false_ne_true, if_neg Bool.false_ne_true,
      BitwiseNotBytes, BitwiseNotBytes, compare_map_complement (by simp), compare_of_wellFormed hw2 hw1]
  · rw [if_pos rfl, if_pos rfl, if_pos rfl, compare_of_wellFormed hw1 hw2]

/-- Two ids of one market and side compare by price, then timestamp, then serial number. -/
theorem compare_orderIdBytes (marketId : ℤ) (side : Bool) {p1 p2 : List Char} {t1 t2 : ℤ}
    {s1 s2 : ℕ} (hp1 : ValidPrice p1 true = true) (hp2 : ValidPrice p2 true = true)
    (ht1 : 0 ≤ t1 ∧ t1 < 2 ^ 40) (ht2 : 0 ≤ t2 ∧ t2 < 2 ^ 40) (hs1 : s1 < 2 ^ 24)
    (hs2 : s2 < 2 ^ 24) :
    compare (orderIdBytes marketId side p1 t1 s1) (orderIdBytes marketId side p2 t2 s2) =
      (if side then compare (priceUnits (PriceToBytes p1)) (priceUnits (PriceToBytes p2))
        else compare (priceUnits (PriceToBytes p2)) (priceUnits (PriceToBytes p1))).then
        ((compare t1.toNat t2.toNat).then (compare s1 s2)) := by
  have hpl (p : List Char) :
      (if side then PriceToBytes p else BitwiseNotBytes (PriceToBytes p)).length = 10 := by
    split <;> simp
  rw [orderIdBytes, orderIdBytes, low5_of_lt ht1.1 ht1.2, low5_of_lt ht2.1 ht2.2, low3_serial hs1,
    low3_serial hs2]
  simp only [List.append_assoc]
  rw [compare_append_left, compare_append_left,
    compare_append_of_length_eq _ _ (by rw [hpl, hpl]), compare_priceField side hp1 hp2,
    compare_append_of_length_eq _ _ (by simp), compare_toBytesBE (by omega) (by omega),
    compare_toBytesBE hs1 hs2]

/-! ## Runs of `ComposeOrderId` -/

/-- The timestamp and serial number an id carries. -/
def orderIdKey (idBytes : List UInt8) : ℤ × ℕ :=
  (beValue ((idBytes.drop 14).take 5), beValue (idBytes.drop 19))

theorem orderIdKey_orderIdBytes (marketId : ℤ) (side : Bool) (price : List Char) {timestamp : ℤ}
    {serialNo : ℕ} (ht0 : 0 ≤ timestamp) (ht : timestamp < 2 ^ 40) (hs : serialNo < 2 ^ 24) :
    orderIdKey (orderIdBytes marketId side price timestamp serialNo) = (timestamp, serialNo) := by
  have hpl : (if side then PriceToBytes price else BitwiseNotBytes (PriceToBytes price)).length = 10 := by
    split <;> simp
  have hml : ((Uint32ToBytes (marketId % 2 ^ 32).toNat).drop 1).length = 3 := by
    rw [Uint32ToBytes, List.length_drop, length_toBytesBE]
  -- fourteen bytes of market, side and price, then the timestamp and serial fields
  have hlayout : orderIdBytes marketId side price timestamp serialNo =
      ((Uint32ToBytes (marketId % 2 ^ 32).toNat).drop 1 ++ [if side then 1 else 0] ++
        (if side then PriceToBytes price else BitwiseNotBytes (PriceToBytes price))) ++
        (toBytesBE 5 timestamp.toNat ++ toBytesBE 3 serialNo) := by
    rw [orderIdBytes, low5_of_lt ht0 ht, low3_serial hs]
    simp only [List.append_assoc]
  have hpre : ((Uint32ToBytes (marketId % 2 ^ 32).toNat).drop 1 ++ [if side then 1 else 0] ++
      (if side then PriceToBytes price else BitwiseNotBytes (PriceToBytes price))).length = 14 := by
    rw [List.length_append, List.length_append, hml, hpl, List.length_singleton]
  have ht5 : timestamp.toNat < 256 ^ 5 := by omega
  rw [hlayout, orderIdKey, List.drop_left' hpre, List.take_left' (length_toBytesBE 5 _),
    ← List.append_assoc, List.drop_left' (by rw [List.length_append, hpre, length_toBytesBE]),
    beValue_toBytesBE, beValue_toBytesBE, Nat.mod_eq_of_lt ht5, Nat.mod_eq_of_lt (by omega),
    Int.toNat_of_nonneg ht0]

/-- The order on the keys `(timestamp, serial number)` of ids: lexicographic. -/
def keyLt (a b : ℤ × ℕ) : Prop := a.1 < b.1 ∨ a.1 = b.1 ∧ a.2 < b.2

theorem keyLt_irrefl (a : ℤ × ℕ) : ¬keyLt a a := by
  rintro (h | ⟨-, h⟩) <;> omega

/-- The serial-number record was written at the current DEX timestamp or before. -/
def OrderIdDb.Consistent (db : OrderIdDb) : Prop :=
  ∀ r, db.serialNo = some r → r.Timestamp ≤ db.dexTimestamp

/-- A key that an id composed from `db` on can carry: not before the DEX timestamp, and past the
record's number at the record's timestamp. -/
def OrderIdDb.Below (db : OrderIdDb) (key : ℤ × ℕ) : Prop :=
  db.dexTimestamp ≤ key.1 ∧ ∀ r, db.serialNo = some r → r.Timestamp = key.1 → r.No < key.2

/-- Successive `ComposeOrderId` calls, the DEX timestamp moving only forward between them (as
`SetDexTimestamp` moves it): each id with the timestamp and serial number it was composed with. -/
inductive ComposeRun : OrderIdDb → List (List UInt8 × ℤ × ℕ) → Prop
  | nil (db : OrderIdDb) : ComposeRun db []
  | advance {db : OrderIdDb} {timestamp : ℤ} {run : List (List UInt8 × ℤ × ℕ)} :
      db.dexTimestamp ≤ timestamp → ComposeRun { db with dexTimestamp := timestamp } run →
      ComposeRun db run
  | compose {db db' : OrderIdDb} {marketId : ℤ} {side : Bool} {price : List Char}
      {id : List UInt8} {serialNo : ℕ} {run : List (List UInt8 × ℤ × ℕ)} :
      ComposeOrderId db marketId side price = some (id, db') →
      db'.serialNo = some ⟨db.dexTimestamp, serialNo⟩ →
      ComposeRun db' run → ComposeRun db ((id, db.dexTimestamp, serialNo) :: run)

/-- What one `ComposeOrderId` call does to the store, and the id it returns. -/
theorem ComposeOrderId_eq_some {db db' : OrderIdDb} {marketId : ℤ} {side : Bool}
    {price : List Char} {id : List UInt8}
    (h : ComposeOrderId db marketId side price = some (id, db')) :
    db'.dexTimestamp = db.dexTimestamp ∧
      db'.serialNo = some ⟨db.dexTimestamp, (NewAndSaveOrderSerialNo db db.dexTimestamp).1⟩ ∧
      id = orderIdBytes marketId side price db.dexTimestamp
        (NewAndSaveOrderSerialNo db db.dexTimestamp).1 := by
  simp only [ComposeOrderId, GetTimestampInt64] at h
  split_ifs at h with h0
  · cases h
  · simp only [Option.pure_def, Option.bind_eq_bind, Option.bind_some, Option.some.injEq,
      Prod.mk.injEq] at h
    obtain ⟨rfl, rfl⟩ := h
    exact ⟨rfl, rfl, rfl⟩

/-- With the DEX timestamp set, `ComposeOrderId` returns the id of the next serial number. -/
theorem ComposeOrderId_of_ne_zero {db : OrderIdDb} (marketId : ℤ) (side : Bool) (price : List Char)
    (h : db.dexTimestamp ≠ 0) :
    ComposeOrderId db marketId side price =
      some (orderIdBytes marketId side price db.dexTimestamp (NewAndSaveOrderSerialNo db db.dexTimestamp).1,
        (NewAndSaveOrderSerialNo db db.dexTimestamp).2) := by
  simp [ComposeOrderId, GetTimestampInt64, h]

/-- At the record's timestamp the next serial number is one past the record's. -/
theorem serialNo_of_record {db : OrderIdDb} {r : SerialNo} (h : db.serialNo = some r) :
    (NewAndSaveOrderSerialNo db r.Timestamp).1 = r.No + 1 := by
  simp [NewAndSaveOrderSerialNo, h]

/-- Along a run the keys strictly increase, and each is one the starting store allows. -/
theorem ComposeRun.keys_increase {db : OrderIdDb} {run : List (List UInt8 × ℤ × ℕ)}
    (hrun : ComposeRun db run) (hdb : db.Consistent) :
    (run.map Prod.snd).Pairwise keyLt ∧ ∀ x ∈ run, db.Below x.2 := by
  induction hrun with
  | nil => exact ⟨List.Pairwise.nil, fun _ h => absurd h List.not_mem_nil⟩
  | @advance db timestamp run hle _ ih =>
    obtain ⟨hpair, hbelow⟩ := ih fun r hr => (hdb r hr).trans hle
    exact ⟨hpair, fun x hx => ⟨hle.trans (hbelow x hx).1, (hbelow x hx).2⟩⟩
  | @compose db db' marketId side price id serialNo run hc hser _ ih =>
    obtain ⟨hts, hser', -⟩ := ComposeOrderId_eq_some hc
    have hs : serialNo = (NewAndSaveOrderSerialNo db db.dexTimestamp).1 := by
      rw [hser] at hser'
      cases hser'
      rfl
    obtain ⟨hpair, hbelow⟩ := ih fun r hr => by
      rw [hser] at hr
      cases hr
      exact hts.ge
    -- the new key is past the record's number; every later key is past the new one
    have hnew : ∀ r, db.serialNo = some r → r.Timestamp = db.dexTimestamp → r.No < serialNo := by
      intro r hr ht
      rw [hs, ← ht, serialNo_of_record hr]
      omega
    have hlater : ∀ x ∈ run, keyLt (db.dexTimestamp, serialNo) x.2 := by
      intro x hx
      obtain ⟨hle, hrec⟩ := hbelow x hx
      rw [hts] at hle
      rcases hle.lt_or_eq with hlt | heq
      · exact .inl hlt
      · exact .inr ⟨heq, hrec ⟨db.dexTimestamp, serialNo⟩ hser heq⟩
    refine ⟨List.pairwise_cons.mpr ⟨?_, hpair⟩, ?_⟩
    · intro k hk
      obtain ⟨x, hx, rfl⟩ := List.mem_map.mp hk
      exact hlater x hx
    · intro x hx
      rcases List.mem_cons.mp hx with rfl | hx
      · exact ⟨le_rfl, hnew⟩
      · obtain ⟨hle, -⟩ := hbelow x hx
        refine ⟨hts ▸ hle, fun r hr ht => ?_⟩
        have hlt := hlater x hx
        have hrt : r.Timestamp = db.dexTimestamp := le_antisymm (hdb r hr) (ht ▸ hts ▸ hle)
        rcases hlt with hlt | ⟨-, hlt⟩
        · exact absurd (ht ▸ hrt) (ne_of_gt hlt)
        · exact (hnew r hr hrt).trans hlt

/-- Every id of a run is the id bytes of its key. -/
theorem ComposeRun.id_eq {db : OrderIdDb} {run : List (List UInt8 × ℤ × ℕ)} (hrun : ComposeRun db run) :
    ∀ x ∈ run, ∃ marketId side price, x.1 = orderIdBytes marketId side price x.2.1 x.2.2 := by
  induction hrun with
  | nil => exact fun _ h => absurd h List.not_mem_nil
  | advance _ _ ih => exact ih
  | @compose db db' marketId side price id serialNo run hc hser _ ih =>
    intro x hx
    rcases List.mem_cons.mp hx with rfl | hx
    · obtain ⟨-, hser', hid⟩ := ComposeOrderId_eq_some hc
      rw [hser] at hser'
      cases hser'
      exact ⟨marketId, side, price, hid⟩
    · exact ih x hx

/-- The ids of a run are pairwise distinct while every timestamp is in `[0, 2 ^ 40)` and gets
fewer than `2 ^ 24` ids. -/
theorem ComposeRun.nodup {db : OrderIdDb} {run : List (List UInt8 × ℤ × ℕ)}
    (hrun : ComposeRun db run) (hdb : db.Consistent)
    (hbound : ∀ x ∈ run, 0 ≤ x.2.1 ∧ x.2.1 < 2 ^ 40 ∧ x.2.2 < 2 ^ 24) :
    (run.map Prod.fst).Nodup := by
  have hkey : ∀ x ∈ run, orderIdKey x.1 = x.2 := by
    intro x hx
    obtain ⟨marketId, side, price, hid⟩ := hrun.id_eq x hx
    obtain ⟨h0, ht, hs⟩ := hbound x hx
    rw [hid, orderIdKey_orderIdBytes marketId side price h0 ht hs]
  have hpair := List.pairwise_map.mp (hrun.keys_increase hdb).1
  refine List.pairwise_map.mpr (hpair.imp_of_mem fun {a b} ha hb hab heq => ?_)
  have := hkey b hb
  rw [← heq, hkey a ha] at this
  exact keyLt_irrefl _ (this ▸ hab)

theorem decimalOf_lt_iff {p₁ p₂ : List Char} (hp₁ : ValidPrice p₁ true = true)
    (hp₂ : ValidPrice p₂ true = true) :
    decimalOf p₁ < decimalOf p₂ ↔ priceUnits (PriceToBytes p₁) < priceUnits (PriceToBytes p₂) := by
  rw [← (PriceToBytes_of_ValidPrice hp₁).2, ← (PriceToBytes_of_ValidPrice hp₂).2, priceValue_eq_units,
    priceValue_eq_units, div_lt_div_iff_of_pos_right (by positivity), Nat.cast_lt]

theorem decimalOf_eq_iff {p₁ p₂ : List Char} (hp₁ : ValidPrice p₁ true = true)
    (hp₂ : ValidPrice p₂ true = true) :
    decimalOf p₁ = decimalOf p₂ ↔ priceUnits (PriceToBytes p₁) = priceUnits (PriceToBytes p₂) := by
  rw [← (PriceToBytes_of_ValidPrice hp₁).2, ← (PriceToBytes_of_ValidPrice hp₂).2, priceValue_eq_units,
    priceValue_eq_units, div_left_inj' (by positivity), Nat.cast_inj]

theorem orderId_encodes_priority :
    (∀ (db : OrderIdDb) (marketId : ℤ) (side : Bool) (price : List Char),
      0 ≤ marketId → marketId < 2 ^ 24 → 0 < db.dexTimestamp → db.dexTimestamp < 2 ^ 40 →
      ∃ id db', ComposeOrderId db marketId side price = some (id, db') ∧
        DeComposeOrderId id = some (marketId, side, PriceToBytes price, db.dexTimestamp)) ∧
    (∀ (db₁ db₂ db₁' db₂' : OrderIdDb) (marketId : ℤ) (side : Bool) (p₁ p₂ : List Char)
        (id₁ id₂ : List UInt8) (s₁ s₂ : ℕ),
      ValidPrice p₁ true = true → ValidPrice p₂ true = true →
      0 ≤ db₁.dexTimestamp → db₁.dexTimestamp < 2 ^ 40 →
      0 ≤ db₂.dexTimestamp → db₂.dexTimestamp < 2 ^ 40 →
      ComposeOrderId db₁ marketId side p₁ = some (id₁, db₁') →
      db₁'.serialNo = some ⟨db₁.dexTimestamp, s₁⟩ → s₁ < 2 ^ 24 →
      ComposeOrderId db₂ marketId side p₂ = some (id₂, db₂') →
      db₂'.serialNo = some ⟨db₂.dexTimestamp, s₂⟩ → s₂ < 2 ^ 24 →
      (compare id₁ id₂ = .lt ↔
        (if side then decimalOf p₁ < decimalOf p₂ else decimalOf p₂ < decimalOf p₁) ∨
          decimalOf p₁ = decimalOf p₂ ∧
            (db₁.dexTimestamp < db₂.dexTimestamp ∨
              db₁.dexTimestamp = db₂.dexTimestamp ∧ s₁ < s₂))) ∧
    (∀ (db : OrderIdDb) (run : List (List UInt8 × ℤ × ℕ)), db.Consistent → ComposeRun db run →
      (∀ x ∈ run, 0 ≤ x.2.1 ∧ x.2.1 < 2 ^ 40 ∧ x.2.2 < 2 ^ 24) → (run.map Prod.fst).Nodup) := by
  refine ⟨?_, ?_, fun db run hdb hrun hbound => hrun.nodup hdb hbound⟩
  · intro db marketId side price hm0 hm ht0 ht
    exact ⟨_, _, ComposeOrderId_of_ne_zero marketId side price ht0.ne',
      DeComposeOrderId_orderIdBytes side price _ hm0 hm ht0.le ht⟩
  · intro db₁ db₂ db₁' db₂' marketId side p₁ p₂ id₁ id₂ s₁ s₂ hp₁ hp₂ ht₁0 ht₁ ht₂0 ht₂ hc₁ hser₁ hs₁
      hc₂ hser₂ hs₂
    obtain ⟨-, hser₁', rfl⟩ := ComposeOrderId_eq_some hc₁
    obtain ⟨-, hser₂', rfl⟩ := ComposeOrderId_eq_some hc₂
    rw [hser₁, Option.some.injEq, SerialNo.mk.injEq] at hser₁'
    rw [hser₂, Option.some.injEq, SerialNo.mk.injEq] at hser₂'
    rw [← hser₁'.2, ← hser₂'.2]
    rw [compare_orderIdBytes marketId side hp₁ hp₂ ⟨ht₁0, ht₁⟩ ⟨ht₂0, ht₂⟩ hs₁ hs₂,
      Ordering.then_eq_lt, Ordering.then_eq_lt, Nat.compare_eq_lt, Nat.compare_eq_eq,
      Nat.compare_eq_lt, decimalOf_eq_iff hp₁ hp₂]
    have hkey : (db₁.dexTimestamp.toNat < db₂.dexTimestamp.toNat ∨
        db₁.dexTimestamp.toNat = db₂.dexTimestamp.toNat ∧ s₁ < s₂) ↔
        (db₁.dexTimestamp < db₂.dexTimestamp ∨ db₁.dexTimestamp = db₂.dexTimestamp ∧ s₁ < s₂) := by
      omega
    rw [hkey]
    cases side
    · simp only [Bool.false_eq_true, if_false, Nat.compare_eq_lt, Nat.compare_eq_eq,
        decimalOf_lt_iff hp₂ hp₁]
      rw [@eq_comm _ (priceUnits (PriceToBytes p₂))]
    · simp only [if_true, Nat.compare_eq_lt, Nat.compare_eq_eq, decimalOf_lt_iff hp₁ hp₂]

/-- With the DEX timestamp unset `ComposeOrderId` panics: no id has timestamp `0`. -/
theorem ComposeOrderId_unset_timestamp : ComposeOrderId ⟨0, none⟩ 1 true "1".toList = none := rfl

/-- Two buys in market 1 at DEX timestamp 1, at prices 0.5 and then 0.4: the first id reads back,
the one at the higher price sorts first, and the two ids differ. -/
theorem orderId_priority_of_two_buys :
    (∃ id db', ComposeOrderId ⟨1, none⟩ 1 false "0.5".toList = some (id, db') ∧
      DeComposeOrderId id = some (1, false, PriceToBytes "0.5".toList, 1)) ∧
    ComposeOrderId ⟨1, none⟩ 1 false "0.5".toList =
      some (orderIdBytes 1 false "0.5".toList 1 0, ⟨1, some ⟨1, 0⟩⟩) ∧
    ComposeOrderId ⟨1, some ⟨1, 0⟩⟩ 1 false "0.4".toList =
      some (orderIdBytes 1 false "0.4".toList 1 1, ⟨1, some ⟨1, 1⟩⟩) ∧
    compare (orderIdBytes 1 false "0.5".toList 1 0) (orderIdBytes 1 false "0.4".toList 1 1) = .lt ∧
    [orderIdBytes 1 false "0.5".toList 1 0, orderIdBytes 1 false "0.4".toList 1 1].Nodup := by
  have hc₁ : ComposeOrderId ⟨1, none⟩ 1 false "0.5".toList =
      some (orderIdBytes 1 false "0.5".toList 1 0, ⟨1, some ⟨1, 0⟩⟩) := rfl
  have hc₂ : ComposeOrderId ⟨1, some ⟨1, 0⟩⟩ 1 false "0.4".toList =
      some (orderIdBytes 1 false "0.4".toList 1 1, ⟨1, some ⟨1, 1⟩⟩) := rfl
  obtain ⟨hround, hprio, hnodup⟩ := orderId_encodes_priority
  refine ⟨hround ⟨1, none⟩ 1 false "0.5".toList (by norm_num) (by norm_num) (by norm_num)
    (by norm_num), hc₁, hc₂, ?_, ?_⟩
  · -- the buy at the higher price comes first
    refine (hprio _ _ _ _ 1 false _ _ _ _ 0 1 (by decide +kernel) (by decide +kernel) (by norm_num) (by norm_num)
      (by norm_num) (by norm_num) hc₁ rfl (by norm_num) hc₂ rfl (by norm_num)).mpr (.inl ?_)
    decide +kernel
  · have hrun : ComposeRun ⟨1, none⟩ [(orderIdBytes 1 false "0.5".toList 1 0, 1, 0),
        (orderIdBytes 1 false "0.4".toList 1 1, 1, 1)] :=
      .compose hc₁ rfl (.compose hc₂ rfl (.nil _))
    simpa using hnodup _ _ (fun r h => by simp at h) hrun (by decide)

end Vite.Dex
