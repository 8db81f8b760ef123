import Vite.Lib.AssocList
import Vite.Lib.GoList
import Vite.Lib.ExceptRun

/-!
# The chain cache's quota window

`quotaList` (ledger/chain/cache/quota_list.go) keeps one map of per-address quota totals for
each of the latest snapshot blocks, and a last map, `backElement`, for the account blocks not
yet confirmed by a snapshot. The last `usedAccumulateHeight` maps form the window from
`usedStart` to the back; `globalUsed` is kept, step by step, as the sum of the window's maps.
Go maps are references, so the maps live in a table by handle: `backElement` and the back
element's `Value` are the same map, and `Add` changes both.

The chain the list is rebuilt from is a parameter (`Chain`): its latest snapshot height and the
chunks of blocks it returns. Quota totals are Go's `uint64`s, which wrap on overflow and below
zero alike.
-/

namespace Vite.ChainCache

open GoList

abbrev Address := List UInt8

/-- `types.QuotaInfo`. -/
@[ext] structure QuotaInfo where
  BlockCount : UInt64
  QuotaTotal : UInt64
  QuotaUsedTotal : UInt64
  deriving DecidableEq, Repr

namespace QuotaInfo

instance : Zero QuotaInfo := ⟨⟨0, 0, 0⟩⟩

/-- Field-wise uint64 addition, wrapping. -/
instance : Add QuotaInfo :=
  ⟨fun a b => ⟨a.BlockCount + b.BlockCount, a.QuotaTotal + b.QuotaTotal,
    a.QuotaUsedTotal + b.QuotaUsedTotal⟩⟩

/-- Field-wise uint64 subtraction, wrapping below zero. -/
instance : Sub QuotaInfo :=
  ⟨fun a b => ⟨a.BlockCount - b.BlockCount, a.QuotaTotal - b.QuotaTotal,
    a.QuotaUsedTotal - b.QuotaUsedTotal⟩⟩

@[simp] theorem zero_BlockCount : (0 : QuotaInfo).BlockCount = 0 := rfl
@[simp] theorem zero_QuotaTotal : (0 : QuotaInfo).QuotaTotal = 0 := rfl
@[simp] theorem zero_QuotaUsedTotal : (0 : QuotaInfo).QuotaUsedTotal = 0 := rfl

@[simp] theorem add_BlockCount (a b : QuotaInfo) : (a + b).BlockCount = a.BlockCount + b.BlockCount :=
  rfl
@[simp] theorem add_QuotaTotal (a b : QuotaInfo) : (a + b).QuotaTotal = a.QuotaTotal + b.QuotaTotal :=
  rfl
@[simp] theorem add_QuotaUsedTotal (a b : QuotaInfo) :
    (a + b).QuotaUsedTotal = a.QuotaUsedTotal + b.QuotaUsedTotal := rfl

@[simp] theorem sub_BlockCount (a b : QuotaInfo) : (a - b).BlockCount = a.BlockCount - b.BlockCount :=
  rfl
@[simp] theorem sub_QuotaTotal (a b : QuotaInfo) : (a - b).QuotaTotal = a.QuotaTotal - b.QuotaTotal :=
  rfl
@[simp] theorem sub_QuotaUsedTotal (a b : QuotaInfo) :
    (a - b).QuotaUsedTotal = a.QuotaUsedTotal - b.QuotaUsedTotal := rfl

instance : AddCommMonoid QuotaInfo where
  add_assoc a b c := by ext <;> simp [UInt64.add_assoc]
  zero_add a := by ext <;> simp
  add_zero a := by ext <;> simp
  add_comm a b := by ext <;> simp [UInt64.add_comm]
  nsmul := nsmulRec

end QuotaInfo

/-- The fields of a `ledger.AccountBlock` the window reads. -/
structure AccountBlock where
  AccountAddress : Address
  Quota : UInt64
  QuotaUsed : UInt64
  deriving DecidableEq, Repr

/-- `ledger.SnapshotChunk`: the account blocks a snapshot block confirms. -/
structure SnapshotChunk where
  AccountBlocks : List AccountBlock
  deriving DecidableEq, Repr

/-- `map[types.Address]*quotaInfo`. -/
abbrev QuotaMap := List (Address × QuotaInfo)

/-- The chain the window is built from: its latest snapshot height and its chunks, each answer
an error, a nil slice or a slice. -/
structure Chain where
  QueryLatestSnapshotBlock : Except String ℕ
  GetSubLedgerAfterHeight : ℕ → Except String (Option (List SnapshotChunk))
  GetSubLedger : ℕ → ℕ → Except String (Option (List SnapshotChunk))

inductive BuildError
  | chain (err : String)
  /-- `ql.chain.GetSubLedgerAfterHeight, snapshotSegments is nil, startSbHeight is %d` -/
  | nilSubLedgerAfterHeight (startSbHeight : ℕ)
  /-- `ql.chain.GetSubLedger, snapshotSegments is nil, startSbHeight is %d, endSbHeight is %d` -/
  | nilSubLedger (startSbHeight endSbHeight : ℕ)
  /-- `snapshotSegments[1:]` of an empty slice panics. -/
  | panicked
  deriving DecidableEq, Repr

def uninitialized : ℕ := 0

def initialized : ℕ := 1

structure quotaList where
  /-- the maps, by handle -/
  maps : List QuotaMap
  backElement : ℕ
  globalUsed : QuotaInfo
  usedStart : Option ℕ
  usedAccumulateHeight : ℕ
  /-- the list of map handles -/
  list : LinkedList ℕ
  listMaxLength : ℕ
  status : ℕ
  deriving DecidableEq, Repr

/-! ## Maps -/

/-- `add`: one more block of `addr`, created at zero if absent. -/
def add (quotaInfoMap : QuotaMap) (addr : Address) (quota quotaUsed : UInt64) : QuotaMap :=
  AssocList.modify addr (· + ⟨1, quota, quotaUsed⟩) 0 quotaInfoMap

/-- `sub`: the entry of `addr` loses `blockCount` blocks, and goes once it has no more. -/
def sub (quotaInfoMap : QuotaMap) (addr : Address) (blockCount quota quotaUsed : UInt64) : QuotaMap :=
  match AssocList.find? addr quotaInfoMap with
  | none => quotaInfoMap
  | some qi =>
    if qi.BlockCount ≤ blockCount then AssocList.erase addr quotaInfoMap
    else AssocList.insert addr (qi - ⟨blockCount, quota, quotaUsed⟩) quotaInfoMap

/-- `aggregate`: the field-wise sum over a map. -/
def aggregate (quotaMap : QuotaMap) : QuotaInfo := AssocList.total (fun _ qi => qi) quotaMap

/-- The map of a list of blocks, one `add` each (the item `build` makes of a chunk, and the maps
`ResetUnconfirmedQuotas` and `NewNext` make of their blocks). -/
def blocksQuota (blocks : List AccountBlock) : QuotaMap :=
  blocks.foldl (fun m b => add m b.AccountAddress b.Quota b.QuotaUsed) []

def newQuotaList : quotaList :=
  { maps := [[]], backElement := 0, globalUsed := 0, usedStart := none,
    usedAccumulateHeight := 75, list := New, listMaxLength := 600, status := uninitialized }

namespace quotaList

/-- The map of handle `h`. -/
def map (ql : quotaList) (h : ℕ) : QuotaMap := ql.maps.getD h []

/-- `make(map[types.Address]*quotaInfo)` filled with `m`, with its handle. -/
def makeMap (ql : quotaList) (m : QuotaMap) : quotaList × ℕ :=
  ({ ql with maps := ql.maps ++ [m] }, ql.maps.length)

def setMap (ql : quotaList) (h : ℕ) (m : QuotaMap) : quotaList :=
  { ql with maps := ql.maps.set h m }

/-- The map an element holds. -/
def elemMap (ql : quotaList) (e : ℕ) : QuotaMap :=
  match ql.list.Value e with
  | some h => ql.map h
  | none => []

/-- The elements from `usedStart` on, as a loop over `Next` visits them. -/
def usedElements (ql : quotaList) : List ℕ := ql.list.walk (ql.list.elems.length + 1) ql.usedStart

/-! ## The operations -/

def calculateGlobalUsed (ql : quotaList) : quotaList :=
  { ql with globalUsed := (ql.usedElements.map fun e => aggregate (ql.elemMap e)).sum }

/-- Up to `n` steps to `Prev`, stopping at the front. -/
def stepBack (l : LinkedList ℕ) : ℕ → ℕ → ℕ
  | 0, e => e
  | n + 1, e =>
    match l.Prev e with
    | none => e
    | some p => stepBack l n p

/-- `resetUsedStart`: the back, then up to `usedAccumulateHeight - 1` steps to the front. -/
def resetUsedStart (ql : quotaList) : quotaList :=
  { ql with usedStart := ql.list.Back.map (stepBack ql.list (ql.usedAccumulateHeight - 1)) }

/-- `Remove(Front())`. -/
def removeFront (l : LinkedList ℕ) : LinkedList ℕ :=
  match l.Front with
  | some front => l.Remove front
  | none => l

/-- `moveNext`: push the new back map; once the list is longer than the window, the window's
first map leaves `globalUsed`, and past `listMaxLength` the front element goes. -/
def moveNext (ql : quotaList) (backElement : ℕ) : quotaList :=
  let (list, e) := ql.list.PushBack backElement
  -- a nil `usedStart` starts at the new back
  let start := ql.usedStart.getD e
  let ql := { ql with list, backElement, usedStart := some start }
  if ql.list.Len ≤ ql.usedAccumulateHeight then ql
  else
    let globalUsed := ql.globalUsed - aggregate (ql.elemMap start)
    let ql := { ql with globalUsed, usedStart := ql.list.Next start }
    if ql.listMaxLength < ql.list.Len then { ql with list := removeFront ql.list } else ql

/-- `PushBack` of a new map. -/
def pushBackMap (ql : quotaList) (m : QuotaMap) : quotaList :=
  let (ql, h) := ql.makeMap m
  { ql with list := (ql.list.PushBack h).1 }

def pushFrontMap (ql : quotaList) (m : QuotaMap) : quotaList :=
  let (ql, h) := ql.makeMap m
  { ql with list := (ql.list.PushFront h).1 }

/-- The deferred end of `build`, run on success: a nonempty list is taken as the window from its
back. -/
def buildDone (ql : quotaList) : quotaList :=
  match ql.list.Back with
  | none => ql
  | some back =>
    let ql := { ql with backElement := (ql.list.Value back).getD ql.backElement }
    calculateGlobalUsed (resetUsedStart ql)

/-- `build`: a list shorter than the window is completed from the chain, at the back from the
chunks after `startSbHeight` when it is empty, at the front from the older chunks otherwise.
The first chunk of each answer is skipped. -/
def build (ql : quotaList) (chain : Chain) : Except BuildError quotaList := do
  let listLength := ql.list.Len
  if ql.usedAccumulateHeight ≤ listLength then return buildDone ql
  let latestSbHeight ← chain.QueryLatestSnapshotBlock.mapError .chain
  if latestSbHeight ≤ listLength then return buildDone ql
  let endSbHeight := latestSbHeight + 1 - listLength
  let lackListLen := ql.listMaxLength - listLength
  let startSbHeight := if lackListLen < endSbHeight then endSbHeight - lackListLen else 1
  if listLength ≤ 0 then
    let snapshotSegments ← (chain.GetSubLedgerAfterHeight startSbHeight).mapError .chain
    match snapshotSegments with
    | none => throw (.nilSubLedgerAfterHeight startSbHeight)
    | some [] => throw .panicked
    | some (_ :: segs) =>
      return buildDone (segs.foldl (fun ql seg => pushBackMap ql (blocksQuota seg.AccountBlocks)) ql)
  else
    let snapshotSegments ← (chain.GetSubLedger startSbHeight endSbHeight).mapError .chain
    match snapshotSegments with
    | none => throw (.nilSubLedger startSbHeight endSbHeight)
    | some segs =>
      -- from the last chunk down to the second, each pushed to the front
      return buildDone ((segs.drop 1).reverse.foldl
        (fun ql seg => pushFrontMap ql (blocksQuota seg.AccountBlocks)) ql)

def init (ql : quotaList) (chain : Chain) : Except BuildError quotaList := do
  let ql ← build ql chain
  let (ql, h) := ql.makeMap []
  return { moveNext ql h with status := initialized }

def Add (ql : quotaList) (addr : Address) (quota quotaUsed : UInt64) : quotaList :=
  { ql.setMap ql.backElement (add (ql.map ql.backElement) addr quota quotaUsed) with
    globalUsed := ql.globalUsed + ⟨1, quota, quotaUsed⟩ }

def Sub (ql : quotaList) (addr : Address) (quota quotaUsed : UInt64) : quotaList :=
  { ql.setMap ql.backElement (sub (ql.map ql.backElement) addr 1 quota quotaUsed) with
    globalUsed := ql.globalUsed - ⟨1, quota, quotaUsed⟩ }

/-- `ResetUnconfirmedQuotas`: the back map is replaced by the map of the blocks now unconfirmed,
and `globalUsed` moves by the difference. -/
def ResetUnconfirmedQuotas (ql : quotaList) (unconfirmedBlocks : List AccountBlock) : quotaList :=
  if ql.status < initialized then ql
  else
    let backElement := blocksQuota unconfirmedBlocks
    let globalUsed := ql.globalUsed - aggregate (ql.map ql.backElement) + aggregate backElement
    let list := match ql.list.Back with
      | some back => ql.list.Remove back
      | none => ql.list
    let (ql, h) := { ql with globalUsed, list }.makeMap backElement
    { ql with backElement := h, list := (ql.list.PushBack h).1 }

/-- One confirmed block in `NewNext`: it joins the snapshot's map and leaves the back map, and
`none` where the back map has no entry for it (the nil `backQi` is dereferenced). -/
def confirmBlock (maps : QuotaMap × QuotaMap) (b : AccountBlock) : Option (QuotaMap × QuotaMap) :=
  let (currentSnapshotQuota, backElement) := maps
  let currentSnapshotQuota := add currentSnapshotQuota b.AccountAddress b.Quota b.QuotaUsed
  match AssocList.find? b.AccountAddress backElement with
  | none => none
  | some backQi =>
    if backQi.BlockCount ≤ 1 then
      some (currentSnapshotQuota, AssocList.erase b.AccountAddress backElement)
    else
      some (currentSnapshotQuota, AssocList.insert b.AccountAddress
        (backQi - ⟨1, b.Quota, b.QuotaUsed⟩) backElement)

/-- `NewNext`: the back element now holds the snapshot's confirmed blocks, and the rest of the
back map becomes a new back element. `none` is a panic. -/
def NewNext (ql : quotaList) (confirmedBlocks : List AccountBlock) : Option quotaList :=
  if ql.status < initialized then some ql
  else do
    let (currentSnapshotQuota, backElement) ←
      confirmedBlocks.foldlM confirmBlock ([], ql.map ql.backElement)
    let ql := ql.setMap ql.backElement backElement
    let back ← ql.list.Back
    let (ql, h) := ql.makeMap currentSnapshotQuota
    let ql := { ql with list := ql.list.SetValue back h }
    return moveNext ql ql.backElement

/-- `n` times `Remove(Back())`, while the list has elements. -/
def removeBack (l : LinkedList ℕ) : ℕ → LinkedList ℕ
  | 0 => l
  | n + 1 =>
    match l.Back with
    | none => l
    | some back => removeBack (l.Remove back) n

/-- The list a rollback rebuilds from: an empty back map goes, then one element per deleted chunk
from the back, or all of them from `listMaxLength` chunks on. -/
def rollbackList (ql : quotaList) (backElem n : ℕ) : LinkedList ℕ :=
  let list := if (ql.elemMap backElem).length ≤ 0 then ql.list.Remove backElem else ql.list
  if ql.listMaxLength ≤ n then list.Init else removeBack list n

/-- `Rollback`: the list is cut back by the deleted chunks and rebuilt from the chain, with a new
empty back map. -/
def Rollback (ql : quotaList) (deletedChunks : List SnapshotChunk) (chain : Chain) :
    Except BuildError quotaList :=
  match ql.list.Back with
  | none => return ql
  | some backElem => do
    let ql ← build { ql with list := ql.rollbackList backElem deletedChunks.length } chain
    let (ql, h) := ql.makeMap []
    return moveNext ql h

/-! ## Queries -/

/-- `GetGlobalQuota`: the window's totals without the unconfirmed blocks. -/
def GetGlobalQuota (ql : quotaList) : QuotaInfo := ql.globalUsed - aggregate (ql.map ql.backElement)

def GetQuotaUsedList (ql : quotaList) (addr : Address) : List QuotaInfo :=
  ql.usedElements.map fun e => (AssocList.find? addr (ql.elemMap e)).getD 0

/-! ## A rollback to genesis -/

section Rebuild

variable {ql : quotaList}

theorem buildDone_list (ql : quotaList) : (buildDone ql).list = ql.list := by
  unfold buildDone
  split <;> rfl

theorem buildDone_of_Len_zero (h : ql.list.Len = 0) : buildDone ql = ql := by
  unfold buildDone
  rw [LinkedList.Back_eq_none.mpr h]

/-- What a push of a new map leaves alone. -/
structure Keeps (ql ql' : quotaList) : Prop where
  usedStart : ql'.usedStart = ql.usedStart
  globalUsed : ql'.globalUsed = ql.globalUsed
  usedAccumulateHeight : ql'.usedAccumulateHeight = ql.usedAccumulateHeight
  elems : ql.list.elems.length ≤ ql'.list.elems.length

theorem Keeps.refl (ql : quotaList) : Keeps ql ql := ⟨rfl, rfl, rfl, le_refl _⟩

theorem Keeps.trans {ql₁ ql₂ ql₃ : quotaList} (h₁ : Keeps ql₁ ql₂) (h₂ : Keeps ql₂ ql₃) :
    Keeps ql₁ ql₃ :=
  ⟨h₂.usedStart.trans h₁.usedStart, h₂.globalUsed.trans h₁.globalUsed,
    h₂.usedAccumulateHeight.trans h₁.usedAccumulateHeight, h₁.elems.trans h₂.elems⟩

theorem keeps_pushBackMap (ql : quotaList) (m : QuotaMap) : Keeps ql (pushBackMap ql m) :=
  ⟨rfl, rfl, rfl, by simp [pushBackMap, makeMap]⟩

theorem keeps_pushFrontMap (ql : quotaList) (m : QuotaMap) : Keeps ql (pushFrontMap ql m) :=
  ⟨rfl, rfl, rfl, by simp [pushFrontMap, makeMap]⟩

theorem keeps_foldl {f : quotaList → SnapshotChunk → quotaList} (hf : ∀ ql seg, Keeps ql (f ql seg))
    (segs : List SnapshotChunk) (ql : quotaList) : Keeps ql (segs.foldl f ql) := by
  induction segs generalizing ql with
  | nil => exact Keeps.refl ql
  | cons seg segs ih => exact (hf ql seg).trans (ih (f ql seg))

theorem buildDone_usedAccumulateHeight (ql : quotaList) :
    (buildDone ql).usedAccumulateHeight = ql.usedAccumulateHeight := by
  unfold buildDone
  split <;> rfl

/-- A successful build is the deferred reset applied to the list completed by pushes. -/
theorem build_eq_buildDone {chain : Chain} {qb : quotaList} (h : ql.build chain = .ok qb) :
    ∃ X, Keeps ql X ∧ buildDone X = qb := by
  unfold build at h
  dsimp only at h
  by_cases hfull : ql.usedAccumulateHeight ≤ ql.list.Len
  · rw [if_pos hfull] at h
    exact ⟨ql, Keeps.refl ql, Except.ok.inj h⟩
  rw [if_neg hfull] at h
  obtain ⟨latest, -, h⟩ := Except.bind_eq_ok.mp h
  by_cases hlatest : latest ≤ ql.list.Len
  · rw [if_pos hlatest] at h
    exact ⟨ql, Keeps.refl ql, Except.ok.inj h⟩
  rw [if_neg hlatest] at h
  by_cases hempty : ql.list.Len ≤ 0
  · rw [if_pos hempty] at h
    obtain ⟨segs, -, h⟩ := Except.bind_eq_ok.mp h
    rcases segs with _ | _ | ⟨seg, segs⟩
    · cases h
    · cases h
    · exact ⟨_, keeps_foldl (fun ql seg => keeps_pushBackMap ql _) _ ql, Except.ok.inj h⟩
  · rw [if_neg hempty] at h
    obtain ⟨segs, -, h⟩ := Except.bind_eq_ok.mp h
    rcases segs with _ | segs
    · cases h
    · exact ⟨_, keeps_foldl (fun ql seg => keeps_pushFrontMap ql _) _ ql, Except.ok.inj h⟩

theorem build_usedAccumulateHeight {chain : Chain} {qb : quotaList} (h : ql.build chain = .ok qb) :
    qb.usedAccumulateHeight = ql.usedAccumulateHeight := by
  obtain ⟨X, hX, rfl⟩ := build_eq_buildDone h
  rw [buildDone_usedAccumulateHeight, hX.usedAccumulateHeight]

/-- A build that leaves the list empty changes neither `usedStart` nor `globalUsed`: the deferred
reset runs only on a nonempty list. -/
theorem build_of_empty {chain : Chain} {qb : quotaList} (h : ql.build chain = .ok qb)
    (hlen : qb.list.Len = 0) : Keeps ql qb := by
  obtain ⟨X, hX, rfl⟩ := build_eq_buildDone h
  rw [buildDone_list] at hlen
  rw [buildDone_of_Len_zero hlen]
  exact hX

/-- A push that leaves the list within the window only joins the window. -/
theorem moveNext_of_le (ql : quotaList) (h : ℕ) (hle : ql.list.Len + 1 ≤ ql.usedAccumulateHeight) :
    moveNext ql h =
      { ql with
        list := (ql.list.PushBack h).1, backElement := h,
        usedStart := some (ql.usedStart.getD ql.list.elems.length) } := by
  unfold moveNext
  dsimp only
  rw [if_pos (by rw [LinkedList.Len_PushBack]; exact hle)]
  rfl

theorem Len_removeFront {l : LinkedList ℕ} (h : l.Len ≠ 0) : (removeFront l).Len = l.Len - 1 := by
  obtain ⟨front, rest, hl⟩ := List.exists_cons_of_ne_nil (by simpa [LinkedList.Len] using h)
  simp [removeFront, LinkedList.Front, LinkedList.Remove, LinkedList.Len, hl]

theorem Len_moveNext (ql : quotaList) (h : ℕ) :
    (moveNext ql h).list.Len = ql.list.Len + 1 ∨
      (moveNext ql h).list.Len = ql.list.Len ∧ ql.usedAccumulateHeight < ql.list.Len + 1 := by
  have hpush := LinkedList.Len_PushBack ql.list h
  unfold moveNext
  dsimp only
  split_ifs with hle hmax
  · exact Or.inl hpush
  · right
    refine ⟨?_, by omega⟩
    rw [Len_removeFront (by omega), hpush]
    rfl
  · exact Or.inl hpush

theorem length_elems_removeBack (l : LinkedList ℕ) (n : ℕ) :
    (removeBack l n).elems.length = l.elems.length := by
  induction n generalizing l with
  | zero => rfl
  | succ n ih =>
    unfold removeBack
    split
    · rfl
    · rw [ih]
      simp

theorem rollbackList_elems (ql : quotaList) (backElem n : ℕ) :
    (ql.rollbackList backElem n).elems.length = ql.list.elems.length := by
  unfold rollbackList
  dsimp only
  split_ifs <;> simp [length_elems_removeBack]

/-- A chain of three snapshot blocks, the second confirming one block of address `[7]`. -/
def threeBlockChain : Chain :=
  { QueryLatestSnapshotBlock := .ok 3,
    GetSubLedgerAfterHeight := fun _ => .ok (some [⟨[]⟩, ⟨[⟨[7], 10, 5⟩]⟩, ⟨[]⟩]),
    GetSubLedger := fun _ _ => .error "not read" }

/-- The same chain rolled back to its genesis snapshot block. -/
def genesisChain : Chain :=
  { QueryLatestSnapshotBlock := .ok 1,
    GetSubLedgerAfterHeight := fun _ => .ok (some [⟨[]⟩]),
    GetSubLedger := fun _ _ => .error "not read" }

/-- A rollback whose rebuild finds no chunk leaves `usedStart` on an element it removed and keeps
`globalUsed`: the window is the removed element alone, and the rolled-back blocks stay counted. -/
theorem Rollback_keeps_stale_window {deletedChunks : List SnapshotChunk} {chain : Chain}
    {ql' : quotaList} (hheight : 2 ≤ ql.usedAccumulateHeight)
    (h : ql.Rollback deletedChunks chain = .ok ql') (hlen : ql'.list.Len = 1) {s : ℕ}
    (hs : ql.usedStart = some s) (hvalid : s < ql.list.elems.length) :
    ql'.usedStart = some s ∧ s ∉ ql'.list.order ∧ ql'.globalUsed = ql.globalUsed := by
  unfold Rollback at h
  split at h
  · rename_i hback
    have hql : ql = ql' := Except.ok.inj h
    have := LinkedList.Back_eq_none.mp hback
    rw [hql] at this
    omega
  · rename_i backElem _
    obtain ⟨qb, hb, h⟩ := Except.bind_eq_ok.mp h
    have hql' : moveNext (qb.makeMap []).1 (qb.makeMap []).2 = ql' := Except.ok.inj h
    -- the rebuild found nothing: a nonempty one would leave at least two elements
    have hqb : qb.list.Len = 0 := by
      have hkeep : qb.usedAccumulateHeight = ql.usedAccumulateHeight := by
        rw [build_usedAccumulateHeight hb]
      rcases Len_moveNext (qb.makeMap []).1 (qb.makeMap []).2 with hn | ⟨hn, hlt⟩
      · rw [hql', hlen] at hn
        simp only [makeMap] at hn
        omega
      · rw [hql', hlen] at hn
        simp only [makeMap] at hn hlt
        omega
    have hkeep := build_of_empty hb hqb
    have hheight' : qb.usedAccumulateHeight = ql.usedAccumulateHeight := hkeep.usedAccumulateHeight
    have hle : (qb.makeMap []).1.list.Len + 1 ≤ (qb.makeMap []).1.usedAccumulateHeight := by
      simp only [makeMap, hqb, hheight']
      omega
    rw [← hql', moveNext_of_le _ _ hle]
    have hs' : qb.usedStart = some s := hkeep.usedStart.trans hs
    have hlt : s < qb.list.elems.length := by
      have := hkeep.elems
      simp only [rollbackList_elems] at this
      omega
    have horder : qb.list.order = [] := List.length_eq_zero_iff.mp hqb
    refine ⟨by simp [makeMap, hs'], ?_, hkeep.globalUsed⟩
    simp [makeMap, horder]
    omega

/-- The rollback of `threeBlockChain` to its genesis block: the rebuild finds no chunk. -/
theorem Rollback_keeps_stale_window_at_genesis :
    ∃ s₁ s₂, newQuotaList.init threeBlockChain = .ok s₁ ∧
      s₁.Rollback [⟨[⟨[7], 10, 5⟩]⟩, ⟨[]⟩] genesisChain = .ok s₂ ∧ 2 ≤ s₁.usedAccumulateHeight ∧
      s₂.list.Len = 1 ∧ s₁.usedStart = some 0 ∧ 0 < s₁.list.elems.length ∧
      s₂.usedStart = some 0 ∧ 0 ∉ s₂.list.order ∧ s₂.globalUsed = s₁.globalUsed := by
  refine ⟨_, _, rfl, rfl, by decide, by decide, by decide, by decide, ?_⟩
  refine @Rollback_keeps_stale_window _ [⟨[⟨[7], 10, 5⟩]⟩, ⟨[]⟩] genesisChain _ ?_ ?_ ?_ 0 ?_ ?_
  · decide
  · exact rfl
  · decide
  · decide
  · decide

end Rebuild

theorem rollback_to_genesis_keeps_used_quota :
    ∃ s₁ s₂, newQuotaList.init threeBlockChain = .ok s₁ ∧
      s₁.Rollback [⟨[⟨[7], 10, 5⟩]⟩, ⟨[]⟩] genesisChain = .ok s₂ ∧
      s₁.GetQuotaUsedList [7] = [⟨1, 10, 5⟩, 0, 0] ∧
      s₂.GetGlobalQuota = ⟨1, 10, 5⟩ ∧ s₂.GetQuotaUsedList [7] = [⟨1, 10, 5⟩] ∧
      (∀ e, s₂.usedStart = some e → e ∉ s₂.list.order) ∧
      ((s₂.NewNext []).map fun s₃ => (s₃.usedElements.length, s₃.list.Len)) = some (1, 2) := by
  refine ⟨_, _, rfl, rfl, by decide, by decide, by decide, by decide, by decide⟩

end quotaList

end Vite.ChainCache
