import Mathlib.Order.Interval.Finset.Nat
import Vite.Lib.AssocList

/-!
# One branch of the block pool's fork tree (ledger/pool/tree/branch_base.go)

The pool keeps the blocks it has not written to disk yet in a tree of branches. A `branchBase`
holds a run of blocks, `Knot`s, by height, between a tail it hangs from and its head: the knots at
heights `tailHeight + 1 .. headHeight`. Four operations move the ends: `addHead` and `removeHead`
at the top, `removeTail` and `addTail` at the bottom. Each checks one hash against its end and
panics otherwise (`none` here); none checks a height.

A block's hash fixes the block, and its height is one more than the height of the block before
it (`KnotSpace`). Over such knots the run is a chain (`WF`): the stored heights are exactly the
run, each knot sits at its own height, names the hash below it as its `PrevHash`, and the head
hash is the top one. The hash checks are enough to keep it so: `addHead`, `addTail` and
`removeHead` keep it for any knot their check lets through (`WF.addHead`, `WF.addTail`,
`WF.removeHead`), and `removeTail` for the knot that is stored above the tail (`WF.removeTail`),
which a sibling of that knot, with the same `PrevHash`, is not. On a chain the store holds exactly
`size` knots (`WF.storeSize_eq_size`).
-/

namespace Vite.Pool

/-- `tree.Knot`: what the tree reads of a block. -/
structure Knot (H : Type) where
  Height : ℕ
  Hash : H
  PrevHash : H
  deriving DecidableEq, Repr

/-- The blocks the pool can be handed: a hash names one block, at the height `heightOf` gives, one
above the height of its `PrevHash`. -/
structure KnotSpace (H : Type) where
  mem : Knot H → Prop
  heightOf : H → ℕ
  height_hash : ∀ k, mem k → heightOf k.Hash = k.Height
  height_prev : ∀ k, mem k → k.Height = heightOf k.PrevHash + 1
  hash_inj : ∀ k k', mem k → mem k' → k.Hash = k'.Hash → k = k'

/-- `branchBase`: the knots by height, and the two ends. The id is the branch's key in the tree. -/
structure branchBase (H : Type) where
  heightBlocks : List (ℕ × Knot H)
  headHeight : ℕ
  headHash : H
  tailHeight : ℕ
  tailHash : H

variable {H : Type}

def newBranchBase (tailHeight : ℕ) (tailHash : H) (headHeight : ℕ) (headHash : H) : branchBase H :=
  ⟨[], headHeight, headHash, tailHeight, tailHash⟩

namespace branchBase

/-- `size`: `headHeight - tailHeight` in uint64, which does not wrap while the tail is below the head. -/
def size (b : branchBase H) : ℕ := b.headHeight - b.tailHeight

def storeSize (b : branchBase H) : ℕ := b.heightBlocks.length

def getHeightBlock (b : branchBase H) (height : ℕ) : Option (Knot H) := AssocList.find? height b.heightBlocks

/-- `updateHeightBlock`: a knot is stored, `nil` deletes. -/
def updateHeightBlock (b : branchBase H) (height : ℕ) : Option (Knot H) → branchBase H
  | some k => { b with heightBlocks := AssocList.insert height k b.heightBlocks }
  | none => { b with heightBlocks := AssocList.erase height b.heightBlocks }

/-- The hash a run has at a height: the tail's at the tail, a stored knot's above it. -/
def hashAt (b : branchBase H) (h : ℕ) : Option H :=
  if h = b.tailHeight then some b.tailHash else (b.getHeightBlock h).map Knot.Hash

section Moves

variable [DecidableEq H]

def MatchHead (b : branchBase H) (hash : H) : Bool := b.headHash = hash

def addHead (b : branchBase H) (w : Knot H) : Option (branchBase H) :=
  if b.headHash ≠ w.PrevHash then none
  else some (({ b with headHash := w.Hash, headHeight := w.Height } : branchBase H).updateHeightBlock w.Height (some w))

def removeTail (b : branchBase H) (w : Knot H) : Option (branchBase H) :=
  if b.tailHash ≠ w.PrevHash then none
  else if w.Height > b.headHeight then none
  else some (({ b with tailHash := w.Hash, tailHeight := w.Height } : branchBase H).updateHeightBlock w.Height none)

def removeHead (b : branchBase H) (w : Knot H) : Option (branchBase H) :=
  if b.headHash ≠ w.Hash then none
  else if w.Height ≤ b.tailHeight then none
  else some (({ b with headHash := w.PrevHash, headHeight := w.Height - 1 } : branchBase H).updateHeightBlock
    w.Height none)

def addTail (b : branchBase H) (w : Knot H) : Option (branchBase H) :=
  if b.tailHash ≠ w.Hash then none
  else some (({ b with tailHash := w.PrevHash, tailHeight := w.Height - 1 } : branchBase H).updateHeightBlock
    w.Height (some w))

end Moves

/-! ## Reading an updated base -/

@[simp] theorem getHeightBlock_update (b : branchBase H) (height h : ℕ) (o : Option (Knot H)) :
    (b.updateHeightBlock height o).getHeightBlock h = if h = height then o else b.getHeightBlock h := by
  cases o with
  | some k =>
    by_cases hh : h = height
    · rw [if_pos hh, hh]
      exact AssocList.find?_insert_self _ _ _
    · rw [if_neg hh]
      exact AssocList.find?_insert_ne hh _ _
  | none =>
    by_cases hh : h = height
    · rw [if_pos hh, hh]
      exact AssocList.find?_erase_self _ _
    · rw [if_neg hh]
      exact AssocList.find?_erase_ne hh _

@[simp] theorem tailHeight_update (b : branchBase H) (height : ℕ) (o : Option (Knot H)) :
    (b.updateHeightBlock height o).tailHeight = b.tailHeight := by cases o <;> rfl

@[simp] theorem tailHash_update (b : branchBase H) (height : ℕ) (o : Option (Knot H)) :
    (b.updateHeightBlock height o).tailHash = b.tailHash := by cases o <;> rfl

@[simp] theorem headHeight_update (b : branchBase H) (height : ℕ) (o : Option (Knot H)) :
    (b.updateHeightBlock height o).headHeight = b.headHeight := by cases o <;> rfl

@[simp] theorem headHash_update (b : branchBase H) (height : ℕ) (o : Option (Knot H)) :
    (b.updateHeightBlock height o).headHash = b.headHash := by cases o <;> rfl

/-- Moving the ends leaves the store as it is. -/
@[simp] theorem getHeightBlock_ends (b : branchBase H) (headHeight tailHeight : ℕ) (headHash tailHash : H) (h : ℕ) :
    (⟨b.heightBlocks, headHeight, headHash, tailHeight, tailHash⟩ : branchBase H).getHeightBlock h =
      b.getHeightBlock h := rfl

theorem nodup_update (b : branchBase H) (height : ℕ) (o : Option (Knot H)) (hb : (b.heightBlocks.map Prod.fst).Nodup) :
    ((b.updateHeightBlock height o).heightBlocks.map Prod.fst).Nodup := by
  cases o with
  | some k => exact AssocList.nodup_modify hb
  | none => exact AssocList.nodup_erase height hb

/-! ## The chain invariant -/

/-- A run of knots between the tail and the head that is a chain of blocks. -/
structure WF (U : KnotSpace H) (b : branchBase H) : Prop where
  tail_le_head : b.tailHeight ≤ b.headHeight
  tail_height : U.heightOf b.tailHash = b.tailHeight
  stored_iff : ∀ h, (b.getHeightBlock h).isSome ↔ b.tailHeight < h ∧ h ≤ b.headHeight
  stored_mem : ∀ h k, b.getHeightBlock h = some k → U.mem k ∧ k.Height = h
  linked : ∀ h k, b.getHeightBlock h = some k → b.hashAt (h - 1) = some k.PrevHash
  head : b.hashAt b.headHeight = some b.headHash
  nodup : (b.heightBlocks.map Prod.fst).Nodup

variable {U : KnotSpace H} {b b' : branchBase H} {w : Knot H}

theorem WF.new {height : ℕ} {hash : H} (h : U.heightOf hash = height) :
    WF U (newBranchBase height hash height hash) where
  tail_le_head := le_rfl
  tail_height := h
  stored_iff h' := by simp [newBranchBase, getHeightBlock, AssocList.find?]
  stored_mem h' k hk := by simp [newBranchBase, getHeightBlock, AssocList.find?] at hk
  linked h' k hk := by simp [newBranchBase, getHeightBlock, AssocList.find?] at hk
  head := by simp [hashAt, newBranchBase]
  nodup := List.nodup_nil

theorem WF.stored_of_between (hb : WF U b) {h : ℕ} (h1 : b.tailHeight < h) (h2 : h ≤ b.headHeight) :
    ∃ k, b.getHeightBlock h = some k :=
  Option.isSome_iff_exists.mp ((hb.stored_iff h).mpr ⟨h1, h2⟩)

theorem WF.between_of_stored (hb : WF U b) {h : ℕ} {k : Knot H} (hk : b.getHeightBlock h = some k) :
    b.tailHeight < h ∧ h ≤ b.headHeight :=
  (hb.stored_iff h).mp (by rw [hk]; rfl)

theorem WF.hashAt_stored (hb : WF U b) {h : ℕ} {k : Knot H} (hk : b.getHeightBlock h = some k) :
    b.hashAt h = some k.Hash := by
  have := hb.between_of_stored hk
  simp [hashAt, hk, Nat.ne_of_gt this.1]

/-- The hash a chain has at a height stands at that height. -/
theorem WF.height_hashAt (hb : WF U b) {h : ℕ} {x : H} (hx : b.hashAt h = some x) : U.heightOf x = h := by
  unfold hashAt at hx
  split_ifs at hx with ht
  · rw [← Option.some.inj hx, hb.tail_height, ht]
  · obtain ⟨k, hk, rfl⟩ := Option.map_eq_some_iff.mp hx
    obtain ⟨hm, hkH⟩ := hb.stored_mem _ _ hk
    rw [U.height_hash k hm, hkH]

theorem WF.head_height (hb : WF U b) : U.heightOf b.headHash = b.headHeight := hb.height_hashAt hb.head

/-- The hash at a height of an updated store: the new knot's at its height, above the tail. -/
theorem hashAt_update (b : branchBase H) (y x : ℕ) (o : Option (Knot H)) :
    (b.updateHeightBlock y o).hashAt x = if x = y ∧ x ≠ b.tailHeight then o.map Knot.Hash else b.hashAt x := by
  unfold hashAt
  rw [getHeightBlock_update, tailHeight_update, tailHash_update]
  by_cases hx : x = y
  · subst hx
    by_cases ht : x = b.tailHeight <;> simp [ht]
  · simp [hx]

@[simp] theorem hashAt_ends (b : branchBase H) (headHeight tailHeight : ℕ) (headHash tailHash : H) (x : ℕ) :
    (⟨b.heightBlocks, headHeight, headHash, tailHeight, tailHash⟩ : branchBase H).hashAt x =
      if x = tailHeight then some tailHash else (b.getHeightBlock x).map Knot.Hash := rfl

theorem hashAt_of_ne_tail {x : ℕ} (hx : x ≠ b.tailHeight) : b.hashAt x = (b.getHeightBlock x).map Knot.Hash := by
  simp [hashAt, hx]

/-- On a chain the store holds one knot per height of the run (`CheckTreeSize`'s `size() == storeSize()`). -/
theorem WF.storeSize_eq_size (hb : WF U b) : b.storeSize = b.size := by
  have hkeys : (b.heightBlocks.map Prod.fst).toFinset = Finset.Ioc b.tailHeight b.headHeight := by
    ext x
    rw [List.mem_toFinset, Finset.mem_Ioc, ← hb.stored_iff x]
    constructor
    · intro hx
      obtain ⟨v, hv⟩ := AssocList.exists_find?_of_mem hx
      simp [getHeightBlock, hv]
    · intro hx
      obtain ⟨v, hv⟩ := Option.isSome_iff_exists.mp hx
      exact List.mem_map.mpr ⟨(x, v), AssocList.mem_of_find? hv, rfl⟩
  calc b.storeSize = (b.heightBlocks.map Prod.fst).length := (List.length_map _).symm
    _ = (b.heightBlocks.map Prod.fst).toFinset.card := (List.toFinset_card_of_nodup hb.nodup).symm
    _ = b.size := by rw [hkeys, Nat.card_Ioc]; rfl

/-! ## The four moves keep the chain -/

section Moves

variable [DecidableEq H]

theorem addHead_eq_some : b.addHead w = some b' ↔ b.headHash = w.PrevHash ∧
    b' = ({ b with headHash := w.Hash, headHeight := w.Height } : branchBase H).updateHeightBlock w.Height (some w) := by
  unfold branchBase.addHead
  by_cases hp : b.headHash = w.PrevHash <;> simp [hp, eq_comm]

theorem removeTail_eq_some : b.removeTail w = some b' ↔ b.tailHash = w.PrevHash ∧ w.Height ≤ b.headHeight ∧
    b' = ({ b with tailHash := w.Hash, tailHeight := w.Height } : branchBase H).updateHeightBlock w.Height none := by
  unfold branchBase.removeTail
  by_cases hp : b.tailHash = w.PrevHash <;> by_cases hle : w.Height ≤ b.headHeight <;> simp [hp, hle, eq_comm]

theorem removeHead_eq_some : b.removeHead w = some b' ↔ b.headHash = w.Hash ∧ b.tailHeight < w.Height ∧
    b' = ({ b with headHash := w.PrevHash, headHeight := w.Height - 1 } : branchBase H).updateHeightBlock w.Height none := by
  unfold branchBase.removeHead
  by_cases hp : b.headHash = w.Hash <;> by_cases hle : b.tailHeight < w.Height <;> simp [hp, hle, eq_comm]

theorem addTail_eq_some : b.addTail w = some b' ↔ b.tailHash = w.Hash ∧
    b' = ({ b with tailHash := w.PrevHash, tailHeight := w.Height - 1 } : branchBase H).updateHeightBlock w.Height
      (some w) := by
  unfold branchBase.addTail
  by_cases hp : b.tailHash = w.Hash <;> simp [hp, eq_comm]

/-- The knot put on top is stored at its height. -/
theorem getHeightBlock_addHead (h : b.addHead w = some b') : b'.getHeightBlock w.Height = some w := by
  obtain ⟨-, rfl⟩ := addHead_eq_some.mp h
  rw [getHeightBlock_update, if_pos rfl]

/-- Only the tail moves the tail: a new head leaves it. -/
theorem tail_addHead (h : b.addHead w = some b') : b'.tailHeight = b.tailHeight ∧ b'.tailHash = b.tailHash := by
  obtain ⟨-, rfl⟩ := addHead_eq_some.mp h
  simp

theorem tail_removeTail (h : b.removeTail w = some b') : b'.tailHeight = w.Height ∧ b'.tailHash = w.Hash := by
  obtain ⟨-, -, rfl⟩ := removeTail_eq_some.mp h
  simp

theorem tail_addTail (h : b.addTail w = some b') : b'.tailHeight = w.Height - 1 ∧ b'.tailHash = w.PrevHash := by
  obtain ⟨-, rfl⟩ := addTail_eq_some.mp h
  simp

/-- A knot whose `PrevHash` is the head goes on top, one above it. -/
theorem WF.addHead (hb : WF U b) (hw : U.mem w) (h : b.addHead w = some b') : WF U b' := by
  obtain ⟨hp, rfl⟩ := addHead_eq_some.mp h
  have hH : w.Height = b.headHeight + 1 := by rw [U.height_prev w hw, ← hp, hb.head_height]
  have hle := hb.tail_le_head
  constructor
  · simp only [tailHeight_update, headHeight_update]
    omega
  · simpa using hb.tail_height
  · intro x
    simp only [getHeightBlock_update, getHeightBlock_ends, tailHeight_update, headHeight_update]
    split_ifs with hx
    · simp only [Option.isSome_some, true_iff]
      omega
    · rw [hb.stored_iff x]
      omega
  · intro x k hk
    simp only [getHeightBlock_update, getHeightBlock_ends] at hk
    split_ifs at hk with hx
    · cases hk
      exact ⟨hw, hx.symm⟩
    · exact hb.stored_mem x k hk
  · intro x k hk
    simp only [getHeightBlock_update, getHeightBlock_ends] at hk
    split_ifs at hk with hx
    · cases hk
      rw [hashAt_update, if_neg (fun h => by omega), hashAt_ends, ← hashAt, hx, hH, Nat.add_sub_cancel, hb.head, hp]
    · have hbt := hb.between_of_stored hk
      rw [hashAt_update, if_neg (fun h => by omega)]
      exact hb.linked x k hk
  · rw [hashAt_update, headHeight_update, if_pos ⟨rfl, by simp; omega⟩]
    rfl
  · exact nodup_update _ _ _ hb.nodup

/-- The knot stored just above the tail comes off the bottom. -/
theorem WF.removeTail (hb : WF U b) (hw : U.mem w) (hs : ∃ s, b.getHeightBlock w.Height = some s ∧ s.Hash = w.Hash)
    (h : b.removeTail w = some b') : WF U b' := by
  obtain ⟨hp, hle, rfl⟩ := removeTail_eq_some.mp h
  obtain ⟨s, hs, hsw⟩ := hs
  have hH : w.Height = b.tailHeight + 1 := by rw [U.height_prev w hw, ← hp, hb.tail_height]
  have hsat : b.hashAt w.Height = some w.Hash := by rw [hb.hashAt_stored hs, hsw]
  constructor
  · simpa using hle
  · simpa using U.height_hash w hw
  · intro x
    simp only [getHeightBlock_update, getHeightBlock_ends, tailHeight_update, headHeight_update]
    split_ifs with hx
    · simp only [Option.isSome_none, Bool.false_eq_true, false_iff]
      omega
    · rw [hb.stored_iff x]
      omega
  · intro x k hk
    simp only [getHeightBlock_update, getHeightBlock_ends] at hk
    split_ifs at hk
    exact hb.stored_mem x k hk
  · intro x k hk
    simp only [getHeightBlock_update, getHeightBlock_ends] at hk
    split_ifs at hk with hx
    have hbt := hb.between_of_stored hk
    have hlink := hb.linked x k hk
    rw [hashAt_update, if_neg (by simp), hashAt_ends]
    split_ifs with hx1
    · rw [← hx1, hlink] at hsat
      exact hsat.symm
    · rwa [← hashAt_of_ne_tail (b := b) (by omega)]
  · rw [hashAt_update, if_neg (by simp), hashAt_ends, headHeight_update, headHash_update]
    dsimp only
    split_ifs with hx
    · rw [← hx, hb.head] at hsat
      exact hsat.symm
    · rw [← hashAt_of_ne_tail (b := b) (by omega), hb.head]
  · exact nodup_update _ _ _ hb.nodup

/-- The head knot comes off the top. -/
theorem WF.removeHead (hb : WF U b) (hw : U.mem w) (h : b.removeHead w = some b') : WF U b' := by
  obtain ⟨hp, hlt, rfl⟩ := removeHead_eq_some.mp h
  have hH : w.Height = b.headHeight := by rw [← U.height_hash w hw, ← hp, hb.head_height]
  -- the knot at the head is `w` itself: the two share a hash
  obtain ⟨s, hs⟩ := hb.stored_of_between (h := b.headHeight) (by omega) le_rfl
  have hsw : s = w := by
    have hh := hb.head
    rw [hb.hashAt_stored hs, hp] at hh
    exact U.hash_inj s w (hb.stored_mem _ _ hs).1 hw (Option.some.inj hh)
  subst hsw
  constructor
  · simp only [tailHeight_update, headHeight_update]
    omega
  · simpa using hb.tail_height
  · intro x
    simp only [getHeightBlock_update, getHeightBlock_ends, tailHeight_update, headHeight_update]
    split_ifs with hx
    · simp only [Option.isSome_none, Bool.false_eq_true, false_iff]
      omega
    · rw [hb.stored_iff x]
      omega
  · intro x k hk
    simp only [getHeightBlock_update, getHeightBlock_ends] at hk
    split_ifs at hk
    exact hb.stored_mem x k hk
  · intro x k hk
    simp only [getHeightBlock_update, getHeightBlock_ends] at hk
    split_ifs at hk with hx
    have hbt := hb.between_of_stored hk
    rw [hashAt_update, if_neg (by omega), hashAt_ends, ← hashAt]
    exact hb.linked x k hk
  · rw [hashAt_update, headHeight_update, headHash_update]
    dsimp only
    rw [if_neg (by omega), hashAt_ends, ← hashAt]
    rw [← hH] at hs
    exact hb.linked _ _ hs
  · exact nodup_update _ _ _ hb.nodup

/-- A knot whose hash is the tail goes under the bottom. -/
theorem WF.addTail (hb : WF U b) (hw : U.mem w) (h : b.addTail w = some b') : WF U b' := by
  obtain ⟨hp, rfl⟩ := addTail_eq_some.mp h
  have hH : w.Height = b.tailHeight := by rw [← U.height_hash w hw, ← hp, hb.tail_height]
  have hprev := U.height_prev w hw
  have hle := hb.tail_le_head
  constructor
  · simp only [tailHeight_update, headHeight_update]
    omega
  · simp only [tailHash_update, tailHeight_update]
    omega
  · intro x
    simp only [getHeightBlock_update, getHeightBlock_ends, tailHeight_update, headHeight_update]
    split_ifs with hx
    · simp only [Option.isSome_some, true_iff]
      omega
    · rw [hb.stored_iff x]
      omega
  · intro x k hk
    simp only [getHeightBlock_update, getHeightBlock_ends] at hk
    split_ifs at hk with hx
    · cases hk
      exact ⟨hw, hx.symm⟩
    · exact hb.stored_mem x k hk
  · intro x k hk
    simp only [getHeightBlock_update, getHeightBlock_ends] at hk
    rw [hashAt_update, hashAt_ends]
    dsimp only
    split_ifs at hk with hx
    · cases hk
      rw [if_neg (by omega), if_pos (by omega)]
    · have hbt := hb.between_of_stored hk
      have hlink := hb.linked x k hk
      split_ifs with hx1 hx2
      · rw [hx1.1, hH, hashAt, if_pos rfl, hp] at hlink
        rw [Option.map_some, hlink]
      · omega
      · rwa [← hashAt_of_ne_tail (b := b) (by omega)]
  · rw [hashAt_update, hashAt_ends, headHeight_update, headHash_update]
    dsimp only
    have hh := hb.head
    split_ifs with hx1 hx2
    · rw [hx1.1, hH, hashAt, if_pos rfl, hp] at hh
      rw [Option.map_some, hh]
    · omega
    · rwa [← hashAt_of_ne_tail (b := b) (by omega)]
  · exact nodup_update _ _ _ hb.nodup

end Moves

end branchBase

end Vite.Pool
