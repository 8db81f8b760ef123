import Mathlib.Logic.Relation
import Vite.Pool.MainLink
import Vite.Pool.Ring

/-!
# The block pool's chains over runs (ledger/pool/chain_pool.go, bc_pool.go)

`chainPool` pairs the fork tree with the chain on disk it hangs from. The pool changes them by the
tree's calls with any branch it holds and any block of the pool (`ForkBranch`, `AddHead`,
`SwitchMainTo`, `SwitchMainToEmpty`, `PruneTree`), by writing a block whose parent is the disk's
head (`writeBlockToChain`: the disk takes it, then `RootHeadAdd`), and by a rollback of the chain,
after which `rollbackCurrent` puts the blocks rolled back under the main branch (`Step`). The
rollback is taken to leave any disk the pool can read, and the orders the tree's maps are walked
in are any orders; a rollback that took no block off the chain left the disk as it was.

In every reachable pool every branch, handed out or not, holds a chain of the pool's blocks: its
knots stand one per height from just above its tail to its head, each naming the hash below it,
and it stores exactly `size` knots (`reachable_chains`). The branches handed out form a tree that
hangs from the disk through the main branch (`reachable_tree_shape`), so the ring check that
`PruneTree` panics on always passes (`reachable_checkTreeRing`).
-/

namespace Vite.Pool

variable {H : Type}

/-- `chainPool`: the tree of branches and the chain on disk it hangs from. -/
structure chainPool (H : Type) where
  diskChain : Disk H
  tree : tree H

/-- The disk after the chain took `k` on its head. -/
def Disk.push (d : Disk H) (k : Knot H) : Disk H :=
  ⟨fun h => if h = k.Height then some k else d.getBlock h, (k.Height, k.Hash)⟩

variable {U : KnotSpace H}

/-- The disk a block goes onto is still one the pool can read. -/
theorem Disk.WF.push {d : Disk H} (hd : d.WF U) {k : Knot H} (hk : U.mem k) (hprev : k.PrevHash = d.head.2) :
    (d.push k).WF U where
  block h k' hk' := by
    simp only [Disk.push] at hk'
    split_ifs at hk' with hh
    · cases hk'
      exact ⟨hk, hh.symm⟩
    · exact hd.block h k' hk'
  above_head h hh := by
    have hH : k.Height = d.head.1 + 1 := by rw [U.height_prev k hk, hprev, hd.head_height]
    simp only [Disk.push] at hh ⊢
    rw [if_neg (by omega), hd.above_head h (by omega)]
  head_height := U.height_hash k hk

theorem tree.AllWF.Init {d : Disk H} (hd : d.WF U) : tree.AllWF U (tree.Init d) :=
  fun _ => branchBase.WF.new hd.head_height

theorem tree.Shape.Init (d : Disk H) : tree.Shape (tree.Init d) 1 fun _ => 0 := by
  have hheld : ∀ x, (tree.Init d).Held x → x = 1 := by
    intro x hx
    unfold tree.Held at hx
    exact le_antisymm hx.2 hx.1
  constructor
  · exact ⟨le_refl 1, le_refl 1⟩
  · rfl
  · intro x hx _
    exact hheld x hx
  · intro x r _ hr
    cases hr
  · intro x r _ hr
    cases hr
  · intro x v _ hv
    cases hv
  · intro x v _ hv
    cases hv
  · intro x _
    exact List.nodup_nil
  · intro x hx
    rw [List.mem_singleton.mp hx]
    exact ⟨le_refl 1, le_refl 1⟩

variable [DecidableEq H]

/-- `checkChain`: each block's parent is the one before it, one height below. -/
def checkChain : List (Knot H) → Bool
  | [] => true
  | [_] => true
  | prev :: b :: rest => b.PrevHash = prev.Hash ∧ b.Height - 1 = prev.Height ∧ checkChain (b :: rest)

/-- The loop of `rollbackCurrent`: each block, in turn, under the main branch; an error panics. -/
def addTailAll (main : ℕ) : List (Knot H) → tree H → Option (tree H)
  | [], t => some t
  | k :: ks, t => do
    let (res, t) ← t.AddTail (.br main) k
    match res with
    | .error _ => none
    | .ok () => addTailAll main ks t

/-- `BCPool.rollbackCurrent`: the chain rolled back `blocks`; sorted by height they must be a chain
whose parent is the disk's new head and whose top is the main branch's tail (`common.Crit` stops the
node otherwise), and they go back under the main branch from the top down. A main branch already at
the disk's head is left as it is. -/
def rollbackCurrent (t : tree H) (d : Disk H) (blocks : List (Knot H)) : Option (Except String Unit × tree H) :=
  match blocks.mergeSort (fun a b => a.Height ≤ b.Height) with
  | [] => some (.ok (), t)
  | smallest :: rest =>
    let longest := (smallest :: rest).getLast (List.cons_ne_nil smallest rest)
    if !checkChain (smallest :: rest) then none
    else if t.Linked d t.main .disk then some (.ok (), t)
    else if d.head.1 + 1 ≠ smallest.Height ∨ d.head.2 ≠ smallest.PrevHash then none
    else if (t.get t.main).base.tailHeight ≠ longest.Height ∨ (t.get t.main).base.tailHash ≠ longest.Hash then none
    else (addTailAll t.main (smallest :: rest).reverse t).map ((.ok ()), ·)

/-- What the pool does to its tree and disk. `fuel` bounds the loops over roots of one call. -/
inductive Step (U : KnotSpace H) : chainPool H → chainPool H → Prop
  | ForkBranch {p : chainPool H} {b : Ref} {height : ℕ} {hash : H} {id : ℕ} {t : tree H}
      (hb : p.tree.Holds b) (h : p.tree.ForkBranch p.diskChain b height hash = some (id, t)) :
      Step U p ⟨p.diskChain, t⟩
  | AddHead {p : chainPool H} {b : Ref} {k : Knot H} {res : Except String Unit} {t : tree H}
      (hb : p.tree.Holds b) (hk : U.mem k) (h : p.tree.AddHead b k = some (res, t)) : Step U p ⟨p.diskChain, t⟩
  | writeBlockToChain {p : chainPool H} {k : Knot H} {res : Except String Unit} {t : tree H}
      (hk : U.mem k) (hprev : k.PrevHash = p.diskChain.head.2)
      (h : p.tree.RootHeadAdd (p.diskChain.push k) k = some (res, t)) : Step U p ⟨p.diskChain.push k, t⟩
  | rollbackCurrent {p : chainPool H} {d : Disk H} {blocks : List (Knot H)} {res : Except String Unit}
      {t : tree H} (hd : d.WF U) (hblocks : ∀ k ∈ blocks, U.mem k) (hnil : blocks = [] → d = p.diskChain)
      (h : rollbackCurrent p.tree d blocks = some (res, t)) : Step U p ⟨d, t⟩
  | SwitchMainTo {p : chainPool H} {fuel : ℕ} {b : Ref} {res : Except String Unit} {t : tree H}
      (hb : p.tree.Holds b) (h : p.tree.SwitchMainTo p.diskChain fuel b = some (res, t)) :
      Step U p ⟨p.diskChain, t⟩
  | SwitchMainToEmpty {p : chainPool H} {fuel : ℕ} {order : List ℕ} {res : Except String Unit} {t : tree H}
      (horder : order.Perm p.tree.branchList) (h : p.tree.SwitchMainToEmpty p.diskChain fuel order = some (res, t)) :
      Step U p ⟨p.diskChain, t⟩
  | PruneTree {p : chainPool H} {fuel : ℕ} {stale : ℕ → Bool} {order₁ order₂ rs : List ℕ} {t : tree H}
      (horder : order₁.Perm p.tree.branchList)
      (h : p.tree.PruneTree p.diskChain fuel stale order₁ order₂ = some (rs, t)) : Step U p ⟨p.diskChain, t⟩

/-- The pools reachable from `Init` over a disk the pool can read. -/
def Reachable (U : KnotSpace H) (p : chainPool H) : Prop :=
  ∃ d : Disk H, d.WF U ∧ Relation.ReflTransGen (Step U) ⟨d, tree.Init d⟩ p

theorem Reachable.tail {p p' : chainPool H} (h : Reachable U p) (hs : Step U p p') : Reachable U p' := by
  obtain ⟨d, hd, hrun⟩ := h
  exact ⟨d, hd, hrun.tail hs⟩

/-! ## A run with a fork -/

/-- Blocks numbered by height: block `n ≥ 1` has hash `n` and parent `n - 1`. -/
def heightKnots : KnotSpace ℕ where
  mem k := 1 ≤ k.Height ∧ k.Hash = k.Height ∧ k.PrevHash = k.Height - 1
  heightOf h := h
  height_hash _ hk := hk.2.1
  height_prev k hk := by
    rw [hk.2.2]
    omega
  hash_inj k k' hk hk' h := by
    obtain ⟨_, hH, hP⟩ := hk
    obtain ⟨_, hH', hP'⟩ := hk'
    cases k
    cases k'
    simp only at hH hP hH' hP' h ⊢
    subst hH hH'
    subst h
    rw [hP, hP']

/-- An empty chain whose head is the genesis hash `0` at height `0`. -/
def genesisDisk : Disk ℕ := ⟨fun _ => none, (0, 0)⟩

theorem genesisDisk_WF : genesisDisk.WF heightKnots where
  block _ _ h := by cases h
  above_head _ _ := rfl
  head_height := rfl

/-- Block `n` of `heightKnots`. -/
def heightKnot (n : ℕ) : Knot ℕ := ⟨n, n, n - 1⟩

/-- The genesis pool after block 1 went onto the main branch, a branch was forked at block 1 and
block 2 went onto the fork. -/
def Forked (p : chainPool ℕ) : Prop :=
  p.diskChain = genesisDisk ∧ p.tree.main = 1 ∧ p.tree.branchList = [2, 1] ∧ (p.tree.get 2).root = .br 1 ∧
    (p.tree.get 1).children = [2] ∧ (p.tree.get 1).base.getHeightBlock 1 = some (heightKnot 1) ∧
    (p.tree.get 2).base.getHeightBlock 2 = some (heightKnot 2)

theorem forked_reachable : ∃ p, Reachable heightKnots p ∧ Forked p := by
  have h₀ : Reachable heightKnots ⟨genesisDisk, tree.Init genesisDisk⟩ := ⟨genesisDisk, genesisDisk_WF, .refl⟩
  have h₁ := h₀.tail (Step.AddHead (b := .br 1) (k := heightKnot 1) ⟨le_refl 1, le_refl 1⟩ ⟨le_refl 1, rfl, rfl⟩ rfl)
  -- the fork takes the id after the last one handed out, 2
  have h₂ := h₁.tail (@Step.ForkBranch ℕ _ heightKnots _ (.br 1) 1 1 _ _ ⟨le_refl 1, le_refl 1⟩ rfl)
  have h₃ := h₂.tail (Step.AddHead (b := .br 2) (k := heightKnot 2) ⟨by decide, le_refl 2⟩ ⟨by decide, rfl, rfl⟩ rfl)
  exact ⟨_, h₃, rfl, rfl, rfl, rfl, rfl, rfl, rfl⟩

/-! ## Every branch a chain -/

theorem tree.AllWF.addTailAll {t t' : tree H} (hA : tree.AllWF U t) {main : ℕ} :
    ∀ {ks : List (Knot H)}, (∀ k ∈ ks, U.mem k) → addTailAll main ks t = some t' → tree.AllWF U t'
  | [], _, h => by
    cases h
    exact hA
  | k :: ks, hks, h => by
    unfold Vite.Pool.addTailAll at h
    obtain ⟨⟨res, t₁⟩, h₁, h⟩ := Option.bind_eq_some_iff.mp h
    have hA₁ := hA.AddTail (hks k List.mem_cons_self) h₁
    dsimp only at h
    cases res with
    | error e => cases h
    | ok u => exact hA₁.addTailAll (fun k' hk' => hks k' (List.mem_cons_of_mem k hk')) h

theorem tree.AllWF.rollbackCurrent {t t' : tree H} (hA : tree.AllWF U t) {d : Disk H} {blocks : List (Knot H)}
    {res : Except String Unit} (hblocks : ∀ k ∈ blocks, U.mem k) (h : rollbackCurrent t d blocks = some (res, t')) :
    tree.AllWF U t' := by
  unfold Vite.Pool.rollbackCurrent at h
  -- the sorted blocks are the blocks
  have hsorted : ∀ k ∈ blocks.mergeSort (fun a b => a.Height ≤ b.Height), U.mem k :=
    fun k hk => hblocks k ((List.mergeSort_perm _ _).mem_iff.mp hk)
  cases hm : blocks.mergeSort (fun a b => a.Height ≤ b.Height) with
  | nil =>
    rw [hm] at h
    cases h
    exact hA
  | cons smallest rest =>
    rw [hm] at h hsorted
    dsimp only at h
    split_ifs at h
    · cases h
      exact hA
    · obtain ⟨t₁, h₁, h⟩ := Option.map_eq_some_iff.mp h
      cases h
      exact hA.addTailAll (fun k hk => hsorted k (List.mem_reverse.mp hk)) h₁

/-- What every reachable pool keeps. -/
structure Inv (U : KnotSpace H) (p : chainPool H) : Prop where
  disk : p.diskChain.WF U
  bases : tree.AllWF U p.tree

theorem Inv.step {p p' : chainPool H} (hi : Inv U p) (hs : Step U p p') : Inv U p' := by
  cases hs with
  | ForkBranch hb h => exact ⟨hi.disk, hi.bases.ForkBranch hi.disk h⟩
  | AddHead hb hk h => exact ⟨hi.disk, hi.bases.AddHead hk h⟩
  | writeBlockToChain hk hprev h =>
    have hd := hi.disk.push hk hprev
    exact ⟨hd, hi.bases.RootHeadAdd hd hk h⟩
  | rollbackCurrent hd hblocks hnil h => exact ⟨hd, hi.bases.rollbackCurrent hblocks h⟩
  | SwitchMainTo hb h => exact ⟨hi.disk, hi.bases.SwitchMainTo hi.disk h⟩
  | SwitchMainToEmpty horder h => exact ⟨hi.disk, hi.bases.SwitchMainToEmpty hi.disk h⟩
  | PruneTree horder h => exact ⟨hi.disk, hi.bases.PruneTree hi.disk h⟩

theorem Reachable.inv {p : chainPool H} (h : Reachable U p) : Inv U p := by
  obtain ⟨d, hd, hrun⟩ := h
  induction hrun with
  | refl => exact ⟨hd, tree.AllWF.Init hd⟩
  | tail _ hs ih => exact ih.step hs

/-- In every reachable pool every branch holds a chain of the pool's blocks from just above its tail
to its head, and stores exactly `size` of them. -/
theorem reachable_chains {p : chainPool H} (h : Reachable U p) (id : ℕ) :
    branchBase.WF U (p.tree.get id).base ∧ (p.tree.get id).base.storeSize = (p.tree.get id).base.size := by
  have hb := h.inv.bases id
  exact ⟨hb, hb.storeSize_eq_size⟩

theorem reachable_chains_forked :
    ∃ p, Forked p ∧ branchBase.WF heightKnots (p.tree.get 2).base ∧
      (p.tree.get 2).base.storeSize = (p.tree.get 2).base.size := by
  obtain ⟨p, hp, hf⟩ := forked_reachable
  exact ⟨p, hf, reachable_chains hp 2⟩

/-! ## The tree hanging from the disk -/

theorem tree.sameShape_addTailAll {main : ℕ} :
    ∀ {ks : List (Knot H)} {t t' : tree H}, addTailAll main ks t = some t' → tree.SameShape t t'
  | [], t, t', h => by
    cases h
    exact tree.SameShape.rfl
  | k :: ks, t, t', h => by
    unfold Vite.Pool.addTailAll at h
    obtain ⟨⟨res, t₁⟩, h₁, h⟩ := Option.bind_eq_some_iff.mp h
    dsimp only at h
    cases res with
    | error e => cases h
    | ok u => exact (tree.sameShape_AddTail h₁).trans (tree.sameShape_addTailAll h)

theorem tree.sameShape_rollbackCurrent {t t' : tree H} {d : Disk H} {blocks : List (Knot H)}
    {res : Except String Unit} (h : rollbackCurrent t d blocks = some (res, t')) : tree.SameShape t t' := by
  unfold Vite.Pool.rollbackCurrent at h
  split at h
  · cases h
    exact tree.SameShape.rfl
  · dsimp only at h
    split_ifs at h
    · cases h
      exact tree.SameShape.rfl
    · obtain ⟨t₁, h₁, h⟩ := Option.map_eq_some_iff.mp h
      cases h
      exact tree.sameShape_addTailAll h₁

/-- Every step keeps a shape hanging from the main branch, for a rank it may change. -/
theorem Step.shape {p p' : chainPool H} (hstep : Step U p p') (hs : ∃ ρ, tree.Shape p.tree p.tree.main ρ) :
    ∃ ρ, tree.Shape p'.tree p'.tree.main ρ := by
  obtain ⟨ρ, hs⟩ := hs
  cases hstep with
  | ForkBranch hb h =>
    rw [(tree.ForkBranch_new h).1]
    exact hs.ForkBranch hb h
  | AddHead hb hk h =>
    refine ⟨ρ, ?_⟩
    rw [(tree.sameShape_AddHead h).main]
    exact hs.of_sameShape (tree.sameShape_AddHead h)
  | writeBlockToChain hk hprev h => exact hs.RootHeadAdd h
  | rollbackCurrent hd hblocks hnil h =>
    refine ⟨ρ, ?_⟩
    rw [(tree.sameShape_rollbackCurrent h).main]
    exact hs.of_sameShape (tree.sameShape_rollbackCurrent h)
  | SwitchMainTo hb h => exact hs.SwitchMainTo hb h
  | SwitchMainToEmpty horder h => exact hs.SwitchMainToEmpty (fun c hc => horder.mem_iff.mp hc) h
  | PruneTree horder h => exact ⟨ρ, hs.PruneTree h⟩

theorem Reachable.shape {p : chainPool H} (h : Reachable U p) : ∃ ρ, tree.Shape p.tree p.tree.main ρ := by
  obtain ⟨d, -, hrun⟩ := h
  induction hrun with
  | refl => exact ⟨_, tree.Shape.Init d⟩
  | tail _ hstep ih => exact hstep.shape ih

/-- In every reachable pool the branches handed out form a tree hanging from the disk: the main
branch, and it alone, hangs from the disk; every root and every child is a branch handed out; a
branch listed as a child hangs from the branch that lists it, and no branch lists a child twice;
the branch list holds branches handed out; and a rank grows from each root to its branch, so no
branch reaches itself through its roots. -/
theorem reachable_tree_shape {p : chainPool H} (h : Reachable U p) : ∃ ρ, tree.Shape p.tree p.tree.main ρ :=
  h.shape

theorem reachable_tree_shape_forked : ∃ p, Forked p ∧ ∃ ρ, tree.Shape p.tree p.tree.main ρ := by
  obtain ⟨p, hp, hf⟩ := forked_reachable
  exact ⟨p, hf, reachable_tree_shape hp⟩

/-- In every reachable pool the walk of `CheckTreeRing` sees no branch twice and does not run out of
fuel, so `PruneTree` never panics on a ring. -/
theorem reachable_checkTreeRing {p : chainPool H} (h : Reachable U p) : p.tree.CheckTreeRing = true := by
  obtain ⟨ρ, hs⟩ := h.shape
  exact hs.CheckTreeRing

theorem reachable_checkTreeRing_forked : ∃ p, Forked p ∧ p.tree.CheckTreeRing = true := by
  obtain ⟨p, hp, hf⟩ := forked_reachable
  exact ⟨p, hf, reachable_checkTreeRing hp⟩

/-! ## The main branch on the disk's head -/

/-- After the blocks went back under the main branch, its tail is below the last one. -/
theorem tree.tail_addTailAll {main : ℕ} :
    ∀ {ks : List (Knot H)} {t t' : tree H} {k : Knot H}, addTailAll main ks t = some t' → ks.getLast? = some k →
      (t'.get main).base.tailHeight = k.Height - 1 ∧ (t'.get main).base.tailHash = k.PrevHash
  | [], _, _, _, _, hk => by cases hk
  | k' :: ks, t, t', k, h, hk => by
    unfold Vite.Pool.addTailAll at h
    obtain ⟨⟨res, t₁⟩, h₁, h⟩ := Option.bind_eq_some_iff.mp h
    dsimp only at h
    cases res with
    | error e => cases h
    | ok u =>
      cases ks with
      | nil =>
        cases h
        cases hk
        obtain ⟨base, hb, h₁⟩ := Option.bind_eq_some_iff.mp h₁
        cases h₁
        show ((t.setBase main base).get main).base.tailHeight = k'.Height - 1 ∧
          ((t.setBase main base).get main).base.tailHash = k'.PrevHash
        rw [tree.base_setBase, if_pos rfl]
        exact branchBase.tail_addTail hb
      | cons k'' ks =>
        rw [List.getLast?_cons_cons] at hk
        exact tree.tail_addTailAll h hk

/-- `rollbackCurrent` leaves the main branch on the new disk's head: it was there already, or the
blocks went back under it down to just above the new head, or no block went and the disk is the
one it was on. -/
theorem tree.linked_rollbackCurrent {t t' : tree H} {d₀ d : Disk H} {blocks : List (Knot H)}
    {res : Except String Unit} (hl : t.Linked d₀ t.main .disk = true) (hnil : blocks = [] → d = d₀)
    (h : rollbackCurrent t d blocks = some (res, t')) : t'.Linked d t'.main .disk = true := by
  unfold Vite.Pool.rollbackCurrent at h
  cases hm : blocks.mergeSort (fun a b => a.Height ≤ b.Height) with
  | nil =>
    rw [hm] at h
    cases h
    have hlen := (List.mergeSort_perm blocks (fun a b => decide (a.Height ≤ b.Height))).length_eq
    rw [hm] at hlen
    rw [hnil (List.eq_nil_of_length_eq_zero hlen.symm)]
    exact hl
  | cons smallest rest =>
    rw [hm] at h
    dsimp only at h
    split_ifs at h with hchain hlinked hhead
    · cases h
      exact hlinked
    · obtain ⟨t₁, h₁, h⟩ := Option.map_eq_some_iff.mp h
      cases h
      obtain ⟨hH, hP⟩ := tree.tail_addTailAll h₁ (k := smallest) (by rw [List.getLast?_reverse]; rfl)
      rw [tree.linked_disk_iff, (tree.sameShape_addTailAll h₁).main, hH, hP]
      obtain ⟨hH', hP'⟩ := not_or.mp hhead
      exact ⟨by omega, (not_not.mp hP').symm⟩

/-- Every step keeps the main branch on the disk's head, in a pool that keeps its invariants. -/
theorem Step.linked {p p' : chainPool H} (hstep : Step U p p') (hi : Inv U p) {ρ : ℕ → ℕ}
    (hs : tree.Shape p.tree p.tree.main ρ) (hl : p.tree.Linked p.diskChain p.tree.main .disk = true) :
    p'.tree.Linked p'.diskChain p'.tree.main .disk = true := by
  cases hstep with
  | ForkBranch hb h => exact tree.linked_ForkBranch hs.main_held hl h
  | AddHead hb hk h => exact tree.linked_AddHead hl h
  | writeBlockToChain hk hprev h => exact tree.linked_RootHeadAdd rfl h
  | rollbackCurrent hd hblocks hnil h => exact tree.linked_rollbackCurrent hl hnil h
  | SwitchMainTo hb h => exact tree.linked_SwitchMainTo hs hi.disk.above_head hl hb h
  | SwitchMainToEmpty horder h =>
    exact tree.linked_SwitchMainToEmpty hs hi.disk.above_head hl (fun c hc => horder.mem_iff.mp hc) h
  | PruneTree horder h => exact tree.linked_PruneTree hs hi.disk.above_head hl h

/-- In every reachable pool the main branch's tail is the disk's head (`Linked(disk)`): the pool's
current chain is the disk chain with the main branch's knots on top. -/
theorem reachable_main_linked {p : chainPool H} (h : Reachable U p) :
    p.tree.Linked p.diskChain p.tree.main .disk = true := by
  obtain ⟨d, hd, hrun⟩ := h
  induction hrun with
  | refl => exact tree.linked_disk_iff.mpr ⟨rfl, rfl⟩
  | tail hrun hstep ih =>
    obtain ⟨ρ, hs⟩ := Reachable.shape ⟨d, hd, hrun⟩
    exact hstep.linked (Reachable.inv ⟨d, hd, hrun⟩) hs ih

theorem reachable_main_linked_forked : ∃ p, Forked p ∧ p.tree.Linked p.diskChain p.tree.main .disk = true := by
  obtain ⟨p, hp, hf⟩ := forked_reachable
  exact ⟨p, hf, reachable_main_linked hp⟩

end Vite.Pool
