import Vite.Pool.Tree

/-!
# The shape of the fork tree (ledger/pool/tree/branch.go, tree_impl.go, checker.go)

The branches the tree handed out hang from one another and, at the bottom, from the disk: the
main branch, and it alone, hangs from the disk; every other branch hangs from a branch that was
handed out; a branch listed among a branch's children hangs from it; and there is no cycle, which
a rank that grows from every branch's root to the branch witnesses (`Shape`). This is what
`CheckTree` and `CheckTreeRing` check of the roots and children.

Rewiring keeps the shape step by step. Moving a child to a branch of smaller rank keeps it
(`Shape.updateRootSimple`), and the loop that moves a branch's children moves each to a branch
below the branch (`Shape.moveChildren`). `exchangeRoot` swaps a branch with its root: a rank
doubled, with the branch put just below its old root, still grows along every root
(`Shape.exchangeRoot`); when the old root was the main branch, the shape then hangs from the
branch instead, which `SwitchMainTo` makes the main one. A branch that `prune` empties has lost
all its children on the way (`moveChildren_children_eq_nil`), so it is removed as a leaf.
-/

namespace Vite.Pool

namespace tree

variable {H : Type}

/-- A branch id the tree handed out. -/
def Held (t : tree H) (id : ℕ) : Prop := 1 ≤ id ∧ id ≤ t.idIdx

/-- A branch value the pool can hold: the disk, or a branch the tree handed out. -/
def Holds (t : tree H) : Ref → Prop
  | .disk => True
  | .br id => t.Held id

/-! ## Roots and children after a write -/

@[simp] theorem root_setRoot (t : tree H) (id id' : ℕ) (r : Ref) :
    ((t.setRoot id r).get id').root = if id' = id then r else (t.get id').root := by
  unfold setRoot
  rw [get_set]
  split_ifs <;> rfl

@[simp] theorem children_setRoot (t : tree H) (id id' : ℕ) (r : Ref) :
    ((t.setRoot id r).get id').children = (t.get id').children := by
  unfold setRoot
  rw [get_set]
  split_ifs with h
  · rw [h]
  · rfl

@[simp] theorem root_addChild (t : tree H) (self child id : ℕ) :
    ((t.addChild self child).get id).root = (t.get id).root := by
  unfold addChild
  rw [get_set]
  split_ifs with h
  · rw [h]
  · rfl

@[simp] theorem children_addChild (t : tree H) (self child id : ℕ) :
    ((t.addChild self child).get id).children =
      if id = self then (t.get self).children.insert child else (t.get id).children := by
  unfold addChild
  rw [get_set]
  split_ifs <;> rfl

@[simp] theorem root_removeChild (t : tree H) (self child id : ℕ) :
    ((t.removeChild self child).get id).root = (t.get id).root := by
  unfold removeChild
  rw [get_set]
  split_ifs with h
  · rw [h]
  · rfl

@[simp] theorem children_removeChild (t : tree H) (self child id : ℕ) :
    ((t.removeChild self child).get id).children =
      if id = self then (t.get self).children.erase child else (t.get id).children := by
  unfold removeChild
  rw [get_set]
  split_ifs <;> rfl

@[simp] theorem root_setBase (t : tree H) (id id' : ℕ) (b : branchBase H) :
    ((t.setBase id b).get id').root = (t.get id').root := by
  unfold setBase
  rw [get_set]
  split_ifs with h
  · rw [h]
  · rfl

@[simp] theorem children_setBase (t : tree H) (id id' : ℕ) (b : branchBase H) :
    ((t.setBase id b).get id').children = (t.get id').children := by
  unfold setBase
  rw [get_set]
  split_ifs with h
  · rw [h]
  · rfl

@[simp] theorem root_removeChildOf (t : tree H) (r : Ref) (child id : ℕ) :
    ((t.removeChildOf r child).get id).root = (t.get id).root := by
  cases r <;> simp [removeChildOf]

@[simp] theorem children_removeChildOf (t : tree H) (r : Ref) (child id : ℕ) :
    ((t.removeChildOf r child).get id).children =
      if r = .br id then (t.get id).children.erase child else (t.get id).children := by
  cases r with
  | disk => simp [removeChildOf]
  | br o =>
    simp only [removeChildOf, children_removeChild, Ref.br.injEq]
    split_ifs with h₁ h₂ h₂
    · rw [h₁]
    · exact absurd h₁.symm h₂
    · exact absurd h₂.symm h₁
    · rfl

@[simp] theorem root_addChildOf (t : tree H) (r : Ref) (child id : ℕ) :
    ((t.addChildOf r child).get id).root = (t.get id).root := by
  cases r <;> simp [addChildOf]

@[simp] theorem children_addChildOf (t : tree H) (r : Ref) (child id : ℕ) :
    ((t.addChildOf r child).get id).children =
      if r = .br id then (t.get id).children.insert child else (t.get id).children := by
  cases r with
  | disk => simp [addChildOf]
  | br n =>
    simp only [addChildOf, children_addChild, Ref.br.injEq]
    split_ifs with h₁ h₂ h₂
    · rw [h₁]
    · exact absurd h₁.symm h₂
    · exact absurd h₂.symm h₁
    · rfl

@[simp] theorem root_updateRootSimple (t : tree H) (self : ℕ) (old new : Ref) (id : ℕ) :
    ((t.updateRootSimple self old new).get id).root = if id = self then new else (t.get id).root := by
  simp [updateRootSimple]

@[simp] theorem children_updateRootSimple (t : tree H) (self : ℕ) (old new : Ref) (id : ℕ) :
    ((t.updateRootSimple self old new).get id).children =
      if new = .br id then
        (if old = .br id then (t.get id).children.erase self else (t.get id).children).insert self
      else if old = .br id then (t.get id).children.erase self else (t.get id).children := by
  simp [updateRootSimple]

@[simp] theorem idIdx_setRoot (t : tree H) (id : ℕ) (r : Ref) : (t.setRoot id r).idIdx = t.idIdx := rfl

@[simp] theorem idIdx_setBase (t : tree H) (id : ℕ) (b : branchBase H) : (t.setBase id b).idIdx = t.idIdx := rfl

@[simp] theorem idIdx_addChild (t : tree H) (self child : ℕ) : (t.addChild self child).idIdx = t.idIdx := rfl

@[simp] theorem idIdx_removeChild (t : tree H) (self child : ℕ) : (t.removeChild self child).idIdx = t.idIdx := rfl

@[simp] theorem idIdx_addChildOf (t : tree H) (r : Ref) (child : ℕ) : (t.addChildOf r child).idIdx = t.idIdx := by
  cases r <;> rfl

@[simp] theorem idIdx_removeChildOf (t : tree H) (r : Ref) (child : ℕ) :
    (t.removeChildOf r child).idIdx = t.idIdx := by
  cases r <;> rfl

@[simp] theorem idIdx_updateRootSimple (t : tree H) (self : ℕ) (old new : Ref) :
    (t.updateRootSimple self old new).idIdx = t.idIdx := by
  simp [updateRootSimple]

@[simp] theorem main_setRoot (t : tree H) (id : ℕ) (r : Ref) : (t.setRoot id r).main = t.main := rfl

@[simp] theorem main_setBase (t : tree H) (id : ℕ) (b : branchBase H) : (t.setBase id b).main = t.main := rfl

@[simp] theorem main_addChildOf (t : tree H) (r : Ref) (child : ℕ) : (t.addChildOf r child).main = t.main := by
  cases r <;> rfl

@[simp] theorem main_removeChildOf (t : tree H) (r : Ref) (child : ℕ) : (t.removeChildOf r child).main = t.main := by
  cases r <;> rfl

@[simp] theorem main_updateRootSimple (t : tree H) (self : ℕ) (old new : Ref) :
    (t.updateRootSimple self old new).main = t.main := by
  simp [updateRootSimple]

@[simp] theorem branchList_setRoot (t : tree H) (id : ℕ) (r : Ref) : (t.setRoot id r).branchList = t.branchList := rfl

@[simp] theorem branchList_setBase (t : tree H) (id : ℕ) (b : branchBase H) :
    (t.setBase id b).branchList = t.branchList := rfl

@[simp] theorem branchList_addChildOf (t : tree H) (r : Ref) (child : ℕ) :
    (t.addChildOf r child).branchList = t.branchList := by
  cases r <;> rfl

@[simp] theorem branchList_removeChildOf (t : tree H) (r : Ref) (child : ℕ) :
    (t.removeChildOf r child).branchList = t.branchList := by
  cases r <;> rfl

@[simp] theorem branchList_updateRootSimple (t : tree H) (self : ℕ) (old new : Ref) :
    (t.updateRootSimple self old new).branchList = t.branchList := by
  simp [updateRootSimple]

/-! ## Calls that leave the shape as it is -/

/-- `t'` differs from `t` in bases and in the hash index only. -/
structure SameShape (t t' : tree H) : Prop where
  idIdx : t'.idIdx = t.idIdx
  main : t'.main = t.main
  branchList : t'.branchList = t.branchList
  root : ∀ id, (t'.get id).root = (t.get id).root
  children : ∀ id, (t'.get id).children = (t.get id).children

theorem SameShape.rfl {t : tree H} : SameShape t t := ⟨Eq.refl _, Eq.refl _, Eq.refl _, fun _ => Eq.refl _, fun _ => Eq.refl _⟩

theorem SameShape.trans {t₁ t₂ t₃ : tree H} (h₁ : SameShape t₁ t₂) (h₂ : SameShape t₂ t₃) : SameShape t₁ t₃ :=
  ⟨h₂.idIdx.trans h₁.idIdx, h₂.main.trans h₁.main, h₂.branchList.trans h₁.branchList,
    fun id => (h₂.root id).trans (h₁.root id), fun id => (h₂.children id).trans (h₁.children id)⟩

theorem sameShape_setBase (t : tree H) (id : ℕ) (b : branchBase H) : SameShape t (t.setBase id b) :=
  ⟨Eq.refl _, Eq.refl _, Eq.refl _, fun id' => root_setBase t id id' b, fun id' => children_setBase t id id' b⟩

/-- `t'` has handed out the ids `t` has and has the same main branch. -/
structure SameIds (t t' : tree H) : Prop where
  idIdx : t'.idIdx = t.idIdx
  main : t'.main = t.main

theorem SameIds.rfl {t : tree H} : SameIds t t := ⟨Eq.refl _, Eq.refl _⟩

theorem SameIds.trans {t₁ t₂ t₃ : tree H} (h₁ : SameIds t₁ t₂) (h₂ : SameIds t₂ t₃) : SameIds t₁ t₃ :=
  ⟨h₂.idIdx.trans h₁.idIdx, h₂.main.trans h₁.main⟩

theorem SameShape.sameIds {t t' : tree H} (h : SameShape t t') : SameIds t t' := ⟨h.idIdx, h.main⟩

theorem sameIds_updateRootSimple (t : tree H) (self : ℕ) (old new : Ref) : SameIds t (t.updateRootSimple self old new) :=
  ⟨idIdx_updateRootSimple t self old new, main_updateRootSimple t self old new⟩

theorem sameIds_foldl_addChild (root : ℕ) : ∀ (l : List ℕ) (t : tree H), SameIds t (l.foldl (fun t v => t.addChild root v) t)
  | [], _ => SameIds.rfl
  | v :: l, t => (⟨rfl, rfl⟩ : SameIds t (t.addChild root v)).trans (sameIds_foldl_addChild root l _)

/-! ## The shape -/

/-- The roots and children of the branches handed out form a tree hanging from the disk through
the branch `m`: `m`, and it alone, hangs from the disk; every other root and every child is a
branch handed out; a child hangs from the branch that lists it, and is listed once; `ρ` grows from
each root to its branch; and the branch list holds branches handed out. -/
structure Shape (t : tree H) (m : ℕ) (ρ : ℕ → ℕ) : Prop where
  main_held : t.Held m
  main_root : (t.get m).root = .disk
  only_main : ∀ id, t.Held id → (t.get id).root = .disk → id = m
  root_held : ∀ id r, t.Held id → (t.get id).root = .br r → t.Held r
  rank_lt : ∀ id r, t.Held id → (t.get id).root = .br r → ρ r < ρ id
  child_held : ∀ x v, t.Held x → v ∈ (t.get x).children → t.Held v
  child_root : ∀ x v, t.Held x → v ∈ (t.get x).children → (t.get v).root = .br x
  nodup : ∀ x, t.Held x → (t.get x).children.Nodup
  listed : ∀ id ∈ t.branchList, t.Held id

variable {m : ℕ} {ρ : ℕ → ℕ} {t t' : tree H}

theorem held_of_idIdx (h : t'.idIdx = t.idIdx) {id : ℕ} : t'.Held id ↔ t.Held id := by
  unfold Held
  rw [h]

theorem SameIds.held (h : SameIds t t') {id : ℕ} : t'.Held id ↔ t.Held id := held_of_idIdx h.idIdx

theorem Shape.of_sameShape (hs : Shape t m ρ) (h : SameShape t t') : Shape t' m ρ where
  main_held := (held_of_idIdx h.idIdx).mpr hs.main_held
  main_root := by rw [h.root]; exact hs.main_root
  only_main id hid hr := hs.only_main id ((held_of_idIdx h.idIdx).mp hid) (by rwa [← h.root])
  root_held id r hid hr := (held_of_idIdx h.idIdx).mpr (hs.root_held id r ((held_of_idIdx h.idIdx).mp hid) (by rwa [← h.root]))
  rank_lt id r hid hr := hs.rank_lt id r ((held_of_idIdx h.idIdx).mp hid) (by rwa [← h.root])
  child_held x v hx hv := (held_of_idIdx h.idIdx).mpr
    (hs.child_held x v ((held_of_idIdx h.idIdx).mp hx) (by rwa [← h.children]))
  child_root x v hx hv := by
    rw [h.root]
    exact hs.child_root x v ((held_of_idIdx h.idIdx).mp hx) (by rwa [← h.children])
  nodup x hx := by
    rw [h.children]
    exact hs.nodup x ((held_of_idIdx h.idIdx).mp hx)
  listed id hid := (held_of_idIdx h.idIdx).mpr (hs.listed id (by rwa [← h.branchList]))

/-- Who is listed under whom after `v` moved from `x` to `new`: `v` under `new`, and the others as
before. -/
theorem Shape.mem_children_updateRootSimple (hs : Shape t m ρ) {v x z w : ℕ} {new : Ref}
    (hvx : (t.get v).root = .br x) (hx : t.Held x) (hz : t.Held z)
    (hw : w ∈ ((t.updateRootSimple v (.br x) new).get z).children) :
    (new = .br z ∧ w = v) ∨ (w ∈ (t.get z).children ∧ w ≠ v) := by
  rw [children_updateRootSimple] at hw
  simp only [Ref.br.injEq] at hw
  -- what stays listed under `z` is `z`'s old child, and not `v` unless `z = x`, where it was erased
  have hold : w ∈ (if x = z then (t.get z).children.erase v else (t.get z).children) →
      w ∈ (t.get z).children ∧ w ≠ v := by
    intro hw'
    split_ifs at hw' with hxz
    · subst hxz
      exact ((hs.nodup x hx).mem_erase_iff.mp hw').symm
    · refine ⟨hw', fun hwv => hxz ?_⟩
      subst hwv
      have := hs.child_root z w hz hw'
      rw [hvx] at this
      exact Ref.br.inj this
  split_ifs at hw with hnz
  · rcases List.mem_insert_iff.mp hw with rfl | hw'
    · exact .inl ⟨hnz, rfl⟩
    · exact .inr (hold (by rwa [if_pos ‹x = z›]))
  · rcases List.mem_insert_iff.mp hw with rfl | hw'
    · exact .inl ⟨hnz, rfl⟩
    · exact .inr (hold (by rwa [if_neg ‹¬x = z›]))
  · exact .inr (hold (by rwa [if_pos ‹x = z›]))
  · exact .inr (hold (by rwa [if_neg ‹¬x = z›]))

theorem nodup_children_updateRootSimple {v z : ℕ} {old new : Ref} (hnd : (t.get z).children.Nodup) :
    ((t.updateRootSimple v old new).get z).children.Nodup := by
  rw [children_updateRootSimple]
  split_ifs
  · exact (hnd.erase v).insert
  · exact hnd.insert
  · exact hnd.erase v
  · exact hnd

/-- Moving a child `v` from `x` to a branch `y` of smaller rank keeps the shape. -/
theorem Shape.updateRootSimple (hs : Shape t m ρ) {v x y : ℕ} (hv : t.Held v) (hvx : (t.get v).root = .br x)
    (hy : t.Held y) (hρ : ρ y < ρ v) : Shape (t.updateRootSimple v (.br x) (.br y)) m ρ := by
  have hheld : ∀ id, (t.updateRootSimple v (.br x) (.br y)).Held id ↔ t.Held id :=
    fun _ => held_of_idIdx (idIdx_updateRootSimple _ _ _ _)
  have hx : t.Held x := hs.root_held v x hv hvx
  have hmv : m ≠ v := by
    rintro rfl
    rw [hs.main_root] at hvx
    cases hvx
  constructor
  · exact (hheld m).mpr hs.main_held
  · rw [root_updateRootSimple, if_neg hmv]
    exact hs.main_root
  · intro id hid hr
    rw [root_updateRootSimple] at hr
    -- `v` now hangs from `y`, not from the disk
    split_ifs at hr with hidv
    exact hs.only_main id ((hheld id).mp hid) hr
  · intro id r hid hr
    rw [root_updateRootSimple] at hr
    rw [hheld]
    split_ifs at hr with hidv
    · cases hr
      exact hy
    · exact hs.root_held id r ((hheld id).mp hid) hr
  · intro id r hid hr
    rw [root_updateRootSimple] at hr
    split_ifs at hr with hidv
    · cases hr
      rw [hidv]
      exact hρ
    · exact hs.rank_lt id r ((hheld id).mp hid) hr
  · intro z w hz hw
    rw [hheld]
    rcases hs.mem_children_updateRootSimple hvx hx ((hheld z).mp hz) hw with ⟨-, rfl⟩ | ⟨hw', -⟩
    · exact hv
    · exact hs.child_held z w ((hheld z).mp hz) hw'
  · intro z w hz hw
    rw [root_updateRootSimple]
    rcases hs.mem_children_updateRootSimple hvx hx ((hheld z).mp hz) hw with ⟨hyz, rfl⟩ | ⟨hw', hwv⟩
    · rw [if_pos rfl]
      exact hyz
    · rw [if_neg hwv]
      exact hs.child_root z w ((hheld z).mp hz) hw'
  · intro z hz
    exact nodup_children_updateRootSimple (hs.nodup z ((hheld z).mp hz))
  · intro id hid
    rw [branchList_updateRootSimple] at hid
    exact (hheld id).mpr (hs.listed id hid)

/-- Fewer children, and fewer listed branches, keep the shape. -/
theorem Shape.of_sublist (hs : Shape t m ρ) (hidx : t'.idIdx = t.idIdx) (hroot : ∀ id, (t'.get id).root = (t.get id).root)
    (hch : ∀ id, (t'.get id).children.Sublist (t.get id).children) (hbl : ∀ id ∈ t'.branchList, id ∈ t.branchList) :
    Shape t' m ρ := by
  have hheld : ∀ id, t'.Held id ↔ t.Held id := fun _ => held_of_idIdx hidx
  constructor
  · exact (hheld m).mpr hs.main_held
  · rw [hroot]
    exact hs.main_root
  · intro id hid hr
    rw [hroot] at hr
    exact hs.only_main id ((hheld id).mp hid) hr
  · intro id r hid hr
    rw [hroot] at hr
    exact (hheld r).mpr (hs.root_held id r ((hheld id).mp hid) hr)
  · intro id r hid hr
    rw [hroot] at hr
    exact hs.rank_lt id r ((hheld id).mp hid) hr
  · intro x v hx hv
    exact (hheld v).mpr (hs.child_held x v ((hheld x).mp hx) ((hch x).subset hv))
  · intro x v hx hv
    rw [hroot]
    exact hs.child_root x v ((hheld x).mp hx) ((hch x).subset hv)
  · intro x hx
    exact (hs.nodup x ((hheld x).mp hx)).sublist (hch x)
  · intro id hid
    exact (hheld id).mpr (hs.listed id (hbl id hid))

theorem Shape.removeChild (hs : Shape t m ρ) (x v : ℕ) : Shape (t.removeChild x v) m ρ := by
  refine Shape.of_sublist hs rfl (root_removeChild t x v) (fun id => ?_) (fun _ h => h)
  rw [children_removeChild]
  split_ifs with h
  · rw [h]
    exact List.erase_sublist
  · exact List.Sublist.refl _

theorem Shape.removeChildOf (hs : Shape t m ρ) (r : Ref) (v : ℕ) : Shape (t.removeChildOf r v) m ρ := by
  cases r with
  | disk => exact hs
  | br x => exact hs.removeChild x v

theorem Shape.deleteBranch (hs : Shape t m ρ) (id : ℕ) : Shape (t.deleteBranch id) m ρ :=
  hs.of_sublist rfl (fun _ => rfl) (fun _ => List.Sublist.refl _) (fun _ h => List.mem_of_mem_erase h)

/-- Once a branch leaves its root's children, no branch lists it. -/
theorem Shape.not_mem_children_removeChildOf (hs : Shape t m ρ) {r x : ℕ} (hx : t.Held x) :
    r ∉ ((t.removeChildOf (t.get r).root r).get x).children := by
  intro hr
  rw [children_removeChildOf] at hr
  split_ifs at hr with hrx
  · exact (hs.nodup x hx).not_mem_erase hr
  · exact hrx (hs.child_root x r hx hr)

/-! ## Swapping a branch with its root -/

/-- The rank after `self` and its root `r` swap places: `self` just below `r`, the others spread out. -/
def swapRank (ρ : ℕ → ℕ) (self r : ℕ) (x : ℕ) : ℕ := if x = self then 2 * ρ r + 1 else 2 * ρ x + 2

/-- Who is listed under whom once `self` hangs from its old root's root and the old root `r`,
listed nowhere, hangs from `self`. -/
theorem Shape.mem_children_exchange (hs : Shape t m ρ) {self r z w : ℕ} (hsr : (t.get self).root = .br r)
    (hr : t.Held r) (hz : t.Held z) (hfree : ∀ x, t.Held x → r ∉ (t.get x).children)
    (hw : w ∈ ((((t.updateRootSimple self (.br r) (t.get r).root).setRoot r (.br self)).addChildOf
      (.br self) r).get z).children) :
    (z = self ∧ w = r) ∨ ((t.get r).root = .br z ∧ w = self) ∨ (w ∈ (t.get z).children ∧ w ≠ self ∧ w ≠ r) := by
  rw [children_addChildOf, children_setRoot] at hw
  have hold : w ∈ ((t.updateRootSimple self (.br r) (t.get r).root).get z).children →
      ((t.get r).root = .br z ∧ w = self) ∨ (w ∈ (t.get z).children ∧ w ≠ self ∧ w ≠ r) := by
    intro hw'
    rcases hs.mem_children_updateRootSimple hsr hr hz hw' with h | ⟨hw'', hws⟩
    · exact .inl h
    · exact .inr ⟨hw'', hws, fun hwr => hfree z hz (hwr ▸ hw'')⟩
  split_ifs at hw with hsz
  · rcases List.mem_insert_iff.mp hw with rfl | hw'
    · exact .inl ⟨(Ref.br.inj hsz).symm, rfl⟩
    · exact .inr (hold hw')
  · exact .inr (hold hw)

/-- `self` and its root `r`, which no branch lists any more, swap places: the shape holds for the
rank `swapRank`, and hangs from `self` if `r` hung from the disk. -/
theorem Shape.exchange (hs : Shape t m ρ) {self r : ℕ} (hself : t.Held self) (hsr : (t.get self).root = .br r)
    (hfree : ∀ x, t.Held x → r ∉ (t.get x).children) :
    Shape (((t.updateRootSimple self (.br r) (t.get r).root).setRoot r (.br self)).addChildOf (.br self) r)
      (if (t.get r).root = .disk then self else m) (swapRank ρ self r) := by
  have hheld : ∀ id, (((t.updateRootSimple self (.br r) (t.get r).root).setRoot r (.br self)).addChildOf
      (.br self) r).Held id ↔ t.Held id := fun _ => held_of_idIdx (by simp)
  have hr : t.Held r := hs.root_held self r hself hsr
  have hρ : ρ r < ρ self := hs.rank_lt self r hself hsr
  have hne : self ≠ r := by
    rintro rfl
    omega
  have hroot : ∀ x, ((((t.updateRootSimple self (.br r) (t.get r).root).setRoot r (.br self)).addChildOf
      (.br self) r).get x).root =
      if x = r then .br self else if x = self then (t.get r).root else (t.get x).root := by
    intro x
    simp
  -- the main branch moves to `self` exactly when `r` hung from the disk, that is when `r` was it
  have hmr : (t.get r).root = .disk → m = r := fun h => (hs.only_main r hr h).symm
  have hms : m ≠ self := by
    rintro rfl
    rw [hs.main_root] at hsr
    cases hsr
  constructor
  · rw [hheld]
    split_ifs
    · exact hself
    · exact hs.main_held
  · rw [hroot]
    by_cases hd : (t.get r).root = .disk
    · rw [if_pos hd, if_neg hne, if_pos rfl]
      exact hd
    · have hmr' : m ≠ r := by
        rintro rfl
        exact hd hs.main_root
      rw [if_neg hd, if_neg hmr', if_neg hms]
      exact hs.main_root
  · intro x hx h0
    rw [hroot] at h0
    split_ifs at h0 with hxr hxs
    · rw [if_pos h0]
      exact hxs
    · have hxm := hs.only_main x ((hheld x).mp hx) h0
      split_ifs with hd
      · exact absurd (hxm.trans (hmr hd)) hxr
      · exact hxm
  · intro x y hx hy
    rw [hroot] at hy
    rw [hheld]
    split_ifs at hy with hxr hxs
    · cases hy
      exact hself
    · exact hs.root_held r y hr hy
    · exact hs.root_held x y ((hheld x).mp hx) hy
  · intro x y hx hy
    rw [hroot] at hy
    unfold swapRank
    split_ifs at hy with hxr hxs
    · cases hy
      subst hxr
      rw [if_pos rfl, if_neg (Ne.symm hne)]
      omega
    · have hyr := hs.rank_lt r y hr hy
      have hys : y ≠ self := by
        rintro rfl
        omega
      rw [if_neg hys, if_pos hxs]
      omega
    · have hyx := hs.rank_lt x y ((hheld x).mp hx) hy
      rw [if_neg hxs]
      split_ifs with hys
      · subst hys
        omega
      · omega
  · intro z w hz hw
    rw [hheld]
    rcases hs.mem_children_exchange hsr hr ((hheld z).mp hz) hfree hw with ⟨-, rfl⟩ | ⟨-, rfl⟩ | ⟨hw', -, -⟩
    · exact hr
    · exact hself
    · exact hs.child_held z w ((hheld z).mp hz) hw'
  · intro z w hz hw
    rw [hroot]
    rcases hs.mem_children_exchange hsr hr ((hheld z).mp hz) hfree hw with ⟨rfl, rfl⟩ | ⟨hrz, rfl⟩ | ⟨hw', hws, hwr⟩
    · rw [if_pos rfl]
    · rw [if_neg hne, if_pos rfl]
      exact hrz
    · rw [if_neg hwr, if_neg hws]
      exact hs.child_root z w ((hheld z).mp hz) hw'
  · intro z hz
    rw [children_addChildOf, children_setRoot]
    have hnd : ((t.updateRootSimple self (.br r) (t.get r).root).get z).children.Nodup :=
      nodup_children_updateRootSimple (hs.nodup z ((hheld z).mp hz))
    split_ifs
    · exact hnd.insert
    · exact hnd
  · intro id hid
    simp only [branchList_addChildOf, branchList_setRoot, branchList_updateRootSimple] at hid
    exact (hheld id).mpr (hs.listed id hid)

/-- A shape does not read the main branch field of the tree. -/
theorem Shape.setMain (hs : Shape t m ρ) (n : ℕ) : Shape { t with main := n } m ρ :=
  hs.of_sublist rfl (fun _ => rfl) (fun _ => List.Sublist.refl _) (fun _ h => h)

/-- No branch lists the branch that hangs from the disk. -/
theorem Shape.main_not_mem_children (hs : Shape t m ρ) {x : ℕ} (hx : t.Held x) : m ∉ (t.get x).children := by
  intro hm
  have := hs.child_root x m hx hm
  rw [hs.main_root] at this
  cases this

/-! ## Forking, and the operations of the tree -/

/-- `ForkBranch` hands out the next id to an empty branch that hangs from `b` and is listed under it. -/
theorem ForkBranch_eq_some {d : Disk H} {b : Ref} {height n : ℕ} {hash : H}
    (h : t.ForkBranch d b height hash = some (n, t')) :
    ∃ (root : ℕ) (knot : Knot H), b = .br root ∧ n = t.idIdx + 1 ∧
      t' = ((({ t with idIdx := t.idIdx + 1 } : tree H).set (t.idIdx + 1)
        ⟨newBranchBase knot.Height knot.Hash knot.Height knot.Hash, .br root, []⟩).addChild root
        (t.idIdx + 1)).addBranch (t.idIdx + 1) := by
  cases b with
  | disk => cases h
  | br root =>
    unfold tree.ForkBranch at h
    dsimp only at h
    cases hk : t.getKnot d root height true with
    | none =>
      rw [hk] at h
      cases h
    | some knot =>
      rw [hk] at h
      cases h
      exact ⟨root, knot, rfl, rfl, rfl⟩

theorem ForkBranch_new {d : Disk H} {b : Ref} {height n : ℕ} {hash : H}
    (h : t.ForkBranch d b height hash = some (n, t')) : t'.main = t.main ∧ t'.Held n ∧ (t'.get n).root = b := by
  obtain ⟨root, knot, rfl, rfl, rfl⟩ := ForkBranch_eq_some h
  refine ⟨rfl, ⟨by omega, le_refl _⟩, ?_⟩
  simp

/-- The new branch sits just above the branch it forks from in the rank. -/
theorem Shape.ForkBranch (hs : Shape t m ρ) {d : Disk H} {b : Ref} {height n : ℕ} {hash : H} (hb : t.Holds b)
    (h : t.ForkBranch d b height hash = some (n, t')) : ∃ ρ', Shape t' m ρ' := by
  obtain ⟨root, knot, rfl, rfl, rfl⟩ := ForkBranch_eq_some h
  have hroot : t.Held root := hb
  have hne : ∀ x, t.Held x → x ≠ t.idIdx + 1 := by
    intro x hx hxN
    unfold Held at hx
    omega
  have hheld : ∀ x, (((({ t with idIdx := t.idIdx + 1 } : tree H).set (t.idIdx + 1)
      ⟨newBranchBase knot.Height knot.Hash knot.Height knot.Hash, .br root, []⟩).addChild root
      (t.idIdx + 1)).addBranch (t.idIdx + 1)).Held x ↔ t.Held x ∨ x = t.idIdx + 1 := by
    intro x
    simp only [Held, addBranch, addChild, set]
    omega
  have hold : ∀ x, t.Held x ∨ x = t.idIdx + 1 → x ≠ t.idIdx + 1 → t.Held x := fun x hx hxN => hx.resolve_right hxN
  refine ⟨Function.update ρ (t.idIdx + 1) (ρ root + 1), ?_⟩
  constructor
  · exact (hheld m).mpr (.inl hs.main_held)
  · simp only [get_addBranch, root_addChild, get_set, if_neg (hne m hs.main_held)]
    exact hs.main_root
  · intro x hx h0
    simp only [get_addBranch, root_addChild, get_set] at h0
    split_ifs at h0 with hxN
    exact hs.only_main x (hold x ((hheld x).mp hx) hxN) h0
  · intro x y hx hy
    simp only [get_addBranch, root_addChild, get_set] at hy
    rw [hheld]
    split_ifs at hy with hxN
    · cases hy
      exact .inl hroot
    · exact .inl (hs.root_held x y (hold x ((hheld x).mp hx) hxN) hy)
  · intro x y hx hy
    simp only [get_addBranch, root_addChild, get_set] at hy
    split_ifs at hy with hxN
    · cases hy
      rw [hxN, Function.update_self, Function.update_of_ne (hne root hroot)]
      omega
    · have hx' := hold x ((hheld x).mp hx) hxN
      rw [Function.update_of_ne (hne y (hs.root_held x y hx' hy)), Function.update_of_ne hxN]
      exact hs.rank_lt x y hx' hy
  · intro x v hx hv
    simp only [get_addBranch, children_addChild, get_set, if_neg (hne root hroot)] at hv
    rw [hheld]
    split_ifs at hv with hxr hxN
    · rcases List.mem_insert_iff.mp hv with rfl | hv
      · exact .inr rfl
      · exact .inl (hs.child_held root v hroot hv)
    · cases hv
    · exact .inl (hs.child_held x v (hold x ((hheld x).mp hx) hxN) hv)
  · intro x v hx hv
    simp only [get_addBranch, children_addChild, get_set, if_neg (hne root hroot)] at hv
    simp only [get_addBranch, root_addChild, get_set]
    split_ifs at hv with hxr hxN
    · subst hxr
      rcases List.mem_insert_iff.mp hv with rfl | hv
      · rw [if_pos rfl]
      · rw [if_neg (hne v (hs.child_held x v hroot hv))]
        exact hs.child_root x v hroot hv
    · cases hv
    · have hx' := hold x ((hheld x).mp hx) hxN
      rw [if_neg (hne v (hs.child_held x v hx' hv))]
      exact hs.child_root x v hx' hv
  · intro x hx
    simp only [get_addBranch, children_addChild, get_set, if_neg (hne root hroot)]
    split_ifs with hxr hxN
    · exact (hs.nodup root hroot).insert
    · exact List.nodup_nil
    · exact hs.nodup x (hold x ((hheld x).mp hx) hxN)
  · intro x hx
    rw [hheld]
    rcases List.mem_insert_iff.mp hx with rfl | hx
    · exact .inr rfl
    · exact .inl (hs.listed x hx)

theorem isLeafBranch_of_isGarbage {stale : ℕ → Bool} {id : ℕ} (h : t.isGarbage stale id = true) :
    isLeafBranch (t.get id) = true := by
  unfold isGarbage at h
  cases hl : isLeafBranch (t.get id)
  · rw [hl] at h
    cases h
  · rfl

variable [DecidableEq H]

theorem sameShape_knotRemove (t : tree H) (k : Knot H) : SameShape t (t.knotRemove k) :=
  ⟨Eq.refl _, Eq.refl _, Eq.refl _, fun _ => Eq.refl _, fun _ => Eq.refl _⟩

theorem sameShape_storeHash (t : tree H) (k : Knot H) : SameShape t (t.storeHash k) :=
  ⟨Eq.refl _, Eq.refl _, Eq.refl _, fun _ => Eq.refl _, fun _ => Eq.refl _⟩

variable {t t' : tree H}

theorem sameShape_addTailsFrom {root self n : ℕ} :
    ∀ {i : ℕ} {t t' : tree H}, t.addTailsFrom root self n i = some t' → SameShape t t' := by
  intro i t t' h
  exact addTailsFrom_rule (SameShape t) (fun t₁ _ _ b hs₁ _ _ => hs₁.trans (sameShape_setBase t₁ self b))
    SameShape.rfl h

theorem sameShape_destroyLoop {self n : ℕ} :
    ∀ {i : ℕ} {t t' : tree H}, t.destroyLoop self n i = some t' → SameShape t t' := by
  intro i t t' h
  apply destroyLoop_rule (SameShape t) _ SameShape.rfl h
  intro t₁ _ k b hs₁ _ _
  exact hs₁.trans ((sameShape_setBase t₁ self b).trans (sameShape_knotRemove _ k))

theorem sameShape_destroy {self : ℕ} (h : t.destroy self = some t') : SameShape t t' := by
  unfold tree.destroy at h
  obtain ⟨t₁, h₁, h⟩ := Option.bind_eq_some_iff.mp h
  split_ifs at h
  cases h
  exact sameShape_destroyLoop h₁

theorem sameShape_pruneLoop {d : Disk H} {self n : ℕ} :
    ∀ {i : ℕ} {removed removed' : Bool} {t t' : tree H},
      t.pruneLoop d self n i removed = some (t', removed') → SameShape t t' := by
  intro i removed removed' t t' h
  apply pruneLoop_rule (SameShape t) _ SameShape.rfl h
  intro t₁ _ block b _ base hs₁ _ _ _ _
  have hs₂ := hs₁.trans (sameShape_setBase t₁ self base)
  split
  · exact hs₂.trans (sameShape_knotRemove _ block)
  · exact hs₂

theorem sameShape_AddHead {b : Ref} {k : Knot H} {res : Except String Unit} (h : t.AddHead b k = some (res, t')) :
    SameShape t t' := by
  cases b with
  | disk =>
    obtain ⟨-, rfl⟩ := Prod.mk.inj (Option.some.inj h)
    exact SameShape.rfl
  | br id =>
    obtain ⟨base, -, h⟩ := Option.bind_eq_some_iff.mp h
    cases h
    exact (sameShape_setBase t id base).trans (sameShape_storeHash _ k)

theorem sameShape_AddTail {b : Ref} {k : Knot H} {res : Except String Unit} (h : t.AddTail b k = some (res, t')) :
    SameShape t t' := by
  cases b with
  | disk =>
    obtain ⟨-, rfl⟩ := Prod.mk.inj (Option.some.inj h)
    exact SameShape.rfl
  | br id =>
    obtain ⟨base, -, h⟩ := Option.bind_eq_some_iff.mp h
    cases h
    exact (sameShape_setBase t id base).trans (sameShape_storeHash _ k)

theorem sameShape_RemoveTail {b : Ref} {k : Knot H} {res : Except String Unit}
    (h : t.RemoveTail b k = some (res, t')) : SameShape t t' := by
  cases b with
  | disk =>
    obtain ⟨-, rfl⟩ := Prod.mk.inj (Option.some.inj h)
    exact SameShape.rfl
  | br id =>
    obtain ⟨base, -, h⟩ := Option.bind_eq_some_iff.mp h
    cases h
    exact (sameShape_setBase t id base).trans (sameShape_knotRemove _ k)

/-! ## Moving children -/

/-- `firstHolder` picks a branch among the targets: `ContainsKnot` panics on the disk. -/
theorem firstHolder_eq_some {d : Disk H} {h : ℕ} {hash : H} :
    ∀ {targets : List Ref} {r : Ref}, t.firstHolder d h hash targets = some r → ∃ y, r = .br y ∧ Ref.br y ∈ targets
  | [], r, hr => by cases hr
  | r' :: rs, r, hr => by
    unfold tree.firstHolder at hr
    obtain ⟨c, hc, hr⟩ := Option.bind_eq_some_iff.mp hr
    split_ifs at hr with hct
    · cases hr
      cases r' with
      | disk => cases hc
      | br y => exact ⟨y, rfl, List.mem_cons_self⟩
    · obtain ⟨y, rfl, hy⟩ := firstHolder_eq_some hr
      exact ⟨y, rfl, List.mem_cons_of_mem _ hy⟩

/-- The children loop keeps the shape when it moves children of `self` to branches below `self`. -/
theorem Shape.moveChildren {d : Disk H} {self : ℕ} {targets : List Ref} :
    ∀ {L : List ℕ} {t t' : tree H}, Shape t m ρ → t.Held self →
      (∀ y, Ref.br y ∈ targets → t.Held y ∧ ρ y < ρ self) →
      (∀ v ∈ L, v ∈ (t.get self).children) → L.Nodup →
      moveChildren d self targets L t = some t' → Shape t' m ρ
  | [], t, t', hs, _, _, _, _, h => by
    cases h
    exact hs
  | v :: L, t, t', hs, hself, htargets, hL, hnd, h => by
    unfold tree.moveChildren at h
    dsimp only at h
    have hL' : ∀ w ∈ L, w ∈ (t.get self).children := fun w hw => hL w (List.mem_cons_of_mem v hw)
    split_ifs at h with hc
    · exact Shape.moveChildren hs hself htargets hL' (List.nodup_cons.mp hnd).2 h
    obtain ⟨r, hr, h⟩ := Option.bind_eq_some_iff.mp h
    obtain ⟨y, rfl, hmem⟩ := firstHolder_eq_some hr
    -- `v` hangs from `self`, so it ranks above `self`, hence above `y`
    have hvself := hL v List.mem_cons_self
    have hv := hs.child_held self v hself hvself
    have hvroot := hs.child_root self v hself hvself
    obtain ⟨hy, hρy⟩ := htargets y hmem
    have hρv := hs.rank_lt v self hv hvroot
    have hs' := hs.updateRootSimple hv hvroot hy (by omega)
    have hheld : ∀ id, (t.updateRootSimple v (.br self) (.br y)).Held id ↔ t.Held id :=
      fun _ => held_of_idIdx (idIdx_updateRootSimple _ _ _ _)
    refine Shape.moveChildren hs' ((hheld self).mpr hself) (fun y' hy' => ?_) (fun w hw => ?_)
      (List.nodup_cons.mp hnd).2 h
    · obtain ⟨h1, h2⟩ := htargets y' hy'
      exact ⟨(hheld y').mpr h1, h2⟩
    · have hyself : y ≠ self := by
        rintro rfl
        omega
      have hwv : w ≠ v := fun hwv => (List.nodup_cons.mp hnd).1 (hwv ▸ hw)
      rw [children_updateRootSimple, if_neg (by simpa using hyself), if_pos rfl]
      exact (List.mem_erase_of_ne hwv).mpr (hL' w hw)

/-- With nothing stored, `self` holds no child's tail. -/
theorem contains_false_of_size_zero {d : Disk H} {self h : ℕ} {hash : H} (hsize : (t.get self).base.size = 0) :
    t.contains d self h hash false = false := by
  have hl : localContains (t.get self).base h hash = false := by
    unfold localContains branchBase.size at *
    rw [if_neg (by omega)]
  simp [contains, hl]

/-- When `self` stores nothing, the children loop moves every child it goes over away from `self`,
or panics. -/
theorem moveChildren_children_of_size_zero {d : Disk H} {self : ℕ} {targets : List Ref}
    (hnot : Ref.br self ∉ targets) :
    ∀ {L : List ℕ} {t t' : tree H}, (t.get self).children.Nodup → (t.get self).base.size = 0 →
      moveChildren d self targets L t = some t' →
      ∀ w ∈ (t'.get self).children, w ∈ (t.get self).children ∧ w ∉ L
  | [], t, t', _, _, h => by
    cases h
    intro w hw
    exact ⟨hw, List.not_mem_nil⟩
  | v :: L, t, t', hnd, hsize, h => by
    unfold tree.moveChildren at h
    dsimp only at h
    rw [if_neg (by rw [contains_false_of_size_zero hsize]; decide)] at h
    obtain ⟨r, hr, h⟩ := Option.bind_eq_some_iff.mp h
    obtain ⟨y, rfl, hmem⟩ := firstHolder_eq_some hr
    have hyself : y ≠ self := fun hy => hnot (hy ▸ hmem)
    -- after the move, `self` lists its old children but `v`
    have hchildren : ((t.updateRootSimple v (.br self) (.br y)).get self).children =
        (t.get self).children.erase v := by
      rw [children_updateRootSimple, if_neg (by simpa using hyself), if_pos rfl]
    have hnd₁ : ((t.updateRootSimple v (.br self) (.br y)).get self).children.Nodup := by
      rw [hchildren]
      exact hnd.erase v
    have hsize₁ : ((t.updateRootSimple v (.br self) (.br y)).get self).base.size = 0 := by
      rw [base_updateRootSimple]
      exact hsize
    intro w hw
    obtain ⟨hw₁, hwL⟩ := moveChildren_children_of_size_zero hnot hnd₁ hsize₁ h w hw
    rw [hchildren] at hw₁
    obtain ⟨hwv, hw₂⟩ := hnd.mem_erase_iff.mp hw₁
    exact ⟨hw₂, fun hw₃ => (List.mem_cons.mp hw₃).elim hwv hwL⟩

/-- A branch that stores nothing is left without children by the loop over all its children. -/
theorem moveChildren_children_eq_nil {d : Disk H} {self : ℕ} {targets : List Ref} (hnot : Ref.br self ∉ targets)
    (hnd : (t.get self).children.Nodup) (hsize : (t.get self).base.size = 0)
    (h : moveChildren d self targets (t.get self).children t = some t') : (t'.get self).children = [] := by
  apply List.eq_nil_iff_forall_not_mem.mpr
  intro w hw
  obtain ⟨hw₁, hw₂⟩ := moveChildren_children_of_size_zero hnot hnd hsize h w hw
  exact hw₂ hw₁

/-! ## What the rewiring calls keep: the ids handed out and the main branch -/

theorem sameIds_moveChildren {d : Disk H} {self : ℕ} {targets : List Ref} :
    ∀ {L : List ℕ} {t t' : tree H}, moveChildren d self targets L t = some t' → SameIds t t' := by
  intro L t t' h
  exact moveChildren_rule (SameIds t) (fun _ _ _ hs₁ _ => hs₁.trans (sameIds_updateRootSimple _ _ _ _))
    SameIds.rfl h

theorem sameIds_updateRoot {d : Disk H} {self : ℕ} {old new : Ref} (h : t.updateRoot d self old new = some t') :
    SameIds t t' :=
  (⟨by simp, by simp⟩ : SameIds t ((t.setRoot self new).addChildOf new self)).trans (sameIds_moveChildren h)

theorem sameIds_updateChildrenForRemoveTail {d : Disk H} {self : ℕ} {root : Ref}
    (h : t.updateChildrenForRemoveTail d self root = some t') : SameIds t t' := by
  cases root with
  | disk =>
    cases h
    exact SameIds.rfl
  | br r => exact sameIds_moveChildren h

theorem sameIds_exchangeRoot {d : Disk H} {self r : ℕ} {res : Except String Unit}
    (h : t.exchangeRoot d self r = some (res, t')) : SameIds t t' := by
  unfold tree.exchangeRoot at h
  dsimp only at h
  have h₁ : SameIds t (t.removeChildOf (t.get r).root r) := ⟨by simp, by simp⟩
  split_ifs at h with hne htail hrange
  · cases h
    exact SameIds.rfl
  · obtain ⟨t₃, h₃, h⟩ := Option.bind_eq_some_iff.mp h
    cases h
    exact h₁.trans ((sameIds_updateRootSimple _ _ _ _).trans (sameIds_updateRoot h₃))
  · obtain ⟨t₂, h₂, h⟩ := Option.bind_eq_some_iff.mp h
    obtain ⟨t₃, h₃, h⟩ := Option.bind_eq_some_iff.mp h
    cases h
    exact h₁.trans ((sameShape_addTailsFrom h₂).sameIds.trans
      ((sameIds_updateRootSimple _ _ _ _).trans (sameIds_updateRoot h₃)))
  · cases h
    exact h₁

theorem sameIds_exchangeAllRoot {d : Disk H} {self n : ℕ} :
    ∀ {t t' : tree H} {res : Except String Unit}, t.exchangeAllRoot d self n = some (res, t') → SameIds t t' := by
  intro t t' res h
  exact exchangeAllRoot_rule (SameIds t) (fun _ _ _ _ hs₁ _ h₁ => hs₁.trans (sameIds_exchangeRoot h₁))
    SameIds.rfl h

theorem sameIds_removeBranch {b : ℕ} {res : Except String Unit} (h : t.removeBranch b = some (res, t')) :
    SameIds t t' := by
  unfold tree.removeBranch at h
  by_cases hm : b = t.main
  · rw [if_pos hm] at h
    cases h
    exact SameIds.rfl
  rw [if_neg hm] at h
  cases hr : (t.get b).root with
  | disk =>
    rw [hr] at h
    cases h
    exact SameIds.rfl
  | br root =>
    rw [hr] at h
    dsimp only at h
    have h₁ : SameIds t ((t.removeChild root b).deleteBranch b) := ⟨rfl, rfl⟩
    split_ifs at h with hleaf hsize
    · obtain ⟨t₁, h₁', h⟩ := Option.bind_eq_some_iff.mp h
      cases h
      exact h₁.trans (sameShape_destroy h₁').sameIds
    · cases h
      exact h₁.trans (sameIds_foldl_addChild _ _ _)
    · cases h
      exact SameIds.rfl

theorem sameIds_pruneSelf {d : Disk H} {self : ℕ} (h : t.pruneSelf d self = some t') : SameIds t t' := by
  unfold tree.pruneSelf at h
  obtain ⟨⟨t₂, removed⟩, h₂, h⟩ := Option.bind_eq_some_iff.mp h
  have hids₂ := (sameShape_pruneLoop h₂).sameIds
  dsimp only at h
  split_ifs at h with hr
  · obtain ⟨t₃, h₃, h⟩ := Option.bind_eq_some_iff.mp h
    have hids₃ := hids₂.trans (sameIds_updateChildrenForRemoveTail h₃)
    split_ifs at h with hm
    · obtain ⟨⟨res, t₄⟩, h₄, rfl⟩ := Option.map_eq_some_iff.mp h
      exact hids₃.trans (sameIds_removeBranch h₄)
    · cases h
      exact hids₃
  · cases h
    exact hids₂

theorem sameIds_prune {d : Disk H} {n : ℕ} : ∀ {self : ℕ} {t t' : tree H}, t.prune d n self = some t' → SameIds t t' := by
  induction n with
  | zero =>
    intro self t t' h
    cases h
  | succ n ih =>
    intro self t t' h
    unfold tree.prune at h
    obtain ⟨t₁, h₁, h⟩ := Option.bind_eq_some_iff.mp h
    have hids₁ : SameIds t t₁ := by
      split at h₁
      · exact ih h₁
      · cases h₁
        exact SameIds.rfl
    exact hids₁.trans (sameIds_pruneSelf h)

/-! ## Exchanging a branch down to the disk -/

/-- The end of a successful `exchangeRoot`: after the swap, the old root's children move to `self`
or to the old root's root, both below the old root in the new rank. -/
theorem Shape.exchangeMove (hs : Shape t m ρ) {d : Disk H} {self r : ℕ} (hself : t.Held self)
    (hsr : (t.get self).root = .br r) (hfree : ∀ x, t.Held x → r ∉ (t.get x).children)
    (h : (t.updateRootSimple self (.br r) (t.get r).root).updateRoot d r (t.get r).root (.br self) = some t') :
    Shape t' (if (t.get r).root = .disk then self else m) (swapRank ρ self r) := by
  have hr : t.Held r := hs.root_held self r hself hsr
  have hρ : ρ r < ρ self := hs.rank_lt self r hself hsr
  have hrs : r ≠ self := by
    rintro rfl
    omega
  have hs₃ := hs.exchange hself hsr hfree
  have hheld : ∀ id, (((t.updateRootSimple self (.br r) (t.get r).root).setRoot r (.br self)).addChildOf
      (.br self) r).Held id ↔ t.Held id := fun _ => held_of_idIdx (by simp)
  unfold updateRoot at h
  refine hs₃.moveChildren ((hheld r).mpr hr) (fun y hy => ?_) (fun v hv => hv)
    (hs₃.nodup r ((hheld r).mpr hr)) h
  rw [hheld]
  unfold swapRank
  rcases List.mem_cons.mp hy with hy | hy
  · cases hy
    rw [if_pos rfl, if_neg hrs]
    exact ⟨hself, by omega⟩
  · have hry : (t.get r).root = .br y := (List.mem_singleton.mp hy).symm
    have hρy := hs.rank_lt r y hr hry
    have hys : y ≠ self := by
      rintro rfl
      omega
    rw [if_neg hys, if_neg hrs]
    exact ⟨hs.root_held r y hr hry, by omega⟩

/-- `exchangeRoot` keeps a shape: hanging from `self` if `self` reached the disk, else from the
same branch as before. -/
theorem Shape.exchangeRoot (hs : Shape t m ρ) {d : Disk H} {self r : ℕ} {res : Except String Unit}
    (hself : t.Held self) (h : t.exchangeRoot d self r = some (res, t')) :
    ∃ ρ', Shape t' m ρ' ∨ (res = .ok () ∧ Shape t' self ρ') := by
  unfold tree.exchangeRoot at h
  dsimp only at h
  by_cases hsr : Ref.br r = (t.get self).root
  swap
  · rw [if_pos hsr] at h
    cases h
    exact ⟨ρ, .inl hs⟩
  rw [if_neg (not_not_intro hsr)] at h
  have hheld₁ : ∀ id, (t.removeChildOf (t.get r).root r).Held id ↔ t.Held id :=
    fun _ => held_of_idIdx (by simp)
  have hs₁ := hs.removeChildOf (t.get r).root r
  -- both exchanging paths end in the same move, after `addTailsFrom` on the second
  have hok : ∀ t₂ t₃ : tree H, SameShape (t.removeChildOf (t.get r).root r) t₂ →
      (t₂.updateRootSimple self (.br r) (t.get r).root).updateRoot d r (t.get r).root (.br self) = some t₃ →
      ∃ ρ', Shape t₃ m ρ' ∨ (Except.ok () = (Except.ok () : Except String Unit) ∧ Shape t₃ self ρ') := by
    intro t₂ t₃ h₂ h₃
    have hrr : (t₂.get r).root = (t.get r).root := by rw [h₂.root, root_removeChildOf]
    rw [← hrr] at h₃
    have hm := (hs₁.of_sameShape h₂).exchangeMove (h₂.sameIds.held.mpr ((hheld₁ self).mpr hself))
      (by rw [h₂.root, root_removeChildOf, ← hsr])
      (fun x hx => by
        rw [h₂.children]
        exact hs.not_mem_children_removeChildOf ((hheld₁ x).mp (h₂.sameIds.held.mp hx))) h₃
    refine ⟨swapRank ρ self r, ?_⟩
    split_ifs at hm
    · exact .inr ⟨rfl, hm⟩
    · exact .inl hm
  split_ifs at h with htail hrange
  · obtain ⟨t₃, h₃, h⟩ := Option.bind_eq_some_iff.mp h
    cases h
    exact hok _ _ SameShape.rfl h₃
  · obtain ⟨t₂, h₂, h⟩ := Option.bind_eq_some_iff.mp h
    obtain ⟨t₃, h₃, h⟩ := Option.bind_eq_some_iff.mp h
    cases h
    exact hok _ _ (sameShape_addTailsFrom h₂) h₃
  · cases h
    exact ⟨ρ, .inl hs₁⟩

/-- `exchangeAllRoot` ends with the shape hanging from `self` when it succeeds, and from the branch
it hung from before when an exchange fails. -/
theorem Shape.exchangeAllRoot {d : Disk H} {self n : ℕ} {res : Except String Unit} (hs : Shape t m ρ)
    (hself : t.Held self) (h : t.exchangeAllRoot d self n = some (res, t')) :
    (res = .ok () → ∃ ρ', Shape t' self ρ') ∧ (∀ e, res = .error e → ∃ ρ', Shape t' m ρ') := by
  induction n generalizing m ρ t with
  | zero => cases h
  | succ n ih =>
    unfold tree.exchangeAllRoot at h
    split at h
    · rename_i hroot
      cases h
      have hsm := hs.only_main self hself hroot
      subst hsm
      exact ⟨fun _ => ⟨ρ, hs⟩, fun e he => by cases he⟩
    · obtain ⟨⟨res₁, t₁⟩, h₁, h⟩ := Option.bind_eq_some_iff.mp h
      have hself₁ : t₁.Held self := (sameIds_exchangeRoot h₁).held.mpr hself
      dsimp only at h
      obtain ⟨ρ₁, hs₁ | ⟨rfl, hs₁⟩⟩ := hs.exchangeRoot hself h₁
      · cases res₁ with
        | error e =>
          cases h
          exact ⟨(fun he => by cases he), fun _ _ => ⟨ρ₁, hs₁⟩⟩
        | ok u => exact ih hs₁ hself₁ h
      · -- `self` hangs from the disk now, so the next round stops with success
        cases n with
        | zero => cases h
        | succ n =>
          unfold tree.exchangeAllRoot at h
          simp only [hs₁.main_root] at h
          cases h
          exact ⟨fun _ => ⟨ρ₁, hs₁⟩, fun e he => by cases he⟩

/-! ## Pruning -/

/-- `removeBranch` keeps the shape unless it takes its error path that lists the children of an
empty branch under its root; a branch from the disk, or a leaf, never gets there. -/
theorem Shape.removeBranch (hs : Shape t m ρ) {b : ℕ} {res : Except String Unit}
    (hb : (t.get b).root = .disk ∨ isLeafBranch (t.get b) = true) (h : t.removeBranch b = some (res, t')) :
    Shape t' m ρ := by
  unfold tree.removeBranch at h
  by_cases hm : b = t.main
  · rw [if_pos hm] at h
    cases h
    exact hs
  rw [if_neg hm] at h
  cases hr : (t.get b).root with
  | disk =>
    rw [hr] at h
    cases h
    exact hs
  | br root =>
    rw [hr] at h
    dsimp only at h
    have hleaf : isLeafBranch (t.get b) = true := hb.resolve_left (by rw [hr]; exact Ref.noConfusion)
    rw [if_pos hleaf] at h
    obtain ⟨t₁, h₁, h⟩ := Option.bind_eq_some_iff.mp h
    cases h
    exact ((hs.removeChild root b).deleteBranch b).of_sameShape (sameShape_destroy h₁)

theorem Shape.updateChildrenForRemoveTail (hs : Shape t m ρ) {d : Disk H} {self : ℕ} (hself : t.Held self)
    (h : t.updateChildrenForRemoveTail d self (t.get self).root = some t') : Shape t' m ρ := by
  cases hr : (t.get self).root with
  | disk =>
    rw [hr] at h
    cases h
    exact hs
  | br r =>
    rw [hr] at h
    refine hs.moveChildren hself (fun y hy => ?_) (fun v hv => hv) (hs.nodup self hself) h
    cases List.mem_singleton.mp hy
    exact ⟨hs.root_held self r hself hr, hs.rank_lt self r hself hr⟩

/-- Once the tail moved up, a branch that stores nothing hangs from the disk or has no child left. -/
theorem Shape.updateChildrenForRemoveTail_leaf (hs : Shape t m ρ) {d : Disk H} {self : ℕ} (hself : t.Held self)
    (h : t.updateChildrenForRemoveTail d self (t.get self).root = some t') (hsize : (t.get self).base.size = 0) :
    (t'.get self).root = .disk ∨ isLeafBranch (t'.get self) = true := by
  cases hr : (t.get self).root with
  | disk =>
    rw [hr] at h
    cases h
    exact .inl hr
  | br r =>
    rw [hr] at h
    have hρ := hs.rank_lt self r hself hr
    have hnot : Ref.br self ∉ [Ref.br r] := by
      intro hmem
      cases List.mem_singleton.mp hmem
      omega
    right
    unfold isLeafBranch
    rw [moveChildren_children_eq_nil hnot (hs.nodup self hself) hsize h]
    rfl

theorem Shape.pruneSelf (hs : Shape t m ρ) {d : Disk H} {self : ℕ} (hself : t.Held self)
    (h : t.pruneSelf d self = some t') : Shape t' m ρ := by
  unfold tree.pruneSelf at h
  obtain ⟨⟨t₂, removed⟩, h₂, h⟩ := Option.bind_eq_some_iff.mp h
  have hsame := sameShape_pruneLoop h₂
  have hs₂ := hs.of_sameShape hsame
  have hself₂ : t₂.Held self := hsame.sameIds.held.mpr hself
  dsimp only at h
  split_ifs at h with hr
  · obtain ⟨t₃, h₃, h⟩ := Option.bind_eq_some_iff.mp h
    have hs₃ := hs₂.updateChildrenForRemoveTail hself₂ h₃
    split_ifs at h with hm
    · obtain ⟨⟨res, t₄⟩, h₄, rfl⟩ := Option.map_eq_some_iff.mp h
      -- the size is read after the children moved, which leaves the bases as they are
      have hsize : (t₂.get self).base.size = 0 := by
        rw [← updateChildrenForRemoveTail_base h₃]
        exact hm.2
      exact hs₃.removeBranch (hs₂.updateChildrenForRemoveTail_leaf hself₂ h₃ hsize) h₄
    · cases h
      exact hs₃
  · cases h
    exact hs₂

theorem Shape.prune (hs : Shape t m ρ) {d : Disk H} {n self : ℕ} (hself : t.Held self)
    (h : t.prune d n self = some t') : Shape t' m ρ := by
  induction n generalizing self t t' with
  | zero => cases h
  | succ n ih =>
    unfold tree.prune at h
    obtain ⟨t₁, h₁, h⟩ := Option.bind_eq_some_iff.mp h
    -- the root is pruned first
    have hs₁ : Shape t₁ m ρ ∧ SameIds t t₁ := by
      split at h₁
      · rename_i r hr
        exact ⟨ih hs (hs.root_held self r hself hr) h₁, sameIds_prune h₁⟩
      · cases h₁
        exact ⟨hs, SameIds.rfl⟩
    exact hs₁.1.pruneSelf (hs₁.2.held.mpr hself) h

/-- `RootHeadAdd` keeps a shape hanging from the main branch; when it forks, the new branch swaps
places with the old main branch and becomes the main one. -/
theorem Shape.RootHeadAdd (hs : Shape t t.main ρ) {d : Disk H} {k : Knot H} {res : Except String Unit}
    (h : t.RootHeadAdd d k = some (res, t')) : ∃ ρ', Shape t' t'.main ρ' := by
  unfold tree.RootHeadAdd at h
  dsimp only at h
  split_ifs at h with hprev hmatch hcont
  · obtain ⟨b, hb, h⟩ := Option.bind_eq_some_iff.mp h
    obtain ⟨b', hb', h⟩ := Option.bind_eq_some_iff.mp h
    cases h
    exact ⟨ρ, hs.of_sameShape ((sameShape_setBase _ _ _).trans (sameShape_setBase _ _ _))⟩
  · refine ⟨ρ, ?_⟩
    rw [(sameShape_RemoveTail h).main]
    exact hs.of_sameShape (sameShape_RemoveTail h)
  · obtain ⟨⟨n, t₁⟩, h₁, h⟩ := Option.bind_eq_some_iff.mp h
    dsimp only at h
    obtain ⟨b, hb, h⟩ := Option.bind_eq_some_iff.mp h
    obtain ⟨b', hb', h⟩ := Option.bind_eq_some_iff.mp h
    obtain ⟨t₃, h₃, h⟩ := Option.bind_eq_some_iff.mp h
    cases h
    obtain ⟨ρ₁, hs₁⟩ := hs.ForkBranch (b := .br t.main) hs.main_held h₁
    obtain ⟨-, hn₁, hroot₁⟩ := ForkBranch_new h₁
    have hsame : SameShape t₁ ((t₁.setBase n b).setBase n b') :=
      (sameShape_setBase _ _ _).trans (sameShape_setBase _ _ _)
    have hs₂ := hs₁.of_sameShape hsame
    have hroot₂ : (((t₁.setBase n b).setBase n b').get t.main).root = .disk := hs₂.main_root
    -- the main branch hangs from the disk whichever of the two hangs there after the first move
    have hroot₃ : ((((t₁.setBase n b).setBase n b').updateRootSimple n (.br t.main) .disk).get t.main).root =
        .disk := by
      rw [root_updateRootSimple]
      split_ifs
      · rfl
      · exact hroot₂
    rw [hroot₃, ← hroot₂] at h₃
    have hs₃ := hs₂.exchangeMove (hsame.sameIds.held.mpr hn₁) (by rw [hsame.root]; exact hroot₁)
      (fun x hx => hs₂.main_not_mem_children hx) h₃
    rw [if_pos hroot₂] at hs₃
    exact ⟨_, hs₃.setMain n⟩

theorem Shape.SwitchMainTo (hs : Shape t t.main ρ) {d : Disk H} {fuel : ℕ} {b : Ref} {res : Except String Unit}
    (hb : t.Holds b) (h : t.SwitchMainTo d fuel b = some (res, t')) : ∃ ρ', Shape t' t'.main ρ' := by
  cases b with
  | disk =>
    cases h
    exact ⟨ρ, hs⟩
  | br target =>
    unfold tree.SwitchMainTo at h
    dsimp only at h
    split_ifs at h with hm
    · cases h
      exact ⟨ρ, hs⟩
    obtain ⟨t₁, h₁, h⟩ := Option.bind_eq_some_iff.mp h
    obtain ⟨⟨res₂, t₂⟩, h₂, h⟩ := Option.bind_eq_some_iff.mp h
    have hids₁ := sameIds_prune h₁
    have hids₂ := sameIds_exchangeAllRoot h₂
    obtain ⟨hok, herr⟩ := (hs.prune hb h₁).exchangeAllRoot (hids₁.held.mpr hb) h₂
    dsimp only at h
    cases res₂ with
    | error e =>
      cases h
      obtain ⟨ρ', hs'⟩ := herr e rfl
      refine ⟨ρ', ?_⟩
      rw [hids₂.main, hids₁.main]
      exact hs'
    | ok u =>
      dsimp only at h
      split_ifs at h
      cases h
      obtain ⟨ρ', hs'⟩ := hok rfl
      exact ⟨ρ', hs'.setMain target⟩

theorem Shape.SwitchMainToEmpty (hs : Shape t t.main ρ) {d : Disk H} {fuel : ℕ} {order : List ℕ}
    {res : Except String Unit} (horder : ∀ c ∈ order, c ∈ t.branchList)
    (h : t.SwitchMainToEmpty d fuel order = some (res, t')) : ∃ ρ', Shape t' t'.main ρ' := by
  unfold tree.SwitchMainToEmpty at h
  split_ifs at h with hsize
  · cases h
    exact ⟨ρ, hs⟩
  split at h
  · rename_i c hc
    exact hs.SwitchMainTo (b := .br c) (hs.listed c (horder c (List.mem_of_find?_eq_some hc))) h
  · obtain ⟨⟨c, t₁⟩, h₁, h⟩ := Option.bind_eq_some_iff.mp h
    dsimp only at h
    obtain ⟨ρ₁, hs₁⟩ := hs.ForkBranch (b := .br t.main) hs.main_held h₁
    obtain ⟨hmain₁, hc₁, -⟩ := ForkBranch_new h₁
    rw [← hmain₁] at hs₁
    exact hs₁.SwitchMainTo (b := .br c) hc₁ h

theorem Shape.pruneAll {d : Disk H} {fuel : ℕ} :
    ∀ {order : List ℕ} {t t' : tree H}, Shape t m ρ → pruneAll d fuel order t = some t' → Shape t' m ρ := by
  intro order t t' hs h
  exact pruneAll_rule (Shape · m ρ) (fun _ id _ hs₁ hid _ h₁ => hs₁.prune (hs₁.listed id hid) h₁) hs h

theorem sameIds_pruneAll {d : Disk H} {fuel : ℕ} :
    ∀ {order : List ℕ} {t t' : tree H}, pruneAll d fuel order t = some t' → SameIds t t' := by
  intro order t t' h
  exact pruneAll_rule (SameIds t) (fun _ _ _ hs₁ _ _ h₁ => hs₁.trans (sameIds_prune h₁)) SameIds.rfl h

theorem Shape.removeGarbage {stale : ℕ → Bool} :
    ∀ {order rs : List ℕ} {t t' : tree H}, Shape t m ρ → removeGarbage stale order t = some (rs, t') → Shape t' m ρ := by
  intro order rs t t' hs h
  apply removeGarbage_rule (Shape · m ρ) _ hs h
  -- only garbage is removed, and garbage is a leaf
  intro t₁ _ _ _ hs₁ _ _ hg h₁
  exact hs₁.removeBranch (.inr (isLeafBranch_of_isGarbage hg)) h₁

theorem sameIds_removeGarbage {stale : ℕ → Bool} :
    ∀ {order rs : List ℕ} {t t' : tree H}, removeGarbage stale order t = some (rs, t') → SameIds t t' := by
  intro order rs t t' h
  exact removeGarbage_rule (SameIds t) (fun _ _ _ _ hs₁ _ _ _ h₁ => hs₁.trans (sameIds_removeBranch h₁))
    SameIds.rfl h

theorem Shape.PruneTree (hs : Shape t t.main ρ) {d : Disk H} {fuel : ℕ} {stale : ℕ → Bool} {order₁ order₂ rs : List ℕ}
    (h : t.PruneTree d fuel stale order₁ order₂ = some (rs, t')) : Shape t' t'.main ρ := by
  unfold tree.PruneTree at h
  split_ifs at h
  obtain ⟨t₁, h₁, h⟩ := Option.bind_eq_some_iff.mp h
  rw [(sameIds_removeGarbage h).main, (sameIds_pruneAll h₁).main]
  exact (hs.pruneAll h₁).removeGarbage h

end tree

end Vite.Pool
