import Vite.Pool.Shape

/-!
# The main branch continues the disk (ledger/pool/tree/branch.go, tree_impl.go)

`Linked(disk)` of the main branch: its tail is the disk's head, so the chain the pool takes as
current is the disk chain with the main branch's knots on top. The calls that move knots change the
base of one branch each (`OnlyBase`), so `prune` and `exchangeAllRoot` of a branch other than the
main one leave the main one's base as it is; `prune` of the main branch itself drops nothing, since
the disk has no block above its head (`pruneSelf_main_base`). `RootHeadAdd` moves the main tail up
with the disk's head, and `SwitchMainTo` makes a branch the main one only once it is linked.
-/

namespace Vite.Pool

namespace tree

variable {H : Type} {t t' : tree H} {d : Disk H} {ρ : ℕ → ℕ}

/-! ## One base at a time -/

/-- `t'` differs from `t` in the base of `self` at most. -/
def OnlyBase (self : ℕ) (t t' : tree H) : Prop := ∀ id, id ≠ self → (t'.get id).base = (t.get id).base

theorem OnlyBase.rfl {self : ℕ} : OnlyBase self t t := fun _ _ => Eq.refl _

theorem OnlyBase.trans {self : ℕ} {t₁ t₂ t₃ : tree H} (h₁ : OnlyBase self t₁ t₂) (h₂ : OnlyBase self t₂ t₃) :
    OnlyBase self t₁ t₃ :=
  fun id hid => (h₂ id hid).trans (h₁ id hid)

theorem OnlyBase.of_base_eq {self : ℕ} (h : ∀ id, (t'.get id).base = (t.get id).base) : OnlyBase self t t' :=
  fun id _ => h id

theorem onlyBase_setBase (t : tree H) (self : ℕ) (b : branchBase H) : OnlyBase self t (t.setBase self b) := by
  intro id hid
  rw [base_setBase, if_neg hid]

/-- `ForkBranch` writes the base of the new branch only. -/
theorem base_ForkBranch {b : Ref} {height n : ℕ} {hash : H} (h : t.ForkBranch d b height hash = some (n, t'))
    {id : ℕ} (hid : id ≠ n) : (t'.get id).base = (t.get id).base := by
  obtain ⟨root, knot, rfl, rfl, rfl⟩ := ForkBranch_eq_some h
  simp only [get_addBranch, base_addChild, get_set, if_neg hid]
  rfl

@[simp] theorem HeadHH_disk (t : tree H) (d : Disk H) : t.HeadHH d .disk = d.head := rfl

variable [DecidableEq H]

theorem linked_disk_iff {self : ℕ} :
    t.Linked d self .disk = true ↔ (t.get self).base.tailHeight = d.head.1 ∧ (t.get self).base.tailHash = d.head.2 := by
  rw [Linked, HeadHH_disk]
  exact decide_eq_true_iff

/-- Whether a branch hangs on the disk's head depends on its base only. -/
theorem linked_disk_of_base_eq {s s' : ℕ} (h : (t'.get s').base = (t.get s).base) :
    t'.Linked d s' .disk = t.Linked d s .disk := by
  rw [Linked, Linked, h, HeadHH_disk, HeadHH_disk]

theorem onlyBase_addTailsFrom {root self n : ℕ} :
    ∀ {i : ℕ} {t t' : tree H}, t.addTailsFrom root self n i = some t' → OnlyBase self t t' := by
  intro i t t' h
  exact addTailsFrom_rule (OnlyBase self t) (fun _ _ _ _ hb₁ _ _ => hb₁.trans (onlyBase_setBase _ _ _))
    OnlyBase.rfl h

theorem onlyBase_exchangeRoot {self r : ℕ} {res : Except String Unit} (h : t.exchangeRoot d self r = some (res, t')) :
    OnlyBase self t t' := by
  unfold tree.exchangeRoot at h
  dsimp only at h
  have h₁ : OnlyBase self t (t.removeChildOf (t.get r).root r) := OnlyBase.of_base_eq (base_removeChildOf _ _ _)
  split_ifs at h with hne htail hrange
  · cases h
    exact OnlyBase.rfl
  · obtain ⟨t₃, h₃, h⟩ := Option.bind_eq_some_iff.mp h
    cases h
    exact h₁.trans (OnlyBase.of_base_eq fun id => by rw [updateRoot_base h₃, base_updateRootSimple])
  · obtain ⟨t₂, h₂, h⟩ := Option.bind_eq_some_iff.mp h
    obtain ⟨t₃, h₃, h⟩ := Option.bind_eq_some_iff.mp h
    cases h
    exact h₁.trans ((onlyBase_addTailsFrom h₂).trans
      (OnlyBase.of_base_eq fun id => by rw [updateRoot_base h₃, base_updateRootSimple]))
  · cases h
    exact h₁

theorem onlyBase_exchangeAllRoot {self n : ℕ} :
    ∀ {t t' : tree H} {res : Except String Unit}, t.exchangeAllRoot d self n = some (res, t') → OnlyBase self t t' := by
  intro t t' res h
  exact exchangeAllRoot_rule (OnlyBase self t) (fun _ _ _ _ hb₁ _ h₁ => hb₁.trans (onlyBase_exchangeRoot h₁))
    OnlyBase.rfl h

theorem onlyBase_destroyLoop {self n : ℕ} :
    ∀ {i : ℕ} {t t' : tree H}, t.destroyLoop self n i = some t' → OnlyBase self t t' := by
  intro i t t' h
  apply destroyLoop_rule (OnlyBase self t) _ OnlyBase.rfl h
  intro _ _ _ _ hb₁ _ _
  exact (hb₁.trans (onlyBase_setBase _ _ _)).trans (OnlyBase.of_base_eq (base_knotRemove _ _))

theorem onlyBase_destroy {self : ℕ} (h : t.destroy self = some t') : OnlyBase self t t' := by
  unfold tree.destroy at h
  obtain ⟨t₁, h₁, h⟩ := Option.bind_eq_some_iff.mp h
  split_ifs at h
  cases h
  exact onlyBase_destroyLoop h₁

theorem onlyBase_removeBranch {b : ℕ} {res : Except String Unit} (h : t.removeBranch b = some (res, t')) :
    OnlyBase b t t' := by
  unfold tree.removeBranch at h
  by_cases hm : b = t.main
  · rw [if_pos hm] at h
    cases h
    exact OnlyBase.rfl
  rw [if_neg hm] at h
  cases hr : (t.get b).root with
  | disk =>
    rw [hr] at h
    cases h
    exact OnlyBase.rfl
  | br root =>
    rw [hr] at h
    dsimp only at h
    have h₁ : OnlyBase b t ((t.removeChild root b).deleteBranch b) := OnlyBase.of_base_eq (base_removeChild _ _ _)
    split_ifs at h with hleaf hsize
    · obtain ⟨t₂, h₂, h⟩ := Option.bind_eq_some_iff.mp h
      cases h
      exact h₁.trans (onlyBase_destroy h₂)
    · cases h
      exact h₁.trans (OnlyBase.of_base_eq (foldl_addChild_base _ _ _))
    · cases h
      exact OnlyBase.rfl

theorem onlyBase_pruneLoop {self n : ℕ} :
    ∀ {i : ℕ} {removed removed' : Bool} {t t' : tree H},
      t.pruneLoop d self n i removed = some (t', removed') → OnlyBase self t t' := by
  intro i removed removed' t t' h
  apply pruneLoop_rule (OnlyBase self t) _ OnlyBase.rfl h
  intro t₁ _ _ b _ base hb₁ _ _ _ _
  have hb₂ := hb₁.trans (onlyBase_setBase t₁ self base)
  split
  · exact hb₂.trans (OnlyBase.of_base_eq (base_knotRemove _ _))
  · exact hb₂

theorem onlyBase_pruneSelf {self : ℕ} (h : t.pruneSelf d self = some t') : OnlyBase self t t' := by
  unfold tree.pruneSelf at h
  obtain ⟨⟨t₂, removed⟩, h₂, h⟩ := Option.bind_eq_some_iff.mp h
  have h₂' := onlyBase_pruneLoop h₂
  dsimp only at h
  split_ifs at h with hr
  · obtain ⟨t₃, h₃, h⟩ := Option.bind_eq_some_iff.mp h
    have h₃' := h₂'.trans (OnlyBase.of_base_eq (updateChildrenForRemoveTail_base h₃))
    split_ifs at h with hm
    · obtain ⟨⟨res, t₄⟩, h₄, rfl⟩ := Option.map_eq_some_iff.mp h
      exact h₃'.trans (onlyBase_removeBranch h₄)
    · cases h
      exact h₃'
  · cases h
    exact h₂'

/-! ## Pruning keeps the main branch's base -/

/-- The loop of `prune` stops at once when the root has no knot just above the tail. -/
theorem pruneLoop_of_none {self i : ℕ} {removed : Bool} (h : t.GetKnotAndBranch d (t.get self).root i = none) :
    ∀ n, t.pruneLoop d self n i removed = some (t, removed)
  | 0 => rfl
  | n + 1 => by
    unfold tree.pruneLoop
    rw [h]

/-- `pruneSelf` leaves the main branch's base as it is: another branch changes only its own base,
and the main branch, linked to the disk, finds no block above the disk's head to drop. -/
theorem pruneSelf_main_base (hs : Shape t t.main ρ) (habove : ∀ h, d.head.1 < h → d.getBlock h = none)
    (hl : t.Linked d t.main .disk = true) {self : ℕ} (h : t.pruneSelf d self = some t') :
    (t'.get t'.main).base = (t.get t.main).base := by
  rw [(sameIds_pruneSelf h).main]
  by_cases hself : self = t.main
  · subst hself
    have hnone : t.GetKnotAndBranch d (t.get t.main).root ((t.get t.main).base.tailHeight + 1) = none := by
      rw [hs.main_root, (linked_disk_iff.mp hl).1]
      simp [GetKnotAndBranch, habove _ (Nat.lt_succ_self _)]
    unfold tree.pruneSelf at h
    obtain ⟨⟨t₂, removed⟩, h₂, h⟩ := Option.bind_eq_some_iff.mp h
    rw [pruneLoop_of_none hnone] at h₂
    cases h₂
    dsimp only at h
    rw [if_neg Bool.false_ne_true] at h
    cases h
    rfl
  · exact onlyBase_pruneSelf h t.main (Ne.symm hself)

/-- `prune` keeps the shape, and with it the main branch's base. -/
theorem prune_main_base (hs : Shape t t.main ρ) (habove : ∀ h, d.head.1 < h → d.getBlock h = none)
    (hl : t.Linked d t.main .disk = true) {n self : ℕ} (hself : t.Held self) (h : t.prune d n self = some t') :
    (t'.get t'.main).base = (t.get t.main).base := by
  induction n generalizing self t t' with
  | zero => cases h
  | succ n ih =>
    unfold tree.prune at h
    obtain ⟨t₁, h₁, h⟩ := Option.bind_eq_some_iff.mp h
    -- the root is pruned first, keeping the shape and the main base
    have h₁' : Shape t₁ t₁.main ρ ∧ (t₁.get t₁.main).base = (t.get t.main).base := by
      split at h₁
      · rename_i r hr
        refine ⟨?_, ih hs hl (hs.root_held self r hself hr) h₁⟩
        rw [(sameIds_prune h₁).main]
        exact hs.prune (hs.root_held self r hself hr) h₁
      · cases h₁
        exact ⟨hs, rfl⟩
    have hl₁ : t₁.Linked d t₁.main .disk = true := by
      rw [linked_disk_of_base_eq h₁'.2]
      exact hl
    exact (pruneSelf_main_base h₁'.1 habove hl₁ h).trans h₁'.2

/-! ## The tree's operations keep the main branch on the disk's head -/

/-- A main branch whose base is kept stays linked. -/
theorem linked_of_main_base (hl : t.Linked d t.main .disk = true) (h : (t'.get t'.main).base = (t.get t.main).base) :
    t'.Linked d t'.main .disk = true := by
  rw [linked_disk_of_base_eq h]
  exact hl

theorem linked_ForkBranch (hm : t.Held t.main) (hl : t.Linked d t.main .disk = true) {b : Ref} {height n : ℕ}
    {hash : H} (h : t.ForkBranch d b height hash = some (n, t')) : t'.Linked d t'.main .disk = true := by
  obtain ⟨-, -, -, rfl, -⟩ := ForkBranch_eq_some h
  have hne : t.main ≠ t.idIdx + 1 := by
    unfold Held at hm
    omega
  apply linked_of_main_base hl
  rw [(ForkBranch_new h).1]
  exact base_ForkBranch h hne

theorem linked_AddHead (hl : t.Linked d t.main .disk = true) {b : Ref} {k : Knot H} {res : Except String Unit}
    (h : t.AddHead b k = some (res, t')) : t'.Linked d t'.main .disk = true := by
  cases b with
  | disk =>
    cases h
    exact hl
  | br id =>
    obtain ⟨base, hb, h⟩ := Option.bind_eq_some_iff.mp h
    cases h
    rw [linked_disk_iff] at hl ⊢
    show ((t.setBase id base).get t.main).base.tailHeight = d.head.1 ∧
      ((t.setBase id base).get t.main).base.tailHash = d.head.2
    rw [base_setBase]
    split_ifs with hid
    · subst hid
      rw [(branchBase.tail_addHead hb).1, (branchBase.tail_addHead hb).2]
      exact hl
    · exact hl

/-- `RootHeadAdd` of `k` leaves the main branch, old or new, with `k` as its tail. -/
theorem tail_RootHeadAdd {k : Knot H} {res : Except String Unit} (h : t.RootHeadAdd d k = some (res, t')) :
    (t'.get t'.main).base.tailHeight = k.Height ∧ (t'.get t'.main).base.tailHash = k.Hash := by
  unfold tree.RootHeadAdd at h
  dsimp only at h
  split_ifs at h with hprev hmatch hcont
  · obtain ⟨b, hb, h⟩ := Option.bind_eq_some_iff.mp h
    obtain ⟨b', hb', h⟩ := Option.bind_eq_some_iff.mp h
    cases h
    show (((t.setBase t.main b).setBase t.main b').get t.main).base.tailHeight = k.Height ∧
      (((t.setBase t.main b).setBase t.main b').get t.main).base.tailHash = k.Hash
    rw [base_setBase, if_pos rfl]
    exact branchBase.tail_removeTail hb'
  · obtain ⟨base, hb, h⟩ := Option.bind_eq_some_iff.mp h
    cases h
    show ((t.setBase t.main base).get t.main).base.tailHeight = k.Height ∧
      ((t.setBase t.main base).get t.main).base.tailHash = k.Hash
    rw [base_setBase, if_pos rfl]
    exact branchBase.tail_removeTail hb
  · obtain ⟨⟨n, t₁⟩, h₁, h⟩ := Option.bind_eq_some_iff.mp h
    dsimp only at h
    obtain ⟨b, hb, h⟩ := Option.bind_eq_some_iff.mp h
    obtain ⟨b', hb', h⟩ := Option.bind_eq_some_iff.mp h
    obtain ⟨t₃, h₃, h⟩ := Option.bind_eq_some_iff.mp h
    cases h
    -- the new main branch `n` keeps through the rewiring the base that let go of `k`
    have hbase : (t₃.get n).base = b' := by
      rw [updateRoot_base h₃, base_updateRootSimple, base_setBase, if_pos rfl]
    show (t₃.get n).base.tailHeight = k.Height ∧ (t₃.get n).base.tailHash = k.Hash
    rw [hbase]
    exact branchBase.tail_removeTail hb'

/-- The disk after it took `k` is linked to the main branch after `RootHeadAdd` of `k`. -/
theorem linked_RootHeadAdd {k : Knot H} {res : Except String Unit} (hhead : d.head = (k.Height, k.Hash))
    (h : t.RootHeadAdd d k = some (res, t')) : t'.Linked d t'.main .disk = true := by
  rw [linked_disk_iff, hhead]
  exact tail_RootHeadAdd h

theorem linked_SwitchMainTo (hs : Shape t t.main ρ) (habove : ∀ h, d.head.1 < h → d.getBlock h = none)
    (hl : t.Linked d t.main .disk = true) {fuel : ℕ} {b : Ref} {res : Except String Unit} (hb : t.Holds b)
    (h : t.SwitchMainTo d fuel b = some (res, t')) : t'.Linked d t'.main .disk = true := by
  cases b with
  | disk =>
    cases h
    exact hl
  | br target =>
    unfold tree.SwitchMainTo at h
    dsimp only at h
    split_ifs at h with hm
    · cases h
      exact hl
    obtain ⟨t₁, h₁, h⟩ := Option.bind_eq_some_iff.mp h
    obtain ⟨⟨res₂, t₂⟩, h₂, h⟩ := Option.bind_eq_some_iff.mp h
    have hmain₁ := (sameIds_prune h₁).main
    have hmain₂ := (sameIds_exchangeAllRoot h₂).main
    -- pruning keeps the main base, and the exchanges move the target's base only
    have hl₂ : t₂.Linked d t₂.main .disk = true := by
      apply linked_of_main_base (linked_of_main_base hl (prune_main_base hs habove hl hb h₁))
      rw [hmain₂]
      apply onlyBase_exchangeAllRoot h₂
      rw [hmain₁]
      exact Ne.symm hm
    dsimp only at h
    cases res₂ with
    | error e =>
      cases h
      exact hl₂
    | ok u =>
      dsimp only at h
      split_ifs at h with hlinked
      cases h
      exact hlinked

theorem linked_SwitchMainToEmpty (hs : Shape t t.main ρ) (habove : ∀ h, d.head.1 < h → d.getBlock h = none)
    (hl : t.Linked d t.main .disk = true) {fuel : ℕ} {order : List ℕ} {res : Except String Unit}
    (horder : ∀ c ∈ order, c ∈ t.branchList) (h : t.SwitchMainToEmpty d fuel order = some (res, t')) :
    t'.Linked d t'.main .disk = true := by
  unfold tree.SwitchMainToEmpty at h
  split_ifs at h with hsize
  · cases h
    exact hl
  split at h
  · rename_i c hc
    exact linked_SwitchMainTo hs habove hl (b := .br c) (hs.listed c (horder c (List.mem_of_find?_eq_some hc))) h
  · obtain ⟨⟨c, t₁⟩, h₁, h⟩ := Option.bind_eq_some_iff.mp h
    dsimp only at h
    obtain ⟨ρ₁, hs₁⟩ := hs.ForkBranch (b := .br t.main) hs.main_held h₁
    obtain ⟨hmain₁, hc₁, -⟩ := ForkBranch_new h₁
    rw [← hmain₁] at hs₁
    exact linked_SwitchMainTo hs₁ habove (linked_ForkBranch hs.main_held hl h₁) (b := .br c) hc₁ h

theorem linked_pruneAll (habove : ∀ h, d.head.1 < h → d.getBlock h = none) {fuel : ℕ} :
    ∀ {order : List ℕ} {t t' : tree H}, Shape t t.main ρ → t.Linked d t.main .disk = true →
      pruneAll d fuel order t = some t' → t'.Linked d t'.main .disk = true := by
  intro order t t' hs hl h
  -- the shape is carried along, since a prune keeps the main base only on a tree with a shape
  have hrule := pruneAll_rule (fun t => Shape t t.main ρ ∧ t.Linked d t.main .disk = true) ?_ ⟨hs, hl⟩ h
  · exact hrule.2
  intro t₁ id t₂ ⟨hs₁, hl₁⟩ hid _ h₁
  have hheld := hs₁.listed id hid
  constructor
  · rw [(sameIds_prune h₁).main]
    exact hs₁.prune hheld h₁
  · exact linked_of_main_base hl₁ (prune_main_base hs₁ habove hl₁ hheld h₁)

theorem linked_removeGarbage {stale : ℕ → Bool} :
    ∀ {order rs : List ℕ} {t t' : tree H}, t.Linked d t.main .disk = true →
      removeGarbage stale order t = some (rs, t') → t'.Linked d t'.main .disk = true := by
  intro order rs t t' hl h
  apply removeGarbage_rule (fun t => t.Linked d t.main .disk = true) _ hl h
  -- the main branch is never removed, and a removal touches the removed base only
  intro t₁ id _ t₂ hl₁ _ hid _ h₁
  apply linked_of_main_base hl₁
  rw [(sameIds_removeBranch h₁).main]
  exact onlyBase_removeBranch h₁ t₁.main (Ne.symm hid)

theorem linked_PruneTree (hs : Shape t t.main ρ) (habove : ∀ h, d.head.1 < h → d.getBlock h = none)
    (hl : t.Linked d t.main .disk = true) {fuel : ℕ} {stale : ℕ → Bool} {order₁ order₂ rs : List ℕ}
    (h : t.PruneTree d fuel stale order₁ order₂ = some (rs, t')) : t'.Linked d t'.main .disk = true := by
  unfold tree.PruneTree at h
  split_ifs at h
  obtain ⟨t₁, h₁, h⟩ := Option.bind_eq_some_iff.mp h
  exact linked_removeGarbage (linked_pruneAll habove hs hl h₁) h

end tree

end Vite.Pool
