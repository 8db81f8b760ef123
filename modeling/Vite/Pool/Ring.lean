import Mathlib.Order.Interval.Finset.Nat
import Vite.Lib.ParentForest
import Vite.Pool.Shape

/-!
# The ring check of the fork tree (ledger/pool/tree/checker.go, tree_impl.go)

`PruneTree` panics unless `CheckTreeRing` passes: a depth-first walk of the children from the main
branch that fails on a branch seen twice. On a tree with a shape it passes. A branch listed as a
child hangs from the branch that lists it, so "hangs from" is the forest's parent relation, and the
rank makes it acyclic (`ParentForest`). The walk below `b` only sees branches below `b`
(`RingVisit`); two children of `b` have disjoint subtrees, so a child is never among what its
elder siblings' walks saw (`Shape.ringFold`). The fuel `idIdx + 2` suffices because every call
adds a fresh branch to the seen list, which holds at most `idIdx` branches (`length_le_idIdx`).
-/

namespace Vite.Pool

namespace tree

open Relation

variable {H : Type} {m : ℕ} {ρ : ℕ → ℕ} {t : tree H}

/-- A branch handed out hangs from the branch `y`. -/
def HangsFrom (t : tree H) (x y : ℕ) : Prop := t.Held x ∧ (t.get x).root = .br y

theorem hangsFrom_rightUnique : Relator.RightUnique t.HangsFrom := by
  intro x y z hy hz
  have hzr := hz.2
  rw [hy.2] at hzr
  exact Ref.br.inj hzr

theorem Shape.not_transGen_self (hs : Shape t m ρ) (x : ℕ) : ¬TransGen t.HangsFrom x x :=
  ParentForest.not_transGen_self_of_rank (fun x y h => hs.rank_lt x y h.1 h.2) x

theorem Shape.hangsFrom_of_child (hs : Shape t m ρ) {b v : ℕ} (hb : t.Held b) (hv : v ∈ (t.get b).children) :
    t.HangsFrom v b :=
  ⟨hs.child_held b v hb hv, hs.child_root b v hb hv⟩

/-- A list of distinct branches handed out has at most `idIdx` of them. -/
theorem length_le_idIdx {bm : List ℕ} (hheld : ∀ x ∈ bm, t.Held x) (hnd : bm.Nodup) : bm.length ≤ t.idIdx := by
  have hsub : bm.toFinset ⊆ Finset.Icc 1 t.idIdx := by
    intro x hx
    exact Finset.mem_Icc.mpr (hheld x (List.mem_toFinset.mp hx))
  calc bm.length = bm.toFinset.card := (List.toFinset_card_of_nodup hnd).symm
    _ ≤ (Finset.Icc 1 t.idIdx).card := Finset.card_le_card hsub
    _ = t.idIdx := by simp

/-- The walk from `b` with fuel `n`, started on a list of seen branches of which none is below
`b` and with enough fuel for the branches not yet seen, returns a longer list of distinct branches
handed out, each seen before or below `b`. -/
def RingVisit (t : tree H) (n b : ℕ) : Prop :=
  ∀ bm : List ℕ, (∀ x ∈ bm, t.Held x) → bm.Nodup → t.idIdx < n + bm.length →
    (∀ x ∈ bm, ¬TransGen t.HangsFrom x b) →
    ∃ bm', t.checkTreeRing n bm b = some bm' ∧ (∀ x ∈ bm', t.Held x) ∧ bm'.Nodup ∧
      bm.length ≤ bm'.length ∧ ∀ x ∈ bm', x ∈ bm ∨ TransGen t.HangsFrom x b

/-- The fold over the children of `b`: each child is fresh when its turn comes, since the walks of
its elder siblings saw only their own subtrees. -/
theorem Shape.ringFold (hs : Shape t m ρ) {n b : ℕ} (hvisit : ∀ v, t.Held v → RingVisit t n v) :
    ∀ (L bm : List ℕ), (∀ v ∈ L, t.HangsFrom v b) → L.Nodup → (∀ x ∈ bm, t.Held x) → bm.Nodup →
      t.idIdx < n + 1 + bm.length → (∀ v ∈ L, v ∉ bm ∧ ∀ x ∈ bm, ¬TransGen t.HangsFrom x v) →
      ∃ bm', L.foldlM (fun bm v => if v ∈ bm then none else t.checkTreeRing n (v :: bm) v) bm = some bm' ∧
        (∀ x ∈ bm', t.Held x) ∧ bm'.Nodup ∧ bm.length ≤ bm'.length ∧
        ∀ x ∈ bm', x ∈ bm ∨ ∃ v ∈ L, ReflTransGen t.HangsFrom x v
  | [], bm, _, _, hheld, hnd, _, _ => ⟨bm, rfl, hheld, hnd, le_refl _, fun x hx => .inl hx⟩
  | v :: L, bm, hL, hndL, hheld, hnd, hlen, hfresh => by
    have hacyc := hs.not_transGen_self
    obtain ⟨hvbm, hbelow⟩ := hfresh v List.mem_cons_self
    have hv := hL v List.mem_cons_self
    have hvL : v ∉ L := (List.nodup_cons.mp hndL).1
    -- the walk below `v`, started with `v` seen
    obtain ⟨bm₁, h₁, hheld₁, hnd₁, hlen₁, hmem₁⟩ := hvisit v hv.1 (v :: bm)
      (fun x hx => (List.mem_cons.mp hx).elim (fun h => h ▸ hv.1) (hheld x))
      (List.nodup_cons.mpr ⟨hvbm, hnd⟩) (by rw [List.length_cons]; omega)
      (fun x hx => (List.mem_cons.mp hx).elim (fun h => h ▸ hacyc v) (hbelow x))
    have hfresh₁ : ∀ w ∈ L, w ∉ bm₁ ∧ ∀ x ∈ bm₁, ¬TransGen t.HangsFrom x w := by
      intro w hw
      have hwv : w ≠ v := fun h => hvL (h ▸ hw)
      have hw' := hL w (List.mem_cons_of_mem v hw)
      refine ⟨fun hwbm => ?_, fun x hx hxw => ?_⟩
      · rcases hmem₁ w hwbm with hwbm | hwv'
        · rcases List.mem_cons.mp hwbm with h | h
          · exact hwv h
          · exact (hfresh w (List.mem_cons_of_mem v hw)).1 h
        · exact ParentForest.not_transGen_of_siblings hangsFrom_rightUnique hacyc hw' hv hwv'
      · rcases hmem₁ x hx with hx | hxv
        · rcases List.mem_cons.mp hx with rfl | hx
          · exact ParentForest.not_transGen_of_siblings hangsFrom_rightUnique hacyc hv hw' hxw
          · exact (hfresh w (List.mem_cons_of_mem v hw)).2 x hx hxw
        · exact hwv (ParentForest.eq_of_reflTransGen_siblings hangsFrom_rightUnique hacyc hw' hv
            hxw.to_reflTransGen hxv.to_reflTransGen)
    rw [List.length_cons] at hlen₁
    obtain ⟨bm₂, h₂, hheld₂, hnd₂, hlen₂, hmem₂⟩ := hs.ringFold hvisit L bm₁
      (fun w hw => hL w (List.mem_cons_of_mem v hw)) (List.nodup_cons.mp hndL).2 hheld₁ hnd₁ (by omega) hfresh₁
    refine ⟨bm₂, ?_, hheld₂, hnd₂, by omega, fun x hx => ?_⟩
    · rw [List.foldlM_cons, if_neg hvbm, h₁]
      exact h₂
    · rcases hmem₂ x hx with hx | ⟨w, hw, hxw⟩
      · rcases hmem₁ x hx with hx | hxv
        · rcases List.mem_cons.mp hx with rfl | hx
          · exact .inr ⟨x, List.mem_cons_self, ReflTransGen.refl⟩
          · exact .inl hx
        · exact .inr ⟨v, List.mem_cons_self, hxv.to_reflTransGen⟩
      · exact .inr ⟨w, List.mem_cons_of_mem v hw, hxw⟩

/-- On a tree with a shape the walk from any branch handed out keeps its promise, by induction on
the fuel. -/
theorem Shape.ringVisit (hs : Shape t m ρ) (n : ℕ) : ∀ b, t.Held b → RingVisit t n b := by
  induction n with
  | zero =>
    intro b _ bm hheld hnd hlen _
    have := length_le_idIdx hheld hnd
    omega
  | succ n ih =>
    intro b hb bm hheld hnd hlen hbelow
    obtain ⟨bm', h, hheld', hnd', hlen', hmem'⟩ := hs.ringFold ih (t.get b).children bm
      (fun v hv => hs.hangsFrom_of_child hb hv) (hs.nodup b hb) hheld hnd (by omega)
      (fun v hv => ⟨fun hvbm => hbelow v hvbm (.single (hs.hangsFrom_of_child hb hv)),
        fun x hx hxv => hbelow x hx (hxv.tail (hs.hangsFrom_of_child hb hv))⟩)
    refine ⟨bm', h, hheld', hnd', hlen', fun x hx => ?_⟩
    rcases hmem' x hx with hx | ⟨v, hv, hxv⟩
    · exact .inl hx
    · exact .inr (TransGen.tail' hxv (hs.hangsFrom_of_child hb hv))

/-- A tree with a shape hanging from its main branch passes the ring check. -/
theorem Shape.CheckTreeRing (hs : Shape t t.main ρ) : t.CheckTreeRing = true := by
  obtain ⟨bm', h, -⟩ := hs.ringVisit (t.idIdx + 2) t.main hs.main_held [] (fun _ h => by cases h)
    List.nodup_nil (by simp) (fun _ h => by cases h)
  unfold tree.CheckTreeRing
  rw [h]
  rfl

end tree

end Vite.Pool
