import Vite.Lib.GoSort.Insertion
import Vite.Lib.GoSort.Heap
import Vite.Lib.GoSort.Partition

/-!
# `sort.Sort` sorts

`quickSort_spec`, by induction on the fuel: `quickSort` sorts `[a, b)` whatever depth is left.
Each branch is a lemma before it: `heapSort_spec`; `doPivot_spec` and the two sides by
induction; or the Shell pass and `insertionSort_spec`. For the `Less` of a key, `sort` orders
the slice by that key (`sort_keyLess_pairwise`), strictly where the keys are distinct, and then
depends on the elements only, not on their order (`sort_eq_of_perm`).
-/

namespace GoSort

open ListRange

/-! ## Quick sort -/

section Quick

variable {α β : Type*} [LinearOrder β] {key : α → β}

theorem shellPass_within (less : α → α → Bool) {a b : ℕ} {l : List α} (hb : b ≤ l.length) :
    Within l (shellPass less a b l) a b := by
  have hrun := foldl_range'_induction (fun _ (l' : List α) => Within l l' a b)
    (fun l' i => if Less less l' i (i - 6) then l'.swap i (i - 6) else l') (s := a + 6)
    (n := b - (a + 6)) (x := l) (Within.refl l a b) fun i l' hi hi' hw => by
      split_ifs
      · exact hw.trans (Within.swap l' ⟨by omega, by omega⟩ ⟨by omega, by omega⟩
          (by rw [hw.length_eq]; exact hb))
      · exact hw
  exact hrun

section
variable {l l' : List α} {a mlo mhi b : ℕ} {p : β}

/-- Rearranging the lower part keeps the partition. -/
theorem Pivoted.within_low (hp : Pivoted key l a mlo mhi b p) (hw : Within l l' a mlo) :
    Pivoted key l' a mlo mhi b p :=
  ⟨hp.lo_le, hp.mlo_lt, hp.mhi_le, hw.allIn_cover le_rfl le_rfl hp.low,
    hw.allIn_disjoint (.inr le_rfl) hp.mid, hw.allIn_disjoint (.inr hp.mlo_lt.le) hp.high⟩

/-- Rearranging the upper part keeps the partition. -/
theorem Pivoted.within_high (hp : Pivoted key l a mlo mhi b p) (hw : Within l l' mhi b) :
    Pivoted key l' a mlo mhi b p :=
  ⟨hp.lo_le, hp.mlo_lt, hp.mhi_le, hw.allIn_disjoint (.inl hp.mlo_lt.le) hp.low,
    hw.allIn_disjoint (.inl le_rfl) hp.mid, hw.allIn_cover le_rfl le_rfl hp.high⟩

end

variable (key) in
/-- `quickSort(data, a, b, maxDepth)` sorts `[a, b)`, whatever the depth. -/
theorem quickSort_spec (fuel : ℕ) {a b d : ℕ} {l : List α} (hb : b ≤ l.length)
    (hfuel : b - a ≤ fuel) :
    Within l (quickSort (keyLess key) fuel a b d l) a b ∧
      SortedIn key (quickSort (keyLess key) fuel a b d l) a b := by
  induction fuel generalizing a b d l with
  | zero => exact ⟨Within.refl l a b, SortedIn.short l (by omega)⟩
  | succ fuel ih =>
    unfold quickSort
    split_ifs with hlong hdepth hshort
    · exact heapSort_spec hb
    · obtain ⟨l', mlo, mhi, hrun, hw, p, hp⟩ := doPivot_spec key hlong hb
      rw [hrun]
      dsimp only
      have hlo := hp.lo_le
      have hmid := hp.mlo_lt
      have hhi := hp.mhi_le
      have hb' : b ≤ l'.length := by rw [hw.length_eq]; exact hb
      split_ifs
      · obtain ⟨hw₁, hs₁⟩ := ih (a := a) (b := mlo) (d := d - 1) (l := l') (by omega) (by omega)
        obtain ⟨hw₂, hs₂⟩ := ih (a := mhi) (b := b) (d := d - 1)
          (l := quickSort (keyLess key) fuel a mlo (d - 1) l') (by rw [hw₁.length_eq]; exact hb')
          (by omega)
        have hp₂ := (hp.within_low hw₁).within_high hw₂
        exact ⟨hw.trans ((hw₁.mono le_rfl (by omega)).trans (hw₂.mono (by omega) le_rfl)),
          SortedIn.of_parts hp₂.low hp₂.mid hp₂.high (hw₂.sortedIn (.inl (by omega)) hs₁) hs₂⟩
      · obtain ⟨hw₁, hs₁⟩ := ih (a := mhi) (b := b) (d := d - 1) (l := l') hb' (by omega)
        obtain ⟨hw₂, hs₂⟩ := ih (a := a) (b := mlo) (d := d - 1)
          (l := quickSort (keyLess key) fuel mhi b (d - 1) l') (by rw [hw₁.length_eq]; omega)
          (by omega)
        have hp₂ := (hp.within_high hw₁).within_low hw₂
        exact ⟨hw.trans ((hw₁.mono (by omega) le_rfl).trans (hw₂.mono le_rfl (by omega))),
          SortedIn.of_parts hp₂.low hp₂.mid hp₂.high hs₂ (hw₂.sortedIn (.inr (by omega)) hs₁)⟩
    · have hw₀ := shellPass_within (keyLess key) (a := a) hb
      obtain ⟨hw₁, hs₁⟩ := insertionSort_spec key (a := a) (b := b)
        (l := shellPass (keyLess key) a b l) (by rw [hw₀.length_eq]; exact hb)
      exact ⟨hw₀.trans hw₁, hs₁⟩
    · exact ⟨Within.refl l a b, SortedIn.short l (by omega)⟩

end Quick
section Sorted

variable {α β : Type*} [LinearOrder β]

theorem sort_keyLess_pairwise (key : α → β) (l : List α) :
    (sort (keyLess key) l).Pairwise fun a b => key a ≤ key b := by
  obtain ⟨hw, hs⟩ := quickSort_spec key l.length (a := 0) (d := maxDepth l.length)
    (le_refl l.length) (Nat.sub_le _ _)
  refine SortedIn.pairwise ?_
  rw [show (sort (keyLess key) l).length = l.length from hw.length_eq]
  exact hs

/-- With distinct keys, the sorted slice is strictly increasing in its keys. -/
theorem sort_keyLess_strict {key : α → β} {l : List α} (hkey : (l.map key).Nodup) :
    (sort (keyLess key) l).Pairwise fun a b => key a < key b := by
  have hkey' : ((sort (keyLess key) l).map key).Nodup :=
    ((sort_perm _ l).map key).nodup_iff.mpr hkey
  have hne := List.pairwise_map.mp (List.nodup_iff_pairwise_ne.mp hkey')
  exact ((sort_keyLess_pairwise key l).and hne).imp fun h => lt_of_le_of_ne h.1 h.2

/-- Sorting a slice by the values `f` of its elements, the values swapped along with it: the
elements come out permuted, in strictly increasing value where the values are distinct. -/
theorem sort_byValue (f : α → β) {l : List α} (hf : (l.map f).Nodup) :
    ((sort (keyLess Prod.snd) (l.map fun a => (a, f a))).map Prod.fst).Perm l ∧
      ((sort (keyLess Prod.snd) (l.map fun a => (a, f a))).map Prod.fst).Pairwise fun a b => f a < f b := by
  have hmem : ∀ e ∈ sort (keyLess Prod.snd) (l.map fun a => (a, f a)), e.2 = f e.1 := fun e he => by
    obtain ⟨a, -, rfl⟩ := List.mem_map.mp ((sort_perm _ _).mem_iff.mp he)
    rfl
  constructor
  · refine ((sort_perm _ _).map Prod.fst).trans ?_
    rw [List.map_map, show (Prod.fst ∘ fun a => (a, f a)) = id from rfl, List.map_id]
  · refine List.pairwise_map.mpr ((sort_keyLess_strict ?_).imp_of_mem fun he he' h => ?_)
    · rw [List.map_map]
      exact hf
    · rwa [← hmem _ he, ← hmem _ he']

/-- Slices with the same elements and distinct keys sort to the same slice. -/
theorem sort_eq_of_perm {key : α → β} {l₁ l₂ : List α} (hp : l₁.Perm l₂)
    (hkey : (l₁.map key).Nodup) : sort (keyLess key) l₁ = sort (keyLess key) l₂ := by
  have hkey₂ : (l₂.map key).Nodup := (hp.map key).nodup_iff.mp hkey
  have hperm : (sort (keyLess key) l₁).Perm (sort (keyLess key) l₂) :=
    ((sort_perm _ l₁).trans hp).trans (sort_perm _ l₂).symm
  exact hperm.eq_of_pairwise (fun a b _ _ hab hba => absurd hba (lt_asymm hab))
    (sort_keyLess_strict hkey) (sort_keyLess_strict hkey₂)

end Sorted


end GoSort
