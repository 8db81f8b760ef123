import Vite.Lib.GoSort

/-!
# `heapSort` sorts its range

The heap on `[first, first + hi)` is `HeapFrom`: no child above its parent from node `lo` on.
`siftDown_spec` restores it below a root that may be out of place (`SiftInv`); the build makes it
bottom up (`heapSort_build`), and every pop moves the greatest element to the end of the heap
(`heapSort_pop`).
-/

namespace GoSort

open ListRange

/-! ## Heap sort -/

section Heap

variable {α β : Type*} [LinearOrder β] {key : α → β}

variable (key) in
/-- The heap of `heapSort` on `[first, first + hi)`: below every node from `lo` on but `r`, no
child above its parent. -/
def HeapFrom (l : List α) (first lo hi r : ℕ) : Prop :=
  ∀ p c x y, lo ≤ p → p ≠ r → (c = 2 * p + 1 ∨ c = 2 * p + 2) → c < hi →
    l[first + p]? = some x → l[first + c]? = some y → key y ≤ key x

variable (key) in
/-- `siftDown` at `r`: the heap holds but at `r`, whose children are no greater than its
parent. -/
structure SiftInv (l : List α) (first lo hi r : ℕ) : Prop where
  lo_le : lo ≤ r
  bound : first + hi ≤ l.length
  heap : HeapFrom key l first lo hi r
  grand : ∀ g c x y, lo ≤ g → (r = 2 * g + 1 ∨ r = 2 * g + 2) → (c = 2 * r + 1 ∨ c = 2 * r + 2) →
    c < hi → l[first + g]? = some x → l[first + c]? = some y → key y ≤ key x

variable (key) in
/-- The child `siftDown` compares with the root: the greater one. -/
theorem siftDown_child_max {l : List α} {first hi r ch : ℕ} (hb : first + hi ≤ l.length)
    (hr : 2 * r + 1 < hi)
    (hdef : ch = if 2 * r + 2 < hi ∧ Less (keyLess key) l (first + (2 * r + 1)) (first + (2 * r + 2))
      then 2 * r + 2 else 2 * r + 1) :
    (ch = 2 * r + 1 ∨ ch = 2 * r + 2) ∧ ch < hi ∧
      ∀ c x y, (c = 2 * r + 1 ∨ c = 2 * r + 2) → c < hi → l[first + c]? = some x →
        l[first + ch]? = some y → key x ≤ key y := by
  subst hdef
  have h₁ := List.getElem?_eq_getElem (l := l) (i := first + (2 * r + 1)) (by omega)
  split_ifs with hc
  · refine ⟨.inr rfl, hc.1, fun c x y hc' hlt hx hy => ?_⟩
    have h₂ := List.getElem?_eq_getElem (l := l) (i := first + (2 * r + 2)) (by omega)
    rw [Less_keyLess h₁ h₂, decide_eq_true_eq] at hc
    rcases hc' with rfl | rfl
    · rw [h₁, Option.some.injEq] at hx
      rw [h₂, Option.some.injEq] at hy
      subst hx hy
      exact hc.2.le
    · rw [hx, Option.some.injEq] at hy
      rw [hy]
  · refine ⟨.inl rfl, hr, fun c x y hc' hlt hx hy => ?_⟩
    rcases hc' with rfl | rfl
    · rw [hx, Option.some.injEq] at hy
      rw [hy]
    · have h₂ := List.getElem?_eq_getElem (l := l) (i := first + (2 * r + 2)) (by omega)
      rw [Less_keyLess h₁ h₂, decide_eq_true_eq] at hc
      rw [h₂, Option.some.injEq] at hx
      rw [h₁, Option.some.injEq] at hy
      subst hx hy
      exact not_lt.mp fun h => hc ⟨hlt, h⟩

/-- With no child above the root, the heap holds everywhere. -/
theorem SiftInv.heap_of_root {l : List α} {first lo hi r : ℕ} (h : SiftInv key l first lo hi r)
    (hroot : ∀ c x y, (c = 2 * r + 1 ∨ c = 2 * r + 2) → c < hi → l[first + r]? = some x →
      l[first + c]? = some y → key y ≤ key x) : HeapFrom key l first lo hi hi := by
  intro p c x y hp _ hc hch hx hy
  by_cases hpr : p = r
  · subst hpr
    exact hroot c x y hc hch hx hy
  · exact h.heap p c x y hp hpr hc hch hx hy

/-- One round of `siftDown`: the root below its greater child changes places with it. -/
theorem SiftInv.step {l : List α} {first lo hi r ch : ℕ} (h : SiftInv key l first lo hi r)
    (hch : ch = 2 * r + 1 ∨ ch = 2 * r + 2) (hchi : ch < hi)
    (hmax : ∀ c x y, (c = 2 * r + 1 ∨ c = 2 * r + 2) → c < hi → l[first + c]? = some x →
      l[first + ch]? = some y → key x ≤ key y)
    (hless : Less (keyLess key) l (first + r) (first + ch) = true) :
    SiftInv key (l.swap (first + r) (first + ch)) first lo hi ch := by
  have hb := h.bound
  have hget := getElem?_swap (l := l) (i := first + r) (j := first + ch) (by omega) (by omega)
  obtain ⟨R, hR⟩ : ∃ R, l[first + r]? = some R := ⟨_, List.getElem?_eq_getElem (by omega)⟩
  obtain ⟨X, hX⟩ : ∃ X, l[first + ch]? = some X := ⟨_, List.getElem?_eq_getElem (by omega)⟩
  rw [Less_keyLess hR hX, decide_eq_true_eq] at hless
  refine ⟨by have := h.lo_le; omega, by rw [List.length_swap]; exact hb, ?_, ?_⟩
  · intro p c x y hp hpch hc hchi' hx hy
    by_cases hpr : p = r
    · subst hpr
      rw [hget, if_neg (by omega), if_pos rfl, hX, Option.some.injEq] at hx
      subst hx
      by_cases hcch : c = ch
      · subst hcch
        rw [hget, if_pos rfl, hR, Option.some.injEq] at hy
        subst hy
        exact hless.le
      · rw [hget, if_neg (by omega), if_neg (by omega)] at hy
        exact hmax c y X hc hchi' hy hX
    · have hcch : c ≠ ch := by omega
      by_cases hcr : c = r
      · subst hcr
        rw [hget, if_neg (by omega), if_pos rfl, hX, Option.some.injEq] at hy
        subst hy
        rw [hget, if_neg (by omega), if_neg (by omega)] at hx
        exact h.grand p ch x X hp (by omega) hch hchi hx hX
      · rw [hget, if_neg (by omega), if_neg (by omega)] at hx hy
        exact h.heap p c x y hp hpr hc hchi' hx hy
  · intro g c x y hg hgch hc hchi' hx hy
    have hgr : g = r := by omega
    subst hgr
    rw [hget, if_neg (by omega), if_pos rfl, hX, Option.some.injEq] at hx
    subst hx
    rw [hget, if_neg (by omega), if_neg (by omega)] at hy
    exact h.heap ch c X y (by have := h.lo_le; omega) (by omega) hc hchi' hX hy

theorem siftDown_spec {first lo hi : ℕ} (fuel : ℕ) {r : ℕ} {l : List α}
    (h : SiftInv key l first lo hi r) (hfuel : hi ≤ r + fuel + 1) :
    Within l (siftDown (keyLess key) hi first fuel r l) first (first + hi) ∧
      HeapFrom key (siftDown (keyLess key) hi first fuel r l) first lo hi hi := by
  induction fuel generalizing r l with
  | zero =>
    refine ⟨Within.refl l _ _, h.heap_of_root fun c _ _ hc hch => ?_⟩
    omega
  | succ fuel ih =>
    unfold siftDown
    dsimp only
    by_cases hleaf : hi ≤ 2 * r + 1
    · rw [if_pos hleaf]
      exact ⟨Within.refl l _ _, h.heap_of_root fun c _ _ hc hch => by omega⟩
    rw [if_neg hleaf]
    obtain ⟨hch, hchi, hmax⟩ := siftDown_child_max key h.bound (not_le.mp hleaf) rfl
    generalize (if 2 * r + 2 < hi ∧ Less (keyLess key) l (first + (2 * r + 1)) (first + (2 * r + 2))
      then 2 * r + 2 else 2 * r + 1) = ch at hch hchi hmax ⊢
    split_ifs with hstop
    · refine ⟨Within.refl l _ _, h.heap_of_root fun c x y hc hc' hx hy => ?_⟩
      obtain ⟨X, hX⟩ : ∃ X, l[first + ch]? = some X :=
        ⟨_, List.getElem?_eq_getElem (by have := h.bound; omega)⟩
      rw [Less_keyLess hx hX, Bool.not_eq_true', decide_eq_false_iff_not, not_lt] at hstop
      exact (hmax c y X hc hc' hy hX).trans hstop
    · rw [Bool.not_eq_true', Bool.not_eq_false] at hstop
      have hb := h.bound
      obtain ⟨hw, hheap⟩ := ih (h.step hch hchi hmax hstop) (by omega)
      exact ⟨(Within.swap l ⟨by omega, by omega⟩ ⟨by omega, by omega⟩ (by omega)).trans hw, hheap⟩

/-- The root of a heap is its greatest element. -/
theorem HeapFrom.root_max {l : List α} {first n : ℕ} (h : HeapFrom key l first 0 n n)
    (hb : first + n ≤ l.length) {x : α} (hx : l[first]? = some x) :
    AllIn (fun y => key y ≤ key x) l first (first + n) := by
  intro k y hk hkn hy
  obtain ⟨j, rfl⟩ := Nat.exists_eq_add_of_le hk
  induction j using Nat.strong_induction_on generalizing y with
  | _ j ih =>
    rcases j with _ | j
    · rw [Nat.add_zero, hx, Option.some.injEq] at hy
      rw [hy]
    · have hp := List.getElem?_eq_getElem (l := l) (i := first + j / 2) (by omega)
      exact (h (j / 2) (j + 1) _ y (Nat.zero_le _) (by omega) (by omega) (by omega) hp hy).trans
        (ih (j / 2) (by omega) _ (by omega) (by omega) hp)

variable (key) in
/-- The build of the heap: each node from `(hi - 1) / 2` down sifted into the heap below it. -/
theorem heapSort_build (a hi : ℕ) {l : List α} (hb : a + hi ≤ l.length) :
    let l' := (List.range ((hi - 1) / 2 + 1)).reverse.foldl
      (fun l i => siftDown (keyLess key) hi a hi i l) l
    Within l l' a (a + hi) ∧ HeapFrom key l' a 0 hi hi := by
  refine foldl_range_reverse_induction (fun i l' => Within l l' a (a + hi) ∧ HeapFrom key l' a i hi hi)
    _ ⟨Within.refl l _ _, fun p c _ _ hp _ hc hch _ _ => by omega⟩ ?_
  intro i l' _ ⟨hw, hheap⟩
  have hinv : SiftInv key l' a i hi i := by
    refine ⟨le_rfl, by rw [hw.length_eq]; exact hb, fun p c x y hp hpi hc hch hx hy => ?_, ?_⟩
    · exact hheap p c x y (by omega) (by omega) hc hch hx hy
    · intro g _ _ _ hg hig
      omega
  obtain ⟨hw', hheap'⟩ := siftDown_spec hi hinv (by omega)
  exact ⟨hw.trans hw', hheap'⟩

/-- The pops: the greatest of the heap on `[0, k)` goes to `k - 1`, below the sorted part. -/
theorem heapSort_pop {a hi : ℕ} {l : List α} (hb : a + hi ≤ l.length) (hheap : HeapFrom key l a 0 hi hi) :
    let l' := (List.range hi).reverse.foldl (fun l i => siftDown (keyLess key) i a i 0 (l.swap a (a + i))) l
    Within l l' a (a + hi) ∧ SortedIn key l' a (a + hi) := by
  have hrun := foldl_range_reverse_induction
    (fun k l' => Within l l' a (a + hi) ∧ HeapFrom key l' a 0 k k ∧ SortedIn key l' (a + k) (a + hi) ∧
      ∀ x, k < hi → l'[a + k]? = some x → AllIn (fun y => key y ≤ key x) l' a (a + k))
    (fun l i => siftDown (keyLess key) i a i 0 (l.swap a (a + i))) (n := hi) (x := l)
    ⟨Within.refl l _ _, hheap, SortedIn.short l (Nat.le_succ _), fun _ h => absurd h (lt_irrefl hi)⟩ ?_
  · exact ⟨hrun.1, by simpa using hrun.2.2.1⟩
  intro i l' hi' ⟨hw, hheap', hsorted, htop⟩
  have hlen : a + hi ≤ l'.length := by rw [hw.length_eq]; exact hb
  have hget := getElem?_swap (l := l') (i := a) (j := a + i) (by omega) (by omega)
  obtain ⟨X, hX⟩ : ∃ X, l'[a]? = some X := ⟨_, List.getElem?_eq_getElem (by omega)⟩
  have hmax := hheap'.root_max (by omega) hX
  -- the swap leaves the heap on `[1, i)` as it was
  have hinv : SiftInv key (l'.swap a (a + i)) a 0 i 0 := by
    refine ⟨le_rfl, by rw [List.length_swap]; omega, fun p c x y _ hp hc hch hx hy => ?_, ?_⟩
    · rw [hget, if_neg (by omega), if_neg (by omega)] at hx hy
      exact hheap' p c x y (Nat.zero_le _) (by omega) hc (by omega) hx hy
    · intro g _ _ _ _ hg
      omega
  obtain ⟨hw', hheap''⟩ := siftDown_spec i hinv (by omega)
  have hout : ∀ k, a + i ≤ k → (siftDown (keyLess key) i a i 0 (l'.swap a (a + i)))[k]? =
      (l'.swap a (a + i))[k]? := fun k hk => hw'.outside k (.inr hk)
  refine ⟨hw.trans ((Within.swap l' ⟨le_rfl, by omega⟩ ⟨by omega, by omega⟩ hlen).trans
    (hw'.mono le_rfl (by omega))), hheap'', ?_, ?_⟩
  · intro k x y hk hk' hx hy
    rw [hout k (by omega)] at hx
    rw [hout (k + 1) (by omega), hget, if_neg (by omega), if_neg (by omega)] at hy
    by_cases hki : k = a + i
    · subst hki
      rw [hget, if_pos rfl, hX, Option.some.injEq] at hx
      subst hx
      exact htop y (by omega) hy a X le_rfl (by omega) hX
    · rw [hget, if_neg hki, if_neg (by omega)] at hx
      exact hsorted k x y (by omega) hk' hx hy
  · intro x _ hx
    rw [hout (a + i) le_rfl, hget, if_pos rfl, hX, Option.some.injEq] at hx
    subst hx
    refine hw'.allIn_cover le_rfl le_rfl fun k y hk hk' hy => ?_
    rw [hget] at hy
    split_ifs at hy with h₁ h₂
    · omega
    · exact hmax (a + i) y (by omega) (by omega) hy
    · exact hmax k y hk (by omega) hy

/-- `heapSort(data, a, b)` sorts `[a, b)`. -/
theorem heapSort_spec {a b : ℕ} {l : List α} (hb : b ≤ l.length) :
    Within l (heapSort (keyLess key) a b l) a b ∧ SortedIn key (heapSort (keyLess key) a b l) a b := by
  by_cases hab : b ≤ a
  · have hhi : b - a = 0 := by omega
    simp only [heapSort, hhi, List.range_zero, List.reverse_nil, List.foldl_nil]
    refine ⟨?_, SortedIn.short _ (by omega)⟩
    simp [siftDown, Within.refl]
  obtain ⟨hw₁, hheap⟩ := heapSort_build key a (b - a) (l := l) (by omega)
  obtain ⟨hw₂, hs⟩ := heapSort_pop (by rw [hw₁.length_eq]; omega) hheap
  rw [show a + (b - a) = b by omega] at hw₁ hw₂ hs
  exact ⟨hw₁.trans hw₂, hs⟩

end Heap

end GoSort
