import Vite.Lib.GoSort

/-!
# `insertionSort` sorts its range

The inner loop `insertDown` moves the element at `i` down past every greater one. Its state is
`InsertInv`: the parts on both sides of the moving element sorted, and the element within its
neighbours' bounds. `insertionSort_spec` runs it for every `i` of `[a + 1, b)`.
-/

namespace GoSort

open ListRange

/-! ## Insertion sort -/

section Insertion

variable {α β : Type*} [LinearOrder β] {key : α → β}

variable (key) in
/-- `insertDown` inserting into `[a, i]`, the element moving down at `j`: the parts on either side
sorted, the element no greater than the one above it, and the one below it no greater than that
one. -/
structure InsertInv (l : List α) (a i j : ℕ) : Prop where
  le_j : a ≤ j
  j_le : j ≤ i
  lt_length : i < l.length
  below : SortedIn key l a j
  above : SortedIn key l (j + 1) (i + 1)
  next : ∀ x y, j < i → l[j]? = some x → l[j + 1]? = some y → key x ≤ key y
  across : ∀ x y, a < j → j < i → l[j - 1]? = some x → l[j + 1]? = some y → key x ≤ key y

theorem InsertInv.start {l : List α} {a i : ℕ} (ha : a ≤ i) (hi : i < l.length)
    (h : SortedIn key l a i) : InsertInv key l a i i :=
  ⟨ha, le_rfl, hi, h, SortedIn.short l (Nat.le_succ _), fun _ _ h => absurd h (lt_irrefl i),
    fun _ _ _ h => absurd h (lt_irrefl i)⟩

/-- One round: the element at `j + 1` is less than the one below, and they change places. -/
theorem InsertInv.step {l : List α} {a i j : ℕ} (h : InsertInv key l a i (j + 1))
    (ha : a < j + 1) (hless : Less (keyLess key) l (j + 1) j = true) :
    InsertInv key (l.swap (j + 1) j) a i j := by
  have hj : j + 1 < l.length := lt_of_le_of_lt h.j_le h.lt_length
  have hget := getElem?_swap hj (Nat.lt_of_succ_lt hj)
  obtain ⟨x, hx⟩ : ∃ x, l[j + 1]? = some x := ⟨_, List.getElem?_eq_getElem hj⟩
  obtain ⟨y, hy⟩ : ∃ y, l[j]? = some y := ⟨_, List.getElem?_eq_getElem (Nat.lt_of_succ_lt hj)⟩
  rw [Less_keyLess hx hy, decide_eq_true_eq] at hless
  constructor
  · omega
  · exact Nat.le_of_succ_le h.j_le
  · rw [List.length_swap]
    exact h.lt_length
  · intro k x' y' hk hk' hx' hy'
    rw [hget, if_neg (by omega), if_neg (by omega)] at hx' hy'
    exact h.below k x' y' hk (by omega) hx' hy'
  · intro k x' y' hk hk' hx' hy'
    rw [hget, if_neg (by omega)] at hx' hy'
    rw [if_neg (by omega)] at hy'
    by_cases hkj : k = j + 1
    · subst hkj
      rw [if_pos rfl, hy, Option.some.injEq] at hx'
      subst hx'
      exact h.across y y' ha (by omega) hy hy'
    · rw [if_neg hkj] at hx'
      exact h.above k x' y' (by omega) hk' hx' hy'
  · intro x' y' _ hx' hy'
    rw [hget, if_pos rfl, hx, Option.some.injEq] at hx'
    rw [hget, if_neg (by omega), if_pos rfl, hy, Option.some.injEq] at hy'
    subst hx' hy'
    exact hless.le
  · intro x' y' ha' _ hx' hy'
    rw [hget, if_neg (by omega), if_neg (by omega)] at hx'
    rw [hget, if_neg (by omega), if_pos rfl, hy, Option.some.injEq] at hy'
    subst hy'
    exact h.below (j - 1) x' y (by omega) (by omega) hx' (by rwa [Nat.sub_add_cancel (by omega)])

/-- Where the loop stops, `[a, i]` is sorted. -/
theorem InsertInv.finish {l : List α} {a i j : ℕ} (h : InsertInv key l a i j)
    (hstop : ¬(a < j ∧ Less (keyLess key) l j (j - 1) = true)) : SortedIn key l a (i + 1) := by
  intro k x y hk hk' hx hy
  by_cases hbelow : k + 1 < j
  · exact h.below k x y hk hbelow hx hy
  by_cases hat : k + 1 = j
  · subst hat
    rw [Nat.add_sub_cancel, Less_keyLess hy hx, decide_eq_true_eq] at hstop
    exact not_lt.mp fun hlt => hstop ⟨by omega, hlt⟩
  by_cases hnext : k = j
  · subst hnext
    exact h.next x y (by omega) hx hy
  · exact h.above k x y (by omega) hk' hx hy

theorem insertDown_spec {a i : ℕ} (j : ℕ) {l : List α} (h : InsertInv key l a i j) :
    Within l (insertDown (keyLess key) a j l) a (i + 1) ∧
      SortedIn key (insertDown (keyLess key) a j l) a (i + 1) := by
  induction j generalizing l with
  | zero =>
    exact ⟨Within.refl l a (i + 1), h.finish fun hlt => absurd hlt.1 (Nat.not_lt_zero a)⟩
  | succ j ih =>
    unfold insertDown
    split_ifs with hgo
    · have hj : j + 1 < l.length := lt_of_le_of_lt h.j_le h.lt_length
      obtain ⟨hw, hs⟩ := ih (h.step hgo.1 hgo.2)
      exact ⟨(Within.swap l ⟨by omega, by have := h.j_le; omega⟩ ⟨by omega, by have := h.j_le; omega⟩
        (by have := h.lt_length; omega)).trans hw, hs⟩
    · exact ⟨Within.refl l a (i + 1), h.finish hgo⟩

variable (key) in
/-- `insertionSort(data, a, b)` sorts `[a, b)`. -/
theorem insertionSort_spec {a b : ℕ} {l : List α} (hb : b ≤ l.length) :
    Within l (insertionSort (keyLess key) a b l) a b ∧
      SortedIn key (insertionSort (keyLess key) a b l) a b := by
  by_cases hab : b ≤ a + 1
  · have hempty : b - (a + 1) = 0 := by omega
    simp only [insertionSort, hempty, List.range'_zero, List.foldl_nil]
    exact ⟨Within.refl l a b, SortedIn.short l hab⟩
  have hrun := foldl_range'_induction
    (fun i l' => Within l l' a b ∧ SortedIn key l' a i) (fun l' i => insertDown (keyLess key) a i l')
    (s := a + 1) (n := b - (a + 1)) (x := l) ⟨Within.refl l a b, SortedIn.short l le_rfl⟩
    (fun i l' hi hi' h => by
      obtain ⟨hw, hs⟩ := h
      have hlen : i < l'.length := by rw [hw.length_eq]; omega
      obtain ⟨hw', hs'⟩ := insertDown_spec i (InsertInv.start (by omega) hlen hs)
      exact ⟨hw.trans (hw'.mono le_rfl (by omega)), hs'⟩)
  rw [show a + 1 + (b - (a + 1)) = b by omega] at hrun
  exact hrun

end Insertion

end GoSort
