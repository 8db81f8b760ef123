import Mathlib.Data.List.Sort
import Mathlib.Order.Basic

/-!
# Rearranging a list within a range

What an in-place sort that swaps positions of `[u, v)` keeps, for a list `l`:

* `AllIn P l u v`: every element at a position of `[u, v)` satisfies `P`;
* `Within l l' u v`: `l'` is `l` rearranged within `[u, v)`, every element there one of `l`'s
  there and the others in place. It composes (`Within.trans`), widens (`Within.mono`), holds of
  a swap (`Within.swap`) and keeps an `AllIn` on a range that covers `[u, v)` or avoids it;
* `SortedIn key l u v`: `[u, v)` is sorted by `key`. `SortedIn.of_parts` sorts a range split in
  three around a value, as a quicksort partition leaves it.

The loop rules carry an invariant through a `for` loop up `List.range'` and down `List.range`.
-/

namespace ListRange

/-! ## Slices -/

section Slices

variable {α : Type*}

theorem getElem?_swap {l : List α} {i j : ℕ} (hi : i < l.length) (hj : j < l.length) (k : ℕ) :
    (l.swap i j)[k]? = if k = j then l[i]? else if k = i then l[j]? else l[k]? := by
  rw [List.swap_eq_of_lt hi hj, List.getElem?_set, List.getElem?_set]
  by_cases hkj : k = j
  · subst hkj
    simp [hj, List.getElem?_eq_getElem hi]
  · by_cases hki : k = i
    · subst hki
      simp [Ne.symm hkj, hi, List.getElem?_eq_getElem hj, hkj]
    · simp [Ne.symm hkj, Ne.symm hki, hkj, hki]

theorem getElem?_swap_left {l : List α} {i j : ℕ} (hi : i < l.length) (hj : j < l.length) :
    (l.swap i j)[i]? = l[j]? := by
  rw [getElem?_swap hi hj]
  by_cases h : i = j
  · rw [if_pos h, h]
  · rw [if_neg h, if_pos rfl]

theorem getElem?_swap_right {l : List α} {i j : ℕ} (hi : i < l.length) (hj : j < l.length) :
    (l.swap i j)[j]? = l[i]? := by
  rw [getElem?_swap hi hj, if_pos rfl]

@[simp]
theorem swap_perm_iff {l l' : List α} {i j : ℕ} : (l'.swap i j).Perm l ↔ l'.Perm l :=
  ⟨fun h => (List.swap_perm l' i j).symm.trans h, fun h => (List.swap_perm l' i j).trans h⟩

/-- Every element of `l` in `[u, v)` satisfies `P`. -/
def AllIn (P : α → Prop) (l : List α) (u v : ℕ) : Prop :=
  ∀ k x, u ≤ k → k < v → l[k]? = some x → P x

/-- `l'` is `l` rearranged within `[u, v)`: the same length, the same elements outside, and each
element inside one of `l`'s inside. -/
structure Within (l l' : List α) (u v : ℕ) : Prop where
  length_eq : l'.length = l.length
  outside : ∀ k, (k < u ∨ v ≤ k) → l'[k]? = l[k]?
  inside : ∀ k x, u ≤ k → k < v → l'[k]? = some x → ∃ j, u ≤ j ∧ j < v ∧ l[j]? = some x

namespace Within

variable {l l' l'' : List α} {u v : ℕ}

theorem refl (l : List α) (u v : ℕ) : Within l l u v :=
  ⟨rfl, fun _ _ => rfl, fun k _ hu hv hk => ⟨k, hu, hv, hk⟩⟩

theorem trans (h : Within l l' u v) (h' : Within l' l'' u v) : Within l l'' u v := by
  refine ⟨h'.length_eq.trans h.length_eq, fun k hk => (h'.outside k hk).trans (h.outside k hk), ?_⟩
  intro k x hu hv hk
  obtain ⟨j, hju, hjv, hj⟩ := h'.inside k x hu hv hk
  exact h.inside j x hju hjv hj

theorem mono (h : Within l l' u v) {u' v' : ℕ} (hu : u' ≤ u) (hv : v ≤ v') : Within l l' u' v' := by
  refine ⟨h.length_eq, fun k hk => h.outside k (by omega), ?_⟩
  intro k x hku hkv hk
  by_cases hin : u ≤ k ∧ k < v
  · obtain ⟨j, hju, hjv, hj⟩ := h.inside k x hin.1 hin.2 hk
    exact ⟨j, by omega, by omega, hj⟩
  · exact ⟨k, hku, hkv, (h.outside k (by omega)).symm.trans hk⟩

theorem swap (l : List α) {i j : ℕ} (hi : u ≤ i ∧ i < v) (hj : u ≤ j ∧ j < v) (hv : v ≤ l.length) :
    Within l (l.swap i j) u v := by
  have hil : i < l.length := by omega
  have hjl : j < l.length := by omega
  refine ⟨List.length_swap, fun k hk => ?_, fun k x hu hkv hk => ?_⟩
  · rw [getElem?_swap hil hjl, if_neg (by omega), if_neg (by omega)]
  · rw [getElem?_swap hil hjl] at hk
    split_ifs at hk
    · exact ⟨i, hi.1, hi.2, hk⟩
    · exact ⟨j, hj.1, hj.2, hk⟩
    · exact ⟨k, hu, hkv, hk⟩

/-- A property of every element in `[s, t) ⊇ [u, v)` survives the rearrangement. -/
theorem allIn_cover {P : α → Prop} (h : Within l l' u v) {s t : ℕ} (hs : s ≤ u) (ht : v ≤ t)
    (hP : AllIn P l s t) : AllIn P l' s t := by
  intro k x hsk hkt hk
  by_cases hin : u ≤ k ∧ k < v
  · obtain ⟨j, hju, hjv, hj⟩ := h.inside k x hin.1 hin.2 hk
    exact hP j x (by omega) (by omega) hj
  · exact hP k x hsk hkt ((h.outside k (by omega)).symm.trans hk)

/-- A property of every element in `[s, t)`, apart from `[u, v)`, survives the rearrangement. -/
theorem allIn_disjoint {P : α → Prop} (h : Within l l' u v) {s t : ℕ} (hd : t ≤ u ∨ v ≤ s)
    (hP : AllIn P l s t) : AllIn P l' s t :=
  fun k x hsk hkt hk => hP k x hsk hkt ((h.outside k (by omega)).symm.trans hk)

end Within

theorem AllIn.mono {P : α → Prop} {l : List α} {u v : ℕ} (h : AllIn P l u v) {u' v' : ℕ}
    (hu : u ≤ u') (hv : v' ≤ v) : AllIn P l u' v' :=
  fun k x hk hk' hx => h k x (by omega) (by omega) hx

theorem AllIn.empty (P : α → Prop) (l : List α) {u v : ℕ} (h : v ≤ u) : AllIn P l u v :=
  fun _ _ _ _ _ => by omega

theorem AllIn.snoc {P : α → Prop} {l : List α} {u v : ℕ} (h : AllIn P l u v)
    (hv : ∀ x, l[v]? = some x → P x) : AllIn P l u (v + 1) := by
  intro k x hu hk hx
  rcases Nat.lt_succ_iff_lt_or_eq.mp hk with hk | rfl
  · exact h k x hu hk hx
  · exact hv x hx

theorem AllIn.cons {P : α → Prop} {l : List α} {u v : ℕ} (h : AllIn P l (u + 1) v)
    (hu : ∀ x, l[u]? = some x → P x) : AllIn P l u v := by
  intro k x hk hkv hx
  rcases Nat.eq_or_lt_of_le hk with rfl | hk
  · exact hu x hx
  · exact h k x hk hkv hx

/-- `AllIn.cons` one position below `u`, for `0 < u`. -/
theorem AllIn.cons_pred {P : α → Prop} {l : List α} {u v : ℕ} (h : AllIn P l u v) (hu : 0 < u)
    (hx : ∀ x, l[u - 1]? = some x → P x) : AllIn P l (u - 1) v := by
  intro k x hk hkv hk'
  by_cases hku : k = u - 1
  · subst hku
    exact hx x hk'
  · exact h k x (by omega) hkv hk'

theorem AllIn.append {P : α → Prop} {l : List α} {u m v : ℕ} (h₁ : AllIn P l u m)
    (h₂ : AllIn P l m v) : AllIn P l u v := by
  intro k x hu hv hx
  by_cases hkm : k < m
  · exact h₁ k x hu hkm hx
  · exact h₂ k x (by omega) hv hx

end Slices

/-! ## Sorted by a key -/

section Key

variable {α β : Type*} [LinearOrder β] (key : α → β)

/-- `l` is sorted by `key` on `[u, v)`: no element above the next. -/
def SortedIn (l : List α) (u v : ℕ) : Prop :=
  ∀ k x y, u ≤ k → k + 1 < v → l[k]? = some x → l[k + 1]? = some y → key x ≤ key y

variable {key}

theorem SortedIn.short (l : List α) {u v : ℕ} (h : v ≤ u + 1) : SortedIn key l u v :=
  fun _ _ _ _ _ => by omega

/-- Sortedness on `[s, t)` survives a rearrangement of `[u, v)` disjoint from it. -/
theorem Within.sortedIn {l l' : List α} {u v s t : ℕ} (h : Within l l' u v) (hd : t ≤ u ∨ v ≤ s)
    (hs : SortedIn key l s t) : SortedIn key l' s t := by
  intro k x y hk hk' hx hy
  rw [h.outside k (by omega)] at hx
  rw [h.outside (k + 1) (by omega)] at hy
  exact hs k x y hk hk' hx hy

/-- Adjacent elements in order give every pair in order. -/
theorem SortedIn.le {l : List α} {u v : ℕ} (h : SortedIn key l u v) {i j : ℕ} {x y : α}
    (hi : u ≤ i) (hij : i ≤ j) (hj : j < v) (hx : l[i]? = some x) (hy : l[j]? = some y) :
    key x ≤ key y := by
  induction j, hij using Nat.le_induction generalizing y with
  | base =>
    rw [hx, Option.some.injEq] at hy
    rw [hy]
  | succ j hij ih =>
    have hjl : j < l.length := by
      have := (List.getElem?_eq_some_iff.mp hy).1
      omega
    have hz := List.getElem?_eq_getElem hjl
    exact (ih (by omega) hz).trans (h j _ y (by omega) hj hz hy)

/-- The three parts a partition leaves: no greater than `p`, equal to it, and no less, each
sorted where it is not constant. -/
theorem SortedIn.of_parts {l : List α} {a m₁ m₂ b : ℕ} {p : β}
    (hlow : AllIn (fun x => key x ≤ p) l a m₁) (hmid : AllIn (fun x => key x = p) l m₁ m₂)
    (hhigh : AllIn (fun x => p ≤ key x) l m₂ b) (hs₁ : SortedIn key l a m₁)
    (hs₂ : SortedIn key l m₂ b) : SortedIn key l a b := by
  intro k x y hk hk' hx hy
  by_cases h₁ : k + 1 < m₁
  · exact hs₁ k x y hk h₁ hx hy
  by_cases h₂ : m₂ ≤ k
  · exact hs₂ k x y h₂ hk' hx hy
  have hxp : key x ≤ p := by
    by_cases hkm : k < m₁
    · exact hlow k x hk hkm hx
    · exact (hmid k x (by omega) (by omega) hx).le
  have hpy : p ≤ key y := by
    by_cases hkm : k + 1 < m₂
    · exact (hmid (k + 1) y (by omega) hkm hy).ge
    · exact hhigh (k + 1) y (by omega) hk' hy
  exact hxp.trans hpy

theorem SortedIn.pairwise {l : List α} (h : SortedIn key l 0 l.length) :
    l.Pairwise fun x y => key x ≤ key y := by
  rw [List.pairwise_iff_getElem]
  intro i j hi hj hij
  exact h.le (Nat.zero_le i) hij.le hj (List.getElem?_eq_getElem hi) (List.getElem?_eq_getElem hj)

end Key
/-! ## Loops over a range -/

section Loops

variable {γ : Type*}

/-- A `for i := s; i < s + n; i++` loop keeps an invariant indexed by `i`. -/
theorem foldl_range'_induction (P : ℕ → γ → Prop) (f : γ → ℕ → γ) {s n : ℕ} {x : γ}
    (h0 : P s x) (hstep : ∀ i y, s ≤ i → i < s + n → P i y → P (i + 1) (f y i)) :
    P (s + n) ((List.range' s n).foldl f x) := by
  induction n generalizing s x with
  | zero => exact h0
  | succ n ih =>
    rw [List.range'_succ, List.foldl_cons, show s + (n + 1) = s + 1 + n by omega]
    exact ih (hstep s x le_rfl (by omega) h0) fun i y hi hi' hy => hstep i y (by omega) (by omega) hy

/-- A `for i := n - 1; i >= 0; i--` loop keeps an invariant indexed by `i + 1`. -/
theorem foldl_range_reverse_induction (P : ℕ → γ → Prop) (f : γ → ℕ → γ) {n : ℕ} {x : γ}
    (h0 : P n x) (hstep : ∀ i y, i < n → P (i + 1) y → P i (f y i)) :
    P 0 ((List.range n).reverse.foldl f x) := by
  induction n generalizing x with
  | zero => exact h0
  | succ n ih =>
    rw [List.range_succ, List.reverse_append, List.reverse_singleton, List.singleton_append,
      List.foldl_cons]
    exact ih (hstep n x (by omega) h0) fun i y hi hy => hstep i y (by omega) hy

end Loops

end ListRange
