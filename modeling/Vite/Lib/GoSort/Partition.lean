import Vite.Lib.GoSort

/-!
# `doPivot` partitions its range

The pivot goes to `lo` (`choosePivot_spec`). The main loop keeps `MainInv`: nothing greater than
the pivot below `b`, nothing smaller from `c` on, until `b = c`. The test for duplicates and the
loop that gathers them keep `Parted`, which adds a range `[b, c)` of the pivot's equals. The
final swap puts the pivot at the bottom of that range; `doPivot_spec` states the result as
`Pivoted`, the range split at `mlo < mhi` around one key.
-/

namespace GoSort

open ListRange

variable {α β : Type*} [LinearOrder β] {key : α → β}

/-! ## The scans -/

section Scans

variable {test : ℕ → Bool}

variable (test) in
theorem scanUp_spec {c : ℕ} (fuel : ℕ) {i : ℕ} (hfuel : c ≤ i + fuel) :
    i ≤ scanUp test c fuel i ∧ (i ≤ c → scanUp test c fuel i ≤ c) ∧
      (∀ k, i ≤ k → k < scanUp test c fuel i → test k = true) ∧
      (scanUp test c fuel i < c → test (scanUp test c fuel i) = false) := by
  induction fuel generalizing i with
  | zero =>
    simp only [scanUp]
    exact ⟨le_rfl, fun _ => by omega, fun k hk hk' => by omega, fun h => by omega⟩
  | succ fuel ih =>
    unfold scanUp
    split_ifs with hgo
    · obtain ⟨h₁, h₂, h₃, h₄⟩ := ih (i := i + 1) (by omega)
      refine ⟨by omega, fun _ => h₂ (by omega), fun k hk hk' => ?_, h₄⟩
      rcases Nat.eq_or_lt_of_le hk with rfl | hk
      · exact hgo.2
      · exact h₃ k hk hk'
    · refine ⟨le_rfl, id, fun k hk hk' => absurd hk' (by omega), fun hlt => ?_⟩
      simpa [hlt] using hgo

variable (test) in
theorem scanDown_spec {b : ℕ} (fuel : ℕ) {j : ℕ} (hfuel : j ≤ b + fuel) :
    scanDown test b fuel j ≤ j ∧ (b ≤ j → b ≤ scanDown test b fuel j) ∧
      (∀ k, scanDown test b fuel j ≤ k → k < j → test k = true) ∧
      (b < scanDown test b fuel j → test (scanDown test b fuel j - 1) = false) := by
  induction fuel generalizing j with
  | zero =>
    simp only [scanDown]
    exact ⟨le_rfl, id, fun k hk hk' => by omega, fun h => by omega⟩
  | succ fuel ih =>
    unfold scanDown
    split_ifs with hgo
    · obtain ⟨h₁, h₂, h₃, h₄⟩ := ih (j := j - 1) (by omega)
      refine ⟨by omega, fun _ => h₂ (by omega), fun k hk hk' => ?_, h₄⟩
      by_cases hkj : k = j - 1
      · subst hkj
        exact hgo.2
      · exact h₃ k hk (by omega)
    · refine ⟨le_rfl, id, fun k hk hk' => absurd hk' (by omega), fun hlt => ?_⟩
      simpa [hlt] using hgo

theorem scanUp_of_le {c i : ℕ} (fuel : ℕ) (h : c ≤ i) : scanUp test c fuel i = i := by
  cases fuel with
  | zero => rfl
  | succ fuel => rw [scanUp, if_neg (by omega)]

theorem scanDown_of_le {b j : ℕ} (fuel : ℕ) (h : j ≤ b) : scanDown test b fuel j = j := by
  cases fuel with
  | zero => rfl
  | succ fuel => rw [scanDown, if_neg (by omega)]

end Scans

/-! ## The pivot -/

section Pivot

/-- The elements at `m0`, `m1` and `m2`. -/
def At3 (l : List α) (m0 m1 m2 : ℕ) (x y z : α) : Prop :=
  l[m0]? = some x ∧ l[m1]? = some y ∧ l[m2]? = some z

theorem At3.swap10 {l : List α} {m0 m1 m2 : ℕ} {x y z : α} (h : At3 l m0 m1 m2 x y z)
    (h10 : m1 ≠ m0) (h20 : m2 ≠ m0) (h21 : m2 ≠ m1) (h0 : m0 < l.length) (h1 : m1 < l.length) :
    At3 (l.swap m1 m0) m0 m1 m2 y x z := by
  have hget := getElem?_swap h1 h0
  refine ⟨?_, ?_, ?_⟩
  · rw [hget, if_pos rfl, h.2.1]
  · rw [hget, if_neg h10, if_pos rfl, h.1]
  · rw [hget, if_neg h20, if_neg h21, h.2.2]

theorem At3.swap21 {l : List α} {m0 m1 m2 : ℕ} {x y z : α} (h : At3 l m0 m1 m2 x y z)
    (h10 : m1 ≠ m0) (h20 : m2 ≠ m0) (h21 : m2 ≠ m1) (h1 : m1 < l.length) (h2 : m2 < l.length) :
    At3 (l.swap m2 m1) m0 m1 m2 x z y := by
  have hget := getElem?_swap h2 h1
  refine ⟨?_, ?_, ?_⟩
  · rw [hget, if_neg (Ne.symm h10), if_neg (Ne.symm h20), h.1]
  · rw [hget, if_pos rfl, h.2.2]
  · rw [hget, if_neg h21, if_pos rfl, h.2.1]

variable (key) in
/-- `medianOfThree` orders the three: `data[m0] <= data[m1] <= data[m2]`. -/
theorem medianOfThree_spec {l : List α} {m1 m0 m2 : ℕ} (h10 : m1 ≠ m0) (h20 : m2 ≠ m0)
    (h21 : m2 ≠ m1) (h0 : m0 < l.length) (h1 : m1 < l.length) (h2 : m2 < l.length) :
    ∃ x y z, At3 (medianOfThree (keyLess key) m1 m0 m2 l) m0 m1 m2 x y z ∧ key x ≤ key y ∧
      key y ≤ key z := by
  have h : At3 l m0 m1 m2 _ _ _ :=
    ⟨List.getElem?_eq_getElem h0, List.getElem?_eq_getElem h1, List.getElem?_eq_getElem h2⟩
  generalize l[m0] = x, l[m1] = y, l[m2] = z at h
  unfold medianOfThree
  dsimp only
  rw [Less_keyLess h.2.1 h.1]
  by_cases hyx : key y < key x
  · rw [if_pos (decide_eq_true hyx)]
    have h' := h.swap10 h10 h20 h21 h0 h1
    rw [Less_keyLess h'.2.2 h'.2.1]
    by_cases hzx : key z < key x
    · rw [if_pos (decide_eq_true hzx)]
      have h'' := h'.swap21 h10 h20 h21 (by simpa using h1) (by simpa using h2)
      rw [Less_keyLess h''.2.1 h''.1]
      by_cases hzy : key z < key y
      · rw [if_pos (decide_eq_true hzy)]
        exact ⟨z, y, x, h''.swap10 h10 h20 h21 (by simpa using h0) (by simpa using h1), hzy.le,
          hyx.le⟩
      · rw [if_neg (mt of_decide_eq_true hzy)]
        exact ⟨y, z, x, h'', not_lt.mp hzy, hzx.le⟩
    · rw [if_neg (mt of_decide_eq_true hzx)]
      exact ⟨y, x, z, h', hyx.le, not_lt.mp hzx⟩
  · rw [if_neg (mt of_decide_eq_true hyx), Less_keyLess h.2.2 h.2.1]
    by_cases hzy : key z < key y
    · rw [if_pos (decide_eq_true hzy)]
      have h' := h.swap21 h10 h20 h21 h1 h2
      rw [Less_keyLess h'.2.1 h'.1]
      by_cases hzx : key z < key x
      · rw [if_pos (decide_eq_true hzx)]
        exact ⟨z, x, y, h'.swap10 h10 h20 h21 (by simpa using h0) (by simpa using h1), hzx.le,
          not_lt.mp hyx⟩
      · rw [if_neg (mt of_decide_eq_true hzx)]
        exact ⟨x, z, y, h', not_lt.mp hzx, hzy.le⟩
    · rw [if_neg (mt of_decide_eq_true hzy)]
      exact ⟨x, y, z, h, not_lt.mp hyx, not_lt.mp hzy⟩

/-- Every swap of `medianOfThree` is among its three indices. -/
theorem medianOfThree_within (less : α → α → Bool) {l : List α} {u v m1 m0 m2 : ℕ}
    (h1 : u ≤ m1 ∧ m1 < v) (h0 : u ≤ m0 ∧ m0 < v) (h2 : u ≤ m2 ∧ m2 < v) (hv : v ≤ l.length) :
    Within l (medianOfThree less m1 m0 m2 l) u v := by
  have hsw : ∀ (l' : List α) {i j : ℕ}, u ≤ i ∧ i < v → u ≤ j ∧ j < v → Within l l' u v →
      Within l (l'.swap i j) u v := fun l' _ _ hi hj hw =>
    hw.trans (Within.swap l' hi hj (by rw [hw.length_eq]; exact hv))
  unfold medianOfThree
  dsimp only
  split_ifs
  · exact hsw _ h1 h0 (hsw _ h2 h1 (hsw _ h1 h0 (Within.refl l u v)))
  · exact hsw _ h2 h1 (hsw _ h1 h0 (Within.refl l u v))
  · exact hsw _ h1 h0 (Within.refl l u v)
  · exact hsw _ h1 h0 (hsw _ h2 h1 (Within.refl l u v))
  · exact hsw _ h2 h1 (Within.refl l u v)
  · exact Within.refl l u v

variable (key) in
/-- The pivot at `lo` is no greater than the element at `hi - 1`. -/
theorem choosePivot_spec {lo hi : ℕ} {l : List α} (hn : 12 < hi - lo) (hhi : hi ≤ l.length) :
    Within l (choosePivot (keyLess key) lo hi l) lo hi ∧
      ∃ pv z, (choosePivot (keyLess key) lo hi l)[lo]? = some pv ∧
        (choosePivot (keyLess key) lo hi l)[hi - 1]? = some z ∧ key pv ≤ key z := by
  unfold choosePivot
  dsimp only
  generalize hl₁ : (if 40 < hi - lo then _ else l) = l₁
  have hw₁ : Within l l₁ lo hi := by
    subst hl₁
    split_ifs with hlong
    · have hm3 := fun (l' : List α) (m1 m0 m2 : ℕ) (h1 : lo ≤ m1 ∧ m1 < hi) (h0 : lo ≤ m0 ∧ m0 < hi)
          (h2 : lo ≤ m2 ∧ m2 < hi) (hw : Within l l' lo hi) =>
        hw.trans (medianOfThree_within (keyLess key) h1 h0 h2 (by rw [hw.length_eq]; exact hhi))
      exact hm3 _ _ _ _ (by omega) (by omega) (by omega) (hm3 _ _ _ _ (by omega) (by omega)
        (by omega) (hm3 _ _ _ _ (by omega) (by omega) (by omega) (Within.refl l lo hi)))
    · exact Within.refl l lo hi
  have hlen : hi ≤ l₁.length := by rw [hw₁.length_eq]; exact hhi
  obtain ⟨x, y, z, h, -, hyz⟩ := medianOfThree_spec key (l := l₁)
    (show lo ≠ (lo + hi) / 2 by omega) (show hi - 1 ≠ (lo + hi) / 2 by omega) (show hi - 1 ≠ lo by omega)
    (by omega) (by omega) (by omega)
  exact ⟨hw₁.trans (medianOfThree_within _ (by omega) (by omega) (by omega) hlen), y, z, h.2.1,
    h.2.2, hyz⟩

end Pivot



/-! ## The partition of `doPivot` -/

section Partition

variable (key) in
/-- The main loop of `doPivot` at `(b, c)`: the pivot `pv` at `lo`, nothing greater on `[lo+1, b)`
and nothing smaller on `[c, hi)`. -/
structure MainInv (l : List α) (lo hi : ℕ) (pv : α) (b c : ℕ) : Prop where
  pivot : l[lo]? = some pv
  lo_lt : lo < b
  b_le : b ≤ c
  c_lt : c < hi
  hi_le : hi ≤ l.length
  low : AllIn (fun x => key x ≤ key pv) l (lo + 1) b
  high : AllIn (fun x => key pv ≤ key x) l c hi

theorem partitionLoop_spec (fuel : ℕ) {l : List α} {lo hi b c : ℕ} {pv : α}
    (h : MainInv key l lo hi pv b c) (hfuel : c - b < fuel) :
    ∃ l' b', partitionLoop (keyLess key) lo fuel (l, b, c) = (l', b', b') ∧
      MainInv key l' lo hi pv b' b' ∧ Within l l' (lo + 1) hi := by
  induction fuel generalizing l b c with
  | zero => omega
  | succ fuel ih =>
    unfold partitionLoop
    dsimp only
    obtain ⟨hbb₁, hb₁c, hup, hstop⟩ := scanUp_spec (fun k => !Less (keyLess key) l lo k)
      (c := c) (c - b) (i := b) (by omega)
    generalize scanUp (fun k => !Less (keyLess key) l lo k) c (c - b) b = b₁ at hbb₁ hb₁c hup hstop ⊢
    replace hb₁c := hb₁c h.b_le
    obtain ⟨hc₁c, hb₁c₁, hdown, hstop'⟩ := scanDown_spec (fun k => Less (keyLess key) l lo k)
      (b := b₁) (c - b₁) (j := c) (by omega)
    generalize scanDown (fun k => Less (keyLess key) l lo k) b₁ (c - b₁) c = c₁
      at hc₁c hb₁c₁ hdown hstop' ⊢
    replace hb₁c₁ := hb₁c₁ hb₁c
    have hlob := h.lo_lt
    have hchi := h.c_lt
    have hlen := h.hi_le
    have hlow : AllIn (fun x => key x ≤ key pv) l (lo + 1) b₁ := by
      refine h.low.append fun k x hk hk' hx => ?_
      simpa [Less_keyLess h.pivot hx] using hup k hk hk'
    have hhigh : AllIn (fun x => key pv ≤ key x) l c₁ hi := by
      refine AllIn.append (fun k x hk hk' hx => ?_) h.high
      exact (by simpa [Less_keyLess h.pivot hx] using hdown k hk hk' : key pv < key x).le
    split_ifs with hcb
    · obtain rfl : c₁ = b₁ := by omega
      exact ⟨l, c₁, rfl, ⟨h.pivot, by omega, le_rfl, by omega, hlen, hlow, hhigh⟩,
        Within.refl l _ _⟩
    · have hx := List.getElem?_eq_getElem (l := l) (i := b₁) (by omega)
      have hy := List.getElem?_eq_getElem (l := l) (i := c₁ - 1) (by omega)
      have hgt : key pv < key l[b₁] := by
        simpa [Less_keyLess h.pivot hx] using hstop (by omega)
      have hle : key l[c₁ - 1] ≤ key pv := by
        simpa [Less_keyLess h.pivot hy] using hstop' (by omega)
      have hne : b₁ + 1 < c₁ := by
        by_contra hne
        obtain rfl : b₁ = c₁ - 1 := by omega
        exact absurd (hgt.trans_le hle) (lt_irrefl _)
      have hw : Within l (l.swap b₁ (c₁ - 1)) b₁ c₁ :=
        Within.swap l ⟨le_rfl, by omega⟩ ⟨by omega, by omega⟩ (by omega)
      have h₂ : MainInv key (l.swap b₁ (c₁ - 1)) lo hi pv (b₁ + 1) (c₁ - 1) := by
        refine ⟨(hw.outside lo (by omega)).trans h.pivot, by omega, by omega, by omega,
          by rw [hw.length_eq]; exact hlen, ?_, ?_⟩
        · refine (hw.allIn_disjoint (.inl le_rfl) hlow).snoc fun x hx' => ?_
          rw [getElem?_swap_left (by omega) (by omega), hy, Option.some.injEq] at hx'
          exact hx' ▸ hle
        · refine (hw.allIn_disjoint (.inr le_rfl) hhigh).cons_pred (by omega) fun x hx' => ?_
          rw [getElem?_swap_right (by omega) (by omega), hx, Option.some.injEq] at hx'
          exact hx' ▸ hgt.le
      obtain ⟨l', b', hrun, hinv, hw'⟩ := ih h₂ (by omega)
      exact ⟨l', b', hrun, hinv, (hw.mono (by omega) (by omega)).trans hw'⟩

end Partition



section Parted

variable (key) in
/-- The slice of `doPivot` split at `b ≤ c`: the pivot `pv` at `lo`, nothing greater on
`[lo+1, b)`, its equals on `[b, c)` and nothing smaller on `[c, hi)`. -/
structure Parted (l : List α) (lo hi : ℕ) (pv : α) (b c : ℕ) : Prop where
  pivot : l[lo]? = some pv
  lo_lt : lo < b
  b_le : b ≤ c
  c_le : c ≤ hi
  hi_le : hi ≤ l.length
  low : AllIn (fun x => key x ≤ key pv) l (lo + 1) b
  mid : AllIn (fun x => key x = key pv) l b c
  high : AllIn (fun x => key pv ≤ key x) l c hi

variable {l : List α} {lo hi b c : ℕ} {pv : α}

theorem Parted.b_le_hi (h : Parted key l lo hi pv b c) : b ≤ hi := h.b_le.trans h.c_le

theorem Parted.c_le_length (h : Parted key l lo hi pv b c) : c ≤ l.length := h.c_le.trans h.hi_le

theorem MainInv.parted (h : MainInv key l lo hi pv b b) : Parted key l lo hi pv b b :=
  ⟨h.pivot, h.lo_lt, le_rfl, h.c_lt.le, h.hi_le, h.low, AllIn.empty _ l le_rfl, h.high⟩

/-- `data[hi-1]` equal to the pivot joins `[b, c)`. -/
theorem Parted.dup_top (h : Parted key l lo hi pv b c) (hc : c < hi)
    (htest : (!Less (keyLess key) l lo (hi - 1)) = true) :
    Parted key (l.swap c (hi - 1)) lo hi pv b (c + 1) ∧ Within l (l.swap c (hi - 1)) c hi := by
  have hlen := h.hi_le
  have hw : Within l (l.swap c (hi - 1)) c hi :=
    Within.swap l ⟨le_rfl, hc⟩ ⟨by omega, by omega⟩ hlen
  have hy := List.getElem?_eq_getElem (l := l) (i := hi - 1) (by omega)
  have heq : key l[hi - 1] = key pv :=
    le_antisymm (by simpa [Less_keyLess h.pivot hy] using htest) (h.high _ _ (by omega) (by omega) hy)
  refine ⟨⟨(hw.outside lo (by have := h.lo_lt; have := h.b_le; omega)).trans h.pivot, h.lo_lt,
    by have := h.b_le; omega, by omega, by rw [hw.length_eq]; exact hlen,
    hw.allIn_disjoint (.inl h.b_le) h.low, ?_, ?_⟩, hw⟩
  · refine (hw.allIn_disjoint (.inl le_rfl) h.mid).snoc fun x hx => ?_
    rw [getElem?_swap_left (by omega) (by omega), hy, Option.some.injEq] at hx
    exact hx ▸ heq
  · exact (hw.allIn_cover le_rfl le_rfl h.high).mono (Nat.le_succ c) le_rfl

/-- `data[b-1]` equal to the pivot joins `[b, c)`. -/
theorem Parted.dup_below (h : Parted key l lo hi pv b c) (hb : lo + 1 < b)
    (htest : (!Less (keyLess key) l (b - 1) lo) = true) : Parted key l lo hi pv (b - 1) c := by
  have hlen : b - 1 < l.length := by have := h.b_le.trans h.c_le_length; omega
  have hy := List.getElem?_eq_getElem hlen
  have heq : key l[b - 1] = key pv :=
    le_antisymm (h.low _ _ (by omega) (by omega) hy) (by simpa [Less_keyLess hy h.pivot] using htest)
  refine ⟨h.pivot, by omega, by have := h.b_le; omega, h.c_le, h.hi_le,
    h.low.mono le_rfl (by omega), h.mid.cons_pred (by omega) fun x hx => ?_, h.high⟩
  rw [hy, Option.some.injEq] at hx
  exact hx ▸ heq

/-- `data[m]` equal to the pivot changes places with `data[b-1]`, which joins `[b, c)`. -/
theorem Parted.dup_mid {m : ℕ} (h : Parted key l lo hi pv b c) (hm : lo < m) (hmb : m < b)
    (htest : (!Less (keyLess key) l m lo) = true) :
    Parted key (l.swap m (b - 1)) lo hi pv (b - 1) c ∧ Within l (l.swap m (b - 1)) m b := by
  have hlen : b ≤ l.length := h.b_le.trans h.c_le_length
  have hw : Within l (l.swap m (b - 1)) m b :=
    Within.swap l ⟨le_rfl, hmb⟩ ⟨by omega, by omega⟩ hlen
  have hx := List.getElem?_eq_getElem (l := l) (i := m) (by omega)
  have heq : key l[m] = key pv :=
    le_antisymm (h.low _ _ (by omega) hmb hx) (by simpa [Less_keyLess hx h.pivot] using htest)
  refine ⟨⟨(hw.outside lo (by omega)).trans h.pivot, by omega, by have := h.b_le; omega, h.c_le,
    by rw [hw.length_eq]; exact h.hi_le,
    (hw.allIn_cover (by omega) le_rfl h.low).mono le_rfl (by omega),
    (hw.allIn_disjoint (.inr le_rfl) h.mid).cons_pred (by omega) fun x hx' => ?_,
    hw.allIn_disjoint (.inr h.b_le) h.high⟩, hw⟩
  rw [getElem?_swap_right (by omega) (by omega), hx, Option.some.injEq] at hx'
  exact hx' ▸ heq

/-- The test for duplicates keeps the partition, with what it found equal to the pivot in
`[b, c)`. -/
theorem testDups_spec {m : ℕ} (h : Parted key l lo hi pv b c) (hc : c < hi) (hm : lo < m)
    (hmb : m + 1 < b) :
    ∃ l' b' c' dups, testDups (keyLess key) lo m hi l b c = (l', b', c', dups) ∧
      Parted key l' lo hi pv b' c' ∧ Within l l' (lo + 1) hi := by
  unfold testDups
  generalize hs₁ : (if (!Less (keyLess key) l lo (hi - 1)) = true then _ else _) = s₁
  obtain ⟨l₁, c₁, d₁⟩ := s₁
  obtain ⟨h₁, hw₁⟩ : Parted key l₁ lo hi pv b c₁ ∧ Within l l₁ (lo + 1) hi := by
    split_ifs at hs₁ with ht
    · cases hs₁
      obtain ⟨hP, hW⟩ := h.dup_top hc ht
      exact ⟨hP, hW.mono (by have := h.lo_lt; have := h.b_le; omega) le_rfl⟩
    · cases hs₁
      exact ⟨h, Within.refl l _ _⟩
  dsimp only
  generalize hs₂ : (if (!Less (keyLess key) l₁ (b - 1) lo) = true then _ else _) = s₂
  obtain ⟨b₂, d₂⟩ := s₂
  obtain ⟨h₂, hb₂⟩ : Parted key l₁ lo hi pv b₂ c₁ ∧ b - 1 ≤ b₂ := by
    split_ifs at hs₂ with ht
    · cases hs₂
      exact ⟨h₁.dup_below (by omega) ht, le_rfl⟩
    · cases hs₂
      exact ⟨h₁, Nat.sub_le b 1⟩
  dsimp only
  generalize hs₃ : (if (!Less (keyLess key) l₁ m lo) = true then _ else _) = s₃
  obtain ⟨l₃, b₃, d₃⟩ := s₃
  obtain ⟨h₃, hw₃⟩ : Parted key l₃ lo hi pv b₃ c₁ ∧ Within l₁ l₃ (lo + 1) hi := by
    split_ifs at hs₃ with ht
    · cases hs₃
      obtain ⟨hP, hW⟩ := h₂.dup_mid hm (by omega) ht
      exact ⟨hP, hW.mono (by omega) h₂.b_le_hi⟩
    · cases hs₃
      exact ⟨h₂, Within.refl l₁ _ _⟩
  exact ⟨l₃, b₃, c₁, d₃, rfl, h₃, hw₁.trans hw₃⟩

theorem protectLoop_spec (fuel : ℕ) {a : ℕ} (h : Parted key l lo hi pv b c) (ha : lo < a)
    (hfuel : b - a < fuel) :
    ∃ l' a' b', protectLoop (keyLess key) lo fuel (l, a, b) = (l', a', b') ∧
      Parted key l' lo hi pv b' c ∧ Within l l' (lo + 1) hi := by
  induction fuel generalizing l a b with
  | zero => omega
  | succ fuel ih =>
    unfold protectLoop
    dsimp only
    by_cases hab : b ≤ a
    · rw [scanDown_of_le _ hab, scanUp_of_le _ hab, if_pos hab]
      exact ⟨l, a, b, rfl, h, Within.refl l _ _⟩
    have hbc := h.b_le
    have hlen : c ≤ l.length := h.c_le_length
    obtain ⟨hb₁b, hab₁, hdown, hstop⟩ := scanDown_spec (fun k => !Less (keyLess key) l k lo)
      (b := a) (b - a) (j := b) (by omega)
    generalize scanDown (fun k => !Less (keyLess key) l k lo) a (b - a) b = b₁
      at hb₁b hab₁ hdown hstop ⊢
    replace hab₁ := hab₁ (by omega)
    obtain ⟨haa₁, ha₁b₁, -, hstop'⟩ := scanUp_spec (fun k => Less (keyLess key) l k lo)
      (c := b₁) (b₁ - a) (i := a) (by omega)
    generalize scanUp (fun k => Less (keyLess key) l k lo) b₁ (b₁ - a) a = a₁
      at haa₁ ha₁b₁ hstop' ⊢
    replace ha₁b₁ := ha₁b₁ hab₁
    have hmid : AllIn (fun x => key x = key pv) l b₁ c := by
      refine AllIn.append (fun k x hk hk' hx => ?_) h.mid
      exact le_antisymm (h.low k x (by omega) hk' hx)
        (by simpa [Less_keyLess hx h.pivot] using hdown k hk hk')
    split_ifs with hba
    · exact ⟨l, a₁, b₁, rfl, ⟨h.pivot, by omega, by omega, h.c_le, h.hi_le,
        h.low.mono le_rfl hb₁b, hmid, h.high⟩, Within.refl l _ _⟩
    · have hx := List.getElem?_eq_getElem (l := l) (i := a₁) (by omega)
      have hy := List.getElem?_eq_getElem (l := l) (i := b₁ - 1) (by omega)
      have heq : key l[a₁] = key pv := le_antisymm (h.low _ _ (by omega) (by omega) hx)
        (by simpa [Less_keyLess hx h.pivot] using hstop' (by omega))
      have hlt : key l[b₁ - 1] < key pv := by
        simpa [Less_keyLess hy h.pivot] using hstop (by omega)
      have hne : a₁ + 1 < b₁ := by
        by_contra hne
        obtain rfl : a₁ = b₁ - 1 := by omega
        exact absurd heq hlt.ne
      have hw : Within l (l.swap a₁ (b₁ - 1)) a₁ b₁ :=
        Within.swap l ⟨le_rfl, by omega⟩ ⟨by omega, by omega⟩ (by omega)
      have h₂ : Parted key (l.swap a₁ (b₁ - 1)) lo hi pv (b₁ - 1) c := by
        refine ⟨(hw.outside lo (by omega)).trans h.pivot, by omega, by omega, h.c_le,
          by rw [hw.length_eq]; exact h.hi_le,
          (hw.allIn_cover (by omega) le_rfl (h.low.mono le_rfl hb₁b)).mono le_rfl (by omega),
          (hw.allIn_disjoint (.inr le_rfl) hmid).cons_pred (by omega) fun x hx' => ?_, hw.allIn_disjoint (.inr (by omega)) h.high⟩
        rw [getElem?_swap_right (by omega) (by omega), hx, Option.some.injEq] at hx'
        exact hx' ▸ heq
      obtain ⟨l', a', b', hrun, hP, hW⟩ := ih h₂ (show lo < a₁ + 1 by omega) (by omega)
      exact ⟨l', a', b', hrun, hP,
        (hw.mono (by omega) (by have := h.c_le; omega)).trans hW⟩

end Parted



section Pivoted

/-- The end of `doPivot` against duplicates keeps the partition. -/
theorem protectDups_spec {l : List α} {lo hi a b : ℕ} {pv : α} (h : Parted key l lo hi pv b b)
    (ha : lo < a) (hn : 12 < hi - lo) :
    ∃ l' b' c', protectDups (keyLess key) lo ((lo + hi) / 2) hi a (l, b, b) = (l', b', c') ∧
      Parted key l' lo hi pv b' c' ∧ Within l l' (lo + 1) hi := by
  have hbhi := h.c_le
  unfold protectDups
  dsimp only
  generalize hs : (if (!decide (hi - b < 5)) = true ∧ hi - b < (hi - lo) / 4 then _ else _) = s
  obtain ⟨l₁, b₁, c₁, p⟩ := s
  obtain ⟨h₁, hw₁⟩ : Parted key l₁ lo hi pv b₁ c₁ ∧ Within l l₁ (lo + 1) hi := by
    split_ifs at hs with ht
    · have hfar : 5 ≤ hi - b := by simpa using ht.1
      obtain ⟨l', b', c', d, hrun, hP, hW⟩ :=
        testDups_spec (m := (lo + hi) / 2) h (by omega) (by omega) (by omega)
      rw [hrun] at hs
      cases hs
      exact ⟨hP, hW⟩
    · cases hs
      exact ⟨h, Within.refl l _ _⟩
  dsimp only
  split_ifs
  · obtain ⟨l', a', b', hrun, hP, hW⟩ := protectLoop_spec (hi - lo) h₁ ha
      (by have := h₁.b_le_hi; omega)
    rw [hrun]
    exact ⟨l', b', c₁, rfl, hP, hw₁.trans hW⟩
  · exact ⟨l₁, b₁, c₁, rfl, h₁, hw₁⟩

variable (key) in
/-- `[lo, hi)` split at `mlo < mhi` around `p`: nothing greater below `mlo`, equals on
`[mlo, mhi)`, nothing smaller from `mhi` on. -/
structure Pivoted (l : List α) (lo mlo mhi hi : ℕ) (p : β) : Prop where
  lo_le : lo ≤ mlo
  mlo_lt : mlo < mhi
  mhi_le : mhi ≤ hi
  low : AllIn (fun x => key x ≤ p) l lo mlo
  mid : AllIn (fun x => key x = p) l mlo mhi
  high : AllIn (fun x => p ≤ key x) l mhi hi

/-- The final swap of `doPivot` puts the pivot at `b - 1`, the bottom of the equals. -/
theorem Parted.pivoted {l : List α} {lo hi b c : ℕ} {pv : α} (h : Parted key l lo hi pv b c) :
    Pivoted key (l.swap lo (b - 1)) lo (b - 1) c hi (key pv) ∧
      Within l (l.swap lo (b - 1)) lo b := by
  have hlob := h.lo_lt
  have hbc := h.b_le
  have hlen : c ≤ l.length := h.c_le_length
  have hw : Within l (l.swap lo (b - 1)) lo b :=
    Within.swap l ⟨le_rfl, by omega⟩ ⟨by omega, by omega⟩ (by omega)
  have hlow : AllIn (fun x => key x ≤ key pv) l lo b := by
    refine h.low.cons fun x hx => ?_
    rw [h.pivot, Option.some.injEq] at hx
    exact hx ▸ le_rfl
  refine ⟨⟨by omega, by omega, h.c_le, (hw.allIn_cover le_rfl le_rfl hlow).mono le_rfl (by omega),
    (hw.allIn_disjoint (.inr le_rfl) h.mid).cons_pred (by omega) fun x hx => ?_,
    hw.allIn_disjoint (.inr hbc) h.high⟩, hw⟩
  rw [getElem?_swap_right (by omega) (by omega), h.pivot, Option.some.injEq] at hx
  rw [hx]

variable (key) in
/-- `doPivot` on a slice longer than 12 rearranges it around a pivot, with a nonempty middle. -/
theorem doPivot_spec {lo hi : ℕ} {l : List α} (hn : 12 < hi - lo) (hhi : hi ≤ l.length) :
    ∃ l' mlo mhi, doPivot (keyLess key) lo hi l = (l', mlo, mhi) ∧ Within l l' lo hi ∧
      ∃ p, Pivoted key l' lo mlo mhi hi p := by
  unfold doPivot
  dsimp only
  obtain ⟨hw₀, pv, z, hpv, hz, hpz⟩ := choosePivot_spec key hn hhi
  generalize choosePivot (keyLess key) lo hi l = l₀ at hw₀ hpv hz ⊢
  have hlen₀ : hi ≤ l₀.length := by rw [hw₀.length_eq]; exact hhi
  obtain ⟨ha, hac, hup, -⟩ := scanUp_spec (fun k => Less (keyLess key) l₀ k lo)
    (c := hi - 1) (hi - 1 - (lo + 1)) (i := lo + 1) (by omega)
  generalize scanUp (fun k => Less (keyLess key) l₀ k lo) (hi - 1) (hi - 1 - (lo + 1)) (lo + 1) = a
    at ha hac hup ⊢
  replace hac := hac (by omega)
  have hmain : MainInv key l₀ lo hi pv a (hi - 1) := by
    refine ⟨hpv, by omega, hac, by omega, hlen₀, fun k x hk hk' hx => ?_, fun k x hk hk' hx => ?_⟩
    · exact (by simpa [Less_keyLess hx hpv] using hup k hk hk' : key x < key pv).le
    · obtain rfl : k = hi - 1 := by omega
      rw [hz, Option.some.injEq] at hx
      exact hx ▸ hpz
  obtain ⟨l₁, b₁, hrun₁, hinv₁, hw₁⟩ := partitionLoop_spec (hi - lo) hmain (by omega)
  rw [hrun₁]
  obtain ⟨l₂, b₂, c₂, hrun₂, hP, hw₂⟩ := protectDups_spec hinv₁.parted (show lo < a by omega) hn
  rw [hrun₂]
  obtain ⟨hpiv, hw₃⟩ := hP.pivoted
  exact ⟨_, _, _, rfl, hw₀.trans (((hw₁.trans hw₂).mono (Nat.le_succ lo) le_rfl).trans
    (hw₃.mono le_rfl hP.b_le_hi)), _, hpiv⟩

end Pivoted

end GoSort
