import Vite.Lib.ListRange

/-!
# Go's `sort.Sort`

The sort package of Go 1.13, the version go.mod names. `sort less l` is `sort.Sort` on a slice
whose `Less(i, j)` is `less l[i] l[j]` and whose `Swap(i, j)` is `List.swap`. `quickSort` takes
`[a, b)` apart around a pivot (`doPivot`) and sorts the two sides; `maxDepth` levels down it
leaves the slice to `heapSort`, and below 13 elements to a Shell pass and `insertionSort`. Each
loop of the source is a function of the fuel that bounds its rounds.

Whatever `less` is, the result is a permutation of the input (`sort_perm`). For the `Less` of a
key (`keyLess`) it is sorted by that key, which `Vite.Lib.GoSort.Sorted` proves; a slice of two
takes one test (`sort_pair`).

`search n f` is `sort.Search`, the binary search for the first index of `[0, n)` where `f`
holds: for an `f` that stays true once true, it is that index, or `n` (`search_spec`).
-/

namespace GoSort

variable {α : Type*} (less : α → α → Bool)

/-- `data.Less(i, j)` on the slice `l`; the indices the sort passes are always in range. -/
def Less (l : List α) (i j : ℕ) : Bool :=
  match l[i]?, l[j]? with
  | some x, some y => less x y
  | _, _ => false

/-- The inner loop of `insertionSort`: `for j := i; j > a && data.Less(j, j-1); j--`. -/
def insertDown (a : ℕ) : ℕ → List α → List α
  | 0, l => l
  | j + 1, l => if a < j + 1 ∧ Less less l (j + 1) j then insertDown a j (l.swap (j + 1) j) else l

/-- `insertionSort(data, a, b)`. -/
def insertionSort (a b : ℕ) (l : List α) : List α :=
  (List.range' (a + 1) (b - (a + 1))).foldl (fun l i => insertDown less a i l) l

/-- `siftDown(data, lo, hi, first)` from `root`; the root moves down at every round, so `hi`
rounds of fuel finish it. -/
def siftDown (hi first : ℕ) : ℕ → ℕ → List α → List α
  | 0, _, l => l
  | fuel + 1, root, l =>
    if hi ≤ 2 * root + 1 then l
    else
      let child := if 2 * root + 2 < hi ∧ Less less l (first + (2 * root + 1)) (first + (2 * root + 2))
        then 2 * root + 2 else 2 * root + 1
      if !Less less l (first + root) (first + child) then l
      else siftDown hi first fuel child (l.swap (first + root) (first + child))

/-- `heapSort(data, a, b)`: build the heap on `[a, b)` from `(hi - 1) / 2` down, then pop its
greatest element into the end, `hi - 1` down to `0`. -/
def heapSort (a b : ℕ) (l : List α) : List α :=
  let hi := b - a
  let l := (List.range ((hi - 1) / 2 + 1)).reverse.foldl (fun l i => siftDown less hi a hi i l) l
  (List.range hi).reverse.foldl (fun l i => siftDown less i a i 0 (l.swap a (a + i))) l

/-- `medianOfThree(data, m1, m0, m2)`: the median of the three moves to `m1`. -/
def medianOfThree (m1 m0 m2 : ℕ) (l : List α) : List α :=
  let l := if Less less l m1 m0 then l.swap m1 m0 else l
  if Less less l m2 m1 then
    let l := l.swap m2 m1
    if Less less l m1 m0 then l.swap m1 m0 else l
  else l

/-- The loops of `doPivot` that move an index up: `for ; i < c && test(i); i++ {}`, with `c - i`
rounds of fuel. -/
def scanUp (test : ℕ → Bool) (c : ℕ) : ℕ → ℕ → ℕ
  | 0, i => i
  | fuel + 1, i => if i < c ∧ test i then scanUp test c fuel (i + 1) else i

/-- The loops of `doPivot` that move an index down: `for ; b < j && test(j-1); j-- {}`, with
`j - b` rounds of fuel. -/
def scanDown (test : ℕ → Bool) (b : ℕ) : ℕ → ℕ → ℕ
  | 0, j => j
  | fuel + 1, j => if b < j ∧ test (j - 1) then scanDown test b fuel (j - 1) else j

/-- The main loop of `doPivot` on `[b, c)`: `data[b] <= pivot` moves `b` up, `data[c-1] > pivot`
moves `c` down, and the two out of place change places. -/
def partitionLoop (pivot : ℕ) : ℕ → List α × ℕ × ℕ → List α × ℕ × ℕ
  | 0, s => s
  | fuel + 1, (l, b, c) =>
    let b := scanUp (fun b => !Less less l pivot b) c (c - b) b
    let c := scanDown (fun c => Less less l pivot c) b (c - b) c
    if c ≤ b then (l, b, c)
    else partitionLoop pivot fuel ((l.swap b (c - 1)), b + 1, c - 1)

/-- The loop against many duplicates on `[a, b)`: the elements equal to the pivot go to the top,
next to `[b, c)`. -/
def protectLoop (pivot : ℕ) : ℕ → List α × ℕ × ℕ → List α × ℕ × ℕ
  | 0, s => s
  | fuel + 1, (l, a, b) =>
    let b := scanDown (fun b => !Less less l b pivot) a (b - a) b
    let a := scanUp (fun a => Less less l a pivot) b (b - a) a
    if b ≤ a then (l, a, b)
    else protectLoop pivot fuel ((l.swap a (b - 1)), a + 1, b - 1)

/-- The test for duplicates of `doPivot`, where the upper part is small: up to three elements
equal to the pivot, at `hi - 1`, `b - 1` and `m`, join `[b, c)`. -/
def testDups (pivot m hi : ℕ) (l : List α) (b c : ℕ) : List α × ℕ × ℕ × ℕ :=
  let (l, c, dups) := if !Less less l pivot (hi - 1) then (l.swap c (hi - 1), c + 1, 1) else (l, c, 0)
  let (b, dups) := if !Less less l (b - 1) pivot then (b - 1, dups + 1) else (b, dups)
  let (l, b, dups) := if !Less less l m pivot then (l.swap m (b - 1), b - 1, dups + 1) else (l, b, dups)
  (l, b, c, dups)

/-- The pivot of `doPivot` at `lo`: Tukey's ninther on a slice longer than 40, then the median of
`lo`, `m` and `hi - 1`. -/
def choosePivot (lo hi : ℕ) (l : List α) : List α :=
  let m := (lo + hi) / 2
  let l :=
    if 40 < hi - lo then
      let s := (hi - lo) / 8
      let l := medianOfThree less lo (lo + s) (lo + 2 * s) l
      let l := medianOfThree less m (m - s) (m + s) l
      medianOfThree less (hi - 1) (hi - 1 - s) (hi - 1 - 2 * s) l
    else l
  medianOfThree less lo m (hi - 1) l

/-- The end of `doPivot` against duplicates: where few elements are above the pivot, the test for
duplicates, and where there are duplicates, the loop that gathers them in `[b, c)`. -/
def protectDups (pivot m hi a : ℕ) (s : List α × ℕ × ℕ) : List α × ℕ × ℕ :=
  let (l, b, c) := s
  let protect := decide (hi - c < 5)
  let (l, b, c, protect) :=
    if !protect ∧ hi - c < (hi - pivot) / 4 then
      let (l, b, c, dups) := testDups less pivot m hi l b c
      (l, b, c, decide (1 < dups))
    else (l, b, c, protect)
  if protect then
    let (l, _, b) := protectLoop less pivot (hi - pivot) (l, a, b)
    (l, b, c)
  else (l, b, c)

/-- `doPivot(data, lo, hi)`: the slice partitioned around the pivot, with `midlo` and `midhi`. -/
def doPivot (lo hi : ℕ) (l : List α) : List α × ℕ × ℕ :=
  let m := (lo + hi) / 2
  let l := choosePivot less lo hi l
  let pivot := lo
  let a := scanUp (fun a => Less less l a pivot) (hi - 1) (hi - 1 - (lo + 1)) (lo + 1)
  let (l, b, c) := protectDups less pivot m hi a (partitionLoop less pivot (hi - lo) (l, a, hi - 1))
  (l.swap pivot (b - 1), b - 1, c)

/-- The Shell sort pass with gap 6 of `quickSort` on a short slice. -/
def shellPass (a b : ℕ) (l : List α) : List α :=
  (List.range' (a + 6) (b - (a + 6))).foldl
    (fun l i => if Less less l i (i - 6) then l.swap i (i - 6) else l) l

/-- `quickSort(data, a, b, maxDepth)`: the loop runs on in the larger part, the recursion takes the
smaller. Each call is on a shorter slice, so `b - a` rounds of fuel finish it. -/
def quickSort : ℕ → ℕ → ℕ → ℕ → List α → List α
  | 0, _, _, _, l => l
  | fuel + 1, a, b, maxDepth, l =>
    if 12 < b - a then
      if maxDepth = 0 then heapSort less a b l
      else
        let (l, mlo, mhi) := doPivot less a b l
        if mlo - a < b - mhi then
          quickSort fuel mhi b (maxDepth - 1) (quickSort fuel a mlo (maxDepth - 1) l)
        else quickSort fuel a mlo (maxDepth - 1) (quickSort fuel mhi b (maxDepth - 1) l)
    else if 1 < b - a then insertionSort less a b (shellPass less a b l)
    else l

/-- The loop of `maxDepth`: the bits of `n`, `i >>= 1` at every round. -/
def bitLength : ℕ → ℕ → ℕ
  | 0, _ => 0
  | fuel + 1, i => if i = 0 then 0 else bitLength fuel (i / 2) + 1

/-- `maxDepth(n)`: twice the number of bits of `n`. -/
def maxDepth (n : ℕ) : ℕ := 2 * bitLength n n

/-- `sort.Sort(data)`. -/
def sort (l : List α) : List α := quickSort less l.length 0 l.length (maxDepth l.length) l

section Key

variable {β : Type*} [LinearOrder β] (key : α → β)

/-- The `Less` of a slice ordered by `key`. -/
def keyLess (a b : α) : Bool := decide (key a < key b)

variable {key}

theorem Less_keyLess {l : List α} {i j : ℕ} {x y : α} (hi : l[i]? = some x) (hj : l[j]? = some y) :
    Less (keyLess key) l i j = decide (key x < key y) := by
  simp [Less, hi, hj, keyLess]

end Key

/-! ## Permutations -/

section Perm

open ListRange

theorem insertDown_perm (a j : ℕ) (l : List α) :
    (insertDown less a j l).Perm l := by
  induction j generalizing l with
  | zero => rfl
  | succ j ih =>
    unfold insertDown
    split_ifs
    · exact (ih _).trans (List.swap_perm l _ _)
    · rfl

theorem insertionSort_perm (a b : ℕ) (l : List α) :
    (insertionSort less a b l).Perm l :=
  foldl_range'_induction (fun _ (l' : List α) => l'.Perm l) _ (List.Perm.refl l)
    fun i _ _ _ h => (insertDown_perm less a i _).trans h

theorem siftDown_perm (hi first fuel root : ℕ) (l : List α) :
    (siftDown less hi first fuel root l).Perm l := by
  induction fuel generalizing root l with
  | zero => rfl
  | succ fuel ih =>
    unfold siftDown
    dsimp only
    split_ifs <;> first | rfl | exact (ih _ _).trans (List.swap_perm l _ _)

theorem heapSort_perm (a b : ℕ) (l : List α) :
    (heapSort less a b l).Perm l := by
  have hbuild := foldl_range_reverse_induction (fun _ (l' : List α) => l'.Perm l)
    (fun l' i => siftDown less (b - a) a (b - a) i l') (n := (b - a - 1) / 2 + 1) (List.Perm.refl l)
    fun i l' _ h => (siftDown_perm less _ _ _ _ l').trans h
  exact foldl_range_reverse_induction (fun _ (l' : List α) => l'.Perm l)
    (fun l' i => siftDown less i a i 0 (l'.swap a (a + i))) hbuild
    fun i l' _ h => ((siftDown_perm less _ _ _ _ _).trans (List.swap_perm l' _ _)).trans h

theorem medianOfThree_perm (m1 m0 m2 : ℕ) (l : List α) : (medianOfThree less m1 m0 m2 l).Perm l := by
  unfold medianOfThree
  dsimp only
  split_ifs <;> simp

theorem choosePivot_perm (lo hi : ℕ) (l : List α) : (choosePivot less lo hi l).Perm l := by
  unfold choosePivot
  refine (medianOfThree_perm less _ _ _ _).trans ?_
  split_ifs
  · exact (medianOfThree_perm less _ _ _ _).trans
      ((medianOfThree_perm less _ _ _ _).trans (medianOfThree_perm less _ _ _ _))
  · rfl

theorem partitionLoop_perm (pivot fuel : ℕ) (s : List α × ℕ × ℕ) :
    (partitionLoop less pivot fuel s).1.Perm s.1 := by
  induction fuel generalizing s with
  | zero => rfl
  | succ fuel ih =>
    obtain ⟨l, b, c⟩ := s
    unfold partitionLoop
    dsimp only
    split_ifs
    · rfl
    · exact (ih _).trans (List.swap_perm l _ _)

theorem protectLoop_perm (pivot fuel : ℕ) (s : List α × ℕ × ℕ) :
    (protectLoop less pivot fuel s).1.Perm s.1 := by
  induction fuel generalizing s with
  | zero => rfl
  | succ fuel ih =>
    obtain ⟨l, a, b⟩ := s
    unfold protectLoop
    dsimp only
    split_ifs
    · rfl
    · exact (ih _).trans (List.swap_perm l _ _)

theorem testDups_perm (pivot m hi : ℕ) (l : List α) (b c : ℕ) :
    (testDups less pivot m hi l b c).1.Perm l := by
  unfold testDups
  split_ifs <;> simp <;> split_ifs <;> simp

theorem protectDups_perm (pivot m hi a : ℕ) (s : List α × ℕ × ℕ) :
    (protectDups less pivot m hi a s).1.Perm s.1 := by
  obtain ⟨l, b, c⟩ := s
  unfold protectDups
  dsimp only
  generalize hs : (if (!decide (hi - c < 5)) = true ∧ hi - c < (hi - pivot) / 4 then _ else _) = s
  obtain ⟨l₁, b₁, c₁, p⟩ := s
  have hp₁ : l₁.Perm l := by
    split_ifs at hs
    · have hp := testDups_perm less pivot m hi l b c
      generalize testDups less pivot m hi l b c = r at hs hp
      obtain ⟨l', b', c', d⟩ := r
      cases hs
      exact hp
    · cases hs
      rfl
  dsimp only
  split_ifs
  · have hp := protectLoop_perm less pivot (hi - pivot) (l₁, a, b₁)
    generalize protectLoop less pivot (hi - pivot) (l₁, a, b₁) = r at hp ⊢
    obtain ⟨l', a', b'⟩ := r
    exact hp.trans hp₁
  · exact hp₁

theorem doPivot_perm (lo hi : ℕ) (l : List α) : (doPivot less lo hi l).1.Perm l := by
  unfold doPivot
  dsimp only
  have h₀ := choosePivot_perm less lo hi l
  generalize choosePivot less lo hi l = l₀ at h₀ ⊢
  generalize scanUp _ _ _ _ = a
  have h₁ := partitionLoop_perm less lo (hi - lo) (l₀, a, hi - 1)
  generalize partitionLoop less lo (hi - lo) (l₀, a, hi - 1) = s₁ at h₁ ⊢
  have h₂ := protectDups_perm less lo ((lo + hi) / 2) hi a s₁
  generalize protectDups less lo ((lo + hi) / 2) hi a s₁ = s₂ at h₂ ⊢
  obtain ⟨l', b, c⟩ := s₂
  exact (List.swap_perm l' _ _).trans (h₂.trans (h₁.trans h₀))

theorem shellPass_perm (a b : ℕ) (l : List α) : (shellPass less a b l).Perm l :=
  foldl_range'_induction (fun _ (l' : List α) => l'.Perm l) _ (List.Perm.refl l)
    fun i l' _ _ h => by
      split_ifs
      · exact (List.swap_perm l' _ _).trans h
      · exact h

theorem quickSort_perm (fuel a b d : ℕ) (l : List α) : (quickSort less fuel a b d l).Perm l := by
  induction fuel generalizing a b d l with
  | zero => rfl
  | succ fuel ih =>
    unfold quickSort
    split_ifs
    · exact heapSort_perm less a b l
    · have hp := doPivot_perm less a b l
      generalize doPivot less a b l = r at hp ⊢
      obtain ⟨l', mlo, mhi⟩ := r
      dsimp only
      split_ifs <;> exact ((ih _ _ _ _).trans (ih _ _ _ _)).trans hp
    · exact (insertionSort_perm less a b _).trans (shellPass_perm less a b l)
    · rfl

theorem sort_perm (l : List α) : (sort less l).Perm l := quickSort_perm less _ _ _ _ l

/-- A slice of two is sorted by one `Less` test of the second against the first, for any `Less`:
the one test of the insertion sort. -/
theorem sort_pair (a b : α) : sort less [a, b] = if less b a then [b, a] else [a, b] := by
  cases h : less b a <;> simp [sort, quickSort, shellPass, insertionSort, insertDown, Less, h]

end Perm

/-! ## `sort.Search` -/

/-- The loop of `sort.Search` on `[i, j)`. Every round shrinks the interval, so `j - i` rounds of
fuel finish it. -/
def searchLoop (f : ℕ → Bool) : ℕ → ℕ → ℕ → ℕ
  | 0, i, _ => i
  | fuel + 1, i, j =>
    if i < j then
      let h := (i + j) / 2
      if !f h then searchLoop f fuel (h + 1) j else searchLoop f fuel i h
    else i

/-- `sort.Search(n, f)`. -/
def search (n : ℕ) (f : ℕ → Bool) : ℕ := searchLoop f n 0 n

/-- What the loop keeps on `[i, j)`: `f` fails below `i` and holds at `j` unless `j` is `n`. -/
def SearchInv (f : ℕ → Bool) (n i j : ℕ) : Prop :=
  i ≤ j ∧ j ≤ n ∧ (∀ k < i, f k = false) ∧ (j < n → f j = true)

section Search

variable {f : ℕ → Bool} {n : ℕ}

/-- Whatever `f` is, the loop stays within `[i, j]`. -/
theorem searchLoop_le (fuel : ℕ) {i j : ℕ} (hij : i ≤ j) : searchLoop f fuel i j ≤ j := by
  induction fuel generalizing i j with
  | zero => exact hij
  | succ fuel ih =>
    unfold searchLoop
    dsimp only
    split_ifs with hlt
    · exact ih (by omega)
    · exact (ih (by omega)).trans (by omega)
    · exact hij

theorem search_le (n : ℕ) (f : ℕ → Bool) : search n f ≤ n := searchLoop_le n (Nat.zero_le n)

/-- One round keeps the invariant, for an `f` that stays true once true below `n`. -/
theorem SearchInv.step (hmono : ∀ a b, a ≤ b → b < n → f a = true → f b = true) {i j : ℕ}
    (h : SearchInv f n i j) (hij : i < j) :
    (f ((i + j) / 2) = false → SearchInv f n ((i + j) / 2 + 1) j) ∧
      (f ((i + j) / 2) = true → SearchInv f n i ((i + j) / 2)) := by
  obtain ⟨_, hjn, hbelow, hat⟩ := h
  refine ⟨fun hf => ⟨by omega, hjn, fun k hk => ?_, hat⟩, fun hf => ⟨by omega, by omega, hbelow, fun _ => hf⟩⟩
  cases hfk : f k with
  | false => rfl
  | true => rw [hmono k _ (by omega) (by omega) hfk] at hf; cases hf

theorem searchLoop_inv (hmono : ∀ a b, a ≤ b → b < n → f a = true → f b = true) (fuel : ℕ) {i j : ℕ}
    (h : SearchInv f n i j) (hfuel : j - i ≤ fuel) :
    SearchInv f n (searchLoop f fuel i j) (searchLoop f fuel i j) := by
  -- an induction on the fuel, each round at least one shorter
  induction fuel generalizing i j with
  | zero => rwa [show j = i by have := h.1; omega] at h
  | succ fuel ih =>
    unfold searchLoop
    dsimp only
    split_ifs with hij hf
    · exact ih ((h.step hmono hij).1 (by simpa using hf)) (by omega)
    · exact ih ((h.step hmono hij).2 (by simpa using hf)) (by omega)
    · rwa [show j = i by have := h.1; omega] at h

/-- `sort.Search` finds the first index where `f` holds, or `n`. -/
theorem search_spec (hmono : ∀ a b, a ≤ b → b < n → f a = true → f b = true) :
    search n f ≤ n ∧ (∀ k < search n f, f k = false) ∧ (search n f < n → f (search n f) = true) := by
  obtain ⟨-, hle, hbelow, hat⟩ :=
    searchLoop_inv hmono n (⟨Nat.zero_le n, le_rfl, fun _ h => absurd h (Nat.not_lt_zero _), fun h => absurd h (lt_irrefl n)⟩ :
      SearchInv f n 0 n) (by omega)
  exact ⟨hle, hbelow, hat⟩

end Search

end GoSort
