import Vite.Db.Iterator

/-!
# `MergedIterator`: one walk over several sorted iterators

`db.MergedIterator` (common/db/merged_iterator.go) walks the union of the keys of its iterators
in order. For each iterator it keeps a status (run off the front, in the middle, run off the
back) and the key it has read ahead; Go keeps these in slices parallel to `iters`, here they are
the fields of a `Slot`. A `step` first brings every iterator still in the walk to a key that is
neither deleted (`isDelete`) nor the key just returned (`prevKey`), reading ahead as far as it
needs, then returns the least of those keys (the greatest going back), the first iterator
winning a tie: a key in several iterators is returned once, with the value of the first. A move
that fails with an error other than leveldb's `ErrNotFound` stops the walk: the iterator keeps
the error, and every later step fails at once.

`NewMergedIterator` leaves `index` at Go's zero value `0`, so the first `Next` over no iterators
at all panics on `keys[0]` (`Next_NewMergedIterator_nil`). Going forward from a new iterator over
at least one, `Next` returns the union of the keys of the iterators in increasing order, each
once, without the deleted keys and without the empty key, which `bytes.Equal` does not tell from
the `nil` that `prevKey` starts as (`yields_of_new`).
-/

namespace Vite.Db

/-- `iterPointHead`, `iterPointerMiddle`, `iterPointTail`. -/
inductive IterPoint where
  | Head
  | Middle
  | Tail
  deriving DecidableEq, Repr

variable {ι : Type}

/-- One iterator of a `MergedIterator`: itself, its status and the key it has read ahead. -/
structure Slot (ι : Type) where
  iter : StorageIterator ι
  state : ι
  status : IterPoint
  key : Option Bytes

structure MergedIterator (ι : Type) where
  isDelete : Option (Bytes → Bool)
  slots : List (Slot ι)
  /-- `index`, the iterator the walk stands at; Go's `-1` is `none`. -/
  index : Option ℕ
  prevKey : Option Bytes
  err : Option IterError
  directionToNext : Bool

/-- Whether `step` reads past a key: it is deleted, or it is `prevKey` (`bytes.Equal`, to which
`nil` is the empty key). -/
def skipKey (isDelete : Option (Bytes → Bool)) (prevKey : Option Bytes) (key : Bytes) : Bool :=
  (match isDelete with
    | some f => f key
    | none => false) || key == prevKey.getD []

theorem skipKey_of_eq_prevKey {isDelete : Option (Bytes → Bool)} {p : Option Bytes} {key : Bytes}
    (h : key = p.getD []) : skipKey isDelete p key = true := by
  simp [skipKey, h]

/-- Past its `prevKey`, `skipKey` only asks `isDelete`. -/
theorem skipKey_congr_prevKey {isDelete : Option (Bytes → Bool)} {p q : Option Bytes} {key : Bytes}
    (hp : key ≠ p.getD []) (hq : key ≠ q.getD []) : skipKey isDelete p key = skipKey isDelete q key := by
  unfold skipKey
  rw [beq_false_of_ne hp, beq_false_of_ne hq]

/-- An iterator `step` leaves alone: run off the end it is walking to. -/
def passed (toNext : Bool) (s : Slot ι) : Bool :=
  (toNext && s.status == .Tail) || (!toNext && s.status == .Head)

def Slot.move (toNext : Bool) (s : Slot ι) : Option (ι × Bool) :=
  if toNext then s.iter.Next s.state else s.iter.Prev s.state

/-- The read-ahead loop of `step` once an iterator holds no key: move, and go on while the key
read is skipped. A failed move ends the iterator's part of the walk, or, with an error that is
not `ErrNotFound`, the whole walk, and the error comes back. Go loops until a kept key, the end
or an error; the fuel is the iterator's rank and one, which a `Ranked` iterator never uses up. -/
def Slot.advance (skip : Bytes → Bool) (toNext : Bool) : ℕ → Slot ι → Option (Slot ι × Option IterError)
  | 0, s => some (s, none)
  | fuel + 1, s => do
    let r ← s.move toNext
    if r.2 then
      let key ← s.iter.Key r.1
      let key := key.getD []
      if skip key then Slot.advance skip toNext fuel { s with state := r.1 }
      else pure ({ s with state := r.1, key := some key }, none)
    else
      match fatalError (s.iter.Error r.1) with
      | some e => pure ({ s with state := r.1 }, some e)
      | none => pure ({ s with state := r.1, status := if toNext then .Tail else .Head }, none)

/-- The read-ahead loop of `step` for one iterator: a key held and skipped is dropped first. -/
def Slot.settle (skip : Bytes → Bool) (toNext : Bool) (s : Slot ι) : Option (Slot ι × Option IterError) :=
  match s.key with
  | none => s.advance skip toNext (s.iter.rank toNext s.state + 1)
  | some key =>
    if skip key then { s with key := none }.advance skip toNext (s.iter.rank toNext s.state + 1)
    else some (s, none)

namespace MergedIterator

/-- `NewMergedIterator`: Go's zero values, so `index` is `0` and every status `iterPointHead`. -/
def NewMergedIterator (iters : List (StorageIterator ι × ι)) (isDelete : Option (Bytes → Bool)) :
    MergedIterator ι :=
  { isDelete
    slots := iters.map fun e => ⟨e.1, e.2, .Head, none⟩
    index := some 0
    prevKey := none
    err := none
    directionToNext := true }

def reset (mi : MergedIterator ι) : MergedIterator ι :=
  { mi with
    slots := mi.slots.map fun s => { s with status := .Middle, key := none }
    index := none
    prevKey := none }

/-- Whether a key replaces the best so far (`fitKey`): it is before it (after it, going back),
or the best so far is empty, as `nil` is before any key is read. -/
def better (toNext : Bool) (key : Bytes) : Option (Bytes × ℕ) → Bool
  | none => true
  | some (fitKey, _) =>
    (toNext && compare key fitKey == .lt) || (!toNext && compare key fitKey == .gt) ||
      fitKey.length == 0

/-- The loop of `step` over the iterators from the `i`-th on, with the best key so far and its
index; an error stops it, the iterators after the one that failed left as they were. -/
def scan (skip : Bytes → Bool) (toNext : Bool) :
    ℕ → List (Slot ι) → Option (Bytes × ℕ) → Option (List (Slot ι) × Except IterError (Option (Bytes × ℕ)))
  | _, [], fit => some ([], .ok fit)
  | i, s :: ss, fit =>
    if passed toNext s then do
      let r ← scan skip toNext (i + 1) ss fit
      pure (s :: r.1, r.2)
    else do
      let (s, err) ← s.settle skip toNext
      match err with
      | some e => pure (s :: ss, .error e)
      | none =>
        let fit := match s.key with
          | some key => if better toNext key fit then some (key, i) else fit
          | none => fit
        let r ← scan skip toNext (i + 1) ss fit
        pure (s :: r.1, r.2)

/-- The start of `step`: the key returned last is dropped, `keys[index] = nil`, which panics on
an index past the iterators. -/
def dropIndex (mi : MergedIterator ι) : Option (MergedIterator ι) :=
  match mi.index with
  | some i =>
    if i < mi.slots.length then
      some { mi with slots := mi.slots.modify i (fun s => { s with key := none }), index := none }
    else none
  | none => some mi

/-- The rest of `step`: every iterator reads ahead, and the best key is returned; an error is
kept and fails the step. -/
def stepFrom (toNext : Bool) (mi : MergedIterator ι) : Option (MergedIterator ι × Bool) := do
  let r ← scan (skipKey mi.isDelete mi.prevKey) toNext 0 mi.slots none
  match r.2 with
  | .error e => pure ({ mi with slots := r.1, err := some e }, false)
  | .ok none => pure ({ mi with slots := r.1, prevKey := none }, false)
  | .ok (some (key, i)) => pure ({ mi with slots := r.1, index := some i, prevKey := some key }, true)

/-- `step`: it fails at once after an error; else a change of direction resets the walk, then
the key returned last is dropped and the walk moves on. -/
def step (toNext : Bool) (mi : MergedIterator ι) : Option (MergedIterator ι × Bool) :=
  if mi.err.isSome then some (mi, false)
  else do
    let mi := if mi.directionToNext != toNext then mi.reset else mi
    let mi ← mi.dropIndex
    mi.stepFrom toNext

def Next (mi : MergedIterator ι) : Option (MergedIterator ι × Bool) := mi.step true

def Prev (mi : MergedIterator ι) : Option (MergedIterator ι × Bool) := mi.step false

/-- `Last`: every iterator goes to its last key, which it holds, and the walk steps back. -/
def Last (mi : MergedIterator ι) : Option (MergedIterator ι × Bool) := do
  let mi := { mi.reset with directionToNext := false }
  let slots ← mi.slots.mapM fun s => do
    let r ← s.iter.Last s.state
    if r.2 then
      let key ← s.iter.Key r.1
      pure { s with state := r.1, status := .Tail, key := some (key.getD []) }
    else pure { s with state := r.1, status := .Head }
  Prev { mi with slots }

/-- The loop of `Seek` that moves an iterator on from deleted keys. -/
def seekSkip (I : StorageIterator ι) (isDelete : Option (Bytes → Bool)) : ℕ → ι × Bool → Option (ι × Bool)
  | 0, r => some r
  | fuel + 1, r =>
    if r.2 then
      match isDelete with
      | none => some r
      | some f => do
        let key ← I.Key r.1
        if f (key.getD []) then
          let r ← I.Next r.1
          seekSkip I isDelete fuel r
        else some r
    else some r

/-- The loop of `Seek` over the iterators from the `i`-th on. -/
def seekScan (isDelete : Option (Bytes → Bool)) (seeKey : Bytes) :
    ℕ → List (Slot ι) → Option (Bytes × ℕ) → Option (List (Slot ι) × Option (Bytes × ℕ))
  | _, [], fit => some ([], fit)
  | i, s :: ss, fit => do
    let r ← s.iter.Seek seeKey s.state
    let r ← seekSkip s.iter isDelete (s.iter.rank true r.1 + 1) r
    if r.2 then
      let key ← s.iter.Key r.1
      let key := key.getD []
      let fit := if better true key fit then some (key, i) else fit
      let rest ← seekScan isDelete seeKey (i + 1) ss fit
      pure ({ s with state := r.1, key := some key } :: rest.1, rest.2)
    else
      let rest ← seekScan isDelete seeKey (i + 1) ss fit
      pure ({ s with state := r.1, status := .Tail } :: rest.1, rest.2)

/-- `Seek`: every iterator seeks the key and moves on from deleted keys; the least key found is
where the walk stands. -/
def Seek (seeKey : Bytes) (mi : MergedIterator ι) : Option (MergedIterator ι × Bool) := do
  let mi := { mi.reset with directionToNext := true }
  let r ← seekScan mi.isDelete seeKey 0 mi.slots none
  match r.2 with
  | none => pure ({ mi with slots := r.1, prevKey := none }, false)
  | some (key, i) => pure ({ mi with slots := r.1, index := some i, prevKey := some key }, true)

/-- `Key`: `nil` after an error and where the walk stands at no iterator; it panics on an index
past the iterators, which only a new iterator over none has. -/
def Key (mi : MergedIterator ι) : Option (Option Bytes) :=
  if mi.err.isSome then some none
  else
    match mi.index with
    | none => some none
    | some i => mi.slots[i]?.map Slot.key

/-- `Value`: `nil` where the walk stands at no iterator, for an empty key and after an error. -/
def Value (mi : MergedIterator ι) : Option (Option Bytes) :=
  match mi.index with
  | none => some none
  | some i =>
    match mi.slots[i]? with
    | some s => if (s.key.getD []).length = 0 ∨ mi.err.isSome then some none else s.iter.Value s.state
    | none => none

end MergedIterator

/-- A `MergedIterator` as a storage iterator; its rank counts the moves left and the keys read
ahead. -/
def mergedIterator : StorageIterator (MergedIterator ι) where
  Last := MergedIterator.Last
  Prev := MergedIterator.Prev
  Seek := MergedIterator.Seek
  Next := MergedIterator.Next
  Key := MergedIterator.Key
  Value := MergedIterator.Value
  Error mi := mi.err
  rank toNext mi := (mi.slots.map fun s => s.iter.rank toNext s.state + if s.key.isSome then 1 else 0).sum

/-! ## Reading ahead -/

section ReadAhead

variable (skip : Bytes → Bool)

/-- What a slot still returns going forward: nothing once it has run off the back; else the key
it holds, with the value its iterator reads, then what the iterator yields. -/
def Slot.Holds (s : Slot ι) (P : List (Bytes × Bytes)) : Prop :=
  if s.status = .Tail then P = [] ∧ s.key = none
  else
    match s.key with
    | none => Yields s.iter s.state P
    | some key => ∃ value R, P = (key, value) :: R ∧ s.iter.Value s.state = some (some value) ∧
        Yields s.iter s.state R

/-- A slot that has read ahead holds the first kept entry of what it returns. -/
def Slot.Settled (s : Slot ι) (P : List (Bytes × Bytes)) : Prop :=
  s.Holds P ∧ s.key = P.head?.map Prod.fst

/-- Reading ahead forward drops the skipped entries in front, and stops at the first kept one or
at the end, with no error. The fuel suffices as the iterator's rank falls with each move. -/
theorem Slot.advance_settled {s : Slot ι} {P : List (Bytes × Bytes)} (hr : s.iter.Ranked)
    (hy : Yields s.iter s.state P) (hkey : s.key = none) (hst : s.status ≠ .Tail) {fuel : ℕ}
    (hfuel : s.iter.rank true s.state < fuel) :
    ∃ s', s.advance skip true fuel = some (s', none) ∧ s'.iter = s.iter ∧
      s'.Settled (P.dropWhile fun e => skip e.1) := by
  induction P generalizing s fuel with
  | nil =>
    obtain ⟨fuel, rfl⟩ : ∃ f, fuel = f + 1 := ⟨fuel - 1, by omega⟩
    obtain ⟨it', hnext, herr⟩ := hy
    refine ⟨{ s with state := it', status := .Tail }, ?_, rfl, ⟨by simp [Slot.Holds, hkey], by simp [hkey]⟩⟩
    simp [Slot.advance, Slot.move, hnext, herr]
  | cons e P ih =>
    obtain ⟨fuel, rfl⟩ : ∃ f, fuel = f + 1 := ⟨fuel - 1, by omega⟩
    obtain ⟨it', hnext, hk, hv, hy'⟩ := hy
    have hrank := (hr s.state it').1 hnext
    have hadv : s.advance skip true (fuel + 1) =
        if skip e.1 then Slot.advance skip true fuel { s with state := it' }
        else some ({ s with state := it', key := some e.1 }, none) := by
      simp [Slot.advance, Slot.move, hnext, hk]
    by_cases hs : skip e.1
    · rw [hadv, if_pos hs, List.dropWhile_cons_of_pos (p := fun x : Bytes × Bytes => skip x.1) hs]
      exact ih (s := { s with state := it' }) hr hy' hkey hst (by simp; omega)
    · rw [hadv, if_neg hs, List.dropWhile_cons_of_neg (p := fun x : Bytes × Bytes => skip x.1) hs]
      refine ⟨_, rfl, rfl, ?_, rfl⟩
      simp only [Slot.Holds, if_neg hst]
      exact ⟨e.2, P, rfl, hv, hy'⟩

/-- Reading ahead forward, for a slot that is still in the walk. -/
theorem Slot.settle_settled {s : Slot ι} {P : List (Bytes × Bytes)} (hr : s.iter.Ranked)
    (hh : s.Holds P) (hst : s.status ≠ .Tail) :
    ∃ s', s.settle skip true = some (s', none) ∧ s'.iter = s.iter ∧
      s'.Settled (P.dropWhile fun e => skip e.1) := by
  simp only [Slot.Holds, if_neg hst] at hh
  unfold Slot.settle
  cases hkey : s.key with
  | none =>
    rw [hkey] at hh
    exact Slot.advance_settled skip hr hh hkey hst (Nat.lt_succ_self _)
  | some key =>
    rw [hkey] at hh
    obtain ⟨value, R, rfl, hv, hy⟩ := hh
    simp only
    by_cases hs : skip key
    · rw [if_pos hs, List.dropWhile_cons_of_pos (p := fun x : Bytes × Bytes => skip x.1) hs]
      exact Slot.advance_settled skip (s := { s with key := none }) hr hy rfl hst (Nat.lt_succ_self _)
    · rw [if_neg hs, List.dropWhile_cons_of_neg (p := fun x : Bytes × Bytes => skip x.1) hs]
      refine ⟨s, rfl, rfl, ?_, by simp [hkey]⟩
      simp only [Slot.Holds, if_neg hst, hkey]
      exact ⟨value, R, rfl, hv, hy⟩

/-- The slot `scan` leaves where the read-ahead comes back without an error: passed by, or read
ahead. -/
def Slot.scanned (toNext : Bool) (s : Slot ι) : Slot ι :=
  if passed toNext s then s else ((s.settle skip toNext).map Prod.fst).getD s

/-- Every slot after the read-ahead of `step` forward: those run off the back stay as they are,
holding no key, and the others read ahead with no error. -/
theorem Slot.scanned_settled {s : Slot ι} {P : List (Bytes × Bytes)} (hr : s.iter.Ranked)
    (hh : s.Holds P) :
    (passed true s = true → s.key = none) ∧
      (passed true s = false → s.settle skip true = some (s.scanned skip true, none)) ∧
      (s.scanned skip true).iter = s.iter ∧ (s.scanned skip true).Settled (P.dropWhile fun e => skip e.1) := by
  by_cases hst : s.status = .Tail
  · have hpass : passed true s = true := by simp [passed, hst]
    simp only [Slot.Holds, if_pos hst] at hh
    obtain ⟨rfl, hkey⟩ := hh
    have hsc : s.scanned skip true = s := by simp [Slot.scanned, hpass]
    rw [hsc]
    refine ⟨fun _ => hkey, fun h => ?_, rfl, by simp [Slot.Holds, hst, hkey], by simp [hkey]⟩
    rw [hpass] at h
    cases h
  · have hpass : passed true s = false := by simp [passed, hst]
    obtain ⟨s', hset, hiter, hS⟩ := Slot.settle_settled skip hr hh hst
    have hsc : s.scanned skip true = s' := by simp [Slot.scanned, hpass, hset]
    rw [hsc]
    refine ⟨fun h => ?_, fun _ => hset, hiter, hS⟩
    rw [hpass] at h
    cases h

end ReadAhead

/-! ## Choosing the key -/

section Pick

/-- The key `scan` picks among the keys read ahead from the `i`-th iterator on. -/
def pickFit (toNext : Bool) : ℕ → List (Option Bytes) → Option (Bytes × ℕ) → Option (Bytes × ℕ)
  | _, [], fit => fit
  | i, key :: keys, fit =>
    pickFit toNext (i + 1) keys
      (match key with
        | some key => if MergedIterator.better toNext key fit then some (key, i) else fit
        | none => fit)

/-- `scan`, where no iterator fails, reads ahead every iterator still in the walk and picks among
the keys read. -/
theorem scan_eq (skip : Bytes → Bool) (toNext : Bool) (i : ℕ) (ss : List (Slot ι))
    (fit : Option (Bytes × ℕ)) (hpassed : ∀ s ∈ ss, passed toNext s = true → s.key = none)
    (hsettle : ∀ s ∈ ss, passed toNext s = false → s.settle skip toNext = some (s.scanned skip toNext, none)) :
    MergedIterator.scan skip toNext i ss fit =
      some (ss.map (Slot.scanned skip toNext),
        .ok (pickFit toNext i (ss.map fun s => (s.scanned skip toNext).key) fit)) := by
  induction ss generalizing i fit with
  | nil => rfl
  | cons s ss ih =>
    have ih' := fun i fit => ih i fit (fun s' hs' => hpassed s' (List.mem_cons_of_mem s hs'))
      (fun s' hs' => hsettle s' (List.mem_cons_of_mem s hs'))
    by_cases h : passed toNext s
    · have hsc : s.scanned skip toNext = s := by simp [Slot.scanned, h]
      simp [MergedIterator.scan, h, ih', pickFit, hsc, hpassed s List.mem_cons_self h]
    · have hset := hsettle s List.mem_cons_self (by simpa using h)
      simp [MergedIterator.scan, h, hset, ih', pickFit]

/-- What the pick forward knows after the keys before `n`: nothing read, or the least key read
with the first index that holds it. -/
def FitBefore (keys : List (Option Bytes)) (n : ℕ) : Option (Bytes × ℕ) → Prop
  | none => ∀ j < n, keys[j]?.join = none
  | some (key, i) => i < n ∧ keys[i]?.join = some key ∧
      (∀ j < n, ∀ k, keys[j]?.join = some k → compare key k ≠ .gt) ∧
      ∀ j < i, keys[j]?.join ≠ some key

/-- One more key: the pick forward keeps the least key and its first index. -/
theorem FitBefore.succ {keys : List (Option Bytes)} (hne : ∀ (j : ℕ) (k : Bytes), keys[j]?.join = some k → k ≠ [])
    {n : ℕ} (hn : n < keys.length) {fit : Option (Bytes × ℕ)} (hfit : FitBefore keys n fit) :
    FitBefore keys (n + 1)
      (match keys[n] with
        | some key => if MergedIterator.better true key fit then some (key, n) else fit
        | none => fit) := by
  have hjn : ∀ j < n + 1, j ≠ n → j < n := fun j hj hne => by omega
  cases hkn : keys[n] with
  | none =>
    have hn' : keys[n]?.join = none := by simp [List.getElem?_eq_getElem hn, hkn]
    cases fit with
    | none =>
      intro j hj
      by_cases hjeq : j = n
      · rw [hjeq]; exact hn'
      · exact hfit j (hjn j hj hjeq)
    | some f =>
      obtain ⟨key, i⟩ := f
      obtain ⟨hi, hki, hmin, hfirst⟩ := hfit
      refine ⟨by omega, hki, fun j hj k hk => ?_, hfirst⟩
      by_cases hjeq : j = n
      · subst hjeq; simp [hn'] at hk
      · exact hmin j (hjn j hj hjeq) k hk
  | some key =>
    have hn' : keys[n]?.join = some key := by simp [List.getElem?_eq_getElem hn, hkn]
    cases fit with
    | none =>
      refine ⟨Nat.lt_succ_self n, hn', fun j hj k hk => ?_, fun j hj => ?_⟩
      · by_cases hjeq : j = n
        · subst hjeq
          rw [hn'] at hk
          cases hk
          simp [Std.compare_self]
        · rw [hfit j (hjn j hj hjeq)] at hk
          cases hk
      · rw [hfit j hj]
        simp
    | some f =>
      obtain ⟨fk, fi⟩ := f
      obtain ⟨hi, hki, hmin, hfirst⟩ := hfit
      have hfk : fk ≠ [] := hne fi fk hki
      by_cases hlt : compare key fk = .lt
      · have hbetter : MergedIterator.better true key (some (fk, fi)) = true := by
          simp [MergedIterator.better, hlt]
        simp only [hbetter, if_true]
        -- the new key is below every key read so far
        have hbelow : ∀ j < n, ∀ k, keys[j]?.join = some k → compare key k = .lt := fun j hj k hk =>
          Std.TransCmp.lt_of_lt_of_le hlt (hmin j hj k hk)
        refine ⟨Nat.lt_succ_self n, hn', fun j hj k hk => ?_, fun j hj hjk => ?_⟩
        · by_cases hjeq : j = n
          · subst hjeq
            rw [hn'] at hk
            cases hk
            simp [Std.compare_self]
          · rw [hbelow j (hjn j hj hjeq) k hk]
            simp
        · have := hbelow j hj key hjk
          simp [Std.compare_self] at this
      · have hbetter : MergedIterator.better true key (some (fk, fi)) = false := by
          simp [MergedIterator.better, hlt, hfk]
        simp only [hbetter, Bool.false_eq_true, if_false]
        refine ⟨by omega, hki, fun j hj k hk => ?_, hfirst⟩
        by_cases hjeq : j = n
        · subst hjeq
          rw [hn'] at hk
          cases hk
          exact fun hgt => hlt (Std.OrientedCmp.gt_iff_lt.mp hgt)
        · exact hmin j (hjn j hj hjeq) k hk

/-- The pick forward from the `n`-th key on ends with the least key and its first index. -/
theorem fitBefore_pickFit {keys : List (Option Bytes)} (hne : ∀ (j : ℕ) (k : Bytes), keys[j]?.join = some k → k ≠ [])
    {n : ℕ} {fit : Option (Bytes × ℕ)} (hfit : FitBefore keys n fit) :
    FitBefore keys keys.length (pickFit true n (keys.drop n) fit) := by
  -- an induction on the keys left to read
  generalize hm : keys.length - n = m
  induction m generalizing n fit with
  | zero =>
    have hdrop : keys.drop n = [] := List.drop_eq_nil_of_le (by omega)
    rw [hdrop, pickFit]
    by_cases hle : keys.length ≤ n
    · have hlen : keys.length = n ∨ keys.length < n := by omega
      cases fit with
      | none => exact fun j hj => hfit j (by omega)
      | some f =>
        obtain ⟨key, i⟩ := f
        obtain ⟨hi, hki, hmin, hfirst⟩ := hfit
        have hi' : i < keys.length := by
          by_contra hcon
          simp [List.getElem?_eq_none (show keys.length ≤ i by omega)] at hki
        exact ⟨hi', hki, fun j hj k hk => hmin j (by omega) k hk, hfirst⟩
    · omega
  | succ m ih =>
    have hn : n < keys.length := by omega
    rw [List.drop_eq_getElem_cons hn]
    exact ih (hfit.succ hne hn) (by omega)

end Pick

/-! ## The walk forward -/

section Forward

/-- An entry of the walk over slots that still return `P`: it is in the first slot with its
key. -/
def InView (P : List (List (Bytes × Bytes))) (e : Bytes × Bytes) : Prop :=
  ∃ i : ℕ, (∃ Pi ∈ P[i]?, e ∈ Pi) ∧ ∀ j < i, ∀ Pj ∈ P[j]?, e.1 ∉ Pj.map Prod.fst

/-- The entries of a slot that a walk skipping `skip` can return. -/
def kept (skip : Bytes → Bool) (Pi : List (Bytes × Bytes)) : List (Bytes × Bytes) :=
  Pi.filter fun e => !skip e.1

variable {skip : Bytes → Bool}

theorem kept_dropWhile (Pi : List (Bytes × Bytes)) :
    kept skip (Pi.dropWhile fun e => skip e.1) = kept skip Pi := by
  induction Pi with
  | nil => rfl
  | cons e Pi ih =>
    by_cases h : skip e.1
    · rw [List.dropWhile_cons_of_pos (p := fun x : Bytes × Bytes => skip x.1) h, ih]
      simp [kept, h]
    · rw [List.dropWhile_cons_of_neg (p := fun x : Bytes × Bytes => skip x.1) h]

theorem kept_cons_of_skip {e : Bytes × Bytes} (h : skip e.1 = true) (Pi : List (Bytes × Bytes)) :
    kept skip (e :: Pi) = kept skip Pi := by
  simp [kept, h]

private theorem mem_keys_kept {k : Bytes} (hk : skip k = false) (Pi : List (Bytes × Bytes)) :
    k ∈ (kept skip Pi).map Prod.fst ↔ k ∈ Pi.map Prod.fst := by
  simp only [kept, List.mem_map, List.mem_filter]
  constructor
  · rintro ⟨x, ⟨hx, -⟩, rfl⟩
    exact ⟨x, hx, rfl⟩
  · rintro ⟨x, hx, rfl⟩
    exact ⟨x, ⟨hx, by simp [hk]⟩, rfl⟩

/-- Dropping skipped entries does not change what the walk returns. -/
theorem inView_iff_of_kept {P Q : List (List (Bytes × Bytes))} (hPQ : P.map (kept skip) = Q.map (kept skip))
    {e : Bytes × Bytes} (he : skip e.1 = false) : InView P e ↔ InView Q e := by
  have hkept : ∀ R : List (List (Bytes × Bytes)), InView (R.map (kept skip)) e ↔ InView R e := by
    intro R
    simp only [InView, List.getElem?_map, Option.mem_def, Option.map_eq_some_iff]
    constructor
    · rintro ⟨i, ⟨_, ⟨Ri, hRi, rfl⟩, hmem⟩, hfirst⟩
      refine ⟨i, ⟨Ri, hRi, (List.mem_filter.mp hmem).1⟩, fun j hj Rj hRj hk => ?_⟩
      exact hfirst j hj _ ⟨Rj, hRj, rfl⟩ ((mem_keys_kept he Rj).mpr hk)
    · rintro ⟨i, ⟨Ri, hRi, hmem⟩, hfirst⟩
      refine ⟨i, ⟨kept skip Ri, ⟨Ri, hRi, rfl⟩, List.mem_filter.mpr ⟨hmem, by simp [he]⟩⟩, ?_⟩
      rintro j hj _ ⟨Rj, hRj, rfl⟩ hk
      exact hfirst j hj Rj hRj ((mem_keys_kept he Rj).mp hk)
  rw [← hkept P, hPQ, hkept Q]

/-- Over slots that each return increasing keys, the walk returns one entry per key. -/
theorem InView.eq_of_fst_eq {P : List (List (Bytes × Bytes))} (hinc : ∀ Q ∈ P, KeysIncrease Q)
    {e e' : Bytes × Bytes} (he : InView P e) (he' : InView P e') (hk : e.1 = e'.1) : e = e' := by
  obtain ⟨i, ⟨Q, hQ, heQ⟩, hfirst⟩ := he
  obtain ⟨i', ⟨Q', hQ', heQ'⟩, hfirst'⟩ := he'
  rcases lt_trichotomy i i' with hlt | rfl | hgt
  · exact absurd (hk ▸ List.mem_map_of_mem heQ) (hfirst' i hlt Q hQ)
  · obtain rfl : Q = Q' := Option.some.inj (hQ.symm.trans hQ')
    exact (hinc Q (List.mem_of_getElem? hQ)).eq_of_fst_eq heQ heQ' hk
  · exact absurd (hk ▸ List.mem_map_of_mem heQ') (hfirst i' hgt Q' hQ')

/-- The slots of a walk and what each still returns, side by side. -/
def SlotsHold (slots : List (Slot ι)) (P : List (List (Bytes × Bytes))) : Prop :=
  slots.length = P.length ∧
    ∀ (j : ℕ) (s : Slot ι) (Pj : List (Bytes × Bytes)), slots[j]? = some s → P[j]? = some Pj → s.Holds Pj

namespace MergedIterator

/-- The entries a walk forward from `mi` still returns, over slots that return `P`. -/
def View (mi : MergedIterator ι) (P : List (List (Bytes × Bytes))) (e : Bytes × Bytes) : Prop :=
  skipKey mi.isDelete mi.prevKey e.1 = false ∧ InView P e

/-- The invariant of a walk forward: no error so far; each slot returns its list of `P`,
increasing in key and not below the key returned last; and the walk stands at one of the slots,
which holds that key or none. -/
structure Forward (mi : MergedIterator ι) (P : List (List (Bytes × Bytes))) : Prop where
  direction : mi.directionToNext = true
  err : mi.err = none
  holds : SlotsHold mi.slots P
  ranked : ∀ s ∈ mi.slots, s.iter.Ranked
  increasing : ∀ Pi ∈ P, KeysIncrease Pi
  above : ∀ Pi ∈ P, ∀ e ∈ Pi, compare (mi.prevKey.getD []) e.1 ≠ .gt
  prevKey_ne : mi.prevKey ≠ some []
  index : ∀ i : ℕ, mi.index = some i →
    i < mi.slots.length ∧ ∀ s ∈ mi.slots[i]?, s.key = none ∨ s.key = mi.prevKey

private theorem mem_modify {l : List (Slot ι)} {i : ℕ} {f : Slot ι → Slot ι} {s : Slot ι}
    (h : s ∈ l.modify i f) : s ∈ l ∨ ∃ a ∈ l, s = f a := by
  obtain ⟨j, hj⟩ := List.mem_iff_getElem?.mp h
  rw [List.getElem?_modify] at hj
  cases ha : l[j]? with
  | none => simp [ha] at hj
  | some a =>
    have hmem : a ∈ l := List.mem_of_getElem? ha
    simp only [ha, Option.map_eq_map, Option.map_some, Option.some.injEq] at hj
    split_ifs at hj
    · exact .inr ⟨a, hmem, hj.symm⟩
    · exact .inl (hj ▸ hmem)

theorem SlotsHold.modify_set {slots : List (Slot ι)} {P : List (List (Bytes × Bytes))}
    (h : SlotsHold slots P) {i : ℕ} {f : Slot ι → Slot ι} {s : Slot ι} (hs : slots[i]? = some s)
    {Q : List (Bytes × Bytes)} (hQ : (f s).Holds Q) : SlotsHold (slots.modify i f) (P.set i Q) := by
  refine ⟨by simp [h.1], fun j s' Pj hs' hPj => ?_⟩
  by_cases hji : i = j
  · subst hji
    have hi : i < P.length := h.1 ▸ (List.getElem?_eq_some_iff.mp hs).1
    rw [List.getElem?_modify_eq, hs] at hs'
    rw [List.getElem?_set_self hi] at hPj
    cases hs'
    cases hPj
    exact hQ
  · rw [List.getElem?_modify_ne _ _ hji] at hs'
    rw [List.getElem?_set_ne hji] at hPj
    exact h.2 j s' Pj hs' hPj

theorem SlotsHold.holds_of_mem {slots : List (Slot ι)} {P : List (List (Bytes × Bytes))}
    (h : SlotsHold slots P) {s : Slot ι} (hs : s ∈ slots) : ∃ Pj ∈ P, s.Holds Pj := by
  obtain ⟨j, hj⟩ := List.mem_iff_getElem?.mp hs
  have hjP : j < P.length := h.1 ▸ (List.getElem?_eq_some_iff.mp hj).1
  exact ⟨P[j], List.getElem_mem hjP, h.2 j s P[j] hj (List.getElem?_eq_getElem hjP)⟩

/-- Dropping the key returned last leaves the walk as it was: that key is skipped anyway. -/
theorem Forward.dropIndex {mi : MergedIterator ι} {P : List (List (Bytes × Bytes))}
    (hf : Forward mi P) :
    ∃ mi₁ P₁, mi.dropIndex = some mi₁ ∧ mi₁.isDelete = mi.isDelete ∧ mi₁.prevKey = mi.prevKey ∧
      Forward mi₁ P₁ ∧
      P₁.map (kept (skipKey mi.isDelete mi.prevKey)) = P.map (kept (skipKey mi.isDelete mi.prevKey)) := by
  -- the walk with its slots replaced, once the index is dropped
  have hnew : ∀ slots P₁, SlotsHold slots P₁ → (∀ s ∈ slots, s ∈ mi.slots ∨ ∃ a ∈ mi.slots, s.iter = a.iter) →
      (∀ Q ∈ P₁, ∃ Pi ∈ P, List.Sublist Q Pi) → Forward { mi with slots, index := none } P₁ := by
    intro slots P₁ hh hiter hsub
    refine ⟨hf.direction, hf.err, hh, fun s hs => ?_, fun Q hQ => ?_, fun Q hQ e he => ?_, hf.prevKey_ne,
      by simp⟩
    · rcases hiter s hs with hs' | ⟨a, ha, heq⟩
      · exact hf.ranked s hs'
      · exact heq ▸ hf.ranked a ha
    · obtain ⟨Pi, hPi, hsub'⟩ := hsub Q hQ
      exact (hf.increasing Pi hPi).sublist hsub'
    · obtain ⟨Pi, hPi, hsub'⟩ := hsub Q hQ
      exact hf.above Pi hPi e (hsub'.subset he)
  cases hidx : mi.index with
  | none =>
    exact ⟨mi, P, by simp [MergedIterator.dropIndex, hidx], rfl, rfl, hf, rfl⟩
  | some i =>
    -- the walk stands at a slot, so `keys[index] = nil` does not panic
    have hi : i < mi.slots.length := (hf.index i hidx).1
    have hdrop : mi.dropIndex =
        some { mi with slots := mi.slots.modify i (fun s => { s with key := none }), index := none } := by
      simp [MergedIterator.dropIndex, hidx, hi]
    obtain ⟨s, hs⟩ : ∃ s, mi.slots[i]? = some s := ⟨_, List.getElem?_eq_getElem hi⟩
    have hiP : i < P.length := hf.holds.1 ▸ hi
    obtain ⟨Pi, hPi⟩ : ∃ Pi, P[i]? = some Pi := ⟨P[i], List.getElem?_eq_getElem hiP⟩
    have hh := hf.holds.2 i s Pi hs hPi
    have hiter : ∀ s' ∈ mi.slots.modify i (fun s => { s with key := none }),
        s' ∈ mi.slots ∨ ∃ a ∈ mi.slots, s'.iter = a.iter := fun s' h' => by
      rcases mem_modify h' with h'' | ⟨a, ha, rfl⟩
      · exact .inl h''
      · exact .inr ⟨a, ha, rfl⟩
    have hgetPi : P[i] = Pi := by
      rw [List.getElem?_eq_getElem hiP] at hPi
      exact Option.some.inj hPi
    cases hk : s.key with
    | none =>
      -- nothing was held: the slot is as it was
      have hclear : { s with key := none } = s := by cases s; simp_all
      have hh' : ({ s with key := none } : Slot ι).Holds Pi := hclear ▸ hh
      have hset : P.set i Pi = P := by rw [← hgetPi, List.set_getElem_self hiP]
      exact ⟨_, P, hdrop, rfl, rfl, hnew _ _ (hset ▸ SlotsHold.modify_set hf.holds hs hh') hiter
        (fun Q hQ => ⟨Q, hQ, List.Sublist.refl Q⟩), rfl⟩
    | some k =>
      -- the key returned last was held: it goes, and the slot returns the rest
      have hkey : mi.prevKey = some k := by
        rcases (hf.index i hidx).2 s hs with h | h
        · rw [hk] at h; cases h
        · rw [← h, hk]
      have hst : s.status ≠ .Tail := fun hst => by simp [Slot.Holds, hst, hk] at hh
      simp only [Slot.Holds, if_neg hst, hk] at hh
      obtain ⟨v, R, rfl, -, hy⟩ := hh
      have hR : ({ s with key := none } : Slot ι).Holds R := by
        simp only [Slot.Holds, if_neg hst]
        exact hy
      have hskip : skipKey mi.isDelete mi.prevKey k = true := by
        simp [skipKey, hkey]
      refine ⟨_, P.set i R, hdrop, rfl, rfl, hnew _ _ (SlotsHold.modify_set hf.holds hs hR) hiter (fun Q hQ => ?_), ?_⟩
      · rcases List.mem_or_eq_of_mem_set hQ with hQ' | hQR
        · exact ⟨Q, hQ', List.Sublist.refl Q⟩
        · exact ⟨(k, v) :: R, List.mem_of_getElem? hPi, hQR ▸ List.sublist_cons_self _ _⟩
      · have hself := @List.set_getElem_self _ (P.map (kept (skipKey mi.isDelete mi.prevKey))) i
          (by simpa using hiP)
        rw [List.getElem_map, hgetPi, kept_cons_of_skip (e := (k, v)) hskip R] at hself
        rw [List.map_set, hself]

/-- The keys a walk forward still returns start at the head of each slot's list. -/
private theorem head_le {Q : List (Bytes × Bytes)} (hQ : KeysIncrease Q) {h : Bytes × Bytes}
    (hh : Q.head? = some h) {e : Bytes × Bytes} (he : e ∈ Q) : compare h.1 e.1 ≠ .gt := by
  cases Q with
  | nil => cases hh
  | cons x R =>
    cases hh
    rcases List.mem_cons.mp he with rfl | hR
    · simp [Std.compare_self]
    · rw [(List.pairwise_cons.mp hQ).1 e hR]
      simp

private theorem head?_dropWhile_kept {skip : Bytes → Bool} (Q : List (Bytes × Bytes)) {e : Bytes × Bytes}
    (he : (Q.dropWhile fun x => skip x.1).head? = some e) : skip e.1 = false := by
  have h := List.head?_dropWhile_not (fun x : Bytes × Bytes => skip x.1) Q
  rw [he] at h
  exact h

/-- A kept key of a walk forward is not empty: it is at least `prevKey`, and not `prevKey`. -/
private theorem ne_nil_of_kept {isDelete : Option (Bytes → Bool)} {prevKey : Option Bytes} {k : Bytes}
    (hk : skipKey isDelete prevKey k = false) (habove : compare (prevKey.getD []) k ≠ .gt) : k ≠ [] := by
  rintro rfl
  have hprev : prevKey.getD [] = [] := by
    cases h : prevKey.getD [] with
    | nil => rfl
    | cons x xs => rw [h, List.compare_cons_nil] at habove; exact absurd rfl habove
  simp [skipKey, hprev] at hk

/-- What the read-ahead of a walk forward leaves: every slot still in the walk holds the first
kept entry of what it returns. -/
theorem Forward.settled {mi : MergedIterator ι} {P : List (List (Bytes × Bytes))} (hf : Forward mi P)
    (skip : Bytes → Bool) :
    (mi.slots.map (Slot.scanned skip true)).length = (P.map (List.dropWhile fun e => skip e.1)).length ∧
      ∀ (j : ℕ) (s : Slot ι) (Q : List (Bytes × Bytes)),
        (mi.slots.map (Slot.scanned skip true))[j]? = some s →
        (P.map (List.dropWhile fun e => skip e.1))[j]? = some Q → s.Settled Q := by
  refine ⟨by simp [hf.holds.1], fun j s Q hs hQ => ?_⟩
  rw [List.getElem?_map] at hs hQ
  obtain ⟨s₀, hs₀, rfl⟩ := Option.map_eq_some_iff.mp hs
  obtain ⟨P₀, hP₀, rfl⟩ := Option.map_eq_some_iff.mp hQ
  exact (Slot.scanned_settled skip (hf.ranked s₀ (List.mem_of_getElem? hs₀)) (hf.holds.2 j s₀ P₀ hs₀ hP₀)).2.2.2

/-- The read-ahead of a walk forward meets no error: `scan` reads ahead every slot still in the
walk and picks among the keys read. -/
theorem Forward.scan_eq {mi : MergedIterator ι} {P : List (List (Bytes × Bytes))} (hf : Forward mi P)
    (skip : Bytes → Bool) :
    scan skip true 0 mi.slots none =
      some (mi.slots.map (Slot.scanned skip true),
        .ok (pickFit true 0 (mi.slots.map fun s => (s.scanned skip true).key) none)) := by
  refine Vite.Db.scan_eq skip true 0 mi.slots none (fun s hs => ?_) (fun s hs => ?_)
  · obtain ⟨Pj, -, hh⟩ := SlotsHold.holds_of_mem hf.holds hs
    exact (Slot.scanned_settled skip (hf.ranked s hs) hh).1
  · obtain ⟨Pj, -, hh⟩ := SlotsHold.holds_of_mem hf.holds hs
    exact (Slot.scanned_settled skip (hf.ranked s hs) hh).2.1

/-- The keys `scan` picks among are the heads of the slots' lists after the read-ahead. -/
theorem Forward.scan_keys {mi : MergedIterator ι} {P : List (List (Bytes × Bytes))} (hf : Forward mi P)
    (skip : Bytes → Bool) :
    (mi.slots.map fun s => (s.scanned skip true).key) =
      (P.map (List.dropWhile fun e => skip e.1)).map fun Q => Q.head?.map Prod.fst := by
  have hset := hf.settled skip
  apply List.ext_getElem?
  intro j
  rw [List.getElem?_map, List.getElem?_map]
  cases hs : mi.slots[j]? with
  | none =>
    have : P.length ≤ j := hf.holds.1 ▸ List.getElem?_eq_none_iff.mp hs
    simp [List.getElem?_eq_none this]
  | some s =>
    have hj : j < P.length := hf.holds.1 ▸ (List.getElem?_eq_some_iff.mp hs).1
    obtain ⟨Pj, hPj⟩ : ∃ Pj, P[j]? = some Pj := ⟨P[j], List.getElem?_eq_getElem hj⟩
    have hS := (hset.2 j (s.scanned skip true) (Pj.dropWhile fun e => skip e.1) (by simp [hs])
      (by simp [hPj])).2
    simp only [List.getElem?_map, hPj, Option.map_some, Option.some.injEq]
    exact hS

/-- The step of a walk forward, once the key returned last is dropped: `scan` reads ahead and
picks among the heads of what the slots still return. -/
theorem Forward.stepFrom_eq {mi : MergedIterator ι} {P : List (List (Bytes × Bytes))} (hf : Forward mi P) :
    mi.stepFrom true =
      some (match pickFit true 0 ((P.map (List.dropWhile fun e => skipKey mi.isDelete mi.prevKey e.1)).map
          fun Q => Q.head?.map Prod.fst) none with
      | none =>
        ({ mi with slots := mi.slots.map (Slot.scanned (skipKey mi.isDelete mi.prevKey) true), prevKey := none },
          false)
      | some (key, i) =>
        ({ mi with
          slots := mi.slots.map (Slot.scanned (skipKey mi.isDelete mi.prevKey) true)
          index := some i
          prevKey := some key }, true)) := by
  unfold stepFrom
  rw [hf.scan_eq, hf.scan_keys]
  cases pickFit true 0 ((P.map (List.dropWhile fun e => skipKey mi.isDelete mi.prevKey e.1)).map
    fun Q => Q.head?.map Prod.fst) none <;> rfl

section Picked

variable {P₂ : List (List (Bytes × Bytes))}

/-- Nothing read ahead: the walk has nothing left. -/
theorem not_inView_of_fitBefore_none
    (hfit : FitBefore (P₂.map fun Q => Q.head?.map Prod.fst) (P₂.map fun Q => Q.head?.map Prod.fst).length none)
    (e : Bytes × Bytes) : ¬ InView P₂ e := by
  rintro ⟨i, ⟨Q, hQ, he⟩, -⟩
  have hi : i < P₂.length := (List.getElem?_eq_some_iff.mp hQ).1
  cases Q with
  | nil => cases he
  | cons h R =>
    have := hfit i (by simpa using hi)
    simp [List.getElem?_map, Option.mem_def.mp hQ] at this

/-- The key picked forward is the head of its slot, the least key left in any slot, and the
entry the walk returns for it. -/
theorem inView_of_fitBefore_some (hinc : ∀ Q ∈ P₂, KeysIncrease Q) {k : Bytes} {i : ℕ}
    (hfit : FitBefore (P₂.map fun Q => Q.head?.map Prod.fst) (P₂.map fun Q => Q.head?.map Prod.fst).length
      (some (k, i))) :
    ∃ v R, P₂[i]? = some ((k, v) :: R) ∧ InView P₂ (k, v) ∧
      ∀ Q ∈ P₂, ∀ e ∈ Q, compare k e.1 ≠ .gt := by
  obtain ⟨-, hki, hmin, hfirst⟩ := hfit
  simp only [List.getElem?_map] at hki
  obtain ⟨Q, hQ, hQk⟩ : ∃ Q, P₂[i]? = some Q ∧ Q.head?.map Prod.fst = some k := by
    cases h : P₂[i]? with
    | none => simp [h] at hki
    | some Q => exact ⟨Q, rfl, by simpa [h] using hki⟩
  obtain ⟨⟨k', v⟩, hhead, rfl⟩ := Option.map_eq_some_iff.mp hQk
  obtain ⟨R, rfl⟩ : ∃ R, Q = (k', v) :: R := by
    cases Q with
    | nil => cases hhead
    | cons x R => cases hhead; exact ⟨R, rfl⟩
  -- every key left is at least the head of its slot, which is at least the key picked
  have hle : ∀ Q ∈ P₂, ∀ e ∈ Q, compare k' e.1 ≠ .gt := by
    intro Q' hQ' e he
    obtain ⟨j, hj⟩ := List.mem_iff_getElem?.mp hQ'
    obtain ⟨h, hh⟩ : ∃ h, Q'.head? = some h := by
      cases Q' with
      | nil => cases he
      | cons x _ => exact ⟨x, rfl⟩
    have hkh : compare k' h.1 ≠ .gt := hmin j (by simpa using (List.getElem?_eq_some_iff.mp hj).1) h.1
      (by simp [List.getElem?_map, hj, hh])
    exact Std.TransCmp.le_trans hkh (head_le (hinc Q' hQ') hh he)
  refine ⟨v, R, hQ, ⟨i, ⟨_, hQ, List.mem_cons_self⟩, fun j hj Qj hQj hmem => ?_⟩, hle⟩
  -- a slot before the picked one holding the key would have it as its head
  obtain ⟨e, he, hek⟩ := List.mem_map.mp hmem
  obtain ⟨h, hh⟩ : ∃ h, Qj.head? = some h := by
    cases Qj with
    | nil => cases he
    | cons x _ => exact ⟨x, rfl⟩
  have hQjmem : Qj ∈ P₂ := List.mem_of_getElem? hQj
  have h1 : compare h.1 k' ≠ .gt := by
    have hek' : e.1 = k' := hek
    rw [← hek']
    exact head_le (hinc Qj hQjmem) hh he
  have h2 : compare k' h.1 ≠ .gt := hle Qj hQjmem h (by
    cases Qj with
    | nil => cases hh
    | cons x _ => cases hh; exact List.mem_cons_self)
  have hkh : h.1 = k' := by
    rcases hc : compare h.1 k' with _ | _ | _
    · exact absurd (Std.OrientedCmp.gt_iff_lt.mpr hc) h2
    · exact Std.compare_eq_iff_eq.mp hc
    · exact absurd hc h1
  exact hfirst j hj (by simp [List.getElem?_map, Option.mem_def.mp hQj, hh, hkh])

end Picked

/-- One step of a walk forward once the key returned last is dropped: the walk has nothing left
and reports the end, or it returns the least entry left and goes on without it. -/
theorem Forward.stepFrom_spec {mi : MergedIterator ι} {P : List (List (Bytes × Bytes))} (hf : Forward mi P) :
    ∃ r, mi.stepFrom true = some r ∧
      ((r.2 = false ∧ r.1.err = none ∧ ∀ e, ¬ mi.View P e) ∨
        ∃ e, mi.View P e ∧ (∀ e', mi.View P e' → compare e.1 e'.1 ≠ .gt) ∧
          r.2 = true ∧ Key r.1 = some (some e.1) ∧ Value r.1 = some (some e.2) ∧
          ∃ P', Forward r.1 P' ∧ ∀ e', View r.1 P' e' ↔ mi.View P e' ∧ e'.1 ≠ e.1) := by
  have hsettled := hf.settled (skipKey mi.isDelete mi.prevKey)
  refine ⟨_, hf.stepFrom_eq, ?_⟩
  generalize hsk : skipKey mi.isDelete mi.prevKey = sk at hsettled
  generalize hP₂ : P.map (List.dropWhile fun e => sk e.1) = P₂ at hsettled
  -- what the slots return after the read-ahead: the same kept entries, from a kept head on
  have hsub : ∀ Q ∈ P₂, ∃ Q₀ ∈ P, List.Sublist Q Q₀ := by
    intro Q hQ
    rw [← hP₂] at hQ
    obtain ⟨Q₀, hQ₀, rfl⟩ := List.mem_map.mp hQ
    exact ⟨Q₀, hQ₀, List.dropWhile_sublist _⟩
  have hkept : P₂.map (kept sk) = P.map (kept sk) := by
    rw [← hP₂, List.map_map]
    exact List.map_congr_left fun Q _ => kept_dropWhile Q
  have hview : ∀ e, mi.View P e ↔ sk e.1 = false ∧ InView P₂ e := fun e => by
    unfold View
    rw [hsk]
    exact and_congr_right fun he => (inView_iff_of_kept hkept he).symm
  have hinc : ∀ Q ∈ P₂, KeysIncrease Q := fun Q hQ => by
    obtain ⟨Q₀, hQ₀, hs⟩ := hsub Q hQ
    exact (hf.increasing Q₀ hQ₀).sublist hs
  have habove : ∀ Q ∈ P₂, ∀ e ∈ Q, compare (mi.prevKey.getD []) e.1 ≠ .gt := fun Q hQ e he => by
    obtain ⟨Q₀, hQ₀, hs⟩ := hsub Q hQ
    exact hf.above Q₀ hQ₀ e (hs.subset he)
  have hhead : ∀ (j : ℕ) (Q : List (Bytes × Bytes)) (e : Bytes × Bytes), P₂[j]? = some Q → Q.head? = some e →
      sk e.1 = false := by
    intro j Q e hQ he
    rw [← hP₂, List.getElem?_map] at hQ
    obtain ⟨Q₀, -, rfl⟩ := Option.map_eq_some_iff.mp hQ
    exact head?_dropWhile_kept Q₀ he
  have hne : ∀ (j : ℕ) (k : Bytes), (P₂.map fun Q => Q.head?.map Prod.fst)[j]?.join = some k → k ≠ [] := by
    intro j k hk
    rw [List.getElem?_map] at hk
    cases hQ : P₂[j]? with
    | none => simp [hQ] at hk
    | some Q =>
      simp only [hQ, Option.map_some, Option.join_some] at hk
      obtain ⟨e, he, rfl⟩ := Option.map_eq_some_iff.mp hk
      refine ne_nil_of_kept (hsk ▸ hhead j Q e hQ he) (habove Q (List.mem_of_getElem? hQ) e ?_)
      cases Q with
      | nil => cases he
      | cons x _ => cases he; exact List.mem_cons_self
  have hfit := @fitBefore_pickFit _ hne 0 none (fun j hj => absurd hj (Nat.not_lt_zero j))
  rw [List.drop_zero] at hfit
  cases hr : pickFit true 0 (P₂.map fun Q => Q.head?.map Prod.fst) none with
  | none =>
    rw [hr] at hfit
    exact .inl ⟨rfl, hf.err, fun e he => not_inView_of_fitBefore_none hfit e ((hview e).mp he).2⟩
  | some f =>
    obtain ⟨k, i⟩ := f
    rw [hr] at hfit
    obtain ⟨v, R, hQ, hin, hle⟩ := inView_of_fitBefore_some hinc hfit
    have hkk : sk k = false := hhead i _ (k, v) hQ rfl
    have hkne : k ≠ [] := ne_nil_of_kept (hsk ▸ hkk) (habove _ (List.mem_of_getElem? hQ) (k, v) List.mem_cons_self)
    -- the slot the walk now stands at
    have hi : i < (mi.slots.map (Slot.scanned sk true)).length := by
      rw [hsettled.1]
      exact (List.getElem?_eq_some_iff.mp hQ).1
    obtain ⟨s₂, hs₂⟩ : ∃ s₂, (mi.slots.map (Slot.scanned sk true))[i]? = some s₂ :=
      ⟨_, List.getElem?_eq_getElem hi⟩
    obtain ⟨hh₂, hkey₂⟩ := hsettled.2 i s₂ _ hs₂ hQ
    have hst₂ : s₂.status ≠ .Tail := fun h => by simp [Slot.Holds, h] at hh₂
    simp only [List.head?_cons, Option.map_some] at hkey₂
    simp only [Slot.Holds, if_neg hst₂, hkey₂] at hh₂
    obtain ⟨v', R', hvR, hv', -⟩ := hh₂
    obtain ⟨rfl, rfl⟩ : v = v' ∧ R = R' := by simpa using hvR
    refine .inr ⟨(k, v), (hview _).mpr ⟨hkk, hin⟩, fun e' he' => ?_, rfl, ?_, ?_, P₂, ?_, fun e' => ?_⟩
    · obtain ⟨j, ⟨Q, hQj, he'Q⟩, -⟩ := ((hview e').mp he').2
      exact hle Q (List.mem_of_getElem? hQj) e' he'Q
    · simp [Key, hf.err, hs₂, hkey₂]
    · simp [Value, hf.err, hs₂, hkey₂, hkne, hv']
    · refine ⟨hf.direction, hf.err, ⟨hsettled.1, fun j s Q hs hQ' => (hsettled.2 j s Q hs hQ').1⟩,
        fun s hs => ?_, hinc, fun Q hQ' e he => hle Q hQ' e he, by simpa using hkne, ?_⟩
      · -- the read-ahead keeps each slot's iterator
        obtain ⟨s₀, hs₀, rfl⟩ := List.mem_map.mp hs
        obtain ⟨Pj, -, hh⟩ := SlotsHold.holds_of_mem hf.holds hs₀
        rw [(Slot.scanned_settled sk (hf.ranked s₀ hs₀) hh).2.2.1]
        exact hf.ranked s₀ hs₀
      · rintro i' hi'
        simp only [Option.some.injEq] at hi'
        subst hi'
        refine ⟨hi, fun s hs => ?_⟩
        rw [hs₂] at hs
        cases hs
        exact .inr hkey₂
    · -- the new walk skips the key returned, and no longer `prevKey`, which lies below it
      have hpk : compare (mi.prevKey.getD []) k = .lt := by
        rcases hc : compare (mi.prevKey.getD []) k with _ | _ | _
        · rfl
        · rw [← hsk, skipKey_of_eq_prevKey (Std.compare_eq_iff_eq.mp hc).symm] at hkk
          cases hkk
        · exact absurd hc (habove _ (List.mem_of_getElem? hQ) (k, v) List.mem_cons_self)
      show (skipKey mi.isDelete (some k) e'.1 = false ∧ InView P₂ e') ↔ _
      rw [hview, ← hsk]
      constructor
      · rintro ⟨hs', hin'⟩
        have hne' : e'.1 ≠ k := fun h => by rw [skipKey_of_eq_prevKey h] at hs'; cases hs'
        have hke : compare k e'.1 = .lt := by
          obtain ⟨j, ⟨Q, hQj, he'Q⟩, -⟩ := hin'
          rcases hc : compare k e'.1 with _ | _ | _
          · rfl
          · exact absurd (Std.compare_eq_iff_eq.mp hc).symm hne'
          · exact absurd hc (hle Q (List.mem_of_getElem? hQj) e' he'Q)
        have hprev : e'.1 ≠ mi.prevKey.getD [] := fun h => by
          have hlt := Std.TransCmp.lt_trans hpk hke
          rw [h, Std.compare_self] at hlt
          cases hlt
        exact ⟨⟨(skipKey_congr_prevKey (q := some k) hprev hne').trans hs', hin'⟩, hne'⟩
      · rintro ⟨⟨hs', hin'⟩, hne'⟩
        have hprev : e'.1 ≠ mi.prevKey.getD [] := fun h => by
          rw [skipKey_of_eq_prevKey h] at hs'
          cases hs'
        exact ⟨(skipKey_congr_prevKey (q := mi.prevKey) hne' hprev).trans hs', hin'⟩

/-- One `Next` of a walk forward: it reports the end, with nothing left to return and no error,
or it returns the least entry left and goes on without its key. -/
theorem Forward.next {mi : MergedIterator ι} {P : List (List (Bytes × Bytes))} (hf : Forward mi P) :
    ∃ r, Next mi = some r ∧
      ((r.2 = false ∧ r.1.err = none ∧ ∀ e, ¬ mi.View P e) ∨
        ∃ e, mi.View P e ∧ (∀ e', mi.View P e' → compare e.1 e'.1 ≠ .gt) ∧
          r.2 = true ∧ Key r.1 = some (some e.1) ∧ Value r.1 = some (some e.2) ∧
          ∃ P', Forward r.1 P' ∧ ∀ e', View r.1 P' e' ↔ mi.View P e' ∧ e'.1 ≠ e.1) := by
  obtain ⟨mi₁, P₁, hdrop, hdel, hprev, hf₁, hkept⟩ := hf.dropIndex
  have hnext : Next mi = mi₁.stepFrom true := by
    simp [Next, step, hf.err, hf.direction, hdrop]
  have hview : ∀ e, mi₁.View P₁ e ↔ mi.View P e := by
    intro e
    unfold View
    rw [hdel, hprev]
    exact and_congr_right fun he => inView_iff_of_kept hkept he
  obtain ⟨r, hr, hstep⟩ := hf₁.stepFrom_spec
  simp only [hview] at hstep
  exact ⟨r, hnext.trans hr, hstep⟩

/-- A walk forward with nothing left to return reports the end. -/
theorem Forward.yieldsInOrder_of_none {mi : MergedIterator ι} {P : List (List (Bytes × Bytes))}
    (hf : Forward mi P) (hnone : ∀ e, ¬ mi.View P e) : YieldsInOrder mergedIterator mi (mi.View P) := by
  refine ⟨[], ?_, List.Pairwise.nil, fun e => ⟨fun h => absurd h List.not_mem_nil, fun h => absurd h (hnone e)⟩⟩
  obtain ⟨⟨mi', b⟩, hr, ⟨rfl, herr, -⟩ | ⟨e, he, -⟩⟩ := hf.next
  · have herr' : mi'.err = none := herr
    exact ⟨mi', hr, by simp [mergedIterator, herr', fatalError]⟩
  · exact absurd he (hnone e)

/-- The run of a walk forward, by induction on the keys it may still return: `Next` returns every
entry left once, in increasing key order. -/
theorem Forward.yieldsInOrder_of_keys (n : ℕ) :
    ∀ {mi : MergedIterator ι} {P : List (List (Bytes × Bytes))} (K : List Bytes), K.length ≤ n →
      Forward mi P → (∀ e, mi.View P e → e.1 ∈ K) → YieldsInOrder mergedIterator mi (mi.View P) := by
  induction n with
  | zero =>
    intro mi P K hK hf hkeys
    obtain rfl : K = [] := List.eq_nil_of_length_eq_zero (Nat.le_zero.mp hK)
    exact hf.yieldsInOrder_of_none fun e he => List.not_mem_nil (hkeys e he)
  | succ n ih =>
    intro mi P K hK hf hkeys
    obtain ⟨⟨mi', b⟩, hr, ⟨-, -, hnone⟩ | ⟨e, he, hmin, rfl, hkey, hval, P', hf', hview'⟩⟩ := hf.next
    · exact hf.yieldsInOrder_of_none hnone
    -- the rest of the walk may return every key but `e.1`
    have hK' : (K.erase e.1).length ≤ n := by
      rw [List.length_erase_of_mem (hkeys e he)]
      omega
    have hkeys' : ∀ e', View mi' P' e' → e'.1 ∈ K.erase e.1 := by
      intro e' he'
      obtain ⟨hv, hne⟩ := (hview' e').mp he'
      exact (List.mem_erase_of_ne hne).mpr (hkeys e' hv)
    obtain ⟨L, hy, hinc, hmem⟩ := ih (K.erase e.1) hK' hf' hkeys'
    have hlt : ∀ e' ∈ L, compare e.1 e'.1 = .lt := by
      intro e' he'
      obtain ⟨hv, hne⟩ := (hview' e').mp ((hmem e').mp he')
      rcases hc : compare e.1 e'.1 with _ | _ | _
      · rfl
      · exact absurd (Std.compare_eq_iff_eq.mp hc).symm hne
      · exact absurd hc (hmin e' hv)
    refine ⟨e :: L, ⟨mi', hr, hkey, hval, hy⟩, List.pairwise_cons.mpr ⟨hlt, hinc⟩, fun e' => ?_⟩
    constructor
    · rintro (_ | ⟨_, he'⟩)
      · exact he
      · exact ((hview' e').mp ((hmem e').mp he')).1
    · intro hv
      by_cases hk : e'.1 = e.1
      · rw [InView.eq_of_fst_eq hf.increasing hv.2 he.2 hk]
        exact List.mem_cons_self
      · exact List.mem_cons_of_mem e ((hmem e').mpr ((hview' e').mpr ⟨hv, hk⟩))

/-- A walk forward returns every entry it still holds, once each, in increasing key order. -/
theorem Forward.yieldsInOrder {mi : MergedIterator ι} {P : List (List (Bytes × Bytes))} (hf : Forward mi P) :
    YieldsInOrder mergedIterator mi (mi.View P) := by
  refine hf.yieldsInOrder_of_keys _ (P.flatMap fun Q => Q.map Prod.fst) le_rfl fun e he => ?_
  obtain ⟨i, ⟨Q, hQ, heQ⟩, -⟩ := he.2
  exact List.mem_flatMap.mpr ⟨Q, List.mem_of_getElem? hQ, List.mem_map_of_mem heQ⟩

/-- `NewMergedIterator` over at least one iterator, each yielding increasing keys, starts a walk
forward. -/
theorem forward_NewMergedIterator (ws : List (StorageIterator ι × ι × List (Bytes × Bytes)))
    (isDelete : Option (Bytes → Bool)) (hne : ws ≠ [])
    (hws : ∀ w ∈ ws, w.1.Ranked ∧ Yields w.1 w.2.1 w.2.2 ∧ KeysIncrease w.2.2) :
    Forward (NewMergedIterator (ws.map fun w => (w.1, w.2.1)) isDelete) (ws.map fun w => w.2.2) := by
  refine ⟨rfl, rfl, ⟨by simp [NewMergedIterator], fun j s Pj hs hPj => ?_⟩, fun s hs => ?_,
    fun Q hQ => ?_, fun Q _ e _ => ?_, by simp [NewMergedIterator], ?_⟩
  · simp only [NewMergedIterator, List.map_map, List.getElem?_map, Option.map_eq_some_iff] at hs hPj
    obtain ⟨w, hw, rfl⟩ := hs
    obtain ⟨w', hw', rfl⟩ := hPj
    obtain rfl : w = w' := Option.some.inj (hw.symm.trans hw')
    simp only [Slot.Holds, Function.comp, reduceCtorEq, if_false]
    exact (hws w (List.mem_of_getElem? hw)).2.1
  · simp only [NewMergedIterator, List.map_map, List.mem_map] at hs
    obtain ⟨w, hw, rfl⟩ := hs
    exact (hws w hw).1
  · obtain ⟨w, hw, rfl⟩ := List.mem_map.mp hQ
    exact (hws w hw).2.2
  · show compare [] e.1 ≠ .gt
    cases e.1 <;> simp
  · -- Go's zero `index` stands at the first iterator, which there is
    rintro i hi
    simp only [NewMergedIterator, Option.some.injEq] at hi
    subst hi
    refine ⟨by simpa [NewMergedIterator, List.length_pos_iff] using hne, fun s hs => ?_⟩
    simp only [NewMergedIterator, List.map_map, List.getElem?_map, Option.mem_def,
      Option.map_eq_some_iff] at hs
    obtain ⟨w, -, rfl⟩ := hs
    exact .inl rfl

/-- From a new walk `skipKey` drops the deleted keys and the empty key, the `nil` of `prevKey`. -/
theorem skipKey_none_eq_false {isDelete : Option (Bytes → Bool)} {key : Bytes} :
    skipKey isDelete none key = false ↔ key ≠ [] ∧ ∀ f, isDelete = some f → f key = false := by
  cases isDelete with
  | none => simp [skipKey]
  | some f => simp [skipKey, and_comm]

/-- Going forward from a new `MergedIterator`, `Next` returns the union of the keys of its
iterators in increasing order, each once with the value of the first iterator that holds it,
without the keys `isDelete` marks and without the empty key. -/
theorem yields_of_new (ws : List (StorageIterator ι × ι × List (Bytes × Bytes)))
    (isDelete : Option (Bytes → Bool)) (hne : ws ≠ [])
    (hws : ∀ w ∈ ws, w.1.Ranked ∧ Yields w.1 w.2.1 w.2.2 ∧ KeysIncrease w.2.2) :
    YieldsInOrder mergedIterator (NewMergedIterator (ws.map fun w => (w.1, w.2.1)) isDelete)
      fun e => e.1 ≠ [] ∧ (∀ f, isDelete = some f → f e.1 = false) ∧ InView (ws.map fun w => w.2.2) e := by
  obtain ⟨L, hy, hinc, hmem⟩ := (forward_NewMergedIterator ws isDelete hne hws).yieldsInOrder
  refine ⟨L, hy, hinc, fun e => (hmem e).trans ?_⟩
  show skipKey isDelete none e.1 = false ∧ _ ↔ _
  rw [skipKey_none_eq_false, and_assoc]

theorem yields_of_new_two_tables :
    YieldsInOrder mergedIterator
      (NewMergedIterator [(tableIterator, ⟨[([1], [10]), ([3], [30])], .head⟩),
        (tableIterator, ⟨[([2], [20]), ([3], [31])], .head⟩)] none)
      fun e => e.1 ≠ [] ∧ (∀ f, (none : Option (Bytes → Bool)) = some f → f e.1 = false) ∧
        InView [[([1], [10]), ([3], [30])], [([2], [20]), ([3], [31])]] e :=
  yields_of_new [(tableIterator, ⟨[([1], [10]), ([3], [30])], .head⟩, [([1], [10]), ([3], [30])]),
      (tableIterator, ⟨[([2], [20]), ([3], [31])], .head⟩, [([2], [20]), ([3], [31])])] none
    (List.cons_ne_nil _ _) (by
    intro w hw
    simp only [List.mem_cons, List.not_mem_nil, or_false] at hw
    rcases hw with rfl | rfl
    · exact ⟨tableIterator_ranked, tableIterator_yields _, by decide⟩
    · exact ⟨tableIterator_ranked, tableIterator_yields _, by decide⟩)

/-- Over no iterators at all, the first `Next` panics: `index` is Go's zero `0`, and `keys` is
empty. -/
theorem Next_NewMergedIterator_nil (isDelete : Option (Bytes → Bool)) :
    Next (NewMergedIterator ([] : List (StorageIterator ι × ι)) isDelete) = none := rfl

end MergedIterator

end Forward

end Vite.Db
