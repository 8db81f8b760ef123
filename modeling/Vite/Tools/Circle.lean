import Mathlib.Data.Nat.ModEq
import Mathlib.Data.List.GetD

/-!
# The ring of recent keys (tools/circle/list.go)

`circle.NewList(c)` keeps the last `c` keys put in a slice of `c + 1` slots: the keys lie from
`front` up to `rear`, one slot always free, and a `Put` on a full ring moves `front` on and
returns the key it drops. The broadcaster keeps its latency statistics in one.

What the ring is for is a bounded queue: of the keys put since the last `Reset` it keeps the last
`c` (`lastKeys`). `Holds` ties a ring to the keys it keeps, and every call keeps it (`Put_holds`,
`Reset_holds`). So after any sequence of calls `Size` is the number of keys kept, `Traverse`
visits them oldest first and `TraverseR` newest first, and on a ring of positive capacity `Put`
returns the oldest key exactly when the ring was full (`ring_keeps_last_keys`). A ring of
capacity `0` keeps nothing, and its `Put` returns the key of the last `Put` before it, since
`Reset` moves the indices and leaves the one slot as it was.
-/

namespace Vite.Circle

variable {α : Type}

/-! ## Slot arithmetic -/

section Slots

variable {T : ℕ}

/-- Offsets below `T` from one slot reach distinct slots. -/
theorem add_mod_inj {f a b : ℕ} (ha : a < T) (hb : b < T) (h : (f + a) % T = (f + b) % T) : a = b :=
  Nat.ModEq.eq_of_lt_of_lt (Nat.ModEq.add_left_cancel' f h) ha hb

theorem add_mod_ne {f a b : ℕ} (ha : a < T) (hb : b < T) (hab : a ≠ b) : (f + a) % T ≠ (f + b) % T :=
  fun h => hab (add_mod_inj ha hb h)

theorem add_mod_ne_self {f a : ℕ} (hf : f < T) (ha0 : a ≠ 0) (ha : a < T) : (f + a) % T ≠ f := by
  intro h
  have h0 : (f + a) % T = (f + 0) % T := by rw [h, Nat.add_zero, Nat.mod_eq_of_lt hf]
  exact ha0 (add_mod_inj ha (by omega) h0)

theorem next_slot (f j : ℕ) : ((f + j) % T + 1) % T = (f + (j + 1)) % T := by
  rw [Nat.mod_add_mod, Nat.add_assoc]

/-- One slot back from offset `j + 1`, computed as Go's `(i - 1 + total) % total`. -/
theorem prev_slot (hT : 0 < T) (f j : ℕ) : ((f + (j + 1)) % T + T - 1) % T = (f + j) % T := by
  have hx := Nat.mod_lt (f + j) hT
  rw [← next_slot]
  rcases Nat.lt_or_ge ((f + j) % T + 1) T with hlt | hge
  · rw [Nat.mod_eq_of_lt hlt, show (f + j) % T + 1 + T - 1 = (f + j) % T + T by omega, Nat.add_mod_right,
      Nat.mod_mod]
  · -- the slot before the first is the last
    have heq : (f + j) % T + 1 = T := by omega
    rw [heq, Nat.mod_self, Nat.zero_add, Nat.mod_eq_of_lt (by omega)]
    omega

end Slots

/-! ## The ring -/

/-- `circle.list`: `total` slots, the keys from `front` up to `rear`. A slot Go leaves `nil` is
`none`. -/
structure list (α : Type) where
  front : ℕ
  rear : ℕ
  total : ℕ
  l : List (Option α)
  total_pos : 0 < total
  front_lt : front < total
  rear_lt : rear < total
  length_l : l.length = total

def NewList (total : ℕ) : list α :=
  ⟨0, 0, total + 1, List.replicate (total + 1) none, Nat.succ_pos total, Nat.succ_pos total,
    Nat.succ_pos total, List.length_replicate⟩

namespace list

def Reset (r : list α) : list α :=
  { r with front := 0, rear := 0, front_lt := r.total_pos, rear_lt := r.total_pos }

def Size (r : list α) : ℕ := (r.rear + r.total - r.front) % r.total

/-- `Put`: on a full ring the oldest key goes first, and is returned. -/
def Put (key : α) (r : list α) : list α × Option α :=
  if (r.rear + 1) % r.total = r.front then
    ({ r with
        front := (r.front + 1) % r.total
        rear := (r.rear + 1) % r.total
        l := r.l.set r.rear (some key)
        front_lt := Nat.mod_lt _ r.total_pos
        rear_lt := Nat.mod_lt _ r.total_pos
        length_l := by rw [List.length_set]; exact r.length_l }, r.l.getD r.front none)
  else
    ({ r with
        rear := (r.rear + 1) % r.total
        l := r.l.set r.rear (some key)
        rear_lt := Nat.mod_lt _ r.total_pos
        length_l := by rw [List.length_set]; exact r.length_l }, none)

end list

/-- The loop of `Traverse` from slot `i`: the keys handed to `fn`, up to the first it refuses.
Go loops until `rear`; `total` rounds are enough. -/
def traverseFrom (l : List (Option α)) (total rear : ℕ) (fn : Option α → Bool) : ℕ → ℕ → List (Option α)
  | 0, _ => []
  | fuel + 1, i =>
    if i = rear then []
    else if fn (l.getD i none) then l.getD i none :: traverseFrom l total rear fn fuel ((i + 1) % total)
    else [l.getD i none]

/-- The loop of `TraverseR` from slot `i`, going back to `front`. -/
def traverseRFrom (l : List (Option α)) (total front : ℕ) (fn : Option α → Bool) : ℕ → ℕ → List (Option α)
  | 0, _ => []
  | fuel + 1, i =>
    if i = front then []
    else
      let index := (i + total - 1) % total
      if fn (l.getD index none) then l.getD index none :: traverseRFrom l total front fn fuel index
      else [l.getD index none]

namespace list

def Traverse (fn : Option α → Bool) (r : list α) : List (Option α) :=
  traverseFrom r.l r.total r.rear fn r.total r.front

def TraverseR (fn : Option α → Bool) (r : list α) : List (Option α) :=
  traverseRFrom r.l r.total r.front fn r.total r.rear

@[simp] theorem Put_total (key : α) (r : list α) : (r.Put key).1.total = r.total := by
  unfold Put
  split <;> rfl

@[simp] theorem Reset_total (r : list α) : r.Reset.total = r.total := rfl

end list

/-! ## What a ring keeps -/

/-- What a walk over `keys` hands to `fn`: each key in turn, up to the first `fn` refuses. -/
def visits (fn : Option α → Bool) : List α → List (Option α)
  | [] => []
  | key :: keys => if fn (some key) then some key :: visits fn keys else [some key]

/-- The last `c` of the keys, oldest first. -/
def lastKeys (c : ℕ) (keys : List α) : List α := keys.drop (keys.length - c)

theorem length_lastKeys (c : ℕ) (keys : List α) : (lastKeys c keys).length = min keys.length c := by
  simp only [lastKeys, List.length_drop]
  omega

@[simp] theorem lastKeys_nil (c : ℕ) : lastKeys c ([] : List α) = [] := List.drop_nil

/-- Keeping the last `c` keys, one more key at a time. -/
theorem lastKeys_append (c : ℕ) (keys : List α) (key : α) :
    lastKeys c (lastKeys c keys ++ [key]) = lastKeys c (keys ++ [key]) := by
  simp only [lastKeys, List.length_append, List.length_drop, List.length_singleton,
    List.drop_append, List.drop_drop]
  congr 2 <;> omega

/-- A ring that keeps `v`: the keys lie in order from `front`, and `rear` is right after them. -/
structure Holds (r : list α) (v : List α) : Prop where
  length_lt : v.length < r.total
  rear_eq : r.rear = (r.front + v.length) % r.total
  slot : ∀ (j : ℕ) (hj : j < v.length), r.l[(r.front + j) % r.total]? = some (some v[j])

variable {r : list α} {v : List α}

theorem Holds.getD_slot (h : Holds r v) {j : ℕ} (hj : j < v.length) :
    r.l.getD ((r.front + j) % r.total) none = some v[j] := by
  rw [List.getD_eq_getElem?_getD, h.slot j hj, Option.getD_some]

theorem Holds.Size_eq (h : Holds r v) : r.Size = v.length := by
  have hf := r.front_lt
  have hn := h.length_lt
  unfold list.Size
  rw [h.rear_eq]
  rcases Nat.lt_or_ge (r.front + v.length) r.total with hlt | hge
  · rw [Nat.mod_eq_of_lt hlt, show r.front + v.length + r.total - r.front = v.length + r.total by omega,
      Nat.add_mod_right, Nat.mod_eq_of_lt hn]
  · -- the keys wrap past the last slot
    have hx : (r.front + v.length) % r.total = r.front + v.length - r.total := by
      rw [Nat.mod_eq_sub_mod hge, Nat.mod_eq_of_lt (by omega)]
    rw [hx, show r.front + v.length - r.total + r.total - r.front = v.length by omega, Nat.mod_eq_of_lt hn]

/-- `Traverse` from the `j`-th key on visits the keys from the `j`-th on. -/
theorem Holds.traverseFrom_eq (h : Holds r v) (fn : Option α → Bool) {j fuel : ℕ} (hj : j ≤ v.length)
    (hfuel : v.length - j < fuel) :
    traverseFrom r.l r.total r.rear fn fuel ((r.front + j) % r.total) = visits fn (v.drop j) := by
  induction fuel generalizing j with
  | zero => omega
  | succ fuel ih =>
    by_cases hjn : j = v.length
    · -- at `rear` the walk stops
      rw [traverseFrom, if_pos (by rw [h.rear_eq, hjn]), hjn, List.drop_length]
      rfl
    · have hne : (r.front + j) % r.total ≠ r.rear := by
        rw [h.rear_eq]
        exact add_mod_ne (by have := h.length_lt; omega) h.length_lt hjn
      rw [traverseFrom, if_neg hne, h.getD_slot (by omega), List.drop_eq_getElem_cons (by omega), visits,
        next_slot, ih (by omega) (by omega)]

theorem Holds.Traverse (h : Holds r v) (fn : Option α → Bool) : r.Traverse fn = visits fn v := by
  have := h.traverseFrom_eq fn (Nat.zero_le _) (by have := h.length_lt; omega)
  rwa [Nat.add_zero, Nat.mod_eq_of_lt r.front_lt, List.drop_zero] at this

/-- `TraverseR` from after the `j`-th key visits the first `j` keys, newest first. -/
theorem Holds.traverseRFrom_eq (h : Holds r v) (fn : Option α → Bool) {j fuel : ℕ} (hj : j ≤ v.length)
    (hfuel : j < fuel) :
    traverseRFrom r.l r.total r.front fn fuel ((r.front + j) % r.total) = visits fn (v.take j).reverse := by
  induction fuel generalizing j with
  | zero => omega
  | succ fuel ih =>
    cases j with
    | zero =>
      -- at `front` the walk stops
      rw [traverseRFrom, if_pos (by rw [Nat.add_zero, Nat.mod_eq_of_lt r.front_lt])]
      rfl
    | succ j =>
      have hjn : j < v.length := by omega
      rw [traverseRFrom, if_neg (add_mod_ne_self r.front_lt (Nat.succ_ne_zero j) (by have := h.length_lt; omega))]
      simp only [prev_slot r.total_pos, h.getD_slot hjn, List.take_add_one, List.getElem?_eq_getElem hjn,
        Option.toList_some, List.reverse_append, List.reverse_singleton, List.singleton_append, visits]
      rw [ih (by omega) (by omega)]

theorem Holds.TraverseR (h : Holds r v) (fn : Option α → Bool) : r.TraverseR fn = visits fn v.reverse := by
  have := h.traverseRFrom_eq fn le_rfl (h.length_lt)
  rwa [← h.rear_eq, List.take_length] at this

/-- `Put` finds the ring full exactly when it holds `total - 1` keys. -/
theorem Holds.full_iff (h : Holds r v) : (r.rear + 1) % r.total = r.front ↔ v.length + 1 = r.total := by
  have hf := r.front_lt
  have hn := h.length_lt
  rw [h.rear_eq, next_slot]
  constructor
  · intro hfull
    by_contra hne
    have h0 : (r.front + (v.length + 1)) % r.total = (r.front + 0) % r.total := by
      rw [hfull, Nat.add_zero, Nat.mod_eq_of_lt hf]
    have := add_mod_inj (by omega) r.total_pos h0
    omega
  · intro hfull
    rw [hfull, Nat.add_mod_right, Nat.mod_eq_of_lt hf]

theorem NewList_holds (c : ℕ) : Holds (NewList c : list α) [] :=
  ⟨Nat.succ_pos c, rfl, fun _ hj => absurd hj (Nat.not_lt_zero _)⟩

theorem Reset_holds (r : list α) : Holds r.Reset [] :=
  ⟨r.total_pos, by simp [list.Reset, Nat.zero_mod], fun _ hj => absurd hj (Nat.not_lt_zero _)⟩

/-- `Put` on a ring of `c + 1` slots that keeps `v` keeps the last `c` of `v` and the key. -/
theorem Put_holds {c : ℕ} (hc : r.total = c + 1) (h : Holds r v) (key : α) :
    Holds (r.Put key).1 (lastKeys c (v ++ [key])) := by
  have hn := h.length_lt
  have hrear := r.rear_lt
  -- the key goes into the slot after the last key
  have hset : ∀ j < r.total, j ≠ v.length →
      (r.l.set r.rear (some key))[(r.front + j) % r.total]? = r.l[(r.front + j) % r.total]? := by
    intro j hj hjn
    rw [List.getElem?_set_ne]
    rw [h.rear_eq]
    exact (add_mod_ne hn hj (Ne.symm hjn))
  have hrear_slot : (r.l.set r.rear (some key))[r.rear]? = some (some key) :=
    List.getElem?_set_self (by rw [r.length_l]; exact hrear)
  unfold list.Put
  split_ifs with hfull
  · -- full: the oldest key goes, `front` moves on
    have hlen : v.length = c := by have := h.full_iff.mp hfull; omega
    have hlast : lastKeys c (v ++ [key]) = (v ++ [key]).tail := by
      simp [lastKeys, hlen]
    rw [hlast]
    refine ⟨?_, ?_, fun j hj => ?_⟩ <;> dsimp only
    · simp
      omega
    · have hlen' : ((v ++ [key]).tail).length = v.length := by simp
      rw [hlen', h.rear_eq, next_slot, Nat.mod_add_mod]
      congr 1
      omega
    · simp only [List.length_tail, List.length_append, List.length_singleton, Nat.add_sub_cancel] at hj
      simp only [Nat.mod_add_mod, Nat.add_right_comm r.front 1 j, Nat.add_assoc]
      rw [List.getElem_tail]
      by_cases hjv : j + 1 = v.length
      · rw [show (r.front + (j + 1)) % r.total = r.rear by rw [h.rear_eq, hjv], hrear_slot,
          List.getElem_append_right (by omega)]
        simp [hjv]
      · rw [hset (j + 1) (by omega) hjv, h.slot (j + 1) (by omega), List.getElem_append_left]
  · -- room left: the key goes after the others
    have hlen : v.length < c := by have := mt h.full_iff.mpr hfull; omega
    have hlast : lastKeys c (v ++ [key]) = v ++ [key] := by
      simp only [lastKeys, List.length_append, List.length_singleton]
      rw [Nat.sub_eq_zero_of_le (by omega), List.drop_zero]
    rw [hlast]
    refine ⟨?_, ?_, fun j hj => ?_⟩ <;> dsimp only
    · simp
      omega
    · simp only [List.length_append, List.length_singleton]
      rw [h.rear_eq, next_slot]
    · simp only [List.length_append, List.length_singleton] at hj
      by_cases hjv : j = v.length
      · subst hjv
        rw [← h.rear_eq, hrear_slot, List.getElem_append_right (le_refl _)]
        simp
      · rw [hset j (by omega) hjv, h.slot j (by omega), List.getElem_append_left]

/-- What `Put` returns: the oldest key when the ring was full and kept a key, nothing when it
had room. -/
theorem Put_replaced (h : Holds r v) (key : α) :
    (r.Put key).2 = if v.length + 1 = r.total then r.l.getD r.front none else none := by
  unfold list.Put
  by_cases hfull : (r.rear + 1) % r.total = r.front
  · rw [if_pos hfull, if_pos (h.full_iff.mp hfull)]
  · rw [if_neg hfull, if_neg (mt h.full_iff.mpr hfull)]

theorem Holds.getD_front (h : Holds r v) (hv : 0 < v.length) : r.l.getD r.front none = v.head? := by
  have := h.getD_slot hv
  rw [Nat.add_zero, Nat.mod_eq_of_lt r.front_lt] at this
  rw [this, List.head?_eq_getElem?, List.getElem?_eq_getElem hv]

/-! ## Runs -/

/-- A call on the ring. -/
inductive Op (α : Type) where
  | Put (key : α)
  | Reset

def list.apply (r : list α) : Op α → list α
  | .Put key => (r.Put key).1
  | .Reset => r.Reset

def runOps (r : list α) : List (Op α) → list α
  | [] => r
  | op :: ops => runOps (r.apply op) ops

/-- The keys put since the last `Reset`, oldest first, after `keys`. -/
def keysAfter : List α → List (Op α) → List α
  | keys, [] => keys
  | keys, .Put key :: ops => keysAfter (keys ++ [key]) ops
  | _, .Reset :: ops => keysAfter [] ops

/-- The key of the last `Put` of `ops`, or `k` if there is none. -/
def lastPut : Option α → List (Op α) → Option α
  | k, [] => k
  | _, .Put key :: ops => lastPut (some key) ops
  | k, .Reset :: ops => lastPut k ops

/-- On a ring of one slot every `Put` finds it full: it returns what the slot held and leaves
the key there. -/
theorem Put_one (hr : r.total = 1) (key : α) :
    (r.Put key).1.total = 1 ∧ (r.Put key).2 = r.l.getD 0 none ∧ (r.Put key).1.l.getD 0 none = some key := by
  have hf : r.front = 0 := by have := r.front_lt; omega
  have hrear : r.rear = 0 := by have := r.rear_lt; omega
  have hlen : 0 < r.l.length := by rw [r.length_l, hr]; exact Nat.one_pos
  unfold list.Put
  rw [if_pos (by rw [hr, hf, Nat.mod_one])]
  refine ⟨hr, ?_, ?_⟩
  · show r.l.getD r.front none = _
    rw [hf]
  · show (r.l.set r.rear (some key)).getD 0 none = some key
    rw [hrear, List.getD_eq_getElem?_getD, List.getElem?_set_self hlen, Option.getD_some]

/-- `Reset` moves the indices only: on a ring of one slot the key in it stays. -/
theorem runOps_one (ops : List (Op α)) {r : list α} (hr : r.total = 1) :
    (runOps r ops).total = 1 ∧ (runOps r ops).l.getD 0 none = lastPut (r.l.getD 0 none) ops := by
  induction ops generalizing r with
  | nil => exact ⟨hr, rfl⟩
  | cons op ops ih =>
    cases op with
    | Put key =>
      obtain ⟨htotal, -, hslot⟩ := Put_one hr key
      have h := ih htotal
      rw [hslot] at h
      exact h
    | Reset => exact ih hr

/-- Every call keeps the last `c` of the keys put since the last `Reset`. -/
theorem runOps_holds {c : ℕ} (ops : List (Op α)) {r : list α} (hc : r.total = c + 1) {keys : List α}
    (h : Holds r (lastKeys c keys)) :
    (runOps r ops).total = c + 1 ∧ Holds (runOps r ops) (lastKeys c (keysAfter keys ops)) := by
  induction ops generalizing r keys with
  | nil => exact ⟨hc, h⟩
  | cons op ops ih =>
    cases op with
    | Put key =>
      have h' := Put_holds hc h key
      rw [lastKeys_append] at h'
      exact ih (by simp [list.apply, hc]) h'
    | Reset => exact ih (by simp [list.apply, hc]) (by rw [lastKeys_nil]; exact Reset_holds r)

/-- After any sequence of calls on `NewList c`: `Size` is the number of keys put since the last
`Reset`, at most `c`; `Traverse` visits the last `c` of them oldest first and `TraverseR` newest
first; with `c` positive, `Put` returns the oldest of them exactly when there are `c`; and with
`c = 0`, `Put` returns the key of the last `Put` before it, across any `Reset`. -/
theorem ring_keeps_last_keys (c : ℕ) (ops : List (Op α)) :
    (runOps (NewList c) ops).Size = min (keysAfter [] ops).length c ∧
      (∀ fn, (runOps (NewList c) ops).Traverse fn = visits fn (lastKeys c (keysAfter [] ops))) ∧
      (∀ fn, (runOps (NewList c) ops).TraverseR fn = visits fn (lastKeys c (keysAfter [] ops)).reverse) ∧
      (0 < c → ∀ key, ((runOps (NewList c) ops).Put key).2 =
        if (keysAfter [] ops).length < c then none else (lastKeys c (keysAfter [] ops)).head?) ∧
      (c = 0 → ∀ key, ((runOps (NewList c) ops).Put key).2 = lastPut none ops) := by
  obtain ⟨hc, h⟩ := @runOps_holds α c ops (NewList c) rfl []
    (by rw [lastKeys_nil]; exact NewList_holds c)
  refine ⟨by rw [h.Size_eq, length_lastKeys], h.Traverse, h.TraverseR, fun hpos key => ?_, ?_⟩
  · rw [Put_replaced h key, hc, length_lastKeys]
    by_cases hlt : (keysAfter [] ops).length < c
    · rw [if_neg (by omega), if_pos hlt]
    · rw [if_pos (by omega), if_neg hlt]
      exact h.getD_front (by rw [length_lastKeys]; omega)
  · rintro rfl key
    -- one slot, which no `Reset` clears
    obtain ⟨htotal, hslot⟩ := runOps_one ops (r := (NewList 0 : list α)) rfl
    rw [(Put_one htotal key).2.1, hslot]
    rfl

theorem ring_keeps_last_keys_two :
    (runOps (NewList 2) [Op.Put 1, Op.Put 2, Op.Put (3 : ℕ)]).Size = 2 ∧
      ((runOps (NewList 2) [Op.Put 1, Op.Put 2, Op.Put (3 : ℕ)]).Put 4).2 = some 2 ∧
      ((runOps (NewList 0) [Op.Put 1, Op.Put 2, Op.Reset]).Put (3 : ℕ)).2 = some 2 := by
  have h := ring_keeps_last_keys 2 [Op.Put 1, Op.Put 2, Op.Put (3 : ℕ)]
  have h₀ := ring_keeps_last_keys 0 [Op.Put 1, Op.Put 2, Op.Reset (α := ℕ)]
  exact ⟨h.1.trans (by decide), (h.2.2.2.1 (by decide) 4).trans (by decide), (h₀.2.2.2.2 rfl 3).trans rfl⟩

/-- With capacity `0` the ring keeps nothing, yet its second `Put` returns the first key. -/
theorem ring_zero_returns_unkept_key :
    (runOps (NewList 0) [Op.Put 1]).Size = 0 ∧
      ((runOps (NewList 0) [Op.Put (1 : ℕ)]).Put 2).2 = some 1 := by
  decide

end Vite.Circle
