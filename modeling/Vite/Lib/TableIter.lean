import Mathlib.Data.List.Basic

/-!
# Iterators over a sorted table

The iterators of an ordered key-value table (leveldb's database iterator and the one of its
in-memory table) walk the entries of a key range in order. Between entries an iterator stands
before the first (`head`) or past the last (`tail`): `next` from `head` moves to the first entry
and `prev` from `tail` to the last, as those iterators do once they have run off an end, while
`next` from `tail` and `prev` from `head` stay where they are. `seek p` moves to the first entry
that satisfies `p`, or past the last.

What `next` visits from a position is `rest`, what `prev` visits is `before`, nearest first. The
lemmas of each move say how the current entry and these two lists change, which is all that a
proof about a walk over the table needs.
-/

namespace TableIter

variable {α : Type*}

/-- A position in a table of `n` entries. -/
inductive Pos (n : ℕ) where
  | head
  | entry (i : Fin n)
  | tail
  deriving DecidableEq, Repr

section Moves

variable (l : List α)

def first : Pos l.length :=
  if h : 0 < l.length then .entry ⟨0, h⟩ else .tail

def last : Pos l.length :=
  if h : 0 < l.length then .entry ⟨l.length - 1, by omega⟩ else .head

def next : Pos l.length → Pos l.length
  | .head => first l
  | .entry i => if h : i.val + 1 < l.length then .entry ⟨i.val + 1, h⟩ else .tail
  | .tail => .tail

def prev : Pos l.length → Pos l.length
  | .head => .head
  | .entry i => if h : i.val = 0 then .head else .entry ⟨i.val - 1, by omega⟩
  | .tail => last l

def seek (p : α → Bool) : Pos l.length :=
  if h : l.findIdx p < l.length then .entry ⟨l.findIdx p, h⟩ else .tail

/-- The entry at a position. -/
def get? : Pos l.length → Option α
  | .entry i => some l[i]
  | _ => none

/-- The entries `next` visits from a position, in order. -/
def rest : Pos l.length → List α
  | .head => l
  | .entry i => l.drop (i.val + 1)
  | .tail => []

/-- The entries `prev` visits from a position, nearest first. -/
def before : Pos l.length → List α
  | .head => []
  | .entry i => (l.take i.val).reverse
  | .tail => l.reverse

end Moves

variable {l : List α}

theorem get?_first : get? l (first l) = l.head? := by
  cases l with
  | nil => rfl
  | cons a l => rfl

theorem rest_first : rest l (first l) = l.tail := by
  cases l with
  | nil => rfl
  | cons a l => rfl

theorem get?_next (pos : Pos l.length) : get? l (next l pos) = (rest l pos).head? := by
  cases pos with
  | head => exact get?_first
  | entry i =>
    simp only [next, rest]
    split_ifs with h
    · simp [get?, List.head?_drop, h]
    · rw [List.drop_eq_nil_of_le (by omega)]
      rfl
  | tail => rfl

theorem rest_next (pos : Pos l.length) : rest l (next l pos) = (rest l pos).tail := by
  cases pos with
  | head => exact rest_first
  | entry i =>
    simp only [next, rest]
    split_ifs with h
    · simp [List.tail_drop]
    · rw [List.drop_eq_nil_of_le (by omega)]
      rfl
  | tail => rfl

/-- The entries before the `i`-th, nearest first, start with the `(i - 1)`-th. -/
private theorem reverse_take_eq_cons {i : ℕ} (h0 : i ≠ 0) (hi : i ≤ l.length) :
    (l.take i).reverse = l[i - 1] :: (l.take (i - 1)).reverse := by
  obtain ⟨j, rfl⟩ : ∃ j, i = j + 1 := ⟨i - 1, by omega⟩
  rw [List.take_add_one, List.getElem?_eq_getElem (show j < l.length by omega)]
  simp

theorem get?_last : get? l (last l) = l.getLast? := by
  unfold last
  split_ifs with h
  · simp [get?, List.getLast?_eq_getElem?, List.getElem?_eq_getElem (show l.length - 1 < l.length by omega)]
  · rw [List.length_pos_iff, not_not] at h
    subst h
    rfl

theorem before_last : before l (last l) = l.reverse.tail := by
  unfold last
  split_ifs with h
  · simp [before, List.tail_reverse, List.dropLast_eq_take]
  · rw [List.length_pos_iff, not_not] at h
    subst h
    rfl

theorem get?_prev (pos : Pos l.length) : get? l (prev l pos) = (before l pos).head? := by
  cases pos with
  | head => rfl
  | entry i =>
    simp only [prev, before]
    split_ifs with h
    · simp [get?, h]
    · rw [reverse_take_eq_cons h (Nat.le_of_lt i.isLt)]
      rfl
  | tail => simp [prev, before, get?_last, List.head?_reverse]

theorem before_prev (pos : Pos l.length) : before l (prev l pos) = (before l pos).tail := by
  cases pos with
  | head => rfl
  | entry i =>
    simp only [prev, before]
    split_ifs with h
    · simp [h]
    · rw [reverse_take_eq_cons h (Nat.le_of_lt i.isLt)]
      rfl
  | tail => exact before_last

theorem get?_seek (p : α → Bool) : get? l (seek l p) = l.find? p := by
  rw [List.find?_eq_getElem?_findIdx]
  unfold seek
  split_ifs with h
  · simp [get?, h]
  · simp [get?, List.getElem?_eq_none (show l.length ≤ l.findIdx p by omega)]

theorem rest_seek (p : α → Bool) : rest l (seek l p) = l.drop (l.findIdx p + 1) := by
  unfold seek
  split_ifs with h
  · rfl
  · rw [List.drop_eq_nil_of_le (by omega)]
    rfl

theorem before_seek (p : α → Bool) : before l (seek l p) = (l.take (l.findIdx p)).reverse := by
  unfold seek
  split_ifs with h
  · rfl
  · have hle : l.findIdx p = l.length := Nat.le_antisymm List.findIdx_le_length (by omega)
    simp [before, hle]

end TableIter
