import Mathlib.Logic.Function.Basic
import Mathlib.Logic.Relation
import Mathlib.Data.Finset.Card
import Vite.Lib.NextPath

/-!
# The singly linked list (tools/list/list.go)

`list.New()` is a sentinel element `head`, the elements after it linked by `next`, the last of
them `tail`, and a `count`. Elements live in a heap: `mem` maps an address to its element and
`fresh` is the first address never handed out, so an element is allocated where `&Element{...}`
runs in Go and is never freed.

`Chain l ns` is the representation invariant: from `head` the `next` pointers run through the
distinct addresses `ns` and end, at `tail`, and `count` is the length of `ns`. Each call keeps it
and does to the values what it is meant to (`Chain.Append`, `Chain.UnShift`, `Chain.Remove`,
`Chain.Filter`, `Chain.Clear`); `Step` is a call together with its effect on the values, and every
sequence of calls from `New` keeps the list a chain of its values (`list_keeps_chain`), `Shift`
returning the first.

`Remove(prev, current)` trusts its caller that `prev` is an element of the list: an element
removed before keeps its `next`, and removing after it corrupts the count and the tail
(`remove_after_removed_breaks_chain`).
-/

namespace Vite.LinkedList

open NextPath

variable {α : Type}

/-- `list.Element`: a value and the address of the next element, Go's `nil` being `none`. -/
structure Element (α : Type) where
  Value : α
  next : Option ℕ

/-- `list.list` over the heap of its elements. -/
structure list (α : Type) where
  mem : ℕ → Element α
  fresh : ℕ
  head : ℕ
  tail : ℕ
  count : ℤ

/-- `New`: the sentinel at address `0`, holding Go's nil value. -/
def New [Inhabited α] : list α := ⟨fun _ => ⟨default, none⟩, 1, 0, 0, 0⟩

namespace list

def nextOf (l : list α) (a : ℕ) : Option ℕ := (l.mem a).next

/-- `a.next = n`. -/
def setNext (l : list α) (a : ℕ) (n : Option ℕ) : list α :=
  { l with mem := Function.update l.mem a { l.mem a with next := n } }

/-- `&Element{...}`: a new element at the first free address. -/
def alloc (l : list α) (e : Element α) : list α :=
  { l with mem := Function.update l.mem l.fresh e, fresh := l.fresh + 1 }

def Append (data : α) (l : list α) : list α :=
  let e := l.fresh
  let l' := (l.alloc ⟨data, none⟩).setNext l.tail (some e)
  { l' with tail := e, count := l'.count + 1 }

def Remove (prev current : ℕ) (l : list α) : list α :=
  let l' := l.setNext prev (l.mem current).next
  let l' := if (l'.mem current).next = none then { l' with tail := prev } else l'
  { l' with count := l'.count - 1 }

/-- `Shift`: Go's nil value on an empty list. -/
def Shift [Inhabited α] (l : list α) : list α × α :=
  match (l.mem l.head).next with
  | none => (l, default)
  | some e => (l.Remove l.head e, (l.mem e).Value)

def UnShift (data : α) (l : list α) : list α :=
  let e := l.fresh
  let l' := (l.alloc ⟨data, (l.mem l.head).next⟩).setNext l.head (some e)
  let l' := if (l'.mem e).next = none then { l' with tail := e } else l'
  { l' with count := l'.count + 1 }

/-- The loop of `Filter` at `prev` and `current`. Go loops until `current` is `nil`; the fuel,
the number of addresses handed out, is never used up. -/
def filterLoop (filter : α → Bool) : ℕ → ℕ → Option ℕ → list α → list α
  | 0, _, _, l => l
  | _ + 1, _, none, l => l
  | fuel + 1, prev, some current, l =>
    if filter (l.mem current).Value then
      let l' := l.Remove prev current
      filterLoop filter fuel prev (l'.mem prev).next l'
    else filterLoop filter fuel current (l.mem current).next l

/-- `Filter`: the elements `filter` accepts are removed. -/
def Filter (filter : α → Bool) (l : list α) : list α :=
  filterLoop filter l.fresh l.head (l.mem l.head).next l

def Clear (l : list α) : list α := { l.setNext l.head none with tail := l.head, count := 0 }

def Size (l : list α) : ℤ := l.count

/-! ### What each step changes -/

variable {l : list α}

@[simp] theorem setNext_head (a : ℕ) (n : Option ℕ) : (l.setNext a n).head = l.head := rfl
@[simp] theorem setNext_tail (a : ℕ) (n : Option ℕ) : (l.setNext a n).tail = l.tail := rfl
@[simp] theorem setNext_fresh (a : ℕ) (n : Option ℕ) : (l.setNext a n).fresh = l.fresh := rfl
@[simp] theorem setNext_count (a : ℕ) (n : Option ℕ) : (l.setNext a n).count = l.count := rfl

@[simp] theorem setNext_value (a : ℕ) (n : Option ℕ) (x : ℕ) : ((l.setNext a n).mem x).Value = (l.mem x).Value := by
  by_cases hx : x = a
  · subst hx; simp [setNext]
  · simp [setNext, Function.update_of_ne hx]

theorem nextOf_setNext (a : ℕ) (n : Option ℕ) (x : ℕ) :
    (l.setNext a n).nextOf x = if x = a then n else l.nextOf x := by
  by_cases hx : x = a
  · subst hx; simp [setNext, nextOf]
  · simp [setNext, nextOf, hx]

@[simp] theorem alloc_head (e : Element α) : (l.alloc e).head = l.head := rfl
@[simp] theorem alloc_tail (e : Element α) : (l.alloc e).tail = l.tail := rfl
@[simp] theorem alloc_fresh (e : Element α) : (l.alloc e).fresh = l.fresh + 1 := rfl
@[simp] theorem alloc_count (e : Element α) : (l.alloc e).count = l.count := rfl

theorem alloc_mem (e : Element α) (x : ℕ) : (l.alloc e).mem x = if x = l.fresh then e else l.mem x := by
  by_cases hx : x = l.fresh
  · subst hx; simp [alloc]
  · simp [alloc, hx]

@[simp] theorem Remove_head (prev current : ℕ) : (l.Remove prev current).head = l.head := by
  unfold Remove; dsimp only; split <;> rfl

@[simp] theorem Remove_fresh (prev current : ℕ) : (l.Remove prev current).fresh = l.fresh := by
  unfold Remove; dsimp only; split <;> rfl

@[simp] theorem Remove_value (prev current x : ℕ) : ((l.Remove prev current).mem x).Value = (l.mem x).Value := by
  unfold Remove; dsimp only; split <;> simp

@[simp] theorem Remove_count (prev current : ℕ) : (l.Remove prev current).count = l.count - 1 := by
  unfold Remove; dsimp only; split <;> rfl

theorem Remove_tail {prev current : ℕ} (hne : current ≠ prev) :
    (l.Remove prev current).tail = if l.nextOf current = none then prev else l.tail := by
  have h : ((l.setNext prev (l.mem current).next).mem current).next = l.nextOf current := by
    simp [setNext, nextOf, Function.update_of_ne hne]
  unfold Remove
  dsimp only
  rw [h]
  split <;> rfl

theorem Remove_nextOf (prev current x : ℕ) :
    (l.Remove prev current).nextOf x = if x = prev then l.nextOf current else l.nextOf x := by
  have h : (l.Remove prev current).nextOf x = (l.setNext prev (l.mem current).next).nextOf x := by
    unfold Remove; dsimp only; split <;> rfl
  rw [h, nextOf_setNext]
  rfl

@[simp] theorem UnShift_head (data : α) : (l.UnShift data).head = l.head := by
  unfold UnShift; dsimp only; split <;> rfl

@[simp] theorem UnShift_fresh (data : α) : (l.UnShift data).fresh = l.fresh + 1 := by
  unfold UnShift; dsimp only; split <;> rfl

@[simp] theorem UnShift_count (data : α) : (l.UnShift data).count = l.count + 1 := by
  unfold UnShift; dsimp only; split <;> rfl

theorem UnShift_mem (data : α) :
    (l.UnShift data).mem = ((l.alloc ⟨data, (l.mem l.head).next⟩).setNext l.head (some l.fresh)).mem := by
  unfold UnShift; dsimp only; split <;> rfl

/-- The new element is the tail when it was put into an empty list. -/
theorem UnShift_tail (data : α) (hlt : l.head < l.fresh) :
    (l.UnShift data).tail = if l.nextOf l.head = none then l.fresh else l.tail := by
  have h : (((l.alloc ⟨data, (l.mem l.head).next⟩).setNext l.head (some l.fresh)).mem l.fresh).next =
      l.nextOf l.head := by
    simp [setNext, alloc, Function.update_of_ne (Nat.ne_of_gt hlt), nextOf]
  unfold UnShift
  dsimp only
  rw [h]
  split <;> rfl

end list

/-! ## The representation invariant -/

/-- The list is a chain through `ns`: from `head` the pointers run through the distinct allocated
addresses `ns` and end at `tail`, and `count` is their number. -/
structure Chain (l : list α) (ns : List ℕ) : Prop where
  path : Path l.nextOf l.head ns l.tail
  last : l.nextOf l.tail = none
  nodup : (l.head :: ns).Nodup
  allocated : ∀ n ∈ l.head :: ns, n < l.fresh
  count_eq : l.count = ns.length

/-- The values held at the addresses `ns`. -/
def valuesOf (l : list α) (ns : List ℕ) : List α := ns.map fun n => (l.mem n).Value

variable {l : list α} {ns : List ℕ}

theorem New_chain [Inhabited α] : Chain (New : list α) [] :=
  ⟨rfl, rfl, List.nodup_singleton 0, fun n hn => by simp [New] at hn ⊢; omega, rfl⟩

/-- Where a prefix `K` of the chain ends, the rest begins. -/
theorem Chain.next_split {K R : List ℕ} (hc : Chain l (K ++ R)) {b : ℕ} (hb : Path l.nextOf l.head K b) :
    l.nextOf b = R.head? := by
  obtain ⟨b', hK, hR⟩ := (path_append K R).mp hc.path
  rw [hb.end_unique hK]
  cases R with
  | nil => rw [show b' = l.tail from hR]; exact hc.last
  | cons r R => exact hR.1

theorem Chain.head_next (hc : Chain l ns) : l.nextOf l.head = ns.head? :=
  (show Chain l ([] ++ ns) from hc).next_split rfl

/-- The tail is the one address of the chain whose `next` no path through it reads. -/
theorem Chain.tail_not_mem_reads (hc : Chain l ns) : l.tail ∉ reads l.head ns := by
  rw [hc.path.eq_getLast]
  exact not_mem_dropLast_getLast _ hc.nodup

theorem Chain.length_lt_fresh (hc : Chain l ns) : ns.length < l.fresh := by
  have hcard := List.toFinset_card_of_nodup hc.nodup
  have hle : (l.head :: ns).toFinset.card ≤ (Finset.range l.fresh).card :=
    Finset.card_le_card fun x hx => by simpa using hc.allocated x (by simpa using hx)
  rw [hcard, Finset.card_range, List.length_cons] at hle
  omega

theorem valuesOf_congr {l' : list α} (h : ∀ x, (l'.mem x).Value = (l.mem x).Value) (ns : List ℕ) :
    valuesOf l' ns = valuesOf l ns :=
  List.map_congr_left fun x _ => h x

/-! ## Each call on a chain -/

/-- `Append` links a new element after the tail. -/
theorem Chain.Append (hc : Chain l ns) (data : α) :
    Chain (l.Append data) (ns ++ [l.fresh]) ∧ valuesOf (l.Append data) (ns ++ [l.fresh]) = valuesOf l ns ++ [data] := by
  have htail : l.tail < l.fresh := hc.allocated _ (by rw [hc.path.eq_getLast]; exact List.getLast_mem _)
  have hnext : ∀ x, (l.Append data).nextOf x =
      if x = l.tail then some l.fresh else if x = l.fresh then none else l.nextOf x := by
    intro x
    simp only [list.Append, list.nextOf, list.setNext, list.alloc]
    by_cases h1 : x = l.tail
    · subst h1; simp
    · by_cases h2 : x = l.fresh
      · subst h2; simp [h1]
      · simp [h1, h2]
  have hvalue : ∀ x, ((l.Append data).mem x).Value = if x = l.fresh then data else (l.mem x).Value := by
    intro x
    simp only [list.Append]
    rw [show ((((l.alloc ⟨data, none⟩).setNext l.tail (some l.fresh)).mem x).Value) =
      ((l.alloc ⟨data, none⟩).mem x).Value from list.setNext_value _ _ x, list.alloc_mem]
    split <;> rfl
  refine ⟨⟨?_, ?_, ?_, ?_, ?_⟩, ?_⟩
  · -- the old chain, then the new element
    refine (path_append ns [l.fresh]).mpr ⟨l.tail, hc.path.congr fun x hx => ?_, ?_⟩
    · have hxt : x ≠ l.tail := fun h => hc.tail_not_mem_reads (h ▸ hx)
      have hxf : x ≠ l.fresh := Nat.ne_of_lt (hc.allocated x (List.dropLast_subset _ hx))
      rw [hnext, if_neg hxt, if_neg hxf]
    · exact ⟨by rw [hnext, if_pos rfl], rfl⟩
  · show (l.Append data).nextOf l.fresh = none
    rw [hnext, if_neg (Nat.ne_of_gt htail), if_pos rfl]
  · show (l.head :: (ns ++ [l.fresh])).Nodup
    rw [← List.cons_append, ← List.concat_eq_append, List.nodup_concat]
    exact ⟨fun h => Nat.lt_irrefl _ (hc.allocated _ h), hc.nodup⟩
  · intro n hn
    show n < l.fresh + 1
    rcases List.mem_cons.mp hn with rfl | hn
    · exact Nat.lt_succ_of_lt (hc.allocated _ List.mem_cons_self)
    · rcases List.mem_append.mp hn with hn | hn
      · exact Nat.lt_succ_of_lt (hc.allocated _ (List.mem_cons_of_mem _ hn))
      · rw [List.mem_singleton.mp hn]; exact Nat.lt_succ_self _
  · show l.count + 1 = ((ns ++ [l.fresh]).length : ℤ)
    simp [hc.count_eq]
  · simp only [valuesOf, List.map_append, List.map_singleton, hvalue]
    congr 1
    exact List.map_congr_left fun x hx => if_neg (Nat.ne_of_lt (hc.allocated x (List.mem_cons_of_mem _ hx)))

/-- Removing the element after `prev`, where the prefix `pre` of the chain ends, leaves the path
from the head to `prev`. -/
theorem Chain.Remove_prefix {pre post : List ℕ} {c prev : ℕ} (hc : Chain l (pre ++ c :: post))
    (hprev : Path l.nextOf l.head pre prev) : Path (l.Remove prev c).nextOf (l.Remove prev c).head pre prev := by
  have hnd : (l.head :: pre).Nodup :=
    (List.nodup_append.mp (show ((l.head :: pre) ++ c :: post).Nodup from hc.nodup)).1
  have hprev_reads : prev ∉ reads l.head pre := by
    rw [hprev.eq_getLast]
    exact not_mem_dropLast_getLast _ hnd
  rw [list.Remove_head]
  exact hprev.congr fun x hx => by
    rw [list.Remove_nextOf, if_neg (fun h : x = prev => hprev_reads (h ▸ hx))]

/-- Removing the element after `prev`, where the prefix `pre` of the chain ends, unlinks it. -/
theorem Chain.Remove {pre post : List ℕ} {c prev : ℕ} (hc : Chain l (pre ++ c :: post))
    (hprev : Path l.nextOf l.head pre prev) : Chain (l.Remove prev c) (pre ++ post) := by
  obtain ⟨hpc, hpost⟩ : l.nextOf prev = some c ∧ Path l.nextOf c post l.tail := by
    obtain ⟨b, hpre, hrest⟩ := (path_append pre (c :: post)).mp hc.path
    rw [hprev.end_unique hpre]
    exact hrest
  -- what the chain's addresses being distinct gives
  have hnd : ((l.head :: pre) ++ c :: post).Nodup := hc.nodup
  rw [List.nodup_append] at hnd
  have hprev_mem : prev ∈ l.head :: pre := by rw [hprev.eq_getLast]; exact List.getLast_mem _
  have hc_ne : c ≠ prev := fun h => hnd.2.2 prev hprev_mem c List.mem_cons_self h.symm
  have hprev_post : prev ∉ post := fun h => hnd.2.2 prev hprev_mem prev (List.mem_cons_of_mem c h) rfl
  have hnext : ∀ x, (l.Remove prev c).nextOf x = if x = prev then l.nextOf c else l.nextOf x :=
    list.Remove_nextOf prev c
  have hpre' := hc.Remove_prefix hprev
  have hsub : (l.head :: (pre ++ post)).Sublist (l.head :: (pre ++ c :: post)) :=
    (List.Sublist.append_left (List.sublist_cons_self c post) pre).cons_cons l.head
  have hcount : (l.Remove prev c).count = ((pre ++ post).length : ℤ) := by
    rw [list.Remove_count, hc.count_eq]
    simp only [List.length_append, List.length_cons]
    omega
  cases post with
  | nil =>
    -- `c` was the tail: `prev` becomes the tail
    have hcnone : l.nextOf c = none := by rw [show c = l.tail from hpost]; exact hc.last
    have htail : (l.Remove prev c).tail = prev := by rw [list.Remove_tail hc_ne, if_pos hcnone]
    refine ⟨by rw [htail, List.append_nil]; exact hpre', by rw [htail, hnext, if_pos rfl, hcnone],
      by rw [list.Remove_head]; exact hc.nodup.sublist hsub, fun n hn => ?_, hcount⟩
    rw [list.Remove_fresh]
    exact hc.allocated n (hsub.subset (by simpa using hn))
  | cons p post =>
    -- `prev` now points past `c` to `p`
    have hcp : l.nextOf c = some p := hpost.1
    have htail : (l.Remove prev c).tail = l.tail := by rw [list.Remove_tail hc_ne, if_neg (by rw [hcp]; simp)]
    have htail_ne : l.tail ≠ prev := by
      intro h
      apply hprev_post
      rw [← h, hpost.2.eq_getLast]
      exact List.getLast_mem _
    refine ⟨?_, by rw [htail, hnext, if_neg htail_ne]; exact hc.last,
      by rw [list.Remove_head]; exact hc.nodup.sublist hsub, fun n hn => ?_, hcount⟩
    · rw [htail]
      refine (path_append pre (p :: post)).mpr ⟨prev, hpre', by rw [hnext, if_pos rfl]; exact hcp, ?_⟩
      exact hpost.2.congr fun x hx => by
        rw [hnext, if_neg (fun h : x = prev => hprev_post (h ▸ List.dropLast_subset _ hx))]
    · rw [list.Remove_fresh]
      exact hc.allocated n (hsub.subset (by simpa using hn))

/-- `Shift` unlinks the first element and returns its value, or Go's nil value when there is none. -/
theorem Chain.Shift [Inhabited α] (hc : Chain l ns) :
    Chain l.Shift.1 ns.tail ∧ valuesOf l.Shift.1 ns.tail = (valuesOf l ns).tail ∧
      l.Shift.2 = (valuesOf l ns).headD default := by
  have hhead := hc.head_next
  unfold list.Shift
  cases ns with
  | nil =>
    rw [show (l.mem l.head).next = none from hhead]
    exact ⟨hc, rfl, rfl⟩
  | cons c post =>
    rw [show (l.mem l.head).next = some c from hhead]
    exact ⟨@Chain.Remove _ _ [] post c l.head hc rfl, valuesOf_congr (list.Remove_value _ _) post, rfl⟩

/-- `Remove(prev, current)` with `prev` reached from the head in `i` steps and `current` after it
removes the `i`-th value. -/
theorem Chain.Remove_walk (hc : Chain l ns) {i prev current : ℕ} (hw : walk l.nextOf i l.head = some prev)
    (hpc : l.nextOf prev = some current) :
    Chain (l.Remove prev current) (ns.eraseIdx i) ∧
      valuesOf (l.Remove prev current) (ns.eraseIdx i) = (valuesOf l ns).eraseIdx i := by
  obtain ⟨hpre, hpost⟩ := hc.path.split_walk hc.last hw
  -- `prev` has a `next`, so it is not the tail and the chain goes on past it with `current`
  obtain ⟨post, hdrop⟩ : ∃ post, ns.drop i = current :: post := by
    cases hd : ns.drop i with
    | nil =>
      rw [hd] at hpost
      rw [show prev = l.tail from hpost, hc.last] at hpc
      cases hpc
    | cons n post =>
      rw [hd] at hpost
      exact ⟨post, by rw [Option.some.inj (hpost.1.symm.trans hpc)]⟩
  have hsplit : Chain l (ns.take i ++ current :: post) := by rw [← hdrop, List.take_append_drop]; exact hc
  have herase : ns.eraseIdx i = ns.take i ++ post := by
    rw [List.eraseIdx_eq_take_drop_succ, ← List.tail_drop, hdrop, List.tail_cons]
  refine ⟨herase ▸ hsplit.Remove hpre, ?_⟩
  rw [valuesOf_congr (list.Remove_value _ _), valuesOf, valuesOf, List.eraseIdx_map]

/-- `UnShift` links a new element after the sentinel. -/
theorem Chain.UnShift (hc : Chain l ns) (data : α) :
    Chain (l.UnShift data) (l.fresh :: ns) ∧ valuesOf (l.UnShift data) (l.fresh :: ns) = data :: valuesOf l ns := by
  have hhead : l.head < l.fresh := hc.allocated _ List.mem_cons_self
  have hnext : ∀ x, (l.UnShift data).nextOf x =
      if x = l.head then some l.fresh else if x = l.fresh then l.nextOf l.head else l.nextOf x := by
    intro x
    simp only [list.nextOf, list.UnShift_mem, list.setNext, list.alloc]
    by_cases h1 : x = l.head
    · subst h1; simp
    · by_cases h2 : x = l.fresh
      · subst h2; simp [h1]
      · simp [h1, h2]
  have hvalue : ∀ x, ((l.UnShift data).mem x).Value = if x = l.fresh then data else (l.mem x).Value := by
    intro x
    rw [list.UnShift_mem, list.setNext_value, list.alloc_mem]
    split <;> rfl
  have hnd := List.nodup_cons.mp hc.nodup
  -- past the new element the chain is the old one, with the tail moved onto it when there was none
  have hrest : Path (l.UnShift data).nextOf l.fresh ns (l.UnShift data).tail ∧
      (l.UnShift data).nextOf (l.UnShift data).tail = none := by
    rw [list.UnShift_tail data hhead]
    cases ns with
    | nil =>
      have hnone : l.nextOf l.head = none := hc.head_next
      rw [if_pos hnone]
      exact ⟨rfl, by rw [hnext, if_neg (Nat.ne_of_gt hhead), if_pos rfl, hnone]⟩
    | cons n ns =>
      have hsome : l.nextOf l.head = some n := hc.head_next
      have hold : ∀ x ∈ n :: ns, (l.UnShift data).nextOf x = l.nextOf x := fun x hx => by
        rw [hnext, if_neg (fun h : x = l.head => hnd.1 (h ▸ hx)),
          if_neg (Nat.ne_of_lt (hc.allocated x (List.mem_cons_of_mem _ hx)))]
      have htail : l.tail ∈ n :: ns := by rw [hc.path.2.eq_getLast]; exact List.getLast_mem _
      rw [if_neg (by rw [hsome]; simp)]
      refine ⟨⟨by rw [hnext, if_neg (Nat.ne_of_gt hhead), if_pos rfl, hsome], ?_⟩, by rw [hold _ htail]; exact hc.last⟩
      exact hc.path.2.congr fun x hx => hold x (List.dropLast_subset _ hx)
  refine ⟨⟨?_, hrest.2, ?_, fun n hn => ?_, ?_⟩, ?_⟩
  · rw [list.UnShift_head]
    exact ⟨by rw [hnext, if_pos rfl], hrest.1⟩
  · rw [list.UnShift_head]
    refine List.nodup_cons.mpr ⟨?_, List.nodup_cons.mpr ⟨fun h => ?_, hnd.2⟩⟩
    · rw [List.mem_cons, not_or]
      exact ⟨Nat.ne_of_lt hhead, hnd.1⟩
    · exact Nat.lt_irrefl _ (hc.allocated _ (List.mem_cons_of_mem _ h))
  · rw [list.UnShift_fresh]
    rw [list.UnShift_head, List.mem_cons, List.mem_cons] at hn
    rcases hn with rfl | rfl | hn
    · exact Nat.lt_succ_of_lt hhead
    · exact Nat.lt_succ_self _
    · exact Nat.lt_succ_of_lt (hc.allocated n (List.mem_cons_of_mem _ hn))
  · rw [list.UnShift_count, hc.count_eq, List.length_cons]
    push_cast
    rfl
  · simp only [valuesOf, List.map_cons, hvalue]
    congr 1
    exact List.map_congr_left fun x hx => if_neg (Nat.ne_of_lt (hc.allocated x (List.mem_cons_of_mem _ hx)))

/-- `Clear` unlinks every element. -/
theorem Chain.Clear (hc : Chain l ns) : Chain l.Clear [] :=
  ⟨rfl, by show (l.setNext l.head none).nextOf l.head = none; rw [list.nextOf_setNext, if_pos rfl],
    List.nodup_singleton _,
    fun n hn => by rw [List.mem_singleton.mp hn]; exact hc.allocated _ List.mem_cons_self, rfl⟩

/-- The loop of `Filter` at `prev`, where the part `K` of the chain it has been through ends, over
the rest `R`: it keeps `K` and the addresses of `R` whose value the filter rejects, and changes no
value. -/
theorem Chain.filterLoop (filter : α → Bool) (R : List ℕ) {K : List ℕ} {l : list α} {prev fuel : ℕ}
    (hc : Chain l (K ++ R)) (hprev : Path l.nextOf l.head K prev) (hfuel : R.length < fuel) :
    Chain (l.filterLoop filter fuel prev R.head?) (K ++ R.filter fun n => !filter (l.mem n).Value) ∧
      ∀ x, ((l.filterLoop filter fuel prev R.head?).mem x).Value = (l.mem x).Value := by
  -- an induction on the addresses still to visit, the part visited and the list generalized
  induction R generalizing K l prev fuel with
  | nil =>
    obtain ⟨fuel, rfl⟩ : ∃ f, fuel = f + 1 := Nat.exists_eq_add_one_of_ne_zero (by omega)
    exact ⟨hc, fun _ => rfl⟩
  | cons c R ih =>
    obtain ⟨fuel, rfl⟩ : ∃ f, fuel = f + 1 := Nat.exists_eq_add_one_of_ne_zero (by omega)
    have hlen : R.length < fuel := by rw [List.length_cons] at hfuel; omega
    rw [List.head?_cons, list.filterLoop]
    by_cases hf : filter (l.mem c).Value
    · -- `c` is unlinked and the loop goes on from `prev`
      have hc' := hc.Remove hprev
      have hprev' := hc.Remove_prefix hprev
      obtain ⟨h1, h2⟩ := ih hc' hprev' hlen
      simp only [list.Remove_value] at h1 h2
      rw [if_pos hf]
      dsimp only
      rw [show ((l.Remove prev c).mem prev).next = R.head? from hc'.next_split hprev',
        List.filter_cons_of_neg (by simp [hf])]
      exact ⟨h1, h2⟩
    · -- `c` stays and becomes `prev`
      have hc' : Chain l ((K ++ [c]) ++ R) := by rw [List.append_assoc]; exact hc
      have hK : Path l.nextOf l.head (K ++ [c]) c :=
        (path_append K [c]).mpr ⟨prev, hprev, hc.next_split hprev, rfl⟩
      obtain ⟨h1, h2⟩ := ih hc' hK hlen
      rw [if_neg hf, show (l.mem c).next = R.head? from hc'.next_split hK,
        List.filter_cons_of_pos (by simp [hf]), ← List.singleton_append, ← List.append_assoc]
      exact ⟨h1, h2⟩

/-- `Filter` unlinks exactly the elements the filter accepts, keeping the others in order. -/
theorem Chain.Filter (hc : Chain l ns) (filter : α → Bool) :
    Chain (l.Filter filter) (ns.filter fun n => !filter (l.mem n).Value) ∧
      valuesOf (l.Filter filter) (ns.filter fun n => !filter (l.mem n).Value) =
        (valuesOf l ns).filter fun v => !filter v := by
  have hloop := @Chain.filterLoop α filter ns [] l l.head l.fresh hc rfl hc.length_lt_fresh
  unfold list.Filter
  rw [show (l.mem l.head).next = ns.head? from hc.head_next]
  refine ⟨hloop.1, ?_⟩
  rw [valuesOf_congr hloop.2, valuesOf, valuesOf, List.filter_map]
  rfl

/-! ## Runs of calls -/

/-- A call on the list with what it does to the values the list holds. `Remove(prev, current)` is
called with `current` after a `prev` that is reached from the head in `i` steps. -/
inductive Step [Inhabited α] : list α × List α → list α × List α → Prop
  | Append {l : list α} {xs : List α} (data : α) : Step (l, xs) (l.Append data, xs ++ [data])
  | Shift {l : list α} {xs : List α} : Step (l, xs) (l.Shift.1, xs.tail)
  | UnShift {l : list α} {xs : List α} (data : α) : Step (l, xs) (l.UnShift data, data :: xs)
  | Filter {l : list α} {xs : List α} (filter : α → Bool) :
      Step (l, xs) (l.Filter filter, xs.filter fun v => !filter v)
  | Clear {l : list α} {xs : List α} : Step (l, xs) (l.Clear, [])
  | Remove {l : list α} {xs : List α} (i prev current : ℕ) (hprev : walk l.nextOf i l.head = some prev)
      (hcurrent : l.nextOf prev = some current) : Step (l, xs) (l.Remove prev current, xs.eraseIdx i)

/-- Each call keeps the list a chain of the values it is meant to hold. -/
theorem Step.chain [Inhabited α] {s : list α × List α} (h : Step (l, valuesOf l ns) s) (hc : Chain l ns) :
    ∃ ns', Chain s.1 ns' ∧ valuesOf s.1 ns' = s.2 := by
  cases h with
  | Append data => exact ⟨_, hc.Append data⟩
  | Shift => exact ⟨_, hc.Shift.1, hc.Shift.2.1⟩
  | UnShift data => exact ⟨_, hc.UnShift data⟩
  | Filter filter => exact ⟨_, hc.Filter filter⟩
  | Clear => exact ⟨[], hc.Clear, rfl⟩
  | Remove i prev current hprev hcurrent => exact ⟨_, hc.Remove_walk hprev hcurrent⟩

/-- Every run of calls from `New` leaves a chain of the values the calls are meant to leave. -/
theorem run_chain [Inhabited α] {s : list α × List α} (h : Relation.ReflTransGen Step (New, []) s) :
    ∃ ns, Chain s.1 ns ∧ valuesOf s.1 ns = s.2 := by
  induction h with
  | refl => exact ⟨[], New_chain, rfl⟩
  | @tail b c _ hstep ih =>
    obtain ⟨ns, hc, hv⟩ := ih
    have hstep' : Step (b.1, valuesOf b.1 ns) c := by rw [hv]; exact hstep
    exact hstep'.chain hc

/-- After any calls from `New`, the elements reachable from the head are a finite chain of distinct
addresses ending at the tail (the head itself when there are none), as many as `count`, holding the
values the calls are meant to leave; `Size` is their number and `Shift` returns the first. -/
theorem list_keeps_chain [Inhabited α] {l : list α} {xs : List α}
    (h : Relation.ReflTransGen Step (New, []) (l, xs)) :
    (∃ ns, Chain l ns ∧ valuesOf l ns = xs) ∧ l.Size = xs.length ∧ l.Shift.2 = xs.headD default := by
  obtain ⟨ns, hc, hv⟩ : ∃ ns, Chain l ns ∧ valuesOf l ns = xs := run_chain h
  refine ⟨⟨ns, hc, hv⟩, ?_, ?_⟩
  · rw [list.Size, hc.count_eq, ← hv, valuesOf, List.length_map]
  · rw [← hv]
    exact hc.Shift.2.2

/-- `Append 1`, `Append 2` and `Shift` from `New`: the element of `1` is unlinked but still points
at that of `2`. -/
def staleList : list ℕ := (((New : list ℕ).Append 1).Append 2).Shift.1

theorem staleList_run : Relation.ReflTransGen Step (New, []) (staleList, [2]) :=
  .tail (.tail (.tail .refl (Step.Append 1)) (Step.Append 2)) Step.Shift

theorem list_keeps_chain_stale :
    (∃ ns, Chain staleList ns ∧ valuesOf staleList ns = [2]) ∧ staleList.Size = [2].length ∧
      staleList.Shift.2 = [2].headD default :=
  list_keeps_chain staleList_run

/-- `Remove(prev, current)` with `prev.next = current` alone: removing after the element `Shift`
unlinked sets the count to zero while the head still reaches `2`, so no chain is left. -/
theorem remove_after_removed_breaks_chain :
    (∃ ns, Chain staleList ns) ∧ staleList.nextOf 1 = some 2 ∧ ¬ ∃ ns, Chain (staleList.Remove 1 2) ns := by
  refine ⟨(run_chain staleList_run).imp fun _ h => h.1, rfl, ?_⟩
  rintro ⟨ns, hc⟩
  have hnil : ns = [] := by
    have hcount := hc.count_eq
    rw [show (staleList.Remove 1 2).count = 0 from rfl] at hcount
    exact List.length_eq_zero_iff.mp (by omega)
  have hhead := hc.head_next
  rw [hnil] at hhead
  exact absurd hhead (by decide)

end Vite.LinkedList
