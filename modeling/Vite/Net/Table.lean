import Mathlib.Logic.Relation
import Mathlib.Data.List.Nodup
import Vite.Net.Neighbors

/-!
# The routing table (net/discovery/table.go)

A `listBucket` is a singly linked list under a `head` sentinel with a `tail` pointer, a `count`
and a capacity `cap`. The model keeps the nodes of the elements after the head in `next` order and
the position the `tail` pointer stands at, `0` for the head: `b.tail.next = e` then cuts the list
after that position, and unlinking an element moves the positions of the pointers behind it.

The `table` holds `bucketNum` buckets of `bucketSize` nodes, a node sitting in the bucket of its
distance to the table's own id (`getBucket`), and `nodeMap` from a node's address to the node.
`table.add` runs in three sections, the first reading the bucket without the lock and the others
each under it, and leaves `checkRemove` and `checkReplace` to ping callbacks that run later. The
system (`Step`) is the table with the sections and callbacks in flight (`Task`), any of which may
run next; a call of `table.add` run without interruption is such a run (`Reachable.add`).

In every reachable state every bucket is well formed, `count` elements from the head with `tail`
the last and at most `cap` of them, and every node sits in its own bucket and has neither the
table's id nor the zero id (`reachable_buckets_wellFormed`). The ids are not kept distinct nor
`nodeMap` exact: two calls of `add` for nodes of one address that both read `nodeMap` before either
inserts put both nodes in the table, the second in `nodeMap` at the address of the first
(`add_race_breaks_nodeMap`); and a `checkReplace` callback for a node that a later `add` put in
the bucket when it had room puts the node in the bucket twice (`checkReplace_duplicates_id`).
-/

namespace Vite.Discovery

open Vite.Vnode

def bucketSize : ℕ := 64
def bucketNum : ℕ := 32

/-! ## A bucket -/

/-- `listBucket`: the nodes of the elements after `head` in `next` order, and the position the
`tail` pointer stands at, `0` for the head and `i` for the `i`-th element. -/
structure listBucket where
  elems : List Node
  tail : ℕ
  cap : ℕ
  count : ℤ

def newListBucket (max : ℕ) : listBucket := ⟨[], 0, max, 0⟩

namespace listBucket

/-- The loop every method runs from `b.head.next`: the first element whose node has the id, its
position after the head from `0` and its node. -/
def find (b : listBucket) (id : NodeID) : Option (ℕ × Node) := do
  let j ← b.elems.findIdx? fun c => c.ID = id
  let c ← b.elems[j]?
  pure (j, c)

def reset (b : listBucket) : listBucket := { b with count := 0, elems := [], tail := 0 }

def replace (b : listBucket) (id : NodeID) (n : Node) : listBucket × Bool :=
  match b.find id with
  | some (j, _) => ({ b with elems := b.elems.set j n }, true)
  | none => (b, false)

/-- The node of the element `tail` points at; the head has none. -/
def tailNode (b : listBucket) : Option Node := if b.tail = 0 then none else b.elems[b.tail - 1]?

/-- Where a pointer at position `t` stands once another element, the one at position `j + 1`, is
unlinked. -/
def unlinked (t j : ℕ) : ℕ := if j + 1 < t then t - 1 else t

/-- `bubble` moves the node to the tail, and only stamps its `activeAt` if it is the tail already.
With the tail on the head, `b.tail.ID` dereferences the head's nil node in Go; the model reads no
match there, and a well-formed bucket with a non-zero count never has its tail on the head. -/
def bubble (b : listBucket) (id : NodeID) : listBucket × Bool :=
  if b.count = 0 then (b, false)
  else if b.tailNode.map (·.ID) = some id then (b, true)
  else
    match b.find id with
    | some (j, current) =>
      -- `prev.next = current.next`, then `b.tail.next = current` and `b.tail = current`
      let t := unlinked b.tail j
      ({ b with elems := (b.elems.eraseIdx j).take t ++ [current], tail := t + 1 }, true)
    | none => (b, false)

def oldest (b : listBucket) : Option Node := b.elems.head?

/-- `add`: the node under the same id, else `nil` once the node is linked after `tail`, else the
oldest node when the bucket is full. -/
def add (b : listBucket) (n : Node) : listBucket × Option Node :=
  match b.find n.ID with
  | some (_, current) => (b, some current)
  | none =>
    if b.count < b.cap then
      -- `b.tail.next = e` and `b.tail = e`
      ({ b with elems := b.elems.take b.tail ++ [n], tail := b.tail + 1, count := b.count + 1 }, none)
    else (b, b.oldest)

def remove (b : listBucket) (id : NodeID) : listBucket × Option Node :=
  match b.find id with
  | some (j, current) =>
    -- `prev.next = current.next`, and `b.tail = prev` if `current` was the tail
    let t := if b.tail = j + 1 then j else unlinked b.tail j
    ({ b with elems := b.elems.eraseIdx j, tail := t, count := b.count - 1 }, some current)
  | none => (b, none)

def resolve (b : listBucket) (id : NodeID) : Option Node := (b.find id).map Prod.snd

/-- The bucket is `count` elements from the head, the last of them `tail`, at most `cap`. -/
structure WF (b : listBucket) : Prop where
  count_eq : b.count = b.elems.length
  tail_eq : b.tail = b.elems.length
  length_le : b.elems.length ≤ b.cap

/-! ### The search -/

variable {b : listBucket} {id : NodeID}

theorem find_eq_some {j : ℕ} {c : Node} :
    b.find id = some (j, c) ↔
      ∃ pre post, b.elems = pre ++ c :: post ∧ pre.length = j ∧ c.ID = id ∧ ∀ m ∈ pre, m.ID ≠ id := by
  simp only [find, Option.bind_eq_bind, Option.bind_eq_some_iff, Option.pure_def, Option.some.injEq,
    Prod.mk.injEq]
  constructor
  · rintro ⟨j', hj, c', hc, rfl, rfl⟩
    obtain ⟨hlt, hp, hbefore⟩ := List.findIdx?_eq_some_iff_getElem.mp hj
    obtain rfl : b.elems[j'] = c' := (List.getElem?_eq_some_iff.mp hc).2
    refine ⟨b.elems.take j', b.elems.drop (j' + 1), ?_, by simp; omega, by simpa using hp, ?_⟩
    · rw [← List.drop_eq_getElem_cons hlt, List.take_append_drop]
    · intro m hm
      obtain ⟨k, hk, rfl⟩ := List.mem_take_iff_getElem.mp hm
      simpa using hbefore k (by omega)
  · rintro ⟨pre, post, hsplit, rfl, rfl, hpre⟩
    have hnone : pre.findIdx? (fun m => m.ID = c.ID) = none :=
      List.findIdx?_eq_none_iff.mpr fun m hm => by simpa using hpre m hm
    refine ⟨pre.length, ?_, c, ?_, rfl, rfl⟩
    · rw [hsplit, List.findIdx?_append, hnone, List.findIdx?_cons]
      simp
    · rw [hsplit, List.getElem?_append_right le_rfl]
      simp

theorem find_eq_none : b.find id = none ↔ ∀ c ∈ b.elems, c.ID ≠ id := by
  constructor
  · intro h c hc hid
    obtain ⟨pre, post, hsplit⟩ := List.append_of_mem hc
    -- the first match is at or before `c`
    rcases hfirst : (pre.find? fun m => m.ID = id) with _ | m
    · have hpre : ∀ m ∈ pre, m.ID ≠ id := fun m hm => by simpa using List.find?_eq_none.mp hfirst m hm
      have := find_eq_some.mpr ⟨pre, post, hsplit, rfl, hid, hpre⟩
      simp [h] at this
    · obtain ⟨hm, pre', post', rfl, hpre'⟩ := List.find?_eq_some_iff_append.mp hfirst
      have := (find_eq_some (c := m)).mpr ⟨pre', post' ++ c :: post, by rw [hsplit]; simp, rfl, by simpa using hm,
        fun m hm' => by simpa using hpre' m hm'⟩
      simp [h] at this
  · intro h
    rcases hf : b.find id with _ | ⟨j, c⟩
    · rfl
    · obtain ⟨pre, post, hsplit, -, hid, -⟩ := find_eq_some.mp hf
      exact absurd hid (h c (by simp [hsplit]))

theorem find_lt {j : ℕ} {c : Node} (h : b.find id = some (j, c)) : j < b.elems.length := by
  obtain ⟨pre, post, hsplit, rfl, -⟩ := find_eq_some.mp h
  rw [hsplit, List.length_append, List.length_cons]
  omega

theorem eraseIdx_of_find {j : ℕ} {c : Node} (h : b.find id = some (j, c)) :
    ∃ pre post, b.elems = pre ++ c :: post ∧ b.elems.eraseIdx j = pre ++ post := by
  obtain ⟨pre, post, hsplit, rfl, -⟩ := find_eq_some.mp h
  refine ⟨pre, post, hsplit, ?_⟩
  rw [hsplit, List.eraseIdx_append_of_length_le le_rfl, Nat.sub_self, List.eraseIdx_cons_zero]

theorem mem_of_find {j : ℕ} {c : Node} (h : b.find id = some (j, c)) : c ∈ b.elems := by
  obtain ⟨pre, post, hsplit, -⟩ := find_eq_some.mp h
  rw [hsplit]
  simp

/-! ### What each method does to a well-formed bucket -/

theorem WF.reset (b : listBucket) : b.reset.WF := ⟨rfl, rfl, Nat.zero_le _⟩

@[simp] theorem reset_cap : b.reset.cap = b.cap := rfl

@[simp] theorem reset_elems : b.reset.elems = [] := rfl

@[simp] theorem replace_cap (n : Node) : (b.replace id n).1.cap = b.cap := by
  unfold replace
  split <;> rfl

theorem replace_of_find {j : ℕ} {c : Node} (n : Node) (h : b.find id = some (j, c)) :
    b.replace id n = ({ b with elems := b.elems.set j n }, true) := by
  simp [replace, h]

theorem replace_of_none (n : Node) (h : b.find id = none) : b.replace id n = (b, false) := by
  simp [replace, h]

theorem WF.replace (hb : b.WF) (n : Node) : (b.replace id n).1.WF := by
  rcases hf : b.find id with _ | ⟨j, c⟩
  · rwa [replace_of_none n hf]
  · rw [replace_of_find n hf]
    exact ⟨by simpa using hb.count_eq, by simpa using hb.tail_eq, by simpa using hb.length_le⟩

theorem mem_replace {n m : Node} (hm : m ∈ (b.replace id n).1.elems) : m ∈ b.elems ∨ m = n := by
  rcases hf : b.find id with _ | ⟨j, c⟩
  · rw [replace_of_none n hf] at hm
    exact Or.inl hm
  · rw [replace_of_find n hf] at hm
    exact List.mem_or_eq_of_mem_set hm

@[simp] theorem remove_cap : (b.remove id).1.cap = b.cap := by
  unfold remove
  split <;> rfl

theorem remove_of_find {j : ℕ} {c : Node} (h : b.find id = some (j, c)) :
    b.remove id = ({ b with
      elems := b.elems.eraseIdx j, tail := if b.tail = j + 1 then j else unlinked b.tail j, count := b.count - 1 },
      some c) := by
  simp [remove, h]

theorem remove_of_none (h : b.find id = none) : b.remove id = (b, none) := by
  simp [remove, h]

/-- Unlinking the element at `j + 1` of a bucket whose tail is its last element leaves the tail
on the new last one, whether it was the unlinked element or not. -/
theorem unlinked_last {len j : ℕ} (hj : j < len) :
    (if len = j + 1 then j else unlinked len j) = len - 1 := by
  unfold unlinked
  split_ifs <;> omega

theorem WF.remove (hb : b.WF) : (b.remove id).1.WF := by
  rcases hf : b.find id with _ | ⟨j, c⟩
  · rwa [remove_of_none hf]
  · have hj := find_lt hf
    rw [remove_of_find hf]
    refine ⟨?_, ?_, ?_⟩
    · simp only [List.length_eraseIdx, if_pos hj, hb.count_eq]
      omega
    · simp only [List.length_eraseIdx, if_pos hj, hb.tail_eq]
      exact unlinked_last hj
    · simp only [List.length_eraseIdx, if_pos hj]
      have := hb.length_le
      omega

theorem mem_remove {m : Node} (hm : m ∈ (b.remove id).1.elems) : m ∈ b.elems := by
  rcases hf : b.find id with _ | ⟨j, c⟩
  · rwa [remove_of_none hf] at hm
  · rw [remove_of_find hf] at hm
    exact List.mem_of_mem_eraseIdx hm

@[simp] theorem bubble_cap : (b.bubble id).1.cap = b.cap := by
  unfold bubble
  split_ifs
  · rfl
  · rfl
  · split <;> rfl

/-- In a well-formed bucket the first match `bubble` finds is not the tail, which it has checked
first: it is unlinked from before the tail, and linked again after it. -/
theorem bubble_of_find (hb : b.WF) {j : ℕ} {c : Node} (h0 : b.count ≠ 0)
    (htail : b.tailNode.map (·.ID) ≠ some id) (h : b.find id = some (j, c)) :
    j + 1 < b.elems.length ∧ b.bubble id = ({ b with elems := b.elems.eraseIdx j ++ [c], tail := b.elems.length }, true) := by
  have hj := find_lt h
  have hlast : j + 1 ≠ b.elems.length := by
    intro hlen
    obtain ⟨pre, post, hsplit, rfl, hid, -⟩ := find_eq_some.mp h
    have hpost : post = [] := by
      rw [hsplit, List.length_append, List.length_cons] at hlen
      exact List.eq_nil_of_length_eq_zero (by omega)
    apply htail
    have hne : b.tail ≠ 0 := by rw [hb.tail_eq]; omega
    rw [tailNode, if_neg hne, hb.tail_eq, hsplit, hpost]
    simp [hid]
  have hlt : j + 1 < b.elems.length := by omega
  refine ⟨hlt, ?_⟩
  have ht : unlinked b.tail j = b.elems.length - 1 := by
    rw [unlinked, hb.tail_eq, if_pos hlt]
  have htake : (b.elems.eraseIdx j).take (b.elems.length - 1) = b.elems.eraseIdx j :=
    List.take_of_length_le (by simp [List.length_eraseIdx, hj])
  simp only [bubble, if_neg h0, if_neg htail, h, ht, htake]
  congr
  omega

theorem WF.bubble (hb : b.WF) : (b.bubble id).1.WF := by
  by_cases h0 : b.count = 0
  · simpa [listBucket.bubble, h0] using hb
  by_cases htail : b.tailNode.map (·.ID) = some id
  · simpa [listBucket.bubble, h0, htail] using hb
  rcases hf : b.find id with _ | ⟨j, c⟩
  · simpa [listBucket.bubble, h0, htail, hf] using hb
  · obtain ⟨hlt, heq⟩ := bubble_of_find hb h0 htail hf
    rw [heq]
    refine ⟨?_, ?_, ?_⟩
    · simp only [List.length_append, List.length_eraseIdx, if_pos (by omega : j < b.elems.length),
        List.length_singleton, hb.count_eq]
      omega
    · simp only [List.length_append, List.length_eraseIdx, if_pos (by omega : j < b.elems.length),
        List.length_singleton]
      omega
    · simp only [List.length_append, List.length_eraseIdx, if_pos (by omega : j < b.elems.length),
        List.length_singleton]
      have := hb.length_le
      omega

theorem mem_bubble (hb : b.WF) {m : Node} (hm : m ∈ (b.bubble id).1.elems) : m ∈ b.elems := by
  by_cases h0 : b.count = 0
  · simpa [listBucket.bubble, h0] using hm
  by_cases htail : b.tailNode.map (·.ID) = some id
  · simpa [listBucket.bubble, h0, htail] using hm
  rcases hf : b.find id with _ | ⟨j, c⟩
  · simpa [listBucket.bubble, h0, htail, hf] using hm
  · rw [(bubble_of_find hb h0 htail hf).2] at hm
    rcases List.mem_append.mp hm with hm | hm
    · exact List.mem_of_mem_eraseIdx hm
    · rw [List.mem_singleton.mp hm]
      exact mem_of_find hf

@[simp] theorem add_cap (n : Node) : (b.add n).1.cap = b.cap := by
  unfold add
  split
  · rfl
  · split_ifs <;> rfl

theorem add_of_find {j : ℕ} {c : Node} (n : Node) (h : b.find n.ID = some (j, c)) : b.add n = (b, some c) := by
  simp [add, h]

/-- A well-formed bucket with room and no node of the id links the node after its last one. -/
theorem add_of_room (hb : b.WF) {n : Node} (h : b.find n.ID = none) (hroom : b.elems.length < b.cap) :
    b.add n = ({ b with elems := b.elems ++ [n], tail := b.tail + 1, count := b.count + 1 }, none) := by
  have hlt : b.count < b.cap := by rw [hb.count_eq]; exact_mod_cast hroom
  simp [add, h, hlt, hb.tail_eq]

theorem add_of_full (hb : b.WF) {n : Node} (h : b.find n.ID = none) (hfull : b.cap ≤ b.elems.length) :
    b.add n = (b, b.oldest) := by
  have hge : ¬ b.count < b.cap := by rw [hb.count_eq]; exact_mod_cast Nat.not_lt.mpr hfull
  simp [add, h, hge]

theorem WF.add (hb : b.WF) (n : Node) : (b.add n).1.WF := by
  rcases hf : b.find n.ID with _ | ⟨j, c⟩
  · by_cases hroom : b.elems.length < b.cap
    · rw [add_of_room hb hf hroom]
      exact ⟨by simp [hb.count_eq], by simp [hb.tail_eq], by simpa using hroom⟩
    · rwa [add_of_full hb hf (Nat.le_of_not_lt hroom)]
  · rwa [add_of_find n hf]

theorem mem_add (hb : b.WF) {n m : Node} (hm : m ∈ (b.add n).1.elems) : m ∈ b.elems ∨ m = n := by
  rcases hf : b.find n.ID with _ | ⟨j, c⟩
  · by_cases hroom : b.elems.length < b.cap
    · rw [add_of_room hb hf hroom] at hm
      simpa using hm
    · rw [add_of_full hb hf (Nat.le_of_not_lt hroom)] at hm
      exact Or.inl hm
  · rw [add_of_find n hf] at hm
    exact Or.inl hm

end listBucket

/-! ## The table -/

/-- `Node.Address()`: the `String()` of the node's endpoint, which the model takes as the
parameter `render`; two nodes of one endpoint have one address whatever it writes. -/
def Address {K : Type} (render : EndPoint → K) (n : Node) : K := render n.EndPoint

def minDistance : ℕ := IDBits - bucketNum + 1

theorem Distance_sub_minDistance_lt (tid id : NodeID) : Distance tid id - minDistance < bucketNum := by
  have := Distance_le tid id
  simp only [minDistance, bucketNum, IDBits, idBytes] at *
  omega

/-- `getBucket`, as the index of the bucket in `tab.buckets`. -/
def getBucket (tid id : NodeID) : Fin bucketNum :=
  if Distance tid id < minDistance then ⟨0, by decide⟩
  else ⟨Distance tid id - minDistance, Distance_sub_minDistance_lt tid id⟩

/-- `table`, with `nodeMap` keyed by `Address`. The subscribers, the socket and the net id are left
out: no method here reads them. -/
structure table (K : Type) where
  buckets : Fin bucketNum → listBucket
  nodeMap : K → Option Node
  id : NodeID

variable {K : Type} [DecidableEq K]

def newTable (id : NodeID) : table K := ⟨fun _ => newListBucket bucketSize, fun _ => none, id⟩

/-- What runs after the call that started it: a section of `add` still to take the lock, or the
callback of a ping. -/
inductive Task where
  /-- `add` found no node of the id in the bucket, and reads `nodeMap` next. -/
  | readMap (node : Node)
  /-- `add` found the node itself, and bubbles it next. -/
  | bubble (node : Node)
  /-- `add` found no node under the id or the address, and inserts the node next. -/
  | insert (node : Node)
  /-- The callback of the ping `checkRemove` sends. -/
  | checkRemove (node : Node)
  /-- The callback of the ping `checkReplace` sends, with the bucket it was given. -/
  | checkReplace (bkt : Fin bucketNum) (oldNode newNode : Node)

namespace table

variable (render : EndPoint → K)

def setBucket (tab : table K) (i : Fin bucketNum) (b : listBucket) : table K :=
  { tab with buckets := Function.update tab.buckets i b }

def setNode (tab : table K) (addr : K) (node : Option Node) : table K :=
  { tab with nodeMap := Function.update tab.nodeMap addr node }

/-- `reset`: every bucket emptied and a new `nodeMap`. -/
def reset (tab : table K) : table K :=
  { tab with buckets := fun i => (tab.buckets i).reset, nodeMap := fun _ => none }

def removeLocked (tab : table K) (id : NodeID) : table K × Option Node :=
  let i := getBucket tab.id id
  match (tab.buckets i).remove id with
  | (bkt, some node) => (((tab.setBucket i bkt).setNode (Address render node) none), some node)
  | (bkt, none) => (tab.setBucket i bkt, none)

/-- `remove`: `removeLocked` under the lock. -/
def remove (tab : table K) (id : NodeID) : table K × Option Node := tab.removeLocked render id

def bubble (tab : table K) (id : NodeID) : table K × Bool :=
  let i := getBucket tab.id id
  let r := (tab.buckets i).bubble id
  (tab.setBucket i r.1, r.2)

/-- `add` with no other call between its sections: the table, the node it returns and the
callbacks it leaves. `needCheck` is `Node.needCheck` at the time of the call. -/
def add (tab : table K) (needCheck : Node → Bool) (node : Node) : table K × Option Node × List Task :=
  if node.ID = tab.id ∨ node.ID = ZERO then (tab, none, [])
  else
    let addr := Address render node
    let i := getBucket tab.id node.ID
    match ((tab.buckets i).resolve node.ID).or (tab.nodeMap addr) with
    | some old =>
      if old = node then ((tab.bubble node.ID).1, none, [])
      else (tab, some old, if needCheck old then [.checkRemove old] else [])
    | none =>
      match (tab.buckets i).add node with
      | (bkt, none) => ((tab.setBucket i bkt).setNode addr (some node), none, [])
      | (bkt, some toCheck) =>
        (tab.setBucket i bkt, some toCheck, if needCheck toCheck then [.checkReplace i toCheck node] else [])

/-! ### The sections of `add` and the callbacks -/

/-- What `add` goes on to do with the node `old` it found under the id or the address. -/
def found (needCheck : Node → Bool) (node old : Node) : List Task :=
  if old = node then [.bubble node] else if needCheck old then [.checkRemove old] else []

/-- The first section of `add`, which reads the bucket without the lock: what it leaves to run. -/
def addStart (tab : table K) (needCheck : Node → Bool) (node : Node) : List Task :=
  if node.ID = tab.id ∨ node.ID = ZERO then []
  else
    match (tab.buckets (getBucket tab.id node.ID)).resolve node.ID with
    | some old => found needCheck node old
    | none => [.readMap node]

/-- The last section of `add`, which inserts the node under the lock. -/
def insert (tab : table K) (needCheck : Node → Bool) (node : Node) : table K × List Task :=
  let i := getBucket tab.id node.ID
  match (tab.buckets i).add node with
  | (bkt, none) => ((tab.setBucket i bkt).setNode (Address render node) (some node), [])
  | (bkt, some toCheck) => (tab.setBucket i bkt, if needCheck toCheck then [.checkReplace i toCheck node] else [])

/-- The callback of `checkRemove`'s ping, given whether the ping failed. -/
def checkRemove (tab : table K) (node : Node) (err : Bool) : table K :=
  if err then (tab.remove render node.ID).1 else tab

/-- The callback of `checkReplace`'s ping, given whether the ping failed. -/
def checkReplace (tab : table K) (bkt : Fin bucketNum) (oldNode newNode : Node) (err : Bool) : table K :=
  if err then
    match (tab.buckets bkt).replace oldNode.ID newNode with
    | (b, true) => ((tab.setBucket bkt b).setNode (Address render oldNode) none).setNode (Address render newNode) (some newNode)
    | (b, false) => tab.setBucket bkt b
  else tab

/-- Running a task: the table after it and the tasks it leaves. -/
def run (tab : table K) (needCheck : Node → Bool) (err : Bool) : Task → table K × List Task
  | .readMap node =>
    match tab.nodeMap (Address render node) with
    | some old => (tab, found needCheck node old)
    | none => (tab, [.insert node])
  | .bubble node => ((tab.bubble node.ID).1, [])
  | .insert node => tab.insert render needCheck node
  | .checkRemove node => (tab.checkRemove render node err, [])
  | .checkReplace bkt oldNode newNode => (tab.checkReplace render bkt oldNode newNode err, [])

end table

/-! ## The system -/

/-- The table and what is still to run. -/
structure State (K : Type) where
  tab : table K
  pending : List Task

/-- A step: a call of `add` (its first section), `remove`, `bubble` or `reset`, or any task in
flight, a ping callback given whether the ping failed. -/
inductive Step (render : EndPoint → K) : State K → State K → Prop where
  | add {tab : table K} {ts : List Task} (needCheck : Node → Bool) (node : Node) :
      Step render ⟨tab, ts⟩ ⟨tab, ts ++ tab.addStart needCheck node⟩
  | remove {tab : table K} {ts : List Task} (id : NodeID) : Step render ⟨tab, ts⟩ ⟨(tab.remove render id).1, ts⟩
  | bubble {tab : table K} {ts : List Task} (id : NodeID) : Step render ⟨tab, ts⟩ ⟨(tab.bubble id).1, ts⟩
  | reset {tab : table K} {ts : List Task} : Step render ⟨tab, ts⟩ ⟨tab.reset, ts⟩
  | run {tab : table K} (pre post : List Task) (t : Task) (needCheck : Node → Bool) (err : Bool) :
      Step render ⟨tab, pre ++ t :: post⟩
        ⟨(tab.run render needCheck err t).1, pre ++ post ++ (tab.run render needCheck err t).2⟩

/-- The states reachable from `newTable tid` with nothing in flight. -/
def Reachable (render : EndPoint → K) (tid : NodeID) : State K → Prop :=
  Relation.ReflTransGen (Step render) ⟨newTable tid, []⟩

/-! ## Every reachable state keeps its buckets well formed -/

/-- A node `add` lets in: neither the table's id nor the zero id. -/
def Addable (tid : NodeID) (n : Node) : Prop := n.ID ≠ tid ∧ n.ID ≠ ZERO

instance (tid : NodeID) (n : Node) : Decidable (Addable tid n) := inferInstanceAs (Decidable (_ ∧ _))

/-- Bucket `i` of a table of id `tid`: well formed, of capacity `bucketSize`, and holding nodes
that `add` lets in and that belong in it. -/
structure Fits (tid : NodeID) (i : Fin bucketNum) (b : listBucket) : Prop where
  wf : b.WF
  cap : b.cap = bucketSize
  placed : ∀ n ∈ b.elems, getBucket tid n.ID = i ∧ Addable tid n

namespace Fits

variable {tid : NodeID} {i : Fin bucketNum} {b : listBucket}

theorem reset (h : Fits tid i b) : Fits tid i b.reset :=
  ⟨listBucket.WF.reset b, by simpa using h.cap, by simp⟩

theorem remove (h : Fits tid i b) (id : NodeID) : Fits tid i (b.remove id).1 :=
  ⟨h.wf.remove, by simpa using h.cap, fun n hn => h.placed n (listBucket.mem_remove hn)⟩

theorem bubble (h : Fits tid i b) (id : NodeID) : Fits tid i (b.bubble id).1 :=
  ⟨h.wf.bubble, by simpa using h.cap, fun n hn => h.placed n (listBucket.mem_bubble h.wf hn)⟩

theorem add (h : Fits tid i b) {n : Node} (hn : getBucket tid n.ID = i ∧ Addable tid n) :
    Fits tid i (b.add n).1 := by
  refine ⟨h.wf.add n, by simpa using h.cap, fun m hm => ?_⟩
  rcases listBucket.mem_add h.wf hm with hm | rfl
  · exact h.placed m hm
  · exact hn

theorem replace (h : Fits tid i b) (id : NodeID) {n : Node} (hn : getBucket tid n.ID = i ∧ Addable tid n) :
    Fits tid i (b.replace id n).1 := by
  refine ⟨h.wf.replace n, by simpa using h.cap, fun m hm => ?_⟩
  rcases listBucket.mem_replace hm with hm | rfl
  · exact h.placed m hm
  · exact hn

end Fits

theorem fits_update {tid : NodeID} {bs : Fin bucketNum → listBucket} (h : ∀ j, Fits tid j (bs j))
    {i : Fin bucketNum} {b : listBucket} (hb : Fits tid i b) (j : Fin bucketNum) :
    Fits tid j (Function.update bs i b j) := by
  by_cases hj : j = i
  · subst hj
    simpa using hb
  · rw [Function.update_of_ne hj]
    exact h j

/-- What a task in flight carries: a node `add` lets in, and for `checkReplace` the node's own
bucket. -/
def Task.Valid (tid : NodeID) : Task → Prop
  | .readMap node => Addable tid node
  | .bubble _ => True
  | .insert node => Addable tid node
  | .checkRemove _ => True
  | .checkReplace bkt _ newNode => getBucket tid newNode.ID = bkt ∧ Addable tid newNode

/-- The invariant of the system: the table keeps its id, its buckets fit, and the tasks in flight
are valid. -/
structure Inv (tid : NodeID) (s : State K) : Prop where
  id_eq : s.tab.id = tid
  fits : ∀ i, Fits tid i (s.tab.buckets i)
  tasks : ∀ t ∈ s.pending, t.Valid tid

namespace table

variable (render : EndPoint → K) (tab : table K)

omit [DecidableEq K] in
@[simp] theorem setBucket_id (i : Fin bucketNum) (b : listBucket) : (tab.setBucket i b).id = tab.id := rfl
omit [DecidableEq K] in
@[simp] theorem setBucket_buckets (i : Fin bucketNum) (b : listBucket) :
    (tab.setBucket i b).buckets = Function.update tab.buckets i b := rfl
omit [DecidableEq K] in
@[simp] theorem setBucket_nodeMap (i : Fin bucketNum) (b : listBucket) :
    (tab.setBucket i b).nodeMap = tab.nodeMap := rfl
@[simp] theorem setNode_id (addr : K) (n : Option Node) : (tab.setNode addr n).id = tab.id := rfl
@[simp] theorem setNode_buckets (addr : K) (n : Option Node) : (tab.setNode addr n).buckets = tab.buckets := rfl
@[simp] theorem setNode_nodeMap (addr : K) (n : Option Node) :
    (tab.setNode addr n).nodeMap = Function.update tab.nodeMap addr n := rfl

theorem remove_buckets (id : NodeID) :
    (tab.remove render id).1.buckets =
      Function.update tab.buckets (getBucket tab.id id) ((tab.buckets (getBucket tab.id id)).remove id).1 := by
  unfold remove removeLocked
  dsimp only
  split
  · rename_i bkt node h
    simp [h]
  · rename_i bkt h
    simp [h]

theorem remove_id (id : NodeID) : (tab.remove render id).1.id = tab.id := by
  unfold remove removeLocked
  dsimp only
  split <;> rfl

theorem insert_spec (needCheck : Node → Bool) (node : Node) :
    (tab.insert render needCheck node).1.id = tab.id ∧
      (tab.insert render needCheck node).1.buckets =
        Function.update tab.buckets (getBucket tab.id node.ID) ((tab.buckets (getBucket tab.id node.ID)).add node).1 ∧
      ∀ t ∈ (tab.insert render needCheck node).2, ∃ c, t = .checkReplace (getBucket tab.id node.ID) c node := by
  unfold insert
  dsimp only
  split
  · rename_i bkt h
    simp [h]
  · rename_i bkt c h
    refine ⟨rfl, by simp [h], fun t ht => ⟨c, ?_⟩⟩
    split_ifs at ht
    · exact List.mem_singleton.mp ht
    · cases ht

theorem checkReplace_spec (bkt : Fin bucketNum) (oldNode newNode : Node) (err : Bool) :
    (tab.checkReplace render bkt oldNode newNode err).id = tab.id ∧
      ((tab.checkReplace render bkt oldNode newNode err).buckets = tab.buckets ∨
        (tab.checkReplace render bkt oldNode newNode err).buckets =
          Function.update tab.buckets bkt ((tab.buckets bkt).replace oldNode.ID newNode).1) := by
  unfold checkReplace
  split_ifs
  · split
    · rename_i b h
      simp [h]
    · rename_i b h
      simp [h]
  · exact ⟨rfl, .inl rfl⟩

variable {render tab}

/-- `remove` keeps every bucket fitting. -/
theorem fits_remove {tid : NodeID} (h : ∀ i, Fits tid i (tab.buckets i)) (id : NodeID) (i : Fin bucketNum) :
    Fits tid i ((tab.remove render id).1.buckets i) := by
  rw [remove_buckets]
  exact fits_update h ((h _).remove id) i

omit [DecidableEq K] in
theorem addStart_valid (needCheck : Node → Bool) (node : Node) :
    ∀ t ∈ tab.addStart needCheck node, t.Valid tab.id := by
  intro t ht
  unfold addStart at ht
  split_ifs at ht with hbad
  · cases ht
  · split at ht
    · unfold found at ht
      split_ifs at ht <;> simp_all [Task.Valid]
    · rw [List.mem_singleton.mp ht]
      exact not_or.mp hbad

/-- A task keeps the table's id, keeps every bucket fitting, and leaves valid tasks. -/
theorem run_inv (h : ∀ i, Fits tab.id i (tab.buckets i)) {t : Task} (ht : t.Valid tab.id)
    (needCheck : Node → Bool) (err : Bool) :
    (tab.run render needCheck err t).1.id = tab.id ∧
      (∀ i, Fits tab.id i ((tab.run render needCheck err t).1.buckets i)) ∧
      ∀ t' ∈ (tab.run render needCheck err t).2, t'.Valid tab.id := by
  cases t with
  | readMap node =>
    refine ⟨by rw [run]; split <;> rfl, by rw [run]; split <;> exact h, fun t' ht' => ?_⟩
    rw [run] at ht'
    split at ht'
    · unfold found at ht'
      split_ifs at ht' <;> simp_all [Task.Valid]
    · rw [List.mem_singleton.mp ht']
      exact ht
  | bubble node =>
    exact ⟨rfl, fits_update h ((h _).bubble node.ID), by simp [run]⟩
  | insert node =>
    obtain ⟨hid, hb, hts⟩ := insert_spec render tab needCheck node
    refine ⟨hid, ?_, fun t' ht' => ?_⟩
    · rw [run, hb]
      exact fits_update h ((h _).add ⟨rfl, ht⟩)
    · obtain ⟨c, rfl⟩ := hts t' ht'
      exact ⟨rfl, ht⟩
  | checkRemove node =>
    refine ⟨?_, fun i => ?_, by simp [run]⟩
    · simp only [run, checkRemove]
      split_ifs
      · exact remove_id render tab node.ID
      · rfl
    · simp only [run, checkRemove]
      split_ifs
      · exact fits_remove h node.ID i
      · exact h i
  | checkReplace bkt oldNode newNode =>
    obtain ⟨hid, hb | hb⟩ := checkReplace_spec render tab bkt oldNode newNode err
    · exact ⟨hid, by simpa [run, hb] using h, by simp [run]⟩
    · refine ⟨hid, ?_, by simp [run]⟩
      rw [run, hb]
      exact fits_update h ((h bkt).replace oldNode.ID ⟨ht.1, ht.2⟩)

end table

omit [DecidableEq K] in
theorem Inv.init (tid : NodeID) : Inv tid (⟨newTable tid, []⟩ : State K) where
  id_eq := rfl
  fits _ := ⟨⟨rfl, rfl, Nat.zero_le _⟩, rfl, by simp [newTable, newListBucket]⟩
  tasks := by simp

variable {render : EndPoint → K}

theorem Inv.step {tid : NodeID} {s s' : State K} (hI : Inv tid s) (hs : Step render s s') : Inv tid s' := by
  obtain ⟨hid, hfits, htasks⟩ := hI
  cases hs with
  | add needCheck node =>
    subst hid
    refine ⟨rfl, hfits, fun t ht => ?_⟩
    rcases List.mem_append.mp ht with ht | ht
    · exact htasks t ht
    · exact table.addStart_valid needCheck node t ht
  | remove id =>
    subst hid
    exact ⟨table.remove_id render _ id, table.fits_remove hfits id, htasks⟩
  | bubble id =>
    subst hid
    exact ⟨rfl, fits_update hfits ((hfits _).bubble id), htasks⟩
  | reset =>
    subst hid
    exact ⟨rfl, fun i => (hfits i).reset, htasks⟩
  | run pre post t needCheck err =>
    subst hid
    obtain ⟨hid', hfits', htasks'⟩ := table.run_inv hfits (htasks t (by simp)) needCheck err
    refine ⟨hid', hfits', fun t' ht' => ?_⟩
    rcases List.mem_append.mp ht' with ht' | ht'
    · exact htasks t' (by rcases List.mem_append.mp ht' with h | h <;> simp [h])
    · exact htasks' t' ht'

theorem Reachable.inv {tid : NodeID} {s : State K} (h : Reachable render tid s) : Inv tid s := by
  induction h with
  | refl => exact Inv.init tid
  | tail _ hs ih => exact ih.step hs

/-- In every state the system reaches, whatever calls and callbacks ran in whatever order, every
bucket is `count` elements from the head, the last of them `tail`, at most `cap = bucketSize`,
and every node in bucket `i` belongs there and has neither the table's id nor the zero id. -/
theorem reachable_buckets_wellFormed {tid : NodeID} {s : State K} (h : Reachable render tid s)
    (i : Fin bucketNum) :
    (s.tab.buckets i).count = (s.tab.buckets i).elems.length ∧
      (s.tab.buckets i).tail = (s.tab.buckets i).elems.length ∧
      (s.tab.buckets i).elems.length ≤ (s.tab.buckets i).cap ∧ (s.tab.buckets i).cap = bucketSize ∧
      ∀ n ∈ (s.tab.buckets i).elems, getBucket tid n.ID = i ∧ n.ID ≠ tid ∧ n.ID ≠ ZERO := by
  obtain ⟨⟨hcount, htail, hle⟩, hcap, hplaced⟩ := h.inv.fits i
  exact ⟨hcount, htail, hle, hcap, hplaced⟩

/-- A node on the loopback with the id `lastByteId (k + 1)` and the port `k`. -/
def loopbackNode (k : ℕ) : Node := ⟨lastByteId (k.toUInt8 + 1), ⟨[127, 0, 0, 1], k, HostIPv4⟩, 0, []⟩

/-- Two calls of `add` for nodes of bucket `0` at two endpoints, both reading `nodeMap` before
either inserts, and the second inserting first. -/
theorem reachable_buckets_wellFormed_interleaved :
    ∃ s, Reachable (fun e : EndPoint => e) (lastByteId 255) s ∧ s.pending = [] ∧
      (s.tab.buckets ⟨0, by decide⟩).elems = [loopbackNode 5, lastByteNode 1] ∧
      ((s.tab.buckets ⟨0, by decide⟩).count = (s.tab.buckets ⟨0, by decide⟩).elems.length ∧
        (s.tab.buckets ⟨0, by decide⟩).tail = (s.tab.buckets ⟨0, by decide⟩).elems.length ∧
        (s.tab.buckets ⟨0, by decide⟩).elems.length ≤ (s.tab.buckets ⟨0, by decide⟩).cap ∧
        (s.tab.buckets ⟨0, by decide⟩).cap = bucketSize ∧
        ∀ n ∈ (s.tab.buckets ⟨0, by decide⟩).elems,
          getBucket (lastByteId 255) n.ID = ⟨0, by decide⟩ ∧ n.ID ≠ lastByteId 255 ∧ n.ID ≠ ZERO) := by
  -- both first sections find bucket `0` empty, and both reads find `nodeMap` empty
  have r₂ : Reachable (fun e : EndPoint => e) (lastByteId 255)
      ⟨newTable (lastByteId 255), [.readMap (lastByteNode 1), .readMap (loopbackNode 5)]⟩ :=
    (Relation.ReflTransGen.single
      (@Step.add _ _ _ (newTable (lastByteId 255)) [] (fun _ => false) (lastByteNode 1))).tail
      (@Step.add _ _ _ (newTable (lastByteId 255)) [.readMap (lastByteNode 1)] (fun _ => false) (loopbackNode 5))
  have r₄ : Reachable (fun e : EndPoint => e) (lastByteId 255)
      ⟨newTable (lastByteId 255), [.insert (lastByteNode 1), .insert (loopbackNode 5)]⟩ :=
    (r₂.tail (Step.run [] [.readMap (loopbackNode 5)] (.readMap (lastByteNode 1)) (fun _ => false) false)).tail
      (Step.run [] [.insert (lastByteNode 1)] (.readMap (loopbackNode 5)) (fun _ => false) false)
  have r₆ : Reachable (fun e : EndPoint => e) (lastByteId 255)
      ⟨(((newTable (lastByteId 255) : table EndPoint).insert (fun e : EndPoint => e) (fun _ => false)
        (loopbackNode 5)).1.insert (fun e : EndPoint => e) (fun _ => false) (lastByteNode 1)).1, []⟩ :=
    (r₄.tail (Step.run [.insert (lastByteNode 1)] [] (.insert (loopbackNode 5)) (fun _ => false) false)).tail
      (Step.run [] [] (.insert (lastByteNode 1)) (fun _ => false) false)
  exact ⟨_, r₆, rfl, rfl, reachable_buckets_wellFormed r₆ ⟨0, by decide⟩⟩

/-! ## A call of `add` with nothing in between is a run of the system -/

namespace table

variable (render : EndPoint → K) (tab : table K) (needCheck : Node → Bool) {node : Node}

/-- What `add` does once it has found `old`, under the id or the address. -/
theorem add_of_found (hbad : ¬ (node.ID = tab.id ∨ node.ID = ZERO)) {old : Node}
    (hold : ((tab.buckets (getBucket tab.id node.ID)).resolve node.ID).or (tab.nodeMap (Address render node)) = some old) :
    tab.add render needCheck node =
      if old = node then ((tab.bubble node.ID).1, none, [])
      else (tab, some old, if needCheck old then [.checkRemove old] else []) := by
  simp only [add, if_neg hbad, hold]

/-- With nothing found, `add` does what its last section does. -/
theorem add_of_none (hbad : ¬ (node.ID = tab.id ∨ node.ID = ZERO))
    (hnone : ((tab.buckets (getBucket tab.id node.ID)).resolve node.ID).or (tab.nodeMap (Address render node)) = none) :
    (tab.add render needCheck node).1 = (tab.insert render needCheck node).1 ∧
      (tab.add render needCheck node).2.2 = (tab.insert render needCheck node).2 := by
  simp only [add, insert, if_neg hbad, hnone]
  split <;> exact ⟨rfl, rfl⟩

end table

variable {tid : NodeID} {tab : table K} {ts : List Task}

theorem Reachable.step {s s' : State K} (h : Reachable render tid s) (hs : Step render s s') :
    Reachable render tid s' :=
  Relation.ReflTransGen.tail h hs

theorem Reachable.run_last {t : Task} (h : Reachable render tid ⟨tab, ts ++ [t]⟩) (needCheck : Node → Bool)
    (err : Bool) : Reachable render tid ⟨(tab.run render needCheck err t).1, ts ++ (tab.run render needCheck err t).2⟩ := by
  have h' := h.step (Step.run ts [] t needCheck err)
  rwa [List.append_nil] at h'

/-- Going on from `found`: the bubble runs next, or nothing is left but the callback. -/
theorem Reachable.found {needCheck : Node → Bool} {node old : Node}
    (h : Reachable render tid ⟨tab, ts ++ table.found needCheck node old⟩) :
    Reachable render tid
      ⟨(if old = node then ((tab.bubble node.ID).1, none, [])
          else (tab, some old, if needCheck old then [Task.checkRemove old] else [])).1,
        ts ++ (if old = node then ((tab.bubble node.ID).1, none, [])
          else (tab, some old, if needCheck old then [Task.checkRemove old] else [])).2.2⟩ := by
  by_cases heq : old = node
  · rw [table.found, if_pos heq] at h
    simpa [heq, table.run] using h.run_last needCheck false
  · rw [table.found, if_neg heq] at h
    simpa [heq] using h

/-- A call of `add` that no other call or callback interrupts is a run of the system: its
sections, run in turn, leave the table and the callbacks `table.add` gives. -/
theorem Reachable.add (h : Reachable render tid ⟨tab, ts⟩) (needCheck : Node → Bool) (node : Node) :
    Reachable render tid ⟨(tab.add render needCheck node).1, ts ++ (tab.add render needCheck node).2.2⟩ := by
  have hstart := h.step (Step.add needCheck node)
  by_cases hbad : node.ID = tab.id ∨ node.ID = ZERO
  · simpa [table.add, table.addStart, hbad] using hstart
  rcases hres : (tab.buckets (getBucket tab.id node.ID)).resolve node.ID with _ | old
  · -- `resolve` found nothing: `nodeMap` is read in the next section
    have hread : Reachable render tid ⟨tab, ts ++ [.readMap node]⟩ := by
      simpa [table.addStart, hbad, hres] using hstart
    have hmapped := hread.run_last needCheck false
    rcases hmap : tab.nodeMap (Address render node) with _ | old
    · have hins : Reachable render tid ⟨tab, ts ++ [.insert node]⟩ := by
        simpa [table.run, hmap] using hmapped
      obtain ⟨h1, h2⟩ := table.add_of_none render tab needCheck hbad (by simp [hres, hmap])
      rw [h1, h2]
      exact hins.run_last needCheck false
    · rw [@table.add_of_found _ _ render tab needCheck node hbad old (by simp [hres, hmap])]
      exact Reachable.found (by simpa [table.run, hmap] using hmapped)
  · rw [@table.add_of_found _ _ render tab needCheck node hbad old (by simp [hres])]
    exact Reachable.found (by simpa [table.addStart, hbad, hres] using hstart)

/-! ## What the table does not keep -/

namespace listBucket

variable {b : listBucket} {id : NodeID} {o x : Node} {rest : List Node}

theorem resolve_eq_none : b.resolve id = none ↔ ∀ c ∈ b.elems, c.ID ≠ id := by
  rw [resolve, Option.map_eq_none_iff, find_eq_none]

/-- `add` never drops a node of a well-formed bucket. -/
theorem mem_add_of_mem (hb : b.WF) {n m : Node} (hm : m ∈ b.elems) : m ∈ (b.add n).1.elems := by
  rcases hf : b.find n.ID with _ | ⟨j, c⟩
  · by_cases hroom : b.elems.length < b.cap
    · rw [add_of_room hb hf hroom]
      exact List.mem_append_left _ hm
    · rwa [add_of_full hb hf (Nat.le_of_not_lt hroom)]
  · rwa [add_of_find n hf]

/-- Removing the second node of a bucket whose first has another id. -/
theorem remove_second (hb : b.elems = o :: x :: rest) (hox : x.ID ≠ o.ID) :
    (b.remove x.ID).1.elems = o :: rest ∧ (b.remove x.ID).2 = some x := by
  have hf : b.find x.ID = some (1, x) := find_eq_some.mpr ⟨[o], rest, hb, rfl, rfl, by simpa using hox.symm⟩
  rw [remove_of_find hf, hb]
  exact ⟨rfl, rfl⟩

/-- Replacing the first node of a bucket. -/
theorem replace_first (hb : b.elems = o :: rest) (n : Node) :
    (b.replace o.ID n).1.elems = n :: rest ∧ (b.replace o.ID n).2 = true := by
  have hf : b.find o.ID = some (0, o) := find_eq_some.mpr ⟨[], rest, hb, rfl, rfl, by simp⟩
  rw [replace_of_find n hf, hb]
  exact ⟨rfl, rfl⟩

end listBucket

namespace table

variable (render : EndPoint → K) (tab : table K) (needCheck : Node → Bool) {node : Node}

/-- Every node of the table. -/
def nodes : List Node := (List.finRange bucketNum).flatMap fun i => (tab.buckets i).elems

/-- `nodeMap` maps the address of each node in a bucket to it, and each of its entries is a node
at that address in its own bucket. -/
structure MapExact : Prop where
  reach : ∀ i, ∀ n ∈ (tab.buckets i).elems, tab.nodeMap (Address render n) = some n
  entry : ∀ k n, tab.nodeMap k = some n → Address render n = k ∧ n ∈ (tab.buckets (getBucket tab.id n.ID)).elems

/-- The ids of the nodes of the table are distinct. -/
def IdsDistinct : Prop := (tab.nodes.map (·.ID)).Nodup

omit [DecidableEq K] in
theorem addStart_of_new (hgood : Addable tab.id node)
    (hnew : ∀ m ∈ (tab.buckets (getBucket tab.id node.ID)).elems, m.ID ≠ node.ID) :
    tab.addStart needCheck node = [.readMap node] := by
  have hres := listBucket.resolve_eq_none.mpr hnew
  simp [addStart, hgood.1, hgood.2, hres]

theorem run_readMap_of_none (err : Bool) (h : tab.nodeMap (Address render node) = none) :
    tab.run render needCheck err (.readMap node) = (tab, [.insert node]) := by
  simp [run, h]

/-- The last section of `add` links the node after the last one of a bucket with room and no node
of its id, and maps its address to it. -/
theorem insert_of_room (hwf : (tab.buckets (getBucket tab.id node.ID)).WF)
    (hnew : ∀ m ∈ (tab.buckets (getBucket tab.id node.ID)).elems, m.ID ≠ node.ID)
    (hroom : (tab.buckets (getBucket tab.id node.ID)).elems.length < (tab.buckets (getBucket tab.id node.ID)).cap) :
    tab.insert render needCheck node =
      ((tab.setBucket (getBucket tab.id node.ID) ((tab.buckets (getBucket tab.id node.ID)).add node).1).setNode
        (Address render node) (some node), []) := by
  have hadd := listBucket.add_of_room hwf (listBucket.find_eq_none.mpr hnew) hroom
  simp only [insert, hadd]

omit [DecidableEq K] in
theorem setBucket_self (i : Fin bucketNum) : tab.setBucket i (tab.buckets i) = tab := by
  simp [setBucket]

/-- The last section of `add` on a full bucket with no node of the id: nothing changes, and the
callback that may replace the oldest node is left to run. -/
theorem insert_of_full (hwf : (tab.buckets (getBucket tab.id node.ID)).WF)
    (hnew : ∀ m ∈ (tab.buckets (getBucket tab.id node.ID)).elems, m.ID ≠ node.ID)
    (hfull : (tab.buckets (getBucket tab.id node.ID)).cap ≤ (tab.buckets (getBucket tab.id node.ID)).elems.length)
    {c : Node} (hold : (tab.buckets (getBucket tab.id node.ID)).oldest = some c) :
    tab.insert render needCheck node =
      (tab, if needCheck c then [.checkReplace (getBucket tab.id node.ID) c node] else []) := by
  have hadd := listBucket.add_of_full hwf (listBucket.find_eq_none.mpr hnew) hfull
  simp only [insert, hadd, hold, setBucket_self]

theorem remove_of_found (id : NodeID) {c : Node} (hc : ((tab.buckets (getBucket tab.id id)).remove id).2 = some c) :
    (tab.remove render id).1 =
      (tab.setBucket (getBucket tab.id id) ((tab.buckets (getBucket tab.id id)).remove id).1).setNode (Address render c) none := by
  unfold remove removeLocked
  dsimp only
  split
  · rename_i bkt node h
    rw [h] at hc ⊢
    cases hc
    rfl
  · rename_i bkt h
    rw [h] at hc
    cases hc

theorem checkReplace_of_found (bkt : Fin bucketNum) (oldNode newNode : Node)
    (hr : ((tab.buckets bkt).replace oldNode.ID newNode).2 = true) :
    tab.checkReplace render bkt oldNode newNode true =
      ((tab.setBucket bkt ((tab.buckets bkt).replace oldNode.ID newNode).1).setNode (Address render oldNode) none).setNode
        (Address render newNode) (some newNode) := by
  unfold checkReplace
  rw [if_pos rfl]
  split
  · rename_i b h
    rw [h]
  · rename_i b h
    rw [h] at hr
    cases hr

/-- The last section of `add` keeps every node where it was. -/
theorem mem_insert_of_mem (hwf : ∀ i, (tab.buckets i).WF) {j : Fin bucketNum} {m : Node}
    (hm : m ∈ (tab.buckets j).elems) : m ∈ ((tab.insert render needCheck node).1.buckets j).elems := by
  rw [(insert_spec render tab needCheck node).2.1]
  by_cases hj : j = getBucket tab.id node.ID
  · subst hj
    simpa using listBucket.mem_add_of_mem (hwf _) hm
  · simpa [Function.update_of_ne hj] using hm

end table

theorem Reachable.run_at {tab' : table K} {new ts' : List Task} (h : Reachable render tid ⟨tab, ts⟩)
    (pre : List Task) (t : Task) (post : List Task) (hts : ts = pre ++ t :: post) (needCheck : Node → Bool) (err : Bool)
    (hrun : tab.run render needCheck err t = (tab', new)) (he : pre ++ post ++ new = ts') :
    Reachable render tid ⟨tab', ts'⟩ := by
  subst hts he
  have h' := h.step (Step.run pre post t needCheck err)
  rwa [hrun] at h'

/-- Two calls of `add` for nodes of one endpoint and of two ids that are in no bucket and whose
address is not in `nodeMap`, both reading `nodeMap` before either inserts: both nodes go into
their buckets, and `nodeMap` keeps the second at the address of the first. -/
theorem add_race_breaks_nodeMap {tab : table K} {ts : List Task} (hs : Reachable render tid ⟨tab, ts⟩) {n₁ n₂ : Node}
    (hep : n₁.EndPoint = n₂.EndPoint) (hid : n₁.ID ≠ n₂.ID) (h₁ : Addable tid n₁) (h₂ : Addable tid n₂)
    (hnew₁ : ∀ m ∈ (tab.buckets (getBucket tid n₁.ID)).elems, m.ID ≠ n₁.ID)
    (hnew₂ : ∀ m ∈ (tab.buckets (getBucket tid n₂.ID)).elems, m.ID ≠ n₂.ID)
    (hmap : tab.nodeMap (Address render n₁) = none)
    (hroom₁ : (tab.buckets (getBucket tid n₁.ID)).elems.length + 2 ≤ bucketSize)
    (hroom₂ : (tab.buckets (getBucket tid n₂.ID)).elems.length + 2 ≤ bucketSize) :
    ∃ s', Reachable render tid s' ∧ n₁ ∈ (s'.tab.buckets (getBucket tid n₁.ID)).elems ∧
      s'.tab.nodeMap (Address render n₁) = some n₂ ∧ ¬ s'.tab.MapExact render := by
  obtain ⟨hid₀, hfits, -⟩ := hs.inv
  dsimp only at hid₀
  subst hid₀
  have hA : Address render n₂ = Address render n₁ := by simp [Address, hep]
  let nc : Node → Bool := fun _ => false
  -- both calls find nothing in their buckets
  have r1 := hs.step (Step.add nc n₁)
  rw [table.addStart_of_new tab nc h₁ hnew₁] at r1
  have r2 := r1.step (Step.add nc n₂)
  rw [table.addStart_of_new tab nc h₂ hnew₂] at r2
  -- and then nothing in `nodeMap`
  have r3 := r2.run_at ts (.readMap n₁) [.readMap n₂] (by simp) nc false
    (table.run_readMap_of_none render tab nc false hmap) rfl
  have r4 := r3.run_at ts (.readMap n₂) [.insert n₁] (by simp) nc false
    (table.run_readMap_of_none render tab nc false (hA ▸ hmap)) rfl
  -- the first insert
  have hroom₁' : (tab.buckets (getBucket tab.id n₁.ID)).elems.length < (tab.buckets (getBucket tab.id n₁.ID)).cap := by
    rw [(hfits _).cap]
    omega
  have r5 := r4.run_at ts (.insert n₁) [.insert n₂] (by simp) nc false
    (table.insert_of_room render tab nc (hfits _).wf hnew₁ hroom₁') rfl
  set tab₁ := ((tab.setBucket (getBucket tab.id n₁.ID) ((tab.buckets (getBucket tab.id n₁.ID)).add n₁).1).setNode
    (Address render n₁) (some n₁)) with htab₁
  have hid₁ : tab₁.id = tab.id := rfl
  have hfits₁ : ∀ i, Fits tab.id i (tab₁.buckets i) := r5.inv.fits
  have hb₁ : (tab₁.buckets (getBucket tab.id n₁.ID)).elems = (tab.buckets (getBucket tab.id n₁.ID)).elems ++ [n₁] := by
    simp [htab₁, listBucket.add_of_room (hfits _).wf (listBucket.find_eq_none.mpr hnew₁) hroom₁']
  have hother : ∀ i ≠ getBucket tab.id n₁.ID, tab₁.buckets i = tab.buckets i := fun i hi => by
    simp [htab₁, Function.update_of_ne hi]
  -- the bucket of the second node, with the first in it if they share one
  have hnew₂' : ∀ m ∈ (tab₁.buckets (getBucket tab₁.id n₂.ID)).elems, m.ID ≠ n₂.ID := by
    intro m hm
    rw [hid₁] at hm
    by_cases hi : getBucket tab.id n₂.ID = getBucket tab.id n₁.ID
    · rw [hi, hb₁] at hm
      rcases List.mem_append.mp hm with hm | hm
      · exact hnew₂ m (hi ▸ hm)
      · rw [List.mem_singleton.mp hm]
        exact hid
    · exact hnew₂ m (hother _ hi ▸ hm)
  have hroom₂' : (tab₁.buckets (getBucket tab₁.id n₂.ID)).elems.length <
      (tab₁.buckets (getBucket tab₁.id n₂.ID)).cap := by
    rw [(hfits₁ _).cap, hid₁]
    by_cases hi : getBucket tab.id n₂.ID = getBucket tab.id n₁.ID
    · rw [hi, hb₁, List.length_append, List.length_singleton]
      rw [hi] at hroom₂
      omega
    · rw [hother _ hi]
      omega
  have r6 := r5.run_at ts (.insert n₂) [] (by simp) nc false
    (table.insert_of_room render tab₁ nc (hfits₁ _).wf hnew₂' hroom₂') rfl
  have hmem : n₁ ∈ ((tab₁.insert render nc n₂).1.buckets (getBucket tab.id n₁.ID)).elems :=
    table.mem_insert_of_mem render tab₁ nc (fun i => (hfits₁ i).wf) (by simp [hb₁])
  rw [table.insert_of_room render tab₁ nc (hfits₁ _).wf hnew₂' hroom₂'] at hmem
  refine ⟨_, r6, hmem, by simp [hA], fun hexact => ?_⟩
  have hreach := hexact.reach _ n₁ hmem
  simp only [table.setNode_nodeMap, hA, Function.update_self, Option.some.injEq] at hreach
  exact hid (congrArg Node.ID hreach).symm

theorem add_race_breaks_nodeMap_loopback :
    ∃ s', Reachable (fun e : EndPoint => e) (lastByteId 255) s' ∧
      lastByteNode 1 ∈ (s'.tab.buckets (getBucket (lastByteId 255) (lastByteNode 1).ID)).elems ∧
      s'.tab.nodeMap (Address (fun e : EndPoint => e) (lastByteNode 1)) = some (lastByteNode 2) ∧
      ¬ s'.tab.MapExact (fun e : EndPoint => e) :=
  add_race_breaks_nodeMap (Relation.ReflTransGen.refl : Reachable (fun e : EndPoint => e) (lastByteId 255) ⟨newTable (lastByteId 255), []⟩) rfl (by decide)
    ⟨by decide, by decide⟩ ⟨by decide, by decide⟩ (by simp [newTable, newListBucket])
    (by simp [newTable, newListBucket]) rfl (by simp [newTable, newListBucket, bucketSize])
    (by simp [newTable, newListBucket, bucketSize])

/-- Calls of `add`, each run without interruption, for nodes of one bucket with new and distinct
ids and addresses while it has room: the bucket takes them in turn at its tail, and `nodeMap` maps
their addresses to them. -/
theorem Reachable.addAll {ts : List Task} (i : Fin bucketNum) (ns : List Node) :
    ∀ {tab : table K}, Reachable render tid ⟨tab, ts⟩ →
      (∀ n ∈ ns, getBucket tid n.ID = i ∧ Addable tid n) → (ns.map (·.ID)).Nodup →
      (∀ n ∈ ns, ∀ m ∈ (tab.buckets i).elems, m.ID ≠ n.ID) → (ns.map (Address render)).Nodup →
      (∀ n ∈ ns, tab.nodeMap (Address render n) = none) →
      (tab.buckets i).elems.length + ns.length ≤ bucketSize →
      Reachable render tid ⟨ns.foldl (fun t n => (t.add render (fun _ => false) n).1) tab, ts⟩ ∧
        ((ns.foldl (fun t n => (t.add render (fun _ => false) n).1) tab).buckets i).elems = (tab.buckets i).elems ++ ns ∧
        ∀ k, k ∉ ns.map (Address render) → (ns.foldl (fun t n => (t.add render (fun _ => false) n).1) tab).nodeMap k = tab.nodeMap k := by
  induction ns with
  | nil =>
    intro tab h _ _ _ _ _ _
    exact ⟨h, by simp, fun _ _ => rfl⟩
  | cons n ns ih =>
    intro tab h hok hids hnew haddr hmap hroom
    obtain ⟨hid₀, hfits, -⟩ := h.inv
    dsimp only at hid₀
    subst hid₀
    obtain ⟨hni, hn⟩ := hok n List.mem_cons_self
    have hnew₀ : ∀ m ∈ (tab.buckets (getBucket tab.id n.ID)).elems, m.ID ≠ n.ID := hni ▸ hnew n List.mem_cons_self
    have hroom₀ : (tab.buckets (getBucket tab.id n.ID)).elems.length < (tab.buckets (getBucket tab.id n.ID)).cap := by
      rw [(hfits _).cap, hni]
      simp only [List.length_cons] at hroom
      omega
    obtain ⟨hadd₁, hadd₂⟩ := table.add_of_none render tab (fun _ => false) (not_or.mpr hn)
      (by simp [listBucket.resolve_eq_none.mpr hnew₀, hmap n List.mem_cons_self])
    have hins := table.insert_of_room render tab (fun _ => false) (hfits _).wf hnew₀ hroom₀
    have h₁ := h.add (fun _ => false) n
    rw [hadd₂, hins, List.append_nil] at h₁
    have hb₁ : ((tab.add render (fun _ => false) n).1.buckets i).elems = (tab.buckets i).elems ++ [n] := by
      rw [hadd₁, hins]
      simp [← hni, listBucket.add_of_room (hfits _).wf (listBucket.find_eq_none.mpr hnew₀) hroom₀]
    have hmap₁ : ∀ k, k ≠ Address render n → (tab.add render (fun _ => false) n).1.nodeMap k = tab.nodeMap k := by
      intro k hk
      rw [hadd₁, hins]
      simp [Function.update_of_ne hk]
    simp only [List.map_cons, List.nodup_cons] at hids haddr
    obtain ⟨h', hb', hmap'⟩ := ih h₁ (fun n' hn' => hok n' (List.mem_cons_of_mem _ hn')) hids.2
      (fun n' hn' m hm => by
        rw [hb₁] at hm
        rcases List.mem_append.mp hm with hm | hm
        · exact hnew n' (List.mem_cons_of_mem _ hn') m hm
        · rw [List.mem_singleton.mp hm]
          exact fun he => hids.1 (he ▸ List.mem_map_of_mem hn'))
      haddr.2
      (fun n' hn' => by
        rw [hmap₁ _ (fun he => haddr.1 (he ▸ List.mem_map_of_mem hn'))]
        exact hmap n' (List.mem_cons_of_mem _ hn'))
      (by rw [hb₁, List.length_append, List.length_singleton]; simp only [List.length_cons] at hroom; omega)
    refine ⟨h', by rw [List.foldl_cons, hb', hb₁]; simp, fun k hk => ?_⟩
    simp only [List.map_cons, List.mem_cons, not_or] at hk
    rw [List.foldl_cons, hmap' k hk.2, hmap₁ k hk.1]

/-! ### A full bucket -/

theorem lastByteId_getElem! (a : UInt8) {n : ℕ} (hn : n < 31) : (lastByteId a)[n]! = 0 := by
  rw [getElem!_pos (lastByteId a) n (by simp only [idBytes]; omega)]
  simp [lastByteId, Vector.getElem_push_lt hn]

theorem firstDiff_lastByteId (a b : UInt8) : 31 ≤ firstDiff (lastByteId a) (lastByteId b) := by
  have hnone : (List.range 31).find? (fun n => (lastByteId a)[n]! != (lastByteId b)[n]!) = none := by
    rw [List.find?_eq_none]
    intro n hn
    rw [List.mem_range] at hn
    simp [lastByteId_getElem! a hn, lastByteId_getElem! b hn]
  have hrange : List.range idBytes = List.range 31 ++ [31] := List.range_succ
  unfold firstDiff
  rw [hrange, List.find?_append, hnone, Option.none_or]
  simp only [List.find?_singleton]
  split_ifs <;> simp [idBytes]

/-- Ids that differ in their last byte only are at most 8 bits apart: they share bucket `0`. -/
theorem getBucket_lastByteId (a b : UInt8) : getBucket (lastByteId a) (lastByteId b) = ⟨0, by decide⟩ := by
  have h := firstDiff_lastByteId a b
  have hd : Distance (lastByteId a) (lastByteId b) ≤ 8 := by
    unfold Distance commonBits
    dsimp only
    split_ifs with hlt
    · simp only [IDBits, idBytes] at *
      omega
    · simp
  rw [getBucket, if_pos (by simp only [minDistance, IDBits, idBytes, bucketNum]; omega)]

theorem lastByteId_injective : Function.Injective lastByteId := by
  intro a b h
  have := congrArg (fun v : NodeID => v[31]) h
  simpa [lastByteId] using this

theorem nodup_loopbackIds (n : ℕ) (hn : n ≤ 255) : (((List.range n).map loopbackNode).map (·.ID)).Nodup := by
  rw [List.map_map]
  refine List.Nodup.map_on (fun a ha b hb h => ?_) List.nodup_range
  rw [List.mem_range] at ha hb
  have hab := add_right_cancel (lastByteId_injective h)
  have := congrArg UInt8.toNat hab
  simp only [Nat.toUInt8, UInt8.toNat_ofNat'] at this
  omega

/-- A full bucket whose first two nodes have different ids, and a node of that bucket with a new
id and address. `add` leaves a callback to replace the oldest node, a `remove` of the second node
makes room, `add` is called again and puts the node at the tail, and the callback, its ping
failed, replaces the oldest node with it: the node is in the bucket twice. -/
theorem checkReplace_duplicates_id {tab : table K} {ts : List Task} (hs : Reachable render tid ⟨tab, ts⟩) {o x n : Node}
    {rest : List Node} (hb : (tab.buckets (getBucket tid n.ID)).elems = o :: x :: rest)
    (hfull : rest.length + 2 = bucketSize) (hox : x.ID ≠ o.ID) (hn : Addable tid n)
    (hnew : ∀ m ∈ (tab.buckets (getBucket tid n.ID)).elems, m.ID ≠ n.ID)
    (hmap : tab.nodeMap (Address render n) = none) :
    ∃ s', Reachable render tid s' ∧ (s'.tab.buckets (getBucket tid n.ID)).elems = n :: (rest ++ [n]) ∧
      ¬ s'.tab.IdsDistinct := by
  obtain ⟨hid₀, hfits, -⟩ := hs.inv
  dsimp only at hid₀
  subst hid₀
  set i := getBucket tab.id n.ID with hi
  let nc : Node → Bool := fun _ => true
  -- the first call finds the bucket full and leaves the callback for the oldest node
  have r1 := hs.step (Step.add nc n)
  rw [table.addStart_of_new tab nc hn hnew] at r1
  have r2 := r1.run_at ts (.readMap n) [] (by simp) nc false (table.run_readMap_of_none render tab nc false hmap) rfl
  have hfull' : (tab.buckets i).cap ≤ (tab.buckets i).elems.length := by
    rw [(hfits i).cap, hb, List.length_cons, List.length_cons, ← hfull]
  have r3 := r2.run_at ts (.insert n) [] (by simp) nc false
    (table.insert_of_full render tab nc (hfits i).wf hnew hfull' (c := o) (by rw [listBucket.oldest, ← hi, hb]; rfl)) rfl
  -- `remove` of the second node makes room
  have hxi : getBucket tab.id x.ID = i := ((hfits i).placed x (by simp [hb])).1
  obtain ⟨hrm, hrx⟩ := listBucket.remove_second hb hox
  have r4 := r3.step (Step.remove x.ID)
  rw [table.remove_of_found render tab x.ID (hxi ▸ hrx)] at r4
  set tab₁ := (tab.setBucket (getBucket tab.id x.ID) ((tab.buckets (getBucket tab.id x.ID)).remove x.ID).1).setNode
    (Address render x) none with htab₁
  have hb₁ : (tab₁.buckets i).elems = o :: rest := by simp [htab₁, hxi, hrm]
  -- the second call puts the node at the tail
  have hnew₁ : ∀ m ∈ (tab₁.buckets (getBucket tab₁.id n.ID)).elems, m.ID ≠ n.ID := by
    intro m hm
    rw [show getBucket tab₁.id n.ID = i from rfl, hb₁] at hm
    exact hnew m (by rw [hb]; rcases List.mem_cons.mp hm with rfl | hm <;> simp [*])
  have hmap₁ : tab₁.nodeMap (Address render n) = none := by
    by_cases hax : Address render n = Address render x
    · simp [htab₁, hax]
    · simp [htab₁, Function.update_of_ne hax, hmap]
  have hfits₁ : ∀ j, Fits tab.id j (tab₁.buckets j) := r4.inv.fits
  have hroom₁ : (tab₁.buckets (getBucket tab₁.id n.ID)).elems.length < (tab₁.buckets (getBucket tab₁.id n.ID)).cap := by
    rw [(hfits₁ _).cap, show getBucket tab₁.id n.ID = i from rfl, hb₁, List.length_cons]
    omega
  have hbad : ¬ (n.ID = tab₁.id ∨ n.ID = ZERO) := not_or.mpr hn
  obtain ⟨hadd₁, hadd₂⟩ := table.add_of_none render tab₁ nc hbad
    (by simp [listBucket.resolve_eq_none.mpr hnew₁, hmap₁])
  have r5 := r4.add nc n
  rw [hadd₁, hadd₂, table.insert_of_room render tab₁ nc (hfits₁ _).wf hnew₁ hroom₁] at r5
  dsimp only at r5
  set tab₂ := (tab₁.setBucket (getBucket tab₁.id n.ID) ((tab₁.buckets (getBucket tab₁.id n.ID)).add n).1).setNode
    (Address render n) (some n) with htab₂
  have hb₂ : (tab₂.buckets i).elems = o :: (rest ++ [n]) := by
    simp [htab₂, show getBucket tab₁.id n.ID = i from rfl,
      listBucket.add_of_room (hfits₁ i).wf (listBucket.find_eq_none.mpr hnew₁) hroom₁, hb₁]
  -- the callback replaces the oldest node with the node
  obtain ⟨hrep, hrep₂⟩ := listBucket.replace_first hb₂ n
  have r6 := r5.run_at ts (.checkReplace i o n) [] (by simp [nc, hi]) nc true
    (congrArg (fun t => (t, ([] : List Task))) (table.checkReplace_of_found render tab₂ i o n hrep₂)) rfl
  have hb₃ : (((tab₂.setBucket i ((tab₂.buckets i).replace o.ID n).1).setNode (Address render o) none).setNode
      (Address render n) (some n)).buckets i = ((tab₂.buckets i).replace o.ID n).1 := by simp
  refine ⟨_, r6, by rw [hb₃, hrep], fun hdist => ?_⟩
  -- the bucket's ids are among the table's, and `n.ID` is twice among them
  unfold table.IdsDistinct table.nodes at hdist
  rw [List.map_flatMap] at hdist
  have hbucket := (List.nodup_flatMap.mp hdist).1 i (List.mem_finRange i)
  rw [hb₃, hrep] at hbucket
  simp at hbucket

theorem checkReplace_duplicates_id_loopback :
    ∃ s', Reachable (fun e : EndPoint => e) (lastByteId 255) s' ∧
      (s'.tab.buckets (getBucket (lastByteId 255) (loopbackNode 64).ID)).elems =
        loopbackNode 64 :: (((List.range 64).map loopbackNode).drop 2 ++ [loopbackNode 64]) ∧
      ¬ s'.tab.IdsDistinct := by
  have hbkt : ∀ k, getBucket (lastByteId 255) (loopbackNode k).ID = ⟨0, by decide⟩ := fun k =>
    getBucket_lastByteId 255 _
  have haddable : ∀ n ∈ (List.range 64).map loopbackNode, Addable (lastByteId 255) n := by decide
  -- `add` of the 64 nodes fills bucket `0`
  obtain ⟨hreach, hbucket, hmap⟩ := Reachable.addAll ⟨0, by decide⟩ ((List.range 64).map loopbackNode)
    (Relation.ReflTransGen.refl : Reachable (fun e : EndPoint => e) (lastByteId 255) ⟨newTable (lastByteId 255), []⟩)
    (fun n hn => ⟨by obtain ⟨k, -, rfl⟩ := List.mem_map.mp hn; exact hbkt k, haddable n hn⟩)
    (nodup_loopbackIds 64 (by decide)) (by simp [newTable, newListBucket]) (by decide) (fun _ _ => rfl)
    (by simp [newTable, newListBucket, bucketSize])
  have hsplit : (List.range 64).map loopbackNode =
      loopbackNode 0 :: loopbackNode 1 :: ((List.range 64).map loopbackNode).drop 2 := by
    rw [← List.map_drop]
    rfl
  generalize ((List.range 64).map loopbackNode).foldl (fun t n => (t.add (fun e : EndPoint => e) (fun _ => false) n).1)
    (newTable (lastByteId 255)) = full at hreach hbucket hmap
  have hb : (full.buckets (getBucket (lastByteId 255) (loopbackNode 64).ID)).elems =
      loopbackNode 0 :: loopbackNode 1 :: ((List.range 64).map loopbackNode).drop 2 := by
    rw [hbkt, hbucket, ← hsplit]
    rfl
  exact checkReplace_duplicates_id hreach hb (by simp [bucketSize]) (by decide) (by decide)
    (by rw [hb, ← hsplit]; decide) (by rw [hmap _ (by decide)]; rfl)

end Vite.Discovery
