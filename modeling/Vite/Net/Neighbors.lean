import Mathlib.Data.List.Perm.Subperm
import Vite.Net.Node
import Vite.Lib.GoSort

/-!
# The neighbour lookup (net/discovery/table.go)

A `findnode` packet asks for the nodes of the routing table nearest a target. `findNeighbors`
pushes every node of every bucket, but the target itself, into a `closet`, a slice made with the
requested count as its capacity that `push` keeps sorted by distance to the target: the node goes
where `sort.Search` finds the first farther one, shifting the rest while the slice has room.

Over any table the result is sorted by distance, as long as the count or the number of nodes
allows, and uses each node at most once (`findNeighbors_spec`). Once the slice is full, though,
`push` puts the node in the place of the first farther one instead of dropping the farthest: a
node nearer than all of a full slice evicts the nearest, while farther ones stay
(`push_full_drops_closer`). And the slice is made with the packet's count as its capacity,
whatever the table holds.
-/

namespace Vite.Discovery

open Vite.Vnode GoSort

/-- `closet`: the nodes found so far in a slice made with capacity `cap`, around the `pivot`. -/
structure closet where
  nodes : List Node
  cap : ℕ
  pivot : NodeID

namespace closet

/-- A node's distance from the pivot. -/
def dist (c : closet) (n : Node) : ℕ := Distance c.pivot n.ID

def push (c : closet) (n : Node) : closet :=
  let length := c.nodes.length
  let dist := Distance c.pivot n.ID
  let further := search length fun i => c.nodes[i]?.any fun m => Distance c.pivot m.ID > dist
  if length ≥ c.cap then
    -- the closest nodes list is full: replace the further one
    if further < length then { c with nodes := c.nodes.set further n } else c
  -- the append, the copy and the store insert `n` at `further`
  else { c with nodes := c.nodes.take further ++ n :: c.nodes.drop further }

@[simp] theorem push_cap (c : closet) (n : Node) : (c.push n).cap = c.cap := by
  unfold push; dsimp only; split_ifs <;> rfl

@[simp] theorem push_pivot (c : closet) (n : Node) : (c.push n).pivot = c.pivot := by
  unfold push; dsimp only; split_ifs <;> rfl

/-- The nodes are sorted by distance from the pivot. -/
def Sorted (c : closet) : Prop := c.nodes.Pairwise fun a b => c.dist a ≤ c.dist b

/-- Pushing each node in turn. -/
def pushAll (c : closet) (ns : List Node) : closet := ns.foldl push c

end closet

/-- `table.findNeighbors` over the buckets' nodes, each bucket from its head. The result is the
slice `nodes` with its capacity. -/
def findNeighbors (buckets : List (List Node)) (target : NodeID) (count : ℕ) : closet :=
  buckets.foldl (fun ns bkt => bkt.foldl (fun ns node => if node.ID = target then ns else ns.push node) ns)
    ⟨[], count, target⟩

namespace closet

variable {c : closet} {n : Node}

/-! ### Where `sort.Search` puts a node -/

/-- The index `push` finds for `n`. -/
def further (c : closet) (n : Node) : ℕ :=
  search c.nodes.length fun i => c.nodes[i]?.any fun m => Distance c.pivot m.ID > Distance c.pivot n.ID

/-- On a sorted slice the nodes before `further` are no farther than `n` and those from it on are
farther. -/
theorem further_spec (hs : c.Sorted) (n : Node) :
    c.further n ≤ c.nodes.length ∧ (∀ x ∈ c.nodes.take (c.further n), c.dist x ≤ c.dist n) ∧
      ∀ x ∈ c.nodes.drop (c.further n), c.dist n < c.dist x := by
  have hmono : ∀ a b, a ≤ b → b < c.nodes.length →
      (c.nodes[a]?.any fun m => Distance c.pivot m.ID > Distance c.pivot n.ID) = true →
      (c.nodes[b]?.any fun m => Distance c.pivot m.ID > Distance c.pivot n.ID) = true := by
    intro a b hab hb ha
    have hab' : c.dist c.nodes[a] ≤ c.dist c.nodes[b] := by
      rcases Nat.lt_or_eq_of_le hab with hlt | rfl
      · exact List.pairwise_iff_getElem.mp hs a b (by omega) hb hlt
      · exact le_rfl
    simp only [List.getElem?_eq_getElem (show a < c.nodes.length by omega), List.getElem?_eq_getElem hb,
      Option.any_some, decide_eq_true_eq] at ha ⊢
    exact lt_of_lt_of_le ha hab'
  obtain ⟨hle, hbelow, hat⟩ : c.further n ≤ c.nodes.length ∧
      (∀ k < c.further n, (c.nodes[k]?.any fun m => Distance c.pivot m.ID > Distance c.pivot n.ID) = false) ∧
      (c.further n < c.nodes.length →
        (c.nodes[c.further n]?.any fun m => Distance c.pivot m.ID > Distance c.pivot n.ID) = true) :=
    search_spec hmono
  refine ⟨hle, fun x hx => ?_, fun x hx => ?_⟩
  · obtain ⟨k, hk, rfl⟩ := List.getElem_of_mem hx
    rw [List.length_take] at hk
    have h := hbelow k (by omega)
    rw [List.getElem?_eq_getElem (show k < c.nodes.length by omega)] at h
    simp only [Option.any_some, decide_eq_false_iff_not, not_lt] at h
    rw [List.getElem_take]
    exact h
  · obtain ⟨k, hk, rfl⟩ := List.getElem_of_mem hx
    rw [List.length_drop] at hk
    have h := hat (by omega)
    rw [List.getElem?_eq_getElem (show c.further n < c.nodes.length by omega)] at h
    simp only [Option.any_some, decide_eq_true_eq] at h
    rw [List.getElem_drop]
    refine lt_of_lt_of_le h ?_
    rcases Nat.eq_zero_or_pos k with rfl | hpos
    · exact le_rfl
    · exact List.pairwise_iff_getElem.mp hs _ _ (by omega) (by omega) (by omega)

/-- Putting a node between the nodes no farther and those farther keeps a slice sorted. -/
theorem sorted_between {pre post : List Node} (hs : (pre ++ post).Pairwise fun a b => c.dist a ≤ c.dist b)
    (hpre : ∀ x ∈ pre, c.dist x ≤ c.dist n) (hpost : ∀ x ∈ post, c.dist n ≤ c.dist x) :
    (pre ++ n :: post).Pairwise fun a b => c.dist a ≤ c.dist b := by
  rw [List.pairwise_append] at hs ⊢
  refine ⟨hs.1, List.pairwise_cons.mpr ⟨hpost, hs.2.1⟩, fun a ha b hb => ?_⟩
  rcases List.mem_cons.mp hb with rfl | hb
  · exact hpre a ha
  · exact hs.2.2 a ha b hb

/-- `push` on a full slice with a farther node: `n` takes the place of the first farther one. -/
theorem push_of_full (hfull : c.cap ≤ c.nodes.length) (hlt : c.further n < c.nodes.length) :
    (c.push n).nodes = c.nodes.take (c.further n) ++ n :: c.nodes.drop (c.further n + 1) := by
  unfold push
  unfold further at hlt ⊢
  dsimp only
  rw [if_pos hfull, if_pos hlt]
  exact (List.set_eq_take_append_cons_drop).trans (if_pos hlt)

theorem push_of_full_last (hfull : c.cap ≤ c.nodes.length) (hge : c.nodes.length ≤ c.further n) :
    (c.push n).nodes = c.nodes := by
  unfold push
  dsimp only
  rw [if_pos hfull, if_neg (by unfold further at hge; omega)]

theorem push_of_room (hroom : c.nodes.length < c.cap) :
    (c.push n).nodes = c.nodes.take (c.further n) ++ n :: c.nodes.drop (c.further n) := by
  unfold push
  dsimp only
  rw [if_neg (by omega)]
  rfl

/-! ### One push -/

/-- `push` keeps the slice sorted. -/
theorem Sorted.push (hs : c.Sorted) (n : Node) : (c.push n).Sorted := by
  obtain ⟨hle, hpre, hpost⟩ := further_spec hs n
  have hall : (c.nodes.take (c.further n) ++ c.nodes.drop (c.further n)).Pairwise
      fun a b => c.dist a ≤ c.dist b := by rw [List.take_append_drop]; exact hs
  unfold Sorted
  rw [show (c.push n).dist = c.dist from by unfold dist; rw [push_pivot]]
  by_cases hroom : c.nodes.length < c.cap
  · rw [push_of_room hroom]
    exact sorted_between hall hpre fun x hx => (hpost x hx).le
  · by_cases hlt : c.further n < c.nodes.length
    · rw [push_of_full (by omega) hlt]
      have hsub : c.nodes.drop (c.further n + 1) ⊆ c.nodes.drop (c.further n) := by
        rw [← List.drop_drop]
        exact List.drop_subset _ _
      refine sorted_between ?_ hpre fun x hx => (hpost x (hsub hx)).le
      exact hall.sublist (List.Sublist.append_left (List.drop_sublist_drop_left _ (Nat.le_succ _)) _)
    · rw [push_of_full_last (by omega) (by omega)]
      exact hs

/-- `push` grows the slice by one while it has room. -/
theorem push_length (c : closet) (n : Node) :
    (c.push n).nodes.length = if c.nodes.length < c.cap then c.nodes.length + 1 else c.nodes.length := by
  by_cases hroom : c.nodes.length < c.cap
  · have hle : c.further n ≤ c.nodes.length := search_le _ _
    rw [push_of_room hroom, if_pos hroom, List.length_append, List.length_cons, List.length_take,
      List.length_drop]
    omega
  · rw [if_neg hroom]
    by_cases hlt : c.further n < c.nodes.length
    · rw [push_of_full (by omega) hlt, List.length_append, List.length_cons, List.length_take,
        List.length_drop]
      omega
    · rw [push_of_full_last (by omega) (by omega)]

/-- `push` keeps nodes of the slice and `n`, each at most once. -/
theorem push_subperm (c : closet) (n : Node) : (c.push n).nodes.Subperm (n :: c.nodes) := by
  by_cases hroom : c.nodes.length < c.cap
  · rw [push_of_room hroom]
    refine (List.perm_middle.trans ?_).subperm
    rw [List.take_append_drop]
  · by_cases hlt : c.further n < c.nodes.length
    · rw [push_of_full (by omega) hlt]
      refine List.perm_middle.subperm.trans (List.Sublist.subperm ?_)
      refine (List.Sublist.append_left (List.drop_sublist_drop_left _ (Nat.le_succ _)) _).cons_cons n |>.trans ?_
      rw [List.take_append_drop]
    · rw [push_of_full_last (by omega) (by omega)]
      exact (List.sublist_cons_self n c.nodes).subperm

/-! ### A run of pushes -/

theorem pushAll_cons (c : closet) (n : Node) (ns : List Node) : c.pushAll (n :: ns) = (c.push n).pushAll ns :=
  rfl

/-- Pushing nodes in turn keeps the slice sorted, its capacity and its pivot, fills it up to its
capacity and takes each node at most once. -/
theorem pushAll_spec (ns : List Node) {c : closet} (hs : c.Sorted) (hcap : c.nodes.length ≤ c.cap) :
    (c.pushAll ns).Sorted ∧ (c.pushAll ns).cap = c.cap ∧ (c.pushAll ns).pivot = c.pivot ∧
      (c.pushAll ns).nodes.length = min c.cap (c.nodes.length + ns.length) ∧
      (c.pushAll ns).nodes.Subperm (c.nodes ++ ns) := by
  -- an induction on the nodes still to push, the slice generalized
  induction ns generalizing c with
  | nil =>
    refine ⟨hs, rfl, rfl, ?_, by rw [List.append_nil]; exact List.Subperm.refl _⟩
    show c.nodes.length = min c.cap (c.nodes.length + 0)
    omega
  | cons n ns ih =>
    have hlen := push_length c n
    obtain ⟨hs', hcap', hpivot', hlen', hsub'⟩ := ih (hs.push n) (by rw [hlen, push_cap]; split_ifs <;> omega)
    rw [pushAll_cons]
    refine ⟨hs', by rw [hcap', push_cap], by rw [hpivot', push_pivot], ?_, ?_⟩
    · rw [hlen', push_cap, hlen, List.length_cons]
      split_ifs <;> omega
    · refine hsub'.trans (((push_subperm c n).append (List.Subperm.refl ns)).trans ?_)
      exact (List.perm_middle.symm : List.Perm ((n :: c.nodes) ++ ns) (c.nodes ++ n :: ns)).subperm

/-! ### The bug -/

/-- A node nearer than every node of a full sorted slice takes the place of the nearest one: that
one is dropped while farther ones stay. -/
theorem push_full_drops_closer {a b : Node} {rest : List Node} (hnodes : c.nodes = a :: rest)
    (hfull : c.cap ≤ c.nodes.length) (hs : c.Sorted) (hna : n ≠ a) (hrest : a ∉ rest)
    (hn : c.dist n < c.dist a) (hb : b ∈ rest) (hab : c.dist a < c.dist b) :
    a ∉ (c.push n).nodes ∧ b ∈ (c.push n).nodes ∧ (c.push n).dist a < (c.push n).dist b := by
  -- `sort.Search` stops at the nearest node, which is farther than `n`
  have hzero : c.further n = 0 := by
    obtain ⟨-, hpre, -⟩ := further_spec hs n
    by_contra hne
    have ha : a ∈ c.nodes.take (c.further n) := by
      rw [hnodes, List.take_cons (Nat.pos_of_ne_zero hne)]
      exact List.mem_cons_self
    exact absurd (hpre a ha) (not_le.mpr hn)
  have hpush : (c.push n).nodes = n :: rest := by
    rw [push_of_full hfull (by rw [hzero, hnodes]; simp), hzero, hnodes]
    rfl
  have hdist : (c.push n).dist = c.dist := by unfold dist; rw [push_pivot]
  rw [hpush, hdist]
  exact ⟨List.not_mem_cons_of_ne_of_not_mem (Ne.symm hna) hrest, List.mem_cons_of_mem n hb, hab⟩

end closet

/-- The run `findNeighbors` makes: the nodes of the buckets, but the target, pushed in turn into a
slice of capacity `count`. -/
theorem findNeighbors_eq (buckets : List (List Node)) (target : NodeID) (count : ℕ) :
    findNeighbors buckets target count =
      closet.pushAll ⟨[], count, target⟩ (buckets.flatten.filter fun node => node.ID ≠ target) := by
  rw [closet.pushAll, List.foldl_filter, List.foldl_flatten]
  unfold findNeighbors
  congr
  funext ns bkt
  congr
  funext ns' node
  by_cases h : node.ID = target <;> simp [h]

/-- Over any buckets, `findNeighbors` returns as many of the nodes other than the target as the count
and the table allow, each at most once, sorted by distance to the target, in a slice of capacity
`count`. -/
theorem findNeighbors_spec (buckets : List (List Node)) (target : NodeID) (count : ℕ) :
    (findNeighbors buckets target count).nodes.length =
        min count (buckets.flatten.filter fun node => node.ID ≠ target).length ∧
      (findNeighbors buckets target count).nodes.Subperm
        (buckets.flatten.filter fun node => node.ID ≠ target) ∧
      (findNeighbors buckets target count).nodes.Pairwise
        (fun a b => Distance target a.ID ≤ Distance target b.ID) ∧
      (findNeighbors buckets target count).cap = count := by
  obtain ⟨hs, hcap, hpivot, hlen, hsub⟩ := closet.pushAll_spec (buckets.flatten.filter fun node => node.ID ≠ target)
    (c := ⟨[], count, target⟩) List.Pairwise.nil (Nat.zero_le count)
  rw [findNeighbors_eq]
  refine ⟨by rw [hlen, List.length_nil, Nat.zero_add], hsub, ?_, hcap⟩
  unfold closet.Sorted closet.dist at hs
  rwa [hpivot] at hs

/-- The last node of the last bucket is pushed last. -/
theorem findNeighbors_append_node (buckets : List (List Node)) (bkt : List Node) {node : Node}
    {target : NodeID} (h : node.ID ≠ target) (count : ℕ) :
    findNeighbors (buckets ++ [bkt ++ [node]]) target count =
      (findNeighbors (buckets ++ [bkt]) target count).push node := by
  simp only [findNeighbors, List.foldl_append, List.foldl_cons, List.foldl_nil, if_neg h]

/-- The id whose bytes are zero but the last. -/
def lastByteId (b : UInt8) : NodeID := (Vector.replicate 31 0).push b

/-- A node on the loopback at the default port with the id `lastByteId b`. -/
def lastByteNode (b : UInt8) : Node := ⟨lastByteId b, ⟨[127, 0, 0, 1], DefaultPort, HostIPv4⟩, 0, []⟩

/-- Nodes at distances `2`, `3`, `4` and then `1` from the zero id, looked up three at a time: the
one at distance `2` is left out, though the one at distance `4` is returned. -/
theorem findNeighbors_drops_nearer_node :
    lastByteNode 2 ∉ (findNeighbors [[lastByteNode 2, lastByteNode 4, lastByteNode 8, lastByteNode 1]]
        (lastByteId 0) 3).nodes ∧
      lastByteNode 8 ∈ (findNeighbors [[lastByteNode 2, lastByteNode 4, lastByteNode 8, lastByteNode 1]]
        (lastByteId 0) 3).nodes ∧
      (findNeighbors [[lastByteNode 2, lastByteNode 4, lastByteNode 8, lastByteNode 1]] (lastByteId 0) 3).dist
          (lastByteNode 2) <
        (findNeighbors [[lastByteNode 2, lastByteNode 4, lastByteNode 8, lastByteNode 1]] (lastByteId 0) 3).dist
          (lastByteNode 8) := by
  rw [show findNeighbors [[lastByteNode 2, lastByteNode 4, lastByteNode 8, lastByteNode 1]] (lastByteId 0) 3 =
      (findNeighbors [[lastByteNode 2, lastByteNode 4, lastByteNode 8]] (lastByteId 0) 3).push (lastByteNode 1) from
    findNeighbors_append_node [] [lastByteNode 2, lastByteNode 4, lastByteNode 8] (by decide) 3]
  exact @closet.push_full_drops_closer _ _ _ _ [lastByteNode 4, lastByteNode 8] (by decide) (by decide)
    (by unfold closet.Sorted; decide)
    (by decide) (by decide) (by decide) (by decide) (by decide)

end Vite.Discovery
