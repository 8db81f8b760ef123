import Vite.Lib.Kahn
import Vite.Lib.AssocList
import Vite.Lib.GoSort

/-!
# Kahn's algorithm in layers (tools/toposort/topsort.go)

`tpSort` moves the nodes of a graph out of the map of the unsorted ones in layers: each round
takes the nodes no input is left on (`filterZero`, sorted by id), and for each of them takes one
input off every node it feeds and moves it to the sorted list; it fails when a round finds no such
node while some are left.

The ids `V`, the ids `D m` each one depends on and the ids `out n` fed by each one, with as many
occurrences as there are edges (`Deps`), describe the graph. While the sort runs, the map holds
the ids not yet moved, each with the number of its inputs still among them, and every node moved
comes after the ids it depends on (`Inv`). Releasing a node keeps that (`Inv.release`), and so does a
round (`Inv.releaseAll`). From a graph with this invariant and fuel for a round per node, `tpSort`
returns all the ids in an order that puts each after its dependencies, or a cycle error when the
graph has a cycle (`Inv.tpSort`); it never dereferences a missing node, and an order that puts
each id after its dependencies rules a cycle out (`Ordered.acyclic`).
-/

namespace Vite.Toposort

open Kahn Relation GoSort

/-- `node`: an item of the sort, under its first id. -/
structure node (ι : Type) where
  id : ι
  «alias» : List ι
  inputs : List ι
  index : ℕ
  inputCnt : ℤ
  outputs : List ι
  sortedIndex : ℕ

/-- What the sort fails with: Go's panic on an index out of range or on a nil node, and the cycle
error naming the ids left. `outOfFuel` is the model's and never happens (`Inv.tpSort`). -/
inductive TopoError (ι : Type) where
  | panicked
  | cycle (ids : List ι)
  | outOfFuel

/-- `graph`: the nodes moved so far, and the map from id to the nodes still to move. -/
structure graph (ι : Type) where
  sorted : List (node ι)
  unsorted : List (ι × node ι)

variable {ι : Type} [LinearOrder ι]

/-- A write through `m[k]`, a map of node pointers: a nil pointer where `k` has no entry. -/
def update (k : ι) (f : node ι → node ι) (m : List (ι × node ι)) : Except (TopoError ι) (List (ι × node ι)) :=
  match AssocList.find? k m with
  | none => .error .panicked
  | some n => .ok (AssocList.insert k (f n) m)

namespace graph

def filterZero (g : graph ι) : List (node ι) :=
  sort (keyLess node.id) ((g.unsorted.map Prod.snd).filter fun n => n.inputCnt = 0)

def move (g : graph ι) (n : node ι) : graph ι :=
  { sorted := g.sorted ++ [n], unsorted := AssocList.erase n.id g.unsorted }

/-- The ids left, sorted, which the cycle error names. -/
def unsortedResult (g : graph ι) : List ι :=
  sort (fun a b => decide (a < b)) (g.unsorted.map fun e => e.2.id)

/-- `refNode.inputCnt--` for the node `output`. -/
def decrement (m : List (ι × node ι)) (output : ι) : Except (TopoError ι) (List (ι × node ι)) :=
  update output (fun refNode => { refNode with inputCnt := refNode.inputCnt - 1 }) m

/-- The body of the inner loop of `tpSort` for a node `n` with no input left. -/
def release (g : graph ι) (n : node ι) : Except (TopoError ι) (graph ι) := do
  let unsorted ← n.outputs.foldlM decrement g.unsorted
  pure ({ g with unsorted }.move n)

/-- `tpSort`. Each round moves a node or stops, so a round per node and one more is enough fuel. -/
def tpSort : ℕ → graph ι → Except (TopoError ι) (List (node ι))
  | 0, _ => .error .outOfFuel
  | fuel + 1, g =>
    let waitings := g.filterZero
    if waitings.length = 0 ∧ g.unsorted.length ≠ 0 then .error (.cycle g.unsortedResult)
    else do
      let g ← waitings.foldlM release g
      if g.unsorted.length = 0 then pure g.sorted else tpSort fuel g

/-- The ids still to move. -/
def keys (g : graph ι) : List ι := g.unsorted.map Prod.fst

end graph

/-! ## The graph and the invariant -/

/-- The graph on the ids `V`: `D m` are the ids `m` depends on and `out n` the ids `n` feeds, as
many times as there are edges between them. -/
structure Deps (V : List ι) (D out : ι → List ι) : Prop where
  nodup : V.Nodup
  deps_mem : ∀ m ∈ V, ∀ d ∈ D m, d ∈ V
  out_mem : ∀ n ∈ V, ∀ o ∈ out n, o ∈ V
  count_out : ∀ n ∈ V, ∀ m ∈ V, (out n).count m = (D m).count n

/-- The edges of the graph, from an id to one that depends on it. -/
def Edge (V : List ι) (D : ι → List ι) (d m : ι) : Prop := m ∈ V ∧ d ∈ D m

/-- Nodes each after the ids it depends on. -/
def Ordered (D : ι → List ι) (S : List (node ι)) : Prop :=
  ∀ k (hk : k < S.length), ∀ d ∈ D S[k].id, d ∈ (S.take k).map node.id

/-- `tpSort` between two rounds, or two nodes of a round. -/
structure Inv (V : List ι) (D out : ι → List ι) (g : graph ι) : Prop where
  key_id : ∀ e ∈ g.unsorted, e.2.id = e.1
  keys_nodup : g.keys.Nodup
  split : ∀ x, x ∈ V ↔ x ∈ g.keys ∨ x ∈ g.sorted.map node.id
  disjoint : ∀ x ∈ g.keys, x ∉ g.sorted.map node.id
  sorted_nodup : (g.sorted.map node.id).Nodup
  inputCnt_eq : ∀ e ∈ g.unsorted, e.2.inputCnt = ((D e.1).countP (· ∈ g.keys) : ℤ)
  outputs_eq : ∀ e ∈ g.unsorted, e.2.outputs = out e.1
  ordered : Ordered D g.sorted

section Run

variable {V : List ι} {D out : ι → List ι}

omit [LinearOrder ι] in
/-- A node whose dependencies are all sorted can follow them. -/
theorem Ordered.concat {S : List (node ι)} (hS : Ordered D S) {n : node ι}
    (hn : ∀ d ∈ D n.id, d ∈ S.map node.id) : Ordered D (S ++ [n]) := by
  intro k hk d hd
  rw [List.length_append, List.length_singleton] at hk
  rcases Nat.lt_or_eq_of_le (Nat.le_of_lt_succ hk) with hlt | rfl
  · rw [List.getElem_append_left hlt] at hd
    rw [List.take_append_of_le_length hlt.le]
    exact hS k hlt d hd
  · rw [List.getElem_append_right (le_refl _)] at hd
    simp only [Nat.sub_self, List.getElem_singleton] at hd
    rw [List.take_left' rfl]
    exact hn d hd

/-- In an order of the ids that puts each after its dependencies, every edge goes forward. -/
theorem Ordered.idxOf_lt (hD : Deps V D out) {S : List (node ι)} (hperm : (S.map node.id).Perm V)
    (hS : Ordered D S) {d m : ι} (hdm : Edge V D d m) : (S.map node.id).idxOf d < (S.map node.id).idxOf m := by
  obtain ⟨hm, hdm⟩ := hdm
  have hnd : (S.map node.id).Nodup := hperm.nodup_iff.mpr hD.nodup
  obtain ⟨k, hk, hmk⟩ := List.getElem_of_mem (hperm.mem_iff.mpr hm)
  rw [List.length_map] at hk
  have hd := hS k hk d (by rw [List.getElem_map] at hmk; rw [← hmk] at hdm; exact hdm)
  obtain ⟨j, hj, hdj⟩ := List.getElem_of_mem hd
  rw [List.length_map, List.length_take] at hj
  have hidx : ∀ i (hi : i < S.length), (S.map node.id).idxOf S[i].id = i := fun i hi => by
    have h := List.Nodup.idxOf_getElem hnd i (by rwa [List.length_map])
    rwa [List.getElem_map] at h
  have hdj' : d = S[j].id := by rw [← hdj]; simp [List.getElem_take]
  have hmk' : m = S[k].id := by rw [← hmk]; simp
  rw [hdj', hmk', hidx j (by omega), hidx k hk]
  omega

/-- Ids each after their dependencies: no cycle, the position being a rank. -/
theorem Ordered.acyclic (hD : Deps V D out) {S : List (node ι)} (hperm : (S.map node.id).Perm V)
    (hS : Ordered D S) (v : ι) : ¬ TransGen (Edge V D) v v :=
  not_transGen_self_of_rank (fun x => (S.map node.id).idxOf x) (fun _ _ h => hS.idxOf_lt hD hperm h) v

/-- The map after taking one input off each of `os`, as many times as it occurs. -/
def decAll (os : List ι) (m : List (ι × node ι)) : List (ι × node ι) :=
  m.map fun e => (e.1, { e.2 with inputCnt := e.2.inputCnt - os.count e.1 })

theorem keys_decAll (os : List ι) (m : List (ι × node ι)) : (decAll os m).map Prod.fst = m.map Prod.fst := by
  simp [decAll]

/-- Taking inputs off nodes the map holds never meets a nil node. -/
theorem foldlM_decrement {os : List ι} {m : List (ι × node ι)} (hm : (m.map Prod.fst).Nodup)
    (hos : ∀ o ∈ os, o ∈ m.map Prod.fst) : os.foldlM graph.decrement m = .ok (decAll os m) := by
  -- an induction on the ids to take inputs off, the map generalized
  induction os generalizing m with
  | nil => exact congrArg Except.ok (by simp [decAll])
  | cons o os ih =>
    obtain ⟨r, hr⟩ := AssocList.exists_find?_of_mem (hos o List.mem_cons_self)
    have hstep : graph.decrement m o =
        .ok (m.map fun e => if e.1 = o then (e.1, { e.2 with inputCnt := e.2.inputCnt - 1 }) else e) := by
      rw [graph.decrement, update, hr]
      exact congrArg Except.ok (AssocList.insert_of_find? (fun r => { r with inputCnt := r.inputCnt - 1 }) hm hr)
    have hkeys : ((m.map fun e => if e.1 = o then (e.1, { e.2 with inputCnt := e.2.inputCnt - 1 }) else e).map
        Prod.fst) = m.map Prod.fst := by
      simp only [List.map_map]
      exact List.map_congr_left fun e _ => by by_cases h : e.1 = o <;> simp [h]
    rw [List.foldlM_cons, hstep]
    refine (ih (hkeys ▸ hm) fun o' ho' => hkeys ▸ hos o' (List.mem_cons_of_mem o ho')).trans ?_
    simp only [decAll, List.map_map]
    refine congrArg Except.ok (List.map_congr_left fun e _ => ?_)
    by_cases h : e.1 = o
    · simp [h]
      omega
    · simp [h, Ne.symm h]

theorem mem_decAll {os : List ι} {m : List (ι × node ι)} {e : ι × node ι} :
    e ∈ decAll os m ↔ ∃ e₀ ∈ m, e = (e₀.1, { e₀.2 with inputCnt := e₀.2.inputCnt - os.count e₀.1 }) := by
  simp only [decAll, List.mem_map]
  exact ⟨fun ⟨e₀, h, he⟩ => ⟨e₀, h, he.symm⟩, fun ⟨e₀, h, he⟩ => ⟨e₀, h, he.symm⟩⟩

/-- Releasing a node that the map holds, whose dependencies are all sorted, never meets a nil node
and keeps the invariant: it leaves the map and follows the sorted nodes. -/
theorem Inv.release (hD : Deps V D out) {g : graph ι} (hinv : Inv V D out g) {n : node ι}
    (hn : n.id ∈ g.keys) (hdeps : ∀ d ∈ D n.id, d ∉ g.keys) (hout : n.outputs = out n.id) :
    ∃ g', g.release n = .ok g' ∧ Inv V D out g' ∧ g'.keys = g.keys.filter (· ≠ n.id) ∧
      g'.sorted = g.sorted ++ [n] := by
  have hnV : n.id ∈ V := (hinv.split _).mpr (.inl hn)
  -- every node `n` feeds is still unsorted, for a sorted one would come after `n`
  have hos : ∀ o ∈ n.outputs, o ∈ g.keys := by
    intro o ho
    rw [hout] at ho
    have hoV := hD.out_mem _ hnV o ho
    rcases (hinv.split o).mp hoV with hk | hs
    · exact hk
    · obtain ⟨k, hk, hko⟩ := List.getElem_of_mem hs
      rw [List.length_map] at hk
      have hcount : 0 < (D o).count n.id := by
        rw [← hD.count_out _ hnV _ hoV]
        exact List.count_pos_iff.mpr ho
      have hdep : n.id ∈ D g.sorted[k].id := by
        rw [List.getElem_map] at hko
        rw [hko]
        exact List.count_pos_iff.mp hcount
      exact absurd (List.map_subset _ (List.take_subset k g.sorted) (hinv.ordered k hk _ hdep))
        (hinv.disjoint _ hn)
  have hkeys : ({ g with unsorted := decAll n.outputs g.unsorted }.move n).keys = g.keys.filter (· ≠ n.id) := by
    simp only [graph.keys, graph.move, AssocList.keys_erase, keys_decAll]
  have hmem : ∀ e ∈ ({ g with unsorted := decAll n.outputs g.unsorted }.move n).unsorted,
      ∃ e₀ ∈ g.unsorted, e₀.1 ≠ n.id ∧
        e = (e₀.1, { e₀.2 with inputCnt := e₀.2.inputCnt - n.outputs.count e₀.1 }) := by
    intro e he
    obtain ⟨he₁, hne⟩ := AssocList.mem_erase.mp he
    obtain ⟨e₀, h₀, rfl⟩ := mem_decAll.mp he₁
    exact ⟨e₀, h₀, hne, rfl⟩
  refine ⟨{ g with unsorted := decAll n.outputs g.unsorted }.move n, ?_, ⟨?_, ?_, ?_, ?_, ?_, ?_, ?_, ?_⟩, hkeys, rfl⟩
  · rw [graph.release, foldlM_decrement hinv.keys_nodup hos]
    rfl
  · intro e he
    obtain ⟨e₀, h₀, -, rfl⟩ := hmem e he
    exact hinv.key_id e₀ h₀
  · rw [hkeys]
    exact hinv.keys_nodup.filter _
  · intro x
    rw [hkeys, hinv.split x]
    simp only [graph.move, List.mem_filter, List.map_append, List.map_singleton, List.mem_append,
      List.mem_singleton, decide_eq_true_eq]
    by_cases hx : x = n.id
    · subst hx
      simp [hn]
    · simp [hx]
  · intro x hx
    rw [hkeys, List.mem_filter, decide_eq_true_eq] at hx
    simp only [graph.move, List.map_append, List.map_singleton, List.mem_append, List.mem_singleton, not_or]
    exact ⟨hinv.disjoint x hx.1, hx.2⟩
  · simp only [graph.move, List.map_append, List.map_singleton]
    exact List.nodup_append.mpr ⟨hinv.sorted_nodup, List.nodup_singleton _,
      fun a ha b hb => by rw [List.mem_singleton.mp hb]; exact fun h => hinv.disjoint _ hn (h ▸ ha)⟩
  · -- the ids `n` feeds had one input each on `n`, which now leaves the map
    intro e he
    obtain ⟨e₀, h₀, hne, rfl⟩ := hmem e he
    have hkV : e₀.1 ∈ V := (hinv.split _).mpr (.inl (List.mem_map_of_mem h₀))
    have hsplit := countP_mem_filter_ne hn (D e₀.1)
    rw [hkeys]
    simp only
    rw [hinv.inputCnt_eq e₀ h₀, hout, hD.count_out _ hnV _ hkV, hsplit]
    push_cast
    ring
  · intro e he
    obtain ⟨e₀, h₀, -, rfl⟩ := hmem e he
    exact hinv.outputs_eq e₀ h₀
  · refine hinv.ordered.concat fun d hd => ?_
    have hdV := hD.deps_mem _ hnV d hd
    exact ((hinv.split d).mp hdV).resolve_left (hdeps d hd)

/-- A round releases its nodes in turn, each still in the map when its turn comes. -/
theorem Inv.releaseAll (hD : Deps V D out) {W : List (node ι)} :
    ∀ {g : graph ι}, Inv V D out g →
      (∀ w ∈ W, w.id ∈ g.keys ∧ (∀ d ∈ D w.id, d ∉ g.keys) ∧ w.outputs = out w.id) → (W.map node.id).Nodup →
      ∃ g', W.foldlM graph.release g = .ok g' ∧ Inv V D out g' ∧ g'.keys = g.keys.filter (· ∉ W.map node.id) ∧
        g'.sorted = g.sorted ++ W := by
  -- an induction on the nodes of the round still to release, the graph generalized
  induction W with
  | nil => exact fun hinv _ _ => ⟨_, rfl, hinv, by simp, by simp⟩
  | cons w W ih =>
    intro g hinv hW hnd
    rw [List.map_cons, List.nodup_cons] at hnd
    obtain ⟨hw, hdeps, hout⟩ := hW w List.mem_cons_self
    obtain ⟨g₁, h₁, hinv₁, hkeys₁, hsorted₁⟩ := hinv.release hD hw hdeps hout
    have hW₁ : ∀ x ∈ W, x.id ∈ g₁.keys ∧ (∀ d ∈ D x.id, d ∉ g₁.keys) ∧ x.outputs = out x.id := by
      intro x hx
      obtain ⟨hxk, hxd, hxo⟩ := hW x (List.mem_cons_of_mem w hx)
      have hne : x.id ≠ w.id := fun h => hnd.1 (h ▸ List.mem_map_of_mem hx)
      rw [hkeys₁]
      refine ⟨List.mem_filter.mpr ⟨hxk, by simpa using hne⟩, fun d hd hd₁ => hxd d hd ?_, hxo⟩
      exact (List.mem_filter.mp hd₁).1
    obtain ⟨g', h', hinv', hkeys', hsorted'⟩ := ih hinv₁ hW₁ hnd.2
    refine ⟨g', by rw [List.foldlM_cons, h₁]; exact h', hinv', ?_, by rw [hsorted', hsorted₁, List.append_assoc]; rfl⟩
    rw [hkeys', hkeys₁, List.filter_filter, List.map_cons]
    congr 1
    funext x
    by_cases h₁ : x = w.id <;> by_cases h₂ : x ∈ W.map node.id <;> simp [h₁, h₂]

theorem mem_filterZero {g : graph ι} {w : node ι} :
    w ∈ g.filterZero ↔ ∃ e ∈ g.unsorted, e.2 = w ∧ w.inputCnt = 0 := by
  rw [graph.filterZero, (sort_perm _ _).mem_iff, List.mem_filter, List.mem_map, decide_eq_true_eq]
  constructor
  · rintro ⟨⟨e, he, rfl⟩, h0⟩
    exact ⟨e, he, rfl, h0⟩
  · rintro ⟨e, he, rfl, h0⟩
    exact ⟨⟨e, he, rfl⟩, h0⟩

/-- The nodes of a round are in the map, with every dependency sorted. -/
theorem Inv.filterZero {g : graph ι} (hinv : Inv V D out g) :
    ∀ w ∈ g.filterZero, w.id ∈ g.keys ∧ (∀ d ∈ D w.id, d ∉ g.keys) ∧ w.outputs = out w.id := by
  intro w hw
  obtain ⟨e, he, rfl, h0⟩ := mem_filterZero.mp hw
  rw [hinv.key_id e he]
  have hcount : (D e.1).countP (· ∈ g.keys) = 0 := by
    have h := hinv.inputCnt_eq e he
    omega
  refine ⟨List.mem_map_of_mem he, fun d hd hdk => ?_, hinv.outputs_eq e he⟩
  exact absurd hcount (List.countP_pos_iff.mpr ⟨d, hd, by simpa using hdk⟩).ne'

theorem Inv.filterZero_nodup {g : graph ι} (hinv : Inv V D out g) : (g.filterZero.map node.id).Nodup := by
  have hvals : ((g.unsorted.map Prod.snd).map node.id) = g.keys := by
    simp only [graph.keys, List.map_map]
    exact List.map_congr_left fun e he => hinv.key_id e he
  rw [graph.filterZero, ((sort_perm _ _).map node.id).nodup_iff]
  exact (hvals ▸ hinv.keys_nodup).sublist (List.filter_sublist.map _)

/-- A round that finds no node without inputs while some are left: each left has an input on
another left, so the ids left hold a cycle. -/
theorem Inv.cycle_of_filterZero_nil {g : graph ι} (hinv : Inv V D out g) (hzero : g.filterZero = [])
    (hne : g.keys ≠ []) : ∃ v ∈ V, TransGen (Edge V D) v v := by
  have hpred : ∀ m ∈ g.keys, ∃ d ∈ g.keys, Edge V D d m := by
    intro m hm
    obtain ⟨e, he, rfl⟩ := List.mem_map.mp hm
    have hcnt : e.2.inputCnt ≠ 0 := fun h0 => by
      have hw : e.2 ∈ g.filterZero := mem_filterZero.mpr ⟨e, he, rfl, h0⟩
      rw [hzero] at hw
      cases hw
    rw [hinv.inputCnt_eq e he] at hcnt
    obtain ⟨d, hd, hdk⟩ := List.countP_pos_iff.mp (Nat.pos_of_ne_zero (by exact_mod_cast hcnt))
    exact ⟨d, by simpa using hdk, (hinv.split _).mpr (.inl hm), hd⟩
  obtain ⟨v, hv, hcyc⟩ := exists_cycle_of_forall_pred g.keys hne hpred
  exact ⟨v, (hinv.split v).mpr (.inl hv), hcyc⟩

/-- With a round of fuel per id left and one more, `tpSort` ends: it returns every id, each after
its dependencies, or fails with a cycle error on a graph that has a cycle. -/
theorem Inv.tpSort (hD : Deps V D out) (fuel : ℕ) :
    ∀ {g : graph ι}, Inv V D out g → g.keys.length < fuel →
      (∃ S, g.tpSort fuel = .ok S ∧ (S.map node.id).Perm V ∧ Ordered D S) ∨
        (∃ ids, g.tpSort fuel = .error (.cycle ids) ∧ ∃ v ∈ V, TransGen (Edge V D) v v) := by
  -- an induction on the fuel; every round that does not end moves a node
  induction fuel with
  | zero => exact fun _ h => absurd h (Nat.not_lt_zero _)
  | succ fuel ih =>
    intro g hinv hfuel
    unfold graph.tpSort
    dsimp only
    by_cases hcyc : g.filterZero.length = 0 ∧ g.unsorted.length ≠ 0
    · rw [if_pos hcyc]
      refine .inr ⟨_, rfl, hinv.cycle_of_filterZero_nil (List.eq_nil_of_length_eq_zero hcyc.1) ?_⟩
      simpa [graph.keys, List.length_eq_zero_iff] using hcyc.2
    · rw [if_neg hcyc]
      obtain ⟨g', h', hinv', hkeys', hsorted'⟩ := hinv.releaseAll hD hinv.filterZero hinv.filterZero_nodup
      rw [h']
      simp only [bind, Except.bind]
      by_cases hempty : g'.unsorted.length = 0
      · -- nothing is left: every id is sorted
        rw [if_pos hempty]
        refine .inl ⟨g'.sorted, rfl, (List.perm_ext_iff_of_nodup hinv'.sorted_nodup hD.nodup).mpr fun x => ?_,
          hinv'.ordered⟩
        have hk : g'.keys = [] := by simpa [graph.keys, List.length_eq_zero_iff] using hempty
        rw [hinv'.split x, hk]
        simp
      · rw [if_neg hempty]
        -- the round moved a node, so fewer are left
        have hlt : g'.keys.length < g.keys.length := by
          rw [hkeys']
          apply List.length_filter_lt_length_iff_exists.mpr
          have hW : g.filterZero ≠ [] := by
            intro hW
            have hk : g.keys = [] := by
              have hlen : g.unsorted.length = 0 := by
                by_contra hlen
                exact hcyc ⟨by rw [hW]; rfl, hlen⟩
              simpa [graph.keys, List.length_eq_zero_iff] using hlen
            apply hempty
            have hk' : g'.keys = [] := by rw [hkeys', hk]; rfl
            simpa [graph.keys, List.length_eq_zero_iff] using hk'
          obtain ⟨w, hw⟩ := List.exists_mem_of_ne_nil _ hW
          exact ⟨w.id, (hinv.filterZero w hw).1, by simpa using List.mem_map_of_mem hw⟩
        exact ih hinv' (by omega)

end Run

end Vite.Toposort
