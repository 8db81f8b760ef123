import Vite.Tools.TopoGraph
import Vite.Lib.GoSort.Sorted

/-!
# Sorting items after their dependencies (tools/toposort/sort.go)

`TopoSort` reads a node for each item of `data`: its first id, its ids as aliases and its inputs.
An input that some item's id resolves through the aliases counts on the node and makes it an
output of the node owning that id; inputs naming no item are ignored. `tpSort` orders the nodes,
and the items are sorted by the position their node got, swapping `data` along.

Over items with at least one id each and no id shared between two of them (`Items`), the nodes
make the graph `linked` for `tpSort` (`linkInputs_eq`), whose edges are the dependencies of the
items (`edge_iff`) and whose cycles are theirs (`cycle_iff`). `TopoSort` then never panics: it
fails exactly when the items' dependencies have a cycle, leaving `data` as it was, and otherwise
permutes `data` so that every item comes after every item it depends on (`TopoSort_correct`).
-/

namespace Vite.Toposort

open Kahn Relation GoSort

variable {α ι : Type} [LinearOrder ι] (Ids Inputs : α → List ι)

/-- The first loop of `TopoSort`: a node for each item; `ids[0]` panics on an item without ids. -/
def newNodes : ℕ → List α → Except (TopoError ι) (List (node ι))
  | _, [] => .ok []
  | i, d :: ds =>
    match Ids d with
    | [] => .error .panicked
    | id :: _ => do
      let rest ← newNodes (i + 1) ds
      pure (⟨id, Ids d, Inputs d, i, 0, [], 0⟩ :: rest)

/-- The map `alias`: every id of every node to the node's first id. -/
def aliasMap (unsorted : List (node ι)) : List (ι × ι) :=
  unsorted.foldl (fun aliases n => n.«alias».foldl (fun aliases id => AssocList.insert id n.id aliases) aliases) []

/-- `unsortedMap`: the nodes under their first ids. -/
def unsortedMap (unsorted : List (node ι)) : List (ι × node ι) :=
  unsorted.foldl (fun m n => AssocList.insert n.id n m) []

/-- One input of `n`: if an alias resolves it, it counts on `n`, whose object is the map's at
`n.id`, and makes `n` an output of the node it resolves to. -/
def linkInput (aliases : List (ι × ι)) (n : node ι) (m : List (ι × node ι)) (input : ι) :
    Except (TopoError ι) (List (ι × node ι)) :=
  match AssocList.find? input aliases with
  | none => pure m
  | some real => do
    let m ← update n.id (fun x => { x with inputCnt := x.inputCnt + 1 }) m
    update real (fun x => { x with outputs := x.outputs ++ [n.id] }) m

/-- The inputs of `n` in turn. -/
def linkNode (aliases : List (ι × ι)) (m : List (ι × node ι)) (n : node ι) :
    Except (TopoError ι) (List (ι × node ι)) :=
  n.inputs.foldlM (linkInput aliases n) m

/-- The third loop of `TopoSort`. -/
def linkInputs (aliases : List (ι × ι)) (unsorted : List (node ι)) (m : List (ι × node ι)) :
    Except (TopoError ι) (List (ι × node ι)) :=
  unsorted.foldlM (linkNode aliases) m

/-- `n.sortedIndex = i` for each node `n` of the sorted list at `i`. -/
def sortedIndexes (sorted : List (node ι)) : List (ι × ℕ) :=
  sorted.zipIdx.foldl (fun idx e => AssocList.insert e.1.id e.2 idx) []

/-- `TopoSort`: the data after the call, and the error. -/
def TopoSort (data : List α) : List α × Option (TopoError ι) :=
  match (do
    let unsorted ← newNodes Ids Inputs 0 data
    let m ← linkInputs (aliasMap unsorted) unsorted (unsortedMap unsorted)
    let sorted ← graph.tpSort (data.length + 1) ⟨[], m⟩
    pure (unsorted, sorted) : Except (TopoError ι) (List (node ι) × List (node ι))) with
  | .error e => (data, some e)
  | .ok (unsorted, sorted) =>
    let values := unsorted.map fun ele => (AssocList.find? ele.id (sortedIndexes sorted)).getD 0
    -- `sort.Sort(wrap)` swaps the data along with the values it compares
    ((sort (keyLess Prod.snd) (data.zip values)).map Prod.fst, none)

/-! ## The nodes of the items -/

/-- The node `newNodes` reads from the item `d`, at any index. -/
structure NodeOf (d : α) (n : node ι) : Prop where
  alias_eq : n.«alias» = Ids d
  inputs_eq : n.inputs = Inputs d
  head_eq : (Ids d).head? = some n.id
  inputCnt_eq : n.inputCnt = 0
  outputs_eq : n.outputs = []

/-- Items with an id each, no two of them sharing one. -/
structure Items (data : List α) : Prop where
  ids_ne : ∀ d ∈ data, Ids d ≠ []
  disjoint : data.Pairwise fun a b => (Ids a).Disjoint (Ids b)

section Nodes

omit [LinearOrder ι]

variable {Ids Inputs}

theorem NodeOf.id_mem {d : α} {n : node ι} (h : NodeOf Ids Inputs d n) : n.id ∈ Ids d :=
  List.mem_of_mem_head? h.head_eq

/-- `newNodes` reads a node off each item, and never panics on items with an id each. -/
theorem newNodes_ok {data : List α} (hids : ∀ d ∈ data, Ids d ≠ []) (i : ℕ) :
    ∃ nodes, newNodes Ids Inputs i data = .ok nodes ∧ List.Forall₂ (NodeOf Ids Inputs) data nodes := by
  induction data generalizing i with
  | nil => exact ⟨[], rfl, .nil⟩
  | cons d ds ih =>
    obtain ⟨rest, hrest, hF⟩ := ih (fun d' hd' => hids d' (List.mem_cons_of_mem d hd')) (i + 1)
    obtain ⟨id, tl, hd⟩ := List.exists_cons_of_ne_nil (hids d List.mem_cons_self)
    refine ⟨⟨id, Ids d, Inputs d, i, 0, [], 0⟩ :: rest, ?_, .cons ⟨rfl, rfl, by simp [hd], rfl, rfl⟩ hF⟩
    unfold newNodes
    split
    · rename_i hnil
      rw [hd] at hnil
      cases hnil
    · rename_i id' tl' hcons
      rw [hd, List.cons.injEq] at hcons
      rw [hrest, ← hcons.1]
      rfl

variable {data : List α} {nodes : List (node ι)}

theorem exists_nodeOf (hF : List.Forall₂ (NodeOf Ids Inputs) data nodes) {d : α} (hd : d ∈ data) :
    ∃ n ∈ nodes, NodeOf Ids Inputs d n := by
  induction hF with
  | nil => cases hd
  | cons h _ ih =>
    rcases List.mem_cons.mp hd with rfl | hd
    · exact ⟨_, List.mem_cons_self, h⟩
    · obtain ⟨n, hn, h'⟩ := ih hd
      exact ⟨n, List.mem_cons_of_mem _ hn, h'⟩

theorem exists_item (hF : List.Forall₂ (NodeOf Ids Inputs) data nodes) {n : node ι} (hn : n ∈ nodes) :
    ∃ d ∈ data, NodeOf Ids Inputs d n := by
  induction hF with
  | nil => cases hn
  | cons h _ ih =>
    rcases List.mem_cons.mp hn with rfl | hn
    · exact ⟨_, List.mem_cons_self, h⟩
    · obtain ⟨d, hd, h'⟩ := ih hn
      exact ⟨d, List.mem_cons_of_mem _ hd, h'⟩

/-- Items that share no id give nodes under distinct ids. -/
theorem nodup_ids (hF : List.Forall₂ (NodeOf Ids Inputs) data nodes)
    (hdisj : data.Pairwise fun a b => (Ids a).Disjoint (Ids b)) : (nodes.map node.id).Nodup := by
  induction hF with
  | nil => exact List.nodup_nil
  | cons h hF ih =>
    obtain ⟨hd, hdisj₂⟩ := List.pairwise_cons.mp hdisj
    refine List.nodup_cons.mpr ⟨fun hmem => ?_, ih hdisj₂⟩
    obtain ⟨n', hn', heq⟩ := List.mem_map.mp hmem
    obtain ⟨d', hd', h'⟩ := exists_item hF hn'
    exact hd d' hd' h.id_mem (heq ▸ h'.id_mem)

/-- Two items of the data sharing an id are the same item. -/
theorem item_eq_of_mem (hdisj : data.Pairwise fun a b => (Ids a).Disjoint (Ids b)) {a b : α} (ha : a ∈ data)
    (hb : b ∈ data) {x : ι} (hxa : x ∈ Ids a) (hxb : x ∈ Ids b) : a = b := by
  induction data with
  | nil => cases ha
  | cons d ds ih =>
    obtain ⟨hd, hdisj₂⟩ := List.pairwise_cons.mp hdisj
    rcases List.mem_cons.mp ha with rfl | ha'
    · rcases List.mem_cons.mp hb with rfl | hb'
      · rfl
      · exact (hd b hb' hxa hxb).elim
    · rcases List.mem_cons.mp hb with rfl | hb'
      · exact (hd a ha' hxb hxa).elim
      · exact ih hdisj₂ ha' hb'

/-- Items with an id each, no two sharing one, are distinct. -/
theorem Items.nodup (hI : Items Ids data) : data.Nodup :=
  hI.disjoint.imp_of_mem fun {a _} ha _ hdisj hab => by
    subst hab
    obtain ⟨x, tl, hx⟩ := List.exists_cons_of_ne_nil (hI.ids_ne a ha)
    exact hdisj (hx ▸ List.mem_cons_self) (hx ▸ List.mem_cons_self)

/-- The nodes of two items sharing an id are under the same id. -/
theorem id_eq_of_mem_alias (hF : List.Forall₂ (NodeOf Ids Inputs) data nodes)
    (hdisj : data.Pairwise fun a b => (Ids a).Disjoint (Ids b)) {n n' : node ι} (hn : n ∈ nodes) (hn' : n' ∈ nodes)
    {x : ι} (hx : x ∈ n.«alias») (hx' : x ∈ n'.«alias») : n.id = n'.id := by
  obtain ⟨d, hd, h⟩ := exists_item hF hn
  obtain ⟨d', hd', h'⟩ := exists_item hF hn'
  rw [h.alias_eq] at hx
  rw [h'.alias_eq] at hx'
  obtain rfl := item_eq_of_mem hdisj hd hd' hx hx'
  exact Option.some.inj (h.head_eq.symm.trans h'.head_eq)

end Nodes

/-! ## The map the inputs are linked in -/

/-- The map while `TopoSort` links the inputs: every node under its id, with the count `c` and the
outputs `o` of its id. -/
def mapOf (nodes : List (node ι)) (c : ι → ℤ) (o : ι → List ι) : List (ι × node ι) :=
  nodes.map fun n => (n.id, { n with inputCnt := c n.id, outputs := o n.id })

/-- The ids the inputs of `n` resolve to through the aliases, one per input. -/
def depsOf (aliases : List (ι × ι)) (n : node ι) : List ι :=
  n.inputs.filterMap fun input => AssocList.find? input aliases

/-- What the node with id `m` depends on. -/
def depsAt (aliases : List (ι × ι)) (nodes : List (node ι)) (m : ι) : List ι :=
  (nodes.filter (·.id = m)).flatMap (depsOf aliases)

/-- What the node with id `x` feeds: a node once for each of its inputs resolving to `x`. -/
def outAt (aliases : List (ι × ι)) (nodes : List (node ι)) (x : ι) : List ι :=
  nodes.flatMap fun n => List.replicate ((depsOf aliases n).count x) n.id

section Maps

variable {nodes : List (node ι)}

/-- Where no id is an alias of two nodes, the aliases resolve an id to the node it is an alias of. -/
theorem find?_aliasMap (hown : ∀ n ∈ nodes, ∀ n' ∈ nodes, ∀ x ∈ n.«alias», x ∈ n'.«alias» → n.id = n'.id)
    {x r : ι} : AssocList.find? x (aliasMap nodes) = some r ↔ ∃ n ∈ nodes, x ∈ n.«alias» ∧ n.id = r := by
  -- the nested loop writes the pairs `(x, n.id)` in turn
  have hfold : aliasMap nodes = (nodes.flatMap fun n => n.«alias».map fun x => (x, n.id)).foldl
      (fun acc e => AssocList.insert e.1 e.2 acc) [] := by
    rw [aliasMap, List.foldl_flatMap]
    simp only [List.foldl_map]
  rw [hfold, AssocList.find?_foldl_insert, AssocList.find?, Option.or_none]
  constructor
  · intro h
    obtain ⟨e, he, rfl⟩ := Option.map_eq_some_iff.mp h
    have hex := List.find?_some he
    obtain ⟨n, hn, hen⟩ := List.mem_flatMap.mp (List.mem_reverse.mp (List.mem_of_find?_eq_some he))
    obtain ⟨y, hy, rfl⟩ := List.mem_map.mp hen
    have hyx : y = x := by simpa using hex
    exact ⟨n, hn, hyx ▸ hy, rfl⟩
  · rintro ⟨n, hn, hx, rfl⟩
    have hmem : (x, n.id) ∈ (nodes.flatMap fun n => n.«alias».map fun x => (x, n.id)).reverse :=
      List.mem_reverse.mpr (List.mem_flatMap.mpr ⟨n, hn, List.mem_map.mpr ⟨x, hx, rfl⟩⟩)
    obtain ⟨e, he⟩ := Option.isSome_iff_exists.mp
      ((List.find?_isSome (p := fun e => decide (e.1 = x))).mpr ⟨_, hmem, by simp⟩)
    have hex : e.1 = x := by simpa using List.find?_some he
    obtain ⟨n', hn', hen'⟩ := List.mem_flatMap.mp (List.mem_reverse.mp (List.mem_of_find?_eq_some he))
    obtain ⟨y, hy, rfl⟩ := List.mem_map.mp hen'
    obtain rfl : y = x := hex
    rw [he, Option.map_some, hown n' hn' n hn y hy hx]

/-- Nodes fresh from `newNodes`, under distinct ids, make the map `mapOf` with no count and no output. -/
theorem unsortedMap_eq (hnd : (nodes.map node.id).Nodup) (hfresh : ∀ n ∈ nodes, n.inputCnt = 0 ∧ n.outputs = []) :
    unsortedMap nodes = mapOf nodes (fun _ => 0) (fun _ => []) := by
  rw [unsortedMap, AssocList.foldl_insert_of_nodup node.id (fun n => n) nodes [] (by simpa using hnd),
    List.nil_append, mapOf]
  refine List.map_congr_left fun n hn => ?_
  obtain ⟨h0, hout⟩ := hfresh n hn
  rw [← h0, ← hout]

omit [LinearOrder ι] in
theorem keys_mapOf (c : ι → ℤ) (o : ι → List ι) : (mapOf nodes c o).map Prod.fst = nodes.map node.id := by
  simp [mapOf]

/-- A write at an id of the map changes the count and the outputs of that id only. -/
theorem update_mapOf (hnd : (nodes.map node.id).Nodup) {k : ι} (hk : k ∈ nodes.map node.id)
    {f : node ι → node ι} {c c' : ι → ℤ} {o o' : ι → List ι}
    (hf : ∀ n ∈ nodes, n.id = k →
      f { n with inputCnt := c n.id, outputs := o n.id } = { n with inputCnt := c' n.id, outputs := o' n.id })
    (hc : ∀ y, y ≠ k → c' y = c y) (ho : ∀ y, y ≠ k → o' y = o y) :
    update k f (mapOf nodes c o) = .ok (mapOf nodes c' o') := by
  obtain ⟨v, hv⟩ := AssocList.exists_find?_of_mem ((keys_mapOf c o).symm ▸ hk)
  rw [update, hv]
  dsimp only
  rw [AssocList.insert_of_find? f ((keys_mapOf c o).symm ▸ hnd) hv]
  simp only [mapOf, List.map_map]
  refine congrArg Except.ok (List.map_congr_left fun n hn => ?_)
  by_cases h : n.id = k
  · have hfn := hf n hn h
    rw [h] at hfn
    simp [h, hfn]
  · simp [h, hc n.id h, ho n.id h]

/-- An input resolved to `real` counts on `n` and makes `n` an output of `real`. -/
theorem linkInput_some (hnd : (nodes.map node.id).Nodup) {aliases : List (ι × ι)} {n : node ι}
    (hn : n.id ∈ nodes.map node.id) {input real : ι} (hreal : real ∈ nodes.map node.id)
    (h : AssocList.find? input aliases = some real) (c : ι → ℤ) (o : ι → List ι) :
    linkInput aliases n (mapOf nodes c o) input =
      .ok (mapOf nodes (fun y => c y + if y = n.id then 1 else 0) (fun y => o y ++ if y = real then [n.id] else [])) := by
  have h₁ : update n.id (fun x => { x with inputCnt := x.inputCnt + 1 }) (mapOf nodes c o) =
      .ok (mapOf nodes (fun y => c y + if y = n.id then 1 else 0) o) :=
    update_mapOf hnd hn (fun m _ hm => by simp [hm]) (fun y hy => by simp [hy]) (fun _ _ => rfl)
  have h₂ : update real (fun x => { x with outputs := x.outputs ++ [n.id] })
      (mapOf nodes (fun y => c y + if y = n.id then 1 else 0) o) =
      .ok (mapOf nodes (fun y => c y + if y = n.id then 1 else 0) (fun y => o y ++ if y = real then [n.id] else [])) :=
    update_mapOf hnd hreal (fun m _ hm => by simp [hm]) (fun _ _ => rfl) (fun y hy => by simp [hy])
  rw [linkInput, h]
  dsimp only
  rw [h₁]
  exact h₂

/-- The inputs `I` of `n` in turn: each one an alias resolves counts on `n` and makes `n` an output
of the node it resolves to. -/
theorem foldlM_linkInput (hnd : (nodes.map node.id).Nodup) {aliases : List (ι × ι)}
    (haliases : ∀ x r, AssocList.find? x aliases = some r → r ∈ nodes.map node.id) {n : node ι}
    (hn : n.id ∈ nodes.map node.id) (I : List ι) (c : ι → ℤ) (o : ι → List ι) :
    I.foldlM (linkInput aliases n) (mapOf nodes c o) =
      .ok (mapOf nodes
        (fun y => c y + if y = n.id then ((I.filterMap fun x => AssocList.find? x aliases).length : ℤ) else 0)
        (fun y => o y ++ List.replicate ((I.filterMap fun x => AssocList.find? x aliases).count y) n.id)) := by
  -- an induction on the inputs, the counts and outputs generalized
  induction I generalizing c o with
  | nil => exact congrArg Except.ok (by simp)
  | cons input I ih =>
    rw [List.foldlM_cons]
    cases hfind : AssocList.find? input aliases with
    | none =>
      rw [linkInput, hfind]
      simp only [pure, Except.pure, Except.bind, bind]
      rw [ih, List.filterMap_cons, hfind]
    | some real =>
      rw [linkInput_some hnd hn (haliases _ _ hfind) hfind]
      simp only [Except.bind, bind]
      rw [ih, List.filterMap_cons, hfind]
      dsimp only
      congr 2
      · funext y
        by_cases hy : y = n.id
        · rw [if_pos hy, if_pos hy, if_pos hy, List.length_cons]
          push_cast
          ring
        · rw [if_neg hy, if_neg hy, if_neg hy]
          ring
      · funext y
        by_cases hy : y = real
        · simp [hy, List.replicate_succ]
        · simp [hy, Ne.symm hy]

/-- Linking the inputs of the nodes `P` in turn. -/
theorem linkInputs_mapOf (hnd : (nodes.map node.id).Nodup) {aliases : List (ι × ι)}
    (haliases : ∀ x r, AssocList.find? x aliases = some r → r ∈ nodes.map node.id) (P : List (node ι))
    (hP : ∀ n ∈ P, n.id ∈ nodes.map node.id) (c : ι → ℤ) (o : ι → List ι) :
    linkInputs aliases P (mapOf nodes c o) =
      .ok (mapOf nodes (fun y => c y + (((P.filter (·.id = y)).flatMap (depsOf aliases)).length : ℤ))
        (fun y => o y ++ P.flatMap fun n => List.replicate ((depsOf aliases n).count y) n.id)) := by
  -- an induction on the nodes still to link, the counts and outputs generalized
  induction P generalizing c o with
  | nil => exact congrArg Except.ok (by simp)
  | cons n P ih =>
    rw [linkInputs, List.foldlM_cons, linkNode, foldlM_linkInput hnd haliases (hP n List.mem_cons_self)]
    simp only [Except.bind, bind]
    rw [← linkInputs, ih (fun m hm => hP m (List.mem_cons_of_mem n hm))]
    congr 2
    · funext y
      by_cases hy : n.id = y
      · rw [if_pos hy.symm, List.filter_cons_of_pos (by simpa using hy), List.flatMap_cons, List.length_append,
          depsOf]
        push_cast
        ring
      · rw [if_neg (Ne.symm hy), List.filter_cons_of_neg (by simpa using hy)]
        ring
    · funext y
      simp [depsOf, List.append_assoc]

end Maps

/-! ## The graph of the items -/

/-- The graph `tpSort` starts from: every node in the map, counting what it depends on and feeding
what depends on it. -/
def linked (aliases : List (ι × ι)) (nodes : List (node ι)) : graph ι :=
  ⟨[], mapOf nodes (fun m => ((depsAt aliases nodes m).length : ℤ)) (outAt aliases nodes)⟩

/-- `a` feeds `b`: `b` lists an id of `a` among its inputs, so depends on it. -/
def Feeds (data : List α) (a b : α) : Prop := a ∈ data ∧ b ∈ data ∧ ∃ x ∈ Ids a, x ∈ Inputs b

section Graph

variable {aliases : List (ι × ι)} {nodes : List (node ι)}

/-- The node with id `x` feeds `m` as often as `m` depends on `x`. -/
theorem count_outAt (x m : ι) : (outAt aliases nodes x).count m = (depsAt aliases nodes m).count x := by
  -- an induction on the nodes, each adding its inputs resolving to `x` on both sides
  induction nodes with
  | nil => rfl
  | cons n ns ih =>
    simp only [outAt, depsAt, List.flatMap_cons, List.count_append, List.count_replicate, List.filter_cons] at ih ⊢
    by_cases h : n.id = m
    · simp [h, ih]
    · simp [h, ih]

theorem mem_of_mem_depsAt (haliases : ∀ x r, AssocList.find? x aliases = some r → r ∈ nodes.map node.id)
    {m d : ι} (hd : d ∈ depsAt aliases nodes m) : d ∈ nodes.map node.id := by
  obtain ⟨n, -, hdn⟩ := List.mem_flatMap.mp hd
  obtain ⟨x, -, hx⟩ := List.mem_filterMap.mp hdn
  exact haliases x d hx

/-- The nodes under distinct ids, with inputs resolving to their ids, make a graph. -/
theorem deps_linked (hnd : (nodes.map node.id).Nodup)
    (haliases : ∀ x r, AssocList.find? x aliases = some r → r ∈ nodes.map node.id) :
    Deps (nodes.map node.id) (depsAt aliases nodes) (outAt aliases nodes) where
  nodup := hnd
  deps_mem _ _ _ hd := mem_of_mem_depsAt haliases hd
  out_mem x _ o ho := by
    obtain ⟨n, hn, hon⟩ := List.mem_flatMap.mp ho
    rw [List.eq_of_mem_replicate hon]
    exact List.mem_map_of_mem hn
  count_out n _ m _ := count_outAt n m

theorem keys_linked : (linked aliases nodes).keys = nodes.map node.id := by
  rw [graph.keys, linked]
  dsimp only
  exact keys_mapOf _ _

/-- `linkInputs` leaves the graph with the invariant of `tpSort`, nothing sorted yet. -/
theorem inv_linked (hnd : (nodes.map node.id).Nodup)
    (haliases : ∀ x r, AssocList.find? x aliases = some r → r ∈ nodes.map node.id) :
    Inv (nodes.map node.id) (depsAt aliases nodes) (outAt aliases nodes) (linked aliases nodes) := by
  have hkeys : (linked aliases nodes).keys = nodes.map node.id := keys_linked
  refine ⟨fun e he => ?_, hkeys ▸ hnd, fun x => by rw [hkeys]; simp [linked], fun x _ h => by simp [linked] at h,
    List.nodup_nil, fun e he => ?_, fun e he => ?_, fun k hk => absurd hk (Nat.not_lt_zero k)⟩
  · obtain ⟨n, -, rfl⟩ := List.mem_map.mp he
    rfl
  · -- every id a node depends on is in the map, so all of them count
    obtain ⟨n, -, rfl⟩ := List.mem_map.mp he
    rw [List.countP_eq_length.mpr fun d hd => by simpa [hkeys] using mem_of_mem_depsAt haliases hd]
  · obtain ⟨n, -, rfl⟩ := List.mem_map.mp he
    rfl

/-- Among nodes under distinct ids, only `n` is under `n.id`. -/
theorem filter_id_eq (hnd : (nodes.map node.id).Nodup) {n : node ι} (hn : n ∈ nodes) :
    nodes.filter (·.id = n.id) = [n] := by
  induction nodes with
  | nil => cases hn
  | cons x xs ih =>
    rw [List.map_cons, List.nodup_cons] at hnd
    rcases List.mem_cons.mp hn with rfl | hn'
    · rw [List.filter_cons_of_pos (by simp), List.filter_eq_nil_iff.mpr fun y hy => by
        simpa using fun h : y.id = n.id => hnd.1 (h ▸ List.mem_map_of_mem hy)]
    · have hne : x.id ≠ n.id := fun h => hnd.1 (h ▸ List.mem_map_of_mem hn')
      rw [List.filter_cons_of_neg (by simpa using hne), ih hnd.2 hn']

theorem depsAt_of_mem (hnd : (nodes.map node.id).Nodup) {n : node ι} (hn : n ∈ nodes) :
    depsAt aliases nodes n.id = depsOf aliases n := by
  rw [depsAt, filter_id_eq hnd hn, List.flatMap_singleton]

end Graph

section Items

variable {Ids Inputs} {data : List α} {nodes : List (node ι)}

theorem aliases_mem (hF : List.Forall₂ (NodeOf Ids Inputs) data nodes) (hI : Items Ids data) :
    ∀ x r, AssocList.find? x (aliasMap nodes) = some r → r ∈ nodes.map node.id := fun _ _ h => by
  obtain ⟨n, hn, -, rfl⟩ := (find?_aliasMap fun n hn n' hn' x => id_eq_of_mem_alias hF hI.disjoint hn hn').mp h
  exact List.mem_map_of_mem hn

/-- `linkInputs` builds the graph `linked` of the nodes. -/
theorem linkInputs_eq (hF : List.Forall₂ (NodeOf Ids Inputs) data nodes) (hI : Items Ids data) :
    linkInputs (aliasMap nodes) nodes (unsortedMap nodes) = .ok (linked (aliasMap nodes) nodes).unsorted := by
  have hnd := nodup_ids hF hI.disjoint
  have hfresh : ∀ n ∈ nodes, n.inputCnt = 0 ∧ n.outputs = [] := fun n hn => by
    obtain ⟨d, -, h⟩ := exists_item hF hn
    exact ⟨h.inputCnt_eq, h.outputs_eq⟩
  rw [unsortedMap_eq hnd hfresh, linkInputs_mapOf hnd (aliases_mem hF hI) nodes (fun n hn => List.mem_map_of_mem hn)]
  simp only [zero_add, List.nil_append]
  rfl

/-- The node of `b` depends on the node of `a` exactly when `b` lists an id of `a` among its inputs. -/
theorem edge_iff (hF : List.Forall₂ (NodeOf Ids Inputs) data nodes) (hI : Items Ids data) {a b : α}
    {na nb : node ι} (hna : na ∈ nodes) (hnb : nb ∈ nodes) (ha : NodeOf Ids Inputs a na)
    (hb : NodeOf Ids Inputs b nb) :
    Edge (nodes.map node.id) (depsAt (aliasMap nodes) nodes) na.id nb.id ↔ ∃ x ∈ Ids a, x ∈ Inputs b := by
  have hnd := nodup_ids hF hI.disjoint
  have hown : ∀ n ∈ nodes, ∀ n' ∈ nodes, ∀ x ∈ n.«alias», x ∈ n'.«alias» → n.id = n'.id :=
    fun n hn n' hn' x => id_eq_of_mem_alias hF hI.disjoint hn hn'
  rw [Edge, depsAt_of_mem hnd hnb, depsOf, List.mem_filterMap, hb.inputs_eq]
  simp only [find?_aliasMap hown]
  constructor
  · rintro ⟨-, x, hx, n, hn, hxn, hid⟩
    -- the node `x` resolves to is the node of `a`, the ids being distinct
    obtain rfl : n = na := List.inj_on_of_nodup_map hnd hn hna hid
    exact ⟨x, ha.alias_eq ▸ hxn, hx⟩
  · rintro ⟨x, hxa, hx⟩
    exact ⟨List.mem_map_of_mem hnb, x, hx, na, hna, ha.alias_eq ▸ hxa, rfl⟩

/-- A path of items feeding each other is a path of edges between their nodes. -/
theorem transGen_edge_of_feeds (hF : List.Forall₂ (NodeOf Ids Inputs) data nodes) (hI : Items Ids data) {a c : α}
    (h : TransGen (Feeds Ids Inputs data) a c) :
    ∀ {na nc : node ι}, na ∈ nodes → nc ∈ nodes → NodeOf Ids Inputs a na → NodeOf Ids Inputs c nc →
      TransGen (Edge (nodes.map node.id) (depsAt (aliasMap nodes) nodes)) na.id nc.id := by
  -- an induction on the path, the node of its last item found at each step
  induction h with
  | single hac =>
    intro na nc hna hnc ha hc
    exact .single ((edge_iff hF hI hna hnc ha hc).mpr hac.2.2)
  | tail _ hbc ih =>
    intro na nc hna hnc ha hc
    obtain ⟨nb, hnb, hb⟩ := exists_nodeOf hF hbc.1
    exact .tail (ih hna hnb ha hb) ((edge_iff hF hI hnb hnc hb hc).mpr hbc.2.2)

/-- A path of edges ending at the node of an item is a path of items feeding each other. -/
theorem feeds_of_transGen_edge (hF : List.Forall₂ (NodeOf Ids Inputs) data nodes) (hI : Items Ids data) {v w : ι}
    (h : TransGen (Edge (nodes.map node.id) (depsAt (aliasMap nodes) nodes)) v w) :
    ∀ {nc : node ι} {c : α}, nc ∈ nodes → c ∈ data → NodeOf Ids Inputs c nc → nc.id = w →
      ∃ a ∈ data, ∃ na ∈ nodes, NodeOf Ids Inputs a na ∧ na.id = v ∧ TransGen (Feeds Ids Inputs data) a c := by
  -- an induction on the path; the source of each edge is the node of an item
  induction h with
  | single hvw =>
    intro nc c hnc hc hcn hw
    subst hw
    obtain ⟨na, hna, rfl⟩ := List.mem_map.mp (mem_of_mem_depsAt (aliases_mem hF hI) hvw.2)
    obtain ⟨a, ha, han⟩ := exists_item hF hna
    exact ⟨a, ha, na, hna, han, rfl, .single ⟨ha, hc, (edge_iff hF hI hna hnc han hcn).mp hvw⟩⟩
  | tail _ huw ih =>
    intro nc c hnc hc hcn hw
    subst hw
    obtain ⟨nb, hnb, rfl⟩ := List.mem_map.mp (mem_of_mem_depsAt (aliases_mem hF hI) huw.2)
    obtain ⟨b, hb, hbn⟩ := exists_item hF hnb
    obtain ⟨a, ha, na, hna, han, hv, hab⟩ := ih hnb hb hbn rfl
    exact ⟨a, ha, na, hna, han, hv, .tail hab ⟨hb, hc, (edge_iff hF hI hnb hnc hbn hcn).mp huw⟩⟩

/-- The nodes have a cycle exactly when the items do. -/
theorem cycle_iff (hF : List.Forall₂ (NodeOf Ids Inputs) data nodes) (hI : Items Ids data) :
    (∃ v ∈ nodes.map node.id, TransGen (Edge (nodes.map node.id) (depsAt (aliasMap nodes) nodes)) v v) ↔
      ∃ a, TransGen (Feeds Ids Inputs data) a a := by
  constructor
  · rintro ⟨v, hv, hcyc⟩
    obtain ⟨nc, hnc, rfl⟩ := List.mem_map.mp hv
    obtain ⟨c, hc, hcn⟩ := exists_item hF hnc
    obtain ⟨a, ha, na, -, han, hid, hac⟩ := feeds_of_transGen_edge hF hI hcyc hnc hc hcn rfl
    -- the path starts at the item owning the id of `c`'s node, which is `c`
    obtain rfl : a = c := item_eq_of_mem hI.disjoint ha hc (hid ▸ han.id_mem) hcn.id_mem
    exact ⟨a, hac⟩
  · rintro ⟨a, hcyc⟩
    obtain ⟨b, hab, -⟩ := TransGen.head'_iff.mp hcyc
    obtain ⟨na, hna, ha⟩ := exists_nodeOf hF hab.1
    exact ⟨na.id, List.mem_map_of_mem hna, transGen_edge_of_feeds hF hI hcyc hna hna ha ha⟩

end Items

/-! ## The order applied to the data -/

/-- The value `TopoSort` sorts the item `d` by: the index `idx` gives the id of its node. -/
def rank (idx : List (ι × ℕ)) (d : α) : ℕ := ((Ids d).head?.bind fun x => AssocList.find? x idx).getD 0

section Order

theorem find?_zipIdx (S : List (node ι)) (i : ℕ) {x : ι} (hx : x ∈ S.map node.id) :
    AssocList.find? x ((S.zipIdx i).map fun e => (e.1.id, e.2)) = some (i + (S.map node.id).idxOf x) := by
  induction S generalizing i with
  | nil => cases hx
  | cons s S ih =>
    by_cases h : s.id = x
    · simp [AssocList.find?, h]
    · have hx' : x ∈ S.map node.id := by simpa [Ne.symm h] using hx
      simp only [List.zipIdx_cons, List.map_cons, AssocList.find?, if_neg h, ih (i + 1) hx', List.idxOf_cons,
        beq_false_of_ne h, cond_false, Option.some.injEq]
      omega

/-- Nodes under distinct ids get their positions in the sorted list as `sortedIndex`. -/
theorem find?_sortedIndexes {S : List (node ι)} (hnd : (S.map node.id).Nodup) {x : ι} (hx : x ∈ S.map node.id) :
    AssocList.find? x (sortedIndexes S) = some ((S.map node.id).idxOf x) := by
  have hkeys : (S.zipIdx.map fun e => e.1.id) = S.map node.id := by
    rw [show (fun e : node ι × ℕ => e.1.id) = node.id ∘ Prod.fst from rfl, ← List.map_map, List.zipIdx_map_fst]
  have hidx : sortedIndexes S = S.zipIdx.map fun e => (e.1.id, e.2) :=
    (AssocList.foldl_insert_of_nodup (fun e : node ι × ℕ => e.1.id) Prod.snd S.zipIdx [] (by simpa [hkeys] using hnd)).trans
      (List.nil_append _)
  rw [hidx, find?_zipIdx S 0 hx, zero_add]

variable {Ids Inputs} {data : List α} {nodes : List (node ι)}

/-- The values `TopoSort` pairs the data with are the ranks of the items. -/
theorem zip_values (hF : List.Forall₂ (NodeOf Ids Inputs) data nodes) (idx : List (ι × ℕ)) :
    data.zip (nodes.map fun ele => (AssocList.find? ele.id idx).getD 0) = data.map fun d => (d, rank Ids idx d) := by
  induction hF with
  | nil => rfl
  | cons h _ ih => rw [List.map_cons, List.zip_cons_cons, ih, List.map_cons, rank, h.head_eq, Option.bind_some]

/-- Once `tpSort` has ordered the nodes, each item's rank is the position of its node. -/
theorem rank_eq {S : List (node ι)} (hperm : (S.map node.id).Perm (nodes.map node.id)) (hnd : (nodes.map node.id).Nodup) {a : α}
    {na : node ι} (hna : na ∈ nodes) (ha : NodeOf Ids Inputs a na) :
    rank Ids (sortedIndexes S) a = (S.map node.id).idxOf na.id := by
  rw [rank, ha.head_eq, Option.bind_some,
    find?_sortedIndexes (hperm.nodup_iff.mpr hnd) (hperm.mem_iff.mpr (List.mem_map_of_mem hna)), Option.getD_some]

end Order

/-- The nodes of the items, linked, go to `tpSort` as the graph `linked`. -/
theorem sortNodes_eq {data : List α} {nodes : List (node ι)} (hnodes : newNodes Ids Inputs 0 data = .ok nodes)
    (hF : List.Forall₂ (NodeOf Ids Inputs) data nodes) (hI : Items Ids data) :
    (do
      let unsorted ← newNodes Ids Inputs 0 data
      let m ← linkInputs (aliasMap unsorted) unsorted (unsortedMap unsorted)
      let sorted ← graph.tpSort (data.length + 1) ⟨[], m⟩
      pure (unsorted, sorted) : Except (TopoError ι) (List (node ι) × List (node ι))) =
      (graph.tpSort (data.length + 1) (linked (aliasMap nodes) nodes)).map fun sorted => (nodes, sorted) := by
  rw [hnodes]
  simp only [bind, Except.bind]
  rw [linkInputs_eq hF hI]
  dsimp only
  rw [show ({ sorted := [], unsorted := (linked (aliasMap nodes) nodes).unsorted } : graph ι) =
    linked (aliasMap nodes) nodes from rfl]
  cases graph.tpSort (data.length + 1) (linked (aliasMap nodes) nodes) <;> rfl

/-- `TopoSort` on items with an id each, no two sharing one: it ends, never panics, and either
fails with the cycle error, leaving the data as it was, on items whose dependencies have a cycle,
or succeeds on items whose dependencies have none, with the data permuted so that every item comes
after each item it depends on. -/
theorem TopoSort_correct {data : List α} (hI : Items Ids data) :
    (∃ ids, TopoSort Ids Inputs data = (data, some (.cycle ids)) ∧ ∃ a, TransGen (Feeds Ids Inputs data) a a) ∨
      (∃ r, TopoSort Ids Inputs data = (r, none) ∧ r.Perm data ∧
        (∀ i j (hi : i < r.length) (hj : j < r.length), Feeds Ids Inputs data r[i] r[j] → i < j) ∧
        ¬ ∃ a, TransGen (Feeds Ids Inputs data) a a) := by
  obtain ⟨nodes, hnodes, hF⟩ := @newNodes_ok α ι Ids Inputs data hI.ids_ne 0
  have hnd := nodup_ids hF hI.disjoint
  have hD := deps_linked hnd (aliases_mem hF hI)
  have hlen : (linked (aliasMap nodes) nodes).keys.length < data.length + 1 := by
    rw [keys_linked, List.length_map, ← hF.length_eq]
    exact Nat.lt_succ_self _
  rw [TopoSort, sortNodes_eq Ids Inputs hnodes hF hI]
  rcases (inv_linked hnd (aliases_mem hF hI)).tpSort hD (data.length + 1) hlen with ⟨S, hS, hperm, hord⟩ |
    ⟨ids, hS, hcyc⟩
  · -- the nodes are sorted: the data is sorted by the positions of its nodes
    rw [hS]
    dsimp only [Except.map]
    rw [zip_values hF]
    right
    have hrank : ∀ a ∈ data, ∃ na ∈ nodes, NodeOf Ids Inputs a na ∧
        rank Ids (sortedIndexes S) a = (S.map node.id).idxOf na.id := fun a ha => by
      obtain ⟨na, hna, h⟩ := exists_nodeOf hF ha
      exact ⟨na, hna, h, rank_eq hperm hnd hna h⟩
    have hlt : ∀ a b, Feeds Ids Inputs data a b → rank Ids (sortedIndexes S) a < rank Ids (sortedIndexes S) b := by
      intro a b hab
      obtain ⟨na, hna, ha, hra⟩ := hrank a hab.1
      obtain ⟨nb, hnb, hb, hrb⟩ := hrank b hab.2.1
      rw [hra, hrb]
      exact hord.idxOf_lt hD hperm ((edge_iff hF hI hna hnb ha hb).mpr hab.2.2)
    -- distinct items have nodes at distinct positions
    have hinj : (data.map (rank Ids (sortedIndexes S))).Nodup := by
      refine List.Nodup.map_on (fun a ha b hb hab => ?_) hI.nodup
      obtain ⟨na, hna, ha', hra⟩ := hrank a ha
      obtain ⟨nb, hnb, hb', hrb⟩ := hrank b hb
      rw [hra, hrb] at hab
      have hid : na.id = nb.id := (List.idxOf_inj (hperm.mem_iff.mpr (List.mem_map_of_mem hna))).mp hab
      exact item_eq_of_mem hI.disjoint ha hb ha'.id_mem (hid ▸ hb'.id_mem)
    obtain ⟨hp, hpw⟩ := sort_byValue (rank Ids (sortedIndexes S)) hinj
    exact ⟨_, rfl, hp, fun i j hi hj hij => lt_of_pairwise_rank _ hpw hi hj (hlt _ _ hij),
      fun hcyc => hcyc.elim fun a ha => not_transGen_self_of_rank _ hlt a ha⟩
  · rw [hS]
    left
    exact ⟨ids, rfl, (cycle_iff hF hI).mp hcyc⟩

/-- Two items under the ids `[2]` and `[1, 3]`, the first with the input `1`. -/
def twoItems : List (List ℕ × List ℕ) := [([2], [1]), ([1, 3], [])]

theorem TopoSort_correct_twoItems : Items Prod.fst twoItems ∧
    ((∃ ids, TopoSort Prod.fst Prod.snd twoItems = (twoItems, some (.cycle ids)) ∧
        ∃ a, TransGen (Feeds Prod.fst Prod.snd twoItems) a a) ∨
      (∃ r, TopoSort Prod.fst Prod.snd twoItems = (r, none) ∧ r.Perm twoItems ∧
        (∀ i j (hi : i < r.length) (hj : j < r.length), Feeds Prod.fst Prod.snd twoItems r[i] r[j] → i < j) ∧
        ¬ ∃ a, TransGen (Feeds Prod.fst Prod.snd twoItems) a a)) :=
  ⟨⟨by decide, by simp [twoItems]⟩, TopoSort_correct Prod.fst Prod.snd ⟨by decide, by simp [twoItems]⟩⟩

end Vite.Toposort
