import Vite.Consensus.Schedule
import Vite.Lib.AssocList
import Vite.Lib.GoSort.Sorted
import Mathlib.Data.Prod.Lex
import Mathlib.Data.String.Basic

/-!
# Electing the producers of a round

`calVotes` (consensus_snapshot.go) turns the candidates' votes into the producers of a round:
`FilterVotes` (core/vote_algo.go) keeps `NodeCount` of them, the best by balance with up to two
exchanged for better success rates and some replaced at random from the ranks below, and
`ShuffleVotes` orders them at random. `math/rand` enters through `Perm seed n`, the permutation a
source seeded with `seed` draws.

Every step that could see the order of the votes reads them sorted by `ByBalance`, a strict
total order once names are distinct, so the producers depend only on the set of votes.
-/

namespace Vite.Consensus

open GoSort

/-- `core.Vote`, without the `Type` tags the promotions append for the logs. -/
structure Vote where
  Name : String
  Addr : Address
  Balance : ℤ
  deriving DecidableEq, Repr

/-- `ByBalance.Less(i, j)`: the larger balance first, then the smaller name. -/
def ByBalance.Less (a b : Vote) : Bool :=
  let r := compare b.Balance a.Balance
  if r = .eq then decide (a.Name < b.Name) else r == .lt

/-- `sort.Sort(ByBalance(votes))`. -/
def sortByBalance (votes : List Vote) : List Vote := sort ByBalance.Less votes

/-- An int32 result. -/
def int32 (x : ℤ) : ℤ := x.bmod (2 ^ 32)

structure SuccessRateVote where
  Vote : Vote
  Rate : ℤ
  deriving DecidableEq, Repr

/-- `BySuccessRate.Less(i, j)`: the higher rate first (an int32 difference), then the larger
balance, then the smaller name. -/
def BySuccessRate.Less (a b : SuccessRateVote) : Bool :=
  let r0 := int32 (b.Rate - a.Rate)
  if r0 = 0 then
    let r := compare b.Vote.Balance a.Vote.Balance
    if r = .eq then decide (a.Vote.Name < b.Vote.Name) else r == .lt
  else decide (r0 < 0)

def Line : ℤ := 800000

def obsoletedNum : ℕ := 2

/-- The fields of `core.GroupInfo` the algorithm reads; `seed` is the group id as a number. -/
structure algo where
  NodeCount : ℕ
  RandCount : ℕ
  RandRank : ℕ
  seed : ℤ
  deriving DecidableEq, Repr

/-- `VoteAlgoContext`: the votes, the height of the proof block, the success rates by address
(an empty map where the caller has none) and the seed of the snapshot chain. -/
structure VoteAlgoContext where
  votes : List Vote
  height : ℕ
  successRate : List (Address × ℤ)
  seeds : ℕ

/-- `big.Int.Int64`: the low 64 bits of the magnitude, as an int64, negated for a negative
number. -/
def bigInt64 (x : ℤ) : ℤ :=
  let v := int64 (x.natAbs % 2 ^ 64)
  if x < 0 then int64 (-v) else v

/-- `Perm(n)[0:k]`: a prefix of a slice, which panics past its end. -/
def slicePrefix (l : List ℕ) (k : ℕ) : Option (List ℕ) :=
  if k ≤ l.length then some (l.take k) else none

/-- A loop appending `l[v]` for each `v` of `idx`, which panics on an index out of range. -/
def pick {α : Type*} (l : List α) (idx : List ℕ) : Option (List α) := idx.mapM (l[·]?)

namespace algo

variable (self : algo) (Perm : ℤ → ℕ → List ℕ)

/-- `findSeed`: the balances (while the snapshot chain has no seed), or the chain's seed, plus the
height and the group's seed. -/
def findSeed (votes : List Vote) (sheight seeds : ℕ) : ℤ :=
  if seeds = 0 then bigInt64 ((votes.map (·.Balance)).sum + sheight + self.seed)
  else bigInt64 (seeds + sheight + self.seed)

def ShuffleVotes (votes : List Vote) (height seeds : ℕ) : Option (List Vote) :=
  let seed := self.findSeed votes height seeds
  pick votes (Perm seed votes.length)

/-- `FilterSimple`: the first `NodeCount` votes, and the next ones up to rank `RandRank`. The
slice `groupA` is taken before `votes` is sorted in place, so it sees the sorted prefix. -/
def FilterSimple (votes : List Vote) : Option (List Vote × List Vote) :=
  if votes.length ≤ self.NodeCount then some (votes, [])
  else
    let sorted := sortByBalance votes
    if sorted.length ≤ self.RandRank then
      some (sorted.take self.NodeCount, sorted.drop self.NodeCount)
    -- `votes[NodeCount:RandRank]`
    else if self.NodeCount ≤ self.RandRank then
      some (sorted.take self.NodeCount, (sorted.take self.RandRank).drop self.NodeCount)
    else none

def calRandCnt (total randNum : ℕ) : ℕ := if randNum < total / 3 then randNum else total / 3

/-- The success rate of a vote, `-1` where the map has none. -/
def rateOf (successRate : List (Address × ℤ)) (v : Vote) : ℤ :=
  (AssocList.find? v.Addr successRate).getD (-1)

/-- The loop over the sorted group B: the first two above `Line` are the improvements. -/
def splitImprovement (acc : List SuccessRateVote × List SuccessRateVote) (v : SuccessRateVote) :
    List SuccessRateVote × List SuccessRateVote :=
  let (improvementGroupB, groupB1) := acc
  if obsoletedNum ≤ improvementGroupB.length then (improvementGroupB, groupB1 ++ [v])
  else if Line < v.Rate then (improvementGroupB ++ [v], groupB1)
  else (improvementGroupB, groupB1 ++ [v])

/-- The exchange loop from `i` on: the `i`-th last demoted vote of A and the `i`-th improvement of
B change places, while both have one. -/
def exchange : ℕ → ℕ → List SuccessRateVote → List SuccessRateVote →
    List SuccessRateVote × List SuccessRateVote
  | 0, _, deleteGroupA, improvementGroupB => (deleteGroupA, improvementGroupB)
  | fuel + 1, i, deleteGroupA, improvementGroupB =>
    let lenA := deleteGroupA.length
    if lenA < i ∨ improvementGroupB.length < i then (deleteGroupA, improvementGroupB)
    else
      match deleteGroupA[lenA - i]?, improvementGroupB[i - 1]? with
      | some demotion, some promotion =>
        exchange fuel (i + 1) (deleteGroupA.set (lenA - i) promotion)
          (improvementGroupB.set (i - 1) demotion)
      | _, _ => (deleteGroupA, improvementGroupB)

/-- `filterBySuccessRate`: of the two lowest rated of A, those with a rate in `[0, Line)` are
exchanged for the best rated of B above `Line`, at most two. -/
def filterBySuccessRate (groupA groupB : List Vote) (successRate : List (Address × ℤ)) :
    Option (List Vote × List Vote) :=
  if groupB = [] then some (groupA, groupB)
  else if successRate.length < obsoletedNum then some (groupA, groupB)
  else
    let successRateGroupA := sort BySuccessRate.Less (groupA.map fun v => ⟨v, rateOf successRate v⟩)
    -- `successRateGroupA[len - obsoletedNum:]`
    if successRateGroupA.length < obsoletedNum then none
    else
      let cut := successRateGroupA.length - obsoletedNum
      let tmps := successRateGroupA.drop cut
      let low (v : SuccessRateVote) : Bool := decide (0 ≤ v.Rate ∧ v.Rate < Line)
      let groupA1 := successRateGroupA.take cut ++ tmps.filter (fun v => !low v)
      let deleteGroupA := tmps.filter low
      let successRateGroupB :=
        sort BySuccessRate.Less (groupB.map fun v => ⟨v, rateOf successRate v⟩)
      let (improvementGroupB, groupB1) := successRateGroupB.foldl splitImprovement ([], [])
      let (deleteGroupA, improvementGroupB) :=
        exchange obsoletedNum 1 deleteGroupA improvementGroupB
      some ((groupA1 ++ deleteGroupA).map (·.Vote), (groupB1 ++ improvementGroupB).map (·.Vote))

/-- `filterRandV2`: `topTotal` of A and `randCnt` of B drawn by two permutations when B is large
enough, otherwise `NodeCount` drawn from A and B together by one. -/
def filterRandV2 (groupA groupB : List Vote) (height seeds : ℕ) : Option (List Vote) :=
  if groupB = [] then some groupA
  else
    let total := self.NodeCount
    let groupA := sortByBalance groupA
    let groupB := sortByBalance groupB
    let length := groupA.length + groupB.length
    let seed := self.findSeed (groupA ++ groupB) height seeds
    let randCnt := calRandCnt total self.RandCount
    let topTotal := total - randCnt
    if randCnt * total < topTotal * (length - total) then do
      let firstArr ← slicePrefix (Perm seed total) topTotal
      let secondArr ← slicePrefix (Perm (int64 (seed + 1)) (length - total)) randCnt
      let first ← pick groupA firstArr
      let second ← pick groupB secondArr
      return first ++ second
    else do
      let arr ← slicePrefix (Perm seed length) total
      arr.mapM fun v => if total ≤ v then groupB[v - total]? else groupA[v]?

def FilterVotes (context : VoteAlgoContext) : Option (List Vote) := do
  let (groupA, groupB) ← self.FilterSimple context.votes
  if groupB = [] then return sortByBalance groupA
  let (groupA, groupB) ← filterBySuccessRate groupA groupB context.successRate
  let votes ← self.filterRandV2 Perm groupA groupB context.height context.seeds
  return sortByBalance votes

/-- `calVotes` from the votes the chain counted: filtered, shuffled, as addresses. -/
def calVotes (votes : List Vote) (height : ℕ) (successRate : List (Address × ℤ)) (seeds : ℕ) :
    Option (List Address) := do
  let finalVotes ← self.FilterVotes Perm ⟨votes, height, successRate, seeds⟩
  let finalVotes ← self.ShuffleVotes Perm finalVotes height seeds
  return finalVotes.map (·.Addr)

end algo

/-- The order of `ByBalance`: by balance downwards, then by name. -/
def balanceKey (v : Vote) : ℤ ×ₗ String := toLex (-v.Balance, v.Name)

theorem ByBalance.Less_eq : ByBalance.Less = keyLess balanceKey := by
  funext a b
  unfold ByBalance.Less keyLess balanceKey
  rcases lt_trichotomy a.Balance b.Balance with h | h | h
  · have hc : compare b.Balance a.Balance = .gt := compare_gt_iff_gt.mpr h
    simp [hc, Prod.Lex.lt_iff]
    omega
  · simp [h, Prod.Lex.lt_iff]
  · have hc : compare b.Balance a.Balance = .lt := compare_lt_iff_lt.mpr h
    simp [hc, Prod.Lex.lt_iff]
    omega

section Pick

variable {α : Type*}

theorem pick_eq {l : List α} {idx : List ℕ} (h : ∀ i ∈ idx, i < l.length) :
    pick l idx = some (idx.filterMap (l[·]?)) := by
  induction idx with
  | nil => rfl
  | cons i idx ih =>
    have hil : i < l.length := h i (by simp)
    have hi : l[i]? = some l[i] := List.getElem?_eq_getElem hil
    have hrest := ih fun j hj => h j (by simp [hj])
    unfold pick at hrest ⊢
    simp [List.mapM_cons, hi, hrest]

theorem length_filterMap_getElem? {l : List α} {idx : List ℕ} (h : ∀ i ∈ idx, i < l.length) :
    (idx.filterMap (l[·]?)).length = idx.length := by
  induction idx with
  | nil => rfl
  | cons i idx ih =>
    have hil : i < l.length := h i (by simp)
    have hi : l[i]? = some l[i] := List.getElem?_eq_getElem hil
    simp [hi, ih fun j hj => h j (by simp [hj])]

theorem filterMap_range_getElem? (l : List α) : (List.range l.length).filterMap (l[·]?) = l := by
  induction l with
  | nil => rfl
  | cons a l ih =>
    rw [List.length_cons, List.range_succ_eq_map, List.filterMap_cons, List.filterMap_map]
    simpa using ih

theorem subperm_filterMap {β : Type*} {l₁ l₂ : List ℕ} (h : l₁.Subperm l₂) (f : ℕ → Option β) :
    (l₁.filterMap f).Subperm (l₂.filterMap f) := by
  obtain ⟨t, htp, hts⟩ := h
  exact ⟨t.filterMap f, htp.filterMap f, hts.filterMap f⟩

/-- Distinct indices pick distinct positions: the picked elements are a sub-multiset. -/
theorem pick_subperm {l : List α} {idx : List ℕ} (hnodup : idx.Nodup)
    (hlt : ∀ i ∈ idx, i < l.length) :
    ∃ r, pick l idx = some r ∧ r.Subperm l ∧ r.length = idx.length := by
  have hsub : idx.Subperm (List.range l.length) :=
    hnodup.subperm fun i hi => List.mem_range.mpr (hlt i hi)
  refine ⟨_, pick_eq hlt, ?_, length_filterMap_getElem? hlt⟩
  have := subperm_filterMap hsub (l[·]?)
  rwa [filterMap_range_getElem?] at this

theorem pick_perm {l : List α} {idx : List ℕ} (hp : idx.Perm (List.range l.length)) :
    ∃ r, pick l idx = some r ∧ r.Perm l := by
  have hlt : ∀ i ∈ idx, i < l.length := fun i hi => List.mem_range.mp (hp.subset hi)
  obtain ⟨r, hr, hsub, hlen⟩ := pick_subperm (hp.nodup_iff.mpr List.nodup_range) hlt
  refine ⟨r, hr, hsub.perm_of_length_le ?_⟩
  rw [hlen, hp.length_eq, List.length_range]

end Pick

section Order

variable {votes votes' : List Vote}

theorem balanceKey_nodup (h : (votes.map (·.Name)).Nodup) : (votes.map balanceKey).Nodup := by
  apply List.Nodup.of_map fun k => (ofLex k).2
  simpa [List.map_map, Function.comp_def, balanceKey] using h

theorem nodup_of_names (h : (votes.map (·.Name)).Nodup) : votes.Nodup := List.Nodup.of_map _ h

theorem sortByBalance_eq_of_perm (hp : votes.Perm votes') (h : (votes.map (·.Name)).Nodup) :
    sortByBalance votes = sortByBalance votes' := by
  unfold sortByBalance
  rw [ByBalance.Less_eq]
  exact sort_eq_of_perm hp (balanceKey_nodup h)

theorem sortByBalance_perm (votes : List Vote) : (sortByBalance votes).Perm votes :=
  sort_perm _ votes

/-- Votes of distinct names sort strictly by `ByBalance`. -/
theorem sortByBalance_sorted (h : (votes.map (·.Name)).Nodup) :
    (sortByBalance votes).Pairwise fun a b => ByBalance.Less a b = true := by
  unfold sortByBalance
  rw [ByBalance.Less_eq]
  refine (sort_keyLess_strict (balanceKey_nodup h)).imp ?_
  intro a b hab
  simpa [keyLess] using hab

end Order

section Swap

variable {α : Type*} [DecidableEq α]

/-- Two lists that trade one element each keep their elements together. -/
theorem perm_set_swap {d e : List α} {j k : ℕ} {x y : α} (hx : d[j]? = some x)
    (hy : e[k]? = some y) : (d.set j y ++ e.set k x).Perm (d ++ e) := by
  obtain ⟨hj, rfl⟩ := List.getElem?_eq_some_iff.mp hx
  obtain ⟨hk, rfl⟩ := List.getElem?_eq_some_iff.mp hy
  rw [List.perm_iff_count]
  intro c
  rw [List.count_append, List.count_append, List.count_set hj, List.count_set hk]
  have hd : d[j] = c → 0 < d.count c := fun h => List.count_pos_iff.mpr (h ▸ List.getElem_mem hj)
  have he : e[k] = c → 0 < e.count c := fun h => List.count_pos_iff.mpr (h ▸ List.getElem_mem hk)
  by_cases h1 : d[j] = c <;> by_cases h2 : e[k] = c
  · have := hd h1
    have := he h2
    simp only [h1, h2, beq_self_eq_true, ite_true]
    omega
  · have := hd h1
    simp only [h1, h2, beq_self_eq_true, ite_true, beq_iff_eq, ite_false]
    omega
  · have := he h2
    simp only [h1, h2, beq_self_eq_true, ite_true, beq_iff_eq, ite_false]
    omega
  · simp only [h1, h2, beq_iff_eq, ite_false]
    omega

end Swap

namespace algo

/-- The exchange trades elements between the two groups, one for one. -/
theorem exchange_perm (fuel i : ℕ) (d imp : List SuccessRateVote) :
    ((exchange fuel i d imp).1 ++ (exchange fuel i d imp).2).Perm (d ++ imp) ∧
      (exchange fuel i d imp).1.length = d.length := by
  induction fuel generalizing i d imp with
  | zero => exact ⟨List.Perm.refl _, rfl⟩
  | succ fuel ih =>
    unfold exchange
    dsimp only
    split_ifs with hstop
    · exact ⟨List.Perm.refl _, rfl⟩
    · split
      · rename_i demotion promotion hdem hpro
        obtain ⟨hp, hl⟩ := ih (i + 1) (d.set (d.length - i) promotion) (imp.set (i - 1) demotion)
        exact ⟨hp.trans (perm_set_swap hdem hpro), hl.trans (List.length_set ..)⟩
      · exact ⟨List.Perm.refl _, rfl⟩

theorem splitImprovement_perm (acc : List SuccessRateVote × List SuccessRateVote)
    (v : SuccessRateVote) :
    ((splitImprovement acc v).1 ++ (splitImprovement acc v).2).Perm (acc.1 ++ acc.2 ++ [v]) := by
  obtain ⟨imp, b1⟩ := acc
  unfold splitImprovement
  by_cases hfull : obsoletedNum ≤ imp.length
  · simp [hfull]
  · by_cases hline : Line < v.Rate
    · have hcomm : ([v] ++ b1).Perm (b1 ++ [v]) := List.perm_append_comm
      simpa [hfull, hline] using hcomm.append_left imp
    · simp [hfull, hline]

theorem foldl_splitImprovement_perm (l : List SuccessRateVote)
    (acc : List SuccessRateVote × List SuccessRateVote) :
    ((l.foldl splitImprovement acc).1 ++ (l.foldl splitImprovement acc).2).Perm
      (acc.1 ++ acc.2 ++ l) := by
  induction l generalizing acc with
  | nil => simp
  | cons v l ih =>
    rw [List.foldl_cons]
    refine (ih _).trans ?_
    have := (splitImprovement_perm acc v).append_right l
    simpa using this

/-- `filterBySuccessRate` only moves votes between the groups, and keeps the size of A. -/
theorem filterBySuccessRate_perm {groupA groupB : List Vote} (successRate : List (Address × ℤ))
    (hA : obsoletedNum ≤ groupA.length) :
    ∃ A' B', filterBySuccessRate groupA groupB successRate = some (A', B') ∧
      (A' ++ B').Perm (groupA ++ groupB) ∧ A'.length = groupA.length := by
  unfold filterBySuccessRate
  by_cases hB : groupB = []
  · rw [if_pos hB]
    exact ⟨_, _, rfl, List.Perm.refl _, rfl⟩
  rw [if_neg hB]
  by_cases hrate : successRate.length < obsoletedNum
  · rw [if_pos hrate]
    exact ⟨_, _, rfl, List.Perm.refl _, rfl⟩
  rw [if_neg hrate]
  dsimp only
  have hsrA := sort_perm BySuccessRate.Less (groupA.map fun v => ⟨v, rateOf successRate v⟩)
  have hlen := hsrA.length_eq
  rw [List.length_map] at hlen
  rw [if_neg (by omega)]
  generalize sort BySuccessRate.Less (groupA.map fun v => ⟨v, rateOf successRate v⟩) = srA
    at hsrA hlen ⊢
  generalize hsrB : sort BySuccessRate.Less (groupB.map fun v => ⟨v, rateOf successRate v⟩) = srB
  have hfold := foldl_splitImprovement_perm srB ([], [])
  rcases hf : srB.foldl splitImprovement ([], []) with ⟨imp, gB1⟩
  rw [hf] at hfold
  generalize htmps : srA.drop (srA.length - obsoletedNum) = tmps
  obtain ⟨hx, hxlen⟩ := exchange_perm obsoletedNum 1
    (tmps.filter fun v => decide (0 ≤ v.Rate ∧ v.Rate < Line)) imp
  generalize exchange obsoletedNum 1 (tmps.filter fun v => decide (0 ≤ v.Rate ∧ v.Rate < Line))
    imp = x at hx hxlen
  obtain ⟨d', imp'⟩ := x
  have hsplit : ((tmps.filter fun v => decide (0 ≤ v.Rate ∧ v.Rate < Line)) ++
      tmps.filter fun v => !decide (0 ≤ v.Rate ∧ v.Rate < Line)).Perm tmps :=
    List.filter_append_perm _ _
  dsimp only at hx hxlen ⊢
  refine ⟨_, _, rfl, ?_, ?_⟩
  · -- the votes moved are those of the sorted groups, whose votes are A's and B's
    have hcore : (srA.take (srA.length - obsoletedNum) ++
        tmps.filter (fun v => !decide (0 ≤ v.Rate ∧ v.Rate < Line)) ++ d' ++ (gB1 ++ imp')).Perm
        (srA ++ srB) := by
      rw [List.perm_iff_count]
      intro c
      have h1 := hx.count_eq c
      have h2 := hfold.count_eq c
      have h3 := hsplit.count_eq c
      have h4 := congrArg (List.count c) (List.take_append_drop (srA.length - obsoletedNum) srA)
      rw [htmps] at h4
      simp only [List.count_append, List.append_nil, List.nil_append] at h1 h2 h3 h4 ⊢
      omega
    rw [← List.map_append]
    refine (hcore.map _).trans ?_
    rw [List.map_append]
    have hA' : (srA.map (·.Vote)).Perm groupA := by
      simpa [Function.comp_def] using hsrA.map (·.Vote)
    have hB' : (srB.map (·.Vote)).Perm groupB := by
      rw [← hsrB]
      simpa [Function.comp_def] using
        (sort_perm BySuccessRate.Less (groupB.map fun v => ⟨v, rateOf successRate v⟩)).map (·.Vote)
    exact hA'.append hB'
  · have h3 := hsplit.length_eq
    have h4 := congrArg List.length htmps
    simp only [List.length_map, List.length_append, List.length_take, List.length_drop] at h3 h4 ⊢
    omega

theorem calRandCnt_le (total randNum : ℕ) : calRandCnt total randNum ≤ total / 3 := by
  unfold calRandCnt
  split_ifs with h <;> omega

theorem slicePrefix_of_le {l : List ℕ} {k : ℕ} (h : k ≤ l.length) :
    slicePrefix l k = some (l.take k) := if_pos h

/-- A prefix of a permutation of `[0, n)`: distinct indices below `n`. -/
theorem take_perm_range {l : List ℕ} {n k : ℕ} (hp : l.Perm (List.range n)) (hk : k ≤ n) :
    (l.take k).Nodup ∧ (∀ i ∈ l.take k, i < n) ∧ (l.take k).length = k ∧ k ≤ l.length := by
  have hlen : l.length = n := by rw [hp.length_eq, List.length_range]
  refine ⟨(hp.nodup_iff.mpr List.nodup_range).sublist (List.take_sublist k l), ?_, ?_, by omega⟩
  · intro i hi
    exact List.mem_range.mp (hp.subset (List.mem_of_mem_take hi))
  · rw [List.length_take, hlen]
    omega

variable (self : algo) (Perm : ℤ → ℕ → List ℕ)

/-- `filterRandV2` draws `NodeCount` distinct votes of the two groups. -/
theorem filterRandV2_subperm (hperm : ∀ s n, (Perm s n).Perm (List.range n))
    {groupA groupB : List Vote} (hA : groupA.length = self.NodeCount) (height seeds : ℕ) :
    ∃ r, self.filterRandV2 Perm groupA groupB height seeds = some r ∧
      r.Subperm (groupA ++ groupB) ∧ r.length = self.NodeCount := by
  unfold filterRandV2
  by_cases hB : groupB = []
  · rw [if_pos hB]
    exact ⟨groupA, rfl, (List.sublist_append_left _ _).subperm, hA⟩
  rw [if_neg hB]
  dsimp only
  have hsA := sortByBalance_perm groupA
  have hsB := sortByBalance_perm groupB
  have hlenA : (sortByBalance groupA).length = self.NodeCount := hsA.length_eq.trans hA
  have hlenB : 0 < (sortByBalance groupB).length := by
    rw [hsB.length_eq]
    exact List.length_pos_iff.mpr hB
  have hAB : (sortByBalance groupA ++ sortByBalance groupB).Perm (groupA ++ groupB) :=
    hsA.append hsB
  generalize sortByBalance groupA = sA at hlenA hAB
  generalize sortByBalance groupB = sB at hlenB hAB
  have hrc := calRandCnt_le self.NodeCount self.RandCount
  generalize calRandCnt self.NodeCount self.RandCount = randCnt at hrc
  generalize self.findSeed (sA ++ sB) height seeds = seed
  rw [hlenA]
  by_cases hbig : randCnt * self.NodeCount < (self.NodeCount - randCnt) * (self.NodeCount + sB.length - self.NodeCount)
  · rw [if_pos hbig]
    simp only [Nat.add_sub_cancel_left] at hbig ⊢
    -- enough of B for the random draws
    have hrcB : randCnt ≤ sB.length := by
      by_contra hlt
      have h1 : (self.NodeCount - randCnt) * sB.length ≤ self.NodeCount * sB.length :=
        Nat.mul_le_mul_right _ (Nat.sub_le _ _)
      have h2 : self.NodeCount * sB.length ≤ self.NodeCount * randCnt :=
        Nat.mul_le_mul_left _ (by omega)
      rw [Nat.mul_comm randCnt] at hbig
      omega
    obtain ⟨hn1, hlt1, hl1, hk1⟩ := take_perm_range (hperm seed self.NodeCount)
      (Nat.sub_le self.NodeCount randCnt)
    obtain ⟨hn2, hlt2, hl2, hk2⟩ := take_perm_range (hperm (int64 (seed + 1)) sB.length) hrcB
    obtain ⟨first, hfirst, hsub1, hlen1⟩ := pick_subperm hn1 fun i hi => hlenA ▸ hlt1 i hi
    obtain ⟨second, hsecond, hsub2, hlen2⟩ := pick_subperm hn2 hlt2
    refine ⟨first ++ second, ?_, (hsub1.append hsub2).trans hAB.subperm, ?_⟩
    · simp [slicePrefix_of_le hk1, slicePrefix_of_le hk2, hfirst, hsecond]
    · rw [List.length_append, hlen1, hl1, hlen2, hl2]
      omega
  · rw [if_neg hbig]
    obtain ⟨hn, hlt, hl, hk⟩ := take_perm_range (hperm seed (self.NodeCount + sB.length))
      (Nat.le_add_right _ _)
    -- one draw over A then B: the index past `NodeCount` reads B
    have hget : (fun v => if self.NodeCount ≤ v then sB[v - self.NodeCount]? else sA[v]?) =
        fun v => (sA ++ sB)[v]? := by
      funext v
      rw [List.getElem?_append, hlenA]
      split_ifs <;> first | rfl | omega
    have hlt' : ∀ i ∈ (Perm seed (self.NodeCount + sB.length)).take self.NodeCount,
        i < (sA ++ sB).length := by
      intro i hi
      rw [List.length_append, hlenA]
      exact hlt i hi
    obtain ⟨r, hr, hsub, hlen⟩ := pick_subperm hn hlt'
    refine ⟨r, ?_, hsub.trans hAB.subperm, hlen.trans hl⟩
    rw [hget]
    simp only [slicePrefix_of_le hk, Option.bind_eq_bind, Option.bind_some]
    exact hr

/-- Past `NodeCount` votes, `FilterSimple` splits a prefix of the sorted votes after `NodeCount`. -/
theorem FilterSimple_of_lt {votes : List Vote} (hlt : self.NodeCount < votes.length)
    (hrr : self.NodeCount ≤ self.RandRank) :
    ∃ A B, self.FilterSimple votes = some (A, B) ∧ A.length = self.NodeCount ∧
      (A ++ B).Sublist (sortByBalance votes) := by
  unfold FilterSimple
  rw [if_neg (by omega)]
  dsimp only
  have hl := (sortByBalance_perm votes).length_eq
  generalize sortByBalance votes = sorted at hl
  by_cases hs : sorted.length ≤ self.RandRank
  · rw [if_pos hs]
    refine ⟨_, _, rfl, ?_, ?_⟩
    · rw [List.length_take]
      omega
    · rw [List.take_append_drop]
  · rw [if_neg hs, if_pos hrr]
    refine ⟨_, _, rfl, ?_, ?_⟩
    · rw [List.length_take]
      omega
    · -- the first `NodeCount` are also the first of the first `RandRank`
      have htake : sorted.take self.NodeCount = (sorted.take self.RandRank).take self.NodeCount := by
        rw [List.take_take, min_eq_left hrr]
      rw [htake, List.take_append_drop]
      exact List.take_sublist _ _

/-- `FilterVotes` sorts `min(len(votes), NodeCount)` distinct votes of the input. -/
theorem FilterVotes_spec (hperm : ∀ s n, (Perm s n).Perm (List.range n))
    (hnc : obsoletedNum ≤ self.NodeCount) (hrr : self.NodeCount ≤ self.RandRank)
    (context : VoteAlgoContext) :
    ∃ x, self.FilterVotes Perm context = some (sortByBalance x) ∧
      x.length = min context.votes.length self.NodeCount ∧ x.Subperm context.votes := by
  obtain ⟨votes, height, successRate, seeds⟩ := context
  dsimp only
  by_cases hle : votes.length ≤ self.NodeCount
  · refine ⟨votes, ?_, (min_eq_left hle).symm, List.Subperm.refl _⟩
    simp [FilterVotes, FilterSimple, hle]
  have hlt : self.NodeCount < votes.length := by omega
  obtain ⟨A, B, hfs, hA, hsub⟩ := self.FilterSimple_of_lt hlt hrr
  have hsub' : (A ++ B).Subperm votes := hsub.subperm.trans (sortByBalance_perm votes).subperm
  by_cases hB : B = []
  · refine ⟨A, ?_, by omega, ?_⟩
    · simp [FilterVotes, hfs, hB]
    · simpa [hB] using hsub'
  obtain ⟨A', B', hf, hp, hlA⟩ := filterBySuccessRate_perm successRate (hA ▸ hnc : obsoletedNum ≤ A.length)
  obtain ⟨r, hr, hsubr, hlr⟩ := self.filterRandV2_subperm Perm hperm (hlA.trans hA) height seeds
  refine ⟨r, ?_, by omega, hsubr.trans (hp.subperm.trans hsub')⟩
  simp [FilterVotes, hfs, hB, hf, hr]

/-- Only the sorted votes reach the algorithm: votes with distinct names filter alike in any
order. -/
theorem FilterVotes_eq_of_perm {votes votes' : List Vote} (hp : votes.Perm votes')
    (h : (votes.map (·.Name)).Nodup) (height : ℕ) (successRate : List (Address × ℤ))
    (seeds : ℕ) :
    self.FilterVotes Perm ⟨votes, height, successRate, seeds⟩ =
      self.FilterVotes Perm ⟨votes', height, successRate, seeds⟩ := by
  have hs := sortByBalance_eq_of_perm hp h
  unfold FilterVotes FilterSimple
  dsimp only
  rw [hs, hp.length_eq]
  by_cases hle : votes'.length ≤ self.NodeCount
  · simp [hle, hs]
  · simp only [hle, if_false]

theorem ShuffleVotes_perm (hperm : ∀ s n, (Perm s n).Perm (List.range n)) (votes : List Vote)
    (height seeds : ℕ) : ∃ r, self.ShuffleVotes Perm votes height seeds = some r ∧ r.Perm votes :=
  pick_perm (hperm _ _)

theorem calVotes_eq_of_perm {votes votes' : List Vote} (hp : votes.Perm votes')
    (h : (votes.map (·.Name)).Nodup) (height : ℕ) (successRate : List (Address × ℤ))
    (seeds : ℕ) :
    self.calVotes Perm votes height successRate seeds =
      self.calVotes Perm votes' height successRate seeds := by
  unfold calVotes
  rw [self.FilterVotes_eq_of_perm Perm hp h]

/-- The election is well formed and does not depend on the order of the votes. -/
theorem election_spec (hperm : ∀ s n, (Perm s n).Perm (List.range n))
    (hnc : 2 ≤ self.NodeCount) (hrr : self.NodeCount ≤ self.RandRank) :
    (∀ context : VoteAlgoContext, (context.votes.map (·.Name)).Nodup →
      ∃ r, self.FilterVotes Perm context = some r ∧
        r.length = min context.votes.length self.NodeCount ∧ r.Nodup ∧
        (∀ v ∈ r, v ∈ context.votes) ∧ r.Pairwise (fun a b => ByBalance.Less a b = true)) ∧
    (∀ votes height seeds, ∃ r, self.ShuffleVotes Perm votes height seeds = some r ∧
      r.Perm votes) ∧
    (∀ votes votes' height successRate seeds, (votes.map (·.Name)).Nodup → votes.Perm votes' →
      self.calVotes Perm votes height successRate seeds =
        self.calVotes Perm votes' height successRate seeds) := by
  refine ⟨?_, self.ShuffleVotes_perm Perm hperm, ?_⟩
  · intro context h
    obtain ⟨x, hx, hlen, hsub⟩ := self.FilterVotes_spec Perm hperm hnc hrr context
    have hxs := sortByBalance_perm x
    -- the names of a sub-multiset of the votes stay distinct
    have hnames : (x.map (·.Name)).Nodup := by
      obtain ⟨t, htp, hts⟩ := hsub
      exact (htp.map _).nodup_iff.mp ((hts.map _).nodup h)
    refine ⟨sortByBalance x, hx, hxs.length_eq.trans hlen, ?_, ?_, sortByBalance_sorted hnames⟩
    · exact hxs.nodup_iff.mpr (nodup_of_names hnames)
    · intro v hv
      exact hsub.subset (hxs.subset hv)
  · intro votes votes' height successRate seeds h hp
    exact self.calVotes_eq_of_perm Perm hp h height successRate seeds

/-- Four votes, the two with the most balance rated below `Line` and the other two above it: the
two better rated take their places, in whatever order the votes come. -/
theorem election_exchanges_low_rated :
    (⟨2, 0, 4, 0⟩ : algo).FilterVotes (fun _ n => List.range n)
        ⟨[⟨"a", [1], 10⟩, ⟨"b", [2], 9⟩, ⟨"c", [3], 8⟩, ⟨"d", [4], 7⟩], 0,
          [([1], 100), ([2], 100), ([3], 900000), ([4], 900000)], 0⟩ =
      some [⟨"c", [3], 8⟩, ⟨"d", [4], 7⟩] ∧
    (⟨2, 0, 4, 0⟩ : algo).calVotes (fun _ n => List.range n)
        [⟨"a", [1], 10⟩, ⟨"b", [2], 9⟩, ⟨"c", [3], 8⟩, ⟨"d", [4], 7⟩] 0
        [([1], 100), ([2], 100), ([3], 900000), ([4], 900000)] 0 =
      (⟨2, 0, 4, 0⟩ : algo).calVotes (fun _ n => List.range n)
        [⟨"d", [4], 7⟩, ⟨"c", [3], 8⟩, ⟨"b", [2], 9⟩, ⟨"a", [1], 10⟩] 0
        [([1], 100), ([2], 100), ([3], 900000), ([4], 900000)] 0 :=
  ⟨by decide, (election_spec ⟨2, 0, 4, 0⟩ (fun _ n => List.range n) (fun _ _ => List.Perm.refl _)
    (by decide) (by decide)).2.2 _ _ 0 _ 0 (by decide) (by decide)⟩

end algo

end Vite.Consensus
