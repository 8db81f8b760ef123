import Mathlib.Logic.Relation
import Vite.Lib.AssocList
import Vite.Lib.BigEndian
import Vite.Lib.ExceptRun
import Vite.Lib.SortedScan

/-!
# The contract onroad pool (ledger/onroad/pool)

`contractOnRoadPool` keeps, for each contract and each caller, the caller's sends to the contract
that are not yet received, as a list sorted by the order in which the contract must receive them
(`orHashHeight`: by height and, for a contract caller, by the sub index in the receive block
that made the send). `IsFrontOnRoadOfCaller` checks that a send is the first of its list.

Writing account blocks (`InsertAccountBlocks`) inserts a send walking the list from the back
(`addTx` with `isWrite`) and removes a received send from the front (`rmTx` with `isWrite`);
rolling blocks back (`DeleteAccountBlocks`) removes a send found from the back and puts a
received send back walking from the front. The model is the pool under any sequence of these
calls that succeed (`Step`), every inserted send being the one the chain records for its hash.

Every reachable pool keeps each list sorted and free of duplicate hashes, so that
`IsFrontOnRoadOfCaller` holds exactly of the earliest send (`reachable_sorted`,
`IsFrontOnRoadOfCaller_iff`). The two walks of `addTx` agree (`addTx_write_agrees`, from the
general walks of `Vite.Lib.SortedScan`), and each rollback undoes the write it rolls back
(`insert_then_delete_restores`, `delete_then_insert_restores`).
-/

namespace Vite.Onroad

/-- `orHashHeight`: a send by its hash, the height that orders it (the send's own for a user
caller, the height of the receive that made it for a contract caller) and, for a contract caller,
its index in that receive's send list. -/
structure orHashHeight (H : Type) where
  Hash : H
  Height : ℕ
  SubIndex : Option UInt8
  deriving DecidableEq, Repr

variable {H A : Type}

/-- How `addTx` places a send `y` of the list against the new one `or`: by height, and at one
height by sub index, which only a contract caller's sends both carrying one can tell apart. -/
def order (isCallerContract : Bool) (y or : orHashHeight H) : Except String Ordering :=
  if y.Height < or.Height then .ok .lt
  else if y.Height > or.Height then .ok .gt
  else
    match isCallerContract, y.SubIndex, or.SubIndex with
    | true, some a, some b => .ok (compare a b)
    | _, _, _ => .error "addTx failed, hash conflict at the same height"

/-- The order a caller's list is kept in. -/
def Before (isCallerContract : Bool) (a b : orHashHeight H) : Prop :=
  a.Height < b.Height ∨ a.Height = b.Height ∧ isCallerContract = true ∧
    match a.SubIndex, b.SubIndex with
    | some x, some y => x < y
    | _, _ => False

section Order

variable {c : Bool} {a b d : orHashHeight H}

private theorem compare_uInt8_eq_lt (x y : UInt8) : compare x y = .lt ↔ x < y := by
  rw [BigEndian.compare_uInt8, Nat.compare_eq_lt, UInt8.lt_iff_toNat_lt]

private theorem compare_uInt8_eq_gt (x y : UInt8) : compare x y = .gt ↔ y < x := by
  rw [BigEndian.compare_uInt8, Nat.compare_eq_gt, UInt8.lt_iff_toNat_lt]

theorem order_eq_lt_iff : order c a b = .ok .lt ↔ Before c a b := by
  unfold order Before
  by_cases hlt : a.Height < b.Height
  · simp [hlt]
  by_cases hgt : a.Height > b.Height
  · have hne : a.Height ≠ b.Height := Nat.ne_of_gt hgt
    simp [hlt, hgt, hne]
  have heq : a.Height = b.Height := by omega
  simp only [heq, lt_irrefl, true_and, false_or]
  rcases c <;> rcases a.SubIndex with _ | x <;> rcases b.SubIndex with _ | y <;>
    simp [compare_uInt8_eq_lt]

theorem order_eq_gt_iff : order c a b = .ok .gt ↔ Before c b a := by
  unfold order Before
  by_cases hlt : a.Height < b.Height
  · have hne : b.Height ≠ a.Height := Nat.ne_of_gt hlt
    simp [hlt, Nat.lt_asymm hlt, hne]
  by_cases hgt : a.Height > b.Height
  · simp [hgt, hgt.le]
  have heq : a.Height = b.Height := by omega
  simp only [heq, lt_irrefl, true_and, false_or]
  rcases c <;> rcases a.SubIndex with _ | x <;> rcases b.SubIndex with _ | y <;>
    simp [compare_uInt8_eq_gt]

theorem Before.irrefl (a : orHashHeight H) : ¬ Before c a a := by
  unfold Before
  rintro (h | ⟨-, -, h⟩)
  · exact lt_irrefl _ h
  · rcases ha : a.SubIndex with _ | x <;> simp only [ha] at h
    exact Nat.lt_irrefl _ (UInt8.lt_iff_toNat_lt.mp h)

theorem Before.trans (hab : Before c a b) (hbd : Before c b d) : Before c a d := by
  unfold Before at *
  rcases hab with hab | ⟨hab, hc, hs⟩ <;> rcases hbd with hbd | ⟨hbd, -, hs'⟩
  · exact .inl (hab.trans hbd)
  · exact .inl (hbd ▸ hab)
  · exact .inl (hab ▸ hbd)
  · refine .inr ⟨hab.trans hbd, hc, ?_⟩
    rcases ha : a.SubIndex with _ | x <;> rcases hb : b.SubIndex with _ | y <;>
      rcases hd : d.SubIndex with _ | z <;> simp only [ha, hb, hd] at hs hs' ⊢
    exact UInt8.lt_iff_toNat_lt.mpr (Nat.lt_trans (UInt8.lt_iff_toNat_lt.mp hs) (UInt8.lt_iff_toNat_lt.mp hs'))

end Order

variable [DecidableEq H] [DecidableEq A]

/-- The body of the loop of `addTx`: a send with the new one's hash is a duplicate, any other is
placed by `order`. -/
def addPlace (isCallerContract : Bool) (or y : orHashHeight H) : Except String Ordering :=
  if y.Hash ≠ or.Hash then order isCallerContract y or else .error "addTx failed, duplicated"

/-- The loop of `addTx` over the list in the order it walks it. -/
def addScan (isCallerContract : Bool) (or : orHashHeight H) (pass : Ordering) :
    List (orHashHeight H) → Except String (List (orHashHeight H)) :=
  SortedScan.insert (addPlace isCallerContract or) "addTx failed, duplicated" pass or

/-- `callerCache`: each caller's list, front first. -/
structure callerCache (A H : Type) where
  cache : List (A × List (orHashHeight H))

def NewCallerCache : callerCache A H := ⟨[]⟩

namespace callerCache

/-- The list of a caller; Go takes a missing list and an empty one alike. -/
def list (cc : callerCache A H) (caller : A) : List (orHashHeight H) :=
  (AssocList.find? caller cc.cache).getD []

def store (cc : callerCache A H) (caller : A) (l : List (orHashHeight H)) : callerCache A H :=
  ⟨AssocList.insert caller l cc.cache⟩

def getFrontTxByCaller (cc : callerCache A H) (caller : A) : Option (orHashHeight H) :=
  (cc.list caller).head?

def len (cc : callerCache A H) : ℕ :=
  AssocList.total (fun _ l => l.length) cc.cache

/-- `addTx`: a caller with no list gets one; otherwise the new send is walked in from the back
(`isWrite`) or from the front. -/
def addTx (cc : callerCache A H) (caller : A) (isCallerContract : Bool) (or : orHashHeight H)
    (isWrite : Bool) : Except String (callerCache A H) :=
  match cc.list caller with
  | [] => .ok (cc.store caller [or])
  | l@(_ :: _) =>
    if isWrite then (addScan isCallerContract or .gt l.reverse).map fun r => cc.store caller r.reverse
    else (addScan isCallerContract or .lt l).map fun r => cc.store caller r

/-- `rmTx`: a write removes the front, which must carry the hash; a rollback removes the last
send with the hash. -/
def rmTx (cc : callerCache A H) (caller : A) (_isCallerContract : Bool) (or : orHashHeight H)
    (isWrite : Bool) : Except String (callerCache A H) :=
  match cc.list caller with
  | [] => .error "rmTx failed, callerList is nil"
  | front :: rest =>
    if isWrite then
      if front.Hash ≠ or.Hash then .error "rmTx failed, write not at the most preferred"
      else .ok (cc.store caller rest)
    else if (front :: rest).any (·.Hash == or.Hash) then
      .ok (cc.store caller ((front :: rest).reverse.eraseP (·.Hash == or.Hash)).reverse)
    else .error "rmTx failed, can\x27t find the onroad"

omit [DecidableEq H] in
@[simp] theorem list_store (cc : callerCache A H) (caller caller' : A) (l : List (orHashHeight H)) :
    (cc.store caller l).list caller' = if caller' = caller then l else cc.list caller' := by
  unfold list store
  split_ifs with h
  · rw [h, AssocList.find?_insert_self]
    rfl
  · rw [AssocList.find?_insert_ne h]

omit [DecidableEq H] in
theorem list_NewCallerCache (caller : A) : (NewCallerCache : callerCache A H).list caller = [] := rfl

end callerCache

/-- `contractOnRoadPool`: a caller cache per contract. -/
structure contractOnRoadPool (A H : Type) where
  cache : List (A × callerCache A H)

namespace contractOnRoadPool

/-- The caller cache of a contract, a new one where there is none (`LoadOrStore`). -/
def callers (p : contractOnRoadPool A H) (orAddr : A) : callerCache A H :=
  (AssocList.find? orAddr p.cache).getD NewCallerCache

/-- The sends of a caller to a contract waiting for their receive. -/
def list (p : contractOnRoadPool A H) (orAddr caller : A) : List (orHashHeight H) :=
  (p.callers orAddr).list caller

variable (IsContractAddr : A → Bool)

def insertOnRoad (p : contractOnRoadPool A H) (orAddr caller : A) (or : orHashHeight H)
    (isWrite : Bool) : Except String (contractOnRoadPool A H) :=
  ((p.callers orAddr).addTx caller (IsContractAddr caller) or isWrite).map fun cc =>
    ⟨AssocList.insert orAddr cc p.cache⟩

def deleteOnRoad (p : contractOnRoadPool A H) (orAddr caller : A) (or : orHashHeight H)
    (isWrite : Bool) : Except String (contractOnRoadPool A H) :=
  match AssocList.find? orAddr p.cache with
  | none => .error "load callerCache failed"
  | some cc =>
    (cc.rmTx caller (IsContractAddr caller) or isWrite).map fun cc => ⟨AssocList.insert orAddr cc p.cache⟩

def IsFrontOnRoadOfCaller (p : contractOnRoadPool A H) (orAddr caller : A) (hash : H) :
    Except String Bool :=
  match AssocList.find? orAddr p.cache with
  | none => .error "load callerCache failed"
  | some cc =>
    match cc.getFrontTxByCaller caller with
    | some or =>
      if or.Hash ≠ hash then .error "onRoadPool check the Caller\x27s front onroad hash failed"
      else .ok true
    | none => .error "onRoadPool check the Caller\x27s front onroad hash failed"

def GetOnRoadTotalNumByAddr (p : contractOnRoadPool A H) (contract : A) : ℕ :=
  match AssocList.find? contract p.cache with
  | none => 0
  | some cc => cc.len

omit [DecidableEq H] in
theorem list_insert (p : contractOnRoadPool A H) (orAddr : A) (cc : callerCache A H) (orAddr' caller : A) :
    (⟨AssocList.insert orAddr cc p.cache⟩ : contractOnRoadPool A H).list orAddr' caller =
      if orAddr' = orAddr then cc.list caller else p.list orAddr' caller := by
  unfold list callers
  split_ifs with h
  · rw [h, AssocList.find?_insert_self]
    rfl
  · rw [AssocList.find?_insert_ne h]

end contractOnRoadPool

/-! ## One call -/

section Calls

variable {c : Bool} {or y : orHashHeight H}

theorem addPlace_eq_lt : addPlace c or y = .ok .lt ↔ y.Hash ≠ or.Hash ∧ Before c y or := by
  unfold addPlace
  by_cases h : y.Hash = or.Hash
  · simp [h]
  · simp [h, order_eq_lt_iff]

theorem addPlace_eq_gt : addPlace c or y = .ok .gt ↔ y.Hash ≠ or.Hash ∧ Before c or y := by
  unfold addPlace
  by_cases h : y.Hash = or.Hash
  · simp [h]
  · simp [h, order_eq_gt_iff]

namespace callerCache

variable {cc cc' : callerCache A H} {caller : A}

/-- `addTx` from the back puts the send after the send the walk stopped at, which lies before
it, and the walk has checked the hash of every send after it. -/
theorem addTx_write_eq_ok (h : cc.addTx caller c or true = .ok cc') :
    ∃ B F, cc.list caller = B ++ F ∧ cc' = cc.store caller (B ++ or :: F) ∧
      (∀ y ∈ B.getLast?, Before c y or) ∧ ∀ y ∈ F, y.Hash ≠ or.Hash ∧ Before c or y := by
  rcases hl : cc.list caller with _ | ⟨y₀, ys⟩
  · simp only [addTx, hl] at h
    cases h
    exact ⟨[], [], rfl, rfl, by simp, by simp⟩
  simp only [addTx, hl, ↓reduceIte] at h
  obtain ⟨r, hr, rfl⟩ := Except.map_eq_ok.mp h
  obtain ⟨P, Q, hPQ, rfl, hP, hQ⟩ := SortedScan.insert_eq_ok hr
  refine ⟨Q.reverse, P.reverse, ?_, by simp, fun y hy => ?_, fun y hy => addPlace_eq_gt.mp (hP y (List.mem_reverse.mp hy))⟩
  · rw [← List.reverse_reverse (y₀ :: ys), hPQ, List.reverse_append]
  · -- the last send before the new one is where the walk stopped
    rw [List.getLast?_reverse] at hy
    obtain ⟨o, ho, hpass, heq⟩ := hQ y hy
    cases o with
    | lt => exact (addPlace_eq_lt.mp ho).2
    | eq => exact absurd rfl heq
    | gt => exact absurd rfl hpass

/-- `addTx` from the front puts the send before the send the walk stopped at, which lies after
it, and the walk has checked the hash of every send before it. -/
theorem addTx_read_eq_ok (h : cc.addTx caller c or false = .ok cc') :
    ∃ B F, cc.list caller = B ++ F ∧ cc' = cc.store caller (B ++ or :: F) ∧
      (∀ y ∈ B, y.Hash ≠ or.Hash ∧ Before c y or) ∧ ∀ y ∈ F.head?, y.Hash ≠ or.Hash ∧ Before c or y := by
  rcases hl : cc.list caller with _ | ⟨y₀, ys⟩
  · simp only [addTx, hl] at h
    cases h
    exact ⟨[], [], rfl, rfl, by simp, by simp⟩
  simp only [addTx, hl, Bool.false_eq_true, ↓reduceIte] at h
  obtain ⟨r, hr, rfl⟩ := Except.map_eq_ok.mp h
  obtain ⟨P, Q, hPQ, rfl, hP, hQ⟩ := SortedScan.insert_eq_ok hr
  refine ⟨P, Q, hPQ, rfl, fun y hy => addPlace_eq_lt.mp (hP y hy), fun y hy => ?_⟩
  obtain ⟨o, ho, hpass, heq⟩ := hQ y hy
  cases o with
  | lt => exact absurd rfl hpass
  | eq => exact absurd rfl heq
  | gt => exact addPlace_eq_gt.mp ho

/-- On a sorted list either walk of `addTx` puts the send between all the sends before it and all
those after it. -/
theorem addTx_eq_ok {isWrite : Bool} (hs : (cc.list caller).Pairwise (Before c))
    (h : cc.addTx caller c or isWrite = .ok cc') :
    ∃ B F, cc.list caller = B ++ F ∧ cc' = cc.store caller (B ++ or :: F) ∧
      (∀ y ∈ B, Before c y or) ∧ ∀ y ∈ F, Before c or y := by
  cases isWrite with
  | true =>
    obtain ⟨B, F, hl, rfl, hB, hF⟩ := addTx_write_eq_ok h
    refine ⟨B, F, hl, rfl, ?_, fun y hy => (hF y hy).2⟩
    -- a send before the last one of `B` lies before it
    rcases List.eq_nil_or_concat B with rfl | ⟨B', b, rfl⟩
    · simp
    have hb := hB b (by simp)
    rw [hl, List.concat_eq_append, List.append_assoc, List.pairwise_append] at hs
    intro y hy
    rw [List.concat_eq_append] at hy
    rcases List.mem_append.mp hy with hy | hy
    · exact (hs.2.2 y hy b (by simp)).trans hb
    · rw [List.mem_singleton.mp hy]
      exact hb
  | false =>
    obtain ⟨B, F, hl, rfl, hB, hF⟩ := addTx_read_eq_ok h
    refine ⟨B, F, hl, rfl, fun y hy => (hB y hy).2, ?_⟩
    -- a send after the first one of `F` lies after it
    rcases F with _ | ⟨f, F'⟩
    · simp
    have hf := (hF f rfl).2
    rw [hl, List.pairwise_append, List.pairwise_cons] at hs
    intro y hy
    rcases List.mem_cons.mp hy with rfl | hy
    · exact hf
    · exact hf.trans (hs.2.1.1 y hy)

/-- `addTx` from the front on a list whose first send lies after the new one puts it first. -/
theorem addTx_read_of_first {F : List (orHashHeight H)} (hl : cc.list caller = F)
    (hF : ∀ y ∈ F.head?, y.Hash ≠ or.Hash ∧ Before c or y) :
    cc.addTx caller c or false = .ok (cc.store caller (or :: F)) := by
  rcases F with _ | ⟨f, F'⟩
  · simp only [addTx, hl]
  simp only [addTx, hl, Bool.false_eq_true, ↓reduceIte, addScan]
  rw [SortedScan.insert_cons_of_stop (addPlace_eq_gt.mpr (hF f rfl)) (by decide) (by decide)]
  rfl

/-- A call of `rmTx` that succeeds leaves a part of the caller's list. -/
theorem rmTx_eq_ok {isWrite : Bool} (h : cc.rmTx caller c or isWrite = .ok cc') :
    ∃ l', cc' = cc.store caller l' ∧ l'.Sublist (cc.list caller) := by
  rcases hl : cc.list caller with _ | ⟨f, rest⟩
  · simp [rmTx, hl] at h
  simp only [rmTx, hl] at h
  cases isWrite with
  | true =>
    simp only [↓reduceIte] at h
    split_ifs at h
    cases h
    exact ⟨rest, rfl, List.sublist_cons_self f rest⟩
  | false =>
    simp only [Bool.false_eq_true, ↓reduceIte] at h
    split_ifs at h
    cases h
    refine ⟨_, rfl, ?_⟩
    simpa using (List.eraseP_sublist (l := (f :: rest).reverse) (p := (·.Hash == or.Hash))).reverse

theorem rmTx_write_eq_ok (h : cc.rmTx caller c or true = .ok cc') :
    ∃ f rest, cc.list caller = f :: rest ∧ f.Hash = or.Hash ∧ cc' = cc.store caller rest := by
  rcases hl : cc.list caller with _ | ⟨f, rest⟩
  · simp [rmTx, hl] at h
  simp only [rmTx, hl, ↓reduceIte] at h
  by_cases hf : f.Hash = or.Hash
  · rw [if_neg (not_not.mpr hf)] at h
    cases h
    exact ⟨f, rest, rfl, hf, rfl⟩
  · rw [if_pos hf] at h
    cases h

/-- A rollback's `rmTx` takes out the last send with the hash. -/
theorem rmTx_read_of_last {B F : List (orHashHeight H)} (hl : cc.list caller = B ++ or :: F)
    (hF : ∀ y ∈ F, y.Hash ≠ or.Hash) : cc.rmTx caller c or false = .ok (cc.store caller (B ++ F)) := by
  obtain ⟨f, rest, hfr⟩ : ∃ f rest, B ++ or :: F = f :: rest := by
    cases B <;> simp
  have hany : (f :: rest).any (·.Hash == or.Hash) = true := by
    rw [← hfr, List.any_eq_true]
    exact ⟨or, by simp, by simp⟩
  simp only [rmTx, hl, hfr, Bool.false_eq_true, ↓reduceIte, hany]
  rw [← hfr, List.reverse_append, List.reverse_cons, List.append_assoc, List.singleton_append,
    List.eraseP_append_right _ (by simpa using fun y hy => hF y hy), List.eraseP_cons_of_pos (by simp),
    List.reverse_append, List.reverse_reverse, List.reverse_reverse]

end callerCache

end Calls

namespace contractOnRoadPool

variable {IsContractAddr : A → Bool} {p p' : contractOnRoadPool A H} {orAddr caller : A}
  {or : orHashHeight H} {isWrite : Bool}

theorem insertOnRoad_eq_ok (h : p.insertOnRoad IsContractAddr orAddr caller or isWrite = .ok p') :
    ∃ cc', (p.callers orAddr).addTx caller (IsContractAddr caller) or isWrite = .ok cc' ∧
      p' = ⟨AssocList.insert orAddr cc' p.cache⟩ := by
  obtain ⟨cc', hadd, hp⟩ := Except.map_eq_ok.mp h
  exact ⟨cc', hadd, hp.symm⟩

theorem deleteOnRoad_eq_ok (h : p.deleteOnRoad IsContractAddr orAddr caller or isWrite = .ok p') :
    ∃ cc', (p.callers orAddr).rmTx caller (IsContractAddr caller) or isWrite = .ok cc' ∧
      p' = ⟨AssocList.insert orAddr cc' p.cache⟩ := by
  unfold deleteOnRoad at h
  cases hc : AssocList.find? orAddr p.cache with
  | none =>
    rw [hc] at h
    cases h
  | some cc =>
    rw [hc] at h
    have hcc : p.callers orAddr = cc := by simp [callers, hc]
    obtain ⟨cc', hrm, hp⟩ := Except.map_eq_ok.mp h
    exact ⟨cc', hcc ▸ hrm, hp.symm⟩

omit [DecidableEq H] in
@[simp] theorem callers_insert_self (cc : callerCache A H) :
    (⟨AssocList.insert orAddr cc p.cache⟩ : contractOnRoadPool A H).callers orAddr = cc := by
  simp [callers, AssocList.find?_insert_self]

omit [DecidableEq H] in
/-- Replacing one caller's list leaves every other list as it was. -/
theorem list_store (l : List (orHashHeight H)) (orAddr' caller' : A) :
    (⟨AssocList.insert orAddr ((p.callers orAddr).store caller l) p.cache⟩ : contractOnRoadPool A H).list
        orAddr' caller' = if orAddr' = orAddr ∧ caller' = caller then l else p.list orAddr' caller' := by
  rw [list_insert]
  by_cases ho : orAddr' = orAddr
  · subst ho
    simp only [callerCache.list_store, true_and, if_true]
    rfl
  · simp [ho]

end contractOnRoadPool

/-! ## The pool under any calls that succeed -/

section System

variable (IsContractAddr : A → Bool) (rec : H → orHashHeight H)

/-- A call of `insertOnRoad` or `deleteOnRoad` that succeeds. `InsertAccountBlocks` and
`DeleteAccountBlocks` panic on any other; a send put in is the one `rec` gives for its hash, as
`LedgerBlockToOnRoad` reads it from the chain. -/
inductive Step : contractOnRoadPool A H → contractOnRoadPool A H → Prop
  | insertOnRoad {p p' : contractOnRoadPool A H} (orAddr caller : A) (or : orHashHeight H) (isWrite : Bool)
      (hor : rec or.Hash = or) (h : p.insertOnRoad IsContractAddr orAddr caller or isWrite = .ok p') :
      Step p p'
  | deleteOnRoad {p p' : contractOnRoadPool A H} (orAddr caller : A) (or : orHashHeight H) (isWrite : Bool)
      (h : p.deleteOnRoad IsContractAddr orAddr caller or isWrite = .ok p') : Step p p'

def Reachable (p : contractOnRoadPool A H) : Prop :=
  Relation.ReflTransGen (Step IsContractAddr rec) ⟨[]⟩ p

/-- Every list sorted in its caller's order, and holding the sends the chain records. -/
structure Inv (p : contractOnRoadPool A H) : Prop where
  sorted : ∀ orAddr caller, (p.list orAddr caller).Pairwise (Before (IsContractAddr caller))
  recorded : ∀ orAddr caller, ∀ y ∈ p.list orAddr caller, rec y.Hash = y

variable {IsContractAddr rec}

omit [DecidableEq H] in
theorem Inv.init : Inv IsContractAddr rec (⟨[]⟩ : contractOnRoadPool A H) where
  sorted _ _ := List.Pairwise.nil
  recorded _ _ _ hy := absurd hy List.not_mem_nil

omit [DecidableEq H] in
/-- Putting a sorted list of recorded sends in place of one list keeps the invariant. -/
theorem Inv.store {p : contractOnRoadPool A H} (hi : Inv IsContractAddr rec p) {orAddr caller : A}
    {l : List (orHashHeight H)} (hs : l.Pairwise (Before (IsContractAddr caller)))
    (hr : ∀ y ∈ l, rec y.Hash = y) :
    Inv IsContractAddr rec ⟨AssocList.insert orAddr ((p.callers orAddr).store caller l) p.cache⟩ where
  sorted o c := by
    rw [contractOnRoadPool.list_store]
    split_ifs with h
    · rw [h.2]
      exact hs
    · exact hi.sorted o c
  recorded o c := by
    rw [contractOnRoadPool.list_store]
    split_ifs with h
    · exact hr
    · exact hi.recorded o c

theorem Inv.step {p p' : contractOnRoadPool A H} (hi : Inv IsContractAddr rec p)
    (hs : Step IsContractAddr rec p p') : Inv IsContractAddr rec p' := by
  cases hs with
  | insertOnRoad orAddr caller or isWrite hor h =>
    obtain ⟨cc', hadd, rfl⟩ := contractOnRoadPool.insertOnRoad_eq_ok h
    obtain ⟨B, F, hl, rfl, hB, hF⟩ := callerCache.addTx_eq_ok (hi.sorted orAddr caller) hadd
    have hold : B ++ F = p.list orAddr caller := hl.symm
    refine hi.store (SortedScan.pairwise_insert_between (hold ▸ hi.sorted orAddr caller) hB hF) ?_
    intro y hy
    rcases List.mem_append.mp hy with hy | hy
    · exact hi.recorded orAddr caller y (hold ▸ List.mem_append_left F hy)
    rcases List.mem_cons.mp hy with rfl | hy
    · exact hor
    · exact hi.recorded orAddr caller y (hold ▸ List.mem_append_right B hy)
  | deleteOnRoad orAddr caller or isWrite h =>
    obtain ⟨cc', hrm, rfl⟩ := contractOnRoadPool.deleteOnRoad_eq_ok h
    obtain ⟨l', rfl, hsub⟩ := callerCache.rmTx_eq_ok hrm
    exact hi.store ((hi.sorted orAddr caller).sublist hsub)
      fun y hy => hi.recorded orAddr caller y (hsub.subset hy)

theorem Reachable.inv {p : contractOnRoadPool A H} (h : Reachable IsContractAddr rec p) :
    Inv IsContractAddr rec p := by
  induction h with
  | refl => exact Inv.init
  | tail _ hs ih => exact ih.step hs

/-- In every reachable pool each caller's sends to a contract are kept strictly in the order the
contract must receive them, and no send is there twice. -/
theorem reachable_sorted {p : contractOnRoadPool A H} (h : Reachable IsContractAddr rec p) (orAddr caller : A) :
    (p.list orAddr caller).Pairwise (Before (IsContractAddr caller)) ∧
      ((p.list orAddr caller).map (·.Hash)).Nodup := by
  have hi := h.inv
  refine ⟨hi.sorted orAddr caller, ?_⟩
  rw [List.Nodup, List.pairwise_map]
  refine (hi.sorted orAddr caller).imp_of_mem fun ha hb hab heq => ?_
  -- two sends with one hash are the one send the chain records for it
  have hsame : _ = _ := (hi.recorded orAddr caller _ ha).symm.trans (heq ▸ hi.recorded orAddr caller _ hb)
  rw [hsame] at hab
  exact Before.irrefl _ hab

/-- The sends the chain records in the samples below: sends of the contract `1` made by its
receives at heights `3`, `4` and `5`, the two at `5` told apart by sub index; any other hash is a
user send at its own height. -/
def sendOf : ℕ → orHashHeight ℕ
  | 10 => ⟨10, 3, some 0⟩
  | 11 => ⟨11, 5, some 0⟩
  | 12 => ⟨12, 5, some 1⟩
  | 13 => ⟨13, 4, some 0⟩
  | h => ⟨h, h, none⟩

/-- Only the address `1` is a contract. -/
def isContractOne (a : ℕ) : Bool := a = 1

/-- The pool after the contract `1` sent `11`, `12` and then `10` to the contract `7`. -/
def threeSends : contractOnRoadPool ℕ ℕ := ⟨[(7, ⟨[(1, [sendOf 10, sendOf 11, sendOf 12])]⟩)]⟩

theorem threeSends_reachable : Reachable isContractOne sendOf threeSends :=
  .tail (.tail (.single (Step.insertOnRoad 7 1 (sendOf 11) true rfl rfl))
    (Step.insertOnRoad 7 1 (sendOf 12) true rfl rfl)) (Step.insertOnRoad 7 1 (sendOf 10) true rfl rfl)

theorem reachable_sorted_threeSends :
    (threeSends.list 7 1).Pairwise (Before true) ∧ ((threeSends.list 7 1).map (·.Hash)).Nodup :=
  reachable_sorted threeSends_reachable 7 1

/-- `IsFrontOnRoadOfCaller` holds in a reachable pool exactly of a send that the pool holds and
that comes before every other send of its caller to the contract. -/
theorem IsFrontOnRoadOfCaller_iff {p : contractOnRoadPool A H} (h : Reachable IsContractAddr rec p)
    (orAddr caller : A) (hash : H) :
    p.IsFrontOnRoadOfCaller orAddr caller hash = .ok true ↔
      ∃ f ∈ p.list orAddr caller, f.Hash = hash ∧
        ∀ y ∈ p.list orAddr caller, y ≠ f → Before (IsContractAddr caller) f y := by
  have hs := h.inv.sorted orAddr caller
  unfold contractOnRoadPool.IsFrontOnRoadOfCaller
  cases hc : AssocList.find? orAddr p.cache with
  | none =>
    have hnil : p.list orAddr caller = [] := by
      simp [contractOnRoadPool.list, contractOnRoadPool.callers, hc, callerCache.list_NewCallerCache]
    simp [hnil]
  | some cc =>
    have hl : p.list orAddr caller = cc.list caller := by
      simp [contractOnRoadPool.list, contractOnRoadPool.callers, hc]
    rw [hl] at hs ⊢
    simp only [callerCache.getFrontTxByCaller]
    cases hcl : cc.list caller with
    | nil => simp
    | cons f rest =>
      rw [hcl] at hs
      obtain ⟨hf, -⟩ := List.pairwise_cons.mp hs
      simp only [List.head?_cons]
      constructor
      · intro hok
        have hfh : f.Hash = hash := by
          by_contra hne
          simp [hne] at hok
        refine ⟨f, List.mem_cons_self, hfh, fun y hy hyf => hf y ?_⟩
        rcases List.mem_cons.mp hy with rfl | hy
        · exact absurd rfl hyf
        · exact hy
      · rintro ⟨g, hg, hgh, hmin⟩
        -- the send before all others is the first one
        have hgf : g = f := by
          by_contra hne
          rcases List.mem_cons.mp hg with rfl | hg'
          · exact hne rfl
          · exact Before.irrefl g ((hmin f List.mem_cons_self (Ne.symm hne)).trans (hf g hg'))
        subst hgf
        simp [hgh]

theorem IsFrontOnRoadOfCaller_iff_threeSends :
    threeSends.IsFrontOnRoadOfCaller 7 1 10 = .ok true ∧
      (threeSends.IsFrontOnRoadOfCaller 7 1 10 = .ok true ↔
        ∃ f ∈ threeSends.list 7 1, f.Hash = 10 ∧ ∀ y ∈ threeSends.list 7 1, y ≠ f → Before true f y) :=
  ⟨rfl, IsFrontOnRoadOfCaller_iff threeSends_reachable 7 1 10⟩

end System

/-! ## The two walks and the rollbacks -/

section Walks

variable {c : Bool} {or : orHashHeight H} {cc : callerCache A H} {caller : A}

/-- On a sorted list in which a send with the new send's hash can only be that send, the walk
from the back that `InsertAccountBlocks` uses and the walk from the front of
`DeleteAccountBlocks` succeed together and put the send in the same place. -/
theorem addTx_write_agrees (hs : (cc.list caller).Pairwise (Before c))
    (hid : ∀ y ∈ cc.list caller, y.Hash = or.Hash → y = or) :
    (cc.addTx caller c or true).toOption = (cc.addTx caller c or false).toOption := by
  rcases hl : cc.list caller with _ | ⟨y₀, ys⟩
  · simp only [callerCache.addTx, hl]
  rw [hl] at hs hid
  -- the sends the walks place before and after the new one do not carry its hash
  have hlt : ∀ a ∈ y₀ :: ys, ∀ b ∈ y₀ :: ys, Before c a b → addPlace c or b = .ok .lt →
      addPlace c or a = .ok .lt := by
    intro a ha b _ hab hb
    obtain ⟨-, hbo⟩ := addPlace_eq_lt.mp hb
    refine addPlace_eq_lt.mpr ⟨fun heq => ?_, hab.trans hbo⟩
    rw [hid a ha heq] at hab
    exact Before.irrefl or (hab.trans hbo)
  have hgt : ∀ a ∈ y₀ :: ys, ∀ b ∈ y₀ :: ys, Before c a b → addPlace c or a = .ok .gt →
      addPlace c or b = .ok .gt := by
    intro a _ b hb hab ha
    obtain ⟨-, hoa⟩ := addPlace_eq_gt.mp ha
    refine addPlace_eq_gt.mpr ⟨fun heq => ?_, hoa.trans hab⟩
    rw [hid b hb heq] at hab
    exact Before.irrefl a (hab.trans hoa)
  obtain ⟨P, M, G, hsplit⟩ := SortedScan.split_of_pairwise hs hlt hgt
  have hback : ((addScan c or .gt (y₀ :: ys).reverse).map List.reverse).toOption =
      if M = [] then some (P ++ or :: G) else none :=
    SortedScan.insert_gt_reverse_of_split hsplit
  have hfront : (addScan c or .lt (y₀ :: ys)).toOption = if M = [] then some (P ++ or :: G) else none :=
    SortedScan.insert_lt_of_split hsplit
  simp only [callerCache.addTx, hl, Bool.false_eq_true, ↓reduceIte, Except.toOption_map]
  rw [Except.toOption_map] at hback
  have hcomp : (fun r => cc.store caller r.reverse) = (fun r => cc.store caller r) ∘ List.reverse := rfl
  rw [hcomp, ← Option.map_map, hback, hfront]

/-- The sends of heights `2` and `5` of the user `1`. -/
def twoSends : callerCache ℕ ℕ := ⟨[(1, [⟨2, 2, none⟩, ⟨5, 5, none⟩])]⟩

theorem addTx_write_agrees_twoSends :
    (twoSends.list 1).Pairwise (Before false) ∧
      (∀ y ∈ twoSends.list 1, y.Hash = 3 → y = ⟨3, 3, none⟩) ∧
      (twoSends.addTx 1 false ⟨3, 3, none⟩ true).toOption = (twoSends.addTx 1 false ⟨3, 3, none⟩ false).toOption := by
  have hs : (twoSends.list 1).Pairwise (Before false) := by
    simp [twoSends, callerCache.list, AssocList.find?, Before]
  have hid : ∀ y ∈ twoSends.list 1, y.Hash = 3 → y = ⟨3, 3, none⟩ := by decide
  exact ⟨hs, hid, addTx_write_agrees hs hid⟩

namespace contractOnRoadPool

variable {IsContractAddr : A → Bool} {rec : H → orHashHeight H} {p p' : contractOnRoadPool A H}
  {orAddr : A}

/-- Rolling back a send that `InsertAccountBlocks` put in: `DeleteAccountBlocks` takes it out
again and leaves every list as it was. -/
theorem insert_then_delete_restores (h : p.insertOnRoad IsContractAddr orAddr caller or true = .ok p') :
    ∃ p'', p'.deleteOnRoad IsContractAddr orAddr caller or false = .ok p'' ∧
      ∀ o c', p''.list o c' = p.list o c' := by
  obtain ⟨cc', hadd, rfl⟩ := insertOnRoad_eq_ok h
  obtain ⟨B, F, hl, rfl, -, hF⟩ := callerCache.addTx_write_eq_ok hadd
  set cc₁ := (p.callers orAddr).store caller (B ++ or :: F) with hcc₁
  have hrm : cc₁.rmTx caller (IsContractAddr caller) or false = .ok (cc₁.store caller (B ++ F)) :=
    callerCache.rmTx_read_of_last (by simp [hcc₁]) fun y hy => (hF y hy).1
  have hdel : (⟨AssocList.insert orAddr cc₁ p.cache⟩ : contractOnRoadPool A H).deleteOnRoad IsContractAddr
      orAddr caller or false =
        .ok ⟨AssocList.insert orAddr (cc₁.store caller (B ++ F)) (AssocList.insert orAddr cc₁ p.cache)⟩ := by
    unfold deleteOnRoad
    rw [AssocList.find?_insert_self]
    dsimp only
    rw [hrm]
    rfl
  refine ⟨_, hdel, fun o c' => ?_⟩
  rw [list_insert, list_insert]
  split_ifs with ho
  · subst ho
    rw [callerCache.list_store, hcc₁, callerCache.list_store]
    split_ifs with hc
    · subst hc
      exact hl.symm
    · rfl
  · rfl

theorem insert_then_delete_restores_threeSends :
    threeSends.insertOnRoad isContractOne 7 1 (sendOf 13) true =
        .ok ⟨[(7, ⟨[(1, [sendOf 10, sendOf 13, sendOf 11, sendOf 12])]⟩)]⟩ ∧
      ∃ p'', (⟨[(7, ⟨[(1, [sendOf 10, sendOf 13, sendOf 11, sendOf 12])]⟩)]⟩ : contractOnRoadPool ℕ ℕ).deleteOnRoad
          isContractOne 7 1 (sendOf 13) false = .ok p'' ∧ ∀ o c', p''.list o c' = threeSends.list o c' :=
  ⟨rfl, insert_then_delete_restores rfl⟩

/-- Rolling back a receive in a reachable pool: the send that `InsertAccountBlocks` took from the
front, put back by `DeleteAccountBlocks`, leaves every list as it was. -/
theorem delete_then_insert_restores (hr : Reachable IsContractAddr rec p) (hor : rec or.Hash = or)
    (h : p.deleteOnRoad IsContractAddr orAddr caller or true = .ok p') :
    ∃ p'', p'.insertOnRoad IsContractAddr orAddr caller or false = .ok p'' ∧
      ∀ o c', p''.list o c' = p.list o c' := by
  have hi := hr.inv
  obtain ⟨cc', hrm, rfl⟩ := deleteOnRoad_eq_ok h
  obtain ⟨f, rest, hl, hfh, rfl⟩ := callerCache.rmTx_write_eq_ok hrm
  have hl' : p.list orAddr caller = f :: rest := hl
  -- the front send is the send the chain records for the hash, before every other one
  have hf : f = or := by
    rw [← hi.recorded orAddr caller f (by simp [hl']), hfh, hor]
  subst hf
  have hrest := List.pairwise_cons.mp (hl' ▸ hi.sorted orAddr caller)
  have hfirst : ∀ y ∈ rest.head?, y.Hash ≠ f.Hash ∧ Before (IsContractAddr caller) f y := by
    intro y hy
    have hy' : y ∈ rest := List.mem_of_mem_head? hy
    refine ⟨fun heq => ?_, hrest.1 y hy'⟩
    have hyf : y = f := by
      rw [← hi.recorded orAddr caller y (by simp [hl', hy']), heq, hor]
    exact Before.irrefl f (hyf ▸ hrest.1 y hy')
  set cc₁ := (p.callers orAddr).store caller rest with hcc₁
  have hadd : cc₁.addTx caller (IsContractAddr caller) f false = .ok (cc₁.store caller (f :: rest)) :=
    callerCache.addTx_read_of_first (by simp [hcc₁]) hfirst
  have hins : (⟨AssocList.insert orAddr cc₁ p.cache⟩ : contractOnRoadPool A H).insertOnRoad IsContractAddr
      orAddr caller f false =
        .ok ⟨AssocList.insert orAddr (cc₁.store caller (f :: rest)) (AssocList.insert orAddr cc₁ p.cache)⟩ := by
    unfold insertOnRoad
    rw [callers_insert_self, hadd]
    rfl
  refine ⟨_, hins, fun o c' => ?_⟩
  rw [list_insert, list_insert]
  split_ifs with ho
  · subst ho
    rw [callerCache.list_store, hcc₁, callerCache.list_store]
    split_ifs with hc
    · subst hc
      exact hl.symm
    · rfl
  · rfl

theorem delete_then_insert_restores_threeSends :
    threeSends.deleteOnRoad isContractOne 7 1 (sendOf 10) true = .ok ⟨[(7, ⟨[(1, [sendOf 11, sendOf 12])]⟩)]⟩ ∧
      ∃ p'', (⟨[(7, ⟨[(1, [sendOf 11, sendOf 12])]⟩)]⟩ : contractOnRoadPool ℕ ℕ).insertOnRoad isContractOne 7 1
        (sendOf 10) false = .ok p'' ∧ ∀ o c', p''.list o c' = threeSends.list o c' :=
  ⟨rfl, delete_then_insert_restores threeSends_reachable rfl rfl⟩

end contractOnRoadPool

end Walks

end Vite.Onroad
