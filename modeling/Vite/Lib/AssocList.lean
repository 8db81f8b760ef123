import Mathlib.Algebra.BigOperators.Group.List.Basic
import Mathlib.Algebra.Order.BigOperators.Group.List
import Mathlib.Tactic.Abel

/-!
# Finite maps as association lists

A map from keys to values as a list of pairs, the shape of a Go `map` whose iteration order no
reader depends on. `modify` is the find-or-create update (`m[k]` read with a default, changed,
written back), `insert` overwrites, `erase` deletes. `total g` sums `g` over the entries; the
lemmas say how each write moves a total, which is how a sum over all the keys of a map is
tracked through a run of updates.
-/

namespace AssocList

variable {κ ν : Type*}

/-- The sum of `g` over the entries. -/
def total {M : Type*} [AddCommMonoid M] (g : κ → ν → M) (l : List (κ × ν)) : M :=
  (l.map fun e => g e.1 e.2).sum

@[simp] theorem total_nil {M : Type*} [AddCommMonoid M] (g : κ → ν → M) :
    total g ([] : List (κ × ν)) = 0 := rfl

@[simp] theorem total_cons {M : Type*} [AddCommMonoid M] (g : κ → ν → M) (k : κ) (v : ν)
    (l : List (κ × ν)) : total g ((k, v) :: l) = g k v + total g l := by
  simp [total]

variable [DecidableEq κ]

/-- The value at `k`, if any. -/
def find? (k : κ) : List (κ × ν) → Option ν
  | [] => none
  | (k', v) :: rest => if k' = k then some v else find? k rest

/-- Change the value at `k` by `f`, starting from `d` where `k` has none. -/
def modify (k : κ) (f : ν → ν) (d : ν) : List (κ × ν) → List (κ × ν)
  | [] => [(k, f d)]
  | (k', v) :: rest => if k' = k then (k', f v) :: rest else (k', v) :: modify k f d rest

/-- Set the value at `k`. -/
def insert (k : κ) (v : ν) (l : List (κ × ν)) : List (κ × ν) := modify k (fun _ => v) v l

/-- Delete the entries at `k`. -/
def erase (k : κ) : List (κ × ν) → List (κ × ν)
  | [] => []
  | (k', v) :: rest => if k' = k then erase k rest else (k', v) :: erase k rest

section Total

variable {M : Type*} [AddCommMonoid M]

/-- A change that adds `δ` to `g` at `k`, from a default where `g` is `0`, adds `δ` to the
total. -/
theorem total_modify (g : κ → ν → M) {k : κ} {f : ν → ν} {d : ν} {δ : M}
    (hf : ∀ v, g k (f v) = g k v + δ) (hd : g k d = 0) (l : List (κ × ν)) :
    total g (modify k f d l) = total g l + δ := by
  induction l with
  | nil => simp [modify, hf, hd]
  | cons e rest ih =>
    obtain ⟨k', v⟩ := e
    by_cases hk : k' = k
    · subst hk
      simp only [modify, ite_true, total_cons, hf]
      exact add_right_comm _ _ _
    · simp only [modify, if_neg hk, total_cons, ih]
      exact (add_assoc _ _ _).symm

end Total

theorem find?_modify_self (k : κ) (f : ν → ν) (d : ν) (l : List (κ × ν)) :
    find? k (modify k f d l) = some (f ((find? k l).getD d)) := by
  induction l with
  | nil => simp [modify, find?]
  | cons e rest ih =>
    obtain ⟨k', v⟩ := e
    by_cases hk : k' = k
    · simp [modify, find?, hk]
    · simp [modify, find?, hk, ih]

theorem find?_modify_ne {k k' : κ} (h : k' ≠ k) (f : ν → ν) (d : ν) (l : List (κ × ν)) :
    find? k' (modify k f d l) = find? k' l := by
  induction l with
  | nil => simp [modify, find?, Ne.symm h]
  | cons e rest ih =>
    obtain ⟨k'', v⟩ := e
    by_cases hk : k'' = k
    · subst hk
      simp [modify, find?, Ne.symm h]
    · by_cases hk' : k'' = k'
      · subst hk'
        simp [modify, find?, h]
      · simp [modify, find?, hk, hk', ih]

theorem find?_insert_self (k : κ) (v : ν) (l : List (κ × ν)) : find? k (insert k v l) = some v :=
  find?_modify_self k _ v l

theorem find?_insert_ne {k k' : κ} (h : k' ≠ k) (v : ν) (l : List (κ × ν)) :
    find? k' (insert k v l) = find? k' l :=
  find?_modify_ne h _ v l

theorem find?_erase_self (k : κ) (l : List (κ × ν)) : find? k (erase k l) = none := by
  induction l with
  | nil => rfl
  | cons e rest ih =>
    obtain ⟨k', v⟩ := e
    by_cases hk : k' = k
    · simp [erase, hk, ih]
    · simp [erase, find?, hk, ih]

theorem find?_erase_ne {k k' : κ} (h : k' ≠ k) (l : List (κ × ν)) :
    find? k' (erase k l) = find? k' l := by
  induction l with
  | nil => rfl
  | cons e rest ih =>
    obtain ⟨k'', v⟩ := e
    by_cases hk : k'' = k
    · subst hk
      simp [erase, find?, ih, Ne.symm h]
    · simp [erase, find?, hk, ih]

section Keys

theorem find?_eq_none {k : κ} {l : List (κ × ν)} (h : k ∉ l.map Prod.fst) : find? k l = none := by
  induction l with
  | nil => rfl
  | cons e rest ih =>
    obtain ⟨k', v⟩ := e
    have hk : k' ≠ k := fun hk => h (by simp [hk])
    simp only [find?, if_neg hk]
    exact ih (fun hr => h (List.mem_cons_of_mem _ hr))

theorem mem_of_find? {k : κ} {v : ν} {l : List (κ × ν)} (h : find? k l = some v) : (k, v) ∈ l := by
  induction l with
  | nil => cases h
  | cons e rest ih =>
    obtain ⟨k', v'⟩ := e
    by_cases hk : k' = k
    · subst hk
      simp only [find?, ite_true, Option.some.injEq] at h
      simp [h]
    · simp only [find?, if_neg hk] at h
      exact List.mem_cons_of_mem _ (ih h)

/-- Where the keys are distinct, the entry of a key is the one `find?` returns. -/
theorem find?_of_mem {k : κ} {v : ν} {l : List (κ × ν)} (hl : (l.map Prod.fst).Nodup)
    (h : (k, v) ∈ l) : find? k l = some v := by
  induction l with
  | nil => cases h
  | cons e rest ih =>
    obtain ⟨k', v'⟩ := e
    simp only [List.map_cons, List.nodup_cons] at hl
    rcases List.mem_cons.mp h with he | hr
    · simp only [Prod.mk.injEq] at he
      simp [find?, he.1, he.2]
    · have hk : k' ≠ k := fun hk => hl.1 (hk ▸ List.mem_map_of_mem hr)
      simp only [find?, if_neg hk]
      exact ih hl.2 hr

/-- A write at `k` keeps every entry but the one it changes, which becomes `k`'s new value. -/
theorem mem_modify {k : κ} {f : ν → ν} {d : ν} {l : List (κ × ν)} {e : κ × ν}
    (h : e ∈ modify k f d l) : e ∈ l ∨ e = (k, f ((find? k l).getD d)) := by
  induction l with
  | nil => simp_all [modify, find?]
  | cons e' rest ih =>
    obtain ⟨k', v⟩ := e'
    by_cases hk : k' = k
    · subst hk
      simp only [modify, ite_true, List.mem_cons] at h
      rcases h with rfl | hr
      · simp [find?]
      · exact .inl (List.mem_cons_of_mem _ hr)
    · simp only [modify, if_neg hk, List.mem_cons] at h
      rcases h with rfl | hr
      · exact .inl List.mem_cons_self
      · simpa [find?, hk] using (ih hr).imp_left (List.mem_cons_of_mem _)

theorem mem_insert {k : κ} {v : ν} {l : List (κ × ν)} {e : κ × ν} (h : e ∈ insert k v l) :
    e ∈ l ∨ e = (k, v) :=
  mem_modify h

theorem erase_of_not_mem {k : κ} {l : List (κ × ν)} (h : k ∉ l.map Prod.fst) : erase k l = l := by
  induction l with
  | nil => rfl
  | cons e rest ih =>
    obtain ⟨k', v⟩ := e
    have hk : k' ≠ k := fun hk => h (by simp [hk])
    simp only [erase, if_neg hk]
    rw [ih (fun hr => h (List.mem_cons_of_mem _ hr))]

theorem erase_sublist (k : κ) (l : List (κ × ν)) : (erase k l).Sublist l := by
  induction l with
  | nil => exact List.Sublist.slnil
  | cons e rest ih =>
    obtain ⟨k', v⟩ := e
    by_cases hk : k' = k
    · simp only [erase, if_pos hk]
      exact ih.cons _
    · simp only [erase, if_neg hk]
      exact ih.cons_cons _

theorem nodup_modify {k : κ} {f : ν → ν} {d : ν} {l : List (κ × ν)} (hl : (l.map Prod.fst).Nodup) :
    ((modify k f d l).map Prod.fst).Nodup := by
  induction l with
  | nil => simp [modify]
  | cons e rest ih =>
    obtain ⟨k', v⟩ := e
    simp only [List.map_cons, List.nodup_cons] at hl
    by_cases hk : k' = k
    · simpa [modify, hk] using hl
    · simp only [modify, if_neg hk, List.map_cons, List.nodup_cons]
      refine ⟨fun hm => ?_, ih hl.2⟩
      obtain ⟨e, he, hek⟩ := List.mem_map.mp hm
      rcases mem_modify he with hr | rfl
      · exact hl.1 (hek ▸ List.mem_map_of_mem hr)
      · exact hk hek.symm

/-- A property of every entry survives a write that keeps it at its key, from the default on. -/
theorem forall_mem_modify {P : κ → ν → Prop} {k : κ} {f : ν → ν} {d : ν} {l : List (κ × ν)}
    (hl : ∀ e ∈ l, P e.1 e.2) (hd : P k d) (hf : ∀ v, P k v → P k (f v)) :
    ∀ e ∈ modify k f d l, P e.1 e.2 := by
  intro e he
  rcases mem_modify he with hr | rfl
  · exact hl e hr
  · apply hf
    cases hfind : find? k l with
    | none => exact hd
    | some v => exact hl _ (mem_of_find? hfind)

theorem nodup_erase (k : κ) {l : List (κ × ν)} (hl : (l.map Prod.fst).Nodup) :
    ((erase k l).map Prod.fst).Nodup :=
  hl.sublist ((erase_sublist k l).map _)

/-- A write at a key a filter drops leaves the entries the filter keeps as they were. -/
theorem filter_modify_of_not {q : κ → Bool} {k : κ} (hk : q k = false) (f : ν → ν) (d : ν)
    (l : List (κ × ν)) : (modify k f d l).filter (fun e => q e.1) = l.filter (fun e => q e.1) := by
  induction l with
  | nil => simp [modify, hk]
  | cons e rest ih =>
    obtain ⟨k', v⟩ := e
    by_cases h : k' = k
    · subst h
      simp [modify, hk]
    · simp [modify, h, List.filter_cons, ih]

theorem filter_erase_of_not {q : κ → Bool} {k : κ} (hk : q k = false) (l : List (κ × ν)) :
    (erase k l).filter (fun e => q e.1) = l.filter (fun e => q e.1) := by
  induction l with
  | nil => rfl
  | cons e rest ih =>
    obtain ⟨k', v⟩ := e
    by_cases h : k' = k
    · subst h
      simp [erase, hk, ih]
    · simp [erase, h, List.filter_cons, ih]

theorem exists_find?_of_mem {k : κ} {l : List (κ × ν)} (h : k ∈ l.map Prod.fst) : ∃ v, find? k l = some v := by
  induction l with
  | nil => cases h
  | cons e rest ih =>
    obtain ⟨k', v⟩ := e
    by_cases hk : k' = k
    · exact ⟨v, by simp [find?, hk]⟩
    · simp only [find?, if_neg hk]
      exact ih (by simpa [Ne.symm hk] using h)

theorem mem_erase {k : κ} {l : List (κ × ν)} {e : κ × ν} : e ∈ erase k l ↔ e ∈ l ∧ e.1 ≠ k := by
  induction l with
  | nil => simp [erase]
  | cons e' rest ih =>
    obtain ⟨k', v⟩ := e'
    by_cases hk : k' = k
    · subst hk
      simp only [erase, if_pos, ih, List.mem_cons]
      constructor
      · exact fun h => ⟨.inr h.1, h.2⟩
      · rintro ⟨rfl | h, hne⟩
        · exact absurd rfl hne
        · exact ⟨h, hne⟩
    · simp only [erase, if_neg hk, List.mem_cons, ih]
      constructor
      · rintro (rfl | h)
        · exact ⟨.inl rfl, hk⟩
        · exact ⟨.inr h.1, h.2⟩
      · rintro ⟨rfl | h, hne⟩
        · exact .inl rfl
        · exact .inr ⟨h, hne⟩

/-- Deleting `k` drops it from the keys. -/
theorem keys_erase (k : κ) (l : List (κ × ν)) : (erase k l).map Prod.fst = (l.map Prod.fst).filter (· ≠ k) := by
  induction l with
  | nil => rfl
  | cons e rest ih =>
    obtain ⟨k', v⟩ := e
    by_cases hk : k' = k
    · simp [erase, hk, ih]
    · simp [erase, hk, ih]

/-- Where the keys are distinct and `k` is one of them, a write at `k` changes that entry in place. -/
theorem modify_eq_map {k : κ} (f : ν → ν) (d : ν) {l : List (κ × ν)} (hl : (l.map Prod.fst).Nodup)
    (hk : k ∈ l.map Prod.fst) : modify k f d l = l.map fun e => if e.1 = k then (e.1, f e.2) else e := by
  induction l with
  | nil => cases hk
  | cons e rest ih =>
    obtain ⟨k', v⟩ := e
    simp only [List.map_cons, List.nodup_cons] at hl
    by_cases hkk : k' = k
    · subst hkk
      have hrest : (rest.map fun e => if e.1 = k' then (e.1, f e.2) else e) = rest :=
        (List.map_congr_left fun e he => if_neg fun h : e.1 = k' => hl.1 (h ▸ List.mem_map_of_mem he)).trans
          (List.map_id rest)
      simp [modify, hrest]
    · have hk' : k ∈ rest.map Prod.fst := by
        simpa [Ne.symm hkk] using hk
      simp [modify, hkk, ih hl.2 hk']

/-- Overwriting the value `find?` returns by `f` of it changes that entry in place. -/
theorem insert_of_find? {k : κ} {v : ν} (f : ν → ν) {l : List (κ × ν)} (hl : (l.map Prod.fst).Nodup)
    (h : find? k l = some v) : insert k (f v) l = l.map fun e => if e.1 = k then (e.1, f e.2) else e := by
  have hmem := mem_of_find? h
  rw [insert, modify_eq_map _ _ hl (List.mem_map_of_mem hmem)]
  refine List.map_congr_left fun e he => ?_
  by_cases he1 : e.1 = k
  · obtain ⟨k', v'⟩ := e
    simp only at he1
    subst he1
    have hv : v' = v := Option.some.inj ((find?_of_mem hl he).symm.trans h)
    rw [if_pos rfl, if_pos rfl, hv]
  · rw [if_neg he1, if_neg he1]

/-- Setting a new key appends its entry. -/
theorem insert_of_not_mem {k : κ} (v : ν) {l : List (κ × ν)} (hk : k ∉ l.map Prod.fst) :
    insert k v l = l ++ [(k, v)] := by
  induction l with
  | nil => rfl
  | cons e rest ih =>
    obtain ⟨k', v'⟩ := e
    have hkk : k' ≠ k := fun h => hk (by simp [h])
    simp only [insert, modify, if_neg hkk, List.cons_append]
    rw [← insert, ih (fun h => hk (List.mem_cons_of_mem _ h))]

/-- Writing new keys one after the other appends their entries. -/
theorem foldl_insert_of_nodup {β : Type*} (key : β → κ) (val : β → ν) (xs : List β) (acc : List (κ × ν))
    (h : (acc.map Prod.fst ++ xs.map key).Nodup) :
    xs.foldl (fun acc x => insert (key x) (val x) acc) acc = acc ++ xs.map fun x => (key x, val x) := by
  induction xs generalizing acc with
  | nil => simp
  | cons x xs ih =>
    have hx : key x ∉ acc.map Prod.fst := fun hm =>
      (List.nodup_append.mp h).2.2 _ hm _ (List.mem_map_of_mem List.mem_cons_self) rfl
    rw [List.foldl_cons, insert_of_not_mem _ hx, ih]
    · simp
    · simpa [List.map_append, List.append_assoc] using h

/-- After the entries of `xs` are written in turn, a key has the value of the last one written
under it, or the one it had. -/
theorem find?_foldl_insert {β : Type*} (key : β → κ) (val : β → ν) (xs : List β) (acc : List (κ × ν)) (k : κ) :
    find? k (xs.foldl (fun acc x => insert (key x) (val x) acc) acc) =
      ((xs.reverse.find? fun x => key x = k).map val).or (find? k acc) := by
  induction xs generalizing acc with
  | nil => simp
  | cons x xs ih =>
    rw [List.foldl_cons, ih, List.reverse_cons, List.find?_append]
    by_cases hx : key x = k
    · rw [← hx, find?_insert_self]
      cases xs.reverse.find? fun y => key y = key x <;> simp
    · rw [find?_insert_ne (Ne.symm hx)]
      simp [hx]

end Keys

section Group

variable {M : Type*} [AddCommGroup M]

/-- A write at `k` takes the old entry's `g` out of the total and puts the new one's in. -/
theorem total_modify_eq (g : κ → ν → M) (k : κ) (f : ν → ν) (d : ν) (l : List (κ × ν)) :
    total g (modify k f d l) =
      total g l - ((find? k l).map (g k)).getD 0 + g k (f ((find? k l).getD d)) := by
  induction l with
  | nil => simp [modify, find?]
  | cons e rest ih =>
    obtain ⟨k', v⟩ := e
    by_cases hk : k' = k
    · subst hk
      simp only [modify, find?, ite_true, total_cons, Option.map_some, Option.getD_some]
      abel
    · simp only [modify, find?, if_neg hk, total_cons, ih]
      abel

theorem total_insert (g : κ → ν → M) (k : κ) (v : ν) (l : List (κ × ν)) :
    total g (insert k v l) = total g l - ((find? k l).map (g k)).getD 0 + g k v :=
  total_modify_eq g k _ v l

/-- Where the keys are distinct, deleting `k` takes its entry's `g` out of the total. -/
theorem total_erase (g : κ → ν → M) (k : κ) {l : List (κ × ν)} (hl : (l.map Prod.fst).Nodup) :
    total g (erase k l) = total g l - ((find? k l).map (g k)).getD 0 := by
  induction l with
  | nil => simp [erase, find?]
  | cons e rest ih =>
    obtain ⟨k', v⟩ := e
    simp only [List.map_cons, List.nodup_cons] at hl
    by_cases hk : k' = k
    · subst hk
      have hrest : erase k' rest = rest := erase_of_not_mem hl.1
      simp only [erase, find?, ite_true, hrest, total_cons, Option.map_some, Option.getD_some]
      abel
    · simp only [erase, find?, if_neg hk, total_cons, ih hl.2]
      abel

end Group

end AssocList
