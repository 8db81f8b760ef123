import Mathlib

/-!
# Cycles, ranks and removing sources

The facts Kahn's algorithm rests on, for a relation `r` read as edges `a → b`. A relation that
every edge makes a rank increase along has no cycle (`not_transGen_self_of_rank`), which is how a
topological order rules cycles out. Conversely, where no element of a finite nonempty set is a
source, every one having a predecessor inside the set, some element of the set lies on a cycle
(`exists_cycle_of_forall_pred`), which is what a run that finds no source left reports.

The in-degree of a vertex counted over the vertices not yet removed drops, when one of them is
removed, by the number of edges from it (`countP_mem_filter_ne`).
-/

namespace Kahn

open Relation

variable {β : Type*} {r : β → β → Prop}

/-- Along a path the rank increases, if it does along every edge. -/
theorem rank_lt_of_transGen (f : β → ℕ) (hf : ∀ a b, r a b → f a < f b) {a b : β} (h : TransGen r a b) :
    f a < f b := by
  induction h with
  | single hab => exact hf _ _ hab
  | tail _ hbc ih => exact ih.trans (hf _ _ hbc)

/-- A relation that every edge makes a rank increase along has no cycle. -/
theorem not_transGen_self_of_rank (f : β → ℕ) (hf : ∀ a b, r a b → f a < f b) (a : β) : ¬ TransGen r a a :=
  fun h => lt_irrefl _ (rank_lt_of_transGen f hf h)

/-- If every element of a finite nonempty set has a predecessor in the set, one of them lies on a
cycle: otherwise the paths would order the set well, and a least element would have none. -/
theorem exists_cycle_of_forall_pred (S : List β) (hne : S ≠ []) (h : ∀ m ∈ S, ∃ d ∈ S, r d m) :
    ∃ v ∈ S, TransGen r v v := by
  classical
  by_contra hno
  simp only [not_exists, not_and] at hno
  let R : {x // x ∈ S} → {x // x ∈ S} → Prop := fun a b => TransGen r a.1 b.1
  have : IsTrans _ R := ⟨fun _ _ _ hab hbc => hab.trans hbc⟩
  have : Std.Irrefl R := ⟨fun a haa => hno a.1 a.2 haa⟩
  obtain ⟨x, hx⟩ := List.exists_mem_of_ne_nil S hne
  obtain ⟨m, -, hmin⟩ := (Finite.wellFounded_of_trans_of_irrefl R).has_min Set.univ ⟨⟨x, hx⟩, trivial⟩
  obtain ⟨d, hd, hdm⟩ := h m.1 m.2
  exact hmin ⟨d, hd⟩ trivial (TransGen.single hdm)

/-- Along a list whose rank increases strictly, the element of lower rank comes first. -/
theorem lt_of_pairwise_rank (f : β → ℕ) {l : List β} (hl : l.Pairwise fun a b => f a < f b) {i j : ℕ}
    (hi : i < l.length) (hj : j < l.length) (h : f l[i] < f l[j]) : i < j := by
  by_contra hji
  rcases Nat.lt_or_eq_of_le (Nat.le_of_not_lt hji) with hlt | rfl
  · exact lt_asymm h (List.pairwise_iff_getElem.mp hl _ _ hj hi hlt)
  · exact lt_irrefl _ h

variable [DecidableEq β]

/-- Removing `n` from the vertices counted takes the edges from `n` out of an in-degree. -/
theorem countP_mem_filter_ne {K : List β} {n : β} (hn : n ∈ K) (D : List β) :
    D.countP (· ∈ K) = D.countP (· ∈ K.filter (· ≠ n)) + D.count n := by
  induction D with
  | nil => rfl
  | cons x D ih =>
    by_cases hx : x = n
    · subst hx
      simp [hn, ih]
      omega
    · simp [List.countP_cons, hx, ih]
      omega

end Kahn
