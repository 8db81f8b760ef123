import Mathlib.Data.Nat.Notation
import Mathlib.Logic.Relation

/-!
# Forests given by a parent relation

A forest stored as a parent pointer per node is a right-unique relation `R x y` ("`x` hangs from
`y`"); a rank that drops from every node to its parent rules out cycles. Below a common parent the
subtrees of two children are then disjoint: a node below both children would put one child below
the other, and so the parent below itself. This is what a walk over a forest that marks the nodes
it has seen relies on to never see a node twice.
-/

namespace ParentForest

open Relation

variable {α : Type*} {R : α → α → Prop}

/-- Following parents makes the rank drop. -/
theorem rank_lt_of_transGen {ρ : α → ℕ} (hρ : ∀ x y, R x y → ρ y < ρ x) {x y : α} (h : TransGen R x y) :
    ρ y < ρ x := by
  induction h with
  | single hxy => exact hρ _ _ hxy
  | tail _ hyz ih => exact Nat.lt_trans (hρ _ _ hyz) ih

theorem not_transGen_self_of_rank {ρ : α → ℕ} (hρ : ∀ x y, R x y → ρ y < ρ x) (x : α) : ¬TransGen R x x :=
  fun h => Nat.lt_irrefl _ (rank_lt_of_transGen hρ h)

section Siblings

variable (hR : Relator.RightUnique R) (hacyc : ∀ x, ¬TransGen R x x)
include hR hacyc

/-- A child of `b` is not below another child of `b`. -/
theorem not_transGen_of_siblings {v w b : α} (hv : R v b) (hw : R w b) : ¬TransGen R v w := by
  intro h
  obtain ⟨c, hvc, hcw⟩ := TransGen.head'_iff.mp h
  rw [hR hvc hv] at hcw
  exact hacyc b (TransGen.tail' hcw hw)

/-- A node below two children of one parent is below one child only. -/
theorem eq_of_reflTransGen_siblings {v w b x : α} (hv : R v b) (hw : R w b) (hxv : ReflTransGen R x v)
    (hxw : ReflTransGen R x w) : v = w := by
  rcases ReflTransGen.total_of_right_unique hR hxv hxw with h | h
  · rcases reflTransGen_iff_eq_or_transGen.mp h with h | h
    · exact h.symm
    · exact absurd h (not_transGen_of_siblings hR hacyc hv hw)
  · rcases reflTransGen_iff_eq_or_transGen.mp h with h | h
    · exact h
    · exact absurd h (not_transGen_of_siblings hR hacyc hw hv)

end Siblings

end ParentForest
