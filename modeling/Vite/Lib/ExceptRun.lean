import Mathlib.Logic.Basic

/-!
# Running `Except` programs

The equations that execute an `Except` do-block one bind at a time, and the inversion rule for a
bind that succeeded: both the first computation and the continuation returned `ok`. The same
inversion for a loop in `Option`: every output of a `mapM` that succeeded came from one input.
-/

namespace Except

universe u v

variable {ε : Type u} {α β : Type v}

@[simp] theorem ok_bind (a : α) (f : α → Except ε β) : (Except.ok a >>= f) = f a := rfl

@[simp] theorem error_bind (e : ε) (f : α → Except ε β) : (Except.error e >>= f) = .error e := rfl

@[simp] theorem throw_eq_error (e : ε) : (throw e : Except ε α) = .error e := rfl

@[simp] theorem pure_eq_ok (a : α) : (pure a : Except ε α) = .ok a := rfl

theorem bind_eq_ok {x : Except ε α} {f : α → Except ε β} {b : β} :
    x >>= f = .ok b ↔ ∃ a, x = .ok a ∧ f a = .ok b := by
  cases x <;> simp

/-- A bind fails with `e` when the first computation does, or the continuation on its result. -/
theorem bind_eq_error {x : Except ε α} {f : α → Except ε β} {e : ε} :
    x >>= f = .error e ↔ x = .error e ∨ ∃ a, x = .ok a ∧ f a = .error e := by
  cases x <;> simp

theorem map_eq_error {x : Except ε α} {f : α → β} {e : ε} : f <$> x = .error e ↔ x = .error e := by
  cases x <;> simp [Functor.map, Except.map]

theorem map_eq_ok {x : Except ε α} {f : α → β} {b : β} : x.map f = .ok b ↔ ∃ a, x = .ok a ∧ f a = b := by
  cases x <;> simp [Except.map]

theorem mapError_eq_ok {ε' : Type u} {x : Except ε α} {f : ε → ε'} {a : α} : x.mapError f = .ok a ↔ x = .ok a := by
  cases x with
  | error e => constructor <;> intro h <;> cases h
  | ok a' => constructor <;> intro h <;> cases h <;> rfl

theorem toOption_map {x : Except ε α} {f : α → β} : (x.map f).toOption = x.toOption.map f := by
  cases x <;> rfl

end Except

namespace List

universe u

variable {α β : Type u}

/-- Each output of a `mapM` into `Option` that succeeded is the function's output on an input. -/
theorem exists_of_mem_mapM_eq_some {f : α → Option β} {l : List α} {l' : List β}
    (h : l.mapM f = some l') : ∀ b ∈ l', ∃ a ∈ l, f a = some b := by
  induction l generalizing l' with
  | nil =>
    simp only [List.mapM_nil, pure, Option.some.injEq] at h
    simp [← h]
  | cons a rest ih =>
    simp only [List.mapM_cons, bind, pure, Option.bind_eq_some_iff, Option.some.injEq] at h
    obtain ⟨b, hb, bs, hbs, rfl⟩ := h
    intro b' hb'
    rcases List.mem_cons.mp hb' with rfl | hr
    · exact ⟨a, List.mem_cons_self, hb⟩
    · obtain ⟨a', ha', hfa⟩ := ih hbs b' hr
      exact ⟨a', List.mem_cons_of_mem _ ha', hfa⟩

/-- A loop in `Except` fails with `e` only if the body fails with `e` on some input. -/
theorem mapM_ne_error {ε : Type u} {f : α → Except ε β} {e : ε} {l : List α}
    (h : ∀ a ∈ l, f a ≠ .error e) : l.mapM f ≠ .error e := by
  induction l with
  | nil => simp
  | cons a rest ih =>
    rw [List.mapM_cons, Ne, Except.bind_eq_error]
    rintro (hfa | ⟨b, -, hrest⟩)
    · exact h a List.mem_cons_self hfa
    · rcases Except.bind_eq_error.mp hrest with hmap | ⟨bs, -, hpure⟩
      · exact ih (fun a' ha' => h a' (List.mem_cons_of_mem _ ha')) hmap
      · cases hpure

end List
