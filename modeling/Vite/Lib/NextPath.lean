import Mathlib.Data.List.Nodup

/-!
# Paths along `next` pointers

A singly linked structure in a heap is a function `next` from addresses to the address that
follows, `none` at the end. `Path next a ns b` says that from `a` the pointers run through the
addresses `ns` in turn and stop at `b`; a path followed by a `none` at its end is a whole chain,
and a chain from an address is unique (`Path.unique`), so it is finite and acyclic whenever its
addresses are distinct.

A path reads the `next` of every address on it but the last (`reads`): changing `next` anywhere
else leaves it (`Path.congr`). `walk` follows the pointers a given number of times, which on a
chain is indexing into it (`Path.walk_eq`).
-/

namespace NextPath

variable {β : Type*} (next : β → Option β)

/-- From `a` the `next` pointers run through `ns` and stop at `b`. -/
def Path : β → List β → β → Prop
  | a, [], b => a = b
  | a, n :: ns, b => next a = some n ∧ Path n ns b

/-- Follow `next` `i` times from `a`. -/
def walk : ℕ → β → Option β
  | 0, a => some a
  | i + 1, a => (next a).bind (walk i)

/-- The addresses whose `next` a path from `a` through `ns` reads. -/
def reads (a : β) (ns : List β) : List β := (a :: ns).dropLast

variable {next}

@[simp] theorem path_nil {a b : β} : Path next a [] b ↔ a = b := Iff.rfl

@[simp] theorem path_cons {a n b : β} {ns : List β} :
    Path next a (n :: ns) b ↔ next a = some n ∧ Path next n ns b := Iff.rfl

theorem path_append {a c : β} (xs ys : List β) :
    Path next a (xs ++ ys) c ↔ ∃ b, Path next a xs b ∧ Path next b ys c := by
  induction xs generalizing a with
  | nil => simp
  | cons x xs ih =>
    simp only [List.cons_append, path_cons, ih]
    exact ⟨fun ⟨hx, b, hp, hq⟩ => ⟨b, ⟨hx, hp⟩, hq⟩, fun ⟨b, ⟨hx, hp⟩, hq⟩ => ⟨hx, b, hp, hq⟩⟩

theorem Path.eq_getLast {a b : β} {ns : List β} (h : Path next a ns b) :
    b = (a :: ns).getLast (List.cons_ne_nil a ns) := by
  induction ns generalizing a with
  | nil => exact h.symm
  | cons n ns ih => rw [List.getLast_cons (List.cons_ne_nil n ns)]; exact ih h.2

/-- A path from `a` through `ns` has one end. -/
theorem Path.end_unique {a b b' : β} {ns : List β} (h : Path next a ns b) (h' : Path next a ns b') : b = b' :=
  h.eq_getLast.trans h'.eq_getLast.symm

/-- Walking as many steps as a path is long reaches its end. -/
theorem Path.walk_length {a b : β} {ns : List β} (h : Path next a ns b) : walk next ns.length a = some b := by
  induction ns generalizing a with
  | nil => exact congrArg some h
  | cons n ns ih => simp [walk, h.1, ih h.2]

/-- A path only reads the `next` of the addresses it leaves. -/
theorem Path.congr {next' : β → Option β} {a b : β} {ns : List β}
    (hsame : ∀ x ∈ reads a ns, next' x = next x) (h : Path next a ns b) : Path next' a ns b := by
  induction ns generalizing a with
  | nil => exact h
  | cons n ns ih =>
    refine ⟨(hsame a (by simp [reads])).trans h.1, ih (fun x hx => hsame x ?_) h.2⟩
    simp only [reads, List.dropLast_cons_cons] at hx ⊢
    exact List.mem_cons_of_mem a hx

/-- A chain, a path that ends where `next` is `none`, is determined by where it starts. -/
theorem Path.unique {a b b' : β} {ns ns' : List β} (h : Path next a ns b) (hb : next b = none)
    (h' : Path next a ns' b') (hb' : next b' = none) : ns = ns' := by
  induction ns generalizing a ns' with
  | nil =>
    cases ns' with
    | nil => rfl
    | cons n' ns' =>
      have h1 := h'.1
      rw [show a = b from h, hb] at h1
      cases h1
  | cons n ns ih =>
    cases ns' with
    | nil =>
      have h1 := h.1
      rw [show a = b' from h', hb'] at h1
      cases h1
    | cons n' ns' =>
      have hn : n = n' := Option.some.inj (h.1.symm.trans h'.1)
      subst hn
      rw [ih h.2 h'.2]

/-- On a chain, walking `i` steps reaches the `i`-th address, and past its end nothing. -/
theorem Path.walk_eq {a b : β} {ns : List β} (h : Path next a ns b) (hb : next b = none) (i : ℕ) :
    walk next i a = (a :: ns)[i]? := by
  induction ns generalizing a i with
  | nil =>
    cases i with
    | zero => rfl
    | succ i => rw [show a = b from h]; simp [walk, hb]
  | cons n ns ih =>
    cases i with
    | zero => rfl
    | succ i => simp [walk, h.1, ih h.2 i]

/-- On a chain, where `i` steps from its start lead is where its first `i` addresses end. -/
theorem Path.split_walk {a b p : β} {ns : List β} (h : Path next a ns b) (hb : next b = none) {i : ℕ}
    (hw : walk next i a = some p) : Path next a (ns.take i) p ∧ Path next p (ns.drop i) b := by
  induction ns generalizing a i with
  | nil =>
    cases i with
    | zero => cases hw; exact ⟨rfl, h⟩
    | succ i => rw [show a = b from h] at hw; simp [walk, hb] at hw
  | cons n ns ih =>
    cases i with
    | zero => cases hw; exact ⟨rfl, h⟩
    | succ i =>
      rw [walk, h.1, Option.bind_some] at hw
      obtain ⟨h1, h2⟩ := ih h.2 hw
      exact ⟨⟨h.1, h1⟩, h2⟩

/-- The last address of a list without repeats is not among the others. -/
theorem not_mem_dropLast_getLast {l : List β} (hl : l ≠ []) (hnd : l.Nodup) : l.getLast hl ∉ l.dropLast := by
  have h := hnd
  rw [← List.dropLast_concat_getLast hl, List.nodup_append] at h
  exact fun hmem => h.2.2 _ hmem _ (List.mem_singleton_self _) rfl

end NextPath
