import Mathlib.Data.List.Pairwise
import Vite.Lib.ExceptRun

/-!
# Inserting into a sorted list by a walk from one end

A sorted list kept in a doubly linked list takes a new element by a walk from its front or from
its back: the walk passes the elements that belong on the near side of the new one, fails at an
element the comparison cannot place or finds tied, and puts the new element before the first one
that belongs on the far side. `insert cmp tie pass x` is that walk over the list in the order it
is walked, `cmp y` placing `y` against `x` (`lt`: before it, `gt`: after it).

Over a list that `cmp` cuts into the elements before `x`, those it cannot place, and those after
(`Split`), the walk from the front and the walk from the back, run on the reversed list, succeed
together and agree: both put `x` at the cut, and only when nothing is left between
(`insert_lt_of_split`, `insert_gt_reverse_of_split`). A list sorted by a relation that `cmp`
respects is so cut (`split_of_pairwise`).
-/

namespace SortedScan

variable {α ε : Type*}

/-- The walk: pass the elements `cmp` puts on the `pass` side, fail on an error or a tie, and put
`x` before the first other element, or last. -/
def insert (cmp : α → Except ε Ordering) (tie : ε) (pass : Ordering) (x : α) : List α → Except ε (List α)
  | [] => .ok [x]
  | y :: ys =>
    match cmp y with
    | .error e => .error e
    | .ok o =>
      if o = pass then (insert cmp tie pass x ys).map (y :: ·)
      else if o = .eq then .error tie
      else .ok (x :: y :: ys)

variable {cmp : α → Except ε Ordering} {tie : ε} {pass : Ordering} {x : α}

theorem insert_append_of_pass {P : List α} (hP : ∀ y ∈ P, cmp y = .ok pass) (rest : List α) :
    insert cmp tie pass x (P ++ rest) = (insert cmp tie pass x rest).map (P ++ ·) := by
  induction P with
  | nil =>
    rw [List.nil_append]
    cases insert cmp tie pass x rest <;> rfl
  | cons y P ih =>
    have hy := hP y List.mem_cons_self
    rw [List.cons_append, insert, hy]
    dsimp only
    rw [if_pos rfl, ih fun z hz => hP z (List.mem_cons_of_mem y hz)]
    cases insert cmp tie pass x rest <;> rfl

/-- The walk stops at an element on the far side. -/
theorem insert_cons_of_stop {y : α} {o : Ordering} (hy : cmp y = .ok o) (hpass : o ≠ pass) (heq : o ≠ .eq)
    (ys : List α) : insert cmp tie pass x (y :: ys) = .ok (x :: y :: ys) := by
  rw [insert, hy]
  simp only [if_neg hpass, if_neg heq]

/-- The walk fails at an element it cannot place or finds tied. -/
theorem insert_cons_toOption_of_stuck {y : α} (hy : cmp y ≠ .ok pass) (hstop : ∀ o, cmp y = .ok o → o = .eq)
    (ys : List α) : (insert cmp tie pass x (y :: ys)).toOption = none := by
  rw [insert]
  rcases h : cmp y with e | o
  · rfl
  · have ho := hstop o h
    subst ho
    rw [h] at hy
    simp only [if_neg (fun h' => hy (congrArg Except.ok h')), if_true]
    rfl

/-- What a walk that succeeds did: it passed a prefix of the list and put `x` before the rest,
whose first element, if any, lies on the far side. -/
theorem insert_eq_ok {l l' : List α} (h : insert cmp tie pass x l = .ok l') :
    ∃ P Q, l = P ++ Q ∧ l' = P ++ x :: Q ∧ (∀ y ∈ P, cmp y = .ok pass) ∧
      ∀ y ∈ Q.head?, ∃ o, cmp y = .ok o ∧ o ≠ pass ∧ o ≠ .eq := by
  induction l generalizing l' with
  | nil =>
    cases h
    exact ⟨[], [], rfl, rfl, by simp, by simp⟩
  | cons y ys ih =>
    rw [insert] at h
    rcases hy : cmp y with e | o
    · rw [hy] at h
      cases h
    · rw [hy] at h
      dsimp only at h
      by_cases hpass : o = pass
      · -- `y` is passed; the rest of the walk is the walk on `ys`
        rw [if_pos hpass] at h
        cases hr : insert cmp tie pass x ys with
        | error e => rw [hr] at h; cases h
        | ok r =>
          rw [hr] at h
          cases h
          obtain ⟨P, Q, rfl, rfl, hP, hQ⟩ := ih hr
          refine ⟨y :: P, Q, rfl, rfl, ?_, hQ⟩
          rintro z (_ | ⟨_, hz⟩)
          · rw [hy, hpass]
          · exact hP z hz
      · rw [if_neg hpass] at h
        by_cases heq : o = .eq
        · rw [if_pos heq] at h
          cases h
        · rw [if_neg heq] at h
          cases h
          exact ⟨[], y :: ys, rfl, rfl, by simp, fun z hz => by
            cases hz
            exact ⟨o, hy, hpass, heq⟩⟩

/-- An element put between the elements of a sorted list that lie before it and those after it
keeps the list sorted. -/
theorem pairwise_insert_between {R : α → α → Prop} {B F : List α} (hs : (B ++ F).Pairwise R)
    (hB : ∀ y ∈ B, R y x) (hF : ∀ y ∈ F, R x y) : (B ++ x :: F).Pairwise R := by
  rw [List.pairwise_append] at hs ⊢
  refine ⟨hs.1, List.pairwise_cons.mpr ⟨hF, hs.2.1⟩, fun a ha b hb => ?_⟩
  rcases List.mem_cons.mp hb with rfl | hb
  · exact hB a ha
  · exact hs.2.2 a ha b hb

/-- A list that `cmp` cuts into the elements before `x`, those it cannot place or finds tied, and
those after `x`. -/
structure Split (cmp : α → Except ε Ordering) (l P M G : List α) : Prop where
  eq : l = P ++ M ++ G
  before : ∀ y ∈ P, cmp y = .ok .lt
  stuck : ∀ y ∈ M, ∀ o, cmp y = .ok o → o = .eq
  after : ∀ y ∈ G, cmp y = .ok .gt

variable {l P M G : List α}

/-- The walk from the front puts `x` at the cut, when nothing lies between. -/
theorem insert_lt_of_split (h : Split cmp l P M G) :
    (insert cmp tie .lt x l).toOption = if M = [] then some (P ++ x :: G) else none := by
  rw [h.eq, List.append_assoc, insert_append_of_pass h.before, Except.toOption_map]
  cases M with
  | nil =>
    rw [List.nil_append, if_pos rfl]
    cases G with
    | nil => rfl
    | cons g G =>
      rw [insert_cons_of_stop (h.after g List.mem_cons_self) (by decide) (by decide)]
      rfl
  | cons m M =>
    rw [if_neg (List.cons_ne_nil m M), List.cons_append,
      insert_cons_toOption_of_stuck (fun hm => by cases h.stuck m List.mem_cons_self .lt hm)
        (h.stuck m List.mem_cons_self)]
    rfl

/-- The walk from the back, run on the reversed list, puts `x` at the same cut. -/
theorem insert_gt_reverse_of_split (h : Split cmp l P M G) :
    ((insert cmp tie .gt x l.reverse).map List.reverse).toOption =
      if M = [] then some (P ++ x :: G) else none := by
  have hG : ∀ y ∈ G.reverse, cmp y = .ok .gt := fun y hy => h.after y (List.mem_reverse.mp hy)
  rw [h.eq, List.reverse_append, List.reverse_append, insert_append_of_pass hG,
    Except.toOption_map, Except.toOption_map]
  cases hM : M.reverse with
  | nil =>
    rw [List.reverse_eq_nil_iff.mp hM, if_pos rfl, List.nil_append]
    cases hP : P.reverse with
    | nil =>
      rw [List.reverse_eq_nil_iff.mp hP]
      simp [insert, Except.toOption]
    | cons p P' =>
      have hp : p ∈ P := List.mem_reverse.mp (hP ▸ List.mem_cons_self)
      rw [insert_cons_of_stop (h.before p hp) (by decide) (by decide)]
      simp only [Except.toOption, Option.map_some, List.reverse_append,
        List.reverse_cons, ← hP, List.reverse_reverse, List.append_assoc, List.singleton_append]
  | cons m M' =>
    have hm : m ∈ M := List.mem_reverse.mp (hM ▸ List.mem_cons_self)
    rw [if_neg (fun h0 => by simp [h0] at hM), List.cons_append,
      insert_cons_toOption_of_stuck (fun hm' => by cases h.stuck m hm .gt hm') (h.stuck m hm)]
    rfl

/-- A list sorted by a relation that `cmp` respects is cut by `cmp`: what comes before an element
placed before `x` is placed before it, what comes after an element placed after `x` is placed
after it. -/
theorem split_of_pairwise {R : α → α → Prop} (hl : l.Pairwise R)
    (hlt : ∀ a ∈ l, ∀ b ∈ l, R a b → cmp b = .ok .lt → cmp a = .ok .lt)
    (hgt : ∀ a ∈ l, ∀ b ∈ l, R a b → cmp a = .ok .gt → cmp b = .ok .gt) :
    ∃ P M G, Split cmp l P M G := by
  induction l with
  | nil => exact ⟨[], [], [], ⟨rfl, by simp, by simp, by simp⟩⟩
  | cons a l ih =>
    obtain ⟨ha, hl⟩ := List.pairwise_cons.mp hl
    obtain ⟨P, M, G, hs⟩ := ih hl (fun a' ha' b hb => hlt a' (List.mem_cons_of_mem a ha') b (List.mem_cons_of_mem a hb))
      (fun a' ha' b hb => hgt a' (List.mem_cons_of_mem a ha') b (List.mem_cons_of_mem a hb))
    have hmem : ∀ y, y ∈ P ∨ y ∈ M ∨ y ∈ G → y ∈ l := fun y hy => by
      rw [hs.eq]
      simp only [List.mem_append]
      exact or_assoc.mpr hy
    by_cases hlt' : cmp a = .ok .lt
    · exact ⟨a :: P, M, G, ⟨by simp [hs.eq], by simpa [hlt'] using hs.before, hs.stuck, hs.after⟩⟩
    by_cases hgt' : cmp a = .ok .gt
    · -- everything after `a` is placed after `x`
      have hall : ∀ y ∈ l, cmp y = .ok .gt := fun y hy =>
        hgt a List.mem_cons_self y (List.mem_cons_of_mem a hy) (ha y hy) hgt'
      have hP : P = [] := List.eq_nil_iff_forall_not_mem.mpr fun y hy => by
        have := hall y (hmem y (.inl hy))
        rw [hs.before y hy] at this
        cases this
      have hM : M = [] := List.eq_nil_iff_forall_not_mem.mpr fun y hy => by
        cases hs.stuck y hy .gt (hall y (hmem y (.inr (.inl hy))))
      subst hP hM
      exact ⟨[], [], a :: G, ⟨by simp [hs.eq], by simp, by simp, by simpa [hgt'] using hs.after⟩⟩
    -- `a` is stuck: nothing after it is placed before `x`
    have hstuck : ∀ o, cmp a = .ok o → o = .eq := by
      intro o ho
      cases o with
      | lt => exact absurd ho hlt'
      | eq => rfl
      | gt => exact absurd ho hgt'
    have hP : P = [] := List.eq_nil_iff_forall_not_mem.mpr fun y hy =>
      hlt' (hlt a List.mem_cons_self y (List.mem_cons_of_mem a (hmem y (.inl hy))) (ha y (hmem y (.inl hy)))
        (hs.before y hy))
    subst hP
    refine ⟨[], a :: M, G, ⟨by simp [hs.eq], by simp, ?_, hs.after⟩⟩
    rintro y (_ | ⟨_, hy⟩)
    · exact hstuck
    · exact hs.stuck y hy

end SortedScan
