import Vite.Lib.BigEndian

/-!
# Prefixes and padded keys in the byte order

Sorted stores compare keys as byte strings, lexicographically. The keys that start with a prefix
lie together: a prefix of bytes `0xff` only bounds them from below (`isPrefix_iff_of_all_max`),
and any other prefix `a ++ c :: m`, with `c < 0xff` and `m` all `0xff`, bounds them from above
by `a ++ [c + 1]` (`isPrefix_iff_between`).

A fixed-width key made of a short key padded with zeros and then its length sorts as the short
keys do (`compare_zeroPad_length`): padding alone would identify `a` with `a ++ [0]`, and the
length byte puts the shorter first, which is where the lexicographic order puts a prefix.
-/

namespace ByteOrder

open BigEndian

/-- `a` padded with zeros to `n` bytes. -/
def zeroPad (a : List UInt8) (n : ℕ) : List UInt8 := a ++ List.replicate (n - a.length) 0

theorem length_zeroPad {a : List UInt8} {n : ℕ} (h : a.length ≤ n) : (zeroPad a n).length = n := by
  simp [zeroPad]
  omega

theorem zeroPad_cons (x : UInt8) (a : List UInt8) (n : ℕ) :
    zeroPad (x :: a) (n + 1) = x :: zeroPad a n := by
  simp [zeroPad]

theorem zeroPad_nil_succ (n : ℕ) : zeroPad [] (n + 1) = 0 :: zeroPad [] n := by
  simp [zeroPad, List.replicate_succ]

theorem take_zeroPad (a : List UInt8) (n : ℕ) : (zeroPad a n).take a.length = a := by
  simp [zeroPad]

section Prefix

/-- A key sorts no earlier than any of its prefixes. -/
theorem compare_append_ne_lt (p t : List UInt8) : compare (p ++ t) p ≠ .lt := by
  conv => enter [1, 2]; rw [← List.append_nil p]
  rw [compare_append_left]
  cases t <;> simp [List.compare_cons_nil]

theorem compare_ne_lt_of_isPrefix {p k : List UInt8} (h : p <+: k) : compare k p ≠ .lt := by
  obtain ⟨t, rfl⟩ := h
  exact compare_append_ne_lt p t

private theorem compare_uInt8_max (x : UInt8) : compare x 255 ≠ .gt := by
  rw [compare_uInt8, Ne, Nat.compare_eq_gt]
  exact Nat.not_lt.mpr (Nat.le_of_lt_succ x.toNat_lt)

/-- Below a prefix of bytes `0xff` there is no upper bound: a key is at least the prefix exactly
when it starts with it. -/
theorem isPrefix_iff_of_all_max {p : List UInt8} (hp : ∀ x ∈ p, x = 255) (k : List UInt8) :
    compare k p ≠ .lt ↔ p <+: k := by
  refine ⟨fun hk => ?_, compare_ne_lt_of_isPrefix⟩
  induction p generalizing k with
  | nil => exact List.nil_prefix
  | cons y p ih =>
    obtain rfl : y = 255 := hp y (by simp)
    cases k with
    | nil => exact absurd List.compare_nil_cons hk
    | cons x k =>
      rw [List.compare_cons_cons] at hk
      have hx : compare x 255 = .eq := by
        rcases h : compare x 255 with _ | _ | _
        · simp [h] at hk
        · rfl
        · exact absurd h (compare_uInt8_max x)
      rw [Std.compare_eq_iff_eq.mp hx]
      rw [hx, Ordering.eq_then] at hk
      exact List.cons_prefix_cons.mpr ⟨rfl, ih (fun z hz => hp z (by simp [hz])) k hk⟩

/-- The bytes of `c + 1` when `c` is not `0xff`. -/
private theorem toNat_succ {c : UInt8} (hc : c ≠ 255) : (c + 1).toNat = c.toNat + 1 := by
  have hlt : c.toNat < 255 := by
    have := c.toNat_lt
    have hne : c.toNat ≠ 255 := fun h => hc (UInt8.toNat_inj.mp h)
    omega
  rw [UInt8.toNat_add, UInt8.toNat_one]
  omega

/-- The keys that start with `a ++ c :: m`, for `c` below `0xff` and `m` all `0xff`, are those
from the prefix up to, and without, `a ++ [c + 1]`. -/
theorem isPrefix_iff_between {a m : List UInt8} {c : UInt8} (hc : c ≠ 255)
    (hm : ∀ x ∈ m, x = 255) (k : List UInt8) :
    (compare k (a ++ c :: m) ≠ .lt ∧ compare k (a ++ [c + 1]) = .lt) ↔ a ++ c :: m <+: k := by
  have hsucc := toNat_succ hc
  constructor
  · rintro ⟨hlo, hhi⟩
    induction a generalizing k with
    | nil =>
      cases k with
      | nil => exact absurd List.compare_nil_cons hlo
      | cons x k =>
        rw [List.nil_append, List.compare_cons_cons] at hlo hhi
        -- `x` is at least `c` and below `c + 1`
        have hge : compare x c ≠ .lt := fun h => hlo (by rw [h]; rfl)
        have hle : compare x (c + 1) = .lt := by
          rcases h : compare x (c + 1) with _ | _ | _
          · rfl
          · simp [h] at hhi
            cases k <;> simp [List.compare_cons_nil] at hhi
          · simp [h] at hhi
        rw [compare_uInt8, Ne, Nat.compare_eq_lt] at hge
        rw [compare_uInt8, Nat.compare_eq_lt, hsucc] at hle
        have hx : x = c := UInt8.toNat_inj.mp (by omega)
        subst hx
        rw [Std.compare_self, Ordering.eq_then] at hlo
        exact List.cons_prefix_cons.mpr ⟨rfl, (isPrefix_iff_of_all_max hm k).mp hlo⟩
    | cons y a ih =>
      cases k with
      | nil => exact absurd List.compare_nil_cons hlo
      | cons x k =>
        rw [List.cons_append, List.compare_cons_cons] at hlo
        rw [List.cons_append, List.compare_cons_cons] at hhi
        rcases h : compare x y with _ | _ | _
        · simp [h] at hlo
        · rw [h, Ordering.eq_then] at hlo hhi
          rw [Std.compare_eq_iff_eq.mp h, List.cons_append]
          exact List.cons_prefix_cons.mpr ⟨rfl, ih k hlo hhi⟩
        · simp [h] at hhi
  · rintro ⟨t, rfl⟩
    refine ⟨compare_append_ne_lt _ t, ?_⟩
    rw [List.append_assoc, compare_append_left, List.cons_append, List.compare_cons_cons,
      compare_uInt8, hsucc, Nat.compare_eq_lt.mpr (Nat.lt_succ_self _)]
    rfl

end Prefix

section Padding

/-- The zero-padded empty key with a smaller length byte sorts before every padded key. -/
private theorem compare_zeros_lt {b : List UInt8} {n : ℕ} (hb : b.length ≤ n) {c d : UInt8}
    (hcd : c.toNat < d.toNat) :
    compare (zeroPad [] n ++ [c]) (zeroPad b n ++ [d]) = .lt := by
  induction b generalizing n with
  | nil =>
    rw [compare_append_left, List.compare_cons_cons, compare_uInt8, Nat.compare_eq_lt.mpr hcd]
    rfl
  | cons y b ih =>
    obtain ⟨n, rfl⟩ : ∃ m, n = m + 1 := ⟨n - 1, by simp at hb; omega⟩
    rw [zeroPad_nil_succ, zeroPad_cons, List.cons_append, List.cons_append, List.compare_cons_cons]
    rcases Nat.eq_zero_or_pos y.toNat with hy | hy
    · rw [show y = 0 from UInt8.toNat_inj.mp hy, Std.compare_self, Ordering.eq_then]
      exact ih (by simp at hb; omega)
    · rw [compare_uInt8, UInt8.toNat_zero, Nat.compare_eq_lt.mpr hy]
      rfl

private theorem toNat_ofNat_lt_toNat_ofNat {c d : ℕ} (hcd : c < d) (hd : d < 256) :
    (UInt8.ofNat c).toNat < (UInt8.ofNat d).toNat := by
  rw [UInt8.toNat_ofNat', UInt8.toNat_ofNat', Nat.mod_eq_of_lt (by simp; omega),
    Nat.mod_eq_of_lt (by simpa using hd)]
  exact hcd

/-- Padding keys of at most `n` bytes to `n` bytes with zeros and appending their length keeps
their order: the padded key of `a` compares with that of `b` as `a` with `b`. -/
theorem compare_zeroPad_length {a b : List UInt8} {n c : ℕ} (ha : a.length ≤ n) (hb : b.length ≤ n)
    (hn : c + n < 256) :
    compare (zeroPad a n ++ [UInt8.ofNat (c + a.length)]) (zeroPad b n ++ [UInt8.ofNat (c + b.length)]) =
      compare a b := by
  induction a generalizing b n c with
  | nil =>
    cases b with
    | nil => simp [Std.compare_self]
    | cons y b =>
      simp only [List.length_cons] at hb
      rw [List.compare_nil_cons]
      exact compare_zeros_lt (by simpa using hb) (toNat_ofNat_lt_toNat_ofNat (by simp) (by simp; omega))
  | cons x a ih =>
    cases b with
    | nil =>
      simp only [List.length_cons] at ha
      rw [List.compare_cons_nil, Std.OrientedOrd.eq_swap,
        compare_zeros_lt (by simpa using ha) (toNat_ofNat_lt_toNat_ofNat (by simp) (by simp; omega))]
      rfl
    | cons y b =>
      obtain ⟨n, rfl⟩ : ∃ m, n = m + 1 := ⟨n - 1, by simp at ha; omega⟩
      simp only [List.length_cons] at ha hb
      rw [zeroPad_cons, zeroPad_cons, List.cons_append, List.cons_append, List.compare_cons_cons,
        List.compare_cons_cons, List.length_cons, List.length_cons, ← Nat.add_assoc, ← Nat.add_assoc,
        Nat.add_right_comm c a.length 1, Nat.add_right_comm c b.length 1,
        ih (c := c + 1) (by omega) (by omega) (by omega)]

end Padding

end ByteOrder
