import Vite.Lib.ByteOrder
import Vite.Lib.TableIter

/-!
# Storage iterators and the sorted tables under them

`interfaces.StorageIterator` is what the VM and the chain state hand out to walk a key range:
`Last`, `Prev`, `Seek` and `Next` move and say whether they stand at a key, `Key` and `Value`
read where they stand, and `Error` tells a walk that ran out from one that failed. Go's interface
becomes a record of those operations over a state type, each `none` where it panics. Its one
addition is `rank`, the number of moves a state still has in a direction: the skip loops of the
iterators built on top (`MergedIterator`, the snapshot iterator) run for as many moves as their
source allows, and `Ranked` says that each move that succeeds uses one up.

The iterators at the bottom are those of a sorted table, leveldb's database and its in-memory
`memdb`: a table is a list of entries strictly increasing in key, `NewIterator` walks the entries
of a range (`BytesPrefix`, the range of keys with a given prefix, `contains_BytesPrefix`), and
`Yields` says what `Next` returns from a state on. A table iterator yields what is left of its
range (`tableIterator_yields`).
-/

namespace Vite.Db

open ByteOrder TableIter

abbrev Bytes := List UInt8

/-- The errors `Error` reports: leveldb's `ErrNotFound`, or another one. -/
inductive IterError where
  | ErrNotFound
  | other (msg : String)
  deriving DecidableEq, Repr

/-- The error a walk stops at, `err != nil && err != leveldb.ErrNotFound`: running off the end of
a leveldb iterator is not one. -/
def fatalError : Option IterError → Option IterError
  | some .ErrNotFound => none
  | e => e

/-- `interfaces.StorageIterator`, each operation `none` where it panics. `Key` and `Value` give
`none` for Go's `nil`, `Error` `none` for no error. `Release` frees nothing the model keeps. -/
structure StorageIterator (ι : Type) where
  Last : ι → Option (ι × Bool)
  Prev : ι → Option (ι × Bool)
  Seek : Bytes → ι → Option (ι × Bool)
  Next : ι → Option (ι × Bool)
  Key : ι → Option (Option Bytes)
  Value : ι → Option (Option Bytes)
  Error : ι → Option IterError
  /-- How many more moves forward (`true`) or backward (`false`) can succeed. -/
  rank : Bool → ι → ℕ

variable {ι : Type}

/-- Every successful move lowers the rank of its direction. -/
def StorageIterator.Ranked (I : StorageIterator ι) : Prop :=
  ∀ it it', (I.Next it = some (it', true) → I.rank true it' < I.rank true it) ∧
    (I.Prev it = some (it', true) → I.rank false it' < I.rank false it)

/-- `Next` from `it` stands at the entries of `l` in turn, with their keys and values, and then
reports the end with no error a walk stops at. -/
def Yields (I : StorageIterator ι) : ι → List (Bytes × Bytes) → Prop
  | it, [] => ∃ it', I.Next it = some (it', false) ∧ fatalError (I.Error it') = none
  | it, e :: l => ∃ it', I.Next it = some (it', true) ∧ I.Key it' = some (some e.1) ∧
      I.Value it' = some (some e.2) ∧ Yields I it' l

/-- Keys strictly increasing in the byte order. -/
def KeysIncrease (l : List (Bytes × Bytes)) : Prop := l.Pairwise fun a b => compare a.1 b.1 = .lt

instance (l : List (Bytes × Bytes)) : Decidable (KeysIncrease l) :=
  inferInstanceAs (Decidable (l.Pairwise _))

/-- `Next` from `it` returns the entries that satisfy `V`, each once, in increasing key order. -/
def YieldsInOrder (I : StorageIterator ι) (it : ι) (V : Bytes × Bytes → Prop) : Prop :=
  ∃ L, Yields I it L ∧ KeysIncrease L ∧ ∀ e, e ∈ L ↔ V e

/-- In a list of increasing keys an entry is known by its key. -/
theorem KeysIncrease.eq_of_fst_eq {l : List (Bytes × Bytes)} (hl : KeysIncrease l) {a b : Bytes × Bytes}
    (ha : a ∈ l) (hb : b ∈ l) (hab : a.1 = b.1) : a = b := by
  induction l with
  | nil => cases ha
  | cons x l ih =>
    obtain ⟨hx, hl⟩ := List.pairwise_cons.mp hl
    rcases List.mem_cons.mp ha with rfl | ha' <;> rcases List.mem_cons.mp hb with rfl | hb'
    · rfl
    · have hlt := hx b hb'
      rw [hab, Std.compare_self] at hlt
      cases hlt
    · have hlt := hx a ha'
      rw [← hab, Std.compare_self] at hlt
      cases hlt
    · exact ih hl ha' hb'

/-! ## Ranges -/

/-- `util.Range`: from `Start` on, below `Limit` when there is one. -/
structure Range where
  Start : Bytes
  Limit : Option Bytes

/-- Whether a key lies in a range, as `memdb`'s `fill` and leveldb's iterators check it. -/
def Range.contains (r : Range) (key : Bytes) : Bool :=
  compare key r.Start != .lt &&
    match r.Limit with
    | none => true
    | some limit => compare key limit == .lt

/-- The limit of `BytesPrefix`, from the prefix read backwards: the last byte below `0xff` goes up
by one and what follows it is dropped; there is no limit when every byte is `0xff`. -/
def prefixLimit : Bytes → Option Bytes
  | [] => none
  | c :: cs => if c < 0xff then some (cs.reverse ++ [c + 1]) else prefixLimit cs

/-- `util.BytesPrefix`. -/
def BytesPrefix (pfx : Bytes) : Range := ⟨pfx, prefixLimit pfx.reverse⟩

private theorem contains_prefixLimit (cs m : Bytes) (hm : ∀ x ∈ m, x = 255) (key : Bytes) :
    Range.contains ⟨cs.reverse ++ m, prefixLimit cs⟩ key = true ↔ cs.reverse ++ m <+: key := by
  induction cs generalizing m with
  | nil =>
    simp only [Range.contains, prefixLimit, List.reverse_nil, List.nil_append, Bool.and_true,
      bne_iff_ne, ne_eq]
    exact isPrefix_iff_of_all_max hm key
  | cons c cs ih =>
    rw [List.reverse_cons, List.append_assoc, List.singleton_append]
    by_cases hc : c < 0xff
    · have hne : c ≠ 255 := fun h => by subst h; exact absurd hc (by decide)
      simp only [Range.contains, prefixLimit, if_pos hc, Bool.and_eq_true, bne_iff_ne, ne_eq,
        beq_iff_eq]
      exact isPrefix_iff_between hne hm key
    · have hff : c = 255 := by
        have := c.toNat_lt
        rw [UInt8.lt_iff_toNat_lt] at hc
        exact UInt8.toNat_inj.mp (by simp at hc ⊢; omega)
      simp only [prefixLimit, if_neg hc]
      exact ih (c :: m) (by simp [hff, or_imp]; exact hm)

/-- `BytesPrefix` is the range of the keys that start with the prefix. -/
theorem contains_BytesPrefix (pfx key : Bytes) :
    (BytesPrefix pfx).contains key = true ↔ pfx <+: key := by
  have h := contains_prefixLimit pfx.reverse [] (by simp) key
  rwa [List.reverse_reverse, List.append_nil] at h

/-! ## Iterators over a sorted table -/

/-- A sorted table: the entries of a leveldb database or of a `memdb`, keys increasing. -/
abbrev Table := List (Bytes × Bytes)

/-- `memdb.DB.Put`: the value of an existing key is replaced, a new key goes in its place. -/
def Table.Put (key value : Bytes) : Table → Table
  | [] => [(key, value)]
  | e :: t =>
    match compare key e.1 with
    | .lt => (key, value) :: e :: t
    | .eq => (key, value) :: t
    | .gt => e :: Table.Put key value t

/-- `Get`: the value of a key. -/
def Table.Get (t : Table) (key : Bytes) : Option Bytes := (t.find? fun e => e.1 == key).map Prod.snd

/-- An iterator of a table over a range: the entries of the range and where it stands. -/
structure TableIterator where
  entries : List (Bytes × Bytes)
  pos : Pos entries.length

/-- `NewIterator(slice)` of a table: it starts before the first entry of the range. -/
def Table.NewIterator (t : Table) (slice : Range) : TableIterator :=
  ⟨t.filter fun e => slice.contains e.1, .head⟩

def TableIterator.at (it : TableIterator) (pos : Pos it.entries.length) : TableIterator × Bool :=
  (⟨it.entries, pos⟩, (get? it.entries pos).isSome)

/-- A table iterator: `Seek` stands at the first key not below the target; it neither panics
nor fails. -/
def tableIterator : StorageIterator TableIterator where
  Last it := some (it.at (last it.entries))
  Prev it := some (it.at (prev it.entries it.pos))
  Seek key it := some (it.at (seek it.entries fun e => compare e.1 key != .lt))
  Next it := some (it.at (next it.entries it.pos))
  Key it := some ((get? it.entries it.pos).map Prod.fst)
  Value it := some ((get? it.entries it.pos).map Prod.snd)
  Error _ := none
  rank toNext it := if toNext then (rest it.entries it.pos).length else (before it.entries it.pos).length

theorem tableIterator_ranked : tableIterator.Ranked := by
  intro it it'
  constructor
  · intro h
    simp only [tableIterator, TableIterator.at, Option.some.injEq, Prod.mk.injEq] at h
    obtain ⟨rfl, h⟩ := h
    simp only [get?_next, Option.isSome_iff_ne_none, ne_eq, List.head?_eq_none_iff] at h
    simp only [tableIterator, if_true, rest_next, List.length_tail]
    have := List.length_pos_iff.mpr h
    omega
  · intro h
    simp only [tableIterator, TableIterator.at, Option.some.injEq, Prod.mk.injEq] at h
    obtain ⟨rfl, h⟩ := h
    simp only [get?_prev, Option.isSome_iff_ne_none, ne_eq, List.head?_eq_none_iff] at h
    simp only [tableIterator, Bool.false_eq_true, if_false, before_prev, List.length_tail]
    have := List.length_pos_iff.mpr h
    omega

/-- A table iterator yields the entries after its position. -/
theorem tableIterator_yields (it : TableIterator) : Yields tableIterator it (rest it.entries it.pos) := by
  obtain ⟨l, pos⟩ := it
  -- the walk is an induction on what is left to visit
  generalize hr : rest l pos = r
  induction r generalizing pos with
  | nil =>
    refine ⟨⟨l, next l pos⟩, ?_, rfl⟩
    show some (_, (get? l (next l pos)).isSome) = some (_, false)
    rw [get?_next, hr]
    rfl
  | cons e r ih =>
    refine ⟨⟨l, next l pos⟩, ?_, ?_, ?_, ih (next l pos) (by rw [rest_next, hr]; rfl)⟩ <;>
      simp only [tableIterator, TableIterator.at, get?_next, hr] <;> rfl

end Vite.Db
