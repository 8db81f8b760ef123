import Vite.Net.EndPoint

/-!
# Node ids and their distance (net/vnode/node.go)

A node id is 32 bytes. `commonBits` counts the leading bits two ids share: the equal bytes, then
the leading equal bits of the first byte that differs, which `commonBits` counts by shifting the
bytes' xor left until its top bit is set. `Distance` is the number of bits left, so `0` for equal
ids (`Distance_self`) and at most `IDBits` (`Distance_le`); it is what the routing table sorts
and buckets nodes by.
-/

namespace Vite.Vnode

abbrev idBytes : ℕ := 32
abbrev IDBits : ℕ := idBytes * 8

/-- `vnode.NodeID`, a `[32]byte`. -/
abbrev NodeID := Vector UInt8 idBytes

/-- `vnode.ZERO`. -/
def ZERO : NodeID := Vector.replicate idBytes 0

/-- The first loop of `commonBits`: the first byte where `a` and `b` differ, `idBytes` if none. -/
def firstDiff (a b : NodeID) : ℕ := ((List.range idBytes).find? fun n => a[n]! != b[n]!).getD idBytes

/-- The second loop of `commonBits`: shift `xor` left until its top bit is set, counting. The
fuel is the eight bits of a byte, which a non-zero `xor` never uses up. -/
def leadingZeros : ℕ → UInt8 → ℕ
  | 0, _ => 0
  | fuel + 1, xor => if xor &&& 128 = 0 then leadingZeros fuel (xor <<< 1) + 1 else 0

def commonBits (a b : NodeID) : ℕ :=
  let n := firstDiff a b
  if h : n < idBytes then n * 8 + leadingZeros 8 (a[n] ^^^ b[n]) else IDBits

def Distance (a b : NodeID) : ℕ := IDBits - commonBits a b

/-- `vnode.Node`. -/
structure Node where
  ID : NodeID
  EndPoint : EndPoint
  Net : ℤ
  Ext : List UInt8
  deriving DecidableEq, Repr

theorem firstDiff_self (a : NodeID) : firstDiff a a = idBytes := by
  rw [firstDiff, List.find?_eq_none.mpr (by simp)]
  rfl

@[simp] theorem Distance_self (a : NodeID) : Distance a a = 0 := by
  simp [Distance, commonBits, firstDiff_self]

theorem Distance_le (a b : NodeID) : Distance a b ≤ IDBits := Nat.sub_le _ _

end Vite.Vnode
