import Mathlib

/-!
# Endpoints and their serialization (net/vnode/endpoint.go)

An `EndPoint` is a host, its bytes an IP or a domain name, a port and a host type. `Serialize`
writes a meta byte (the host length in its top six bits, then the domain and port flags), the host
and, unless the port is `DefaultPort`, two port bytes, not with protocol buffers, so that the
length of the result is known before it is written: it is `Length()` whenever `Serialize` succeeds
(`Serialize_length`), and `Serialize` succeeds exactly on hosts of 1 to `MaxHostLength` bytes
(`Serialize_ok_iff`).
-/

namespace Vite.Vnode

/-- `vnode.HostType`, a byte. -/
abbrev HostType := UInt8

def HostIPv4 : HostType := 1
def HostIPv6 : HostType := 2
def HostIP : HostType := 3
def HostDomain : HostType := 4

def DefaultPort : ℤ := 8483
def PortLength : ℕ := 2
def MaxHostLength : ℕ := 2 ^ 6 - 1

/-- `net.IPv6len`. -/
def IPv6len : ℕ := 16

/-- `vnode.EndPoint`; `Port` is a Go `int`. -/
structure EndPoint where
  Host : List UInt8
  Port : ℤ
  Typ : HostType
  deriving DecidableEq, Repr

inductive EndPointError where
  | errMissHost
  | errInvalidHost
  deriving DecidableEq, Repr

/-- `byte(x)` of a Go `int`: its low eight bits. -/
def byteOf (x : ℤ) : UInt8 := (x % 256).toNat.toUInt8

namespace EndPoint

def Length (e : EndPoint) : ℕ :=
  1 + e.Host.length + if e.Port ≠ DefaultPort then PortLength else 0

def Serialize (e : EndPoint) : Except EndPointError (List UInt8) :=
  let hLen := e.Host.length
  if hLen = 0 then .error .errMissHost
  else if hLen > MaxHostLength then .error .errInvalidHost
  else
    let metaByte : UInt8 := (hLen.toUInt8 <<< 2) |||
      (if e.Typ = HostDomain ∨ hLen > IPv6len then 2 else 0) |||
      (if e.Port ≠ DefaultPort then 1 else 0)
    -- the port goes big-endian into the last two bytes
    .ok (metaByte :: e.Host ++ if e.Port ≠ DefaultPort then [byteOf (e.Port / 256), byteOf e.Port] else [])

variable {e : EndPoint}

theorem Serialize_ok_iff : (∃ buf, e.Serialize = .ok buf) ↔ 1 ≤ e.Host.length ∧ e.Host.length ≤ MaxHostLength := by
  unfold Serialize
  dsimp only
  by_cases h0 : e.Host.length = 0
  · rw [if_pos h0]
    simp [h0]
  · by_cases hmax : e.Host.length > MaxHostLength
    · rw [if_neg h0, if_pos hmax]
      simp only [reduceCtorEq, exists_false, false_iff, not_and]
      omega
    · rw [if_neg h0, if_neg hmax]
      simp only [Except.ok.injEq, exists_eq', true_iff]
      omega

/-- What `Serialize` writes is `Length()` bytes long. -/
theorem Serialize_length {buf : List UInt8} (h : e.Serialize = .ok buf) : buf.length = e.Length := by
  unfold Serialize at h
  dsimp only at h
  by_cases h0 : e.Host.length = 0
  · rw [if_pos h0] at h
    cases h
  · by_cases hmax : e.Host.length > MaxHostLength
    · rw [if_neg h0, if_pos hmax] at h
      cases h
    · rw [if_neg h0, if_neg hmax] at h
      cases h
      unfold Length
      by_cases hp : e.Port ≠ DefaultPort <;> simp [hp, PortLength] <;> omega

/-- A host of at most `MaxHostLength` bytes serializes to at most 66 bytes. -/
theorem Length_le (hmax : e.Host.length ≤ MaxHostLength) : e.Length ≤ 66 := by
  unfold Length
  split_ifs <;> simp only [MaxHostLength, PortLength] at hmax ⊢ <;> omega

end EndPoint

end Vite.Vnode
