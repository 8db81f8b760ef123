import Vite.Net.Node
import Vite.Lib.Protobuf

/-!
# Neighbour packets (net/discovery/message.go, socket.go)

A discovery packet is the version and code bytes, the sender's id, the payload and its 64-byte
signature, so `maxPacketLength - minPacketLength = maxPayloadLength` bytes are left for the payload
(`length_pack`). `sendNodes` answers a query with the endpoints cut by `splitEndPoints` into chunks,
each sent as the protocol buffer of a `neighbors` message.

`splitEndPoints` keeps every endpoint, in order (`flatten_splitEndPoints`), in chunks that are never
empty (`splitEndPoints_ne_nil`). It counts the serialized lengths of the endpoints, not what the
protocol buffer adds to each, two bytes, and it does not count the endpoint that closes a chunk
in the next one. A chunk may therefore carry a payload over `maxPayloadLength`: 161 IPv4 endpoints
on the default port give a first chunk of 160, whose packet is 1218 bytes
(`sendNodes_exceeds_maxPacketLength`).
-/

namespace Vite.Discovery

open Vite.Vnode Protobuf

def version : UInt8 := 0
def maxPacketLength : ℕ := 1200
def signatureLength : ℕ := 64
def packetHeadLength : ℕ := 1 + 1 + idBytes
def minPacketLength : ℕ := packetHeadLength + signatureLength
def maxPayloadLength : ℕ := maxPacketLength - minPacketLength

/-- `codeNeighbors`, the fourth of `codePing`, `codePong`, `codeFindnode`, `codeNeighbors`. -/
def codeNeighbors : UInt8 := 3

/-- `neighbors`; `time` is `time.Unix()`. -/
structure neighbors where
  endpoints : List EndPoint
  last : Bool
  time : Int64

/-- `proto.Marshal` of a `protos.Neighbors`: the fields `nodes = 1`, `last = 2` and `time = 3`. -/
def marshalNeighbors (nodes : List (List UInt8)) (last : Bool) (time : Int64) : List UInt8 :=
  nodes.flatMap (bytesField 1) ++ varintField 2 (if last then 1 else 0) ++ varintField 3 time.toUInt64.toNat

/-- `neighbors.serialize`: an endpoint that does not serialize is left out. -/
def neighbors.serialize (n : neighbors) : List UInt8 :=
  marshalNeighbors (n.endpoints.filterMap fun ep => ep.Serialize.toOption) n.last n.time

/-- `pack`'s packet: `sign` is `ed25519.Sign` with the key whose public half is `pub`. -/
def pack (pub : NodeID) (sign : List UInt8 → Vector UInt8 signatureLength) (c : UInt8) (payload : List UInt8) :
    List UInt8 :=
  [version, c] ++ pub.toList ++ payload ++ (sign payload).toList

/-- The loop of `splitEndPoints` over the endpoints `rest`, the first of them at index `i`: the
chunk being filled starts at `sent` and has counted `bytes`. It returns `sent` and the chunks. -/
def splitLoop (eps : List EndPoint) : List EndPoint → ℕ → ℕ → ℕ → List (List EndPoint) →
    ℕ × List (List EndPoint)
  | [], _, sent, _, ept => (sent, ept)
  | ep :: rest, i, sent, bytes, ept =>
    let bytes := bytes + ep.Length
    if bytes + 300 > maxPayloadLength then splitLoop eps rest (i + 1) i 0 (ept ++ [(eps.drop sent).take (i - sent)])
    else splitLoop eps rest (i + 1) sent bytes ept

def splitEndPoints (eps : List EndPoint) : List (List EndPoint) :=
  let (sent, ept) := splitLoop eps eps 0 0 0 []
  if sent ≠ eps.length then ept ++ [eps.drop sent] else ept

/-- The packets `sendNodes` writes, in turn, until a write fails. -/
def sendNodes (pub : NodeID) (sign : List UInt8 → Vector UInt8 signatureLength) (eps : List EndPoint)
    (time : Int64) : List (List UInt8) :=
  let ept := splitEndPoints eps
  ept.zipIdx.map fun e => pack pub sign codeNeighbors (neighbors.serialize ⟨e.1, e.2 == ept.length - 1, time⟩)

theorem length_pack (pub : NodeID) (sign : List UInt8 → Vector UInt8 signatureLength) (c : UInt8)
    (payload : List UInt8) : (pack pub sign c payload).length = minPacketLength + payload.length := by
  simp only [pack, List.length_append, List.length_cons, List.length_nil, Vector.length_toList, minPacketLength,
    packetHeadLength]
  omega

/-! ## The payload -/

section Payload

variable {eps : List EndPoint}

/-- Endpoints with hosts of 1 to `MaxHostLength` bytes all serialize, each to `Length()` bytes. -/
theorem length_serialized (hv : ∀ ep ∈ eps, 1 ≤ ep.Host.length ∧ ep.Host.length ≤ MaxHostLength) :
    (eps.filterMap fun ep => ep.Serialize.toOption).map List.length = eps.map EndPoint.Length := by
  induction eps with
  | nil => rfl
  | cons ep eps ih =>
    obtain ⟨buf, hbuf⟩ := EndPoint.Serialize_ok_iff.mpr (hv ep List.mem_cons_self)
    rw [List.filterMap_cons, hbuf, Except.toOption, List.map_cons, List.map_cons, EndPoint.Serialize_length hbuf,
      ih fun e he => hv e (List.mem_cons_of_mem ep he)]

theorem length_flatMap_bytesField {nodes : List (List UInt8)} (h : ∀ b ∈ nodes, b.length < 128) :
    (nodes.flatMap (bytesField 1)).length = (nodes.map fun b => b.length + 2).sum := by
  induction nodes with
  | nil => rfl
  | cons b nodes ih =>
    rw [List.flatMap_cons, List.length_append, length_bytesField (by norm_num) (h b List.mem_cons_self),
      ih fun b' hb' => h b' (List.mem_cons_of_mem b hb'), List.map_cons, List.sum_cons]

/-- The payload carries each endpoint's `Length()` bytes and two bytes more of protocol buffer. -/
theorem le_length_serialize (hv : ∀ ep ∈ eps, 1 ≤ ep.Host.length ∧ ep.Host.length ≤ MaxHostLength)
    (last : Bool) (time : Int64) :
    (eps.map fun ep => ep.Length + 2).sum ≤ (neighbors.serialize ⟨eps, last, time⟩).length := by
  have hlen := length_serialized hv
  have hsmall : ∀ b ∈ eps.filterMap (fun ep => ep.Serialize.toOption), b.length < 128 := fun b hb => by
    obtain ⟨ep, hep, hb⟩ := List.mem_map.mp (hlen ▸ List.mem_map_of_mem hb)
    have := EndPoint.Length_le (hv ep hep).2
    omega
  have hnodes : ((eps.filterMap fun ep => ep.Serialize.toOption).map fun b => b.length + 2).sum =
      (eps.map fun ep => ep.Length + 2).sum := by
    have h := congrArg (fun l => (l.map (· + 2)).sum) hlen
    simpa only [List.map_map, Function.comp_def] using h
  rw [neighbors.serialize, marshalNeighbors, List.length_append, List.length_append, length_flatMap_bytesField hsmall,
    hnodes]
  omega

end Payload

/-! ## The chunks -/

/-- What the loop of `splitEndPoints` keeps at index `i`: the chunks so far are the endpoints before
`sent`, none empty, each within the limit counting all its endpoints but the first; the chunk being
filled has counted its endpoints but the first, and nothing while it is empty. -/
structure SplitInv (eps : List EndPoint) (i sent bytes : ℕ) (ept : List (List EndPoint)) : Prop where
  sent_le : sent ≤ i
  le_length : i ≤ eps.length
  flatten : ept.flatten = eps.take sent
  ne_nil : ∀ c ∈ ept, c ≠ []
  chunks_le : ∀ c ∈ ept, (c.tail.map EndPoint.Length).sum + 300 ≤ maxPayloadLength
  counted : (((eps.drop sent).take (i - sent)).tail.map EndPoint.Length).sum ≤ bytes
  bytes_le : bytes + 300 ≤ maxPayloadLength
  fresh : sent = i → bytes = 0

section Split

variable {eps : List EndPoint}

theorem take_drop_succ {i sent : ℕ} (hsent : sent ≤ i) {ep : EndPoint} {rest : List EndPoint}
    (hrest : eps.drop i = ep :: rest) : (eps.drop sent).take (i + 1 - sent) = (eps.drop sent).take (i - sent) ++ [ep] := by
  have hget : (eps.drop sent)[i - sent]? = some ep := by
    rw [List.getElem?_drop, show sent + (i - sent) = i by omega, ← Nat.add_zero i, ← List.getElem?_drop, hrest]
    rfl
  rw [show i + 1 - sent = i - sent + 1 by omega, List.take_add_one, hget]
  rfl

theorem sum_tail_append_le (l : List EndPoint) (x : EndPoint) :
    ((l ++ [x]).tail.map EndPoint.Length).sum ≤ (l.tail.map EndPoint.Length).sum + x.Length := by
  cases l with
  | nil => simp
  | cons y l => simp

/-- A step that closes the chunk: it is the endpoints from `sent` up to `i`, not empty, since a
chunk left empty has counted nothing and no endpoint is over the limit alone. -/
theorem SplitInv.split {i sent bytes : ℕ} {ept : List (List EndPoint)} (h : SplitInv eps i sent bytes ept)
    {ep : EndPoint} {rest : List EndPoint} (hrest : eps.drop i = ep :: rest)
    (hL : ep.Length + 300 ≤ maxPayloadLength) (hsplit : bytes + ep.Length + 300 > maxPayloadLength) :
    SplitInv eps (i + 1) i 0 (ept ++ [(eps.drop sent).take (i - sent)]) := by
  have hi : i < eps.length := by
    have := congrArg List.length hrest
    rw [List.length_drop, List.length_cons] at this
    omega
  have hsent : sent < i := lt_of_le_of_ne h.sent_le fun he => by
    have := h.fresh he
    omega
  refine ⟨Nat.le_succ i, hi, ?_, fun c hc => ?_, fun c hc => ?_, ?_, by unfold maxPayloadLength; decide, by omega⟩
  · rw [List.flatten_append, h.flatten, List.flatten_singleton, ← List.take_add, Nat.add_sub_cancel' h.sent_le]
  · rcases List.mem_append.mp hc with hc | hc
    · exact h.ne_nil c hc
    · rw [List.mem_singleton.mp hc, Ne, List.take_eq_nil_iff, List.drop_eq_nil_iff]
      omega
  · rcases List.mem_append.mp hc with hc | hc
    · exact h.chunks_le c hc
    · rw [List.mem_singleton.mp hc]
      exact le_trans (Nat.add_le_add_right h.counted 300) h.bytes_le
  · rw [Nat.add_sub_cancel_left, hrest]
    simp

/-- A step that goes on filling the chunk, counting one more endpoint. -/
theorem SplitInv.keep {i sent bytes : ℕ} {ept : List (List EndPoint)} (h : SplitInv eps i sent bytes ept)
    {ep : EndPoint} {rest : List EndPoint} (hrest : eps.drop i = ep :: rest)
    (hkeep : ¬ bytes + ep.Length + 300 > maxPayloadLength) :
    SplitInv eps (i + 1) sent (bytes + ep.Length) ept := by
  have hi : i < eps.length := by
    have := congrArg List.length hrest
    rw [List.length_drop, List.length_cons] at this
    omega
  refine ⟨Nat.le_succ_of_le h.sent_le, hi, h.flatten, h.ne_nil, h.chunks_le, ?_, by omega, fun he => ?_⟩
  · rw [take_drop_succ h.sent_le hrest]
    exact le_trans (sum_tail_append_le _ ep) (Nat.add_le_add_right h.counted _)
  · have := h.sent_le
    omega

/-- The loop keeps `SplitInv` to its end, where it has gone through every endpoint. -/
theorem SplitInv.run (hL : ∀ ep ∈ eps, ep.Length + 300 ≤ maxPayloadLength) :
    ∀ rest i sent bytes ept, SplitInv eps i sent bytes ept → eps.drop i = rest →
      ∃ bytes', SplitInv eps eps.length (splitLoop eps rest i sent bytes ept).1 bytes'
        (splitLoop eps rest i sent bytes ept).2 := by
  -- an induction on the endpoints left, the loop's state generalized
  intro rest
  induction rest with
  | nil =>
    intro i sent bytes ept h hrest
    have hi : i = eps.length := le_antisymm h.le_length (List.drop_eq_nil_iff.mp hrest)
    subst hi
    exact ⟨bytes, h⟩
  | cons ep rest ih =>
    intro i sent bytes ept h hrest
    have hnext : eps.drop (i + 1) = rest := by rw [← List.tail_drop, hrest, List.tail_cons]
    have hep : ep ∈ eps := List.mem_of_mem_drop (hrest ▸ List.mem_cons_self)
    unfold splitLoop
    dsimp only
    by_cases hsplit : bytes + ep.Length + 300 > maxPayloadLength
    · rw [if_pos hsplit]
      exact ih _ _ _ _ (h.split hrest (hL ep hep) hsplit) hnext
    · rw [if_neg hsplit]
      exact ih _ _ _ _ (h.keep hrest hsplit) hnext

/-- `splitEndPoints` keeps every endpoint, in order, in chunks none of which is empty, each within
the limit counting all its endpoints but the first. -/
theorem splitEndPoints_spec (hL : ∀ ep ∈ eps, ep.Length + 300 ≤ maxPayloadLength) :
    (splitEndPoints eps).flatten = eps ∧ ∀ c ∈ splitEndPoints eps,
      c ≠ [] ∧ (c.tail.map EndPoint.Length).sum + 300 ≤ maxPayloadLength := by
  have hinit : SplitInv eps 0 0 0 [] :=
    ⟨le_refl 0, Nat.zero_le _, rfl, by simp, by simp, by simp, by unfold maxPayloadLength; decide, fun _ => rfl⟩
  obtain ⟨bytes, h⟩ := SplitInv.run hL eps 0 0 0 [] hinit (List.drop_zero)
  unfold splitEndPoints
  rcases hloop : splitLoop eps eps 0 0 0 [] with ⟨sent, ept⟩
  rw [hloop] at h
  dsimp only
  by_cases hsent : sent = eps.length
  · -- every endpoint went into a closed chunk
    rw [if_neg (not_not.mpr hsent), h.flatten, hsent, List.take_length]
    exact ⟨rfl, fun c hc => ⟨h.ne_nil c hc, h.chunks_le c hc⟩⟩
  · -- the endpoints from `sent` on make the last chunk
    have hlt : sent < eps.length := lt_of_le_of_ne h.sent_le hsent
    have hlast : (eps.drop sent).take (eps.length - sent) = eps.drop sent := List.take_of_length_le (by simp)
    rw [if_pos hsent, List.flatten_append, h.flatten, List.flatten_singleton, List.take_append_drop]
    refine ⟨rfl, fun c hc => ?_⟩
    rcases List.mem_append.mp hc with hc | hc
    · exact ⟨h.ne_nil c hc, h.chunks_le c hc⟩
    · rw [List.mem_singleton.mp hc]
      refine ⟨by simpa [List.drop_eq_nil_iff] using hlt, ?_⟩
      rw [← hlast]
      exact le_trans (Nat.add_le_add_right h.counted 300) h.bytes_le

/-- Two IPv4 endpoints go into one chunk. -/
theorem splitEndPoints_spec_two :
    (∀ ep ∈ ([⟨[10, 0, 0, 1], DefaultPort, HostIPv4⟩, ⟨[10, 0, 0, 2], DefaultPort, HostIPv4⟩] :
        List EndPoint), ep.Length + 300 ≤ maxPayloadLength) ∧
      (splitEndPoints [⟨[10, 0, 0, 1], DefaultPort, HostIPv4⟩, ⟨[10, 0, 0, 2], DefaultPort, HostIPv4⟩]).flatten =
        [⟨[10, 0, 0, 1], DefaultPort, HostIPv4⟩, ⟨[10, 0, 0, 2], DefaultPort, HostIPv4⟩] ∧
      ∀ c ∈ splitEndPoints [⟨[10, 0, 0, 1], DefaultPort, HostIPv4⟩, ⟨[10, 0, 0, 2], DefaultPort, HostIPv4⟩],
        c ≠ [] ∧ (c.tail.map EndPoint.Length).sum + 300 ≤ maxPayloadLength :=
  ⟨by decide, splitEndPoints_spec (by decide)⟩

end Split

/-! ## Over the limit -/

section Limit

variable {eps : List EndPoint}

/-- The loop goes through endpoints that stay under the limit without closing a chunk. -/
theorem splitLoop_append_of_le (pre : List EndPoint) : ∀ rest i sent bytes ept,
    bytes + (pre.map EndPoint.Length).sum + 300 ≤ maxPayloadLength →
      splitLoop eps (pre ++ rest) i sent bytes ept =
        splitLoop eps rest (i + pre.length) sent (bytes + (pre.map EndPoint.Length).sum) ept := by
  induction pre with
  | nil => exact fun _ _ _ _ _ _ => rfl
  | cons ep pre ih =>
    intro rest i sent bytes ept h
    rw [List.map_cons, List.sum_cons] at h
    rw [List.cons_append, splitLoop]
    rw [if_neg (by omega), ih rest (i + 1) sent (bytes + ep.Length) ept (by omega), List.length_cons, List.map_cons,
      List.sum_cons, Nat.add_assoc i, Nat.add_comm 1, Nat.add_assoc bytes]

/-- The loop only appends chunks. -/
theorem splitLoop_ept : ∀ rest i sent bytes ept, ∃ more, (splitLoop eps rest i sent bytes ept).2 = ept ++ more := by
  intro rest
  induction rest with
  | nil => exact fun _ _ _ ept => ⟨[], (List.append_nil ept).symm⟩
  | cons ep rest ih =>
    intro i sent bytes ept
    unfold splitLoop
    dsimp only
    split_ifs
    · obtain ⟨more, hmore⟩ := ih (i + 1) i 0 (ept ++ [(eps.drop sent).take (i - sent)])
      exact ⟨_ :: more, by rw [hmore, List.append_assoc, List.singleton_append]⟩
    · exact ih (i + 1) sent (bytes + ep.Length) ept

theorem sum_map_take_of_const {f : EndPoint → ℕ} {c : ℕ} (hf : ∀ ep ∈ eps, f ep = c) {n : ℕ} (hn : n ≤ eps.length) :
    ((eps.take n).map f).sum = n * c := by
  rw [List.map_congr_left fun ep hep => hf ep (List.mem_of_mem_take hep), List.map_const', List.sum_replicate,
    List.length_take, min_eq_left hn, smul_eq_mul]

/-- Endpoints of five bytes each, at least 161 of them, make a first chunk of 160: the 161st takes
the count over the limit. -/
theorem splitEndPoints_of_length_five (h5 : ∀ ep ∈ eps, ep.Length = 5) (hlen : 161 ≤ eps.length) :
    ∃ tl, splitEndPoints eps = eps.take 160 :: tl := by
  have hsum : ((eps.take 160).map EndPoint.Length).sum = 800 := sum_map_take_of_const h5 (by omega)
  have hne : eps.drop 160 ≠ [] := by
    rw [Ne, List.drop_eq_nil_iff]
    omega
  obtain ⟨ep, rest, hdrop⟩ := List.exists_cons_of_ne_nil hne
  have hep : ep.Length = 5 := h5 ep (List.mem_of_mem_drop (hdrop ▸ List.mem_cons_self))
  -- the first 160 endpoints count 800 bytes, and the next one closes the chunk
  have hloop : splitLoop eps eps 0 0 0 [] = splitLoop eps rest 161 160 0 [eps.take 160] := by
    have happ : splitLoop eps eps 0 0 0 [] = splitLoop eps (eps.take 160 ++ eps.drop 160) 0 0 0 [] := by
      rw [List.take_append_drop]
    rw [happ, splitLoop_append_of_le _ _ 0 0 0 [] (by rw [hsum]; decide), hsum, hdrop, splitLoop]
    rw [if_pos (by rw [hep]; decide), List.length_take, min_eq_left (by omega)]
    rfl
  obtain ⟨more, hmore⟩ := @splitLoop_ept eps rest 161 160 0 [eps.take 160]
  unfold splitEndPoints
  rw [hloop]
  rcases hres : splitLoop eps rest 161 160 0 [eps.take 160] with ⟨sent, ept⟩
  rw [hres] at hmore
  dsimp only at hmore ⊢
  rw [hmore]
  split_ifs
  · exact ⟨more ++ _, rfl⟩
  · exact ⟨more, rfl⟩

/-- With 161 IPv4 endpoints on the default port or more, the first packet `sendNodes` writes is
over `maxPacketLength`, whatever the time: its chunk of 160 endpoints of five bytes each is
160 * 7 bytes of payload. -/
theorem sendNodes_exceeds_maxPacketLength (pub : NodeID) (sign : List UInt8 → Vector UInt8 signatureLength)
    {eps : List EndPoint} (hv4 : ∀ ep ∈ eps, ep.Host.length = 4 ∧ ep.Port = DefaultPort) (hlen : 161 ≤ eps.length)
    (time : Int64) : ∃ p ∈ sendNodes pub sign eps time, maxPacketLength < p.length := by
  have h5 : ∀ ep ∈ eps, ep.Length = 5 := fun ep hep => by
    simp [EndPoint.Length, (hv4 ep hep).1, (hv4 ep hep).2]
  obtain ⟨tl, hsplit⟩ := splitEndPoints_of_length_five h5 hlen
  have hfirst : ∃ last, pack pub sign codeNeighbors (neighbors.serialize ⟨eps.take 160, last, time⟩) ∈
      sendNodes pub sign eps time := by
    simp only [sendNodes, hsplit, List.zipIdx_cons, List.map_cons]
    exact ⟨_, List.mem_cons_self⟩
  obtain ⟨last, hmem⟩ := hfirst
  have hv : ∀ ep ∈ eps.take 160, 1 ≤ ep.Host.length ∧ ep.Host.length ≤ MaxHostLength := fun ep hep => by
    have := (hv4 ep (List.mem_of_mem_take hep)).1
    unfold MaxHostLength
    omega
  -- each endpoint takes its five bytes and two more in the payload
  have hpayload := le_length_serialize hv last time
  rw [sum_map_take_of_const (fun ep hep => by rw [h5 ep hep]) (by omega)] at hpayload
  refine ⟨_, hmem, ?_⟩
  rw [length_pack]
  unfold maxPacketLength minPacketLength packetHeadLength signatureLength idBytes
  omega

/-- 161 endpoints `10.0.0.1` on the default port. -/
def ipv4Endpoints : List EndPoint := List.replicate 161 ⟨[10, 0, 0, 1], DefaultPort, HostIPv4⟩

theorem sendNodes_exceeds_maxPacketLength_ipv4 :
    ∃ p ∈ sendNodes ZERO (fun _ => Vector.replicate signatureLength 0) ipv4Endpoints 1700000000,
      maxPacketLength < p.length :=
  sendNodes_exceeds_maxPacketLength ZERO _ (by simp [ipv4Endpoints]) (by simp [ipv4Endpoints]) 1700000000

end Limit

end Vite.Discovery
