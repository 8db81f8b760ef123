import Vite.Vm.Instructions
import Vite.Vm.Quota

/-!
# Memory sizing in `runLoop`

Before an operation runs, `runLoop` (vm/interpreter.go) asks the jump table entry's
`memorySize` function for the bytes the operation will touch, rounds it up to whole words and
resizes memory to it; `memory.get`, `getPtr`, `set` and `set32` (vm/memory.go) rely on that. The
entry's gas function is called before the resize.

The model lists the opcodes that touch memory, the `memorySize` of their entries (vm/memory_table.go,
vm/jump_table.go), the regions their gas and execute functions read or write, and the sizing step of
`runLoop`. Every entry that declares a `memorySize` covers what its `execute` touches
(`executeAccesses_within`). Two accesses fall outside: `gasCall` reads the call's input before the
resize, and the Earth sets' `CALL2`, which reads the same input in `opCall`, declares no
`memorySize` at all.
-/

namespace Vite.Vm

/-- vm/memory.go: the interpreter's byte memory. -/
structure Memory where
  store : List UInt8
  deriving DecidableEq, Repr

namespace Memory

def len (m : Memory) : ℕ := m.store.length

def resize (m : Memory) (size : ℕ) : Memory :=
  if m.len < size then ⟨m.store ++ List.replicate (size - m.len) 0⟩ else m

/-- `memory.get`: a copy of `size` bytes at `offset`; `nil` for size 0 and for an offset at or
past the end. A region that starts inside the store and runs past its end is sliced past the
slice's length in Go, which reads spare capacity or panics: `none`. -/
def get (m : Memory) (offset size : ℕ) : Option (List UInt8) :=
  if size = 0 then some []
  else if offset < m.len then
    if offset + size ≤ m.len then some ((m.store.drop offset).take size) else none
  else some []

end Memory

/-- `helper.MaxUint64`. -/
def MaxUint64 : ℕ := 2 ^ 64 - 1

/-- `helper.ToWordSize`: the words that hold `size` bytes, saturated at the top of uint64. -/
def ToWordSize (size : ℕ) : ℕ :=
  if MaxUint64 - WordSize + 1 < size then MaxUint64 / WordSize + 1
  else (size + WordSize - 1) / WordSize

/-- `helper.SafeMul`: the uint64 product and whether it overflowed. -/
def SafeMul (x y : ℕ) : ℕ × Bool :=
  if x = 0 ∨ y = 0 then (0, false) else (x * y % 2 ^ 64, MaxUint64 / x < y)

/-- `stack.back(n)`: the `n`-th entry from the top. `validateStack` has checked the depth. -/
def back (st : List ℕ) (n : ℕ) : ℕ := st.getD n 0

/-- `calcMemSize`: the end of the region `off, l`, or 0 for an empty one. -/
def calcMemSize (off l : ℕ) : ℕ := if l = 0 then 0 else off + l

def memorySha3 (st : List ℕ) : ℕ := calcMemSize (back st 0) (back st 1)

def memoryBlake2b (st : List ℕ) : ℕ := calcMemSize (back st 0) (back st 1)

def memoryCallDataCopy (st : List ℕ) : ℕ := calcMemSize (back st 0) (back st 2)

def memoryCodeCopy (st : List ℕ) : ℕ := calcMemSize (back st 0) (back st 2)

def memoryReturnDataCopy (st : List ℕ) : ℕ := calcMemSize (back st 0) (back st 2)

def memoryMLoad (st : List ℕ) : ℕ := calcMemSize (back st 0) 32

def memoryMStore (st : List ℕ) : ℕ := calcMemSize (back st 0) 32

def memoryMStore8 (st : List ℕ) : ℕ := calcMemSize (back st 0) 1

def memoryLog (st : List ℕ) : ℕ := calcMemSize (back st 0) (back st 1)

def memoryCall (st : List ℕ) : ℕ := calcMemSize (back st 3) (back st 4)

def memoryReturn (st : List ℕ) : ℕ := calcMemSize (back st 0) (back st 1)

def memoryRevert (st : List ℕ) : ℕ := calcMemSize (back st 0) (back st 1)

/-- The jump tables `newInterpreter` chooses from, each with its off-chain variant. -/
inductive InstructionSet where
  | simple
  | rand
  | earth
  deriving DecidableEq, Repr

/-- The opcodes whose jump table entry touches memory. -/
inductive MemOp where
  | SHA3 | BLAKE2B | CALLDATACOPY | CODECOPY | RETURNDATACOPY | MLOAD | MSTORE | MSTORE8
  | LOG (n : Fin 5) | CALL | CALL2 | RETURN | REVERT
  deriving DecidableEq, Repr

namespace MemOp

/-- The `valid` field: `CALL2` is added by `newEarthInstructionSet`. -/
def valid (set : InstructionSet) : MemOp → Bool
  | .CALL2 => set = .earth
  | _ => true

/-- The `memorySize` field, the same in every set; the `CALL2` entries declare none. -/
def memorySize : MemOp → Option (List ℕ → ℕ)
  | .SHA3 => some memorySha3
  | .BLAKE2B => some memoryBlake2b
  | .CALLDATACOPY => some memoryCallDataCopy
  | .CODECOPY => some memoryCodeCopy
  | .RETURNDATACOPY => some memoryReturnDataCopy
  | .MLOAD => some memoryMLoad
  | .MSTORE => some memoryMStore
  | .MSTORE8 => some memoryMStore8
  | .LOG _ => some memoryLog
  | .CALL => some memoryCall
  | .CALL2 => none
  | .RETURN => some memoryReturn
  | .REVERT => some memoryRevert

end MemOp

/-- A region of memory: `size` bytes at `offset`. -/
structure Region where
  offset : ℕ
  size : ℕ
  deriving DecidableEq, Repr

/-- The region `gasCost` reads: `gasCall` (and `gasCall2`) prices the send block built from the
call's input `mem.get(inOffset, inSize)`. -/
def gasReads : MemOp → List ℕ → List Region
  | .CALL, st => [⟨back st 3, back st 4⟩]
  | .CALL2, st => [⟨back st 3, back st 4⟩]
  | _, _ => []

/-- The regions `execute` reads or writes. The off-chain sets replace `LOG`, `CALL`, `CALL2` and
`REVERT` by operations that only pop the stack. -/
def executeAccesses (offChain : Bool) : MemOp → List ℕ → List Region
  | .SHA3, st => [⟨back st 0, back st 1⟩]
  | .BLAKE2B, st => [⟨back st 0, back st 1⟩]
  | .CALLDATACOPY, st => [⟨back st 0, back st 2⟩]
  | .CODECOPY, st => [⟨back st 0, back st 2⟩]
  | .RETURNDATACOPY, st => [⟨back st 0, back st 2⟩]
  | .MLOAD, st => [⟨back st 0, 32⟩]
  | .MSTORE, st => [⟨back st 0, 32⟩]
  | .MSTORE8, st => [⟨back st 0, 1⟩]
  | .LOG _, st => if offChain then [] else [⟨back st 0, back st 1⟩]
  | .CALL, st => if offChain then [] else [⟨back st 3, back st 4⟩]
  | .CALL2, st => if offChain then [] else [⟨back st 3, back st 4⟩]
  | .RETURN, st => [⟨back st 0, back st 1⟩]
  | .REVERT, st => if offChain then [] else [⟨back st 0, back st 1⟩]

/-- `runLoop`'s `memorySize`: the bytes asked for, rounded up to whole words, or 0 when the
entry declares no function. -/
def sizeMemory (memorySize : Option (List ℕ → ℕ)) (st : List ℕ) : Except VmError ℕ :=
  match memorySize with
  | none => .ok 0
  | some f =>
    -- helper.BigUint64 flags a value of more than 64 bits
    if MaxUint64 < f st then .error .ErrMemSizeOverflow
    else
      let (memorySize, overflow) := SafeMul (ToWordSize (f st)) WordSize
      if overflow then .error .ErrMemSizeOverflow else .ok memorySize

/-- One iteration of `runLoop` up to `execute`, as memory sees it: the memory the gas function is
given, which is the memory before the resize, and the memory `execute` is given. -/
def runLoopMemory (set : InstructionSet) (op : MemOp) (st : List ℕ) (mem : Memory) :
    Except VmError (Memory × Memory) :=
  if op.valid set then
    (sizeMemory op.memorySize st).map fun memorySize =>
      (mem, if 0 < memorySize then mem.resize memorySize else mem)
  else .error .ErrInvalidOpCode

/-- The region lies in the memory, or is empty (`get` and `set` touch nothing then). -/
def Region.Within (m : Memory) (r : Region) : Prop := r.size = 0 ∨ r.offset + r.size ≤ m.len

instance (m : Memory) (r : Region) : Decidable (r.Within m) :=
  inferInstanceAs (Decidable (_ ∨ _))

/-! ## Sizing covers the accesses -/

theorem Memory.len_resize (m : Memory) (size : ℕ) : (m.resize size).len = max m.len size := by
  unfold Memory.resize
  split_ifs with h
  · simp only [Memory.len, List.length_append, List.length_replicate] at h ⊢
    omega
  · omega

theorem ToWordSize_mul_ge {size : ℕ} (h : size ≤ MaxUint64) : size ≤ ToWordSize size * WordSize := by
  unfold ToWordSize
  by_cases hbig : MaxUint64 - WordSize + 1 < size
  · rw [if_pos hbig]
    simp only [MaxUint64, WordSize] at h ⊢
    omega
  · rw [if_neg hbig]
    simp only [WordSize]
    omega

theorem SafeMul_of_not_overflow {x y : ℕ} (h : (SafeMul x y).2 = false) : (SafeMul x y).1 = x * y := by
  unfold SafeMul at h ⊢
  split_ifs at h ⊢ with hzero
  · rcases hzero with rfl | rfl <;> simp
  · have hx : 0 < x := Nat.pos_of_ne_zero (not_or.mp hzero).1
    have hy : y ≤ MaxUint64 / x := by simpa using h
    have hle : x * y ≤ MaxUint64 := by
      rw [Nat.mul_comm]
      exact (Nat.le_div_iff_mul_le hx).mp hy
    exact Nat.mod_eq_of_lt (by unfold MaxUint64 at hle; omega)

/-- A size `runLoop` accepts covers the bytes the entry asked for. -/
theorem sizeMemory_ge {f : List ℕ → ℕ} {st : List ℕ} {n : ℕ}
    (h : sizeMemory (some f) st = .ok n) : f st ≤ n := by
  dsimp only [sizeMemory] at h
  split_ifs at h with hbig hoverflow
  cases h
  rw [SafeMul_of_not_overflow (by simpa using hoverflow)]
  exact ToWordSize_mul_ge (not_lt.mp hbig)

theorem within_sized {mem : Memory} {n : ℕ} {r : Region} (h : calcMemSize r.offset r.size ≤ n) :
    r.Within (if 0 < n then mem.resize n else mem) := by
  unfold calcMemSize at h
  by_cases hsize : r.size = 0
  · exact Or.inl hsize
  rw [if_neg hsize] at h
  right
  rw [if_pos (by omega), Memory.len_resize]
  omega

/-- Each entry that declares a `memorySize` asks for at least the end of every region its
`execute` touches. -/
theorem executeAccesses_sized {op : MemOp} (hop : op ≠ .CALL2) (offChain : Bool) (st : List ℕ) :
    ∀ r ∈ executeAccesses offChain op st, ∃ f, op.memorySize = some f ∧
      calcMemSize r.offset r.size ≤ f st := by
  intro r hr
  cases op with
  | CALL2 => exact absurd rfl hop
  | LOG _ | CALL | REVERT =>
    -- the off-chain operations touch nothing; the on-chain ones touch the measured region
    simp only [executeAccesses] at hr
    split_ifs at hr
    · simp at hr
    · rw [List.mem_singleton] at hr
      subst hr
      exact ⟨_, rfl, le_refl _⟩
  | _ =>
    rw [executeAccesses, List.mem_singleton] at hr
    subst hr
    exact ⟨_, rfl, le_refl _⟩

/-- Outside `CALL2`, every region an operation's `execute` reads or writes lies in the memory
`runLoop` hands it. -/
theorem executeAccesses_within {set : InstructionSet} {op : MemOp} (hop : op ≠ .CALL2)
    {st : List ℕ} {mem gasMem exeMem : Memory}
    (h : runLoopMemory set op st mem = .ok (gasMem, exeMem)) (offChain : Bool) :
    ∀ r ∈ executeAccesses offChain op st, r.Within exeMem := by
  intro r hr
  obtain ⟨f, hf, hle⟩ := executeAccesses_sized hop offChain st r hr
  unfold runLoopMemory at h
  split_ifs at h
  rw [hf] at h
  rcases hsize : sizeMemory (some f) st with e | n
  · rw [hsize] at h
    cases h
  · rw [hsize] at h
    cases h
    exact within_sized (hle.trans (sizeMemory_ge hsize))

/-- `CALL2` in the Earth set, with a 32-byte input at offset 0 on a fresh memory: `runLoop`
sizes nothing, so `opCall` reads the input from an empty memory and gets `nil`; through `CALL`
the same input is 32 zero bytes, but `gasCall` still prices the `nil` it reads before the
resize. -/
theorem call2_reads_unsized_memory :
    runLoopMemory .earth .CALL2 [7, 1, 0, 0, 32] ⟨[]⟩ = .ok (⟨[]⟩, ⟨[]⟩) ∧
      (∃ r ∈ executeAccesses false .CALL2 [7, 1, 0, 0, 32], ¬ r.Within ⟨[]⟩) ∧
      Memory.get ⟨[]⟩ 0 32 = some [] ∧
      runLoopMemory .earth .CALL [7, 1, 0, 0, 32] ⟨[]⟩ = .ok (⟨[]⟩, ⟨List.replicate 32 0⟩) ∧
      (∃ r ∈ gasReads .CALL [7, 1, 0, 0, 32], ¬ r.Within ⟨[]⟩) ∧
      Memory.get ⟨List.replicate 32 0⟩ 0 32 = some (List.replicate 32 0) := by
  refine ⟨rfl, ⟨⟨0, 32⟩, by decide, by decide⟩, rfl, rfl, ⟨⟨0, 32⟩, by decide, by decide⟩, rfl⟩

end Vite.Vm
