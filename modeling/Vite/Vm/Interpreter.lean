import Vite.Vm.Memory
import Vite.Lib.BigEndian

/-!
# The interpreter loop

`runLoop` (vm/interpreter.go) fetches the opcode at `pc`, checks that the instruction set has it
and that the stack fits, prices it with its gas function, charges the quota with
`UseQuotaWithFlag`, executes it, and then halts, reverts, or goes on: at the `pc` a jump set, or
past the opcode. Nothing bounds the loop but the abort flag raised from outside, which is what
running out of `fuel` stands for here.

The entries that decide the control flow and the metering are modelled as the jump tables give
them in every instruction set: STOP, SSTORE (metered by `step` of the SSTORE model), JUMP, JUMPI,
the PUSHes, RETURN and REVERT. Every other opcode runs straight on, and its entry (whether the set
has it, its stack check, its gas function and what it does to the stack and the rest of the
frame) is left open as a `Straight`, so that what is proved holds whatever those entries do. No
instruction set registers DELEGATECALL, so no run nests another.

An iteration that does not end the run never raises the potential of the SSTORE model, the quota
left plus the base cost of each slot's change. A jump lowers it by the jump's quota, and every
other opcode moves `pc` forward inside the code; so a run ends within
`(quotaLeft + 1) * (len(code) + 1)` iterations. A step need not lower the potential: since the
Dex fork, clearing a slot that still holds its original value costs nothing.
-/

namespace Vite.Vm

open BigEndian

/-! ## Code and stack -/

/-- The largest stack `validateStack` lets an opcode leave. -/
def stackLimit : ℕ := 1024

/-- `makeStackFunc(pop, push)`. -/
def makeStackFunc (pop push : ℕ) (stack : List ℕ) : Except VmError Unit :=
  if stack.length < pop then .error .ErrStackUnderflow
  else if stackLimit < stack.length + push - pop then .error .ErrStackLimitReached
  else .ok ()

/-- `contract.getOp`: the byte at `n`, and `STOP` past the end of the code. -/
def getOp (code : List UInt8) (n : ℕ) : UInt8 := code.getD n 0

/-- `codeBitmap`: the positions of push data, from `pc` on. Every round reads one opcode, so
`fuel = len(code)` reads them all. -/
def codeBitmap (code : List UInt8) : ℕ → ℕ → List ℕ
  | 0, _ => []
  | fuel + 1, pc =>
    if code.length ≤ pc then []
    else
      let op := getOp code pc
      if 0x60 ≤ op ∧ op ≤ 0x7f then
        let numbits := op.toNat - 0x60 + 1
        List.range' (pc + 1) numbits ++ codeBitmap code fuel (pc + 1 + numbits)
      else codeBitmap code fuel (pc + 1)

/-- `destinations.has`: a `JUMPDEST` of the code that is not push data; a destination of 63 bits
or more is never one. -/
def has (code : List UInt8) (dest : ℕ) : Bool :=
  if 2 ^ 62 ≤ dest ∨ code.length ≤ dest then false
  else getOp code dest == 0x5b && !(codeBitmap code code.length 0).contains dest

/-! ## Instruction sets -/

/-- The opcodes whose entries the loop's control flow and metering depend on; every other opcode
is `straight`. -/
inductive Instr where
  | STOP
  | SSTORE
  | JUMP
  | JUMPI
  | PUSH (size : ℕ)
  | RETURN
  | REVERT
  | straight (op : UInt8)
  deriving DecidableEq, Repr

/-- The numbering of `opcodes.go`. -/
def decode (op : UInt8) : Instr :=
  if op = 0x00 then .STOP
  else if op = 0x55 then .SSTORE
  else if op = 0x56 then .JUMP
  else if op = 0x57 then .JUMPI
  else if 0x60 ≤ op ∧ op ≤ 0x7f then .PUSH (op.toNat - 0x60 + 1)
  else if op = 0xf3 then .RETURN
  else if op = 0xfd then .REVERT
  else .straight op

/-- What `runLoop` works on: the stack (top first), the contract's storage and quota, and the
rest (memory, return data, call data, the host), which only the open entries read. -/
structure Frame (τ : Type*) where
  stack : List ℕ
  contract : Contract
  rest : τ

/-- The entries of the straight opcodes, and the gas and data of RETURN and REVERT: whether the
set has the opcode, its `validateStack`, its gas function (memory sizing included, always
charged), and its `execute` on the stack and the rest of the frame, which may read `pc` and the
contract but moves neither `pc` nor the quota nor the storage. -/
structure Straight (τ : Type*) where
  valid : UInt8 → Bool
  validateStack : UInt8 → List ℕ → Except VmError Unit
  gasCost : UInt8 → List ℕ → Contract → τ → Except VmError UInt64
  execute : UInt8 → ℕ → List ℕ → Contract → τ → Except VmError (List ℕ × τ × List UInt8)

/-- `halts` of the entry; off the chain REVERT halts instead of reverting. -/
def Instr.halts (offChain : Bool) : Instr → Bool
  | .STOP | .RETURN => true
  | .REVERT => offChain
  | _ => false

def Instr.reverts (offChain : Bool) : Instr → Bool
  | .REVERT => !offChain
  | _ => false

def Instr.jumps : Instr → Bool
  | .JUMP | .JUMPI => true
  | _ => false

/-- How an iteration ends: the run returns, or the loop goes on at `pc`. -/
inductive Next (τ : Type*) where
  | done (f : Frame τ) (ret : List UInt8) (err : Option VmError)
  | next (pc : ℕ) (f : Frame τ)

section Loop

variable {τ : Type*} (set : Straight τ) (earth offChain : Bool) (gt : QuotaTable)
  (original : ℕ → List UInt8) (code : List UInt8)

/-- `valid`, then `validateStack`. -/
def validate : Instr → List ℕ → Except VmError Unit
  | .STOP, st => makeStackFunc 0 0 st
  | .SSTORE, st => makeStackFunc 2 0 st
  | .JUMP, st => makeStackFunc 1 0 st
  | .JUMPI, st => makeStackFunc 2 0 st
  | .PUSH _, st => makeStackFunc 0 1 st
  | .RETURN, st => makeStackFunc 2 0 st
  | .REVERT, st => makeStackFunc 2 0 st
  | .straight op, st => if set.valid op then set.validateStack op st else .error .ErrInvalidOpCode

/-- The gas function, as the SSTORE model meters it: `gasSStore` on the slot `stack.back(0)` and
the value `stack.back(1)`, a charge for every other entry. -/
def meter (f : Frame τ) : Instr → Except VmError Op
  | .STOP => .ok (.other 0)
  | .SSTORE => .ok (.SSTORE (back f.stack 0) (back f.stack 1))
  | .JUMP => .ok (.other gt.JumpQuota)
  | .JUMPI => .ok (.other gt.JumpiQuota)
  | .PUSH _ => .ok (.other gt.PushQuota)
  | .RETURN => (set.gasCost 0xf3 f.stack f.contract f.rest).map .other
  | .REVERT => (set.gasCost 0xfd f.stack f.contract f.rest).map .other
  | .straight op => (set.gasCost op f.stack f.contract f.rest).map .other

/-- An open entry's `execute`. -/
def executeStraight (op : UInt8) (pc : ℕ) (f : Frame τ) :
    Except VmError (ℕ × Frame τ × List UInt8) :=
  (set.execute op pc f.stack f.contract f.rest).map fun (stack, rest, ret) =>
    (pc, { f with stack, rest }, ret)

/-- `execute`: the `pc` it leaves, the frame, and the returned bytes. SSTORE's write is done by
`step`, which meters it. -/
def execute (pc : ℕ) (f : Frame τ) : Instr → Except VmError (ℕ × Frame τ × List UInt8)
  | .STOP => .ok (pc, f, [])
  | .SSTORE => .ok (pc, { f with stack := f.stack.drop 2 }, [])
  | .JUMP =>
    let pos := back f.stack 0
    if has code pos then .ok (pos, { f with stack := f.stack.drop 1 }, [])
    else .error .ErrInvalidJumpDestination
  | .JUMPI =>
    let pos := back f.stack 0
    let cond := back f.stack 1
    if cond ≠ 0 then
      if has code pos then .ok (pos, { f with stack := f.stack.drop 2 }, [])
      else .error .ErrInvalidJumpDestination
    else .ok (pc + 1, { f with stack := f.stack.drop 2 }, [])
  | .PUSH size =>
    -- `makePush`: the bytes after the opcode, cut at the end of the code and padded right
    let startMin := min (pc + 1) code.length
    let endMin := min (startMin + size) code.length
    let bytes := (code.drop startMin).take (endMin - startMin)
    let integer := beValue (bytes ++ List.replicate (size - bytes.length) 0)
    .ok (pc + size, { f with stack := integer :: f.stack }, [])
  | .RETURN => executeStraight set 0xf3 pc f
  | .REVERT => executeStraight set 0xfd pc f
  | .straight op => executeStraight set op pc f

/-- One iteration of `runLoop` at `pc`. After `ErrOutOfQuota` the quota left is `0`, as
`UseQuota` returns it. -/
def iterate (pc : ℕ) (f : Frame τ) : Next τ :=
  let instr := decode (getOp code pc)
  match validate set instr f.stack with
  | .error e => .done f [] (some e)
  | .ok () =>
    match meter set gt f instr with
    | .error e => .done f [] (some e)
    | .ok op =>
      match step earth offChain gt original f.contract op with
      | .error .ErrOutOfQuota =>
        .done { f with contract := { f.contract with quotaLeft := 0 } } [] (some .ErrOutOfQuota)
      | .error e => .done f [] (some e)
      | .ok (contract, _, _) =>
        match execute set code pc { f with contract } instr with
        | .error e => .done { f with contract } [] (some e)
        | .ok (pc', f', ret) =>
          if instr.halts offChain then .done f' ret none
          else if instr.reverts offChain then .done f' ret (some .ErrExecutionReverted)
          else if instr.jumps then .next pc' f'
          else .next (pc' + 1) f'

/-- `runLoop` from `pc`, for at most `fuel` iterations; `none` is a run the abort flag stopped. -/
def runLoop : ℕ → ℕ → Frame τ → Option (Frame τ × List UInt8 × Option VmError)
  | 0, _, _ => none
  | fuel + 1, pc, f =>
    match iterate set earth offChain gt original code pc f with
    | .done f ret err => some (f, ret, err)
    | .next pc f => runLoop fuel pc f

end Loop

/-! ## One iteration -/

section Iteration

variable {τ : Type*} {set : Straight τ} {earth offChain : Bool} {gt : QuotaTable}
  {original : ℕ → List UInt8} {code : List UInt8}

theorem iterate_next {pc pc' : ℕ} {f f' : Frame τ}
    (h : iterate set earth offChain gt original code pc f = .next pc' f') :
    ∃ op c' cost flag pc'' ret,
      meter set gt f (decode (getOp code pc)) = .ok op ∧
      step earth offChain gt original f.contract op = .ok (c', cost, flag) ∧
      execute set code pc { f with contract := c' } (decode (getOp code pc)) = .ok (pc'', f', ret) ∧
      (decode (getOp code pc)).halts offChain = false ∧
      pc' = if (decode (getOp code pc)).jumps then pc'' else pc'' + 1 := by
  unfold iterate at h
  dsimp only at h
  split at h
  · cases h
  split at h
  · cases h
  rename_i op hmeter
  split at h
  · cases h
  · cases h
  rename_i c' cost flag hstep
  split at h
  · cases h
  rename_i pc'' f'' ret hexec
  refine ⟨op, c', cost, flag, pc'', ret, hmeter, hstep, ?_⟩
  split_ifs at h with h1 h2 h3 <;> cases h
  · exact ⟨hexec, by simpa using h1, by simp [h3]⟩
  · exact ⟨hexec, by simpa using h1, by simp [h3]⟩

/-- An open entry moves neither `pc` nor the contract. -/
theorem executeStraight_ok {op : UInt8} {pc pc' : ℕ} {f f' : Frame τ} {ret : List UInt8}
    (h : executeStraight set op pc f = .ok (pc', f', ret)) : pc' = pc ∧ f'.contract = f.contract := by
  unfold executeStraight at h
  cases hx : set.execute op pc f.stack f.contract f.rest with
  | error e =>
    rw [hx] at h
    cases h
  | ok r =>
    rw [hx] at h
    cases h
    exact ⟨rfl, rfl⟩

/-- `execute` leaves the contract to `step`. -/
theorem execute_contract {pc pc' : ℕ} {f f' : Frame τ} {instr : Instr} {ret : List UInt8}
    (h : execute set code pc f instr = .ok (pc', f', ret)) : f'.contract = f.contract := by
  cases instr with
  | STOP => cases h; rfl
  | SSTORE => cases h; rfl
  | JUMP =>
    simp only [execute] at h
    split_ifs at h
    cases h
    rfl
  | JUMPI =>
    simp only [execute] at h
    split_ifs at h <;> cases h <;> rfl
  | PUSH size => cases h; rfl
  | RETURN => exact (executeStraight_ok h).2
  | REVERT => exact (executeStraight_ok h).2
  | straight op => exact (executeStraight_ok h).2

/-- Only a jump moves `pc` back. -/
theorem execute_pc {pc pc' : ℕ} {f f' : Frame τ} {instr : Instr} {ret : List UInt8}
    (hj : instr.jumps = false) (h : execute set code pc f instr = .ok (pc', f', ret)) :
    pc ≤ pc' := by
  cases instr with
  | STOP => cases h; rfl
  | SSTORE => cases h; rfl
  | JUMP => cases hj
  | JUMPI => cases hj
  | PUSH size =>
    cases h
    omega
  | RETURN => exact (executeStraight_ok h).1.ge
  | REVERT => exact (executeStraight_ok h).1.ge
  | straight op => exact (executeStraight_ok h).1.ge

/-- Past the end of the code the opcode is `STOP`, so an iteration that goes on ran inside it. -/
theorem lt_length_of_not_halts {pc : ℕ} (h : (decode (getOp code pc)).halts offChain = false) :
    pc < code.length := by
  by_contra hge
  have hop : getOp code pc = 0 := by
    unfold getOp
    rw [List.getD_eq_default _ _ (by omega)]
  rw [hop] at h
  cases h

/-- The jumps are charged their quotas. -/
theorem meter_of_jumps {f : Frame τ} {instr : Instr} {op : Op} (hj : instr.jumps = true)
    (h : meter set gt f instr = .ok op) : op = .other gt.JumpQuota ∨ op = .other gt.JumpiQuota := by
  cases instr <;> cases hj <;> cases h
  · exact Or.inl rfl
  · exact Or.inr rfl

/-- Only SSTORE meters a slot, the one on top of the stack. -/
theorem meter_loc {f : Frame τ} {instr : Instr} {op : Op} (h : meter set gt f instr = .ok op)
    {loc : ℕ} (hloc : op.loc? = some loc) : loc = back f.stack 0 := by
  have hstraight : ∀ {r : Except VmError UInt64}, r.map Op.other = .ok op → op.loc? = none := by
    intro r hr
    cases r with
    | error e => cases hr
    | ok k =>
      cases hr
      rfl
  cases instr with
  | SSTORE =>
    cases h
    simpa [Op.loc?] using hloc.symm
  | STOP => cases h; cases hloc
  | JUMP => cases h; cases hloc
  | JUMPI => cases h; cases hloc
  | PUSH size => cases h; cases hloc
  | RETURN => rw [hstraight h] at hloc; cases hloc
  | REVERT => rw [hstraight h] at hloc; cases hloc
  | straight o => rw [hstraight h] at hloc; cases hloc

end Iteration

/-! ## The rank of a run -/

section Rank

variable {gt : QuotaTable} {original : ℕ → List UInt8} {T : Finset ℕ} {c c' : Contract}

/-- The slots off `T` still hold their original values. -/
def AgreesOutside (original : ℕ → List UInt8) (T : Finset ℕ) (c : Contract) : Prop :=
  ∀ loc ∉ T, c.storage loc = original loc

/-- A slot still at its original value adds nothing to the potential. -/
theorem potential_insert (hout : AgreesOutside original T c) (x : ℕ) :
    potential gt original (insert x T) c = potential gt original T c := by
  by_cases hx : x ∈ T
  · rw [Finset.insert_eq_of_mem hx]
  · unfold potential
    rw [Finset.sum_insert hx, hout x hx, baseCost_self, zero_add]

theorem step_agreesOutside {earth offChain : Bool} {op : Op} {cost : UInt64} {flag : Bool}
    (hloc : ∀ loc, op.loc? = some loc → loc ∈ T) (hout : AgreesOutside original T c)
    (h : step earth offChain gt original c op = .ok (c', cost, flag)) :
    AgreesOutside original T c' := by
  intro l hl
  cases op with
  | other k => rw [(step_other_ok h).2.2.2, hout l hl]
  | SSTORE loc val =>
    have hne : l ≠ loc := fun he => hl (he ▸ hloc loc rfl)
    rw [(step_SSTORE_ok h).2.2]
    split_ifs
    · exact hout l hl
    · rw [Function.update_of_ne hne, hout l hl]

/-- The potential, then the distance of `pc` to the end of the code: no iteration that goes on
raises the first, and each lowers one of them. -/
def rank (gt : QuotaTable) (original : ℕ → List UInt8) (code : List UInt8) (T : Finset ℕ) (pc : ℕ)
    (c : Contract) : ℕ :=
  potential gt original T c * (code.length + 1) + (code.length - pc)

theorem rank_lt_of_potential_lt {code : List UInt8} {T' : Finset ℕ} {pc pc' : ℕ}
    (h : potential gt original T' c' < potential gt original T c) :
    rank gt original code T' pc' c' < rank gt original code T pc c := by
  unfold rank
  have hmul := Nat.mul_le_mul_right (code.length + 1) (Nat.succ_le_of_lt h)
  rw [Nat.succ_mul] at hmul
  omega

theorem rank_lt_of_pc_lt {code : List UInt8} {T' : Finset ℕ} {pc pc' : ℕ}
    (h : potential gt original T' c' ≤ potential gt original T c) (hpc : pc < code.length)
    (hlt : pc < pc') :
    rank gt original code T' pc' c' < rank gt original code T pc c := by
  unfold rank
  have hmul := Nat.mul_le_mul_right (code.length + 1) h
  omega

end Rank

/-! ## Termination -/

section Run

variable {τ : Type*} {set : Straight τ} {earth offChain : Bool} {gt : QuotaTable}
  {original : ℕ → List UInt8} {code : List UInt8}

/-- The step lemma: an iteration that goes on keeps the invariants of the SSTORE model, with the
slot it wrote added to `T`, and lowers the rank. -/
theorem iterate_rank (hgt : gt.SstoreSound) (hjump : 0 < gt.JumpQuota.toNat)
    (hjumpi : 0 < gt.JumpiQuota.toNat) {T : Finset ℕ} {pc pc' : ℕ} {f f' : Frame τ}
    (hout : AgreesOutside original T f.contract)
    (hoff : offChain = true → f.contract.storage = original)
    (hB : potential gt original T f.contract < 2 ^ 64)
    (h : iterate set earth offChain gt original code pc f = .next pc' f') :
    ∃ T', AgreesOutside original T' f'.contract ∧
      (offChain = true → f'.contract.storage = original) ∧
      potential gt original T' f'.contract ≤ potential gt original T f.contract ∧
      rank gt original code T' pc' f'.contract < rank gt original code T pc f.contract := by
  obtain ⟨op, c', cost, flag, pc'', ret, hmeter, hstep, hexec, hhalt, rfl⟩ := iterate_next h
  have hcon : f'.contract = c' := execute_contract hexec
  subst hcon
  -- the slot SSTORE writes joins `T`, which leaves the potential as it was
  set T' := insert (back f.stack 0) T
  have hloc : ∀ loc, op.loc? = some loc → loc ∈ T' := fun loc hl =>
    meter_loc hmeter hl ▸ Finset.mem_insert_self _ T
  have hpot : potential gt original T' f.contract = potential gt original T f.contract :=
    potential_insert hout _
  have hout' : AgreesOutside original T' f.contract := fun l hl =>
    hout l fun hT => hl (Finset.mem_insert_of_mem hT)
  obtain ⟨hle, -⟩ := step_potential_le hgt hoff hloc (hpot ▸ hB) hstep
  refine ⟨T', step_agreesOutside hloc hout' hstep, step_offChain_original hoff hstep,
    hpot ▸ hle, ?_⟩
  cases hj : (decode (getOp code pc)).jumps
  · -- any other opcode moves `pc` forward inside the code
    rw [if_neg (by simp)]
    exact rank_lt_of_pc_lt (hpot ▸ hle) (lt_length_of_not_halts hhalt)
      (Nat.lt_succ_of_le (execute_pc hj hexec))
  · -- a jump is charged its quota, so the potential drops
    rw [if_pos rfl]
    have hk : ∃ k, op = .other k ∧ 0 < k.toNat := by
      rcases meter_of_jumps hj hmeter with rfl | rfl
      · exact ⟨_, rfl, hjump⟩
      · exact ⟨_, rfl, hjumpi⟩
    obtain ⟨k, rfl, hk⟩ := hk
    obtain ⟨rfl, rfl, huse, hstorage⟩ := step_other_ok hstep
    have hq := UseQuota_ok huse
    apply rank_lt_of_potential_lt
    rw [← hpot]
    unfold potential
    rw [hstorage]
    omega

/-- The run lemma: with more fuel than the rank, the run returns. -/
theorem runLoop_isSome (hgt : gt.SstoreSound) (hjump : 0 < gt.JumpQuota.toNat)
    (hjumpi : 0 < gt.JumpiQuota.toNat) (fuel pc : ℕ) (f : Frame τ) (T : Finset ℕ)
    (hout : AgreesOutside original T f.contract)
    (hoff : offChain = true → f.contract.storage = original)
    (hB : potential gt original T f.contract < 2 ^ 64)
    (hfuel : rank gt original code T pc f.contract < fuel) :
    (runLoop set earth offChain gt original code fuel pc f).isSome := by
  induction fuel generalizing pc f T with
  | zero => omega
  | succ fuel ih =>
    unfold runLoop
    cases hit : iterate set earth offChain gt original code pc f with
    | done f' ret err => rfl
    | next pc' f' =>
      obtain ⟨T', hout', hoff', hle, hlt⟩ := iterate_rank hgt hjump hjumpi hout hoff hB hit
      exact ih pc' f' T' hout' hoff' (by omega) (by omega)

/-- A run that returned returns the same with more fuel. -/
theorem runLoop_add_fuel {fuel pc : ℕ} {f : Frame τ} {r : Frame τ × List UInt8 × Option VmError}
    (h : runLoop set earth offChain gt original code fuel pc f = some r) (k : ℕ) :
    runLoop set earth offChain gt original code (fuel + k) pc f = some r := by
  induction fuel generalizing pc f with
  | zero => cases h
  | succ fuel ih =>
    rw [Nat.add_right_comm]
    unfold runLoop at h ⊢
    cases hit : iterate set earth offChain gt original code pc f with
    | done f' ret err =>
      rw [hit] at h
      exact h
    | next pc' f' =>
      rw [hit] at h
      exact ih h

end Run

/-- Every table prices the jumps. -/
theorem QuotaTableByHeight_jumps_pos (box : UpgradeBox) (sbHeight : ℕ) :
    0 < (QuotaTableByHeight box sbHeight).JumpQuota.toNat ∧
      0 < (QuotaTableByHeight box sbHeight).JumpiQuota.toNat := by
  rcases QuotaTableByHeight_eq box sbHeight with h | h <;> rw [h] <;> decide

/-- Contract execution ends: under every table the fork points select, whatever the other
entries of the instruction set do, a run from `pc = 0` with the storage as it was returns within
`(quotaLeft + 1) * (len(code) + 1)` iterations, and returns the same later. -/
theorem runLoop_terminates {τ : Type*} (set : Straight τ) (earth offChain : Bool)
    (box : UpgradeBox) (sbHeight : ℕ) (original : ℕ → List UInt8) (code : List UInt8)
    (stack storageModified : List ℕ) (quotaLeft : UInt64) (rest : τ) :
    ∃ r, ∀ fuel, (quotaLeft.toNat + 1) * (code.length + 1) ≤ fuel →
      runLoop set earth offChain (QuotaTableByHeight box sbHeight) original code fuel 0
        ⟨stack, ⟨original, storageModified, quotaLeft⟩, rest⟩ = some r := by
  obtain ⟨hjump, hjumpi⟩ := QuotaTableByHeight_jumps_pos box sbHeight
  have hpot : potential (QuotaTableByHeight box sbHeight) original ∅
      ⟨original, storageModified, quotaLeft⟩ = quotaLeft.toNat := by
    simp [potential]
  have hrank : rank (QuotaTableByHeight box sbHeight) original code ∅ 0
      ⟨original, storageModified, quotaLeft⟩ < (quotaLeft.toNat + 1) * (code.length + 1) := by
    rw [rank, hpot, Nat.succ_mul]
    omega
  have hsome : (runLoop set earth offChain (QuotaTableByHeight box sbHeight) original code
      ((quotaLeft.toNat + 1) * (code.length + 1)) 0
      ⟨stack, ⟨original, storageModified, quotaLeft⟩, rest⟩).isSome :=
    runLoop_isSome (QuotaTableByHeight_sstoreSound box sbHeight) hjump hjumpi _ 0 _ ∅
      (fun _ _ => rfl) (fun _ => rfl) (hpot ▸ UInt64.toNat_lt quotaLeft) hrank
  obtain ⟨r, hr⟩ := Option.isSome_iff_exists.mp hsome
  refine ⟨r, fun fuel hfuel => ?_⟩
  obtain ⟨k, rfl⟩ := Nat.exists_eq_add_of_le hfuel
  exact runLoop_add_fuel hr k

/-- Since the Dex fork an SSTORE that clears a slot still holding its original value costs
nothing: the iteration goes on with the quota left and the potential as they were. -/
theorem sstore_clear_keeps_potential :
    ∃ f', iterate (⟨fun _ => false, fun _ _ => .ok (), fun _ _ _ _ => .ok 0,
        fun _ _ st _ r => .ok (st, r, [])⟩ : Straight Unit) false false newViteQuotaTable
        (fun _ => [7]) [0x55] 0 ⟨[1, 0], ⟨fun _ => [7], [], 100⟩, ()⟩ = .next 1 f' ∧
      f'.contract.quotaLeft = 100 ∧
      potential newViteQuotaTable (fun _ => [7]) {1} f'.contract =
        potential newViteQuotaTable (fun _ => [7]) {1} ⟨fun _ => [7], [], 100⟩ := by
  refine ⟨_, rfl, rfl, ?_⟩
  decide

end Vite.Vm
