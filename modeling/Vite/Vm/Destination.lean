import Mathlib.Logic.Relation
import Vite.Vm.Interpreter
import Vite.Lib.BitBytes

/-!
# Jump destinations (`codeBitmap`, `destinations.has`)

`codeBitmap` (vm/destination.go) marks the push data of the code in a bit vector, eight bits at a
time with `set8` and one at a time with `set`, and `destinations.has` accepts a jump to a
`JUMPDEST` that the vector does not mark. Go's index panics are `none` here.

`set8` at `pos` marks the positions `pos` to `pos + 7` across two bytes (`bitvec.set8_spec`), so
the loops mark exactly the data of each push; the four spare bytes hold the data of a push that
runs past the end of the code (`codeBitmapLoop_spec`). The vector is the list of positions the
interpreter's `Vm.codeBitmap` reads (`codeBitmap_refines`), which are the positions that start no
instruction of the left-to-right decoding (`mem_codeBitmap_iff`). A destination is accepted when it
is a `JUMPDEST` starting an instruction below `2^62` (`destinations_has_iff_instrStart`); the bound
is Go's `BitLen() >= 63` test, which only code longer than `2^62` bytes could meet, so on any code
a contract can have (at most `maxCodeSize` bytes stored, a block's data as init code) the accepted
destinations are exactly the `JUMPDEST`s that start an instruction (`destinations_has_iff_jumpdest`).

`ContainsCertainStatusCode` cuts the metadata off the code at the first marker that is not push
data (`getCodeWithoutAuxCodeAndParams_spec`: the marker cannot overlap itself, so skipping a marker
of push data skips no other) and scans the rest with a fresh vector, which agrees with the code's
own on a prefix (`instrStart_take_iff`); a flag is set exactly when one of its opcodes starts an
instruction there (`ContainsCertainStatusCode_spec`).
-/

namespace Vite.Vm.Destination

open BitBytes Relation

/-! ## The bit vector -/

/-- `bitvec`: a bit for each code position, position `p` at mask `0x80 >> (p % 8)` of byte
`p / 8`. -/
abbrev bitvec := List UInt8

/-- `bitvec.set`: mark position `pos`. -/
def bitvec.set (bits : bitvec) (pos : ℕ) : Option bitvec :=
  if pos / 8 < bits.length then
    some (bits.modify (pos / 8) (· ||| (0x80 : UInt8) >>> (pos % 8).toUInt8))
  else none

/-- `bitvec.set8`: mark the eight positions from `pos`, the end of byte `pos / 8` and the start of
the next. -/
def bitvec.set8 (bits : bitvec) (pos : ℕ) : Option bitvec :=
  if pos / 8 + 1 < bits.length then
    some ((bits.modify (pos / 8) (· ||| (0xFF : UInt8) >>> (pos % 8).toUInt8)).modify (pos / 8 + 1)
      (· ||| ~~~((0xFF : UInt8) >>> (pos % 8).toUInt8)))
  else none

/-- `bitvec.codeSegment`: whether position `pos` is unmarked. -/
def bitvec.codeSegment (bits : bitvec) (pos : ℕ) : Option Bool :=
  if h : pos / 8 < bits.length then
    some ((bits[pos / 8] &&& (0x80 : UInt8) >>> (pos % 8).toUInt8) == 0)
  else none

theorem bitvec.set_spec {bits : bitvec} {pos : ℕ} (hpos : pos / 8 < bits.length) :
    ∃ bits', bits.set pos = some bits' ∧ bits'.length = bits.length ∧
      ∀ p, bit bits' p = (bit bits p || p == pos) := by
  refine ⟨_, if_pos hpos, List.length_modify _ _ _, fun p => ?_⟩
  rw [bit_modify_or hpos, testBit_oneMask (Nat.mod_lt _ (by norm_num)) (Nat.mod_lt _ (by norm_num))]
  congr 1
  rw [Bool.eq_iff_iff]
  simp only [Bool.and_eq_true, beq_iff_eq, decide_eq_true_eq]
  omega

theorem bitvec.set8_spec {bits : bitvec} {pos : ℕ} (hpos : pos / 8 + 1 < bits.length) :
    ∃ bits', bits.set8 pos = some bits' ∧ bits'.length = bits.length ∧
      ∀ p, bit bits' p = (bit bits p || (decide (pos ≤ p) && decide (p < pos + 8))) := by
  refine ⟨_, if_pos hpos, by simp only [List.length_modify], fun p => ?_⟩
  have hr : pos % 8 < 8 := Nat.mod_lt _ (by norm_num)
  have hs : p % 8 < 8 := Nat.mod_lt _ (by norm_num)
  rw [bit_modify_or (by simpa only [List.length_modify] using hpos), bit_modify_or (by omega),
    testBit_tailMask hr hs, testBit_headMask hr hs, Bool.or_assoc]
  congr 1
  rw [Bool.eq_iff_iff]
  simp only [Bool.or_eq_true, Bool.and_eq_true, beq_iff_eq, decide_eq_true_eq]
  omega

theorem bitvec.codeSegment_eq {bits : bitvec} {pos : ℕ} (h : pos / 8 < bits.length) :
    bits.codeSegment pos = some !(bit bits pos) := by
  rw [bitvec.codeSegment, dif_pos h, bit, List.getD_eq_getElem?_getD, List.getElem?_eq_getElem h,
    Option.getD_some, and_oneMask_eq_zero _ (Nat.mod_lt _ (by norm_num))]

/-! ## The analysis -/

/-- `codeBitmap`'s first inner loop: `set8` while eight or more push bytes are left. -/
def set8Loop (bits : bitvec) : ℕ → ℕ → Option (bitvec × ℕ × ℕ)
  | numbits + 8, pc => do
    let bits ← bits.set8 pc
    set8Loop bits numbits (pc + 8)
  | numbits, pc => some (bits, numbits, pc)

/-- The second: `set` on each push byte left. -/
def setLoop (bits : bitvec) : ℕ → ℕ → Option (bitvec × ℕ)
  | 0, pc => some (bits, pc)
  | numbits + 1, pc => do
    let bits ← bits.set pc
    setLoop bits numbits (pc + 1)

/-- `codeBitmap`'s loop from `pc`, an opcode a round, for `fuel` rounds as `Vm.codeBitmap`. -/
def codeBitmapLoop (code : List UInt8) : ℕ → bitvec → ℕ → Option bitvec
  | 0, bits, _ => some bits
  | fuel + 1, bits, pc =>
    if code.length ≤ pc then some bits
    else
      let op := getOp code pc
      -- `PUSH1` to `PUSH32`
      if 0x60 ≤ op ∧ op ≤ 0x7f then do
        let (bits, numbits, pc) ← set8Loop bits (op.toNat - 0x60 + 1) (pc + 1)
        let (bits, pc) ← setLoop bits numbits pc
        codeBitmapLoop code fuel bits pc
      else codeBitmapLoop code fuel bits (pc + 1)

/-- `codeBitmap`: four bytes more than the code needs, for the data of a `PUSH32` at its end. -/
def codeBitmap (code : List UInt8) : Option bitvec :=
  codeBitmapLoop code code.length (List.replicate (code.length / 8 + 1 + 4) 0) 0

/-- `destinations.has`, on the vector `codeBitmap` gives the code: the map keeps it per address,
whose code does not change in a run. A destination of 63 bits or more is never one. -/
def destinations.has (code : List UInt8) (dest : ℕ) : Option Bool :=
  if 2 ^ 62 ≤ dest ∨ code.length ≤ dest then some false
  else do
    let m ← codeBitmap code
    -- `&&` reads the vector only at a `JUMPDEST`
    if getOp code dest = 0x5b then m.codeSegment dest else some false


/-! ## The loops mark the push data -/

theorem set8Loop_spec {bits : bitvec} {numbits pc : ℕ} (hlen : (pc + numbits) / 8 < bits.length) :
    ∃ bits', set8Loop bits numbits pc = some (bits', numbits % 8, pc + numbits / 8 * 8) ∧
      bits'.length = bits.length ∧
      ∀ p, bit bits' p =
        (bit bits p || (decide (pc ≤ p) && decide (p < pc + numbits / 8 * 8))) := by
  fun_induction set8Loop bits numbits pc with
  | case1 bits numbits pc ih =>
    rw [show numbits.succ.succ.succ.succ.succ.succ.succ.succ = numbits + 8 from rfl] at hlen ⊢
    obtain ⟨bits₁, hset, hlen₁, hbit₁⟩ := @bitvec.set8_spec bits pc (by omega)
    obtain ⟨bits', hloop, hlen', hbit'⟩ := ih bits₁ (by rw [hlen₁]; omega)
    have hrem : (numbits + 8) % 8 = numbits % 8 := by omega
    have hend : pc + (numbits + 8) / 8 * 8 = pc + 8 + numbits / 8 * 8 := by omega
    refine ⟨bits', ?_, hlen'.trans hlen₁, fun p => ?_⟩
    · simp only [hset, Option.bind_eq_bind, Option.bind_some, hloop, hrem, hend]
    · rw [hbit', hbit₁, Bool.or_assoc, hend]
      congr 1
      rw [Bool.eq_iff_iff]
      simp only [Bool.or_eq_true, Bool.and_eq_true, decide_eq_true_eq]
      omega
  | case2 bits numbits pc hne =>
    have hlt : numbits < 8 := by
      by_contra hge
      exact hne (numbits - 8) (by omega)
    refine ⟨bits, ?_, rfl, fun p => ?_⟩
    · rw [Nat.mod_eq_of_lt hlt, Nat.div_eq_of_lt hlt, zero_mul, add_zero]
    · simp [Nat.div_eq_of_lt hlt]

theorem setLoop_spec {bits : bitvec} {numbits pc : ℕ} (hlen : (pc + numbits) / 8 < bits.length) :
    ∃ bits', setLoop bits numbits pc = some (bits', pc + numbits) ∧ bits'.length = bits.length ∧
      ∀ p, bit bits' p = (bit bits p || (decide (pc ≤ p) && decide (p < pc + numbits))) := by
  induction numbits generalizing bits pc with
  | zero => exact ⟨bits, rfl, rfl, fun p => by simp⟩
  | succ numbits ih =>
    obtain ⟨bits₁, hset, hlen₁, hbit₁⟩ := @bitvec.set_spec bits pc
      (lt_of_le_of_lt (Nat.div_le_div_right (by omega)) hlen)
    obtain ⟨bits', hloop, hlen', hbit'⟩ := @ih bits₁ (pc + 1) (by rw [hlen₁]; omega)
    have hend : pc + 1 + numbits = pc + (numbits + 1) := by omega
    refine ⟨bits', ?_, hlen'.trans hlen₁, fun p => ?_⟩
    · simp only [setLoop, hset, Option.bind_eq_bind, Option.bind_some, hloop, hend]
    · rw [hbit', hbit₁, Bool.or_assoc]
      congr 1
      rw [Bool.eq_iff_iff]
      simp only [Bool.or_eq_true, Bool.and_eq_true, beq_iff_eq, decide_eq_true_eq]
      omega

/-- The data of one push, marked in two runs, is the range `Vm.codeBitmap` lists. -/
theorem contains_range'_eq (start numbits p : ℕ) :
    (List.range' start numbits).contains p =
      ((decide (start ≤ p) && decide (p < start + numbits / 8 * 8)) ||
        (decide (start + numbits / 8 * 8 ≤ p) &&
          decide (p < start + numbits / 8 * 8 + numbits % 8))) := by
  rw [Bool.eq_iff_iff]
  simp only [List.contains_iff_mem, List.mem_range'_1, Bool.or_eq_true, Bool.and_eq_true,
    decide_eq_true_eq]
  omega

theorem codeBitmapLoop_spec (code : List UInt8) (fuel : ℕ) {bits : bitvec} {pc : ℕ}
    (hlen : code.length / 8 + 4 < bits.length) :
    ∃ bits', codeBitmapLoop code fuel bits pc = some bits' ∧ bits'.length = bits.length ∧
      ∀ p, bit bits' p = (bit bits p || (Vm.codeBitmap code fuel pc).contains p) := by
  induction fuel generalizing bits pc with
  | zero => exact ⟨bits, rfl, rfl, fun p => by simp [Vm.codeBitmap]⟩
  | succ fuel ih =>
    by_cases hend : code.length ≤ pc
    · exact ⟨bits, by simp [codeBitmapLoop, hend], rfl, fun p => by simp [Vm.codeBitmap, hend]⟩
    by_cases hpush : 0x60 ≤ getOp code pc ∧ getOp code pc ≤ 0x7f
    · -- the push's data, from `pc + 1`, ends at most 32 bytes past the code
      have hop : (getOp code pc).toNat ≤ 0x7f := UInt8.le_iff_toNat_le.mp hpush.2
      set numbits := (getOp code pc).toNat - 0x60 + 1 with hnumbits
      obtain ⟨bits₁, h8, hlen₁, hbit₁⟩ := @set8Loop_spec bits numbits (pc + 1)
        (by omega)
      obtain ⟨bits₂, h1, hlen₂, hbit₂⟩ := @setLoop_spec bits₁ (numbits % 8)
        (pc + 1 + numbits / 8 * 8) (by rw [hlen₁]; omega)
      have hpc : pc + 1 + numbits / 8 * 8 + numbits % 8 = pc + 1 + numbits := by omega
      rw [hpc] at h1 hbit₂
      obtain ⟨bits', hrest, hlen', hbit'⟩ := @ih bits₂ (pc + 1 + numbits)
        (by rw [hlen₂, hlen₁]; exact hlen)
      refine ⟨bits', ?_, hlen'.trans (hlen₂.trans hlen₁), fun p => ?_⟩
      · simp only [codeBitmapLoop, if_neg hend, if_pos hpush, ← hnumbits, h8, Option.bind_eq_bind,
          Option.bind_some, h1, hrest]
      · simp only [Vm.codeBitmap, if_neg hend, if_pos hpush, ← hnumbits]
        rw [hbit', hbit₂, hbit₁, List.contains_append, contains_range'_eq, hpc]
        simp only [Bool.or_assoc]
    · obtain ⟨bits', hrest, hlen', hbit'⟩ := @ih bits (pc + 1) hlen
      refine ⟨bits', ?_, hlen', fun p => ?_⟩
      · simp only [codeBitmapLoop, if_neg hend, if_neg hpush, hrest]
      · simp only [Vm.codeBitmap, if_neg hend, if_neg hpush, hbit']

/-! ## Instruction starts -/

/-- The length of the instruction an opcode starts: a `PUSHn` and its `n` data bytes, or one
byte. -/
def instrLen (op : UInt8) : ℕ := if 0x60 ≤ op ∧ op ≤ 0x7f then op.toNat - 0x60 + 2 else 1

/-- Decoding moves from the instruction at `pc`, inside the code, to the next. -/
def NextInstr (code : List UInt8) (pc pc' : ℕ) : Prop :=
  pc < code.length ∧ pc' = pc + instrLen (getOp code pc)

/-- The starts of the instructions of the left-to-right decoding of the code. -/
def InstrStart (code : List UInt8) (p : ℕ) : Prop := ReflTransGen (NextInstr code) 0 p

theorem le_of_reflTransGen_nextInstr {code : List UInt8} {a b : ℕ}
    (h : ReflTransGen (NextInstr code) a b) : a ≤ b := by
  induction h with
  | refl => exact le_rfl
  | tail _ hstep ih =>
    rw [hstep.2]
    omega

/-- Past its first instruction, the decoding from `pc` is the decoding from the next. -/
theorem reflTransGen_nextInstr_iff {code : List UInt8} {pc p : ℕ} (hpc : pc < code.length)
    (hne : pc ≠ p) :
    ReflTransGen (NextInstr code) pc p ↔
      ReflTransGen (NextInstr code) (pc + instrLen (getOp code pc)) p := by
  constructor
  · intro h
    rcases ReflTransGen.cases_head h with rfl | ⟨c, hc, hrest⟩
    · exact absurd rfl hne
    · rwa [hc.2] at hrest
  · exact ReflTransGen.head ⟨hpc, rfl⟩

/-- `Vm.codeBitmap` from `pc` lists positions after `pc`. -/
theorem lt_of_mem_codeBitmap {code : List UInt8} {fuel pc p : ℕ}
    (h : p ∈ Vm.codeBitmap code fuel pc) : pc < p := by
  induction fuel generalizing pc with
  | zero => simp [Vm.codeBitmap] at h
  | succ fuel ih =>
    unfold Vm.codeBitmap at h
    by_cases hend : code.length ≤ pc
    · simp [hend] at h
    by_cases hpush : 0x60 ≤ getOp code pc ∧ getOp code pc ≤ 0x7f
    · simp only [if_neg hend, if_pos hpush, List.mem_append, List.mem_range'_1] at h
      rcases h with hr | hr
      · omega
      · have := ih hr
        omega
    · simp only [if_neg hend, if_neg hpush] at h
      have := ih h
      omega

/-- With fuel to the end of the code, a position of the code from `pc` on is push data exactly
when the decoding from `pc` starts no instruction there. -/
theorem mem_codeBitmap_iff {code : List UInt8} {fuel pc p : ℕ} (hfuel : code.length ≤ pc + fuel)
    (hpc : pc ≤ p) (hp : p < code.length) :
    p ∈ Vm.codeBitmap code fuel pc ↔ ¬ ReflTransGen (NextInstr code) pc p := by
  induction fuel generalizing pc with
  | zero => omega
  | succ fuel ih =>
    have hend : ¬ code.length ≤ pc := by omega
    rcases eq_or_lt_of_le hpc with rfl | hlt
    · -- the instruction at `pc` starts there, and its data lies after it
      exact iff_of_false (fun h => lt_irrefl _ (lt_of_mem_codeBitmap h)) (not_not.mpr .refl)
    rw [reflTransGen_nextInstr_iff (by omega) hlt.ne]
    unfold Vm.codeBitmap
    by_cases hpush : 0x60 ≤ getOp code pc ∧ getOp code pc ≤ 0x7f
    · have hnext : pc + instrLen (getOp code pc) = pc + 1 + ((getOp code pc).toNat - 0x60 + 1) := by
        simp only [instrLen, if_pos hpush]
        omega
      rw [hnext]
      simp only [if_neg hend, if_pos hpush, List.mem_append, List.mem_range'_1]
      by_cases hdata : p < pc + 1 + ((getOp code pc).toNat - 0x60 + 1)
      · -- push data: the next instruction starts after it
        refine iff_of_true (.inl ⟨by omega, hdata⟩) fun h => ?_
        have := le_of_reflTransGen_nextInstr h
        omega
      · rw [← ih (by omega) (by omega)]
        exact ⟨fun h => h.resolve_left (by omega), .inr⟩
    · have hnext : pc + instrLen (getOp code pc) = pc + 1 := by simp [instrLen, hpush]
      simp only [if_neg hend, if_neg hpush, hnext]
      exact ih (by omega) (by omega)

theorem mem_codeBitmap_iff_not_instrStart {code : List UInt8} {p : ℕ} (hp : p < code.length) :
    p ∈ Vm.codeBitmap code code.length 0 ↔ ¬ InstrStart code p :=
  mem_codeBitmap_iff (by omega) (Nat.zero_le _) hp

/-! ## The bitmap and the jump check -/

/-- `codeBitmap` never indexes past the vector it allocates, and marks what `Vm.codeBitmap`
lists. -/
theorem codeBitmap_refines (code : List UInt8) :
    ∃ bits, codeBitmap code = some bits ∧ bits.length = code.length / 8 + 1 + 4 ∧
      ∀ p, bit bits p = (Vm.codeBitmap code code.length 0).contains p := by
  obtain ⟨bits, h, hlen, hbit⟩ := @codeBitmapLoop_spec code code.length
    (List.replicate (code.length / 8 + 1 + 4) 0) 0 (by simp only [List.length_replicate]; omega)
  refine ⟨bits, h, by rw [hlen, List.length_replicate], fun p => ?_⟩
  rw [hbit, bit_replicate_zero, Bool.false_or]

/-- The positions of the code `codeBitmap` marks are those that start no instruction. -/
theorem codeBitmap_spec (code : List UInt8) :
    ∃ bits, codeBitmap code = some bits ∧ bits.length = code.length / 8 + 1 + 4 ∧
      ∀ p < code.length, (bit bits p = true ↔ ¬ InstrStart code p) := by
  obtain ⟨bits, h, hlen, hbit⟩ := codeBitmap_refines code
  refine ⟨bits, h, hlen, fun p hp => ?_⟩
  rw [hbit, List.contains_iff_mem, mem_codeBitmap_iff_not_instrStart hp]

/-- The interpreter's jump check: a `JUMPDEST` below `2^62` that starts an instruction. -/
theorem has_iff_instrStart (code : List UInt8) (dest : ℕ) :
    Vm.has code dest = true ↔
      dest < 2 ^ 62 ∧ dest < code.length ∧ getOp code dest = 0x5b ∧ InstrStart code dest := by
  unfold Vm.has
  by_cases hout : 2 ^ 62 ≤ dest ∨ code.length ≤ dest
  · rw [if_pos hout]
    exact iff_of_false Bool.false_ne_true (by omega)
  rw [if_neg hout]
  have hin : dest < code.length := by omega
  have hseg :
      (!(Vm.codeBitmap code code.length 0).contains dest) = true ↔ InstrStart code dest := by
    simp [mem_codeBitmap_iff_not_instrStart hin]
  rw [Bool.and_eq_true, beq_iff_eq, hseg]
  exact ⟨fun h => ⟨by omega, hin, h.1, h.2⟩, fun h => ⟨h.2.2.1, h.2.2.2⟩⟩

/-- `destinations.has` on the vector `codeBitmap` builds is the interpreter's check, and never
panics. -/
theorem destinations_has_eq_has (code : List UInt8) (dest : ℕ) :
    destinations.has code dest = some (Vm.has code dest) := by
  unfold destinations.has Vm.has
  by_cases hout : 2 ^ 62 ≤ dest ∨ code.length ≤ dest
  · rw [if_pos hout, if_pos hout]
  rw [if_neg hout, if_neg hout]
  obtain ⟨bits, h, hlen, hbit⟩ := codeBitmap_refines code
  have hseg : bits.codeSegment dest = some !(Vm.codeBitmap code code.length 0).contains dest := by
    rw [bitvec.codeSegment_eq (by omega), hbit]
  simp only [h, Option.bind_eq_bind, Option.bind_some]
  by_cases hop : getOp code dest = 0x5b
  · rw [if_pos hop, hseg, hop]
    rfl
  · rw [if_neg hop]
    simp [hop]

/-- Jump destinations are the `JUMPDEST`s at instruction starts below `2^62`: `codeBitmap` stays
inside its vector, and `destinations.has` accepts exactly those. -/
theorem destinations_has_iff_instrStart (code : List UInt8) (dest : ℕ) :
    (∃ bits, codeBitmap code = some bits ∧ bits.length = code.length / 8 + 1 + 4) ∧
      ∃ b, destinations.has code dest = some b ∧
        (b = true ↔ dest < 2 ^ 62 ∧ dest < code.length ∧ getOp code dest = 0x5b ∧
          InstrStart code dest) := by
  obtain ⟨bits, h, hlen, -⟩ := codeBitmap_spec code
  exact ⟨⟨bits, h, hlen⟩, Vm.has code dest, destinations_has_eq_has code dest,
    has_iff_instrStart code dest⟩

/-- On code of at most `2^62` bytes, which every code a contract can have is, `codeBitmap` stays
inside its vector, and `destinations.has` accepts exactly the `JUMPDEST`s that start an
instruction. -/
theorem destinations_has_iff_jumpdest (code : List UInt8) (hcode : code.length ≤ 2 ^ 62) (dest : ℕ) :
    (∃ bits, codeBitmap code = some bits ∧ bits.length = code.length / 8 + 1 + 4) ∧
      ∃ b, destinations.has code dest = some b ∧
        (b = true ↔ dest < code.length ∧ getOp code dest = 0x5b ∧ InstrStart code dest) := by
  obtain ⟨hbits, b, hb, hiff⟩ := destinations_has_iff_instrStart code dest
  refine ⟨hbits, b, hb, ?_⟩
  rw [hiff]
  constructor
  · intro h
    exact h.2
  · intro h
    exact ⟨by omega, h⟩

/-- The `JUMPDEST` after a `PUSH1` is its data; the next one starts an instruction. -/
theorem destinations_has_iff_jumpdest_pushData :
    ¬ InstrStart [0x60, 0x5b, 0x5b] 1 ∧ InstrStart [0x60, 0x5b, 0x5b] 2 := by
  have hcode : [(0x60 : UInt8), 0x5b, 0x5b].length ≤ 2 ^ 62 := by norm_num
  obtain ⟨-, b₁, hb₁, hiff₁⟩ := destinations_has_iff_jumpdest [0x60, 0x5b, 0x5b] hcode 1
  obtain ⟨-, b₂, hb₂, hiff₂⟩ := destinations_has_iff_jumpdest [0x60, 0x5b, 0x5b] hcode 2
  have h₁ : destinations.has [0x60, 0x5b, 0x5b] 1 = some false := by decide
  have h₂ : destinations.has [0x60, 0x5b, 0x5b] 2 = some true := by decide
  rw [h₁, Option.some.injEq] at hb₁
  rw [h₂, Option.some.injEq] at hb₂
  subst hb₁ hb₂
  refine ⟨fun hstart => ?_, (hiff₂.mp rfl).2.2⟩
  exact Bool.false_ne_true (hiff₁.mpr ⟨by decide, by decide, hstart⟩)

/-! ## Status opcodes -/

/-- `auxCodePrefixWithFE`: `INVALID`, then the start of the metadata the compiler appends to the
code (`0xa1 0x65 "bzzr0" 0x58 0x20`). -/
def auxCodePrefixWithFE : List UInt8 := [0xfe, 0xa1, 0x65, 0x62, 0x7a, 0x7a, 0x72, 0x30, 0x58, 0x20]

def pushCheckCount : ℕ := 3

/-- `HEIGHT`, `TIMESTAMP`, `DELEGATECALL`, `EXTCODESIZE`, `EXTCODECOPY`. -/
def statusCodeListRequireSnapshot : List UInt8 := [0x43, 0x42, 0xf4, 0x3b, 0x3c]

/-- `SEED`, `RANDOM`. -/
def statusCodeListRequireSnapshotWithSeed : List UInt8 := [0x4a, 0x4b]

/-- `bytes.Index`: the first position of `s` where `sep` starts. -/
def bytesIndex (sep : List UInt8) : List UInt8 → Option ℕ
  | [] => if sep = [] then some 0 else none
  | b :: rest => if sep.isPrefixOf (b :: rest) then some 0 else (bytesIndex sep rest).map (· + 1)

/-- The check loop of `getCodeWithoutAuxCodeAndParams`: whether one of the `n` positions from `pos`
is push data in the original code's vector. -/
def pushDataIn (originM : bitvec) (pos : ℕ) : ℕ → Option Bool
  | 0 => some false
  | n + 1 => do
    let seg ← originM.codeSegment pos
    if !seg then some true else pushDataIn originM (pos + 1) n

/-- The loop of `getCodeWithoutAuxCodeAndParams` on the rest `code` of the original code,
`prevIndex` bytes in, after `resultCode`. A round that goes on skips a marker, ten bytes. -/
def withoutAuxLoop (originM : bitvec) : ℕ → List UInt8 → List UInt8 → ℕ → Option (List UInt8)
  | 0, _, _, _ => none
  | fuel + 1, code, resultCode, prevIndex =>
    match bytesIndex auxCodePrefixWithFE code with
    | none => some (resultCode ++ code)
    | some index =>
      -- Go's `index > len(code)-44`, on `int`
      if code.length < index + 44 then some (resultCode ++ code)
      else do
        let flag ← pushDataIn originM (prevIndex + index) pushCheckCount
        if flag then
          let newIndex := index + auxCodePrefixWithFE.length
          withoutAuxLoop originM fuel (code.drop newIndex) (resultCode ++ code.take newIndex)
            (prevIndex + newIndex)
        else some (resultCode ++ code.take (index + 1))

/-- `getCodeWithoutAuxCodeAndParams`: the code up to the `INVALID` of the first marker that is not
push data. -/
def getCodeWithoutAuxCodeAndParams (code : List UInt8) : Option (List UInt8) := do
  let originM ← codeBitmap code
  withoutAuxLoop originM (code.length + 1) code [] 0

/-- One of the inner loops of `ContainsCertainStatusCode` over a list of opcodes: the flag it sets,
and whether it returned because the other flag was set already. -/
def matchStatusList (op : UInt8) (other : Bool) : Bool → List UInt8 → Bool × Bool
  | flag, [] => (flag, false)
  | flag, c :: cs =>
    if op = c then (if other then (true, true) else matchStatusList op other true cs)
    else matchStatusList op other flag cs

/-- The loop of `ContainsCertainStatusCode` from position `i`, with the two flags. -/
def statusScan (m : bitvec) (code : List UInt8) :
    ℕ → ℕ → Bool → Bool → Option (Bool × Bool)
  | 0, _, requireSnapshot, requireSnapshotWithSeed =>
    some (requireSnapshot, requireSnapshotWithSeed)
  | fuel + 1, i, requireSnapshot, requireSnapshotWithSeed =>
    if code.length ≤ i then some (requireSnapshot, requireSnapshotWithSeed)
    else do
      let seg ← m.codeSegment i
      if seg then
        let (requireSnapshot, done) := matchStatusList (getOp code i) requireSnapshotWithSeed
          requireSnapshot statusCodeListRequireSnapshot
        if done then return (requireSnapshot, requireSnapshotWithSeed)
        let (requireSnapshotWithSeed, done) := matchStatusList (getOp code i) requireSnapshot
          requireSnapshotWithSeed statusCodeListRequireSnapshotWithSeed
        if done then return (requireSnapshot, requireSnapshotWithSeed)
        statusScan m code fuel (i + 1) requireSnapshot requireSnapshotWithSeed
      else statusScan m code fuel (i + 1) requireSnapshot requireSnapshotWithSeed

/-- `ContainsCertainStatusCode`: whether the code without its metadata reads the snapshot chain
(`requireSnapshot`) or the seed (`requireSnapshotWithSeed`) at an instruction. -/
def ContainsCertainStatusCode (code : List UInt8) : Option (Bool × Bool) :=
  if code.length = 0 then some (false, false)
  else do
    let resultCode ← getCodeWithoutAuxCodeAndParams code
    let m ← codeBitmap resultCode
    statusScan m resultCode resultCode.length 0 false false

/-! ## The stripped code -/

theorem bytesIndex_eq_some {sep s : List UInt8} {index : ℕ} (h : bytesIndex sep s = some index) :
    sep <+: s.drop index ∧ ∀ k < index, ¬ sep <+: s.drop k := by
  induction s generalizing index with
  | nil =>
    unfold bytesIndex at h
    split_ifs at h with hsep
    cases h
    exact ⟨hsep ▸ List.nil_prefix, fun k hk => absurd hk (Nat.not_lt_zero k)⟩
  | cons b rest ih =>
    unfold bytesIndex at h
    by_cases hpre : sep.isPrefixOf (b :: rest)
    · rw [if_pos hpre] at h
      cases h
      exact ⟨List.isPrefixOf_iff_prefix.mp hpre, fun k hk => absurd hk (Nat.not_lt_zero k)⟩
    · rw [if_neg hpre] at h
      obtain ⟨i, hi, rfl⟩ := Option.map_eq_some_iff.mp h
      obtain ⟨hat, hbefore⟩ := ih hi
      refine ⟨hat, fun k hk => ?_⟩
      cases k with
      | zero => exact fun h0 => hpre (List.isPrefixOf_iff_prefix.mpr h0)
      | succ k => exact hbefore k (by omega)

theorem bytesIndex_eq_none {sep s : List UInt8} (hsep : sep ≠ []) (h : bytesIndex sep s = none) :
    ∀ k, ¬ sep <+: s.drop k := by
  induction s with
  | nil =>
    intro k hk
    rw [List.drop_nil, List.prefix_nil] at hk
    exact hsep hk
  | cons b rest ih =>
    unfold bytesIndex at h
    by_cases hpre : sep.isPrefixOf (b :: rest)
    · rw [if_pos hpre] at h
      cases h
    · rw [if_neg hpre, Option.map_eq_none_iff] at h
      intro k
      cases k with
      | zero => exact fun h0 => hpre (List.isPrefixOf_iff_prefix.mpr h0)
      | succ k => exact ih h k

/-- The marker does not overlap itself: its `INVALID` byte occurs in it only first. -/
theorem auxCodePrefixWithFE_apart {s : List UInt8} {a b : ℕ}
    (ha : auxCodePrefixWithFE <+: s.drop a) (hb : auxCodePrefixWithFE <+: s.drop b) (hab : a < b) :
    a + auxCodePrefixWithFE.length ≤ b := by
  by_contra hnear
  have hlen : auxCodePrefixWithFE.length = 10 := rfl
  have hfe : (s.drop b)[0]? = some 0xfe := List.prefix_iff_getElem?.mp hb 0 (by decide)
  have hin : (s.drop a)[b - a]? = some auxCodePrefixWithFE[b - a] :=
    List.prefix_iff_getElem?.mp ha (b - a) (by omega)
  rw [List.getElem?_drop] at hfe hin
  rw [show a + (b - a) = b + 0 by omega, hfe, Option.some.injEq] at hin
  have hat : auxCodePrefixWithFE[b - a]? = some 0xfe := by
    rw [List.getElem?_eq_getElem (by omega), hin]
  have hrest : ∀ k : Fin 10, 0 < k.val → auxCodePrefixWithFE[k.val]? ≠ some 0xfe := by decide
  exact hrest ⟨b - a, by omega⟩ (by simp only; omega) hat

/-- A marker at `j` whose first `pushCheckCount` bytes start instructions: one that is not push
data. -/
def AuxCodeAt (code : List UInt8) (j : ℕ) : Prop :=
  auxCodePrefixWithFE <+: code.drop j ∧ ∀ k < pushCheckCount, InstrStart code (j + k)

theorem pushDataIn_spec {code : List UInt8} {bits : bitvec} (hbits : codeBitmap code = some bits)
    {pos n : ℕ} (hn : pos + n ≤ code.length) :
    ∃ flag, pushDataIn bits pos n = some flag ∧
      (flag = true ↔ ∃ k < n, ¬ InstrStart code (pos + k)) := by
  obtain ⟨bits', hbits', hlen, hbit⟩ := codeBitmap_spec code
  rw [hbits, Option.some.injEq] at hbits'
  subst hbits'
  induction n generalizing pos with
  | zero => exact ⟨false, rfl, by simp⟩
  | succ n ih =>
    have hseg := @bitvec.codeSegment_eq bits pos (by omega)
    by_cases hpos : InstrStart code pos
    · have hb : bit bits pos = false := by
        rw [Bool.eq_false_iff, Ne, hbit pos (by omega)]
        exact not_not.mpr hpos
      obtain ⟨flag, hflag, hiff⟩ := @ih (pos + 1) (by omega)
      refine ⟨flag, by simp [pushDataIn, hseg, hb, hflag], hiff.trans ?_⟩
      constructor
      · rintro ⟨k, hk, hnot⟩
        exact ⟨k + 1, by omega, by rwa [show pos + (k + 1) = pos + 1 + k by omega]⟩
      · rintro ⟨k, hk, hnot⟩
        cases k with
        | zero => exact absurd hpos hnot
        | succ k => exact ⟨k, by omega, by rwa [show pos + 1 + k = pos + (k + 1) by omega]⟩
    · have hb : bit bits pos = true := (hbit pos (by omega)).mpr hpos
      exact ⟨true, by simp [pushDataIn, hseg, hb], iff_of_true rfl ⟨0, by omega, hpos⟩⟩

/-- The loop from `prevIndex`, with no marker of code before it: it returns the code up to a
position past every byte that no such marker precedes. -/
theorem withoutAuxLoop_spec {code : List UInt8} {bits : bitvec}
    (hbits : codeBitmap code = some bits) {fuel prevIndex : ℕ} (hprev : prevIndex ≤ code.length)
    (hfuel : code.length - prevIndex < fuel)
    (hbefore : ∀ j < prevIndex, ¬ AuxCodeAt code j) :
    ∃ n, withoutAuxLoop bits fuel (code.drop prevIndex) (code.take prevIndex) prevIndex =
        some (code.take n) ∧
      ∀ p < code.length, (∀ j < p, ¬ AuxCodeAt code j) → p < n := by
  induction fuel generalizing prevIndex with
  | zero => omega
  | succ fuel ih =>
    have hwhole : code.take prevIndex ++ code.drop prevIndex = code.take code.length := by
      rw [List.take_append_drop, List.take_length]
    unfold withoutAuxLoop
    cases hidx : bytesIndex auxCodePrefixWithFE (code.drop prevIndex) with
    | none => exact ⟨code.length, by rw [hwhole], fun p hp _ => hp⟩
    | some index =>
      dsimp only
      obtain ⟨hat, hfirst⟩ := bytesIndex_eq_some hidx
      simp only [List.drop_drop] at hat hfirst
      by_cases hend : (code.drop prevIndex).length < index + 44
      · exact ⟨code.length, by rw [if_pos hend, hwhole], fun p hp _ => hp⟩
      rw [if_neg hend]
      rw [List.length_drop] at hend
      obtain ⟨flag, hflag, hiff⟩ :=
        @pushDataIn_spec code bits hbits (prevIndex + index) pushCheckCount (by
          unfold pushCheckCount
          omega)
      rw [hflag, Option.bind_eq_bind, Option.bind_some]
      cases flag with
      | true =>
        -- the marker at `prevIndex + index` is push data: skip it
        obtain ⟨k, hk, hnot⟩ := hiff.mp rfl
        have hskip :
            ∀ j < prevIndex + (index + auxCodePrefixWithFE.length), ¬ AuxCodeAt code j := by
          rintro j hj ⟨hmarker, hstarts⟩
          rcases lt_trichotomy j (prevIndex + index) with hlt | heq | hgt
          · by_cases hj' : j < prevIndex
            · exact hbefore j hj' ⟨hmarker, hstarts⟩
            · exact hfirst (j - prevIndex) (by omega)
                (by rwa [show prevIndex + (j - prevIndex) = j by omega])
          · exact hnot (heq ▸ hstarts k hk)
          · have := auxCodePrefixWithFE_apart hat hmarker hgt
            omega
        obtain ⟨n, hrun, hkeep⟩ := @ih (prevIndex + (index + auxCodePrefixWithFE.length))
          (by simp only [auxCodePrefixWithFE, List.length_cons, List.length_nil]; omega)
          (by simp only [auxCodePrefixWithFE, List.length_cons, List.length_nil]; omega) hskip
        refine ⟨n, ?_, hkeep⟩
        rw [if_pos rfl, List.drop_drop, ← List.take_add]
        exact hrun
      | false =>
        -- the first marker of code: cut after its `INVALID`
        have hcode : AuxCodeAt code (prevIndex + index) :=
          ⟨hat, fun k hk =>
            by_contra fun hnot => absurd (hiff.mpr ⟨k, hk, hnot⟩) Bool.false_ne_true⟩
        refine ⟨prevIndex + (index + 1), by rw [if_neg Bool.false_ne_true, ← List.take_add], ?_⟩
        intro p hp hnone
        by_contra hge
        exact hnone (prevIndex + index) (by omega) hcode

/-- `getCodeWithoutAuxCodeAndParams` returns, with no index out of range, a prefix of the code that
keeps every byte up to the first marker that is not push data. -/
theorem getCodeWithoutAuxCodeAndParams_spec (code : List UInt8) :
    ∃ n, getCodeWithoutAuxCodeAndParams code = some (code.take n) ∧
      ∀ p < code.length, (∀ j < p, ¬ AuxCodeAt code j) → p < n := by
  obtain ⟨bits, hbits, -⟩ := codeBitmap_spec code
  obtain ⟨n, hrun, hkeep⟩ := @withoutAuxLoop_spec code bits hbits (code.length + 1) 0
    (Nat.zero_le _) (by omega) (fun j hj => absurd hj (Nat.not_lt_zero j))
  rw [List.drop_zero, List.take_zero] at hrun
  exact ⟨n, by rw [getCodeWithoutAuxCodeAndParams, hbits, Option.bind_eq_bind, Option.bind_some,
    hrun], hkeep⟩

/-! ## The status scan -/

theorem getOp_take {code : List UInt8} {n p : ℕ} (hp : p < n) :
    getOp (code.take n) p = getOp code p := by
  unfold getOp
  rw [List.getD_eq_getElem?_getD, List.getD_eq_getElem?_getD, List.getElem?_take, if_pos hp]

theorem instrLen_pos (op : UInt8) : 0 < instrLen op := by
  unfold instrLen
  split_ifs <;> omega

/-- A prefix of the code starts the same instructions as the code below its end. -/
theorem instrStart_take_iff {code : List UInt8} {n p : ℕ} (hp : p < n) :
    InstrStart (code.take n) p ↔ InstrStart code p := by
  -- a step to a position below `n` is from one below `n`, the same in the prefix and the code
  have hstep : ∀ {a b}, b < n → (NextInstr (code.take n) a b ↔ NextInstr code a b) := by
    intro a b hb
    unfold NextInstr
    constructor
    · rintro ⟨ha, rfl⟩
      have := instrLen_pos (getOp (code.take n) a)
      rw [List.length_take] at ha
      exact ⟨by omega, by rw [getOp_take (by omega)]⟩
    · rintro ⟨ha, rfl⟩
      have := instrLen_pos (getOp code a)
      exact ⟨by rw [List.length_take]; omega, by rw [getOp_take (by omega)]⟩
  have hlt : ∀ {code' : List UInt8} {a b}, NextInstr code' a b → a < b := by
    rintro code' a b ⟨-, rfl⟩
    have := instrLen_pos (getOp code' a)
    omega
  constructor
  · intro h
    induction h with
    | refl => exact .refl
    | tail _ hbc ih => exact (ih (lt_trans (hlt hbc) hp)).tail ((hstep hp).mp hbc)
  · intro h
    induction h with
    | refl => exact .refl
    | tail _ hbc ih => exact (ih (lt_trans (hlt hbc) hp)).tail ((hstep hp).mpr hbc)

theorem matchStatusList_eq (op : UInt8) (other flag : Bool) (cs : List UInt8) :
    matchStatusList op other flag cs = (flag || decide (op ∈ cs), other && decide (op ∈ cs)) := by
  induction cs generalizing flag with
  | nil => simp [matchStatusList]
  | cons c cs ih =>
    unfold matchStatusList
    by_cases hc : op = c
    · subst hc
      cases other <;> simp [ih]
    · simp [hc, ih]

/-- The code reads an opcode of `ops` at the instruction at `j`. -/
def StatusAt (code : List UInt8) (ops : List UInt8) (j : ℕ) : Prop :=
  j < code.length ∧ InstrStart code j ∧ getOp code j ∈ ops

/-- A round of the scan at an instruction: both inner loops, and an early return once both flags
are set. -/
theorem statusScan_succ_of_segment {m : bitvec} {code : List UInt8} {fuel i : ℕ}
    (hi : i < code.length) (hseg : m.codeSegment i = some true) (rs rsw : Bool) :
    statusScan m code (fuel + 1) i rs rsw =
      let inSnapshot := decide (getOp code i ∈ statusCodeListRequireSnapshot)
      let inSeed := decide (getOp code i ∈ statusCodeListRequireSnapshotWithSeed)
      if (rsw && inSnapshot) || ((rs || inSnapshot) && inSeed) then some (true, true)
      else statusScan m code fuel (i + 1) (rs || inSnapshot) (rsw || inSeed) := by
  simp only [statusScan, if_neg (Nat.not_le.mpr hi), hseg, Option.bind_eq_bind, Option.bind_some,
    if_true, matchStatusList_eq]
  cases rs <;> cases rsw <;> cases decide (getOp code i ∈ statusCodeListRequireSnapshot) <;>
    cases decide (getOp code i ∈ statusCodeListRequireSnapshotWithSeed) <;> rfl

theorem statusScan_succ_of_data {m : bitvec} {code : List UInt8} {fuel i : ℕ}
    (hi : i < code.length) (hseg : m.codeSegment i = some false) (rs rsw : Bool) :
    statusScan m code (fuel + 1) i rs rsw = statusScan m code fuel (i + 1) rs rsw := by
  simp only [statusScan, if_neg (Nat.not_le.mpr hi), hseg, Option.bind_eq_bind, Option.bind_some]
  rfl

theorem exists_ge_iff {P : ℕ → Prop} (i : ℕ) : (∃ j ≥ i, P j) ↔ P i ∨ ∃ j ≥ i + 1, P j := by
  constructor
  · rintro ⟨j, hj, hp⟩
    rcases eq_or_lt_of_le hj with rfl | hlt
    · exact .inl hp
    · exact .inr ⟨j, hlt, hp⟩
  · rintro (hp | ⟨j, hj, hp⟩)
    · exact ⟨i, le_rfl, hp⟩
    · exact ⟨j, by omega, hp⟩

/-- The scan from `i` sets each flag exactly when it was set or the code reads one of its
opcodes at an instruction from `i` on. -/
theorem statusScan_spec {code : List UInt8} {m : bitvec} (hm : codeBitmap code = some m)
    {fuel i : ℕ} (hfuel : code.length ≤ i + fuel) (rs rsw : Bool) :
    ∃ rs' rsw', statusScan m code fuel i rs rsw = some (rs', rsw') ∧
      (rs' = true ↔ rs = true ∨ ∃ j ≥ i, StatusAt code statusCodeListRequireSnapshot j) ∧
      (rsw' = true ↔
        rsw = true ∨ ∃ j ≥ i, StatusAt code statusCodeListRequireSnapshotWithSeed j) := by
  obtain ⟨bits, hbits, hlen, hbit⟩ := codeBitmap_spec code
  rw [hm, Option.some.injEq] at hbits
  subst hbits
  -- past the end nothing is read and the flags stay
  have hpast : ∀ {i} (ops : List UInt8), code.length ≤ i → ¬ ∃ j ≥ i, StatusAt code ops j := by
    rintro i ops hi ⟨j, hj, hlt, -⟩
    omega
  induction fuel generalizing i rs rsw with
  | zero =>
    exact ⟨rs, rsw, rfl, by simp [hpast _ (show code.length ≤ i by omega)],
      by simp [hpast _ (show code.length ≤ i by omega)]⟩
  | succ fuel ih =>
    by_cases hend : code.length ≤ i
    · exact ⟨rs, rsw, by simp [statusScan, hend], by simp [hpast _ hend], by simp [hpast _ hend]⟩
    have hi : i < code.length := by omega
    have hseg := @bitvec.codeSegment_eq m i (by omega)
    by_cases hstart : InstrStart code i
    · -- an instruction: its opcode is read
      have hb : bit m i = false := by
        rw [Bool.eq_false_iff, Ne, hbit i hi]
        exact not_not.mpr hstart
      rw [hb, Bool.not_false] at hseg
      have hat : ∀ ops, StatusAt code ops i ↔ getOp code i ∈ ops := fun ops =>
        ⟨fun h => h.2.2, fun h => ⟨hi, hstart, h⟩⟩
      rw [statusScan_succ_of_segment hi hseg]
      dsimp only
      split_ifs with hearly
      · simp only [Bool.or_eq_true, Bool.and_eq_true, decide_eq_true_eq] at hearly
        refine ⟨true, true, rfl, iff_of_true rfl ?_, iff_of_true rfl ?_⟩
        · rcases hearly with ⟨-, hin⟩ | ⟨hin | hin, -⟩
          · exact .inr ⟨i, le_rfl, (hat _).mpr hin⟩
          · exact .inl hin
          · exact .inr ⟨i, le_rfl, (hat _).mpr hin⟩
        · rcases hearly with ⟨hrsw, -⟩ | ⟨-, hin⟩
          · exact .inl hrsw
          · exact .inr ⟨i, le_rfl, (hat _).mpr hin⟩
      · obtain ⟨rs', rsw', hrun, hrs, hrsw⟩ := @ih (i + 1) (by omega) _ _
        refine ⟨rs', rsw', hrun, hrs.trans ?_, hrsw.trans ?_⟩ <;>
          simp only [Bool.or_eq_true, decide_eq_true_eq, exists_ge_iff i, hat] <;> tauto
    · -- push data: skipped
      have hb : bit m i = true := (hbit i hi).mpr hstart
      rw [hb, Bool.not_true] at hseg
      have hnot : ∀ ops, ¬ StatusAt code ops i := fun ops h => hstart h.2.1
      obtain ⟨rs', rsw', hrun, hrs, hrsw⟩ := @ih (i + 1) (by omega) rs rsw
      refine ⟨rs', rsw', by rw [statusScan_succ_of_data hi hseg, hrun], hrs.trans ?_,
        hrsw.trans ?_⟩ <;>
        simp only [exists_ge_iff i, hnot, false_or]

/-- Read in a prefix of the code, at an instruction of the code. -/
theorem exists_statusAt_take_iff {code : List UInt8} {n : ℕ} (ops : List UInt8) :
    (∃ j ≥ 0, StatusAt (code.take n) ops j) ↔
      ∃ i < (code.take n).length, InstrStart code i ∧ getOp (code.take n) i ∈ ops := by
  constructor
  · rintro ⟨j, -, hj, hstart, hop⟩
    have hjn : j < n := lt_of_lt_of_le hj (List.length_take_le _ _)
    exact ⟨j, hj, (instrStart_take_iff hjn).mp hstart, hop⟩
  · rintro ⟨j, hj, hstart, hop⟩
    have hjn : j < n := lt_of_lt_of_le hj (List.length_take_le _ _)
    exact ⟨j, Nat.zero_le j, hj, (instrStart_take_iff hjn).mpr hstart, hop⟩

/-- Status opcodes are found: `getCodeWithoutAuxCodeAndParams` returns a prefix of the code that
keeps every byte up to its first marker that is not push data, and `ContainsCertainStatusCode`
sets each flag exactly when that prefix holds one of the flag's opcodes at a start of an
instruction of the code. -/
theorem ContainsCertainStatusCode_spec (code : List UInt8) :
    ∃ n, getCodeWithoutAuxCodeAndParams code = some (code.take n) ∧
      (∀ p < code.length, (∀ j < p, ¬ AuxCodeAt code j) → p < n) ∧
      ∃ requireSnapshot requireSnapshotWithSeed,
        ContainsCertainStatusCode code = some (requireSnapshot, requireSnapshotWithSeed) ∧
        (requireSnapshot = true ↔ ∃ i < (code.take n).length,
          InstrStart code i ∧ getOp (code.take n) i ∈ statusCodeListRequireSnapshot) ∧
        (requireSnapshotWithSeed = true ↔ ∃ i < (code.take n).length,
          InstrStart code i ∧ getOp (code.take n) i ∈ statusCodeListRequireSnapshotWithSeed) := by
  obtain ⟨n, hget, hkeep⟩ := getCodeWithoutAuxCodeAndParams_spec code
  refine ⟨n, hget, hkeep, ?_⟩
  by_cases h0 : code.length = 0
  · rw [List.length_eq_zero_iff] at h0
    subst h0
    exact ⟨false, false, rfl, by simp, by simp⟩
  obtain ⟨m, hm, -⟩ := codeBitmap_spec (code.take n)
  obtain ⟨rs, rsw, hrun, hrs, hrsw⟩ :=
    @statusScan_spec (code.take n) m hm (code.take n).length 0 (by omega) false false
  refine ⟨rs, rsw, ?_, ?_, ?_⟩
  · simp only [ContainsCertainStatusCode, if_neg h0, hget, hm, Option.bind_eq_bind,
      Option.bind_some, hrun]
  · rw [hrs, exists_statusAt_take_iff, Bool.false_eq_true, false_or]
  · rw [hrsw, exists_statusAt_take_iff, Bool.false_eq_true, false_or]

example : ContainsCertainStatusCode [0x60, 0x43, 0x43] = some (true, false) := by decide

end Vite.Vm.Destination
