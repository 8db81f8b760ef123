import Vite.Vm.MathBig

/-!
# The word opcodes against the EVM's definition

`OpCode.spec` is the EVM's meaning of each word opcode over `Z/2^256`: the opcode pops
`OpCode.pops` words and pushes one, computed by a `BitVec 256` operation. The signed opcodes
read words in two's complement, division and remainder by zero give `0`, and `SAR` by `256` or
more gives `0` for a non-negative value and `2 ^ 256 - 1` for a negative one.

The interpreter refines it (`execute_wordValue`): on a stack of word values that holds enough
operands, `OpCode.execute` returns the values of the stack `OpCode.spec` returns, for every
opcode but `SAR`. `opSAR` agrees with it except on a zero value shifted by `256` or more, where
its test `value.Sign() > 0` takes the negative branch (`opSAR_zero_shift`).
-/

namespace Vite.Vm

open TwosComplement

/-- A stack operation that pops one, two or three operands, top first, and pushes one. -/
inductive StackOp (α : Type) where
  | unary (f : α → α)
  | binary (f : α → α → α)
  | ternary (f : α → α → α → α)

namespace StackOp

variable {α : Type}

/-- The operands the operation pops. -/
def arity : StackOp α → Nat
  | unary _ => 1
  | binary _ => 2
  | ternary _ => 3

/-- The operation on a stack, `none` when the stack is too short. -/
def run : StackOp α → List α → Option (List α)
  | unary f, a :: rest => some (f a :: rest)
  | binary f, a :: b :: rest => some (f a b :: rest)
  | ternary f, a :: b :: c :: rest => some (f a b c :: rest)
  | _, _ => none

/-- The operation pops exactly its operands and leaves the rest of the stack as it was. -/
theorem run_eq_some {op : StackOp α} {s : List α} (h : op.arity ≤ s.length) :
    ∃ r, op.run s = some (r :: s.drop op.arity) := by
  match op, s, h with
  | unary f, a :: rest, _ => exact ⟨f a, rfl⟩
  | binary f, a :: b :: rest, _ => exact ⟨f a b, rfl⟩
  | ternary f, a :: b :: c :: rest, _ => exact ⟨f a b c, rfl⟩

theorem run_eq_none {op : StackOp α} {s : List α} (h : s.length < op.arity) : op.run s = none := by
  match op, s, h with
  | unary _, [], _ => rfl
  | binary _, [], _ | binary _, [_], _ => rfl
  | ternary _, [], _ | ternary _, [_], _ | ternary _, [_, _], _ => rfl

end StackOp

/-- The EVM's definition of each word opcode. -/
def OpCode.sem : OpCode → StackOp Word
  | .ADD => .binary fun a b => a + b
  | .MUL => .binary fun a b => a * b
  | .SUB => .binary fun a b => a - b
  | .DIV => .binary fun a b => if b = 0 then 0 else a / b
  | .SDIV => .binary fun a b => if b = 0 then 0 else a.sdiv b
  | .MOD => .binary fun a b => if b = 0 then 0 else a % b
  | .SMOD => .binary fun a b => if b = 0 then 0 else a.srem b
  | .ADDMOD => .ternary fun a b n =>
      if n = 0 then 0 else .ofNat 256 ((a.toNat + b.toNat) % n.toNat)
  | .MULMOD => .ternary fun a b n =>
      if n = 0 then 0 else .ofNat 256 ((a.toNat * b.toNat) % n.toNat)
  | .EXP => .binary fun a b => a ^ b.toNat
  | .SIGNEXTEND => .binary fun b x =>
      if b.toNat < 31 then (x.setWidth (8 * (b.toNat + 1))).signExtend 256 else x
  | .LT => .binary fun a b => if a < b then 1 else 0
  | .GT => .binary fun a b => if b < a then 1 else 0
  | .SLT => .binary fun a b => if a.slt b then 1 else 0
  | .SGT => .binary fun a b => if b.slt a then 1 else 0
  | .EQ => .binary fun a b => if a = b then 1 else 0
  | .ISZERO => .unary fun a => if a = 0 then 1 else 0
  | .AND => .binary fun a b => a &&& b
  | .OR => .binary fun a b => a ||| b
  | .XOR => .binary fun a b => a ^^^ b
  | .NOT => .unary fun a => ~~~a
  | .BYTE => .binary fun i x =>
      if i.toNat < 32 then (x >>> (8 * (31 - i.toNat))) &&& 255 else 0
  | .SHL => .binary fun s x => if s.toNat < 256 then x <<< s.toNat else 0
  | .SHR => .binary fun s x => if s.toNat < 256 then x >>> s.toNat else 0
  | .SAR => .binary fun s x =>
      if s.toNat < 256 then x.sshiftRight s.toNat
      else if x.toInt < 0 then .allOnes 256 else 0

/-- The operands an opcode pops. -/
def OpCode.pops (op : OpCode) : Nat := op.sem.arity

/-- The EVM's stack transition of an opcode. -/
def OpCode.spec (op : OpCode) : List Word → Option (List Word) := op.sem.run

/-! ## Values of the word operations -/

section Values

variable (a b : Word)

theorem wordValue_add : wordValue (a + b) = (wordValue a + wordValue b) % 2 ^ 256 := by
  simp only [wordValue, BitVec.toNat_add]
  push_cast
  rfl

theorem wordValue_mul : wordValue (a * b) = wordValue a * wordValue b % 2 ^ 256 := by
  simp only [wordValue, BitVec.toNat_mul]
  push_cast
  rfl

theorem wordValue_sub : wordValue (a - b) = (wordValue a - wordValue b) % 2 ^ 256 := by
  have hb := b.isLt
  simp only [wordValue, BitVec.toNat_sub]
  omega

theorem wordValue_udiv : wordValue (a / b) = wordValue a / wordValue b := by
  simp only [wordValue, BitVec.toNat_udiv, Int.natCast_ediv]

theorem wordValue_umod : wordValue (a % b) = wordValue a % wordValue b := by
  simp only [wordValue, BitVec.toNat_umod, Int.natCast_emod]

theorem wordValue_pow (n : Nat) : wordValue (a ^ n) = wordValue a ^ n % 2 ^ 256 := by
  simp only [wordValue, toNat_pow]
  push_cast
  rfl

theorem wordValue_and : wordValue (a &&& b) = (wordValue a).land (wordValue b) := by
  simp only [wordValue, BitVec.toNat_and, land_natCast]

theorem wordValue_or : wordValue (a ||| b) = (wordValue a).lor (wordValue b) := by
  simp only [wordValue, BitVec.toNat_or, lor_natCast]

theorem wordValue_xor : wordValue (a ^^^ b) = (wordValue a).xor (wordValue b) := by
  simp only [wordValue, BitVec.toNat_xor, xor_natCast]

theorem wordValue_not : wordValue (~~~a) = U256 (Int.lnot (wordValue a)) := by
  have ha := a.isLt
  rw [U256_eq_emod, lnot_eq]
  simp only [wordValue, BitVec.toNat_not]
  omega

theorem wordValue_ofNat {n : Nat} (h : n < 2 ^ 256) : wordValue (BitVec.ofNat 256 n) = n := by
  rw [wordValue, BitVec.toNat_ofNat, Nat.mod_eq_of_lt h]

@[simp] theorem wordValue_zero : wordValue 0#256 = 0 := rfl

@[simp] theorem wordValue_one : wordValue 1#256 = 1 := rfl

@[simp] theorem toNat_wordValue : (wordValue a).toNat = a.toNat := Int.toNat_natCast _

/-- A word's value is the residue of its signed reading. -/
theorem U256_toInt : U256 a.toInt = wordValue a := by
  rw [U256_eq_ofInt, BitVec.ofInt_toInt]

theorem wordValue_lt_iff : wordValue a < wordValue b ↔ a < b := by
  simp only [wordValue, BitVec.lt_def, Int.ofNat_lt]

/-- The unsigned comparisons with `Tt255` of `opSlt` are the signed order of the words. -/
theorem slt_iff_Tt255 : a.slt b ↔
    (Tt255 ≤ wordValue a ∧ wordValue b < Tt255) ∨
      (¬(wordValue a < Tt255 ∧ Tt255 ≤ wordValue b) ∧ wordValue a < wordValue b) := by
  have ha := a.isLt
  have hb := b.isLt
  rw [BitVec.slt_iff_toInt_lt, BitVec.toInt_eq_toNat_cond, BitVec.toInt_eq_toNat_cond]
  simp only [wordValue, Tt255]
  split_ifs <;> omega

theorem wordValue_sdiv : wordValue (a.sdiv b) = U256 (a.toInt.tdiv b.toInt) := by
  rw [← U256_toInt, BitVec.toInt_sdiv, U256_eq_emod, U256_eq_emod]
  exact_mod_cast @Int.bmod_emod _ (2 ^ 256)

theorem wordValue_srem : wordValue (a.srem b) = U256 (a.toInt.tmod b.toInt) := by
  rw [← U256_toInt, BitVec.toInt_srem]

theorem toInt_eq_zero_iff {w : Word} : w.toInt = 0 ↔ w = 0 := by
  rw [← BitVec.toInt_inj, show (0 : Word).toInt = 0 from BitVec.toInt_zero]

/-- Sign extension from bit `k`, in the two's-complement operations `opSignExtend` uses: the
bits below `k` are kept, and the bits from `k` up are set when bit `k` is set. -/
theorem wordValue_signExtend {k : Nat} (hk : k < 255) (x : Word) :
    wordValue ((x.setWidth (k + 1)).signExtend 256) =
      if x.toNat.testBit k then U256 ((wordValue x).lor (Int.lnot (2 ^ k - 1)))
      else U256 ((wordValue x).land (2 ^ k - 1)) := by
  have hlow := mod_two_pow_succ x.toNat k
  have hpow : (2 : Nat) ^ (k + 1) ≤ 2 ^ 256 := Nat.pow_le_pow_right (by decide) (by omega)
  have hkpow : (2 : Nat) ^ k * 2 = 2 ^ (k + 1) := (pow_succ 2 k).symm
  have hmod : x.toNat % 2 ^ k < 2 ^ k := Nat.mod_lt _ (Nat.two_pow_pos k)
  have hwide : x.toNat % 2 ^ (k + 1) % 2 ^ 256 = x.toNat % 2 ^ (k + 1) :=
    Nat.mod_eq_of_lt (lt_of_lt_of_le (Nat.mod_lt _ (Nat.two_pow_pos _)) hpow)
  have hK : (2 : Int) ^ k = ((2 ^ k : Nat) : Int) := by push_cast; rfl
  simp only [wordValue]
  rw [lor_lnot_two_pow_sub_one, land_two_pow_sub_one, U256_eq_emod, U256_eq_emod,
    BitVec.toNat_signExtend, BitVec.toNat_setWidth, BitVec.toNat_setWidth, hwide,
    BitVec.msb_setWidth'', ← BitVec.testBit_toNat, hK, ← Int.natCast_emod]
  split_ifs with hbit
  · rw [if_pos hbit] at hlow
    omega
  · rw [if_neg hbit] at hlow
    omega

end Values

/-! ## The interpreter's opcodes on word values

Each lemma runs one opcode of `vm/instructions.go` on a stack whose operands are the values of
words and names the word it pushes; the rest of the stack is any stack and comes back as it
was. -/

section Opcodes

variable (a b n : Word)

theorem opAdd_wordValue (rest : Stack) :
    opAdd (wordValue a :: wordValue b :: rest) = some (wordValue (a + b) :: rest) := by
  rw [opAdd, U256_eq_emod, wordValue_add]

theorem opMul_wordValue (rest : Stack) :
    opMul (wordValue a :: wordValue b :: rest) = some (wordValue (a * b) :: rest) := by
  rw [opMul, U256_eq_emod, wordValue_mul]

theorem opSub_wordValue (rest : Stack) :
    opSub (wordValue a :: wordValue b :: rest) = some (wordValue (a - b) :: rest) := by
  rw [opSub, U256_eq_emod, wordValue_sub]

theorem opDiv_wordValue (rest : Stack) : opDiv (wordValue a :: wordValue b :: rest) =
    some (wordValue (if b = 0 then 0 else a / b) :: rest) := by
  by_cases hb : b = 0
  · simp [opDiv, hb]
  · have hb' : wordValue b ≠ 0 := fun h => hb (wordValue_eq_zero.mp h)
    rw [opDiv, if_pos hb', if_neg hb, ← wordValue_udiv, U256_wordValue]

theorem opSdiv_wordValue (rest : Stack) : opSdiv (wordValue a :: wordValue b :: rest) =
    some (wordValue (if b = 0 then 0 else a.sdiv b) :: rest) := by
  simp only [opSdiv, S256_wordValue]
  by_cases hb : b = 0
  · simp [hb]
  by_cases ha : a = 0
  · simp [ha, BitVec.zero_sdiv]
  have hx : a.toInt ≠ 0 := fun h => ha (toInt_eq_zero_iff.mp h)
  have hy : b.toInt ≠ 0 := fun h => hb (toInt_eq_zero_iff.mp h)
  rw [if_neg (not_or.mpr ⟨hy, hx⟩), if_neg hb, wordValue_sdiv, tdiv_eq_abs hx hy]
  split_ifs <;> rfl

theorem opMod_wordValue (rest : Stack) : opMod (wordValue a :: wordValue b :: rest) =
    some (wordValue (if b = 0 then 0 else a % b) :: rest) := by
  by_cases hb : b = 0
  · simp [opMod, hb]
  · have hb' : wordValue b ≠ 0 := fun h => hb (wordValue_eq_zero.mp h)
    rw [opMod, if_neg hb', if_neg hb, ← wordValue_umod, U256_wordValue]

theorem opSmod_wordValue (rest : Stack) : opSmod (wordValue a :: wordValue b :: rest) =
    some (wordValue (if b = 0 then 0 else a.srem b) :: rest) := by
  simp only [opSmod, S256_wordValue]
  by_cases hb : b = 0
  · simp [hb]
  have hy : b.toInt ≠ 0 := fun h => hb (toInt_eq_zero_iff.mp h)
  rw [if_neg hy, if_neg hb, wordValue_srem, tmod_eq_abs]
  split_ifs <;> rfl

theorem opAddmod_wordValue (rest : Stack) : opAddmod (wordValue a :: wordValue b :: wordValue n :: rest) =
    some (wordValue (if n = 0 then 0 else .ofNat 256 ((a.toNat + b.toNat) % n.toNat)) :: rest) := by
  by_cases hn : n = 0
  · simp [opAddmod, hn]
  · have hpos : 0 < n.toNat := Nat.pos_of_ne_zero fun h => hn (BitVec.eq_of_toNat_eq h)
    have hlt : (a.toNat + b.toNat) % n.toNat < 2 ^ 256 := lt_trans (Nat.mod_lt _ hpos) n.isLt
    have hval : (wordValue a + wordValue b) % wordValue n =
        (((a.toNat + b.toNat) % n.toNat : Nat) : Int) := by
      simp only [wordValue]
      push_cast
      rfl
    have hpos' : 0 < wordValue n := by simp only [wordValue]; omega
    rw [opAddmod, if_pos hpos', if_neg hn, wordValue_ofNat hlt, hval,
      U256_of_lt (Int.natCast_nonneg _) (by exact_mod_cast hlt)]

theorem opMulmod_wordValue (rest : Stack) : opMulmod (wordValue a :: wordValue b :: wordValue n :: rest) =
    some (wordValue (if n = 0 then 0 else .ofNat 256 ((a.toNat * b.toNat) % n.toNat)) :: rest) := by
  by_cases hn : n = 0
  · simp [opMulmod, hn]
  · have hpos : 0 < n.toNat := Nat.pos_of_ne_zero fun h => hn (BitVec.eq_of_toNat_eq h)
    have hlt : (a.toNat * b.toNat) % n.toNat < 2 ^ 256 := lt_trans (Nat.mod_lt _ hpos) n.isLt
    have hval : (wordValue a * wordValue b) % wordValue n =
        (((a.toNat * b.toNat) % n.toNat : Nat) : Int) := by
      simp only [wordValue]
      push_cast
      rfl
    have hpos' : 0 < wordValue n := by simp only [wordValue]; omega
    rw [opMulmod, if_pos hpos', if_neg hn, wordValue_ofNat hlt, hval,
      U256_of_lt (Int.natCast_nonneg _) (by exact_mod_cast hlt)]

theorem opExp_wordValue (rest : Stack) :
    opExp (wordValue a :: wordValue b :: rest) = some (wordValue (a ^ b.toNat) :: rest) := by
  rw [opExp, Exp_wordValue, wordValue_pow]

theorem opSignExtend_wordValue (x : Word) (rest : Stack) :
    opSignExtend (wordValue b :: wordValue x :: rest) = some (wordValue
      (if b.toNat < 31 then (x.setWidth (8 * (b.toNat + 1))).signExtend 256 else x) :: rest) := by
  by_cases hb : b.toNat < 31
  · have hb' : wordValue b < 31 := by simp only [wordValue]; omega
    have hmask : ((1 : Int) <<< ((b.toNat * 8 + 7 : Nat) : Int)) - 1 = 2 ^ (b.toNat * 8 + 7) - 1 := by
      rw [Int.shiftLeft_eq_mul_pow]
      push_cast
      ring
    have hbit : 8 * (b.toNat + 1) = b.toNat * 8 + 7 + 1 := by ring
    rw [opSignExtend, if_pos hb', if_pos hb, hbit, wordValue_signExtend (by omega)]
    simp only [wordValue, Int.toNat_natCast, hmask, testBit_natCast]
    split_ifs <;> rfl
  · have hb' : ¬wordValue b < 31 := by simp only [wordValue]; omega
    rw [opSignExtend, if_neg hb', if_neg hb]

theorem opLt_wordValue (rest : Stack) : opLt (wordValue a :: wordValue b :: rest) =
    some (wordValue (if a < b then 1 else 0) :: rest) := by
  by_cases h : a < b <;> simp [opLt, wordValue_lt_iff, h]

theorem opGt_wordValue (rest : Stack) : opGt (wordValue a :: wordValue b :: rest) =
    some (wordValue (if b < a then 1 else 0) :: rest) := by
  by_cases h : b < a <;> simp [opGt, wordValue_lt_iff, h]

theorem opSlt_wordValue (rest : Stack) : opSlt (wordValue a :: wordValue b :: rest) =
    some (wordValue (if a.slt b then 1 else 0) :: rest) := by
  have h := slt_iff_Tt255 a b
  simp only [opSlt]
  split_ifs <;> simp_all

theorem opSgt_wordValue (rest : Stack) : opSgt (wordValue a :: wordValue b :: rest) =
    some (wordValue (if b.slt a then 1 else 0) :: rest) := by
  have h := slt_iff_Tt255 b a
  simp only [opSgt, gt_iff_lt]
  split_ifs <;> simp_all
  -- the one combination left reads `b` as both negative and non-negative
  omega

theorem opEq_wordValue (rest : Stack) : opEq (wordValue a :: wordValue b :: rest) =
    some (wordValue (if a = b then 1 else 0) :: rest) := by
  by_cases h : a = b <;> simp [opEq, wordValue_inj, h]

theorem opIszero_wordValue (rest : Stack) :
    opIszero (wordValue a :: rest) = some (wordValue (if a = 0 then 1 else 0) :: rest) := by
  have h : 0 < wordValue a ↔ a ≠ 0 := by
    have := wordValue_nonneg a
    rw [Ne, ← wordValue_eq_zero]
    constructor <;> intro <;> omega
  by_cases ha : a = 0
  · rw [opIszero, if_neg (by rw [h]; exact not_not.mpr ha), if_pos ha]
    rfl
  · rw [opIszero, if_pos (h.mpr ha), if_neg ha]
    rfl

theorem opAnd_wordValue (rest : Stack) :
    opAnd (wordValue a :: wordValue b :: rest) = some (wordValue (a &&& b) :: rest) := by
  rw [opAnd, wordValue_and]

theorem opOr_wordValue (rest : Stack) :
    opOr (wordValue a :: wordValue b :: rest) = some (wordValue (a ||| b) :: rest) := by
  rw [opOr, wordValue_or]

theorem opXor_wordValue (rest : Stack) :
    opXor (wordValue a :: wordValue b :: rest) = some (wordValue (a ^^^ b) :: rest) := by
  rw [opXor, wordValue_xor]

theorem opNot_wordValue (rest : Stack) : opNot (wordValue a :: rest) = some (wordValue (~~~a) :: rest) := by
  rw [opNot, wordValue_not]

theorem opByte_wordValue (i x : Word) (rest : Stack) : opByte (wordValue i :: wordValue x :: rest) =
    some (wordValue (if i.toNat < 32 then (x >>> (8 * (31 - i.toNat))) &&& 255 else 0) :: rest) := by
  by_cases hi : i.toNat < 32
  · have hi' : wordValue i < 32 := by simp only [wordValue]; omega
    rw [opByte, if_pos hi', if_pos hi, toNat_wordValue, Byte_wordValue x hi]
    simp only [wordValue, BitVec.toNat_and, BitVec.toNat_ushiftRight, Nat.shiftRight_eq_div_pow]
    rw [show (255 : Word).toNat = 2 ^ 8 - 1 from rfl, Nat.and_two_pow_sub_one_eq_mod]
  · have hi' : ¬wordValue i < 32 := by simp only [wordValue]; omega
    rw [opByte, if_neg hi', if_neg hi]
    rfl

theorem opSHL_wordValue (s x : Word) (rest : Stack) : opSHL (wordValue s :: wordValue x :: rest) =
    some (wordValue (if s.toNat < 256 then x <<< s.toNat else 0) :: rest) := by
  simp only [opSHL, U256_wordValue]
  by_cases hs : s.toNat < 256
  · have hs' : ¬256 ≤ wordValue s := by simp only [wordValue]; omega
    rw [if_neg hs', if_pos hs, U256_eq_emod]
    simp only [wordValue, Int.shiftLeft_natCast, BitVec.toNat_shiftLeft]
    push_cast
    rfl
  · have hs' : 256 ≤ wordValue s := by simp only [wordValue]; omega
    rw [if_pos hs', if_neg hs]
    rfl

theorem opSHR_wordValue (s x : Word) (rest : Stack) : opSHR (wordValue s :: wordValue x :: rest) =
    some (wordValue (if s.toNat < 256 then x >>> s.toNat else 0) :: rest) := by
  simp only [opSHR, U256_wordValue]
  by_cases hs : s.toNat < 256
  · have hs' : ¬256 ≤ wordValue s := by simp only [wordValue]; omega
    have hshift : wordValue x >>> (wordValue s).toNat = wordValue (x >>> s.toNat) := by
      rw [toNat_wordValue]
      simp only [wordValue, BitVec.toNat_ushiftRight, Int.natCast_shiftRight]
    rw [if_neg hs', if_pos hs, hshift, U256_wordValue]
  · have hs' : 256 ≤ wordValue s := by simp only [wordValue]; omega
    rw [if_pos hs', if_neg hs]
    rfl

/-- `opSAR` on words: below `256` the arithmetic shift of the signed reading; from `256` on,
`0` for a positive value and all ones for any other, zero included. -/
theorem opSAR_wordValue (s x : Word) (rest : Stack) : opSAR (wordValue s :: wordValue x :: rest) =
    some (wordValue (if s.toNat < 256 then x.sshiftRight s.toNat
      else if 0 < x.toInt then 0 else .allOnes 256) :: rest) := by
  simp only [opSAR, U256_wordValue, S256_wordValue]
  by_cases hs : s.toNat < 256
  · have hs' : ¬256 ≤ wordValue s := by simp only [wordValue]; omega
    rw [if_neg hs', if_pos hs, toNat_wordValue, ← U256_toInt, BitVec.toInt_sshiftRight]
  · have hs' : 256 ≤ wordValue s := by simp only [wordValue]; omega
    rw [if_pos hs', if_neg hs]
    by_cases hx : 0 < x.toInt
    · rw [if_pos hx, if_pos hx]
      rfl
    · rw [if_neg hx, if_neg hx, U256_eq_emod]
      simp only [wordValue, BitVec.toNat_allOnes]
      congr 2

end Opcodes

/-! ## Refinement

An opcode of the interpreter refines a `StackOp` when on every stack of word values with
enough operands it pushes the value of the word the `StackOp` pushes. -/

section Refinement

variable {exec : Stack → Option Stack} {ws : List Word}

theorem unary_refines {f : Word → Word}
    (hf : ∀ a rest, exec (wordValue a :: rest) = some (wordValue (f a) :: rest))
    (h : 1 ≤ ws.length) :
    exec (ws.map wordValue) = ((StackOp.unary f).run ws).map (List.map wordValue) := by
  match ws, h with
  | a :: rest, _ => rw [List.map_cons, hf, StackOp.run, Option.map_some, List.map_cons]

theorem binary_refines {f : Word → Word → Word}
    (hf : ∀ a b rest, exec (wordValue a :: wordValue b :: rest) = some (wordValue (f a b) :: rest))
    (h : 2 ≤ ws.length) :
    exec (ws.map wordValue) = ((StackOp.binary f).run ws).map (List.map wordValue) := by
  match ws, h with
  | a :: b :: rest, _ =>
    rw [List.map_cons, List.map_cons, hf, StackOp.run, Option.map_some, List.map_cons]

theorem ternary_refines {f : Word → Word → Word → Word}
    (hf : ∀ a b c rest, exec (wordValue a :: wordValue b :: wordValue c :: rest) =
      some (wordValue (f a b c) :: rest))
    (h : 3 ≤ ws.length) :
    exec (ws.map wordValue) = ((StackOp.ternary f).run ws).map (List.map wordValue) := by
  match ws, h with
  | a :: b :: c :: rest, _ =>
    rw [List.map_cons, List.map_cons, List.map_cons, hf, StackOp.run, Option.map_some,
      List.map_cons]

end Refinement

/-- Every word opcode but `SAR` computes what the EVM defines: on a stack of words with enough
operands, `execute` returns the values of the stack `OpCode.spec` returns. -/
theorem execute_wordValue {op : OpCode} (hop : op ≠ .SAR) {ws : List Word}
    (h : op.pops ≤ ws.length) :
    op.execute (ws.map wordValue) = (op.spec ws).map (List.map wordValue) := by
  cases op with
  | ADD => exact binary_refines opAdd_wordValue h
  | MUL => exact binary_refines opMul_wordValue h
  | SUB => exact binary_refines opSub_wordValue h
  | DIV => exact binary_refines opDiv_wordValue h
  | SDIV => exact binary_refines opSdiv_wordValue h
  | MOD => exact binary_refines opMod_wordValue h
  | SMOD => exact binary_refines opSmod_wordValue h
  | ADDMOD => exact ternary_refines opAddmod_wordValue h
  | MULMOD => exact ternary_refines opMulmod_wordValue h
  | EXP => exact binary_refines opExp_wordValue h
  | SIGNEXTEND => exact binary_refines opSignExtend_wordValue h
  | LT => exact binary_refines opLt_wordValue h
  | GT => exact binary_refines opGt_wordValue h
  | SLT => exact binary_refines opSlt_wordValue h
  | SGT => exact binary_refines opSgt_wordValue h
  | EQ => exact binary_refines opEq_wordValue h
  | ISZERO => exact unary_refines opIszero_wordValue h
  | AND => exact binary_refines opAnd_wordValue h
  | OR => exact binary_refines opOr_wordValue h
  | XOR => exact binary_refines opXor_wordValue h
  | NOT => exact unary_refines opNot_wordValue h
  | BYTE => exact binary_refines opByte_wordValue h
  | SHL => exact binary_refines opSHL_wordValue h
  | SHR => exact binary_refines opSHR_wordValue h
  | SAR => exact absurd rfl hop

/-- `SAR` computes what the EVM defines on every value but `0` shifted by `256` or more. -/
theorem execute_SAR_wordValue {s x : Word} (hx : ¬(x = 0 ∧ 256 ≤ s.toNat)) (rest : List Word) :
    OpCode.SAR.execute ((s :: x :: rest).map wordValue) =
      (OpCode.SAR.spec (s :: x :: rest)).map (List.map wordValue) := by
  rw [List.map_cons, List.map_cons, OpCode.execute, opSAR_wordValue]
  show some _ = some (wordValue (if s.toNat < 256 then x.sshiftRight s.toNat
    else if x.toInt < 0 then .allOnes 256 else 0) :: rest.map wordValue)
  by_cases hs : s.toNat < 256
  · rw [if_pos hs, if_pos hs]
  · have hx0 : x.toInt ≠ 0 := fun h0 => hx ⟨toInt_eq_zero_iff.mp h0, by omega⟩
    rw [if_neg hs, if_neg hs]
    -- off zero, "not positive" is "negative"
    by_cases hneg : x.toInt < 0
    · rw [if_neg (by omega), if_pos hneg]
    · rw [if_pos (by omega), if_neg hneg]

theorem execute_SAR_wordValue_minus_four :
    ¬((-4 : Word) = 0 ∧ 256 ≤ (1 : Word).toNat) ∧
      OpCode.SAR.execute (([1, -4] : List Word).map wordValue) =
        (OpCode.SAR.spec [1, -4]).map (List.map wordValue) :=
  ⟨by decide, execute_SAR_wordValue (by decide) []⟩

/-- A zero value shifted right arithmetically by `256`: the EVM pushes `0`, while `opSAR`'s test
`value.Sign() > 0` fails on zero and it pushes `2 ^ 256 - 1`. -/
theorem opSAR_zero_shift :
    OpCode.SAR.execute ([256, 0].map wordValue) = some [2 ^ 256 - 1] ∧
      OpCode.SAR.spec [256, 0] = some [0] := by
  constructor
  · rw [List.map_cons, List.map_cons, List.map_nil, OpCode.execute, opSAR_wordValue]
    decide
  · decide

/-- On a stack with enough operands, every opcode pops its operands, pushes one word and leaves
the rest of the stack as it was: a value it pushes lies in `[0, 2 ^ 256)`. -/
theorem execute_pushes_word (op : OpCode) {ws : List Word} (h : op.pops ≤ ws.length) :
    ∃ w, op.execute (ws.map wordValue) = some (wordValue w :: (ws.drop op.pops).map wordValue) := by
  by_cases hop : op = .SAR
  · subst hop
    match ws, h with
    | s :: x :: rest, _ => exact ⟨_, opSAR_wordValue s x _⟩
  · obtain ⟨w, hw⟩ := StackOp.run_eq_some h
    refine ⟨w, ?_⟩
    rw [execute_wordValue hop h, OpCode.spec, hw, Option.map_some, List.map_cons]
    rfl

theorem execute_pushes_word_add :
    OpCode.ADD.pops ≤ ([1, 2] : List Word).length ∧
      ∃ w, OpCode.ADD.execute (([1, 2] : List Word).map wordValue) =
        some (wordValue w :: (([1, 2] : List Word).drop OpCode.ADD.pops).map wordValue) :=
  ⟨by decide, execute_pushes_word .ADD (by decide)⟩

end Vite.Vm
