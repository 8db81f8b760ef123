import Mathlib.Data.Int.Bitwise
import Mathlib.Algebra.Order.Ring.Abs

/-!
# The word opcodes of `vm/instructions.go`

`opAdd` .. `opSAR` on the operand stack, as the interpreter runs them: each value is a
`*big.Int`, here its integer, and the stack is a list with its top first. The helpers of
`common/helper/math_big.go` (`U256`, `S256`, `Exp`, `Byte`) are translated with the `big.Int`
operations they call: `And`, `Or`, `Not` are two's-complement on negative integers (Mathlib's
`Int.land`, `Int.lor`, `Int.lnot`), `Div`/`Mod` are Euclidean (`/`, `%` on `Int`), `Rsh` is
arithmetic. `Bits` is the little-endian word slice of a magnitude on a 64-bit host.

An operation whose stack is too short panics in Go; `validateStack` rules that out before
`execute` runs. Here the operation returns `none` there.
-/

namespace Vite.Vm

/-- The operand stack, top first; an entry is the value of its `*big.Int`. -/
abbrev Stack := List Int

/-- `helper.Tt255`. -/
def Tt255 : Int := 2 ^ 255

/-- `helper.Tt256`. -/
def Tt256 : Int := 2 ^ 256

/-- `helper.Tt256m1`. -/
def Tt256m1 : Int := 2 ^ 256 - 1

/-- `helper.WordBits` on a 64-bit host. -/
def WordBits : Nat := 64

/-- `helper.WordBytes`. -/
def WordBytes : Nat := WordBits / 8

/-- `helper.WordSize`, the bytes of a VM word. -/
def WordSize : Nat := 32

/-- `helper.U256`: `x.And(x, Tt256m1)`. -/
def U256 (x : Int) : Int := x.land Tt256m1

/-- `helper.S256`: the two's-complement reading of a 256-bit value. -/
def S256 (x : Int) : Int := if x < Tt255 then x else x - Tt256

/-- `big.Int.Bits` of a magnitude: its `WordBits`-bit words, least significant first, with no
zero word on top. -/
def Bits (n : Nat) : List Nat :=
  if h : n = 0 then [] else n % 2 ^ WordBits :: Bits (n / 2 ^ WordBits)
termination_by n
decreasing_by exact Nat.div_lt_self (Nat.pos_of_ne_zero h) (Nat.one_lt_two_pow (by decide))

/-- One word of `helper.Exp`'s loop: square-and-multiply over the word's bits. -/
def expWord (result base : Int) (word : Nat) : Nat → Int × Int
  | 0 => (result, base)
  | k + 1 =>
    let result := if word &&& 1 = 1 then U256 (result * base) else result
    expWord result (U256 (base * base)) (word >>> 1) k

/-- `helper.Exp`: exponentiation by squaring over the words of the exponent, every product
truncated to 256 bits. -/
def Exp (base exponent : Int) : Int :=
  ((Bits exponent.natAbs).foldl (fun acc word => expWord acc.1 acc.2 word WordBits) (1, base)).1

/-- `helper.bigEndianByteAt`: byte `n` counted from the least significant end. -/
def bigEndianByteAt (bigint : Int) (n : Nat) : Nat :=
  let words := Bits bigint.natAbs
  let i := n / WordBytes
  if h : i < words.length then (words[i] >>> (8 * (n % WordBytes))) % 256 else 0

/-- `helper.Byte`: byte `n` of a `padlength`-byte big-endian encoding. -/
def Byte (bigint : Int) (padlength n : Nat) : Nat :=
  if n ≥ padlength then 0 else bigEndianByteAt bigint (padlength - 1 - n)

def opAdd : Stack → Option Stack
  | x :: y :: rest => some (U256 (x + y) :: rest)
  | _ => none

def opMul : Stack → Option Stack
  | x :: y :: rest => some (U256 (x * y) :: rest)
  | _ => none

def opSub : Stack → Option Stack
  | x :: y :: rest => some (U256 (x - y) :: rest)
  | _ => none

def opDiv : Stack → Option Stack
  | x :: y :: rest => some ((if y ≠ 0 then U256 (x / y) else 0) :: rest)
  | _ => none

def opSdiv : Stack → Option Stack
  | a :: b :: rest =>
    let x := S256 a
    let y := S256 b
    if y = 0 ∨ x = 0 then some (0 :: rest)
    else if x.sign ≠ y.sign then some (U256 (-(|x| / |y|)) :: rest)
    else some (U256 (|x| / |y|) :: rest)
  | _ => none

def opMod : Stack → Option Stack
  | x :: y :: rest => some ((if y = 0 then 0 else U256 (x % y)) :: rest)
  | _ => none

def opSmod : Stack → Option Stack
  | a :: b :: rest =>
    let x := S256 a
    let y := S256 b
    if y = 0 then some (0 :: rest)
    else if x < 0 then some (U256 (-(|x| % |y|)) :: rest)
    else some (U256 (|x| % |y|) :: rest)
  | _ => none

def opAddmod : Stack → Option Stack
  | x :: y :: z :: rest => some ((if 0 < z then U256 ((x + y) % z) else 0) :: rest)
  | _ => none

def opMulmod : Stack → Option Stack
  | x :: y :: z :: rest => some ((if 0 < z then U256 ((x * y) % z) else 0) :: rest)
  | _ => none

def opExp : Stack → Option Stack
  | base :: exponent :: rest => some (Exp base exponent :: rest)
  | _ => none

/-- `opSignExtend`: with `back ≥ 31` only `back` is popped and the value stays. -/
def opSignExtend : Stack → Option Stack
  | back :: rest =>
    if back < 31 then
      match rest with
      | num :: rest =>
        let bit := back.toNat * 8 + 7
        let mask := ((1 : Int) <<< (bit : Int)) - 1
        if num.testBit bit then some (U256 (num.lor (Int.lnot mask)) :: rest)
        else some (U256 (num.land mask) :: rest)
      | [] => none
    else some rest
  | [] => none

def opLt : Stack → Option Stack
  | x :: y :: rest => some ((if x < y then 1 else 0) :: rest)
  | _ => none

def opGt : Stack → Option Stack
  | x :: y :: rest => some ((if x > y then 1 else 0) :: rest)
  | _ => none

/-- `opSlt`: the operands' signs are read by comparing with `Tt255`. -/
def opSlt : Stack → Option Stack
  | x :: y :: rest =>
    some ((if Tt255 ≤ x ∧ y < Tt255 then 1
      else if x < Tt255 ∧ Tt255 ≤ y then 0
      else if x < y then 1 else 0) :: rest)
  | _ => none

def opSgt : Stack → Option Stack
  | x :: y :: rest =>
    some ((if Tt255 ≤ x ∧ y < Tt255 then 0
      else if x < Tt255 ∧ Tt255 ≤ y then 1
      else if x > y then 1 else 0) :: rest)
  | _ => none

def opEq : Stack → Option Stack
  | x :: y :: rest => some ((if x = y then 1 else 0) :: rest)
  | _ => none

def opIszero : Stack → Option Stack
  | x :: rest => some ((if 0 < x then 0 else 1) :: rest)
  | _ => none

def opAnd : Stack → Option Stack
  | x :: y :: rest => some (x.land y :: rest)
  | _ => none

def opOr : Stack → Option Stack
  | x :: y :: rest => some (x.lor y :: rest)
  | _ => none

def opXor : Stack → Option Stack
  | x :: y :: rest => some (x.xor y :: rest)
  | _ => none

def opNot : Stack → Option Stack
  | x :: rest => some (U256 (Int.lnot x) :: rest)
  | _ => none

def opByte : Stack → Option Stack
  | th :: val :: rest =>
    some ((if th < 32 then (Byte val WordSize th.toNat : Int) else 0) :: rest)
  | _ => none

def opSHL : Stack → Option Stack
  | a :: b :: rest =>
    let shift := U256 a
    let value := U256 b
    some ((if 256 ≤ shift then 0 else U256 (value <<< shift)) :: rest)
  | _ => none

def opSHR : Stack → Option Stack
  | a :: b :: rest =>
    let shift := U256 a
    let value := U256 b
    some ((if 256 ≤ shift then 0 else U256 (value >>> shift.toNat)) :: rest)
  | _ => none

/-- `opSAR`: a shift of 256 or more gives `0` when `value.Sign() > 0` and `-1` otherwise. -/
def opSAR : Stack → Option Stack
  | a :: b :: rest =>
    let shift := U256 a
    let value := S256 b
    if 256 ≤ shift then some (U256 (if 0 < value then 0 else -1) :: rest)
    else some (U256 (value >>> shift.toNat) :: rest)
  | _ => none

/-- The opcodes of the `0x0` and `0x10` ranges that compute on words (`vm/opcodes.go`). -/
inductive OpCode where
  | ADD | MUL | SUB | DIV | SDIV | MOD | SMOD | ADDMOD | MULMOD | EXP | SIGNEXTEND
  | LT | GT | SLT | SGT | EQ | ISZERO | AND | OR | XOR | NOT | BYTE | SHL | SHR | SAR
  deriving DecidableEq, Repr

/-- The `execute` field of the jump table's entry for each opcode. -/
def OpCode.execute : OpCode → Stack → Option Stack
  | .ADD => opAdd
  | .MUL => opMul
  | .SUB => opSub
  | .DIV => opDiv
  | .SDIV => opSdiv
  | .MOD => opMod
  | .SMOD => opSmod
  | .ADDMOD => opAddmod
  | .MULMOD => opMulmod
  | .EXP => opExp
  | .SIGNEXTEND => opSignExtend
  | .LT => opLt
  | .GT => opGt
  | .SLT => opSlt
  | .SGT => opSgt
  | .EQ => opEq
  | .ISZERO => opIszero
  | .AND => opAnd
  | .OR => opOr
  | .XOR => opXor
  | .NOT => opNot
  | .BYTE => opByte
  | .SHL => opSHL
  | .SHR => opSHR
  | .SAR => opSAR

end Vite.Vm
