/-
# MxtChain.Vm.Word — the 256-bit words of the machine, and its 64-bit arithmetic.

A word is a `uint256.Int`. Amounts of gas and sizes are `uint64` in the source: here they are
natural numbers, and an operation of the source that can wrap around says so (`% 2 ^ 64`, `SafeAdd`,
`SafeMul`, the casts to `int64`).
-/
import MxtChain.Common.Types

namespace MxtChain.Vm

/-- `uint256.Int` -/
abbrev Word := BitVec 256

/-! ## §1 — Bytes -/

/-- The `len` low bytes of a number, most significant first. -/
def bigEndian : Nat → Nat → Bytes
  | 0, _ => []
  | len + 1, n => bigEndian len (n / 256) ++ [UInt8.ofNat n]

@[simp] theorem length_bigEndian (len n : Nat) : (bigEndian len n).length = len := by
  induction len generalizing n with
  | zero => rfl
  | succ len ih => simp [bigEndian, ih]

/-- The number whose bytes, most significant first, are given. -/
def ofBigEndian (b : Bytes) : Nat := b.foldl (fun n byte => 256 * n + byte.toNat) 0

theorem ofBigEndian_bigEndian (len n : Nat) : ofBigEndian (bigEndian len n) = n % 256 ^ len := by
  induction len generalizing n with
  | zero => exact (Nat.mod_one n).symm
  | succ len ih =>
    have happend : ofBigEndian (bigEndian (len + 1) n) =
        256 * ofBigEndian (bigEndian len (n / 256)) + n % 256 := by
      simp [ofBigEndian, bigEndian]
    rw [happend, ih, pow_succ', Nat.mod_mul, Nat.add_comm]

namespace Word

variable (x y : Word)

/-- `Bytes32` as a `common.Hash` -/
def toHash : Hash := ⟨bigEndian 32 x.toNat, length_bigEndian _ _⟩

theorem bytes_toHash : (toHash x).bytes = bigEndian 32 x.toNat := rfl

theorem toHash_injective : Function.Injective toHash := by
  intro x y h
  have h := congrArg (fun b : Hash => ofBigEndian b.bytes) h
  simp only [bytes_toHash] at h
  have hpow : (256 : Nat) ^ 32 = 2 ^ 256 := by norm_num
  rw [ofBigEndian_bigEndian, ofBigEndian_bigEndian, hpow, Nat.mod_eq_of_lt x.isLt,
    Nat.mod_eq_of_lt y.isLt] at h
  exact BitVec.eq_of_toNat_eq h

/-- `Bytes20` as a `common.Address` -/
def toAddress : Address := ⟨bigEndian 20 x.toNat, length_bigEndian _ _⟩

/-- `SetBytes`: of more than 32 bytes the last ones count. -/
def setBytes (b : Bytes) : Word := BitVec.ofNat 256 (ofBigEndian b)

/-- `SetFromBig` and `FromBig`: the number modulo `2 ^ 256`. -/
def fromBig (n : Int) : Word := BitVec.ofInt 256 n

/-- `IsUint64` -/
def isUint64 : Bool := decide (x.toNat < 2 ^ 64)

/-- `Uint64`: the low 64 bits. -/
def uint64 : Nat := x.toNat % 2 ^ 64

theorem uint64_of_isUint64 {x : Word} (h : isUint64 x = true) : uint64 x = x.toNat :=
  Nat.mod_eq_of_lt (of_decide_eq_true h)

/-- The word a comparison leaves on the stack. -/
def ofBool (b : Bool) : Word := if b then 1 else 0

/-! ## §2 — Arithmetic -/

/-- `Mod`: a zero divisor gives zero. -/
def mod : Word := if y = 0 then 0 else x % y

/-- `SMod`: the sign is that of the dividend, a zero divisor gives zero. -/
def smod : Word := if y = 0 then 0 else x.srem y

/-- The loop of `Exp`: square and multiply over the bits of the exponent. -/
def expLoop : Nat → Word → Nat → Word → Word
  | 0, _, _, acc => acc
  | k + 1, base, exponent, acc =>
    expLoop k (base * base) (exponent / 2) (if exponent % 2 = 1 then acc * base else acc)

/-- `Exp` -/
def exp : Word := expLoop 256 x y.toNat 1

/-- `ExtendSign`: the sign bit of the byte numbered `back` (from the right) fills what is left of
it. -/
def extendSign (back num : Word) : Word :=
  if 31 < back.toNat then num
  else
    let bit := back.toNat * 8 + 7
    let mask : Word := (1#256 <<< bit) - 1
    if num.getLsbD bit then num ||| ~~~mask else num &&& mask

/-- `Byte`: the byte numbered from the left. -/
def byte (th val : Word) : Word :=
  if th.toNat < 32 then (val >>> (8 * (31 - th.toNat))) &&& 0xff else 0

/-- `AddMod`, with the guard of `opAddmod` -/
def addMod (z : Word) : Word :=
  if z = 0 then 0 else BitVec.ofNat 256 ((x.toNat + y.toNat) % z.toNat)

/-- `MulMod` -/
def mulMod (z : Word) : Word :=
  if z = 0 then 0 else BitVec.ofNat 256 ((x.toNat * y.toNat) % z.toNat)

/-- `opSHL` -/
def shl (shift value : Word) : Word := if shift.toNat < 256 then value <<< shift.toNat else 0

/-- `opSHR` -/
def shr (shift value : Word) : Word := if shift.toNat < 256 then value >>> shift.toNat else 0

/-- `opSAR` -/
def sar (shift value : Word) : Word :=
  if 256 < shift.toNat then if value.msb then BitVec.allOnes 256 else 0
  else value.sshiftRight shift.toNat

/-- `BitLen` -/
def bitLen : Nat := if x = 0 then 0 else Nat.log2 x.toNat + 1

end Word

/-- The word of an address: `SetBytes(addr.Bytes())`. -/
def addressWord (a : Address) : Word := Word.setBytes a.bytes

def hashWord (h : Hash) : Word := Word.setBytes h.bytes

/-! ## §3 — 64-bit arithmetic -/

/-- `math.SafeAdd`: `none` is an overflow. -/
def SafeAdd (x y : Nat) : Option Nat := if x + y < 2 ^ 64 then some (x + y) else none

/-- `math.SafeMul`: `none` is an overflow. -/
def SafeMul (x y : Nat) : Option Nat := if x * y < 2 ^ 64 then some (x * y) else none

theorem SafeAdd_eq_some {x y z : Nat} : SafeAdd x y = some z ↔ x + y < 2 ^ 64 ∧ x + y = z := by
  unfold SafeAdd
  rw [Option.ite_none_right_eq_some, Option.some_inj]

theorem SafeMul_eq_some {x y z : Nat} : SafeMul x y = some z ↔ x * y < 2 ^ 64 ∧ x * y = z := by
  unfold SafeMul
  rw [Option.ite_none_right_eq_some, Option.some_inj]

/-- `uint64` subtraction, which wraps around. -/
def sub64 (x y : Nat) : Nat := (x + 2 ^ 64 - y) % 2 ^ 64

/-- The cast of a `uint64` to an `int64`. -/
def toInt64 (n : Nat) : Int := if n < 2 ^ 63 then n else (n : Int) - 2 ^ 64

/-- `toWordSize`: the number of 32-byte words that hold a number of bytes. -/
def toWordSize (size : Nat) : Nat :=
  if size > 2 ^ 64 - 1 - 31 then (2 ^ 64 - 1) / 32 + 1 else (size + 31) / 32

end MxtChain.Vm
