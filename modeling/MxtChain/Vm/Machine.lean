/-
# MxtChain.Vm.Machine — what the interpreter works on.

A frame is a contract with its registers (`callCtx` and the program counter); the machine is what
all the frames of a transaction share: the state database, the call depth and the mutable fields of
the interpreter. The state database is the logical one of `MxtChain.State.World`, which
`MxtChain.State.Simulation` shows the objects, caches and journal of the real one to refine.

A run-time panic is a value here: an index out of range, a negative slice bound, the explicit panics
of the memory.
-/
import MxtChain.State.World
import MxtChain.Vm.Word

namespace MxtChain.Vm

open State

/-! ## §1 — Errors and panics -/

/-- The errors of `core/vm/errors.go` that the loop of a frame returns. -/
inductive FrameError where
  | ErrInvalidSubroutineEntry
  | ErrOutOfGas
  | ErrInvalidJump
  | ErrWriteProtection
  | ErrReturnDataOutOfBounds
  | ErrGasUintOverflow
  | ErrInvalidRetsub
  | ErrReturnStackExceeded
  | ErrStackUnderflow (stackLen required : Nat)
  | ErrStackOverflow (stackLen limit : Nat)
  | ErrInvalidOpCode (opcode : UInt8)
  deriving DecidableEq

/-- The errors of `core/vm/errors.go`, and those a precompiled contract makes. -/
inductive VMError where
  | frame (e : FrameError)
  | ErrExecutionReverted
  | ErrCodeStoreOutOfGas
  | ErrDepth
  | ErrInsufficientBalance
  | ErrContractAddressCollision
  | ErrMaxCodeSizeExceeded
  | precompiled (msg : String)
  deriving DecidableEq

/-- Why there is no result. -/
inductive Crash where
  /-- the interpreter panics: an index or a slice out of range, a memory not resized -/
  | panic
  /-- the state database panics: `SubRefund` below zero, an unknown snapshot -/
  | statePanic
  /-- the run took more steps than the bound it was given -/
  | diverged
  deriving DecidableEq

/-- How the execution of one instruction can fail. -/
inductive Fault where
  | panic
  | err (e : FrameError)
  deriving DecidableEq

/-- A run-time panic. -/
abbrev panicked {α : Type} : Except Fault α := .error .panic

/-! ## §2 — The stack -/

/-- `Stack`, the top first. -/
abbrev Stack := List Word

/-- `Stack.Back`: the `n`-th item from the top. -/
def Stack.Back (st : Stack) (n : Nat) : Except Fault Word :=
  match st[n]? with
  | some w => .ok w
  | none => panicked

def StackLimit : Nat := 1024

/-! ## §3 — Memory -/

/-- The slice expression `b[lo:hi]`. -/
def slice (b : Bytes) (lo hi : Int) : Except Fault Bytes :=
  if 0 ≤ lo ∧ lo ≤ hi ∧ hi ≤ b.length then .ok ((b.drop lo.toNat).take (hi.toNat - lo.toNat))
  else panicked

structure Memory where
  store : Bytes := []
  lastGasCost : Nat := 0
  deriving DecidableEq

namespace Memory

variable (mem : Memory)

def Len : Nat := mem.store.length

/-- The assignment `copy(store[offset:end], value)`. -/
def copyTo (offset size : Nat) (value : Bytes) : Memory :=
  { mem with
    store := mem.store.take offset ++ value.take size ++
      mem.store.drop (offset + min size value.length) }

def Set (offset size : Nat) (value : Bytes) : Except Fault Memory :=
  if size > 0 then
    let hi := (offset + size) % 2 ^ 64
    if hi > mem.Len ∨ hi < offset then panicked else .ok (mem.copyTo offset size value)
  else .ok mem

def Set32 (offset : Nat) (val : Word) : Except Fault Memory :=
  let hi := (offset + 32) % 2 ^ 64
  if hi > mem.Len ∨ hi < offset then panicked
  else .ok (mem.copyTo offset 32 (Word.toHash val).bytes)

/-- The assignment `store[offset] = b`. -/
def setByte (offset : Nat) (b : UInt8) : Except Fault Memory :=
  if offset < mem.Len then .ok (mem.copyTo offset 1 [b]) else panicked

def Resize (size : Nat) : Memory :=
  if mem.Len < size then { mem with store := mem.store ++ List.replicate (size - mem.Len) 0 }
  else mem

/-- `GetPtr`; nothing is `nil`. -/
def GetPtr (offset size : Int) : Except Fault Bytes :=
  if size = 0 then .ok []
  else if (mem.Len : Int) > offset then slice mem.store offset (offset + size)
  else .ok []

/-- `GetCopy`: the same bytes in a slice of their own. -/
def GetCopy (offset size : Int) : Except Fault Bytes := mem.GetPtr offset size

@[simp] theorem Len_copyTo {offset size : Nat} {value : Bytes} (h : offset + size ≤ mem.Len) :
    (mem.copyTo offset size value).Len = mem.Len := by
  simp only [Len, copyTo, List.length_append, List.length_take, List.length_drop] at h ⊢
  omega

theorem Len_Resize (size : Nat) : (mem.Resize size).Len = max mem.Len size := by
  unfold Resize
  split
  · next h =>
    simp only [Len, List.length_append, List.length_replicate] at h ⊢
    omega
  · next h => omega

end Memory

def RightPadBytes (b : Bytes) (l : Int) : Bytes :=
  if l ≤ b.length then b else b ++ List.replicate (l.toNat - b.length) 0

/-- `getData`: the bytes from `start` on, padded with zeros. -/
def getData (data : Bytes) (start size : Nat) : Except Fault Bytes :=
  let start := if start > data.length then data.length else start
  let hi := (start + size) % 2 ^ 64
  let hi := if hi > data.length then data.length else hi
  (slice data start hi).map fun b => RightPadBytes b (toInt64 size)

/-! ## §4 — Code analysis -/

/-- `bitvec`: a set bit marks data of a push instruction. -/
abbrev Bitvec := List UInt8

namespace Bitvec

/-- The assignment `bits[i] |= mask`. -/
def orAt (bits : Bitvec) (i : Nat) (mask : UInt8) : Except Fault Bitvec :=
  match bits[i]? with
  | some b => .ok (bits.set i (b ||| mask))
  | none => panicked

/-- `set` -/
def set1 (bits : Bitvec) (pos : Nat) : Except Fault Bitvec :=
  bits.orAt (pos / 8) (0x80 >>> UInt8.ofNat (pos % 8))

def set8 (bits : Bitvec) (pos : Nat) : Except Fault Bitvec := do
  let bits ← bits.orAt (pos / 8) (0xff >>> UInt8.ofNat (pos % 8))
  bits.orAt (pos / 8 + 1) (~~~(0xff >>> UInt8.ofNat (pos % 8)))

def codeSegment (bits : Bitvec) (pos : Nat) : Except Fault Bool :=
  match bits[pos / 8]? with
  | some b => .ok (b &&& (0x80 >>> UInt8.ofNat (pos % 8)) == 0)
  | none => panicked

/-- The loop that marks eight bytes of data a turn, from `pos` on. -/
def set8s : Nat → Nat → Bitvec → Except Fault Bitvec
  | 0, _, bits => .ok bits
  | k + 1, pos, bits => do set8s k (pos + 8) (← bits.set8 pos)

/-- The loop that marks one byte of data a turn, from `pos` on. -/
def set1s : Nat → Nat → Bitvec → Except Fault Bitvec
  | 0, _, bits => .ok bits
  | k + 1, pos, bits => do set1s k (pos + 1) (← bits.set1 pos)

/-- Marks `numbits` bytes of data from `pos` on, eight at a time as long as there are so many. -/
def mark (numbits pos : Nat) (bits : Bitvec) : Except Fault Bitvec := do
  set1s (numbits % 8) (pos + 8 * (numbits / 8)) (← set8s (numbits / 8) pos bits)

end Bitvec

/-- The loop of `codeBitmap` from `pc` on; every turn moves `pc`. -/
def codeBitmapFrom (code : Bytes) : Nat → Nat → Bitvec → Except Fault Bitvec
  | 0, _, bits => .ok bits
  | fuel + 1, pc, bits =>
    match code[pc]? with
    | none => .ok bits
    | some op =>
      if 0x60 ≤ op ∧ op ≤ 0x7f then do
        let numbits := (op - 0x60 + 1).toNat
        codeBitmapFrom code fuel (pc + 1 + numbits) (← Bitvec.mark numbits (pc + 1) bits)
      else codeBitmapFrom code fuel (pc + 1) bits

/-- `codeBitmap`: the bitmap is four bytes longer than necessary, for a push at the end of the
code. -/
def codeBitmap (code : Bytes) : Except Fault Bitvec :=
  codeBitmapFrom code code.length 0 (List.replicate (code.length / 8 + 1 + 4) 0)

/-! ## §5 — Contracts and frames -/

/-- `Contract`. The analysis of the code is a function of the code, so its caches are left out. -/
structure Contract where
  CallerAddress : Address
  self : Address
  Code : Bytes
  Input : Bytes := []
  Gas : Nat
  value : Nat

namespace Contract

variable (c : Contract)

/-- `GetOp`: past the end of the code there is `STOP`. -/
def GetOp (n : Nat) : UInt8 := c.Code.getD n 0

/-- `UseGas`; `none` is a lack of gas. -/
def UseGas (gas : Nat) : Option Contract :=
  if c.Gas < gas then none else some { c with Gas := c.Gas - gas }

def isCode (udest : Nat) : Except Fault Bool := do (← codeBitmap c.Code).codeSegment udest

/-- The destination is an instruction `opcode` of the code, and not data. -/
def isInstruction (opcode : UInt8) (udest : Nat) : Except Fault Bool :=
  if c.Code[udest]? = some opcode then c.isCode udest else .ok false

def validJumpdest (dest : Word) : Except Fault Bool :=
  if !Word.isUint64 dest then .ok false else c.isInstruction 0x5b (Word.uint64 dest)

def validJumpSubdest (udest : Nat) : Except Fault Bool :=
  if toInt64 udest < 0 then .ok false else c.isInstruction 0x5c udest

end Contract

/-- The registers of a frame. -/
structure Regs where
  pc : Nat := 0
  stack : Stack := []
  /-- `ReturnStack`, the top first -/
  rstack : List Nat := []
  memory : Memory := {}

/-- A frame: the contract that runs and its registers. -/
structure Frame where
  contract : Contract
  regs : Regs := {}

/-! ## §6 — The environment and the machine -/

structure Rules where
  IsHomestead : Bool := false
  IsEIP150 : Bool := false
  IsEIP158 : Bool := false
  IsByzantium : Bool := false
  IsConstantinople : Bool := false
  IsPetersburg : Bool := false
  IsIstanbul : Bool := false
  IsYoloV1 : Bool := false
  deriving DecidableEq

structure PrecompiledContract where
  RequiredGas : Bytes → Nat
  Run : Bytes → Except String Bytes

/-- What does not change during a transaction: the rules, the block and transaction context, the
interpreter's configuration, the precompiled contracts in force and the hash functions. -/
structure Env (C : Type) where
  chainRules : Rules
  ChainID : Int
  GetHash : Nat → Hash
  Origin : Address
  GasPrice : Nat
  Coinbase : Address
  GasLimit : Nat
  BlockNumber : Nat
  Time : Nat
  Difficulty : Nat
  precompile : Address → Option PrecompiledContract
  keccak256 : Bytes → Hash
  /-- the bytes of a code hash -/
  hashBytes : C → Hash
  CreateAddress : Address → UInt64 → Address
  CreateAddress2 : Address → Hash → Hash → Address
  NoRecursion : Bool := false
  EnablePreimageRecording : Bool := false

/-- What the frames share. -/
structure Machine (C : Type) where
  /-- `StateDB` -/
  session : World.Session C
  depth : Nat := 0
  readOnly : Bool := false
  returnData : Bytes := []
  callGasTemp : Nat := 0
  /-- the balances that `SELFDESTRUCT` has destroyed so far in frames that were not reverted; an
  account of what the code does, which nothing in it reads -/
  destroyed : Int := 0

section World

variable {C : Type} [CodeHash C] [DecidableEq C]

variable (w : World C) (a : Address)

def Exist : Bool := (w.accounts a).isSome

def Empty : Bool := (w.accounts a).all fun acc => acc.empty

def GetBalance : Int := (w.accounts a).elim 0 fun acc => acc.balance

def GetNonce : UInt64 := (w.accounts a).elim 0 fun acc => acc.nonce

def GetCode : Bytes := ((w.accounts a).bind fun acc => acc.code).getD []

/-- `GetCodeHash`; `none` is the zero hash. -/
def GetCodeHash : Option C := (w.accounts a).map fun acc => acc.codeHash

def GetState (key : Hash) : Hash := (w.accounts a).elim Hash.zero fun acc => acc.state key

def GetCommittedState (key : Hash) : Hash :=
  (w.accounts a).elim Hash.zero fun acc => acc.committed key

def HasSuicided : Bool := (w.accounts a).any fun acc => acc.suicided

def CanTransfer (amount : Nat) : Bool := decide ((amount : Int) ≤ GetBalance w a)

def Transfer (sender recipient : Address) (amount : Nat) : List Op :=
  [.subBalance sender amount, .addBalance recipient amount]

end World

namespace Machine

variable {C : Type} [CodeHash C] [DecidableEq C] (m : Machine C)

/-- The state as the getters see it. -/
abbrev world : World C := m.session.world

/-- Operations on the state database. -/
def apply (ops : List Op) : Except Crash (Machine C) :=
  match m.session.run ops with
  | some session => .ok { m with session }
  | none => .error .statePanic

end Machine

end MxtChain.Vm
