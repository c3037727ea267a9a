/-
# MxtChain.Vm.Instructions — what each instruction does.

The execution functions of `instructions.go` and `eips.go`. Most of them come in families: two
operands replaced by one, a word pushed from the context, the top replaced by what it points at, a
range of bytes copied to memory. An execution function returns the registers after it, the
operations it makes on the state database and its result. The six that call another contract return
the call, which the interpreter then makes.
-/
import MxtChain.Vm.Gas

namespace MxtChain.Vm

open State Word

/-! ## §1 — The families -/

/-- Two operands are replaced by one. -/
inductive Binary where
  | opAdd | opSub | opMul | opDiv | opSdiv | opMod | opSmod | opExp | opSignExtend
  | opLt | opGt | opSlt | opSgt | opEq | opAnd | opOr | opXor | opByte
  | opSHL | opSHR | opSAR
  deriving DecidableEq

/-- The result for the operand popped first and the one under it. -/
def Binary.eval (x y : Word) : Binary → Word
  | .opAdd => x + y
  | .opSub => x - y
  | .opMul => x * y
  | .opDiv => x / y
  | .opSdiv => x.sdiv y
  | .opMod => mod x y
  | .opSmod => smod x y
  | .opExp => exp x y
  | .opSignExtend => extendSign x y
  | .opLt => ofBool (x.ult y)
  | .opGt => ofBool (y.ult x)
  | .opSlt => ofBool (x.slt y)
  | .opSgt => ofBool (y.slt x)
  | .opEq => ofBool (x == y)
  | .opAnd => x &&& y
  | .opOr => x ||| y
  | .opXor => x ^^^ y
  | .opByte => byte x y
  | .opSHL => shl x y
  | .opSHR => shr x y
  | .opSAR => sar x y

/-- The top is replaced. -/
inductive Unary where
  | opNot | opIszero
  deriving DecidableEq

def Unary.eval (x : Word) : Unary → Word
  | .opNot => ~~~x
  | .opIszero => ofBool (x == 0)

/-- Three operands are replaced by one. -/
inductive Ternary where
  | opAddmod | opMulmod
  deriving DecidableEq

def Ternary.eval (x y z : Word) : Ternary → Word
  | .opAddmod => addMod x y z
  | .opMulmod => mulMod x y z

/-- A word of the context is pushed. -/
inductive Pushed where
  | opAddress | opOrigin | opCaller | opCallValue | opCallDataSize | opReturnDataSize | opCodeSize
  | opGasprice | opCoinbase | opTimestamp | opNumber | opDifficulty | opGasLimit
  | opPc | opMsize | opGas | opChainID | opSelfBalance
  deriving DecidableEq

/-- The top is replaced by what it points at. -/
inductive Loaded where
  | opBalance | opCallDataLoad | opExtCodeSize | opExtCodeHash | opBlockhash | opMload | opSload
  deriving DecidableEq

/-- A range of bytes is copied to memory. -/
inductive Copied where
  | opCallDataCopy | opCodeCopy | opReturnDataCopy
  deriving DecidableEq

/-- The ways to run another contract. -/
inductive CallKind where
  | Call | CallCode | DelegateCall | StaticCall | Create | Create2
  deriving DecidableEq

/-- The execution functions that call no other contract, the members of the families under their
names. -/
inductive Instr where
  | binary (op : Binary)
  | unary (op : Unary)
  | ternary (op : Ternary)
  | pushed (op : Pushed)
  | loaded (op : Loaded)
  | copied (op : Copied)
  | opExtCodeCopy
  | opSha3
  | opPop
  | opMstore
  | opMstore8
  | opSstore
  | opJump
  | opJumpi
  | opJumpdest
  | opBeginSub
  | opJumpSub
  | opReturnSub
  | opPush1
  | makePush (size pushByteSize : Nat)
  | makeDup (size : Nat)
  | makeSwap (size : Nat)
  | makeLog (size : Nat)
  | opReturn
  | opRevert
  | opStop
  | opSuicide
  deriving DecidableEq

/-- The execution functions that call another contract. -/
inductive Calling where
  | opCreate | opCreate2 | opCall | opCallCode | opDelegateCall | opStaticCall
  deriving DecidableEq

/-- `executionFunc` -/
inductive Exec where
  | instr (op : Instr)
  | calling (op : Calling)
  deriving DecidableEq

/-- A call of another contract. -/
structure Request where
  kind : CallKind
  /-- the calling contract -/
  caller : Contract
  /-- the callee of a call -/
  addr : Address
  /-- the input of a call, the code of a creation -/
  input : Bytes
  gas : Nat
  value : Nat
  salt : Word

/-- What is left to do when the call has returned. -/
inductive Pending where
  | call (retOffset retSize : Word)
  | create
  | create2

/-- What an execution function has done that calls no other contract. -/
structure Effect where
  regs : Regs
  /-- the operations on the state database -/
  ops : List Op := []
  res : Bytes := []
  /-- the ether that a `SELFDESTRUCT` destroys -/
  destroyed : Int := 0

/-- What an execution function asks for that calls another contract: the registers and the gas of
the caller, the call, and what comes after it. -/
structure Suspended where
  regs : Regs
  gas : Nat
  req : Request
  pending : Pending

section

variable {C : Type} [CodeHash C] [DecidableEq C]

variable (env : Env C) (m : Machine C) (contract : Contract) (r : Regs)

def Pushed.eval : Pushed → Word
  | .opAddress => addressWord contract.self
  | .opOrigin => addressWord env.Origin
  | .opCaller => addressWord contract.CallerAddress
  | .opCallValue => fromBig contract.value
  | .opCallDataSize => BitVec.ofNat 256 contract.Input.length
  | .opReturnDataSize => BitVec.ofNat 256 m.returnData.length
  | .opCodeSize => BitVec.ofNat 256 contract.Code.length
  | .opGasprice => fromBig env.GasPrice
  | .opCoinbase => addressWord env.Coinbase
  | .opTimestamp => fromBig env.Time
  | .opNumber => fromBig env.BlockNumber
  | .opDifficulty => fromBig env.Difficulty
  | .opGasLimit => BitVec.ofNat 256 env.GasLimit
  | .opPc => BitVec.ofNat 256 r.pc
  | .opMsize => BitVec.ofNat 256 r.memory.Len
  | .opGas => BitVec.ofNat 256 contract.Gas
  | .opChainID => fromBig env.ChainID
  | .opSelfBalance => fromBig (GetBalance m.world contract.self)

/-- The word that takes the place of the top. -/
def Loaded.eval (x : Word) : Loaded → Except Fault Word
  | .opBalance => .ok (fromBig (GetBalance m.world (toAddress x)))
  | .opCallDataLoad =>
    if isUint64 x then (getData contract.Input (uint64 x) 32).map setBytes else .ok 0
  | .opExtCodeSize => .ok (BitVec.ofNat 256 (GetCode m.world (toAddress x)).length)
  | .opExtCodeHash =>
    .ok (if Empty m.world (toAddress x) then 0
      else (GetCodeHash m.world (toAddress x)).elim 0 fun h => hashWord (env.hashBytes h))
  | .opBlockhash =>
    let upper := env.BlockNumber % 2 ^ 64
    let lower := if upper < 257 then 0 else upper - 256
    .ok (if isUint64 x ∧ lower ≤ uint64 x ∧ uint64 x < upper then
      hashWord (env.GetHash (uint64 x)) else 0)
  | .opMload => (r.memory.GetPtr (toInt64 (uint64 x)) 32).map setBytes
  | .opSload => .ok (hashWord (GetState m.world contract.self (toHash x)))

/-- An offset into data that may be past its end. -/
def dataOffset64 (dataOffset : Word) : Nat :=
  if isUint64 dataOffset then uint64 dataOffset else 0xffffffffffffffff

def Copied.eval (dataOffset length : Word) : Copied → Except Fault Bytes
  | .opCallDataCopy => getData contract.Input (dataOffset64 dataOffset) (uint64 length)
  | .opCodeCopy => getData contract.Code (dataOffset64 dataOffset) (uint64 length)
  | .opReturnDataCopy =>
    if !isUint64 dataOffset then .error (.err .ErrReturnDataOutOfBounds)
    else if !isUint64 (dataOffset + length) ∨
        m.returnData.length < uint64 (dataOffset + length) then
      .error (.err .ErrReturnDataOutOfBounds)
    else slice m.returnData (uint64 dataOffset) (uint64 (dataOffset + length))

/-! ## §2 — Calls -/

/-- The memory range an operand pair names, as an argument of a call, a hash or a result. -/
def readRange (offset size : Word) : Except Fault Bytes :=
  r.memory.GetPtr (toInt64 (uint64 offset)) (toInt64 (uint64 size))

/-- The value of a call, with the gas that it adds for the callee. -/
def stipend (gas : Nat) (value : Word) : Nat :=
  if value ≠ 0 then (gas + CallStipend) % 2 ^ 64 else gas

/-- `opCall` and `opCallCode`; an empty value is `nil` there and zero here. -/
def valueCall (kind : CallKind) : Except Fault Suspended :=
  match r.stack with
  | _ :: addr :: value :: inOffset :: inSize :: retOffset :: retSize :: st => do
    let args ← readRange r inOffset inSize
    let req : Request :=
      { kind, caller := contract, addr := toAddress addr, input := args,
        gas := stipend m.callGasTemp value, value := value.toNat, salt := 0 }
    return ⟨{ r with stack := st }, contract.Gas, req, .call retOffset retSize⟩
  | _ => panicked

/-- `opDelegateCall` and `opStaticCall` -/
def plainCall (kind : CallKind) : Except Fault Suspended :=
  match r.stack with
  | _ :: addr :: inOffset :: inSize :: retOffset :: retSize :: st => do
    let args ← readRange r inOffset inSize
    let req : Request :=
      { kind, caller := contract, addr := toAddress addr, input := args,
        gas := m.callGasTemp, value := 0, salt := 0 }
    return ⟨{ r with stack := st }, contract.Gas, req, .call retOffset retSize⟩
  | _ => panicked

def opCreate : Except Fault Suspended :=
  match r.stack with
  | value :: offset :: size :: st => do
    let input ← readRange r offset size
    let gas :=
      if env.chainRules.IsEIP150 then contract.Gas - contract.Gas / 64 else contract.Gas
    let req : Request :=
      { kind := .Create, caller := { contract with Gas := contract.Gas - gas },
        addr := default, input, gas, value := value.toNat, salt := 0 }
    return ⟨{ r with stack := st }, contract.Gas - gas, req, .create⟩
  | _ => panicked

def opCreate2 : Except Fault Suspended :=
  match r.stack with
  | endowment :: offset :: size :: salt :: st => do
    let input ← readRange r offset size
    let gas := contract.Gas - contract.Gas / 64
    let req : Request :=
      { kind := .Create2, caller := { contract with Gas := contract.Gas - gas },
        addr := default, input, gas, value := endowment.toNat, salt }
    return ⟨{ r with stack := st }, contract.Gas - gas, req, .create2⟩
  | _ => panicked

/-- The execution functions that call another contract. -/
def Calling.run : Calling → Except Fault Suspended
  | .opCreate => Vm.opCreate env contract r
  | .opCreate2 => Vm.opCreate2 contract r
  | .opCall => valueCall m contract r .Call
  | .opCallCode => valueCall m contract r .CallCode
  | .opDelegateCall => plainCall m contract r .DelegateCall
  | .opStaticCall => plainCall m contract r .StaticCall

/-! ## §3 — The execution functions that call no other contract -/

/-- A jump of the program counter to a checked destination. -/
def jumpTo (st : Stack) (pos : Word) : Except Fault Effect := do
  if ← contract.validJumpdest pos then
    return { regs := { r with stack := st, pc := uint64 pos } }
  else .error (.err .ErrInvalidJump)

/-- The data of a push instruction: what the code has of it, padded on the right. -/
def pushData (pushByteSize : Nat) : Word :=
  let codeLen := contract.Code.length
  let startMin := if r.pc + 1 < codeLen then r.pc + 1 else codeLen
  let endMin := if startMin + pushByteSize < codeLen then startMin + pushByteSize else codeLen
  setBytes
    (RightPadBytes ((contract.Code.drop startMin).take (endMin - startMin)) pushByteSize)

/-- The execution functions that call no other contract. -/
def Instr.run : Instr → Except Fault Effect
  | .binary op =>
    match r.stack with
    | x :: y :: st => .ok { regs := { r with stack := op.eval x y :: st } }
    | _ => panicked
  | .unary op =>
    match r.stack with
    | x :: st => .ok { regs := { r with stack := op.eval x :: st } }
    | _ => panicked
  | .ternary op =>
    match r.stack with
    | x :: y :: z :: st => .ok { regs := { r with stack := op.eval x y z :: st } }
    | _ => panicked
  | .pushed op => .ok { regs := { r with stack := op.eval env m contract r :: r.stack } }
  | .loaded op =>
    match r.stack with
    | x :: st => do return { regs := { r with stack := (← op.eval env m contract r x) :: st } }
    | _ => panicked
  | .copied op =>
    match r.stack with
    | memOffset :: dataOffset :: length :: st => do
      let data ← op.eval m contract dataOffset length
      let memory ← r.memory.Set (uint64 memOffset) (uint64 length) data
      return { regs := { r with stack := st, memory } }
    | _ => panicked
  | .opExtCodeCopy =>
    match r.stack with
    | a :: memOffset :: codeOffset :: length :: st => do
      let data ← getData (GetCode m.world (toAddress a)) (dataOffset64 codeOffset)
        (uint64 length)
      let memory ← r.memory.Set (uint64 memOffset) (uint64 length) data
      return { regs := { r with stack := st, memory } }
    | _ => panicked
  | .opSha3 =>
    match r.stack with
    | offset :: size :: st => do
      let data ← readRange r offset size
      let hash := env.keccak256 data
      return {
        regs := { r with stack := hashWord hash :: st }
        ops := if env.EnablePreimageRecording then [.addPreimage hash data] else [] }
    | _ => panicked
  | .opPop =>
    match r.stack with
    | _ :: st => .ok { regs := { r with stack := st } }
    | _ => panicked
  | .opMstore =>
    match r.stack with
    | mStart :: val :: st => do
      let memory ← r.memory.Set32 (uint64 mStart) val
      return { regs := { r with stack := st, memory } }
    | _ => panicked
  | .opMstore8 =>
    match r.stack with
    | off :: val :: st => do
      let memory ← r.memory.setByte (uint64 off) (UInt8.ofNat (uint64 val))
      return { regs := { r with stack := st, memory } }
    | _ => panicked
  | .opSstore =>
    match r.stack with
    | loc :: val :: st =>
      .ok {
        regs := { r with stack := st }
        ops := [.setState contract.self (toHash loc) (toHash val)] }
    | _ => panicked
  | .opJump =>
    match r.stack with
    | pos :: st => jumpTo contract r st pos
    | _ => panicked
  | .opJumpi =>
    match r.stack with
    | pos :: cond :: st =>
      if cond ≠ 0 then jumpTo contract r st pos
      else .ok { regs := { r with stack := st, pc := r.pc + 1 } }
    | _ => panicked
  | .opJumpdest => .ok { regs := r }
  | .opBeginSub => .error (.err .ErrInvalidSubroutineEntry)
  | .opJumpSub =>
    if r.rstack.length ≥ 1023 then .error (.err .ErrReturnStackExceeded)
    else
      match r.stack with
      | pos :: st =>
        if !isUint64 pos then .error (.err .ErrInvalidJump)
        else do
          if ← contract.validJumpSubdest (uint64 pos) then
            return { regs := { r with
              stack := st, rstack := r.pc % 2 ^ 32 :: r.rstack, pc := uint64 pos + 1 } }
          else .error (.err .ErrInvalidJump)
      | _ => panicked
  | .opReturnSub =>
    match r.rstack with
    | [] => .error (.err .ErrInvalidRetsub)
    | pc :: rst => .ok { regs := { r with rstack := rst, pc := pc + 1 } }
  | .opPush1 =>
    .ok { regs := { r with
      pc := r.pc + 1
      stack := BitVec.ofNat 256 (contract.Code.getD (r.pc + 1) 0).toNat :: r.stack } }
  | .makePush size pushByteSize =>
    .ok { regs := { r with pc := r.pc + size, stack := pushData contract r pushByteSize :: r.stack } }
  | .makeDup size =>
    match r.stack[size - 1]? with
    | some x => .ok { regs := { r with stack := x :: r.stack } }
    | none => panicked
  | .makeSwap size =>
    match r.stack[0]?, r.stack[size]? with
    | some x, some y => .ok { regs := { r with stack := (r.stack.set 0 y).set size x } }
    | _, _ => panicked
  | .makeLog size =>
    match r.stack with
    | mStart :: mSize :: st =>
      if st.length < size then panicked
      else do
        let d ← readRange r mStart mSize
        let topics := (st.take size).map toHash
        return {
          regs := { r with stack := st.drop size }
          ops := [.addLog { address := contract.self, topics, data := d }] }
    | _ => panicked
  | .opReturn | .opRevert =>
    match r.stack with
    | offset :: size :: st => do
      return { regs := { r with stack := st }, res := ← readRange r offset size }
    | _ => panicked
  | .opStop => .ok { regs := r }
  | .opSuicide =>
    match r.stack with
    | beneficiary :: st =>
      let balance := GetBalance m.world contract.self
      .ok {
        regs := { r with stack := st }
        ops := [.addBalance (toAddress beneficiary) balance, .suicide contract.self]
        destroyed := if toAddress beneficiary = contract.self then balance else 0 }
    | _ => panicked

end

end MxtChain.Vm
