/-
# MxtChain.Core.StateTransition — the state transition of a message.

The code of `state_transition.go` and `gaspool.go` over the machine of `Vm`: the gas is bought from
the pool and paid for, the intrinsic gas is taken, the message is run, the rest of the gas goes back
and the coinbase gets its fee. The gas counters are 64-bit words whose sums and differences wrap;
`wrapped` records whether one has, and nothing in the code reads it. The amounts of a message are
natural numbers, as the encoding of transactions has no others.
-/
import MxtChain.Vm.Interpreter

namespace MxtChain.Core

open State Vm

/-! ## §1 — Words of 64 bits -/

def MaxUint64 : UInt64 := 0xffffffffffffffff

/-- The sum does not fit in 64 bits. -/
def carries (x y : UInt64) : Bool := decide (2 ^ 64 ≤ x.toNat + y.toNat)

/-- The difference is negative. -/
def borrows (x y : UInt64) : Bool := decide (x < y)

/-! ## §2 — Messages and errors -/

structure Message where
  From : Address
  To : Option Address
  GasPrice : Nat
  Gas : UInt64
  Value : Nat
  Nonce : UInt64
  CheckNonce : Bool
  Data : Bytes

/-- The errors of `core/error.go` that refuse a message. -/
inductive TxError where
  | ErrNonceTooHigh
  | ErrNonceTooLow
  | ErrInsufficientFunds
  | ErrGasLimitReached
  | ErrGasUintOverflow
  | ErrIntrinsicGas
  | ErrInsufficientFundsForTransfer
  /-- the transaction has no valid signature -/
  | ErrInvalidSender
  deriving DecidableEq, Repr

structure ExecutionResult where
  UsedGas : UInt64
  Err : Option VMError
  ReturnData : Bytes

/-- How a transition crashes: the interpreter or an operation on the state does, or the gas pool. -/
inductive Panic where
  | vm (crash : Crash)
  /-- "gas pool pushed above uint64" -/
  | gasPool
  deriving DecidableEq

/-! ## §3 — The gas pool -/

def AddGas (gp amount : UInt64) : Except Panic UInt64 :=
  if gp > MaxUint64 - amount then .error .gasPool else .ok (gp + amount)

def SubGas (gp amount : UInt64) : Except TxError UInt64 :=
  if gp < amount then .error .ErrGasLimitReached else .ok (gp - amount)

/-! ## §4 — The transition -/

def TxGas : UInt64 := 21000

def TxGasContractCreation : UInt64 := 53000

def TxDataZeroGas : UInt64 := 4

def TxDataNonZeroGasFrontier : UInt64 := 68

def TxDataNonZeroGasEIP2028 : UInt64 := 16

/-- The number of non-zero bytes, counted in 64 bits. -/
def nonZeroBytes (data : Bytes) : UInt64 :=
  data.foldl (fun nz byt => if byt ≠ 0 then nz + 1 else nz) 0

/-- `count` bytes at a price, added to the gas so far. -/
def addDataGas (gas price count : UInt64) : Except TxError UInt64 :=
  if (MaxUint64 - gas) / price < count then .error .ErrGasUintOverflow
  else .ok (gas + count * price)

def IntrinsicGas (data : Bytes) (contractCreation isHomestead isEIP2028 : Bool) :
    Except TxError UInt64 :=
  let gas := if contractCreation && isHomestead then TxGasContractCreation else TxGas
  if data.length > 0 then
    let nz := nonZeroBytes data
    let nonZeroGas := if isEIP2028 then TxDataNonZeroGasEIP2028 else TxDataNonZeroGasFrontier
    (addDataGas gas nonZeroGas nz).bind fun gas =>
      addDataGas gas TxDataZeroGas (UInt64.ofNat data.length - nz)
  else .ok gas

/-- `StateTransition`; the machine holds `state` and `evm`. -/
structure StateTransition (C : Type) where
  gp : UInt64
  msg : Message
  gas : UInt64 := 0
  initialGas : UInt64 := 0
  machine : Machine C
  /-- whether a sum or difference of gas counters has wrapped -/
  wrapped : Bool := false

variable {C : Type} [CodeHash C] [DecidableEq C]

/-- `NewStateTransition`, with a new interpreter over the state. -/
def NewStateTransition (session : World.Session C) (msg : Message) (gp : UInt64) :
    StateTransition C :=
  { gp, msg, machine := { session } }

namespace StateTransition

variable (st : StateTransition C)

def buyGas : Except Panic (StateTransition C × Option TxError) :=
  let mgval : Nat := st.msg.Gas.toNat * st.msg.GasPrice
  if GetBalance st.machine.world st.msg.From < mgval then .ok (st, some .ErrInsufficientFunds)
  else
    match SubGas st.gp st.msg.Gas with
    | .error e => .ok (st, some e)
    | .ok gp => do
      let machine ← (st.machine.apply [.subBalance st.msg.From mgval]).mapError .vm
      return ({ st with
        gp, machine
        gas := st.gas + st.msg.Gas
        initialGas := st.msg.Gas
        wrapped := st.wrapped || carries st.gas st.msg.Gas }, none)

def preCheck : Except Panic (StateTransition C × Option TxError) :=
  let nonce := GetNonce st.machine.world st.msg.From
  if st.msg.CheckNonce ∧ nonce < st.msg.Nonce then .ok (st, some .ErrNonceTooHigh)
  else if st.msg.CheckNonce ∧ nonce > st.msg.Nonce then .ok (st, some .ErrNonceTooLow)
  else st.buyGas

def gasUsed : UInt64 := st.initialGas - st.gas

/-- `vm.AccountRef` -/
def accountRef (a : Address) : Contract :=
  { CallerAddress := a, self := a, Code := [], Gas := 0, value := 0 }

/-- The request of the message to the interpreter. -/
def request : Request where
  kind := if st.msg.To.isNone then .Create else .Call
  caller := accountRef st.msg.From
  addr := st.msg.To.getD default
  input := st.msg.Data
  gas := st.gas.toNat
  value := st.msg.Value
  salt := 0

/-- The message is run: a creation, or a call after the nonce has been counted up. -/
def execute (env : Env C) : Except Panic (StateTransition C × Returned C) := do
  let machine ← (st.machine.apply
    (if st.msg.To.isNone then []
    else [.setNonce st.msg.From (GetNonce st.machine.world st.msg.From + 1)])).mapError .vm
  let r ← (evm env machine st.request).mapError .vm
  return ({ st with gas := UInt64.ofNat r.leftOverGas, machine := r.machine }, r)

def refundGas : Except Panic (StateTransition C) := do
  let half := st.gasUsed / 2
  let refund := if half > st.machine.world.refund then st.machine.world.refund else half
  let gas := st.gas + refund
  let machine ←
    (st.machine.apply [.addBalance st.msg.From (gas.toNat * st.msg.GasPrice : Nat)]).mapError .vm
  let gp ← AddGas st.gp gas
  return { st with
    gp, gas, machine
    wrapped := st.wrapped || borrows st.initialGas st.gas || carries st.gas refund }

/-- The coinbase is paid and the result made. -/
def payCoinbase (env : Env C) (r : Returned C) :
    Except Panic (StateTransition C × Except TxError ExecutionResult) := do
  let machine ← (st.machine.apply
    [.addBalance env.Coinbase (st.gasUsed.toNat * st.msg.GasPrice : Nat)]).mapError .vm
  return ({ st with machine, wrapped := st.wrapped || borrows st.initialGas st.gas },
    .ok { UsedGas := st.gasUsed, Err := r.err, ReturnData := r.ret })

/-- `TransitionDb` after the checks. -/
def settleGas (env : Env C) : Except Panic (StateTransition C × Except TxError ExecutionResult) := do
  let (st, r) ← st.execute env
  let st ← st.refundGas
  st.payCoinbase env r

/-- `TransitionDb` after `preCheck`. -/
def afterCheck (env : Env C) : Except Panic (StateTransition C × Except TxError ExecutionResult) :=
  let homestead := env.chainRules.IsHomestead
  let istanbul := env.chainRules.IsIstanbul
  match IntrinsicGas st.msg.Data st.msg.To.isNone homestead istanbul with
  | .error e => .ok (st, .error e)
  | .ok gas =>
    if st.gas < gas then .ok (st, .error .ErrIntrinsicGas)
    else
      let st := { st with gas := st.gas - gas, wrapped := st.wrapped || borrows st.gas gas }
      if 0 < st.msg.Value ∧ CanTransfer st.machine.world st.msg.From st.msg.Value = false then
        .ok (st, .error .ErrInsufficientFundsForTransfer)
      else st.settleGas env

def TransitionDb (env : Env C) :
    Except Panic (StateTransition C × Except TxError ExecutionResult) := do
  let (st, err) ← st.preCheck
  match err with
  | some e => return (st, .error e)
  | none => st.afterCheck env

end StateTransition

end MxtChain.Core
