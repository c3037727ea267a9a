/-
# MxtChain.Vm.Gas — memory sizes and dynamic gas.

`memory_table.go` and `gas_table.go`: how much memory an instruction needs, and what it costs beyond
its constant price. A gas function can change the state database (the refund counter), the last fee
of the memory and `evm.callGasTemp`; all of that is in its result.
-/
import MxtChain.Vm.Machine

namespace MxtChain.Vm

open State Word

/-! ## §1 — Memory sizes -/

/-- `calcMemSize64WithUint`; `none` is an overflow. -/
def calcMemSize64WithUint (off : Word) (length64 : Nat) : Option Nat :=
  if length64 = 0 then some 0
  else if isUint64 off then
    let val := (uint64 off + length64) % 2 ^ 64
    if val < uint64 off then none else some val
  else none

/-- `calcMemSize64`; `none` is an overflow. -/
def calcMemSize64 (off l : Word) : Option Nat :=
  if isUint64 l then calcMemSize64WithUint off (uint64 l) else none

/-- The shapes of the memory size functions, by the stack positions they read. -/
inductive MemorySizeFunc where
  /-- the range of an offset and a length -/
  | range (off l : Nat)
  /-- a fixed number of bytes at an offset -/
  | fixed (off length64 : Nat)
  /-- the larger one of two ranges -/
  | larger (off l off' l' : Nat)
  deriving DecidableEq

def memorySha3 : MemorySizeFunc := .range 0 1
def memoryCallDataCopy : MemorySizeFunc := .range 0 2
def memoryReturnDataCopy : MemorySizeFunc := .range 0 2
def memoryCodeCopy : MemorySizeFunc := .range 0 2
def memoryExtCodeCopy : MemorySizeFunc := .range 1 3
def memoryMLoad : MemorySizeFunc := .fixed 0 32
def memoryMStore8 : MemorySizeFunc := .fixed 0 1
def memoryMStore : MemorySizeFunc := .fixed 0 32
def memoryCreate : MemorySizeFunc := .range 1 2
def memoryCreate2 : MemorySizeFunc := .range 1 2
def memoryCall : MemorySizeFunc := .larger 5 6 3 4
def memoryDelegateCall : MemorySizeFunc := .larger 4 5 2 3
def memoryStaticCall : MemorySizeFunc := .larger 4 5 2 3
def memoryReturn : MemorySizeFunc := .range 0 1
def memoryRevert : MemorySizeFunc := .range 0 1
def memoryLog : MemorySizeFunc := .range 0 1

/-- The size a memory size function computes; `none` is an overflow. -/
def MemorySizeFunc.eval (stack : Stack) : MemorySizeFunc → Except Fault (Option Nat)
  | .range off l => do return calcMemSize64 (← stack.Back off) (← stack.Back l)
  | .fixed off length64 => do return calcMemSize64WithUint (← stack.Back off) length64
  | .larger off l off' l' => do
    match calcMemSize64 (← stack.Back off) (← stack.Back l) with
    | none => return none
    | some x =>
      match calcMemSize64 (← stack.Back off') (← stack.Back l') with
      | none => return none
      | some y => return some (if x > y then x else y)

/-! ## §2 — What a gas function returns -/

/-- The price, and what the gas function has changed. -/
structure GasResult where
  cost : Nat
  memory : Memory
  callGasTemp : Nat
  /-- the operations on the refund counter -/
  ops : List Op := []

/-- An error of a gas function; the interpreter makes `ErrOutOfGas` of it. -/
abbrev gasUintOverflow {α : Type} : Except Fault α := .error (.err .ErrGasUintOverflow)

/-- An arithmetic result that must not overflow. -/
def checked : Option Nat → Except Fault Nat
  | some n => .ok n
  | none => gasUintOverflow

def MemoryGas : Nat := 3

def QuadCoeffDiv : Nat := 512

/-- The whole fee for a memory of so many words. -/
def memoryFee (words : Nat) : Nat := words * MemoryGas + words * words / QuadCoeffDiv

/-- The largest memory that is priced. -/
def maxMemorySize : Nat := 0x1FFFFFFFE0

/-- `memoryGasCost`: the fee for growing the memory, and the memory with its last fee. -/
def memoryGasCost (mem : Memory) (newMemSize : Nat) : Except Fault (Nat × Memory) :=
  if newMemSize = 0 then .ok (0, mem)
  else if newMemSize > maxMemorySize then gasUintOverflow
  else
    let newMemSizeWords := toWordSize newMemSize
    if newMemSizeWords * 32 > mem.Len then
      let newTotalFee := memoryFee newMemSizeWords
      .ok (sub64 newTotalFee mem.lastGasCost, { mem with lastGasCost := newTotalFee })
    else .ok (0, mem)

section

variable {C : Type} [CodeHash C] [DecidableEq C]

variable (env : Env C) (m : Machine C) (contract : Contract) (stack : Stack) (mem : Memory)
  (memorySize : Nat)

/-- The price of an instruction that pays for the growth of the memory only. -/
def pureMemoryGascost : Except Fault GasResult := do
  let (gas, mem) ← memoryGasCost mem memorySize
  return ⟨gas, mem, m.callGasTemp, []⟩

/-- The growth of the memory, and a price for each word of data; the number of bytes is at a stack
position. -/
def perWordGas (stackpos wordGas : Nat) : Except Fault GasResult := do
  let (gas, mem) ← memoryGasCost mem memorySize
  let size ← stack.Back stackpos
  if !isUint64 size then gasUintOverflow
  else do
    let words ← checked (SafeMul (toWordSize (uint64 size)) wordGas)
    let gas ← checked (SafeAdd gas words)
    return ⟨gas, mem, m.callGasTemp, []⟩

def CopyGas : Nat := 3

def Sha3WordGas : Nat := 6

def memoryCopierGas (stackpos : Nat) : Except Fault GasResult :=
  perWordGas m stack mem memorySize stackpos CopyGas

def gasSha3 : Except Fault GasResult := perWordGas m stack mem memorySize 1 Sha3WordGas

def gasCreate2 : Except Fault GasResult := perWordGas m stack mem memorySize 2 Sha3WordGas

def LogGas : Nat := 375

def LogTopicGas : Nat := 375

def LogDataGas : Nat := 8

def makeGasLog (n : Nat) : Except Fault GasResult := do
  let size ← stack.Back 1
  if !isUint64 size then gasUintOverflow
  else do
    let (gas, mem) ← memoryGasCost mem memorySize
    let gas ← checked (SafeAdd gas LogGas)
    let gas ← checked (SafeAdd gas (n * LogTopicGas))
    let memorySizeGas ← checked (SafeMul (uint64 size) LogDataGas)
    let gas ← checked (SafeAdd gas memorySizeGas)
    return ⟨gas, mem, m.callGasTemp, []⟩

def ExpGas : Nat := 10

/-- `gasExpFrontier` and `gasExpEIP158`, by the price of a byte of the exponent. -/
def gasExp (expByte : Nat) : Except Fault GasResult := do
  let exponent ← stack.Back 1
  let expByteLen := (bitLen exponent + 7) / 8
  let gas ← checked (SafeAdd (expByteLen * expByte) ExpGas)
  return ⟨gas, mem, m.callGasTemp, []⟩

/-! ## §3 — Storage -/

/-- How an `SSTORE` under net metering is priced: the prices and refunds of the two proposals. -/
structure NetGas where
  noop : Nat
  init : Nat
  clean : Nat
  dirty : Nat
  clearRefund : UInt64
  resetClearRefund : UInt64
  resetRefund : UInt64

/-- EIP 1283: `params.NetSstore…` -/
def netGasEIP1283 : NetGas where
  noop := 200
  init := 20000
  clean := 5000
  dirty := 200
  clearRefund := 15000
  resetClearRefund := 19800
  resetRefund := 4800

/-- EIP 2200: `params.Sstore…EIP2200`, with `params.SloadGasEIP2200` taken off the refunds. -/
def netGasEIP2200 : NetGas where
  noop := 800
  init := 20000
  clean := 5000
  dirty := 800
  clearRefund := 15000
  resetClearRefund := 20000 - 800
  resetRefund := 5000 - 800

/-- Net metering: the price of writing `value` to a slot, and the operations on the refund counter,
from the value now and the value at the end of the last transaction. -/
def NetGas.price (p : NetGas) (original current value : Hash) : Nat × List Op :=
  if current = value then (p.noop, [])
  else if original = current then
    if original = Hash.zero then (p.init, [])
    else if value = Hash.zero then (p.clean, [.addRefund p.clearRefund])
    else (p.clean, [])
  else
    (p.dirty, (if original ≠ Hash.zero then
        if current = Hash.zero then [.subRefund p.clearRefund]
        else if value = Hash.zero then [.addRefund p.clearRefund]
        else []
      else []) ++
      (if original = value then
        if original = Hash.zero then [.addRefund p.resetClearRefund]
        else [.addRefund p.resetRefund]
      else []))

/-- The net metering of the top two stack items as a slot and its new value. -/
def netSStore (p : NetGas) : Except Fault GasResult := do
  let y ← stack.Back 1
  let x ← stack.Back 0
  let current := GetState m.world contract.self (toHash x)
  let original := GetCommittedState m.world contract.self (toHash x)
  let (cost, ops) := p.price original current (toHash y)
  return ⟨cost, mem, m.callGasTemp, ops⟩

def gasSStore : Except Fault GasResult :=
  if env.chainRules.IsPetersburg || !env.chainRules.IsConstantinople then do
    let y ← stack.Back 1
    let x ← stack.Back 0
    let current := GetState m.world contract.self (toHash x)
    if current = Hash.zero ∧ y ≠ 0 then return ⟨20000, mem, m.callGasTemp, []⟩
    else if current ≠ Hash.zero ∧ y = 0 then
      return ⟨5000, mem, m.callGasTemp, [.addRefund 15000]⟩
    else return ⟨5000, mem, m.callGasTemp, []⟩
  else netSStore m contract stack mem netGasEIP1283

def SstoreSentryGasEIP2200 : Nat := 2300

def gasSStoreEIP2200 : Except Fault GasResult :=
  if contract.Gas ≤ SstoreSentryGasEIP2200 then .error (.err .ErrOutOfGas)
  else netSStore m contract stack mem netGasEIP2200

/-! ## §4 — Calls -/

def CallNewAccountGas : Nat := 25000

def CallValueTransferGas : Nat := 9000

def CallStipend : Nat := 2300

/-- `callGas`: under EIP 150 no more than all but one 64th of what is left after the base price. -/
def callGas (isEip150 : Bool) (availableGas base : Nat) (callCost : Word) : Except Fault Nat :=
  let gas := sub64 availableGas base - sub64 availableGas base / 64
  if isEip150 ∧ (isUint64 callCost = false ∨ gas < uint64 callCost) then .ok gas
  else if !isUint64 callCost then gasUintOverflow
  else .ok (uint64 callCost)

/-- The price of a call: `base`, the growth of the memory and the gas for the callee. -/
def makeGasCall (base : Nat) : Except Fault GasResult := do
  let (memoryGas, mem) ← memoryGasCost mem memorySize
  let gas ← checked (SafeAdd base memoryGas)
  let callGasTemp ← callGas env.chainRules.IsEIP150 contract.Gas gas (← stack.Back 0)
  let cost ← checked (SafeAdd gas callGasTemp)
  return ⟨cost, mem, callGasTemp, []⟩

def gasCall : Except Fault GasResult := do
  let transfersValue := (← stack.Back 2) ≠ 0
  let address := toAddress (← stack.Back 1)
  let newAccount :=
    if env.chainRules.IsEIP158 then
      if transfersValue ∧ Empty m.world address then CallNewAccountGas else 0
    else if !Exist m.world address then CallNewAccountGas else 0
  makeGasCall env contract stack mem memorySize
    (newAccount + if transfersValue then CallValueTransferGas else 0)

def gasCallCode : Except Fault GasResult := do
  let transfersValue := (← stack.Back 2) ≠ 0
  makeGasCall env contract stack mem memorySize (if transfersValue then CallValueTransferGas else 0)

def gasDelegateCall : Except Fault GasResult := makeGasCall env contract stack mem memorySize 0

def gasStaticCall : Except Fault GasResult := makeGasCall env contract stack mem memorySize 0

def gasSelfdestruct : Except Fault GasResult := do
  let address := toAddress (← stack.Back 0)
  let gas :=
    if env.chainRules.IsEIP150 then
      5000 +
        if env.chainRules.IsEIP158 then
          if Empty m.world address ∧ GetBalance m.world contract.self ≠ 0 then 25000 else 0
        else if !Exist m.world address then 25000 else 0
    else 0
  return ⟨gas, mem, m.callGasTemp,
    if HasSuicided m.world contract.self then [] else [.addRefund 24000]⟩

/-! ## §5 — The table of gas functions -/

inductive GasFunc where
  | memoryCopierGas (stackpos : Nat)
  | gasSStore
  | gasSStoreEIP2200
  | makeGasLog (n : Nat)
  | gasSha3
  | pureMemoryGascost
  | gasCreate2
  | gasExpFrontier
  | gasExpEIP158
  | gasCall
  | gasCallCode
  | gasDelegateCall
  | gasStaticCall
  | gasSelfdestruct
  deriving DecidableEq

/-- The price of an instruction beyond its constant price. -/
def GasFunc.eval : GasFunc → Except Fault GasResult
  | .memoryCopierGas stackpos => Vm.memoryCopierGas m stack mem memorySize stackpos
  | .gasSStore => Vm.gasSStore env m contract stack mem
  | .gasSStoreEIP2200 => Vm.gasSStoreEIP2200 m contract stack mem
  | .makeGasLog n => Vm.makeGasLog m stack mem memorySize n
  | .gasSha3 => Vm.gasSha3 m stack mem memorySize
  | .pureMemoryGascost => Vm.pureMemoryGascost m mem memorySize
  | .gasCreate2 => Vm.gasCreate2 m stack mem memorySize
  | .gasExpFrontier => gasExp m stack mem 10
  | .gasExpEIP158 => gasExp m stack mem 50
  | .gasCall => Vm.gasCall env m contract stack mem memorySize
  | .gasCallCode => Vm.gasCallCode env contract stack mem memorySize
  | .gasDelegateCall => Vm.gasDelegateCall env contract stack mem memorySize
  | .gasStaticCall => Vm.gasStaticCall env contract stack mem memorySize
  | .gasSelfdestruct => Vm.gasSelfdestruct env m contract stack mem

end

end MxtChain.Vm
