/-
# MxtChain.Vm.Interpreter — the loop of `Run`, and the entry points of the machine.

One turn of the loop checks the stack and the write protection, takes the gas, grows the memory and
executes an instruction. An instruction that calls another contract stops the turn with a request;
`EVM.Call`, `CallCode`, `DelegateCall`, `StaticCall` and `create` answer it, running the callee in a
frame of its own, and the turn is then resumed.

The loop is given a number of turns. `MxtChain.Vm.GasSpec` shows that one more than the gas is
always enough; the entry points are run with that many. The abort flag is never set.
-/
import MxtChain.Vm.JumpTable

namespace MxtChain.Vm

open State

variable {C : Type} [CodeHash C] [DecidableEq C]

/-- What a run leaves. -/
structure Done (C : Type) where
  machine : Machine C
  ret : Bytes
  gas : Nat
  err : Option VMError

/-- What a call or a creation returns. -/
structure Returned (C : Type) where
  machine : Machine C
  ret : Bytes
  contractAddr : Address
  leftOverGas : Nat
  err : Option VMError

/-- How a turn of the loop ends. -/
inductive Outcome (C : Type) where
  /-- the loop goes on -/
  | next (m : Machine C) (f : Frame)
  /-- the loop returns -/
  | done (d : Done C)
  /-- another contract is to be called -/
  | request (operation : Operation) (m : Machine C) (f : Frame) (req : Request) (pending : Pending)

/-! ## §1 — One turn of the loop -/

section Step

variable (env : Env C) (m : Machine C) (f : Frame)

/-- What has been checked and paid for when an instruction is executed. -/
structure Charged where
  operation : Operation
  contract : Contract
  memorySize : Nat
  gas : GasResult

/-- The requested size, in whole words. -/
def requestedMemory (operation : Operation) (stack : Stack) : Except Fault Nat :=
  match operation.memorySize with
  | none => .ok 0
  | some func => do
    match ← func.eval stack with
    | none => gasUintOverflow
    | some memSize => checked (SafeMul (toWordSize memSize) 32)

/-- The write protection: `CALL` is no write, unless it moves value. -/
def writeProtected (op : UInt8) (operation : Operation) (stack : Stack) : Except Fault Bool :=
  if m.readOnly && env.chainRules.IsByzantium then
    if operation.writes then .ok true
    else if op = CALL then do return decide ((← stack.Back 2) ≠ 0)
    else .ok false
  else .ok false

/-- The dynamic gas; every error of a gas function is a lack of gas. -/
def dynamicCost (operation : Operation) (contract : Contract) (stack : Stack) (mem : Memory)
    (memorySize : Nat) : Except Fault GasResult :=
  match operation.dynamicGas with
  | none => .ok ⟨0, mem, m.callGasTemp, []⟩
  | some func =>
    match func.eval env m contract stack mem memorySize with
    | .error .panic => .error .panic
    | .error (.err _) => .error (.err .ErrOutOfGas)
    | .ok gas => .ok gas

/-- The checks of a turn, up to the price of the instruction. -/
def charge : Except Fault Charged := do
  let op := f.contract.GetOp f.regs.pc
  match (jumpTable env.chainRules).lookup op with
  | none => .error (.err (.ErrInvalidOpCode op))
  | some operation =>
    let sLen := f.regs.stack.length
    if sLen < operation.minStack then
      .error (.err (.ErrStackUnderflow sLen operation.minStack))
    else if sLen > operation.maxStack then
      .error (.err (.ErrStackOverflow sLen operation.maxStack))
    else if ← writeProtected env m op operation f.regs.stack then
      .error (.err .ErrWriteProtection)
    else
      match f.contract.UseGas operation.constantGas with
      | none => .error (.err .ErrOutOfGas)
      | some contract => do
        let memorySize ← requestedMemory operation f.regs.stack
        let gas ← dynamicCost env m operation contract f.regs.stack f.regs.memory memorySize
        return { operation, contract, memorySize, gas }

/-- The frame returns an error. -/
def failed (m : Machine C) (gas : Nat) (e : FrameError) : Outcome C :=
  .done ⟨m, [], gas, some (.frame e)⟩

/-- The end of a turn. -/
def finish (operation : Operation) (m : Machine C) (f : Frame) (res : Bytes) : Outcome C :=
  let m := if operation.returns then { m with returnData := res } else m
  if operation.reverts then .done ⟨m, res, f.contract.Gas, some .ErrExecutionReverted⟩
  else if operation.halts then .done ⟨m, res, f.contract.Gas, none⟩
  else if operation.jumps then .next m f
  else .next m { f with regs := { f.regs with pc := f.regs.pc + 1 } }

/-- The execution of an instruction that has been paid for. -/
def executed (operation : Operation) (m : Machine C) (f : Frame) : Except Crash (Outcome C) :=
  match operation.execute with
  | .instr op =>
    match op.run env m f.contract f.regs with
    | .error .panic => .error .panic
    | .error (.err e) => .ok (failed m f.contract.Gas e)
    | .ok e => do
      let m ← m.apply e.ops
      return finish operation { m with destroyed := m.destroyed + e.destroyed }
        { f with regs := e.regs } e.res
  | .calling op =>
    match op.run env m f.contract f.regs with
    | .error .panic => .error .panic
    | .error (.err e) => .ok (failed m f.contract.Gas e)
    | .ok s =>
      .ok (.request operation m { contract := { f.contract with Gas := s.gas }, regs := s.regs }
        s.req s.pending)

/-- The operations and the gas of the price, and then the instruction. -/
def paid (c : Charged) : Except Crash (Outcome C) := do
  let m ← { m with callGasTemp := c.gas.callGasTemp }.apply c.gas.ops
  match c.contract.UseGas c.gas.cost with
  | none => return failed m c.contract.Gas .ErrOutOfGas
  | some contract =>
    executed env c.operation m
      { contract, regs := { f.regs with memory := c.gas.memory.Resize c.memorySize } }

/-- One turn of the loop. -/
def step : Except Crash (Outcome C) :=
  match charge env m f with
  | .error .panic => .error .panic
  | .error (.err e) => .ok (failed m f.contract.Gas e)
  | .ok c => paid env m f c

/-- The rest of a turn after a call. -/
def resume (operation : Operation) (f : Frame) (pending : Pending) (r : Returned C) :
    Except Crash (Outcome C) :=
  let gas := (f.contract.Gas + r.leftOverGas) % 2 ^ 64
  let contract := { f.contract with Gas := gas }
  match pending with
  | .call retOffset retSize =>
    let stack := (if r.err.isSome then 0 else 1) :: f.regs.stack
    if r.err = none ∨ r.err = some .ErrExecutionReverted then
      match f.regs.memory.Set (Word.uint64 retOffset) (Word.uint64 retSize) r.ret with
      | .error _ => .error .panic
      | .ok memory =>
        .ok (finish operation r.machine { contract, regs := { f.regs with stack, memory } } r.ret)
    else .ok (finish operation r.machine { contract, regs := { f.regs with stack } } r.ret)
  | .create =>
    let cleared :=
      if env.chainRules.IsHomestead ∧ r.err = some .ErrCodeStoreOutOfGas then true
      else decide (r.err ≠ none ∧ r.err ≠ some .ErrCodeStoreOutOfGas)
    let stack := (if cleared then 0 else addressWord r.contractAddr) :: f.regs.stack
    .ok (finish operation r.machine { contract, regs := { f.regs with stack } }
      (if r.err = some .ErrExecutionReverted then r.ret else []))
  | .create2 =>
    let stack := (if r.err ≠ none then 0 else addressWord r.contractAddr) :: f.regs.stack
    .ok (finish operation r.machine { contract, regs := { f.regs with stack } }
      (if r.err = some .ErrExecutionReverted then r.ret else []))

end Step

/-! ## §2 — The entry points, over a way to run a contract -/

def CallCreateDepth : Nat := 1024

def MaxCodeSize : Nat := 24576

def CreateDataGas : Nat := 200

def RunPrecompiledContract (p : PrecompiledContract) (m : Machine C) (input : Bytes)
    (suppliedGas : Nat) : Done C :=
  if suppliedGas < p.RequiredGas input then ⟨m, [], 0, some (.frame .ErrOutOfGas)⟩
  else
    match p.Run input with
    | .ok output => ⟨m, output, suppliedGas - p.RequiredGas input, none⟩
    | .error msg => ⟨m, [], suppliedGas - p.RequiredGas input, some (.precompiled msg)⟩

section Entry

/-- How a contract is run: `Run` with its input and whether it is read-only. -/
abbrev Runner (C : Type) := Machine C → Contract → Bytes → Bool → Except Crash (Done C)

variable (run : Runner C) (env : Env C) (m : Machine C)

/-- The identifier that `Snapshot` returns. -/
def snapshotId (m : Machine C) : Nat := m.session.next

/-- An error undoes what the call has done, and takes the gas unless it is a revert. -/
def settle (before : Machine C) (d : Done C) : Except Crash (Returned C) :=
  match d.err with
  | none => .ok ⟨d.machine, d.ret, default, d.gas, none⟩
  | some e => do
    let m ← d.machine.apply [.revertToSnapshot (snapshotId before)]
    return ⟨{ m with destroyed := before.destroyed }, d.ret, default,
      if e = .ErrExecutionReverted then d.gas else 0, some e⟩

/-- The callee: a precompiled contract or the code of an account. -/
def runCallee (m : Machine C) (addr : Address) (contract : Contract) (input : Bytes)
    (readOnly : Bool) : Except Crash (Done C) :=
  match env.precompile addr with
  | some p => .ok (RunPrecompiledContract p m input contract.Gas)
  | none => run m contract input readOnly

def Call (caller addr : Address) (input : Bytes) (gas value : Nat) : Except Crash (Returned C) :=
  if env.NoRecursion ∧ m.depth > 0 then .ok ⟨m, [], default, gas, none⟩
  else if m.depth > CallCreateDepth then .ok ⟨m, [], default, gas, some .ErrDepth⟩
  else if value ≠ 0 ∧ CanTransfer m.world caller value = false then
    .ok ⟨m, [], default, gas, some .ErrInsufficientBalance⟩
  else do
    let m1 ← m.apply [.snapshot]
    if Exist m.world addr = false ∧ (env.precompile addr).isNone ∧ env.chainRules.IsEIP158 ∧
        value = 0 then
      return ⟨m1, [], default, gas, none⟩
    else do
      let m2 ← m1.apply
        ((if Exist m.world addr then [] else [.createAccount addr]) ++ Transfer caller addr value)
      let code := GetCode m2.world addr
      let contract : Contract :=
        { CallerAddress := caller, self := addr, Code := code, Gas := gas, value }
      -- an account without code is not run
      if env.precompile addr = none ∧ code = [] then settle m ⟨m2, [], gas, none⟩
      else settle m (← runCallee run env m2 addr contract input false)

def CallCode (caller addr : Address) (input : Bytes) (gas value : Nat) :
    Except Crash (Returned C) :=
  if env.NoRecursion ∧ m.depth > 0 then .ok ⟨m, [], default, gas, none⟩
  else if m.depth > CallCreateDepth then .ok ⟨m, [], default, gas, some .ErrDepth⟩
  else if CanTransfer m.world caller value = false then
    .ok ⟨m, [], default, gas, some .ErrInsufficientBalance⟩
  else do
    let m1 ← m.apply [.snapshot]
    let contract : Contract :=
      { CallerAddress := caller, self := caller, Code := GetCode m.world addr, Gas := gas, value }
    settle m (← runCallee run env m1 addr contract input false)

/-- `EVM.DelegateCall`: the callee sees the caller and the value of the calling contract. -/
def DelegateCall (caller : Contract) (addr : Address) (input : Bytes) (gas : Nat) :
    Except Crash (Returned C) :=
  if env.NoRecursion ∧ m.depth > 0 then .ok ⟨m, [], default, gas, none⟩
  else if m.depth > CallCreateDepth then .ok ⟨m, [], default, gas, some .ErrDepth⟩
  else do
    let m1 ← m.apply [.snapshot]
    let contract : Contract :=
      { CallerAddress := caller.CallerAddress, self := caller.self, Code := GetCode m.world addr,
        Gas := gas, value := caller.value }
    settle m (← runCallee run env m1 addr contract input false)

/-- `EVM.StaticCall`: the callee is touched. -/
def StaticCall (caller addr : Address) (input : Bytes) (gas : Nat) : Except Crash (Returned C) :=
  if env.NoRecursion ∧ m.depth > 0 then .ok ⟨m, [], default, gas, none⟩
  else if m.depth > CallCreateDepth then .ok ⟨m, [], default, gas, some .ErrDepth⟩
  else do
    let m1 ← m.apply [.snapshot]
    let m2 ← m1.apply [.addBalance addr 0]
    let contract : Contract :=
      { CallerAddress := caller, self := addr, Code := GetCode m2.world addr, Gas := gas,
        value := 0 }
    settle m (← runCallee run env m2 addr contract input true)

def maxCodeSizeExceeded (ret : Bytes) : Bool :=
  env.chainRules.IsEIP158 && decide (ret.length > MaxCodeSize)

/-- The code of a creation that has succeeded is paid for and stored. -/
def storeCode (address : Address) (d : Done C) : Except Crash (Done C) :=
  if d.err = none ∧ maxCodeSizeExceeded env d.ret = false then
    let createDataGas := d.ret.length * CreateDataGas % 2 ^ 64
    if d.gas < createDataGas then .ok { d with err := some .ErrCodeStoreOutOfGas }
    else do
      let m ← d.machine.apply [.setCode address d.ret]
      return { d with machine := m, gas := d.gas - createDataGas }
  else .ok d

/-- The end of a creation: it is undone if it has failed, but before Homestead not for want of gas
for the code. -/
def deposit (before : Machine C) (address : Address) (d : Done C) : Except Crash (Returned C) := do
  let d ← storeCode env address d
  if maxCodeSizeExceeded env d.ret ∨
      (d.err ≠ none ∧ (env.chainRules.IsHomestead ∨ d.err ≠ some .ErrCodeStoreOutOfGas)) then do
    let m ← d.machine.apply [.revertToSnapshot (snapshotId before)]
    return ⟨{ m with destroyed := before.destroyed }, d.ret, address,
      if d.err = some .ErrExecutionReverted then d.gas else 0,
      if maxCodeSizeExceeded env d.ret ∧ d.err = none then some .ErrMaxCodeSizeExceeded else d.err⟩
  else return ⟨d.machine, d.ret, address, d.gas, d.err⟩

def create (caller : Address) (code : Bytes) (gas value : Nat) (address : Address) :
    Except Crash (Returned C) :=
  if m.depth > CallCreateDepth then .ok ⟨m, [], default, gas, some .ErrDepth⟩
  else if CanTransfer m.world caller value = false then
    .ok ⟨m, [], default, gas, some .ErrInsufficientBalance⟩
  else do
    let m1 ← m.apply [.setNonce caller (GetNonce m.world caller + 1)]
    let contractHash := GetCodeHash m1.world address
    if GetNonce m1.world address ≠ 0 ∨ (contractHash ≠ none ∧ contractHash ≠ some emptyCodeHash)
    then return ⟨m1, [], default, 0, some .ErrContractAddressCollision⟩
    else do
      let m2 ← m1.apply [.snapshot]
      let m3 ← m2.apply ([.createAccount address] ++
        (if env.chainRules.IsEIP158 then [.setNonce address 1] else []) ++
        Transfer caller address value)
      let contract : Contract :=
        { CallerAddress := caller, self := address, Code := code, Gas := gas, value }
      if env.NoRecursion ∧ m.depth > 0 then return ⟨m3, [], address, gas, none⟩
      else deposit env m1 address (← run m3 contract [] false)

def Create (caller : Address) (code : Bytes) (gas value : Nat) : Except Crash (Returned C) :=
  create run env m caller code gas value (env.CreateAddress caller (GetNonce m.world caller))

def Create2 (caller : Address) (code : Bytes) (gas endowment : Nat) (salt : Word) :
    Except Crash (Returned C) :=
  create run env m caller code gas endowment
    (env.CreateAddress2 caller (Word.toHash salt) (env.keccak256 code))

/-- The entry point of a request. -/
def perform (req : Request) : Except Crash (Returned C) :=
  match req.kind with
  | .Call => Call run env m req.caller.self req.addr req.input req.gas req.value
  | .CallCode => CallCode run env m req.caller.self req.addr req.input req.gas req.value
  | .DelegateCall => DelegateCall run env m req.caller req.addr req.input req.gas
  | .StaticCall => StaticCall run env m req.caller.self req.addr req.input req.gas
  | .Create => Create run env m req.caller.self req.input req.gas req.value
  | .Create2 => Create2 run env m req.caller.self req.input req.gas req.value req.salt

end Entry

/-! ## §3 — The loop -/

/-- The machine in a new frame. -/
def Machine.enter (m : Machine C) (readOnly : Bool) : Machine C :=
  { m with depth := m.depth + 1, readOnly := m.readOnly || readOnly, returnData := [] }

/-- The deferred functions of `Run`: the depth is put back, and the read-only flag if it was set for
this frame. -/
def Done.leave (m : Machine C) (readOnly : Bool) (d : Done C) : Done C :=
  { d with
    machine := { d.machine with
      depth := d.machine.depth - 1
      readOnly := if readOnly && !m.readOnly then false else d.machine.readOnly } }

/-- `Run` without its deferred functions, over its loop. -/
def runCode (loop : Machine C → Frame → Except Crash (Done C)) (m : Machine C) (contract : Contract)
    (input : Bytes) : Except Crash (Done C) :=
  if contract.Code = [] then .ok ⟨m, [], contract.Gas, none⟩
  else loop m { contract := { contract with Input := input } }

/-- `Run` over its loop. -/
def Run (loop : Machine C → Frame → Except Crash (Done C)) : Runner C :=
  fun m contract input readOnly =>
    (runCode loop (m.enter readOnly) contract input).map (Done.leave m readOnly)

/-- A turn of the loop, with the call it may make. -/
def turn (run : Runner C) (env : Env C) (m : Machine C) (f : Frame) : Except Crash (Outcome C) := do
  match ← step env m f with
  | .request operation m f req pending => do
    let r ← perform run env m req
    resume env operation f pending r
  | o => return o

/-- The loop, for so many turns. -/
def loop (env : Env C) : Nat → Machine C → Frame → Except Crash (Done C)
  | 0, _, _ => .error .diverged
  | n + 1, m, f => do
    match ← turn (Run (loop env n)) env m f with
    | .next m f => loop env n m f
    | .done d => return d
    | .request _ _ _ _ _ => .error .panic

/-- A request at the top level: the loop has a turn for each unit of gas and one more. -/
def evm (env : Env C) (m : Machine C) (req : Request) : Except Crash (Returned C) :=
  perform (Run (loop env (req.gas + 1))) env m req

end MxtChain.Vm
