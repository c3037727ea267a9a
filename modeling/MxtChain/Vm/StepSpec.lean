/-
# MxtChain.Vm.StepSpec — what a turn of the loop can do.

The inversion lemmas every later module uses: a turn fails, or its instruction is in the table of
the fork, finds the stack it needs, is allowed to write, has been paid for and is executed. What is
true of every entry of every table is checked once, by evaluation.
-/
import MxtChain.Lib.Except
import MxtChain.Vm.Interpreter

namespace MxtChain.Vm

open State Lib

set_option linter.unusedSectionVars false

variable {C : Type} [CodeHash C] [DecidableEq C] {e : Crash} {env : Env C} {f : Frame}
  {m m' : Machine C} {operation : Operation} {o : Outcome C} {ops : List Op} {contract : Contract}
  {c : Charged} {r : Regs} {s : Suspended} {op : Calling} {kind : CallKind}

/-! ## §1 — The tables -/

/-- What holds of every entry of every instruction set holds of the operation of an opcode. -/
theorem of_all_entries {p : UInt8 × Operation → Bool}
    (h : (instructionSets.all fun jt => jt.all p) = true) {rules : Rules} {op : UInt8}
    (hop : (jumpTable rules).lookup op = some operation) : p (op, operation) = true := by
  have hjt := List.all_eq_true.mp h _ (jumpTable_mem rules)
  obtain ⟨l1, l2, heq, -⟩ := List.lookup_eq_some_iff.mp hop
  refine List.all_eq_true.mp hjt _ ?_
  rw [heq]
  exact List.mem_append_right _ List.mem_cons_self

/-! ## §2 — Gas -/

theorem UseGas_eq_some {c c' : Contract} {gas : Nat} :
    c.UseGas gas = some c' ↔ gas ≤ c.Gas ∧ { c with Gas := c.Gas - gas } = c' := by
  unfold Contract.UseGas
  rw [Option.ite_none_left_eq_some, Option.some_inj, Nat.not_lt]

/-- Operations on the state database change nothing else of the machine. -/
theorem apply_eq_ok : m.apply ops = .ok m' ↔
      ∃ session, m.session.run ops = some session ∧ m' = { m with session } := by
  unfold Machine.apply
  cases m.session.run ops with
  | none => simp
  | some session => simp [eq_comm]

theorem dynamicCost_cases {stack : Stack} {mem : Memory} {memorySize : Nat}
    {g : GasResult} (h : dynamicCost env m operation contract stack mem memorySize = .ok g) :
    (operation.dynamicGas = none ∧ g = ⟨0, mem, m.callGasTemp, []⟩) ∨
    ∃ func, operation.dynamicGas = some func ∧
      func.eval env m contract stack mem memorySize = .ok g := by
  unfold dynamicCost at h
  split at h
  · next hd =>
    cases h
    exact .inl ⟨hd, rfl⟩
  next func hd =>
  split at h
  · cases h
  · cases h
  · next heval =>
    cases h
    exact .inr ⟨func, hd, heval⟩

/-! ## §3 — A turn -/

/-- The instruction of a turn has passed the checks, at a price. -/
structure Admitted (env : Env C) (m : Machine C) (f : Frame) (c : Charged) : Prop where
  lookup : (jumpTable env.chainRules).lookup (f.contract.GetOp f.regs.pc) = some c.operation
  minStack : c.operation.minStack ≤ f.regs.stack.length
  maxStack : f.regs.stack.length ≤ c.operation.maxStack
  writes : writeProtected env m (f.contract.GetOp f.regs.pc) c.operation f.regs.stack = .ok false
  constantGas : f.contract.UseGas c.operation.constantGas = some c.contract
  memorySize : requestedMemory c.operation f.regs.stack = .ok c.memorySize
  dynamicGas : dynamicCost env m c.operation c.contract f.regs.stack f.regs.memory c.memorySize =
    .ok c.gas

theorem admitted_of_charge (h : charge env m f = .ok c) : Admitted env m f c := by
  unfold charge at h
  dsimp only at h
  split at h
  · cases h
  next operation hop =>
  split at h
  · cases h
  next hmin =>
  split at h
  · cases h
  next hmax =>
  obtain ⟨b, hb, h⟩ := bind_ok.mp h
  split at h
  · cases h
  next hwrite =>
  split at h
  · cases h
  next contract hgas =>
  obtain ⟨memorySize, hmem, h⟩ := bind_ok.mp h
  obtain ⟨gas, hdyn, h⟩ := bind_ok.mp h
  cases h
  refine ⟨hop, Nat.not_lt.mp hmin, Nat.not_lt.mp hmax, ?_, hgas, hmem, hdyn⟩
  rw [hb, Bool.not_eq_true] at *
  rw [hwrite]

/-- The instruction of a turn has been paid for: the machine and the frame it is executed in. -/
structure Paid (env : Env C) (m : Machine C) (f : Frame) (c : Charged) (m' : Machine C)
    (f' : Frame) : Prop extends Admitted env m f c where
  ops : { m with callGasTemp := c.gas.callGasTemp }.apply c.gas.ops = .ok m'
  gas : f'.contract.Gas + c.operation.constantGas + c.gas.cost = f.contract.Gas
  contract : f'.contract = { f.contract with Gas := f'.contract.Gas }
  regs : f'.regs = { f.regs with memory := c.gas.memory.Resize c.memorySize }

theorem paid_of_charge (hc : charge env m f = .ok c)
    (hm : { m with callGasTemp := c.gas.callGasTemp }.apply c.gas.ops = .ok m')
    (hpay : c.contract.UseGas c.gas.cost = some contract) :
    Paid env m f c m'
      { contract, regs := { f.regs with memory := c.gas.memory.Resize c.memorySize } } := by
  have ha := admitted_of_charge hc
  obtain ⟨hle', heq⟩ := UseGas_eq_some.mp ha.constantGas
  have hgas : c.contract.Gas = f.contract.Gas - c.operation.constantGas := by rw [← heq]
  obtain ⟨hle, rfl⟩ := UseGas_eq_some.mp hpay
  refine ⟨ha, hm, ?_, ?_, rfl⟩
  · change c.contract.Gas - c.gas.cost + _ + _ = _
    omega
  · rw [← heq]

/-- **A turn fails or executes an instruction that has been paid for.** A turn that fails has
changed the refund counter at most. -/
theorem step_cases (h : step env m f = .ok o) :
    (∃ temp ops m' gas e, (ops = [] ∨ ∃ c, Admitted env m f c ∧ ops = c.gas.ops) ∧
      { m with callGasTemp := temp }.apply ops = .ok m' ∧ gas ≤ f.contract.Gas ∧
      o = failed m' gas e) ∨
    ∃ c m' f', Paid env m f c m' f' ∧ executed env c.operation m' f' = .ok o := by
  unfold step at h
  split at h
  · cases h
  · next e _ =>
    cases h
    exact .inl ⟨m.callGasTemp, [], m, _, e, .inl rfl, rfl, le_rfl, rfl⟩
  next c hc =>
  have ha := admitted_of_charge hc
  obtain ⟨-, heq⟩ := UseGas_eq_some.mp ha.constantGas
  have hgas : c.contract.Gas ≤ f.contract.Gas := by
    rw [← heq]
    exact Nat.sub_le _ _
  obtain ⟨m', hm, h⟩ := bind_ok.mp h
  split at h
  · cases h
    exact .inl ⟨c.gas.callGasTemp, c.gas.ops, m', _, _, .inr ⟨c, ha, rfl⟩, hm, hgas, rfl⟩
  · next contract hpay => exact .inr ⟨c, m', _, paid_of_charge hc hm hpay, h⟩

/-- **An executed instruction** fails, ends the turn or calls another contract. -/
theorem executed_cases (h : executed env operation m f = .ok o) :
    (∃ e, o = failed m f.contract.Gas e) ∨
    (∃ op e m', operation.execute = .instr op ∧ op.run env m f.contract f.regs = .ok e ∧
      m.apply e.ops = .ok m' ∧
      o = finish operation { m' with destroyed := m'.destroyed + e.destroyed }
        { f with regs := e.regs } e.res) ∨
    ∃ op s, operation.execute = .calling op ∧ op.run env m f.contract f.regs = .ok s ∧
      o = .request operation m { contract := { f.contract with Gas := s.gas }, regs := s.regs }
        s.req s.pending := by
  unfold executed at h
  split at h
  · next op hop =>
    split at h
    · cases h
    · next e _ =>
      cases h
      exact .inl ⟨e, rfl⟩
    next e hrun =>
    obtain ⟨m', hm, h⟩ := bind_ok.mp h
    cases h
    exact .inr (.inl ⟨op, e, m', hop, hrun, hm, rfl⟩)
  · next op hop =>
    split at h
    · cases h
    · next e _ =>
      cases h
      exact .inl ⟨e, rfl⟩
    · next s hrun =>
      cases h
      exact .inr (.inr ⟨op, s, hop, hrun, rfl⟩)

theorem apply_error (h : m.apply ops = .error e) : e = .statePanic := by
  unfold Machine.apply at h
  split at h
  · cases h
  · cases h
    rfl

/-- The execution function of an operation panics. -/
def Operation.Panics (env : Env C) (operation : Operation) (m : Machine C) (f : Frame) : Prop :=
  match operation.execute with
  | .instr op => op.run env m f.contract f.regs = .error .panic
  | .calling op => op.run env m f.contract f.regs = .error .panic

theorem executed_error (h : executed env operation m f = .error e) :
    e = .statePanic ∨ e = .panic ∧ operation.Panics env m f := by
  unfold executed at h
  cases hop : operation.execute with
  | instr op =>
    simp only [Operation.Panics, hop] at h ⊢
    split at h
    · next hrun =>
      cases h
      exact .inr ⟨rfl, hrun⟩
    · cases h
    · rcases bind_error.mp h with h | ⟨m', -, h⟩
      · exact .inl (apply_error h)
      · cases h
  | calling op =>
    simp only [Operation.Panics, hop] at h ⊢
    split at h
    · next hrun =>
      cases h
      exact .inr ⟨rfl, hrun⟩
    · cases h
    · cases h

/-- **A turn without a result**: the state database panics, or the checks or the execution function
do. -/
theorem step_error (h : step env m f = .error e) :
    e = .statePanic ∨ e = .panic ∧ (charge env m f = .error .panic ∨
      ∃ c m' f', Paid env m f c m' f' ∧ c.operation.Panics env m' f') := by
  unfold step at h
  split at h
  · next hc =>
    cases h
    exact .inr ⟨rfl, .inl hc⟩
  · cases h
  next c hc =>
  rcases bind_error.mp h with h | ⟨m', hm, h⟩
  · exact .inl (apply_error h)
  split at h
  · cases h
  next contract hpay =>
  rcases executed_error h with h | ⟨he, hp⟩
  · exact .inl h
  · exact .inr ⟨he, .inr ⟨c, m', _, paid_of_charge hc hm hpay, hp⟩⟩

/-- The end of a turn returns from the frame or goes on with it. -/
theorem finish_cases (operation : Operation) (m : Machine C) (f : Frame) (res : Bytes) :
    ∃ data : Bytes, (operation.reverts = true ∧ finish operation m f res =
        .done ⟨{ m with returnData := data }, res, f.contract.Gas, some .ErrExecutionReverted⟩) ∨
      (operation.reverts = false ∧ operation.halts = true ∧ finish operation m f res =
        .done ⟨{ m with returnData := data }, res, f.contract.Gas, none⟩) ∨
      (operation.reverts = false ∧ operation.halts = false ∧ ∃ pc, finish operation m f res =
        .next { m with returnData := data } { f with regs := { f.regs with pc } }) := by
  have hm : ∃ data : Bytes, (if operation.returns then { m with returnData := res } else m) =
        { m with returnData := data } := by
    split
    · exact ⟨res, rfl⟩
    · exact ⟨m.returnData, rfl⟩
  obtain ⟨data, hm⟩ := hm
  refine ⟨data, ?_⟩
  unfold finish
  simp only [hm]
  cases operation.reverts with
  | true => exact .inl ⟨rfl, rfl⟩
  | false =>
    refine .inr ?_
    cases operation.halts with
    | true => exact .inl ⟨rfl, rfl, rfl⟩
    | false =>
      refine .inr ⟨rfl, rfl, ?_⟩
      cases operation.jumps with
      | true => exact ⟨f.regs.pc, rfl⟩
      | false => exact ⟨f.regs.pc + 1, rfl⟩

/-- What the rest of a turn does after a call: a word is on the stack, the memory may have got the
result, and the gas that is left over is back. -/
theorem resume_cases {pending : Pending} {r : Returned C}
    (h : resume env operation f pending r = .ok o) : ∃ (x : Word) (memory : Memory) (res : Bytes),
      (memory = f.regs.memory ∨ ∃ retOffset retSize, pending = .call retOffset retSize ∧
        f.regs.memory.Set (Word.uint64 retOffset) (Word.uint64 retSize) r.ret = .ok memory) ∧
      o = finish operation r.machine
        { contract :=
            { f.contract with Gas := (f.contract.Gas + r.leftOverGas) % 2 ^ 64 }
          regs := { f.regs with stack := x :: f.regs.stack, memory } } res := by
  unfold resume at h
  dsimp only at h
  split at h
  · next retOffset retSize =>
    split at h
    · split at h
      · cases h
      · next memory hset =>
        cases h
        exact ⟨_, memory, r.ret, .inr ⟨_, _, rfl, hset⟩, rfl⟩
    · cases h
      exact ⟨_, f.regs.memory, r.ret, .inl rfl, rfl⟩
  · cases h
    exact ⟨_, f.regs.memory, _, .inl rfl, rfl⟩
  · cases h
    exact ⟨_, f.regs.memory, _, .inl rfl, rfl⟩

/-! ## §4 — Calls of other contracts -/

/-- The calls an instruction can ask for. -/
inductive Requested (m : Machine C) (contract : Contract) (r : Regs) : Calling → Suspended → Prop
  /-- `CALL` and `CALLCODE` -/
  | value {op : Calling} {kind : CallKind} {x addr v inOffset inSize retOffset retSize : Word}
      {st : Stack} {args : Bytes}
      (hop : op = .opCall ∧ kind = .Call ∨ op = .opCallCode ∧ kind = .CallCode)
      (hst : r.stack = x :: addr :: v :: inOffset :: inSize :: retOffset :: retSize :: st)
      (hargs : readRange r inOffset inSize = .ok args) :
      Requested m contract r op ⟨{ r with stack := st }, contract.Gas,
        { kind, caller := contract, addr := Word.toAddress addr, input := args,
          gas := stipend m.callGasTemp v, value := v.toNat, salt := 0 }, .call retOffset retSize⟩
  /-- `DELEGATECALL` and `STATICCALL` -/
  | plain {op : Calling} {kind : CallKind} {x addr inOffset inSize retOffset retSize : Word}
      {st : Stack} {args : Bytes}
      (hop : op = .opDelegateCall ∧ kind = .DelegateCall ∨ op = .opStaticCall ∧ kind = .StaticCall)
      (hst : r.stack = x :: addr :: inOffset :: inSize :: retOffset :: retSize :: st)
      (hargs : readRange r inOffset inSize = .ok args) :
      Requested m contract r op ⟨{ r with stack := st }, contract.Gas,
        { kind, caller := contract, addr := Word.toAddress addr, input := args,
          gas := m.callGasTemp, value := 0, salt := 0 }, .call retOffset retSize⟩
  /-- `CREATE` -/
  | create {v offset size : Word} {st : Stack} {input : Bytes} {gas : Nat}
      (hst : r.stack = v :: offset :: size :: st) (hinput : readRange r offset size = .ok input)
      (hgas : gas ≤ contract.Gas) :
      Requested m contract r .opCreate ⟨{ r with stack := st }, contract.Gas - gas,
        { kind := .Create, caller := { contract with Gas := contract.Gas - gas },
          addr := default, input, gas, value := v.toNat, salt := 0 }, .create⟩
  /-- `CREATE2` -/
  | create2 {v offset size salt : Word} {st : Stack} {input : Bytes} {gas : Nat}
      (hst : r.stack = v :: offset :: size :: salt :: st)
      (hinput : readRange r offset size = .ok input) (hgas : gas ≤ contract.Gas) :
      Requested m contract r .opCreate2 ⟨{ r with stack := st }, contract.Gas - gas,
        { kind := .Create2, caller := { contract with Gas := contract.Gas - gas },
          addr := default, input, gas, value := v.toNat, salt }, .create2⟩

theorem requested_of_valueCall
    (hop : op = .opCall ∧ kind = .Call ∨ op = .opCallCode ∧ kind = .CallCode)
    (h : valueCall m contract r kind = .ok s) : Requested m contract r op s := by
  unfold valueCall at h
  split at h
  · next hst =>
    obtain ⟨args, hargs, h⟩ := bind_ok.mp h
    cases h
    exact .value hop hst hargs
  · cases h

theorem requested_of_plainCall
    (hop : op = .opDelegateCall ∧ kind = .DelegateCall ∨ op = .opStaticCall ∧ kind = .StaticCall)
    (h : plainCall m contract r kind = .ok s) : Requested m contract r op s := by
  unfold plainCall at h
  split at h
  · next hst =>
    obtain ⟨args, hargs, h⟩ := bind_ok.mp h
    cases h
    exact .plain hop hst hargs
  · cases h

theorem requested_of_opCreate (h : opCreate env contract r = .ok s) :
    Requested m contract r .opCreate s := by
  unfold opCreate at h
  split at h
  · next hst =>
    obtain ⟨input, hinput, h⟩ := bind_ok.mp h
    cases h
    refine .create hst hinput ?_
    split
    · exact Nat.sub_le _ _
    · exact le_rfl
  · cases h

theorem requested_of_opCreate2 (h : opCreate2 contract r = .ok s) :
    Requested m contract r .opCreate2 s := by
  unfold opCreate2 at h
  split at h
  · next hst =>
    obtain ⟨input, hinput, h⟩ := bind_ok.mp h
    cases h
    exact .create2 hst hinput (Nat.sub_le _ _)
  · cases h

theorem requested_of_run (h : op.run env m contract r = .ok s) : Requested m contract r op s := by
  cases op with
  | opCreate => exact requested_of_opCreate h
  | opCreate2 => exact requested_of_opCreate2 h
  | opCall => exact requested_of_valueCall (.inl ⟨rfl, rfl⟩) h
  | opCallCode => exact requested_of_valueCall (.inr ⟨rfl, rfl⟩) h
  | opDelegateCall => exact requested_of_plainCall (.inl ⟨rfl, rfl⟩) h
  | opStaticCall => exact requested_of_plainCall (.inr ⟨rfl, rfl⟩) h

end MxtChain.Vm
