/-
# MxtChain.Vm.CallGas — all but one 64th.

Under EIP 150 a call passes on what it is asked to, but no more than all but one 64th of the gas
that is left after the base price. `callGas` subtracts the base price without a check. If the
price is not affordable the difference wraps around, and with it what the callee would get; the sum
of the two is then more than the frame has, and the opcode runs out of gas.
-/
import MxtChain.Vm.GasSpec

namespace MxtChain.Vm

open State Lib

variable {C : Type} [CodeHash C] [DecidableEq C]

/-- The most that a call passes on of the gas that is left. -/
def allButOne64th (r : Nat) : Nat := r - r / 64

/-- What the callee gets on top of that, if value is sent to it. -/
def Calling.stipend (stack : Stack) : Calling → Nat
  | .opCall | .opCallCode => if stack[2]?.any (· ≠ 0) then CallStipend else 0
  | _ => 0

/-- The checks of a turn up to the dynamic gas have been passed. -/
structure Offered (env : Env C) (m : Machine C) (f : Frame) (operation : Operation)
    (contract : Contract) (memorySize : Nat) : Prop where
  lookup : (jumpTable env.chainRules).lookup (f.contract.GetOp f.regs.pc) = some operation
  minStack : operation.minStack ≤ f.regs.stack.length
  maxStack : f.regs.stack.length ≤ operation.maxStack
  writes : writeProtected env m (f.contract.GetOp f.regs.pc) operation f.regs.stack = .ok false
  constantGas : f.contract.UseGas operation.constantGas = some contract
  memorySize : requestedMemory operation f.regs.stack = .ok memorySize

section

variable {env : Env C} {m m' : Machine C} {f f' : Frame} {c : Charged} {operation : Operation}
  {contract : Contract} {memorySize base fee temp : Nat} {callCost : Word} {op : Calling}

theorem Offered.charge_eq (h : Offered env m f operation contract memorySize) :
    charge env m f = (dynamicCost env m operation contract f.regs.stack f.regs.memory
      memorySize).map fun gas => { operation, contract, memorySize, gas } := by
  simp only [charge, h.lookup, if_neg (Nat.not_lt.mpr h.minStack),
    if_neg (Nat.not_lt.mpr h.maxStack), h.writes, h.constantGas, h.memorySize, bind, Except.bind,
    Bool.false_eq_true, if_false]
  cases dynamicCost env m operation contract f.regs.stack f.regs.memory memorySize <;> rfl

/-- Without a wrap, `callGas` is the smaller one of the two amounts. -/
theorem callGas_eq_min (hle : base ≤ contract.Gas) (hlt : contract.Gas < 2 ^ 64)
    (h : callGas true contract.Gas base callCost = .ok temp) :
    temp = min callCost.toNat (allButOne64th (contract.Gas - base)) := by
  have hsub : sub64 contract.Gas base = contract.Gas - base := by
    unfold sub64
    omega
  unfold callGas at h
  unfold allButOne64th
  simp only [true_and] at h
  by_cases hu : Word.isUint64 callCost = true
  · rw [Word.uint64_of_isUint64 hu, hu] at h
    simp only [Bool.true_eq_false, false_or, Bool.not_true, Bool.false_eq_true, if_false] at h
    split at h
    · cases h
      omega
    · cases h
      omega
  · -- more than 64 bits are more than there is
    have hbig : 2 ^ 64 ≤ callCost.toNat := by
      by_contra hcon
      exact hu (decide_eq_true (Nat.not_le.mp hcon))
    rw [if_pos (.inl (Bool.eq_false_iff.mpr hu))] at h
    cases h
    omega

/-- A call that is paid for has not wrapped around. -/
theorem Paid.forwarded (h : Paid env m f c m' f') (h150 : env.chainRules.IsEIP150 = true)
    (hlt : f.contract.Gas < 2 ^ 64) (hop : c.operation.execute = .calling op)
    (hbase : op.gasFunc.basePrice env m f.regs.stack = some base) :
    ∃ fee mem' requested, memoryGasCost f.regs.memory c.memorySize = .ok (fee, mem') ∧
      f.regs.stack[0]? = some requested ∧ base + fee ≤ c.contract.Gas ∧
      c.gas.callGasTemp = min requested.toNat (allButOne64th (c.contract.Gas - (base + fee))) ∧
      c.gas.cost = base + fee + c.gas.callGasTemp := by
  obtain ⟨-, heval⟩ := h.calling hop
  obtain ⟨hconst, heq⟩ := UseGas_eq_some.mp h.constantGas
  have hgas : c.contract.Gas = f.contract.Gas - c.operation.constantGas := by rw [← heq]
  have hpaid := h.gas
  obtain ⟨fee, temp, mem', callCost, hfee, hcost, htemp, hg⟩ := call_quoted hbase heval
  rw [hg] at hpaid ⊢
  dsimp only at hpaid ⊢
  rw [h150] at htemp
  have hle : base + fee ≤ c.contract.Gas := by omega
  exact ⟨fee, mem', callCost, hfee, hcost, hle, callGas_eq_min hle (by omega) htemp, rfl⟩

/-- The stipend is not lost to a wrap either. -/
theorem request_gas_eq (h : Paid env m f c m' f') (hlt : f.contract.Gas < 2 ^ 64)
    (hop : c.operation.execute = .calling op)
    (hbase : op.gasFunc.basePrice env m f.regs.stack = some base) {s : Suspended}
    (hs : Requested m' f'.contract f'.regs op s) :
    s.req.gas = c.gas.callGasTemp + op.stipend f.regs.stack := by
  have hpaid := h.gas
  have htemp := h.callGasTemp
  have hstack : f'.regs.stack = f.regs.stack := by rw [h.regs]
  have hle := call_cost_le hbase (h.calling hop).2
  cases hs with
  | value hkind hst hargs =>
    rename_i v _ _ _ _ _ _
    rw [hstack] at hst
    have hv : valueGas v ≤ base := by
      rcases hkind with ⟨rfl, -⟩ | ⟨rfl, -⟩
      · rw [hst] at hbase
        exact Nat.le_of_add_left_le (Option.some.inj hbase).le
      · rw [hst] at hbase
        exact (Option.some.inj hbase).le
    have hstip : op.stipend f.regs.stack = if v ≠ 0 then CallStipend else 0 := by
      rcases hkind with ⟨rfl, -⟩ | ⟨rfl, -⟩ <;> simp [Calling.stipend, hst]
    change Vm.stipend m'.callGasTemp v = _
    rw [htemp, hstip]
    unfold Vm.stipend
    unfold valueGas CallValueTransferGas at hv
    split
    · next hne =>
      rw [if_pos hne] at hv
      unfold CallStipend
      exact Nat.mod_eq_of_lt (by omega)
    · rfl
  | plain hkind hst hargs =>
    have hstip : op.stipend f.regs.stack = 0 := by
      rcases hkind with ⟨rfl, -⟩ | ⟨rfl, -⟩ <;> rfl
    rw [hstip]
    exact htemp
  | create hst hinput hle | create2 hst hinput hle => cases hbase

theorem step_unaffordable (h : Offered env m f operation contract memorySize)
    (hop : operation.execute = .calling op)
    (hbase : op.gasFunc.basePrice env m f.regs.stack = some base)
    (hreq : f.regs.stack[0]? = some callCost)
    (hdear : ∀ fee mem', memoryGasCost f.regs.memory memorySize = .ok (fee, mem') →
      contract.Gas < base + fee) :
    ∃ m' gas, step env m f = .ok (failed m' gas .ErrOutOfGas) := by
  have hpriced := callPriced_of_lookup h.lookup
  simp only [Operation.callPriced, hop, Bool.and_eq_true, decide_eq_true_eq] at hpriced
  have hcharge := h.charge_eq
  unfold dynamicCost at hcharge
  rw [hpriced.2] at hcharge
  dsimp only at hcharge
  unfold step
  cases heval : op.gasFunc.eval env m contract f.regs.stack f.regs.memory memorySize with
  | error e =>
    rw [heval] at hcharge
    cases e with
    | panic =>
      have hneed := (quoted_eval op.gasFunc).of_error heval rfl
      have hpos := (List.getElem?_eq_some_iff.mp hreq).1
      have htwo : ∀ {v : Word}, f.regs.stack[2]? = some v → 2 < f.regs.stack.length :=
        fun h => (List.getElem?_eq_some_iff.mp h).1
      cases op with
      | opCall =>
        obtain ⟨v, hv, -⟩ := Option.bind_eq_some_iff.mp hbase
        exact absurd hneed (Nat.not_lt.mpr (htwo hv))
      | opCallCode =>
        obtain ⟨v, hv, -⟩ := Option.map_eq_some_iff.mp hbase
        exact absurd hneed (Nat.not_lt.mpr (htwo hv))
      | opDelegateCall | opStaticCall => exact absurd hneed (Nat.not_lt.mpr hpos)
      | _ => cases hbase
    | err e =>
      rw [hcharge]
      exact ⟨m, _, rfl⟩
  | ok g =>
    rw [heval] at hcharge
    rw [hcharge]
    obtain ⟨fee, temp, mem', callCost, hfee, -, -, rfl⟩ := call_quoted hbase heval
    have hlt := hdear fee mem' hfee
    have hnone : contract.UseGas (base + fee + temp) = none := if_pos (by omega)
    refine ⟨{ m with callGasTemp := temp }, contract.Gas, ?_⟩
    change paid env m f ⟨operation, contract, memorySize, _⟩ = _
    unfold paid
    rw [hnone]
    rfl

end

/-- **All but one 64th.** Under EIP 150, for every amount of gas, base price and requested amount:
a call that is paid for passes on the smaller one of the requested amount and all but one 64th of
what is left after the base price and the growth of the memory, and the stipend on top; and if these
two prices exceed what the frame has, the opcode fails for want of gas. -/
theorem call_gas_forwarded (env : Env C) (m : Machine C) (f : Frame)
    (h150 : env.chainRules.IsEIP150 = true) (hlt : f.contract.Gas < 2 ^ 64) :
    (∀ c m' f' op base s, Paid env m f c m' f' → c.operation.execute = .calling op →
      op.gasFunc.basePrice env m f.regs.stack = some base →
      op.run env m' f'.contract f'.regs = .ok s →
      ∃ fee mem' requested, memoryGasCost f.regs.memory c.memorySize = .ok (fee, mem') ∧
        f.regs.stack[0]? = some requested ∧ base + fee ≤ c.contract.Gas ∧
        s.req.gas = min requested.toNat (allButOne64th (c.contract.Gas - (base + fee))) +
          op.stipend f.regs.stack) ∧
    ∀ operation contract memorySize op base requested,
      Offered env m f operation contract memorySize → operation.execute = .calling op →
      op.gasFunc.basePrice env m f.regs.stack = some base → f.regs.stack[0]? = some requested →
      (∀ fee mem', memoryGasCost f.regs.memory memorySize = .ok (fee, mem') →
        contract.Gas < base + fee) →
      ∃ m' gas, step env m f = .ok (failed m' gas .ErrOutOfGas) := by
  constructor
  · intro c m' f' op base s hpaid hop hbase hrun
    obtain ⟨fee, mem', requested, hfee, hreq, hle, htemp, -⟩ := hpaid.forwarded h150 hlt hop hbase
    refine ⟨fee, mem', requested, hfee, hreq, hle, ?_⟩
    rw [request_gas_eq hpaid hlt hop hbase (requested_of_run hrun), htemp]
  · intro operation contract memorySize op base requested hoffered hop hbase hreq hdear
    exact step_unaffordable hoffered hop hbase hreq hdear

/-- A frame that is about to make a call with so much gas, and one unit of value if it is not
delegated. -/
def aboutToCall (op : UInt8) : Frame :=
  { frameOf [op] 1000 with regs := { stack := [5000, 7, 1, 0, 0, 0, 0] } }

/-- Of a thousand units of gas a delegated call costs seven hundred, and 296 of the others are
passed on; a call with a value is out of reach. -/
theorem call_gas_forwarded_sample :
    let env := sampleEnv { IsHomestead := true, IsEIP150 := true }
    (∃ c m' f' s, Paid env (machineOf emptyWorld) (aboutToCall 0xf4) c m' f' ∧
      Calling.opDelegateCall.run env m' f'.contract f'.regs = .ok s ∧ s.req.gas = 296) ∧
    ∃ m' gas, step env (machineOf emptyWorld) (aboutToCall 0xf1) =
      .ok (failed m' gas .ErrOutOfGas) := by
  intro env
  constructor
  · have hpaid : Paid env (machineOf emptyWorld) (aboutToCall 0xf4) _ _ _ :=
      paid_of_charge rfl rfl (UseGas_eq_some.mpr ⟨by decide +kernel, rfl⟩)
    refine ⟨_, _, _, _, hpaid, rfl, ?_⟩
    obtain ⟨fee, mem', requested, hfee, hreq, -, hgas⟩ :=
      (call_gas_forwarded env (machineOf emptyWorld) (aboutToCall 0xf4) rfl (by decide)).1
        _ _ _ .opDelegateCall 0 _ hpaid rfl rfl rfl
    cases hfee
    cases hreq
    exact hgas
  · refine (call_gas_forwarded env (machineOf emptyWorld) (aboutToCall 0xf1) rfl (by decide)).2
      _ _ 0 .opCall _ 5000 ⟨rfl, by decide, by decide, rfl, rfl, rfl⟩ rfl rfl rfl
      fun fee mem' h => ?_
    cases h
    decide +kernel

end MxtChain.Vm
