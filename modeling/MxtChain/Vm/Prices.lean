/-
# MxtChain.Vm.Prices — what the gas functions return.

One statement (`quoted_eval`) says all that a gas function can return and when it panics: the growth
of the memory with the price of the data, the growth of the memory with the base price of a call and
the gas of the callee, or a price that leaves the memory alone. What the later modules need of a
price is read off it: that it is positive, that it holds what the callee gets, what it does to the
refund counter and to the memory.
-/
import MxtChain.Lib.Except
import MxtChain.Vm.Gas

namespace MxtChain.Vm

open State Lib

/-! ## §1 — Attributes of the gas functions -/

/-- An operation on the refund counter. -/
def refundOp : Op → Bool
  | .addRefund _ | .subRefund _ => true
  | _ => false

namespace GasFunc

/-- The gas functions that work on the refund counter. -/
def refunds : GasFunc → Bool
  | .gasSStore | .gasSStoreEIP2200 | .gasSelfdestruct => true
  | _ => false

/-- The gas functions that never return zero. -/
def positive : GasFunc → Bool
  | .gasSStore | .gasSStoreEIP2200 | .makeGasLog _ | .gasExpFrontier | .gasExpEIP158 => true
  | _ => false

/-- The number of stack items a gas function reads. -/
def need : GasFunc → Nat
  | .memoryCopierGas stackpos => stackpos + 1
  | .gasSStore | .gasSStoreEIP2200 | .makeGasLog _ | .gasSha3 => 2
  | .gasExpFrontier | .gasExpEIP158 => 2
  | .pureMemoryGascost => 0
  | .gasCreate2 | .gasCall | .gasCallCode => 3
  | .gasDelegateCall | .gasStaticCall | .gasSelfdestruct => 1

/-- The gas function prices the growth of the memory. -/
def pricesMemory : GasFunc → Bool
  | .gasSStore | .gasSStoreEIP2200 | .gasExpFrontier | .gasExpEIP158 | .gasSelfdestruct => false
  | _ => true

/-- The price of the data of an instruction that pays for it, as a number without a bound. -/
def dataPrice (stack : Stack) : GasFunc → Option Nat
  | .pureMemoryGascost => some 0
  | .memoryCopierGas stackpos => stack[stackpos]?.map fun n => toWordSize n.toNat * CopyGas
  | .gasSha3 => stack[1]?.map fun n => toWordSize n.toNat * Sha3WordGas
  | .gasCreate2 => stack[2]?.map fun n => toWordSize n.toNat * Sha3WordGas
  | .makeGasLog n => stack[1]?.map fun size => LogGas + n * LogTopicGas + size.toNat * LogDataGas
  | _ => none

end GasFunc

/-- What a call with a value pays for the value. -/
def valueGas (v : Word) : Nat := if v ≠ 0 then CallValueTransferGas else 0

section

variable {C α : Type} [CodeHash C] [DecidableEq C] {stack : Stack}
  {n memorySize k fee pos wordGas base expByte : Nat} {env : Env C} {m : Machine C}
  {contract : Contract} {mem mem' : Memory} {g : GasResult} {func : GasFunc}

/-- What a call pays for an account that it may create. -/
def newAccountGas (env : Env C) (m : Machine C) (v addr : Word) : Nat :=
  if env.chainRules.IsEIP158 then
    if v ≠ 0 ∧ Empty m.world (Word.toAddress addr) then CallNewAccountGas else 0
  else if !Exist m.world (Word.toAddress addr) then CallNewAccountGas else 0

/-- The base price of a call, without the growth of the memory. -/
def GasFunc.basePrice (env : Env C) (m : Machine C) (stack : Stack) : GasFunc → Option Nat
  | .gasCall => stack[2]?.bind fun v => stack[1]?.map fun addr =>
    newAccountGas env m v addr + valueGas v
  | .gasCallCode => stack[2]?.map valueGas
  | .gasDelegateCall | .gasStaticCall => some 0
  | _ => none

/-! ## §2 — The statement -/

/-- What a gas function returns. -/
inductive Quoted (env : Env C) (m : Machine C) (contract : Contract) (stack : Stack) (mem : Memory)
    (memorySize : Nat) (func : GasFunc) : GasResult → Prop
  /-- the growth of the memory, and the data -/
  | data {fee price : Nat} {mem' : Memory} (hfee : memoryGasCost mem memorySize = .ok (fee, mem'))
      (hprice : func.dataPrice stack = some price) (hfit : fee + price < 2 ^ 64) :
      Quoted env m contract stack mem memorySize func ⟨fee + price, mem', m.callGasTemp, []⟩
  /-- the base price, the growth of the memory, and the gas of the callee -/
  | call {base fee temp : Nat} {mem' : Memory} {callCost : Word}
      (hbase : func.basePrice env m stack = some base)
      (hfee : memoryGasCost mem memorySize = .ok (fee, mem')) (hcost : stack[0]? = some callCost)
      (htemp : callGas env.chainRules.IsEIP150 contract.Gas (base + fee) callCost = .ok temp)
      (hfit : base + fee + temp < 2 ^ 64) :
      Quoted env m contract stack mem memorySize func ⟨base + fee + temp, mem', temp, []⟩
  /-- a price that leaves the memory alone -/
  | plain {cost : Nat} {ops : List Op} (hmem : func.pricesMemory = false)
      (hpos : func.positive = true → 0 < cost) (hquiet : func.refunds = false → ops = [])
      (hops : ∀ op ∈ ops, refundOp op = true) :
      Quoted env m contract stack mem memorySize func ⟨cost, mem, m.callGasTemp, ops⟩

/-- A panic has found fewer than so many items on the stack. -/
def Underflow (stack : Stack) (n : Nat) (e : Fault) : Prop := e = .panic → stack.length < n

theorem meets_overflow {Q : α → Prop} : Meets (Underflow stack n) Q gasUintOverflow :=
  nofun

theorem meets_Back (hk : k < n) :
    Meets (Underflow stack n) (fun w => stack[k]? = some w) (stack.Back k) := by
  unfold Stack.Back
  cases h : stack[k]? with
  | none => exact fun _ => (List.getElem?_eq_none_iff.mp h).trans_lt hk
  | some w => exact rfl

theorem meets_checked (o : Option Nat) :
    Meets (Underflow stack n) (fun k => o = some k) (checked o) := by
  cases o with
  | none => exact meets_overflow
  | some k => exact rfl

theorem meets_SafeAdd (x y : Nat) :
    Meets (Underflow stack n) (fun k => x + y < 2 ^ 64 ∧ x + y = k) (checked (SafeAdd x y)) :=
  (meets_checked _).mono (fun _ h => h) fun _ => SafeAdd_eq_some.mp

theorem meets_SafeMul (x y : Nat) :
    Meets (Underflow stack n) (fun k => x * y < 2 ^ 64 ∧ x * y = k) (checked (SafeMul x y)) :=
  (meets_checked _).mono (fun _ h => h) fun _ => SafeMul_eq_some.mp

/-- The fee for the growth of the memory is no panic. -/
theorem meets_memoryGasCost (mem : Memory) (memorySize : Nat) :
    Meets (Underflow stack n) (fun p => memoryGasCost mem memorySize = .ok p)
      (memoryGasCost mem memorySize) := by
  refine (Meets.self _).mono (fun e h hpanic => ?_) fun _ h => h
  subst hpanic
  unfold memoryGasCost at h
  split at h
  · cases h
  split at h
  · cases h
  dsimp only at h
  split at h <;> cases h

theorem meets_callGas (isEip150 : Bool) (availableGas base : Nat) (callCost : Word) :
    Meets (Underflow stack n) (fun temp => callGas isEip150 availableGas base callCost = .ok temp)
      (callGas isEip150 availableGas base callCost) := by
  refine (Meets.self _).mono (fun e h hpanic => ?_) fun _ h => h
  subst hpanic
  unfold callGas at h
  dsimp only at h
  split at h
  · cases h
  split at h <;> cases h

/-- The growth of the memory is priced up to the largest memory, and leaves its content. -/
theorem memoryGasCost_ok (h : memoryGasCost mem memorySize = .ok (fee, mem')) :
    mem'.store = mem.store ∧ memorySize ≤ maxMemorySize ∧ fee < 2 ^ 64 := by
  unfold memoryGasCost at h
  split at h
  · next h0 =>
    cases h
    exact ⟨rfl, by rw [h0]; exact Nat.zero_le _, Nat.two_pow_pos 64⟩
  split at h
  · cases h
  next hle =>
  dsimp only at h
  split at h
  · cases h
    exact ⟨rfl, Nat.not_lt.mp hle, Nat.mod_lt _ (Nat.two_pow_pos 64)⟩
  · cases h
    exact ⟨rfl, Nat.not_lt.mp hle, Nat.two_pow_pos 64⟩

/-! ## §3 — Its proof, a gas function at a time -/

theorem meets_perWordGas (hpos : pos < n)
    (hprice : ∀ size, stack[pos]? = some size →
      func.dataPrice stack = some (toWordSize size.toNat * wordGas)) :
    Meets (Underflow stack n) (Quoted env m contract stack mem memorySize func)
      (perWordGas m stack mem memorySize pos wordGas) := by
  refine (meets_memoryGasCost mem memorySize).bind fun ⟨fee, mem'⟩ hfee =>
    (meets_Back hpos).bind fun size hsize => .ite (fun _ => meets_overflow) fun hu =>
    (meets_SafeMul _ _).bind fun words hwords => (meets_SafeAdd _ _).bind fun gas hgas => ?_
  rw [Word.uint64_of_isUint64 (by simpa using hu)] at hwords
  obtain ⟨-, rfl⟩ := hwords
  obtain ⟨hfit, rfl⟩ := hgas
  exact .data hfee (hprice size hsize) hfit

theorem meets_makeGasLog (k : Nat) :
    Meets (Underflow stack 2) (Quoted env m contract stack mem memorySize (.makeGasLog k))
      (makeGasLog m stack mem memorySize k) := by
  refine (meets_Back (by decide)).bind fun size hsize => .ite (fun _ => meets_overflow) fun hu =>
    (meets_memoryGasCost mem memorySize).bind fun ⟨fee, mem'⟩ hfee =>
    (meets_SafeAdd _ _).bind fun gas1 h1 => (meets_SafeAdd _ _).bind fun gas2 h2 =>
    (meets_SafeMul _ _).bind fun data h3 => (meets_SafeAdd _ _).bind fun gas4 h4 => ?_
  rw [Word.uint64_of_isUint64 (by simpa using hu)] at h3
  have hcost : gas4 = fee + (LogGas + k * LogTopicGas + size.toNat * LogDataGas) := by omega
  rw [hcost]
  refine .data hfee ?_ (by omega)
  rw [GasFunc.dataPrice, hsize]
  rfl

theorem meets_makeGasCall (hn : 0 < n) (hbase : func.basePrice env m stack = some base) :
    Meets (Underflow stack n) (Quoted env m contract stack mem memorySize func)
      (makeGasCall env contract stack mem memorySize base) := by
  refine (meets_memoryGasCost mem memorySize).bind fun ⟨fee, mem'⟩ hfee =>
    (meets_SafeAdd _ _).bind fun gas h1 => (meets_Back hn).bind fun callCost hcost =>
    (meets_callGas _ _ _ _).bind fun temp htemp => (meets_SafeAdd _ _).bind fun cost h2 => ?_
  obtain ⟨-, rfl⟩ := h1
  obtain ⟨hfit, rfl⟩ := h2
  exact .call hbase hfee hcost htemp hfit

theorem meets_gasExp (hfunc : func = .gasExpFrontier ∨ func = .gasExpEIP158) :
    Meets (Underflow stack 2) (Quoted env m contract stack mem memorySize func)
      (gasExp m stack mem expByte) := by
  refine (meets_Back (by decide)).bind fun exponent _ => (meets_SafeAdd _ _).bind fun gas h => ?_
  have hpos : 0 < gas := by
    unfold ExpGas at h
    omega
  rcases hfunc with rfl | rfl
  · exact .plain rfl (fun _ => hpos) (fun _ => rfl) nofun
  · exact .plain rfl (fun _ => hpos) (fun _ => rfl) nofun

theorem price_pos {p : NetGas} (hn : 0 < p.noop) (hi : 0 < p.init) (hc : 0 < p.clean)
    (hd : 0 < p.dirty) (original current value : Hash) :
    0 < (p.price original current value).1 := by
  unfold NetGas.price
  repeat' split
  all_goals assumption

theorem price_refundOp (p : NetGas) (original current value : Hash) :
    ∀ op ∈ (p.price original current value).2, refundOp op = true := by
  unfold NetGas.price
  repeat' split
  all_goals simp [refundOp]

theorem meets_netSStore {p : NetGas} (hn : 0 < p.noop) (hi : 0 < p.init) (hc : 0 < p.clean)
    (hd : 0 < p.dirty) (hmem : func.pricesMemory = false) (hrefunds : func.refunds = true) :
    Meets (Underflow stack 2) (Quoted env m contract stack mem memorySize func)
      (netSStore m contract stack mem p) := by
  refine (meets_Back (by decide)).bind fun y _ => (meets_Back (by decide)).bind fun x _ => ?_
  exact .plain hmem (fun _ => price_pos hn hi hc hd _ _ _)
    (fun h => absurd (hrefunds.symm.trans h) (by decide)) (price_refundOp p _ _ _)

theorem meets_gasSStore :
    Meets (Underflow stack 2) (Quoted env m contract stack mem memorySize .gasSStore)
      (gasSStore env m contract stack mem) := by
  have hpay : ∀ (cost : Nat) (ops : List Op), 0 < cost → (∀ op ∈ ops, refundOp op = true) →
      Quoted env m contract stack mem memorySize .gasSStore ⟨cost, mem, m.callGasTemp, ops⟩ :=
    fun _ _ hpos hops => .plain rfl (fun _ => hpos) (nofun) hops
  refine .ite (fun _ => ?_) fun _ =>
    meets_netSStore (by decide) (by decide) (by decide) (by decide) rfl rfl
  refine (meets_Back (by decide)).bind fun y _ => (meets_Back (by decide)).bind fun x _ =>
    .ite (fun _ => hpay _ _ (by decide) (by simp)) fun _ => .ite (fun _ => ?_) fun _ =>
    hpay _ _ (by decide) (by simp)
  exact hpay _ _ (by decide) (by simp [refundOp])

theorem meets_gasSelfdestruct :
    Meets (Underflow stack 1) (Quoted env m contract stack mem memorySize .gasSelfdestruct)
      (gasSelfdestruct env m contract stack mem) := by
  refine (meets_Back (by decide)).bind fun address _ => ?_
  refine .plain rfl (nofun) (nofun) ?_
  split <;> simp [refundOp]

/-- **What a gas function returns**, and that it panics only for want of stack items. -/
theorem quoted_eval (func : GasFunc) :
    Meets (Underflow stack func.need) (Quoted env m contract stack mem memorySize func)
      (func.eval env m contract stack mem memorySize) := by
  cases func with
  | memoryCopierGas stackpos =>
    exact meets_perWordGas (Nat.lt_succ_self _) fun size h => by rw [GasFunc.dataPrice, h]; rfl
  | gasSha3 | gasCreate2 =>
    exact meets_perWordGas (by decide) fun size h => by rw [GasFunc.dataPrice, h]; rfl
  | pureMemoryGascost =>
    refine (meets_memoryGasCost mem memorySize).bind fun ⟨fee, mem'⟩ hfee => ?_
    have hfit : fee + 0 < 2 ^ 64 := (memoryGasCost_ok hfee).2.2
    exact .data hfee rfl hfit
  | makeGasLog k => exact meets_makeGasLog k
  | gasSStore => exact meets_gasSStore
  | gasSStoreEIP2200 =>
    refine .ite (fun _ => nofun) fun _ => ?_
    exact meets_netSStore (by decide) (by decide) (by decide) (by decide) rfl rfl
  | gasExpFrontier => exact meets_gasExp (.inl rfl)
  | gasExpEIP158 => exact meets_gasExp (.inr rfl)
  | gasCall =>
    refine (meets_Back (by decide)).bind fun v hv => (meets_Back (by decide)).bind fun a ha => ?_
    refine meets_makeGasCall (by decide) ?_
    rw [GasFunc.basePrice, hv, ha]
    rfl
  | gasCallCode =>
    refine (meets_Back (by decide)).bind fun v hv => meets_makeGasCall (by decide) ?_
    rw [GasFunc.basePrice, hv]
    rfl
  | gasDelegateCall | gasStaticCall => exact meets_makeGasCall (by decide) rfl
  | gasSelfdestruct => exact meets_gasSelfdestruct

/-! ## §4 — What follows -/

/-- The gas functions that are said to be positive are. -/
theorem eval_pos (hpos : func.positive = true)
    (h : func.eval env m contract stack mem memorySize = .ok g) : 0 < g.cost := by
  cases (quoted_eval func).of_ok h with
  | data hfee hprice hfit =>
    cases func with
    | makeGasLog k =>
      obtain ⟨size, -, rfl⟩ := Option.map_eq_some_iff.mp hprice
      show 0 < _ + (375 + _ + _)
      omega
    | _ => simp [GasFunc.positive, GasFunc.dataPrice] at hpos hprice
  | call hbase hfee hcost htemp hfit =>
    cases func <;> simp [GasFunc.positive, GasFunc.basePrice] at hpos hbase
  | plain hmem hcost hquiet hops => exact hcost hpos

/-- A gas function that does not refund leaves the state alone. -/
theorem eval_ops_eq_nil (hf : func.refunds = false)
    (h : func.eval env m contract stack mem memorySize = .ok g) : g.ops = [] := by
  cases (quoted_eval func).of_ok h with
  | data hfee hprice hfit | call hbase hfee hcost htemp hfit => rfl
  | plain hmem hcost hquiet hops => exact hquiet hf

/-- **A price does nothing to the state but refund.** -/
theorem eval_refundOp (h : func.eval env m contract stack mem memorySize = .ok g) :
    ∀ op ∈ g.ops, refundOp op = true := by
  cases (quoted_eval func).of_ok h with
  | data hfee hprice hfit | call hbase hfee hcost htemp hfit => nofun
  | plain hmem hcost hquiet hops => exact hops

/-- **A gas function leaves the content of the memory**, and what prices the growth of the memory
does so up to the largest memory. -/
theorem gas_memory (h : func.eval env m contract stack mem memorySize = .ok g) :
    g.memory.store = mem.store ∧ (func.pricesMemory = true → memorySize ≤ maxMemorySize) := by
  cases (quoted_eval func).of_ok h with
  | data hfee hprice hfit | call hbase hfee hcost htemp hfit =>
    obtain ⟨hstore, hle, -⟩ := memoryGasCost_ok hfee
    exact ⟨hstore, fun _ => hle⟩
  | plain hmem hcost hquiet hops =>
    exact ⟨rfl, fun h => absurd (hmem.symm.trans h) (by decide)⟩

/-- **No gas function panics** that has the stack items it reads. -/
theorem gas_ne_panic (h : func.need ≤ stack.length) :
    func.eval env m contract stack mem memorySize ≠ .error .panic := fun hp =>
  absurd ((quoted_eval func).of_error hp rfl) (Nat.not_lt.mpr h)

/-- **The price of a call.** -/
theorem call_quoted (hbase : func.basePrice env m stack = some base)
    (h : func.eval env m contract stack mem memorySize = .ok g) :
    ∃ fee temp mem' callCost, memoryGasCost mem memorySize = .ok (fee, mem') ∧
      stack[0]? = some callCost ∧
      callGas env.chainRules.IsEIP150 contract.Gas (base + fee) callCost = .ok temp ∧
      g = ⟨base + fee + temp, mem', temp, []⟩ := by
  cases (quoted_eval func).of_ok h with
  | data hfee hprice hfit =>
    cases func <;> simp [GasFunc.dataPrice, GasFunc.basePrice] at hprice hbase
  | call hbase' hfee hcost htemp hfit =>
    obtain rfl := Option.some.inj (hbase'.symm.trans hbase)
    exact ⟨_, _, _, _, hfee, hcost, htemp, rfl⟩
  | plain hmem hcost hquiet hops =>
    cases func <;> simp [GasFunc.pricesMemory, GasFunc.basePrice] at hmem hbase

/-- It holds the base price and what the callee gets: the subtraction in `callGas` may wrap around,
but then the sum is not paid for. -/
theorem call_cost_le (hbase : func.basePrice env m stack = some base)
    (h : func.eval env m contract stack mem memorySize = .ok g) :
    base + g.callGasTemp ≤ g.cost := by
  obtain ⟨fee, temp, mem', callCost, -, -, -, rfl⟩ := call_quoted hbase h
  dsimp only
  omega

end

end MxtChain.Vm
