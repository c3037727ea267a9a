/-
# MxtChain.Vm.GasSpec — execution is bounded by gas.

Every turn of the loop that does not return costs gas, and a turn that calls another contract costs
more than the callee gets: the stipend is smaller than what a call with a value pays for it, and
what is given to the callee has been taken from the caller before. So the gas of a frame is a
measure that decreases along the loop and into every callee, and a run of a frame takes no more
turns than the frame has gas.
-/
import MxtChain.State.RevertSpec
import MxtChain.Vm.EntrySpec
import MxtChain.Vm.Prices

namespace MxtChain.Vm

open State Lib

set_option linter.unusedSectionVars false

variable {C : Type} [CodeHash C] [DecidableEq C] {env : Env C} {f f' : Frame}
  {m m' before : Machine C} {operation : Operation} {rules : Rules} {op : UInt8} {c : Charged}
  {gas n memorySize : Nat} {o : Outcome C} {pending : Pending} {req : Request} {r : Returned C}
  {run run' : Runner C} {d d' : Done C} {address : Address}
  {lp lp' : Machine C → Frame → Except Crash (Done C)}

/-! ## §1 — What the tables say about prices -/

/-- An operation returns from the frame, has a constant price or a dynamic one that is never
zero. -/
def Operation.priced (o : Operation) : Bool :=
  o.reverts || o.halts || decide (0 < o.constantGas) || o.dynamicGas.any GasFunc.positive

/-- The gas function of an operation that calls another contract. -/
def Calling.gasFunc : Calling → GasFunc
  | .opCreate => .pureMemoryGascost
  | .opCreate2 => .gasCreate2
  | .opCall => .gasCall
  | .opCallCode => .gasCallCode
  | .opDelegateCall => .gasDelegateCall
  | .opStaticCall => .gasStaticCall

/-- An operation that calls another contract has its gas function and a constant price. -/
def Operation.callPriced (o : Operation) : Bool :=
  match o.execute with
  | .instr _ => true
  | .calling op => decide (0 < o.constantGas) && decide (o.dynamicGas = some op.gasFunc)

theorem priced_of_lookup
    (h : (jumpTable rules).lookup op = some operation) : operation.priced = true :=
  of_all_entries (p := fun e => e.2.priced) (by decide +kernel) h

theorem callPriced_of_lookup
    (h : (jumpTable rules).lookup op = some operation) : operation.callPriced = true :=
  of_all_entries (p := fun e => e.2.callPriced) (by decide +kernel) h

/-! ## §2 — One turn -/

/-- The stipend is less than what a call with a value pays for it. -/
theorem stipend_le (gas : Nat) (v : Word) : stipend gas v ≤ gas + valueGas v := by
  unfold stipend valueGas CallStipend CallValueTransferGas
  split
  · omega
  · omega

theorem dynamicCost_some {func : GasFunc} {contract : Contract} {stack : Stack} {mem : Memory}
    {g : GasResult} (hfunc : operation.dynamicGas = some func)
    (h : dynamicCost env m operation contract stack mem memorySize = .ok g) :
    func.eval env m contract stack mem memorySize = .ok g := by
  rcases dynamicCost_cases h with ⟨hnone, -⟩ | ⟨func', hfunc', heval⟩
  · rw [hfunc] at hnone
    cases hnone
  · rw [hfunc] at hfunc'
    cases hfunc'
    exact heval

section Turn

variable (h : Paid env m f c m' f')
include h

/-- An instruction that does not return from the frame costs gas. -/
theorem Paid.gas_lt (hr : c.operation.reverts = false)
    (hh : c.operation.halts = false) : f'.contract.Gas < f.contract.Gas := by
  have hgas := h.gas
  have hpriced := priced_of_lookup h.lookup
  simp only [Operation.priced, hr, hh, Bool.false_or, Bool.or_eq_true, decide_eq_true_eq,
    Option.any_eq_true] at hpriced
  rcases hpriced with hconst | ⟨func, hfunc, hpos⟩
  · omega
  · have := eval_pos hpos (dynamicCost_some hfunc h.dynamicGas)
    omega

/-- The gas function of an instruction that calls another contract, and its constant price. -/
theorem Paid.calling {op : Calling} (hop : c.operation.execute = .calling op) :
    0 < c.operation.constantGas ∧
      op.gasFunc.eval env m c.contract f.regs.stack f.regs.memory c.memorySize = .ok c.gas := by
  have hpriced := callPriced_of_lookup h.lookup
  simp only [Operation.callPriced, hop, Bool.and_eq_true, decide_eq_true_eq] at hpriced
  exact ⟨hpriced.1, dynamicCost_some hpriced.2 h.dynamicGas⟩

theorem Paid.callGasTemp : m'.callGasTemp = c.gas.callGasTemp := by
  obtain ⟨session, -, rfl⟩ := apply_eq_ok.mp h.ops
  rfl

/-- **What the callee gets and what the caller keeps is less than the caller had.** -/
theorem Paid.request_gas_lt {op : Calling} {s : Suspended} (hop : c.operation.execute = .calling op)
    (hs : Requested m' f'.contract f'.regs op s) : s.gas + s.req.gas < f.contract.Gas := by
  have hgas := h.gas
  obtain ⟨hconst, heval⟩ := h.calling hop
  have hstack : f'.regs.stack = f.regs.stack := by rw [h.regs]
  have htemp := h.callGasTemp
  cases hs with
  | value hkind hst hargs =>
    rename_i addr v _ _ _ _ _ _
    rw [hstack] at hst
    have hle : valueGas v + c.gas.callGasTemp ≤ c.gas.cost := by
      rcases hkind with ⟨rfl, -⟩ | ⟨rfl, -⟩
      · have hbase : GasFunc.gasCall.basePrice env m f.regs.stack =
            some (newAccountGas env m v addr + valueGas v) := by
          rw [hst]
          rfl
        have hle := call_cost_le hbase heval
        omega
      · exact call_cost_le (by rw [hst]; rfl) heval
    have hstipend := stipend_le c.gas.callGasTemp v
    change f'.contract.Gas + stipend m'.callGasTemp v < _
    rw [htemp]
    omega
  | plain hkind hst hargs =>
    have hspec : 0 + c.gas.callGasTemp ≤ c.gas.cost := by
      rcases hkind with ⟨rfl, -⟩ | ⟨rfl, -⟩
      · exact call_cost_le rfl heval
      · exact call_cost_le rfl heval
    change f'.contract.Gas + m'.callGasTemp < _
    omega
  | create hst hinput hle | create2 hst hinput hle =>
    exact (Nat.sub_add_cancel hle).trans_lt (by omega)

end Turn

/-- How the gas after a turn relates to the gas before it. -/
def Outcome.Bounded (gas : Nat) : Outcome C → Prop
  | .next _ f => f.contract.Gas < gas
  | .done d => d.gas ≤ gas
  | .request _ _ f req _ => f.contract.Gas + req.gas < gas

theorem finish_bounded {res : Bytes}
    (hlt : operation.reverts = false → operation.halts = false → f.contract.Gas < gas)
    (hle : f.contract.Gas ≤ gas) : (finish operation m f res).Bounded gas := by
  obtain ⟨data, h⟩ := finish_cases operation m f res
  rcases h with ⟨-, h⟩ | ⟨-, -, h⟩ | ⟨hr, hh, pc, h⟩
  · rw [h]
    exact hle
  · rw [h]
    exact hle
  · rw [h]
    exact hlt hr hh

/-- **A turn** goes on with less gas, returns with no more, or calls another contract: then the
caller's gas and the callee's together are less than the caller had. -/
theorem step_bounded (h : step env m f = .ok o) : o.Bounded f.contract.Gas := by
  rcases step_cases h with ⟨temp, ops, m', gas, e, -, -, hgas, rfl⟩ | ⟨c, m', f', hpaid, hexec⟩
  · exact hgas
  have hle : f'.contract.Gas ≤ f.contract.Gas := by
    have := hpaid.gas
    omega
  rcases executed_cases hexec with ⟨e, rfl⟩ | ⟨op, e, m'', -, -, -, rfl⟩ | ⟨op, s, hop, hrun, rfl⟩
  · exact hle
  · exact finish_bounded hpaid.gas_lt hle
  · exact hpaid.request_gas_lt hop (requested_of_run hrun)

/-- **The rest of a turn after a call**: what is left of the callee's gas is back. -/
theorem resume_bounded (hf : f.contract.Gas + req.gas < gas) (hr : r.leftOverGas ≤ req.gas)
    (h : resume env operation f pending r = .ok o) : o.Bounded gas := by
  obtain ⟨x, memory, res, -, rfl⟩ := resume_cases h
  have hlt : (f.contract.Gas + r.leftOverGas) % 2 ^ 64 < gas := by omega
  exact finish_bounded (fun _ _ => hlt) hlt.le

/-! ## §3 — The entry points -/

/-- A runner leaves no more gas than the contract has. -/
def Runner.Frugal (run : Runner C) : Prop :=
  ∀ m contract input readOnly d, run m contract input readOnly = .ok d → d.gas ≤ contract.Gas

theorem precompiled_gas_le (p : PrecompiledContract) (m : Machine C) (input : Bytes) (gas : Nat) :
    (RunPrecompiledContract p m input gas).gas ≤ gas := by
  unfold RunPrecompiledContract
  split
  · exact Nat.zero_le _
  · split
    · exact Nat.sub_le _ _
    · exact Nat.sub_le _ _

theorem Immediate.gas_le (h : Immediate env m req d) : d.gas ≤ req.gas := by
  cases h with
  | precompiled p hp => exact precompiled_gas_le p m req.input req.gas
  | empty => exact le_rfl

theorem settle_gas_le (h : settle before d = .ok r) : r.leftOverGas ≤ d.gas := by
  rcases settle_cases h with ⟨-, rfl⟩ | ⟨e, m', -, -, rfl⟩
  · exact le_rfl
  · split
    · exact le_rfl
    · exact Nat.zero_le _

theorem Stored.gas_le (h : Stored address d d') : d'.gas ≤ d.gas := by
  cases h with
  | same | unpaid herr => exact le_rfl
  | stored herr hgas hm' => exact hgas

theorem deposit_gas_le (h : deposit env before address d = .ok r) : r.leftOverGas ≤ d.gas := by
  obtain ⟨d', hd', ⟨-, rfl⟩ | ⟨m', -, rfl⟩⟩ := deposit_cases h
  · exact hd'.gas_le
  · split
    · exact hd'.gas_le
    · exact Nat.zero_le _

/-- **Every entry point leaves no more gas than it was given.** -/
theorem perform_gas_le (hrun : run.Frugal) (h : perform run env m req = .ok r) :
    r.leftOverGas ≤ req.gas := by
  cases perform_cases env m req with
  | refused herr hans | skipped hkind hsnap hans =>
    cases (hans run).symm.trans h
    exact le_rfl
  | settled hcall hd hans =>
    exact (settle_gas_le ((hans run).symm.trans h)).trans hd.gas_le
  | called c hcall hgas hcode hans =>
    obtain ⟨d, hd, h⟩ := bind_ok.mp ((hans run).symm.trans h)
    exact (settle_gas_le h).trans (hgas ▸ hrun _ _ _ _ _ hd)
  | collided hkind hnonce hans =>
    cases (hans run).symm.trans h
    exact Nat.zero_le _
  | idle address hnew hans =>
    cases (hans run).symm.trans h
    exact le_rfl
  | created address c hnew hgas hcode hans =>
    obtain ⟨d, hd, h⟩ := bind_ok.mp ((hans run).symm.trans h)
    exact (deposit_gas_le h).trans (hgas ▸ hrun _ _ _ _ _ hd)

/-! ## §4 — The loop -/

/-- **A turn with the call it makes** goes on with less gas or returns with no more. -/
theorem turn_bounded (hrun : run.Frugal) (h : turn run env m f = .ok o) :
    o.Bounded f.contract.Gas := by
  obtain ⟨o', hstep, h⟩ := bind_ok.mp h
  have hb := step_bounded hstep
  split at h
  · obtain ⟨r, hr, h⟩ := bind_ok.mp h
    exact resume_bounded hb (perform_gas_le hrun hr) h
  · cases h
    exact hb

theorem Run_frugal
    (h : ∀ m f d, lp m f = .ok d → d.gas ≤ f.contract.Gas) : Runner.Frugal (Run lp) := by
  intro m c input readOnly d hd
  obtain ⟨d', hd', rfl⟩ := map_ok.mp hd
  change d'.gas ≤ c.Gas
  unfold runCode at hd'
  split at hd'
  · cases hd'
    exact le_rfl
  · exact h _ _ _ hd'

/-- The loop returns with no more gas than the frame has. -/
theorem loop_gas_le (env : Env C) (n : Nat) (m : Machine C) (f : Frame) (d : Done C)
    (h : loop env n m f = .ok d) : d.gas ≤ f.contract.Gas := by
  induction n generalizing m f d with
  | zero => cases h
  | succ n ih =>
    obtain ⟨o, ho, h⟩ := bind_ok.mp h
    have hb := turn_bounded (Run_frugal ih) ho
    split at h
    · exact (ih _ _ _ h).trans hb.le
    · cases h
      exact hb
    · cases h

theorem loop_frugal (env : Env C) (n : Nat) : Runner.Frugal (Run (loop env n)) :=
  Run_frugal (loop_gas_le env n)

/-! ## §5 — Enough turns -/

/-- A runner agrees with another one wherever that one comes to an end. -/
def Runner.Extends (run' run : Runner C) : Prop :=
  ∀ m contract input readOnly, run m contract input readOnly ≠ .error .diverged →
    run' m contract input readOnly = run m contract input readOnly

theorem perform_extends (hrun : run'.Extends run) (h : perform run env m req ≠ .error .diverged) :
    perform run' env m req = perform run env m req := by
  cases perform_factor env m req with
  | constant x htame heq => exact (heq run').trans (heq run).symm
  | run m' c input readOnly g hgas hinput hcode hprepared htame heq =>
    rw [heq run] at h
    have hne : run m' c input readOnly ≠ .error .diverged := fun hd => h (by rw [hd]; rfl)
    rw [heq run', heq run, hrun _ _ _ _ hne]

theorem turn_extends (hrun : run'.Extends run) (h : turn run env m f ≠ .error .diverged) :
    turn run' env m f = turn run env m f := by
  unfold turn at h ⊢
  cases hstep : step env m f with
  | error e => rfl
  | ok o =>
    rw [hstep] at h
    cases o with
    | next m' f' | done d => rfl
    | request operation m' f' req pending =>
      have hne : perform run env m' req ≠ .error .diverged := fun hd => h (by
        change (perform run env m' req >>= _) = _
        rw [hd]
        rfl)
      change (perform run' env m' req >>= _) = (perform run env m' req >>= _)
      rw [perform_extends hrun hne]

theorem Run_extends
    (h : ∀ m f, lp m f ≠ .error .diverged → lp' m f = lp m f) : (Run lp').Extends (Run lp) := by
  intro m c input readOnly hne
  unfold Run runCode at hne ⊢
  split
  · rfl
  · next hcode =>
    rw [if_neg hcode] at hne
    rw [h _ _ fun hd => hne (by rw [hd]; rfl)]

/-- One more turn changes nothing where there were enough. -/
theorem loop_succ (env : Env C) (n : Nat) (m : Machine C) (f : Frame)
    (h : loop env n m f ≠ .error .diverged) : loop env (n + 1) m f = loop env n m f := by
  induction n generalizing m f with
  | zero => exact absurd rfl h
  | succ n ih =>
    have hturn : turn (Run (loop env n)) env m f ≠ .error .diverged := fun hd => h (by
      unfold loop
      rw [hd]
      rfl)
    rw [loop, turn_extends (Run_extends ih) hturn]
    conv_rhs => rw [loop]
    rw [loop] at h
    cases hturn : turn (Run (loop env n)) env m f with
    | error e => rfl
    | ok o =>
      rw [hturn] at h
      cases o with
      | next m' f' => exact ih m' f' h
      | done d | request operation m' f' req pending => rfl

theorem perform_ne_diverged (h : ∀ m contract input readOnly, contract.Gas = req.gas →
      run m contract input readOnly ≠ .error .diverged) :
    perform run env m req ≠ .error .diverged := by
  cases perform_factor env m req with
  | constant x htame heq =>
    rw [heq run]
    exact fun hd => nomatch htame _ hd
  | run m' c input readOnly g hgas hinput hcode hprepared htame heq =>
    rw [heq run]
    intro hd
    rcases bind_error.mp hd with hd | ⟨d, -, hd⟩
    · exact h _ _ _ _ hgas hd
    · exact nomatch htame _ _ hd

theorem resume_error {e : Crash}
    (h : resume env operation f pending r = .error e) : e = .panic := by
  unfold resume at h
  dsimp only at h
  split at h
  · split at h
    · split at h
      · cases h
        rfl
      · cases h
    · cases h
  · cases h
  · cases h

/-- A turn comes to an end if every callee with less gas does. -/
theorem turn_ne_diverged (h : ∀ m contract input readOnly, contract.Gas < f.contract.Gas →
      run m contract input readOnly ≠ .error .diverged) :
    turn run env m f ≠ .error .diverged := by
  intro hd
  rcases bind_error.mp hd with hd | ⟨o, hstep, hd⟩
  · rcases step_error hd with hd | ⟨hd, -⟩ <;> cases hd
  have hb := step_bounded hstep
  split at hd
  · rcases bind_error.mp hd with hd | ⟨r, -, hd⟩
    · refine perform_ne_diverged (fun m c input readOnly hgas => h m c input readOnly ?_) hd
      rw [hgas]
      exact (Nat.le_add_left _ _).trans_lt hb
    · exact nomatch resume_error hd
  · cases hd

/-- **Enough turns.** The gas of a frame and one more is enough. -/
theorem loop_ne_diverged (env : Env C) (n : Nat) (m : Machine C) (f : Frame)
    (h : f.contract.Gas < n) : loop env n m f ≠ .error .diverged := by
  induction n generalizing m f with
  | zero => exact absurd h (Nat.not_lt_zero _)
  | succ n ih =>
    have hrun : ∀ m contract input readOnly, contract.Gas < f.contract.Gas →
        Run (loop env n) m contract input readOnly ≠ .error .diverged := by
      intro m c input readOnly hgas hd
      unfold Run runCode at hd
      split at hd
      · cases hd
      · exact ih _ _ (by exact hgas.trans_le (Nat.lt_succ_iff.mp h)) (map_error.mp hd)
    intro hd
    rcases bind_error.mp hd with hd | ⟨o, ho, hd⟩
    · exact turn_ne_diverged hrun hd
    have hb := turn_bounded (loop_frugal env n) ho
    split at hd
    · exact ih _ _ (hb.trans_le (Nat.lt_succ_iff.mp h)) hd
    · cases hd
    · cases hd

/-- Any number of turns that is enough gives the same result. -/
theorem loop_eq (env : Env C) (m : Machine C) (f : Frame) (h : f.contract.Gas < n) :
    loop env n m f = loop env (f.contract.Gas + 1) m f := by
  induction n, Nat.succ_le_of_lt h using Nat.le_induction with
  | base => rfl
  | succ n hn ih =>
    have hlt : f.contract.Gas < n := hn
    rw [loop_succ env n m f (loop_ne_diverged env n m f hlt), ih hlt]

theorem Run_ne_diverged (env : Env C) (m : Machine C) (contract : Contract) (input : Bytes)
    (readOnly : Bool) (h : contract.Gas < n) :
    Run (loop env n) m contract input readOnly ≠ .error .diverged := by
  intro hd
  have hd := map_error.mp hd
  unfold runCode at hd
  split at hd
  · cases hd
  · exact loop_ne_diverged env n _ _ (by exact h) hd

theorem Run_eq (env : Env C) (m : Machine C) (contract : Contract) (input : Bytes) (readOnly : Bool)
    (h : contract.Gas < n) : Run (loop env n) m contract input readOnly =
      Run (loop env (contract.Gas + 1)) m contract input readOnly := by
  unfold Run runCode
  split
  · rfl
  · rw [loop_eq env _ _ (by exact h)]

theorem perform_eq (env : Env C) (m : Machine C) (req : Request) (h : req.gas < n) :
    perform (Run (loop env n)) env m req = evm env m req := by
  unfold evm
  cases perform_factor env m req with
  | constant x htame heq => exact (heq _).trans (heq _).symm
  | run m' c input readOnly g hgas hinput hcode hprepared htame heq =>
    rw [heq, heq, Run_eq env _ _ _ _ (hgas ▸ h), hgas]

/-- **Execution is bounded by gas.** For every code, input, state and instruction set, a turn of
the loop that goes on has strictly less gas left, the gas that a callee got back included; a callee
gets strictly less than the caller had; a run and every entry point come to an end, with the same
result for any bound on the turns that is larger than the gas; and they leave no more gas than they
were given. -/
theorem execution_bounded_by_gas (env : Env C) :
    (∀ n m f m' f', turn (Run (loop env n)) env m f = .ok (.next m' f') →
      f'.contract.Gas < f.contract.Gas) ∧
    (∀ m f operation m' f' req pending,
      step env m f = .ok (.request operation m' f' req pending) → req.gas < f.contract.Gas) ∧
    (∀ n m contract input readOnly, contract.Gas < n →
      Run (loop env n) m contract input readOnly ≠ .error .diverged ∧
      Run (loop env n) m contract input readOnly =
        Run (loop env (contract.Gas + 1)) m contract input readOnly) ∧
    (∀ n m req, req.gas < n → perform (Run (loop env n)) env m req ≠ .error .diverged ∧
      perform (Run (loop env n)) env m req = evm env m req) ∧
    (∀ n m contract input readOnly d,
      Run (loop env n) m contract input readOnly = .ok d → d.gas ≤ contract.Gas) ∧
    ∀ m req r, evm env m req = .ok r → r.leftOverGas ≤ req.gas := by
  refine ⟨?_, ?_, ?_, ?_, ?_, ?_⟩
  · intro n m f m' f' h
    exact turn_bounded (loop_frugal env n) h
  · intro m f operation m' f' req pending h
    exact (Nat.le_add_left _ _).trans_lt (step_bounded h)
  · intro n m contract input readOnly h
    exact ⟨Run_ne_diverged env m contract input readOnly h, Run_eq env m contract input readOnly h⟩
  · intro n m req h
    refine ⟨perform_ne_diverged fun m c input readOnly hgas => ?_, perform_eq env m req h⟩
    exact Run_ne_diverged env m c input readOnly (hgas ▸ h)
  · intro n m contract input readOnly d h
    exact loop_frugal env n m contract input readOnly d h
  · intro m req r h
    exact perform_gas_le (loop_frugal env _) h

/-! ## §6 — A small machine -/

/-- An environment without precompiled contracts, under the given rules. -/
def sampleEnv (rules : Rules) : Env Bytes where
  chainRules := rules
  ChainID := 1
  GetHash := fun _ => Hash.zero
  Origin := default
  GasPrice := 1
  Coinbase := default
  GasLimit := 8000000
  BlockNumber := 1
  Time := 1
  Difficulty := 1
  precompile := fun _ => none
  keccak256 := fun _ => Hash.zero
  hashBytes := fun _ => Hash.zero
  CreateAddress := fun _ _ => Address.ofBytes [1]
  CreateAddress2 := fun _ _ _ => Address.ofBytes [2]

def emptyWorld : World Bytes where
  accounts := fun _ => none
  created := fun _ => False
  written := fun _ => False
  refund := 0
  thash := Hash.zero
  bhash := Hash.zero
  txIndex := 0
  logs := fun _ => []
  logSize := 0
  preimages := fun _ => none

def machineOf (w : World Bytes) : Machine Bytes := { session := { world := w } }

/-- A frame that runs a code with so much gas. -/
def frameOf (code : Bytes) (gas : Nat) : Frame :=
  { contract := { CallerAddress := default, self := default, Code := code, Gas := gas, value := 0 } }

def addCode : Bytes := [0x60, 1, 0x60, 2, 0x01]

/-- A frame that is about to delegate a call with fifty units of gas. -/
def delegating : Frame :=
  { frameOf [0xf4] 1000 with regs := { stack := [50, 0, 0, 0, 0, 0] } }

/-- A push costs three units of gas, a delegated call its own gas and a price, and adding one and
two costs nine. -/
theorem execution_bounded_by_gas_sample :
    (frameOf addCode 97).contract.Gas < (frameOf addCode 100).contract.Gas ∧
    50 < delegating.contract.Gas ∧
    Run (loop (sampleEnv { IsHomestead := true }) 101) (machineOf emptyWorld)
      (frameOf addCode 100).contract [] false ≠ .error .diverged ∧
    91 ≤ (frameOf addCode 100).contract.Gas := by
  obtain ⟨hturn, hcallee, hrun, -, hle, -⟩ :=
    execution_bounded_by_gas (sampleEnv { IsHomestead := true })
  refine ⟨?_, ?_, (hrun _ _ _ _ _ (by decide)).1, ?_⟩
  · exact hturn 0 (machineOf emptyWorld) (frameOf addCode 100) (machineOf emptyWorld)
      { frameOf addCode 97 with regs := { pc := 2, stack := [1] } } rfl
  · exact hcallee (machineOf emptyWorld) delegating _ _ _ _ _ rfl
  · exact hle 101 (machineOf emptyWorld) (frameOf addCode 100).contract [] false ⟨_, [], 91, none⟩ rfl

end MxtChain.Vm
