/-
# MxtChain.Vm.NoPanic — the interpreter does not panic.

What every turn of every frame of a run keeps: the stacks and the memory of the frame are within
their limits, and the codes in the state are byte slices. From it every execution function finds
what it touches (`Vm.Fits`), in the frames of the callees too. The panics of the state database are
the subject of `Vm.StatePanic`.
-/
import MxtChain.Vm.Accounts
import MxtChain.Vm.Fits

namespace MxtChain.Vm

open State Lib List Option Word

set_option linter.unusedSectionVars false

variable {C : Type} [CodeHash C] [DecidableEq C] {ops : List Op} {w w' : World C}
  {l l' : World.Session C} {m m' m1 m2 : Machine C} {op : Op} {contract c' : Contract}
  {o : Outcome C} {pending : Pending} {operation : Operation} {res input input' : Bytes}
  {f' f : Frame} {lp : Machine C → Frame → Except Crash (Done C)} {env : Env C} {req req' : Request}

/-! ## §1 — The codes in the state -/

/-- The codes in the state are byte slices, also after a revert. -/
structure Sized (l : World.Session C) : Prop where
  world : CodesFit l.world
  saved : ∀ p ∈ l.saved, CodesFit p.2

/-- The operation stores no code, or a byte slice. -/
def Short : Op → Prop
  | .setCode _ code => code.length < 2 ^ 63
  | _ => True

theorem codesFit_update {a : Address} {acc : LogicalAccount C} (hw : CodesFit w)
    (h : account w' = Function.update (account w) a acc)
    (hacc : (acc.code.getD []).length < 2 ^ 63) : CodesFit w' := by
  intro b
  rw [GetCode_eq, h]
  by_cases hb : b = a
  · rw [hb, Function.update_self]
    exact hacc
  · rw [Function.update_of_ne hb, ← GetCode_eq]
    exact hw b

theorem codesFit_of_account (hw : CodesFit w) (h : account w' = account w) : CodesFit w' := by
  intro b
  rw [GetCode_eq, h, ← GetCode_eq]
  exact hw b

theorem codesFit_apply (hop : Short op) (hw : CodesFit w) (h : w.apply op = some w') :
    CodesFit w' := by
  have hsame : ∀ a, ((account w a).code.getD []).length < 2 ^ 63 := fun a => by
    rw [← GetCode_eq]
    exact hw a
  cases op with
  | addBalance a amount => exact codesFit_update hw (account_addBalance h) (hsame a)
  | subBalance a amount => exact codesFit_update hw (account_subBalance h) (hsame a)
  | setBalance a amount =>
    have hput : w.apply (.setBalance a amount) = some ((w.getOrNew a).2.put a
        { (w.getOrNew a).1 with balance := amount }) := rfl
    obtain rfl := some.inj (hput.symm.trans h)
    refine codesFit_update hw ((account_put _ _ _).trans (by rw [account_getOrNew])) ?_
    rw [getOrNew_fst]
    exact hsame a
  | setNonce a nonce => exact codesFit_update hw (account_setNonce h) (hsame a)
  | setCode a code => exact codesFit_update hw (account_setCode h) hop
  | setState a key value => exact codesFit_update hw (account_setState h) (hsame a)
  | createAccount a => exact codesFit_update hw (account_createAccount h) (Nat.two_pow_pos 63)
  | suicide a =>
    have hacc := account_suicide h
    split at hacc
    · exact codesFit_update hw hacc (hsame a)
    · exact codesFit_of_account hw hacc
  | addRefund gas | subRefund gas | addLog log | addPreimage hash preimage | read q | snapshot
  | revertToSnapshot id => exact codesFit_of_account hw (account_of_offAccounts rfl h)

theorem sized_step (hop : Short op) (hl : Sized l) (h : l.step op = some l') : Sized l' := by
  by_cases hplain : plainOp op = true
  · rw [step_eq_of_plain l hplain] at h
    obtain ⟨w, hw, rfl⟩ := map_eq_some_iff.mp h
    exact ⟨codesFit_apply hop hl.world hw, hl.saved⟩
  cases op with
  | snapshot =>
    cases h
    refine ⟨hl.world, fun p hp => ?_⟩
    rcases mem_append.mp hp with hp | hp
    · exact hl.saved p hp
    · rw [mem_singleton.mp hp]
      exact hl.world
  | revertToSnapshot id =>
    obtain ⟨p, hp, rfl⟩ := map_eq_some_iff.mp h
    exact ⟨hl.saved _ (mem_of_find?_eq_some hp), fun q hq =>
      hl.saved q ((takeWhile_sublist _).subset hq)⟩
  | _ => exact absurd rfl hplain

theorem sized_run (hops : ∀ op ∈ ops, Short op) (hl : Sized l)
    (h : l.run ops = some l') : Sized l' := by
  induction ops generalizing l with
  | nil =>
    cases h
    exact hl
  | cons op ops ih =>
    obtain ⟨l1, h1, h⟩ := bind_eq_some_iff.mp h
    exact ih (fun op hop => hops op (mem_cons_of_mem _ hop))
      (sized_step (hops op mem_cons_self) hl h1) h

theorem sized_apply (hops : ∀ op ∈ ops, Short op) (hm : Sized m.session)
    (h : m.apply ops = .ok m') : Sized m'.session := by
  obtain ⟨session, hs, rfl⟩ := apply_eq_ok.mp h
  exact sized_run hops hm hs

theorem short_of_preparing (h : preparing op = true) : Short op := by
  cases op <;> trivial

theorem sized_prepared (h : Prepared m m') (hm : Sized m.session) : Sized m'.session := by
  induction h with
  | here => exact hm
  | snapshot h hsnap ih => exact sized_apply (by simp [Short]) ih hsnap
  | apply h hops happly ih => exact sized_apply (fun op hop => short_of_preparing (hops op hop)) ih happly

/-! ## §2 — A turn -/

/-- A frame within its limits. -/
structure Within (f : Frame) : Prop where
  stack : f.regs.stack.length ≤ StackLimit
  rstack : f.regs.rstack.length ≤ 1023
  memory : Priced f.regs.memory
  code : f.contract.Code.length < 2 ^ 63
  input : f.contract.Input.length < 2 ^ 63

/-- A frame that waits for a call: there is room for the result on the stack, and the memory for it
is there. -/
structure Waiting (f : Frame) (pending : Pending) : Prop extends Within f where
  room : f.regs.stack.length + 1 ≤ StackLimit
  pending : ∀ retOffset retSize, pending = .call retOffset retSize →
    Covers f.regs.memory retOffset retSize

/-- What a turn leads to. -/
def Outcome.Within : Outcome C → Prop
  | .next m f => Sized m.session ∧ Vm.Within f
  | .done d => Sized d.machine.session ∧ d.ret.length ≤ maxMemorySize
  | .request operation m f req pending =>
    Sized m.session ∧ Waiting f pending ∧ req.input.length ≤ maxMemorySize ∧
      operation.halts = false ∧ operation.reverts = false

variable {r : Regs}

section Turn

variable {run : Runner C} {env : Env C} {m m' : Machine C} {f f' : Frame} {c : Charged}

theorem Admitted.fitting (h : Admitted env m f c) :
    Fitting (f.contract.GetOp f.regs.pc) c.operation := fitting_spec h.lookup

/-- The checks of a turn do not panic. -/
theorem charge_ne_panic : charge env m f ≠ .error .panic := by
  have hmeets : Meets (· ≠ .panic) (fun _ => True) (charge env m f) := by
    unfold charge
    dsimp only
    split
    · nofun
    next operation hop =>
    have hf := fitting_spec hop
    have hne : ∀ {n : Nat} {e : Fault}, n ≤ operation.minStack →
        ¬f.regs.stack.length < operation.minStack → Underflow f.regs.stack n e → e ≠ .panic :=
      fun hn hmin hu he => hmin ((hu he).trans_le hn)
    refine .ite (nofun) fun hmin => .ite (nofun) fun _ => ?_
    have hwrite : Meets (· ≠ .panic) (fun _ => True)
        (writeProtected env m (f.contract.GetOp f.regs.pc) operation f.regs.stack) := by
      refine .ite (fun _ => .ite (fun _ => trivial) fun _ => .ite (fun hcall => ?_) fun _ => trivial)
        fun _ => trivial
      exact ((meets_Back (Nat.lt_succ_self 2)).mono (fun _ => hne (hf.callNeed hcall) hmin)
        fun _ _ => trivial).bind fun _ _ => trivial
    have hmemory : Meets (· ≠ .panic) (fun _ => True)
        (requestedMemory operation f.regs.stack) := by
      cases hfunc : operation.memorySize with
      | none =>
        rw [requestedMemory_none _ hfunc]
        trivial
      | some func =>
        obtain ⟨hneed, hsmall, -⟩ := hf.memoryNeed func hfunc
        exact (meets_requestedMemory hfunc hsmall).mono (fun _ => hne hneed hmin) fun _ _ => trivial
    refine hwrite.bind fun _ _ => .ite (nofun) fun _ => ?_
    split
    · nofun
    refine hmemory.bind fun _ _ => Meets.bind (P := fun _ => True) ?_ fun _ _ => trivial
    unfold dynamicCost
    split
    · trivial
    next func hfunc =>
    split
    · next heval =>
      exact absurd heval (gas_ne_panic ((hf.gasNeed func hfunc).trans (Nat.not_lt.mp hmin)))
    · nofun
    · trivial
  exact fun h => hmeets.of_error h rfl

theorem refundOp_short (h : refundOp op = true) : Short op := by
  cases op with
  | setCode a code => cases h
  | _ => trivial

theorem Paid.sized (h : Paid env m f c m' f') (hm : Sized m.session) : Sized m'.session := by
  refine sized_apply (m := { m with callGasTemp := c.gas.callGasTemp })
    (fun op hop => refundOp_short (h.toAdmitted.refundOp op hop)) hm h.ops

/-- The memory after it has been paid for. -/
theorem Paid.memory (h : Paid env m f c m' f') (hw : Within f) :
    f'.regs.memory.Len = max f.regs.memory.Len c.memorySize ∧ Priced f'.regs.memory := by
  have hf := h.toAdmitted.fitting
  have hpriced : c.gas.memory.store = f.regs.memory.store ∧ c.memorySize ≤ maxMemorySize := by
    rcases dynamicCost_cases h.dynamicGas with ⟨hnone, hg⟩ | ⟨func, hsome, heval⟩
    · refine ⟨by rw [hg], ?_⟩
      cases hsize : c.operation.memorySize with
      | none =>
        rw [← Except.ok.inj ((requestedMemory_none _ hsize).symm.trans h.memorySize)]
        exact Nat.zero_le _
      | some size =>
        obtain ⟨-, -, gas, hgas, -⟩ := hf.memoryNeed size hsize
        exact absurd (hnone.symm.trans hgas) (by simp)
    obtain ⟨hstore, hle⟩ := gas_memory heval
    refine ⟨hstore, ?_⟩
    cases hsize : c.operation.memorySize with
    | none =>
      rw [← Except.ok.inj ((requestedMemory_none _ hsize).symm.trans h.memorySize)]
      exact Nat.zero_le _
    | some size =>
      obtain ⟨-, -, gas, hgas, hp⟩ := hf.memoryNeed size hsize
      obtain rfl := some.inj (hsome.symm.trans hgas)
      exact hle hp
  have hlen : f'.regs.memory.Len = max f.regs.memory.Len c.memorySize := by
    rw [h.regs]
    change (c.gas.memory.Resize c.memorySize).Len = _
    rw [Memory.Len_Resize]
    unfold Memory.Len
    rw [hpriced.1]
  refine ⟨hlen, ?_⟩
  unfold Priced
  rw [hlen]
  exact max_le hw.memory hpriced.2

/-- **An instruction that has been paid for is given what it touches.** -/
theorem Paid.given (h : Paid env m f c m' f') (hw : Within f) (hm : Sized m.session) :
    Given m' f'.contract f'.regs c.operation.execute.pops c.operation.execute.memory := by
  have hf := h.toAdmitted.fitting
  obtain ⟨hlen, hpriced⟩ := h.memory hw
  have hstack : f'.regs.stack = f.regs.stack := by rw [h.regs]
  refine ⟨?_, ?_, hpriced, ?_, ?_, ?_, (h.sized hm).world⟩
  · rw [hstack, ← hf.minStack]
    exact h.minStack
  · intro func hfunc
    rw [← hf.memorySize] at hfunc
    obtain ⟨-, hsmall, -⟩ := hf.memoryNeed func hfunc
    rw [hstack]
    refine ((meets_requestedMemory hfunc hsmall).of_ok h.memorySize).2 _ ?_
    rw [hlen]
    exact le_max_right _ _
  · rw [h.regs]
    exact hw.rstack
  · rw [h.contract]
    exact hw.code
  · rw [h.contract]
    exact hw.input

/-- **A turn does not panic.** -/
theorem step_ne_panic (hw : Within f) (hm : Sized m.session) : step env m f ≠ .error .panic := by
  intro h
  rcases step_error h with h | ⟨-, h | ⟨c, m', f', hpaid, hpanics⟩⟩
  · cases h
  · exact charge_ne_panic h
  have hgiven := hpaid.given hw hm
  have hf := hpaid.toAdmitted.fitting
  unfold Operation.Panics at hpanics
  split at hpanics
  · next op hop =>
    rw [hop] at hgiven
    exact (fine_run hgiven fun hdup => hf.dup (by rw [hop, hdup])).1 hpanics
  next op hop =>
  rw [hop] at hgiven
  obtain ⟨s, hs, -⟩ : ∃ s, op.run env m' f'.contract f'.regs = .ok s ∧ Asked op f'.regs s :=
    asked_run hgiven
  rw [hs] at hpanics
  cases hpanics

theorem finish_within (hm : Sized m.session) (hw : Within f)
    (hres : res.length ≤ maxMemorySize) : (finish operation m f res).Within := by
  obtain ⟨data, hfin⟩ := finish_cases operation m f res
  rcases hfin with ⟨-, hfin⟩ | ⟨-, -, hfin⟩ | ⟨-, -, pc, hfin⟩
  · rw [hfin]
    exact ⟨hm, hres⟩
  · rw [hfin]
    exact ⟨hm, hres⟩
  · rw [hfin]
    exact ⟨hm, hw.stack, hw.rstack, hw.memory, hw.code, hw.input⟩

theorem short_of_stateEffect {op : Instr}
    {destroyed : Int} (h : StateEffect m contract r op ops destroyed) : ∀ op ∈ ops, Short op := by
  cases h <;> simp [Short]

/-- **A turn keeps the limits.** -/
theorem step_within (hw : Within f) (hm : Sized m.session)
    (h : step env m f = .ok o) : o.Within := by
  rcases step_cases h with ⟨temp, ops, m', gas, e, hops, happly, -, rfl⟩ |
    ⟨c, m', f', hpaid, hexec⟩
  · -- a turn that fails has changed the refund counter at most
    refine ⟨sized_apply (m := { m with callGasTemp := temp }) (fun op hop => ?_) hm happly,
      Nat.zero_le _⟩
    rcases hops with rfl | ⟨c, hc, rfl⟩
    · cases hop
    · exact refundOp_short (hc.refundOp op hop)
  have hgiven := hpaid.given hw hm
  have hf := hpaid.toAdmitted.fitting
  have hsized := hpaid.sized hm
  have hstack : f'.regs.stack = f.regs.stack := by rw [hpaid.regs]
  have hmax := hpaid.maxStack
  rw [← hstack, hf.maxStack] at hmax
  have hpushes := hf.pushes
  rcases executed_cases hexec with ⟨e, rfl⟩ | ⟨op, e, m'', hop, hrun, happly, rfl⟩ |
    ⟨op, s, hop, hrun, rfl⟩
  · exact ⟨hsized, Nat.zero_le _⟩
  · rw [hop] at hgiven hmax hpushes
    have hran := (fine_run hgiven fun hdup => hf.dup (by rw [hop, hdup])).2 e hrun
    have hlen := hran.stack
    refine finish_within ?_ ?_ ?_
    · have hshort := short_of_stateEffect (stateEffect_of_run hrun)
      have hs : Sized m''.session := sized_apply hshort hsized happly
      exact hs
    · refine ⟨?_, hran.rstack, ?_, hgiven.code, hgiven.input⟩
      · change _ ≤ StackLimit + op.pops - op.pushes at hmax
        change op.pushes ≤ StackLimit at hpushes
        change e.regs.stack.length ≤ StackLimit
        omega
      · exact hran.memory.trans_le hgiven.priced
    · exact hran.res.trans hgiven.priced
  rw [hop] at hgiven hmax
  obtain ⟨s', hs', hasked⟩ :
      ∃ s, op.run env m' f'.contract f'.regs = .ok s ∧ Asked op f'.regs s := asked_run hgiven
  obtain rfl := Except.ok.inj (hs'.symm.trans hrun)
  have hlen := hasked.stack
  have hroom : s'.regs.stack.length + 1 ≤ StackLimit := by
    change _ ≤ StackLimit + op.pops - 1 at hmax
    have hlimit : 1 ≤ StackLimit := by decide
    omega
  have hpriced : Priced s'.regs.memory := by
    rw [hasked.memory]
    exact hgiven.priced
  refine ⟨hsized, ⟨⟨Nat.le_of_succ_le hroom, ?_, hpriced, hgiven.code, hgiven.input⟩, hroom, ?_⟩,
    hasked.input.trans hgiven.priced, hf.goesOn op hop⟩
  · change s'.regs.rstack.length ≤ 1023
    rw [hasked.rstack]
    exact hgiven.rstack
  · intro ro rs hpending
    change Covers s'.regs.memory ro rs
    rw [hasked.memory]
    exact hasked.pending ro rs hpending

theorem finish_next (hh : operation.halts = false) (hr : operation.reverts = false)
    (hm : Sized m.session) (hw : Within f) : (finish operation m f res).Within := by
  obtain ⟨data, hfin⟩ := finish_cases operation m f res
  rcases hfin with ⟨ht, -⟩ | ⟨-, ht, -⟩ | ⟨-, -, pc, hfin⟩
  · exact absurd (hr.symm.trans ht) (by decide)
  · exact absurd (hh.symm.trans ht) (by decide)
  · rw [hfin]
    exact ⟨hm, hw.stack, hw.rstack, hw.memory, hw.code, hw.input⟩

/-- The result of a call has its place. -/
theorem resume_ne_panic {r : Returned C} (hw : Waiting f pending) :
    resume env operation f pending r ≠ .error .panic := by
  intro h
  unfold resume at h
  dsimp only at h
  split at h
  · next ro rs =>
    obtain ⟨memory', hset, -⟩ := (hw.pending ro rs rfl).set_ok hw.memory r.ret
    split at h
    · rw [hset] at h
      cases h
    · cases h
  · cases h
  · cases h

theorem resume_within {r : Returned C}
    (hw : Waiting f pending) (hh : operation.halts = false) (hrev : operation.reverts = false)
    (hr : Sized r.machine.session) (h : resume env operation f pending r = .ok o) : o.Within := by
  obtain ⟨x, memory, res, hmemory, rfl⟩ := resume_cases h
  have hlen : memory.Len = f.regs.memory.Len := by
    rcases hmemory with rfl | ⟨ro, rs, hpending, hset⟩
    · rfl
    · obtain ⟨memory', hset', hlen, -⟩ := (hw.pending ro rs hpending).set_ok hw.memory r.ret
      obtain rfl := Except.ok.inj (hset'.symm.trans hset)
      exact hlen
  exact finish_next hh hrev hr
    ⟨hw.room, hw.rstack, hlen.trans_le hw.memory, hw.code, hw.input⟩

end Turn

/-! ## §3 — Runs -/

/-- What a way to run a contract keeps. -/
def Runner.Sizing (run : Runner C) : Prop :=
  ∀ m contract input readOnly d, Sized m.session → contract.Code.length < 2 ^ 63 →
    input.length < 2 ^ 63 → run m contract input readOnly = .ok d →
    Sized d.machine.session ∧ d.ret.length ≤ maxMemorySize

variable {c : Contract}

section Runs

variable {run : Runner C} {env : Env C} {m m1 : Machine C} {f : Frame} {d : Done C} {req : Request}
  {r : Returned C}

theorem short_revert (id : Nat) : ∀ op ∈ [Op.revertToSnapshot id], Short op := by
  simp [Short]

theorem settle_sized (hd : Sized d.machine.session) (h : settle m d = .ok r) :
    Sized r.machine.session := by
  rcases settle_cases h with ⟨-, rfl⟩ | ⟨e, m', -, hm', rfl⟩
  · exact hd
  · have hs : Sized m'.session := sized_apply (short_revert _) hd hm'
    exact hs

theorem deposit_sized {address : Address} (hd : Sized d.machine.session)
    (hret : d.ret.length < 2 ^ 63) (h : deposit env m address d = .ok r) :
    Sized r.machine.session := by
  obtain ⟨d', hd', h⟩ := deposit_cases h
  have hsized : Sized d'.machine.session := by
    cases hd' with
    | same | unpaid herr => exact hd
    | stored herr hgas hm' =>
      refine sized_apply (fun op hop => ?_) hd hm'
      rw [mem_singleton.mp hop]
      exact hret
  rcases h with ⟨-, rfl⟩ | ⟨m', hm', rfl⟩
  · exact hsized
  · have hs : Sized m'.session := sized_apply (short_revert _) hsized hm'
    exact hs

/-- A request is answered in a state with codes that are byte slices. -/
theorem perform_sized (hrun : run.Sizing) (hm : Sized m.session)
    (hinput : req.input.length < 2 ^ 63) (h : perform run env m req = .ok r) :
    Sized r.machine.session := by
  cases perform_cases env m req with
  | refused herr hans =>
    cases (hans run).symm.trans h
    exact hm
  | skipped hkind hsnap hans =>
    cases (hans run).symm.trans h
    exact sized_prepared (Prepared.here.snapshot hsnap) hm
  | settled hcall hd hans =>
    refine settle_sized ?_ ((hans run).symm.trans h)
    rw [hd.machine]
    exact sized_prepared hcall.prepared hm
  | called c hcall hgas hcode hans =>
    obtain ⟨d, hd, h⟩ := bind_ok.mp ((hans run).symm.trans h)
    have hm2 := sized_prepared hcall.prepared hm
    refine settle_sized (hrun _ _ _ _ _ hm2 ?_ hinput hd).1 h
    rw [hcode]
    exact hm2.world _
  | collided hkind hnonce hans =>
    cases (hans run).symm.trans h
    exact sized_prepared (Prepared.here.apply (preparing_setNonce _ _) hnonce) hm
  | idle address hnew hans =>
    cases (hans run).symm.trans h
    exact sized_prepared hnew.prepared hm
  | created address c hnew hgas hcode hans =>
    obtain ⟨d, hd, h⟩ := bind_ok.mp ((hans run).symm.trans h)
    obtain ⟨hsized, hret⟩ := hrun _ _ [] _ _ (sized_prepared hnew.prepared hm)
      (by rw [hcode]; exact hinput) (Nat.two_pow_pos 63) hd
    exact deposit_sized hsized (hret.trans_lt (by decide)) h

theorem maxMemorySize_lt : maxMemorySize < 2 ^ 63 := by decide

/-- **A turn with the call it makes keeps the limits.** -/
theorem turn_within (hrun : run.Sizing) (hw : Within f) (hm : Sized m.session)
    (h : turn run env m f = .ok o) : o.Within := by
  obtain ⟨o', hstep, h⟩ := bind_ok.mp h
  have ho := step_within hw hm hstep
  split at h
  · obtain ⟨r, hr, h⟩ := bind_ok.mp h
    obtain ⟨hsized, hwait, hinput, hh, hrev⟩ := ho
    exact resume_within hwait hh hrev
      (perform_sized hrun hsized (hinput.trans_lt maxMemorySize_lt) hr) h
  · cases h
    exact ho

theorem within_start (hcode : c.Code.length < 2 ^ 63)
    (hinput : input.length < 2 ^ 63) : Within { contract := { c with Input := input } } :=
  ⟨Nat.zero_le _, Nat.zero_le _, Nat.zero_le _, hcode, hinput⟩

theorem Run_sizing (h : ∀ m f d, Sized m.session → Within f → lp m f = .ok d →
      Sized d.machine.session ∧ d.ret.length ≤ maxMemorySize) : Runner.Sizing (Run lp) := by
  intro m c input readOnly d hm hcode hinput hrun
  unfold Run runCode at hrun
  obtain ⟨d', hd', rfl⟩ := map_ok.mp hrun
  split at hd'
  · cases hd'
    exact ⟨hm, Nat.zero_le _⟩
  · exact h (m.enter readOnly) _ d' hm (within_start hcode hinput) hd'

theorem loop_sized (env : Env C) (n : Nat) : ∀ m f d, Sized m.session → Within f →
    loop env n m f = .ok d → Sized d.machine.session ∧ d.ret.length ≤ maxMemorySize := by
  induction n with
  | zero => nofun
  | succ n ih =>
    intro m f d hm hw h
    obtain ⟨o, ho, h⟩ := bind_ok.mp h
    have hwithin := turn_within (Run_sizing ih) hw hm ho
    split at h
    · exact ih _ _ _ hwithin.1 hwithin.2 h
    · cases h
      exact hwithin
    · cases h

theorem loop_sizing (env : Env C) (n : Nat) : Runner.Sizing (Run (loop env n)) :=
  Run_sizing (loop_sized env n)

/-- The code and the input that a request passes on to a run. -/
theorem factored_sized (hm : Sized m.session)
    (hinput : req.input.length < 2 ^ 63) (hin : input = req.input ∨ input = [])
    (hcode : c.Code = req.input ∨ ∃ a, c.Code = GetCode m'.world a) (hprepared : Prepared m m') :
    Sized m'.session ∧ c.Code.length < 2 ^ 63 ∧ input.length < 2 ^ 63 := by
  have hm' := sized_prepared hprepared hm
  refine ⟨hm', ?_, ?_⟩
  · rcases hcode with hcode | ⟨a, hcode⟩
    · rw [hcode]
      exact hinput
    · rw [hcode]
      exact hm'.world a
  · rcases hin with rfl | rfl
    · exact hinput
    · exact Nat.two_pow_pos 63

/-- A request panics as the run it leads to. -/
theorem perform_ne_panic (hm : Sized m.session) (hinput : req.input.length < 2 ^ 63)
    (hrun : ∀ m contract input readOnly, Sized m.session → contract.Code.length < 2 ^ 63 →
      input.length < 2 ^ 63 → run m contract input readOnly ≠ .error .panic) :
    perform run env m req ≠ .error .panic := by
  cases perform_factor env m req with
  | constant x htame heq =>
    rw [heq run]
    exact fun h => nomatch htame _ h
  | run m' c input readOnly g hgas hin hcode hprepared htame heq =>
    obtain ⟨hm', hcode, hin⟩ := factored_sized hm hinput hin hcode hprepared
    rw [heq run]
    intro h
    rcases bind_error.mp h with h | ⟨d, -, h⟩
    · exact hrun m' c input readOnly hm' hcode hin h
    · exact nomatch htame _ _ h

theorem Run_ne_panic (h : ∀ m f, Sized m.session → Within f → lp m f ≠ .error .panic)
    (m : Machine C) (c : Contract) (input : Bytes) (readOnly : Bool) (hm : Sized m.session)
    (hcode : c.Code.length < 2 ^ 63) (hinput : input.length < 2 ^ 63) :
    Run lp m c input readOnly ≠ .error .panic := by
  intro hp
  unfold Run runCode at hp
  have hp := map_error.mp hp
  split at hp
  · cases hp
  · exact h (m.enter readOnly) _ hm (within_start hcode hinput) hp

theorem turn_ne_panic (hw : Within f) (hm : Sized m.session)
    (hrun : ∀ m contract input readOnly, Sized m.session → contract.Code.length < 2 ^ 63 →
      input.length < 2 ^ 63 → run m contract input readOnly ≠ .error .panic) :
    turn run env m f ≠ .error .panic := by
  intro h
  rcases bind_error.mp h with h | ⟨o, hstep, h⟩
  · exact step_ne_panic hw hm h
  have ho := step_within hw hm hstep
  split at h
  · obtain ⟨hsized, hwait, hinput, -, -⟩ := ho
    rcases bind_error.mp h with h | ⟨r, -, h⟩
    · exact perform_ne_panic hsized (hinput.trans_lt maxMemorySize_lt) hrun h
    · exact resume_ne_panic hwait h
  · cases h

theorem turn_ne_request : turn run env m f ≠ .ok (.request operation m' f' req' pending) := by
  have hfinish : ∀ (o : Operation) (m0 : Machine C) (f0 : Frame) (res : Bytes),
      finish o m0 f0 res ≠ .request operation m' f' req' pending := by
    intro o m0 f0 res h
    obtain ⟨data, ⟨-, hcases⟩ | ⟨-, -, hcases⟩ | ⟨-, -, pc, hcases⟩⟩ := finish_cases o m0 f0 res
    all_goals cases hcases.symm.trans h
  intro h
  obtain ⟨o, -, h⟩ := bind_ok.mp h
  split at h
  · obtain ⟨r, -, h⟩ := bind_ok.mp h
    obtain ⟨x, memory, res, -, hfin⟩ := resume_cases h
    exact hfinish _ _ _ _ hfin.symm
  · next hne =>
    cases h
    exact hne _ _ _ _ _ rfl

/-- **The loop does not panic**, whatever it calls. -/
theorem loop_ne_panic (env : Env C) (n : Nat) : ∀ m f, Sized m.session → Within f →
    loop env n m f ≠ .error .panic := by
  induction n with
  | zero => nofun
  | succ n ih =>
    intro m f hm hw h
    rcases bind_error.mp h with h | ⟨o, ho, h⟩
    · exact turn_ne_panic hw hm (Run_ne_panic ih) h
    have hwithin := turn_within (loop_sizing env n) hw hm ho
    split at h
    · exact ih _ _ hwithin.1 hwithin.2 h
    · cases h
    · -- a turn that is resumed asks for nothing more
      exact turn_ne_request ho

end Runs

/-! ## §4 — Every turn of every frame -/

/-- The frame that a request is answered with: whatever runs contracts is given this one. -/
def Entered (env : Env C) (m : Machine C) (req : Request) (m' : Machine C) (f : Frame) : Prop :=
  ∃ (m1 : Machine C) (c : Contract) (input : Bytes) (readOnly : Bool)
    (g : Done C → Except Crash (Returned C)),
    (∀ run, perform run env m req = run m1 c input readOnly >>= g) ∧
    m' = m1.enter readOnly ∧ f = { contract := { c with Input := input } }

/-- The turns of a run: the first one, those that follow, and those of the frames that are called. -/
inductive Visited (env : Env C) : Machine C → Frame → Machine C → Frame → Prop
  | here (m : Machine C) (f : Frame) : Visited env m f m f
  | next {m m1 m' : Machine C} {f f1 f' : Frame} (n : Nat)
      (hturn : turn (Run (loop env n)) env m f = .ok (.next m1 f1))
      (h : Visited env m1 f1 m' f') : Visited env m f m' f'
  | callee {m m1 m2 m' : Machine C} {f f1 f2 f' : Frame} {operation : Operation} {req : Request}
      {pending : Pending} (hstep : step env m f = .ok (.request operation m1 f1 req pending))
      (henter : Entered env m1 req m2 f2) (h : Visited env m2 f2 m' f') : Visited env m f m' f'

/-- Two descriptions of the run that answers a request agree. -/
theorem entered_unique {readOnly readOnly' : Bool} {g g' : Done C → Except Crash (Returned C)}
    (h : ∀ run, perform run env m req = run m1 c input readOnly >>= g)
    (h' : ∀ run, perform run env m req = run m2 c' input' readOnly' >>= g') :
    m1 = m2 ∧ c = c' ∧ input = input' ∧ readOnly = readOnly' := by
  classical
  by_contra hne
  -- a runner that tells the two apart
  let tell : Runner C := fun m x i b =>
    if m1 = m ∧ c = x ∧ input = i ∧ readOnly = b then .error .diverged else .error .panic
  have hleft : perform tell env m req = .error .diverged := by
    rw [h tell]
    exact bind_error.mpr (.inl (if_pos ⟨rfl, rfl, rfl, rfl⟩))
  have hright : perform tell env m req = .error .panic := by
    rw [h' tell]
    exact bind_error.mpr (.inl (if_neg hne))
  cases hleft.symm.trans hright

theorem entered_within (hm : Sized m.session) (hinput : req.input.length < 2 ^ 63)
    (h : Entered env m req m' f) : Sized m'.session ∧ Within f := by
  obtain ⟨m1, c, input, readOnly, g, hrun, rfl, rfl⟩ := h
  cases perform_factor env m req with
  | constant x htame heq =>
    -- an answer that depends on no runner is not a run
    have h1 : x = .error .panic :=
      (heq _).symm.trans ((hrun fun _ _ _ _ => .error .panic).trans (bind_error.mpr (.inl rfl)))
    exact nomatch htame _ h1
  | run m2 c' input' readOnly' g' hgas hin hcode hprepared htame heq =>
    obtain ⟨rfl, rfl, rfl, rfl⟩ := entered_unique hrun heq
    obtain ⟨hm', hcode, hin⟩ := factored_sized hm hinput hin hcode hprepared
    exact ⟨hm', within_start hcode hin⟩

/-- **Every turn of a run is made within the limits.** -/
theorem visited_within (h : Visited env m f m' f')
    (hm : Sized m.session) (hw : Within f) : Sized m'.session ∧ Within f' := by
  induction h with
  | here m f => exact ⟨hm, hw⟩
  | next n hturn h ih =>
    have hwithin := turn_within (loop_sizing env n) hw hm hturn
    exact ih hwithin.1 hwithin.2
  | callee hstep henter h ih =>
    obtain ⟨hsized, -, hinput, -, -⟩ := step_within hw hm hstep
    obtain ⟨hm2, hw2⟩ := entered_within hsized (hinput.trans_lt maxMemorySize_lt) henter
    exact ih hm2 hw2

/-- What holds of a turn: the heights of the stacks; no panic, the calls included; and for the
instruction it executes the operands, the memory and the data it touches, with no cast that changes
an offset or a size. -/
structure Safe (env : Env C) (m : Machine C) (f : Frame) : Prop where
  stack : f.regs.stack.length ≤ StackLimit
  rstack : f.regs.rstack.length ≤ 1023
  turn : ∀ n, turn (Run (loop env n)) env m f ≠ .error .panic
  operands : ∀ c m' f', Paid env m f c m' f' →
    c.operation.execute.pops ≤ f'.regs.stack.length ∧ f'.regs.stack.length ≤ StackLimit
  memory : ∀ c m' f' func, Paid env m f c m' f' → c.operation.execute.memory = some func →
    func.Covered f'.regs.stack f'.regs.memory
  casts : ∀ c m' f' off size, Paid env m f c m' f' → Covers f'.regs.memory off size → size ≠ 0 →
    uint64 off = off.toNat ∧ toInt64 (uint64 off) = off.toNat ∧
    uint64 size = size.toNat ∧ toInt64 (uint64 size) = size.toNat
  copied : ∀ c m' f' op memOffset off length st data, Paid env m f c m' f' →
    c.operation.execute = .instr (.copied op) →
    f'.regs.stack = memOffset :: off :: length :: st →
    op.eval m' f'.contract off length = .ok data →
    data = paddedRange (op.source m' f'.contract) off.toNat length.toNat ∧
    (op = .opReturnDataCopy → off.toNat + length.toNat ≤ m'.returnData.length)
  extCode : ∀ c m' f' a memOffset off length st, Paid env m f c m' f' →
    c.operation.execute = .instr .opExtCodeCopy →
    f'.regs.stack = a :: memOffset :: off :: length :: st →
    getData (GetCode m'.world (toAddress a)) (dataOffset64 off) (uint64 length) =
      .ok (paddedRange (GetCode m'.world (toAddress a)) off.toNat length.toNat)
  callData : ∀ x : Word, Loaded.opCallDataLoad.eval env m f.contract f.regs x =
    .ok (setBytes (paddedRange f.contract.Input x.toNat 32))
  pushes : ∀ size, ∃ data, slice f.contract.Code (min (f.regs.pc + 1) f.contract.Code.length : Nat)
      (min (min (f.regs.pc + 1) f.contract.Code.length + size) f.contract.Code.length : Nat) =
        .ok data ∧
    pushData f.contract f.regs size = setBytes (RightPadBytes data size)

theorem callDataLoad_eq (hinput : contract.Input.length < 2 ^ 63)
    (x : Word) : Loaded.opCallDataLoad.eval env m contract r x =
      .ok (setBytes (paddedRange contract.Input x.toNat 32)) := by
  unfold Loaded.eval
  dsimp only
  split
  · next hx =>
    rw [uint64_of_isUint64 hx, getData_eq hinput (by decide)]
    rfl
  next hx =>
  have hlarge : 2 ^ 64 ≤ x.toNat := by
    by_contra hlt
    exact hx (decide_eq_true (Nat.not_le.mp hlt))
  rw [paddedRange_past (by omega)]
  rfl

/-- The slice of a push instruction is in the code, however much of its data the code has. -/
theorem pushData_slice (contract : Contract) (r : Regs) (size : Nat) : ∃ data,
    slice contract.Code (min (r.pc + 1) contract.Code.length : Nat)
      (min (min (r.pc + 1) contract.Code.length + size) contract.Code.length : Nat) = .ok data ∧
    pushData contract r size = setBytes (RightPadBytes data size) := by
  have hstart : (if r.pc + 1 < contract.Code.length then r.pc + 1 else contract.Code.length) =
      min (r.pc + 1) contract.Code.length := by
    split <;> omega
  have hend : (if min (r.pc + 1) contract.Code.length + size < contract.Code.length then
      min (r.pc + 1) contract.Code.length + size else contract.Code.length) =
      min (min (r.pc + 1) contract.Code.length + size) contract.Code.length := by
    split <;> omega
  refine ⟨_, if_pos ⟨by omega, by omega, by omega⟩, ?_⟩
  unfold pushData
  dsimp only
  rw [hstart, hend, Int.toNat_natCast, Int.toNat_natCast]

/-- **A turn within the limits is safe.** -/
theorem safe_of_within (hm : Sized m.session) (hw : Within f) : Safe env m f where
  stack := hw.stack
  rstack := hw.rstack
  turn n := turn_ne_panic hw hm (Run_ne_panic (loop_ne_panic env n))
  operands c m' f' hpaid := by
    refine ⟨(hpaid.given hw hm).pops, ?_⟩
    rw [hpaid.regs]
    exact hw.stack
  memory c m' f' func hpaid hfunc := (hpaid.given hw hm).covered func hfunc
  casts c m' f' off size hpaid hcov hsize := by
    obtain ⟨hoff, hlen, -, hlt, hlt'⟩ := hcov.casts (hpaid.given hw hm).priced hsize
    exact ⟨hoff, by rw [hoff]; exact toInt64_of_lt hlt, hlen,
      by rw [hlen]; exact toInt64_of_lt hlt'⟩
  copied c m' f' op memOffset off length st data hpaid hop hst heval := by
    have hgiven := hpaid.given hw hm
    rw [hop] at hgiven
    have hcov : Covers f'.regs.memory memOffset length :=
      hgiven.covered _ rfl _ _ (by rw [hst]; rfl) (by rw [hst]; rfl)
    rcases @copied_eval C _ _ m' f'.contract op off length hgiven.code hgiven.input
      (hcov.size_lt hgiven.priced) with ⟨data', hdata, heq, hle⟩ | ⟨-, herr⟩
    · obtain rfl := Except.ok.inj (hdata.symm.trans heval)
      exact ⟨heq, hle⟩
    · cases herr.symm.trans heval
  extCode c m' f' a memOffset off length st hpaid hop hst := by
    have hgiven := hpaid.given hw hm
    rw [hop] at hgiven
    have hcov : Covers f'.regs.memory memOffset length :=
      hgiven.covered _ rfl _ _ (by rw [hst]; rfl) (by rw [hst]; rfl)
    exact getData_dataOffset64 (hgiven.codes _) (hcov.size_lt hgiven.priced)
  callData x := callDataLoad_eq hw.input x
  pushes size := pushData_slice _ _ size

/-- **The interpreter never panics**: for every environment, every state whose codes are byte slices,
and every request with an input or a code that is one, neither the run nor any turn of it, in any
frame, touches anything out of bounds. -/
theorem interpreter_never_panics (env : Env C) (m : Machine C) (req : Request)
    (hm : Sized m.session) (hinput : req.input.length < 2 ^ 63) :
    evm env m req ≠ .error .panic ∧
    ∀ m1 f1 m' f', Entered env m req m1 f1 → Visited env m1 f1 m' f' → Safe env m' f' := by
  refine ⟨perform_ne_panic hm hinput (Run_ne_panic (loop_ne_panic env _)), ?_⟩
  intro m1 f1 m' f' henter hvisited
  obtain ⟨hm1, hw1⟩ := entered_within hm hinput henter
  obtain ⟨hm', hw'⟩ := visited_within hvisited hm1 hw1
  exact safe_of_within hm' hw'

/-- A creation whose code is a push instruction without its data. -/
def truncatedPush : Request where
  kind := .Create
  caller := (frameOf [] 0).contract
  addr := default
  input := [0x7f]
  gas := 100
  value := 0
  salt := 0

/-- The truncated code is run, and safely. -/
theorem interpreter_never_panics_truncated :
    evm (sampleEnv {}) (machineOf emptyWorld) truncatedPush ≠ .error .panic ∧
    ∃ m1 f1, Entered (sampleEnv {}) (machineOf emptyWorld) truncatedPush m1 f1 ∧
      f1.contract.Code = [0x7f] ∧ Safe (sampleEnv {}) m1 f1 := by
  have hsized : Sized (machineOf emptyWorld).session :=
    ⟨fun _ => Nat.two_pow_pos 63, nofun⟩
  obtain ⟨hrun, hsafe⟩ := interpreter_never_panics (sampleEnv {}) (machineOf emptyWorld)
    truncatedPush hsized (by decide)
  have henter : Entered (sampleEnv {}) (machineOf emptyWorld) truncatedPush _ _ :=
    ⟨_, _, _, _, _, fun run => rfl, rfl, rfl⟩
  exact ⟨hrun, _, _, henter, rfl, hsafe _ _ _ _ henter (.here _ _)⟩

end MxtChain.Vm
