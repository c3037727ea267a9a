/-
# MxtChain.Vm.EntrySpec — what the entry points can do.

A call or a creation is refused, or it takes a snapshot, prepares the state, runs at most one
contract and settles the result. One statement says so, over whatever runs contracts
(`perform_cases`); that the only way to a panic or to an endless run is the contract that is run
follows from it (`perform_factor`).
-/
import MxtChain.Vm.StepSpec

namespace MxtChain.Vm

open State Lib

set_option linter.unusedSectionVars false

variable {C : Type} [CodeHash C] [DecidableEq C] {op : Op} {ops : List Op}
  {m1 m2 m before m0 m3 : Machine C} {env : Env C} {req : Request} {d : Done C} {r : Returned C}
  {address : Address} {e : Crash}

/-! ## §1 — Operations that succeed -/

/-- Every operation but these succeeds. -/
def surely : Op → Bool
  | .subRefund _ | .revertToSnapshot _ => false
  | _ => true

/-- The operations that prepare a state for a callee. -/
def preparing : Op → Bool
  | .createAccount _ | .setNonce _ _ | .subBalance _ _ | .addBalance _ _ => true
  | _ => false

theorem surely_of_preparing (h : preparing op = true) : surely op = true := by
  cases op <;> first | rfl | cases h

theorem step_surely (l : World.Session C) (hop : surely op = true) : ∃ l', l.step op = some l' := by
  cases op with
  | subRefund gas | revertToSnapshot id => cases hop
  | _ => exact ⟨_, rfl⟩

theorem run_surely (l : World.Session C) (hops : ∀ op ∈ ops, surely op = true) :
    ∃ l', l.run ops = some l' := by
  induction ops generalizing l with
  | nil => exact ⟨l, rfl⟩
  | cons op ops ih =>
    obtain ⟨l1, h1⟩ := step_surely l (hops op List.mem_cons_self)
    obtain ⟨l2, h2⟩ := ih l1 fun op hop => hops op (List.mem_cons_of_mem _ hop)
    exact ⟨l2, by rw [World.Session.run, h1]; exact h2⟩

theorem apply_surely (m : Machine C) (hops : ∀ op ∈ ops, surely op = true) :
    ∃ m', m.apply ops = .ok m' := by
  obtain ⟨l, hl⟩ := run_surely m.session hops
  exact ⟨_, apply_eq_ok.mpr ⟨l, hl, rfl⟩⟩

theorem apply_snapshot (h : m.apply [.snapshot] = .ok m1) : m1 = { m with session :=
      { m.session with
        saved := m.session.saved ++ [(m.session.next, m.session.world)]
        next := m.session.next + 1 } } := by
  obtain ⟨session, hs, rfl⟩ := apply_eq_ok.mp h
  cases hs
  rfl

/-- What is done to the state between the snapshot of a call and the run of the callee. -/
def Request.prelude (req : Request) (w : World C) : List Op :=
  match req.kind with
  | .Call =>
    (if Exist w req.addr then [] else [.createAccount req.addr]) ++
      Transfer req.caller.self req.addr req.value
  | .StaticCall => [.addBalance req.addr 0]
  | _ => []

theorem preparing_prelude (req : Request) (w : World C) :
    ∀ op ∈ req.prelude w, preparing op = true := by
  unfold Request.prelude Transfer
  split
  · split <;> simp [preparing]
  · simp [preparing]
  · simp

def Request.creates (req : Request) : Bool := decide (req.kind = .Create ∨ req.kind = .Create2)

/-- What a creation does to the state before its code runs. -/
def createPrelude (env : Env C) (caller address : Address) (value : Nat) : List Op :=
  [.createAccount address] ++ (if env.chainRules.IsEIP158 then [.setNonce address 1] else []) ++
    Transfer caller address value

theorem preparing_createPrelude (env : Env C) (caller address : Address) (value : Nat) :
    ∀ op ∈ createPrelude env caller address value, preparing op = true := by
  unfold createPrelude Transfer
  split <;> simp [preparing]

theorem preparing_setNonce (a : Address) (nonce : UInt64) :
    ∀ op ∈ [Op.setNonce a nonce], preparing op = true := by
  simp [preparing]

/-! ## §2 — Answers -/

/-- A call has taken its snapshot and prepared the state. -/
structure Called (m : Machine C) (req : Request) (m1 m2 : Machine C) : Prop where
  kind : req.creates = false
  funds : req.value = 0 ∨ req.kind = .DelegateCall ∨ req.kind = .StaticCall ∨
    CanTransfer m.world req.caller.self req.value = true
  snapshot : m.apply [.snapshot] = .ok m1
  ready : m1.apply (req.prelude m.world) = .ok m2

/-- A creation has counted up the nonce, taken its snapshot and prepared the state. -/
structure Founded (env : Env C) (m : Machine C) (req : Request) (address : Address)
    (m1 m2 m3 : Machine C) : Prop where
  kind : req.creates = true
  funds : CanTransfer m.world req.caller.self req.value = true
  nonce : m.apply [.setNonce req.caller.self (GetNonce m.world req.caller.self + 1)] = .ok m1
  snapshot : m1.apply [.snapshot] = .ok m2
  ready : m2.apply (createPrelude env req.caller.self address req.value) = .ok m3

/-- The result of a callee that is not run: a precompiled contract, or an account without code. -/
inductive Immediate (env : Env C) (m : Machine C) (req : Request) : Done C → Prop
  | precompiled (p : PrecompiledContract) (hp : env.precompile req.addr = some p) :
      Immediate env m req (RunPrecompiledContract p m req.input req.gas)
  | empty : Immediate env m req ⟨m, [], req.gas, none⟩

/-- The answer to a request, over whatever runs contracts. -/
inductive Performed (env : Env C) (m : Machine C) (req : Request)
    (answer : Runner C → Except Crash (Returned C)) : Prop
  /-- nothing is done -/
  | refused {err : Option VMError}
      (herr : err = none ∨ err = some .ErrDepth ∨ err = some .ErrInsufficientBalance)
      (h : ∀ run, answer run = .ok ⟨m, [], default, req.gas, err⟩)
  /-- a call without value of an account that does not exist -/
  | skipped {m1 : Machine C} (hkind : req.kind = .Call) (hsnap : m.apply [.snapshot] = .ok m1)
      (h : ∀ run, answer run = .ok ⟨m1, [], default, req.gas, none⟩)
  /-- the callee is not run -/
  | settled {m1 m2 : Machine C} {d : Done C} (hcall : Called m req m1 m2)
      (hd : Immediate env m2 req d) (h : ∀ run, answer run = settle m d)
  /-- the callee is run with the gas of the request and its result settled -/
  | called {m1 m2 : Machine C} (c : Contract) (hcall : Called m req m1 m2) (hgas : c.Gas = req.gas)
      (hcode : c.Code = GetCode m2.world req.addr)
      (h : ∀ run, answer run = run m2 c req.input (decide (req.kind = .StaticCall)) >>= settle m)
  /-- there is a contract at the address already -/
  | collided {m1 : Machine C} (hkind : req.creates = true)
      (hnonce : m.apply [.setNonce req.caller.self (GetNonce m.world req.caller.self + 1)] = .ok m1)
      (h : ∀ run, answer run = .ok ⟨m1, [], default, 0, some .ErrContractAddressCollision⟩)
  /-- the contract is created but not run -/
  | idle {m1 m2 m3 : Machine C} (address : Address) (hnew : Founded env m req address m1 m2 m3)
      (h : ∀ run, answer run = .ok ⟨m3, [], address, req.gas, none⟩)
  /-- the code of the contract is run and what it returns is stored -/
  | created {m1 m2 m3 : Machine C} (address : Address) (c : Contract)
      (hnew : Founded env m req address m1 m2 m3) (hgas : c.Gas = req.gas) (hcode : c.Code = req.input)
      (h : ∀ run, answer run = run m3 c [] false >>= deposit env m1 address)

namespace Performed

theorem ite {p : Prop} [Decidable p] {A B : Runner C → Except Crash (Returned C)}
    (hpos : p → Performed env m req A) (hneg : ¬p → Performed env m req B) :
    Performed env m req fun run => if p then A run else B run := by
  by_cases hp : p
  · simp only [if_pos hp]
    exact hpos hp
  · simp only [if_neg hp]
    exact hneg hp

theorem apply_bind
    {k : Runner C → Machine C → Except Crash (Returned C)} (hops : ∀ op ∈ ops, surely op = true)
    (h : ∀ m1, m0.apply ops = .ok m1 → Performed env m req fun run => k run m1) :
    Performed env m req fun run => m0.apply ops >>= k run := by
  obtain ⟨m1, hm1⟩ := apply_surely m0 hops
  rw [hm1]
  exact h m1 hm1

theorem callee {c : Contract} {readOnly : Bool} (hcall : Called m req m1 m2)
    (hgas : c.Gas = req.gas) (hcode : c.Code = GetCode m2.world req.addr)
    (hstatic : readOnly = decide (req.kind = .StaticCall)) : Performed env m req fun run =>
      runCallee run env m2 req.addr c req.input readOnly >>= settle m := by
  unfold runCallee
  cases hp : env.precompile req.addr with
  | some p => exact .settled hcall (.precompiled p hp) fun run => by rw [← hgas]; rfl
  | none => exact .called c hcall hgas hcode fun run => by rw [hstatic]

end Performed

theorem surely_snapshot : ∀ op ∈ [Op.snapshot], surely op = true := by simp [surely]

theorem Call_cases (hkind : req.kind = .Call) : Performed env m req fun run =>
      Call run env m req.caller.self req.addr req.input req.gas req.value := by
  have hpre : (if Exist m.world req.addr then [] else [.createAccount req.addr]) ++
      Transfer req.caller.self req.addr req.value = req.prelude m.world := by
    simp only [Request.prelude, hkind]
  unfold Call
  rw [hpre]
  refine .ite (fun _ => .refused (.inl rfl) fun _ => rfl) fun _ =>
    .ite (fun _ => .refused (.inr (.inl rfl)) fun _ => rfl) fun _ =>
    .ite (fun _ => .refused (.inr (.inr rfl)) fun _ => rfl) fun hfunds =>
    .apply_bind surely_snapshot fun m1 hsnap =>
    .ite (fun _ => .skipped hkind hsnap fun _ => rfl) fun _ =>
    .apply_bind (fun op hop => surely_of_preparing (preparing_prelude req _ op hop)) fun m2 hready => ?_
  rw [not_and_or, not_not, Bool.not_eq_false] at hfunds
  have hcall : Called m req m1 m2 :=
    ⟨by simp [Request.creates, hkind], hfunds.imp_right fun h => .inr (.inr h), hsnap, hready⟩
  exact .ite (fun _ => .settled hcall .empty fun _ => rfl) fun _ =>
    .callee hcall rfl rfl (by simp [hkind])

theorem called_of_snapshot (hkind : req.kind = .CallCode ∨ req.kind = .DelegateCall)
    (hfunds : req.kind = .CallCode → CanTransfer m.world req.caller.self req.value = true)
    (hsnap : m.apply [.snapshot] = .ok m1) : Called m req m1 m1 := by
  rcases hkind with hkind | hkind
  · refine ⟨by simp [Request.creates, hkind], .inr (.inr (.inr (hfunds hkind))), hsnap, ?_⟩
    simp only [Request.prelude, hkind]
    rfl
  · refine ⟨by simp [Request.creates, hkind], .inr (.inl hkind), hsnap, ?_⟩
    simp only [Request.prelude, hkind]
    rfl

theorem CallCode_cases (hkind : req.kind = .CallCode) : Performed env m req fun run =>
      CallCode run env m req.caller.self req.addr req.input req.gas req.value := by
  refine .ite (fun _ => .refused (.inl rfl) fun _ => rfl) fun _ =>
    .ite (fun _ => .refused (.inr (.inl rfl)) fun _ => rfl) fun _ =>
    .ite (fun _ => .refused (.inr (.inr rfl)) fun _ => rfl) fun hfunds =>
    .apply_bind surely_snapshot fun m1 hsnap => ?_
  rw [Bool.not_eq_false] at hfunds
  exact .callee (called_of_snapshot (.inl hkind) (fun _ => hfunds) hsnap) rfl
    (by rw [apply_snapshot hsnap]) (by simp [hkind])

theorem DelegateCall_cases (hkind : req.kind = .DelegateCall) : Performed env m req fun run =>
      DelegateCall run env m req.caller req.addr req.input req.gas := by
  refine .ite (fun _ => .refused (.inl rfl) fun _ => rfl) fun _ =>
    .ite (fun _ => .refused (.inr (.inl rfl)) fun _ => rfl) fun _ =>
    .apply_bind surely_snapshot fun m1 hsnap => ?_
  exact .callee (called_of_snapshot (.inr hkind) (fun h => by simp [hkind] at h) hsnap) rfl
    (by rw [apply_snapshot hsnap]) (by simp [hkind])

theorem StaticCall_cases (hkind : req.kind = .StaticCall) : Performed env m req fun run =>
      StaticCall run env m req.caller.self req.addr req.input req.gas := by
  have hpre : [.addBalance req.addr 0] = req.prelude m.world := by
    simp only [Request.prelude, hkind]
  unfold StaticCall
  rw [hpre]
  refine .ite (fun _ => .refused (.inl rfl) fun _ => rfl) fun _ =>
    .ite (fun _ => .refused (.inr (.inl rfl)) fun _ => rfl) fun _ =>
    .apply_bind surely_snapshot fun m1 hsnap =>
    .apply_bind (fun op hop => surely_of_preparing (preparing_prelude req _ op hop)) fun m2 hready => ?_
  have hcall : Called m req m1 m2 :=
    ⟨by simp [Request.creates, hkind], .inr (.inr (.inl hkind)), hsnap, hready⟩
  exact .callee hcall rfl rfl (by simp [hkind])

theorem create_cases (address : Address) (hkind : req.creates = true) :
    Performed env m req fun run =>
      create run env m req.caller.self req.input req.gas req.value address := by
  refine .ite (fun _ => .refused (.inr (.inl rfl)) fun _ => rfl) fun _ =>
    .ite (fun _ => .refused (.inr (.inr rfl)) fun _ => rfl) fun hfunds =>
    .apply_bind (by simp [surely]) fun m1 hnonce =>
    .ite (fun _ => .collided hkind hnonce fun _ => rfl) fun _ =>
    .apply_bind surely_snapshot fun m2 hsnap => .apply_bind (fun op hop =>
      surely_of_preparing (preparing_createPrelude env req.caller.self address req.value op hop))
      fun m3 hready => ?_
  rw [Bool.not_eq_false] at hfunds
  have hnew : Founded env m req address m1 m2 m3 := ⟨hkind, hfunds, hnonce, hsnap, hready⟩
  exact .ite (fun _ => .idle address hnew fun _ => rfl) fun _ =>
    .created address _ hnew rfl rfl fun _ => rfl

/-- **What a request can lead to.** -/
theorem perform_cases (env : Env C) (m : Machine C) (req : Request) :
    Performed env m req fun run => perform run env m req := by
  unfold perform
  cases hkind : req.kind with
  | Call => exact Call_cases hkind
  | CallCode => exact CallCode_cases hkind
  | DelegateCall => exact DelegateCall_cases hkind
  | StaticCall => exact StaticCall_cases hkind
  | Create | Create2 => exact create_cases _ (by simp [Request.creates, hkind])

/-! ## §3 — The end of a call and of a creation -/

theorem settle_cases (h : settle before d = .ok r) :
    (d.err = none ∧ r = ⟨d.machine, d.ret, default, d.gas, none⟩) ∨
    ∃ e m', d.err = some e ∧ d.machine.apply [.revertToSnapshot (snapshotId before)] = .ok m' ∧
      r = ⟨{ m' with destroyed := before.destroyed }, d.ret, default,
        if e = .ErrExecutionReverted then d.gas else 0, some e⟩ := by
  unfold settle at h
  split at h
  · next herr =>
    cases h
    exact .inl ⟨herr, rfl⟩
  next e herr =>
  obtain ⟨m', hrev, h⟩ := bind_ok.mp h
  cases h
  exact .inr ⟨e, m', herr, hrev, rfl⟩

theorem settle_error (h : settle before d = .error e) :
    d.machine.apply [.revertToSnapshot (snapshotId before)] = .error e := by
  unfold settle at h
  split at h
  · cases h
  · exact (bind_error.mp h).resolve_right fun ⟨m', _, h⟩ => nomatch h

/-- What storing the code of a creation leads to. -/
inductive Stored (address : Address) (d : Done C) : Done C → Prop
  | same : Stored address d d
  | unpaid (herr : d.err = none) : Stored address d { d with err := some .ErrCodeStoreOutOfGas }
  | stored {m' : Machine C} {gas : Nat} (herr : d.err = none) (hgas : gas ≤ d.gas)
      (hm' : d.machine.apply [.setCode address d.ret] = .ok m') :
      Stored address d { d with machine := m', gas }

theorem meets_storeCode (env : Env C) (address : Address) (d : Done C) :
    Meets (fun _ => False) (Stored address d) (storeCode env address d) := by
  refine .ite (fun hok => ?_) fun _ => .same
  refine .ite (fun _ => .unpaid hok.1) fun _ => ?_
  have hops : ∀ op ∈ [Op.setCode address d.ret], surely op = true := by simp [surely]
  obtain ⟨m', hm'⟩ := apply_surely d.machine hops
  rw [hm']
  exact .stored hok.1 (Nat.sub_le _ _) hm'

/-- A creation is kept, or undone if it has failed. -/
theorem deposit_cases (h : deposit env before address d = .ok r) : ∃ d', Stored address d d' ∧
      ((¬(maxCodeSizeExceeded env d'.ret = true ∨ (d'.err ≠ none ∧
          (env.chainRules.IsHomestead = true ∨ d'.err ≠ some .ErrCodeStoreOutOfGas))) ∧
        r = ⟨d'.machine, d'.ret, address, d'.gas, d'.err⟩) ∨
      ∃ m', d'.machine.apply [.revertToSnapshot (snapshotId before)] = .ok m' ∧
        r = ⟨{ m' with destroyed := before.destroyed }, d'.ret, address,
          if d'.err = some .ErrExecutionReverted then d'.gas else 0,
          if maxCodeSizeExceeded env d'.ret ∧ d'.err = none then some .ErrMaxCodeSizeExceeded
          else d'.err⟩) := by
  obtain ⟨d', hd', h⟩ := bind_ok.mp h
  refine ⟨d', (meets_storeCode env address d).of_ok hd', ?_⟩
  split at h
  · obtain ⟨m', hrev, h⟩ := bind_ok.mp h
    cases h
    exact .inr ⟨m', hrev, rfl⟩
  · next hkeep =>
    cases h
    exact .inl ⟨hkeep, rfl⟩

theorem deposit_error (h : deposit env before address d = .error e) : ∃ d', Stored address d d' ∧
      d'.machine.apply [.revertToSnapshot (snapshotId before)] = .error e := by
  rcases bind_error.mp h with h | ⟨d', hd', h⟩
  · exact ((meets_storeCode env address d).of_error h).elim
  refine ⟨d', (meets_storeCode env address d).of_ok hd', ?_⟩
  split at h
  · exact (bind_error.mp h).resolve_right fun ⟨m', _, h⟩ => nomatch h
  · cases h

/-! ## §4 — Ways to fail -/

/-- A state is prepared with snapshots and the operations for that. -/
inductive Prepared (m : Machine C) : Machine C → Prop
  | here : Prepared m m
  | snapshot {m1 m2 : Machine C} (h : Prepared m m1) (hsnap : m1.apply [.snapshot] = .ok m2) :
      Prepared m m2
  | apply {m1 m2 : Machine C} {ops : List Op} (h : Prepared m m1)
      (hops : ∀ op ∈ ops, preparing op = true) (hm : m1.apply ops = .ok m2) : Prepared m m2

theorem Called.prepared (h : Called m req m1 m2) : Prepared m m2 :=
  (Prepared.here.snapshot h.snapshot).apply (preparing_prelude req m.world) h.ready

theorem Founded.prepared (h : Founded env m req address m1 m2 m3) : Prepared m m3 :=
  ((Prepared.here.apply (preparing_setNonce _ _) h.nonce).snapshot h.snapshot).apply
    (preparing_createPrelude _ _ _ _) h.ready

/-- A computation fails only as the state database does. -/
def Tame (x : Except Crash (Returned C)) : Prop := ∀ e, x = .error e → e = .statePanic

theorem tame_ok (r : Returned C) : Tame (.ok r) := nofun

/-- An answer that needs no contract to be run, or is the end of the run of one contract with the
gas of the request, in a state that has been prepared. -/
inductive Factored (m : Machine C) (req : Request)
    (answer : Runner C → Except Crash (Returned C)) : Prop
  | constant (x : Except Crash (Returned C)) (htame : Tame x) (h : ∀ run, answer run = x)
  | run (m' : Machine C) (c : Contract) (input : Bytes) (readOnly : Bool)
      (g : Done C → Except Crash (Returned C)) (hgas : c.Gas = req.gas)
      (hinput : input = req.input ∨ input = [])
      (hcode : c.Code = req.input ∨ ∃ a, c.Code = GetCode m'.world a)
      (hprepared : Prepared m m') (htame : ∀ d, Tame (g d))
      (h : ∀ run, answer run = (run m' c input readOnly >>= g))

/-- **A request is answered with the run of one contract at most.** -/
theorem perform_factor (env : Env C) (m : Machine C) (req : Request) :
    Factored m req fun run => perform run env m req := by
  cases perform_cases env m req with
  | refused herr h | skipped hkind hsnap h => exact .constant _ (tame_ok _) h
  | settled hcall hd h => exact .constant _ (fun _ he => apply_error (settle_error he)) h
  | called c hcall hgas hcode h =>
    exact .run _ c req.input _ _ hgas (.inl rfl) (.inr ⟨_, hcode⟩) hcall.prepared
      (fun _ _ he => apply_error (settle_error he)) h
  | collided hkind hnonce h | idle address hnew h => exact .constant _ (tame_ok _) h
  | created address c hnew hgas hcode h =>
    refine .run _ c [] false _ hgas (.inr rfl) (.inl hcode) hnew.prepared (fun d e he => ?_) h
    obtain ⟨d', -, he⟩ := deposit_error he
    exact apply_error he

end MxtChain.Vm
