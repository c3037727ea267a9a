/-
# MxtChain.Core.RefundSpec — the refund counter over a transaction.

A transaction starts with an empty counter and with every slot as the last one has left it. Under
net metering `SubRefund` is then never asked for more than there is, unless the counter wraps around,
for which a fifth of 2⁶⁴ of gas is not enough and 2⁶⁴ is.
-/
import MxtChain.Core.TransitionSpec
import MxtChain.Vm.RefundWrap

namespace MxtChain.Core

open State Vm Lib

set_option linter.unusedSectionVars false

variable {C : Type} [CodeHash C] [DecidableEq C] {env : Env C} {session : World.Session C}
  {msg : Message} {gp amount : UInt64} {st : StateTransition C} {c e : Crash}

/-! ## §1 — Where a transition can crash -/

theorem mapError_apply_surely {m : Machine C} {ops : List Op} (hops : ∀ op ∈ ops, surely op = true)
    {e : Panic} : (m.apply ops).mapError Panic.vm ≠ .error e := fun h => by
  obtain ⟨c, h, -⟩ := mapError_error.mp h
  obtain ⟨m', hm'⟩ := apply_surely m hops
  cases hm'.symm.trans h

theorem AddGas_ne_vm : AddGas gp amount ≠ .error (.vm c) := by
  unfold AddGas
  split <;> simp

/-- After the checks only the run of the message can crash. -/
theorem settleGas_crash (h : st.settleGas env = .error (.vm c)) :
    ∃ m2, st.machine.apply (if st.msg.To.isNone then []
        else [.setNonce st.msg.From (GetNonce st.machine.world st.msg.From + 1)]) = .ok m2 ∧
      evm env m2 st.request = .error c := by
  rcases bind_error.mp h with h | ⟨⟨st1, r⟩, -, h⟩
  · rcases bind_error.mp h with h | ⟨m2, hm2, h⟩
    · refine absurd h (mapError_apply_surely fun op hop => ?_)
      split at hop
      · cases hop
      · rw [List.mem_singleton.mp hop]
        rfl
    · rcases bind_error.mp h with h | ⟨r, -, h⟩
      · obtain ⟨c', hc', h⟩ := mapError_error.mp h
        cases h
        exact ⟨m2, mapError_ok.mp hm2, hc'⟩
      · cases h
  · rcases bind_error.mp h with h | ⟨st2, -, h⟩
    · rcases bind_error.mp h with h | ⟨m', -, h⟩
      · exact absurd h (mapError_apply_surely (by simp [surely]))
      · rcases bind_error.mp h with h | ⟨gp', -, h⟩
        · exact absurd h AddGas_ne_vm
        · cases h
    · rcases bind_error.mp h with h | ⟨m', -, h⟩
      · exact absurd h (mapError_apply_surely (by simp [surely]))
      · cases h

/-- Only the run of the message can crash. -/
theorem TransitionDb_crash
    (h : (NewStateTransition session msg gp).TransitionDb env = .error (.vm c)) :
    ∃ m1 m2 req, ({ session } : Machine C).apply
        [.subBalance msg.From (msg.Gas.toNat * msg.GasPrice : Nat)] = .ok m1 ∧
      m1.apply (if msg.To.isNone then []
        else [.setNonce msg.From (GetNonce m1.world msg.From + 1)]) = .ok m2 ∧
      req.gas ≤ msg.Gas.toNat ∧ evm env m2 req = .error c := by
  rcases TransitionDb_factor env session msg gp with ⟨-, e, heq⟩ | ⟨hpass, heq⟩
  · cases heq.symm.trans h
  rcases bind_error.mp (heq.symm.trans h) with hm | ⟨m1, hm1, h⟩
  · exact absurd hm (mapError_apply_surely (by simp [surely]))
  rcases afterCheck_factor env (boughtGas msg gp m1) with ⟨st', e, heq, -⟩ | ⟨gas, hle, heq⟩
  · cases heq.symm.trans h
  · obtain ⟨m2, hm2, hr⟩ := settleGas_crash (heq.symm.trans h)
    exact ⟨m1, m2, _, mapError_ok.mp hm1, hm2, ((hpass.bought m1).take hle).toNat_gas_le, hr⟩

/-! ## §2 — The counter over a transaction -/

/-- How a transaction finds the state: the counter is empty, and every slot as the last one has left
it. -/
structure AtBoundary (w : World C) : Prop where
  refund : w.refund = 0
  slots : ∀ a key, GetState w a key = GetCommittedState w a key

/-- Nothing can be asked back, and nothing is left to give. -/
theorem AtBoundary.refunded {w : World C} (h : AtBoundary w) : Refunded 0 w := by
  have hzero : ∀ φ : Hash → Hash → Nat, (∀ x, φ x x = 0) → potential φ w = 0 := by
    intro φ hφ
    refine Finset.sum_eq_zero fun p _ => ?_
    unfold slotOf
    rw [h.slots]
    exact hφ _
  have hdebt : potential debt w = 0 := by
    refine hzero debt fun x => if_neg ?_
    rintro ⟨hne, heq⟩
    exact hne heq
  have hreserve : potential reserve w = 0 := hzero reserve fun x => if_pos rfl
  constructor
  · rw [hdebt]
    exact Nat.zero_le _
  · rw [hreserve, h.refund]
    exact le_rfl

/-- **The refund counter is never asked for more than it holds**, in a transaction whose gas is below
a fifth of 2⁶⁴: whatever it calls, creates, stores, destroys and reverts. -/
theorem subRefund_never_panics (env : Env C) (session : World.Session C) (msg : Message)
    (gp : UInt64) (hrules : Metered env.chainRules) (hbelow : SnapshotsBelow session)
    (hstart : AtBoundary session.world) (hgas : 5 * msg.Gas.toNat < 2 ^ 64) :
    (NewStateTransition session msg gp).TransitionDb env ≠ .error (.vm .statePanic) := by
  intro h
  obtain ⟨m1, m2, req, hm1, hm2, hle, h⟩ := TransitionDb_crash h
  obtain ⟨hw1, -, hc1⟩ := apply_one rfl hm1
  have hr1 : Refunded 0 m1.world := refunded_apply rfl hstart.refunded hw1
  have hops : ∀ op ∈ (if msg.To.isNone then []
      else [Op.setNonce msg.From (GetNonce m1.world msg.From + 1)]),
      plainOp op = true ∧ slotSafe op = true := by
    intro op hop
    split at hop
    · cases hop
    · rw [List.mem_singleton.mp hop]
      exact ⟨rfl, rfl⟩
  obtain ⟨hw2, -, hc2⟩ := apply_plain (fun op hop => (hops op hop).1) hm2
  have hr2 : Refunded 0 m2.world := refunded_applyAll (fun op hop => (hops op hop).2) hr1 hw2
  refine evm_ne_statePanic hrules (hc2.grown.below (hc1.grown.below hbelow)) (u := 0) ?_ hr2 h
  omega

/-! ## §3 — A counter that wraps -/

/-- A world whose only account is the clearing contract, with every slot filled. -/
def filledWorld : World Bytes :=
  emptyWorld.create clearer { (LogicalAccount.fresh : LogicalAccount Bytes) with
    codeHash := clearingCode
    code := some clearingCode
    state := fun _ => filled
    committed := fun _ => filled }

/-- A call of the clearing contract, with as much gas. -/
def clearMessage (gas : UInt64) : Message where
  From := default
  To := some clearer
  GasPrice := 0
  Gas := gas
  Value := 0
  Nonce := 0
  CheckNonce := true
  Data := []

theorem filledWorld_atBoundary : AtBoundary filledWorld := by
  refine ⟨rfl, fun a key => ?_⟩
  rw [GetState_eq, GetCommittedState_eq, filledWorld, account_create]
  by_cases ha : a = clearer
  · rw [ha, Function.update_self]
  · rw [Function.update_of_ne ha]
    rfl

/-- With a hundred thousand units of gas the clearing contract runs out of gas. -/
theorem subRefund_never_panics_clearing :
    AtBoundary filledWorld ∧ 5 * (clearMessage 100000).Gas.toNat < 2 ^ 64 ∧
    (NewStateTransition { world := filledWorld } (clearMessage 100000) 200000).TransitionDb
      (sampleEnv netRules) ≠ .error (.vm .statePanic) :=
  ⟨filledWorld_atBoundary, by decide,
    subRefund_never_panics (sampleEnv netRules) { world := filledWorld } (clearMessage 100000)
      200000 ⟨rfl, .inr (.inr ⟨rfl, rfl⟩)⟩ (nofun) filledWorld_atBoundary
      (by decide)⟩

/-- The state when the clearing contract is called: the gas is paid and the nonce counted. -/
def calledSession : World.Session Bytes :=
  (World.Session.run { world := filledWorld } [.subBalance default 0, .setNonce default 1]).getD
    { world := filledWorld }

/-- The state when it is run: a snapshot has been taken. -/
def runSession : World.Session Bytes :=
  { calledSession with saved := [(0, calledSession.world)], next := 1 }

theorem call_clearing {run : Runner Bytes} {gas : Nat}
    (h : run { session := runSession } (clearingAt 0 [] gas).contract [] false = .error e) :
    Call run (sampleEnv netRules) { session := calledSession } default clearer [] gas 0 =
      .error e := by
  refine bind_error.mpr (.inr ⟨{ session := runSession }, rfl, ?_⟩)
  refine bind_error.mpr (.inr ⟨{ session := runSession }, rfl, ?_⟩)
  refine (if_neg (by decide)).trans ?_
  exact bind_error.mpr (.inl h)

/-- **With 2⁶⁴ − 1 units of gas the counter wraps around**, and the last store of the contract asks
back more than it holds. -/
theorem subRefund_panics_after_wrap : AtBoundary filledWorld ∧
    (NewStateTransition { world := filledWorld } (clearMessage MaxUint64) MaxUint64).TransitionDb
      (sampleEnv netRules) = .error (.vm .statePanic) := by
  refine ⟨filledWorld_atBoundary, ?_⟩
  have hloop : loop (sampleEnv netRules) (18446744073709530615 + 1) (clearing runSession)
      (clearingAt 0 [] 18446744073709530615) = .error .statePanic :=
    loop_clearing _ (by decide) (by decide) rfl fun j _ _ => rfl
  have hevm : Call (Run (loop (sampleEnv netRules) (18446744073709530615 + 1))) (sampleEnv netRules)
      { session := calledSession } default clearer [] 18446744073709530615 0 =
        .error .statePanic := by
    refine call_clearing (map_error.mpr ?_)
    exact (if_neg (by decide)).trans hloop
  refine bind_error.mpr (.inr ⟨(_, none), rfl, ?_⟩)
  refine bind_error.mpr (.inl (bind_error.mpr (.inr ⟨{ session := calledSession }, rfl, ?_⟩)))
  exact bind_error.mpr (.inl (mapError_error.mpr ⟨.statePanic, hevm, rfl⟩))

end MxtChain.Core
