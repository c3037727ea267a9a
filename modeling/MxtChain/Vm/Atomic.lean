/-
# MxtChain.Vm.Atomic — failed calls are undone.

An entry point that returns an error has put back the state it found, whatever its callees have done
and whether they succeeded. A creation first counts up the creator's nonce, and that stays; before
Homestead a creation that cannot pay for storing its code returns an error and is not undone, and
keeps its gas.
-/
import MxtChain.Vm.Kept

namespace MxtChain.Vm

open State Lib

variable {C : Type} [CodeHash C] [DecidableEq C] {env : Env C} {m m1 : Machine C} {req : Request}
  {d : Done C} {r : Returned C} {e : VMError}

theorem kept_true (env : Env C) : Kept env fun _ _ _ _ => True :=
  ⟨fun _ _ _ => trivial, fun _ _ _ _ _ _ _ _ => trivial, fun _ _ _ _ => trivial,
    fun _ _ _ _ _ _ _ _ _ _ _ _ => trivial, fun _ _ _ _ _ _ _ _ _ => trivial,
    fun _ _ _ _ _ => trivial, fun _ _ _ _ _ _ _ _ _ _ => trivial, fun _ _ _ _ _ _ => trivial⟩

theorem loop_carried (env : Env C) (n : Nat) :
    Runner.KeptBy env (fun _ _ _ _ => True) (Run (loop env n)) :=
  Run_kept (kept_true env) (loop_kept (kept_true env) n)

theorem settle_failed (hm : SnapshotsBelow m.session) (hsnap : m.apply [.snapshot] = .ok m1)
    (hc : Carried m1 d.machine) (h : settle m d = .ok r) (he : r.err = some e) :
    r.machine.world = m.world ∧ (e ≠ .ErrExecutionReverted → r.leftOverGas = 0) := by
  rcases settle_cases h with ⟨-, rfl⟩ | ⟨e', m', -, hrev, rfl⟩
  · cases he
  · cases he
    exact ⟨(carried_revert hm hsnap hc hrev).1, fun hne => if_neg hne⟩

/-- A creation that fails, other than by not being able to pay for its code before Homestead. -/
theorem deposit_failed {address : Address} {m2 : Machine C} (hm : SnapshotsBelow m1.session)
    (hsnap : m1.apply [.snapshot] = .ok m2) (hc : Carried m2 d.machine)
    (herr : OfFrame d.err) (h : deposit env m1 address d = .ok r) (he : r.err = some e)
    (hhome : env.chainRules.IsHomestead = true ∨ e ≠ .ErrCodeStoreOutOfGas) :
    r.machine.world = m1.world ∧ (e ≠ .ErrExecutionReverted → r.leftOverGas = 0) ∧
      e ≠ .ErrDepth ∧ e ≠ .ErrInsufficientBalance := by
  obtain ⟨d', hd', h⟩ := deposit_cases h
  have hc' := hc.trans hd'.carried
  have hrefusal : d'.err ≠ some .ErrDepth ∧ d'.err ≠ some .ErrInsufficientBalance := by
    cases hd' with
    | same => exact ⟨by rintro h; rw [h] at herr; exact herr, by rintro h; rw [h] at herr; exact herr⟩
    | unpaid hnone => exact ⟨by simp, by simp⟩
    | stored hnone hgas hm' => exact ⟨by simp [hnone], by simp [hnone]⟩
  obtain ⟨hdepth, hbalance⟩ := hrefusal
  rcases h with ⟨hkeep, rfl⟩ | ⟨m', hrev, rfl⟩
  · change d'.err = some e at he
    refine absurd (.inr ⟨by rw [he]; simp, ?_⟩) hkeep
    rw [he]
    exact hhome.imp_right fun hne => by simpa using hne
  change (if _ then some VMError.ErrMaxCodeSizeExceeded else d'.err) = some e at he
  refine ⟨(carried_revert hm hsnap hc' hrev).1, fun hne => if_neg fun hrevert => hne ?_, ?_⟩
  · rw [hrevert] at he
    simpa using he.symm
  · split at he
    · cases he
      exact ⟨by simp, by simp⟩
    · exact ⟨fun h => hdepth (h ▸ he), fun h => hbalance (h ▸ he)⟩

/-- **Failed calls are atomic.** Whenever an entry point returns an error, at any depth and for any
code, the whole state is the one before the call; of a creation that passed the checks of depth and
balance the creator's nonce stays counted up, and before Homestead one that cannot pay for its code
is not undone. The gas is gone, unless the error is a revert, a refusal or that one. -/
theorem failed_call_atomic (env : Env C) (n : Nat) (m : Machine C) (req : Request) (r : Returned C)
    (e : VMError) (hm : SnapshotsBelow m.session)
    (h : perform (Run (loop env n)) env m req = .ok r) (he : r.err = some e)
    (hhome : env.chainRules.IsHomestead = true ∨ e ≠ .ErrCodeStoreOutOfGas) :
    (if req.creates = true ∧ e ≠ .ErrDepth ∧ e ≠ .ErrInsufficientBalance then
      m.world.apply (.setNonce req.caller.self (GetNonce m.world req.caller.self + 1)) =
        some r.machine.world
    else r.machine.world = m.world) ∧
    (e ≠ .ErrExecutionReverted → e ≠ .ErrDepth → e ≠ .ErrInsufficientBalance →
      r.leftOverGas = 0) := by
  have hrun := loop_carried env n
  cases perform_cases env m req with
  | refused herr hans =>
    cases (hans _).symm.trans h
    have hrefusal : e = .ErrDepth ∨ e = .ErrInsufficientBalance := by
      rcases herr with rfl | rfl | rfl
      · cases he
      · exact .inl (Option.some.inj he).symm
      · exact .inr (Option.some.inj he).symm
    refine ⟨?_, fun _ h1 h2 => (hrefusal.elim h1 h2).elim⟩
    rw [if_neg fun hc => hrefusal.elim hc.2.1 hc.2.2]
  | skipped hkind hsnap hans =>
    cases (hans _).symm.trans h
    cases he
  | settled hcall hd hans =>
    have hc2 := (apply_preparing (preparing_prelude req m.world) hcall.ready).2.2
    rw [← hd.machine] at hc2
    obtain ⟨hw, hgas⟩ := settle_failed hm hcall.snapshot hc2 ((hans _).symm.trans h) he
    refine ⟨?_, fun hne _ _ => hgas hne⟩
    rw [if_neg fun hc => by rw [hcall.kind] at hc; cases hc.1]
    exact hw
  | called c hcall hgas hcode hans =>
    obtain ⟨d, hd, h⟩ := bind_ok.mp ((hans _).symm.trans h)
    have hc2 := (apply_preparing (preparing_prelude req m.world) hcall.ready).2.2
    have hcd := (hrun _ _ _ _ _ (hcall.carried.grown.below hm) hd).1
    obtain ⟨hw, hgas⟩ := settle_failed hm hcall.snapshot (hc2.trans hcd) h he
    refine ⟨?_, fun hne _ _ => hgas hne⟩
    rw [if_neg fun hc => by rw [hcall.kind] at hc; cases hc.1]
    exact hw
  | collided hkind hnonce hans =>
    cases (hans _).symm.trans h
    cases he
    have hw := (apply_preparing (preparing_setNonce _ _) hnonce).1
    refine ⟨?_, fun _ _ _ => rfl⟩
    rw [if_pos ⟨hkind, by simp, by simp⟩]
    exact hw
  | idle address hnew hans =>
    cases (hans _).symm.trans h
    cases he
  | created address c hnew hgas hcode hans =>
    obtain ⟨d, hr, h⟩ := bind_ok.mp ((hans _).symm.trans h)
    obtain ⟨hw1, -, hc1⟩ := apply_preparing (preparing_setNonce _ _) hnew.nonce
    have hc3 := (apply_preparing (preparing_createPrelude _ _ _ _) hnew.ready).2.2
    have hbelow1 := hc1.grown.below hm
    have hbelow3 := ((carried_snapshot hnew.snapshot).2.2.trans hc3).grown.below hbelow1
    obtain ⟨hcd, herr, -⟩ := hrun _ _ _ _ _ hbelow3 hr
    obtain ⟨hw, hgas, hdepth, hbalance⟩ :=
      deposit_failed hbelow1 hnew.snapshot (hc3.trans hcd) herr h he hhome
    refine ⟨?_, fun hne _ _ => hgas hne⟩
    rw [if_pos ⟨hnew.kind, hdepth, hbalance⟩, hw, ← applyAll_singleton]
    exact hw1

/-- A request to create a contract from a code, with so much gas. -/
def creation (code : Bytes) (gas : Nat) : Request where
  kind := .Create
  caller := (frameOf [] 0).contract
  addr := default
  input := code
  gas := gas
  value := 0
  salt := 0

/-- A creation with an invalid instruction: the nonce is counted up, the gas is gone. -/
theorem failed_call_atomic_invalid :
    ∃ r, perform (Run (loop (sampleEnv { IsHomestead := true }) 101))
        (sampleEnv { IsHomestead := true }) (machineOf emptyWorld) (creation [0xfe] 100) = .ok r ∧
      r.err = some (.frame (.ErrInvalidOpCode 0xfe)) ∧ r.leftOverGas = 0 := by
  refine ⟨_, rfl, rfl, ?_⟩
  exact (failed_call_atomic (sampleEnv { IsHomestead := true }) 101 (machineOf emptyWorld)
    (creation [0xfe] 100) _ (.frame (.ErrInvalidOpCode 0xfe)) (nofun) rfl rfl
    (.inl rfl)).2 (by decide) (by decide) (by decide)

/-- Before Homestead a creation that cannot pay for storing its code returns an error and keeps its
gas. -/
theorem codeDeposit_keeps_gas :
    ∃ r, perform (Run (loop (sampleEnv {}) 101)) (sampleEnv {}) (machineOf emptyWorld)
        (creation [0x60, 1, 0x60, 0, 0xf3] 100) = .ok r ∧
      r.err = some .ErrCodeStoreOutOfGas ∧ r.leftOverGas = 91 :=
  ⟨_, rfl, rfl, rfl⟩

end MxtChain.Vm
