/-
# MxtChain.Vm.Static — static calls do not write.

The write protection is a flag of the interpreter that a static call sets and every frame inside it
inherits. An instance of the rule of `Vm.Kept`: under the flag an instruction or the preparation of
a call may bring an account into existence or touch it, which no getter but `Exist` notices, and
nothing else happens to the state.
-/
import MxtChain.Vm.Accounts

namespace MxtChain.Vm

open State Lib

set_option linter.unusedSectionVars false

variable {C : Type} [CodeHash C] [DecidableEq C] {w w' w'' : World C} {a : Address}

/-! ## §1 — Worlds that look the same -/

/-- Balance, nonce, code, storage and suicide flag of every account, the logs and the refund counter
are the same. -/
structure SameView (w w' : World C) : Prop where
  balance : ∀ a, GetBalance w' a = GetBalance w a
  nonce : ∀ a, GetNonce w' a = GetNonce w a
  code : ∀ a, GetCode w' a = GetCode w a
  state : ∀ a key, GetState w' a key = GetState w a key
  suicided : ∀ a, HasSuicided w' a = HasSuicided w a
  logs : w'.logs = w.logs
  logSize : w'.logSize = w.logSize
  refund : w'.refund = w.refund

namespace SameView

theorem refl (w : World C) : SameView w w :=
  ⟨fun _ => rfl, fun _ => rfl, fun _ => rfl, fun _ _ => rfl, fun _ => rfl, rfl, rfl, rfl⟩

theorem trans (h : SameView w w') (h' : SameView w' w'') : SameView w w'' where
  balance a := (h'.balance a).trans (h.balance a)
  nonce a := (h'.nonce a).trans (h.nonce a)
  code a := (h'.code a).trans (h.code a)
  state a key := (h'.state a key).trans (h.state a key)
  suicided a := (h'.suicided a).trans (h.suicided a)
  logs := h'.logs.trans h.logs
  logSize := h'.logSize.trans h.logSize
  refund := h'.refund.trans h.refund

theorem of_account (hacc : account w' = account w) (hb : SameBeside w w') : SameView w w' where
  balance a := by rw [GetBalance_eq, GetBalance_eq, hacc]
  nonce a := by rw [GetNonce_eq, GetNonce_eq, hacc]
  code a := by rw [GetCode_eq, GetCode_eq, hacc]
  state a key := by rw [GetState_eq, GetState_eq, hacc]
  suicided a := by rw [HasSuicided_eq, HasSuicided_eq, hacc]
  logs := hb.logs
  logSize := hb.logSize
  refund := hb.refund

end SameView

theorem sameView_addPreimage {hash : Hash} {data : Bytes}
    (h : w.apply (.addPreimage hash data) = some w') : SameView w w' :=
  .of_account (account_of_offAccounts rfl h) (sameBeside_of_apply (.inr ⟨hash, data, rfl⟩) h)

theorem sameView_addBalance_zero (h : w.apply (.addBalance a 0) = some w') : SameView w w' := by
  refine .of_account ?_ (sameBeside_of_apply (.inl rfl) h)
  rw [account_addBalance h, Int.add_zero, Function.update_eq_self]

theorem sameView_subBalance_zero (h : w.apply (.subBalance a 0) = some w') : SameView w w' := by
  refine .of_account ?_ (sameBeside_of_apply (.inl rfl) h)
  rw [account_subBalance h, Int.sub_zero, Function.update_eq_self]

/-- An account that did not exist looks as it did. -/
theorem sameView_createAccount (hexist : Exist w a = false)
    (h : w.apply (.createAccount a) = some w') : SameView w w' := by
  refine .of_account ?_ (sameBeside_of_apply (.inl rfl) h)
  have hfresh : account w a = .fresh := account_of_none (Option.not_isSome_iff_eq_none.mp (by
    unfold Exist at hexist
    rw [hexist]
    exact Bool.false_ne_true))
  have hsame : { LogicalAccount.fresh with balance := (account w a).balance } = account w a := by
    rw [hfresh]
  rw [account_createAccount h, hsame, Function.update_eq_self]

theorem sameView_transfer_zero {sender recipient : Address}
    (h : applyAll w (Transfer sender recipient 0) = some w') : SameView w w' := by
  obtain ⟨w1, h1, h⟩ := Option.bind_eq_some_iff.mp h
  obtain ⟨w2, h2, h⟩ := Option.bind_eq_some_iff.mp h
  cases h
  exact (sameView_subBalance_zero h1).trans (sameView_addBalance_zero h2)

/-- The preparation of a call without value. -/
theorem sameView_prelude {req : Request} (hvalue : req.kind = .Call → req.value = 0)
    (h : applyAll w (req.prelude w) = some w') : SameView w w' := by
  unfold Request.prelude at h
  split at h
  · next hkind =>
    rw [hvalue hkind] at h
    split at h
    · exact sameView_transfer_zero h
    next hexist =>
    obtain ⟨w1, h1, h⟩ := Option.bind_eq_some_iff.mp h
    exact (sameView_createAccount (Bool.eq_false_iff.mpr hexist) h1).trans
      (sameView_transfer_zero h)
  · obtain ⟨w1, h1, h⟩ := Option.bind_eq_some_iff.mp h
    cases h
    exact sameView_addBalance_zero h1
  · cases h
    exact .refl w

/-! ## §2 — The rule -/

/-- What a write-protected frame keeps; a frame that may write keeps nothing. -/
def Unwritten (b : Bool) (_ : Nat) (x y : Books C) : Prop := b = true → SameView x.1 y.1

/-- An instruction under write protection. -/
theorem instr_sameView {env : Env C} {m m' m'' : Machine C} {f f' : Frame} {c : Charged}
    {op : Instr} {e : Effect} (hpaid : Paid env m f c m' f') (hop : c.operation.execute = .instr op)
    (hrun : op.run env m' f'.contract f'.regs = .ok e) (hm'' : m'.apply e.ops = .ok m'')
    (hp : isProtected env m = true) : SameView m.world m''.world := by
  obtain ⟨hwriting, hgas⟩ := hpaid.toAdmitted.not_writing hp
  have hworld : m'.world = m.world := by
    have hops := hpaid.ops
    rw [hgas] at hops
    cases hops
    rfl
  rw [hop] at hwriting
  have heffect := stateEffect_of_run hrun
  have hw := (apply_plain heffect.plain hm'').1
  rw [hworld] at hw
  generalize e.ops = ops, e.destroyed = destroyed at heffect hw
  cases heffect with
  | quiet op =>
    rw [← Option.some.inj hw]
    exact .refl _
  | preimage hash data => exact sameView_addPreimage ((applyAll_singleton _ _).symm.trans hw)
  | store hst | log size log | suicide beneficiary => cases hwriting

theorem kept_unwritten (env : Env C) : Kept env Unwritten where
  refl _ _ _ _ := .refl _
  trans _ _ _ _ _ _ h h' hb := (h hb).trans (h' hb)
  weaken _ _ _ _ hb := nomatch hb
  instr _ _ _ _ _ _ _ _ hpaid hop hrun hm'' hp := instr_sameView hpaid hop hrun hm'' hp
  call _ _ _ _ _ _ hvalue _ h hb := sameView_prelude (hvalue hb) h
  nonce _ _ _ _ _ hb := nomatch hb
  create _ _ _ _ _ _ _ _ _ _ hb := nomatch hb
  code _ _ _ _ _ _ hb := nomatch hb

/-- **Static calls do not write.** Under Byzantium rules a static call leaves the balance, nonce,
code, storage and suicide flag of every account, the logs and the refund counter as they were,
whatever code it runs and whether it succeeds or fails, and the read-only flag of the interpreter is
what it was. -/
theorem staticCall_writes_nothing (env : Env C) (n : Nat) (m : Machine C) (caller : Contract)
    (addr : Address) (input : Bytes) (gas : Nat) (r : Returned C)
    (hbyzantium : env.chainRules.IsByzantium = true) (hm : SnapshotsBelow m.session)
    (h : StaticCall (Run (loop env n)) env m caller.self addr input gas = .ok r) :
    SameView m.world r.machine.world ∧ r.machine.readOnly = m.readOnly := by
  have hrun := Run_kept (kept_unwritten env) (loop_kept (kept_unwritten env) n)
  let req : Request := ⟨.StaticCall, caller, addr, input, gas, 0, 0⟩
  have hperm : Permitted env m req := fun _ => ⟨rfl, nofun⟩
  refine ⟨?_, (perform_kept (kept_unwritten env) hrun hm hperm h).1.readOnly⟩
  have hsettle : ∀ {m1 m2 d}, Called m req m1 m2 → Carried m2 d.machine →
      (d.err = none → SameView m2.world d.machine.world) → settle m d = .ok r →
      SameView m.world r.machine.world := by
    intro m1 m2 d hcall hcd hsame h
    obtain ⟨hw, -, -⟩ := carried_snapshot hcall.snapshot
    obtain ⟨hw2, -, hc2⟩ := apply_preparing (preparing_prelude req m.world) hcall.ready
    rw [hw] at hw2
    rcases settle_cases h with ⟨herr, rfl⟩ | ⟨e, m', -, hrev, rfl⟩
    · exact (sameView_prelude (fun hcall => by cases hcall) hw2).trans (hsame herr)
    have hback := (carried_revert hm hcall.snapshot (hc2.trans hcd) hrev).1
    change SameView m.world m'.world
    rw [hback]
    exact .refl _
  cases perform_cases env m req with
  | refused herr hans =>
    cases (hans _).symm.trans h
    exact .refl _
  | skipped hkind hsnap hans => cases hkind
  | settled hcall hd hans =>
    refine hsettle hcall ?_ (fun _ => ?_) ((hans _).symm.trans h)
    · rw [hd.machine]
      exact .refl _
    · rw [hd.machine]
      exact .refl _
  | called c hcall hgas hcode hans =>
    obtain ⟨d, hd, h⟩ := bind_ok.mp ((hans _).symm.trans h)
    obtain ⟨hcd, -, hR⟩ := hrun _ _ _ _ _ (hcall.carried.grown.below hm) hd
    refine hsettle hcall hcd (fun herr => hR herr ?_) h
    simp [isProtected, Machine.enter, req, hbyzantium]
  | collided hkind hnonce hans => cases hkind
  | idle address hnew hans | created address c hnew hgas hcode hans => cases hnew.kind

/-- A world with one account that stores in its slots when it is called. -/
def storingWorld : World Bytes :=
  emptyWorld.create (Address.ofBytes [7])
    { LogicalAccount.fresh with code := some [0x60, 1, 0x60, 0, 0x55] }

/-- A static call of a contract that stores fails and stores nothing. -/
theorem staticCall_writes_nothing_storing :
    ∃ r, StaticCall (Run (loop (sampleEnv { IsByzantium := true }) 1001))
        (sampleEnv { IsByzantium := true }) (machineOf storingWorld) default
        (Address.ofBytes [7]) [] 1000 = .ok r ∧
      r.err = some (.frame .ErrWriteProtection) ∧ SameView storingWorld r.machine.world ∧
      r.machine.readOnly = false := by
  refine ⟨_, rfl, rfl, ?_⟩
  exact staticCall_writes_nothing (sampleEnv { IsByzantium := true }) 1001 (machineOf storingWorld)
    (frameOf [] 0).contract (Address.ofBytes [7]) [] 1000 _ rfl (nofun) rfl

end MxtChain.Vm
