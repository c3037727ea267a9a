/-
# MxtChain.Vm.StatePanic — the state database does not panic.

It can in two ways: a revert to a snapshot that is not there, and a refund counter below zero. The
snapshot of an entry point is there when its callee has returned, and the counter covers what is
asked back as long as it cannot have wrapped, which it cannot if the gas is below a fifth of 2⁶⁴.
-/
import MxtChain.Vm.Atomic
import MxtChain.Vm.Refund

namespace MxtChain.Vm

open State Lib

set_option linter.unusedSectionVars false

variable {C : Type} [CodeHash C] [DecidableEq C] {run : Runner C} {env : Env C}
  {m m1 m2 m' : Machine C} {req : Request} {d : Done C} {f : Frame}

/-! ## §1 — Operations that succeed -/

/-- Operations on the world are operations on the machine. -/
theorem apply_of_applyAll {ops : List Op} {w : World C} (hops : ∀ op ∈ ops, plainOp op = true)
    (h : applyAll m.world ops = some w) (e : Crash) : m.apply ops ≠ .error e := by
  have hrun : ∀ (l : World.Session C), applyAll l.world ops = some w →
      ∃ l', l.run ops = some l' := by
    clear h
    induction ops with
    | nil => exact fun l _ => ⟨l, rfl⟩
    | cons op ops ih =>
      intro l h
      obtain ⟨w1, h1, h⟩ := Option.bind_eq_some_iff.mp h
      obtain ⟨l', hl'⟩ := ih (fun op hop => hops op (List.mem_cons_of_mem _ hop))
        { l with world := w1 } h
      refine ⟨l', ?_⟩
      rw [World.Session.run, step_eq_of_plain l (hops op List.mem_cons_self), h1]
      exact hl'
  obtain ⟨l, hl⟩ := hrun m.session h
  unfold Machine.apply
  rw [hl]
  intro h
  cases h

/-- The snapshot of an entry point is there when its callee has returned. -/
theorem revert_ne (hsnap : m.apply [.snapshot] = .ok m1) (hc : Carried m1 m') (e : Crash) :
    m'.apply [.revertToSnapshot (snapshotId m)] ≠ .error e := by
  have hgrown := hc.grown
  rw [apply_snapshot hsnap] at hgrown
  obtain ⟨extra, he, -⟩ := hgrown.saved
  have hfind : (m'.session.saved.find? fun p => decide (p.1 = snapshotId m)).isSome = true := by
    rw [he, List.find?_append, List.find?_append]
    simp [snapshotId]
  obtain ⟨p, hp⟩ := Option.isSome_iff_exists.mp hfind
  have hrun : ∃ l, m'.session.run [.revertToSnapshot (snapshotId m)] = some l := by
    change ∃ l, ((m'.session.saved.find? _).map _).bind _ = some l
    rw [hp]
    exact ⟨_, rfl⟩
  obtain ⟨l, hl⟩ := hrun
  unfold Machine.apply
  rw [hl]
  nofun

/-! ## §2 — Entry points -/

/-- What has been prepared keeps the snapshots, and the account of the refunds. -/
theorem Prepared.refunded (h : Prepared m m') :
    Carried m m' ∧ ∀ u, Refunded u m.world → Refunded u m'.world := by
  induction h with
  | here => exact ⟨.refl _, fun _ hu => hu⟩
  | snapshot h hsnap ih =>
    obtain ⟨hw, -, hc⟩ := carried_snapshot hsnap
    refine ⟨ih.1.trans hc, fun u hu => ?_⟩
    rw [hw]
    exact ih.2 u hu
  | apply h hops happly ih =>
    obtain ⟨hw, -, hc⟩ := apply_preparing hops happly
    exact ⟨ih.1.trans hc, fun u hu => refunded_preparing hops (ih.2 u hu) hw⟩

/-- A request panics as the contract it runs does. -/
def Passed (run : Runner C) (m : Machine C) (req : Request) : Prop :=
  ∃ m' c input readOnly, Prepared m m' ∧ c.Gas = req.gas ∧
    run m' c input readOnly = .error .statePanic

/-- **An entry point panics only as the contract it runs does.** -/
theorem perform_passed (hrun : run.KeptBy env fun _ _ _ _ => True) (hm : SnapshotsBelow m.session)
    (h : perform run env m req = .error .statePanic) : Passed run m req := by
  cases perform_cases env m req with
  | refused herr hans | skipped hkind hsnap hans => cases (hans run).symm.trans h
  | settled hcall hd hans =>
    have hc := (apply_preparing (preparing_prelude req m.world) hcall.ready).2.2
    rw [← hd.machine] at hc
    exact absurd (settle_error ((hans run).symm.trans h)) (revert_ne hcall.snapshot hc _)
  | called c hcall hgas hcode hans =>
    rcases bind_error.mp ((hans run).symm.trans h) with h | ⟨d, hd, h⟩
    · exact ⟨_, c, _, _, hcall.prepared, hgas, h⟩
    · have hc := (apply_preparing (preparing_prelude req m.world) hcall.ready).2.2
      have hcd := (hrun _ _ _ _ _ (hcall.carried.grown.below hm) hd).1
      exact absurd (settle_error h) (revert_ne hcall.snapshot (hc.trans hcd) _)
  | collided hkind hnonce hans | idle address hnew hans => cases (hans run).symm.trans h
  | created address c hnew hgas hcode hans =>
    rcases bind_error.mp ((hans run).symm.trans h) with h | ⟨d, hd, h⟩
    · exact ⟨_, c, _, _, hnew.prepared, hgas, h⟩
    have hc := (apply_preparing (preparing_createPrelude _ _ _ _) hnew.ready).2.2
    have hcd := (hrun _ _ _ _ _ (hnew.prepared.refunded.1.grown.below hm) hd).1
    obtain ⟨d', hd', he⟩ := deposit_error h
    exact absurd he (revert_ne hnew.snapshot ((hc.trans hcd).trans hd'.carried) _)

/-! ## §3 — Runs -/

/-- What a price asks back is in the counter. -/
theorem price_ne {c : Charged} (hrules : Metered env.chainRules) (ha : Admitted env m f c)
    {u : Nat} (hr : Refunded u m.world) (e : Crash) :
    ({ m with callGasTemp := c.gas.callGasTemp } : Machine C).apply c.gas.ops ≠ .error e := by
  by_cases hstore : c.operation.execute = .instr .opSstore
  · obtain ⟨loc, val, st, hst⟩ : ∃ loc val st, f.regs.stack = loc :: val :: st := by
      have hmin := ha.minStack
      have htwo : c.operation.minStack = 2 := by
        have hall := of_all_entries (p := fun e =>
          decide (e.2.execute = .instr .opSstore → e.2.minStack = 2)) (by decide +kernel) ha.lookup
        exact of_decide_eq_true hall hstore
      rw [htwo] at hmin
      match hs : f.regs.stack with
      | [] | [_] => simp [hs] at hmin
      | loc :: val :: st => exact ⟨loc, val, st, rfl⟩
    obtain ⟨p, hp, hprice⟩ := ha.storePrice hrules hstore hst
    have hdebt := (le_potential debt m.world (f.contract.self, Word.toHash loc)).trans hr.debt_le
    obtain ⟨r', hr'⟩ : ∃ r', counter _ (p.price _ _ (Word.toHash val)).2 = some r' :=
      price_ok hp hdebt
    have hops : c.gas.ops = (p.price _ _ _).2 := congrArg Prod.snd hprice
    have hrefund := ha.refundOp
    have hw : applyAll m.world c.gas.ops = some { m.world with refund := r' } := by
      rw [applyAll_counter _ hrefund, hops]
      exact Option.map_eq_some_iff.mpr ⟨r', hr', rfl⟩
    exact apply_of_applyAll (m := { m with callGasTemp := c.gas.callGasTemp })
      (fun op hop => plainOp_of_refundOp (hrefund op hop)) hw e
  · by_cases hdestroy : c.operation.execute = .instr .opSuicide
    · rcases (ha.destroyPrice hrules hdestroy).2 with hops | hops
      · rw [hops]
        nofun
      · rw [hops]
        nofun
    · rw [ha.quietPrice hstore hdestroy]
      nofun

/-- A turn without the call it may make does not panic. -/
theorem step_ne_statePanic (hrules : Metered env.chainRules) {u : Nat}
    (hr : Refunded u m.world) : step env m f ≠ .error .statePanic := by
  intro h
  unfold step at h
  split at h
  · cases h
  · cases h
  next c hc =>
  rcases bind_error.mp h with h | ⟨m', -, h⟩
  · exact price_ne hrules (admitted_of_charge hc) hr _ h
  split at h
  · cases h
  unfold executed at h
  split at h
  · split at h
    · cases h
    · cases h
    next e hrun =>
    rcases bind_error.mp h with h | ⟨m'', -, h⟩
    · have hsurely : ∀ op ∈ e.ops, surely op = true := by
        have heffect := stateEffect_of_run hrun
        generalize e.ops = ops, e.destroyed = destroyed at heffect
        cases heffect <;> simp [surely]
      obtain ⟨m'', hm''⟩ := apply_surely m' hsurely
      cases hm''.symm.trans h
    · cases h
  · split at h <;> cases h

theorem resume_ne_statePanic {operation : Operation} {pending : Pending} {r : Returned C} :
    resume env operation f pending r ≠ .error .statePanic := by
  intro h
  unfold resume at h
  dsimp only at h
  split at h
  · split at h
    · split at h <;> cases h
    · cases h
  · cases h
  · cases h

/-- **A run with enough room in the counter does not panic.** -/
theorem loop_ne_statePanic (hrules : Metered env.chainRules) (n : Nat) :
    ∀ (m : Machine C) (f : Frame) (u : Nat), SnapshotsBelow m.session →
      u + 5 * f.contract.Gas < 2 ^ 64 → Refunded u m.world →
      loop env n m f ≠ .error .statePanic := by
  induction n with
  | zero => nofun
  | succ n ih =>
    intro m f u hm hfit hr h
    have hcarried := loop_carried env n
    rcases bind_error.mp h with h | ⟨o, ho, h⟩
    · -- the turn itself
      rcases bind_error.mp h with h | ⟨o, ho, h⟩
      · exact step_ne_statePanic hrules hr h
      split at h
      · next operation m' f' req pending =>
        have hkept := step_kept (kept_refund hrules) ho
        have hbound : f'.contract.Gas + req.gas < f.contract.Gas := step_bounded ho
        obtain ⟨hc, hbooks, -⟩ := hkept
        have hworld : m'.world = m.world := congrArg Prod.fst hbooks
        rcases bind_error.mp h with h | ⟨r, -, h⟩
        · obtain ⟨m2, c, input, readOnly, hprepared, hgas, h⟩ :=
            perform_passed hcarried (hc.grown.below hm) h
          unfold Run runCode at h
          split at h
          · cases h
          refine ih _ _ u ?_ ?_ ?_ (map_error.mp h)
          · exact hprepared.refunded.1.grown.below (hc.grown.below hm)
          · change u + 5 * c.Gas < 2 ^ 64
            omega
          · refine hprepared.refunded.2 u ?_
            rw [hworld]
            exact hr
        · exact resume_ne_statePanic h
      · cases h
    · -- the turns after it
      have hrun := Run_kept (kept_refund hrules) (loop_kept (kept_refund hrules) n)
      have hkept := turn_kept (kept_refund hrules) hrun hm ho
      have hbound := turn_bounded (loop_frugal env n) ho
      split at h
      · next m' f' =>
        obtain ⟨hc, hR⟩ := hkept
        have hlt : f'.contract.Gas < f.contract.Gas := hbound
        refine ih m' f' _ (hc.grown.below hm) ?_ (hR u (by omega) hr) h
        omega
      · cases h
      · cases h

/-- **The state database does not panic** in a request, for any code and nesting. -/
theorem evm_ne_statePanic (hrules : Metered env.chainRules) {u : Nat}
    (hm : SnapshotsBelow m.session) (hfit : u + 5 * req.gas < 2 ^ 64) (hr : Refunded u m.world) :
    evm env m req ≠ .error .statePanic := by
  intro h
  obtain ⟨m', c, input, readOnly, hprepared, hgas, h⟩ :=
    perform_passed (loop_carried env _) hm h
  unfold Run runCode at h
  split at h
  · cases h
  refine loop_ne_statePanic hrules _ (m'.enter readOnly) _ u ?_ ?_ (hprepared.refunded.2 u hr)
    (map_error.mp h)
  · exact hprepared.refunded.1.grown.below hm
  · change u + 5 * c.Gas < 2 ^ 64
    omega

end MxtChain.Vm
