/-
# MxtChain.Vm.Kept — the rule for relations between the states before and after a run.

The rule is by induction over the call tree, along the loop of each frame. A relation that holds
across every instruction and across what an entry point does before and after the run of the callee
holds across every call; a failed call is a special case, for it ends in the state it began in.
The relation may depend on the gas that has been used in between.
-/
import MxtChain.Vm.Effects
import MxtChain.Vm.GasSpec

namespace MxtChain.Vm

open State Lib

set_option linter.unusedSectionVars false

variable {C : Type} [CodeHash C] [DecidableEq C] {m m' m'' m1 m2 m3 : Machine C} {ops : List Op}
  {operation : Operation} {rules : Rules} {op : UInt8} {env : Env C} {f f' : Frame} {c : Charged}
  {b b' : Bool} {k gas k' : Nat} {run : Runner C} {req : Request} {r : Returned C} {d d' : Done C}
  {address : Address} {o : Outcome C}

/-! ## §1 — Operations on the world -/

/-- What a run leaves as it was, apart from the state. -/
structure Carried (m m' : Machine C) : Prop where
  grown : Grown m.session m'.session
  depth : m'.depth = m.depth
  readOnly : m'.readOnly = m.readOnly

namespace Carried

theorem refl (m : Machine C) : Carried m m := ⟨.refl _, rfl, rfl⟩

theorem trans (h : Carried m m') (h' : Carried m' m'') : Carried m m'' :=
  ⟨h.grown.trans h'.grown, h'.depth.trans h.depth, h'.readOnly.trans h.readOnly⟩

end Carried

/-- Operations without snapshots, on a machine. -/
theorem apply_plain (hops : ∀ op ∈ ops, plainOp op = true) (h : m.apply ops = .ok m') :
    applyAll m.world ops = some m'.world ∧ m'.destroyed = m.destroyed ∧ Carried m m' := by
  obtain ⟨session, hs, rfl⟩ := apply_eq_ok.mp h
  obtain ⟨hw, hsaved, hnext⟩ := run_plain hops hs
  exact ⟨hw, rfl, .of_eq hsaved hnext, rfl, rfl⟩

theorem apply_preparing (hops : ∀ op ∈ ops, preparing op = true) (h : m.apply ops = .ok m') :
    applyAll m.world ops = some m'.world ∧ m'.destroyed = m.destroyed ∧ Carried m m' :=
  apply_plain (fun op hop => plainOp_of_preparing (hops op hop)) h

theorem carried_snapshot (h : m.apply [.snapshot] = .ok m1) :
    m1.world = m.world ∧ m1.destroyed = m.destroyed ∧ Carried m m1 := by
  rw [apply_snapshot h]
  refine ⟨rfl, rfl, ⟨Nat.le_succ _, [(m.session.next, m.session.world)], rfl, ?_⟩, rfl, rfl⟩
  intro p hp
  cases List.mem_singleton.mp hp
  exact ⟨le_rfl, Nat.lt_succ_self _⟩

/-- **A revert to the snapshot of an entry point** puts back the world before it. -/
theorem carried_revert (hm : SnapshotsBelow m.session) (hsnap : m.apply [.snapshot] = .ok m1)
    (hc : Carried m1 m') (h : m'.apply [.revertToSnapshot (snapshotId m)] = .ok m'') :
    m''.world = m.world ∧ Carried m m'' := by
  have hm1 := apply_snapshot hsnap
  have hgrown := hc.grown
  rw [hm1] at hgrown
  obtain ⟨session, hs, rfl⟩ := apply_eq_ok.mp h
  obtain ⟨l, hl, hs⟩ := Option.bind_eq_some_iff.mp hs
  cases hs
  obtain ⟨hw, hsaved, hnext⟩ := step_revert hm hgrown hl
  refine ⟨hw, ⟨hnext, [], by rw [hsaved, List.append_nil], nofun⟩, ?_, ?_⟩
  · exact hc.depth.trans (by rw [hm1])
  · exact hc.readOnly.trans (by rw [hm1])

/-! ## §2 — Write protection -/

/-- The frame is write-protected. -/
def isProtected (env : Env C) (m : Machine C) : Bool := m.readOnly && env.chainRules.IsByzantium

theorem Carried.isProtected (h : Carried m m') : Vm.isProtected env m' = Vm.isProtected env m := by
  simp only [Vm.isProtected, h.readOnly]

/-- The instructions that write, by their names. -/
def Exec.writing : Exec → Bool
  | .instr .opSstore | .instr (.makeLog _) | .instr .opSuicide => true
  | .calling .opCreate | .calling .opCreate2 => true
  | _ => false

/-- An entry of a table is marked as writing if it writes or refunds, and the call with a value that
the protection looks at is the one at its opcode. -/
def guarded (e : UInt8 × Operation) : Bool :=
  (e.2.writes || !(e.2.execute.writing || e.2.dynamicGas.any GasFunc.refunds)) &&
    (decide (e.1 = CALL) || decide (e.2.execute ≠ .calling .opCall))

theorem guarded_of_lookup
    (h : (jumpTable rules).lookup op = some operation) : guarded (op, operation) = true :=
  of_all_entries (p := guarded) (by decide +kernel) h

theorem Admitted.writes_false (h : Admitted env m f c) (hp : isProtected env m = true) :
    c.operation.writes = false := by
  have hw := h.writes
  unfold writeProtected at hw
  unfold isProtected at hp
  refine Bool.eq_false_iff.mpr fun hwrites => ?_
  rw [if_pos hp, if_pos hwrites] at hw
  cases hw

theorem Admitted.value_eq_zero (h : Admitted env m f c) (hp : isProtected env m = true)
    (hop : c.operation.execute = .calling .opCall) {v : Word} (hv : f.regs.stack[2]? = some v) :
    v = 0 := by
  have hguard := guarded_of_lookup h.lookup
  simp only [guarded, hop, Bool.and_eq_true, Bool.or_eq_true, decide_eq_true_eq, ne_eq,
    not_true_eq_false, or_false] at hguard
  have hw := h.writes
  unfold writeProtected at hw
  unfold isProtected at hp
  rw [if_pos hp, if_neg (by simp [h.writes_false hp]), if_pos hguard.2] at hw
  obtain ⟨v', hv', hw⟩ := bind_ok.mp hw
  unfold Stack.Back at hv'
  rw [hv] at hv'
  cases hv'
  have hw : decide (v ≠ 0) = false := Except.ok.inj hw
  simpa using hw

/-- Under write protection no instruction writes. -/
theorem Admitted.not_writing (h : Admitted env m f c) (hp : isProtected env m = true) :
    c.operation.execute.writing = false ∧ c.gas.ops = [] := by
  have hguard := guarded_of_lookup h.lookup
  simp only [guarded, h.writes_false hp, Bool.false_or, Bool.and_eq_true, Bool.not_eq_true',
    Bool.or_eq_false_iff] at hguard
  refine ⟨hguard.1.1, ?_⟩
  rcases dynamicCost_cases h.dynamicGas with ⟨-, hg⟩ | ⟨func, hfunc, heval⟩
  · rw [hg]
  · have hrefund := hguard.1.2
    rw [hfunc] at hrefund
    exact eval_ops_eq_nil hrefund heval

/-! ## §3 — The rule -/

/-- The state, with the account of what has been destroyed. -/
abbrev Books (C : Type) := World C × Int

def Machine.books (m : Machine C) : Books C := (m.world, m.destroyed)

/-- A relation between states that a run keeps, for a frame that is write-protected or not and the
gas that is used: it can be composed, and it holds across every instruction, the preparation of a
call, the nonce, the preparation and the code of a creation. -/
structure Kept (env : Env C) (R : Bool → Nat → Books C → Books C → Prop) : Prop where
  refl : ∀ b k x, R b k x x
  trans : ∀ b k k' x y z, R b k x y → R b k' y z → R b (k + k') x z
  weaken : ∀ k x y, R true k x y → R false k x y
  instr : ∀ m f c m' f' op e m'', Paid env m f c m' f' → c.operation.execute = .instr op →
    op.run env m' f'.contract f'.regs = .ok e → m'.apply e.ops = .ok m'' →
    R (isProtected env m) (c.operation.constantGas + c.gas.cost) m.books
      (m''.world, m''.destroyed + e.destroyed)
  call : ∀ b w w' n (req : Request), req.creates = false →
    (b = true → req.kind = .Call → req.value = 0) →
    (req.value = 0 ∨ req.kind = .DelegateCall ∨ req.kind = .StaticCall ∨
      CanTransfer w req.caller.self req.value = true) →
    applyAll w (req.prelude w) = some w' → R b 0 (w, n) (w', n)
  nonce : ∀ w w' n a, applyAll w [.setNonce a (GetNonce w a + 1)] = some w' →
    R false 0 (w, n) (w', n)
  create : ∀ w w1 w' n caller address value, CanTransfer w caller value = true →
    applyAll w [.setNonce caller (GetNonce w caller + 1)] = some w1 →
    applyAll w1 (createPrelude env caller address value) = some w' → R false 0 (w1, n) (w', n)
  code : ∀ w w' n a code, applyAll w [.setCode a code] = some w' → R false 0 (w, n) (w', n)

variable {R : Bool → Nat → Books C → Books C → Prop}

variable {x y z : Books C}

theorem Kept.mono (hk : Kept env R) (hle : k ≤ k') (h : R b k x y) : R b k' x y := by
  rw [← Nat.add_sub_cancel' hle]
  exact hk.trans _ _ _ _ _ _ h (hk.refl _ _ _)

theorem Kept.zero_trans (hk : Kept env R) (h : R b 0 x y) (h' : R b k y z) : R b k x z := by
  rw [← Nat.zero_add k]
  exact hk.trans _ _ _ _ _ _ h h'

/-- The errors that a run can end with. -/
def OfFrame : Option VMError → Prop
  | none | some (.frame _) | some .ErrExecutionReverted => True
  | _ => False

theorem OfFrame.ne_codeStore {err : Option VMError} (h : OfFrame err) :
    err ≠ some .ErrCodeStoreOutOfGas := by
  rintro rfl
  exact h

/-- What the rule says about a runner. -/
def Runner.KeptBy (env : Env C) (R : Bool → Nat → Books C → Books C → Prop) (run : Runner C) :
    Prop :=
  ∀ m contract input readOnly d, SnapshotsBelow m.session → run m contract input readOnly = .ok d →
    Carried m d.machine ∧ OfFrame d.err ∧
      (d.err = none → R (isProtected env (m.enter readOnly)) (contract.Gas - d.gas) m.books
        d.machine.books)

/-- What the write protection lets through of a request. -/
def Permitted (env : Env C) (m : Machine C) (req : Request) : Prop :=
  isProtected env m = true → req.creates = false ∧ (req.kind = .Call → req.value = 0)

theorem Kept.protected_mono (hk : Kept env R)
    (hb : b = true → b' = true) (h : R b' k x y) : R b k x y := by
  cases b' with
  | true =>
    cases b with
    | true => exact h
    | false => exact hk.weaken _ _ _ h
  | false =>
    cases b with
    | true => cases hb rfl
    | false => exact h

theorem precompiled_machine (p : PrecompiledContract) (m : Machine C) (input : Bytes) (gas : Nat) :
    (RunPrecompiledContract p m input gas).machine = m := by
  unfold RunPrecompiledContract
  split
  · rfl
  · split <;> rfl

/-- A frame that is not made read-only is as protected as its caller. -/
theorem isProtected_enter : isProtected env (m.enter false) = isProtected env m := by
  simp only [isProtected, Machine.enter, Bool.or_false]

theorem Immediate.machine (h : Immediate env m1 req d) : d.machine = m1 := by
  cases h with
  | precompiled p hp => exact precompiled_machine p m1 req.input req.gas
  | empty => rfl

theorem reverted_kept (hk : Kept env R)
    (hm : SnapshotsBelow m.session) (hsnap : m.apply [.snapshot] = .ok m1) (hc : Carried m1 m')
    (hrev : m'.apply [.revertToSnapshot (snapshotId m)] = .ok m'') :
    Carried m { m'' with destroyed := m.destroyed } ∧
      R b k m.books ({ m'' with destroyed := m.destroyed } : Machine C).books := by
  obtain ⟨hw, hcarried⟩ := carried_revert hm hsnap hc hrev
  refine ⟨⟨hcarried.grown, hcarried.depth, hcarried.readOnly⟩, ?_⟩
  have hbooks : ({ m'' with destroyed := m.destroyed } : Machine C).books = m.books :=
    Prod.ext hw rfl
  rw [hbooks]
  exact hk.refl _ _ _

theorem settle_kept (hk : Kept env R) (hm : SnapshotsBelow m.session)
    (hsnap : m.apply [.snapshot] = .ok m1) (hc : Carried m1 d.machine)
    (hR : d.err = none → R (isProtected env m) (gas - d.gas) m.books d.machine.books)
    (h : settle m d = .ok r) :
    Carried m r.machine ∧ R (isProtected env m) (gas - r.leftOverGas) m.books r.machine.books := by
  rcases settle_cases h with ⟨herr, rfl⟩ | ⟨e, m', -, hrev, rfl⟩
  · exact ⟨(carried_snapshot hsnap).2.2.trans hc, hR herr⟩
  · exact reverted_kept hk hm hsnap hc hrev

theorem plainOp_setCode (a : Address) (code : Bytes) :
    ∀ op ∈ [Op.setCode a code], plainOp op = true := by
  simp [plainOp]

theorem Stored.carried (h : Stored address d d') : Carried d.machine d'.machine := by
  cases h with
  | same | unpaid herr => exact .refl _
  | stored herr hgas hm' => exact (apply_plain (plainOp_setCode _ _) hm').2.2

theorem Stored.kept (hk : Kept env R) (hne : d.err ≠ some .ErrCodeStoreOutOfGas)
    (hR : d.err = none → R false (gas - d.gas) m1.books d.machine.books) (h : Stored address d d')
    (he : d'.err = none ∨ d'.err = some .ErrCodeStoreOutOfGas) :
    R false (gas - d'.gas) m1.books d'.machine.books := by
  have hle := h.gas_le
  cases h with
  | same => exact hR (he.resolve_right hne)
  | unpaid herr => exact hR herr
  | stored herr hgas hm' =>
    obtain ⟨hw, hd, -⟩ := apply_plain (plainOp_setCode _ _) hm'
    refine hk.mono (Nat.sub_le_sub_left hle gas) (hk.trans _ _ 0 _ _ _ (hR herr) ?_)
    have hcode := hk.code _ _ d.machine.destroyed _ _ hw
    unfold Machine.books
    rw [hd]
    exact hcode

theorem deposit_kept (hk : Kept env R) (hm : SnapshotsBelow m1.session)
    (hsnap : m1.apply [.snapshot] = .ok m2) (hc : Carried m2 d.machine) (hne : OfFrame d.err)
    (hR : d.err = none → R false (gas - d.gas) m1.books d.machine.books)
    (h : deposit env m1 address d = .ok r) :
    Carried m1 r.machine ∧ R false (gas - r.leftOverGas) m1.books r.machine.books := by
  obtain ⟨d', hd', ⟨hkeep, rfl⟩ | ⟨m', hrev, rfl⟩⟩ := deposit_cases h
  · refine ⟨(carried_snapshot hsnap).2.2.trans (hc.trans hd'.carried),
      hd'.kept hk hne.ne_codeStore hR ?_⟩
    by_contra hcon
    rw [not_or] at hcon
    exact hkeep (.inr ⟨hcon.1, .inr hcon.2⟩)
  · exact reverted_kept hk hm hsnap (hc.trans hd'.carried) hrev

theorem Called.kept (hk : Kept env R) (hperm : Permitted env m req) (h : Called m req m1 m2) :
    Carried m1 m2 ∧ isProtected env m2 = isProtected env m ∧
      R (isProtected env m) 0 m.books m2.books := by
  obtain ⟨hw, hd, hc⟩ := carried_snapshot h.snapshot
  obtain ⟨hw', hd', hc'⟩ := apply_preparing (preparing_prelude req m.world) h.ready
  refine ⟨hc', (hc.trans hc').isProtected, ?_⟩
  rw [hw] at hw'
  have hcall := hk.call (isProtected env m) m.world m2.world m.destroyed req h.kind
    (fun hp => (hperm hp).2) h.funds hw'
  have hbooks : m2.books = (m2.world, m.destroyed) := Prod.ext rfl (hd'.trans hd)
  rw [hbooks]
  exact hcall

theorem Called.carried (h : Called m req m1 m2) : Carried m m2 :=
  (carried_snapshot h.snapshot).2.2.trans
    (apply_preparing (preparing_prelude req m.world) h.ready).2.2

theorem Founded.kept (hk : Kept env R) (hp : isProtected env m = false)
    (h : Founded env m req address m1 m2 m3) :
    Carried m m1 ∧ R false 0 m.books m1.books ∧ Carried m2 m3 ∧ isProtected env m3 = false ∧
      R false 0 m1.books m3.books := by
  obtain ⟨hw1, hd1, hc1⟩ := apply_preparing (preparing_setNonce _ _) h.nonce
  obtain ⟨hw2, hd2, hc2⟩ := carried_snapshot h.snapshot
  obtain ⟨hw3, hd3, hc3⟩ := apply_preparing (preparing_createPrelude _ _ _ _) h.ready
  have hbooks1 : m1.books = (m1.world, m.destroyed) := Prod.ext rfl hd1
  have hbooks3 : m3.books = (m3.world, m.destroyed) := Prod.ext rfl ((hd3.trans hd2).trans hd1)
  rw [hw2] at hw3
  refine ⟨hc1, ?_, hc3, ?_, ?_⟩
  · rw [hbooks1]
    exact hk.nonce _ _ _ _ hw1
  · exact ((hc1.trans hc2).trans hc3).isProtected.trans hp
  · rw [hbooks1, hbooks3]
    exact hk.create _ _ _ _ _ _ _ h.funds hw1 hw3

/-- **The rule, for an entry point.** -/
theorem perform_kept (hk : Kept env R) (hrun : run.KeptBy env R) (hm : SnapshotsBelow m.session)
    (hperm : Permitted env m req) (h : perform run env m req = .ok r) : Carried m r.machine ∧
      R (isProtected env m) (req.gas - r.leftOverGas) m.books r.machine.books := by
  have hcreate : req.creates = true → isProtected env m = false := fun hc =>
    Bool.eq_false_iff.mpr fun hp => by
      rw [(hperm hp).1] at hc
      cases hc
  cases perform_cases env m req with
  | refused herr hans =>
    cases (hans run).symm.trans h
    exact ⟨.refl _, hk.refl _ _ _⟩
  | skipped hkind hsnap hans =>
    cases (hans run).symm.trans h
    obtain ⟨hw, hd, hc⟩ := carried_snapshot hsnap
    refine ⟨hc, ?_⟩
    unfold Machine.books
    rw [hw, hd]
    exact hk.refl _ _ _
  | settled hcall hd hans =>
    obtain ⟨hc2, -, hR⟩ := hcall.kept hk hperm
    refine settle_kept hk hm hcall.snapshot ?_ (fun _ => ?_) ((hans run).symm.trans h)
    · rw [hd.machine]
      exact hc2
    · rw [hd.machine]
      exact hk.mono (Nat.zero_le _) hR
  | called c hcall hgas hcode hans =>
    obtain ⟨d, hd, h⟩ := bind_ok.mp ((hans run).symm.trans h)
    obtain ⟨hc2, hp, hR⟩ := hcall.kept hk hperm
    obtain ⟨hcd, -, hRd⟩ := hrun _ _ _ _ _ (hcall.carried.grown.below hm) hd
    rw [hgas] at hRd
    refine settle_kept hk hm hcall.snapshot (hc2.trans hcd)
      (fun herr => hk.zero_trans hR (hk.protected_mono ?_ (hRd herr))) h
    rw [← hp]
    simp only [isProtected, Machine.enter, Bool.and_eq_true, Bool.or_eq_true]
    exact fun h => ⟨.inl h.1, h.2⟩
  | collided hkind hnonce hans =>
    cases (hans run).symm.trans h
    obtain ⟨hw, hd, hc⟩ := apply_preparing (preparing_setNonce _ _) hnonce
    refine ⟨hc, ?_⟩
    rw [hcreate hkind]
    have hN := hk.nonce _ _ m.destroyed _ hw
    unfold Machine.books
    rw [hd]
    exact hk.mono (Nat.zero_le _) hN
  | idle address hnew hans =>
    cases (hans run).symm.trans h
    obtain ⟨hc1, hR1, hc3, -, hR3⟩ := hnew.kept hk (hcreate hnew.kind)
    refine ⟨(hc1.trans (carried_snapshot hnew.snapshot).2.2).trans hc3, ?_⟩
    rw [hcreate hnew.kind]
    exact hk.mono (Nat.zero_le _) (hk.trans _ _ _ _ _ _ hR1 hR3)
  | created address c hnew hgas hcode hans =>
    obtain ⟨d, hd, h⟩ := bind_ok.mp ((hans run).symm.trans h)
    obtain ⟨hc1, hR1, hc3, hp3, hR3⟩ := hnew.kept hk (hcreate hnew.kind)
    have hbelow1 := hc1.grown.below hm
    have hbelow3 := ((carried_snapshot hnew.snapshot).2.2.trans hc3).grown.below hbelow1
    obtain ⟨hcd, hne, hRd⟩ := hrun _ _ _ _ _ hbelow3 hd
    rw [isProtected_enter, hp3, hgas] at hRd
    obtain ⟨hc, hR⟩ := deposit_kept hk hbelow1 hnew.snapshot (hc3.trans hcd) hne
      (fun herr => hk.zero_trans hR3 (hRd herr)) h
    rw [hcreate hnew.kind]
    exact ⟨hc1.trans hc, hk.zero_trans hR1 hR⟩

/-! ## §4 — The loop -/

/-- Under write protection an instruction calls a contract, but creates none and moves no value. -/
theorem Paid.permitted (h : Paid env m f c m' f') {op : Calling} {s : Suspended}
    (hop : c.operation.execute = .calling op) (hs : Requested m' f'.contract f'.regs op s) :
    Permitted env m s.req := by
  intro hp
  have hwriting := (h.toAdmitted.not_writing hp).1
  have hstack : f'.regs.stack = f.regs.stack := by rw [h.regs]
  rw [hop] at hwriting
  cases hs with
  | value hkind hst hargs =>
    rcases hkind with ⟨rfl, rfl⟩ | ⟨rfl, rfl⟩
    · refine ⟨rfl, fun _ => ?_⟩
      rw [hstack] at hst
      have hv := h.toAdmitted.value_eq_zero hp hop (by rw [hst]; rfl)
      rw [hv]
      rfl
    · exact ⟨rfl, nofun⟩
  | plain hkind hst hargs =>
    rcases hkind with ⟨rfl, rfl⟩ | ⟨rfl, rfl⟩
    · exact ⟨rfl, nofun⟩
    · exact ⟨rfl, nofun⟩
  | create hst hinput hgas | create2 hst hinput hgas => cases hwriting

/-- An operation that calls another contract does not refund. -/
def Operation.callsQuietly (o : Operation) : Bool :=
  match o.execute with
  | .instr _ => true
  | .calling _ => !o.dynamicGas.any GasFunc.refunds

theorem callsQuietly_of_lookup
    (h : (jumpTable rules).lookup op = some operation) : operation.callsQuietly = true :=
  of_all_entries (p := fun e => e.2.callsQuietly) (by decide +kernel) h

/-- The gas function of a call does nothing to the state. -/
theorem Paid.calling_ops (h : Paid env m f c m' f') {op : Calling}
    (hop : c.operation.execute = .calling op) : c.gas.ops = [] := by
  have hnot := callsQuietly_of_lookup h.lookup
  simp only [Operation.callsQuietly, hop, Bool.not_eq_true'] at hnot
  rcases dynamicCost_cases h.dynamicGas with ⟨-, hg⟩ | ⟨func, hfunc, heval⟩
  · rw [hg]
  · rw [hfunc] at hnot
    exact eval_ops_eq_nil hnot heval

/-- What a price leaves of the machine. -/
theorem Paid.carried (h : Paid env m f c m' f') : Carried m m' := by
  obtain ⟨-, -, hc⟩ := apply_plain
    (fun op hop => plainOp_of_refundOp (h.toAdmitted.refundOp op hop)) h.ops
  exact ⟨hc.grown, hc.depth, hc.readOnly⟩

/-- What a turn leaves of the machine, and of the relation if it does not fail. -/
def Outcome.KeptBy (env : Env C) (R : Bool → Nat → Books C → Books C → Prop) (m : Machine C)
    (gas : Nat) : Outcome C → Prop
  | .next m' f' => Carried m m' ∧ R (isProtected env m) (gas - f'.contract.Gas) m.books m'.books
  | .done d => Carried m d.machine ∧ OfFrame d.err ∧
      (d.err = none → R (isProtected env m) (gas - d.gas) m.books d.machine.books)
  | .request _ m' _ req _ => Carried m m' ∧ m'.books = m.books ∧ Permitted env m req

theorem finish_kept {res : Bytes} (hc : Carried m m')
    (hR : R (isProtected env m) (gas - f.contract.Gas) m.books m'.books) :
    (finish operation m' f res).KeptBy env R m gas := by
  obtain ⟨data, h⟩ := finish_cases operation m' f res
  have hc' : Carried m { m' with returnData := data } := ⟨hc.grown, hc.depth, hc.readOnly⟩
  rcases h with ⟨-, h⟩ | ⟨-, -, h⟩ | ⟨-, -, pc, h⟩
  · rw [h]
    exact ⟨hc', trivial, nofun⟩
  · rw [h]
    exact ⟨hc', trivial, fun _ => hR⟩
  · rw [h]
    exact ⟨hc', hR⟩

/-- **The rule, for a turn** without the call it may make. -/
theorem step_kept (hk : Kept env R) (h : step env m f = .ok o) :
    o.KeptBy env R m f.contract.Gas := by
  rcases step_cases h with ⟨temp, ops, m', gas, e, hops, hm', -, rfl⟩ | ⟨c, m', f', hpaid, hexec⟩
  · have hplain : ∀ op ∈ ops, plainOp op = true := by
      rcases hops with rfl | ⟨c, ha, rfl⟩
      · nofun
      · exact fun op hop => plainOp_of_refundOp (ha.refundOp op hop)
    obtain ⟨-, -, hc⟩ := apply_plain hplain hm'
    exact ⟨⟨hc.grown, hc.depth, hc.readOnly⟩, trivial, nofun⟩
  have hc := hpaid.carried
  rcases executed_cases hexec with ⟨e, rfl⟩ | ⟨op, e, m'', hop, hrun, hm'', rfl⟩ |
    ⟨op, s, hop, hrun, rfl⟩
  · exact ⟨hc, trivial, nofun⟩
  · obtain ⟨-, -, hc'⟩ := apply_plain (stateEffect_of_run hrun).plain hm''
    have hc'' := hc.trans hc'
    have hused : f.contract.Gas - f'.contract.Gas = c.operation.constantGas + c.gas.cost := by
      have := hpaid.gas
      omega
    refine finish_kept ⟨hc''.grown, hc''.depth, hc''.readOnly⟩ ?_
    rw [hused]
    exact hk.instr _ _ _ _ _ _ _ _ hpaid hop hrun hm''
  · refine ⟨hc, ?_, hpaid.permitted hop (requested_of_run hrun)⟩
    have hops := hpaid.ops
    rw [hpaid.calling_ops hop] at hops
    cases hops
    rfl

/-- **The rule, for a turn** with the call it may make. -/
theorem turn_kept (hk : Kept env R) (hrun : run.KeptBy env R) (hm : SnapshotsBelow m.session)
    (h : turn run env m f = .ok o) : o.KeptBy env R m f.contract.Gas := by
  obtain ⟨o', hstep, h⟩ := bind_ok.mp h
  have hs := step_kept hk hstep
  have hb := step_bounded hstep
  split at h
  · next operation m' f' req pending =>
    obtain ⟨r, hr, h⟩ := bind_ok.mp h
    obtain ⟨hc, hbooks, hperm⟩ := hs
    obtain ⟨hc', hR⟩ := perform_kept hk hrun (hc.grown.below hm)
      (fun hp => hperm (hc.isProtected ▸ hp)) hr
    rw [hc.isProtected, hbooks] at hR
    obtain ⟨x, memory, res, -, rfl⟩ := resume_cases h
    refine finish_kept (hc.trans hc') (hk.mono ?_ hR)
    -- the caller has paid for all that the callee could use
    have hb : f'.contract.Gas + req.gas < f.contract.Gas := hb
    dsimp only
    omega
  · cases h
    exact hs

theorem Run_kept {lp : Machine C → Frame → Except Crash (Done C)} (hk : Kept env R)
    (h : ∀ m f d, SnapshotsBelow m.session → lp m f = .ok d → Carried m d.machine ∧ OfFrame d.err ∧
        (d.err = none → R (isProtected env m) (f.contract.Gas - d.gas) m.books d.machine.books)) :
    Runner.KeptBy env R (Run lp) := by
  intro m c input readOnly d hm hd
  obtain ⟨d', hd', rfl⟩ := map_ok.mp hd
  have hkept : Carried (m.enter readOnly) d'.machine ∧ OfFrame d'.err ∧
      (d'.err = none → R (isProtected env (m.enter readOnly)) (c.Gas - d'.gas)
        (m.enter readOnly).books d'.machine.books) := by
    unfold runCode at hd'
    split at hd'
    · cases hd'
      exact ⟨.refl _, trivial, fun _ => hk.refl _ _ _⟩
    · exact h (m.enter readOnly) _ _ hm hd'
  obtain ⟨hc, hne, hR⟩ := hkept
  refine ⟨⟨hc.grown, ?_, ?_⟩, hne, hR⟩
  · exact Nat.sub_eq_of_eq_add hc.depth
  · have hro := hc.readOnly
    change (if _ then false else d'.machine.readOnly) = _
    rw [hro]
    cases readOnly <;> cases hmr : m.readOnly <;> simp [Machine.enter, hmr]

/-- **The rule, for a run.** -/
theorem loop_kept (hk : Kept env R) (n : Nat) : ∀ m f d, SnapshotsBelow m.session →
    loop env n m f = .ok d → Carried m d.machine ∧ OfFrame d.err ∧ (d.err = none →
        R (isProtected env m) (f.contract.Gas - d.gas) m.books d.machine.books) := by
  induction n with
  | zero => nofun
  | succ n ih =>
    intro m f d hm h
    obtain ⟨o, ho, h⟩ := bind_ok.mp h
    have hkept := turn_kept hk (Run_kept hk ih) hm ho
    have hbound := turn_bounded (loop_frugal env n) ho
    split at h
    · next m' f' =>
      obtain ⟨hc, hR⟩ := hkept
      obtain ⟨hc', hne, hR'⟩ := ih m' f' d (hc.grown.below hm) h
      refine ⟨hc.trans hc', hne, fun herr => ?_⟩
      have hlt : f'.contract.Gas < f.contract.Gas := hbound
      have hle := loop_gas_le env n m' f' d h
      have hsum : f.contract.Gas - d.gas =
          (f.contract.Gas - f'.contract.Gas) + (f'.contract.Gas - d.gas) := by
        omega
      rw [hsum]
      refine hk.trans _ _ _ _ _ _ hR ?_
      exact hc.isProtected ▸ hR' herr
    · cases h
      exact hkept
    · cases h

/-- **The rule.** -/
theorem evm_kept (hk : Kept env R)
    (hm : SnapshotsBelow m.session) (hperm : Permitted env m req) (h : evm env m req = .ok r) :
    Carried m r.machine ∧ R (isProtected env m) (req.gas - r.leftOverGas) m.books r.machine.books :=
  perform_kept hk (Run_kept hk (loop_kept hk _)) hm hperm h

end MxtChain.Vm
