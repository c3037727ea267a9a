/-
# MxtChain.Miner.Worker — transactions that are tried for a block.

`commitTransaction` of `miner/worker.go` tries a transaction on the block that is being built, and
reverts the state if it is refused. The gas pool is not part of the state: what `buyGas` has taken
from it for a message that is refused afterwards, for its intrinsic gas or a value that is not
covered, is lost for the block.
-/
import MxtChain.Core.StateProcessor
import MxtChain.Vm.StatePanic

namespace MxtChain.Miner

open MxtChain.Core State Vm Lib

variable {S C : Type} [StorageHash S] [CodeHash C] [DecidableEq C] {env : Env C}
  {session : World.Session C} {msg : Message} {gp : UInt64} {st : StateTransition C} {e : TxError}

/-! ## §1 — The code -/

/-- What a transaction changes of `environment`: the state, the gas pool, the gas used of the header,
the receipts and the transactions. -/
structure Environment (S C : Type) where
  current : Processing S C
  txs : List Transaction := []

/-- Operations on the state of the block. -/
def onState (p : Processing S C) (ops : List Op) : Except Panic (Processing S C) :=
  ((({ session := p.ledger.session } : Machine C).apply ops).mapError .vm).map fun m =>
    { p with ledger := { p.ledger with session := m.session } }

/-- What `ApplyTransaction` leaves of the state and the gas pool when it returns an error. -/
def leftBehind (env : Env C) (p : Processing S C) (tx : Transaction) :
    Except Panic (Processing S C) :=
  match tx.AsMessage with
  | .error _ => .ok p
  | .ok msg =>
    ((NewStateTransition p.ledger.session msg p.gp).TransitionDb (NewEVMContext env msg)).map
      fun r => { p with
        ledger := { p.ledger with session := r.1.machine.session }
        gp := r.1.gp }

noncomputable def commitTransaction (env : Env C) (w : Environment S C) (tx : Transaction) :
    Except Panic (Environment S C × Option TxError) := do
  let snap := w.current.ledger.session.next
  let p ← onState w.current [.snapshot]
  match ← ApplyTransaction env p tx with
  | .error e =>
    let p ← leftBehind env p tx
    let p ← onState p [.revertToSnapshot snap]
    return ({ w with current := p }, some e)
  | .ok p => return ({ current := p, txs := w.txs ++ [tx] }, none)

/-! ## §2 — What a refused message leaves -/

/-- `buyGas` is reached and takes gas from the pool. -/
def Buys (session : World.Session C) (gp : UInt64) (msg : Message) : Prop :=
  Passes session msg gp ∧ msg.Gas ≠ 0

theorem TransitionDb_refused
    (h : (NewStateTransition session msg gp).TransitionDb env = .ok (st, .error e)) :
    Grown session st.machine.session ∧ (st.gp = gp ↔ ¬ Buys session gp msg) := by
  rcases TransitionDb_factor env session msg gp with ⟨hnot, e', heq⟩ | ⟨hpass, heq⟩
  · cases heq.symm.trans h
    exact ⟨.refl _, iff_of_true rfl fun hb => hnot hb.1⟩
  obtain ⟨machine, hm, h⟩ := bind_ok.mp (heq.symm.trans h)
  have hgrown := (apply_plain (by simp [plainOp]) (mapError_ok.mp hm)).2.2.grown
  rcases afterCheck_factor env (boughtGas msg gp machine) with
    ⟨st', e', heq, hgp, hmachine, -⟩ | ⟨gas, -, heq⟩
  · cases heq.symm.trans h
    rw [hgp, hmachine]
    refine ⟨hgrown, ?_⟩
    change gp - msg.Gas = gp ↔ _
    rw [sub_eq_self, Buys, not_and_not_right]
    exact ⟨fun hzero _ => hzero, fun hzero => hzero hpass⟩
  · -- a message that is run is not refused
    obtain ⟨_, -, h⟩ := bind_ok.mp (heq.symm.trans h)
    obtain ⟨_, -, h⟩ := bind_ok.mp h
    obtain ⟨_, -, h⟩ := bind_ok.mp h
    cases h

/-- A refused transaction leaves more snapshots, and less gas in the pool if it has bought some. -/
theorem leftBehind_spec {p : Processing S C} {tx : Transaction}
    (h : ApplyTransaction env p tx = .ok (.error e)) : ∃ session gp, leftBehind env p tx =
        .ok { p with ledger := { p.ledger with session := session }, gp := gp } ∧
      Grown p.ledger.session session ∧
      (gp = p.gp ↔ ∀ msg, tx.AsMessage = .ok msg → ¬ Buys p.ledger.session p.gp msg) := by
  unfold ApplyTransaction at h
  unfold leftBehind
  cases hmsg : tx.AsMessage with
  | error e' => exact ⟨_, _, rfl, .refl _, by simp⟩
  | ok msg =>
    rw [hmsg] at h
    obtain ⟨⟨st, res⟩, hst, h⟩ := bind_ok.mp h
    cases res with
    | error e' =>
      obtain ⟨hgrown, hpool⟩ := TransitionDb_refused hst
      refine ⟨st.machine.session, st.gp, ?_, hgrown, ?_⟩
      · dsimp only
        rw [hst]
        rfl
      · rw [hpool]
        simp
    | ok result =>
      dsimp only at h
      split at h
      · cases h
      · cases h

/-! ## §3 — Rejected transactions -/

/-- **A rejected transaction leaves no trace** in the state, the gas used, the receipts and the
transactions, and none in the gas pool exactly if no gas was bought for it. -/
theorem rejected_leaves_no_trace_iff (env : Env C) (w : Environment S C) (tx : Transaction)
    (hbelow : SnapshotsBelow w.current.ledger.session) (p : Processing S C) (e : TxError)
    (hsnap : onState w.current [.snapshot] = .ok p)
    (h : ApplyTransaction env p tx = .ok (.error e)) :
    ∃ w', commitTransaction env w tx = .ok (w', some e) ∧
      w'.current.ledger.session.world = w.current.ledger.session.world ∧
      w'.current.ledger.trie = w.current.ledger.trie ∧ w'.current.usedGas = w.current.usedGas ∧
      w'.current.receipts = w.current.receipts ∧ w'.txs = w.txs ∧
      (w'.current.gp = w.current.gp ↔ ∀ msg, tx.AsMessage = .ok msg →
        ¬ Buys w.current.ledger.session w.current.gp msg) := by
  obtain ⟨session, gp, hleft, hgrown, hpool⟩ := leftBehind_spec h
  have hc : Carried ({ session := p.ledger.session } : Machine C) { session } := ⟨hgrown, rfl, rfl⟩
  cases hsnap
  let before : Machine C := { session := w.current.ledger.session }
  cases hrevert : ({ session } : Machine C).apply [.revertToSnapshot (snapshotId before)] with
  | error e' => exact absurd hrevert (revert_ne (m := before) rfl hc e')
  | ok m =>
    obtain ⟨hworld, -⟩ := carried_revert (m := before) hbelow rfl hc hrevert
    refine ⟨_, bind_ok.mpr ⟨_, rfl, bind_ok.mpr ⟨_, h, bind_ok.mpr ⟨_, hleft, bind_ok.mpr
      ⟨_, map_ok.mpr ⟨m, mapError_ok.mpr hrevert, rfl⟩, rfl⟩⟩⟩⟩, hworld, rfl, rfl, rfl, rfl, hpool⟩

/-- A block with 100000 units of gas left. -/
def emptyBlock : Environment Slots Bytes :=
  { current := { ledger := ⟨{ world := emptyWorld }, fun _ => none⟩, gp := 100000 } }

/-- A transaction without a valid signature buys no gas. -/
theorem rejected_leaves_no_trace_iff_unsigned :
    ∃ w', commitTransaction (sampleEnv {}) emptyBlock ⟨Hash.zero, .error .ErrInvalidSender⟩ =
      .ok (w', some .ErrInvalidSender) ∧ w'.current.gp = 100000 := by
  obtain ⟨w', hw', -, -, -, -, -, hpool⟩ := rejected_leaves_no_trace_iff (sampleEnv {}) emptyBlock
    ⟨Hash.zero, .error .ErrInvalidSender⟩ nofun _ _ rfl rfl
  exact ⟨w', hw', hpool.mpr nofun⟩

/-- A message with less than its intrinsic gas. -/
def lowGas : Message where
  From := default
  To := some default
  GasPrice := 0
  Gas := 20000
  Value := 0
  Nonce := 0
  CheckNonce := true
  Data := []

/-- **Its gas is gone from the pool.** -/
theorem rejected_keeps_pool_gas :
    (commitTransaction (sampleEnv {}) emptyBlock ⟨Hash.zero, .ok lowGas⟩).map (fun r =>
      (r.1.current.gp, r.1.txs.length, r.2)) = .ok (80000, 0, some .ErrIntrinsicGas) := rfl

end MxtChain.Miner
