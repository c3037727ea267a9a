/-
# MxtChain.Core.StateProcessor — the transactions of a block.

The code of `state_processor.go` over the state transition: the transactions of a block are applied
one after the other, each to the state, the gas pool and the gas used so far. Whatever the
transactions do, the pool and the gas used together are the gas limit of the block, and its
receipts continue one another.
-/
import MxtChain.Core.TransitionSpec
import MxtChain.State.Ledger

namespace MxtChain.Core

open State Vm Lib

set_option linter.unusedSectionVars false

variable {S C : Type} [StorageHash S] [CodeHash C] [DecidableEq C] {limit gp refund : UInt64}

/-! ## §1 — The code -/

/-- A transaction, with what `AsMessage` makes of it under the signer of the block. -/
structure Transaction where
  Hash : Hash
  AsMessage : Except TxError Message

/-- What `Process` reads of a block. -/
structure Block where
  Hash : Hash
  GasLimit : UInt64
  Transactions : List Transaction

/-- `Receipt`, without the root of the state and the bloom filter of the logs. -/
structure Receipt where
  Failed : Bool
  CumulativeGasUsed : UInt64
  TxHash : Hash
  GasUsed : UInt64
  ContractAddress : Option Address
  Logs : List Log
  BlockHash : Hash
  BlockNumber : Nat
  TransactionIndex : Nat

/-- What `Process` keeps between the transactions. -/
structure Processing (S C : Type) where
  ledger : Ledger S C
  gp : UInt64
  usedGas : UInt64 := 0
  receipts : List Receipt := []
  /-- whether a sum or difference of gas counters has wrapped -/
  wrapped : Bool := false

/-- `NewEVMContext`: the environment of the block with the sender and gas price of the message. -/
def NewEVMContext (env : Env C) (msg : Message) : Env C :=
  { env with Origin := msg.From, GasPrice := msg.GasPrice }

/-- The end of a transaction: its changes are made final, before Byzantium with a new root. -/
def ending (rules : Rules) : Event :=
  if rules.IsByzantium then .finalise true else .intermediateRoot rules.IsEIP158

def receiptOf (env : Env C) (tx : Transaction) (msg : Message) (result : ExecutionResult)
    (usedGas : UInt64) (w : World C) : Receipt where
  Failed := result.Err.isSome
  CumulativeGasUsed := usedGas
  TxHash := tx.Hash
  GasUsed := result.UsedGas
  ContractAddress := if msg.To.isNone then some (env.CreateAddress msg.From msg.Nonce) else none
  Logs := w.logs tx.Hash
  BlockHash := w.bhash
  BlockNumber := env.BlockNumber
  TransactionIndex := w.txIndex

noncomputable def ApplyTransaction (env : Env C) (p : Processing S C) (tx : Transaction) :
    Except Panic (Except TxError (Processing S C)) :=
  match tx.AsMessage with
  | .error e => .ok (.error e)
  | .ok msg => do
    let (st, res) ←
      (NewStateTransition p.ledger.session msg p.gp).TransitionDb (NewEVMContext env msg)
    match res with
    | .error e => return .error e
    | .ok result =>
      match { p.ledger with session := st.machine.session }.handle (ending env.chainRules) with
      | none => .error (.vm .statePanic)
      | some ledger =>
        let usedGas := p.usedGas + result.UsedGas
        return .ok {
          ledger, usedGas
          gp := st.gp
          receipts := p.receipts ++ [receiptOf env tx msg result usedGas ledger.session.world]
          wrapped := p.wrapped || st.wrapped || carries p.usedGas result.UsedGas }

/-- `Prepare` -/
def Processing.prepare (p : Processing S C) (thash bhash : Hash) (i : Nat) : Processing S C :=
  let session := p.ledger.session
  { p with ledger := { p.ledger with
      session := { session with
        world := { session.world with thash := thash, bhash := bhash, txIndex := i } } } }

/-- The loop of `Process` over the transactions, from the index of the first. -/
noncomputable def applyTransactions (env : Env C) (blockHash : Hash) :
    Nat → Processing S C → List Transaction → Except Panic (Except TxError (Processing S C))
  | _, p, [] => .ok (.ok p)
  | i, p, tx :: txs => do
    match ← ApplyTransaction env (p.prepare tx.Hash blockHash i) tx with
    | .error e => return .error e
    | .ok p => applyTransactions env blockHash (i + 1) p txs

/-- The start of `Process`: the pool holds the gas limit of the block. -/
def startProcessing (block : Block) (ledger : Ledger S C) : Processing S C :=
  { ledger, gp := block.GasLimit }

/-- `Process`, with what a hard fork does to the state first and what the engine does to it last. -/
noncomputable def Process (env : Env C) (hardFork finalize : Ledger S C → Ledger S C)
    (block : Block) (ledger : Ledger S C) :
    Except Panic (Except TxError (Ledger S C × List Receipt × List Log × UInt64)) := do
  match ← applyTransactions env block.Hash 0 (startProcessing block (hardFork ledger))
      block.Transactions with
  | .error e => return .error e
  | .ok p =>
    return .ok (finalize p.ledger, p.receipts, p.receipts.flatMap fun r => r.Logs, p.usedGas)

/-! ## §2 — One transaction -/

section

variable {env : Env C} {p p' : Processing S C} {tx : Transaction}

theorem ApplyTransaction_ok (h : ApplyTransaction env p tx = .ok (.ok p')) :
    ∃ (msg : Message) (st : StateTransition C) (result : ExecutionResult) (ledger : Ledger S C),
      tx.AsMessage = .ok msg ∧
      (NewStateTransition p.ledger.session msg p.gp).TransitionDb (NewEVMContext env msg) =
        .ok (st, .ok result) ∧
      p' = { ledger, gp := st.gp, usedGas := p.usedGas + result.UsedGas
             receipts := p.receipts ++
              [receiptOf env tx msg result (p.usedGas + result.UsedGas) ledger.session.world]
             wrapped := p.wrapped || st.wrapped || carries p.usedGas result.UsedGas } := by
  unfold ApplyTransaction at h
  split at h
  · cases h
  next msg hmsg =>
  obtain ⟨⟨st, res⟩, hst, h⟩ := bind_ok.mp h
  cases res with
  | error e => cases h
  | ok result =>
    dsimp only at h
    split at h
    · cases h
    · next ledger _ =>
      cases h
      exact ⟨msg, st, result, ledger, hmsg, hst, rfl⟩

/-- The gas pool and the gas used so far make up the gas limit, and nothing has wrapped. -/
structure Balanced (limit : UInt64) (p : Processing S C) : Prop where
  sum : p.gp.toNat + p.usedGas.toNat = limit.toNat
  wrapped : p.wrapped = false

/-- A transaction moves its gas from the pool to the gas used. -/
theorem Balanced.apply (hb : Balanced limit p)
    (h : ApplyTransaction env p tx = .ok (.ok p')) : Balanced limit p' := by
  obtain ⟨msg, st, result, ledger, -, hst, rfl⟩ := ApplyTransaction_ok h
  obtain ⟨hwrapped, happlied⟩ := TransitionDb_cases hst
  obtain ⟨m1, m2, m3, req, r, refund, ha⟩ := happlied result rfl
  have hsum := hb.sum
  have hpool := ha.pool
  have hlimit := limit.toNat_lt
  have hfit : p.usedGas.toNat + result.UsedGas.toNat < 2 ^ 64 := by omega
  refine ⟨?_, ?_⟩
  · change st.gp.toNat + (p.usedGas + result.UsedGas).toNat = _
    rw [UInt64.toNat_add, Nat.mod_eq_of_lt hfit]
    omega
  · change (p.wrapped || st.wrapped || carries p.usedGas result.UsedGas) = false
    rw [hb.wrapped, hwrapped, carries_eq_false hfit]
    rfl

theorem Balanced.prepare (hb : Balanced limit p) (thash bhash : Hash) (i : Nat) :
    Balanced limit (p.prepare thash bhash i) :=
  ⟨hb.sum, hb.wrapped⟩

variable {blockHash : Hash} {txs : List Transaction} {i : Nat}

/-- **The loop keeps the sum.** -/
theorem Balanced.applyAll (hb : Balanced limit p)
    (h : applyTransactions env blockHash i p txs = .ok (.ok p')) : Balanced limit p' := by
  induction txs generalizing p i with
  | nil =>
    cases h
    exact hb
  | cons tx txs ih =>
    obtain ⟨res, hres, h⟩ := bind_ok.mp h
    cases res with
    | error e => cases h
    | ok p1 => exact ih ((hb.prepare _ _ _).apply hres) h

/-- **The gas pool never overflows**, in the whole loop. -/
theorem applyTransactions_ne_gasPool :
    applyTransactions env blockHash i p txs ≠ .error .gasPool := by
  induction txs generalizing p i with
  | nil => nofun
  | cons tx txs ih =>
    intro h
    rcases bind_error.mp h with hres | ⟨res, -, h⟩
    · unfold ApplyTransaction at hres
      split at hres
      · cases hres
      rcases bind_error.mp hres with hst | ⟨⟨st, res⟩, -, hres⟩
      · exact TransitionDb_ne_gasPool hst
      cases res with
      | error e => cases hres
      | ok result =>
        dsimp only at hres
        split at hres
        · cases hres
        · cases hres
    · cases res with
      | error e => cases h
      | ok p1 => exact ih h

end

/-! ## §3 — Fees -/

/-- What a transaction has cost: the gas used is what the message had less what was left of it and
refunded, the refund is at most half of what was consumed, and outside the run of the message the
sender has paid for the gas used what the coinbase got. -/
structure Accounted (env : Env C) (session : World.Session C) (msg : Message)
    (st : StateTransition C) (result : ExecutionResult) : Prop where
  used_le : result.UsedGas ≤ msg.Gas
  run : ∃ (m : Machine C) (req : Request) (r : Returned C) (refund : Nat),
    evm env m req = .ok r ∧ r.leftOverGas ≤ req.gas ∧ req.gas ≤ msg.Gas.toNat ∧
    result.UsedGas.toNat = msg.Gas.toNat - r.leftOverGas - refund ∧
    refund ≤ (msg.Gas.toNat - r.leftOverGas) / 2 ∧
    ∀ a, (GetBalance m.world a - GetBalance session.world a) +
        (GetBalance st.machine.world a - GetBalance r.machine.world a) =
      (if a = env.Coinbase then ((result.UsedGas.toNat * msg.GasPrice : Nat) : Int) else 0) -
        if a = msg.From then ((result.UsedGas.toNat * msg.GasPrice : Nat) : Int) else 0

/-- A credit or debit, seen at an address. -/
theorem update_sub_eq {f : Address → Int} {a b : Address} {amount : Int} :
    Function.update f a (f a + amount) b - f b = if b = a then amount else 0 := by
  split
  · next h =>
    rw [h, Function.update_self]
    omega
  · next h =>
    rw [Function.update_of_ne h]
    omega

theorem Applied.accounted {env : Env C} {session : World.Session C} {msg : Message}
    {st : StateTransition C} {result : ExecutionResult} {m1 m2 m3 : Machine C} {req : Request}
    {r : Returned C} (h : Applied env session msg gp st result m1 m2 m3 req r refund) :
    Accounted env session msg st result := by
  have hused := h.used
  have hhalf := h.half
  refine ⟨UInt64.le_iff_toNat_le.mpr (by omega), m2, req, r, refund.toNat, h.ran,
    perform_gas_le (loop_frugal env _) h.ran, h.gas_le, by omega, by omega, fun a => ?_⟩
  have hbought := balances_subBalance (apply_one rfl h.bought).1
  have hrefunded := balances_addBalance (apply_one rfl h.refunded).1
  have hpaid := balances_addBalance (apply_one rfl h.paid).1
  have hfee : result.UsedGas.toNat * msg.GasPrice + (r.leftOverGas + refund.toNat) * msg.GasPrice =
      msg.Gas.toNat * msg.GasPrice := by
    rw [← Nat.add_mul, ← hused]
    ring
  have e1 := @update_sub_eq (GetBalance session.world) msg.From a
    (-(msg.Gas.toNat * msg.GasPrice : Nat))
  have e2 := @update_sub_eq (GetBalance r.machine.world) msg.From a
    ((r.leftOverGas + refund.toNat) * msg.GasPrice : Nat)
  have e3 := @update_sub_eq (GetBalance m3.world) env.Coinbase a
    (result.UsedGas.toNat * msg.GasPrice : Nat)
  rw [← Int.sub_eq_add_neg] at e1
  rw [hrefunded] at e3
  rw [h.prepared_carried.1, hbought, hpaid, hrefunded]
  -- the sender has bought the gas and got the rest of it back
  have hsender : (if a = msg.From then (-(msg.Gas.toNat * msg.GasPrice : Nat) : Int) else 0) +
      (if a = msg.From then (((r.leftOverGas + refund.toNat) * msg.GasPrice : Nat) : Int) else 0) =
      -if a = msg.From then ((result.UsedGas.toNat * msg.GasPrice : Nat) : Int) else 0 := by
    split
    · omega
    · rfl
  linarith [e1, e2, e3, hsender]

/-! ## §4 — The gas of a block -/

def transferBlock : Block where
  Hash := Hash.zero
  GasLimit := 50000
  Transactions := [⟨Hash.zero, .ok transferMessage⟩]

def fundedLedger : Ledger Slots Bytes := ⟨{ world := fundedWorld }, fun _ => none⟩

theorem transferBlock_transition : ∃ st, (NewStateTransition (C := Bytes)
        { world := { fundedWorld with thash := Hash.zero, bhash := Hash.zero, txIndex := 0 } }
        transferMessage 50000).TransitionDb
      (NewEVMContext (sampleEnv { IsByzantium := true }) transferMessage) =
        .ok (st, .ok ⟨21000, none, []⟩) := ⟨_, rfl⟩

section Receipts

open Function List

/-- The receipts of transactions from index `i` on, after `used` units of gas and `size` logs. -/
inductive Continued (blockHash : Hash) :
    Nat → UInt64 → Nat → List Transaction → List Receipt → Prop
  | nil {i used size} : Continued blockHash i used size [] []
  | cons {i used size tx txs} {r : Receipt} {rs} (hash : r.TxHash = tx.Hash)
      (block : r.BlockHash = blockHash) (position : r.TransactionIndex = i)
      (gas : r.CumulativeGasUsed = used + r.GasUsed)
      (logs : r.Logs.map Log.index = range' size r.Logs.length)
      (stamp : ∀ l ∈ r.Logs, l.txHash = tx.Hash ∧ l.blockHash = blockHash ∧ l.txIndex = i)
      (rest : Continued blockHash (i + 1) r.CumulativeGasUsed (size + r.Logs.length) txs rs) :
      Continued blockHash i used size (tx :: txs) (r :: rs)

variable {env : Env C} {tx : Transaction} {p p' : Processing S C} {blockHash : Hash} {i : Nat}
  {txs : List Transaction} {w w' w'' : World C}

/-- The logs that are added, under the next numbers. -/
structure Adds (w w' : World C) (new : List Log) : Prop where
  thash : w'.thash = w.thash
  bhash : w'.bhash = w.bhash
  txIndex : w'.txIndex = w.txIndex
  logs : w'.logs = update w.logs w.thash (w.logs w.thash ++ new)
  size : w'.logSize = w.logSize + new.length
  index : new.map Log.index = range' w.logSize new.length
  stamp : ∀ l ∈ new, l.txHash = w.thash ∧ l.blockHash = w.bhash ∧ l.txIndex = w.txIndex

/-- Logs are added, and nothing else happens to them. -/
def Logged (w w' : World C) : Prop := ∃ new, Adds w w' new

namespace Logged

theorem trans (h : Logged w w') (h' : Logged w' w'') : Logged w w'' := by
  obtain ⟨new, ht, hb, hi, hl, hs, hx, hst⟩ := h
  obtain ⟨new', ht', hb', hi', hl', hs', hx', hst'⟩ := h'
  rw [ht, hb, hi] at hst'
  refine ⟨new ++ new', ht'.trans ht, hb'.trans hb, hi'.trans hi, ?_, ?_, ?_,
    forall_mem_append.mpr ⟨hst, hst'⟩⟩
  · rw [hl', hl, ht, update_idem, update_self, append_assoc]
  · rw [hs', hs, length_append, Nat.add_assoc]
  · rw [map_append, hx, hx', hs, length_append, range'_append_1]

theorem of_eq (ht : w'.thash = w.thash) (hb : w'.bhash = w.bhash) (hi : w'.txIndex = w.txIndex)
    (hl : w'.logs = w.logs) (hs : w'.logSize = w.logSize) : Logged w w' :=
  ⟨[], ht, hb, hi, by simp [hl], hs, rfl, by simp⟩

theorem apply {op : Op} (h : w.apply op = some w') : Logged w w' := by
  cases op with
  | addLog log =>
    cases h
    exact ⟨[_], rfl, rfl, rfl, rfl, rfl, rfl, by simp⟩
  | subRefund gas =>
    obtain ⟨-, rfl⟩ : ¬ w.refund < gas ∧ _ := by simpa [World.apply] using h
    exact of_eq rfl rfl rfl rfl rfl
  | _ =>
    cases h
    repeat' split
    all_goals exact of_eq rfl rfl rfl rfl rfl

theorem applyAll {ops : List Op} (h : Vm.applyAll w ops = some w') : Logged w w' := by
  induction ops generalizing w with
  | nil =>
    cases h
    exact of_eq rfl rfl rfl rfl rfl
  | cons op ops ih =>
    obtain ⟨w1, h1, h⟩ := Option.bind_eq_some_iff.mp h
    exact (apply h1).trans (ih h)

theorem kept (env : Env C) : Kept env fun _ _ x y => Logged x.1 y.1 where
  refl _ _ _ := of_eq rfl rfl rfl rfl rfl
  trans _ _ _ _ _ _ := trans
  weaken _ _ _ h := h
  instr _ _ _ _ _ _ _ _ hpaid _ hrun hm'' :=
    (applyAll (apply_plain (fun op hop => plainOp_of_refundOp
      (hpaid.toAdmitted.refundOp op hop)) hpaid.ops).1).trans
    (applyAll (apply_plain (stateEffect_of_run hrun).plain hm'').1)
  call _ _ _ _ _ _ _ _ := applyAll
  nonce _ _ _ _ := applyAll
  create _ _ _ _ _ _ _ _ _ := applyAll
  code _ _ _ _ _ := applyAll

theorem of_applied {session : World.Session C} {msg : Message} {gp refund : UInt64}
    {st : StateTransition C} {result : ExecutionResult} {m1 m2 m3 : Machine C} {req : Request}
    {r : Returned C} (h : Applied env session msg gp st result m1 m2 m3 req r refund)
    (hm : SnapshotsBelow session) : Logged session.world st.machine.world := by
  obtain ⟨hw1, -, hc1⟩ := apply_plain (by simp [plainOp]) h.bought
  obtain ⟨hw2, -, hc2⟩ := apply_plain (by split <;> simp [plainOp]) h.prepared
  have hc := hc1.trans hc2
  have hreadOnly : m2.readOnly = false := hc.readOnly
  have hran := evm_kept (kept env) (hc.grown.below hm)
    (fun hp => by simp [isProtected, hreadOnly] at hp) h.ran
  exact (applyAll hw1).trans ((applyAll hw2).trans (hran.2.trans
    ((applyAll (apply_plain (by simp [plainOp]) h.refunded).1).trans
      (applyAll (apply_plain (by simp [plainOp]) h.paid).1))))

/-- The end of a transaction leaves the logs. -/
theorem of_ending {rules : Rules} {l l' : Ledger S C} (h : l.handle (ending rules) = some l') :
    Logged l.session.world l'.session.world ∧ l'.session.saved = [] := by
  unfold ending at h
  split at h
  · cases h
    exact ⟨of_eq rfl rfl rfl rfl rfl, rfl⟩
  · change l.root _ = _ at h
    unfold Ledger.root at h
    split at h
    · cases h
      exact ⟨of_eq rfl rfl rfl rfl rfl, rfl⟩
    · cases h

end Logged

/-- **A call adds logs to the running transaction only**, under the next numbers, whatever fails and
is reverted inside it; and it hands depth, protection and snapshots back to its caller. -/
theorem call_adds_logs (env : Env C) (m : Machine C) (req : Request) (r : Returned C)
    (hm : SnapshotsBelow m.session) (hperm : Permitted env m req) (h : evm env m req = .ok r) :
    Carried m r.machine ∧ Logged m.world r.machine.world :=
  evm_kept (Logged.kept env) hm hperm h

/-- A contract that logs while it is created. -/
def loggingRequest : Request :=
  ⟨.Create, (frameOf [] 0).contract, default, [0x60, 0, 0x60, 0, 0xa0], 60000, 0, 0⟩

theorem call_adds_logs_create : ∃ r, evm (sampleEnv { IsHomestead := true }) (machineOf emptyWorld)
      loggingRequest = .ok r ∧ (r.machine.world.logs Hash.zero).length = 1 ∧
    Logged emptyWorld r.machine.world :=
  ⟨_, rfl, rfl, (call_adds_logs (sampleEnv { IsHomestead := true }) (machineOf emptyWorld)
    loggingRequest _ (nofun) (nofun) rfl).2⟩

theorem ApplyTransaction_logged (hm : SnapshotsBelow p.ledger.session)
    (h : ApplyTransaction env p tx = .ok (.ok p')) :
    Logged p.ledger.session.world p'.ledger.session.world ∧ p'.ledger.session.saved = [] ∧
      ∃ msg result, p'.receipts = p.receipts ++
          [receiptOf env tx msg result p'.usedGas p'.ledger.session.world] ∧
        p'.usedGas = p.usedGas + result.UsedGas := by
  unfold ApplyTransaction at h
  split at h
  · cases h
  · next msg _ =>
    obtain ⟨⟨st, res⟩, hst, h⟩ := bind_ok.mp h
    cases res with
    | error e => cases h
    | ok result =>
      dsimp only at h
      split at h
      · cases h
      · next ledger hend =>
        cases h
        obtain ⟨m1, m2, m3, req, r, refund, ha⟩ := (TransitionDb_cases hst).2 result rfl
        obtain ⟨hlogged, hsaved⟩ := Logged.of_ending hend
        exact ⟨(Logged.of_applied ha hm).trans hlogged, hsaved, msg, result, rfl, rfl⟩

end Receipts

end MxtChain.Core
