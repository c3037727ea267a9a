/-
# MxtChain.Vm.Effects — what a run does to the state, by induction over the call tree.

The snapshots that were there when a frame started are still there when it ends, so that an entry
point that reverts puts back the state before it, whatever its callees have done. From this comes
one rule (`perform_kept`): a relation between states that every instruction of a frame and every
entry point keep, and that can be composed, holds between the state before and after every call,
failed ones included. Under write protection the rule asks only for the instructions and calls that
the protection lets through.
-/
import MxtChain.Vm.EntrySpec
import MxtChain.Vm.Prices

namespace MxtChain.Vm

open State Lib List

set_option linter.unusedSectionVars false

variable {C α : Type} [CodeHash C] [DecidableEq C] {l l' l'' : World.Session C} {op : Op}
  {ops : List Op} {env : Env C} {m : Machine C} {contract : Contract} {r : Regs} {e : Effect}

/-! ## §1 — Snapshots -/

/-- The identifiers of the snapshots are below the next one. -/
def SnapshotsBelow (l : World.Session C) : Prop := ∀ p ∈ l.saved, p.1 < l.next

/-- The snapshots of a session are still there in a later one, and the new ones have identifiers of
their own. -/
structure Grown (l l' : World.Session C) : Prop where
  next_le : l.next ≤ l'.next
  saved : ∃ extra, l'.saved = l.saved ++ extra ∧ ∀ p ∈ extra, l.next ≤ p.1 ∧ p.1 < l'.next

namespace Grown

theorem refl (l : World.Session C) : Grown l l :=
  ⟨le_rfl, [], (append_nil _).symm, nofun⟩

theorem of_eq (hs : l'.saved = l.saved) (hn : l'.next = l.next) : Grown l l' :=
  ⟨hn.ge, [], by rw [hs, append_nil], nofun⟩

theorem trans (h : Grown l l') (h' : Grown l' l'') : Grown l l'' := by
  obtain ⟨extra, he, hb⟩ := h.saved
  obtain ⟨extra', he', hb'⟩ := h'.saved
  refine ⟨h.next_le.trans h'.next_le, extra ++ extra', ?_, fun p hp => ?_⟩
  · rw [he', he, append_assoc]
  · rcases mem_append.mp hp with hp | hp
    · exact ⟨(hb p hp).1, (hb p hp).2.trans_le h'.next_le⟩
    · exact ⟨h.next_le.trans (hb' p hp).1, (hb' p hp).2⟩

theorem below (h : Grown l l') (hl : SnapshotsBelow l) : SnapshotsBelow l' := by
  obtain ⟨extra, he, hb⟩ := h.saved
  intro p hp
  rw [he] at hp
  rcases mem_append.mp hp with hp | hp
  · exact (hl p hp).trans_le h.next_le
  · exact (hb p hp).2

end Grown

/-- An operation that neither takes a snapshot nor reverts to one. -/
def plainOp : Op → Bool
  | .snapshot | .revertToSnapshot _ => false
  | _ => true

theorem step_eq_of_plain (l : World.Session C) (hop : plainOp op = true) :
    l.step op = (l.world.apply op).map fun w => { l with world := w } := by
  cases op with
  | snapshot | revertToSnapshot id => cases hop
  | _ => rfl

theorem step_plain (hop : plainOp op = true) (h : l.step op = some l') :
    l.world.apply op = some l'.world ∧ l'.saved = l.saved ∧ l'.next = l.next := by
  rw [step_eq_of_plain l hop] at h
  obtain ⟨w, hw, rfl⟩ := Option.map_eq_some_iff.mp h
  exact ⟨hw, rfl, rfl⟩

/-- A run of operations other than snapshots and reverts. -/
def applyAll : World C → List Op → Option (World C)
  | w, [] => some w
  | w, op :: ops => (w.apply op).bind fun w => applyAll w ops

theorem applyAll_singleton (w : World C) (op : Op) : applyAll w [op] = w.apply op :=
  Option.bind_fun_some _

theorem run_plain (hops : ∀ op ∈ ops, plainOp op = true) (h : l.run ops = some l') :
    applyAll l.world ops = some l'.world ∧ l'.saved = l.saved ∧ l'.next = l.next := by
  induction ops generalizing l with
  | nil =>
    cases h
    exact ⟨rfl, rfl, rfl⟩
  | cons op ops ih =>
    obtain ⟨l1, h1, h⟩ := Option.bind_eq_some_iff.mp h
    obtain ⟨hw, hs, hn⟩ := step_plain (hops op mem_cons_self) h1
    obtain ⟨hw', hs', hn'⟩ := ih (fun op hop => hops op (mem_cons_of_mem _ hop)) h
    refine ⟨?_, hs'.trans hs, hn'.trans hn⟩
    rw [applyAll, hw]
    exact hw'

/-- **Reverting.** The snapshot taken first is still there, and puts back what it has saved. -/
theorem step_revert (hl : SnapshotsBelow l)
    (hg : Grown { l with saved := l.saved ++ [(l.next, l.world)], next := l.next + 1 } l')
    (h : l'.step (.revertToSnapshot l.next) = some l'') :
    l''.world = l.world ∧ l''.saved = l.saved ∧ l.next ≤ l''.next := by
  obtain ⟨extra, he, -⟩ := hg.saved
  have hold : ∀ p ∈ l.saved, decide (p.1 = l.next) = false := fun p hp =>
    decide_eq_false (hl p hp).ne
  have hfind : l'.saved.find? (fun p => decide (p.1 = l.next)) = some (l.next, l.world) := by
    rw [he, find?_append, find?_append, find?_eq_none.mpr fun p hp => by simp [hold p hp]]
    simp
  have htake : (l'.saved.takeWhile fun p => decide (p.1 < l.next)) = l.saved := by
    rw [he, append_assoc, takeWhile_append_of_pos fun p hp => decide_eq_true (hl p hp)]
    simp
  obtain ⟨p, hp, rfl⟩ := Option.map_eq_some_iff.mp h
  rw [hfind] at hp
  cases hp
  exact ⟨rfl, htake, (Nat.le_succ _).trans hg.next_le⟩

/-! ## §2 — What an instruction does to the state -/

/-- An execution function without operations on the state database. -/
def Quiet (x : Except Fault Effect) : Prop := ∀ e, x = .ok e → e.ops = [] ∧ e.destroyed = 0

theorem quiet_ok (regs : Regs) (res : Bytes) : Quiet (.ok { regs, res }) := by
  rintro e ⟨⟩
  exact ⟨rfl, rfl⟩

theorem quiet_error (fault : Fault) : Quiet (.error fault) := nofun

theorem quiet_bind {x : Except Fault α} {k : α → Except Fault Effect}
    (h : ∀ a, Quiet (k a)) : Quiet (x >>= k) := fun e he => by
  obtain ⟨a, -, ha⟩ := bind_ok.mp he
  exact h a e ha

theorem quiet_jumpTo (contract : Contract) (r : Regs) (st : Stack) (pos : Word) :
    Quiet (jumpTo contract r st pos) := by
  refine quiet_bind fun b => ?_
  split
  · exact quiet_ok _ _
  · exact quiet_error _

/-- The instructions that work on the state database. -/
def Instr.loud : Instr → Bool
  | .opSha3 | .opSstore | .makeLog _ | .opSuicide => true
  | _ => false

theorem quiet_run (env : Env C) (m : Machine C) (contract : Contract) (r : Regs) {op : Instr}
    (h : op.loud = false) : Quiet (op.run env m contract r) := by
  cases op with
  | opSha3 | opSstore | makeLog size | opSuicide => cases h
  | copied op | opExtCodeCopy =>
    simp only [Instr.run]
    split
    · exact quiet_bind fun _ => quiet_bind fun _ => quiet_ok _ _
    · exact quiet_error _
  | opJump =>
    simp only [Instr.run]
    split
    · exact quiet_jumpTo _ _ _ _
    · exact quiet_error _
  | opJumpi =>
    simp only [Instr.run]
    split
    · split
      · exact quiet_jumpTo _ _ _ _
      · exact quiet_ok _ _
    · exact quiet_error _
  | opJumpSub =>
    simp only [Instr.run]
    split
    · exact quiet_error _
    split
    · split
      · exact quiet_error _
      refine quiet_bind fun b => ?_
      split
      · exact quiet_ok _ _
      · exact quiet_error _
    · exact quiet_error _
  | pushed op | opJumpdest | opPush1 | makePush size pushByteSize | opStop => exact quiet_ok _ _
  | opBeginSub => exact quiet_error _
  | _ =>
    simp only [Instr.run]
    split
    all_goals first
      | exact quiet_ok _ _
      | exact quiet_error _
      | exact quiet_bind fun _ => quiet_ok _ _

/-- What an instruction can do to the state database. -/
inductive StateEffect (m : Machine C) (contract : Contract) (r : Regs) :
    Instr → List Op → Int → Prop
  | quiet (op : Instr) : StateEffect m contract r op [] 0
  | preimage (hash : Hash) (data : Bytes) :
      StateEffect m contract r .opSha3 [.addPreimage hash data] 0
  | store {loc val : Word} {st : Stack} (hst : r.stack = loc :: val :: st) :
      StateEffect m contract r .opSstore
        [.setState contract.self (Word.toHash loc) (Word.toHash val)] 0
  | log (size : Nat) (log : Log) : StateEffect m contract r (.makeLog size) [.addLog log] 0
  | suicide (beneficiary : Address) : StateEffect m contract r .opSuicide
        [.addBalance beneficiary (GetBalance m.world contract.self), .suicide contract.self]
        (if beneficiary = contract.self then GetBalance m.world contract.self else 0)

theorem stateEffect_sha3 (h : Instr.opSha3.run env m contract r = .ok e) :
    StateEffect m contract r .opSha3 e.ops e.destroyed := by
  simp only [Instr.run] at h
  split at h
  · obtain ⟨data, -, h⟩ := bind_ok.mp h
    cases h
    split
    · exact .preimage _ _
    · exact .quiet _
  · cases h

theorem stateEffect_sstore (h : Instr.opSstore.run env m contract r = .ok e) :
    StateEffect m contract r .opSstore e.ops e.destroyed := by
  simp only [Instr.run] at h
  split at h
  · next hst =>
    cases h
    exact .store hst
  · cases h

theorem stateEffect_log {size : Nat} (h : (Instr.makeLog size).run env m contract r = .ok e) :
    StateEffect m contract r (.makeLog size) e.ops e.destroyed := by
  simp only [Instr.run] at h
  split at h
  · split at h
    · cases h
    · obtain ⟨data, -, h⟩ := bind_ok.mp h
      cases h
      exact .log _ _
  · cases h

theorem stateEffect_suicide (h : Instr.opSuicide.run env m contract r = .ok e) :
    StateEffect m contract r .opSuicide e.ops e.destroyed := by
  simp only [Instr.run] at h
  split at h
  · next beneficiary st hst =>
    cases h
    dsimp only
    exact .suicide (Word.toAddress beneficiary)
  · cases h

/-- **The state effect of an instruction.** -/
theorem stateEffect_of_run {op : Instr} (h : op.run env m contract r = .ok e) :
    StateEffect m contract r op e.ops e.destroyed := by
  by_cases hloud : op.loud = true
  · cases op with
    | opSha3 => exact stateEffect_sha3 h
    | opSstore => exact stateEffect_sstore h
    | makeLog size => exact stateEffect_log h
    | opSuicide => exact stateEffect_suicide h
    | _ => cases hloud
  · obtain ⟨hops, hd⟩ := quiet_run env m contract r (Bool.eq_false_iff.mpr hloud) e h
    rw [hops, hd]
    exact .quiet _

theorem StateEffect.plain {op : Instr} {destroyed : Int}
    (h : StateEffect m contract r op ops destroyed) : ∀ op ∈ ops, plainOp op = true := by
  cases h <;> simp [plainOp]

/-! ## §3 — What a price does to the state -/

theorem Admitted.refundOp {f : Frame} {c : Charged}
    (h : Admitted env m f c) : ∀ op ∈ c.gas.ops, Vm.refundOp op = true := by
  rcases dynamicCost_cases h.dynamicGas with ⟨-, hg⟩ | ⟨func, -, heval⟩
  · rw [hg]
    nofun
  · exact eval_refundOp heval

theorem plainOp_of_preparing (h : preparing op = true) : plainOp op = true := by
  cases op <;> first | rfl | cases h

theorem plainOp_of_refundOp (h : refundOp op = true) : plainOp op = true := by
  cases op <;> first | rfl | cases h

end MxtChain.Vm
