/-
# MxtChain.State.Ledger — whole blocks, and the ledger they keep.

A state database lives through operations, transaction ends, root computations and the end of the
block. The ledger is what that amounts to: the world of the operations with the worlds that can be
reverted to, and the account trie of the last root. A state database simulates its ledger event by
event, panics included, as long as every account that a transaction puts in the place of another one
is also changed in it (`Proper`).

A code that is not there and an empty one are the same byte string, and the two are not told apart
here (`plain`): a state database returns the one or the other depending on what it has cached.
-/
import MxtChain.State.Commit
import Mathlib.Data.Option.Basic

set_option linter.unusedSectionVars false

namespace MxtChain.State

open Lib Function Option LogicalAccount World LogicalAccount

variable {S C : Type} [StorageHash S] [CodeHash C] [DecidableEq S] [DecidableEq C]
  {s t u : StateDB S C} {a b : Address} {o p : StateObject S C} {d : Bool} {w w' : World C}
/-! ## §1 — Events -/

deriving instance DecidableEq for Query
deriving instance DecidableEq for Op

/-- What happens to a state database. -/
inductive Event where
  | op (op : Op)
  | prepare (thash bhash : Hash) (txIndex : Nat)
  | finalise (deleteEmptyObjects : Bool)
  | intermediateRoot (deleteEmptyObjects : Bool)
  | commit (deleteEmptyObjects : Bool)

namespace StateDB

/-- One event; `none` is a panic. -/
def handle (s : StateDB S C) : Event → Option (StateDB S C)
  | .op op => step s op
  | .prepare thash bhash txIndex => some (s.Prepare thash bhash txIndex)
  | .finalise d => some (s.Finalise d)
  | .intermediateRoot d => s.IntermediateRoot d
  | .commit d => (s.Commit d).map Prod.fst

def handleAll : StateDB S C → List Event → Option (StateDB S C)
  | s, [] => some s
  | s, e :: es => (s.handle e).bind fun s => handleAll s es

/-- The event meets its terms: at the end of a transaction every account that was put in the place
of another one is journal-dirty, and a transaction is prepared before its first snapshot. The touch
of the RIPEMD account, which is let outlive a revert, is left out. -/
def Proper (s : StateDB S C) : Event → Prop
  | .op op => op ≠ .addBalance ripemd 0
  | .prepare _ _ _ => s.validRevisions = []
  | .finalise _ => s.Covered
  | .intermediateRoot _ => s.Covered
  | .commit _ => s.Covered

/-- Every event of a run meets its terms. -/
def Tame : StateDB S C → List Event → Prop
  | _, [] => True
  | s, e :: es => s.Proper e ∧ ∀ t, s.handle e = some t → t.Tame es

theorem covered_iff : s.Covered ↔ ∀ e ∈ s.entries, e.dirtied = none →
    ∀ a ∈ e.creates, a ∈ s.dirties := by
  constructor
  · intro h e he hd a ha
    cases e with
    | resetObjectChange b prev prevdestruct =>
      obtain rfl : b = a := some.inj ha
      exact h b prev prevdestruct he
    | _ => simp_all [JournalEntry.dirtied, JournalEntry.creates]
  · intro h a prev prevdestruct he
    exact h _ he rfl a rfl

instance : Decidable s.Covered := decidable_of_iff _ covered_iff.symm

instance : (e : Event) → Decidable (s.Proper e)
  | .op op => inferInstanceAs (Decidable (op ≠ .addBalance ripemd 0))
  | .prepare _ _ _ => inferInstanceAs (Decidable (s.validRevisions = []))
  | .finalise _ => inferInstanceAs (Decidable s.Covered)
  | .intermediateRoot _ => inferInstanceAs (Decidable s.Covered)
  | .commit _ => inferInstanceAs (Decidable s.Covered)

instance decidableTame : (s : StateDB S C) → (es : List Event) → Decidable (s.Tame es)
  | _, [] => isTrue trivial
  | s, e :: es =>
    match h : s.handle e with
    | none => decidable_of_iff (s.Proper e) (by simp [Tame, h])
    | some t =>
      have := decidableTame t es
      decidable_of_iff (s.Proper e ∧ t.Tame es) (by simp [Tame, h])

end StateDB

/-- The event with its snapshot identifiers counted from `base`. -/
def Event.shift (base : Nat) : Event → Event
  | .op (.revertToSnapshot revid) => .op (.revertToSnapshot (revid + base))
  | e => e

/-! ## §2 — The ledger -/

/-- The account with its code as a byte string. -/
def LogicalAccount.plain (acc : LogicalAccount C) : LogicalAccount C :=
  { acc with code := some (acc.code.getD []) }

/-- The world with the codes as byte strings. -/
def World.plain (w : World C) : World C :=
  { w with accounts := fun a => (w.accounts a).map LogicalAccount.plain }

/-- The world of the operations, with the worlds that can be reverted to, and the account trie of
the last root. -/
structure Ledger (S C : Type) where
  session : World.Session C
  trie : Address → Option (Account S C)

namespace Ledger

variable (l : Ledger S C)

/-- The transaction ends. -/
noncomputable def finalise (d : Bool) : Ledger S C :=
  { l with session := { l.session with world := l.session.world.finalise d, saved := [] } }

open Classical in
/-- The transaction ends and the root is computed; there is none over a negative balance. -/
noncomputable def root (d : Bool) : Option (Ledger S C) :=
  if (l.session.world.finalise d).Solvent then
    some { l.finalise d with trie := (l.session.world.finalise d).trie }
  else none

/-- One event; `none` is a panic. -/
noncomputable def handle : Event → Option (Ledger S C)
  | .op op => (l.session.step op).map fun session => { l with session := session }
  | .prepare thash bhash txIndex =>
    some { l with session := { l.session with
      world := { l.session.world with thash := thash, bhash := bhash, txIndex := txIndex } } }
  | .finalise d => some (l.finalise d)
  | .intermediateRoot d => l.root d
  | .commit d => l.root d

noncomputable def handleAll : Ledger S C → List Event → Option (Ledger S C)
  | l, [] => some l
  | l, e :: es => (l.handle e).bind fun l => handleAll l es

end Ledger

/-! ## §3 — Codes as byte strings -/

/-- Two accounts with the same byte strings. -/
theorem LogicalAccount.plain_inj {acc acc' : LogicalAccount C} : acc.plain = acc'.plain ↔
    acc.nonce = acc'.nonce ∧ acc.balance = acc'.balance ∧ acc.codeHash = acc'.codeHash ∧
      acc.code.getD [] = acc'.code.getD [] ∧ acc.suicided = acc'.suicided ∧
      acc.state = acc'.state ∧ acc.committed = acc'.committed := by
  simp [plain]

namespace World

theorem plain_touch (w : World C) (a : Address) : (w.touch a).plain = w.plain.touch a := rfl

theorem plain_put (w : World C) (a : Address) (acc : LogicalAccount C) :
    (w.put a acc).plain = w.plain.put a acc.plain := by
  apply World.ext
  · funext b
    by_cases hb : b = a
    · subst hb
      simp [plain, put]
    · simp [plain, put, update_of_ne hb]
  all_goals rfl

theorem plain_create (w : World C) (a : Address) (acc : LogicalAccount C) :
    (w.create a acc).plain = w.plain.create a acc.plain := by
  apply World.ext
  · funext b
    by_cases hb : b = a
    · subst hb
      simp [plain, create]
    · simp [plain, create, update_of_ne hb]
  all_goals rfl

variable (h : w.plain = w'.plain)
include h

theorem put_plain {acc acc' : LogicalAccount C}
    (hacc : acc.plain = acc'.plain) : (w.put a acc).plain = (w'.put a acc').plain := by
  rw [plain_put, plain_put, h, hacc]

theorem accounts_plain (a : Address) : (w.accounts a = none ∧ w'.accounts a = none) ∨
      ∃ acc acc', w.accounts a = some acc ∧ w'.accounts a = some acc' ∧
        acc.plain = acc'.plain := by
  have hacc : (w.accounts a).map LogicalAccount.plain = (w'.accounts a).map LogicalAccount.plain :=
    congrFun (congrArg World.accounts h) a
  cases hw : w.accounts a with
  | none =>
    rw [hw] at hacc
    exact .inl ⟨rfl, map_eq_none_iff.mp hacc.symm⟩
  | some acc =>
    rw [hw] at hacc
    obtain ⟨acc', hw', heq⟩ := map_eq_some_iff.mp hacc.symm
    exact .inr ⟨acc, acc', rfl, hw', heq.symm⟩

theorem getOrNew_plain (a : Address) : (w.getOrNew a).1.plain = (w'.getOrNew a).1.plain ∧
      (w.getOrNew a).2.plain = (w'.getOrNew a).2.plain := by
  unfold getOrNew
  rcases accounts_plain h a with ⟨hw, hw'⟩ | ⟨acc, acc', hw, hw', hacc⟩
  · rw [hw, hw']
    exact ⟨rfl, by rw [plain_create, plain_create, h]⟩
  · rw [hw, hw']
    exact ⟨hacc, h⟩

/-- The operations do not tell them apart either. -/
theorem apply_plain (op : Op) : (w.apply op).map plain = (w'.apply op).map plain := by
  have hrefund : w.refund = w'.refund := (World.mk.inj h).2.2.2.1
  have hpre : w.preimages = w'.preimages := (World.mk.inj h).2.2.2.2.2.2.2.2.2
  -- an operation on one account: the account is changed in the same way in both
  have hchange : ∀ (a : Address) (f : LogicalAccount C → LogicalAccount C),
      (∀ acc, (f acc).plain = f acc.plain) →
      ((w.getOrNew a).2.put a (f (w.getOrNew a).1)).plain =
        ((w'.getOrNew a).2.put a (f (w'.getOrNew a).1)).plain := by
    intro a f hf
    obtain ⟨hacc, hw⟩ := getOrNew_plain h a
    exact put_plain hw (by rw [hf, hf, hacc])
  cases op with
  | addBalance a amount =>
    obtain ⟨hacc, hw⟩ := getOrNew_plain h a
    have hempty : (w.getOrNew a).1.empty = (w'.getOrNew a).1.empty := by
      obtain ⟨hnonce, hbalance, hhash, -⟩ := plain_inj.mp hacc
      rw [LogicalAccount.empty, LogicalAccount.empty, hnonce, hbalance, hhash]
    simp only [apply, map_some, some.injEq, hempty]
    split_ifs
    · rw [plain_touch, plain_touch, hw]
    · exact hw
    · exact hchange a (fun acc => { acc with balance := acc.balance + amount }) fun _ => rfl
  | subBalance a amount =>
    simp only [apply, map_some, some.injEq]
    split_ifs
    · exact (getOrNew_plain h a).2
    · exact hchange a (fun acc => { acc with balance := acc.balance - amount }) fun _ => rfl
  | setBalance a amount =>
    exact congrArg some (hchange a (fun acc => { acc with balance := amount }) fun _ => rfl)
  | setNonce a nonce =>
    exact congrArg some (hchange a (fun acc => { acc with nonce := nonce }) fun _ => rfl)
  | setCode a code =>
    exact congrArg some (hchange a (fun acc => { acc with
      codeHash := keccak256Hash code, code := some code }) fun _ => rfl)
  | setState a key value =>
    obtain ⟨hacc, hw⟩ := getOrNew_plain h a
    have hstate := (plain_inj.mp hacc).2.2.2.2.2.1
    simp only [apply, map_some, some.injEq]
    by_cases hv : (w'.getOrNew a).1.state key = value
    · rw [if_pos (hstate ▸ hv), if_pos hv]
      exact hw
    · rw [if_neg (hstate ▸ hv), if_neg hv]
      exact hchange a (fun acc => { acc with state := update acc.state key value })
        fun _ => rfl
  | createAccount a =>
    simp only [apply, map_some, some.injEq]
    rcases accounts_plain h a with ⟨hw, hw'⟩ | ⟨acc, acc', hw, hw', hacc⟩
    · rw [hw, hw', plain_create, plain_create, h]
    · have hbalance := (plain_inj.mp hacc).2.1
      rw [hw, hw', plain_create, plain_create, h, elim_some, elim_some, hbalance]
  | suicide a =>
    simp only [apply, map_some, some.injEq]
    rcases accounts_plain h a with ⟨hw, hw'⟩ | ⟨acc, acc', hw, hw', hacc⟩
    · rw [hw, hw']
      exact h
    rw [hw, hw']
    have hdead := congrArg (fun acc : LogicalAccount C =>
      { acc with suicided := true, balance := 0 }) hacc
    exact put_plain h hdead
  | subRefund gas =>
    simp only [apply, hrefund]
    split_ifs
    · rfl
    · have hw := congrArg (fun w : World C => { w with refund := w'.refund - gas }) h
      exact congrArg some hw
  | addRefund gas =>
    have hw := congrArg (fun w : World C => { w with refund := w.refund + gas }) h
    exact congrArg some hw
  | addLog log =>
    have hw := congrArg (fun w : World C => { w with
      logs := update w.logs w.thash (w.logs w.thash ++ [{ log with
            txHash := w.thash, blockHash := w.bhash, txIndex := w.txIndex, index := w.logSize }])
      logSize := w.logSize + 1 }) h
    exact congrArg some hw
  | addPreimage hash preimage =>
    simp only [apply, map_some, some.injEq, hpre]
    cases w'.preimages hash with
    | some b => exact h
    | none =>
      have hw := congrArg (fun w : World C => { w with
        preimages := update w'.preimages hash (some preimage) }) h
      exact hw
  | read q | snapshot | revertToSnapshot revid => exact congrArg some h

theorem finalise_plain (d : Bool) : (w.finalise d).plain = (w'.finalise d).plain := by
  obtain ⟨haccounts, hcreated, hwritten, -, hrest⟩ := mk.inj h
  have htouched : ∀ a, w.touched a ↔ w'.touched a := by
    intro a
    unfold touched
    rw [hcreated, hwritten]
  have hacc : (w.finalise d).plain.accounts = (w'.finalise d).plain.accounts := by
    funext a
    simp only [plain]
    by_cases ht : w.touched a
    · rw [finalise_of_touched ht, finalise_of_touched ((htouched a).mp ht)]
      rcases accounts_plain h a with ⟨hw, hw'⟩ | ⟨acc, acc', hw, hw', hacc⟩
      · rw [hw, hw']
      obtain ⟨hnonce, hbalance, hhash, hcode, hsuicided, hstate, -⟩ :=
        plain_inj.mp hacc
      have hdead : dead d acc = dead d acc' := by
        rw [dead, dead, empty, empty, hnonce, hbalance, hhash, hsuicided]
      rw [hw, hw', bind_some, bind_some, hdead]
      split_ifs
      · rfl
      · simp [plain_inj, hnonce, hbalance, hhash, hcode, hsuicided, hstate]
    · rw [finalise_of_untouched ht, finalise_of_untouched fun ht' => ht ((htouched a).mpr ht')]
      exact congrFun haccounts a
  obtain ⟨hthash, hbhash, hindex, hlogs, hsize, hpre⟩ := hrest
  exact World.ext hacc rfl rfl rfl hthash hbhash hindex hlogs hsize hpre

theorem trie_plain : (w.trie : Address → Option (Account S C)) = w'.trie := by
  funext a
  unfold trie
  rcases accounts_plain h a with ⟨hw, hw'⟩ | ⟨acc, acc', hw, hw', hacc⟩
  · rw [hw, hw']
  · obtain ⟨hnonce, hbalance, hhash, -, -, -, hcommitted⟩ := plain_inj.mp hacc
    rw [hw, hw', map_some, map_some, hnonce, hbalance, hhash, hcommitted]

theorem solvent_plain (hs : w.Solvent) : w'.Solvent := by
  intro a acc' hacc'
  rcases accounts_plain h a with ⟨-, hw'⟩ | ⟨acc, acc'', hw, hw', hacc⟩
  · exact absurd (hacc'.symm.trans hw') (by simp)
  · obtain rfl := some.inj (hw'.symm.trans hacc')
    rw [← (plain_inj.mp hacc).2.1]
    exact hs a acc hw

end World

end MxtChain.State
