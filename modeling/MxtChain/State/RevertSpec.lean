/-
# MxtChain.State.RevertSpec — snapshots inside snapshots.

The valid revisions of a state database are a tower of states, each on the way back from the next.
An operation keeps the tower, a snapshot puts the present state on top of it, and a revert takes it
down to the state of its revision; so whatever was done after a snapshot, reverting to it brings
back the state the snapshot was taken in, up to what has been loaded since.
-/
import MxtChain.State.Revert

set_option linter.unusedSectionVars false

namespace MxtChain.State

open Lib List Option

variable {S C : Type} [StorageHash S] [CodeHash C] [DecidableEq C] {X : Address → Prop}
  {s t u : StateDB S C} {a b : Address} {I : StateDB S C → Prop} {old : List Revision}
  {saved newer base : List (Revision × StateDB S C)} {r : Revision}
/-! ## §1 — What undoing does not touch -/

namespace StateDB

/-- Undoing does not touch the account trie, and no identifier is handed out a second time. -/
def Kept (s t : StateDB S C) : Prop := t.nextRevisionId = s.nextRevisionId ∧ t.trie = s.trie

theorem onStateObject_kept {f : StateObject S C → StateObject S C}
    (h : s.onStateObject a f = some t) : s.Kept t := by
  unfold onStateObject at h
  rw [getStateObject_eq] at h
  cases ho : (s.object a).filter fun o => !o.deleted with
  | none => simp [ho] at h
  | some o =>
    simp only [ho, some.injEq] at h
    rw [← h]
    exact ⟨rfl, rfl⟩

theorem undo_kept {e : JournalEntry S C} (h : e.undo s = some t) : s.Kept t := by
  obtain ⟨t', ht', rfl⟩ := map_eq_some_iff.mp h
  have hkept : s.Kept t' := by
    cases e with
    | createObjectChange a => exact (some.inj ht') ▸ ⟨rfl, rfl⟩
    | resetObjectChange a prev prevdestruct =>
      obtain rfl := some.inj ht'
      split_ifs <;> exact ⟨rfl, rfl⟩
    | suicideChange a prev prevbalance =>
      simp only [JournalEntry.revert, getStateObject_eq] at ht'
      cases ho : (s.object a).filter fun o => !o.deleted with
      | none | some o =>
        simp only [ho, some.injEq] at ht'
        exact ht' ▸ ⟨rfl, rfl⟩
    | balanceChange a prev | nonceChange a prev | storageChange a key prevalue
    | codeChange a prevcode prevhash => exact onStateObject_kept ht'
    | refundChange prev => exact (some.inj ht') ▸ ⟨rfl, rfl⟩
    | addLogChange txhash =>
      simp only [JournalEntry.revert] at ht'
      split_ifs at ht'
      exact (some.inj ht') ▸ ⟨rfl, rfl⟩
    | addPreimageChange hash | touchChange a => exact (some.inj ht') ▸ ⟨rfl, rfl⟩
  refine ⟨?_, ?_⟩
  · rw [← hkept.1]
    split <;> rfl
  · rw [← hkept.2]
    split <;> rfl

theorem unwind_kept {es : List (JournalEntry S C)}
    (h : UndoLog.unwind JournalEntry.undo es s = some t) : s.Kept t := by
  induction es generalizing s with
  | nil => exact (some.inj h) ▸ ⟨rfl, rfl⟩
  | cons e es ih =>
    obtain ⟨s', hs', ht⟩ := bind_eq_some_iff.mp h
    exact ⟨(ih ht).1.trans (undo_kept hs').1, (ih ht).2.trans (undo_kept hs').2⟩

theorem RevertToSnapshot_kept {revid : Nat} (h : s.RevertToSnapshot revid = some t) : s.Kept t := by
  simp only [RevertToSnapshot, revert] at h
  split at h
  · cases h
  split_ifs at h
  obtain ⟨u, hu, rfl⟩ := map_eq_some_iff.mp h
  obtain ⟨v, hv, rfl⟩ := map_eq_some_iff.mp hu
  have hkept := unwind_kept hv
  exact ⟨hkept.1, hkept.2⟩

/-- Reverting to the revision that stands after older ones. -/
theorem RevertToSnapshot_eq {older newer : List Revision} {r : Revision}
    (hrevs : s.validRevisions = older ++ r :: newer) (holder : ∀ q ∈ older, q.id < r.id) :
    s.RevertToSnapshot r.id = (s.revert r.journalIndex).map fun t =>
      { t with validRevisions := older } := by
  have hidx : s.validRevisions.findIdx (fun q => decide (r.id ≤ q.id)) = older.length := by
    rw [hrevs, findIdx_append, findIdx_eq_length_of_false, findIdx_cons]
    · simp
    · intro q hq
      simpa using holder q hq
  have hget : s.validRevisions[older.length]? = some r := by
    rw [hrevs]
    simp
  have htake : s.validRevisions.take older.length = older := by
    rw [hrevs]
    simp
  simp only [RevertToSnapshot, hidx, hget, htake, ne_eq, not_true_eq_false, if_false]

end StateDB

/-! ## §2 — The tower of revisions -/

/-- The revisions taken since `old`, newest first, each with the state it was taken in. -/
structure Nested (X : Address → Prop) (I : StateDB S C → Prop) (old : List Revision)
    (saved : List (Revision × StateDB S C)) (s : StateDB S C) : Prop where
  tower : UndoLog.Tower JournalEntry.undo (StateDB.Grows X) StateDB.entries I
    (saved.map Prod.snd) s
  revisions : s.validRevisions = old ++ (saved.map Prod.fst).reverse
  indices : ∀ p ∈ saved, p.1.journalIndex = p.2.entries.length
  sorted : s.validRevisions.Pairwise fun q r => q.id < r.id
  bounded : ∀ r ∈ s.validRevisions, r.id < s.nextRevisionId
  good : I s

namespace Nested

theorem op (h : Nested X I old saved s) (hop : Journaled X s t) (ht : I t) :
    Nested X I old saved t where
  tower := h.tower.step (fun _ _ _ => .trans) hop.back
  revisions := hop.revisions.trans h.revisions
  indices := h.indices
  sorted := hop.revisions ▸ h.sorted
  bounded := hop.revisions ▸ hop.next ▸ h.bounded
  good := ht

/-- The revision that `Snapshot` takes. -/
def nextRevision (s : StateDB S C) : Revision := ⟨s.nextRevisionId, s.entries.length⟩

theorem snapshot (h : Nested X I old saved s) (ht : I s.Snapshot.2) :
    Nested X I old ((nextRevision s, s) :: saved) s.Snapshot.2 where
  tower := by
    have hgrows : s.Grows X s.Snapshot.2 := (StateDB.Grows.refl X s).withJournal _ _ _
    exact .cons h.tower h.good ⟨[], rfl, .start hgrows⟩
  revisions := by
    simp only [StateDB.Snapshot, h.revisions, map_cons, reverse_cons, append_assoc]
    rfl
  indices := by
    intro p hp
    rcases mem_cons.mp hp with rfl | hp
    · rfl
    · exact h.indices p hp
  sorted := by
    refine pairwise_append.mpr ⟨h.sorted, pairwise_singleton _ _, ?_⟩
    intro q hq r hr
    obtain rfl := mem_singleton.mp hr
    exact h.bounded q hq
  bounded := by
    intro q hq
    rcases mem_append.mp hq with hq | hq
    · exact Nat.lt_succ_of_lt (h.bounded q hq)
    · obtain rfl := mem_singleton.mp hq
      exact Nat.lt_succ_self _
  good := ht

/-- **Reverting to a saved revision** does not panic and leads to the state it was taken in. -/
theorem revert (h : Nested X I old (newer ++ (r, u) :: saved) s) :
    ∃ t, s.RevertToSnapshot r.id = some t ∧ u.Grows X t ∧ t.entries = u.entries ∧ I u ∧
      (I t → Nested X I old saved t) := by
  have htrans : ∀ a b c : StateDB S C, a.Grows X b → b.Grows X c → a.Grows X c :=
    fun _ _ _ => .trans
  have htower : UndoLog.Tower JournalEntry.undo (StateDB.Grows X) StateDB.entries I
      (newer.map Prod.snd ++ u :: saved.map Prod.snd) s := by
    simpa using h.tower
  obtain ⟨hback, hI, hrest⟩ := htower.back htrans
  have hrevs : s.validRevisions = (old ++ (saved.map Prod.fst).reverse) ++
      r :: (newer.map Prod.fst).reverse := by
    rw [h.revisions]
    simp
  have hsorted := h.sorted
  rw [hrevs] at hsorted
  obtain ⟨holder, -, hlt⟩ := pairwise_append.mp hsorted
  obtain ⟨⟨t, ht, hgrows⟩, hdrop⟩ := hback.unwind htrans (StateDB.Grows.refl X)
  have hidx : r.journalIndex = u.entries.length := h.indices (r, u) (by simp)
  refine ⟨{ t with
      entries := u.entries
      validRevisions := old ++ (saved.map Prod.fst).reverse }, ?_, ?_, rfl, hI, fun hIt => ?_⟩
  · rw [StateDB.RevertToSnapshot_eq hrevs fun q hq => hlt q hq r mem_cons_self]
    simp only [StateDB.revert, hidx, ht, hdrop, map_some]
  · exact hgrows.withJournal _ _ _
  · refine ⟨hrest.step htrans ⟨[], rfl, .start (hgrows.withJournal _ _ _)⟩, rfl,
      fun p hp => h.indices p (by simp [hp]), holder, fun q hq => ?_, hIt⟩
    have hnext : t.nextRevisionId = s.nextRevisionId := (StateDB.unwind_kept ht).1
    change q.id < t.nextRevisionId
    rw [hnext]
    exact h.bounded q (by rw [hrevs]; exact mem_append_left _ hq)

end Nested

/-! ## §3 — Runs with snapshots inside -/

/-- The revision ids are handed out in increasing order. -/
structure StateDB.RevisionsOK (s : StateDB S C) : Prop where
  sorted : s.validRevisions.Pairwise fun q r => q.id < r.id
  bounded : ∀ r ∈ s.validRevisions, r.id < s.nextRevisionId

/-- What a successful revert has found. -/
theorem StateDB.mem_of_RevertToSnapshot {revid : Nat} (h : s.RevertToSnapshot revid = some t) :
    ∃ r ∈ s.validRevisions, r.id = revid := by
  simp only [StateDB.RevertToSnapshot] at h
  split at h
  · cases h
  · next r hr =>
    split_ifs at h with hid
    exact ⟨r, mem_of_getElem? hr, by simpa using hid⟩

namespace Nested

/-- One operation that does not revert to a revision of `old` or `base`. -/
theorem step (h : Nested X StateDB.NoFake old (newer ++ base) s) {op : Op}
    (hX : op = .addBalance ripemd 0 → X ripemd)
    (hnested : ∀ revid, op = .revertToSnapshot revid → ∀ q ∈ old ++ base.map Prod.fst, q.id < revid)
    (hstep : State.step s op = some t) :
    ∃ newer', Nested X StateDB.NoFake old (newer' ++ base) t := by
  by_cases hsnap : op = .snapshot
  · subst hsnap
    obtain rfl : s.Snapshot.2 = t := some.inj hstep
    exact ⟨(nextRevision s, s) :: newer, h.snapshot h.good⟩
  by_cases hrev : ∃ revid, op = .revertToSnapshot revid
  · obtain ⟨revid, rfl⟩ := hrev
    have hlt := hnested revid rfl
    obtain ⟨q, hq, rfl⟩ := StateDB.mem_of_RevertToSnapshot hstep
    have hmem : q ∈ newer.map Prod.fst := by
      rw [h.revisions, map_append, mem_append, mem_reverse, mem_append] at hq
      rcases hq with hq | hq | hq
      · exact absurd (hlt q (mem_append_left _ hq)) (Nat.lt_irrefl _)
      · exact hq
      · exact absurd (hlt q (mem_append_right _ hq)) (Nat.lt_irrefl _)
    obtain ⟨⟨q', v⟩, hqv, rfl⟩ := mem_map.mp hmem
    obtain ⟨n1, n2, rfl⟩ := append_of_mem hqv
    rw [append_assoc, cons_append] at h
    obtain ⟨t', ht', hgrows, -, hv, hnest⟩ := h.revert
    obtain rfl : t' = t := some.inj (ht'.symm.trans hstep)
    exact ⟨n2, hnest (hgrows.noFake hv)⟩
  · have hj := StateDB.journaled_step h.good hX hsnap (fun revid he => hrev ⟨revid, he⟩) hstep
    exact ⟨newer, h.op hj (hj.noFake h.good)⟩

theorem run {ops : List Op} (h : Nested X StateDB.NoFake old (newer ++ base) s)
    (hX : .addBalance ripemd 0 ∈ ops → X ripemd)
    (hnested : ∀ revid, .revertToSnapshot revid ∈ ops →
      ∀ q ∈ old ++ base.map Prod.fst, q.id < revid)
    (hrun : State.run s ops = some t) :
    ∃ newer', Nested X StateDB.NoFake old (newer' ++ base) t := by
  induction ops generalizing s newer with
  | nil =>
    obtain rfl := some.inj hrun
    exact ⟨newer, h⟩
  | cons op ops ih =>
    obtain ⟨s1, hs1, hrun⟩ := bind_eq_some_iff.mp hrun
    obtain ⟨newer1, h1⟩ := h.step (fun he => hX (he ▸ mem_cons_self))
      (fun revid he => hnested revid (he ▸ mem_cons_self)) hs1
    exact ih h1 (fun hm => hX (mem_cons_of_mem _ hm))
      (fun revid hm => hnested revid (mem_cons_of_mem _ hm)) hrun

end Nested

/-- **Reverting is exact.** In any state in which no account has been given fake storage, whatever
is done after a snapshot short of reverting to it or to an older one, reverting to it does not panic
and restores all that can be asked, the destruction marks, and which addresses are journal-dirty,
the RIPEMD account apart. -/
theorem revertToSnapshot_restores (s : StateDB S C) (hrevs : s.RevisionsOK) (hfake : s.NoFake)
    (ops : List Op) (t : StateDB S C)
    (hnested : ∀ revid, .revertToSnapshot revid ∈ ops → s.Snapshot.1 < revid)
    (hrun : run s.Snapshot.2 ops = some t) :
    ∃ u, t.RevertToSnapshot s.Snapshot.1 = some u ∧ (∀ q, (u.ask q).1 = (s.ask q).1) ∧
      u.snapDestructs = s.snapDestructs ∧
      ∀ a, a ≠ ripemd → (a ∈ u.dirties ↔ a ∈ s.dirties) := by
  have hstart : Nested (fun a => a = ripemd) StateDB.NoFake s.validRevisions [] s :=
    ⟨.nil, by simp, by simp, hrevs.sorted, hrevs.bounded, hfake⟩
  have hfirst : Nested (fun a => a = ripemd) StateDB.NoFake s.validRevisions
      ([] ++ [(Nested.nextRevision s, s)]) s.Snapshot.2 := hstart.snapshot hfake
  have hinner : ∀ revid, .revertToSnapshot revid ∈ ops →
      ∀ q ∈ s.validRevisions ++ [Nested.nextRevision s], q.id < revid := by
    intro revid hm q hq
    have hlt := hnested revid hm
    rcases mem_append.mp hq with hq | hq
    · exact (hrevs.bounded q hq).trans hlt
    · obtain rfl := mem_singleton.mp hq
      exact hlt
  obtain ⟨newer, hnest⟩ := hfirst.run (fun _ => rfl) hinner hrun
  obtain ⟨u, hu, hgrows, -⟩ := hnest.revert
  refine ⟨u, hu, fun q => hgrows.ask_eq hfake q, hgrows.snapDestructs, fun a ha => ?_⟩
  rw [← count_pos_iff, ← count_pos_iff, hgrows.dirties a ha]

/-! ## §4 — A state database with one account -/

/-- Storage roots that are the content, and code hashes that are the code. -/
abbrev Slots := Hash → Hash

instance : StorageHash Slots := ⟨id, Function.injective_id⟩

instance : CodeHash Bytes := ⟨id, Function.injective_id⟩

/-- An account with a nonce, a balance and one slot. -/
def sampleAccount : Account Slots Bytes where
  nonce := 1
  balance := 5
  root := fun key => if key = Hash.ofBytes [1] then Hash.ofBytes [7] else Hash.zero
  codeHash := []

/-- A state database over a trie with this account at address 1. -/
def sampleState : StateDB Slots Bytes :=
  StateDB.New ⟨id, fun _ => none⟩
    (fun a => if a = Address.ofBytes [1] then some sampleAccount else none) none

/-- A transaction that suicides the account, creates it anew under a second snapshot, goes back to
that, and touches another account. -/
def sampleOps : List Op :=
  [.setState (Address.ofBytes [1]) (Hash.ofBytes [1]) (Hash.ofBytes [2]),
    .suicide (Address.ofBytes [1]), .snapshot, .createAccount (Address.ofBytes [1]),
    .revertToSnapshot 1, .addBalance (Address.ofBytes [2]) 0]

theorem revertToSnapshot_restores_sample : ∃ t u, run sampleState.Snapshot.2 sampleOps = some t ∧
      t.RevertToSnapshot 0 = some u ∧ ∀ q, (u.ask q).1 = (sampleState.ask q).1 := by
  have hsome : (run sampleState.Snapshot.2 sampleOps).isSome := by decide
  obtain ⟨u, hu, hask, -⟩ := revertToSnapshot_restores sampleState
    ⟨Pairwise.nil, fun r hr => absurd hr not_mem_nil⟩
    (fun a o ho => absurd ho (by simp [sampleState, StateDB.New])) sampleOps
    ((run sampleState.Snapshot.2 sampleOps).get hsome)
    (fun revid hm => by
      simp only [sampleOps, mem_cons, reduceCtorEq, Op.revertToSnapshot.injEq,
        not_mem_nil, or_false, false_or] at hm
      subst hm
      decide)
    (some_get hsome).symm
  exact ⟨_, u, (some_get hsome).symm, hu, hask⟩

/-- Fake storage is written past the journal: after `SetStorage`, a slot set under a snapshot is
not put back. -/
theorem fakeStorage_not_restored :
    ∃ s t u : StateDB Slots Bytes, s = sampleState.SetStorage (Address.ofBytes [1]) GoMap.empty ∧
      run s.Snapshot.2 [.setState (Address.ofBytes [1]) (Hash.ofBytes [1]) (Hash.ofBytes [2])] =
        some t ∧
      t.RevertToSnapshot s.Snapshot.1 = some u ∧
      (u.GetState (Address.ofBytes [1]) (Hash.ofBytes [1])).1 ≠
        (s.GetState (Address.ofBytes [1]) (Hash.ofBytes [1])).1 := by
  refine ⟨_, _, _, rfl, rfl, rfl, ?_⟩
  decide

end MxtChain.State
