/-
# MxtChain.State.Revert — reverting to a snapshot restores every observable.

Each operation leaves journal entries that undo it, whatever has been loaded since: one lemma per
kind of entry, all of them through `undoes_change` where the entry is about one object. The log of
a whole run follows by composition, and `RevertToSnapshot` unwinds it.
-/
import MxtChain.State.Grows

set_option linter.unusedSectionVars false

namespace MxtChain.State

open Lib List Function Option StateObject

variable {S C : Type} [StorageHash S] [CodeHash C] [DecidableEq C] {X : Address → Prop}
  {s t u : StateDB S C} {a b : Address} {o o' prev p : StateObject S C} {e : JournalEntry S C}
  {f : StateObject S C → StateObject S C}
/-! ## §1 — What the answers depend on -/

namespace StateDB

theorem object_setStateObject_self : (s.setStateObject a o).object a = some o :=
  object_of_live (by simp [setStateObject])

theorem object_setStateObject_of_ne (h : b ≠ a) : (s.setStateObject a o).object b = s.object b := by
  simp [object, setStateObject, update_of_ne h, readAccount]

theorem object_append (e : JournalEntry S C) : (s.append e).object b = s.object b := rfl

/-- Every getter answers from the world that the state database shows. -/
theorem ask_fst (hs : s.NoFake) (q : Query) : (s.ask q).1 = s.world.answer q := by
  have hload : ∀ a, (s.load a).db = s.db := fun _ => rfl
  cases q with
  | refund | logs hash | logSize | preimage hash => rfl
  | exist a | empty a | balance a | nonce a | code a | codeSize a | codeHash a | hasSuicided a =>
    cases ho : (s.object a).filter fun o => !o.deleted <;>
      simp [ask, Exist, Empty, GetBalance, GetNonce, GetCode, GetCodeSize, GetCodeHash, HasSuicided,
        getStateObject_eq, World.answer, world, accounts, ho, account, hload, LogicalAccount.empty,
        StateObject.empty]
  | state a key =>
    cases ho : (s.object a).filter fun o => !o.deleted with
    | none => simp [ask, GetState, getStateObject_eq, World.answer, world, accounts, ho]
    | some o =>
      have hfake := hs.object (filter_eq_some_iff.mp ho).1
      simp only [ask, GetState, getStateObject_eq, ho, Prod.map_fst, World.answer, world, accounts,
        map_some, elim_some, account, GetState_fst hfake]
      rfl
  | committedState a key =>
    cases ho : (s.object a).filter fun o => !o.deleted with
    | none => simp [ask, GetCommittedState, getStateObject_eq, World.answer, world, accounts, ho]
    | some o =>
      have hfake := hs.object (filter_eq_some_iff.mp ho).1
      simp only [ask, GetCommittedState, getStateObject_eq, ho, Prod.map_fst, World.answer, world,
        accounts, map_some, elim_some, account,
        GetCommittedState_fst hfake]
      rfl

/-- A state that has only grown answers every query the same. -/
theorem Grows.ask_eq (h : Grows X s t) (hs : s.NoFake) (q : Query) : (t.ask q).1 = (s.ask q).1 := by
  rw [ask_fst hs, ask_fst (h.noFake hs)]
  cases q <;> simp only [World.answer, world, h.accounts_eq, h.refund, h.logs, h.logSize,
    h.preimages]

end StateDB

/-! ## §2 — Each entry undoes its change -/

/-- The entry undoes the change, whatever has been loaded since. -/
abbrev Undoes (X : Address → Prop) (e : JournalEntry S C) (t s : StateDB S C) : Prop :=
  UndoLog.Undoes JournalEntry.undo (StateDB.Grows X) e t s

namespace StateDB

/-- The live object of an address is found as it is. -/
theorem getStateObject_of_live (h : s.stateObjects a = some o)
    (hd : o.deleted = false) : s.getStateObject a = (some o, s) := by
  rw [getStateObject_eq, object_of_live h]
  have hload : s.load a = s := by
    unfold load
    rw [object_of_live h, ← h, update_eq_self]
  simp [filter_some, hd, hload]

/-- **A change of one object is undone** by an entry that turns every grown version of the new
object into a grown version of the old one. -/
theorem undoes_change (ho : s.stateObjects a = some o)
    (hlive : o'.deleted = false) (hdirtied : e.dirtied = some a)
    (hrevert : ∀ t p, t.stateObjects a = some p → p.deleted = false →
      e.revert t = some (t.setStateObject a (f p)))
    (hf : ∀ p, o'.Grows s a p → o.Grows s a (f p)) :
    Undoes X e ((s.append e).setStateObject a o') s := by
  intro t ht
  have hl : (t.stateObjects a).isSome := ht.live a (by simp [setStateObject])
  obtain ⟨p, hp⟩ := isSome_iff_exists.mp hl
  obtain ⟨o1, ho1, hg⟩ := ht.grown a p hp
  obtain rfl : o' = o1 := some.inj (object_setStateObject_self.symm.trans ho1)
  have hg : o'.Grows s a p := hg.congr rfl rfl rfl
  refine ⟨{ t.setStateObject a (f p) with dirties := t.dirties.erase a }, ?_, ?_⟩
  · simp only [JournalEntry.undo, hrevert t p hp (hg.deleted.trans hlive), map_some, hdirtied]
    rfl
  · refine { ht with
      dirty_kept := fun b hb hm => ht.dirty_kept b ?_ hm, dirties := fun b hb => ?_,
      live := fun b hb => ?_, grown := fun b q hq => ?_ }
    · by_cases hba : b = a
      · subst hba
        simp [setStateObject]
      · simpa [setStateObject, append, update_of_ne hba] using hb
    · have hcount := ht.dirties b hb
      simp only [setStateObject, append, hdirtied, toList_some, singleton_append] at hcount
      rw [count_erase, hcount, count_cons]
      simp
    · by_cases hba : b = a
      · subst hba
        simp [setStateObject]
      · have hb' : (t.stateObjects b).isSome := ht.live b (by
          simpa [setStateObject, append, update_of_ne hba] using hb)
        simpa [setStateObject, update_of_ne hba] using hb'
    · by_cases hba : b = a
      · subst hba
        simp only [setStateObject, update_self, some.injEq] at hq
        subst hq
        exact ⟨o, object_of_live ho, hf p hg⟩
      · simp only [setStateObject, update_of_ne hba] at hq
        obtain ⟨o2, ho2, hg2⟩ := ht.grown b q hq
        rw [object_setStateObject_of_ne hba, object_append] at ho2
        exact ⟨o2, ho2, hg2.congr rfl rfl rfl⟩

theorem undoes_create (hnone : s.object a = none) (o : StateObject S C) :
    Undoes X (.createObjectChange a) ((s.append (.createObjectChange a)).setStateObject a o) s := by
  intro t ht
  have hdead := live_of_object_none hnone
  refine ⟨{ t with
      stateObjects := update t.stateObjects a none
      stateObjectsDirty := t.stateObjectsDirty.filter (· ≠ a)
      dirties := t.dirties.erase a }, rfl, ?_⟩
  refine { ht with
    dirty_sub := fun b hb => ht.dirty_sub b (mem_of_mem_filter hb),
    dirty_kept := fun b hb hm => ?_, dirties := fun b hb => ?_, live := fun b hb => ?_,
    grown := fun b q hq => ?_ }
  · have hba : b ≠ a := fun h => by simp [h, hdead] at hb
    refine mem_filter.mpr ⟨ht.dirty_kept b ?_ hm, by simpa using hba⟩
    simpa [setStateObject, append, update_of_ne hba] using hb
  · have hcount := ht.dirties b hb
    simp only [setStateObject, append, JournalEntry.dirtied, toList_some,
      singleton_append] at hcount
    rw [count_erase, hcount, count_cons]
    simp
  · have hba : b ≠ a := fun h => by simp [h, hdead] at hb
    have hb' : (t.stateObjects b).isSome := ht.live b (by
      simpa [setStateObject, append, update_of_ne hba] using hb)
    simpa [update_of_ne hba] using hb'
  · have hba : b ≠ a := fun h => by simp [h] at hq
    simp only [update_of_ne hba] at hq
    obtain ⟨o2, ho2, hg2⟩ := ht.grown b q hq
    rw [object_setStateObject_of_ne hba, object_append] at ho2
    exact ⟨o2, ho2, hg2.congr rfl rfl rfl⟩

/-- The state in which a live object has been reset. -/
def resetObject (s : StateDB S C) (a : Address) (prev o : StateObject S C) : StateDB S C :=
  { s with
    snapDestructs :=
      if s.snap.isSome then update s.snapDestructs a true else s.snapDestructs
    stateObjects := update s.stateObjects a (some o)
    entries := .resetObjectChange a prev (s.snap.isSome && s.snapDestructs a) :: s.entries }

theorem undoes_reset (hprev : s.stateObjects a = some prev) (o : StateObject S C) :
    Undoes X (.resetObjectChange a prev (s.snap.isSome && s.snapDestructs a))
      (s.resetObject a prev o) s := by
  intro t ht
  have hsnap : t.snap = s.snap := ht.snap
  have hothers : ∀ b, b ≠ a → (s.resetObject a prev o).snapDestructs b = s.snapDestructs b := by
    intro b hba
    simp only [resetObject]
    split_ifs
    · exact update_of_ne hba _ _
    · rfl
  have hlive : ∀ b, b ≠ a → (s.resetObject a prev o).stateObjects b = s.stateObjects b :=
    fun b hba => update_of_ne hba _ _
  have hobject : ∀ b, b ≠ a → (s.resetObject a prev o).object b = s.object b := by
    intro b hba
    unfold object
    rw [hlive b hba]
    rfl
  -- the destruction mark is taken away exactly if the reset had set it
  have hundo : (JournalEntry.resetObjectChange a prev (s.snap.isSome && s.snapDestructs a)).undo t =
      some { t.setStateObject a prev with snapDestructs := s.snapDestructs } := by
    have hd := ht.snapDestructs
    cases hs : s.snap.isSome with
    | false =>
      simp only [resetObject, hs, Bool.false_eq_true, if_false] at hd
      simp [JournalEntry.undo, JournalEntry.revert, JournalEntry.dirtied, setStateObject, hsnap,
        hs, ← hd]
    | true =>
      simp only [resetObject, hs, if_true] at hd
      cases hdes : s.snapDestructs a with
      | false =>
        have hback : update s.snapDestructs a false = s.snapDestructs := by
          rw [← hdes, update_eq_self]
        simp [JournalEntry.undo, JournalEntry.revert, JournalEntry.dirtied, setStateObject, hsnap,
          hs, hd, hback]
      | true =>
        rw [← hdes, update_eq_self] at hd
        simp [JournalEntry.undo, JournalEntry.revert, JournalEntry.dirtied, setStateObject, ← hd]
  refine ⟨_, hundo, ?_⟩
  refine { ht with
    snapDestructs := rfl, dirty_kept := fun b hb hm => ht.dirty_kept b ?_ hm,
    live := fun b hb => ?_, grown := fun b q hq => ?_ }
  · by_cases hba : b = a
    · subst hba
      simp [resetObject]
    · rwa [hlive b hba]
  · by_cases hba : b = a
    · subst hba
      simp [setStateObject]
    · have hb' : (t.stateObjects b).isSome := ht.live b (by rwa [hlive b hba])
      simpa [setStateObject, update_of_ne hba] using hb'
  · by_cases hba : b = a
    · subst hba
      simp only [setStateObject, update_self, some.injEq] at hq
      subst hq
      exact ⟨prev, object_of_live hprev, .refl s b prev⟩
    · simp only [setStateObject, update_of_ne hba] at hq
      obtain ⟨o2, ho2, hg2⟩ := ht.grown b q hq
      rw [hobject b hba] at ho2
      exact ⟨o2, ho2, hg2.congr rfl rfl (hothers b hba).symm⟩

/-- Growth of the objects, carried over to a state with the same objects. -/
theorem grown_of_eq (ht : Grows X u t) (hdb : u.db = s.db) (htrie : u.trie = s.trie)
    (hsnap : u.snap = s.snap) (hdestructs : u.snapDestructs = s.snapDestructs)
    (hobjects : u.stateObjects = s.stateObjects) :
    ∀ a p, t.stateObjects a = some p → ∃ o, s.object a = some o ∧ o.Grows s a p := by
  intro a p hp
  obtain ⟨o, ho, hg⟩ := ht.grown a p hp
  have hobject : u.object a = s.object a := by
    unfold object readAccount
    rw [hobjects, hsnap, htrie]
  exact ⟨o, hobject ▸ ho, hg.congr hdb.symm hsnap.symm (congrFun hdestructs.symm a)⟩

theorem undoes_refund (gas : UInt64) : Undoes X (.refundChange s.refund)
      { s.append (.refundChange s.refund) with refund := gas } s := by
  intro t ht
  have hgrown := grown_of_eq (s := s) ht rfl rfl rfl rfl rfl
  refine ⟨{ t with refund := s.refund }, rfl, ?_⟩
  exact { ht with refund := rfl, grown := hgrown }

theorem undoes_addLog (log : Log) : Undoes X (.addLogChange s.thash) (s.AddLog log) s := by
  intro t ht
  have hgrown := grown_of_eq (s := s) ht rfl rfl rfl rfl rfl
  have hlogs : t.logs = (s.AddLog log).logs := ht.logs
  have hne : t.logs s.thash ≠ [] := by
    rw [hlogs]
    simp [AddLog]
  refine ⟨{ t with logs := s.logs, logSize := s.logSize }, ?_, ?_⟩
  · have hback : update t.logs s.thash (t.logs s.thash).dropLast = s.logs := by
      rw [hlogs]
      simp [AddLog]
    have hsize : t.logSize - 1 = s.logSize := by
      rw [ht.logSize]
      rfl
    simp [JournalEntry.undo, JournalEntry.revert, JournalEntry.dirtied, hne, hback, hsize]
  · exact { ht with logs := rfl, logSize := rfl, grown := hgrown }

theorem undoes_addPreimage {hash : Hash} (hnone : s.preimages hash = none) (preimage : Bytes) :
    Undoes X (.addPreimageChange hash)
      { s.append (.addPreimageChange hash) with
        preimages := update s.preimages hash (some preimage) } s := by
  intro t ht
  have hgrown := grown_of_eq (s := s) ht rfl rfl rfl rfl rfl
  refine ⟨{ t with preimages := s.preimages }, ?_, ?_⟩
  · have hback : update t.preimages hash none = s.preimages := by
      rw [ht.preimages]
      simp [← hnone]
    simp [JournalEntry.undo, JournalEntry.revert, JournalEntry.dirtied, hback]
  · exact { ht with preimages := rfl, grown := hgrown }

theorem touch_eq (s : StateDB S C) (a : Address) : s.touch a = { s with
    entries := .touchChange a :: s.entries
    dirties := if a = ripemd then a :: a :: s.dirties else a :: s.dirties } := by
  unfold touch
  split_ifs <;> rfl

/-- A touch is undone, except that the RIPEMD account stays dirty. -/
theorem undoes_touch (hX : a = ripemd → X ripemd) : Undoes X (.touchChange a) (s.touch a) s := by
  intro t ht
  rw [touch_eq] at ht
  have hgrown := grown_of_eq (s := s) ht rfl rfl rfl rfl rfl
  refine ⟨{ t with dirties := t.dirties.erase a }, rfl, ?_⟩
  refine { ht with dirties := fun b hb => ?_, grown := hgrown }
  have hcount : t.dirties.count b =
      (if a = ripemd then a :: a :: s.dirties else a :: s.dirties).count b := ht.dirties b hb
  rw [count_erase, hcount]
  by_cases ha : a = ripemd
  · have hba : a ≠ b := fun h => hb (h ▸ ha.symm ▸ hX ha)
    rw [if_pos ha, count_cons_of_ne hba, count_cons_of_ne hba]
    simp [hba]
  · rw [if_neg ha, count_cons]
    simp

end StateDB

/-! ## §3 — Each operation is logged -/

/-- The journal of `t` leads back to `s`. -/
abbrev Back (X : Address → Prop) (s t : StateDB S C) : Prop :=
  UndoLog.Back JournalEntry.undo (StateDB.Grows X) StateDB.entries s t

/-- The operation leads from `s` to `t` and has journaled how to go back. -/
structure Journaled (X : Address → Prop) (s t : StateDB S C) : Prop where
  back : Back X s t
  revisions : t.validRevisions = s.validRevisions
  next : t.nextRevisionId = s.nextRevisionId
  noFake : s.NoFake → t.NoFake

namespace Journaled

theorem of_grows (h : s.Grows X t) (hentries : t.entries = s.entries)
    (hrevisions : t.validRevisions = s.validRevisions)
    (hnext : t.nextRevisionId = s.nextRevisionId) : Journaled X s t :=
  ⟨⟨[], hentries, .start h⟩, hrevisions, hnext, h.noFake⟩

theorem refl (X : Address → Prop) (s : StateDB S C) : Journaled X s s :=
  of_grows (.refl X s) rfl rfl rfl

theorem trans (h : Journaled X s t) (h' : Journaled X t u) : Journaled X s u :=
  ⟨h.back.trans (fun _ _ _ => .trans) h'.back, h'.revisions.trans h.revisions,
    h'.next.trans h.next, fun hs => h'.noFake (h.noFake hs)⟩

theorem of_undoes (hentries : t.entries = e :: s.entries)
    (hrevisions : t.validRevisions = s.validRevisions) (hnext : t.nextRevisionId = s.nextRevisionId)
    (hfake : s.NoFake → t.NoFake) (h : Undoes X e t s) : Journaled X s t :=
  ⟨⟨[e], hentries, .entry (.start (.refl X s)) h⟩, hrevisions, hnext, hfake⟩

end Journaled

namespace StateDB

theorem NoFake.setStateObject (hs : s.NoFake) (ho : o.fakeStorage = none) :
    (s.setStateObject a o).NoFake := by
  intro b p hp
  by_cases hba : b = a
  · subst hba
    simp only [StateDB.setStateObject, update_self, some.injEq] at hp
    rwa [← hp]
  · simp only [StateDB.setStateObject, update_of_ne hba] at hp
    exact hs b p hp

theorem journaled_load (X : Address → Prop) (s : StateDB S C) (a : Address) :
    Journaled X s (s.load a) :=
  .of_grows (.load X s a) rfl rfl rfl

theorem journaled_setObject (ho : s.object a = some o) (hg : o.Grows s a p) :
    Journaled X s (s.setStateObject a p) :=
  .of_grows (.setObject ho hg) rfl rfl rfl

/-- A change of one live object, with the entry that undoes it. -/
theorem journaled_change (ho : s.stateObjects a = some o)
    (hlive : o'.deleted = false) (hfake : o'.fakeStorage = o.fakeStorage)
    (hdirtied : e.dirtied = some a) (hrevert : ∀ t p, t.stateObjects a = some p → p.deleted = false →
      e.revert t = some (t.setStateObject a (f p))) (hf : ∀ p, o'.Grows s a p → o.Grows s a (f p)) :
    Journaled X s ((s.append e).setStateObject a o') :=
  .of_undoes rfl rfl rfl
    (fun hs => NoFake.setStateObject (s := s.append e) hs (hfake.trans (hs a o ho)))
    (undoes_change ho hlive hdirtied hrevert hf)

theorem onStateObject_of_live (h : s.stateObjects a = some o) (hd : o.deleted = false)
    (f : StateObject S C → StateObject S C) :
    s.onStateObject a f = some (s.setStateObject a (f o)) := by
  rw [onStateObject, getStateObject_of_live h hd]

/-- The object that `createObject` puts in place. -/
def freshObject : StateObject S C := (newObject Account.fresh).setNonce 0

theorem createObject_of_none (h : s.object a = none) : s.createObject a =
    (freshObject, none, (s.append (.createObjectChange a)).setStateObject a freshObject) := by
  have hsame : update s.stateObjects a none = s.stateObjects := by
    rw [← live_of_object_none h, update_eq_self]
  rw [createObject, getDeletedStateObject_eq, h, hsame]
  rfl

theorem createObject_of_some (h : s.object a = some prev) :
    s.createObject a = (freshObject, if prev.deleted then none else some prev,
      (s.load a).resetObject a prev freshObject) := by
  rw [createObject, getDeletedStateObject_eq, h, load, resetObject, h]
  cases hs : s.snap.isSome with
  | false =>
    simp only [hs, Bool.false_eq_true, if_false]
    rfl
  | true =>
    simp only [hs, if_true]
    rfl

/-- The reset of an object, whatever it is replaced with. -/
theorem journaled_resetObject (h : s.object a = some prev) (ho : o.fakeStorage = none) :
    Journaled X s ((s.load a).resetObject a prev o) := by
  have hlive : (s.load a).stateObjects a = some prev := by simp [load, h]
  exact (journaled_load X s a).trans (.of_undoes rfl rfl rfl
    (fun hs => NoFake.setStateObject (s := s.load a) hs ho) (undoes_reset hlive o))

theorem journaled_createObject (X : Address → Prop) (s : StateDB S C) (a : Address) :
    Journaled X s (s.createObject a).2.2 := by
  cases h : s.object a with
  | none =>
    rw [createObject_of_none h]
    exact .of_undoes rfl rfl rfl
      (fun hs => NoFake.setStateObject (s := s.append (.createObjectChange a)) hs rfl)
      (undoes_create h _)
  | some prev =>
    rw [createObject_of_some h]
    exact journaled_resetObject h rfl

theorem getOrNew_live (s : StateDB S C) (a : Address) :
    (s.GetOrNewStateObject a).2.stateObjects a = some (s.GetOrNewStateObject a).1 ∧
      (s.GetOrNewStateObject a).1.deleted = false := by
  unfold GetOrNewStateObject
  rw [getStateObject_eq]
  cases ho : (s.object a).filter fun o => !o.deleted with
  | some o =>
    obtain ⟨hobj, hdel⟩ := filter_eq_some_iff.mp ho
    refine ⟨?_, by simpa using hdel⟩
    simp [load, hobj]
  | none =>
    cases h : (s.load a).object a with
    | none => simp [createObject_of_none h, setStateObject, freshObject, newObject,
        StateObject.setNonce]
    | some prev => simp [createObject_of_some h, resetObject, freshObject, newObject,
        StateObject.setNonce]

theorem journaled_getOrNew (X : Address → Prop) (s : StateDB S C) (a : Address) :
    Journaled X s (s.GetOrNewStateObject a).2 := by
  unfold GetOrNewStateObject
  rw [getStateObject_eq]
  cases ho : (s.object a).filter fun o => !o.deleted with
  | some o => exact journaled_load X s a
  | none => exact (journaled_load X s a).trans (journaled_createObject X _ a)

variable (ho : s.stateObjects a = some o)
include ho

variable (hd : o.deleted = false)
include hd

theorem journaled_setBalance (amount : Int) : Journaled X s (s.setBalance a o amount) := by
  refine journaled_change (f := fun p => p.setBalance o.data.balance) ho hd rfl rfl
    (fun t p hp hp' => onStateObject_of_live hp hp' _) fun p hg => ?_
  refine hg.undo_account ⟨rfl, rfl, rfl, rfl, rfl, rfl, rfl⟩ ⟨rfl, rfl, rfl, rfl, rfl, rfl, rfl⟩
    ?_ hg.suicided ?_ hg.codeKept hg.dirtyCode
  · simp only [StateObject.setBalance, hg.data]
  · have hcode := hg.code
    rw [Code_fst, Code_fst] at hcode ⊢
    exact hcode

theorem journaled_setNonce (nonce : UInt64) :
    Journaled X s ((s.append (.nonceChange a o.data.nonce)).setStateObject a
      (o.setNonce nonce)) := by
  refine journaled_change (f := fun p => p.setNonce o.data.nonce) ho hd rfl rfl
    (fun t p hp hp' => onStateObject_of_live hp hp' _) fun p hg => ?_
  refine hg.undo_account ⟨rfl, rfl, rfl, rfl, rfl, rfl, rfl⟩ ⟨rfl, rfl, rfl, rfl, rfl, rfl, rfl⟩
    ?_ hg.suicided ?_ hg.codeKept hg.dirtyCode
  · simp only [StateObject.setNonce, hg.data]
  · have hcode := hg.code
    rw [Code_fst, Code_fst] at hcode ⊢
    exact hcode

theorem journaled_setCode (hash : C) (code : Option Bytes) :
    Journaled X s ((s.append (.codeChange a (o.Code s.db).1 o.data.codeHash)).setStateObject a
      (((o.Code s.db).2).setCode hash code)) := by
  refine journaled_change (f := fun p => p.setCode o.data.codeHash (o.Code s.db).1) ho ?_ ?_ rfl
    (fun t p hp hp' => onStateObject_of_live hp hp' _) fun p hg => ?_
  · rw [Code_snd]
    exact hd
  · rw [Code_snd]
    rfl
  · rw [Code_snd] at hg
    refine hg.undo_account ⟨rfl, rfl, rfl, rfl, rfl, rfl, rfl⟩
      ⟨rfl, rfl, rfl, rfl, rfl, rfl, rfl⟩ ?_ hg.suicided ?_ (fun c hc => ?_) fun _ => rfl
    · simp only [StateObject.setCode, hg.data]
    · exact Code_setCode_self o p s.db
    · simp [StateObject.setCode, Code_fst, hc]

theorem journaled_suicide :
    Journaled X s ((s.append (.suicideChange a o.suicided o.data.balance)).setStateObject a
      { o.setBalance 0 with suicided := true }) := by
  refine journaled_change
    (f := fun p => { p.setBalance o.data.balance with suicided := o.suicided }) ho hd rfl rfl
    (fun t p hp hp' => ?_) fun p hg => ?_
  · rw [JournalEntry.revert, getStateObject_of_live hp hp']
  · refine hg.undo_account ⟨rfl, rfl, rfl, rfl, rfl, rfl, rfl⟩ ⟨rfl, rfl, rfl, rfl, rfl, rfl, rfl⟩
      ?_ rfl ?_ hg.codeKept hg.dirtyCode
    · simp only [StateObject.setBalance, hg.data]
    · have hcode := hg.code
      rw [Code_fst, Code_fst] at hcode ⊢
      exact hcode

/-- A slot of a live object is read and, if the value is new, set. -/
theorem journaled_setState (hfake : o.fakeStorage = none) (key value : Hash) :
    let o1 := (o.GetState s a key).2
    Journaled X s (((s.setStateObject a o1).append
      (.storageChange a key (o.GetState s a key).1)).setStateObject a (o1.setState key value)) := by
  intro o1
  obtain ⟨hgrows, hdirty, hknown⟩ := GetState_grows s a hfake key
  have hload : Journaled X s (s.setStateObject a o1) :=
    journaled_setObject (object_of_live ho) hgrows
  have hprev : (o.GetState s a key).1 = (s.setStateObject a o1).currentSlot a o1 key := by
    rw [GetState_fst hfake, ← hgrows.currentSlot_eq]
    rfl
  refine hload.trans (journaled_change (o := o1)
    (f := fun p => p.setState key (o.GetState s a key).1) ?_ (hgrows.deleted.trans hd) rfl rfl
    (fun t p hp hp' => onStateObject_of_live hp hp' _) fun p hg => ?_)
  · simp [setStateObject]
  · rw [hprev]
    refine hg.undo_state fun hnone => ?_
    exact hknown (hdirty ▸ hnone)

omit hd

omit ho

/-- Only growth: the journal and the revisions are the same. -/
structure OnlyGrows (X : Address → Prop) (s t : StateDB S C) : Prop where
  grows : s.Grows X t
  entries : t.entries = s.entries
  revisions : t.validRevisions = s.validRevisions
  next : t.nextRevisionId = s.nextRevisionId

theorem onlyGrows_ask (hs : s.NoFake) (q : Query) : OnlyGrows X s (s.ask q).2 := by
  have hload : ∀ a, OnlyGrows X s (s.load a) := fun a => ⟨.load X s a, rfl, rfl, rfl⟩
  have hset : ∀ {a o p}, (s.object a).filter (fun o => !o.deleted) = some o →
      o.Grows (s.load a) a p → OnlyGrows X s ((s.load a).setStateObject a p) := by
    intro a o p ho hg
    have hobj : (s.load a).object a = some o :=
      object_of_live (by simp [load, (filter_eq_some_iff.mp ho).1])
    exact ⟨(hload a).grows.trans (.setObject hobj hg), rfl, rfl, rfl⟩
  have hrefl : OnlyGrows X s s := ⟨.refl X s, rfl, rfl, rfl⟩
  cases q with
  | refund | logs hash | logSize | preimage hash => exact hrefl
  | exist a | empty a | balance a | nonce a | codeSize a | codeHash a | hasSuicided a =>
    simpa [ask, Exist, Empty, GetBalance, GetNonce, GetCodeSize, GetCodeHash, HasSuicided,
      getStateObject_eq] using hload a
  | code a =>
    cases ho : (s.object a).filter fun o => !o.deleted with
    | none => simpa [ask, GetCode, getStateObject_eq, ho] using hload a
    | some o =>
      simpa [ask, GetCode, getStateObject_eq, ho] using
        hset ho (Code_grows (s.load a) a o)
  | state a key =>
    cases ho : (s.object a).filter fun o => !o.deleted with
    | none => simpa [ask, GetState, getStateObject_eq, ho] using hload a
    | some o =>
      have hfake := hs.object (filter_eq_some_iff.mp ho).1
      simpa [ask, GetState, getStateObject_eq, ho] using
        hset ho (GetState_grows (s.load a) a hfake key).1
  | committedState a key =>
    cases ho : (s.object a).filter fun o => !o.deleted with
    | none => simpa [ask, GetCommittedState, getStateObject_eq, ho] using hload a
    | some o =>
      have hfake := hs.object (filter_eq_some_iff.mp ho).1
      simpa [ask, GetCommittedState, getStateObject_eq, ho] using
        hset ho (GetCommittedState_grows (s.load a) a hfake key).1

theorem CreateAccount_of_some (h : s.object a = some prev) :
    s.CreateAccount a = (s.load a).resetObject a prev
      (if prev.deleted then freshObject else freshObject.setBalance prev.data.balance) := by
  unfold CreateAccount
  rw [createObject_of_some h]
  cases prev.deleted with
  | true => rfl
  | false => simp [resetObject, setStateObject]

theorem CreateAccount_of_none (h : s.object a = none) : s.CreateAccount a =
    (s.append (.createObjectChange a)).setStateObject a freshObject := by
  unfold CreateAccount
  rw [createObject_of_none h]

theorem journaled_createAccount (X : Address → Prop) (s : StateDB S C) (a : Address) :
    Journaled X s (s.CreateAccount a) := by
  cases h : s.object a with
  | none =>
    have hnew := journaled_createObject X s a
    rw [createObject_of_none h] at hnew
    rwa [CreateAccount_of_none h]
  | some prev =>
    rw [CreateAccount_of_some h]
    refine journaled_resetObject h ?_
    split_ifs <;> rfl

/-- **Every operation journals how to undo it.** -/
theorem journaled_step (hs : s.NoFake) {op : Op} (hX : op = .addBalance ripemd 0 → X ripemd)
    (hsnap : op ≠ .snapshot) (hrev : ∀ revid, op ≠ .revertToSnapshot revid)
    (h : step s op = some t) : Journaled X s t := by
  cases op with
  | snapshot => exact absurd rfl hsnap
  | revertToSnapshot revid => exact absurd rfl (hrev revid)
  | read q =>
    obtain rfl : (s.ask q).2 = t := some.inj h
    have hask := onlyGrows_ask (X := X) hs q
    exact .of_grows hask.grows hask.entries hask.revisions hask.next
  | addBalance a amount =>
    obtain rfl : s.AddBalance a amount = t := some.inj h
    have hnew := journaled_getOrNew X s a
    obtain ⟨hl, hd⟩ := getOrNew_live s a
    unfold AddBalance
    rcases hp : s.GetOrNewStateObject a with ⟨o, s1⟩
    simp only [hp] at hnew hl hd ⊢
    split_ifs with hzero hempty
    · refine hnew.trans (.of_undoes ?_ ?_ ?_ ?_ (undoes_touch fun ha => hX (by rw [hzero, ha])))
      all_goals rw [touch_eq]
      exact fun h => h
    · exact hnew
    · exact hnew.trans (journaled_setBalance hl hd _)
  | subBalance a amount =>
    obtain rfl : s.SubBalance a amount = t := some.inj h
    have hnew := journaled_getOrNew X s a
    obtain ⟨hl, hd⟩ := getOrNew_live s a
    unfold SubBalance
    rcases hp : s.GetOrNewStateObject a with ⟨o, s1⟩
    simp only [hp] at hnew hl hd ⊢
    split_ifs
    · exact hnew
    · exact hnew.trans (journaled_setBalance hl hd _)
  | setBalance a amount =>
    obtain rfl : s.SetBalance a amount = t := some.inj h
    exact (journaled_getOrNew X s a).trans
      (journaled_setBalance (getOrNew_live s a).1 (getOrNew_live s a).2 _)
  | setNonce a nonce =>
    obtain rfl : s.SetNonce a nonce = t := some.inj h
    exact (journaled_getOrNew X s a).trans
      (journaled_setNonce (getOrNew_live s a).1 (getOrNew_live s a).2 _)
  | setCode a code =>
    obtain rfl : s.SetCode a code = t := some.inj h
    have hnew := journaled_getOrNew X s a
    obtain ⟨hl, hd⟩ := getOrNew_live s a
    refine hnew.trans ?_
    have hcode := journaled_setCode (X := X) hl hd (keccak256Hash code) (some code)
    simpa only [SetCode, Code_snd] using hcode
  | setState a key value =>
    obtain rfl : s.SetState a key value = t := some.inj h
    have hnew := journaled_getOrNew X s a
    obtain ⟨hl, hd⟩ := getOrNew_live s a
    have hfake := hnew.noFake hs a _ hl
    refine hnew.trans ?_
    unfold SetState
    rcases hp : s.GetOrNewStateObject a with ⟨o, s1⟩
    simp only [hp] at hl hd hfake ⊢
    simp only [hfake]
    split_ifs
    · exact journaled_setObject (object_of_live hl) (GetState_grows s1 a hfake key).1
    · exact journaled_setState hl hd hfake key value
  | createAccount a =>
    obtain rfl : s.CreateAccount a = t := some.inj h
    exact journaled_createAccount X s a
  | suicide a =>
    obtain rfl : s.Suicide a = t := some.inj h
    unfold Suicide
    rw [getStateObject_eq]
    cases ho : (s.object a).filter fun o => !o.deleted with
    | none => exact journaled_load X s a
    | some o =>
      obtain ⟨hobj, hdel⟩ := filter_eq_some_iff.mp ho
      exact (journaled_load X s a).trans
        (journaled_suicide (by simp [load, hobj]) (by simpa using hdel))
  | addRefund gas =>
    obtain rfl : s.AddRefund gas = t := some.inj h
    exact .of_undoes rfl rfl rfl (fun hs => hs) (undoes_refund _)
  | subRefund gas =>
    simp only [step, SubRefund] at h
    split_ifs at h
    obtain rfl := some.inj h
    exact .of_undoes rfl rfl rfl (fun hs => hs) (undoes_refund _)
  | addLog log =>
    obtain rfl : s.AddLog log = t := some.inj h
    exact .of_undoes rfl rfl rfl (fun hs => hs) (undoes_addLog log)
  | addPreimage hash preimage =>
    obtain rfl : s.AddPreimage hash preimage = t := some.inj h
    unfold AddPreimage
    cases hpre : s.preimages hash with
    | some _ => exact .refl X s
    | none => exact .of_undoes rfl rfl rfl (fun hs => hs) (undoes_addPreimage hpre preimage)

end StateDB

end MxtChain.State
