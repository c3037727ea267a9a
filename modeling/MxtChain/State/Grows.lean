/-
# MxtChain.State.Grows — what a state database gathers without any reader seeing it.

Objects are loaded on the first access, their tries, codes and slots on theirs, and none of this is
undone by a revert; nor is a dirty slot removed again when its change is undone, it is written back
with its old value. `Grows s t` says that `t` is `s` with more of that: every account reads the
same in both, slot by slot. The relation is what a revert is exact up to.
-/
import MxtChain.State.World

set_option linter.unusedSectionVars false

namespace MxtChain.State

open Lib Function Option

variable {S C : Type} [StorageHash S] [CodeHash C] [DecidableEq C] {a : Address}
  {o p q o' p' : StateObject S C} {key value : Hash}

/-! ## §1 — Slots and codes as they are read -/

/-- The address an entry has put a new object at. -/
def JournalEntry.creates : JournalEntry S C → Option Address
  | createObjectChange a => some a
  | resetObjectChange a _ _ => some a
  | _ => none

/-- The address whose object an entry has changed or touched. -/
def JournalEntry.writes : JournalEntry S C → Option Address
  | createObjectChange _ => none
  | e => e.dirtied

namespace StateDB

variable (s : StateDB S C)

/-- The slot behind the caches of an object: in the snapshot, unless the account was destructed in
this block, or in the trie. -/
def slotBehind (a : Address) (o : StateObject S C) (key : Hash) : Hash :=
  match s.snap with
  | none => o.content s.db key
  | some snap =>
    if s.snapDestructs a then Hash.zero else (snap.storage a key).getD (o.content s.db key)

def committedSlot (a : Address) (o : StateObject S C) (key : Hash) : Hash :=
  ((o.pendingStorage.find? key).or (o.originStorage.find? key)).getD (s.slotBehind a o key)

def currentSlot (a : Address) (o : StateObject S C) (key : Hash) : Hash :=
  (o.dirtyStorage.find? key).getD (s.committedSlot a o key)

/-- The object of an address, deleted or not, live or as it would be loaded. -/
def object (a : Address) : Option (StateObject S C) :=
  (s.stateObjects a).or ((s.readAccount a).map newObject)

theorem object_of_live {s : StateDB S C} (h : s.stateObjects a = some o) : s.object a = some o := by
  simp [object, h]

theorem live_of_object_none {s : StateDB S C} (h : s.object a = none) :
    s.stateObjects a = none := by
  cases hl : s.stateObjects a with
  | none => rfl
  | some o => simp [object, hl] at h

/-- Loading leaves every address with the object it had. -/
theorem getDeletedStateObject_eq (a : Address) : s.getDeletedStateObject a =
      (s.object a, { s with stateObjects := update s.stateObjects a (s.object a) }) := by
  unfold getDeletedStateObject object
  cases hl : s.stateObjects a with
  | some o =>
    have hsame : update s.stateObjects a (some o) = s.stateObjects := by
      rw [← hl, update_eq_self]
    simp only [some_or, hsame]
  | none =>
    cases hr : s.readAccount a with
    | none =>
      have hsame : update s.stateObjects a none = s.stateObjects := by
        rw [← hl, update_eq_self]
      simp only [map_none, or_none, hsame]
    | some data => rfl

/-- The state in which an address has been loaded. -/
def load (a : Address) : StateDB S C :=
  { s with stateObjects := update s.stateObjects a (s.object a) }

theorem getStateObject_eq (a : Address) :
    s.getStateObject a = ((s.object a).filter fun o => !o.deleted, s.load a) := by
  rw [getStateObject, getDeletedStateObject_eq]
  rfl

def account (a : Address) (o : StateObject S C) : LogicalAccount C where
  nonce := o.data.nonce
  balance := o.data.balance
  codeHash := o.data.codeHash
  code := (o.Code s.db).1
  suicided := o.suicided
  state := s.currentSlot a o
  committed := s.committedSlot a o

/-- The accounts of a state database. -/
def accounts (a : Address) : Option (LogicalAccount C) :=
  ((s.object a).filter fun o => !o.deleted).map (s.account a)

/-- The addresses of the objects that the journal says were created or reset. -/
def created (a : Address) : Prop := ∃ e ∈ s.entries, e.creates = some a

/-- The addresses of the objects that the journal says were changed or touched. -/
def written (a : Address) : Prop := ∃ e ∈ s.entries, e.writes = some a

/-- The world that a state database shows. -/
def world : World C where
  accounts := s.accounts
  created := s.created
  written := s.written
  refund := s.refund
  thash := s.thash
  bhash := s.bhash
  txIndex := s.txIndex
  logs := s.logs
  logSize := s.logSize
  preimages := s.preimages

end StateDB

namespace StateObject

variable {s t : StateDB S C} {key : Hash}

theorem GetCommittedState_fst (h : o.fakeStorage = none) :
    (o.GetCommittedState s a key).1 = s.committedSlot a o key := by
  unfold GetCommittedState StateDB.committedSlot StateDB.slotBehind
  rw [h]
  cases hp : o.pendingStorage.find? key with
  | some value => rfl
  | none =>
    cases ho : o.originStorage.find? key with
    | some value => rfl
    | none =>
      cases hs : s.snap with
      | none => rfl
      | some snap =>
        cases hd : s.snapDestructs a with
        | true => simp
        | false => cases hv : snap.storage a key <;> simp [hv, readTrie]

theorem GetState_fst (h : o.fakeStorage = none) :
    (o.GetState s a key).1 = s.currentSlot a o key := by
  unfold GetState StateDB.currentSlot
  rw [h]
  cases hd : o.dirtyStorage.find? key with
  | some value => rfl
  | none => exact GetCommittedState_fst h

/-! ## §2 — Objects that grow -/

/-- The slot is cached, or there is nothing behind the cache. -/
def Known (s : StateDB S C) (a : Address) (o : StateObject S C) (key : Hash) : Prop :=
  (o.pendingStorage.find? key).isSome ∨ (o.originStorage.find? key).isSome ∨
    (s.snap.isSome ∧ s.snapDestructs a = true)

/-- The two objects differ at most in the account data other than the storage root. -/
structure SameStorage (o o' : StateObject S C) : Prop where
  trie : o'.trie = o.trie
  root : o'.data.root = o.data.root
  originStorage : o'.originStorage = o.originStorage
  pendingStorage : o'.pendingStorage = o.pendingStorage
  dirtyStorage : o'.dirtyStorage = o.dirtyStorage
  fakeStorage : o'.fakeStorage = o.fakeStorage
  deleted : o'.deleted = o.deleted

theorem SameStorage.content (h : SameStorage o o')
    (db : Database S C) : o'.content db = o.content db := by
  unfold StateObject.content
  rw [h.trie, h.root]

/-- `p` is `o` with more loaded, and with some slots written back. -/
structure Grows (s : StateDB S C) (a : Address) (o p : StateObject S C) : Prop where
  data : p.data = o.data
  suicided : p.suicided = o.suicided
  deleted : p.deleted = o.deleted
  fakeStorage : p.fakeStorage = o.fakeStorage
  pendingStorage : p.pendingStorage = o.pendingStorage
  content : p.content s.db = o.content s.db
  code : (p.Code s.db).1 = (o.Code s.db).1
  codeKept : ∀ c, o.code = some c → p.code = some c
  dirtyCode : o.dirtyCode = true → p.dirtyCode = true
  origin : ∀ key, p.originStorage.find? key = o.originStorage.find? key ∨
    (o.originStorage.find? key = none ∧ p.originStorage.find? key = some (s.slotBehind a o key))
  dirty : ∀ key, p.dirtyStorage.find? key = o.dirtyStorage.find? key ∨
    (o.dirtyStorage.find? key = none ∧
      p.dirtyStorage.find? key = some (s.committedSlot a o key) ∧ Known s a p key)

namespace Grows

theorem refl (s : StateDB S C) (a : Address) (o : StateObject S C) : Grows s a o o where
  data := rfl
  suicided := rfl
  deleted := rfl
  fakeStorage := rfl
  pendingStorage := rfl
  content := rfl
  code := rfl
  codeKept _ h := h
  dirtyCode h := h
  origin _ := .inl rfl
  dirty _ := .inl rfl

variable (h : Grows s a o p)
include h

theorem slotBehind_eq : s.slotBehind a p = s.slotBehind a o := by
  unfold StateDB.slotBehind
  rw [h.content]

theorem committedSlot_eq : s.committedSlot a p = s.committedSlot a o := by
  funext key
  unfold StateDB.committedSlot
  rw [h.pendingStorage, h.slotBehind_eq]
  rcases h.origin key with horigin | ⟨hnone, hsome⟩
  · rw [horigin]
  · rw [hnone, hsome]
    cases o.pendingStorage.find? key <;> rfl

theorem currentSlot_eq : s.currentSlot a p = s.currentSlot a o := by
  funext key
  unfold StateDB.currentSlot
  rw [h.committedSlot_eq]
  rcases h.dirty key with hdirty | ⟨hnone, hsome, -⟩
  · rw [hdirty]
  · rw [hnone, hsome]
    rfl

theorem known (hk : Known s a o key) : Known s a p key := by
  unfold Known at hk ⊢
  rw [h.pendingStorage]
  rcases hk with hk | hk | hk
  · exact .inl hk
  · refine .inr (.inl ?_)
    rcases h.origin key with horigin | ⟨-, hsome⟩
    · rwa [horigin]
    · rw [hsome]
      rfl
  · exact .inr (.inr hk)

theorem trans (h' : Grows s a p q) : Grows s a o q where
  data := h'.data.trans h.data
  suicided := h'.suicided.trans h.suicided
  deleted := h'.deleted.trans h.deleted
  fakeStorage := h'.fakeStorage.trans h.fakeStorage
  pendingStorage := h'.pendingStorage.trans h.pendingStorage
  content := h'.content.trans h.content
  code := h'.code.trans h.code
  codeKept c hc := h'.codeKept c (h.codeKept c hc)
  dirtyCode hd := h'.dirtyCode (h.dirtyCode hd)
  origin key := by
    rcases h.origin key with ho | ⟨hnone, hsome⟩
    · rw [← ho, ← h.slotBehind_eq]
      exact h'.origin key
    rcases h'.origin key with ho' | ⟨hnone', -⟩
    · exact .inr ⟨hnone, ho'.trans hsome⟩
    · rw [hsome] at hnone'
      cases hnone'
  dirty key := by
    rcases h.dirty key with ho | ⟨hnone, hsome, hknown⟩
    · rw [← ho, ← h.committedSlot_eq]
      exact h'.dirty key
    rcases h'.dirty key with ho' | ⟨hnone', -⟩
    · exact .inr ⟨hnone, ho'.trans hsome, h'.known hknown⟩
    · rw [hsome] at hnone'
      cases hnone'

/-- The relation looks at the state only for what lies behind the caches. -/
theorem congr (hdb : t.db = s.db) (hsnap : t.snap = s.snap)
    (hdestruct : t.snapDestructs a = s.snapDestructs a) : Grows t a o p := by
  have hbehind : ∀ o : StateObject S C, t.slotBehind a o = s.slotBehind a o := fun o => by
    unfold StateDB.slotBehind
    rw [hdb, hsnap, hdestruct]
  have hcommitted : t.committedSlot a o = s.committedSlot a o := by
    unfold StateDB.committedSlot
    rw [hbehind]
  refine ⟨h.data, h.suicided, h.deleted, h.fakeStorage, h.pendingStorage, ?_, ?_, h.codeKept,
    h.dirtyCode, ?_, ?_⟩
  · rw [hdb]
    exact h.content
  · rw [hdb]
    exact h.code
  · intro key
    rw [hbehind]
    exact h.origin key
  · intro key
    have hk : Known t a p key = Known s a p key := by
      unfold Known
      rw [hsnap, hdestruct]
    rw [hcommitted, hk]
    exact h.dirty key

omit h

/-- A grown object whose account data is put back as it was is a grown version of the old one,
if the change was not about its storage. -/
theorem undo_account (h : Grows s a o' p) (ho : SameStorage o o')
    (hp : SameStorage p p') (hdata : p'.data = o.data) (hsuicided : p'.suicided = o.suicided)
    (hcode : (p'.Code s.db).1 = (o.Code s.db).1) (hkept : ∀ c, o.code = some c → p'.code = some c)
    (hdirty : o.dirtyCode = true → p'.dirtyCode = true) : Grows s a o p' := by
  have hbehind : s.slotBehind a o' = s.slotBehind a o := by
    unfold StateDB.slotBehind
    rw [ho.content]
  have hcommitted : s.committedSlot a o' = s.committedSlot a o := by
    unfold StateDB.committedSlot
    rw [hbehind, ho.pendingStorage, ho.originStorage]
  refine ⟨hdata, hsuicided, ?_, ?_, ?_, ?_, hcode, hkept, hdirty, fun key => ?_, fun key => ?_⟩
  · rw [hp.deleted, h.deleted, ho.deleted]
  · rw [hp.fakeStorage, h.fakeStorage, ho.fakeStorage]
  · rw [hp.pendingStorage, h.pendingStorage, ho.pendingStorage]
  · rw [hp.content, h.content, ho.content]
  · have horigin := h.origin key
    rw [hbehind, ho.originStorage] at horigin
    rwa [hp.originStorage]
  · have hd := h.dirty key
    rw [hcommitted, ho.dirtyStorage] at hd
    have hk : Known s a p' key = Known s a p key := by
      unfold Known
      rw [hp.pendingStorage, hp.originStorage]
    rwa [hp.dirtyStorage, hk]

end Grows

/-! ## §3 — Loading a slot or the code -/

theorem Code_fst (db : Database S C) (o : StateObject S C) : (o.Code db).1 =
    o.code.or (if o.data.codeHash = emptyCodeHash then none else db.code o.data.codeHash) := by
  unfold Code
  cases o.code with
  | some code => rfl
  | none =>
    split_ifs <;> rfl

theorem Code_snd (db : Database S C) (o : StateObject S C) :
    (o.Code db).2 = { o with code := (o.Code db).1 } := by
  unfold Code
  cases hc : o.code with
  | some code => simp [← hc]
  | none =>
    split_ifs
    · simp [← hc]
    · rfl

/-- An object given the code and the code hash of another one shows that code. -/
theorem Code_setCode_self (o p : StateObject S C) (db : Database S C) :
    ((p.setCode o.data.codeHash (o.Code db).1).Code db).1 = (o.Code db).1 := by
  rw [Code_fst]
  change (o.Code db).1.or (if o.data.codeHash = emptyCodeHash then none
    else db.code o.data.codeHash) = (o.Code db).1
  rw [Code_fst]
  cases o.code with
  | some c => rfl
  | none => rw [Option.none_or, Option.or_self]

theorem Code_grows (s : StateDB S C) (a : Address) (o : StateObject S C) :
    Grows s a o (o.Code s.db).2 := by
  rw [Code_snd]
  refine ⟨rfl, rfl, rfl, rfl, rfl, rfl, ?_, fun c hc => ?_, fun h => h, fun _ => .inl rfl,
    fun _ => .inl rfl⟩
  · have hcode := Code_setCode_self o o s.db
    rw [Code_fst] at hcode ⊢
    exact hcode
  · simp [Code_fst, hc]

theorem readTrie_grows (s : StateDB S C) (a : Address) (o : StateObject S C)
    (hnone : o.originStorage.find? key = none)
    (hbehind : s.slotBehind a o key = o.content s.db key) :
    Grows s a o (o.readTrie s.db key).2 := by
  refine ⟨rfl, rfl, rfl, rfl, rfl, rfl, ?_, fun _ h => h, fun h => h, fun j => ?_,
    fun _ => .inl rfl⟩
  · rw [Code_fst, Code_fst]
    rfl
  · by_cases hj : j = key
    · subst hj
      refine .inr ⟨hnone, ?_⟩
      simp only [readTrie, GoMap.find?_insert_self, hbehind]
    · refine .inl ?_
      simp only [readTrie, GoMap.find?_insert_of_ne hj]

/-- Reading a committed slot loads it, or there is nothing to load. -/
theorem GetCommittedState_grows (s : StateDB S C) (a : Address) (h : o.fakeStorage = none)
    (key : Hash) : Grows s a o (o.GetCommittedState s a key).2 ∧
      (o.GetCommittedState s a key).2.dirtyStorage = o.dirtyStorage ∧
      Known s a (o.GetCommittedState s a key).2 key := by
  unfold GetCommittedState
  rw [h]
  cases hp : o.pendingStorage.find? key with
  | some value => exact ⟨.refl s a o, rfl, .inl (by simp [hp])⟩
  | none =>
    cases ho : o.originStorage.find? key with
    | some value => exact ⟨.refl s a o, rfl, .inr (.inl (by simp [ho]))⟩
    | none =>
      cases hs : s.snap with
      | none =>
        refine ⟨readTrie_grows s a o ho (by simp [StateDB.slotBehind, hs]), rfl, .inr (.inl ?_)⟩
        simp [readTrie]
      | some snap =>
        cases hd : s.snapDestructs a with
        | true =>
          simp only [if_true]
          exact ⟨.refl s a o, trivial, .inr (.inr ⟨by simp [hs], hd⟩)⟩
        | false =>
          simp only [Bool.false_eq_true, if_false]
          cases hv : snap.storage a key with
          | none =>
            refine ⟨readTrie_grows s a o ho (by simp [StateDB.slotBehind, hs, hd, hv]), rfl,
              .inr (.inl ?_)⟩
            simp [readTrie]
          | some value =>
            refine ⟨⟨rfl, rfl, rfl, h.symm, rfl, rfl, ?_, fun _ h => h, fun h => h, fun j => ?_,
              fun _ => .inl rfl⟩, rfl, .inr (.inl (by simp))⟩
            · rw [Code_fst, Code_fst]
            · by_cases hj : j = key
              · subst hj
                refine .inr ⟨ho, ?_⟩
                simp [StateDB.slotBehind, hs, hd, hv]
              · exact .inl (GoMap.find?_insert_of_ne hj)

theorem GetState_grows (s : StateDB S C) (a : Address) (h : o.fakeStorage = none) (key : Hash) :
    Grows s a o (o.GetState s a key).2 ∧ (o.GetState s a key).2.dirtyStorage = o.dirtyStorage ∧
      (o.dirtyStorage.find? key = none → Known s a (o.GetState s a key).2 key) := by
  unfold GetState
  rw [h]
  cases hd : o.dirtyStorage.find? key with
  | some value => exact ⟨.refl s a o, rfl, nofun⟩
  | none =>
    obtain ⟨hg, hdirty, hknown⟩ := GetCommittedState_grows s a h key
    exact ⟨hg, hdirty, fun _ => hknown⟩

/-- A slot put back to the value it had before it was set. -/
theorem Grows.undo_state {s : StateDB S C} (h : Grows s a (o.setState key value) p)
    (hknown : o.dirtyStorage.find? key = none → Known s a o key) :
    Grows s a o (p.setState key (s.currentSlot a o key)) := by
  refine ⟨h.data, h.suicided, h.deleted, h.fakeStorage, h.pendingStorage, h.content, ?_,
    h.codeKept, h.dirtyCode, h.origin, fun j => ?_⟩
  · have hcode := h.code
    rw [Code_fst, Code_fst] at hcode ⊢
    exact hcode
  · by_cases hj : j = key
    · subst hj
      simp only [setState, GoMap.find?_insert_self]
      cases hd : o.dirtyStorage.find? j with
      | some v => exact .inl (by simp [StateDB.currentSlot, hd])
      | none =>
        refine .inr ⟨rfl, by simp [StateDB.currentSlot, hd], ?_⟩
        have hk : Known s a (o.setState j value) j := hknown hd
        exact h.known hk
    · have hdirty := h.dirty j
      simp only [setState, GoMap.find?_insert_of_ne hj] at hdirty ⊢
      exact hdirty

end StateObject

/-! ## §4 — State databases that grow -/

namespace StateDB

/-- No account has been given fake storage by `SetStorage`. -/
def NoFake (s : StateDB S C) : Prop :=
  ∀ a o, s.stateObjects a = some o → o.fakeStorage = none

theorem NoFake.object {s : StateDB S C} (hs : s.NoFake)
    (ho : s.object a = some o) : o.fakeStorage = none := by
  cases hl : s.stateObjects a with
  | some o' =>
    obtain rfl : o' = o := some.inj ((object_of_live hl).symm.trans ho)
    exact hs a o' hl
  | none =>
    simp only [StateDB.object, hl, none_or, map_eq_some_iff] at ho
    obtain ⟨data, -, rfl⟩ := ho
    rfl

/-- `t` is `s` with more loaded: all that can be read is the same. The addresses in `X` may be
counted as dirty more often. -/
structure Grows (X : Address → Prop) (s t : StateDB S C) : Prop where
  db : t.db = s.db
  trie : t.trie = s.trie
  snap : t.snap = s.snap
  snapDestructs : t.snapDestructs = s.snapDestructs
  snapAccounts : t.snapAccounts = s.snapAccounts
  snapStorage : t.snapStorage = s.snapStorage
  pending : t.stateObjectsPending = s.stateObjectsPending
  refund : t.refund = s.refund
  thash : t.thash = s.thash
  bhash : t.bhash = s.bhash
  txIndex : t.txIndex = s.txIndex
  logs : t.logs = s.logs
  logSize : t.logSize = s.logSize
  preimages : t.preimages = s.preimages
  dirty_sub : ∀ a, a ∈ t.stateObjectsDirty → a ∈ s.stateObjectsDirty
  dirty_kept : ∀ a, (s.stateObjects a).isSome → a ∈ s.stateObjectsDirty → a ∈ t.stateObjectsDirty
  dirties : ∀ a, ¬ X a → t.dirties.count a = s.dirties.count a
  live : ∀ a, (s.stateObjects a).isSome → (t.stateObjects a).isSome
  grown : ∀ a p, t.stateObjects a = some p → ∃ o, s.object a = some o ∧ o.Grows s a p

namespace Grows

variable {X : Address → Prop} {s t u : StateDB S C}

theorem readAccount_eq (h : Grows X s t) : t.readAccount = s.readAccount := by
  unfold readAccount
  rw [h.snap, h.trie]

/-- The object of an address in the grown state. -/
theorem object (h : Grows X s t) (a : Address) : (s.object a = none ∧ t.object a = none) ∨
      ∃ o p, s.object a = some o ∧ t.object a = some p ∧ o.Grows s a p := by
  cases ht : t.stateObjects a with
  | some p =>
    obtain ⟨o, ho, hg⟩ := h.grown a p ht
    exact .inr ⟨o, p, ho, object_of_live ht, hg⟩
  | none =>
    have hs : s.stateObjects a = none := by
      by_contra hne
      have hlive := h.live a (isSome_iff_ne_none.mpr hne)
      rw [ht] at hlive
      cases hlive
    have heq : t.object a = s.object a := by
      unfold StateDB.object
      rw [ht, hs, h.readAccount_eq]
    cases hobj : s.object a with
    | none => exact .inl ⟨rfl, by rw [heq, hobj]⟩
    | some o => exact .inr ⟨o, o, rfl, by rw [heq, hobj], .refl s a o⟩

theorem refl (X : Address → Prop) (s : StateDB S C) : Grows X s s := by
  refine ⟨rfl, rfl, rfl, rfl, rfl, rfl, rfl, rfl, rfl, rfl, rfl, rfl, rfl, rfl, fun _ h => h,
    fun _ _ h => h, fun _ _ => rfl, fun _ h => h, fun a p hp => ?_⟩
  exact ⟨p, object_of_live hp, .refl s a p⟩

theorem trans (h : Grows X s t) (h' : Grows X t u) : Grows X s u where
  db := h'.db.trans h.db
  trie := h'.trie.trans h.trie
  snap := h'.snap.trans h.snap
  snapDestructs := h'.snapDestructs.trans h.snapDestructs
  snapAccounts := h'.snapAccounts.trans h.snapAccounts
  snapStorage := h'.snapStorage.trans h.snapStorage
  pending := h'.pending.trans h.pending
  refund := h'.refund.trans h.refund
  thash := h'.thash.trans h.thash
  bhash := h'.bhash.trans h.bhash
  txIndex := h'.txIndex.trans h.txIndex
  logs := h'.logs.trans h.logs
  logSize := h'.logSize.trans h.logSize
  preimages := h'.preimages.trans h.preimages
  dirty_sub a ha := h.dirty_sub a (h'.dirty_sub a ha)
  dirty_kept a hl ha := h'.dirty_kept a (h.live a hl) (h.dirty_kept a hl ha)
  dirties a ha := (h'.dirties a ha).trans (h.dirties a ha)
  live a ha := h'.live a (h.live a ha)
  grown a q hq := by
    obtain ⟨p, hp, hpq⟩ := h'.grown a q hq
    rcases h.object a with ⟨-, hnone⟩ | ⟨o, p', ho, hp', hop⟩
    · rw [hp] at hnone
      cases hnone
    · obtain rfl : p' = p := some.inj (hp'.symm.trans hp)
      refine ⟨o, ho, hop.trans (hpq.congr h.db.symm h.snap.symm ?_)⟩
      rw [h.snapDestructs]

/-- The journal and the revisions are not looked at. -/
theorem withJournal (h : Grows X s t) (entries : List (JournalEntry S C))
    (revisions : List Revision) (next : Nat) : Grows X s { t with
      entries := entries
      validRevisions := revisions
      nextRevisionId := next } :=
  { h with }

/-- Putting a grown object in the place of the one an address has. -/
theorem setObject (ho : s.object a = some o) (hg : o.Grows s a p) :
    Grows X s (s.setStateObject a p) := by
  refine ⟨rfl, rfl, rfl, rfl, rfl, rfl, rfl, rfl, rfl, rfl, rfl, rfl, rfl, rfl, fun _ h => h,
    fun _ _ h => h, fun _ _ => rfl, fun b hb => ?_, fun b q hq => ?_⟩
  · by_cases hba : b = a
    · subst hba
      simp [setStateObject]
    · simpa [setStateObject, update_of_ne hba] using hb
  · by_cases hba : b = a
    · subst hba
      simp only [setStateObject, update_self, some.injEq] at hq
      subst hq
      exact ⟨o, ho, hg⟩
    · simp only [setStateObject, update_of_ne hba] at hq
      exact ⟨q, object_of_live hq, .refl s b q⟩

theorem load (X : Address → Prop) (s : StateDB S C) (a : Address) : Grows X s (s.load a) := by
  cases ho : s.object a with
  | some o =>
    have h := setObject (X := X) ho (.refl s a o)
    simpa only [StateDB.load, setStateObject, ho] using h
  | none =>
    have hsame : s.load a = s := by
      unfold StateDB.load
      rw [ho, ← live_of_object_none ho, update_eq_self]
    rw [hsame]
    exact refl X s

theorem account_eq (h : Grows X s t) (hg : o.Grows s a p) : t.account a p = s.account a o := by
  have hg' := hg.congr h.db h.snap (congrFun h.snapDestructs a)
  have hcommitted : t.committedSlot a o = s.committedSlot a o := by
    unfold committedSlot slotBehind
    rw [h.db, h.snap, h.snapDestructs]
  have hcurrent : t.currentSlot a o = s.currentSlot a o := by
    unfold currentSlot
    rw [hcommitted]
  unfold account
  rw [hg'.currentSlot_eq, hg'.committedSlot_eq, hcurrent, hcommitted, hg.data, hg.suicided,
    h.db, hg.code]

theorem accounts_eq (h : Grows X s t) : t.accounts = s.accounts := by
  funext a
  unfold accounts
  rcases h.object a with ⟨ho, hp⟩ | ⟨o, p, ho, hp, hg⟩
  · rw [ho, hp]
    rfl
  rw [ho, hp]
  simp only [filter_some, hg.deleted]
  split_ifs
  · simp only [map_some, h.account_eq hg]
  · rfl

theorem noFake (h : Grows X s t) (hs : s.NoFake) : t.NoFake := by
  intro a p hp
  obtain ⟨o, ho, hg⟩ := h.grown a p hp
  rw [hg.fakeStorage]
  exact hs.object ho

end Grows

end StateDB

end MxtChain.State
