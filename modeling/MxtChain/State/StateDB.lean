/-
# MxtChain.State.StateDB — the state database: live objects, journal, tries and snapshot.

A `StateDB` keeps the accounts a block touches as live objects in front of the account trie (and,
where one is at hand, of a flat snapshot of it). A setter changes the live object and journals how
to undo the change; `Finalise` ends a transaction, `IntermediateRoot` writes the finished objects
into the tries, `Commit` ends the block.

A trie is its content here, and its root hash stands for that content: two storage tries have one
root exactly when they hold the same slots (`StorageHash`), two codes one hash exactly when they are
the same (`CodeHash`). A slot that is not in the trie is the zero hash. A Go map that is only ever
read key by key is a function of the key; where the code asks for its length or loops over it, the
map keeps its keys (`GoMap`, or a list for the sets). Database reads do not fail.
-/
import MxtChain.Common.Types
import MxtChain.Lib.GoMap
import MxtChain.Lib.UndoLog

namespace MxtChain.State

open Lib Function

/-! ## §1 — Accounts, hashes and the database -/

/-- Root hashes of storage tries: as good as the content. -/
class StorageHash (S : Type) where
  storageRoot : (Hash → Hash) → S
  storageRoot_injective : Injective storageRoot

/-- Code hashes: as good as the code. -/
class CodeHash (C : Type) where
  keccak256Hash : Bytes → C
  keccak256Hash_injective : Injective keccak256Hash

export StorageHash (storageRoot)
export CodeHash (keccak256Hash)

/-- `Account`: what the account trie holds of an account. -/
structure Account (S C : Type) where
  nonce : UInt64
  balance : Int
  root : S
  codeHash : C
  deriving DecidableEq

/-- `snapshot.Account` in the slim format: the empty root and the empty code hash are left out. -/
structure SlimAccount (S C : Type) where
  nonce : UInt64
  balance : Int
  root : Option S
  codeHash : Option C
  deriving DecidableEq

variable {S C : Type} [StorageHash S] [CodeHash C]

def emptyRoot : S := storageRoot fun _ => Hash.zero

def emptyCodeHash : C := keccak256Hash []

/-- `Account{}` as `newObject` completes it -/
def Account.fresh : Account S C := ⟨0, 0, emptyRoot, emptyCodeHash⟩

/-- `snapshot.SlimAccount` -/
def Account.slim [DecidableEq S] [DecidableEq C] (data : Account S C) : SlimAccount S C where
  nonce := data.nonce
  balance := data.balance
  root := if data.root = emptyRoot then none else some data.root
  codeHash := if data.codeHash = emptyCodeHash then none else some data.codeHash

/-- The account that `getDeletedStateObject` makes of a slim one. -/
def SlimAccount.full (acc : SlimAccount S C) : Account S C where
  nonce := acc.nonce
  balance := acc.balance
  root := acc.root.getD emptyRoot
  codeHash := acc.codeHash.getD emptyCodeHash

@[simp] theorem Account.full_slim [DecidableEq S] [DecidableEq C] (data : Account S C) :
    data.slim.full = data := by
  obtain ⟨nonce, balance, root, codeHash⟩ := data
  simp only [slim, SlimAccount.full, Account.mk.injEq, true_and]
  constructor
  · split_ifs with h
    · exact h.symm
    · rfl
  · split_ifs with h
    · exact h.symm
    · rfl

/-- What the databases hold: storage tries by their root, contract codes by their hash. -/
structure Database (S C : Type) where
  storage : S → Hash → Hash
  code : C → Option Bytes

/-- A flat snapshot; `none` where reading from it fails. -/
structure Snap (S C : Type) where
  account : Address → Option (Option (SlimAccount S C))
  storage : Address → Hash → Option Hash

/-! ## §2 — State objects -/

abbrev Storage := GoMap Hash Hash

/-- `stateObject`, stored under its address. -/
structure StateObject (S C : Type) where
  data : Account S C
  /-- the storage trie, `none` until the first access -/
  trie : Option (Hash → Hash) := none
  /-- the contract code, `none` until it is loaded -/
  code : Option Bytes := none
  originStorage : Storage := GoMap.empty
  pendingStorage : Storage := GoMap.empty
  dirtyStorage : Storage := GoMap.empty
  fakeStorage : Option Storage := none
  dirtyCode : Bool := false
  suicided : Bool := false
  deleted : Bool := false

def newObject (data : Account S C) : StateObject S C := { data := data }

namespace StateObject

variable (o : StateObject S C)

def empty [DecidableEq C] : Bool :=
  o.data.nonce == 0 && o.data.balance == 0 && decide (o.data.codeHash = emptyCodeHash)

/-- The storage trie the object has or will open. -/
def content (db : Database S C) : Hash → Hash := o.trie.getD (db.storage o.data.root)

def getTrie (db : Database S C) : StateObject S C := { o with trie := some (o.content db) }

/-- `Code`, with the object after it -/
def Code [DecidableEq C] (db : Database S C) : Option Bytes × StateObject S C :=
  match o.code with
  | some code => (some code, o)
  | none =>
    if o.data.codeHash = emptyCodeHash then (none, o)
    else (db.code o.data.codeHash, { o with code := db.code o.data.codeHash })

def setBalance (amount : Int) : StateObject S C :=
  { o with data := { o.data with balance := amount } }

def setNonce (nonce : UInt64) : StateObject S C :=
  { o with data := { o.data with nonce := nonce } }

def setCode (codeHash : C) (code : Option Bytes) : StateObject S C :=
  { o with code := code, data := { o.data with codeHash := codeHash }, dirtyCode := true }

def setState (key value : Hash) : StateObject S C :=
  { o with dirtyStorage := o.dirtyStorage.insert key value }

def finalise : StateObject S C :=
  { o with
    pendingStorage := o.dirtyStorage.union o.pendingStorage
    dirtyStorage := GoMap.empty }

/-- The pending slots that are not noops. -/
def changes : Storage :=
  o.pendingStorage.filter fun key value => decide (value ≠ o.originStorage.get key)

/-- `updateTrie`: the object after it, and the slots to be put into the snapshot's storage map. -/
def updateTrie (db : Database S C) : StateObject S C × Storage :=
  let o := o.finalise
  if o.pendingStorage.isEmpty then (o, GoMap.empty)
  else
    ({ o with
        trie := some fun key => (o.changes.find? key).getD (o.content db key)
        originStorage := o.changes.union o.originStorage
        pendingStorage := GoMap.empty },
      o.changes)

/-- `updateRoot`, with the slots for the snapshot -/
def updateRoot (db : Database S C) : StateObject S C × Storage :=
  let (o, slots) := o.updateTrie db
  match o.trie with
  | none => (o, slots)
  | some tr => ({ o with data := { o.data with root := storageRoot tr } }, slots)

/-- `deepCopy`: the fake storage is not taken along. -/
def deepCopy : StateObject S C := { o with fakeStorage := none }

end StateObject

/-! ## §3 — The journal and the state database -/

/-- `types.Log`: the fields the state database writes, and the event itself. -/
structure Log where
  address : Address
  topics : List Hash
  data : Bytes
  txHash : Hash := Hash.zero
  blockHash : Hash := Hash.zero
  txIndex : Nat := 0
  index : Nat := 0
  deriving DecidableEq

inductive JournalEntry (S C : Type) where
  | createObjectChange (account : Address)
  | resetObjectChange (account : Address) (prev : StateObject S C) (prevdestruct : Bool)
  | suicideChange (account : Address) (prev : Bool) (prevbalance : Int)
  | balanceChange (account : Address) (prev : Int)
  | nonceChange (account : Address) (prev : UInt64)
  | storageChange (account : Address) (key prevalue : Hash)
  | codeChange (account : Address) (prevcode : Option Bytes) (prevhash : C)
  | refundChange (prev : UInt64)
  | addLogChange (txhash : Hash)
  | addPreimageChange (hash : Hash)
  | touchChange (account : Address)

/-- `dirtied`: a reset object is not reported. -/
def JournalEntry.dirtied : JournalEntry S C → Option Address
  | createObjectChange a => some a
  | resetObjectChange _ _ _ => none
  | suicideChange a _ _ => some a
  | balanceChange a _ => some a
  | nonceChange a _ => some a
  | storageChange a _ _ => some a
  | codeChange a _ _ => some a
  | refundChange _ => none
  | addLogChange _ => none
  | addPreimageChange _ => none
  | touchChange a => some a

structure Revision where
  id : Nat
  journalIndex : Nat
  deriving DecidableEq

/-- `StateDB`. The journal is here with its newest entry first; `dirties` holds an address once for
every change counted for it. -/
structure StateDB (S C : Type) where
  db : Database S C
  trie : Address → Option (Account S C)
  snap : Option (Snap S C) := none
  snapDestructs : Address → Bool := fun _ => false
  snapAccounts : Address → Option (SlimAccount S C) := fun _ => none
  snapStorage : Address → Storage := fun _ => GoMap.empty
  stateObjects : Address → Option (StateObject S C) := fun _ => none
  stateObjectsPending : List Address := []
  stateObjectsDirty : List Address := []
  refund : UInt64 := 0
  thash : Hash := Hash.zero
  bhash : Hash := Hash.zero
  txIndex : Nat := 0
  logs : Hash → List Log := fun _ => []
  logSize : Nat := 0
  preimages : Hash → Option Bytes := fun _ => none
  entries : List (JournalEntry S C) := []
  dirties : List Address := []
  validRevisions : List Revision := []
  nextRevisionId : Nat := 0

/-- The precompile whose touch outlives a revert. -/
def ripemd : Address := Address.ofBytes [3]

namespace StateDB

variable (s : StateDB S C)

def New (db : Database S C) (trie : Address → Option (Account S C)) (snap : Option (Snap S C)) :
    StateDB S C := { db := db, trie := trie, snap := snap }

def append (e : JournalEntry S C) : StateDB S C :=
  { s with entries := e :: s.entries, dirties := e.dirtied.toList ++ s.dirties }

def setStateObject (a : Address) (o : StateObject S C) : StateDB S C :=
  { s with stateObjects := update s.stateObjects a (some o) }

/-- The account data behind the live objects: from the snapshot, or where there is none or reading
from it fails, from the trie. -/
def readAccount (a : Address) : Option (Account S C) :=
  match s.snap with
  | some snap =>
    match snap.account a with
    | some acc => acc.map SlimAccount.full
    | none => s.trie a
  | none => s.trie a

def getDeletedStateObject (a : Address) : Option (StateObject S C) × StateDB S C :=
  match s.stateObjects a with
  | some obj => (some obj, s)
  | none =>
    match s.readAccount a with
    | none => (none, s)
    | some data => (some (newObject data), s.setStateObject a (newObject data))

def getStateObject (a : Address) : Option (StateObject S C) × StateDB S C :=
  let (obj, s) := s.getDeletedStateObject a
  (obj.filter fun o => !o.deleted, s)

/-- `createObject`: the new object, the one it replaces unless that was deleted, and the state -/
def createObject (a : Address) : StateObject S C × Option (StateObject S C) × StateDB S C :=
  match s.getDeletedStateObject a with
  | (none, s) =>
    let newobj := (newObject Account.fresh).setNonce 0
    (newobj, none, (s.append (.createObjectChange a)).setStateObject a newobj)
  | (some prev, s) =>
    let newobj := (newObject Account.fresh).setNonce 0
    let prevdestruct := s.snap.isSome && s.snapDestructs a
    let s :=
      if s.snap.isSome then { s with snapDestructs := update s.snapDestructs a true }
      else s
    (newobj, if prev.deleted then none else some prev,
      (s.append (.resetObjectChange a prev prevdestruct)).setStateObject a newobj)

def GetOrNewStateObject (a : Address) : StateObject S C × StateDB S C :=
  match s.getStateObject a with
  | (some obj, s) => (obj, s)
  | (none, s) =>
    let (obj, _, s) := s.createObject a
    (obj, s)

end StateDB

/-! ## §4 — Reading storage -/

namespace StateObject

variable (o : StateObject S C)

/-- The end of `GetCommittedState` for a slot read from the storage trie. -/
def readTrie (db : Database S C) (key : Hash) : Hash × StateObject S C :=
  let value := o.content db key
  (value, { o.getTrie db with originStorage := o.originStorage.insert key value })

/-- `GetCommittedState`, with the object after it -/
def GetCommittedState (s : StateDB S C) (a : Address) (key : Hash) : Hash × StateObject S C :=
  match o.fakeStorage with
  | some fake => (fake.get key, o)
  | none =>
    match o.pendingStorage.find? key with
    | some value => (value, o)
    | none =>
      match o.originStorage.find? key with
      | some value => (value, o)
      | none =>
        match s.snap with
        | none => o.readTrie s.db key
        | some snap =>
          if s.snapDestructs a then (Hash.zero, o)
          else
            match snap.storage a key with
            | some value => (value, { o with originStorage := o.originStorage.insert key value })
            | none => o.readTrie s.db key

/-- `GetState`, with the object after it -/
def GetState (s : StateDB S C) (a : Address) (key : Hash) : Hash × StateObject S C :=
  match o.fakeStorage with
  | some fake => (fake.get key, o)
  | none =>
    match o.dirtyStorage.find? key with
    | some value => (value, o)
    | none => o.GetCommittedState s a key

end StateObject

/-! ## §5 — Setters -/

namespace StateDB

variable [DecidableEq C] (s : StateDB S C)

def touch (a : Address) : StateDB S C :=
  let s := s.append (.touchChange a)
  if a = ripemd then { s with dirties := a :: s.dirties } else s

/-- `stateObject.SetBalance` -/
def setBalance (a : Address) (o : StateObject S C) (amount : Int) : StateDB S C :=
  (s.append (.balanceChange a o.data.balance)).setStateObject a (o.setBalance amount)

def AddBalance (a : Address) (amount : Int) : StateDB S C :=
  let (o, s) := s.GetOrNewStateObject a
  if amount = 0 then
    if o.empty then s.touch a else s
  else s.setBalance a o (o.data.balance + amount)

def SubBalance (a : Address) (amount : Int) : StateDB S C :=
  let (o, s) := s.GetOrNewStateObject a
  if amount = 0 then s else s.setBalance a o (o.data.balance - amount)

def SetBalance (a : Address) (amount : Int) : StateDB S C :=
  let (o, s) := s.GetOrNewStateObject a
  s.setBalance a o amount

def SetNonce (a : Address) (nonce : UInt64) : StateDB S C :=
  let (o, s) := s.GetOrNewStateObject a
  (s.append (.nonceChange a o.data.nonce)).setStateObject a (o.setNonce nonce)

def SetCode (a : Address) (code : Bytes) : StateDB S C :=
  let (o, s) := s.GetOrNewStateObject a
  let (prevcode, o) := o.Code s.db
  (s.append (.codeChange a prevcode o.data.codeHash)).setStateObject a
    (o.setCode (keccak256Hash code) (some code))

def SetState (a : Address) (key value : Hash) : StateDB S C :=
  let (o, s) := s.GetOrNewStateObject a
  match o.fakeStorage with
  | some fake => s.setStateObject a { o with fakeStorage := some (fake.insert key value) }
  | none =>
    let (prev, o) := o.GetState s a key
    let s := s.setStateObject a o
    if prev = value then s
    else (s.append (.storageChange a key prev)).setStateObject a (o.setState key value)

/-- `SetStorage`: the storage of the account is replaced for debugging, past the journal. -/
def SetStorage (a : Address) (storage : Storage) : StateDB S C :=
  let (o, s) := s.GetOrNewStateObject a
  s.setStateObject a { o with fakeStorage := some (storage.union (o.fakeStorage.getD GoMap.empty)) }

def CreateAccount (a : Address) : StateDB S C :=
  match s.createObject a with
  | (newObj, some prev, s) => s.setStateObject a (newObj.setBalance prev.data.balance)
  | (_, none, s) => s

def Suicide (a : Address) : StateDB S C :=
  match s.getStateObject a with
  | (none, s) => s
  | (some o, s) =>
    (s.append (.suicideChange a o.suicided o.data.balance)).setStateObject a
      { o.setBalance 0 with suicided := true }

def AddRefund (gas : UInt64) : StateDB S C :=
  { s.append (.refundChange s.refund) with refund := s.refund + gas }

/-- `SubRefund`; `none` is its panic -/
def SubRefund (gas : UInt64) : Option (StateDB S C) :=
  let t := s.append (.refundChange s.refund)
  if s.refund < gas then none else some { t with refund := s.refund - gas }

def AddLog (log : Log) : StateDB S C :=
  let log := { log with
    txHash := s.thash, blockHash := s.bhash, txIndex := s.txIndex, index := s.logSize }
  { s.append (.addLogChange s.thash) with
    logs := update s.logs s.thash (s.logs s.thash ++ [log])
    logSize := s.logSize + 1 }

def AddPreimage (hash : Hash) (preimage : Bytes) : StateDB S C :=
  match s.preimages hash with
  | some _ => s
  | none =>
    { s.append (.addPreimageChange hash) with
      preimages := update s.preimages hash (some preimage) }

def Prepare (thash bhash : Hash) (txIndex : Nat) : StateDB S C :=
  { s with thash := thash, bhash := bhash, txIndex := txIndex }

end StateDB

/-! ## §6 — Undoing -/

namespace StateDB

/-- `s.getStateObject(a)` changed in place; `none` is the nil dereference. -/
def onStateObject (s : StateDB S C) (a : Address) (f : StateObject S C → StateObject S C) :
    Option (StateDB S C) :=
  match s.getStateObject a with
  | (none, _) => none
  | (some o, s) => some (s.setStateObject a (f o))

end StateDB

def JournalEntry.revert : JournalEntry S C → StateDB S C → Option (StateDB S C)
  | createObjectChange a, s => some { s with
      stateObjects := update s.stateObjects a none
      stateObjectsDirty := s.stateObjectsDirty.filter (· ≠ a) }
  | resetObjectChange a prev prevdestruct, s =>
    let s := s.setStateObject a prev
    some (if !prevdestruct && s.snap.isSome then
      { s with snapDestructs := update s.snapDestructs a false } else s)
  | suicideChange a prev prevbalance, s =>
    match s.getStateObject a with
    | (none, s) => some s
    | (some o, s) => some (s.setStateObject a { o.setBalance prevbalance with suicided := prev })
  | balanceChange a prev, s => s.onStateObject a fun o => o.setBalance prev
  | nonceChange a prev, s => s.onStateObject a fun o => o.setNonce prev
  | storageChange a key prevalue, s => s.onStateObject a fun o => o.setState key prevalue
  | codeChange a prevcode prevhash, s => s.onStateObject a fun o => o.setCode prevhash prevcode
  | refundChange prev, s => some { s with refund := prev }
  | addLogChange txhash, s =>
    if s.logs txhash = [] then none
    else some { s with
      logs := update s.logs txhash (s.logs txhash).dropLast
      logSize := s.logSize - 1 }
  | addPreimageChange hash, s => some { s with
      preimages := update s.preimages hash none }
  | touchChange _, s => some s

/-- One round of the loop of `journal.revert`: undo the change, drop the dirty tracking. -/
def JournalEntry.undo (e : JournalEntry S C) (s : StateDB S C) : Option (StateDB S C) :=
  (e.revert s).map fun s =>
    match e.dirtied with
    | some a => { s with dirties := s.dirties.erase a }
    | none => s

namespace StateDB

/-- `Snapshot`: the identifier and the state -/
def Snapshot (s : StateDB S C) : Nat × StateDB S C :=
  (s.nextRevisionId, { s with
    nextRevisionId := s.nextRevisionId + 1
    validRevisions := s.validRevisions ++ [⟨s.nextRevisionId, s.entries.length⟩] })

def revert (s : StateDB S C) (snapshot : Nat) : Option (StateDB S C) :=
  let n := s.entries.length - snapshot
  (UndoLog.unwind JournalEntry.undo (s.entries.take n) s).map fun t =>
    { t with entries := s.entries.drop n }

/-- `RevertToSnapshot`; `none` is a panic -/
def RevertToSnapshot (s : StateDB S C) (revid : Nat) : Option (StateDB S C) :=
  let idx := s.validRevisions.findIdx fun r => decide (revid ≤ r.id)
  match s.validRevisions[idx]? with
  | none => none
  | some r =>
    if r.id ≠ revid then none
    else (s.revert r.journalIndex).map fun t =>
      { t with validRevisions := s.validRevisions.take idx }

/-! ## §7 — Ending a transaction, writing the tries, ending the block -/

variable [DecidableEq C] (s : StateDB S C)

def clearJournalAndRefund : StateDB S C :=
  if s.entries = [] then { s with validRevisions := [] }
  else { s with entries := [], dirties := [], refund := 0, validRevisions := [] }

/-- The test of `Finalise` for an object that goes. -/
def dead (deleteEmptyObjects : Bool) (o : StateObject S C) : Bool :=
  o.suicided || (deleteEmptyObjects && o.empty)

/-- `Finalise`. Every round of its loop is about one address, the one it is at. -/
def Finalise (deleteEmptyObjects : Bool) : StateDB S C :=
  let finished := s.dirties.filter fun a => (s.stateObjects a).isSome
  let destructed := fun a => s.snap.isSome && decide (a ∈ s.dirties) &&
    (s.stateObjects a).any (dead deleteEmptyObjects)
  clearJournalAndRefund { s with
    stateObjects := fun a =>
      if a ∈ s.dirties then
        (s.stateObjects a).map fun o =>
          if dead deleteEmptyObjects o then { o with deleted := true } else o.finalise
      else s.stateObjects a
    snapDestructs := fun a => s.snapDestructs a || destructed a
    snapAccounts := fun a => if destructed a then none else s.snapAccounts a
    snapStorage := fun a => if destructed a then GoMap.empty else s.snapStorage a
    stateObjectsPending := finished ++ s.stateObjectsPending
    stateObjectsDirty := finished ++ s.stateObjectsDirty }

/-- An object that `IntermediateRoot` can write: the encoder takes no negative balance. -/
def writable (o : StateObject S C) : Bool := o.deleted || decide (0 ≤ o.data.balance)

/-- The loop of `IntermediateRoot` over the pending objects, address by address. -/
def flush [DecidableEq S] : StateDB S C :=
  let pending := fun a => decide (a ∈ s.stateObjectsPending)
  let flushed := fun a => (s.stateObjects a).map fun o =>
    if o.deleted then (o, GoMap.empty) else o.updateRoot s.db
  { s with
    stateObjects := fun a => if pending a then (flushed a).map Prod.fst else s.stateObjects a
    trie := fun a =>
      if pending a then (flushed a).bind fun p => if p.1.deleted then none else some p.1.data
      else s.trie a
    snapAccounts := fun a =>
      if s.snap.isSome && pending a then
        ((flushed a).bind fun p => if p.1.deleted then none else some p.1.data.slim).or
          (s.snapAccounts a)
      else s.snapAccounts a
    snapStorage := fun a =>
      if s.snap.isSome && pending a then
        ((flushed a).elim GoMap.empty Prod.snd).union (s.snapStorage a)
      else s.snapStorage a
    stateObjectsPending := [] }

/-- `IntermediateRoot`: the root it returns is that of the account trie after it; `none` is a
panic -/
def IntermediateRoot [DecidableEq S] (deleteEmptyObjects : Bool) : Option (StateDB S C) :=
  let s := s.Finalise deleteEmptyObjects
  if ∀ a ∈ s.stateObjectsPending, (s.stateObjects a).any writable then some s.flush else none

/-- `CommitTrie`, with the slots for the snapshot -/
def commitObject (o : StateObject S C) : StateObject S C × Storage :=
  if o.deleted then (o, GoMap.empty)
  else { o with dirtyCode := o.dirtyCode && o.code.isNone }.updateRoot s.db

/-- The code that `Commit` writes for an object. -/
def committedCode (o : StateObject S C) : Option (C × Bytes) :=
  if o.deleted || !o.dirtyCode then none else o.code.map fun code => (o.data.codeHash, code)

/-- The storage trie that `Commit` writes for an object. -/
def committedTrie (o : StateObject S C) : Option (S × (Hash → Hash)) :=
  if (s.commitObject o).1.deleted then none
  else (s.commitObject o).1.trie.map fun tr => ((s.commitObject o).1.data.root, tr)

/-- `Commit`, up to the snapshot tree: the objects are written, the rest of the block's state is
kept for the diff. -/
def commitObjects [DecidableEq S] : StateDB S C :=
  let dirty := fun a => decide (a ∈ s.stateObjectsDirty)
  let objects := s.stateObjectsDirty.filterMap s.stateObjects
  { s with
    db := {
      storage := fun root =>
        ((objects.filterMap s.committedTrie).lookup root).getD (s.db.storage root)
      code := fun hash => ((objects.filterMap committedCode).lookup hash).or (s.db.code hash) }
    stateObjects := fun a =>
      if dirty a then (s.stateObjects a).map fun o => (s.commitObject o).1 else s.stateObjects a
    snapStorage := fun a =>
      if s.snap.isSome && dirty a then
        ((s.stateObjects a).elim GoMap.empty fun o => (s.commitObject o).2).union
          (s.snapStorage a)
      else s.snapStorage a
    stateObjectsDirty := [] }

/-- The diff that `Commit` hands to `snaps.Update`. -/
structure Diff (S C : Type) where
  destructs : Address → Bool
  accounts : Address → Option (SlimAccount S C)
  storage : Address → Storage

/-- The diff a state database has gathered. -/
def diff : Diff S C := ⟨s.snapDestructs, s.snapAccounts, s.snapStorage⟩

/-- `Commit`: the state after it and the diff for the snapshot tree; `none` is a panic. The root it
returns is that of the account trie after it. -/
def Commit [DecidableEq S] (deleteEmptyObjects : Bool) : Option (StateDB S C × Diff S C) :=
  (s.IntermediateRoot deleteEmptyObjects).bind fun s =>
    if ∀ a ∈ s.stateObjectsDirty, (s.stateObjects a).isSome then
      let s := s.commitObjects
      some ({ s with
        snap := none
        snapDestructs := fun _ => false
        snapAccounts := fun _ => none
        snapStorage := fun _ => GoMap.empty }, s.diff)
    else none

/-- `Copy`; `none` is the nil dereference of `deepCopy` -/
def Copy : Option (StateDB S C) :=
  let live := s.dirties.filter fun a => (s.stateObjects a).isSome
  let pending := live ++ s.stateObjectsPending
  let dirty := live ++ s.stateObjectsDirty
  if ∀ a ∈ pending ++ dirty, (s.stateObjects a).isSome then
    some {
      db := s.db
      trie := s.trie
      stateObjects := fun a =>
        if a ∈ pending ++ dirty then (s.stateObjects a).map StateObject.deepCopy else none
      stateObjectsPending := pending
      stateObjectsDirty := dirty
      refund := s.refund
      logs := s.logs
      logSize := s.logSize
      preimages := s.preimages }
  else none

end StateDB

end MxtChain.State
