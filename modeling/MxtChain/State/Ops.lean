/-
# MxtChain.State.Ops — the getters, and the operations a transaction is made of.

The getters are one family: a query is answered from the live object of its address, which is loaded
on the way. A transaction is a list of operations; an operation that panics has no next state.
-/
import MxtChain.State.StateDB

namespace MxtChain.State

open Lib

variable {S C : Type} [StorageHash S] [CodeHash C] [DecidableEq C]

/-! ## §1 — Queries -/

/-- What can be asked of a state database. -/
inductive Query where
  | exist (a : Address)
  | empty (a : Address)
  | balance (a : Address)
  | nonce (a : Address)
  | code (a : Address)
  | codeSize (a : Address)
  | codeHash (a : Address)
  | state (a : Address) (key : Hash)
  | committedState (a : Address) (key : Hash)
  | hasSuicided (a : Address)
  | refund
  | logs (hash : Hash)
  | logSize
  | preimage (hash : Hash)

inductive Answer (C : Type) where
  | flag (b : Bool)
  | amount (n : Int)
  | word (n : UInt64)
  | code (b : Option Bytes)
  | size (n : Nat)
  | codeHash (h : Option C)
  | slot (h : Hash)
  | logs (l : List Log)

namespace StateDB

variable (s : StateDB S C)

def Exist (a : Address) : Bool × StateDB S C :=
  let (o, s) := s.getStateObject a
  (o.isSome, s)

def Empty (a : Address) : Bool × StateDB S C :=
  let (o, s) := s.getStateObject a
  (o.all fun o => o.empty, s)

def GetBalance (a : Address) : Int × StateDB S C :=
  let (o, s) := s.getStateObject a
  (o.elim 0 fun o => o.data.balance, s)

def GetNonce (a : Address) : UInt64 × StateDB S C :=
  let (o, s) := s.getStateObject a
  (o.elim 0 fun o => o.data.nonce, s)

def GetCode (a : Address) : Option Bytes × StateDB S C :=
  match s.getStateObject a with
  | (none, s) => (none, s)
  | (some o, s) =>
    let (code, o) := o.Code s.db
    (code, s.setStateObject a o)

/-- `GetCodeSize`: the database knows the size of a code without loading it into the object. -/
def GetCodeSize (a : Address) : Nat × StateDB S C :=
  let (o, s) := s.getStateObject a
  (o.elim 0 fun o => ((o.Code s.db).1.getD []).length, s)

def GetCodeHash (a : Address) : Option C × StateDB S C :=
  let (o, s) := s.getStateObject a
  (o.map fun o => o.data.codeHash, s)

def GetState (a : Address) (key : Hash) : Hash × StateDB S C :=
  match s.getStateObject a with
  | (none, s) => (Hash.zero, s)
  | (some o, s) =>
    let (value, o) := o.GetState s a key
    (value, s.setStateObject a o)

def GetCommittedState (a : Address) (key : Hash) : Hash × StateDB S C :=
  match s.getStateObject a with
  | (none, s) => (Hash.zero, s)
  | (some o, s) =>
    let (value, o) := o.GetCommittedState s a key
    (value, s.setStateObject a o)

def HasSuicided (a : Address) : Bool × StateDB S C :=
  let (o, s) := s.getStateObject a
  (o.any fun o => o.suicided, s)

/-- The answer to a query, and the state after it. -/
def ask : Query → Answer C × StateDB S C
  | .exist a => (s.Exist a).map .flag id
  | .empty a => (s.Empty a).map .flag id
  | .balance a => (s.GetBalance a).map .amount id
  | .nonce a => (s.GetNonce a).map .word id
  | .code a => (s.GetCode a).map .code id
  | .codeSize a => (s.GetCodeSize a).map .size id
  | .codeHash a => (s.GetCodeHash a).map .codeHash id
  | .state a key => (s.GetState a key).map .slot id
  | .committedState a key => (s.GetCommittedState a key).map .slot id
  | .hasSuicided a => (s.HasSuicided a).map .flag id
  | .refund => (.word s.refund, s)
  | .logs hash => (.logs (s.logs hash), s)
  | .logSize => (.size s.logSize, s)
  | .preimage hash => (.code (s.preimages hash), s)

end StateDB

/-! ## §2 — Operations -/

/-- The operations of a transaction. -/
inductive Op where
  | addBalance (a : Address) (amount : Int)
  | subBalance (a : Address) (amount : Int)
  | setBalance (a : Address) (amount : Int)
  | setNonce (a : Address) (nonce : UInt64)
  | setCode (a : Address) (code : Bytes)
  | setState (a : Address) (key value : Hash)
  | createAccount (a : Address)
  | suicide (a : Address)
  | addRefund (gas : UInt64)
  | subRefund (gas : UInt64)
  | addLog (log : Log)
  | addPreimage (hash : Hash) (preimage : Bytes)
  | read (q : Query)
  | snapshot
  | revertToSnapshot (revid : Nat)

/-- One operation; `none` is a panic. -/
def step (s : StateDB S C) : Op → Option (StateDB S C)
  | .addBalance a amount => some (s.AddBalance a amount)
  | .subBalance a amount => some (s.SubBalance a amount)
  | .setBalance a amount => some (s.SetBalance a amount)
  | .setNonce a nonce => some (s.SetNonce a nonce)
  | .setCode a code => some (s.SetCode a code)
  | .setState a key value => some (s.SetState a key value)
  | .createAccount a => some (s.CreateAccount a)
  | .suicide a => some (s.Suicide a)
  | .addRefund gas => some (s.AddRefund gas)
  | .subRefund gas => s.SubRefund gas
  | .addLog log => some (s.AddLog log)
  | .addPreimage hash preimage => some (s.AddPreimage hash preimage)
  | .read q => some (s.ask q).2
  | .snapshot => some s.Snapshot.2
  | .revertToSnapshot revid => s.RevertToSnapshot revid

def run : StateDB S C → List Op → Option (StateDB S C)
  | s, [] => some s
  | s, op :: ops => (step s op).bind fun s => run s ops

end MxtChain.State
