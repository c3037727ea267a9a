/-
# MxtChain.State.World — the accounts and storage maps that the operations describe.

What a state database is for, without objects, caches, tries or a journal: a map from addresses to
accounts, each with its storage as the transaction sees it and as the last transaction left it. A
snapshot keeps the whole world and a revert puts it back; at the end of a transaction the accounts
that it touched are settled or removed.
-/
import MxtChain.State.Ops

namespace MxtChain.State

variable {C : Type} [CodeHash C] [DecidableEq C]

/-- An account as the operations see it. -/
structure LogicalAccount (C : Type) where
  nonce : UInt64
  balance : Int
  codeHash : C
  code : Option Bytes
  suicided : Bool
  /-- the slots now -/
  state : Hash → Hash
  /-- the slots at the end of the last transaction -/
  committed : Hash → Hash

namespace LogicalAccount

/-- An account that has just been created. -/
def fresh : LogicalAccount C where
  nonce := 0
  balance := 0
  codeHash := emptyCodeHash
  code := none
  suicided := false
  state := fun _ => Hash.zero
  committed := fun _ => Hash.zero

/-- Nonce, balance and code are those of an account that does not exist. -/
def empty (acc : LogicalAccount C) : Bool :=
  acc.nonce == 0 && acc.balance == 0 && decide (acc.codeHash = emptyCodeHash)

end LogicalAccount

@[ext]
structure World (C : Type) where
  accounts : Address → Option (LogicalAccount C)
  /-- the addresses the transaction has created an account at, in the place of another or not -/
  created : Address → Prop
  /-- the addresses of which the transaction has changed the account, or touched an empty one -/
  written : Address → Prop
  refund : UInt64
  thash : Hash
  bhash : Hash
  txIndex : Nat
  logs : Hash → List Log
  logSize : Nat
  preimages : Hash → Option Bytes

namespace World

variable (w : World C)

def answer : Query → Answer C
  | .exist a => .flag (w.accounts a).isSome
  | .empty a => .flag ((w.accounts a).all fun acc => acc.empty)
  | .balance a => .amount ((w.accounts a).elim 0 fun acc => acc.balance)
  | .nonce a => .word ((w.accounts a).elim 0 fun acc => acc.nonce)
  | .code a => .code ((w.accounts a).bind fun acc => acc.code)
  | .codeSize a => .size ((w.accounts a).elim 0 fun acc => (acc.code.getD []).length)
  | .codeHash a => .codeHash ((w.accounts a).map fun acc => acc.codeHash)
  | .state a key => .slot ((w.accounts a).elim Hash.zero fun acc => acc.state key)
  | .committedState a key => .slot ((w.accounts a).elim Hash.zero fun acc => acc.committed key)
  | .hasSuicided a => .flag ((w.accounts a).any fun acc => acc.suicided)
  | .refund => .word w.refund
  | .logs hash => .logs (w.logs hash)
  | .logSize => .size w.logSize
  | .preimage hash => .code (w.preimages hash)

/-! ## §1 — The operations -/

/-- The addresses of which the end of the transaction takes notice. -/
def touched (a : Address) : Prop := w.created a ∨ w.written a

/-- The address counts as written. -/
def touch (a : Address) : World C := { w with written := fun b => b = a ∨ w.written b }

def put (a : Address) (acc : LogicalAccount C) : World C :=
  { w.touch a with accounts := Function.update w.accounts a (some acc) }

def create (a : Address) (acc : LogicalAccount C) : World C :=
  { w with
    accounts := Function.update w.accounts a (some acc)
    created := fun b => b = a ∨ w.created b }

/-- The account of an address, created if there is none. -/
def getOrNew (a : Address) : LogicalAccount C × World C :=
  match w.accounts a with
  | some acc => (acc, w)
  | none => (.fresh, w.create a .fresh)

/-- One operation other than taking a snapshot or reverting to one; `none` is a panic. -/
def apply : Op → Option (World C)
  | .addBalance a amount =>
    let (acc, w) := w.getOrNew a
    some (if amount = 0 then if acc.empty then w.touch a else w
      else w.put a { acc with balance := acc.balance + amount })
  | .subBalance a amount =>
    let (acc, w) := w.getOrNew a
    some (if amount = 0 then w else w.put a { acc with balance := acc.balance - amount })
  | .setBalance a amount =>
    let (acc, w) := w.getOrNew a
    some (w.put a { acc with balance := amount })
  | .setNonce a nonce =>
    let (acc, w) := w.getOrNew a
    some (w.put a { acc with nonce := nonce })
  | .setCode a code =>
    let (acc, w) := w.getOrNew a
    some (w.put a { acc with codeHash := keccak256Hash code, code := some code })
  | .setState a key value =>
    let (acc, w) := w.getOrNew a
    some (if acc.state key = value then w
      else w.put a { acc with state := Function.update acc.state key value })
  | .createAccount a =>
    some (w.create a { LogicalAccount.fresh with
      balance := (w.accounts a).elim 0 fun acc => acc.balance })
  | .suicide a =>
    some (match w.accounts a with
      | none => w
      | some acc => w.put a { acc with suicided := true, balance := 0 })
  | .addRefund gas => some { w with refund := w.refund + gas }
  | .subRefund gas => if w.refund < gas then none else some { w with refund := w.refund - gas }
  | .addLog log =>
    some { w with
      logs := Function.update w.logs w.thash (w.logs w.thash ++ [{ log with
            txHash := w.thash, blockHash := w.bhash, txIndex := w.txIndex, index := w.logSize }])
      logSize := w.logSize + 1 }
  | .addPreimage hash preimage =>
    some (match w.preimages hash with
      | some _ => w
      | none => { w with preimages := Function.update w.preimages hash (some preimage) })
  | .read _ => some w
  | .snapshot => some w
  | .revertToSnapshot _ => some w

/-- The world with the worlds kept by the snapshots that can still be reverted to, and the
identifier of the next one. -/
structure Session (C : Type) where
  world : World C
  saved : List (Nat × World C) := []
  next : Nat := 0

def Session.step (l : Session C) : Op → Option (Session C)
  | .snapshot => some { l with saved := l.saved ++ [(l.next, l.world)], next := l.next + 1 }
  | .revertToSnapshot revid =>
    ((l.saved.find? fun p => decide (p.1 = revid))).map fun p =>
      { l with world := p.2, saved := l.saved.takeWhile fun p => decide (p.1 < revid) }
  | op => (l.world.apply op).map fun w => { l with world := w }

def Session.run : Session C → List Op → Option (Session C)
  | l, [] => some l
  | l, op :: ops => (l.step op).bind fun l => run l ops

/-! ## §2 — The end of a transaction -/

/-- A touched account that goes at the end of the transaction. -/
def dead (deleteEmptyObjects : Bool) (acc : LogicalAccount C) : Bool :=
  acc.suicided || (deleteEmptyObjects && acc.empty)

open Classical in
/-- The end of a transaction: a suicided or, where asked for, empty touched account is removed, the
slots are committed. -/
noncomputable def finalise (deleteEmptyObjects : Bool) : World C :=
  { w with
    accounts := fun a =>
      if w.touched a then
        (w.accounts a).bind fun acc =>
          if dead deleteEmptyObjects acc then none else some { acc with committed := acc.state }
      else w.accounts a
    created := fun _ => False
    written := fun _ => False
    refund := 0 }

/-- The account trie of a world at the end of a transaction: each account with the root of its
storage. -/
def trie {S : Type} [StorageHash S] : Address → Option (Account S C) := fun a =>
  (w.accounts a).map fun acc => ⟨acc.nonce, acc.balance, storageRoot acc.committed, acc.codeHash⟩

end World

end MxtChain.State
