/-
# MxtChain.Clique.Snapshot — the voting snapshots of proof of authority.

`consensus/clique/snapshot.go`: a snapshot holds the signers, who signed lately, the votes that are
open and their tally; `apply` runs a list of headers over it. Each stage of the loop of `apply` is
a function of its own here, in the order of the code.

Block numbers are natural numbers: `Number.Uint64` is exact on every chain of less than 2^64 blocks.
The recovery of the signer from the seal is a parameter, `ecrecover : Header → Except CliqueError
Address`; the cache of signatures is keyed by the hash of the whole header and only remembers its
values.
-/
import MxtChain.Consensus.Header
import MxtChain.Lib.GoMap
import MxtChain.Lib.Except

namespace MxtChain.Clique

open Consensus Lib

/-! ## §1 — Configuration and errors -/

/-- `params.CliqueConfig`, as `New` sets it: the epoch is never 0. -/
structure CliqueConfig where
  Period : UInt64
  Epoch : Nat
  epoch_pos : 0 < Epoch

def epochLength : Nat := 30000

/-- The configuration that `New` keeps. -/
def CliqueConfig.New (Period : UInt64) (Epoch : Nat) : CliqueConfig where
  Period := Period
  Epoch := if Epoch = 0 then epochLength else Epoch
  epoch_pos := by
    split
    · decide
    · omega

inductive CliqueError where
  | errUnknownBlock
  | errInvalidCheckpointBeneficiary
  | errInvalidVote
  | errInvalidCheckpointVote
  | errMissingVanity
  | errMissingSignature
  | errExtraSigners
  | errInvalidCheckpointSigners
  | errMismatchingCheckpointSigners
  | errInvalidMixDigest
  | errInvalidUncleHash
  | errInvalidDifficulty
  | errWrongDifficulty
  | errInvalidTimestamp
  | errInvalidVotingChain
  | errUnauthorizedSigner
  | errRecentlySigned
  /-- `consensus.ErrFutureBlock` -/
  | ErrFutureBlock
  /-- `consensus.ErrUnknownAncestor` -/
  | ErrUnknownAncestor
  /-- an error of `misc.VerifyForkHashes` -/
  | fork (e : VerifyErr)
  /-- an error of `crypto.Ecrecover` -/
  | signature
  /-- the search for a snapshot went below the genesis block -/
  | diverged
  /-- a run-time panic -/
  | panic
  deriving DecidableEq

def nonceAuthVote : UInt64 := 0xffffffffffffffff

def nonceDropVote : UInt64 := 0

/-- The order of `signersAscending`: that of the bytes. -/
def ascending (a b : Address) : Prop := a.bytes ≤ b.bytes

instance decidableAscending : DecidableRel ascending := fun a b =>
  inferInstanceAs (Decidable (a.bytes ≤ b.bytes))

instance antisymm_ascending : Std.Antisymm ascending where
  antisymm := fun _ _ h h' => Address.ext_bytes (Std.le_antisymm h h')

instance isTrans_ascending : IsTrans Address ascending where
  trans := fun _ _ _ h h' => Std.le_trans h h'

instance total_ascending : Std.Total ascending where
  total := fun _ _ => Std.le_total

/-! ## §2 — Snapshots -/

structure Vote where
  Signer : Address
  Block : Nat
  Address : Address
  Authorize : Bool
  deriving DecidableEq

structure Tally where
  Authorize : Bool
  Votes : Nat
  deriving DecidableEq, Inhabited

/-- The fields of a snapshot that a header can change. -/
structure Voting where
  Signers : Finset Address
  Recents : GoMap Nat Address
  Votes : List Vote
  Tally : GoMap Address Tally

/-- `Snapshot`: with the block that it was made at. -/
structure Snapshot extends Voting where
  Number : Nat
  Hash : Hash

def newSnapshot (number : Nat) (hash : Hash) (signers : List Address) : Snapshot where
  Number := number
  Hash := hash
  Signers := signers.toFinset
  Recents := .empty
  Votes := []
  Tally := .empty

namespace Voting

/-- `len(snap.Signers)/2 + 1` -/
def limit (s : Voting) : Nat := s.Signers.card / 2 + 1

def validVote (s : Voting) (address : Address) (authorize : Bool) : Bool :=
  (decide (address ∈ s.Signers) && !authorize) || (!decide (address ∈ s.Signers) && authorize)

/-- `cast`, with what it returns. -/
def cast (s : Voting) (address : Address) (authorize : Bool) : Bool × Voting :=
  if s.validVote address authorize then
    match s.Tally.find? address with
    | some old =>
      (true, { s with Tally := s.Tally.insert address { old with Votes := old.Votes + 1 } })
    | none => (true, { s with Tally := s.Tally.insert address ⟨authorize, 1⟩ })
  else (false, s)

/-- `uncast`; what it returns is not used. -/
def uncast (s : Voting) (address : Address) (authorize : Bool) : Voting :=
  match s.Tally.find? address with
  | none => s
  | some tally =>
    if tally.Authorize ≠ authorize then s
    else if tally.Votes > 1 then
      { s with Tally := s.Tally.insert address { tally with Votes := tally.Votes - 1 } }
    else { s with Tally := s.Tally.erase address }

/-! ## §3 — One header -/

/-- Votes are removed on checkpoint blocks. -/
def reset (s : Voting) (config : CliqueConfig) (number : Nat) : Voting :=
  if number % config.Epoch = 0 then { s with Votes := [], Tally := .empty } else s

/-- The signer that leaves the window at a block may sign again. -/
def forget (s : Voting) (number : Nat) : Voting :=
  if number ≥ s.limit then { s with Recents := s.Recents.erase (number - s.limit) } else s

/-- A previous vote of the signer on the same account is discarded. -/
def discard (s : Voting) (signer coinbase : Address) : Voting :=
  match s.Votes.find? fun v => v.Signer = signer ∧ v.Address = coinbase with
  | none => s
  | some vote =>
    { s.uncast vote.Address vote.Authorize with
      Votes := s.Votes.eraseP fun v => v.Signer = signer ∧ v.Address = coinbase }

/-- The nonce of a header as a vote. -/
def voteOf (nonce : UInt64) : Except CliqueError Bool :=
  if nonce = nonceAuthVote then .ok true
  else if nonce = nonceDropVote then .ok false
  else .error .errInvalidVote

/-- The vote is counted and recorded if it makes sense. -/
def vote (s : Voting) (signer : Address) (number : Nat) (coinbase : Address)
    (authorize : Bool) : Voting :=
  match s.cast coinbase authorize with
  | (true, s) => { s with Votes := s.Votes ++ [⟨signer, number, coinbase, authorize⟩] }
  | (false, s) => s

/-- The votes that an account cast are taken back. -/
def withdraw (s : Voting) (account : Address) : Voting :=
  { (s.Votes.filter fun v => v.Signer = account).foldl
      (fun s v => s.uncast v.Address v.Authorize) s with
    Votes := s.Votes.filter fun v => v.Signer ≠ account }

/-- The votes on an account are closed. -/
def close (s : Voting) (account : Address) : Voting :=
  { s with
    Votes := s.Votes.filter fun v => v.Address ≠ account
    Tally := s.Tally.erase account }

/-- If the vote passed, the list of signers is updated. -/
def resolve (s : Voting) (number : Nat) (coinbase : Address) : Voting :=
  let tally := s.Tally.get coinbase
  if tally.Votes > s.Signers.card / 2 then
    if tally.Authorize then
      { s with Signers := insert coinbase s.Signers }.close coinbase
    else
      (({ s with Signers := s.Signers.erase coinbase }.forget number).withdraw coinbase).close
        coinbase
  else s

variable (config : CliqueConfig) (ecrecover : Header → Except CliqueError Address)

/-- The signer of a header must be authorised and must not have signed lately. -/
def authorise (s : Voting) (header : Header) : Except CliqueError Address :=
  match ecrecover header with
  | .error e => .error e
  | .ok signer =>
    if signer ∉ s.Signers then .error .errUnauthorizedSigner
    else if s.Recents.any fun _ recent => recent = signer then .error .errRecentlySigned
    else .ok signer

/-- The loop body of `apply`. -/
def applyHeader (s : Voting) (header : Header) : Except CliqueError Voting := do
  let number := header.number
  let s := (s.reset config number).forget number
  let signer ← s.authorise ecrecover header
  let s := { s with Recents := s.Recents.insert number signer }.discard signer header.coinbase
  let authorize ← voteOf header.nonce
  return (s.vote signer number header.coinbase authorize).resolve number header.coinbase

/-- `signers`: the signers in ascending order. -/
def signers (s : Voting) : List Address :=
  Quot.liftOn s.Signers.val (List.insertionSort ascending) fun l l' h =>
    List.Perm.eq_of_pairwise' (List.pairwise_insertionSort ascending l)
      (List.pairwise_insertionSort ascending l')
      (((List.perm_insertionSort ascending l).trans h).trans
        (List.perm_insertionSort ascending l').symm)

def inturn (s : Voting) (number : Nat) (signer : Address) : Bool :=
  number % s.signers.length = s.signers.idxOf signer

end Voting

/-! ## §4 — Lists of headers -/

/-- The numbers of the headers are consecutive, from `first` on. -/
def consecutive : Nat → List Header → Bool
  | _, [] => true
  | first, h :: headers => h.number = first && consecutive (first + 1) headers

def Snapshot.apply (config : CliqueConfig) (ecrecover : Header → Except CliqueError Address)
    (hash : Header → MxtChain.Hash) (s : Snapshot) (headers : List Header) :
    Except CliqueError Snapshot :=
  match headers.getLast? with
  | none => .ok s
  | some last =>
    if ¬ consecutive (s.Number + 1) headers then .error .errInvalidVotingChain
    else do
      let voting ← headers.foldlM (Voting.applyHeader config ecrecover) s.toVoting
      return { toVoting := voting, Number := s.Number + headers.length, Hash := hash last }

end MxtChain.Clique
