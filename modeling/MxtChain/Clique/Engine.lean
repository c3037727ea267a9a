/-
# MxtChain.Clique.Engine — the search for a snapshot and the verification of headers.

`consensus/clique/clique.go`: `snapshot` walks back from a block until it finds a snapshot in
memory, on disk or at the genesis block, and applies the headers it passed; `verifySeal`,
`verifyCascadingFields` and `verifyHeader` use it.

The caches are explicit state. A stored snapshot is read back as it was written; the eviction of
the memory cache is left to the runs of `Clique.Path`. A call answers with its result and the
caches after it.
-/
import MxtChain.Clique.Snapshot

namespace MxtChain.Clique

open Consensus Lib

/-! ## §1 — Constants -/

def checkpointInterval : Nat := 1024

def FullImmutabilityThreshold : Nat := 90000

def extraVanity : Nat := 32

/-- `extraSeal`: `crypto.SignatureLength` -/
def extraSeal : Nat := 65

/-- `uncleHash`: `types.CalcUncleHash(nil)` -/
def uncleHash : Hash where
  bytes := [0x1d, 0xcc, 0x4d, 0xe8, 0xde, 0xc7, 0x5d, 0x7a, 0xab, 0x85, 0xb5, 0x67, 0xb6, 0xcc,
    0xd4, 0x1a, 0xd3, 0x12, 0x45, 0x1b, 0x94, 0x8a, 0x74, 0x13, 0xf0, 0xa1, 0x42, 0xfd, 0x40, 0xd4,
    0x93, 0x47]
  length_eq := rfl

def diffInTurn : Nat := 2

def diffNoTurn : Nat := 1

/-! ## §2 — Chain, engine, caches -/

/-- `consensus.ChainHeaderReader`, as far as it is read here. -/
structure ChainReader where
  Config : ChainConfig
  GetHeader : Hash → Nat → Option Header
  GetHeaderByNumber : Nat → Option Header

/-- `Clique`: what does not change. `now` is `time.Now().Unix()`. -/
structure Engine where
  config : CliqueConfig
  ecrecover : Header → Except CliqueError Address
  hash : Header → Hash
  now : UInt64
  fakeDiff : Bool

instance inhabitedSnapshot : Inhabited Snapshot := ⟨newSnapshot 0 Hash.zero []⟩

/-- `Clique`: the snapshots in memory and on disk. -/
structure Caches where
  recents : GoMap Hash Snapshot
  db : GoMap Hash Snapshot

/-- No snapshots yet. -/
def Caches.fresh : Caches := ⟨.empty, .empty⟩

/-- A snapshot is kept in memory: `c.recents.Add(snap.Hash, snap)`. -/
def Caches.remember (c : Caches) (snap : Snapshot) : Caches :=
  { c with recents := c.recents.insert snap.Hash snap }

def Caches.store (c : Caches) (snap : Snapshot) : Caches :=
  { c with db := c.db.insert snap.Hash snap }

/-! ## §3 — `snapshot` -/

/-- The signers that stand in the extra data of a checkpoint. The code panics where there is no
room for vanity and seal. -/
def extraSigners (header : Header) : List Address :=
  (List.range ((header.extra.length - extraVanity - extraSeal) / AddressLength)).map fun i =>
    Address.ofBytes ((header.extra.drop (extraVanity + i * AddressLength)).take AddressLength)

namespace Engine

variable (E : Engine) (chain : ChainReader) {c c' : Caches} {hash : Hash}
  {headers parents : List Header} {number : Nat} {base snap : Snapshot} {e : CliqueError}

/-- A snapshot in memory, or on disk. -/
def lookup (c : Caches) (number : Nat) (hash : Hash) : Option Snapshot :=
  match c.recents.find? hash with
  | some s => some s
  | none => if number % checkpointInterval = 0 then c.db.find? hash else none

/-- The header that is trusted as a checkpoint: the genesis block; a checkpoint block without a
parent, or behind more headers than can be reorged. -/
def checkpoint (number piled : Nat) : Option Header :=
  if number = 0 ∨ (number % E.config.Epoch = 0 ∧
      (piled > FullImmutabilityThreshold ∨ chain.GetHeaderByNumber (number - 1) = none)) then
    chain.GetHeaderByNumber number
  else none

/-- The header of a block, from the explicit parents (enforced) or from the chain, and the parents
that are left. -/
def gather (number : Nat) (hash : Hash) (parents : List Header) :
    Except CliqueError (Header × List Header) :=
  match parents.getLast? with
  | some header =>
    if E.hash header ≠ hash ∨ header.number ≠ number then .error .ErrUnknownAncestor
    else .ok (header, parents.dropLast)
  | none =>
    match chain.GetHeader hash number with
    | none => .error .ErrUnknownAncestor
    | some header => .ok (header, parents)

/-- The loop of `snapshot`: the snapshot that is found, and the headers that are still to be applied
to it. -/
def search (c : Caches) (number : Nat) (hash : Hash) (parents headers : List Header) :
    Except CliqueError (Snapshot × List Header) × Caches :=
  match lookup c number hash with
  | some s => (.ok (s, headers), c)
  | none =>
    match E.checkpoint chain number headers.length with
    | some header =>
      if header.extra.length + AddressLength ≤ extraVanity + extraSeal then (.error .panic, c)
      else
        let snap := newSnapshot number (E.hash header) (extraSigners header)
        (.ok (snap, headers), c.store snap)
    | none =>
      match E.gather chain number hash parents with
      | .error e => (.error e, c)
      | .ok (header, parents) =>
        match number with
        -- the number wraps around
        | 0 => (.error .diverged, c)
        | number + 1 => search c number header.parentHash parents (header :: headers)

variable {E chain} in
/-- **What a search does**: it is at a snapshot that is kept, or at a checkpoint, or it takes one
header and goes on below it. -/
theorem search_ok {all : List Header}
    (h : E.search chain c number hash parents headers = (.ok (base, all), c')) :
    (lookup c number hash = some base ∧ all = headers ∧ c' = c) ∨
    (∃ header, E.checkpoint chain number headers.length = some header ∧
      base = newSnapshot number (E.hash header) (extraSigners header) ∧ all = headers ∧
      c' = c.store base) ∨
    (∃ m header rest, number = m + 1 ∧ E.gather chain number hash parents = .ok (header, rest) ∧
      E.search chain c m header.parentHash rest (header :: headers) = (.ok (base, all), c')) := by
  rw [search.eq_def] at h
  split at h
  · next s hfound =>
    obtain ⟨hok, rfl⟩ := Prod.mk.inj h
    obtain ⟨rfl, rfl⟩ := Prod.mk.inj (Except.ok.inj hok)
    exact .inl ⟨hfound, rfl, rfl⟩
  split at h
  · next header hcheckpoint =>
    split at h
    · cases (Prod.mk.inj h).1
    obtain ⟨hok, rfl⟩ := Prod.mk.inj h
    obtain ⟨rfl, rfl⟩ := Prod.mk.inj (Except.ok.inj hok)
    exact .inr (.inl ⟨header, hcheckpoint, rfl, rfl, rfl⟩)
  split at h
  · cases (Prod.mk.inj h).1
  next header rest hgather =>
  split at h
  · cases (Prod.mk.inj h).1
  · exact .inr (.inr ⟨_, header, rest, rfl, hgather, h⟩)

variable {E chain} in
/-- A search that fails leaves the caches as they are. -/
theorem search_error
    (h : E.search chain c number hash parents headers = (.error e, c')) : c' = c := by
  induction number generalizing hash parents headers with
  | zero =>
    rw [search.eq_def] at h
    split at h
    · cases (Prod.mk.inj h).1
    split at h
    · split at h
      · exact (Prod.mk.inj h).2.symm
      · cases (Prod.mk.inj h).1
    split at h
    · exact (Prod.mk.inj h).2.symm
    · exact (Prod.mk.inj h).2.symm
  | succ number ih =>
    rw [search.eq_def] at h
    split at h
    · cases (Prod.mk.inj h).1
    split at h
    · split at h
      · exact (Prod.mk.inj h).2.symm
      · cases (Prod.mk.inj h).1
    split at h
    · exact (Prod.mk.inj h).2.symm
    · exact ih h

def snapshot (c : Caches) (number : Nat) (hash : Hash) (parents : List Header) :
    Except CliqueError Snapshot × Caches :=
  match E.search chain c number hash parents [] with
  | (.error e, c) => (.error e, c)
  | (.ok (base, headers), c) =>
    match base.apply E.config E.ecrecover E.hash headers with
    | .error e => (.error e, c)
    | .ok snap =>
      let c := c.remember snap
      if snap.Number % checkpointInterval = 0 ∧ headers.length > 0 then (.ok snap, c.store snap)
      else (.ok snap, c)

variable {E chain} in
theorem snapshot_of_search_error (h : E.search chain c number hash parents [] = (.error e, c')) :
    E.snapshot chain c number hash parents = (.error e, c) := by
  obtain rfl := search_error h
  rw [snapshot, h]

variable {E chain} in
/-- **What a call does** after the search: it applies the headers, and keeps the outcome. -/
theorem snapshot_of_search_ok
    (h : E.search chain c number hash parents [] = (.ok (base, headers), c')) :
    (∃ e, base.apply E.config E.ecrecover E.hash headers = .error e ∧
      E.snapshot chain c number hash parents = (.error e, c')) ∨
    (∃ snap, base.apply E.config E.ecrecover E.hash headers = .ok snap ∧
      (E.snapshot chain c number hash parents = (.ok snap, c'.remember snap) ∨
        E.snapshot chain c number hash parents =
          (.ok snap, (c'.remember snap).store snap))) := by
  rw [snapshot, h]
  dsimp only
  cases happly : base.apply E.config E.ecrecover E.hash headers with
  | error e => exact .inl ⟨e, rfl, rfl⟩
  | ok snap =>
    dsimp only
    split
    · exact .inr ⟨snap, rfl, .inr rfl⟩
    · exact .inr ⟨snap, rfl, .inl rfl⟩

variable {E chain} in
/-- The answer of a call is kept in memory. -/
theorem snapshot_kept (h : E.snapshot chain c number hash parents = (.ok snap, c')) :
    c'.recents.find? snap.Hash = some snap := by
  rcases hsearch : E.search chain c number hash parents [] with ⟨e | ⟨base, headers⟩, d⟩
  · rw [snapshot_of_search_error hsearch] at h
    cases (Prod.mk.inj h).1
  rcases snapshot_of_search_ok hsearch with ⟨e, -, he⟩ | ⟨s, -, hs | hs⟩
  · rw [he] at h
    cases (Prod.mk.inj h).1
  all_goals
    obtain ⟨hok, rfl⟩ := Prod.mk.inj (hs.symm.trans h)
    obtain rfl := Except.ok.inj hok
    exact GoMap.find?_insert_self d.recents s.Hash s

variable {E chain} in
/-- A call about a block whose snapshot is in memory answers with it. -/
theorem snapshot_of_recent (h : c.recents.find? hash = some snap) :
    (E.snapshot chain c number hash parents).1 = .ok snap := by
  have hsearch : E.search chain c number hash parents [] = (.ok (snap, []), c) := by
    rw [search.eq_def, lookup, h]
  rcases snapshot_of_search_ok hsearch with ⟨e, he, -⟩ | ⟨s, hs, h | h⟩
  · cases he
  · rw [h, Except.ok.inj hs]
  · rw [h, Except.ok.inj hs]

/-! ## §4 — Verification -/

/-- `a - b` on words of 64 bits. -/
def subUint64 (a b : Nat) : Nat := if b ≤ a then a - b else a + 2 ^ 64 - b

/-- The signer of a header is authorised and has not signed recently, as `verifySeal` has it. -/
def checkSigner (snap : Voting) (header : Header) : Except CliqueError Address :=
  match E.ecrecover header with
  | .error e => .error e
  | .ok signer =>
    if signer ∉ snap.Signers then .error .errUnauthorizedSigner
    else if snap.Recents.any fun seen recent =>
        -- only fail if the current block does not shift it out
        recent = signer ∧ seen > subUint64 header.number snap.limit then .error .errRecentlySigned
    else .ok signer

/-- The difficulty corresponds to the turn of the signer. -/
def checkDifficulty (snap : Voting) (header : Header) (signer : Address) :
    Except CliqueError Unit :=
  if E.fakeDiff then .ok ()
  else if snap.inturn header.number signer ∧ header.difficulty ≠ diffInTurn then
    .error .errWrongDifficulty
  else if ¬ snap.inturn header.number signer ∧ header.difficulty ≠ diffNoTurn then
    .error .errWrongDifficulty
  else .ok ()

def verifySeal (c : Caches) (header : Header) (parents : List Header) :
    Except CliqueError Unit × Caches :=
  if header.number = 0 then (.error .errUnknownBlock, c)
  else
    match E.snapshot chain c (header.number - 1) header.parentHash parents with
    | (.error e, c) => (.error e, c)
    | (.ok snap, c) =>
      match E.checkSigner snap.toVoting header with
      | .error e => (.error e, c)
      | .ok signer => (E.checkDifficulty snap.toVoting header signer, c)

/-- The signers as the extra data of a checkpoint has them. -/
def signerBytes (snap : Voting) : Bytes := snap.signers.flatMap fun a => a.bytes

def verifyCascadingFields (c : Caches) (header : Header) (parents : List Header) :
    Except CliqueError Unit × Caches :=
  if header.number = 0 then (.ok (), c)
  else
    match parents.getLast?.or (chain.GetHeader header.parentHash (header.number - 1)) with
    | none => (.error .ErrUnknownAncestor, c)
    | some parent =>
      if parent.number ≠ header.number - 1 ∨ E.hash parent ≠ header.parentHash then
        (.error .ErrUnknownAncestor, c)
      else if parent.time + E.config.Period > header.time then (.error .errInvalidTimestamp, c)
      else
        match E.snapshot chain c (header.number - 1) header.parentHash parents with
        | (.error e, c) => (.error e, c)
        | (.ok snap, c) =>
          if header.number % E.config.Epoch = 0 ∧
              (header.extra.take (header.extra.length - extraSeal)).drop extraVanity ≠
                signerBytes snap.toVoting then
            (.error .errMismatchingCheckpointSigners, c)
          else E.verifySeal chain c header parents

/-- The checks of `verifyHeader` on the header alone. -/
def checkFields (header : Header) : Except CliqueError Unit :=
  let checkpoint := header.number % E.config.Epoch = 0
  let signersBytes := header.extra.length - extraVanity - extraSeal
  if header.time > E.now then .error .ErrFutureBlock
  else if checkpoint ∧ header.coinbase ≠ default then .error .errInvalidCheckpointBeneficiary
  else if header.nonce ≠ nonceAuthVote ∧ header.nonce ≠ nonceDropVote then .error .errInvalidVote
  else if checkpoint ∧ header.nonce ≠ nonceDropVote then .error .errInvalidCheckpointVote
  else if header.extra.length < extraVanity then .error .errMissingVanity
  else if header.extra.length < extraVanity + extraSeal then .error .errMissingSignature
  else if ¬ checkpoint ∧ signersBytes ≠ 0 then .error .errExtraSigners
  else if checkpoint ∧ signersBytes % AddressLength ≠ 0 then .error .errInvalidCheckpointSigners
  else if header.mixDigest ≠ Hash.zero then .error .errInvalidMixDigest
  else if header.uncleHash ≠ uncleHash then .error .errInvalidUncleHash
  else if header.number > 0 ∧ header.difficulty ≠ diffInTurn ∧ header.difficulty ≠ diffNoTurn then
    .error .errInvalidDifficulty
  else .ok ()

def verifyHeader (c : Caches) (header : Header) (parents : List Header) :
    Except CliqueError Unit × Caches :=
  match E.checkFields header with
  | .error e => (.error e, c)
  | .ok () =>
    match VerifyForkHashes E.hash chain.Config header false with
    | some e => (.error (.fork e), c)
    | none => E.verifyCascadingFields chain c header parents

section Inversion

variable {E chain} {c : Caches} {header : Header} {parents : List Header}

theorem checkFields_nonce (h : E.checkFields header = .ok ()) :
    ∃ authorize, Voting.voteOf header.nonce = .ok authorize := by
  by_cases hauth : header.nonce = nonceAuthVote
  · exact ⟨true, if_pos hauth⟩
  by_cases hdrop : header.nonce = nonceDropVote
  · exact ⟨false, by rw [Voting.voteOf, if_neg hauth, if_pos hdrop]⟩
  unfold checkFields at h
  by_cases htime : header.time > E.now
  · rw [if_pos htime] at h
    cases h
  by_cases hcoinbase : header.number % E.config.Epoch = 0 ∧ header.coinbase ≠ default
  · rw [if_neg htime, if_pos hcoinbase] at h
    cases h
  · rw [if_neg htime, if_neg hcoinbase, if_pos ⟨hauth, hdrop⟩] at h
    cases h

theorem verifySeal_ok (h : (E.verifySeal chain c header parents).1 = .ok ()) : ∃ snap c' signer,
      E.snapshot chain c (header.number - 1) header.parentHash parents = (.ok snap, c') ∧
      E.checkSigner snap.toVoting header = .ok signer := by
  unfold verifySeal at h
  split at h
  · cases h
  rcases hsnap : E.snapshot chain c (header.number - 1) header.parentHash parents with ⟨e | s, c'⟩
  · rw [hsnap] at h
    cases h
  rw [hsnap] at h
  dsimp only at h
  split at h
  · cases h
  · next signer hsigner => exact ⟨s, c', signer, rfl, hsigner⟩

theorem verifyCascadingFields_ok (hnumber : header.number ≠ 0)
    (h : (E.verifyCascadingFields chain c header parents).1 = .ok ()) :
    ∃ snap c', E.snapshot chain c (header.number - 1) header.parentHash parents = (.ok snap, c') ∧
      (E.verifySeal chain c' header parents).1 = .ok () := by
  unfold verifyCascadingFields at h
  rw [if_neg hnumber] at h
  split at h
  · cases h
  split at h
  · cases h
  split at h
  · cases h
  rcases hsnap : E.snapshot chain c (header.number - 1) header.parentHash parents with
    ⟨e | s, c'⟩
  · rw [hsnap] at h
    cases h
  rw [hsnap] at h
  dsimp only at h
  split at h
  · cases h
  · exact ⟨s, c', rfl, h⟩

theorem verifyHeader_ok (h : (E.verifyHeader chain c header parents).1 = .ok ()) :
    E.checkFields header = .ok () ∧ (E.verifyCascadingFields chain c header parents).1 = .ok () := by
  unfold verifyHeader at h
  split at h
  · cases h
  next hfields =>
  split at h
  · cases h
  · exact ⟨hfields, h⟩

end Inversion

end Engine

end MxtChain.Clique
