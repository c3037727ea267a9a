/-
# MxtChain.Core.HeaderChain — the header chain (`core/headerchain.go`).

`WriteHeader` stores a header with its total difficulty and, if it becomes the head, moves the
canonical number index from the old line of headers to the new one: upwards the old entries are
deleted, downwards the new ones are written until the index already agrees, all in one batch while
the loops read the old store. Headers, total difficulties and numbers are also kept in caches that
forget (`Lru`). `GetAncestor` walks back to the canonical chain and then jumps.

The random tie break is an argument. A nil pointer and a loop that does not end are errors.
-/
import MxtChain.Core.Rawdb
import MxtChain.Lib.Lru

namespace MxtChain.Chain

open Lib Consensus

/-- What can go wrong. -/
inductive Fault where
  /-- `consensus.ErrUnknownAncestor` -/
  | unknownAncestor
  /-- `ErrNoGenesis` -/
  | noGenesis
  /-- `fmt.Errorf("invalid old chain")` -/
  | invalidOldChain
  /-- `fmt.Errorf("invalid new chain")` -/
  | invalidNewChain
  | nilPointer
  /-- A loop that is still going after the bound on its rounds. -/
  | diverges
  deriving DecidableEq

inductive WriteStatus where
  | NonStatTy
  | CanonStatTy
  | SideStatTy
  deriving DecidableEq

/-- `HeaderChain`, as far as it changes. -/
structure HeaderChain where
  chainDb : ChainDb
  currentHeader : Header
  currentHeaderHash : Hash
  headerCache : Lru Hash Header
  tdCache : Lru Hash Nat
  numberCache : Lru Hash Nat

def headerCacheLimit : Nat := 512

def tdCacheLimit : Nat := 1024

def numberCacheLimit : Nat := 2048

namespace HeaderChain

/-! ## §1 — Reading -/

def GetTd (hc : HeaderChain) (hash : Hash) (number : Nat) : Option Nat × HeaderChain :=
  match hc.tdCache.get hash with
  | (some cached, cache) => (some cached, { hc with tdCache := cache })
  | (none, _) =>
    match hc.chainDb.td.find? (number, hash) with
    | none => (none, hc)
    -- cache the found one for next time and return
    | some td => (some td, { hc with tdCache := hc.tdCache.add hash td })

def GetHeader (hc : HeaderChain) (hash : Hash) (number : Nat) : Option Header × HeaderChain :=
  match hc.headerCache.get hash with
  | (some header, cache) => (some header, { hc with headerCache := cache })
  | (none, _) =>
    match hc.chainDb.header.find? (number, hash) with
    | none => (none, hc)
    | some header => (some header, { hc with headerCache := hc.headerCache.add hash header })

def GetBlockNumber (hc : HeaderChain) (hash : Hash) : Option Nat × HeaderChain :=
  match hc.numberCache.get hash with
  | (some number, cache) => (some number, { hc with numberCache := cache })
  | (none, _) =>
    match hc.chainDb.headerNumber.find? hash with
    | none => (none, hc)
    | some number => (some number, { hc with numberCache := hc.numberCache.add hash number })

def GetHeaderByHash (hc : HeaderChain) (hash : Hash) : Option Header × HeaderChain :=
  match hc.GetBlockNumber hash with
  | (none, hc) => (none, hc)
  | (some number, hc) => hc.GetHeader hash number

def GetHeaderByNumber (hc : HeaderChain) (number : Nat) : Option Header × HeaderChain :=
  if hc.chainDb.ReadCanonicalHash number = Hash.zero then (none, hc)
  else hc.GetHeader (hc.chainDb.ReadCanonicalHash number) number

/-- The loop of `GetAncestor`: the hash and number that it returns, and what is left of the
budget. -/
def ancestorLoop : Nat → Hash → Nat → Nat → HeaderChain → (Hash × Nat) × Nat × HeaderChain
  | 0, hash, number, maxNonCanonical, hc => ((hash, number), maxNonCanonical, hc)
  | ancestor + 1, hash, number, maxNonCanonical, hc =>
    if hc.chainDb.ReadCanonicalHash number = hash then
      -- the canonical hash is read a second time, against a reorganisation in between
      ((hc.chainDb.ReadCanonicalHash (number - (ancestor + 1)), number - (ancestor + 1)),
        maxNonCanonical, hc)
    else if maxNonCanonical = 0 then ((Hash.zero, 0), maxNonCanonical, hc)
    else
      match hc.GetHeader hash number with
      | (none, hc) => ((Hash.zero, 0), maxNonCanonical - 1, hc)
      | (some header, hc) =>
        ancestorLoop ancestor header.parentHash (number - 1) (maxNonCanonical - 1) hc

def GetAncestor (hc : HeaderChain) (hash : Hash) (number ancestor maxNonCanonical : Nat) :
    (Hash × Nat) × Nat × HeaderChain :=
  if ancestor > number then ((Hash.zero, 0), maxNonCanonical, hc)
  else if ancestor = 1 then
    -- in this case it is cheaper to just read the header
    match hc.GetHeader hash number with
    | (some header, hc) => ((header.parentHash, number - 1), maxNonCanonical, hc)
    | (none, hc) => ((Hash.zero, 0), maxNonCanonical, hc)
  else ancestorLoop ancestor hash number maxNonCanonical hc

/-! ## §2 — Writing -/

/-- The loop that overwrites stale canonical hashes: its batch, with a bound on the rounds. -/
def overwrite : Nat → Hash → Nat → Option Header → HeaderChain →
    Except Fault (List Op × HeaderChain)
  | 0, _, _, _, _ => .error .diverges
  | fuel + 1, headHash, headNumber, headHeader, hc =>
    if hc.chainDb.ReadCanonicalHash headNumber = headHash then .ok ([], hc)
    else
      match headHeader with
      | none => .error .nilPointer
      | some header =>
        let next := hc.GetHeader header.parentHash (header.number - 1)
        match overwrite fuel header.parentHash (header.number - 1) next.1 next.2 with
        | .error e => .error e
        | .ok (batch, hc) => .ok (.WriteCanonicalHash headHash headNumber :: batch, hc)

/-- Whether a header becomes the head. The second clause reduces the vulnerability to selfish
mining; `coin` is `mrand.Float64() < 0.5`. -/
def reorg (externTd localTd number head : Nat) (coin : Bool) : Bool :=
  if externTd > localTd then true
  else if externTd = localTd then
    if number < head then true
    else if number = head then coin
    else false
  else false

/-- The canonical indexes and the head marker for a header that becomes the head. -/
def adopt (hc : HeaderChain) (hash : Hash) (header : Header) : Except Fault HeaderChain :=
  match hc.chainDb.deleteAbove header.number with
  | none => .error .diverges
  | some stale =>
    let parent := hc.GetHeader header.parentHash (header.number - 1)
    match overwrite (header.number + 1) header.parentHash (header.number - 1) parent.1 parent.2 with
    | .error e => .error e
    | .ok (batch, hc) =>
      .ok { hc with
        chainDb := hc.chainDb.Write (stale ++ batch ++
          [.WriteCanonicalHash hash header.number, .WriteHeadHeaderHash hash])
        currentHeaderHash := hash
        currentHeader := header }

/-- The caches after a header was written. -/
def remember (hc : HeaderChain) (hash : Hash) (header : Header) (externTd : Nat) : HeaderChain :=
  { hc with
    tdCache := hc.tdCache.add hash externTd
    headerCache := hc.headerCache.add hash header
    numberCache := hc.numberCache.add hash header.number }

def WriteHeader (hash : Header → Hash) (hc : HeaderChain) (header : Header) (coin : Bool) :
    Except Fault (WriteStatus × HeaderChain) :=
  match hc.GetTd header.parentHash (header.number - 1) with
  | (none, _) => .error .unknownAncestor
  | (some ptd, hc) =>
    let head := hc.currentHeader.number
    match hc.GetTd hc.currentHeaderHash head with
    -- the comparison reads through the pointer
    | (none, _) => .error .nilPointer
    | (some localTd, hc) =>
      let externTd := header.difficulty + ptd
      -- irrelevant of the canonical status, write the td and header to the database
      let hc := { hc with
        chainDb := hc.chainDb.Write
          [.WriteTd (hash header) header.number externTd, .WriteHeader (hash header) header] }
      if reorg externTd localTd header.number head coin then
        match hc.adopt (hash header) header with
        | .error e => .error e
        | .ok hc => .ok (.CanonStatTy, hc.remember (hash header) header externTd)
      else .ok (.SideStatTy, hc.remember (hash header) header externTd)

end HeaderChain

/-! ## §3 — From the genesis block -/

/-- What `Genesis.Commit` writes. -/
def genesisDb (hash : Header → Hash) (genesis : Header) : ChainDb :=
  ChainDb.empty.Write
    [.WriteTd (hash genesis) genesis.number genesis.difficulty,
      .WriteBody (hash genesis) genesis.number [], .WriteHeader (hash genesis) genesis,
      .WriteCanonicalHash (hash genesis) genesis.number, .WriteHeadBlockHash (hash genesis),
      .WriteHeadFastBlockHash (hash genesis), .WriteHeadHeaderHash (hash genesis)]

def NewHeaderChain (hash : Header → Hash) (chainDb : ChainDb) : Except Fault HeaderChain :=
  let hc : HeaderChain :=
    { chainDb := chainDb
      currentHeader := {}
      currentHeaderHash := Hash.zero
      headerCache := .new headerCacheLimit
      tdCache := .new tdCacheLimit
      numberCache := .new numberCacheLimit }
  match hc.GetHeaderByNumber 0 with
  | (none, _) => .error .noGenesis
  | (some genesisHeader, hc) =>
    let hc := { hc with currentHeader := genesisHeader }
    let hc :=
      if chainDb.headBlockHash = Hash.zero then hc
      else
        match hc.GetHeaderByHash chainDb.headBlockHash with
        | (none, hc) => hc
        | (some chead, hc) => { hc with currentHeader := chead }
    .ok { hc with currentHeaderHash := hash hc.currentHeader }

/-- A sequence of `WriteHeader` calls, each with its tie break. -/
def writeHeaders (hash : Header → Hash) (hc : HeaderChain) (calls : List (Header × Bool)) :
    Except Fault HeaderChain :=
  calls.foldlM (fun hc call => (hc.WriteHeader hash call.1 call.2).map Prod.snd) hc

end MxtChain.Chain
