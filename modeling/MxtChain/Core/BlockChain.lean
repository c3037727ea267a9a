/-
# MxtChain.Core.BlockChain — the canonical block chain (`core/blockchain.go`).

`writeBlockWithState` stores a block with its total difficulty and decides whether it becomes the
head. If its parent is not the head, `reorg` first looks for the common ancestor, makes every block
of the new chain but the last one the head in turn, deletes the lookup entries of transactions that
were dropped, and deletes canonical hashes above the current block; `writeHeadBlock` then writes the
new head.

A transaction is given by its hash. The state, its garbage collection, receipts, logs and events are
left out: none of them is read by what decides about heads and indexes. Whether blocks are
preserved, and the random tie break, are arguments of a call.
-/
import MxtChain.Core.HeaderChain

namespace MxtChain.Chain

open Lib
open Consensus (Header)

/-- `types.Block`, with its transactions by their hashes. -/
structure Block where
  header : Header
  transactions : List Hash
  deriving DecidableEq

/-- `Block.NumberU64` -/
def Block.number (b : Block) : Nat := b.header.number

/-- `Block.ParentHash` -/
def Block.parentHash (b : Block) : Hash := b.header.parentHash

/-- `BlockChain`, as far as heads and indexes are concerned; its database is that of `hc`. -/
structure BlockChain where
  hc : HeaderChain
  blockCache : Lru Hash Block
  currentBlock : Block
  currentFastBlock : Block

def blockCacheLimit : Nat := 256

def ChainDb.ReadBlock (db : ChainDb) (hash : Hash) (number : Nat) : Option Block :=
  match db.header.find? (number, hash) with
  | none => none
  | some header =>
    match db.body.find? (number, hash) with
    | none => none
    | some body => some ⟨header, body⟩

def TxDifference (a b : List Hash) : List Hash := a.filter fun tx => tx ∉ b

namespace BlockChain

def db (bc : BlockChain) : ChainDb := bc.hc.chainDb

def write (bc : BlockChain) (batch : List Op) : BlockChain :=
  { bc with hc := { bc.hc with chainDb := bc.hc.chainDb.Write batch } }

def GetTd (bc : BlockChain) (hash : Hash) (number : Nat) : Option Nat × BlockChain :=
  ((bc.hc.GetTd hash number).1, { bc with hc := (bc.hc.GetTd hash number).2 })

def GetBlock (hash : Header → Hash) (bc : BlockChain) (key : Hash) (number : Nat) :
    Option Block × BlockChain :=
  match bc.blockCache.get key with
  | (some block, cache) => (some block, { bc with blockCache := cache })
  | (none, _) =>
    match bc.db.ReadBlock key number with
    | none => (none, bc)
    -- cache the found block for next time and return
    | some block => (some block, { bc with blockCache := bc.blockCache.add (hash block.header) block })

/-- The batch of `writeHeadBlock`. -/
def headBatch (hash : Header → Hash) (block : Block) (updateHeads : Bool) : List Op :=
  [.WriteCanonicalHash (hash block.header) block.number] ++
    -- `WriteTxLookupEntriesByBlock`
    block.transactions.map (fun tx => .WriteTxLookupEntry tx block.number) ++
    [.WriteHeadBlockHash (hash block.header)] ++
    if updateHeads then
      [.WriteHeadHeaderHash (hash block.header), .WriteHeadFastBlockHash (hash block.header)]
    else []

def writeHeadBlock (hash : Header → Hash) (bc : BlockChain) (block : Block) : BlockChain :=
  -- if the block is on a side chain or an unknown one, force other heads onto it too
  let updateHeads := decide (bc.db.ReadCanonicalHash block.number ≠ hash block.header)
  let bc := bc.write (headBatch hash block updateHeads)
  if updateHeads then
    { bc with
      hc := { bc.hc with
        currentHeader := block.header
        currentHeaderHash := hash block.header }
      currentFastBlock := block
      currentBlock := block }
  else { bc with currentBlock := block }

/-! ## §1 — Reorganisations -/

/-- The loop that walks from a block back to a number: the blocks that it leaves behind and the one
where it stops, with a bound on the rounds. -/
def walkBack (hash : Header → Hash) : Nat → Option Block → Nat → BlockChain →
    Except Fault (List Block × Option Block × BlockChain)
  | 0, _, _, _ => .error .diverges
  | fuel + 1, current, number, bc =>
    match current with
    | none => .ok ([], none, bc)
    | some block =>
      if block.number = number then .ok ([], some block, bc)
      else
        let next := bc.GetBlock hash block.parentHash (block.number - 1)
        match walkBack hash fuel next.1 number next.2 with
        | .error e => .error e
        | .ok (chain, last, bc) => .ok (block :: chain, last, bc)

/-- The loop that steps back with both chains until the common ancestor is found: what it leaves
behind on either side. -/
def stepBack (hash : Header → Hash) : Nat → Block → Block → BlockChain →
    Except Fault (List Block × List Block × BlockChain)
  | 0, _, _, _ => .error .diverges
  | fuel + 1, oldBlock, newBlock, bc =>
    if hash oldBlock.header = hash newBlock.header then .ok ([], [], bc)
    else
      let old := bc.GetBlock hash oldBlock.parentHash (oldBlock.number - 1)
      match old.1 with
      | none => .error .invalidOldChain
      | some oldParent =>
        let new := old.2.GetBlock hash newBlock.parentHash (newBlock.number - 1)
        match new.1 with
        | none => .error .invalidNewChain
        | some newParent =>
          match stepBack hash fuel oldParent newParent new.2 with
          | .error e => .error e
          | .ok (oldChain, newChain, bc) => .ok (oldBlock :: oldChain, newBlock :: newChain, bc)

/-- `oldChain` and `newChain` of `reorg`. -/
def collect (hash : Header → Hash) (bc : BlockChain) (oldBlock newBlock : Block) :
    Except Fault (List Block × List Block × BlockChain) :=
  -- reduce the longer chain to the same number as the shorter one
  if oldBlock.number > newBlock.number then
    match walkBack hash (oldBlock.number + 1) (some oldBlock) newBlock.number bc with
    | .error e => .error e
    | .ok (_, none, _) => .error .invalidOldChain
    | .ok (oldChain, some oldBlock, bc) =>
      match stepBack hash (newBlock.number + 1) oldBlock newBlock bc with
      | .error e => .error e
      | .ok (oldRest, newChain, bc) => .ok (oldChain ++ oldRest, newChain, bc)
  else
    match walkBack hash (newBlock.number + 1) (some newBlock) oldBlock.number bc with
    | .error e => .error e
    | .ok (_, none, _) => .error .invalidNewChain
    | .ok (newChain, some newBlock, bc) =>
      match stepBack hash (oldBlock.number + 1) oldBlock newBlock bc with
      | .error e => .error e
      | .ok (oldChain, newRest, bc) => .ok (oldChain, newChain ++ newRest, bc)

def reorg (hash : Header → Hash) (bc : BlockChain) (oldBlock newBlock : Block) :
    Except Fault BlockChain :=
  match bc.collect hash oldBlock newBlock with
  | .error e => .error e
  | .ok (oldChain, newChain, bc) =>
    let deletedTxs := oldChain.flatMap Block.transactions
    -- insert the new chain except the head block, in reverse order
    let inserted := newChain.tail.reverse
    let bc := inserted.foldl (writeHeadBlock hash) bc
    let addedTxs := inserted.flatMap Block.transactions
    -- delete any canonical number assignments above the new head
    match bc.db.deleteAbove bc.currentBlock.number with
    | none => .error .diverges
    | some stale =>
      .ok (bc.write ((TxDifference deletedTxs addedTxs).map .DeleteTxLookupEntry ++ stale))

/-! ## §2 — Writing a block -/

/-- One call: the block, `shouldPreserve` at that moment, and `mrand.Float64() < 0.5`. -/
structure Call where
  block : Block
  shouldPreserve : Option (Block → Bool)
  coin : Bool

/-- Whether a block becomes the head. -/
def prefers (externTd localTd : Nat) (currentBlock : Block) (call : Call) : Bool :=
  if externTd > localTd then true
  else if externTd = localTd then
    -- split same-difficulty blocks by number, then preferentially select the block of the local
    -- miner
    if call.block.number < currentBlock.number then true
    else if call.block.number = currentBlock.number then
      let preserve := fun block => call.shouldPreserve.elim false fun f => f block
      !preserve currentBlock && (preserve call.block || call.coin)
    else false
  else false

def writeBlockWithState (hash : Header → Hash) (bc : BlockChain) (call : Call) :
    Except Fault (WriteStatus × BlockChain) :=
  match bc.GetTd call.block.parentHash (call.block.number - 1) with
  | (none, _) => .error .unknownAncestor
  | (some ptd, bc) =>
    match bc.GetTd (hash bc.currentBlock.header) bc.currentBlock.number with
    -- the comparison reads through the pointer
    | (none, _) => .error .nilPointer
    | (some localTd, bc) =>
      let externTd := call.block.header.difficulty + ptd
      -- irrelevant of the canonical status, write the block itself to the database
      let bc := bc.write
        [.WriteTd (hash call.block.header) call.block.number externTd,
          .WriteBody (hash call.block.header) call.block.number call.block.transactions,
          .WriteHeader (hash call.block.header) call.block.header]
      if prefers externTd localTd bc.currentBlock call then
        -- reorganise the chain if the parent is not the head block
        if call.block.parentHash ≠ hash bc.currentBlock.header then
          match bc.reorg hash bc.currentBlock call.block with
          | .error e => .error e
          | .ok bc => .ok (.CanonStatTy, bc.writeHeadBlock hash call.block)
        else .ok (.CanonStatTy, bc.writeHeadBlock hash call.block)
      else .ok (.SideStatTy, bc)

/-- What `NewBlockChain` makes of a store that has the genesis block only. -/
def start (hash : Header → Hash) (genesis : Block) : Except Fault BlockChain :=
  match NewHeaderChain hash (genesisDb hash genesis.header) with
  | .error e => .error e
  | .ok hc =>
    .ok
      { hc := hc
        blockCache := .new blockCacheLimit
        currentBlock := genesis
        currentFastBlock := genesis }

/-- A sequence of calls from the genesis block on. -/
def run (hash : Header → Hash) (genesis : Block) (calls : List Call) : Except Fault BlockChain :=
  match start hash genesis with
  | .error e => .error e
  | .ok bc => calls.foldlM (fun bc call => (bc.writeBlockWithState hash call).map Prod.snd) bc

end BlockChain

end MxtChain.Chain
