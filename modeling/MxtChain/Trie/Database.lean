/-
# MxtChain.Trie.Database — the write layer between the tries and the disk

`trie/database.go` keeps the nodes that are not on disk yet in a map (`dirties`), with reference
counts, the external children of each node and a doubly linked list through all of them in the
order of their insertion (the flush list). The entry under the zero hash is the meta-root: its
external children are the roots that are kept alive.

This module has the state, `insert` and the reading operations. Go maps are association lists
without duplicate keys. The size counters are `float64` in the source and hold integers; they are
`Int` here. Left out: dereferencing and flushing, the read cache `cleans` (a copy of what is on
disk), the locks, and the counters that are only logged.
-/
import Mathlib.Data.List.AList
import MxtChain.Trie.Decode

namespace MxtChain.Trie

abbrev Map (α β : Type) := AList fun _ : α => β

/-- What the database knows about a cached node (`cachedNode`). -/
structure CachedNode where
  node : RawNode
  size : UInt16
  /-- number of live nodes referencing this one -/
  parents : UInt32
  /-- external children referenced by this node; a nil map is `none` -/
  children : Option (Map Hash UInt16)
  flushPrev : Hash
  flushNext : Hash

structure Database where
  /-- the trie nodes on disk -/
  diskdb : Map Hash Bytes
  /-- the preimages on disk -/
  diskPreimages : Map Hash Bytes
  dirties : Map Hash CachedNode
  oldest : Hash
  newest : Hash
  preimages : Map Hash Bytes
  dirtiesSize : Int
  childrenSize : Int
  preimagesSize : Int

/-- The meta-root entry of a new database. -/
def metaRoot : CachedNode where
  node := .nil
  size := 0
  parents := 0
  children := some ∅
  flushPrev := Hash.zero
  flushNext := Hash.zero

def NewDatabase (diskdb diskPreimages : Map Hash Bytes) : Database where
  diskdb := diskdb
  diskPreimages := diskPreimages
  dirties := AList.singleton Hash.zero metaRoot
  oldest := Hash.zero
  newest := Hash.zero
  preimages := ∅
  dirtiesSize := 0
  childrenSize := 0
  preimagesSize := 0

namespace CachedNode

/-- `cachedNode.obj`. The meta-root has no node to expand. -/
def obj (n : CachedNode) (hash : Hash) : Except Err Node :=
  match n.node with
  | .nil => .error (.crash "unknown node type: <nil>")
  | raw => .ok (expandNode (some hash) raw)

end CachedNode

/-- `db.dirties[h].f = …` through the pointer in the map: a missing entry is a nil pointer. -/
def modifyEntry (m : Map Hash CachedNode) (h : Hash) (f : CachedNode → CachedNode) :
    Except Err (Map Hash CachedNode) :=
  match m.lookup h with
  | none => .error (.crash "invalid memory address or nil pointer dereference")
  | some c => .ok (m.insert h (f c))

/-- `if c := db.dirties[child]; c != nil { c.parents++ }`. -/
def addParent (m : Map Hash CachedNode) (child : Hash) : Map Hash CachedNode :=
  match m.lookup child with
  | none => m
  | some c => m.insert child { c with parents := c.parents + 1 }

/-- The entry that `insert` creates for a node. -/
def newEntry (node : RawNode) (size : Nat) (flushPrev : Hash) : CachedNode where
  node := node
  size := UInt16.ofNat size
  parents := 0
  children := none
  flushPrev := flushPrev
  flushNext := Hash.zero

namespace Database

/-- `Database.insert`: put a collapsed node into the cache and at the end of the flush list. -/
def insert (db : Database) (hash : Hash) (size : Nat) (node : RawNode) : Except Err Database :=
  -- if the node's already cached, skip
  if hash ∈ db.dirties then .ok db
  else
    let entry := newEntry node size db.newest
    let dirties := (node.gatherChildren.foldl addParent db.dirties).insert hash entry
    -- the sum is taken in the 16 bits of the entry's size
    let dirtiesSize := db.dirtiesSize + (UInt16.ofNat HashLength + entry.size).toNat
    if db.oldest = Hash.zero then
      .ok { db with dirties := dirties, oldest := hash, newest := hash, dirtiesSize := dirtiesSize }
    else
      match modifyEntry dirties db.newest fun c => { c with flushNext := hash } with
      | .error e => .error e
      | .ok dirties =>
        .ok { db with dirties := dirties, newest := hash, dirtiesSize := dirtiesSize }

def insertPreimage (db : Database) (hash : Hash) (preimage : Bytes) : Database :=
  if hash ∈ db.preimages then db
  else { db with
    preimages := db.preimages.insert hash preimage
    preimagesSize := db.preimagesSize + (HashLength + preimage.length : Nat) }

/-- `Database.node`: a cached node from memory, or else from disk. -/
def node (db : Database) (hash : Hash) : Except Err (Option Node) :=
  match db.dirties.lookup hash with
  | some dirty => (dirty.obj hash).map some
  | none =>
    match db.diskdb.lookup hash with
    | none => .ok none
    | some enc => (mustDecodeNode hash enc).map some

end Database

end MxtChain.Trie
