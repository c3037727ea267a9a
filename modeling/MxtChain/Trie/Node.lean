/-
# MxtChain.Trie.Node — the node types of the trie

`trie/node.go` has four node types behind one interface: full nodes, short nodes, hash nodes and
value nodes, with `nil` for an absent node. A full or short node carries cache flags (its hash,
and whether it still has to be written). `trie/database.go` keeps *collapsed* nodes: the same
tree with compact keys and no flags, in the RLP form they are hashed and stored in.
-/
import MxtChain.Rlp.Encode
import MxtChain.Trie.Encoding

namespace MxtChain.Trie

/-! ## §1 — Nodes in memory -/

/-- The caching metadata of a node (`nodeFlag`): its hash if it is known, and whether it has
changes that must still be written to the database. -/
structure NodeFlag where
  hash : Option Hash
  dirty : Bool
  deriving DecidableEq

/-- The flag of a node that was just created (`Trie.newFlag`). -/
def newFlag : NodeFlag := ⟨none, true⟩

/-- A trie node in memory. -/
inductive Node where
  | nil
  | full (children : Fin 17 → Node) (flags : NodeFlag)
  | short (key : Hex) (val : Node) (flags : NodeFlag)
  | hash (h : Hash)
  | value (v : Bytes)

namespace Node

/-- `n == nil`. -/
def isNil : Node → Bool
  | nil => true
  | _ => false

/-- The cached hash and the dirty flag of a node (`cache()`). The source's interface has no
method on `nil`; no caller asks for it. -/
def cache : Node → Option Hash × Bool
  | full _ flags => (flags.hash, flags.dirty)
  | short _ _ flags => (flags.hash, flags.dirty)
  | _ => (none, true)

theorem isNil_iff {n : Node} : n.isNil = true ↔ n = .nil := by
  cases n <;> simp [isNil]

end Node

/-! ## §2 — Collapsed nodes -/

/-- A collapsed node: compact keys, no flags. These are the nodes that are encoded (`shortNode`
and `fullNode` after the hasher replaced their keys and children, `rawShortNode` and
`rawFullNode` in the database). -/
inductive RawNode where
  | nil
  | full (children : Fin 17 → RawNode)
  | short (key : Bytes) (val : RawNode)
  | hash (h : Hash)
  | value (v : Bytes)

namespace RawNode

/-- `n == nil`. -/
def isNil : RawNode → Bool
  | nil => true
  | _ => false

/-- The RLP value of a collapsed node. A nil interface is written as an empty list, but the
encoders of full nodes put an empty value in the place of a nil child. -/
def item : RawNode → Rlp.Item
  | nil => .list []
  | full children => .list (List.ofFn fun i =>
    if (children i).isNil then .str [] else (children i).item)
  | short key val => .list [.str key, val.item]
  | hash h => .str h.bytes
  | value v => .str v

/-- The RLP value of a child of a full node. -/
def childItem (n : RawNode) : Rlp.Item := if n.isNil then .str [] else n.item

/-- The encoding of a collapsed node (`rlp.Encode`, `cachedNode.rlp`). -/
def rlp (n : RawNode) : Bytes := Rlp.encode n.item

/-- The estimated size of a collapsed node (`estimateSize`). The seventeenth child of a full
node is not counted. -/
def estimateSize : RawNode → Nat
  | nil => 0
  | full children => 3 + (List.ofFn fun i : Fin 16 =>
    if (children i.castSucc).isNil then 1 else (children i.castSucc).estimateSize).sum
  | short key val => 3 + key.length + val.estimateSize
  | hash h => 1 + h.bytes.length
  | value v => 1 + v.length

/-- The hash children of a collapsed node (`forGatherChildren`), in the order they are visited.
The seventeenth child of a full node is not visited. -/
def gatherChildren : RawNode → List Hash
  | nil => []
  | full children => (List.ofFn fun i : Fin 16 => (children i.castSucc).gatherChildren).flatten
  | short _ val => val.gatherChildren
  | hash h => [h]
  | value _ => []

end RawNode

/-- A node used as part of a collapsed node without being collapsed itself: its key stays in hex
form. Value, hash and nil nodes are the only ones this happens to. -/
def Node.asIs : Node → RawNode
  | .nil => .nil
  | .full children _ => .full fun i => (children i).asIs
  | .short key val _ => .short (key.map hexByte) val.asIs
  | .hash h => .hash h
  | .value v => .value v

/-- Expansion of a collapsed node into a node in memory (`expandNode`). Only the node itself
gets the hash it is stored under; embedded children get none, and all of them are clean. -/
def expandNode : Option Hash → RawNode → Node
  | _, .nil => .nil
  | hash, .full children => .full (fun i => expandNode none (children i)) ⟨hash, false⟩
  | hash, .short key val => .short (compactToHex key) (expandNode none val) ⟨hash, false⟩
  | _, .hash h => .hash h
  | _, .value v => .value v

end MxtChain.Trie
