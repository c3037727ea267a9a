/-
# MxtChain.Trie.Hasher — hashing a node in memory

`trie/hasher.go` walks a node, replaces every part of it whose encoding has 32 bytes or more by
its hash, and returns both the collapsed result and a copy of the node in which the hashes it
found are cached. The parallel mode hashes the sixteen children of a full node in goroutines of
their own, each writing its own slot; the results are the same and it is not modelled.
-/
import MxtChain.Trie.Node

namespace MxtChain.Trie

/-- Short and full nodes: the nodes that have children. -/
def Node.isInner : Node → Bool
  | .full _ _ => true
  | .short _ _ _ => true
  | _ => false

/-- `cached.flags.hash = h`. -/
def Node.setHash (h : Option Hash) : Node → Node
  | .full children flags => .full children { flags with hash := h }
  | .short key val flags => .short key val { flags with hash := h }
  | n => n

/-- The type assertion `hashed.(hashNode)`. -/
def RawNode.asHash : RawNode → Option Hash
  | .hash h => some h
  | _ => none

namespace Hasher

variable (H : Bytes → Hash)

/-- The common body of `shortnodeToHash` and `fullnodeToHash`: a node smaller than 32 bytes stays
as it is and is stored inside its parent, unless the hash is forced. -/
def nodeToHash (n : RawNode) (force : Bool) : RawNode :=
  if n.rlp.length < 32 ∧ force = false then n else .hash (H n.rlp)

def shortnodeToHash (n : RawNode) (force : Bool) : RawNode := nodeToHash H n force

def fullnodeToHash (n : RawNode) (force : Bool) : RawNode := nodeToHash H n force

/-- `hashShortNodeChildren`, over the result `kid` of hashing the child: the collapsed node and
the node with the hashed child. A value or hash child is left alone. -/
def hashShortNodeChildren (key : Hex) (val : Node) (flags : NodeFlag) (kid : RawNode × Node) :
    RawNode × Node :=
  if val.isInner then (.short (hexToCompact key) kid.1, .short key kid.2 flags)
  else (.short (hexToCompact key) val.asIs, .short key val flags)

/-- `hashFullNodeChildren`, over the results `kids` of hashing the children. Nil children are
collapsed to empty values; the seventeenth child is left alone. -/
def hashFullNodeChildren (children : Fin 17 → Node) (flags : NodeFlag)
    (kids : Fin 17 → RawNode × Node) : RawNode × Node :=
  (.full fun i =>
      if i = 16 then (children i).asIs
      else if (children i).isNil then .value [] else (kids i).1,
    .full (fun i =>
      if i = 16 then children i
      else if (children i).isNil then children i else (kids i).2) flags)

/-- `hasher.hash`: the hashed (or, if small, collapsed) node, and the node with the hash cached. -/
def hash : Node → Bool → RawNode × Node
  | .short key val flags, force =>
    match flags.hash with
    | some h => (.hash h, .short key val flags)
    | none =>
      let (collapsed, cached) := hashShortNodeChildren key val flags (hash val false)
      let hashed := shortnodeToHash H collapsed force
      (hashed, cached.setHash hashed.asHash)
  | .full children flags, force =>
    match flags.hash with
    | some h => (.hash h, .full children flags)
    | none =>
      let (collapsed, cached) :=
        hashFullNodeChildren children flags fun i => hash (children i) false
      let hashed := fullnodeToHash H collapsed force
      (hashed, cached.setHash hashed.asHash)
  -- value and hash nodes have no children, they are left as they are
  | n, _ => (n.asIs, n)

/-- `hasher.proofHash`: the collapsed node, and its hash unless it is smaller than 32 bytes. -/
def proofHash : Node → RawNode × RawNode
  | .short key val flags =>
    let (sn, _) := hashShortNodeChildren key val flags (hash H val false)
    (sn, shortnodeToHash H sn false)
  | .full children flags =>
    let (fn, _) := hashFullNodeChildren children flags fun i => hash H (children i) false
    (fn, fullnodeToHash H fn false)
  | n => (n.asIs, n.asIs)

end Hasher

end MxtChain.Trie
