/-
# MxtChain.Trie.StackTrie — the trie of `trie/stacktrie.go`

A stack trie takes its keys in increasing order. A subtree that no later key can reach is hashed
at once and only its reference is kept; what stays open is the path to the last key.

The node type of the source selects the constructor, so that a node has exactly the fields its
type uses. `nil` is a nil pointer, in the children of a branch. Nodes taken from `stPool` were
cleared by `Reset` and are new nodes here. The database of a stack trie is nil wherever the
repository makes one, and so it is here.
-/
import MxtChain.Trie.Commitment

namespace MxtChain.Trie

/-- A node of a stack trie (`StackTrie`), by its `nodeType`. A key chunk has nibbles only. -/
inductive StackTrie where
  | nil
  | emptyNode (keyOffset : Nat)
  | branchNode (keyOffset : Nat) (children : Fin 16 → StackTrie)
  | extNode (keyOffset : Nat) (key : Hex) (child : StackTrie)
  | leafNode (keyOffset : Nat) (key : Hex) (val : Bytes)
  | hashedNode (val : Bytes)

namespace StackTrie

/-- `st == nil`. -/
def isNil : StackTrie → Bool
  | nil => true
  | _ => false

/-! ## §1 — Hashing -/

/-- What the source does with the encoding of a node: one below 32 bytes is kept as it is, any
other is replaced by its hash. -/
def compress (H : Bytes → Hash) (tmp : Bytes) : Bytes :=
  if tmp.length < 32 then tmp else (H tmp).bytes

/-- The encoding of one entry of a branch: a raw encoding is copied, a hash is a string. -/
def encodeChild (val : Bytes) : Bytes :=
  if val.length < 32 then val else Rlp.encodeString val

/-- `rlp.Encode` of a list whose members are encoded already. -/
def encodeMembers (members : List Bytes) : Bytes :=
  Rlp.puthead 0xC0 0xF7 members.flatten.length ++ members.flatten

/-- The results of a list of calls, or the first panic among them. -/
def collect {α : Type} : List (Except Err α) → Except Err (List α)
  | [] => .ok []
  | r :: rest =>
    match r with
    | .error e => .error e
    | .ok x => (collect rest).map (x :: ·)

/-- `hash`: the `val` of the hashed node that the node turns into. -/
def hash (H : Bytes → Hash) : StackTrie → Except Err Bytes
  | nil => .error (.crash "nil pointer dereference")
  | emptyNode _ => .ok emptyRoot.bytes
  | branchNode _ children =>
    match collect (List.ofFn fun i => if (children i).isNil then .ok (Rlp.encodeString [])
        else ((children i).hash H).map encodeChild) with
    | .error e => .error e
    -- the seventeenth entry is the empty value
    | .ok members => .ok (compress H (encodeMembers (members ++ [Rlp.encodeString []])))
  | extNode _ key child =>
    match child.hash H with
    | .error e => .error e
    -- the reference to the child is written as a string, whatever it is
    | .ok val => .ok (compress H (Rlp.encode (.list [.str (hexToCompact key), .str val])))
  | leafNode _ key val =>
    match hexToCompactInPlace ((key ++ [terminator]).map hexByte) with
    | .error e => .error e
    | .ok (buf, sz) => .ok (compress H (Rlp.encode (.list [.str (buf.take sz), .str val])))
  | hashedNode val => .ok val

/-- `Hash`: the root hash, and the trie that is left, which is hashed. -/
def Hash (H : Bytes → MxtChain.Hash) (st : StackTrie) : Except Err (MxtChain.Hash × StackTrie) :=
  match st.hash H with
  | .error e => .error e
  | .ok val =>
    if val.length ≠ 32 then .ok (MxtChain.Hash.ofBytes (H val).bytes, hashedNode val)
    else .ok (MxtChain.Hash.ofBytes val, hashedNode val)

/-! ## §2 — Inserting -/

/-- `getDiffIndex`: how far the key chunk `chunk` of a node agrees with `key`, the rest of the key
from the node on. -/
def getDiffIndex : Hex → Hex → Except Err Nat
  | [], _ => .ok 0
  | _ :: _, [] => .error (.crash "index out of range")
  | x :: chunk, y :: key => if x = y then (getDiffIndex chunk key).map (· + 1) else .ok 0

/-- The letter of a key chunk at `i`, as an index of the children array. -/
def childIndex (key : Hex) (i : Nat) : Except Err (Fin 16) :=
  match key[i]? with
  | none => .error (.crash "index out of range")
  | some x => if h : x.val < 16 then .ok ⟨x.val, h⟩ else .error (.crash "index out of range")

/-- The first child below `i` that is not nil is hashed. -/
def hashElder (H : Bytes → MxtChain.Hash) (children : Fin 16 → StackTrie) :
    Nat → Except Err (Fin 16 → StackTrie)
  | 0 => .ok children
  | i + 1 =>
    if (children (Fin.ofNat 16 i)).isNil then hashElder H children i
    else ((children (Fin.ofNat 16 i)).hash H).map fun val =>
      Function.update children (Fin.ofNat 16 i) (hashedNode val)

/-- The branch that a chunk and a key part ways at: the old subtree hashed, the new leaf open.
`n` is the old subtree, `diffidx` the length of the common part. -/
def split (H : Bytes → MxtChain.Hash) (keyOffset : Nat) (chunk : Hex) (diffidx : Nat)
    (n : StackTrie) (key : Hex) (value : Bytes) : Except Err StackTrie :=
  match n.hash H, childIndex chunk diffidx, childIndex key (keyOffset + diffidx) with
  | .ok val, .ok origIdx, .ok newIdx =>
    let o := leafNode (keyOffset + diffidx + 1) (key.drop (keyOffset + diffidx + 1)) value
    let children := Function.update (Function.update (fun _ => nil) origIdx (hashedNode val)) newIdx o
    -- a common part leads to the new branch through an extension
    if diffidx = 0 then .ok (branchNode keyOffset children)
    else .ok (extNode keyOffset (chunk.take diffidx) (branchNode (keyOffset + diffidx) children))
  | .error e, _, _ => .error e
  | _, .error e, _ => .error e
  | _, _, .error e => .error e

/-- `insert`: `key` is the whole key, of which a node reads the part from its `keyOffset` on. -/
def insert (H : Bytes → MxtChain.Hash) (key : Hex) (value : Bytes) :
    StackTrie → Except Err StackTrie
  | nil => .error (.crash "nil pointer dereference")
  | emptyNode keyOffset => .ok (leafNode keyOffset (key.drop keyOffset) value)
  | branchNode keyOffset children =>
    match childIndex key keyOffset with
    | .error e => .error e
    | .ok idx =>
      match hashElder H children idx.val with
      | .error e => .error e
      | .ok elders =>
        -- a new child is an empty node, which the insertion turns into a leaf
        match if (children idx).isNil then
            .ok (leafNode (keyOffset + 1) (key.drop (keyOffset + 1)) value)
          else insert H key value (children idx) with
        | .error e => .error e
        | .ok child => .ok (branchNode keyOffset (Function.update elders idx child))
  | extNode keyOffset chunk child =>
    match getDiffIndex chunk (key.drop keyOffset) with
    | .error e => .error e
    | .ok diffidx =>
      if diffidx = chunk.length then
        (insert H key value child).map (extNode keyOffset chunk)
      else
        -- a break on the last nibble leaves no chunk for the old subtree
        let n := if diffidx < chunk.length - 1 then
            extNode (diffidx + 1) (chunk.drop (diffidx + 1)) child else child
        split H keyOffset chunk diffidx n key value
  | leafNode keyOffset chunk val =>
    match getDiffIndex chunk (key.drop keyOffset) with
    | .error e => .error e
    | .ok diffidx =>
      if diffidx ≥ chunk.length then .error (.crash "Trying to insert into existing key")
      else split H keyOffset chunk diffidx
        (leafNode (diffidx + 1) (chunk.drop (diffidx + 1)) val) key value
  | hashedNode _ => .error (.crash "trying to insert into hash")

def NewStackTrie : StackTrie := emptyNode 0

def TryUpdate (H : Bytes → MxtChain.Hash) (st : StackTrie) (key value : Bytes) :
    Except Err StackTrie :=
  if value.length = 0 then .error (.crash "deletion not supported")
  else st.insert H (keybytesToHex key).dropLast value

end StackTrie

end MxtChain.Trie
