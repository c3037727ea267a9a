/-
# MxtChain.Trie.Trie — the operations of a trie

`trie/trie.go`: lookup, insertion and deletion on a partly loaded trie, hashing, committing and
re-opening. The recursive operations walk down the nodes in memory and load a node from the
database when they meet its hash. Loading breaks the structural recursion, so they carry a bound
on the depth of the recursion; `depth key` calls are enough on a trie whose short nodes have
keys, since every node below a hash consumes a part of the key.

The counter `unhashed` of the source only selects the parallel hasher and is left out.
-/
import MxtChain.Trie.Committer

set_option linter.dupNamespace false

namespace MxtChain.Trie

/-- A trie on top of a database. -/
structure Trie where
  db : Database
  root : Node

/-- The number of nested calls for a key. -/
def depth (key : Hex) : Nat := 2 * key.length + 2

namespace Trie

def resolveHash (db : Database) (hash : Hash) (path : Hex) : Except Err Node :=
  match db.node hash with
  | .error e => .error e
  | .ok (some n) => .ok n
  | .ok none => .error (.missingNode hash path)

def resolve (db : Database) (n : Node) (path : Hex) : Except Err Node :=
  match n with
  | .hash h => resolveHash db h path
  | n => .ok n

/-- `New`: open the trie with the given root. -/
def New (root : Hash) (db : Database) : Except Err Trie :=
  if root ≠ Hash.zero ∧ root ≠ emptyRoot then
    match resolveHash db root [] with
    | .error e => .error e
    | .ok rootnode => .ok ⟨db, rootnode⟩
  else .ok ⟨db, .nil⟩

/-! ## §1 — Lookup -/

/-- `tryGet`: the value, the node with what was loaded on the way, and whether anything was. -/
def tryGet (db : Database) : Nat → Node → Hex → Nat → Except Err (Option Bytes × Node × Bool)
  | 0, _, _, _ => .error .diverged
  | fuel + 1, origNode, key, pos =>
    match origNode with
    | .nil => .ok (none, .nil, false)
    | .value v => .ok (some v, .value v, false)
    | .short nkey val flags =>
      if key.length - pos < nkey.length ∨ nkey ≠ (key.drop pos).take nkey.length then
        .ok (none, .short nkey val flags, false)
      else
        match tryGet db fuel val key (pos + nkey.length) with
        | .error e => .error e
        | .ok (value, newnode, true) => .ok (value, .short nkey newnode flags, true)
        | .ok (value, _, false) => .ok (value, .short nkey val flags, false)
    | .full children flags =>
      match key[pos]? with
      | none => .error (.crash "index out of range")
      | some x =>
        match tryGet db fuel (children x) key (pos + 1) with
        | .error e => .error e
        | .ok (value, newnode, true) =>
          .ok (value, .full (Function.update children x newnode) flags, true)
        | .ok (value, _, false) => .ok (value, .full children flags, false)
    | .hash h =>
      match resolveHash db h (key.take pos) with
      | .error e => .error e
      | .ok child =>
        match tryGet db fuel child key pos with
        | .error e => .error e
        | .ok (value, newnode, _) => .ok (value, newnode, true)

def TryGet (t : Trie) (key : Bytes) : Except Err (Option Bytes × Trie) :=
  let k := keybytesToHex key
  match tryGet t.db (depth k) t.root k 0 with
  | .error e => .error e
  | .ok (value, newroot, didResolve) =>
    .ok (value, if didResolve then { t with root := newroot } else t)

/-! ## §2 — Insertion -/

/-- `insert`: whether the node changed, and the new node. -/
def insert (db : Database) : Nat → Node → Hex → Hex → Node → Except Err (Bool × Node)
  | 0, _, _, _, _ => .error .diverged
  | fuel + 1, n, path, key, value =>
    match key with
    | [] =>
      match n, value with
      | .value v, .value w => .ok (decide (v ≠ w), value)
      | .value _, _ => .error (.crash "interface conversion: node is not valueNode")
      | _, _ => .ok (true, value)
    | k0 :: krest =>
      match n with
      | .short nkey val flags =>
        let matchlen := prefixLen key nkey
        -- if the whole key matches, keep this short node as is and only update the value
        if matchlen = nkey.length then
          match insert db fuel val (path ++ key.take matchlen) (key.drop matchlen) value with
          | .error e => .error e
          | .ok (false, _) => .ok (false, .short nkey val flags)
          | .ok (true, nn) => .ok (true, .short nkey nn newFlag)
        else
          -- otherwise branch out at the index where they differ
          match nkey.drop matchlen, key.drop matchlen with
          | a :: nrest, b :: rest =>
            match insert db fuel .nil (path ++ nkey.take (matchlen + 1)) nrest val with
            | .error e => .error e
            | .ok (_, old) =>
              match insert db fuel .nil (path ++ key.take (matchlen + 1)) rest value with
              | .error e => .error e
              | .ok (_, new) =>
                let branch : Node :=
                  .full (Function.update (Function.update (fun _ => .nil) a old) b new) newFlag
                -- replace this short node with the branch if it occurs at index 0
                if matchlen = 0 then .ok (true, branch)
                else .ok (true, .short (key.take matchlen) branch newFlag)
          | _, _ => .error (.crash "index out of range")
      | .full children flags =>
        match insert db fuel (children k0) (path ++ [k0]) krest value with
        | .error e => .error e
        | .ok (false, _) => .ok (false, .full children flags)
        | .ok (true, nn) => .ok (true, .full (Function.update children k0 nn) newFlag)
      | .nil => .ok (true, .short key value newFlag)
      | .hash h =>
        match resolveHash db h path with
        | .error e => .error e
        | .ok rn =>
          match insert db fuel rn path key value with
          | .error e => .error e
          | .ok (false, _) => .ok (false, rn)
          | .ok (true, nn) => .ok (true, nn)
      | .value _ => .error (.crash "invalid node: valueNode")

/-! ## §3 — Deletion -/

/-- The loop of `delete` that looks for the only child left: `none` stands for both -1 (no child)
and -2 (at least two). -/
def onlyChild (children : Fin 17 → Node) : List (Fin 17) → Option (Fin 17) → Option (Fin 17)
  | [], pos => pos
  | i :: is, none => onlyChild children is (if (children i).isNil then none else some i)
  | i :: is, some p => if (children i).isNil then onlyChild children is (some p) else none

/-- `delete`: whether the node changed, and the new node. It reduces the trie to minimal form by
simplifying nodes on the way up. -/
def delete (db : Database) : Nat → Node → Hex → Hex → Except Err (Bool × Node)
  | 0, _, _, _ => .error .diverged
  | fuel + 1, n, path, key =>
    match n with
    | .short nkey val flags =>
      let matchlen := prefixLen key nkey
      -- don't replace n on mismatch
      if matchlen < nkey.length then .ok (false, .short nkey val flags)
      -- remove n entirely for whole matches
      else if matchlen = key.length then .ok (true, .nil)
      else
        match delete db fuel val (path ++ key.take nkey.length) (key.drop nkey.length) with
        | .error e => .error e
        | .ok (false, _) => .ok (false, .short nkey val flags)
        -- the subtrie was reduced to another short node: merge the two
        | .ok (true, .short ckey cval _) => .ok (true, .short (nkey ++ ckey) cval newFlag)
        | .ok (true, child) => .ok (true, .short nkey child newFlag)
    | .full children flags =>
      match key with
      | [] => .error (.crash "index out of range")
      | k0 :: krest =>
        match delete db fuel (children k0) (path ++ [k0]) krest with
        | .error e => .error e
        | .ok (false, _) => .ok (false, .full children flags)
        | .ok (true, nn) =>
          let children := Function.update children k0 nn
          match onlyChild children (List.finRange 17) none with
          -- n still contains at least two values and cannot be reduced
          | none => .ok (true, .full children newFlag)
          | some pos =>
            if pos ≠ 16 then
              -- the entry might not be loaded yet, resolve it just for this check
              match resolve db (children pos) path with
              | .error e => .error e
              | .ok (.short ckey cval _) => .ok (true, .short (pos :: ckey) cval newFlag)
              | .ok _ => .ok (true, .short [pos] (children pos) newFlag)
            else .ok (true, .short [pos] (children pos) newFlag)
    | .value _ => .ok (true, .nil)
    | .nil => .ok (false, .nil)
    | .hash h =>
      match resolveHash db h path with
      | .error e => .error e
      | .ok rn =>
        match delete db fuel rn path key with
        | .error e => .error e
        | .ok (false, _) => .ok (false, rn)
        | .ok (true, nn) => .ok (true, nn)

def TryDelete (t : Trie) (key : Bytes) : Except Err Trie :=
  let k := keybytesToHex key
  match delete t.db (depth k) t.root [] k with
  | .error e => .error e
  | .ok (_, n) => .ok { t with root := n }

/-- `TryUpdate`: an empty value deletes the key. -/
def TryUpdate (t : Trie) (key value : Bytes) : Except Err Trie :=
  let k := keybytesToHex key
  if value.length ≠ 0 then
    match insert t.db (depth k) t.root [] k (.value value) with
    | .error e => .error e
    | .ok (_, n) => .ok { t with root := n }
  else
    match delete t.db (depth k) t.root [] k with
    | .error e => .error e
    | .ok (_, n) => .ok { t with root := n }

/-! ## §4 — Hashing and committing -/

variable (H : Bytes → MxtChain.Hash)

def hashRoot (t : Trie) : RawNode × Node :=
  match t.root with
  | .nil => (.hash emptyRoot, .nil)
  | root => Hasher.hash H root true

/-- `Hash`: the root hash, and the trie with its hashes cached. -/
def Hash (t : Trie) : Except Err (MxtChain.Hash × Trie) :=
  match t.hashRoot H with
  | (.hash h, cached) => .ok (h, { t with root := cached })
  | _ => .error (.crash "interface conversion: node is not hashNode")

/-- `Commit`: write all nodes to the trie's memory database. -/
def Commit (t : Trie) : Except Err (MxtChain.Hash × Trie) :=
  match t.root with
  | .nil => .ok (emptyRoot, t)
  | _ =>
    -- derive the hash for all dirty nodes first
    match t.Hash H with
    | .error e => .error e
    | .ok (rootHash, t) =>
      if t.root.cache.2 = false then .ok (rootHash, t)
      else
        match Committer.Commit t.root t.db with
        | .error e => .error e
        | .ok (newRoot, db) => .ok (rootHash, ⟨db, .hash newRoot⟩)

end Trie

end MxtChain.Trie
