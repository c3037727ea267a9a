/-
# MxtChain.Trie.Proof — Merkle proofs for one key

`Prove`, `VerifyProof` and `get` of `trie/proof.go`. A proof is a store from hashes to node
encodings. The verifier follows hash nodes through the store and nothing else bounds its loop, so
it carries the number of rounds it may take.
-/
import MxtChain.Trie.Trie

set_option linter.dupNamespace false

namespace MxtChain.Trie

/-- The store behind `mxtdb.KeyValueReader` and `mxtdb.KeyValueWriter`. -/
abbrev ProofDb := Map Hash Bytes

def hexDigit (n : Nat) : Char := "0123456789abcdef".toList.getD n '0'

/-- The verb `%x` on bytes. -/
def hexText (b : Bytes) : String :=
  String.ofList (b.flatMap fun x => [hexDigit (x.toNat / 16), hexDigit (x.toNat % 16)])

/-- `get`: the child of a node along a key, and the rest of the key. With `skipResolved` the walk
goes on through nodes that are there and stops at a hash, a value or nothing. -/
def get : Node → Hex → Bool → Except Err (Hex × Node)
  | .short nkey val _, key, skipResolved =>
    if key.length < nkey.length ∨ nkey ≠ key.take nkey.length then .ok ([], .nil)
    else if skipResolved then get val (key.drop nkey.length) true
    else .ok (key.drop nkey.length, val)
  | .full children _, key, skipResolved =>
    match key with
    | [] => .error (.crash "index out of range")
    | x :: rest => if skipResolved then get (children x) rest true else .ok (rest, children x)
  | .hash h, key, _ => .ok (key, .hash h)
  | .nil, key, _ => .ok (key, .nil)
  | .value v, _, _ => .ok ([], .value v)

/-- The loop of `VerifyProof`. -/
def verifyLoop (proofDb : ProofDb) : Nat → Nat → Hash → Hex → Except Err (Option Bytes)
  | 0, _, _, _ => .error .diverged
  | fuel + 1, i, wantHash, key =>
    match proofDb.lookup wantHash with
    | none => .error (.failure ("proof node " ++ toString i ++ " (hash " ++
        hexText wantHash.bytes ++ ") missing"))
    | some buf =>
      match decodeNode (some wantHash) buf with
      | .error e => .error (.failure ("bad proof node " ++ toString i ++ ": " ++ e.error))
      | .ok n =>
        match get n key true with
        | .error e => .error e
        | .ok (_, .nil) => .ok none -- the trie doesn't contain the key
        | .ok (keyrest, .hash h) => verifyLoop proofDb fuel (i + 1) h keyrest
        | .ok (_, .value v) => .ok (some v)
        | .ok _ => verifyLoop proofDb fuel (i + 1) wantHash key

/-- `VerifyProof`, with a bound on the rounds of its loop. -/
def VerifyProof (fuel : Nat) (rootHash : Hash) (key : Bytes) (proofDb : ProofDb) :
    Except Err (Option Bytes) :=
  verifyLoop proofDb fuel 0 rootHash (keybytesToHex key)

namespace Trie

/-- The first loop of `Prove`: all nodes on the path to the key. -/
def proveNodes (db : Database) : Nat → Node → Hex → Except Err (List Node)
  | 0, _, _ => .error .diverged
  | fuel + 1, tn, key =>
    match tn, key with
    | .nil, _ => .ok []
    | _, [] => .ok []
    | .short nkey val flags, x :: rest =>
      if (x :: rest).length < nkey.length ∨ nkey ≠ (x :: rest).take nkey.length then
        -- the trie doesn't contain the key
        .ok [.short nkey val flags]
      else
        match proveNodes db fuel val ((x :: rest).drop nkey.length) with
        | .error e => .error e
        | .ok nodes => .ok (.short nkey val flags :: nodes)
    | .full children flags, x :: rest =>
      match proveNodes db fuel (children x) rest with
      | .error e => .error e
      | .ok nodes => .ok (.full children flags :: nodes)
    | .hash h, x :: rest =>
      match resolveHash db h [] with
      | .error e => .error e
      | .ok n => proveNodes db fuel n (x :: rest)
    | .value _, _ :: _ => .error (.crash "invalid node")

/-- The second loop of `Prove`, at the node with index `i`: a node that is referred to by hash
becomes a proof element, and so does the root. -/
def proveWrite (H : Bytes → MxtChain.Hash) : Nat → Nat → List Node → ProofDb → ProofDb
  | _, _, [], proofDb => proofDb
  | fromLevel + 1, i, _ :: nodes, proofDb => proveWrite H fromLevel (i + 1) nodes proofDb
  | 0, i, n :: nodes, proofDb =>
    let (collapsed, hn) := Hasher.proofHash H n
    let enc := collapsed.rlp
    match hn.asHash with
    | some hash => proveWrite H 0 (i + 1) nodes (proofDb.insert hash enc)
    | none =>
      if i = 0 then proveWrite H 0 (i + 1) nodes (proofDb.insert (H enc) enc)
      else proveWrite H 0 (i + 1) nodes proofDb

/-- `Prove`: the store with the proof written to it. -/
def Prove (H : Bytes → MxtChain.Hash) (t : Trie) (key : Bytes) (fromLevel : Nat)
    (proofDb : ProofDb) : Except Err ProofDb :=
  match proveNodes t.db (depth (keybytesToHex key)) t.root (keybytesToHex key) with
  | .error e => .error e
  | .ok nodes => .ok (proveWrite H fromLevel 0 nodes proofDb)

end Trie

end MxtChain.Trie
