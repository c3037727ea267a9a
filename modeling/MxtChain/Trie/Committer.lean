/-
# MxtChain.Trie.Committer — writing a hashed trie to the database

`trie/committer.go` runs over a trie whose hashes have just been computed, replaces every node
that has a hash by it and inserts the collapsed node into the database, children before parents.
With a leaf callback the insertions are handed to a goroutine through a channel, which inserts
them in the order they were sent; the callback is not modelled here.
-/
import MxtChain.Trie.Database
import MxtChain.Trie.Hasher

namespace MxtChain.Trie

/-- The type test `n.(*fullNode)`. -/
def Node.isFull : Node → Bool
  | .full _ _ => true
  | _ => false

namespace Committer

/-- `committer.store`: a node without a hash is small and stays part of its parent; the others go
to the database. -/
def store (hash : Option Hash) (n : RawNode) (db : Database) : Except Err (RawNode × Database) :=
  match hash with
  | none => .ok (n, db)
  | some h =>
    match db.insert h n.estimateSize n with
    | .error e => .error e
    | .ok db => .ok (.hash h, db)

/-- The loop of `commitChildren` over the children `0 … 15`, with the commit of a child given. -/
def commitLoop (commit : Fin 17 → Database → Except Err (RawNode × Database))
    (children : Fin 17 → Node) : List (Fin 17) → (Fin 17 → RawNode) → Database →
    Except Err ((Fin 17 → RawNode) × Database)
  | [], acc, db => .ok (acc, db)
  | i :: is, acc, db =>
    match children i with
    | .nil => commitLoop commit children is acc db
    -- a hashed child is saved directly
    | .hash h => commitLoop commit children is (Function.update acc i (.hash h)) db
    | _ =>
      match commit i db with
      | .error e => .error e
      | .ok (hashed, db) => commitLoop commit children is (Function.update acc i hashed) db

def commitChildren (commit : Fin 17 → Database → Except Err (RawNode × Database))
    (children : Fin 17 → Node) (db : Database) :
    Except Err ((Fin 17 → RawNode) × Database) :=
  match commitLoop commit children sixteen (fun _ => .nil) db with
  | .error e => .error e
  | .ok (kids, db) => .ok (Function.update kids 16 (children 16).asIs, db)

def commit : Node → Database → Except Err (RawNode × Database)
  | .short key val flags, db =>
    -- if this path is clean, use available cached data
    match flags.hash, flags.dirty with
    | some h, false => .ok (.hash h, db)
    | hash, _ =>
      -- a full node is committed, otherwise the child can only be a hash or a value
      match (if val.isFull then commit val db else .ok (val.asIs, db)) with
      | .error e => .error e
      | .ok (childV, db) => store hash (.short (hexToCompact key) childV) db
  | .full children flags, db =>
    match flags.hash, flags.dirty with
    | some h, false => .ok (.hash h, db)
    | hash, _ =>
      match commitChildren (fun i db => commit (children i) db) children db with
      | .error e => .error e
      | .ok (kids, db) => store hash (.full kids) db
  | .hash h, db => .ok (.hash h, db)
  | .nil, _ => .error (.crash "invalid node: <nil>")
  | .value _, _ => .error (.crash "invalid node: valueNode")

/-- `committer.Commit`: the type assertion on the result fails if the root has no hash. -/
def Commit (n : Node) (db : Database) : Except Err (Hash × Database) :=
  match commit n db with
  | .error e => .error e
  | .ok (.hash h, db) => .ok (h, db)
  | .ok _ => .error (.crash "interface conversion: node is not hashNode")

end Committer

end MxtChain.Trie
