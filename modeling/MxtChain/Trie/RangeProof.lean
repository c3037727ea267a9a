/-
# MxtChain.Trie.RangeProof — Merkle proofs for a range of keys

`VerifyRangeProof` of `trie/proof.go` and what it is made of. The verifier loads the paths of the
two edge keys from the proof, cuts out everything between them, puts the given pairs back in and
compares the root hash.

The source changes nodes in place. They are decoded for this one call and nothing else points to
them, so each function here returns the node it was given, changed. A function that clears the
slot of its node in the parent returns `drop`; the parent is asserted to be a full node there, and
`slot` has the panic if it is not.
-/
import MxtChain.Trie.Proof

namespace MxtChain.Trie

/-- `bytes.Compare`. -/
def bytesCompare {α : Type} [LT α] [DecidableLT α] : List α → List α → Ordering
  | [], [] => .eq
  | [], _ :: _ => .lt
  | _ :: _, [] => .gt
  | x :: a, y :: b => if x < y then .lt else if y < x then .gt else bytesCompare a b

/-! ## §1 — Loading the path of an edge key -/

/-- The closure `resolveNode` of `proofToPath`. -/
def resolveNode (proofDb : ProofDb) (hash : Hash) : Except Err Node :=
  match proofDb.lookup hash with
  | none => .error (.failure ("proof node (hash " ++ hexText hash.bytes ++ ") missing"))
  | some buf =>
    match decodeNode (some hash) buf with
    | .error e => .error (.failure ("bad proof node " ++ e.error))
    | .ok n => .ok n

/-- Link the parent and the child that the key leads to. -/
def linkChild (parent : Node) (key : Hex) (child : Node) : Except Err Node :=
  match parent with
  | .short nkey _ flags => .ok (.short nkey child flags)
  | .full children flags =>
    match key with
    | [] => .error (.crash "index out of range")
    | x :: _ => .ok (.full (Function.update children x child) flags)
  | _ => .error (.crash "invalid node")

/-- The loop of `proofToPath`: the node with the path of the key loaded, and the value at its
end. -/
def pathLoop (proofDb : ProofDb) (allowNonExistent : Bool) :
    Nat → Node → Hex → Except Err (Node × Option Bytes)
  | 0, _, _ => .error .diverged
  | fuel + 1, parent, key =>
    match get parent key false with
    | .error e => .error e
    | .ok (keyrest, child) =>
      -- link the child, and go on below it; what is loaded there is linked when it is done
      let descend (child : Node) : Except Err (Node × Option Bytes) :=
        match linkChild parent key child with
        | .error e => .error e
        | .ok _ =>
          match pathLoop proofDb allowNonExistent fuel child keyrest with
          | .error e => .error e
          | .ok (child, val) => (linkChild parent key child).map fun parent => (parent, val)
      match child with
      | .nil =>
        -- a proof of absence is enough to prove a range
        if allowNonExistent then .ok (parent, none)
        else .error (.failure "the node is not contained in trie")
      | .short nkey val flags => descend (.short nkey val flags)
      | .full children flags => descend (.full children flags)
      | .hash h =>
        match resolveNode proofDb h with
        | .error e => .error e
        | .ok n => descend n
      | .value v =>
        if v.length > 0 then
          match linkChild parent key (.value v) with
          | .error e => .error e
          | .ok parent => .ok (parent, some v)
        else descend (.value v)

/-- `proofToPath`, with a bound on the rounds of its loop. -/
def proofToPath (fuel : Nat) (rootHash : Hash) (root : Node) (key : Bytes) (proofDb : ProofDb)
    (allowNonExistent : Bool) : Except Err (Node × Option Bytes) :=
  match root with
  | .nil =>
    match resolveNode proofDb rootHash with
    | .error e => .error e
    | .ok n => pathLoop proofDb allowNonExistent fuel n (keybytesToHex key)
  | n => pathLoop proofDb allowNonExistent fuel n (keybytesToHex key)

/-! ## §2 — Cutting out the inside of the range -/

/-- What becomes of a node: it stays, changed, or its parent clears the slot it is in. -/
inductive Outcome where
  | keep (n : Node)
  | drop

/-- The slot of a full node with the outcome for its child. -/
def Outcome.slot : Outcome → Node
  | keep n => n
  | drop => .nil

/-- The child of a short node, which has no slot to clear: `parent.(*fullNode)` panics. -/
def Outcome.only : Outcome → Except Err Node
  | keep n => .ok n
  | drop => .error (.crash "interface conversion: trie.node is *trie.shortNode, not *trie.fullNode")

/-- The flags `nodeFlag{dirty: true}`. -/
def dirtyFlag : NodeFlag := ⟨none, true⟩

def Node.isValue : Node → Bool
  | .value _ => true
  | _ => false

/-- `unset`: remove everything on one side of the path of the key, and the end of the path. -/
def unset (removeLeft : Bool) : Node → Hex → Except Err Outcome
  | .full children _, key =>
    match key with
    | [] => .error (.crash "index out of range")
    | x :: rest =>
      let cleared : Fin 17 → Node := fun i =>
        if removeLeft then (if i < x then .nil else children i)
        else (if x < i ∧ i < 16 then .nil else children i)
      match unset removeLeft (children x) rest with
      | .error e => .error e
      | .ok o => .ok (.keep (.full (Function.update cleared x o.slot) dirtyFlag))
  | .short nkey val flags, key =>
    if key.length < nkey.length ∨ nkey ≠ key.take nkey.length then
      -- the fork point: the branch is cut off if it belongs to the range
      if bytesCompare nkey key = (if removeLeft then .lt else .gt) then .ok .drop
      else .ok (.keep (.short nkey val flags))
    else if val.isValue then .ok .drop
    else
      match unset removeLeft val (key.drop nkey.length) with
      | .error e => .error e
      | .ok o =>
        match o.only with
        | .error e => .error e
        | .ok val => .ok (.keep (.short nkey val dirtyFlag))
  | .nil, _ => .ok (.keep .nil)
  | .hash _, _ => .error (.crash "it shouldn't happen")
  | .value _, _ => .error (.crash "it shouldn't happen")

/-- The comparison `leftnode != rightnode` of two children of one full node. Nodes are compared by
pointer; hash and value nodes are slices, which cannot be compared. -/
def differ (children : Fin 17 → Node) (x y : Fin 17) : Except Err Bool :=
  match children x, children y with
  | .hash _, .hash _ => .error (.crash "comparing uncomparable type trie.hashNode")
  | .value _, .value _ => .error (.crash "comparing uncomparable type trie.valueNode")
  | _, _ => .ok (decide (x ≠ y))

/-- `unsetInternal`, from a node on with what is left of the two keys: step down to the fork point
of the two paths and cut out what is between them. -/
def unsetInternal : Node → Hex → Hex → Except Err Outcome
  | .short nkey val _, left, right =>
    let shortForkLeft := bytesCompare (left.take nkey.length) nkey
    let shortForkRight := bytesCompare (right.take nkey.length) nkey
    if shortForkLeft = .eq ∧ shortForkRight = .eq then
      match unsetInternal val (left.drop nkey.length) (right.drop nkey.length) with
      | .error e => .error e
      | .ok o =>
        match o.only with
        | .error e => .error e
        | .ok val => .ok (.keep (.short nkey val dirtyFlag))
    else if shortForkLeft = .lt ∧ shortForkRight = .lt then .error (.failure "empty range")
    else if shortForkLeft = .gt ∧ shortForkRight = .gt then .error (.failure "empty range")
    else if shortForkLeft ≠ .eq ∧ shortForkRight ≠ .eq then .ok .drop
    else if val.isValue then .ok .drop
    else
      -- only one proof points to a non-existent key; unset the path of the other one
      match (if shortForkRight ≠ .eq then unset false val (left.drop nkey.length)
        else unset true val (right.drop nkey.length)) with
      | .error e => .error e
      | .ok o =>
        match o.only with
        | .error e => .error e
        | .ok val => .ok (.keep (.short nkey val dirtyFlag))
  | .full children _, left, right =>
    match left, right with
    | x :: leftrest, y :: rightrest =>
      match (if (children x).isNil ∨ (children y).isNil then .ok true else differ children x y) with
      | .error e => .error e
      | .ok true =>
        -- unset all internal nodes in the fork point
        let cleared : Fin 17 → Node := fun i => if x < i ∧ i < y then .nil else children i
        match unset false (cleared x) leftrest with
        | .error e => .error e
        | .ok o =>
          let leftDone := Function.update cleared x o.slot
          match unset true (leftDone y) rightrest with
          | .error e => .error e
          | .ok o => .ok (.keep (.full (Function.update leftDone y o.slot) dirtyFlag))
      | .ok false =>
        match unsetInternal (children x) leftrest rightrest with
        | .error e => .error e
        | .ok o => .ok (.keep (.full (Function.update children x o.slot) dirtyFlag))
    | _, _ => .error (.crash "index out of range")
  | _, _, _ => .error (.crash "invalid node")

/-- `unsetInternal` at the root, whose parent is nil. -/
def unsetRoot (root : Node) (left right : Bytes) : Except Err Node :=
  match unsetInternal root (keybytesToHex left) (keybytesToHex right) with
  | .error e => .error e
  | .ok (.keep n) => .ok n
  | .ok .drop => .error (.crash "interface conversion: trie.node is nil, not *trie.fullNode")

/-! ## §3 — What lies to the right of a key -/

/-- `hasRightElement`, from a node on. -/
def rightElement : Node → Hex → Except Err Bool
  | .nil, _ => .ok false
  | .full children _, key =>
    match key with
    | [] => .error (.crash "index out of range")
    | x :: rest =>
      if ∃ i : Fin 17, x < i ∧ i < 16 ∧ (children i).isNil = false then .ok true
      else rightElement (children x) rest
  | .short nkey val _, key =>
    if key.length < nkey.length ∨ nkey ≠ key.take nkey.length then
      .ok (bytesCompare nkey key = .gt)
    else rightElement val (key.drop nkey.length)
  | .value _, _ => .ok false -- we have resolved the whole path
  | .hash _, _ => .error (.crash "invalid node")

def hasRightElement (node : Node) (key : Bytes) : Except Err Bool :=
  rightElement node (keybytesToHex key)

/-! ## §4 — The verifier -/

/-- The call `newtrie.TryUpdate(key, value)`: its error is dropped, a panic is not. -/
def tryUpdate (t : Trie) (key value : Bytes) : Except Err Trie :=
  match t.TryUpdate key value with
  | .ok t => .ok t
  | .error (.crash msg) => .error (.crash msg)
  | .error .diverged => .error .diverged
  | .error _ => .ok t

/-- The given pairs put into a trie. -/
def refill (t : Trie) : List (Bytes × Bytes) → Except Err Trie
  | [] => .ok t
  | (key, value) :: rest =>
    match tryUpdate t key value with
    | .error e => .error e
    | .ok t => refill t rest

/-- The comparison of the root hash of a rebuilt trie. -/
def checkRoot (H : Bytes → Hash) (rootHash : Hash) (t : Trie) : Except Err Unit :=
  match t.Hash H with
  | .error e => .error e
  | .ok (h, _) =>
    if h ≠ rootHash then .error (.failure ("invalid proof, want hash " ++ hexText rootHash.bytes ++
      ", got " ++ hexText h.bytes))
    else .ok ()

/-- The two edge paths with everything between them cut out. -/
def edgeTrie (fuel : Nat) (rootHash : Hash) (firstKey lastKey : Bytes) (proof : ProofDb) :
    Except Err Node :=
  match proofToPath fuel rootHash .nil firstKey proof true with
  | .error e => .error e
  | .ok (root, _) =>
    match proofToPath fuel rootHash root lastKey proof true with
    | .error e => .error e
    | .ok (root, _) => unsetRoot root firstKey lastKey

/-- Whether the keys are monotonically increasing. -/
def increasing : List Bytes → Bool
  | a :: b :: rest => bytesCompare a b = .lt && increasing (b :: rest)
  | _ => true

/-- `VerifyRangeProof`: the flag that says whether there are more entries, or the error. -/
def VerifyRangeProof (H : Bytes → Hash) (fuel : Nat) (rootHash : Hash) (firstKey lastKey : Bytes)
    (keys values : List Bytes) (proof : Option ProofDb) : Except Err Bool :=
  if keys.length ≠ values.length then
    .error (.failure ("inconsistent proof data, keys: " ++ toString keys.length ++ ", values: " ++
      toString values.length))
  else if increasing keys = false then .error (.failure "range is not monotonically increasing")
  else
    match proof with
    | none =>
      -- no edge proof: the range is expected to be the whole leaf-set of the trie
      match refill ⟨NewDatabase ∅ ∅, .nil⟩ (keys.zip values) with
      | .error e => .error e
      | .ok t => (checkRoot H rootHash t).map fun _ => false
    | some proof =>
      match keys with
      | [] =>
        -- zero elements: there must be no more entries in the trie
        match proofToPath fuel rootHash .nil firstKey proof true with
        | .error e => .error e
        | .ok (_, some _) => .error (.failure "more entries available")
        | .ok (root, none) =>
          match hasRightElement root firstKey with
          | .error e => .error e
          | .ok true => .error (.failure "more entries available")
          | .ok false => .ok false
      | key :: keys =>
        if keys = [] ∧ firstKey = lastKey then
          -- one element with one edge key: there are no two edge paths
          match proofToPath fuel rootHash .nil firstKey proof false with
          | .error e => .error e
          | .ok (root, val) =>
            if firstKey ≠ key then .error (.failure "correct proof but invalid key")
            else if val.getD [] ≠ values.headD [] then
              .error (.failure "correct proof but invalid data")
            else hasRightElement root firstKey
        else if bytesCompare firstKey lastKey ≠ .lt then .error (.failure "invalid edge keys")
        else if firstKey.length ≠ lastKey.length then .error (.failure "inconsistent edge keys")
        else
          match edgeTrie fuel rootHash firstKey lastKey proof with
          | .error e => .error e
          | .ok root =>
            match refill ⟨NewDatabase ∅ ∅, root⟩ ((key :: keys).zip values) with
            | .error e => .error e
            | .ok t =>
              match checkRoot H rootHash t with
              | .error e => .error e
              -- the tree before the pairs were put back is searched
              | .ok () => hasRightElement root ((key :: keys).getLast (List.cons_ne_nil _ _))

end MxtChain.Trie
