/-
# MxtChain.Core.Rawdb — the chain data in the key-value store.

The accessors of `core/rawdb/accessors_chain.go` and `accessors_indexes.go` that the header chain and
the block chain use. Every prefix of the store is a map of its own, and a value is what decoding
gives back, not its bytes. What is written through a batch is not seen before the batch is written.

Numbers are natural numbers: a block whose number does not fit into 64 bits would have that many
ancestors. The freezer is left out, so all reads go to the key-value store.
-/
import MxtChain.Consensus.Header
import MxtChain.Lib.GoMap

namespace MxtChain.Chain

open Lib Consensus

/-- The prefixes of the store. -/
structure ChainDb where
  /-- `headerTDKey(number, hash)` -/
  td : GoMap (Nat × Hash) Nat
  /-- `headerKey(number, hash)` -/
  header : GoMap (Nat × Hash) Header
  /-- `headerNumberKey(hash)` -/
  headerNumber : GoMap Hash Nat
  /-- `blockBodyKey(number, hash)`: the hashes of the transactions -/
  body : GoMap (Nat × Hash) (List Hash)
  /-- `headerHashKey(number)` -/
  canonicalHash : GoMap Nat Hash
  /-- `txLookupKey(hash)` -/
  txLookup : GoMap Hash Nat
  headHeaderHash : Hash
  headBlockHash : Hash
  headFastBlockHash : Hash

def ChainDb.empty : ChainDb where
  td := .empty
  header := ⟨[], fun _ => {}⟩
  headerNumber := .empty
  body := .empty
  canonicalHash := .empty
  txLookup := .empty
  headHeaderHash := Hash.zero
  headBlockHash := Hash.zero
  headFastBlockHash := Hash.zero

/-- One write, into the store or into a batch. -/
inductive Op where
  | WriteTd (hash : Hash) (number td : Nat)
  | WriteHeader (hash : Hash) (header : Header)
  | WriteBody (hash : Hash) (number : Nat) (body : List Hash)
  | WriteCanonicalHash (hash : Hash) (number : Nat)
  | DeleteCanonicalHash (number : Nat)
  | WriteTxLookupEntry (tx : Hash) (number : Nat)
  | DeleteTxLookupEntry (tx : Hash)
  | WriteHeadHeaderHash (hash : Hash)
  | WriteHeadBlockHash (hash : Hash)
  | WriteHeadFastBlockHash (hash : Hash)

/-- The store after one write. -/
def ChainDb.apply (db : ChainDb) : Op → ChainDb
  | .WriteTd hash number td => { db with td := db.td.insert (number, hash) td }
  | .WriteHeader hash header =>
    { db with
      headerNumber := db.headerNumber.insert hash header.number
      header := db.header.insert (header.number, hash) header }
  | .WriteBody hash number body => { db with body := db.body.insert (number, hash) body }
  | .WriteCanonicalHash hash number =>
    { db with canonicalHash := db.canonicalHash.insert number hash }
  | .DeleteCanonicalHash number => { db with canonicalHash := db.canonicalHash.erase number }
  | .WriteTxLookupEntry tx number => { db with txLookup := db.txLookup.insert tx number }
  | .DeleteTxLookupEntry tx => { db with txLookup := db.txLookup.erase tx }
  | .WriteHeadHeaderHash hash => { db with headHeaderHash := hash }
  | .WriteHeadBlockHash hash => { db with headBlockHash := hash }
  | .WriteHeadFastBlockHash hash => { db with headFastBlockHash := hash }

def ChainDb.Write (db : ChainDb) (batch : List Op) : ChainDb := batch.foldl ChainDb.apply db

/-- `ReadCanonicalHash`: the zero hash if there is none. -/
def ChainDb.ReadCanonicalHash (db : ChainDb) (number : Nat) : Hash :=
  (db.canonicalHash.find? number).getD Hash.zero

/-- The loop of `for i := number + 1; ; i++` that deletes canonical hashes up to the first gap, with
a bound on its rounds. -/
def ChainDb.deleteFrom (db : ChainDb) : Nat → Nat → Option (List Op)
  | 0, _ => none
  | fuel + 1, i =>
    if db.ReadCanonicalHash i = Hash.zero then some []
    else (db.deleteFrom fuel (i + 1)).map fun ops => .DeleteCanonicalHash i :: ops

/-- The loop ends at a number that has no entry, so there cannot be more rounds than entries. -/
def ChainDb.deleteAbove (db : ChainDb) (number : Nat) : Option (List Op) :=
  db.deleteFrom (db.canonicalHash.keys.length + 1) (number + 1)

/-! ## What a batch does -/

theorem ChainDb.write_append (db : ChainDb) (b b' : List Op) :
    db.Write (b ++ b') = (db.Write b).Write b' :=
  List.foldl_append

variable {batch : List Op} {db : ChainDb} {top i stop : Nat}

/-- **What no write of a batch changes**, the batch does not change. -/
theorem ChainDb.write_keeps {α : Type} (part : ChainDb → α)
    (h : ∀ op ∈ batch, ∀ db : ChainDb, part (db.apply op) = part db) (db : ChainDb) :
    part (db.Write batch) = part db := by
  induction batch generalizing db with
  | nil => rfl
  | cons op batch ih =>
    have hrest := ih (fun o ho => h o (List.mem_cons_of_mem _ ho)) (db.apply op)
    exact hrest.trans (h op List.mem_cons_self db)

/-- The write is one of an index or a marker, not one of a part of a block. -/
def Op.IsIndex : Op → Prop
  | .WriteTd .. | .WriteHeader .. | .WriteBody .. => False
  | _ => True

theorem ChainDb.write_index (h : ∀ op ∈ batch, op.IsIndex) (db : ChainDb) :
    (db.Write batch).td = db.td ∧ (db.Write batch).header = db.header ∧
      (db.Write batch).body = db.body := by
  have hkeeps := write_keeps (fun db => (db.td, db.header, db.body)) (fun op hop db => by
    have hindex := h op hop
    cases op with
    | WriteTd | WriteHeader | WriteBody => exact hindex.elim
    | _ => rfl) db
  simpa only [Prod.mk.injEq] using hkeeps

/-- The canonical hash of a number after a write. -/
def Op.canonicalAt (f : Nat → Option Hash) : Op → Nat → Option Hash
  | .WriteCanonicalHash hash number, i => if i = number then some hash else f i
  | .DeleteCanonicalHash number, i => if i = number then none else f i
  | _, i => f i

theorem ChainDb.find?_canonical_apply (db : ChainDb) (op : Op) (i : Nat) :
    (db.apply op).canonicalHash.find? i = op.canonicalAt db.canonicalHash.find? i := by
  cases op with
  | WriteCanonicalHash hash number => exact GoMap.find?_insert ..
  | DeleteCanonicalHash number => exact GoMap.find?_erase ..
  | _ => rfl

/-- The index that is read, for an index without zero hashes. -/
theorem ChainDb.readCanonicalHash_eq_iff {h : Hash} (hz : h ≠ Hash.zero) :
    db.ReadCanonicalHash i = h ↔ db.canonicalHash.find? i = some h := by
  unfold ReadCanonicalHash
  cases db.canonicalHash.find? i with
  | none => simpa using hz.symm
  | some g => simp

/-- The numbers with a canonical hash are those below `top`. -/
structure ChainDb.Filled (db : ChainDb) (top : Nat) : Prop where
  below : ∀ i, i < top → db.ReadCanonicalHash i ≠ Hash.zero
  above : ∀ i, top ≤ i → db.canonicalHash.find? i = none

theorem ChainDb.Filled.read_above (h : db.Filled top) (hi : top ≤ i) :
    db.ReadCanonicalHash i = Hash.zero := by
  rw [ReadCanonicalHash, h.above i hi]
  rfl

/-- There are at least as many keys as numbers with an entry. -/
theorem ChainDb.Filled.le_length_keys (h : db.Filled top) : top ≤ db.canonicalHash.keys.length := by
  have hsub : List.range top ⊆ db.canonicalHash.keys := by
    intro i hi
    by_contra hnot
    refine h.below i (List.mem_range.mp hi) ?_
    rw [ReadCanonicalHash, show db.canonicalHash.find? i = none from if_neg hnot]
    rfl
  simpa using (List.nodup_range.subperm hsub).length_le

/-- The loop that deletes upwards stops at the first number without an entry. -/
theorem ChainDb.deleteFrom_eq
    (hend : db.ReadCanonicalHash stop = Hash.zero) : ∀ {fuel i : Nat}, i ≤ stop →
      stop - i < fuel → (∀ j, i ≤ j → j < stop → db.ReadCanonicalHash j ≠ Hash.zero) →
      db.deleteFrom fuel i = some ((List.range' i (stop - i)).map .DeleteCanonicalHash)
  | 0, i, _, hfuel, _ => absurd hfuel (Nat.not_lt_zero _)
  | fuel + 1, i, hi, hfuel, hall => by
    rcases Nat.eq_or_lt_of_le hi with rfl | hlt
    · rw [deleteFrom, if_pos hend, Nat.sub_self]
      rfl
    have hrest : db.deleteFrom fuel (i + 1) = _ :=
      deleteFrom_eq hend hlt (by omega) fun j hj => hall j (by omega)
    obtain ⟨n, hn⟩ : ∃ n, stop - i = n + 1 := ⟨stop - i - 1, by omega⟩
    have hn' : stop - (i + 1) = n := by omega
    rw [deleteFrom, if_neg (hall i le_rfl hlt), hrest, hn, hn']
    rfl

/-- **Deleting upwards** ends, and deletes every entry above the number. -/
theorem ChainDb.Filled.deleteAbove (h : db.Filled top) (number : Nat) : db.deleteAbove number =
      some ((List.range' (number + 1) (top - (number + 1))).map .DeleteCanonicalHash) := by
  have hkeys := h.le_length_keys
  rcases Nat.le_total (number + 1) top with hle | hge
  · exact ChainDb.deleteFrom_eq (h.read_above le_rfl) hle (by omega) fun j _ hj => h.below j hj
  have hnone : top - (number + 1) = 0 := Nat.sub_eq_zero_of_le hge
  have hdel : db.deleteFrom (db.canonicalHash.keys.length + 1) (number + 1) = _ :=
    ChainDb.deleteFrom_eq (h.read_above hge) le_rfl (by omega) fun j hj hj' => by omega
  rw [hnone, ChainDb.deleteAbove, hdel, Nat.sub_self]

theorem ChainDb.find?_write_delete (db : ChainDb) (l : List Nat) (i : Nat) :
    (db.Write (l.map .DeleteCanonicalHash)).canonicalHash.find? i =
      if i ∈ l then none else db.canonicalHash.find? i := by
  induction l generalizing db with
  | nil => rfl
  | cons n l ih =>
    rw [List.map_cons, show db.Write (.DeleteCanonicalHash n :: l.map .DeleteCanonicalHash) =
      (db.apply (.DeleteCanonicalHash n)).Write (l.map .DeleteCanonicalHash) from rfl, ih,
      find?_canonical_apply, Op.canonicalAt]
    by_cases hi : i = n
    · simp [hi]
    · simp [hi]

/-! ## What the lookup entries are after a batch -/

theorem ChainDb.find?_write_lookups (db : ChainDb) (txs : List Hash) (number : Nat) (t : Hash) :
    (db.Write (txs.map fun tx => .WriteTxLookupEntry tx number)).txLookup.find? t =
      if t ∈ txs then some number else db.txLookup.find? t := by
  induction txs generalizing db with
  | nil => rfl
  | cons tx txs ih =>
    show (ChainDb.Write (db.apply (.WriteTxLookupEntry tx number)) _).txLookup.find? t = _
    rw [ih]
    show (if t ∈ txs then some number else (db.txLookup.insert tx number).find? t) = _
    rw [GoMap.find?_insert]
    by_cases ht : t = tx
    · simp [ht]
    · simp [ht]

theorem ChainDb.find?_write_deleteTx (db : ChainDb) (txs : List Hash) (t : Hash) :
    (db.Write (txs.map .DeleteTxLookupEntry)).txLookup.find? t =
      if t ∈ txs then none else db.txLookup.find? t := by
  induction txs generalizing db with
  | nil => rfl
  | cons tx txs ih =>
    show (ChainDb.Write (db.apply (.DeleteTxLookupEntry tx)) _).txLookup.find? t = _
    rw [ih]
    show (if t ∈ txs then none else (db.txLookup.erase tx).find? t) = _
    rw [GoMap.find?_erase]
    by_cases ht : t = tx
    · simp [ht]
    · simp [ht]

end MxtChain.Chain
