/-
# MxtChain.Trie.DatabaseView — the database as a store of nodes

For the tries above it the database is a map from hashes to collapsed nodes that only grows.
`nodeAt` is that map; reference counts, sizes and flush-list links are forgotten. `insert`
extends it by one node and changes nothing else.
-/
import MxtChain.Trie.Represents
import MxtChain.Trie.Trie

namespace MxtChain.Trie

open Lib.Patricia

/-! ## §1 — The node under a hash -/

/-- The collapsed node that the cache has under a hash. -/
def nodeAt (m : Map Hash CachedNode) (h : Hash) : Option RawNode := (m.lookup h).map (·.node)

variable {t : Content} {db : Database} {m : Map Hash CachedNode} {H : Bytes → Hash}

theorem nodeAt_eq_none {h : Hash} : nodeAt m h = none ↔ h ∉ m := by
  rw [nodeAt, Option.map_eq_none_iff, AList.lookup_eq_none]

theorem nodeAt_insert (m : Map Hash CachedNode) (k h : Hash) (c : CachedNode) :
    nodeAt (m.insert k c) h = if h = k then some c.node else nodeAt m h := by
  by_cases hk : h = k
  · subst hk
    simp [nodeAt]
  · simp [nodeAt, hk]

/-- Replacing an entry by one with the same node does not show. -/
theorem nodeAt_insert_same {k : Hash} {c c' : CachedNode} (hc : m.lookup k = some c)
    (hn : c'.node = c.node) (h : Hash) : nodeAt (m.insert k c') h = nodeAt m h := by
  rw [nodeAt_insert]
  split
  · rename_i hk
    rw [hk, nodeAt, hc, hn]
    rfl
  · rfl

theorem nodeAt_addParent (m : Map Hash CachedNode) (k h : Hash) :
    nodeAt (addParent m k) h = nodeAt m h := by
  unfold addParent
  split
  · rfl
  · rename_i c hc
    refine nodeAt_insert_same hc ?_ h
    rfl

theorem nodeAt_foldl_addParent (l : List Hash) (m : Map Hash CachedNode) (h : Hash) :
    nodeAt (l.foldl addParent m) h = nodeAt m h := by
  induction l generalizing m with
  | nil => rfl
  | cons k l ih => rw [List.foldl_cons, ih, nodeAt_addParent]

theorem modifyEntry_ok {k : Hash} (hk : k ∈ m) (f : CachedNode → CachedNode) :
    ∃ c, m.lookup k = some c ∧
      modifyEntry m k f = .ok (m.insert k (f c)) := by
  obtain ⟨c, hc⟩ := Option.isSome_iff_exists.mp (AList.lookup_isSome.mpr hk)
  exact ⟨c, hc, by rw [modifyEntry, hc]⟩

/-- The end of the flush list is there to be linked to. -/
def TailOK (db : Database) : Prop := db.oldest ≠ Hash.zero → db.newest ∈ db.dirties

/-- **`insert` extends the store by one node.** -/
theorem Database.insert_spec (htail : TailOK db) (hash : Hash) (size : Nat) (node : RawNode) :
    ∃ db', db.insert hash size node = .ok db' ∧ TailOK db' ∧ ∀ h, nodeAt db'.dirties h =
        if h = hash ∧ hash ∉ db.dirties then some node else nodeAt db.dirties h := by
  by_cases hin : hash ∈ db.dirties
  · refine ⟨db, by rw [Database.insert, if_pos hin], htail, fun h => ?_⟩
    rw [if_neg (fun hc => hc.2 hin)]
  have hview : ∀ entry : CachedNode, entry.node = node → ∀ h,
      nodeAt ((node.gatherChildren.foldl addParent db.dirties).insert hash entry) h =
        if h = hash ∧ hash ∉ db.dirties then some node else nodeAt db.dirties h := by
    intro entry he h
    rw [nodeAt_insert, nodeAt_foldl_addParent, he]
    simp only [hin, not_false_eq_true, and_true]
  rw [Database.insert, if_neg hin]
  by_cases hold : db.oldest = Hash.zero
  · simp only [if_pos hold]
    exact ⟨_, rfl, fun _ => (AList.mem_insert _).mpr (.inl rfl), hview _ rfl⟩
  simp only [if_neg hold]
  have hmem : db.newest ∈ node.gatherChildren.foldl addParent db.dirties := by
    rw [← not_not (a := db.newest ∈ _), ← nodeAt_eq_none, nodeAt_foldl_addParent,
      nodeAt_eq_none, not_not]
    exact htail hold
  have hmem' : db.newest ∈ (node.gatherChildren.foldl addParent db.dirties).insert hash
      (newEntry node size db.newest) := (AList.mem_insert _).mpr (.inr hmem)
  obtain ⟨c, hc, hmod⟩ := modifyEntry_ok hmem' fun c => { c with flushNext := hash }
  simp only [hmod]
  refine ⟨_, rfl, fun _ => ?_, fun h => ?_⟩
  · exact (AList.mem_insert _).mpr (.inr ((AList.mem_insert _).mpr (.inl rfl)))
  · rw [nodeAt_insert_same hc, hview _ rfl]
    rfl

/-! ## §2 — Trees in the store -/

/-- The tree's top node is cached under its hash. -/
def Holds (H : Bytes → Hash) (db : Database) (t : Content) : Prop :=
  nodeAt db.dirties (hashOf H t) = some (collapsed H t)

/-- **The tree is stored**: its top node, and every node below that is referred to by hash. -/
def Stored (H : Bytes → Hash) (db : Database) (t : Content) : Prop :=
  Holds H db t ∧ Below H (Holds H db) t

/-- **A database of trie nodes**: every entry is the collapsed node of a minimal tree, under the
hash of that tree. -/
structure DbOK (H : Bytes → Hash) (E : List Bytes) (db : Database) : Prop where
  entries : ∀ h raw, nodeAt db.dirties h = some raw → h ≠ Hash.zero →
    ∃ u, Minimal terminator u ∧ Storable u ∧ encodings H u ⊆ E ∧ h = hashOf H u ∧
      raw = collapsed H u
  tail : TailOK db

theorem dbOK_new (E : List Bytes) (disk pre : Map Hash Bytes) :
    DbOK H E (NewDatabase disk pre) where
  entries h raw he hz := by
    have hnone : nodeAt (NewDatabase disk pre).dirties h = none := by
      rw [nodeAt_eq_none]
      intro hm
      simp only [NewDatabase, AList.mem_keys, AList.keys_singleton, List.mem_singleton] at hm
      exact hz hm
    rw [hnone] at he
    cases he
  tail h := absurd rfl h

/-- Everything below a stored tree is stored. -/
theorem below_stored : ∀ {t : Content}, Below H (Holds H db) t → Below H (Stored H db) t := by
  intro t
  induction t with
  | nil | value v => intro _; trivial
  | short k c ih => intro h; exact ⟨fun hi hl => ⟨h.1 hi hl, h.2⟩, ih h.2⟩
  | full cs ih => intro h i; exact ⟨fun hi hl => ⟨(h i).1 hi hl, (h i).2⟩, ih i (h i).2⟩

theorem Stored.mono {db' : Database} (hh : ∀ u, Holds H db u → Holds H db' u) (h : Stored H db t) :
    Stored H db' t :=
  ⟨hh t h.1, h.2.mono hh⟩

/-- **Loading a stored tree** gives its expanded node. -/
theorem resolveHash_of_holds (hi : IsInner t) (h : Holds H db t) (path : Hex) :
    Trie.resolveHash db (hashOf H t) path =
      .ok (expandNode (some (hashOf H t)) (collapsed H t)) := by
  obtain ⟨c, hc, hn⟩ := Option.map_eq_some_iff.mp h
  have hobj : c.obj (hashOf H t) = .ok (expandNode (some (hashOf H t)) (collapsed H t)) := by
    rw [CachedNode.obj, hn]
    cases t with
    | nil | value v => cases hi
    | short k c | full cs => rfl
  rw [Trie.resolveHash, Database.node, hc]
  simp only [hobj]
  rfl

/-- Inserting the node of a tree under its hash: the tree is in the store afterwards, also if
there was an entry under the hash already, since hashes do not collide. -/
theorem DbOK.insert {E : List Bytes} (cf : CollisionFree H E) (hdb : DbOK H E db)
    (hm : Minimal terminator t) (hs : Storable t) (he : encodings H t ⊆ E) (size : Nat) :
    ∃ db', db.insert (hashOf H t) size (collapsed H t) = .ok db' ∧
      DbOK H E db' ∧ Holds H db' t ∧ ∀ u, Holds H db u → Holds H db' u := by
  obtain ⟨db', hins, htail, hview⟩ := Database.insert_spec hdb.tail (hashOf H t) size
    (collapsed H t)
  refine ⟨db', hins, ⟨fun h raw hraw hz => ?_, htail⟩, ?_, fun u hu => ?_⟩
  · rw [hview] at hraw
    split at hraw
    · rename_i hc
      exact ⟨t, hm, hs, he, hc.1, (Option.some.inj hraw).symm⟩
    · exact hdb.entries h raw hraw hz
  · rw [Holds, hview]
    split
    · rfl
    rename_i hc
    have hin : hashOf H t ∈ db.dirties := by
      by_contra hn
      exact hc ⟨rfl, hn⟩
    cases hraw : nodeAt db.dirties (hashOf H t) with
    | none => exact absurd hin (nodeAt_eq_none.mp hraw)
    | some raw =>
      obtain ⟨u, hmu, hsu, heu, hhu, rfl⟩ := hdb.entries _ raw hraw
        (cf.hashOf_ne_zero (isInner_of_minimal hm) he)
      rw [hashOf_inj cf hm hs (formed_of_minimal hmu hsu) he heu hhu]
  · rw [Holds, hview, if_neg]
    · exact hu
    · rintro ⟨hh, hn⟩
      rw [← hh] at hn
      rw [Holds, nodeAt_eq_none.mpr hn] at hu
      cases hu

end MxtChain.Trie
