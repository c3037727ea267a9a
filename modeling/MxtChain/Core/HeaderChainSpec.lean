/-
# MxtChain.Core.HeaderChainSpec — the header chain is consistent.

For every tree of headers over one genesis header and every order of `WriteHeader` calls in which
parents come first, whatever the tie breaks: no call fails, stored total difficulties are sums along
the line of ancestors, the head has the greatest one, the canonical index is that of the head's line
and nothing else, and `GetAncestor` finds the ancestor unless its budget is too small.

The invariant has two parts. `Stored` says what the store and the caches have of the headers written
so far; reading keeps it and everything else (`Reads`). `Headed` is about the head and the index.
-/
import MxtChain.Core.HeaderChain
import MxtChain.Lib.Ancestry

namespace MxtChain.Chain

open Lib Consensus List BlockTree

/-! ## §1 — Trees of headers -/

/-- **A tree of headers** over one genesis header. Headers are told apart by their hashes, and none
has the zero hash. -/
structure HeaderTree (hash : Header → Hash) where
  genesis : Header
  mem : Header → Prop
  genesis_mem : mem genesis
  number_genesis : genesis.number = 0
  parent_mem : ∀ h, mem h → h ≠ genesis →
    ∃ p, mem p ∧ hash p = h.parentHash ∧ h.number = p.number + 1
  hash_inj : ∀ a b, mem a → mem b → hash a = hash b → a = b
  hash_ne_zero : ∀ h, mem h → hash h ≠ Hash.zero

namespace HeaderTree

variable {hash : Header → Hash}

def tree (T : HeaderTree hash) : BlockTree Header Hash where
  key := hash
  parent := Header.parentHash
  height := Header.number
  root := T.genesis
  mem := T.mem
  root_mem := T.genesis_mem
  height_root := T.number_genesis
  parent_mem := T.parent_mem
  key_inj := T.hash_inj

/-- The ancestors of a header from the genesis header on, and the header itself. -/
def Line (T : HeaderTree hash) (h : Header) (l : List Header) : Prop := T.tree.Line h l

/-- Headers of the tree in an order in which parents come first; the genesis header is there from
the start. -/
def ParentsFirst (T : HeaderTree hash) (calls : List Header) : Prop :=
  ∀ pre h, pre ++ [h] <+: calls → T.mem h ∧ h ≠ T.genesis ∧
    ∃ p ∈ T.genesis :: pre, hash p = h.parentHash

end HeaderTree

/-- The sum of difficulties along a line. -/
def totalDifficulty (l : List Header) : Nat := (l.map Header.difficulty).sum

section Spec

variable {hash : Header → Hash} {T : HeaderTree hash} {W as : List Header}
  {hc hc' hc'' : HeaderChain} {h b p : Header} {l m : List Header}

theorem totalDifficulty_append (l : List Header) (b : Header) :
    totalDifficulty (l ++ [b]) = b.difficulty + totalDifficulty l := by
  simp [totalDifficulty, Nat.add_comm]

/-! ## §2 — What the store has -/

/-- The store and the caches have the headers `W`, with their total difficulties. -/
structure Stored (T : HeaderTree hash) (W : List Header) (hc : HeaderChain) : Prop where
  mem : ∀ h ∈ W, T.mem h
  closed : ∀ h ∈ W, h ≠ T.genesis → ∃ p ∈ W, hash p = h.parentHash
  header : ∀ h ∈ W, hc.chainDb.header.find? (h.number, hash h) = some h
  td : ∀ h ∈ W, ∀ l, T.Line h l → hc.chainDb.td.find? (h.number, hash h) = some (totalDifficulty l)
  headers : hc.headerCache.All fun k h => h ∈ W ∧ hash h = k
  tds : hc.tdCache.All fun k td => ∃ h ∈ W, hash h = k ∧ ∀ l, T.Line h l → td = totalDifficulty l

theorem Stored.written (hs : Stored T W hc) : T.tree.Closed W := ⟨hs.mem, hs.closed⟩

/-- Only the caches differ. -/
structure Reads (T : HeaderTree hash) (W : List Header) (hc hc' : HeaderChain) : Prop where
  stored : Stored T W hc'
  chainDb : hc'.chainDb = hc.chainDb
  currentHeader : hc'.currentHeader = hc.currentHeader
  currentHeaderHash : hc'.currentHeaderHash = hc.currentHeaderHash

theorem Reads.refl (hs : Stored T W hc) : Reads T W hc hc := ⟨hs, rfl, rfl, rfl⟩

theorem Reads.trans (h : Reads T W hc hc') (h' : Reads T W hc' hc'') : Reads T W hc hc'' where
  stored := h'.stored
  chainDb := h'.chainDb.trans h.chainDb
  currentHeader := h'.currentHeader.trans h.currentHeader
  currentHeaderHash := h'.currentHeaderHash.trans h.currentHeaderHash

theorem Stored.with_tdCache (hs : Stored T W hc) {cache : Lru Hash Nat}
    (hcache : cache.All fun k td => ∃ h ∈ W, hash h = k ∧ ∀ l, T.Line h l → td = totalDifficulty l) :
    Reads T W hc { hc with tdCache := cache } :=
  ⟨{ hs with tds := hcache }, rfl, rfl, rfl⟩

theorem Stored.with_headerCache (hs : Stored T W hc) {cache : Lru Hash Header}
    (hcache : cache.All fun k h => h ∈ W ∧ hash h = k) :
    Reads T W hc { hc with headerCache := cache } :=
  ⟨{ hs with headers := hcache }, rfl, rfl, rfl⟩

/-- **Reading a total difficulty** that is in the store, when the cache has nothing else for it. -/
theorem GetTd_eq {P : Hash → Nat → Prop} {k : Hash} {n td : Nat} (hcache : hc.tdCache.All P)
    (hfind : hc.chainDb.td.find? (n, k) = some td) (hP : P k td) (honly : ∀ td', P k td' → td' = td) :
    ∃ cache, hc.GetTd k n = (some td, { hc with tdCache := cache }) ∧ cache.All P := by
  obtain ⟨hfound, hall⟩ := hcache.get k
  unfold HeaderChain.GetTd
  rcases hget : hc.tdCache.get k with ⟨_ | td', cache⟩
  · -- not cached
    simp only [hfind]
    exact ⟨_, rfl, hcache.add hP⟩
  · rw [hget] at hfound hall
    rw [honly td' (hfound td' rfl)]
    exact ⟨_, rfl, hall⟩

/-- **The total difficulty** of a written header is found. -/
theorem Stored.GetTd (hs : Stored T W hc) (hh : h ∈ W) (hl : T.Line h l) :
    ∃ hc', hc.GetTd (hash h) h.number = (some (totalDifficulty l), hc') ∧ Reads T W hc hc' := by
  have honly : ∀ td, (∃ h' ∈ W, hash h' = hash h ∧ ∀ l, T.Line h' l → td = totalDifficulty l) →
      td = totalDifficulty l := by
    rintro td ⟨h', hh', hk, htd⟩
    obtain rfl := T.hash_inj _ _ (hs.mem h' hh') (hs.mem h hh) hk
    exact htd l hl
  obtain ⟨cache, hget, hcache⟩ := GetTd_eq hs.tds (hs.td h hh l hl)
    ⟨h, hh, rfl, fun l' hl' => by rw [hl.unique hl']⟩ honly
  exact ⟨_, hget, hs.with_tdCache hcache⟩

/-- **A written header** is found. -/
theorem Stored.GetHeader (hs : Stored T W hc) (hh : h ∈ W) :
    ∃ hc', hc.GetHeader (hash h) h.number = (some h, hc') ∧ Reads T W hc hc' := by
  obtain ⟨hfound, hall⟩ := hs.headers.get (hash h)
  unfold HeaderChain.GetHeader
  rcases hget : hc.headerCache.get (hash h) with ⟨_ | h', cache⟩
  · simp only [hs.header h hh]
    exact ⟨_, rfl, hs.with_headerCache (hs.headers.add ⟨hh, rfl⟩)⟩
  rw [hget] at hfound hall
  obtain ⟨hh', hk⟩ := hfound h' rfl
  obtain rfl := T.hash_inj _ _ (hs.mem h' hh') (hs.mem h hh) hk
  exact ⟨_, rfl, hs.with_headerCache hall⟩

theorem Stored.parent (hs : Stored T W hc) (hh : h ∈ W) (hl : T.Line h l) (hn : h.number ≠ 0) :
    ∃ p l', p ∈ W ∧ l = l' ++ [h] ∧ T.Line p l' ∧ hash p = h.parentHash ∧ h.number = p.number + 1 :=
  hs.written.exists_parent hh hl hn

/-! ## §3 — The canonical index -/

/-- The head and the index. -/
structure Headed (T : HeaderTree hash) (W : List Header) (hc : HeaderChain) (l : List Header) :
    Prop where
  mem : hc.currentHeader ∈ W
  hash_eq : hc.currentHeaderHash = hash hc.currentHeader
  line : T.Line hc.currentHeader l
  index : ∀ i, hc.chainDb.canonicalHash.find? i = T.tree.index l i
  most : ∀ h ∈ W, ∀ m, T.Line h m → totalDifficulty m ≤ totalDifficulty l

theorem Reads.headed (hr : Reads T W hc hc') (hh : Headed T W hc l) : Headed T W hc' l where
  mem := hr.currentHeader ▸ hh.mem
  hash_eq := by rw [hr.currentHeaderHash, hr.currentHeader, hh.hash_eq]
  line := hr.currentHeader ▸ hh.line
  index := hr.chainDb ▸ hh.index
  most := hh.most

/-- Reading the index at a number: it is the hash of the header that the line has there. -/
theorem read_canonical_iff (hindex : ∀ i, hc.chainDb.canonicalHash.find? i = T.tree.index l i)
    (hl : T.Line b l) (hm : T.mem h) {i : Nat} :
    hc.chainDb.ReadCanonicalHash i = hash h ↔ l[i]? = some h := by
  rw [ChainDb.readCanonicalHash_eq_iff (T.hash_ne_zero h hm), hindex, index, Option.map_eq_some_iff]
  constructor
  · rintro ⟨x, hx, hk⟩
    rw [hx, T.hash_inj _ _ (hl.mem_getElem hx) hm hk]
  · intro hx
    exact ⟨h, hx, rfl⟩

/-- The write that marks a header as canonical. -/
def mark (hash : Header → Hash) (a : Header) : Op := .WriteCanonicalHash (hash a) a.number

/-- Marking headers of a line brings the index of the line to their numbers. -/
theorem find?_write_marks (has : ∀ a ∈ as, m[a.number]? = some a) (db : ChainDb) (i : Nat) :
    (db.Write (as.map (mark hash))).canonicalHash.find? i =
      if ∃ a ∈ as, a.number = i then T.tree.index m i else db.canonicalHash.find? i := by
  induction as generalizing db with
  | nil => simp [ChainDb.Write]
  | cons a as ih =>
    have ih := ih (fun x hx => has x (mem_cons_of_mem _ hx)) (db.apply (mark hash a))
    rw [map_cons, show db.Write (mark hash a :: as.map (mark hash)) =
      (db.apply (mark hash a)).Write (as.map (mark hash)) from rfl, ih,
      ChainDb.find?_canonical_apply]
    exact T.tree.index_cons (has a mem_cons_self)

/-- **The loop that overwrites stale hashes** marks the line of the parent down to where the index
agrees with it already. -/
theorem overwrite_spec (hl : T.Line b l) (hline : T.Line p m) : ∀ {fuel : Nat} {hc : HeaderChain},
    Stored T W hc → (∀ i, hc.chainDb.canonicalHash.find? i = T.tree.index l i) → p ∈ W →
    p.number < fuel → ∃ j batch hc', HeaderChain.overwrite fuel (hash p) p.number (some p) hc =
        .ok (batch, hc') ∧ batch = (m.drop j).reverse.map (mark hash) ∧ Reads T W hc hc' ∧
      j ≤ m.length ∧ ∀ i, j = i + 1 → ∃ x, l[i]? = some x ∧ m[i]? = some x := by
  -- the induction is on the line of the parent
  induction hline with
  | root =>
    intro fuel hc hs hindex hp hfuel
    obtain ⟨fuel, rfl⟩ := Nat.exists_eq_succ_of_ne_zero (show fuel ≠ 0 by omega)
    have hroot : l[0]? = some T.genesis := hl.getElem_zero
    have hstop : hc.chainDb.ReadCanonicalHash T.genesis.number = hash T.genesis := by
      rw [T.number_genesis]
      exact (read_canonical_iff hindex hl T.genesis_mem).mpr hroot
    refine ⟨1, [], hc, if_pos hstop, rfl, .refl hs, le_rfl, ?_⟩
    rintro i hi
    obtain rfl : i = 0 := by omega
    exact ⟨T.genesis, hroot, rfl⟩
  | @child q p m hq hp hk hh ih =>
    intro fuel hc hs hindex hpW hfuel
    obtain ⟨fuel, rfl⟩ := Nat.exists_eq_succ_of_ne_zero (show fuel ≠ 0 by omega)
    have hline : T.Line p (m ++ [p]) := .child hq hp hk hh
    have hlen : m.length = p.number := hq.length.trans hh.symm
    by_cases hstop : hc.chainDb.ReadCanonicalHash p.number = hash p
    · -- the index agrees with the line from here downwards
      refine ⟨(m ++ [p]).length, [], hc, if_pos hstop, by simp, .refl hs, le_rfl, ?_⟩
      rintro i hi
      obtain rfl : i = p.number := by
        rw [length_append, hlen, length_singleton] at hi
        omega
      exact ⟨p, (read_canonical_iff hindex hl hp).mp hstop, hline.getElem_height⟩
    have hheight : p.number = q.number + 1 := hh
    have hqk : hash q = p.parentHash := hk
    have hqW := hs.written.parent_of hpW hq.mem hk (by omega)
    obtain ⟨hc1, hget, hr1⟩ := hs.GetHeader hqW
    obtain ⟨j, batch, hc', hloop, rfl, hr', hj, hfork⟩ := ih hr1.stored
      (by rw [hr1.chainDb]; exact hindex) hqW (by omega : q.number < fuel)
    refine ⟨j, mark hash p :: (m.drop j).reverse.map (mark hash), hc', ?_, ?_, hr1.trans hr', ?_,
      fun i hi => ?_⟩
    · have hnumber : p.number - 1 = q.number := by omega
      rw [HeaderChain.overwrite, if_neg hstop]
      simp only [← hqk, hnumber, hget, hloop]
      rfl
    · rw [drop_append_of_le_length hj, reverse_append, map_append]
      rfl
    · rw [length_append]
      omega
    · obtain ⟨x, hx, hx'⟩ := hfork i hi
      refine ⟨x, hx, ?_⟩
      rw [List.getElem?_append_left (List.getElem?_eq_some_iff.mp hx').1]
      exact hx'

/-- The index of a line has an entry for every number of the line and for no other. -/
theorem filled_of_index (hl : T.Line b l)
    (hindex : ∀ i, hc.chainDb.canonicalHash.find? i = T.tree.index l i) :
    hc.chainDb.Filled l.length where
  below i hi := by
    have hx : l[i]? = some l[i] := getElem?_eq_getElem hi
    have hmem := hl.mem_getElem hx
    rw [(read_canonical_iff hindex hl hmem).mpr hx]
    exact T.hash_ne_zero _ hmem
  above i hi := by
    rw [hindex, index, getElem?_eq_none hi]
    rfl

/-- The batch of `adopt`: deletions above the new head, marks of the ancestors from `j` on, and the
head. -/
def adoptBatch (hash : Header → Hash) (old : Nat) (m : List Header) (j : Nat) (b : Header) :
    List Op :=
  (range' (b.number + 1) (old - (b.number + 1))).map .DeleteCanonicalHash ++
    (m.drop j).reverse.map (mark hash) ++
    [.WriteCanonicalHash (hash b) b.number, .WriteHeadHeaderHash (hash b)]

theorem adoptBatch_isIndex (old : Nat) (m : List Header) (j : Nat) (b : Header) :
    ∀ op ∈ adoptBatch hash old m j b, op.IsIndex := by
  intro op hop
  rcases mem_append.mp hop with hop | hop
  · rcases mem_append.mp hop with hop | hop
    · obtain ⟨i, -, rfl⟩ := mem_map.mp hop
      trivial
    · obtain ⟨a, -, rfl⟩ := mem_map.mp hop
      trivial
  · rcases mem_cons.mp hop with rfl | hop
    · trivial
    · obtain rfl := mem_singleton.mp hop
      trivial

/-- The canonical hashes after the batch: the last write of a number wins. -/
theorem find?_adoptBatch (hm : T.Line p m) (hline : T.Line b (m ++ [b]))
    (hlen : m.length = b.number) (db : ChainDb) (old j i : Nat) :
    (db.Write (adoptBatch hash old m j b)).canonicalHash.find? i =
      if i = b.number then some (hash b)
      else if j ≤ i ∧ i < b.number then T.tree.index (m ++ [b]) i
      else if b.number + 1 ≤ i ∧ i < old then none
      else db.canonicalHash.find? i := by
  have hget : ∀ a ∈ (m.drop j).reverse, (m ++ [b])[a.number]? = some a := fun a ha =>
    hline.getElem_of_mem (mem_append_left _ (mem_of_mem_drop (mem_reverse.mp ha)))
  have hnumbers : (∃ a ∈ (m.drop j).reverse, a.number = i) ↔ j ≤ i ∧ i < m.length := by
    simp only [mem_reverse]
    exact hm.exists_mem_drop_iff
  have hhead : ∀ db : ChainDb, (db.Write [.WriteCanonicalHash (hash b) b.number,
      .WriteHeadHeaderHash (hash b)]).canonicalHash.find? i =
      if i = b.number then some (hash b) else db.canonicalHash.find? i :=
    fun db => db.find?_canonical_apply (.WriteCanonicalHash (hash b) b.number) i
  rw [adoptBatch, ChainDb.write_append, ChainDb.write_append, hhead]
  by_cases hi : i = b.number
  · rw [if_pos hi, if_pos hi]
  rw [if_neg hi, if_neg hi, find?_write_marks (T := T) hget, ChainDb.find?_write_delete]
  simp only [hnumbers, hlen, mem_range'_1]
  have hrange : (b.number + 1 ≤ i ∧ i < b.number + 1 + (old - (b.number + 1))) ↔
      b.number + 1 ≤ i ∧ i < old := by omega
  simp only [hrange]

/-- **The index moves from the old line to the new one.** -/
theorem find?_adopted (hl : T.Line h l) (hm : T.Line p m) (hline : T.Line b (m ++ [b]))
    {db : ChainDb} (hindex : ∀ i, db.canonicalHash.find? i = T.tree.index l i) {j : Nat} (hj : j ≤ m.length)
    (hfork : ∀ i, j = i + 1 → ∃ x, l[i]? = some x ∧ m[i]? = some x) (i : Nat) :
    (db.Write (adoptBatch hash l.length m j b)).canonicalHash.find? i =
      T.tree.index (m ++ [b]) i := by
  have hlen : m.length = b.number := hline.length_init
  refine congrFun (reindex (j := j)
    (f := (db.Write (adoptBatch hash l.length m j b)).canonicalHash.find?) hl hline
    (fun i hi => ?_) (fun i hi => ?_) (fun i hi => ?_)) i
  · obtain ⟨x, hx, hx'⟩ := hfork i hi
    refine ⟨x, hx, ?_⟩
    rw [List.getElem?_append_left (List.getElem?_eq_some_iff.mp hx').1]
    exact hx'
  · rw [find?_adoptBatch hm hline hlen, if_neg (by omega), if_neg (by omega), if_neg (by omega), hindex]
  · rw [find?_adoptBatch hm hline hlen]
    rcases Nat.lt_trichotomy i b.number with hlt | rfl | hgt
    · rw [if_neg (by omega), if_pos ⟨hi, hlt⟩]
    · have hlast : (m ++ [b])[b.number]? = some b := hline.getElem_height
      rw [if_pos rfl, index, hlast]
      rfl
    have hnone : T.tree.index (m ++ [b]) i = none := by
      rw [index, getElem?_eq_none (by simp; omega)]
      rfl
    rw [if_neg (by omega), if_neg (by omega), hnone]
    split
    · rfl
    · rw [hindex, index, getElem?_eq_none (by omega)]
      rfl

/-! ## §4 — Writing a header -/

theorem reorg_le {externTd localTd number head : Nat} {coin : Bool}
    (h : HeaderChain.reorg externTd localTd number head coin = true) : localTd ≤ externTd := by
  unfold HeaderChain.reorg at h
  split_ifs at h <;> omega

theorem le_of_not_reorg {externTd localTd number head : Nat} {coin : Bool}
    (h : HeaderChain.reorg externTd localTd number head coin = false) : externTd ≤ localTd := by
  unfold HeaderChain.reorg at h
  split_ifs at h <;> omega

/-- Writes of indexes and markers leave the headers alone. -/
theorem Stored.write_index (hs : Stored T W hc) {batch : List Op}
    (hbatch : ∀ op ∈ batch, op.IsIndex) :
    Stored T W { hc with chainDb := hc.chainDb.Write batch } := by
  obtain ⟨htd, hheader, -⟩ := ChainDb.write_index hbatch hc.chainDb
  exact { hs with
    header := by rw [hheader]; exact hs.header
    td := by rw [htd]; exact hs.td }

/-- **A header that becomes the head** brings the index of its line. -/
theorem adopt_spec (hs : Stored T W hc) (hl : T.Line h l)
    (hindex : ∀ i, hc.chainDb.canonicalHash.find? i = T.tree.index l i) (hp : p ∈ W)
    (hm : T.Line p m) (hb : T.mem b) (hk : hash p = b.parentHash) (hn : b.number = p.number + 1) :
    ∃ hc', hc.adopt (hash b) b = .ok hc' ∧ hc'.currentHeader = b ∧ hc'.currentHeaderHash = hash b ∧
      (∀ i, hc'.chainDb.canonicalHash.find? i = T.tree.index (m ++ [b]) i) ∧ Stored T W hc' := by
  have hline : T.Line b (m ++ [b]) := .child hm hb hk hn
  obtain ⟨hc1, hget, hr1⟩ := hs.GetHeader hp
  have hindex1 : ∀ i, hc1.chainDb.canonicalHash.find? i = T.tree.index l i := by
    rw [hr1.chainDb]
    exact hindex
  obtain ⟨j, batch, hc2, hloop, rfl, hr2, hj, hfork⟩ :=
    overwrite_spec hl hm hr1.stored hindex1 hp (show p.number < b.number + 1 by omega)
  have hindex2 : ∀ i, hc2.chainDb.canonicalHash.find? i = T.tree.index l i := by
    rw [hr2.chainDb]
    exact hindex1
  have hnumber : b.number - 1 = p.number := by omega
  refine ⟨{ hc2 with
    chainDb := hc2.chainDb.Write (adoptBatch hash l.length m j b)
    currentHeaderHash := hash b
    currentHeader := b }, ?_, rfl, rfl, find?_adopted hl hm hline hindex2 hj hfork, ?_⟩
  · rw [HeaderChain.adopt, (filled_of_index hl hindex).deleteAbove]
    simp only [← hk, hnumber, hget, hloop]
    rfl
  · exact { hr2.stored.write_index (adoptBatch_isIndex l.length m j b) with }

/-- The store has a header and its total difficulty once they are written. -/
theorem Stored.write (hs : Stored T W hc) (hp : p ∈ W) (hm : T.Line p m) (hb : T.mem b)
    (hk : hash p = b.parentHash) (hn : b.number = p.number + 1) : Stored T (W ++ [b]) { hc with
      chainDb := hc.chainDb.Write
        [.WriteTd (hash b) b.number (b.difficulty + totalDifficulty m),
          .WriteHeader (hash b) b] } := by
  have hw : T.tree.Closed (W ++ [b]) := hs.written.append hp hb hk
  refine
    { mem := hw.mem
      closed := hw.parent
      header := fun h hh => hw.find?_insert (P := fun a x => x = a) (fun a ha x hx => ?_)
        (fun x hx => hx) hh rfl
      td := fun h hh l hl => hw.find?_insert (P := fun a td => ∃ l, T.Line a l ∧ td = totalDifficulty l)
        ?_ ?_ hh ⟨l, hl, rfl⟩
      headers := hs.headers.mono fun k h hh => ⟨mem_append_left _ hh.1, hh.2⟩
      tds := hs.tds.mono fun k td ⟨h, hh, htd⟩ => ⟨h, mem_append_left _ hh, htd⟩ }
  · rw [hx]
    exact hs.header a ha
  · rintro a ha _ ⟨l, hl, rfl⟩
    exact hs.td a ha l hl
  · rintro _ ⟨l, hl, rfl⟩
    rw [hl.unique (.child hm hb hk hn), totalDifficulty_append]

/-- The caches may remember what was written. -/
theorem Stored.remember (hs : Stored T W hc) (hb : b ∈ W) (hl : T.Line b l) :
    Reads T W hc (hc.remember (hash b) b (totalDifficulty l)) where
  stored := { hs with
    headers := hs.headers.add ⟨hb, rfl⟩
    tds := hs.tds.add ⟨b, hb, rfl, fun l' hl' => by rw [hl.unique hl']⟩ }
  chainDb := rfl
  currentHeader := rfl
  currentHeaderHash := rfl

/-- **What holds between calls**: the store has the headers, and there is a head with its line. -/
def Inv (T : HeaderTree hash) (W : List Header) (hc : HeaderChain) : Prop :=
  Stored T W hc ∧ ∃ l, Headed T W hc l

/-- **One call of `WriteHeader`** on a child of a written header. -/
theorem WriteHeader_spec (hi : Inv T W hc) (hp : p ∈ W) (hb : T.mem b)
    (hk : hash p = b.parentHash) (hn : b.number = p.number + 1) (coin : Bool) :
    ∃ status hc', hc.WriteHeader hash b coin = .ok (status, hc') ∧ Inv T (W ++ [b]) hc' := by
  obtain ⟨hs, l, hh⟩ := hi
  obtain ⟨m, hm⟩ : ∃ m, T.Line p m := T.tree.exists_line (hs.mem p hp)
  have hline : T.Line b (m ++ [b]) := .child hm hb hk hn
  have hbW : b ∈ W ++ [b] := mem_append_right _ (mem_singleton.mpr rfl)
  obtain ⟨hc1, hget1, hr1⟩ := hs.GetTd hp hm
  have hh1 := hr1.headed hh
  obtain ⟨hc2, hget2, hr2⟩ := hr1.stored.GetTd hh1.mem hh1.line
  have hh2 := hr2.headed hh1
  have hs3 := hr2.stored.write hp hm hb hk hn
  have hnumber : b.number - 1 = p.number := by omega
  -- the greatest total difficulty among all of them
  have hmost : ∀ n, totalDifficulty l ≤ n → totalDifficulty (m ++ [b]) ≤ n →
      ∀ h ∈ W ++ [b], ∀ m', T.Line h m' → totalDifficulty m' ≤ n :=
    fun n hln hmn => T.tree.forall_line_append
      (fun h hmem m' hm' => (hh.most h hmem m' hm').trans hln) hline hmn
  rw [HeaderChain.WriteHeader]
  simp only [← hk, hnumber, hget1, hh1.hash_eq, hget2, ← totalDifficulty_append]
  rw [← totalDifficulty_append] at hs3
  split
  next hreorg =>
    obtain ⟨hc4, hadopt, hhead, hheadHash, hindex, hs4⟩ := adopt_spec hs3 hh2.line hh2.index
      (mem_append_left _ hp) hm hb hk hn
    have hr5 := hs4.remember hbW hline
    rw [hadopt]
    refine ⟨_, _, rfl, hr5.stored, m ++ [b], hr5.headed ?_⟩
    exact {
      mem := hhead ▸ hbW
      hash_eq := by rw [hheadHash, hhead]
      line := hhead ▸ hline
      index := hindex
      most := hmost _ (reorg_le hreorg) le_rfl }
  next hreorg =>
    have hr5 := hs3.remember hbW hline
    refine ⟨_, _, rfl, hr5.stored, l, hr5.headed ?_⟩
    exact {
      mem := mem_append_left _ hh2.mem
      hash_eq := hh2.hash_eq
      line := hh2.line
      index := hh2.index
      most := hmost _ le_rfl (le_of_not_reorg (Bool.not_eq_true _ ▸ hreorg)) }

/-! ## §5 — Ancestors -/

/-- How many of the `n` steps from the end of the line `m` towards its `n`-th ancestor start at a
header off the canonical line `l`. -/
def offCanonical (l m : List Header) (n : Nat) : Nat := (m.reverse.take n).countP (· ∉ l)

theorem offCanonical_append (l m : List Header) (b : Header) (n : Nat) (hb : b ∉ l) :
    offCanonical l (m ++ [b]) (n + 1) = offCanonical l m n + 1 := by
  rw [offCanonical, reverse_append]
  show countP _ (b :: m.reverse.take n) = _
  rw [countP_cons_of_pos (by simpa using hb), offCanonical]

/-- The ancestor was found, or the budget was too small. -/
def Ancestor (hash : Header → Hash) (l m : List Header) (number n budget : Nat) (r : Hash × Nat) :
    Prop :=
  (∃ a, m[number - n]? = some a ∧ r = (hash a, a.number)) ∨
    (r = (Hash.zero, 0) ∧ budget < offCanonical l m n)

/-- **The loop of `GetAncestor`.** -/
theorem ancestorLoop_spec (hl : T.Line b l) : ∀ {n budget : Nat} {hc : HeaderChain} {h : Header}
    {m : List Header}, Stored T W hc →
    (∀ i, hc.chainDb.canonicalHash.find? i = T.tree.index l i) → h ∈ W → T.Line h m → n ≤ h.number →
    Ancestor hash l m h.number n budget
        (HeaderChain.ancestorLoop n (hash h) h.number budget hc).1 ∧
      Reads T W hc (HeaderChain.ancestorLoop n (hash h) h.number budget hc).2.2
  | 0, budget, hc, h, m, hs, _, _, hm, _ => ⟨.inl ⟨h, hm.getElem_height, rfl⟩, .refl hs⟩
  | n + 1, budget, hc, h, m, hs, hindex, hh, hm, hn => by
    have hmem := hs.mem h hh
    rw [HeaderChain.ancestorLoop]
    by_cases hcanon : hc.chainDb.ReadCanonicalHash h.number = hash h
    · -- on the canonical chain: jump
      rw [if_pos hcanon]
      have hx := (read_canonical_iff hindex hl hmem).mp hcanon
      have hlt : h.number - (n + 1) < m.length := by
        have hlength : m.length = h.number + 1 := hm.length
        omega
      have ha : m[h.number - (n + 1)]? = some m[h.number - (n + 1)] :=
        getElem?_eq_getElem hlt
      have ha' : l[h.number - (n + 1)]? = some m[h.number - (n + 1)] := by
        rw [← ha]
        exact hl.agree hm hx hm.getElem_height (Nat.sub_le _ _)
      have hnumber : (m[h.number - (n + 1)]).number = h.number - (n + 1) := hm.height_getElem ha
      refine ⟨.inl ⟨_, ha, ?_⟩, .refl hs⟩
      rw [(read_canonical_iff hindex hl (hm.mem_getElem ha)).mpr ha', hnumber]
    rw [if_neg hcanon]
    obtain ⟨p, m', hp, rfl, hm', hk, hnumber⟩ := hs.parent hh hm (by omega)
    have hoff : offCanonical l (m' ++ [h]) (n + 1) = offCanonical l m' n + 1 := by
      refine offCanonical_append l m' h n fun hin => hcanon ?_
      obtain ⟨i, hi⟩ := mem_iff_getElem?.mp hin
      rw [read_canonical_iff hindex hl hmem, show h.number = i from hl.height_getElem hi, hi]
    by_cases hbudget : budget = 0
    · rw [if_pos hbudget]
      exact ⟨.inr ⟨rfl, by omega⟩, .refl hs⟩
    obtain ⟨hc1, hget, hr1⟩ := hs.GetHeader hh
    have hprev : h.number - 1 = p.number := by omega
    rw [if_neg hbudget]
    simp only [hget, ← hk, hprev]
    obtain ⟨hfound, hr⟩ := ancestorLoop_spec hl (n := n) hr1.stored
      (by rw [hr1.chainDb]; exact hindex) hp hm' (by omega)
    refine ⟨?_, hr1.trans hr⟩
    rcases hfound with ⟨a, ha, heq⟩ | ⟨heq, hlt⟩
    · have hpos : h.number - (n + 1) = p.number - n := by omega
      refine .inl ⟨a, ?_, heq⟩
      rw [hpos, List.getElem?_append_left (List.getElem?_eq_some_iff.mp ha).1, ha]
    · exact .inr ⟨heq, by omega⟩

/-- **`GetAncestor`** finds the ancestor of a written header or its budget was too small; there is no
ancestor before the genesis header. -/
theorem GetAncestor_spec (hi : Inv T W hc) (hl : T.Line hc.currentHeader l) (hh : h ∈ W)
    (hm : T.Line h m) (n budget : Nat) : (n ≤ h.number → Ancestor hash l m h.number n budget
      (hc.GetAncestor (hash h) h.number n budget).1) ∧
    (h.number < n → (hc.GetAncestor (hash h) h.number n budget).1 = (Hash.zero, 0)) := by
  obtain ⟨hs, l', hhead⟩ := hi
  obtain rfl := hhead.line.unique hl
  unfold HeaderChain.GetAncestor
  refine ⟨fun hn => ?_, fun hn => by rw [if_pos hn]⟩
  rw [if_neg (Nat.not_lt.mpr hn)]
  by_cases hone : n = 1
  · -- the parent is read off the header
    subst hone
    obtain ⟨p, m', -, rfl, hm', hk, hnumber⟩ := hs.parent hh hm (by omega)
    obtain ⟨hc1, hget, -⟩ := hs.GetHeader hh
    have hprev : h.number - 1 = p.number := by omega
    rw [if_pos rfl]
    simp only [hget, hprev]
    refine .inl ⟨p, ?_, by rw [hk]⟩
    rw [hprev, getElem?_append_left (by rw [hm'.length]; exact Nat.lt_succ_self _)]
    exact hm'.getElem_height
  · rw [if_neg hone]
    exact (ancestorLoop_spec hl hs hhead.index hh hm hn).1

/-! ## §6 — Runs -/

theorem genesisDb_spec (T : HeaderTree hash) :
    (genesisDb hash T.genesis).header.find? (0, hash T.genesis) = some T.genesis ∧
    (genesisDb hash T.genesis).td.find? (0, hash T.genesis) = some T.genesis.difficulty ∧
    (genesisDb hash T.genesis).headerNumber.find? (hash T.genesis) = some 0 ∧
    (∀ i, (genesisDb hash T.genesis).canonicalHash.find? i = T.tree.index [T.genesis] i) := by
  have hnumber := T.number_genesis
  refine ⟨?_, ?_, ?_, fun i => ?_⟩
  · show (GoMap.insert _ (T.genesis.number, hash T.genesis) T.genesis).find? _ = _
    rw [hnumber, GoMap.find?_insert_self]
  · show (GoMap.insert _ (T.genesis.number, hash T.genesis) T.genesis.difficulty).find? _ = _
    rw [hnumber, GoMap.find?_insert_self]
  · show (GoMap.insert _ (hash T.genesis) T.genesis.number).find? _ = _
    rw [hnumber, GoMap.find?_insert_self]
  · show (GoMap.insert _ T.genesis.number (hash T.genesis)).find? i = _
    rw [hnumber, GoMap.find?_insert]
    cases i with
    | zero | succ i => rfl

theorem GetHeader_numberCache (hc : HeaderChain) (k : Hash) (n : Nat) :
    (hc.GetHeader k n).2.numberCache = hc.numberCache := by
  unfold HeaderChain.GetHeader
  split
  · rfl
  · split <;> rfl

theorem GetBlockNumber_of_empty {k : Hash} {n : Nat} (hcache : hc.numberCache.entries = [])
    (hfind : hc.chainDb.headerNumber.find? k = some n) :
    hc.GetBlockNumber k = (some n, { hc with numberCache := hc.numberCache.add k n }) := by
  have hget : hc.numberCache.get k = (none, hc.numberCache) := by
    unfold Lru.get
    rw [hcache]
    rfl
  unfold HeaderChain.GetBlockNumber
  simp only [hget, hfind]

/-- **A new header chain** over a store with the genesis header. -/
theorem NewHeaderChain_spec (T : HeaderTree hash) :
    ∃ hc, NewHeaderChain hash (genesisDb hash T.genesis) = .ok hc ∧
      hc.chainDb = genesisDb hash T.genesis ∧ Inv T [T.genesis] hc := by
  obtain ⟨hheader, htd, hheaderNumber, hindex⟩ := genesisDb_spec T
  have hnumber := T.number_genesis
  have hne := T.hash_ne_zero _ T.genesis_mem
  have hmem : T.genesis ∈ [T.genesis] := mem_singleton.mpr rfl
  have hline : T.Line T.genesis [T.genesis] := .root
  let hc0 : HeaderChain :=
    { chainDb := genesisDb hash T.genesis
      currentHeader := {}
      currentHeaderHash := Hash.zero
      headerCache := .new headerCacheLimit
      tdCache := .new tdCacheLimit
      numberCache := .new numberCacheLimit }
  have hs0 : Stored T [T.genesis] hc0 := by
    refine ⟨fun h hh => ?_, fun h hh hnot => ?_, fun h hh => ?_, fun h hh l hl => ?_,
      Lru.all_new _, Lru.all_new _⟩
    · exact mem_singleton.mp hh ▸ T.genesis_mem
    · exact absurd (mem_singleton.mp hh) hnot
    · rw [mem_singleton.mp hh, hnumber]
      exact hheader
    · obtain rfl := mem_singleton.mp hh
      rw [hl.unique hline, hnumber]
      exact htd
  have hread : hc0.chainDb.ReadCanonicalHash 0 = hash T.genesis :=
    (read_canonical_iff hindex hline T.genesis_mem).mpr rfl
  obtain ⟨hc1, hget1, hr1⟩ := hs0.GetHeader hmem
  have hfirst : hc0.GetHeaderByNumber 0 = (some T.genesis, hc1) := by
    rw [HeaderChain.GetHeaderByNumber, hread, if_neg hne, ← hget1, hnumber]
  let hc2 : HeaderChain :=
    { hc1 with
      currentHeader := T.genesis
      numberCache := hc1.numberCache.add (hash T.genesis) 0 }
  have hblock : HeaderChain.GetBlockNumber { hc1 with currentHeader := T.genesis }
      (hash T.genesis) = (some 0, hc2) := by
    refine GetBlockNumber_of_empty ?_ ?_
    · rw [show hc1 = (hc0.GetHeader (hash T.genesis) T.genesis.number).2 by rw [hget1],
        GetHeader_numberCache]
      rfl
    · rw [hr1.chainDb]
      exact hheaderNumber
  have hs2 : Stored T [T.genesis] hc2 := { hr1.stored with }
  obtain ⟨hc3, hget3, hr3⟩ := hs2.GetHeader hmem
  have hsecond : HeaderChain.GetHeaderByHash { hc1 with currentHeader := T.genesis }
      (hash T.genesis) = (some T.genesis, hc3) := by
    rw [HeaderChain.GetHeaderByHash, hblock, ← hget3, hnumber]
  have hhead : (genesisDb hash T.genesis).headBlockHash = hash T.genesis := rfl
  have hdb : hc3.chainDb = genesisDb hash T.genesis := hr3.chainDb.trans hr1.chainDb
  refine ⟨{ hc3 with currentHeader := T.genesis, currentHeaderHash := hash T.genesis }, ?_, hdb,
    { hr3.stored with }, [T.genesis], hmem, rfl, hline, ?_, fun h hh m hm => ?_⟩
  · rw [NewHeaderChain]
    simp only [hhead, if_neg hne]
    rw [show HeaderChain.GetHeaderByNumber _ 0 = _ from hfirst]
    simp only [hsecond]
  · rw [hdb]
    exact hindex
  · obtain rfl := mem_singleton.mp hh
    rw [hm.unique hline]

/-- **Consistency**, in the terms of a caller: what is stored, the head, the index and the
ancestors. -/
structure Consistent (T : HeaderTree hash) (W : List Header) (hc : HeaderChain) : Prop where
  td : ∀ h ∈ W, ∀ m, T.Line h m →
    hc.chainDb.td.find? (h.number, hash h) = some (totalDifficulty m) ∧
      (hc.GetTd (hash h) h.number).1 = some (totalDifficulty m)
  head_mem : hc.currentHeader ∈ W
  head_hash : hc.currentHeaderHash = hash hc.currentHeader
  head_most : ∀ l, T.Line hc.currentHeader l → ∀ h ∈ W, ∀ m, T.Line h m →
    totalDifficulty m ≤ totalDifficulty l
  index : ∀ l, T.Line hc.currentHeader l → ∀ i, hc.chainDb.canonicalHash.find? i = (l[i]?).map hash
  ancestor : ∀ l, T.Line hc.currentHeader l → ∀ h ∈ W, ∀ m, T.Line h m → ∀ n budget,
    (n ≤ h.number → Ancestor hash l m h.number n budget
      (hc.GetAncestor (hash h) h.number n budget).1) ∧
    (h.number < n → (hc.GetAncestor (hash h) h.number n budget).1 = (Hash.zero, 0))

theorem Inv.consistent (hi : Inv T W hc) : Consistent T W hc := by
  obtain ⟨hs, l, hh⟩ := hi
  refine ⟨fun h hmem m hm => ⟨hs.td h hmem m hm, ?_⟩, hh.mem, hh.hash_eq, fun l' hl' => ?_,
    fun l' hl' => ?_, fun l' hl' h hmem m hm => GetAncestor_spec ⟨hs, l, hh⟩ hl' hmem hm⟩
  · obtain ⟨hc', hget, -⟩ := hs.GetTd hmem hm
    rw [hget]
  · obtain rfl := hh.line.unique hl'
    exact hh.most
  · obtain rfl := hh.line.unique hl'
    exact hh.index

/-- **A run of calls** keeps the invariant and does not fail. -/
theorem writeHeaders_spec : ∀ {calls : List (Header × Bool)} {W : List Header} {hc : HeaderChain},
    Inv T W hc → (∀ pre h, pre ++ [h] <+: calls.map Prod.fst → T.mem h ∧ h ≠ T.genesis ∧
      ∃ p ∈ W ++ pre, hash p = h.parentHash) →
    ∃ hc', writeHeaders hash hc calls = .ok hc' ∧ Inv T (W ++ calls.map Prod.fst) hc'
  | [], W, hc, hi, _ => ⟨hc, rfl, by simpa using hi⟩
  | (b, coin) :: calls, W, hc, hi, hcalls => by
    obtain ⟨hb, hne, p, hp, hk⟩ := hcalls [] b ⟨calls.map Prod.fst, rfl⟩
    rw [append_nil] at hp
    have hn := T.tree.height_of_parent (hi.1.mem p hp) hb hne hk
    obtain ⟨status, hc1, hwrite, hi1⟩ := WriteHeader_spec hi hp hb hk hn coin
    have hrest : ∀ pre h, pre ++ [h] <+: calls.map Prod.fst → T.mem h ∧ h ≠ T.genesis ∧
        ∃ p ∈ W ++ [b] ++ pre, hash p = h.parentHash := by
      rintro pre h ⟨rest, hrest⟩
      obtain ⟨hm, hnot, x, hx, hxk⟩ := hcalls (b :: pre) h ⟨rest, by simp [← hrest]⟩
      exact ⟨hm, hnot, x, by simpa using hx, hxk⟩
    obtain ⟨hc', hrun, hi'⟩ := writeHeaders_spec hi1 hrest
    refine ⟨hc', ?_, by simpa using hi'⟩
    rw [writeHeaders, foldlM_cons]
    simp only [hwrite]
    exact hrun

/-- **The header chain is consistent**, after every order of calls with parents first. -/
theorem writeHeaders_consistent (T : HeaderTree hash) (calls : List (Header × Bool))
    (hcalls : T.ParentsFirst (calls.map Prod.fst)) :
    ∃ hc0 hc, NewHeaderChain hash (genesisDb hash T.genesis) = .ok hc0 ∧
      writeHeaders hash hc0 calls = .ok hc ∧
      Consistent T (T.genesis :: calls.map Prod.fst) hc := by
  obtain ⟨hc0, hstart, -, hi0⟩ := NewHeaderChain_spec T
  obtain ⟨hc, hrun, hi⟩ := writeHeaders_spec hi0 hcalls
  exact ⟨hc0, hc, hstart, hrun, hi.consistent⟩

end Spec

/-- A hash for a tree whose headers have different difficulties. -/
def forkHash (h : Header) : Hash := Hash.ofBytes [UInt8.ofNat h.difficulty]

/-- The genesis header, a branch of two headers and a heavier one of one header. -/
def forkHeaders : List Header :=
  let genesis : Header := { difficulty := 1 }
  let one : Header := { parentHash := forkHash genesis, number := 1, difficulty := 2 }
  [genesis, one, { parentHash := forkHash one, number := 2, difficulty := 3 },
    { parentHash := forkHash genesis, number := 1, difficulty := 9 }]

def forkTree : HeaderTree forkHash where
  genesis := { difficulty := 1 }
  mem h := h ∈ forkHeaders
  genesis_mem := by decide +kernel
  number_genesis := rfl
  parent_mem := by
    intro h hh hne
    have hparent : ∀ h ∈ forkHeaders, h ≠ { difficulty := 1 } →
        ∃ p ∈ forkHeaders, forkHash p = h.parentHash ∧ h.number = p.number + 1 := by
      decide +kernel
    exact hparent h hh hne
  hash_inj := by
    intro a b ha hb
    have hinj : ∀ a ∈ forkHeaders, ∀ b ∈ forkHeaders, forkHash a = forkHash b → a = b := by
      decide +kernel
    exact hinj a ha b hb
  hash_ne_zero := by decide +kernel

theorem writeHeaders_consistent_fork : forkTree.ParentsFirst forkHeaders.tail ∧
    ∃ hc0 hc, NewHeaderChain forkHash (genesisDb forkHash forkTree.genesis) = .ok hc0 ∧
      writeHeaders forkHash hc0 (forkHeaders.tail.map fun h => (h, false)) = .ok hc ∧
      Consistent forkTree forkHeaders hc := by
  have hfirst : forkTree.ParentsFirst forkHeaders.tail := by
    refine forall_prefix_of_getElem fun i hi => ?_
    show forkHeaders.tail[i] ∈ forkHeaders ∧ _
    revert i
    decide +kernel
  exact ⟨hfirst, writeHeaders_consistent forkTree (forkHeaders.tail.map fun h => (h, false)) hfirst⟩

end MxtChain.Chain
