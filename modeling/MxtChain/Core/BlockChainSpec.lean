/-
# MxtChain.Core.BlockChainSpec — what holds of the block chain in every run.

For every tree of blocks over one genesis block and every order of `writeBlockWithState` calls in
which parents come first: no call fails, the head has the greatest total difficulty, the canonical
index has the head's line at its numbers, and a transaction is looked up exactly if it is on the
line. Entries above the head are the exception. `reorg` deletes upwards from the current block,
which is still the old head if the new chain is a single block; so a block that becomes the head,
has its parent on the old line and a number below the old head leaves entries behind, and nothing
else does.

The proof follows the batches: `collect` finds where the lines part (`Fork`), the writes of the new
chain move the index and the lookups up to the parent, the deletions follow, the head comes last.
-/
import MxtChain.Core.BlockChain
import MxtChain.Core.HeaderChainSpec

namespace MxtChain.Chain

open Lib List Option ChainDb BlockTree
open Consensus (Header)

/-! ## §1 — Trees of blocks -/

/-- **A tree of blocks** over one genesis block. Blocks are told apart by their hashes, and none has
the zero hash. -/
structure Blocks (hash : Header → Hash) where
  genesis : Block
  mem : Block → Prop
  genesis_mem : mem genesis
  number_genesis : genesis.number = 0
  parent_mem : ∀ b, mem b → b ≠ genesis →
    ∃ p, mem p ∧ hash p.header = b.parentHash ∧ b.number = p.number + 1
  hash_inj : ∀ a b, mem a → mem b → hash a.header = hash b.header → a = b
  hash_ne_zero : ∀ b, mem b → hash b.header ≠ Hash.zero

/-- The tree in the terms of the library. -/
def Blocks.tree {hash : Header → Hash} (T : Blocks hash) : BlockTree Block Hash where
  key b := hash b.header
  parent := Block.parentHash
  height := Block.number
  root := T.genesis
  mem := T.mem
  root_mem := T.genesis_mem
  height_root := T.number_genesis
  parent_mem := T.parent_mem
  key_inj := T.hash_inj

/-- A tree in which no transaction is twice among the ancestors of a block: its nonce is used up.
The genesis block has none. -/
structure ChainTree (hash : Header → Hash) extends Blocks hash where
  transactions_genesis : genesis.transactions = []
  transactions_nodup : ∀ b l, toBlocks.tree.Line b l → (l.flatMap Block.transactions).Nodup

namespace ChainTree

variable {hash : Header → Hash}

/-- The ancestors of a block from the genesis block on, and the block itself. -/
def Line (T : ChainTree hash) (b : Block) (l : List Block) : Prop := T.tree.Line b l

/-- Blocks of the tree in an order in which parents come first. -/
def ParentsFirst (T : ChainTree hash) (blocks : List Block) : Prop :=
  ∀ pre b, pre ++ [b] <+: blocks → T.mem b ∧ b ≠ T.genesis ∧
    ∃ p ∈ T.genesis :: pre, hash p.header = b.parentHash

end ChainTree

namespace BlockChain

/-- The sum of difficulties along a line of blocks. -/
def lineTd (l : List Block) : Nat := totalDifficulty (l.map Block.header)

theorem lineTd_append (l : List Block) (b : Block) :
    lineTd (l ++ [b]) = b.header.difficulty + lineTd l := by
  rw [lineTd, map_append]
  exact totalDifficulty_append _ _

section Spec

variable {hash : Header → Hash} {T : ChainTree hash} {W bs : List Block} {bc bc' bc'' : BlockChain}
  {b h p x y : Block} {l m : List Block} {call : Call} {t : Hash} {externTd localTd n c i : Nat}

/-! ## §2 — What the store has -/

/-- The store and the caches have the blocks `W`, with their total difficulties. -/
structure Stored (T : ChainTree hash) (W : List Block) (bc : BlockChain) : Prop where
  mem : ∀ b ∈ W, T.mem b
  closed : ∀ b ∈ W, b ≠ T.genesis → ∃ p ∈ W, hash p.header = b.parentHash
  header : ∀ b ∈ W, bc.hc.chainDb.header.find? (b.number, hash b.header) = some b.header
  body : ∀ b ∈ W, bc.hc.chainDb.body.find? (b.number, hash b.header) = some b.transactions
  td : ∀ b ∈ W, ∀ l, T.Line b l → bc.hc.chainDb.td.find? (b.number, hash b.header) = some (lineTd l)
  blocks : bc.blockCache.All fun k b => b ∈ W ∧ hash b.header = k
  tds : bc.hc.tdCache.All fun k td => ∃ b ∈ W, hash b.header = k ∧ ∀ l, T.Line b l → td = lineTd l

theorem Stored.written (hs : Stored T W bc) : T.tree.Closed W := ⟨hs.mem, hs.closed⟩

/-- Only the caches differ. -/
structure Reads (T : ChainTree hash) (W : List Block) (bc bc' : BlockChain) : Prop where
  stored : Stored T W bc'
  chainDb : bc'.hc.chainDb = bc.hc.chainDb
  currentBlock : bc'.currentBlock = bc.currentBlock

theorem Reads.refl (hs : Stored T W bc) : Reads T W bc bc := ⟨hs, rfl, rfl⟩

theorem Reads.trans (h : Reads T W bc bc') (h' : Reads T W bc' bc'') : Reads T W bc bc'' :=
  ⟨h'.stored, h'.chainDb.trans h.chainDb, h'.currentBlock.trans h.currentBlock⟩

/-- **The total difficulty** of a written block is found. -/
theorem Stored.GetTd (hs : Stored T W bc) (hb : b ∈ W) (hl : T.Line b l) :
    ∃ bc', bc.GetTd (hash b.header) b.number = (some (lineTd l), bc') ∧ Reads T W bc bc' := by
  have honly : ∀ td, (∃ b' ∈ W, hash b'.header = hash b.header ∧
      ∀ l, T.Line b' l → td = lineTd l) → td = lineTd l := by
    rintro td ⟨b', hb', hk, htd⟩
    obtain rfl := T.hash_inj _ _ (hs.mem b' hb') (hs.mem b hb) hk
    exact htd l hl
  obtain ⟨cache, hget, hcache⟩ := GetTd_eq hs.tds (hs.td b hb l hl)
    ⟨b, hb, rfl, fun l' hl' => by rw [hl.unique hl']⟩ honly
  refine ⟨{ bc with hc := { bc.hc with tdCache := cache } }, ?_, ?_, rfl, rfl⟩
  · rw [BlockChain.GetTd, hget]
  · exact { hs with tds := hcache }

/-- **A written block** is found. -/
theorem Stored.GetBlock (hs : Stored T W bc) (hb : b ∈ W) :
    ∃ bc', bc.GetBlock hash (hash b.header) b.number = (some b, bc') ∧ Reads T W bc bc' := by
  obtain ⟨hfound, hall⟩ := hs.blocks.get (hash b.header)
  unfold BlockChain.GetBlock
  rcases hget : bc.blockCache.get (hash b.header) with ⟨_ | b', cache⟩
  · have hread : bc.db.ReadBlock (hash b.header) b.number = some b := by
      rw [ChainDb.ReadBlock]
      simp only [db, hs.header b hb, hs.body b hb]
    simp only [hread]
    refine ⟨_, rfl, ?_, rfl, rfl⟩
    exact { hs with blocks := hs.blocks.add ⟨hb, rfl⟩ }
  · rw [hget] at hfound hall
    obtain ⟨hb', hk⟩ := hfound b' rfl
    obtain rfl := T.hash_inj _ _ (hs.mem b' hb') (hs.mem b hb) hk
    refine ⟨_, rfl, ?_, rfl, rfl⟩
    exact { hs with blocks := hall }

theorem Stored.parent (hs : Stored T W bc) (hb : b ∈ W) (hl : T.Line b l) (hn : b.number ≠ 0) :
    ∃ p l', p ∈ W ∧ l = l' ++ [b] ∧ T.Line p l' ∧ hash p.header = b.parentHash ∧
      b.number = p.number + 1 :=
  hs.written.exists_parent hb hl hn

/-- Writes of indexes and markers leave the blocks alone. -/
theorem Stored.write_index (hs : Stored T W bc) {batch : List Op}
    (hbatch : ∀ op ∈ batch, op.IsIndex) : Stored T W (bc.write batch) := by
  obtain ⟨htd, hheader, hbody⟩ := ChainDb.write_index hbatch bc.hc.chainDb
  exact { hs with
    header := by rw [write, hheader]; exact hs.header
    body := by rw [write, hbody]; exact hs.body
    td := by rw [write, htd]; exact hs.td }

/-! ## §3 — Where the lines part -/

/-- **Walking back** to a number leaves the upper part of the line behind. -/
theorem walkBack_spec (hline : T.Line x l) (hn : n ≤ x.number) :
    ∀ {fuel : Nat} {bc : BlockChain}, Stored T W bc → x ∈ W → x.number < fuel + n →
    ∃ y bc', walkBack hash fuel (some x) n bc = .ok ((l.drop (n + 1)).reverse, some y, bc') ∧
      y ∈ W ∧ l[n]? = some y ∧ Reads T W bc bc' := by
  -- the induction is on the line of the block
  induction hline with
  | root =>
    intro fuel bc hs hx hfuel
    have hroot : T.genesis.number = 0 := T.number_genesis
    obtain rfl : n = 0 := by
      have : n ≤ T.genesis.number := hn
      omega
    obtain ⟨fuel, rfl⟩ := Nat.exists_eq_succ_of_ne_zero (show fuel ≠ 0 by
      omega)
    exact ⟨T.genesis, bc, if_pos hroot, hx, rfl, .refl hs⟩
  | @child q x l hq hx hk hh ih =>
    intro fuel bc hs hxW hfuel
    have hline : T.Line x (l ++ [x]) := .child hq hx hk hh
    have hlen : l.length = x.number := hq.length.trans hh.symm
    obtain ⟨fuel, rfl⟩ := Nat.exists_eq_succ_of_ne_zero (show fuel ≠ 0 by omega)
    by_cases hstop : x.number = n
    · refine ⟨x, bc, ?_, hxW, ?_, .refl hs⟩
      · rw [← hstop, ← hlen, drop_of_length_le (by simp)]
        simp only [walkBack, hlen, if_true]
        rfl
      · rw [← hstop]
        exact hline.getElem_height
    have hheight : x.number = q.number + 1 := hh
    have hqk : hash q.header = x.parentHash := hk
    have hqW := hs.written.parent_of hxW hq.mem hk (by omega)
    obtain ⟨bc1, hget, hr1⟩ := hs.GetBlock hqW
    obtain ⟨y, bc', hloop, hy, hly, hr'⟩ := ih (by omega : n ≤ q.number) hr1.stored hqW
      (by omega : q.number < fuel + n)
    have hnumber : x.number - 1 = q.number := by omega
    have hlt : n < l.length := by omega
    refine ⟨y, bc', ?_, hy, ?_, hr1.trans hr'⟩
    · rw [walkBack]
      simp only [if_neg hstop, ← hqk, hnumber, hget, hloop]
      rw [drop_append_of_le_length hlt, reverse_append]
      rfl
    · rw [getElem?_append_left hlt, hly]

/-- **Stepping back** from two blocks of one number finds where their lines part. -/
theorem stepBack_spec (hline : T.Line x l) : ∀ {y : Block} {m : List Block} {fuel : Nat}
    {bc : BlockChain}, T.Line y m → y.number = x.number → Stored T W bc → x ∈ W → y ∈ W →
    x.number < fuel → ∃ c bc', stepBack hash fuel x y bc =
        .ok ((l.drop (c + 1)).reverse, (m.drop (c + 1)).reverse, bc') ∧
      BlockTree.Fork l m c ∧ Reads T W bc bc' := by
  -- the induction is on the line of the first block
  induction hline with
  | root =>
    intro y m fuel bc hm hnumber hs hx hy hfuel
    obtain ⟨fuel, rfl⟩ := Nat.exists_eq_succ_of_ne_zero (show fuel ≠ 0 by omega)
    obtain rfl : y = T.genesis := hm.eq_root (hnumber.trans T.number_genesis)
    obtain rfl := hm.unique .root
    have hfork : BlockTree.Fork [T.genesis] [T.genesis] T.genesis.number := BlockTree.Fork.refl hm
    rw [T.number_genesis] at hfork
    exact ⟨0, bc, if_pos rfl, hfork, .refl hs⟩
  | @child q x l hq hx hk hh ih =>
    intro y m fuel bc hm hnumber hs hxW hyW hfuel
    obtain ⟨fuel, rfl⟩ := Nat.exists_eq_succ_of_ne_zero (show fuel ≠ 0 by omega)
    have hline : T.Line x (l ++ [x]) := .child hq hx hk hh
    have hlen : l.length = x.number := hq.length.trans hh.symm
    by_cases hsame : hash x.header = hash y.header
    · obtain rfl := T.hash_inj _ _ hx hm.mem hsame
      obtain rfl := hline.unique hm
      refine ⟨x.number, bc, ?_, BlockTree.Fork.refl hline, .refl hs⟩
      rw [drop_of_length_le (by simp [hlen]), stepBack, if_pos rfl]
      rfl
    have hheight : x.number = q.number + 1 := hh
    have hqk : hash q.header = x.parentHash := hk
    have hqW := hs.written.parent_of hxW hq.mem hk (by omega)
    obtain ⟨r, m', hrW, rfl, hr, hrk, hrn⟩ := hs.parent hyW hm (by omega)
    obtain ⟨bc1, hget1, hr1⟩ := hs.GetBlock hqW
    obtain ⟨bc2, hget2, hr2⟩ := hr1.stored.GetBlock hrW
    obtain ⟨c, bc', hloop, hfork, hr'⟩ := ih hr (by omega : r.number = q.number) hr2.stored hqW hrW
      (by omega : q.number < fuel)
    have hxq : x.number - 1 = q.number := by omega
    have hyr : y.number - 1 = r.number := by omega
    have hlen' : l.length = m'.length := by
      have hrl : m'.length = r.number + 1 := hr.length
      omega
    have hne : x ≠ y := fun heq => hsame (by rw [heq])
    refine ⟨c, bc', ?_, hfork.append hlen' hne, (hr1.trans hr2).trans hr'⟩
    rw [stepBack, if_neg hsame]
    simp only [← hqk, hxq, hget1, ← hrk, hyr, hget2, hloop]
    rw [drop_append_of_le_length hfork.lt_left, drop_append_of_le_length hfork.lt_right,
      reverse_append, reverse_append]
    rfl

/-- What is above `c` is what is above `c` below `n`, and what is above `n`. -/
theorem drop_reverse_append (hc : c < n) (hn : n ≤ l.length) :
    (l.drop n).reverse ++ ((l.take n).drop (c + 1)).reverse = (l.drop (c + 1)).reverse := by
  rw [← reverse_append, ← drop_append_of_le_length (by rw [length_take]; omega), take_append_drop]

/-- **The two chains of a reorganisation** are what the lines have above the fork. -/
theorem collect_spec (hs : Stored T W bc) (hl : T.Line x l) (hm : T.Line y m) (hx : x ∈ W)
    (hy : y ∈ W) : ∃ c bc', bc.collect hash x y =
        .ok ((l.drop (c + 1)).reverse, (m.drop (c + 1)).reverse, bc') ∧
      BlockTree.Fork l m c ∧ Reads T W bc bc' := by
  have hlen : l.length = x.number + 1 := hl.length
  have hlen' : m.length = y.number + 1 := hm.length
  unfold collect
  split
  next hgt =>
    -- the old chain is longer
    obtain ⟨z, bc1, hwalk, hz, hlz, hr1⟩ := walkBack_spec hl (n := y.number) (by omega) hs hx
      (show x.number < (x.number + 1) + y.number by omega)
    have hzn : z.number = y.number := hl.height_getElem hlz
    obtain ⟨c, bc2, hstep, hfork, hr2⟩ := stepBack_spec (hl.take hlz) hm hzn.symm hr1.stored hz hy
      (show z.number < y.number + 1 by omega)
    refine ⟨c, bc2, ?_, hfork.of_take (by omega), hr1.trans hr2⟩
    simp only [hwalk, hstep]
    have hlt := hfork.lt_right
    rw [drop_reverse_append (by omega) (by omega)]
  next hle =>
    obtain ⟨z, bc1, hwalk, hz, hlz, hr1⟩ := walkBack_spec hm (n := x.number) (by omega) hs hy
      (show y.number < (y.number + 1) + x.number by omega)
    have hzn : z.number = x.number := hm.height_getElem hlz
    obtain ⟨c, bc2, hstep, hfork, hr2⟩ := stepBack_spec hl (hm.take hlz) hzn hr1.stored hx hz
      (show x.number < x.number + 1 by omega)
    refine ⟨c, bc2, ?_, (hfork.symm.of_take (by omega)).symm, hr1.trans hr2⟩
    simp only [hwalk, hstep]
    have hlt := hfork.lt_left
    rw [drop_reverse_append (by omega) (by omega)]

/-! ## §4 — The indexes -/

/-- Where a transaction is on a line; of several blocks that have it the last one counts. -/
def lookupOf (l : List Block) (t : Hash) : Option Nat :=
  (l.reverse.find? fun b => t ∈ b.transactions).map Block.number

theorem lookupOf_append (l m : List Block) (t : Hash) :
    lookupOf (l ++ m) t = (lookupOf m t).or (lookupOf l t) := by
  rw [lookupOf, reverse_append, find?_append, map_or, lookupOf, lookupOf]

theorem lookupOf_singleton (b : Block) (t : Hash) :
    lookupOf [b] t = if t ∈ b.transactions then some b.number else none := by
  by_cases ht : t ∈ b.transactions
  · simp [lookupOf, ht]
  · simp [lookupOf, ht]

theorem lookupOf_eq_none_iff : lookupOf l t = none ↔ t ∉ l.flatMap Block.transactions := by
  simp [lookupOf, find?_eq_none]

/-- With no transaction twice, the lookup finds its block. -/
theorem lookupOf_eq_some_iff (hnodup : (l.flatMap Block.transactions).Nodup) :
    lookupOf l t = some n ↔ ∃ b ∈ l, t ∈ b.transactions ∧ b.number = n := by
  rw [lookupOf, map_eq_some_iff]
  constructor
  · rintro ⟨b, hfind, hn⟩
    exact ⟨b, mem_reverse.mp (mem_of_find?_eq_some hfind),
      by simpa using find?_some hfind, hn⟩
  · rintro ⟨b, hb, ht, hn⟩
    obtain ⟨b', hb'⟩ : ∃ b', l.reverse.find? (fun b => t ∈ b.transactions) = some b' := by
      rw [← isSome_iff_exists, find?_isSome]
      exact ⟨b, mem_reverse.mpr hb, by simpa using ht⟩
    have hmem := mem_reverse.mp (mem_of_find?_eq_some hb')
    have ht' : t ∈ b'.transactions := by simpa using find?_some hb'
    -- two blocks with the transaction are one
    have hsame : b' = b := by
      by_contra hne
      have hsymm : Std.Symm (Function.onFun Disjoint Block.transactions) :=
        ⟨fun x y h => h.symm⟩
      exact (nodup_flatMap.mp hnodup).2.forall hmem hb hne ht' ht
    exact ⟨b', hb', hsame ▸ hn⟩

theorem headBatch_isIndex (b : Block) (u : Bool) : ∀ op ∈ headBatch hash b u, op.IsIndex := by
  intro op hop
  simp only [headBatch, List.append_assoc, List.mem_append, List.mem_map, List.mem_singleton] at hop
  rcases hop with rfl | ⟨tx, -, rfl⟩ | rfl | hop
  · trivial
  · trivial
  · trivial
  cases u with
  | false => simp at hop
  | true =>
    simp only [if_true, List.mem_cons, List.not_mem_nil, or_false] at hop
    rcases hop with rfl | rfl
    · trivial
    · trivial

theorem find?_headBatch (db : ChainDb) (b : Block) (u : Bool) (i : Nat) :
    (db.Write (headBatch hash b u)).canonicalHash.find? i =
      if i = b.number then some (hash b.header) else db.canonicalHash.find? i := by
  have hrest : ∀ db : ChainDb, (db.Write (b.transactions.map
      (fun tx => .WriteTxLookupEntry tx b.number) ++ ([.WriteHeadBlockHash (hash b.header)] ++
        if u then [.WriteHeadHeaderHash (hash b.header), .WriteHeadFastBlockHash (hash b.header)]
        else []))).canonicalHash = db.canonicalHash := by
    refine write_keeps _ fun op hop db => ?_
    simp only [List.mem_append, List.mem_map, List.mem_singleton] at hop
    rcases hop with ⟨tx, -, rfl⟩ | rfl | hop
    · rfl
    · rfl
    cases u with
    | false => simp at hop
    | true =>
      simp only [if_true, List.mem_cons, List.not_mem_nil, or_false] at hop
      rcases hop with rfl | rfl
      · rfl
      · rfl
  rw [headBatch, List.append_assoc, List.append_assoc, write_append, hrest]
  exact db.find?_canonical_apply (.WriteCanonicalHash (hash b.header) b.number) i

theorem find?_lookup_headBatch (db : ChainDb) (b : Block) (u : Bool) (t : Hash) :
    (db.Write (headBatch hash b u)).txLookup.find? t =
      (lookupOf [b] t).or (db.txLookup.find? t) := by
  have hrest : ∀ db : ChainDb, (db.Write ([.WriteHeadBlockHash (hash b.header)] ++
        if u then [.WriteHeadHeaderHash (hash b.header), .WriteHeadFastBlockHash (hash b.header)]
        else [])).txLookup = db.txLookup := by
    intro db
    cases u with
    | false | true => rfl
  rw [headBatch, append_assoc, append_assoc, write_append, write_append,
    hrest, ChainDb.find?_write_lookups, lookupOf_singleton]
  by_cases ht : t ∈ b.transactions
  · simp only [if_pos ht, some_or]
  · simp only [if_neg ht, none_or]
    rfl

theorem writeHeadBlock_spec (hs : Stored T W bc) (b : Block) :
    Stored T W (bc.writeHeadBlock hash b) ∧ (bc.writeHeadBlock hash b).currentBlock = b ∧
    (∀ i, (bc.writeHeadBlock hash b).hc.chainDb.canonicalHash.find? i =
      if i = b.number then some (hash b.header) else bc.hc.chainDb.canonicalHash.find? i) ∧
    ∀ t, (bc.writeHeadBlock hash b).hc.chainDb.txLookup.find? t =
      (lookupOf [b] t).or (bc.hc.chainDb.txLookup.find? t) := by
  unfold writeHeadBlock
  have hs' : ∀ u, Stored T W (bc.write (headBatch hash b u)) := fun u =>
    hs.write_index (headBatch_isIndex b u)
  by_cases hu : bc.db.ReadCanonicalHash b.number = hash b.header
  · simp only [hu, ne_eq, not_true_eq_false, decide_false, Bool.false_eq_true, if_false]
    exact ⟨{ hs' false with }, trivial, find?_headBatch _ b false, find?_lookup_headBatch _ b false⟩
  · simp only [hu, ne_eq, not_false_eq_true, decide_true, if_true]
    exact ⟨{ hs' true with }, trivial, find?_headBatch _ b true, find?_lookup_headBatch _ b true⟩

/-- **Inserting blocks of a line** in turn. -/
theorem insert_spec (hm : ∀ a ∈ bs, m[a.number]? = some a) (hs : Stored T W bc) :
    Stored T W (bs.foldl (writeHeadBlock hash) bc) ∧
    (bs.foldl (writeHeadBlock hash) bc).currentBlock = bs.getLastD bc.currentBlock ∧
    (∀ i, (bs.foldl (writeHeadBlock hash) bc).hc.chainDb.canonicalHash.find? i =
      if ∃ a ∈ bs, a.number = i then T.tree.index m i
      else bc.hc.chainDb.canonicalHash.find? i) ∧
    ∀ t, (bs.foldl (writeHeadBlock hash) bc).hc.chainDb.txLookup.find? t =
      (lookupOf bs t).or (bc.hc.chainDb.txLookup.find? t) := by
  induction bs generalizing bc with
  | nil => exact ⟨hs, rfl, fun i => by simp, fun t => rfl⟩
  | cons a bs ih =>
    obtain ⟨hs1, hcurrent1, hcanon1, hlookup1⟩ := writeHeadBlock_spec hs a
    obtain ⟨hs', hcurrent, hcanon, hlookup⟩ := ih (fun x hx => hm x (mem_cons_of_mem _ hx)) hs1
    refine ⟨hs', ?_, fun i => ?_, fun t => ?_⟩
    · rw [foldl_cons, hcurrent, hcurrent1, getLastD_cons]
    · rw [foldl_cons, hcanon, hcanon1]
      exact T.tree.index_cons (hm a mem_cons_self)
    · rw [List.foldl_cons, hlookup, hlookup1, ← Option.or_assoc, ← lookupOf_append]
      rfl

/-- **The indexes of a line**: its hashes at its numbers, entries without a gap, and the lookups of
its transactions. There may be entries above the line. -/
structure Indexed (T : ChainTree hash) (db : ChainDb) (l : List Block) : Prop where
  index : ∀ i, i < l.length → db.canonicalHash.find? i = T.tree.index l i
  filled : ∃ top, l.length ≤ top ∧ db.Filled top
  lookup : ∀ t, db.txLookup.find? t = lookupOf l t

theorem reorgBatch_isIndex (txs : List Hash) (numbers : List Nat) :
    ∀ op ∈ txs.map Op.DeleteTxLookupEntry ++ numbers.map Op.DeleteCanonicalHash, op.IsIndex := by
  intro op hop
  rcases mem_append.mp hop with hop | hop
  · obtain ⟨t, -, rfl⟩ := mem_map.mp hop
    trivial
  · obtain ⟨i, -, rfl⟩ := mem_map.mp hop
    trivial

theorem find?_reorgBatch (db : ChainDb) (txs : List Hash) (numbers : List Nat) (i : Nat) :
    (db.Write (txs.map .DeleteTxLookupEntry ++ numbers.map .DeleteCanonicalHash)).canonicalHash.find?
      i = if i ∈ numbers then none else db.canonicalHash.find? i := by
  have hkeeps : (db.Write (txs.map .DeleteTxLookupEntry)).canonicalHash = db.canonicalHash := by
    refine write_keeps _ (fun op hop db => ?_) db
    obtain ⟨t, -, rfl⟩ := mem_map.mp hop
    rfl
  rw [write_append, ChainDb.find?_write_delete, hkeeps]

theorem find?_lookup_reorgBatch (db : ChainDb) (txs : List Hash) (numbers : List Nat) (t : Hash) :
    (db.Write (txs.map .DeleteTxLookupEntry ++ numbers.map .DeleteCanonicalHash)).txLookup.find? t =
      if t ∈ txs then none else db.txLookup.find? t := by
  have hkeeps : ∀ db : ChainDb,
      (db.Write (numbers.map .DeleteCanonicalHash)).txLookup = db.txLookup := by
    refine write_keeps _ fun op hop db => ?_
    obtain ⟨i, -, rfl⟩ := mem_map.mp hop
    rfl
  rw [write_append, hkeeps, ChainDb.find?_write_deleteTx]

/-- A number with an entry of a block of the tree is not read as empty. -/
theorem read_ne_zero {db : ChainDb} (hl : T.Line x l) (hi : i < l.length)
    (hindex : db.canonicalHash.find? i = T.tree.index l i) : db.ReadCanonicalHash i ≠ Hash.zero := by
  have hx : l[i]? = some l[i] := getElem?_eq_getElem hi
  rw [ChainDb.ReadCanonicalHash, hindex, index, hx]
  exact T.hash_ne_zero _ (hl.mem_getElem hx)

/-- **The lookups after a reorganisation**, but for the transactions of the new head: what is dropped
and not added again is deleted. -/
theorem lookup_reorg (hl : T.Line x l) (hm : T.Line b (m ++ [b]))
    (hfork : BlockTree.Fork l (m ++ [b]) c) (ht : t ∉ b.transactions) :
    (if t ∈ TxDifference ((l.drop (c + 1)).reverse.flatMap Block.transactions)
        ((m.drop (c + 1)).flatMap Block.transactions) then none
      else (lookupOf (m.drop (c + 1)) t).or (lookupOf l t)) = lookupOf (m ++ [b]) t := by
  have hdrop : lookupOf ((m ++ [b]).drop (c + 1)) t = lookupOf (m.drop (c + 1)) t := by
    rcases Nat.lt_or_ge m.length (c + 1) with hlt | hge
    · rw [drop_of_length_le (by simp; omega), drop_of_length_le (by omega)]
    · rw [drop_append_of_le_length hge, lookupOf_append, lookupOf_singleton, if_neg ht]
      rfl
  have hnew : lookupOf (m ++ [b]) t =
      (lookupOf (m.drop (c + 1)) t).or (lookupOf (l.take (c + 1)) t) := by
    rw [hfork.take_eq hl hm, ← hdrop, ← lookupOf_append, take_append_drop]
  have hold : lookupOf l t = (lookupOf (l.drop (c + 1)) t).or (lookupOf (l.take (c + 1)) t) := by
    rw [← lookupOf_append, take_append_drop]
  -- no transaction is both above and below the fork on the old line
  have honce : t ∈ (l.drop (c + 1)).flatMap Block.transactions →
      lookupOf (l.take (c + 1)) t = none := by
    intro habove
    have hnodup := T.transactions_nodup x l hl
    rw [← take_append_drop (c + 1) l, flatMap_append, nodup_append] at hnodup
    rw [lookupOf_eq_none_iff]
    exact fun hbelow => hnodup.2.2 t hbelow t habove rfl
  have hdiff : t ∈ TxDifference ((l.drop (c + 1)).reverse.flatMap Block.transactions)
        ((m.drop (c + 1)).flatMap Block.transactions) ↔
      t ∈ (l.drop (c + 1)).flatMap Block.transactions ∧
        t ∉ (m.drop (c + 1)).flatMap Block.transactions := by
    rw [TxDifference, mem_filter, decide_eq_true_iff]
    simp only [mem_flatMap, mem_reverse]
  rw [hnew]
  by_cases hadded : t ∈ (m.drop (c + 1)).flatMap Block.transactions
  · -- added again
    obtain ⟨n, hn⟩ := ne_none_iff_exists'.mp (fun h => lookupOf_eq_none_iff.mp h hadded)
    rw [if_neg (fun h => (hdiff.mp h).2 hadded), hn]
    rfl
  · rw [lookupOf_eq_none_iff.mpr hadded, none_or, none_or]
    by_cases hdropped : t ∈ (l.drop (c + 1)).flatMap Block.transactions
    · rw [if_pos (hdiff.mpr ⟨hdropped, hadded⟩), honce hdropped]
    · rw [if_neg (fun h => hdropped (hdiff.mp h).1), hold, lookupOf_eq_none_iff.mpr hdropped, none_or]

/-- **`reorg`.** Afterwards the index has the line of the new head's parent; above it there is
nothing if a block was inserted, and else what the old line has. -/
theorem reorg_spec (hs : Stored T W bc) (hx : bc.currentBlock ∈ W) (hl : T.Line bc.currentBlock l)
    (hi : Indexed T bc.hc.chainDb l) (hb : b ∈ W) (hp : T.Line p m) (hm : T.Line b (m ++ [b])) :
    ∃ c bc', bc.reorg hash bc.currentBlock b = .ok bc' ∧ BlockTree.Fork l (m ++ [b]) c ∧
      Stored T W bc' ∧
      (∀ i, bc'.hc.chainDb.canonicalHash.find? i =
        if i < m.length then T.tree.index (m ++ [b]) i
        else if m.length ≤ c + 1 ∧ i < l.length then T.tree.index l i
        else none) ∧
      ∀ t, t ∉ b.transactions → bc'.hc.chainDb.txLookup.find? t = lookupOf (m ++ [b]) t := by
  obtain ⟨c, bc1, hcollect, hfork, hr1⟩ := collect_spec hs hl hm hx hb
  have hinserted : ((m ++ [b]).drop (c + 1)).reverse.tail.reverse = m.drop (c + 1) := by
    rw [tail_reverse, reverse_reverse, dropLast_drop_eq_drop_dropLast, dropLast_concat]
  have hget : ∀ a ∈ m.drop (c + 1), (m ++ [b])[a.number]? = some a := fun a ha =>
    hm.getElem_of_mem (mem_append_left _ (mem_of_mem_drop ha))
  obtain ⟨hs2, hcurrent, hcanon, hlookup⟩ := insert_spec hget hr1.stored
  have hmlen : m.length = p.number + 1 := hp.length
  have hllen : l.length = bc.currentBlock.number + 1 := hl.length
  have hcl := hfork.lt_left
  obtain ⟨top, hltop, htop⟩ := hi.filled
  generalize hbc2 : (m.drop (c + 1)).foldl (writeHeadBlock hash) bc1 = bc2 at hs2 hcurrent hcanon hlookup
  -- the index after the insertions
  have hcanon2 : ∀ i, bc2.hc.chainDb.canonicalHash.find? i =
      if i < m.length then T.tree.index (m ++ [b]) i
      else bc.hc.chainDb.canonicalHash.find? i := by
    intro i
    rw [hcanon, hr1.chainDb]
    by_cases hlt : i < m.length
    · split
      · rfl
      next hnot =>
        have hic : i ≤ c := by
          by_contra hci
          exact hnot (hp.exists_mem_drop_iff.mpr ⟨by omega, hlt⟩)
        rw [hi.index i (by omega), index, index, hfork.getElem_eq hl hm hic]
    · rw [if_neg hlt, if_neg]
      exact fun h => hlt (hp.exists_mem_drop_iff.mp h).2
  have hfilled2 : bc2.hc.chainDb.Filled (max top m.length) := by
    constructor
    · intro i hlt
      by_cases him : i < m.length
      · exact read_ne_zero hm (by simp; omega) (by rw [hcanon2, if_pos him])
      · rw [ChainDb.ReadCanonicalHash, hcanon2, if_neg him]
        exact htop.below i (by omega)
    · intro i hge
      rw [hcanon2, if_neg (by omega)]
      exact htop.above i (by omega)
  -- the current block is the last one that was inserted
  have hnumber : bc2.currentBlock.number + 1 = if m.length ≤ c + 1 then l.length else m.length := by
    rw [hcurrent, getLastD_eq_getLast?, getLast?_drop]
    split
    · rw [hllen, ← hr1.currentBlock]
      rfl
    · rw [hp.getLast, hmlen]
      rfl
  let deleted := TxDifference ((l.drop (c + 1)).reverse.flatMap Block.transactions)
    ((m.drop (c + 1)).flatMap Block.transactions)
  let stale := range' (bc2.currentBlock.number + 1)
    (max top m.length - (bc2.currentBlock.number + 1))
  refine ⟨c, bc2.write (deleted.map .DeleteTxLookupEntry ++ stale.map .DeleteCanonicalHash), ?_, hfork,
    hs2.write_index (reorgBatch_isIndex _ _), fun i => ?_, fun t ht => ?_⟩
  · rw [reorg, hcollect]
    simp only [hinserted, hbc2, db, hfilled2.deleteAbove]
    rfl
  · have hstale : i ∈ stale ↔ bc2.currentBlock.number + 1 ≤ i ∧ i < max top m.length := by
      rw [mem_range'_1]
      omega
    rw [write, find?_reorgBatch, hcanon2]
    by_cases hlt : i < m.length
    · rw [if_pos hlt, if_pos hlt, if_neg]
      rw [hstale, hnumber]
      split <;> omega
    by_cases hkept : m.length ≤ c + 1 ∧ i < l.length
    · rw [if_pos hkept, if_neg, hi.index i hkept.2]
      rw [hstale, hnumber, if_pos hkept.1]
      omega
    split
    · rfl
    next hnot =>
      refine htop.above i (Nat.le_of_not_lt fun hit => hnot (hstale.mpr ⟨?_, by omega⟩))
      rw [hnumber]
      split <;> omega
  · rw [write, find?_lookup_reorgBatch, hlookup, hr1.chainDb, hi.lookup]
    exact lookup_reorg hl hm hfork ht

/-- **The head on top of the line of its parent** completes the indexes of its own line. -/
theorem writeHeadBlock_indexed (hs : Stored T W bc) (hm : T.Line b (m ++ [b]))
    (hindex : ∀ i, i < m.length → bc.hc.chainDb.canonicalHash.find? i = T.tree.index (m ++ [b]) i)
    (hfilled : ∃ top, m.length ≤ top ∧ bc.hc.chainDb.Filled top)
    (hlookup : ∀ t, t ∉ b.transactions → bc.hc.chainDb.txLookup.find? t = lookupOf (m ++ [b]) t) :
    Indexed T (bc.writeHeadBlock hash b).hc.chainDb (m ++ [b]) := by
  obtain ⟨-, -, hcanon, hlookup'⟩ := writeHeadBlock_spec hs b
  have hlen : m.length = b.number := hm.length_init
  have hindex' : ∀ i, i < (m ++ [b]).length →
      (bc.writeHeadBlock hash b).hc.chainDb.canonicalHash.find? i = T.tree.index (m ++ [b]) i := by
    intro i hi
    rw [length_append, length_singleton] at hi
    rw [hcanon]
    by_cases hib : i = b.number
    · have hlast : (m ++ [b])[b.number]? = some b := hm.getElem_height
      rw [if_pos hib, hib, index, hlast]
      rfl
    · rw [if_neg hib, hindex i (by omega)]
  obtain ⟨top, hmtop, htop⟩ := hfilled
  refine ⟨hindex', ⟨max top (m.length + 1), by simp, fun i hi => ?_, fun i hi => ?_⟩, fun t => ?_⟩
  · by_cases him : i < (m ++ [b]).length
    · exact read_ne_zero hm him (hindex' i him)
    · rw [length_append, length_singleton] at him
      rw [ChainDb.ReadCanonicalHash, hcanon, if_neg (by omega)]
      exact htop.below i (by omega)
  · rw [hcanon, if_neg (by omega)]
    exact htop.above i (by omega)
  · rw [hlookup']
    by_cases ht : t ∈ b.transactions
    · rw [lookupOf_append, lookupOf_singleton, if_pos ht]
      rfl
    · rw [hlookup t ht, lookupOf_singleton, if_neg ht, none_or]

/-! ## §5 — Writing a block -/

theorem prefers_le (h : prefers externTd localTd x call = true) : localTd ≤ externTd := by
  unfold prefers at h
  split_ifs at h <;> omega

theorem le_of_not_prefers (h : prefers externTd localTd x call = false) : externTd ≤ localTd := by
  unfold prefers at h
  split_ifs at h <;> omega

/-- A block below the head is preferred as soon as it is not lighter. -/
theorem prefers_of_lt (hlt : call.block.number < x.number) (hle : localTd ≤ externTd) :
    prefers externTd localTd x call = true := by
  unfold prefers
  split_ifs <;> first | rfl | omega

/-- The store has a block and its total difficulty once they are written. -/
theorem Stored.write (hs : Stored T W bc) (hp : p ∈ W) (hm : T.Line p m) (hb : T.mem b)
    (hk : hash p.header = b.parentHash) (hn : b.number = p.number + 1) :
    Stored T (W ++ [b]) (bc.write
      [.WriteTd (hash b.header) b.number (b.header.difficulty + lineTd m),
        .WriteBody (hash b.header) b.number b.transactions,
        .WriteHeader (hash b.header) b.header]) := by
  have hw : T.tree.Closed (W ++ [b]) := hs.written.append hp hb hk
  refine
    { mem := hw.mem
      closed := hw.parent
      header := fun h hh => hw.find?_insert (P := fun a x => x = a.header) (fun a ha x hx => ?_)
        (fun x hx => hx) hh rfl
      body := fun h hh => hw.find?_insert (P := fun a x => x = a.transactions) (fun a ha x hx => ?_)
        (fun x hx => hx) hh rfl
      td := fun h hh l hl => hw.find?_insert (P := fun a td => ∃ l, T.Line a l ∧ td = lineTd l)
        ?_ ?_ hh ⟨l, hl, rfl⟩
      blocks := hs.blocks.mono fun k h hh => ⟨mem_append_left _ hh.1, hh.2⟩
      tds := hs.tds.mono fun k td ⟨h, hh, htd⟩ => ⟨h, mem_append_left _ hh, htd⟩ }
  · rw [hx]
    exact hs.header a ha
  · rw [hx]
    exact hs.body a ha
  · rintro a ha _ ⟨l, hl, rfl⟩
    exact hs.td a ha l hl
  · rintro _ ⟨l, hl, rfl⟩
    rw [hl.unique (.child hm hb hk hn), lineTd_append]

/-- The head, its line and the indexes. -/
structure Headed (T : ChainTree hash) (W : List Block) (bc : BlockChain) (l : List Block) :
    Prop where
  mem : bc.currentBlock ∈ W
  line : T.Line bc.currentBlock l
  indexed : Indexed T bc.hc.chainDb l
  most : ∀ b ∈ W, ∀ m, T.Line b m → lineTd m ≤ lineTd l

theorem Reads.headed (hr : Reads T W bc bc') (hh : Headed T W bc l) : Headed T W bc' l where
  mem := hr.currentBlock ▸ hh.mem
  line := hr.currentBlock ▸ hh.line
  indexed := hr.chainDb ▸ hh.indexed
  most := hh.most

/-- **What holds between calls.** -/
def Inv (T : ChainTree hash) (W : List Block) (bc : BlockChain) : Prop :=
  Stored T W bc ∧ ∃ l, Headed T W bc l

/-- No number above the head has an entry. -/
def Clean (bc : BlockChain) : Prop :=
  ∀ i, bc.currentBlock.number < i → bc.hc.chainDb.canonicalHash.find? i = none

/-- **The call shortens the chain by a single block**: the block is not lighter than the head, has a
lower number, and its parent is on the line of the head. -/
def Shortens (T : ChainTree hash) (bc : BlockChain) (b : Block) : Prop :=
  b.number < bc.currentBlock.number ∧ ∃ l m p, T.Line bc.currentBlock l ∧ T.Line p m ∧
    hash p.header = b.parentHash ∧ p ∈ l ∧ lineTd l ≤ lineTd (m ++ [b])

theorem shortens_iff (hl : T.Line bc.currentBlock l) (hp : T.Line p m)
    (hk : hash p.header = b.parentHash) (hle : lineTd l ≤ lineTd (m ++ [b])) :
    Shortens T bc b ↔ b.number < bc.currentBlock.number ∧ p ∈ l := by
  constructor
  · rintro ⟨hlt, l', m', p', hl', hp', hk', hmem, -⟩
    obtain rfl := hl'.unique hl
    obtain rfl := T.hash_inj _ _ hp'.mem hp.mem (hk'.trans hk.symm)
    exact ⟨hlt, hmem⟩
  · rintro ⟨hlt, hmem⟩
    exact ⟨hlt, l, m, p, hl, hp, hk, hmem, hle⟩

/-- **A block that becomes the head after a reorganisation.** Entries above it are left exactly if
the old head was above it and nothing was inserted. -/
theorem reorg_head_spec (hs : Stored T W bc) (hx : bc.currentBlock ∈ W)
    (hl : T.Line bc.currentBlock l) (hi : Indexed T bc.hc.chainDb l) (hb : b ∈ W) (hp : T.Line p m)
    (hm : T.Line b (m ++ [b])) :
    ∃ bc1, bc.reorg hash bc.currentBlock b = .ok bc1 ∧ Stored T W (bc1.writeHeadBlock hash b) ∧
      (bc1.writeHeadBlock hash b).currentBlock = b ∧
      Indexed T (bc1.writeHeadBlock hash b).hc.chainDb (m ++ [b]) ∧
      (Clean (bc1.writeHeadBlock hash b) ↔ ¬(b.number < bc.currentBlock.number ∧ p ∈ l)) := by
  obtain ⟨c, bc1, hreorg, hfork, hs1, hcanon1, hlookup1⟩ := reorg_spec hs hx hl hi hb hp hm
  obtain ⟨hs2, hcurrent, hcanon2, -⟩ := writeHeadBlock_spec hs1 b
  have hllen : l.length = bc.currentBlock.number + 1 := hl.length
  have hmlen : m.length = p.number + 1 := hp.length
  have hlen : m.length = b.number := hm.length_init
  have hfilled : ∃ top, m.length ≤ top ∧ bc1.hc.chainDb.Filled top := by
    refine ⟨if m.length ≤ c + 1 then max m.length l.length else m.length, by split <;> omega,
      fun i hi => ?_, fun i hi => ?_⟩
    · by_cases him : i < m.length
      · exact read_ne_zero hm (by simp; omega) (by rw [hcanon1, if_pos him])
      · have hkept : m.length ≤ c + 1 ∧ i < l.length := by
          split at hi <;> omega
        exact read_ne_zero hl hkept.2 (by rw [hcanon1, if_neg him, if_pos hkept])
    · rw [hcanon1, if_neg (by split at hi <;> omega), if_neg (by split at hi <;> omega)]
  have hpc : p ∈ l ↔ p.number ≤ c := by
    refine hfork.mem_iff hl hm ?_
    rw [getElem?_append_left (by omega)]
    exact hp.getElem_height
  refine ⟨bc1, hreorg, hs2, hcurrent,
    writeHeadBlock_indexed hs1 hm (fun i hi => by rw [hcanon1, if_pos hi]) hfilled hlookup1, ?_⟩
  constructor
  · rintro hclean ⟨hlt, hmem⟩
    -- the entry of the old head is still there
    have hnone := hclean bc.currentBlock.number (hcurrent.symm ▸ hlt)
    have hold : l[bc.currentBlock.number]? = some bc.currentBlock := hl.getElem_height
    rw [hcanon2, if_neg (by omega), hcanon1, if_neg (by omega),
      if_pos ⟨by rw [hpc] at hmem; omega, by omega⟩, index, hold] at hnone
    cases hnone
  · intro hnot i hi
    rw [hcurrent] at hi
    rw [hcanon2, if_neg (by omega), hcanon1, if_neg (by omega), if_neg]
    rintro ⟨hc, hil⟩
    exact hnot ⟨by omega, hpc.mpr (by omega)⟩

/-- **A block on top of the head.** -/
theorem extend_spec (hs : Stored T W bc) (hl : T.Line bc.currentBlock l)
    (hi : Indexed T bc.hc.chainDb l) (hm : T.Line b (l ++ [b])) :
    Stored T W (bc.writeHeadBlock hash b) ∧ (bc.writeHeadBlock hash b).currentBlock = b ∧
      Indexed T (bc.writeHeadBlock hash b).hc.chainDb (l ++ [b]) ∧
      (Clean bc → Clean (bc.writeHeadBlock hash b)) := by
  obtain ⟨hs', hcurrent, hcanon, -⟩ := writeHeadBlock_spec hs b
  have hllen : l.length = bc.currentBlock.number + 1 := hl.length
  have hlen : l.length = b.number := hm.length_init
  refine ⟨hs', hcurrent, writeHeadBlock_indexed hs hm (fun i hil => ?_) hi.filled fun t ht => ?_,
    fun hclean i hib => ?_⟩
  · rw [hi.index i hil, index, index, getElem?_append_left hil]
  · rw [hi.lookup, lookupOf_append, lookupOf_singleton, if_neg ht, none_or]
  · rw [hcurrent] at hib
    rw [hcanon, if_neg (by omega)]
    exact hclean i (by omega)

/-- **One call of `writeBlockWithState`** on a child of a written block. -/
theorem writeBlockWithState_spec (hi : Inv T W bc) (hp : p ∈ W) (hb : T.mem call.block)
    (hk : hash p.header = call.block.parentHash) (hn : call.block.number = p.number + 1) :
    ∃ status bc', bc.writeBlockWithState hash call = .ok (status, bc') ∧
      Inv T (W ++ [call.block]) bc' ∧
      (Clean bc → (Clean bc' ↔ ¬ Shortens T bc call.block)) := by
  obtain ⟨hs, l, hh⟩ := hi
  obtain ⟨m, hm⟩ : ∃ m, T.Line p m := T.tree.exists_line (hs.mem p hp)
  have hline : T.Line call.block (m ++ [call.block]) := .child hm hb hk hn
  have hbW : call.block ∈ W ++ [call.block] := mem_append_right _ (mem_singleton.mpr rfl)
  obtain ⟨bc1, hget1, hr1⟩ := hs.GetTd hp hm
  have hh1 := hr1.headed hh
  obtain ⟨bc2, hget2, hr2⟩ := hr1.stored.GetTd hh1.mem hh1.line
  have hr := hr1.trans hr2
  have hh2 := hr2.headed hh1
  have hs3 := hr2.stored.write hp hm hb hk hn
  have hnumber : call.block.number - 1 = p.number := by omega
  -- the greatest total difficulty among all of them
  have hmost : ∀ n, lineTd l ≤ n → lineTd (m ++ [call.block]) ≤ n →
      ∀ h ∈ W ++ [call.block], ∀ m', T.Line h m' → lineTd m' ≤ n :=
    fun n hln hmn => T.tree.forall_line_append
      (fun h hmem m' hm' => (hh.most h hmem m' hm').trans hln) hline hmn
  rw [writeBlockWithState]
  simp only [← hk, hnumber, hget1, hget2, ← lineTd_append]
  rw [← lineTd_append] at hs3
  -- the block is written, the indexes are those of before
  generalize hwrite : bc2.write _ = bc3 at hs3 ⊢
  have hcurrent : bc3.currentBlock = bc.currentBlock := by
    rw [← hwrite, ← hr.currentBlock]
    rfl
  have hcanon : bc3.hc.chainDb.canonicalHash = bc.hc.chainDb.canonicalHash := by
    rw [← hwrite, ← hr.chainDb]
    rfl
  have hindexed : Indexed T bc3.hc.chainDb l := by
    obtain ⟨hindex, ⟨top, hltop, htop⟩, hlookup⟩ := hh2.indexed
    rw [← hwrite]
    exact ⟨hindex, ⟨top, hltop, htop.below, htop.above⟩, hlookup⟩
  have hclean3 : Clean bc3 ↔ Clean bc := by
    rw [Clean, Clean, hcurrent, hcanon]
  have hline3 : T.Line bc3.currentBlock l := hcurrent ▸ hh.line
  have hmem3 : bc3.currentBlock ∈ W ++ [call.block] :=
    mem_append_left _ (hcurrent ▸ hh.mem)
  split
  next hprefers =>
    have hle := prefers_le hprefers
    have hmost' := hmost _ hle le_rfl
    by_cases hext : hash p.header = hash bc3.currentBlock.header
    · -- on top of the head
      rw [if_neg (not_not.mpr hext)]
      obtain rfl := T.hash_inj _ _ (hs.mem p hp) hline3.mem hext
      obtain rfl := hm.unique hline3
      obtain ⟨hs', hcurrent', hindexed', hclean'⟩ := extend_spec hs3 hline3 hindexed hline
      refine ⟨_, _, rfl, ⟨hs', m ++ [call.block], hcurrent'.symm ▸ hbW, hcurrent'.symm ▸ hline,
        hindexed', hmost'⟩, fun hclean => iff_of_true (hclean' (hclean3.mpr hclean)) ?_⟩
      rintro ⟨hlt, -⟩
      rw [← hcurrent] at hlt
      omega
    · rw [if_pos hext]
      obtain ⟨bc4, hreorg, hs', hcurrent', hindexed', hclean'⟩ :=
        reorg_head_spec hs3 hmem3 hline3 hindexed hbW hm hline
      simp only [hreorg]
      refine ⟨_, _, rfl, ⟨hs', m ++ [call.block], hcurrent'.symm ▸ hbW, hcurrent'.symm ▸ hline,
        hindexed', hmost'⟩, fun _ => ?_⟩
      rw [hclean', shortens_iff hh.line hm hk hle, hcurrent]
  next hprefers =>
    have hnot := Bool.not_eq_true _ ▸ hprefers
    refine ⟨_, _, rfl, ⟨hs3, l, hmem3, hline3, hindexed, hmost _ le_rfl (le_of_not_prefers hnot)⟩,
      fun hclean => iff_of_true (hclean3.mpr hclean) ?_⟩
    rintro ⟨hlt, l', m', p', hl', hp', hk', -, hle⟩
    obtain rfl := hl'.unique hh.line
    obtain rfl := T.hash_inj _ _ hp'.mem hm.mem (hk'.trans hk.symm)
    obtain rfl := hp'.unique hm
    exact hprefers (prefers_of_lt (hcurrent ▸ hlt) hle)

/-! ## §6 — Runs -/

/-- The tree of the genesis header alone. -/
def genesisTree (T : ChainTree hash) : HeaderTree hash where
  genesis := T.genesis.header
  mem h := h = T.genesis.header
  genesis_mem := rfl
  number_genesis := T.number_genesis
  parent_mem _ hh hne := absurd hh hne
  hash_inj _ _ ha hb _ := ha.trans hb.symm
  hash_ne_zero _ hh := hh ▸ T.hash_ne_zero _ T.genesis_mem

/-- **The start**, with the genesis block only. -/
theorem start_spec (T : ChainTree hash) :
    ∃ bc, start hash T.genesis = .ok bc ∧ Inv T [T.genesis] bc ∧ Clean bc := by
  obtain ⟨hc, hnew, hdb, hs, l, hh⟩ := NewHeaderChain_spec (genesisTree T)
  have hnew : NewHeaderChain hash (genesisDb hash T.genesis.header) = .ok hc := hnew
  have hmem : T.genesis ∈ [T.genesis] := mem_singleton.mpr rfl
  have hline : T.Line T.genesis [T.genesis] := .root
  have hroot : (genesisTree T).Line T.genesis.header [T.genesis.header] := .root
  have hheader := mem_singleton.mpr (rfl : T.genesis.header = T.genesis.header)
  have htd : ∀ l, T.Line T.genesis l → lineTd l = totalDifficulty [T.genesis.header] := by
    intro l hl
    rw [hl.unique hline]
    rfl
  have hindex : ∀ i, hc.chainDb.canonicalHash.find? i = T.tree.index [T.genesis] i := by
    intro i
    rw [hdb]
    exact ((genesisDb_spec (genesisTree T)).2.2.2 i).trans (by cases i <;> rfl)
  refine ⟨⟨hc, .new blockCacheLimit, T.genesis, T.genesis⟩, ?_,
    ⟨?_, [T.genesis], hmem, hline, ?_, ?_⟩, ?_⟩
  · rw [start, hnew]
  · refine ⟨?_, ?_, ?_, ?_, ?_, Lru.all_new _, hs.tds.mono ?_⟩
    · rintro b hb
      exact mem_singleton.mp hb ▸ T.genesis_mem
    · rintro b hb hne
      exact absurd (mem_singleton.mp hb) hne
    · rintro b hb
      obtain rfl := mem_singleton.mp hb
      exact hs.header _ hheader
    · rintro b hb
      obtain rfl := mem_singleton.mp hb
      rw [hdb, T.transactions_genesis]
      exact GoMap.find?_insert_self _ _ _
    · rintro b hb l hl
      obtain rfl := mem_singleton.mp hb
      rw [htd l hl]
      exact hs.td _ hheader _ hroot
    · rintro k td ⟨h, hh, hk, htd'⟩
      obtain rfl := mem_singleton.mp hh
      exact ⟨T.genesis, hmem, hk, fun l hl => by rw [htd l hl]; exact htd' _ hroot⟩
  · refine ⟨fun i _ => hindex i, ⟨1, le_rfl, fun i hi => ?_, fun i hi => ?_⟩, fun t => ?_⟩
    · exact read_ne_zero hline hi (hindex i)
    · rw [hindex, index, getElem?_eq_none hi]
      rfl
    · rw [hdb, lookupOf_singleton, T.transactions_genesis]
      rfl
  · rintro b hb m hm
    obtain rfl := mem_singleton.mp hb
    rw [hm.unique hline]
  · rintro i hi
    rw [hindex, index, getElem?_eq_none]
    · rfl
    · exact Nat.succ_le_of_lt ((Nat.zero_le _).trans_lt hi)

theorem run_append (genesis : Block) (pre : List Call) (call : Call)
    (h : run hash genesis pre = .ok bc) :
    run hash genesis (pre ++ [call]) = (bc.writeBlockWithState hash call).map Prod.snd := by
  unfold run at h ⊢
  cases hstart : start hash genesis with
  | error e => rw [hstart] at h; cases h
  | ok bc0 =>
    rw [hstart] at h
    simp only at h ⊢
    rw [foldlM_append, h]
    simp only [foldlM_cons, foldlM_nil, bind_pure]
    rfl

/-- **A run of calls** keeps the invariant and does not fail. -/
theorem run_spec (T : ChainTree hash) (calls : List Call)
    (hcalls : T.ParentsFirst (calls.map Call.block)) :
    ∃ bc, run hash T.genesis calls = .ok bc ∧ Inv T (T.genesis :: calls.map Call.block) bc := by
  induction calls using reverseRecOn with
  | nil =>
    obtain ⟨bc, hstart, hi, -⟩ := start_spec T
    refine ⟨bc, ?_, hi⟩
    rw [run, hstart]
    rfl
  | append_singleton pre call ih =>
    rw [map_append] at hcalls ⊢
    obtain ⟨bc, hrun, hi⟩ := ih fun p b hp => hcalls p b (hp.trans (prefix_append _ _))
    obtain ⟨hb, hne, p, hp, hk⟩ := hcalls _ _ (prefix_refl _)
    have hn := T.tree.height_of_parent (hi.1.mem p hp) hb hne hk
    obtain ⟨status, bc', hwrite, hi', -⟩ := writeBlockWithState_spec hi hp hb hk hn
    refine ⟨bc', ?_, hi'⟩
    rw [run_append T.genesis pre call hrun, hwrite]
    rfl

/-- The last call of a run leaves entries above the head exactly if it shortens the chain. -/
theorem run_clean (T : ChainTree hash) {pre : List Call}
    (hcalls : T.ParentsFirst ((pre ++ [call]).map Call.block))
    (hrun : run hash T.genesis pre = .ok bc) (hrun' : run hash T.genesis (pre ++ [call]) = .ok bc')
    (hclean : Clean bc) : Clean bc' ↔ ¬ Shortens T bc call.block := by
  rw [map_append] at hcalls
  obtain ⟨bc1, hrun1, hi⟩ := run_spec T pre fun p b hp => hcalls p b (hp.trans (prefix_append _ _))
  obtain rfl := Except.ok.inj (hrun1.symm.trans hrun)
  obtain ⟨hb, hne, p, hp, hk⟩ := hcalls _ _ (prefix_refl _)
  have hn := T.tree.height_of_parent (hi.1.mem p hp) hb hne hk
  obtain ⟨status, bc2, hwrite, -, hiff⟩ := writeBlockWithState_spec hi hp hb hk hn
  rw [run_append T.genesis pre call hrun, hwrite] at hrun'
  obtain rfl := Except.ok.inj hrun'
  exact hiff hclean

/-- **Consistency but for numbers above the head**, in the terms of a caller. -/
structure Consistent (T : ChainTree hash) (W : List Block) (bc : BlockChain) : Prop where
  head_mem : bc.currentBlock ∈ W
  head_most : ∀ l, T.Line bc.currentBlock l → ∀ b ∈ W, ∀ m, T.Line b m → lineTd m ≤ lineTd l
  td : ∀ b ∈ W, ∀ m, T.Line b m → (bc.GetTd (hash b.header) b.number).1 = some (lineTd m)
  index : ∀ l, T.Line bc.currentBlock l → ∀ i, i < l.length →
    bc.hc.chainDb.canonicalHash.find? i = (l[i]?).map fun b => hash b.header
  lookup : ∀ l, T.Line bc.currentBlock l → ∀ t n,
    bc.hc.chainDb.txLookup.find? t = some n ↔ ∃ b ∈ l, t ∈ b.transactions ∧ b.number = n

theorem Inv.consistent (hi : Inv T W bc) : Consistent T W bc := by
  obtain ⟨hs, l, hh⟩ := hi
  refine ⟨hh.mem, fun l' hl' => ?_, fun b hb m hm => ?_, fun l' hl' => ?_, fun l' hl' t n => ?_⟩
  · obtain rfl := hh.line.unique hl'
    exact hh.most
  · obtain ⟨bc', hget, -⟩ := hs.GetTd hb hm
    rw [hget]
  · obtain rfl := hh.line.unique hl'
    exact hh.indexed.index
  · obtain rfl := hh.line.unique hl'
    rw [hh.indexed.lookup, lookupOf_eq_some_iff (T.transactions_nodup _ _ hh.line)]

/-- **The block chain is consistent in every run**, and no number above the head has an entry after
any call exactly if no call shortens the chain by a single block. -/
theorem run_consistent_iff (T : ChainTree hash) (calls : List Call)
    (hcalls : T.ParentsFirst (calls.map Call.block)) :
    (∀ pre, pre <+: calls → ∃ bc, run hash T.genesis pre = .ok bc ∧
      Consistent T (T.genesis :: pre.map Call.block) bc) ∧
    ((∀ pre, pre <+: calls → ∀ bc, run hash T.genesis pre = .ok bc → Clean bc) ↔
      ∀ pre call, pre ++ [call] <+: calls → ∀ bc, run hash T.genesis pre = .ok bc →
        ¬ Shortens T bc call.block) := by
  have hfirst : ∀ pre, pre <+: calls → T.ParentsFirst (pre.map Call.block) :=
    fun pre hpre p b hp => hcalls p b (hp.trans (hpre.map Call.block))
  refine ⟨fun pre hpre => ?_, fun hclean pre call hpre bc hrun => ?_, fun hnot pre => ?_⟩
  · obtain ⟨bc, hrun, hi⟩ := run_spec T pre (hfirst pre hpre)
    exact ⟨bc, hrun, hi.consistent⟩
  · obtain ⟨bc', hrun', -⟩ := run_spec T (pre ++ [call]) (hfirst _ hpre)
    have hbefore := hclean pre ((prefix_append _ _).trans hpre) bc hrun
    exact (run_clean T (hfirst _ hpre) hrun hrun' hbefore).mp (hclean _ hpre bc' hrun')
  · -- the induction is on the calls before
    induction pre using reverseRecOn with
    | nil =>
      intro _ bc hrun
      obtain ⟨bc0, hstart, -, hclean⟩ := start_spec T
      rw [run, hstart] at hrun
      exact Except.ok.inj hrun ▸ hclean
    | append_singleton pre call ih =>
      intro hpre bc' hrun'
      have hpre' := (prefix_append pre [call]).trans hpre
      obtain ⟨bc, hrun, -⟩ := run_spec T pre (hfirst pre hpre')
      exact (run_clean T (hfirst _ hpre) hrun hrun' (ih hpre' bc hrun)).mpr (hnot pre call hpre bc hrun)

end Spec

/-- A transaction for the sample blocks. -/
def forkTx (n : UInt8) : Hash := Hash.ofBytes [7, n]

/-- The headers of `forkHeaders` with transactions: the second block of the long branch and the only
one of the heavy branch share theirs. -/
def forkBlock (h : Header) : Block where
  header := h
  transactions :=
    if h.difficulty = 1 then [] else if h.difficulty = 2 then [forkTx 1] else [forkTx 2]

def forkBlocks : Blocks forkHash where
  genesis := forkBlock { difficulty := 1 }
  mem b := b ∈ forkHeaders.map forkBlock
  genesis_mem := by decide +kernel
  number_genesis := rfl
  parent_mem := by
    intro b hb hne
    have hparent : ∀ b ∈ forkHeaders.map forkBlock, b ≠ forkBlock { difficulty := 1 } →
        ∃ p ∈ forkHeaders.map forkBlock, forkHash p.header = b.parentHash ∧
          b.number = p.number + 1 := by
      decide +kernel
    exact hparent b hb hne
  hash_inj := by
    intro a b ha hb
    have hinj : ∀ a ∈ forkHeaders.map forkBlock, ∀ b ∈ forkHeaders.map forkBlock,
        forkHash a.header = forkHash b.header → a = b := by
      decide +kernel
    exact hinj a ha b hb
  hash_ne_zero := by decide +kernel

def forkChain : ChainTree forkHash where
  toBlocks := forkBlocks
  transactions_genesis := rfl
  transactions_nodup := by
    intro b l hl
    have hnodup : ∀ b ∈ forkHeaders.map forkBlock, ∃ l, forkBlocks.tree.Line b l ∧
        (l.flatMap Block.transactions).Nodup := by
      intro b hb
      have hmem : ∀ i < 4, forkBlock (forkHeaders.getD i {}) ∈ forkHeaders.map forkBlock := by
        decide +kernel
      have hroot : forkBlocks.tree.Line forkBlocks.genesis _ := .root
      have hone : forkBlocks.tree.Line (forkBlock (forkHeaders.getD 1 {})) _ :=
        .child hroot (hmem 1 (by decide)) (by decide +kernel) rfl
      have htwo : forkBlocks.tree.Line (forkBlock (forkHeaders.getD 2 {})) _ :=
        .child hone (hmem 2 (by decide)) (by decide +kernel) rfl
      have hheavy : forkBlocks.tree.Line (forkBlock (forkHeaders.getD 3 {})) _ :=
        .child hroot (hmem 3 (by decide)) (by decide +kernel) rfl
      rcases mem_cons.mp hb with rfl | hb
      · exact ⟨_, hroot, by decide +kernel⟩
      rcases mem_cons.mp hb with rfl | hb
      · exact ⟨_, hone, by decide +kernel⟩
      rcases mem_cons.mp hb with rfl | hb
      · exact ⟨_, htwo, by decide +kernel⟩
      · obtain rfl := mem_singleton.mp hb
        exact ⟨_, hheavy, by decide +kernel⟩
    obtain ⟨l', hl', h⟩ := hnodup b hl.mem
    rwa [hl.unique hl']

/-- The long branch, then the heavy one. -/
def forkCalls : List Call := forkHeaders.tail.map fun h => ⟨forkBlock h, none, false⟩

theorem forkCalls_parentsFirst : forkChain.ParentsFirst (forkCalls.map Call.block) := by
  refine forall_prefix_of_getElem fun i hi => ?_
  show (forkCalls.map Call.block)[i] ∈ forkHeaders.map forkBlock ∧ _
  revert i
  decide +kernel

theorem run_consistent_iff_fork :
    (∀ pre, pre <+: forkCalls → ∃ bc, run forkHash forkChain.genesis pre = .ok bc ∧
      Consistent forkChain (forkChain.genesis :: pre.map Call.block) bc) ∧
    ((∀ pre, pre <+: forkCalls → ∀ bc, run forkHash forkChain.genesis pre = .ok bc → Clean bc) ↔
      ∀ pre call, pre ++ [call] <+: forkCalls → ∀ bc, run forkHash forkChain.genesis pre = .ok bc →
        ¬ Shortens forkChain bc call.block) :=
  run_consistent_iff forkChain forkCalls forkCalls_parentsFirst

/-- **An entry is left behind.** The heavy block becomes the head with number one, and the second
block of the long branch keeps its entry at number two. -/
theorem run_leaves_stale_entry : forkChain.ParentsFirst (forkCalls.map Call.block) ∧
    (run forkHash forkChain.genesis forkCalls).toOption.map (fun bc =>
      (bc.currentBlock.number, bc.hc.chainDb.canonicalHash.find? 2)) =
      some (1, some (forkHash (forkHeaders.getD 2 {}))) :=
  ⟨forkCalls_parentsFirst, by decide +kernel⟩

end BlockChain

end MxtChain.Chain
