/-
# MxtChain.Clique.Path — the snapshot of a block depends on its path only.

`snapshot` starts from whatever earlier calls left in memory or on disk, for this fork or another.
The invariant of the caches is that a snapshot that is kept for a block of the tree is the one that
the headers from genesis to that block give. `search` keeps the reason: what it finds, with the
headers it passed on top, is the path (`Tree.Leads`).

Two things are not as plain as the name says. Explicit parents are read from the last one down, and
only until a snapshot is found: those before may be anything. And behind more than
`FullImmutabilityThreshold` headers a checkpoint block is trusted as it is.
-/
import MxtChain.Clique.Apply
import MxtChain.Clique.Engine

namespace MxtChain.Clique

open Consensus Lib List Option Snapshot

/-! ## §1 — Header trees -/

/-- **A header tree over one genesis block**: all headers that anyone comes up with. A hash names
one of them. -/
structure Tree (E : Engine) where
  genesis : Header
  headers : Set Header
  genesis_mem : genesis ∈ headers
  genesis_number : genesis.number = 0
  /-- the list of signers can be cut out -/
  genesis_extra : extraVanity + extraSeal < genesis.extra.length + AddressLength
  hash_inj : Set.InjOn E.hash headers

namespace Tree

variable {E : Engine} (T : Tree E) {l piled parents rest headers all : List Header} {h x : Header}
  {n few : Nat} {k : Hash} {c c' : Caches} {s base : Snapshot} {chain : ChainReader}

/-- The headers above genesis, oldest first, that lead to a header. -/
inductive Path : List Header → Header → Prop
  | nil : Path [] T.genesis
  | snoc {l : List Header} {h x : Header} : Path l h → x ∈ T.headers →
      x.parentHash = E.hash h → x.number = h.number + 1 → Path (l ++ [x]) x

/-- The snapshot of the genesis block. -/
def start : Snapshot := newSnapshot 0 (E.hash T.genesis) (extraSigners T.genesis)

/-- The snapshot that a path of headers gives. -/
def fold (l : List Header) : Except CliqueError Snapshot :=
  T.start.apply E.config E.ecrecover E.hash l

/-- The chain returns headers of the tree, and all ancestors of what it has. -/
structure Reads (chain : ChainReader) : Prop where
  genesis : chain.GetHeaderByNumber 0 = some T.genesis
  ancestors : ∀ n, chain.GetHeaderByNumber n = none → chain.GetHeaderByNumber (n + 1) = none
  header : ∀ k n x, chain.GetHeader k n = some x → x ∈ T.headers ∧ E.hash x = k ∧ x.number = n

variable {T}

namespace Path

variable (p : T.Path l h)
include p

theorem mem : h ∈ T.headers := by
  cases p with
  | nil => exact T.genesis_mem
  | snoc _ hx _ _ => exact hx

theorem number : h.number = l.length := by
  induction p with
  | nil => exact T.genesis_number
  | snoc _ _ _ hnumber ih => rw [hnumber, ih, length_append, length_singleton]

theorem last : (T.genesis :: l).getLast? = some h := by
  cases p with
  | nil => rfl
  | snoc _ _ _ _ => rw [← cons_append, getLast?_concat]

theorem eq_nil (h0 : h.number = 0) : l = [] :=
  length_eq_zero_iff.mp (p.number.symm.trans h0)

/-- A path to a block that is not the genesis block comes through its parent. -/
theorem parent (hn : h.number = n + 1) :
    ∃ l' h', l = l' ++ [h] ∧ T.Path l' h' ∧ h.parentHash = E.hash h' ∧ h'.number = n := by
  cases p with
  | nil =>
    rw [T.genesis_number] at hn
    cases hn
  | snoc p _ hparent hnumber => exact ⟨_, _, rfl, p, hparent, by omega⟩

end Path

/-! ## §2 — What is kept -/

variable (T) in
/-- The snapshot is the one of its block, if that block is in the tree. -/
def Right (s : Snapshot) : Prop := ∀ l h, T.Path l h → E.hash h = s.Hash → T.fold l = .ok s

theorem right_start : T.Right T.start := by
  intro l h p hhash
  obtain rfl : h = T.genesis := T.hash_inj p.mem T.genesis_mem hhash
  rw [p.eq_nil T.genesis_number]
  rfl

variable (T) in
/-- **The caches are valid**: a snapshot stands under the hash of its block, and is right. -/
def Valid (c : Caches) : Prop :=
  ∀ k s, c.recents.find? k = some s ∨ c.db.find? k = some s → s.Hash = k ∧ T.Right s

theorem valid_fresh : T.Valid .fresh := by
  rintro k s (h | h) <;> simp [Caches.fresh] at h

namespace Valid

theorem remember (hc : T.Valid c) (hs : T.Right s) : T.Valid (c.remember s) := by
  rintro k t (h | h)
  · dsimp only [Caches.remember] at h
    rw [GoMap.find?_insert] at h
    split at h
    · next hk =>
      obtain rfl := some.inj h
      exact ⟨hk.symm, hs⟩
    · exact hc k t (.inl h)
  · exact hc k t (.inr h)

theorem store (hc : T.Valid c) (hs : T.Right s) : T.Valid (c.store s) := by
  rintro k t (h | h)
  · exact hc k t (.inl h)
  · dsimp only [Caches.store] at h
    rw [GoMap.find?_insert] at h
    split at h
    · next hk =>
      obtain rfl := some.inj h
      exact ⟨hk.symm, hs⟩
    · exact hc k t (.inr h)

theorem evict (hc : T.Valid c) (recent stored : Hash → Snapshot → Bool) :
    T.Valid ⟨c.recents.filter recent, c.db.filter stored⟩ := by
  rintro k t (h | h)
  · rw [GoMap.find?_filter] at h
    exact hc k t (.inl (eq_some_of_filter_eq_some h))
  · rw [GoMap.find?_filter] at h
    exact hc k t (.inr (eq_some_of_filter_eq_some h))

theorem lookup (hc : T.Valid c) (h : Engine.lookup c n k = some s) : s.Hash = k ∧ T.Right s := by
  unfold Engine.lookup at h
  split at h
  · next hfound =>
    obtain rfl := some.inj h
    exact hc k _ (.inl hfound)
  split at h
  · exact hc k s (.inr h)
  · cases h

end Valid

/-! ## §3 — The search -/

variable (T) in
/-- From the snapshot `base`, the headers `piled` lead to the block with this number and hash. -/
def Leads (base : Snapshot) (piled : List Header) (n : Nat) (k : Hash) : Prop :=
  ∀ l h, T.Path l h → E.hash h = k → h.number = n → ∃ a, l = a ++ piled ∧ T.fold a = .ok base

theorem leads_of_right (hs : base.Hash = k ∧ T.Right base) : T.Leads base [] n k := by
  intro l h p hhash _
  exact ⟨l, (append_nil l).symm, hs.2 l h p (hhash.trans hs.1.symm)⟩

theorem leads_start : T.Leads T.start [] 0 k := by
  intro l h p _ hnumber
  rw [p.eq_nil hnumber]
  exact ⟨[], rfl, rfl⟩

theorem Leads.step (hlead : T.Leads base piled n x.parentHash) (hx : x ∈ T.headers)
    (hnumber : x.number = n + 1) : T.Leads base (piled ++ [x]) (n + 1) (E.hash x) := by
  intro l h p hhash _
  obtain rfl : h = x := T.hash_inj p.mem hx hhash
  obtain ⟨l', h', rfl, p', hparent, hn⟩ := p.parent hnumber
  obtain ⟨a, rfl, ha⟩ := hlead l' h' p' hparent.symm hn
  exact ⟨a, append_assoc a piled [h], ha⟩

/-- Of the blocks that can be reorged, only the genesis block is trusted as it is. -/
theorem Reads.checkpoint (hchain : T.Reads chain) (hfew : few ≤ FullImmutabilityThreshold) :
    E.checkpoint chain (n + 1) few = none ∧ E.checkpoint chain 0 few = some T.genesis := by
  unfold Engine.checkpoint
  constructor
  · split
    · next hcond =>
      rcases hcond with h | ⟨-, h | h⟩
      · cases h
      · exact absurd h (by omega)
      · exact hchain.ancestors n h
    · rfl
  · exact hchain.genesis

/-- A header that is gathered is the one that was asked for. -/
theorem Reads.gather (hchain : T.Reads chain)
    (hparents : ∀ y ∈ parents, y ∈ T.headers) (h : E.gather chain n k parents = .ok (x, rest)) :
    x ∈ T.headers ∧ E.hash x = k ∧ x.number = n ∧ ∀ y ∈ rest, y ∈ T.headers := by
  unfold Engine.gather at h
  split at h
  · next y hlast =>
    split at h
    · cases h
    next hcond =>
    obtain ⟨rfl, rfl⟩ := Prod.mk.inj (Except.ok.inj h)
    simp only [not_or, not_not] at hcond
    exact ⟨hparents _ (mem_of_getLast? hlast), hcond.1, hcond.2, fun z hz =>
      hparents z (mem_of_mem_dropLast hz)⟩
  · split at h
    · cases h
    next y hread =>
    obtain ⟨rfl, rfl⟩ := Prod.mk.inj (Except.ok.inj h)
    obtain ⟨hmem, hhash, hnumber⟩ := hchain.header _ _ _ hread
    exact ⟨hmem, hhash, hnumber, hparents⟩

/-- What a search that ended says: where it started from is right, the caches are valid, and the
headers lead to the block. -/
structure Found (T : Tree E) (n : Nat) (k : Hash) (base : Snapshot) (piled : List Header)
    (c : Caches) : Prop where
  right : T.Right base
  valid : T.Valid c
  leads : T.Leads base piled n k
  last : ∀ x ∈ piled.getLast?, x ∈ T.headers ∧ E.hash x = k ∧ x.number = n

/-- A search of which nothing is left but the headers that are piled up already. -/
theorem Found.now (hright : T.Right base) (hc : T.Valid c) (hlead : T.Leads base [] n k) :
    Found T n k base [] c where
  right := hright
  valid := hc
  leads := hlead
  last := by simp

/-- **The search finds the path.** -/
theorem search_found (hchain : T.Reads chain) (hc : T.Valid c)
    (hparents : ∀ y ∈ parents, y ∈ T.headers)
    (h : E.search chain c n k parents headers = (.ok (base, all), c'))
    (hfew : all.length ≤ FullImmutabilityThreshold) :
    ∃ piled, all = piled ++ headers ∧ Found T n k base piled c' := by
  -- on the number: the search goes down one block at a time
  induction n generalizing k parents headers with
  | zero =>
    rcases Engine.search_ok h with ⟨hfound, rfl, rfl⟩ | ⟨g, hg, rfl, rfl, rfl⟩ | ⟨m, _, _, hm, _⟩
    · have hs := hc.lookup hfound
      exact ⟨[], rfl, .now hs.2 hc (leads_of_right hs)⟩
    · rw [(hchain.checkpoint hfew (n := 0)).2] at hg
      obtain rfl := some.inj hg
      exact ⟨[], rfl, .now right_start (hc.store right_start) leads_start⟩
    · cases hm
  | succ n ih =>
    rcases Engine.search_ok h with ⟨hfound, rfl, rfl⟩ | ⟨g, hg, rfl, rfl, rfl⟩ |
      ⟨m, x, rest, hm, hx, hrest⟩
    · have hs := hc.lookup hfound
      exact ⟨[], rfl, .now hs.2 hc (leads_of_right hs)⟩
    · rw [(hchain.checkpoint hfew).1] at hg
      cases hg
    obtain rfl := Nat.succ.inj hm
    obtain ⟨hmem, rfl, hnumber, hmems⟩ := hchain.gather hparents hx
    obtain ⟨piled, hall, hfound⟩ := ih hmems hrest
    refine ⟨piled ++ [x], by rw [hall, append_assoc]; rfl, ?_⟩
    exact
      { right := hfound.right
        valid := hfound.valid
        leads := hfound.leads.step hmem hnumber
        last := by
          intro y hy
          rw [getLast?_concat] at hy
          obtain rfl := some.inj hy
          exact ⟨hmem, rfl, hnumber⟩ }

/-! ## §4 — Calls -/

/-- The snapshot that the headers give is right. -/
theorem Found.right_apply (h : Found T n k base piled c)
    (happly : base.apply E.config E.ecrecover E.hash piled = .ok s) : T.Right s := by
  by_cases hne : piled = []
  · subst hne
    obtain rfl := Except.ok.inj happly
    exact h.right
  intro l t p hhash
  obtain ⟨hmem, hk, hnumber⟩ := h.last _ (getLast?_eq_some_getLast hne)
  have hlast := ((apply_ok hne).mp happly).2.2.2
  obtain rfl := T.hash_inj p.mem hmem (hhash.trans hlast)
  obtain ⟨a, rfl, ha⟩ := h.leads l _ p hk hnumber
  exact (apply_append_of_ok ha).trans happly

variable (E) in
/-- The search of a call did not pass more headers than can be reorged. -/
def Few (chain : ChainReader) (c : Caches) (number : Nat) (hash : Hash)
    (parents : List Header) : Prop :=
  ∀ found, (E.search chain c number hash parents []).1 = .ok found →
    found.2.length ≤ FullImmutabilityThreshold

/-- **A call of `snapshot`** keeps the caches valid, and its answer is the snapshot of the path. -/
theorem snapshot_sound (hchain : T.Reads chain) (hc : T.Valid c)
    (hparents : ∀ y ∈ parents, y ∈ T.headers) (hfew : Few E chain c n k parents) :
    T.Valid (E.snapshot chain c n k parents).2 ∧ ∀ s, (E.snapshot chain c n k parents).1 = .ok s →
        ∀ l t, T.Path l t → E.hash t = k → t.number = n → T.fold l = .ok s := by
  rcases hsearch : E.search chain c n k parents [] with ⟨e | ⟨base, all⟩, c'⟩
  · rw [Engine.snapshot_of_search_error hsearch]
    refine ⟨hc, fun s hs => ?_⟩
    cases hs
  have hlength := hfew (base, all) (by rw [hsearch])
  obtain ⟨piled, hall, hfound⟩ := search_found hchain hc hparents hsearch hlength
  rw [append_nil] at hall
  subst hall
  have hpath : ∀ s, base.apply E.config E.ecrecover E.hash all = .ok s →
      ∀ l t, T.Path l t → E.hash t = k → t.number = n → T.fold l = .ok s := by
    intro s hs l t p hhash hnumber
    obtain ⟨a, rfl, ha⟩ := hfound.leads l t p hhash hnumber
    exact (apply_append_of_ok ha).trans hs
  rcases Engine.snapshot_of_search_ok hsearch with ⟨e, -, h⟩ | ⟨s, hs, h | h⟩
  · rw [h]
    refine ⟨hfound.valid, fun s hs => ?_⟩
    cases hs
  · rw [h]
    refine ⟨hfound.valid.remember (hfound.right_apply hs), fun t ht => ?_⟩
    exact hpath t (hs.trans ht)
  rw [h]
  have hright := hfound.right_apply hs
  exact ⟨(hfound.valid.remember hright).store hright, fun t ht => hpath t (hs.trans ht)⟩

/-- **What befalls the caches**: a call about any block, with any headers of the tree as explicit
parents and any chain over it; or the loss of any snapshots. -/
inductive Step (T : Tree E) : Caches → Caches → Prop
  | call {c : Caches} (chain : ChainReader) (number : Nat) (hash : Hash) (parents : List Header) :
      T.Reads chain → (∀ y ∈ parents, y ∈ T.headers) → Few E chain c number hash parents →
      Step T c (E.snapshot chain c number hash parents).2
  | evict {c : Caches} (recent stored : Hash → Snapshot → Bool) :
      Step T c ⟨c.recents.filter recent, c.db.filter stored⟩

/-- Caches after a history of calls and evictions. -/
def History (T : Tree E) : Caches → Prop := Transition.Reachable (Step T) .fresh

theorem History.valid (h : T.History c) : T.Valid c := by
  refine Transition.Reachable.invariant h valid_fresh fun c c' hc hstep => ?_
  cases hstep with
  | call chain number hash parents hchain hparents hfew =>
    exact (snapshot_sound hchain hc hparents hfew).1
  | evict recent stored => exact hc.evict recent stored

/-! ## §5 — The search comes to an end -/

/-- Not more than `FullImmutabilityThreshold` headers, less those that are piled up already, are
above the genesis block or a block whose snapshot is kept. -/
def Near (T : Tree E) (c : Caches) (piled : Nat) (l : List Header) : Prop :=
  ∃ a h b, l = a ++ b ∧ T.Path a h ∧ b.length + piled ≤ FullImmutabilityThreshold ∧
    (a = [] ∨ (Engine.lookup c h.number (E.hash h)).isSome)

/-- The parents end the path, and the chain has the headers before. -/
def Linked (T : Tree E) (chain : ChainReader) (l parents : List Header) : Prop :=
  ∃ before, T.genesis :: l = before ++ parents ∧
    ∀ y ∈ before, chain.GetHeader (E.hash y) y.number = some y

theorem Linked.gather (h : T.Linked chain (l ++ [x]) parents) :
    ∃ rest, E.gather chain x.number (E.hash x) parents = .ok (x, rest) ∧
      T.Linked chain l rest := by
  obtain ⟨before, hpath, hread⟩ := h
  rw [← cons_append] at hpath
  unfold Engine.gather
  rcases eq_nil_or_concat parents with rfl | ⟨rest, y, rfl⟩
  · -- nothing is left of the explicit parents
    rw [append_nil] at hpath
    subst hpath
    have hx := hread x (by simp)
    refine ⟨[], ?_, T.genesis :: l, (append_nil _).symm, fun y hy => hread y ?_⟩
    · simp only [getLast?_nil, hx]
    · exact mem_append_left _ hy
  · rw [concat_eq_append, ← append_assoc] at hpath
    obtain ⟨hl, hy⟩ := append_inj' hpath rfl
    obtain rfl := cons.inj hy |>.1
    refine ⟨rest, ?_, before, hl, hread⟩
    simp

theorem Near.pile (h : T.Near c few (l ++ [x])) (p : T.Path (l ++ [x]) x)
    (hnone : Engine.lookup c x.number (E.hash x) = none) : T.Near c (few + 1) l := by
  obtain ⟨a, t, b, hl, pa, hfew, hend⟩ := h
  rcases eq_nil_or_concat b with rfl | ⟨b, y, rfl⟩
  · rw [append_nil] at hl
    subst hl
    rcases hend with hnil | hkept
    · simp at hnil
    obtain rfl := some.inj (pa.last.symm.trans p.last)
    rw [hnone] at hkept
    cases hkept
  · rw [concat_eq_append, ← append_assoc] at hl
    obtain ⟨hl, -⟩ := append_inj' hl rfl
    refine ⟨a, t, b, hl, pa, ?_, hend⟩
    rw [length_concat] at hfew
    omega

theorem search_total (hchain : T.Reads chain) (p : T.Path l h)
    (hlinked : T.Linked chain l parents) (hnear : T.Near c headers.length l) :
    ∃ base all c', E.search chain c h.number (E.hash h) parents headers = (.ok (base, all), c') ∧
      all.length ≤ FullImmutabilityThreshold := by
  have hfew : headers.length ≤ FullImmutabilityThreshold := by
    obtain ⟨_, _, b, _, _, hb, _⟩ := hnear
    omega
  -- on the path, from its tip down
  induction p generalizing parents headers with
  | nil =>
    rw [Engine.search.eq_def, T.genesis_number, (hchain.checkpoint hfew (n := 0)).2]
    cases Engine.lookup c 0 (E.hash T.genesis) with
    | some s => exact ⟨s, headers, c, rfl, hfew⟩
    | none =>
      dsimp only
      rw [if_neg (Nat.not_le.mpr T.genesis_extra)]
      exact ⟨_, headers, _, rfl, hfew⟩
  | @snoc l h x p hx hparent hnumber ih =>
    cases hlookup : Engine.lookup c x.number (E.hash x) with
    | some s =>
      rw [Engine.search.eq_def, hlookup]
      exact ⟨s, headers, c, rfl, hfew⟩
    | none =>
      have hpile := hnear.pile (.snoc p hx hparent hnumber) hlookup
      have hpiled : (x :: headers).length ≤ FullImmutabilityThreshold := by
        obtain ⟨_, _, b, _, _, hb, _⟩ := hpile
        rw [length_cons]
        omega
      obtain ⟨rest, hgather, hrest⟩ := hlinked.gather
      rw [hnumber] at hlookup hgather
      rw [Engine.search.eq_def, hnumber, hlookup, (hchain.checkpoint hfew).1, hgather]
      dsimp only
      rw [hparent]
      exact ih hrest hpile hpiled

/-- **A call whose parents link answers what the path gives.** -/
theorem snapshot_eq_fold (hchain : T.Reads chain) (hc : T.Valid c)
    (hparents : ∀ y ∈ parents, y ∈ T.headers) (p : T.Path l h) (hlinked : T.Linked chain l parents)
    (hnear : T.Near c 0 l) : (E.snapshot chain c h.number (E.hash h) parents).1 = T.fold l := by
  have hnone : T.Near c ([] : List Header).length l := hnear
  obtain ⟨base, all, c', hsearch, hfew⟩ := search_total hchain p hlinked hnone
  obtain ⟨piled, hall, hfound⟩ := search_found hchain hc hparents hsearch hfew
  rw [append_nil] at hall
  subst hall
  obtain ⟨a, rfl, ha⟩ := hfound.leads l h p rfl rfl
  have hfold : T.fold (a ++ all) = base.apply E.config E.ecrecover E.hash all :=
    apply_append_of_ok ha
  rcases Engine.snapshot_of_search_ok hsearch with ⟨e, he, h⟩ | ⟨s, hs, h | h⟩
  · rw [h, hfold, he]
  · rw [h, hfold, hs]
  · rw [h, hfold, hs]

end Tree

/-! ## §6 — The result -/

/-- **Snapshots depend on the path only.** After any history, a call about a block of the tree that
does not pass more headers than can be reorged answers, if it succeeds, with the fold of the headers
from genesis, whatever the explicit parents. If these link and the chain has the headers before
them, the call succeeds or fails as the fold does. And a fold can be cut at any point. -/
theorem snapshot_depends_on_path {E : Engine} (T : Tree E) {c : Caches} (hc : T.History c)
    {chain : ChainReader} (hchain : T.Reads chain) {l parents : List Header} {h : Header}
    (p : T.Path l h) (hparents : ∀ y ∈ parents, y ∈ T.headers) :
    (Tree.Few E chain c h.number (E.hash h) parents →
      ∀ s, (E.snapshot chain c h.number (E.hash h) parents).1 = .ok s → T.fold l = .ok s) ∧
    (T.Linked chain l parents → T.Near c 0 l →
      (E.snapshot chain c h.number (E.hash h) parents).1 = T.fold l) ∧
    (∀ (s : Snapshot) (a b : List Header), (s.apply E.config E.ecrecover E.hash (a ++ b)).toOption =
        (s.apply E.config E.ecrecover E.hash a).toOption.bind fun t =>
          (t.apply E.config E.ecrecover E.hash b).toOption) := by
  refine ⟨fun hfew s hs => ?_, fun hlinked hnear => ?_, fun s a b => ?_⟩
  · exact (Tree.snapshot_sound hchain hc.valid hparents hfew).2 s hs l h p rfl rfl
  · exact Tree.snapshot_eq_fold hchain hc.valid hparents p hlinked hnear
  · exact apply_append s a b

/-! ## §7 — A small tree -/

/-- The headers of the small tree are told apart by their numbers. -/
def numberHash (header : Header) : Hash := Hash.ofBytes [UInt8.ofNat header.number]

/-- Four signers; the seal of a header names its signer. -/
def smallGenesis : Header where
  extra := replicate extraVanity 0 ++ (account 1).bytes ++ (account 2).bytes ++
    (account 3).bytes ++ (account 4).bytes ++ replicate extraSeal 0

/-- A header that is signed out of turn. -/
def smallHeader (number : Nat) (signer : UInt8) : Header where
  number := number
  parentHash := Hash.ofBytes [UInt8.ofNat (number - 1)]
  uncleHash := uncleHash
  difficulty := diffNoTurn
  time := UInt64.ofNat (15 * number)
  nonce := nonceDropVote
  extra := replicate 77 0 ++ (account signer).bytes

def smallEngine : Engine where
  config := .New 15 0
  ecrecover := plainSeal
  hash := numberHash
  now := 1000
  fakeDiff := false

/-- A chain with its headers in a list, from genesis on. -/
def listReader (headers : List Header) : ChainReader where
  Config := {}
  GetHeader := fun k n => headers.find? fun x => numberHash x = k ∧ x.number = n
  GetHeaderByNumber := fun n => headers[n]?

/-- Headers in a row over the small genesis block, as a tree. -/
def smallTree (l : List Header)
    (hinj : ∀ x ∈ smallGenesis :: l, ∀ y ∈ smallGenesis :: l, numberHash x = numberHash y → x = y) :
    Tree smallEngine where
  genesis := smallGenesis
  headers := {x | x ∈ smallGenesis :: l}
  genesis_mem := mem_cons_self
  genesis_number := rfl
  genesis_extra := by decide +kernel
  hash_inj := fun x hx y hy hxy => hinj x hx y hy hxy

theorem listReader_reads {l : List Header}
    (hinj : ∀ x ∈ smallGenesis :: l, ∀ y ∈ smallGenesis :: l, numberHash x = numberHash y → x = y) :
    (smallTree l hinj).Reads (listReader (smallGenesis :: l)) where
  genesis := rfl
  ancestors := by
    intro n hn
    rw [listReader, getElem?_eq_none_iff] at hn ⊢
    omega
  header := by
    intro k n x hx
    dsimp only [listReader] at hx
    have hfound := find?_some hx
    simp only [decide_eq_true_eq] at hfound
    exact ⟨mem_of_find?_eq_some hx, hfound.1, hfound.2⟩

/-- Two blocks over the genesis block. -/
def twoBlocks : Tree smallEngine :=
  smallTree [smallHeader 1 1, smallHeader 2 2] (by decide +kernel)

/-- The chain of the two blocks. -/
def twoReader : ChainReader := listReader [smallGenesis, smallHeader 1 1, smallHeader 2 2]

theorem twoReader_reads : twoBlocks.Reads twoReader := listReader_reads _

theorem path_one : twoBlocks.Path [smallHeader 1 1] (smallHeader 1 1) :=
  .snoc .nil (mem_cons_of_mem _ mem_cons_self) (by decide +kernel) rfl

theorem path_two : twoBlocks.Path [smallHeader 1 1, smallHeader 2 2] (smallHeader 2 2) :=
  .snoc path_one (mem_of_getLast? rfl) (by decide +kernel) rfl

/-- The caches after a call about the first block. -/
def afterOne : Caches :=
  (smallEngine.snapshot twoReader .fresh 1 (numberHash (smallHeader 1 1)) []).2

theorem afterOne_history : twoBlocks.History afterOne := by
  refine .single (.call twoReader _ _ [] twoReader_reads (by simp) ?_)
  intro found hfound
  have hone : (smallEngine.search twoReader .fresh 1 (numberHash (smallHeader 1 1)) []
      []).1.toOption.map (fun found => found.2.length) = some 1 := by decide +kernel
  rw [hfound] at hone
  exact (some.inj hone).trans_le (by decide)

/-- **Parents that do not link are an error or not, as the history has it**: the same call about the
second block, with that block twice as explicit parent, fails on fresh caches and succeeds if the
snapshot of the first block is kept. -/
theorem snapshot_depends_on_history : twoBlocks.History afterOne ∧ twoBlocks.Reads twoReader ∧
    twoBlocks.Path [smallHeader 1 1, smallHeader 2 2] (smallHeader 2 2) ∧
    (smallEngine.snapshot twoReader .fresh 2 (numberHash (smallHeader 2 2))
      [smallHeader 2 2, smallHeader 2 2]).1 = .error .ErrUnknownAncestor ∧
    ∃ s, (smallEngine.snapshot twoReader afterOne 2 (numberHash (smallHeader 2 2))
      [smallHeader 2 2, smallHeader 2 2]).1 = .ok s := by
  refine ⟨afterOne_history, twoReader_reads, path_two, ?_, ?_⟩
  · have hfresh : (smallEngine.snapshot twoReader .fresh 2 (numberHash (smallHeader 2 2))
        [smallHeader 2 2, smallHeader 2 2]).1.map (fun s => s.Number) =
          .error .ErrUnknownAncestor := by decide +kernel
    exact map_error.mp hfresh
  · have hkept : (smallEngine.snapshot twoReader afterOne 2 (numberHash (smallHeader 2 2))
        [smallHeader 2 2, smallHeader 2 2]).1.toOption.isSome = true := by decide +kernel
    obtain ⟨s, hs⟩ := isSome_iff_exists.mp hkept
    exact ⟨s, toOption_eq_some.mp hs⟩

/-- After the call about the first block, the one about the second block reads that block from the
chain; and with that block twice as explicit parent, it can only give the same answer. -/
theorem snapshot_depends_on_path_two :
    (smallEngine.snapshot twoReader afterOne 2 (numberHash (smallHeader 2 2)) []).1 =
      twoBlocks.fold [smallHeader 1 1, smallHeader 2 2] ∧
    ∀ s, (smallEngine.snapshot twoReader afterOne 2 (numberHash (smallHeader 2 2))
        [smallHeader 2 2, smallHeader 2 2]).1 = .ok s →
      twoBlocks.fold [smallHeader 1 1, smallHeader 2 2] = .ok s := by
  constructor
  · refine (snapshot_depends_on_path twoBlocks afterOne_history twoReader_reads path_two
      (by simp)).2.1 ⟨_, (append_nil _).symm, ?_⟩ ?_
    · decide +kernel
    · exact ⟨[], smallGenesis, _, rfl, .nil, by decide, .inl rfl⟩
  · refine (snapshot_depends_on_path twoBlocks afterOne_history twoReader_reads path_two ?_).1 ?_
    · simpa using path_two.mem
    · intro found hfound
      have hone : (smallEngine.search twoReader afterOne 2 (numberHash (smallHeader 2 2))
          [smallHeader 2 2, smallHeader 2 2] []).1.toOption.map (fun found => found.2.length) =
            some 1 := by decide +kernel
      have hone' := (congrArg (fun r => r.toOption.map fun found => found.2.length)
        hfound).symm.trans hone
      exact (some.inj hone').trans_le (by decide)

end MxtChain.Clique
