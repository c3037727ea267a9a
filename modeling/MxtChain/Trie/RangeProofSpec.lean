/-
# MxtChain.Trie.RangeProofSpec — what an accepted range proof says

The verifier compares one hash at the end. If the rebuilt trie has the root hash of the trie, then
its tree is the tree of the trie, so the pairs that were put back are the entries that were cut
out: provided that they were all put back, and into the range.
-/
import MxtChain.Trie.Rebuild

namespace MxtChain.Trie

open Lib.Patricia List Option History

/-! ## §1 — What the comparison of the root hash rests on -/

/-- The encodings of the nodes of a trie in memory, as far as it is loaded. -/
def loadedEncodings (H : Bytes → Hash) : Node → List Bytes
  | .short key val flags =>
    (Hasher.proofHash H (.short key val flags)).1.rlp :: loadedEncodings H val
  | .full children flags =>
    (Hasher.proofHash H (.full children flags)).1.rlp ::
      (ofFn fun i => loadedEncodings H (children i)).flatten
  | _ => []

/-- The encodings of the nodes of the trie that the verifier rebuilds. -/
def rebuiltEncodings (H : Bytes → Hash) (fuel : Nat) (rootHash : Hash) (firstKey lastKey : Bytes)
    (keys values : List Bytes) (proof : ProofDb) : List Bytes :=
  match edgeTrie fuel rootHash firstKey lastKey proof with
  | .error _ => []
  | .ok root =>
    match refill ⟨NewDatabase ∅ ∅, root⟩ (keys.zip values) with
    | .error _ => []
    | .ok t => loadedEncodings H t.root

variable {k key v first last a value buf : Bytes} {H : Bytes → Hash} {keys values E : List Bytes}
  {n : Node} {c u : Content} {pairs : List (Bytes × Bytes)} {p : ProofDb} {len fuel : Nat}
  {flag known top : Bool}

theorem encodings_subset_loaded (h : Rep H (NodeOf H c) known top n u) : Hasher.FormedPart u →
      encodings H u ⊆ loadedEncodings H n ++ encodings H c := by
  have hself : ∀ {known top : Bool} {n : Node} {u : Content}, Rep H (NodeOf H c) known top n u →
      Hasher.FormedPart u → IsInner u → n.isHash = false → (Hasher.proofHash H n).1.rlp = enc H u := by
    intro known top n u h hf hi hn
    refine (Hasher.proofHash_spec h ?_ ?_).1
    · rcases hf with rfl | ⟨v, rfl⟩ | hf
      · cases hi
      · cases hi
      · exact hf
    · rintro g rfl
      exact nomatch hn
  induction h with
  | nil | value v => intro _ e he; cases he
  | hash _ _ hk => intro _ e he; exact mem_append_right _ (hk.encs he)
  | @short known top k n u fl hrep hfl ih =>
    intro hf e he
    have hform : Formed (.short k u) := by
      rcases hf with h | ⟨v, h⟩ | h
      · cases h
      · cases h
      · exact h
    rw [loadedEncodings, hself (.short hrep hfl) hf trivial rfl]
    rcases mem_cons.mp he with rfl | he
    · exact mem_cons_self
    · exact mem_cons_of_mem _ (ih (Hasher.formedPart_child hform) he)
  | @full known top ns us fl hrep hfl ih =>
    intro hf e he
    have hform : Formed (.full us) := by
      rcases hf with h | ⟨v, h⟩ | h
      · cases h
      · cases h
      · exact h
    rw [loadedEncodings, hself (.full hrep hfl) hf trivial rfl]
    rcases mem_cons.mp he with rfl | he
    · exact mem_cons_self
    obtain ⟨l, hl, hel⟩ := mem_flatten.mp he
    obtain ⟨i, rfl⟩ := mem_ofFn.mp hl
    rcases mem_append.mp (ih i (Hasher.formedPart_arm hform i) hel) with h | h
    · exact mem_cons_of_mem _ (mem_append_left _
        (mem_flatten.mpr ⟨_, mem_ofFn.mpr ⟨i, rfl⟩, h⟩))
    · exact mem_cons_of_mem _ (mem_append_right _ h)

/-! ## §2 — Ranges -/

/-- **The pairs are the entries of the range**, and the flag says whether there are entries behind
the last of them. With no pairs there are no entries from the first key on. -/
def ExactRange (entries : Bytes → Option Bytes) (first last : Bytes) (keys values : List Bytes)
    (flag : Bool) : Prop :=
  match keys.getLast? with
  | none => (∀ k v, entries k = some v → bytesCompare k first = .lt) ∧ flag = false
  | some lastGiven =>
    (∀ k v, (k, v) ∈ keys.zip values ↔ entries k = some v ∧ InRange first last k) ∧
      (flag = true ↔ ∃ k v, entries k = some v ∧ bytesCompare lastGiven k = .lt)

theorem increasing_iff : ∀ {keys : List Bytes}, increasing keys = true ↔
    keys.Pairwise fun a b => bytesCompare a b = .lt
  | [] | [a] => by simp [increasing]
  | a :: b :: rest => by
    rw [increasing, Bool.and_eq_true, decide_eq_true_eq, increasing_iff,
      pairwise_cons (l := b :: rest)]
    constructor
    · rintro ⟨hab, hrest⟩
      refine ⟨fun x hx => ?_, hrest⟩
      rcases mem_cons.mp hx with rfl | hx
      · exact hab
      · exact bytesCompare_trans hab ((pairwise_cons.mp hrest).1 x hx)
    · rintro ⟨ha, hrest⟩
      exact ⟨ha b mem_cons_self, hrest⟩

theorem nodup_of_increasing (h : increasing keys = true) : keys.Nodup :=
  (increasing_iff.mp h).imp fun {a b} hab => by
    rintro rfl
    rw [bytesCompare_self] at hab
    cases hab

theorem not_last_lt (h : increasing keys = true) (hne : keys ≠ []) (hk : k ∈ keys) :
    bytesCompare (keys.getLast hne) k ≠ .lt := by
  intro hlt
  rw [← dropLast_append_getLast hne, mem_append, mem_singleton] at hk
  rcases hk with hk | hk
  · have hp := increasing_iff.mp h
    rw [← dropLast_append_getLast hne, pairwise_append] at hp
    have hlt' := bytesCompare_trans hlt (hp.2.2 k hk _ (mem_singleton_self _))
    rw [bytesCompare_self] at hlt'
    cases hlt'
  · rw [← hk, bytesCompare_self] at hlt
    cases hlt

theorem bytesCompare_trichotomy : ∀ a b : Bytes, bytesCompare a b = .lt ∨ a = b ∨
    bytesCompare b a = .lt
  | [], [] => .inr (.inl rfl)
  | [], _ :: _ => .inl rfl
  | _ :: _, [] => .inr (.inr rfl)
  | x :: a, y :: b => by
    rw [bytesCompare_cons_eq_lt, bytesCompare_cons_eq_lt, cons.injEq]
    rcases byte_trichotomy x y with h | rfl | h
    · exact .inl (.inl h)
    · rcases bytesCompare_trichotomy a b with h | h | h
      · exact .inl (.inr ⟨rfl, h⟩)
      · exact .inr (.inl ⟨rfl, h⟩)
      · exact .inr (.inr (.inr ⟨rfl, h⟩))
    · exact .inr (.inr (.inl h))

theorem inRange_self : InRange a a k ↔ k = a := by
  rw [InRange, ne_eq, ne_eq, bytesCompare_eq_gt, bytesCompare_eq_gt]
  constructor
  · rintro ⟨h1, h2⟩
    exact ((bytesCompare_trichotomy k a).resolve_left h1).resolve_right h2
  · rintro rfl
    simp [bytesCompare_self]

/-! ## §3 — The trie behind the root hash -/

/-- **A trie whose keys have one length**: its tree, as a specification of the verifier needs it. -/
structure Fixed (c : Content) (len : Nat) : Prop where
  minimal : Minimal terminator c
  storable : Storable c
  keyed : ∀ w v, lookup c w = some v → ∃ k, w = keybytesToHex k
  length : ∀ k v, lookup c (keybytesToHex k) = some v → k.length = len

def entry (c : Content) (k : Bytes) : Option Bytes := lookup c (keybytesToHex k)

theorem Fixed.uniform (h : Fixed c len) (hk : key.length = len) :
    Uniform (keybytesToHex key).length c := by
  intro w v hw
  obtain ⟨k, rfl⟩ := h.keyed w v hw
  rw [length_keybytesToHex, length_keybytesToHex, h.length k v hw, hk]

/-- What the shape of the tree has behind a key are the entries with larger keys. -/
theorem Fixed.rightOf_iff (h : Fixed c len) (hk : key.length = len) :
    RightOf terminator c (keybytesToHex key) ↔
      ∃ k v, entry c k = some v ∧ bytesCompare key k = .lt := by
  constructor
  · intro hr
    obtain ⟨w, v, hw, hb⟩ := exists_of_rightOf h.minimal.canon (word_keybytesToHex key) hr
    obtain ⟨k, rfl⟩ := h.keyed w v hw
    exact ⟨k, v, hw, (before_keybytesToHex (hk.trans (h.length k v hw).symm)).mp hb⟩
  · rintro ⟨k, v, hv, hlt⟩
    have hl := hk.trans (h.length k v hv).symm
    exact rightOf_of_lookup (word_keybytesToHex key) (word_keybytesToHex k) (by simp [hl]) hv
      ((before_keybytesToHex hl).mpr hlt)

theorem Fixed.value_ne_nil (h : Fixed c len) {w : Hex} (hv : lookup c w = some v) : v ≠ [] :=
  (h.storable w v hv).2.1

/-- `hasRightElement` on the trie itself. -/
theorem Fixed.hasRightElement (h : Fixed c len) {K : Content → Prop} (hrep : Rep H K known top n c)
    (hopen : Open n (keybytesToHex key)) (hk : key.length = len) :
    ∃ b, hasRightElement n key = .ok b ∧
      (b = true ↔ ∃ k v, entry c k = some v ∧ bytesCompare key k = .lt) := by
  obtain ⟨b, hres, hb⟩ := rightElement_spec hrep
    (.inl ⟨h.minimal.typed, word_keybytesToHex key⟩) hopen
  exact ⟨b, hres, hb.trans (h.rightOf_iff hk)⟩

/-! ## §4 — The rebuilt trie -/

theorem fst_asWords (h : keys.length = values.length) :
    (asWords (keys.zip values)).map Prod.fst = keys.map keybytesToHex := by
  conv_rhs => rw [← List.map_fst_zip (le_of_eq h), List.map_map]
  rw [asWords, List.map_map]
  rfl

theorem mem_asWords (h : (k, v) ∈ pairs) : (keybytesToHex k, v) ∈ asWords pairs :=
  mem_map.mpr ⟨(k, v), h, rfl⟩

theorem word_of_mem_asWords : ∀ q ∈ asWords pairs, Word terminator q.1 := by
  intro q hq
  obtain ⟨kv, _, rfl⟩ := mem_map.mp hq
  exact word_keybytesToHex kv.1

theorem exists_zip_of_mem (h : keys.length = values.length) (hk : k ∈ keys) :
    ∃ v, (k, v) ∈ keys.zip values := by
  rw [← map_fst_zip (le_of_eq h)] at hk
  obtain ⟨⟨k', v⟩, hkv, rfl⟩ := mem_map.mp hk
  exact ⟨v, hkv⟩

theorem Pruned.filling (h : Pruned H c first last n u) (hfix : Fixed c len) :
    Filling H (NodeOf H c) n u where
  rep := h.rep
  typed := h.skel.typed hfix.minimal.typed
  formed := h.formed
  values w v hv := hfix.value_ne_nil ((h.lookup_iff w v).mp hv).1

/-- The edge trie has the entries that are not in the range. -/
theorem Pruned.entry_iff (h : Pruned H c first last n u) (hfix : Fixed c len)
    (hf : first.length = len) (hl : last.length = len) :
    entry u k = some v ↔ entry c k = some v ∧ ¬ InRange first last k := by
  rw [entry, entry, h.lookup_iff]
  refine and_congr_right fun hv => ?_
  have hk := hfix.length k v hv
  rw [inRange_iff (hf.trans hk.symm) (hl.trans hk.symm)]

theorem Pruned.refill (h : Pruned H c first last n u) (hfix : Fixed c len) (hf : first.length = len)
    (hl : last.length = len) (hin : ∀ k ∈ keys, InRange first last k) (hv : ∀ v ∈ values, v ≠ [])
    (db : Database) : ∃ n', Trie.refill ⟨db, n⟩ (keys.zip values) = .ok ⟨db, n'⟩ ∧
      Filling H (NodeOf H c) n' (insertAll u (asWords (keys.zip values))) := by
  refine refill_spec (h.filling hfix) (fun kv hkv => hv _ (of_mem_zip hkv).2) ?_
  intro kv hkv q hq
  exact h.not_blocked hfix.minimal.typed (hfix.uniform hf) (hf.trans hl.symm)
    (hin _ (of_mem_zip hkv).1) q hq

/-- The entries of the rebuilt trie: the pairs, and the entries of the edge trie. -/
theorem entry_rebuilt_of_mem (ht : Typed terminator u) (hlen : keys.length = values.length)
    (hinc : increasing keys = true) (h : (k, v) ∈ keys.zip values) :
    entry (insertAll u (asWords (keys.zip values))) k = some v := by
  refine lookup_insertAll_of_mem ht word_of_mem_asWords ?_ (mem_asWords h)
  rw [fst_asWords hlen]
  exact (nodup_of_increasing hinc).map fun a b hab => keybytesToHex_inj hab

theorem entry_rebuilt_of_notMem (ht : Typed terminator u) (hlen : keys.length = values.length)
    (h : k ∉ keys) : entry (insertAll u (asWords (keys.zip values))) k = entry u k := by
  refine lookup_insertAll_of_notMem (word_keybytesToHex k) ht word_of_mem_asWords ?_
  rw [fst_asWords hlen]
  rintro hmem
  obtain ⟨k', hk', he⟩ := mem_map.mp hmem
  exact h (keybytesToHex_inj he ▸ hk')

/-- **If the rebuilt tree is the tree of the trie, the pairs are the entries of the range.** -/
theorem exact_of_rebuilt (h : Pruned H c first last n u) (hfix : Fixed c len)
    (hf : first.length = len) (hl : last.length = len) (hlen : keys.length = values.length)
    (hinc : increasing keys = true) (hne : keys ≠ []) (hin : ∀ k ∈ keys, InRange first last k)
    (htree : c = insertAll u (asWords (keys.zip values)))
    (hflag : hasRightElement n (keys.getLast hne) = .ok flag) :
    ExactRange (entry c) first last keys values flag := by
  have ht := h.skel.typed hfix.minimal.typed
  have hgiven : ∀ {k v}, (k, v) ∈ keys.zip values → entry c k = some v := by
    intro k v hkv
    rw [htree]
    exact entry_rebuilt_of_mem ht hlen hinc hkv
  have hmem : ∀ {k v}, entry c k = some v → InRange first last k → (k, v) ∈ keys.zip values := by
    intro k v hv hr
    by_cases hk : k ∈ keys
    · obtain ⟨v', hv'⟩ := exists_zip_of_mem hlen hk
      rw [hgiven hv'] at hv
      rwa [← some.inj hv]
    · have hu : entry u k = some v := by
        rw [← entry_rebuilt_of_notMem ht hlen hk, ← htree, hv]
      exact absurd hr ((h.entry_iff hfix hf hl).mp hu).2
  rw [ExactRange, getLast?_eq_some_getLast hne]
  refine ⟨fun k v => ⟨fun hkv => ⟨hgiven hkv, hin k (of_mem_zip hkv).1⟩,
    fun hkv => hmem hkv.1 hkv.2⟩, ?_⟩
  -- the flag: what is behind the last pair in the trie was not cut out
  obtain ⟨v0, hv0⟩ := exists_zip_of_mem hlen (getLast_mem hne)
  have hlast := hfix.length _ v0 (hgiven hv0)
  have hr := hin _ (getLast_mem hne)
  obtain ⟨b, hres, hb⟩ := rightElement_spec h.rep (.inl ⟨ht, word_keybytesToHex _⟩)
    (open_iff.mpr (h.not_blocked hfix.minimal.typed (hfix.uniform hf) (hf.trans hl.symm) hr))
  obtain rfl : b = flag := Except.ok.inj (hres.symm.trans hflag)
  rw [hb, ← hfix.rightOf_iff hlast]
  refine ⟨h.skel.rightOf (hfix.uniform hlast) (word_keybytesToHex _) rfl, fun hright => ?_⟩
  obtain ⟨k, v, hv, hlt⟩ := (hfix.rightOf_iff hlast).mp hright
  have hout : ¬ InRange first last k := fun hk =>
    not_last_lt hinc hne (of_mem_zip (hmem hv hk)).1 hlt
  have hkl := hlast.trans (hfix.length k v hv).symm
  exact rightOf_of_lookup (word_keybytesToHex _) (word_keybytesToHex k) (by simp [hkl])
    ((h.entry_iff hfix hf hl).mpr ⟨hv, hout⟩) ((before_keybytesToHex hkl).mpr hlt)

/-- **If the pairs are the entries of the range, the rebuilt tree is the tree of the trie.** -/
theorem rebuilt_of_exact (h : Pruned H c first last n u) (hfix : Fixed c len)
    (hf : first.length = len) (hl : last.length = len) (hlen : keys.length = values.length)
    (hinc : increasing keys = true)
    (hpairs : ∀ k v, (k, v) ∈ keys.zip values ↔ entry c k = some v ∧ InRange first last k) :
    insertAll u (asWords (keys.zip values)) = c := by
  have ht := h.skel.typed hfix.minimal.typed
  refine (h.skel.insertAll fun q hq => ?_).complete hfix.minimal.canon fun w v hw => ?_
  · obtain ⟨⟨k, v⟩, hkv, rfl⟩ := mem_map.mp hq
    exact ⟨word_keybytesToHex k, ((hpairs k v).mp hkv).1⟩
  · obtain ⟨k, rfl⟩ := hfix.keyed w v hw
    by_cases hr : InRange first last k
    · exact entry_rebuilt_of_mem ht hlen hinc ((hpairs k v).mpr ⟨hw, hr⟩)
    refine (entry_rebuilt_of_notMem ht hlen fun hk => ?_).trans
      ((h.entry_iff hfix hf hl).mpr ⟨hw, hr⟩)
    obtain ⟨v', hv'⟩ := exists_zip_of_mem hlen hk
    exact hr ((hpairs k v').mp hv').2

/-! ## §5 — What is accepted -/

section Accepted

variable {rootHash : Hash}

/-- The general case of the verifier, as a chain of its steps. -/
theorem verify_general (hlen : (key :: keys).length = values.length)
    (hinc : increasing (key :: keys) = true) (hone : ¬ (keys = [] ∧ first = last))
    (hlt : bytesCompare first last = .lt) (hfl : first.length = last.length) :
    VerifyRangeProof H fuel rootHash first last (key :: keys) values (some p) = .ok flag ↔
      ∃ root t, edgeTrie fuel rootHash first last p = .ok root ∧
        refill ⟨NewDatabase ∅ ∅, root⟩ ((key :: keys).zip values) = .ok t ∧
        checkRoot H rootHash t = .ok () ∧
        hasRightElement root ((key :: keys).getLast (cons_ne_nil _ _)) = .ok flag := by
  rw [VerifyRangeProof]
  simp only [hlen, hinc, hone, hlt, hfl, ne_eq, not_true_eq_false, if_false, Bool.true_eq_false]
  cases hedge : edgeTrie fuel rootHash first last p with
  | error e => simp
  | ok root =>
    cases hfill : refill ⟨NewDatabase ∅ ∅, root⟩ ((key :: keys).zip values) with
    | error e => simp [hfill]
    | ok t =>
      cases hroot : checkRoot H rootHash t with
      | error e | ok x => simp [hfill, hroot]

/-- No pairs are accepted if there is no entry from the first key on. -/
theorem exact_of_accepted_none (hfix : Fixed c len) (hg : Genuine H (encodings H c) p)
    (hf : first.length = len) (hfuel : 2 * len + 1 < fuel)
    (h : VerifyRangeProof H fuel (hashOf H c) first last [] [] (some p) = .ok flag) :
    ExactRange (entry c) first last [] [] flag := by
  rw [VerifyRangeProof] at h
  have hfuel' : 2 * first.length + 1 < fuel := by omega
  rcases proofToPath_start hg hfix.minimal hfix.storable first true hfuel' with
    ⟨n, hres, _, _, hrep, hopen⟩ | ⟨⟨msg, hres⟩, _⟩
  · obtain ⟨b, hright, hb⟩ := hfix.hasRightElement hrep hopen hf
    cases hl : lookup c (keybytesToHex first) with
    | some v =>
      rw [hl] at hres
      simp [increasing, hres] at h
    | none =>
      rw [hl] at hres
      cases b with
      | true => simp [increasing, hres, hright] at h
      | false =>
        simp only [increasing, hres, hright] at h
        refine ⟨fun k v hv => ?_, (Except.ok.inj h).symm⟩
        rcases bytesCompare_trichotomy k first with hlt | rfl | hgt
        · exact hlt
        · exact absurd (hl.symm.trans hv) (by simp)
        · exact absurd (hb.mpr ⟨k, v, hv, hgt⟩) (by simp)
  · simp [increasing, hres] at h

theorem exact_of_accepted_one (hfix : Fixed c len) (hg : Genuine H (encodings H c) p)
    (hf : first.length = len) (hfuel : 2 * len + 1 < fuel)
    (h : VerifyRangeProof H fuel (hashOf H c) first first [key] [value] (some p) = .ok flag) :
    ExactRange (entry c) first first [key] [value] flag := by
  rw [VerifyRangeProof] at h
  have hfuel' : 2 * first.length + 1 < fuel := by omega
  rcases proofToPath_start hg hfix.minimal hfix.storable first false hfuel' with
    ⟨n, hres, hfound, _, hrep, hopen⟩ | ⟨⟨msg, hres⟩, _⟩
  · obtain ⟨b, hright, hb⟩ := hfix.hasRightElement hrep hopen hf
    obtain ⟨v, hv⟩ := ne_none_iff_exists'.mp (hfound.resolve_left (by simp))
    rw [hv] at hres
    by_cases hk : first = key
    · subst hk
      by_cases hval : v = value
      · subst hval
        simp [increasing, hres, hright] at h
        subst h
        refine ⟨fun k w => ?_, hb⟩
        rw [inRange_self, zip_cons_cons, zip_nil_left, mem_singleton, Prod.mk.injEq]
        constructor
        · rintro ⟨rfl, rfl⟩
          exact ⟨hv, rfl⟩
        · rintro ⟨hw, rfl⟩
          exact ⟨rfl, some.inj (hw.symm.trans hv)⟩
      · simp [increasing, hres, hval] at h
    · simp [increasing, hres, hk] at h
  · simp [increasing, hres] at h

/-- **What is accepted is exact**, if all keys are in the range and no value is empty. -/
theorem exact_of_accepted (hfix : Fixed c len) (cf : CollisionFree H E)
    (he : encodings H c ⊆ E) (hg : Genuine H (encodings H c) p) (hf : first.length = len)
    (hl : last.length = len) (hfuel : 2 * len + 1 < fuel)
    (hre : rebuiltEncodings H fuel (hashOf H c) first last keys values p ⊆ E)
    (h : VerifyRangeProof H fuel (hashOf H c) first last keys values (some p) = .ok flag)
    (hin : ∀ k ∈ keys, InRange first last k) (hv : ∀ v ∈ values, v ≠ []) :
    ExactRange (entry c) first last keys values flag := by
  by_cases hlen : keys.length = values.length
  swap
  · unfold VerifyRangeProof at h
    rw [if_pos hlen] at h
    cases h
  by_cases hinc : increasing keys = true
  swap
  · unfold VerifyRangeProof at h
    rw [if_neg (not_not.mpr hlen), if_pos (by simpa using hinc)] at h
    cases h
  cases keys with
  | nil =>
    obtain rfl : values = [] := length_eq_zero_iff.mp hlen.symm
    exact exact_of_accepted_none hfix hg hf hfuel h
  | cons key keys =>
    by_cases hone : keys = [] ∧ first = last
    · obtain ⟨rfl, rfl⟩ := hone
      obtain ⟨value, rfl⟩ := length_eq_one_iff.mp hlen.symm
      exact exact_of_accepted_one hfix hg hf hfuel h
    by_cases hlt : bytesCompare first last = .lt
    swap
    · rw [VerifyRangeProof] at h
      simp [hlen, hinc, hone, hlt] at h
    obtain ⟨root, t, hedge, hfill, hroot, hflag⟩ :=
      (verify_general hlen hinc hone hlt (hf.trans hl.symm)).mp h
    have hfuel' : 2 * first.length + 1 < fuel := by omega
    rcases edgeTrie_spec hg hfix.minimal hfix.storable (hfix.uniform hf) (hf.trans hl.symm) hlt
      hfuel' with ⟨_, n, u, hn, hpr⟩ | ⟨_, msg, hn⟩ | ⟨⟨msg, hn⟩, _⟩
    · obtain rfl : root = n := Except.ok.inj (hedge.symm.trans hn)
      obtain ⟨n', hres, hfin⟩ := hpr.refill hfix hf hl hin hv (NewDatabase ∅ ∅)
      obtain rfl : t = ⟨NewDatabase ∅ ∅, n'⟩ := Except.ok.inj (hfill.symm.trans hres)
      have hre' : loadedEncodings H n' ⊆ E := by
        rw [rebuiltEncodings, hn] at hre
        simpa only [hres] using hre
      have hsub := Subset.trans (encodings_subset_loaded hfin.rep
        (.inr (.inr hfin.formed))) (append_subset.mpr ⟨hre', he⟩)
      have htree := hashOf_inj cf hfix.minimal hfix.storable hfin.formed he hsub
        ((checkRoot_iff hfin.rep hfin.formed _).mp hroot).symm
      exact exact_of_rebuilt hpr hfix hf hl hlen hinc (cons_ne_nil _ _) hin htree hflag
    · exact absurd (hedge.symm.trans hn) (by simp)
    · exact absurd (hedge.symm.trans hn) (by simp)

theorem in_range_of_exact (hfix : Fixed c len) (hlen : keys.length = values.length)
    (h : ExactRange (entry c) first last keys values flag) :
    (∀ k ∈ keys, InRange first last k) ∧ ∀ v ∈ values, v ≠ [] := by
  cases keys with
  | nil =>
    obtain rfl : values = [] := length_eq_zero_iff.mp hlen.symm
    exact ⟨fun k hk => absurd hk (by simp), fun v hv => absurd hv (by simp)⟩
  | cons key keys =>
    refine ⟨fun k hk => ?_, fun v hv => ?_⟩
    · obtain ⟨v, hkv⟩ := exists_zip_of_mem hlen hk
      exact ((h.1 k v).mp hkv).2
    · rw [← map_snd_zip (le_of_eq hlen.symm)] at hv
      obtain ⟨⟨k, v'⟩, hkv, rfl⟩ := mem_map.mp hv
      exact hfix.value_ne_nil ((h.1 k v').mp hkv).1

end Accepted

/-! ## §6 — Soundness -/

theorem fixed_contents {ws : List (Slice × Slice)} (hm : Minimal terminator (contents ws))
    (hlen : ∀ k v, lastValue ws k = some v → k.length = len) : Fixed (contents ws) len where
  minimal := hm
  storable := storable_contents ws
  keyed _ _ := exists_key_of_lookup ws
  length k v h := hlen k v ((lookup_contents k ws).symm.trans h)

theorem entry_contents (ws : List (Slice × Slice)) : entry (contents ws) = lastValue ws := by
  funext k
  exact lookup_contents k ws

/-- Nothing is accepted for the root of an empty trie: its preimage is not a node. -/
theorem not_accepted_of_empty (hp : ∀ buf, p.lookup emptyRoot = some buf → buf = emptyEnc)
    (fuel : Nat) (first last : Bytes) (keys values : List Bytes) (flag : Bool) :
    VerifyRangeProof H fuel emptyRoot first last keys values (some p) ≠ .ok flag := by
  have hres : ∃ e, resolveNode p emptyRoot = .error e := by
    rw [resolveNode]
    cases hl : p.lookup emptyRoot with
    | none => exact ⟨_, rfl⟩
    | some buf =>
      obtain rfl := hp buf hl
      exact ⟨_, rfl⟩
  obtain ⟨e, hres⟩ := hres
  have hpath : ∀ key allow, proofToPath fuel emptyRoot .nil key p allow = .error e := by
    intro key allow
    simp only [proofToPath, hres]
  have hedge : edgeTrie fuel emptyRoot first last p = .error e := by
    simp only [edgeTrie, hpath]
  cases keys with
  | nil =>
    simp only [VerifyRangeProof, hpath]
    split_ifs <;> simp
  | cons key keys =>
    simp only [VerifyRangeProof, hpath, hedge]
    split_ifs <;> simp

/-- **What an accepted range proof shows**, for every trie that any session can reach and whose
keys have one length: for any edge keys of that length, any pairs and any store of preimages, the
pairs are the entries of the range and the flag is right, exactly if all keys are in the range and
no value is empty. -/
theorem range_proof_sound_iff (H : Bytes → Hash) (disk pre : Map Hash Bytes) (ops : List Op)
    (len : Nat) (cf : CollisionFree H (hashed H start ops))
    (hlen : ∀ k v, lastValue (start.after ops).live k = some v → k.length = len) :
    ∃ s outs t, (Session.start disk pre).run H ops = .ok (s, outs) ∧
      s.trie.Hash H = .ok (rootHash H (contents (start.after ops).live), t) ∧
      ∀ (first last : Bytes) (keys values : List Bytes) (p : ProofDb) (fuel : Nat) (flag : Bool),
        first.length = len → last.length = len → 2 * len + 1 < fuel →
        (∀ g buf, p.lookup g = some buf → H buf = g) →
        (∀ g buf, p.lookup g = some buf →
          ∀ e ∈ emptyEnc :: encodings H (contents (start.after ops).live), H buf = H e → buf = e) →
        CollisionFree H (encodings H (contents (start.after ops).live) ++
          rebuiltEncodings H fuel (rootHash H (contents (start.after ops).live)) first last
            keys values p) →
        VerifyRangeProof H fuel (rootHash H (contents (start.after ops).live)) first last
          keys values (some p) = .ok flag →
        (ExactRange (lastValue (start.after ops).live) first last keys values flag ↔
          (∀ k ∈ keys, InRange first last k) ∧ ∀ v ∈ values, v ≠ []) := by
  obtain ⟨s, hrun, hok⟩ := run_refines cf ops (sessionOK_start disk pre) (Subset.refl _)
  obtain ⟨t, hhash, _⟩ := Hash_spec hok.trie
  refine ⟨s, _, t, hrun, hhash, ?_⟩
  intro first last keys values p fuel flag hf hl hfuel hpre hinj cf' hacc
  rcases hok.trie.canon with hnil | hm
  · -- an empty trie
    rw [hnil, rootHash] at hacc
    refine absurd hacc (not_accepted_of_empty (fun buf hbuf => ?_) fuel first last keys values flag)
    refine hinj _ buf hbuf emptyEnc mem_cons_self ?_
    rw [hpre _ buf hbuf, cf.empty]
  have hfix := fixed_contents hm hlen
  rw [rootHash_of_inner (isInner_of_minimal hm)] at hacc cf'
  have hg : Genuine H (encodings H (contents (start.after ops).live)) p :=
    genuine_of_preimages hpre fun g buf hb e he => hinj g buf hb e (mem_cons_of_mem _ he)
  rw [← entry_contents]
  constructor
  · refine in_range_of_exact hfix ?_
    by_contra hne
    unfold VerifyRangeProof at hacc
    rw [if_pos hne] at hacc
    cases hacc
  · rintro ⟨hin, hv⟩
    exact exact_of_accepted hfix cf' (subset_append_left _ _) hg hf hl hfuel
      (subset_append_right _ _) hacc hin hv

/-- A trie with the keys `0x10` and `0x20`. -/
def twoKeys : List Op :=
  [.update (slice [0x10]) (slice [0x01]), .update (slice [0x20]) (slice [0x02])]

/-- The root node of that trie, a branch with two small leaves. -/
def twoKeysNode : Bytes := Rlp.bigEndian 22 0xd580c23001c230028080808080808080808080808080

/-- Keccak-256 on the nodes of that trie. -/
def keccakTwoKeys : Bytes → Hash := tableHash [
  (1, 0x80, 0x56e81f171bcc55a6ff8345e692c0f86e5b48e01b996cadc001622fb5e363b421),
  (5, 0xc482201001, 0x8ff86d3946f4571bad90c3689d5d8df24c6a640d9e585893c6c753b7ad19f6fc),
  (3, 0xc23001, 0x927d4ce0fd8f9d88be6a2b980c1fdf2ad3509b221149ff1db802b468ca7d8707),
  (3, 0xc23002, 0x65c24afd0b01c8114f9dec5b3af7e08e370d0ed18badec25629fa84e5471986a),
  (22, 0xd580c23001c230028080808080808080808080808080,
    0x62c6ed11eede9076a395cc6eef3f63b5fa120d9f5213e1281c455db294ff25eb)]

/-- The edge proof for any two keys of that trie: its root node. -/
def twoKeysProof : ProofDb := AList.insert (keccakTwoKeys twoKeysNode) twoKeysNode ∅

theorem lookup_twoKeysProof {g : Hash} (h : twoKeysProof.lookup g = some buf) :
    g = keccakTwoKeys twoKeysNode ∧ buf = twoKeysNode := by
  rw [twoKeysProof] at h
  by_cases hg : g = keccakTwoKeys twoKeysNode
  · rw [hg, AList.lookup_insert] at h
    exact ⟨hg, (some.inj h).symm⟩
  · rw [AList.lookup_insert_ne hg] at h
    cases h

theorem lastValue_twoKeys (k v : Bytes)
    (h : lastValue (History.start.after twoKeys).live k = some v) :
    (k = [0x20] ∧ v = [0x02]) ∨ (k = [0x10] ∧ v = [0x01]) := by
  by_cases h1 : [0x20] = k
  · subst h1
    exact .inl ⟨rfl, (some.inj h).symm⟩
  by_cases h2 : [0x10] = k
  · subst h2
    exact .inr ⟨rfl, (some.inj h).symm⟩
  have hnone : lastValue (History.start.after twoKeys).live k = none := by
    simp [History.start, History.after, History.next, twoKeys, lastValue, slice, h1, h2]
  rw [hnone] at h
  cases h

theorem length_twoKeys (k v : Bytes) (h : lastValue (start.after twoKeys).live k = some v) :
    k.length = 1 := by
  rcases lastValue_twoKeys k v h with ⟨rfl, _⟩ | ⟨rfl, _⟩ <;> rfl

theorem range_proof_sound_iff_twoKeys :
    ExactRange (lastValue (start.after twoKeys).live) [0x10] [0x30] [[0x10], [0x20]]
      [[0x01], [0x02]] false := by
  obtain ⟨s, outs, t, _, _, hall⟩ := range_proof_sound_iff keccakTwoKeys ∅ ∅ twoKeys 1
    (by decide +kernel) length_twoKeys
  refine (hall [0x10] [0x30] [[0x10], [0x20]] [[0x01], [0x02]] twoKeysProof 4 false rfl rfl
    (by decide) (fun g buf h => ?_) (fun g buf h e he heq => ?_) (by decide +kernel)
    (by decide +kernel)).mpr (by decide +kernel)
  · obtain ⟨rfl, rfl⟩ := lookup_twoKeysProof h
    rfl
  · obtain ⟨rfl, rfl⟩ := lookup_twoKeysProof h
    revert e
    decide +kernel

/-- **A deletion is accepted**: the pair `0x18` with an empty value is not in the trie, and the
verifier accepts it between the two entries. -/
theorem range_proof_accepts_deletion : ∃ s outs t,
    (Session.start ∅ ∅).run keccakTwoKeys twoKeys = .ok (s, outs) ∧
      s.trie.Hash keccakTwoKeys = .ok (keccakTwoKeys twoKeysNode, t) ∧
      (∀ g buf, twoKeysProof.lookup g = some buf → keccakTwoKeys buf = g) ∧
      VerifyRangeProof keccakTwoKeys 4 (keccakTwoKeys twoKeysNode) [0x10] [0x30]
        [[0x10], [0x18], [0x20]] [[0x01], [], [0x02]] (some twoKeysProof) = .ok false ∧
      ¬ ExactRange (lastValue (start.after twoKeys).live) [0x10] [0x30]
        [[0x10], [0x18], [0x20]] [[0x01], [], [0x02]] false := by
  have cf : CollisionFree keccakTwoKeys (hashed keccakTwoKeys start twoKeys) := by
    decide +kernel
  obtain ⟨s, hrun, hok⟩ := run_refines cf twoKeys (sessionOK_start ∅ ∅) (Subset.refl _)
  obtain ⟨t, hhash, _⟩ := Hash_spec hok.trie
  have hroot : rootHash keccakTwoKeys (contents (start.after twoKeys).live) =
      keccakTwoKeys twoKeysNode := by decide +kernel
  refine ⟨s, _, t, hrun, hroot ▸ hhash, fun g buf h => ?_, by decide +kernel, fun h => ?_⟩
  · obtain ⟨rfl, rfl⟩ := lookup_twoKeysProof h
    rfl
  · have hmem := ((h.1 [0x18] []).mp (by decide)).1
    exact absurd hmem (by decide)

/-! ## §7 — Completeness -/

/-- **An honest range is accepted unless the root is cut off**, in which case the verifier
panics. -/
theorem accepted_iff_not_severed (hfix : Fixed c len) (hg : Genuine H (encodings H c) p)
    (hf : first.length = len) (hl : last.length = len) (hfuel : 2 * len + 1 < fuel)
    (hlt : bytesCompare first last = .lt) (hfirst : ¬ Missing H p c first)
    (hlast : ¬ Missing H p c last) (hlen : keys.length = values.length)
    (hinc : increasing keys = true)
    (hpairs : ∀ k v, (k, v) ∈ keys.zip values ↔ entry c k = some v ∧ InRange first last k)
    (hsome : ∃ k v, entry c k = some v ∧ InRange first last k) :
    (∃ flag, VerifyRangeProof H fuel (hashOf H c) first last keys values (some p) = .ok flag) ↔
      ¬ Severed c (keybytesToHex first) (keybytesToHex last) := by
  obtain ⟨k0, v0, hv0, hr0⟩ := hsome
  have hk0 := (of_mem_zip ((hpairs k0 v0).mpr ⟨hv0, hr0⟩)).1
  have hone : ¬ (keys.tail = [] ∧ first = last) := by
    rintro ⟨_, rfl⟩
    rw [bytesCompare_self] at hlt
    cases hlt
  have hfuel' : 2 * first.length + 1 < fuel := by omega
  obtain ⟨key, keys, rfl⟩ := exists_cons_of_ne_nil (ne_nil_of_mem hk0)
  rw [exists_congr fun flag => verify_general hlen hinc hone hlt (hf.trans hl.symm)]
  rcases edgeTrie_spec hg hfix.minimal hfix.storable (hfix.uniform hf) (hf.trans hl.symm) hlt
    hfuel' with ⟨hsev, n, u, hedge, hpr⟩ | ⟨hsev, msg, hedge⟩ | ⟨_, hwhy⟩
  · refine iff_of_true ?_ hsev
    have hin : ∀ k ∈ key :: keys, InRange first last k := by
      intro k hk
      obtain ⟨v, hv⟩ := exists_zip_of_mem hlen hk
      exact ((hpairs k v).mp hv).2
    have hval : ∀ v ∈ values, v ≠ [] := by
      intro v hv
      rw [← map_snd_zip (le_of_eq hlen.symm)] at hv
      obtain ⟨⟨k, v'⟩, hkv, rfl⟩ := mem_map.mp hv
      exact hfix.value_ne_nil ((hpairs k v').mp hkv).1
    obtain ⟨n', hfill, hfin⟩ := hpr.refill hfix hf hl hin hval (NewDatabase ∅ ∅)
    rw [rebuilt_of_exact hpr hfix hf hl hlen hinc hpairs] at hfin
    have hblock := hpr.not_blocked hfix.minimal.typed (hfix.uniform hf) (hf.trans hl.symm)
      (hin _ (getLast_mem (cons_ne_nil key keys)))
    obtain ⟨b, hright, _⟩ := rightElement_spec hpr.rep
      (.inl ⟨hpr.skel.typed hfix.minimal.typed, word_keybytesToHex _⟩) (open_iff.mpr hblock)
    exact ⟨b, n, _, hedge, hfill, (checkRoot_iff hfin.rep hfin.formed _).mpr rfl, hright⟩
  · refine iff_of_false ?_ (not_not.mpr hsev)
    rintro ⟨flag, root, t, hok, _⟩
    exact absurd (hedge.symm.trans hok) (by simp)
  · rcases hwhy with h | h | h
    · exact absurd h hfirst
    · exact absurd h hlast
    · have hk := hfix.length k0 v0 hv0
      exact absurd ((inRange_iff (hf.trans hk.symm) (hl.trans hk.symm)).mp hr0) (h _ v0 hv0)

/-- **When the root is not cut off**: the trie has two entries, and what all its keys begin with is
a beginning of one of the edge keys. -/
theorem not_severed_iff (hfix : Fixed c len) {l r : Hex} : ¬ Severed c l r ↔
    (∃ k k', k ≠ k' ∧ entry c k ≠ none ∧ entry c k' ≠ none) ∧
      ∀ q : Hex, (∀ k v, entry c k = some v → q <+: keybytesToHex k) → q <+: l ∨ q <+: r := by
  have hm := hfix.minimal
  -- a branch, below a label or not, has two entries, and they part right there
  have htwo : ∀ (lab : Hex) {cs : Fin 17 → Content}, c = attach lab (.full cs) →
      Minimal terminator (.full cs) →
      (∃ k k', k ≠ k' ∧ entry c k ≠ none ∧ entry c k' ≠ none) ∧
        ∀ q : Hex, (∀ k v, entry c k = some v → q <+: keybytesToHex k) → q <+: lab := by
    intro lab cs hc hcs
    obtain ⟨i, a, j, b, hij, _, _, ⟨x, hx⟩, y, hy⟩ := hcs.exists_two
    have hx' : lookup c (lab ++ i :: a) = some x := by rw [hc, lookup_attach_append, hx]
    have hy' : lookup c (lab ++ j :: b) = some y := by rw [hc, lookup_attach_append, hy]
    obtain ⟨k, hk⟩ := hfix.keyed _ _ hx'
    obtain ⟨k', hk'⟩ := hfix.keyed _ _ hy'
    rw [hk] at hx'
    rw [hk'] at hy'
    refine ⟨⟨k, k', ?_, by rw [entry, hx']; simp, by rw [entry, hy']; simp⟩, fun q hq => ?_⟩
    · rintro rfl
      have := hk.trans hk'.symm
      rw [append_cancel_left_eq, cons.injEq] at this
      exact hij this.1
    · have h1 := hq k x hx'
      have h2 := hq k' y hy'
      rw [← hk] at h1
      rw [← hk'] at h2
      exact isPrefix_of_fork hij h1 h2
  cases hcase : c with
  | nil | value v => rw [hcase] at hm; cases hm
  | full cs =>
    rw [hcase] at hm
    obtain ⟨h2, hq⟩ := htwo [] hcase hm
    rw [hcase] at h2 hq
    exact iff_of_true id ⟨h2, fun q h => .inl ((hq q h).trans nil_prefix)⟩
  | short k d =>
    have hm' := hm
    rw [hcase] at hm'
    rcases hm' with ⟨hk, v, rfl⟩ | ⟨hne, hn, ⟨cs, rfl⟩, hcs⟩
    · -- a single entry
      refine iff_of_false (not_not.mpr (.inl ⟨v, rfl⟩)) ?_
      rintro ⟨⟨a, b, hab, ha, hb⟩, _⟩
      have hone : ∀ {a}, entry (.short k (.value v)) a ≠ none → keybytesToHex a = k := by
        intro a ha
        obtain ⟨x, hx⟩ := ne_none_iff_exists'.mp ha
        obtain ⟨s, hs, hs'⟩ := lookup_short_eq_some.mp hx
        cases s with
        | nil => rw [hs, append_nil]
        | cons y s => cases hs'
      exact hab (keybytesToHex_inj ((hone ha).trans (hone hb).symm))
    obtain ⟨h2, hq⟩ := htwo k (by rw [attach_of_ne_nil hne]; exact hcase) hcs
    rw [hcase] at h2 hq
    constructor
    · intro hsev
      refine ⟨h2, fun q h => ?_⟩
      by_contra hno
      rw [not_or] at hno
      exact hsev (.inr ⟨fun h' => hno.1 ((hq q h).trans h'), fun h' => hno.2 ((hq q h).trans h')⟩)
    · rintro ⟨_, hall⟩ (⟨v, hv⟩ | ⟨hl, hr⟩)
      · cases hv
      · refine absurd (hall k fun a x hx => ?_) (not_or.mpr ⟨hl, hr⟩)
        obtain ⟨s, hs, _⟩ := lookup_short_eq_some.mp hx
        exact ⟨s, hs.symm⟩

/-- The proofs for the two edge keys hold what the verifier needs. -/
theorem not_missing_of_has (hi : IsInner c) (h : ∀ u ∈ trail c (keybytesToHex key), u = c ∨ 32 ≤ (enc H u).length →
      p.lookup (hashOf H u) ≠ none) : ¬ Missing H p c key := by
  rintro (hnone | ⟨u, hu, hlarge, hnone⟩)
  · exact h c (mem_trail_self hi _) (.inl rfl) hnone
  · exact h u hu (.inr hlarge) hnone

/-- **When an honest range proof is accepted**, for every trie that any session can reach and whose
keys have one length, and for every range with an entry in it: exactly if the trie has two entries
at least, and what all its keys begin with is a beginning of the first or of the last key. -/
theorem range_proof_complete_iff (H : Bytes → Hash) (disk pre : Map Hash Bytes) (ops : List Op)
    (len : Nat) (first last : Bytes) (cf : CollisionFree H (hashed H start ops))
    (hlen : ∀ k v, lastValue (start.after ops).live k = some v → k.length = len)
    (hf : first.length = len) (hl : last.length = len) (hlt : bytesCompare first last = .lt)
    (hsome : ∃ k v, lastValue (start.after ops).live k = some v ∧ InRange first last k) :
    ∃ s outs root t p1 p, (Session.start disk pre).run H ops = .ok (s, outs) ∧
      s.trie.Hash H = .ok (root, t) ∧ s.trie.Prove H first 0 ∅ = .ok p1 ∧
      s.trie.Prove H last 0 p1 = .ok p ∧
      ∀ (keys values : List Bytes) (fuel : Nat), keys.length = values.length →
        keys.Pairwise (fun a b => bytesCompare a b = .lt) →
        (∀ k v, (k, v) ∈ keys.zip values ↔
          lastValue (start.after ops).live k = some v ∧ InRange first last k) →
        2 * len + 1 < fuel →
        ((∃ flag, VerifyRangeProof H fuel root first last keys values (some p) = .ok flag) ↔
          (∃ k k', k ≠ k' ∧ lastValue (start.after ops).live k ≠ none ∧
            lastValue (start.after ops).live k' ≠ none) ∧
          ∀ q : Hex, (∀ k v, lastValue (start.after ops).live k = some v →
            q <+: keybytesToHex k) → q <+: keybytesToHex first ∨ q <+: keybytesToHex last) := by
  obtain ⟨s, hrun, hok⟩ := run_refines cf ops (sessionOK_start disk pre) (Subset.refl _)
  have htrie := hok.trie
  have hm : Minimal terminator (contents (start.after ops).live) := by
    refine htrie.canon.resolve_left fun hnil => ?_
    obtain ⟨k, v, hv, _⟩ := hsome
    rw [← lookup_contents, hnil] at hv
    cases hv
  have hi := isInner_of_minimal hm
  have hfix := fixed_contents hm hlen
  obtain ⟨t, hhash, _⟩ := Hash_spec htrie
  rw [rootHash_of_inner hi] at hhash
  obtain ⟨p1, hp1, hfrom1, _, hhas1⟩ := Prove_spec htrie first ∅
  obtain ⟨p, hp, hfrom, hkeep, hhas⟩ := Prove_spec htrie last p1
  have hg := genuine_of_trail cf (part_of_canon htrie.canon) htrie.storable htrie.encs
    (p := p) fun g buf hb => by
      rcases hfrom g buf hb with hb | hb
      · exact ⟨_, (hfrom1 g buf hb).resolve_left (by simp)⟩
      · exact ⟨_, hb⟩
  have hfirst := not_missing_of_has hi fun u hu hc => hkeep _ (hhas1 u hu hc)
  have hlast := not_missing_of_has hi hhas
  refine ⟨s, _, _, t, p1, p, hrun, hhash, hp1, hp, fun keys values fuel hkv hinc hpairs hfuel => ?_⟩
  rw [← entry_contents] at hsome hpairs ⊢
  rw [accepted_iff_not_severed hfix hg hf hl hfuel hlt hfirst hlast hkv (increasing_iff.mpr hinc)
    hpairs hsome]
  exact not_severed_iff hfix

theorem range_proof_complete_iff_twoKeys : ∃ s outs root t p1 p flag,
    (Session.start ∅ ∅).run keccakTwoKeys twoKeys = .ok (s, outs) ∧
      s.trie.Hash keccakTwoKeys = .ok (root, t) ∧
      s.trie.Prove keccakTwoKeys [0x10] 0 ∅ = .ok p1 ∧
      s.trie.Prove keccakTwoKeys [0x18] 0 p1 = .ok p ∧
      VerifyRangeProof keccakTwoKeys 4 root [0x10] [0x18] [[0x10]] [[0x01]] (some p) =
        .ok flag := by
  obtain ⟨s, outs, root, t, p1, p, hrun, hhash, hp1, hp, hall⟩ :=
    range_proof_complete_iff keccakTwoKeys ∅ ∅ twoKeys 1 [0x10] [0x18] (by decide +kernel)
      length_twoKeys rfl rfl (by decide) ⟨[0x10], [0x01], by decide, by decide⟩
  have hpairs : ∀ k v : Bytes, (k, v) ∈ [([0x10], [0x01])] ↔
      lastValue (start.after twoKeys).live k = some v ∧ InRange [0x10] [0x18] k := by
    intro k v
    rw [mem_singleton, Prod.mk.injEq]
    constructor
    · rintro ⟨rfl, rfl⟩
      exact ⟨by decide, by decide⟩
    · rintro ⟨h, hr⟩
      rcases lastValue_twoKeys k v h with ⟨rfl, _⟩ | hk
      · exact absurd hr (by decide)
      · exact hk
  obtain ⟨flag, hflag⟩ := (hall [[0x10]] [[0x01]] 4 rfl (by decide) hpairs (by decide)).mpr
    ⟨⟨[0x10], [0x20], by decide, by decide, by decide⟩, fun q hq => .inl
      (hq [0x10] [0x01] (by decide))⟩
  exact ⟨s, outs, root, t, p1, p, flag, hrun, hhash, hp1, hp, hflag⟩

def oneKey : List Op := [.update (slice [0x10]) (slice [0x01])]

/-- **An honest proof makes the verifier panic**: in a trie with one entry the whole trie lies
between the edge keys `0x10` and `0x18`, and its root has no parent to be cleared in. -/
theorem range_proof_panics : (do
      let (s, _) ← (Session.start ∅ ∅).run keccakTwoKeys oneKey
      let (root, _) ← s.trie.Hash keccakTwoKeys
      let p1 ← s.trie.Prove keccakTwoKeys [0x10] 0 ∅
      let p ← s.trie.Prove keccakTwoKeys [0x18] 0 p1
      VerifyRangeProof keccakTwoKeys 4 root [0x10] [0x18] [[0x10]] [[0x01]] (some p)) =
        .error (.crash "interface conversion: trie.node is nil, not *trie.fullNode") := by
  decide +kernel

end MxtChain.Trie
