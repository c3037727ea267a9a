/-
# MxtChain.Trie.Rebuild — the trie that the range verifier rebuilds

The verifier loads the two edge paths, cuts out what is between them and writes the given pairs
into what is left.
-/
import MxtChain.Trie.Cut

namespace MxtChain.Trie

open Lib.Patricia List Function

/-! ## §1 — The order of keys -/

theorem byte_trichotomy (x y : UInt8) : x < y ∨ x = y ∨ y < x := by
  simp only [UInt8.lt_iff_toNat_lt, ← UInt8.toNat_inj]
  omega

theorem bytesCompare_cons_eq_lt {x y : UInt8} {a b : Bytes} :
    bytesCompare (x :: a) (y :: b) = .lt ↔ x < y ∨ (x = y ∧ bytesCompare a b = .lt) := by
  rw [bytesCompare]
  rcases byte_trichotomy x y with h | rfl | h
  · simp [h]
  · simp
  · simp [h, UInt8.lt_asymm h, (UInt8.ne_of_lt h).symm]

theorem bytesCompare_eq_gt : ∀ {a b : Bytes}, bytesCompare a b = .gt ↔ bytesCompare b a = .lt
  | [], [] => by simp [bytesCompare]
  | [], _ :: _ => by simp [bytesCompare]
  | _ :: _, [] => by simp [bytesCompare]
  | x :: a, y :: b => by
    rw [bytesCompare_cons_eq_lt, ← bytesCompare_eq_gt, bytesCompare]
    rcases byte_trichotomy x y with h | rfl | h
    · simp [h, UInt8.lt_asymm h, (UInt8.ne_of_lt h).symm]
    · simp
    · simp [h, UInt8.lt_asymm h]

theorem bytesCompare_self : ∀ a : Bytes, bytesCompare a a = .eq
  | [] => rfl
  | x :: a => by simp [bytesCompare, bytesCompare_self a]

theorem bytesCompare_trans : ∀ {a b c : Bytes}, bytesCompare a b = .lt →
    bytesCompare b c = .lt → bytesCompare a c = .lt
  | [], [], _, h, _ => absurd h (by simp [bytesCompare])
  | _ :: _, [], _, h, _ => absurd h (by simp [bytesCompare])
  | _, _ :: _, [], _, h => absurd h (by simp [bytesCompare])
  | [], _ :: _, _ :: _, _, _ => rfl
  | x :: a, y :: b, z :: c, h, h' => by
    rw [bytesCompare_cons_eq_lt] at h h' ⊢
    rcases h with hxy | ⟨rfl, h⟩ <;> rcases h' with hyz | ⟨rfl, h'⟩
    · exact .inl (UInt8.lt_trans hxy hyz)
    · exact .inl hxy
    · exact .inl hyz
    · exact .inr ⟨rfl, bytesCompare_trans h h'⟩

/-- Bytes are ordered as their nibbles. -/
theorem byte_lt_iff (a b : UInt8) : a < b ↔ highNibble a < highNibble b ∨
    (highNibble a = highNibble b ∧ lowNibble a < lowNibble b) := by
  rw [UInt8.lt_iff_toNat_lt, Fin.lt_def, Fin.lt_def, Fin.ext_iff]
  simp only [highNibble, lowNibble]
  omega

theorem byte_eq_iff (a b : UInt8) : a = b ↔ highNibble a = highNibble b ∧
    lowNibble a = lowNibble b :=
  ⟨fun h => by rw [h]; exact ⟨rfl, rfl⟩, fun h => eq_of_nibbles h.1 h.2⟩

theorem keybytesToHex_cons (b : UInt8) (rest : Bytes) :
    keybytesToHex (b :: rest) = highNibble b :: lowNibble b :: keybytesToHex rest := rfl

/-- **Keys of one length are ordered as their words.** -/
theorem before_keybytesToHex : ∀ {a b : Bytes}, a.length = b.length →
    (Before (keybytesToHex a) (keybytesToHex b) ↔ bytesCompare a b = .lt)
  | [], [], _ => by simpa [bytesCompare] using Before.irrefl _
  | x :: a, y :: b, h => by
    rw [keybytesToHex_cons, keybytesToHex_cons, before_cons, before_cons,
      bytesCompare_cons_eq_lt, byte_lt_iff, byte_eq_iff,
      before_keybytesToHex (by simpa using h)]
    tauto

/-- Keys of whatever length are ordered at the nibble where they part, if neither ends there. -/
theorem compare_of_fork {x y : Fin 17} (hxy : x < y) (hy : y ≠ terminator) : ∀ {a b : Bytes}
    {p r s : Hex}, keybytesToHex a = p ++ x :: r → keybytesToHex b = p ++ y :: s →
      bytesCompare a b = .lt
  | [], [], [], r, s, _, hb => by
    exact absurd (cons.inj hb).1.symm hy
  | [], [], z :: p, r, s, ha, _ => absurd ha (by simp [keybytesToHex, nibbles])
  | [], _ :: _, _, _, _, _, _ => rfl
  | a :: as, [], [], r, s, _, hb => by
    exact absurd (cons.inj hb).1.symm hy
  | a :: as, [], z :: p, r, s, _, hb => absurd hb (by simp [keybytesToHex, nibbles])
  | a :: as, b :: bs, p, r, s, ha, hb => by
    rw [keybytesToHex_cons] at ha hb
    rw [bytesCompare_cons_eq_lt, byte_lt_iff, byte_eq_iff]
    rcases p with _ | ⟨z, _ | ⟨z', p⟩⟩
    · rw [nil_append, cons.injEq] at ha hb
      rw [ha.1, hb.1]
      exact .inl (.inl hxy)
    · simp only [cons_append, nil_append, cons.injEq] at ha hb
      rw [ha.1, hb.1, ha.2.1, hb.2.1]
      exact .inl (.inr ⟨rfl, hxy⟩)
    · simp only [cons_append, cons.injEq] at ha hb
      rw [ha.1, hb.1, ha.2.1, hb.2.1]
      exact .inr ⟨⟨rfl, rfl⟩, compare_of_fork hxy hy ha.2.2 hb.2.2⟩

/-- **The key lies in the range**, in the order of `bytes.Compare`. -/
def InRange (first last key : Bytes) : Prop :=
  bytesCompare first key ≠ .gt ∧ bytesCompare key last ≠ .gt

instance (first last key : Bytes) : Decidable (InRange first last key) := by
  unfold InRange
  infer_instance

variable {key v first last value : Bytes} {u t c : Content} {n : Node} {fuel : Nat}
  {H : Bytes → Hash} {K : Content → Prop} {db : Database}

theorem inRange_iff (h : first.length = key.length)
    (h' : last.length = key.length) : InRange first last key ↔
      Between (keybytesToHex first) (keybytesToHex last) (keybytesToHex key) := by
  rw [InRange, Between, before_keybytesToHex h.symm, before_keybytesToHex h', ← bytesCompare_eq_gt,
    ← bytesCompare_eq_gt (b := last)]

variable {p a b r s q e k : Hex}

/-- Where two words of one length part, neither of them ends. -/
theorem fork_ne_terminator {x y : Fin 17} (ha : Word terminator a)
    (hb : Word terminator b) (hlen : a.length = b.length) (he : a = p ++ x :: r)
    (he' : b = p ++ y :: s) (hxy : x ≠ y) : x ≠ terminator ∧ y ≠ terminator := by
  subst he he'
  have hp := ha.notMem_of_append_cons
  rw [word_append_of_notMem hp] at ha hb
  simp only [length_append, length_cons, Nat.add_left_cancel_iff, Nat.add_right_cancel_iff] at hlen
  have hend : ∀ {z z' : Fin 17} {u u' : Hex}, Word terminator (z :: u) →
      Word terminator (z' :: u') → u.length = u'.length → z ≠ z' → z ≠ terminator := by
    rintro z z' u u' h h' hl hne rfl
    rw [word_cons_term] at h
    rw [h, length_nil, eq_comm, length_eq_zero_iff] at hl
    subst hl
    rcases h' with ⟨rfl, _⟩ | ⟨_, h'⟩
    · exact hne rfl
    · exact h'
  exact ⟨hend ha hb hlen hxy, hend hb ha hlen.symm (Ne.symm hxy)⟩

/-- A path that leads to an entry outside of the range, and is on neither edge, is not on the way
of any key in the range. -/
theorem not_prefix_of_inRange (hf : ¬ q <+: keybytesToHex first) (hl : ¬ q <+: keybytesToHex last)
    (hq : q <+: e) (he : Word terminator e) (hlen : e.length = (keybytesToHex first).length)
    (hlen' : e.length = (keybytesToHex last).length)
    (hout : ¬ Between (keybytesToHex first) (keybytesToHex last) e) (hk : InRange first last key) :
    ¬ q <+: keybytesToHex key := by
  have hpast : ∀ {p s : Hex} {x : Fin 17}, e = p ++ x :: s → ¬ q <+: p → p ++ [x] <+: q := by
    intro p s x hes hqp
    have hpx : p ++ [x] <+: e := ⟨s, by rw [hes, append_assoc]; rfl⟩
    refine prefix_of_prefix_length_le hpx hq ?_
    by_contra hlt
    refine hqp (prefix_of_prefix_length_le hq ⟨x :: s, hes.symm⟩ ?_)
    rw [length_append, length_singleton] at hlt
    omega
  intro hqk
  rw [Between, not_and_or, not_not, not_not] at hout
  rcases hout with ⟨p, x, y, r, s, hes, hfs, hxy⟩ | ⟨p, x, y, r, s, hls, hes, hxy⟩
  · have hqp : ¬ q <+: p := fun h => hf (h.trans ⟨y :: s, hfs.symm⟩)
    obtain ⟨z, hz⟩ := (hpast hes hqp).trans hqk
    rw [append_assoc, singleton_append] at hz
    have hy := (fork_ne_terminator he (word_keybytesToHex first) hlen hes hfs (ne_of_lt hxy)).2
    exact hk.1 (bytesCompare_eq_gt.mpr (compare_of_fork hxy hy hz.symm hfs))
  have hqp : ¬ q <+: p := fun h => hl (h.trans ⟨x :: r, hls.symm⟩)
  obtain ⟨z, hz⟩ := (hpast hes hqp).trans hqk
  rw [append_assoc, singleton_append] at hz
  have hy := (fork_ne_terminator (word_keybytesToHex last) he hlen'.symm hls hes
    (ne_of_lt hxy)).2
  exact hk.2 (bytesCompare_eq_gt.mpr (compare_of_fork hxy hy hls hz.symm))

/-! ## §2 — The edge trie -/

section EdgeTrie

variable {H : Bytes → Hash} {c : Content} {p : ProofDb} {first last : Bytes}

/-- The store has no entry for the root or for a large node on the way of the key. -/
def Missing (H : Bytes → Hash) (p : ProofDb) (c : Content) (key : Bytes) : Prop :=
  p.lookup (hashOf H c) = none ∨ Lacks H p c (keybytesToHex key)

/-- `proofToPath` from the root hash on. -/
theorem proofToPath_start (hg : Genuine H (encodings H c) p) (hm : Minimal terminator c)
    (hs : Storable c) (key : Bytes) (allow : Bool) (hf : 2 * key.length + 1 < fuel) :
    (∃ n, proofToPath fuel (hashOf H c) .nil key p allow = .ok (n, lookup c (keybytesToHex key)) ∧
      (allow = true ∨ lookup c (keybytesToHex key) ≠ none) ∧ n.isHash = false ∧
      Rep H (NodeOf H c) false true n c ∧ Open n (keybytesToHex key)) ∨
    (∃ msg, proofToPath fuel (hashOf H c) .nil key p allow = .error (.failure msg)) ∧
      ((allow = false ∧ lookup c (keybytesToHex key) = none) ∨ Missing H p c key) := by
  have hself := nodeOf_self (H := H) hm hs
  rw [proofToPath]
  rcases resolveNode_spec hg hself false (by simp : true = false → 32 ≤ (enc H c).length) with
    ⟨n, hres, hn, hrep⟩ | ⟨hnone, msg, hres⟩
  · simp only [hres]
    rcases pathLoop_spec hg allow fuel hself hn hrep (word_keybytesToHex key) (by simpa using hf)
      with ⟨n', hok, hfound, hn', hrep', hopen, _⟩ | ⟨hbad, hwhy⟩
    · exact .inl ⟨n', hok, hfound, hn', hrep', hopen⟩
    · exact .inr ⟨hbad, hwhy.imp id .inr⟩
  · exact .inr ⟨⟨msg, by simp only [hres]⟩, .inr (.inl hnone)⟩

theorem proofToPath_next {known top : Bool} (hrep : Rep H (NodeOf H c) known top n c)
    (hm : Minimal terminator c) (fuel : Nat) (rootHash : Hash) (key : Bytes) (allow : Bool) :
    proofToPath fuel rootHash n key p allow = pathLoop p allow fuel n (keybytesToHex key) := by
  cases hrep with
  | nil | value v => cases hm
  | short _ _ | full _ _ | hash _ _ _ => rfl

/-- **The edge trie**: a loaded skeleton with the entries outside of the range, and no hash node on
either edge. -/
structure Pruned (H : Bytes → Hash) (c : Content) (first last : Bytes) (n : Node) (u : Content) :
    Prop where
  rep : Rep H (NodeOf H c) false true n u
  skel : Skel terminator c u
  formed : Formed u
  lookup_iff : ∀ w v, lookup u w = some v ↔
    lookup c w = some v ∧ ¬ Between (keybytesToHex first) (keybytesToHex last) w
  open_first : Open n (keybytesToHex first)
  open_last : Open n (keybytesToHex last)

/-- No key in the range runs into a hash node. -/
theorem Pruned.not_blocked (h : Pruned H c first last n u) (hc : Typed terminator c)
    (hu : Uniform (keybytesToHex first).length c) (hlen : first.length = last.length)
    (hk : InRange first last key) (q : Hex) (hq : HashAt n q) : ¬ q <+: keybytesToHex key := by
  -- below the hash node there is an entry, and it is outside of the range
  obtain ⟨t, hnode, _, hsub⟩ := h.rep.of_hashAt hq
  obtain ⟨r, v, _, hr⟩ := hnode.minimal.exists_lookup
  obtain ⟨he, hout⟩ := (h.lookup_iff (q ++ r) v).mp ((hsub r).trans hr)
  exact not_prefix_of_inRange (open_iff.mp h.open_first q hq) (open_iff.mp h.open_last q hq)
    (prefix_append q r) (hc.word_of_lookup he) (hu _ _ he)
    ((hu _ _ he).trans (by rw [length_keybytesToHex, length_keybytesToHex, hlen])) hout hk

/-- **What `edgeTrie` makes**: the edge trie; a panic, if the root itself is to be cut off; or an
error, because a node is missing or the range is empty. -/
theorem edgeTrie_spec (hg : Genuine H (encodings H c) p) (hm : Minimal terminator c)
    (hs : Storable c) (hu : Uniform (keybytesToHex first).length c)
    (hlen : first.length = last.length) (hlt : bytesCompare first last = .lt)
    (hf : 2 * first.length + 1 < fuel) : (¬ Severed c (keybytesToHex first) (keybytesToHex last) ∧
      ∃ n u, edgeTrie fuel (hashOf H c) first last p = .ok n ∧ Pruned H c first last n u) ∨
    (Severed c (keybytesToHex first) (keybytesToHex last) ∧
      ∃ msg, edgeTrie fuel (hashOf H c) first last p = .error (.crash msg)) ∨
    (∃ msg, edgeTrie fuel (hashOf H c) first last p = .error (.failure msg)) ∧
      (Missing H p c first ∨ Missing H p c last ∨ ∀ w v, lookup c w = some v →
        ¬ Between (keybytesToHex first) (keybytesToHex last) w) := by
  rw [edgeTrie]
  rcases proofToPath_start hg hm hs first true hf with
    ⟨n1, hres1, _, hn1, hrep1, hopen1⟩ | ⟨⟨msg, hres1⟩, hwhy⟩
  · simp only [hres1, proofToPath_next hrep1 hm]
    rcases pathLoop_spec hg true fuel (nodeOf_self (H := H) hm hs) hn1 hrep1
      (word_keybytesToHex last) (by rw [length_keybytesToHex]; omega) with
      ⟨n2, hres2, _, _, hrep2, hopen2, hhash2⟩ | ⟨⟨msg, hres2⟩, hwhy⟩
    · have hopen2' : Open n2 (keybytesToHex first) := by
        refine open_iff.mpr fun q hq hpre => ?_
        obtain ⟨q', hq', hh⟩ := hhash2 q hq
        exact open_iff.mp hopen1 q' hh (hq'.trans hpre)
      simp only [hres2, unsetRoot]
      rcases unsetInternal_spec hm hs hu (by simp [hlen]) (word_keybytesToHex first)
        (word_keybytesToHex last) ((before_keybytesToHex hlen).mpr hlt) hrep2 hopen2' hopen2 with
        ⟨o, u, hres, hcut, hdrop, hkeep⟩ | ⟨hres, hnone⟩
      · by_cases hsev : Severed c (keybytesToHex first) (keybytesToHex last)
        · obtain rfl := hdrop hsev
          exact .inr (.inl ⟨hsev, _, by simp only [hres]; rfl⟩)
        obtain ⟨n', rfl, hne⟩ := hkeep hsev
        refine .inl ⟨hsev, n', u, by simp only [hres], hcut.rep, hcut.skel,
          hcut.formed.resolve_left hne, hcut.lookup_iff, ?_, ?_⟩
        · exact open_iff.mpr fun q hq => open_iff.mp hopen2' q (hcut.hashAt q hq)
        · exact open_iff.mpr fun q hq => open_iff.mp hopen2 q (hcut.hashAt q hq)
      · exact .inr (.inr ⟨⟨_, by simp only [hres]; rfl⟩, .inr (.inr hnone)⟩)
    · refine .inr (.inr ⟨⟨msg, by simp only [hres2]⟩, .inr (.inl (.inr ?_))⟩)
      exact hwhy.resolve_left fun h => absurd h.1 (by simp)
  · refine .inr (.inr ⟨⟨msg, by simp only [hres1]⟩, .inl ?_⟩)
    exact hwhy.resolve_left fun h => absurd h.1 (by simp)

end EdgeTrie

/-! ## §3 — Putting the pairs back -/

/-- A well-formed child of a branch. -/
def FormedArm (i : Fin 17) (t : Content) : Prop :=
  (i ≠ terminator → Formed t) ∧ (i = terminator → ∃ v, v ≠ [] ∧ t = .value v)

theorem formed_pair {a b : Fin 17} (hab : a ≠ b) {s : Content} (hs : FormedArm a s)
    (hu : FormedArm b u) : Formed (.full (pair a s b u)) := by
  have harm : ∀ i, pair a s b u i = .nil ∨ FormedArm i (pair a s b u i) := by
    intro i
    by_cases hib : i = b
    · subst hib
      exact .inr (by rwa [pair_right])
    by_cases hia : i = a
    · subst hia
      exact .inr (by rwa [pair_left hab])
    · exact .inl (pair_other hia hib s u)
  exact ⟨fun i hi => (harm i).imp id fun h => h.1 hi, (harm terminator).imp id fun h => h.2 rfl⟩

theorem formed_attach (hp : terminator ∉ p) (h : Formed t) : Formed (attach p t) := by
  cases p with
  | nil => exact h
  | cons x p => exact .inr ⟨hp, h⟩

theorem formedArm_rest (hv : v ≠ []) {b : Fin 17}
    (h : Word terminator (b :: r)) : FormedArm b (attach r (.value v)) := by
  rcases h with ⟨rfl, rfl⟩ | ⟨hb, hr⟩
  · exact ⟨fun h => absurd rfl h, fun _ => ⟨v, hv, rfl⟩⟩
  · refine ⟨fun _ => ?_, fun h => absurd h hb⟩
    rw [attach_of_ne_nil hr.ne_nil]
    exact .inl ⟨hr, v, rfl⟩

/-- What is left of a label after a fork still carries its subtree. -/
theorem formedArm_cut {a : Fin 17} (hf : Formed (.short (p ++ a :: k) c))
    (hp : terminator ∉ p) (hval : ∀ x, c = .value x → x ≠ []) : FormedArm a (attach k c) := by
  rcases hf with ⟨hw, x, rfl⟩ | ⟨hn, hc⟩
  · exact formedArm_rest (hval x rfl) ((word_append_of_notMem hp).mp hw)
  · simp only [mem_append, mem_cons, not_or] at hn
    exact ⟨fun _ => formed_attach hn.2.2 hc, fun h => absurd h.symm hn.2.1⟩

/-- Inserting a value that is not empty into a well-formed tree, or into nothing, gives a
well-formed tree. -/
theorem formed_insert (hv : v ≠ []) : ∀ {t : Content} {key : Hex},
    Typed terminator t → t = .nil ∨ Formed t → (∀ w x, lookup t w = some x → x ≠ []) →
      Word terminator key → Formed (insert v t key) := by
  intro t
  induction t with
  | nil =>
    intro key _ _ _ hw
    rw [insert_nil hw.ne_nil]
    exact .inl ⟨hw, v, rfl⟩
  | value x => intro key ht; cases ht
  | short k c ih =>
    intro key ht hf hval hw
    have hf : Formed (.short k c) := hf.resolve_left (by simp)
    rcases word_label_cases hw ht with ⟨r, rfl⟩ | ⟨p, a, b, k', r, hab, rfl, rfl, hp⟩
    · rw [insert_short_append v hw.ne_nil]
      rcases hf with ⟨hk, x, rfl⟩ | ⟨hn, hc⟩
      · obtain rfl : r = [] := (word_append_of_word hk).mp hw
        exact .inl ⟨hk, v, rfl⟩
      · refine .inr ⟨hn, ih ((typed_short_of_notMem ht.label_ne_nil hn).mp ht) (.inr hc)
          (fun w x hx => hval (k ++ w) x (by rw [lookup_short_append, hx]))
          ((word_append_of_notMem hn).mp hw)⟩
    · rw [insert_short_fork v hab]
      refine formed_attach hp (formed_pair hab (formedArm_cut hf hp ?_)
        (formedArm_rest hv ((word_append_of_notMem hp).mp hw)))
      rintro x rfl
      exact hval _ x (lookup_short_self _ _)
  | full cs ih =>
    intro key ht hf hval hw
    have hf : Formed (.full cs) := hf.resolve_left (by simp)
    obtain ⟨x, r, rfl⟩ := exists_cons_of_ne_nil hw.ne_nil
    rcases hw with ⟨rfl, rfl⟩ | ⟨hx, hr⟩
    · refine ⟨fun i hi => ?_, .inr ⟨v, hv, by rw [update_self, insert_key_nil]⟩⟩
      rw [update_of_ne hi]
      exact hf.1 i hi
    refine ⟨fun i hi => ?_, ?_⟩
    · by_cases hix : i = x
      · subst hix
        rw [update_self]
        exact .inr (ih i (ht.1 i hi) (hf.1 i hi) (fun w y hy => hval (i :: w) y hy) hr)
      · rw [update_of_ne hix]
        exact hf.1 i hi
    · rw [update_of_ne (Ne.symm hx)]
      exact hf.2

/-- **A trie that is being filled**: what the verifier keeps true while it writes the pairs. -/
structure Filling (H : Bytes → Hash) (K : Content → Prop) (n : Node) (u : Content) : Prop where
  rep : Rep H K false true n u
  typed : Typed terminator u
  formed : Formed u
  values : ∀ w v, lookup u w = some v → v ≠ []

/-- One pair: a value that is not empty is written, if the key can be followed. -/
theorem tryUpdate_spec (db : Database) (h : Filling H K n u) (hv : value ≠ [])
    (hopen : Open n (keybytesToHex key)) : ∃ n', tryUpdate ⟨db, n⟩ key value = .ok ⟨db, n'⟩ ∧
      Filling H K n' (insert value u (keybytesToHex key)) ∧ ∀ q, HashAt n' q → HashAt n q := by
  have hw := word_keybytesToHex key
  have hacc : Access H db K n u (keybytesToHex key) := .inl hopen
  obtain ⟨dirty, n', hins, hrep, _, hhash⟩ := insert_spec value []
    (depth (keybytesToHex key)) h.rep hacc (.inl ⟨h.typed, hw⟩) (need_le_depth _ _)
  have hlen : value.length ≠ 0 := fun h0 => hv (length_eq_zero_iff.mp h0)
  refine ⟨n', ?_, ⟨hrep, typed_insert value h.typed hw,
    formed_insert hv h.typed (.inr h.formed) h.values hw, fun w v hl => ?_⟩, hhash hopen⟩
  · simp only [tryUpdate, Trie.TryUpdate, if_pos hlen, hins]
  · have hww := (typed_insert value h.typed hw).word_of_lookup hl
    rw [lookup_insert value h.typed hw hww] at hl
    split at hl
    · rwa [← Option.some.inj hl]
    · exact h.values w v hl

/-- The words and values of a list of pairs. -/
def asWords (pairs : List (Bytes × Bytes)) : List (Hex × Bytes) :=
  pairs.map fun kv => (keybytesToHex kv.1, kv.2)

/-- **Writing pairs with values is writing them into the tree**, one after the other, as long as
no key runs into a hash node. -/
theorem refill_spec : ∀ {pairs : List (Bytes × Bytes)} {n : Node} {u : Content},
    Filling H K n u → (∀ kv ∈ pairs, kv.2 ≠ []) →
      (∀ kv ∈ pairs, ∀ q, HashAt n q → ¬ q <+: keybytesToHex kv.1) →
        ∃ n', refill ⟨db, n⟩ pairs = .ok ⟨db, n'⟩ ∧
          Filling H K n' (insertAll u (asWords pairs)) := by
  intro pairs
  induction pairs with
  | nil => intro n u h _ _; exact ⟨n, rfl, h⟩
  | cons kv pairs ih =>
    intro n u h hv ho
    obtain ⟨key, value⟩ := kv
    obtain ⟨n1, hres, h1, hhash⟩ := tryUpdate_spec db h
      (hv (key, value) mem_cons_self)
      (open_iff.mpr (ho (key, value) mem_cons_self))
    obtain ⟨n', hrest, h'⟩ := ih h1 (fun kv' hkv => hv kv' (mem_cons_of_mem _ hkv))
      fun kv' hkv q hq => ho kv' (mem_cons_of_mem _ hkv) q (hhash q hq)
    exact ⟨n', by rw [refill, hres]; exact hrest, h'⟩

/-- The root hash of the rebuilt trie is compared. -/
theorem checkRoot_iff (h : Rep H K false true n u) (hf : Formed u)
    (rootHash : Hash) : checkRoot H rootHash ⟨db, n⟩ = .ok () ↔ hashOf H u = rootHash := by
  have hn : n ≠ .nil := by
    rintro rfl
    rw [h.nil_left] at hf
    exact hf
  have hhash : (Trie.Hash H ⟨db, n⟩) = .ok (hashOf H u, ⟨db, (Hasher.hash H n true).2⟩) := by
    have hroot : Trie.hashRoot H ⟨db, n⟩ = Hasher.hash H n true := by
      unfold Trie.hashRoot
      split
      · rename_i he
        exact absurd he hn
      · rfl
    rw [Trie.Hash, hroot]
    have hh := (Hasher.hash_root h hf).1
    rcases hres : Hasher.hash H n true with ⟨hashed, cached⟩
    rw [hres] at hh
    obtain rfl : hashed = .hash (hashOf H u) := hh
    rfl
  rw [checkRoot, hhash]
  by_cases he : hashOf H u = rootHash
  · simp [he]
  · simp [he]

end MxtChain.Trie
