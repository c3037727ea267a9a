/-
# MxtChain.Trie.Session — a trie over its lifetime is a map

A session is one trie over one database: updates, deletions, lookups, hashing, committing, and
re-opening the last committed root. Next to it runs its `History`, which knows nothing of nodes:
the list of the writes that are in effect. `Session.run_refines` says that the session never
fails and stays in step with the history.
-/
import MxtChain.Trie.CommitterSpec
import MxtChain.Trie.TrieSpec

namespace MxtChain.Trie

open Lib.Patricia List

/-! ## §1 — What each operation does to a trie -/

/-- **The trie stands for the tree `c`.** -/
structure TrieOK (H : Bytes → Hash) (E : List Bytes) (t : Trie) (c : Content) : Prop where
  db : DbOK H E t.db
  rep : Rep H (Stored H t.db) false true t.root c
  canon : Canon terminator c
  storable : Storable c
  encs : encodings H c ⊆ E

section Operations

variable {H : Bytes → Hash} {E : List Bytes} {t : Trie} {c : Content}

theorem part_of_canon (h : Canon terminator c) : Part c := h.imp id .inr

theorem at_key (h : Canon terminator c) (key : Bytes) : At c (keybytesToHex key) :=
  .inl ⟨h.typed, word_keybytesToHex key⟩

theorem TrieOK.root_nil (h : TrieOK H E t c) (hn : t.root = .nil) : c = .nil := by
  have hr := h.rep
  rw [hn] at hr
  exact hr.nil_left

theorem TrieOK.minimal (h : TrieOK H E t c) (hn : t.root ≠ .nil) : Minimal terminator c := by
  refine h.canon.resolve_left ?_
  rintro rfl
  exact hn h.rep.nil_right

theorem trieOK_empty {db : Database} (h : DbOK H E db) : TrieOK H E ⟨db, .nil⟩ .nil where
  db := h
  rep := .nil
  canon := canon_nil _
  storable := storable_nil
  encs := fun _ hb => absurd hb (by simp [encodings])

theorem TryGet_spec (h : TrieOK H E t c) (key : Bytes) : ∃ t',
    t.TryGet key = .ok (lookup c (keybytesToHex key), t') ∧ TrieOK H E t' c ∧ t'.db = t.db := by
  have hat : At c ((keybytesToHex key).drop 0) := at_key h.canon key
  obtain ⟨n', b, hget, hrep⟩ := tryGet_spec (backed_stored H t.db) 0
    (depth (keybytesToHex key)) h.rep (part_of_canon h.canon) hat (need_le_depth _ _)
  rw [drop_zero] at hget
  refine ⟨if b then { t with root := n' } else t, ?_, ?_, ?_⟩
  · simp only [Trie.TryGet, hget]
  · cases b with
    | true => exact { h with rep := hrep }
    | false => exact h
  · cases b <;> rfl

/-- Storing a slice under a slice keeps the contents storable. -/
theorem storable_insert (hc : Canon terminator c) (hs : Storable c) (k v : Slice)
    (hv : v.data ≠ []) : Storable (insert v.data c (keybytesToHex k.data)) := by
  intro key w hw
  have hword := (hc.insert v.data (word_keybytesToHex k.data)).typed.word_of_lookup hw
  rw [lookup_insert v.data hc.typed (word_keybytesToHex k.data) hword] at hw
  split at hw
  · rename_i he
    obtain rfl := Option.some.inj hw
    have hf := k.fits
    rw [he, length_keybytesToHex]
    exact ⟨by omega, hv, v.fits⟩
  · exact hs key w hw

theorem storable_delete (hc : Canon terminator c) (hs : Storable c) (k : Bytes) :
    Storable (delete c (keybytesToHex k)) := by
  intro key w hw
  have hword := (hc.delete (word_keybytesToHex k)).typed.word_of_lookup hw
  rw [lookup_delete hc.typed (word_keybytesToHex k) hword] at hw
  split at hw
  · cases hw
  · exact hs key w hw

theorem delete_ok (h : TrieOK H E t c) (k : Bytes)
    (he : encodings H (delete c (keybytesToHex k)) ⊆ E) : ∃ b n,
      Trie.delete t.db (depth (keybytesToHex k)) t.root [] (keybytesToHex k) = .ok (b, n) ∧
        TrieOK H E { t with root := n } (delete c (keybytesToHex k)) := by
  obtain ⟨b, n, hdel, hrep, _⟩ := delete_spec (backed_stored H t.db) []
    (depth (keybytesToHex k)) h.rep (part_of_canon h.canon) (at_key h.canon k) (need_le_depth _ _)
  exact ⟨b, n, hdel, ⟨h.db, hrep, h.canon.delete (word_keybytesToHex k),
    storable_delete h.canon h.storable k, he⟩⟩

theorem TryDelete_spec (h : TrieOK H E t c) (k : Bytes)
    (he : encodings H (delete c (keybytesToHex k)) ⊆ E) : ∃ t', t.TryDelete k = .ok t' ∧
      TrieOK H E t' (delete c (keybytesToHex k)) ∧ t'.db = t.db := by
  obtain ⟨b, n, hdel, hok⟩ := delete_ok h k he
  exact ⟨_, by simp only [Trie.TryDelete, hdel], hok, rfl⟩

/-- The tree after writing a value; an empty value deletes. -/
noncomputable def write (c : Content) (k v : Bytes) : Content :=
  if v = [] then delete c (keybytesToHex k) else insert v c (keybytesToHex k)

theorem TryUpdate_spec (h : TrieOK H E t c) (k v : Slice)
    (he : encodings H (write c k.data v.data) ⊆ E) : ∃ t', t.TryUpdate k.data v.data = .ok t' ∧
      TrieOK H E t' (write c k.data v.data) ∧ t'.db = t.db := by
  by_cases hv : v.data = []
  · rw [write, if_pos hv] at he ⊢
    obtain ⟨b, n, hdel, hok⟩ := delete_ok h k.data he
    refine ⟨_, ?_, hok, rfl⟩
    simp only [Trie.TryUpdate, hv, length_nil, ne_eq, not_true_eq_false, if_false, hdel]
  rw [write, if_neg hv] at he ⊢
  obtain ⟨b, n, hins, hrep, _⟩ := insert_spec v.data [] (depth (keybytesToHex k.data)) h.rep
    (.inr ⟨backed_stored H t.db, part_of_canon h.canon⟩) (at_key h.canon k.data)
    (need_le_depth _ _)
  have hlen : v.data.length ≠ 0 := fun h0 => hv (length_eq_zero_iff.mp h0)
  refine ⟨{ t with root := n }, ?_, ⟨h.db, hrep, ?_, ?_, he⟩, rfl⟩
  · simp only [Trie.TryUpdate, if_pos hlen, hins]
  · exact (h.canon.insert v.data (word_keybytesToHex k.data)).canon
  · exact storable_insert h.canon h.storable k v hv

/-- The hash of a tree that is not empty is that of its root. -/
theorem Hash_of_root (hn : t.root ≠ .nil) (hm : Minimal terminator c)
    (hhash : (Hasher.hash H t.root true).1 = .hash (hashOf H c)) :
    t.Hash H = .ok (rootHash H c, { t with root := (Hasher.hash H t.root true).2 }) := by
  have hroot : t.hashRoot H = Hasher.hash H t.root true := by
    unfold Trie.hashRoot
    split
    · rename_i he
      exact absurd he hn
    · rfl
  rw [Trie.Hash, hroot, rootHash_of_inner (isInner_of_minimal hm)]
  rcases hres : Hasher.hash H t.root true with ⟨hashed, cached⟩
  rw [hres] at hhash
  obtain rfl : hashed = .hash (hashOf H c) := hhash
  rfl

theorem Hash_spec (h : TrieOK H E t c) : ∃ t', t.Hash H = .ok (rootHash H c, t') ∧
    TrieOK H E t' c ∧ t'.db = t.db ∧
    (t.root ≠ .nil → Rep H (Stored H t.db) true true t'.root c) := by
  by_cases hn : t.root = .nil
  · obtain rfl := h.root_nil hn
    refine ⟨{ t with root := .nil }, ?_, { h with rep := .nil }, rfl, fun h => absurd hn h⟩
    simp only [Trie.Hash, Trie.hashRoot, hn, rootHash]
  have hm := h.minimal hn
  obtain ⟨hhash, hrep⟩ := Hasher.hash_root h.rep (formed_of_minimal hm h.storable)
  exact ⟨_, Hash_of_root hn hm hhash, { h with rep := hrep.forget }, rfl, fun _ => hrep⟩

/-- Commit of a tree that is not empty hashes it, and stores it if anything changed. -/
theorem Commit_of_Hash {t1 : Trie} {h : MxtChain.Hash} (hn : t.root ≠ .nil)
    (hhash : t.Hash H = .ok (h, t1)) : t.Commit H = if t1.root.cache.2 = false then .ok (h, t1)
      else match Committer.Commit t1.root t1.db with
        | .error e => .error e
        | .ok (newRoot, db) => .ok (h, ⟨db, .hash newRoot⟩) := by
  unfold Trie.Commit
  split
  · next he => exact absurd he hn
  · simp only [hhash] <;> rfl

/-- Commit stores the tree, keeps everything that was stored before and does not change what the
trie stands for. -/
theorem Commit_spec (cf : CollisionFree H E) (h : TrieOK H E t c) : ∃ t',
    t.Commit H = .ok (rootHash H c, t') ∧ TrieOK H E t' c ∧
      (c ≠ .nil → Stored H t'.db c) ∧ Committer.Extends H E t.db t'.db := by
  by_cases hn : t.root = .nil
  · obtain rfl := h.root_nil hn
    refine ⟨t, ?_, h, fun hne => absurd rfl hne, .refl h.db⟩
    simp only [Trie.Commit, hn, rootHash]
  have hm := h.minimal hn
  obtain ⟨t1, hhash, hok1, hdb, hrep1⟩ := Hash_spec h
  have hrep := hrep1 hn
  rw [Commit_of_Hash hn hhash]
  by_cases hd : t1.root.cache.2 = false
  · -- nothing changed since the trie was loaded
    rw [if_pos hd]
    have hstored : Stored H t.db c := by
      rcases hroot : t1.root with _ | ⟨ns, fl⟩ | ⟨k, n, fl⟩ | g | v <;> rw [hroot] at hd hrep
      · cases hd
      · cases hrep with
        | full _ hfl => exact hfl.clean hd (hfl.root rfl hd)
      · cases hrep with
        | short _ hfl => exact hfl.clean hd (hfl.root rfl hd)
      · cases hd
      · cases hd
    exact ⟨t1, rfl, hok1, fun _ => hdb ▸ hstored, hdb ▸ .refl hok1.db⟩
  · rw [if_neg hd, hdb]
    obtain ⟨db', hc, hext, hdone⟩ := Committer.commit_spec cf h.db hrep hm h.storable h.encs
    have hst : Stored H db' c := ⟨hdone.2 (.inl rfl), hdone.1⟩
    have hcc : Committer.Commit t1.root t.db = .ok (hashOf H c, db') := by
      rw [Committer.Commit, hc]
      rfl
    refine ⟨⟨db', .hash (hashOf H c)⟩, by rw [hcc], { h with db := hext.ok, rep := ?_ },
      fun _ => hst, hext⟩
    exact .hash (isInner_of_minimal hm) (nofun) hst

/-- Opening a committed root gives a trie that stands for the committed tree. -/
theorem New_spec (cf : CollisionFree H E) {db : Database} (hdb : DbOK H E db)
    (hc : Canon terminator c) (hs : Storable c) (he : encodings H c ⊆ E)
    (hst : c ≠ .nil → Stored H db c) : ∃ t', Trie.New (rootHash H c) db = .ok t' ∧
      TrieOK H E t' c ∧ t'.db = db := by
  rcases hc with rfl | hm
  · refine ⟨⟨db, .nil⟩, ?_, trieOK_empty hdb, rfl⟩
    simp [Trie.New, rootHash]
  have hi := isInner_of_minimal hm
  have hstored := hst hm.ne_nil
  obtain ⟨rn, hres, _, hrn⟩ := (backed_stored H db).load false true
    (.inr (.inr hm)) hi (nofun) hstored []
  refine ⟨⟨db, rn⟩, ?_, ⟨hdb, hrn, hm.canon, hs, he⟩, rfl⟩
  rw [rootHash_of_inner hi, Trie.New,
    if_pos ⟨cf.hashOf_ne_zero hi he, cf.hashOf_ne_emptyRoot hm hs he⟩, hres]

end Operations

/-! ## §2 — Sessions -/

/-- The operations of a session. -/
inductive Op where
  | update (key value : Slice)
  | delete (key : Slice)
  | get (key : Slice)
  | hash
  | commit
  | reopen

/-- A trie, and the root that was committed last. -/
structure Session where
  trie : Trie
  committed : Hash

namespace Session

/-- A new trie over a new database. -/
def start (diskdb diskPreimages : Map Hash Bytes) : Session :=
  ⟨⟨NewDatabase diskdb diskPreimages, .nil⟩, emptyRoot⟩

/-- One operation: the session afterwards, and the answer if the operation is a lookup. -/
def step (H : Bytes → Hash) (s : Session) : Op → Except Err (Session × List (Option Bytes))
  | .update key value => (s.trie.TryUpdate key.data value.data).map fun t => ({ s with trie := t }, [])
  | .delete key => (s.trie.TryDelete key.data).map fun t => ({ s with trie := t }, [])
  | .get key => (s.trie.TryGet key.data).map fun r => ({ s with trie := r.2 }, [r.1])
  | .hash => (s.trie.Hash H).map fun r => ({ s with trie := r.2 }, [])
  | .commit => (s.trie.Commit H).map fun r => (⟨r.2, r.1⟩, [])
  | .reopen => (Trie.New s.committed s.trie.db).map fun t => ({ s with trie := t }, [])

/-- A sequence of operations, and the answers of its lookups. -/
def run (H : Bytes → Hash) : Session → List Op → Except Err (Session × List (Option Bytes))
  | s, [] => .ok (s, [])
  | s, op :: ops =>
    match s.step H op with
    | .error e => .error e
    | .ok (s, out) => (run H s ops).map fun r => (r.1, out ++ r.2)

end Session

/-! ## §3 — Histories -/

/-- A slice without bytes. -/
def emptySlice : Slice := ⟨[], by decide⟩

/-- The writes in effect, the newest first, and those that were in effect at the last commit. A
write of an empty value is a deletion. -/
structure History where
  live : List (Slice × Slice)
  committed : List (Slice × Slice)

namespace History

def start : History := ⟨[], []⟩

/-- Re-opening the committed root forgets what was not committed. -/
def next (h : History) : Op → History
  | .update key value => { h with live := (key, value) :: h.live }
  | .delete key => { h with live := (key, emptySlice) :: h.live }
  | .get _ => h
  | .hash => h
  | .commit => { h with committed := h.live }
  | .reopen => { h with live := h.committed }

/-- The history after a sequence of operations. -/
def after (h : History) (ops : List Op) : History := ops.foldl next h

end History

/-- **The value of the last update of a key**, unless the key was deleted after it. -/
def lastValue : List (Slice × Slice) → Bytes → Option Bytes
  | [], _ => none
  | (k, v) :: rest, key =>
    if k.data = key then (if v.data = [] then none else some v.data) else lastValue rest key

/-- The answers that the lookups of a session should give. -/
def answers (h : History) : List Op → List (Option Bytes)
  | [] => []
  | .get key :: ops => lastValue h.live key.data :: answers (h.next (.get key)) ops
  | op :: ops => answers (h.next op) ops

/-- The tree that a list of writes makes. -/
noncomputable def contents : List (Slice × Slice) → Content
  | [] => .nil
  | (k, v) :: rest => write (contents rest) k.data v.data

/-- The encodings of the nodes of all trees that a session goes through. -/
noncomputable def hashed (H : Bytes → Hash) (h : History) : List Op → List Bytes
  | [] => encodings H (contents h.live)
  | op :: ops => encodings H (contents h.live) ++ hashed H (h.next op) ops

theorem canon_write {c : Content} (h : Canon terminator c) (k v : Bytes) :
    Canon terminator (write c k v) := by
  unfold write
  split
  · exact h.delete (word_keybytesToHex k)
  · exact (h.insert v (word_keybytesToHex k)).canon

theorem canon_contents : ∀ ws : List (Slice × Slice), Canon terminator (contents ws)
  | [] => canon_nil _
  | (k, v) :: rest => canon_write (canon_contents rest) k.data v.data

theorem storable_contents : ∀ ws : List (Slice × Slice), Storable (contents ws)
  | [] => storable_nil
  | (k, v) :: rest => by
    rw [contents, write]
    split
    · exact storable_delete (canon_contents rest) (storable_contents rest) k.data
    · rename_i hv
      exact storable_insert (canon_contents rest) (storable_contents rest) k v hv

/-- **The tree of a list of writes is the map of its last values.** -/
theorem lookup_contents (key : Bytes) : ∀ ws : List (Slice × Slice),
    lookup (contents ws) (keybytesToHex key) = lastValue ws key
  | [] => rfl
  | (k, v) :: rest => by
    have ih := lookup_contents key rest
    have ht := (canon_contents rest).typed
    have heq : keybytesToHex key = keybytesToHex k.data ↔ k.data = key :=
      ⟨fun h => (keybytesToHex_inj h).symm, fun h => by rw [h]⟩
    rw [contents, write, lastValue]
    by_cases hv : v.data = []
    · rw [if_pos hv, lookup_delete ht (word_keybytesToHex _) (word_keybytesToHex _), ih]
      simp only [heq, hv, if_true]
    · rw [if_neg hv, lookup_insert _ ht (word_keybytesToHex _) (word_keybytesToHex _), ih]
      simp only [heq, hv, if_false]

/-! ## §4 — A session keeps in step with its history -/

/-- **The session and its history agree.** -/
structure SessionOK (H : Bytes → Hash) (E : List Bytes) (s : Session) (h : History) : Prop where
  trie : TrieOK H E s.trie (contents h.live)
  root : s.committed = rootHash H (contents h.committed)
  encs : encodings H (contents h.committed) ⊆ E
  stored : contents h.committed ≠ .nil → Stored H s.trie.db (contents h.committed)

section Refinement

variable {H : Bytes → Hash} {E : List Bytes}

theorem sessionOK_start (disk pre : Map Hash Bytes) :
    SessionOK H E (Session.start disk pre) History.start where
  trie := trieOK_empty (dbOK_new E disk pre)
  root := rfl
  encs := fun _ hb => absurd hb (by simp [encodings, contents, History.start])
  stored h := absurd rfl h

/-- Replacing the trie by one over the same database. -/
theorem SessionOK.set_trie {s : Session} {h h' : History} (hs : SessionOK H E s h) {t : Trie}
    (hc : h'.committed = h.committed) (ht : TrieOK H E t (contents h'.live))
    (hdb : t.db = s.trie.db) : SessionOK H E { s with trie := t } h' where
  trie := ht
  root := hc ▸ hs.root
  encs := hc ▸ hs.encs
  stored hn := by
    rw [hc] at hn ⊢
    rw [show ({ s with trie := t } : Session).trie.db = s.trie.db from hdb]
    exact hs.stored hn

/-- The answer an operation gives. -/
def answer (h : History) : Op → List (Option Bytes)
  | .get key => [lastValue h.live key.data]
  | _ => []

theorem answers_cons (h : History) (op : Op) (ops : List Op) :
    answers h (op :: ops) = answer h op ++ answers (h.next op) ops := by
  cases op <;> rfl

/-- **One operation**: it succeeds, answers as the history says, and keeps the two in step. -/
theorem step_refines (cf : CollisionFree H E) {s : Session} {h : History}
    (hs : SessionOK H E s h) (op : Op) (he : encodings H (contents (h.next op).live) ⊆ E) :
    ∃ s', s.step H op = .ok (s', answer h op) ∧ SessionOK H E s' (h.next op) := by
  cases op with
  | update key value =>
    obtain ⟨t, hup, hok, hdb⟩ := TryUpdate_spec hs.trie key value he
    exact ⟨_, by rw [Session.step, hup]; rfl, hs.set_trie rfl hok hdb⟩
  | delete key =>
    have hw : contents (h.next (.delete key)).live =
        MxtChain.Lib.Patricia.delete (contents h.live) (keybytesToHex key.data) := by
      rw [History.next, contents, write]
      exact if_pos rfl
    obtain ⟨t, hdel, hok, hdb⟩ := TryDelete_spec hs.trie key.data (hw ▸ he)
    exact ⟨_, by rw [Session.step, hdel]; rfl, hs.set_trie rfl (hw ▸ hok) hdb⟩
  | get key =>
    obtain ⟨t, hget, hok, hdb⟩ := TryGet_spec hs.trie key.data
    refine ⟨_, ?_, hs.set_trie rfl hok hdb⟩
    rw [Session.step, hget, lookup_contents]
    rfl
  | hash =>
    obtain ⟨t, hhash, hok, hdb, _⟩ := Hash_spec hs.trie
    exact ⟨_, by rw [Session.step, hhash]; rfl, hs.set_trie rfl hok hdb⟩
  | commit =>
    obtain ⟨t, hcommit, hok, hst, hext⟩ := Commit_spec cf hs.trie
    refine ⟨⟨t, rootHash H (contents h.live)⟩, ?_, ⟨hok, rfl, hs.trie.encs, hst⟩⟩
    rw [Session.step, hcommit]
    rfl
  | reopen =>
    obtain ⟨t, hnew, hok, hdb⟩ := New_spec cf hs.trie.db (canon_contents h.committed)
      (storable_contents h.committed) hs.encs hs.stored
    refine ⟨_, ?_, hs.set_trie rfl hok hdb⟩
    rw [Session.step, hs.root, hnew]
    rfl

theorem encodings_subset_hashed (h : History) (op : Op) (ops : List Op) :
    encodings H (contents (h.next op).live) ⊆ hashed H (h.next op) ops := by
  cases ops with
  | nil => exact Subset.refl _
  | cons op' ops => exact subset_append_left _ _

/-- **A whole session refines its history.** -/
theorem run_refines (cf : CollisionFree H E) : ∀ (ops : List Op) {s : Session} {h : History},
    SessionOK H E s h → hashed H h ops ⊆ E →
      ∃ s', s.run H ops = .ok (s', answers h ops) ∧ SessionOK H E s' (h.after ops)
  | [], s, h, hs, _ => ⟨s, rfl, hs⟩
  | op :: ops, s, h, hs, he => by
    have htail := Subset.trans (subset_append_right _ _) he
    obtain ⟨s1, hstep, hs1⟩ := step_refines cf hs op
      (Subset.trans (encodings_subset_hashed h op ops) htail)
    obtain ⟨s', hrun, hs'⟩ := run_refines cf ops hs1 htail
    refine ⟨s', ?_, hs'⟩
    rw [Session.run, hstep]
    simp only [hrun, answers_cons]
    rfl

end Refinement

/-! ## §5 — Lookups -/

/-- **Every lookup of every session returns the last value written**, and no operation fails:
whatever is updated, deleted, looked up, hashed, committed and re-opened in whatever order, if the
hash function does not collide on the nodes of the trees in between. -/
theorem session_lookups (H : Bytes → Hash) (disk pre : Map Hash Bytes) (ops : List Op)
    (cf : CollisionFree H (hashed H History.start ops)) :
    ∃ s, (Session.start disk pre).run H ops = .ok (s, answers History.start ops) := by
  obtain ⟨s, hrun, _⟩ := run_refines cf ops (sessionOK_start disk pre) (Subset.refl _)
  exact ⟨s, hrun⟩

/-- Keccak-256 on the nodes of the tries over the keys `a` and `ab` below. -/
def keccakSample : Bytes → Hash := tableHash [
  (1, 0x80, 0x56e81f171bcc55a6ff8345e692c0f86e5b48e01b996cadc001622fb5e363b421),
  (5, 0xc482206178, 0x6fa762f54f5feb347453b423be702ce32d6024261434ba01c74edb625b5090a4),
  (35, 0xe232a00102030405060708090a0b0c0d0e0f101112131415161718191a1b1c1d1e1f20,
    0xe099dfe65bd7b568aaa60ec9f5046fdb6363b3538a81936e664714f4ade29ff5),
  (50, 0xf1808080808080a0e099dfe65bd7b568aaa60ec9f5046fdb6363b3538a81936e664714f4ade29ff580808080808080808078,
    0x1e2f06a19d3955c904226b2819b20190c793012fbe2656ea1b235749a70acf08),
  (37, 0xe4820061a01e2f06a19d3955c904226b2819b20190c793012fbe2656ea1b235749a70acf08,
    0x2f90f8f7712da58ef55fd0e14ae8ea80d04003bd547ff18b14815fc1d2d93972),
  (38, 0xe583206162a00102030405060708090a0b0c0d0e0f101112131415161718191a1b1c1d1e1f20,
    0x397c8f758e7330218c32834ae446f65aa502259635a128a87f4633b58bbcb38c),
  (50, 0xf1808080808080a0e099dfe65bd7b568aaa60ec9f5046fdb6363b3538a81936e664714f4ade29ff580808080808080808079,
    0x3aeb9f11b7854456ff2e9f4270ae5bd77fe112a1e2c33e0f6640bece09495ea1),
  (37, 0xe4820061a03aeb9f11b7854456ff2e9f4270ae5bd77fe112a1e2c33e0f6640bece09495ea1,
    0xfdf263d416007e37177a277215059d17710eb3a647d135f503855f03c5f4a002)]

/-- A slice with the bytes of a short list. -/
def slice (b : Bytes) (h : b.length < maxSliceLength := by decide) : Slice := ⟨b, h⟩

def byteSlice (b : UInt8) : Slice where
  data := [b]
  fits := by
    show 1 < 2 ^ 48
    norm_num

def keyA : Slice := slice [0x61]

/-- The key `ab`, of which `a` is a proper beginning. -/
def keyAB : Slice := slice [0x61, 0x62]

/-- A value of 32 bytes: its leaf is referred to by hash. -/
def longValue : Slice := slice (Rlp.bigEndian 32
  0x0102030405060708090a0b0c0d0e0f101112131415161718191a1b1c1d1e1f20)

theorem session_lookups_after_reopen : ∃ s, (Session.start ∅ ∅).run keccakSample
    [.update keyA (slice [0x78]), .update keyAB longValue, .commit, .reopen, .get keyA,
      .get keyAB, .get (slice [0x62])] = .ok (s, [some [0x78], some longValue.data, none]) :=
  session_lookups keccakSample ∅ ∅ [.update keyA (slice [0x78]), .update keyAB longValue, .commit,
    .reopen, .get keyA, .get keyAB, .get (slice [0x62])] (by decide +kernel)

/-! ## §6 — The trie is canonical -/

/-- The tree that a node stands for, found by loading everything below it. -/
def resolveAll (db : Database) : Nat → Node → Option Content
  | 0, _ => none
  | _ + 1, .nil => some .nil
  | _ + 1, .value v => some (.value v)
  | fuel + 1, .short key val _ => (resolveAll db fuel val).map (.short key)
  | fuel + 1, .full children _ =>
    if ∀ i, (resolveAll db fuel (children i)).isSome then
      some (.full fun i => (resolveAll db fuel (children i)).getD .nil)
    else none
  | fuel + 1, .hash h =>
    match Trie.resolveHash db h [] with
    | .ok n => resolveAll db fuel n
    | .error _ => none

section Canonical

variable {H : Bytes → Hash} {E : List Bytes} {K : Content → Prop} {db : Database}

/-- What the specification says about loading everything, with enough depth. -/
def Resolves (db : Database) (n : Node) (t : Content) : Prop :=
  ∃ N, ∀ fuel, N ≤ fuel → resolveAll db fuel n = some t

theorem resolves_of_loaded (hb : Backed H db K) {known top : Bool} {t : Content} (hp : Part t)
    (h : ∀ n, n.isHash = false → Rep H K known top n t → Resolves db n t) {n : Node}
    (hrep : Rep H K known top n t) : Resolves db n t := by
  rcases hrep.loaded_or with hn | ⟨rfl, hi, hl, hk⟩
  · exact h n hn hrep
  obtain ⟨rn, hres, hnh, hrn⟩ := hb.load known _ hp hi hl hk []
  obtain ⟨N, hN⟩ := h rn hnh hrn
  refine ⟨N + 1, fun fuel hf => ?_⟩
  obtain ⟨fuel, rfl⟩ := Nat.exists_eq_add_of_le' (le_trans (by omega) hf : 1 ≤ fuel)
  rw [resolveAll, hres]
  exact hN fuel (by omega)

/-- **Loading everything gives the tree the node stands for.** -/
theorem resolveAll_spec (hb : Backed H db K) : ∀ {t : Content} {known top : Bool} {n : Node},
    Rep H K known top n t → Part t → Resolves db n t := by
  intro t
  induction t with
  | nil =>
    intro known top n hrep _
    obtain rfl := hrep.nil_right
    exact ⟨1, fun fuel hf => by obtain ⟨f, rfl⟩ := Nat.exists_eq_add_of_le' hf; rfl⟩
  | value v =>
    intro known top n hrep _
    obtain rfl := hrep.value_right
    exact ⟨1, fun fuel hf => by obtain ⟨f, rfl⟩ := Nat.exists_eq_add_of_le' hf; rfl⟩
  | short k c ih =>
    intro known top n hrep hp
    have hm := (isInner_iff_minimal hp).mp trivial
    refine resolves_of_loaded hb hp (fun n hnh hrep => ?_) hrep
    cases hrep with
    | hash => exact nomatch hnh
    | short hchild hfl =>
      obtain ⟨N, hN⟩ := ih hchild (part_child hm)
      refine ⟨N + 1, fun fuel hf => ?_⟩
      obtain ⟨fuel, rfl⟩ := Nat.exists_eq_add_of_le' (le_trans (by omega) hf : 1 ≤ fuel)
      rw [resolveAll, hN fuel (by omega)]
      rfl
  | full cs ih =>
    intro known top n hrep hp
    have hm := (isInner_iff_minimal hp).mp trivial
    refine resolves_of_loaded hb hp (fun n hnh hrep => ?_) hrep
    cases hrep with
    | hash => exact nomatch hnh
    | full hchild hfl =>
      choose N hN using fun i => ih i (hchild i) (part_arm hm i)
      refine ⟨Finset.univ.sup N + 1, fun fuel hf => ?_⟩
      obtain ⟨fuel, rfl⟩ := Nat.exists_eq_add_of_le' (le_trans (by omega) hf : 1 ≤ fuel)
      have hall := fun i => hN i fuel (le_trans (Finset.le_sup (Finset.mem_univ i)) (by omega))
      simp only [resolveAll, hall, Option.isSome_some, implies_true, if_true, Option.getD_some]

theorem exists_key_of_lookup {w : Hex} {v : Bytes} : ∀ ws : List (Slice × Slice),
    lookup (contents ws) w = some v → ∃ key, w = keybytesToHex key
  | [], h => absurd h (by simp [contents])
  | (k, x) :: rest, h => by
    have hw := (canon_contents ((k, x) :: rest)).typed.word_of_lookup h
    have ht := (canon_contents rest).typed
    rw [contents, write] at h
    split at h
    · rw [lookup_delete ht (word_keybytesToHex _) hw] at h
      split at h
      · cases h
      · exact exists_key_of_lookup rest h
    rw [lookup_insert _ ht (word_keybytesToHex _) hw] at h
    split at h
    · rename_i he
      exact ⟨_, he⟩
    · exact exists_key_of_lookup rest h

/-- **Equal maps have equal trees.** -/
theorem contents_eq_iff {ws ws' : List (Slice × Slice)} :
    contents ws = contents ws' ↔ ∀ key, lastValue ws key = lastValue ws' key := by
  constructor
  · intro h key
    rw [← lookup_contents, ← lookup_contents, h]
  · intro h
    refine (canon_contents ws).ext (canon_contents ws') fun w _ => ?_
    by_cases hk : ∃ key, w = keybytesToHex key
    · obtain ⟨key, rfl⟩ := hk
      rw [lookup_contents, lookup_contents, h]
    have hnone : ∀ us, lookup (contents us) w = none := fun us => by
      cases hl : lookup (contents us) w with
      | none => rfl
      | some v => exact absurd (exists_key_of_lookup us hl) hk
    rw [hnone, hnone]

end Canonical

/-- **The root hash is a function of the contents, and determines them.** Two sessions, whatever
their operations, that leave the same map end with tries that resolve to the same tree; it is in
minimal form, and its hash is the root hash of both. Conversely equal root hashes come from equal
maps. -/
theorem session_canonical (H : Bytes → Hash) (disk pre disk' pre' : Map Hash Bytes)
    (ops ops' : List Op)
    (cf : CollisionFree H (hashed H History.start ops ++ hashed H History.start ops')) :
    ∃ s s' outs outs' h h' t t', (Session.start disk pre).run H ops = .ok (s, outs) ∧
      (Session.start disk' pre').run H ops' = .ok (s', outs') ∧
      s.trie.Hash H = .ok (h, t) ∧ s'.trie.Hash H = .ok (h', t') ∧
      ((∀ key, lastValue (History.start.after ops).live key =
          lastValue (History.start.after ops').live key) →
        h = h' ∧ ∃ c, Canon terminator c ∧ Resolves s.trie.db s.trie.root c ∧
          Resolves s'.trie.db s'.trie.root c) ∧
      (h = h' → ∀ key, lastValue (History.start.after ops).live key =
        lastValue (History.start.after ops').live key) := by
  obtain ⟨s, hrun, hs⟩ := run_refines cf ops (sessionOK_start disk pre)
    (subset_append_left _ _)
  obtain ⟨s', hrun', hs'⟩ := run_refines cf ops' (sessionOK_start disk' pre')
    (subset_append_right _ _)
  obtain ⟨t, hhash, _⟩ := Hash_spec hs.trie
  obtain ⟨t', hhash', _⟩ := Hash_spec hs'.trie
  have hres := resolveAll_spec (backed_stored H s.trie.db) hs.trie.rep
    (part_of_canon hs.trie.canon)
  have hres' := resolveAll_spec (backed_stored H s'.trie.db) hs'.trie.rep
    (part_of_canon hs'.trie.canon)
  refine ⟨s, s', _, _, _, _, t, t', hrun, hrun', hhash, hhash', fun hmap => ?_, fun hroot => ?_⟩
  · have hc := contents_eq_iff.mpr hmap
    exact ⟨by rw [hc], _, hs.trie.canon, hres, hc ▸ hres'⟩
  · exact contents_eq_iff.mp (rootHash_inj cf hs.trie.canon hs'.trie.canon hs.trie.storable
      hs'.trie.storable hs.trie.encs hs'.trie.encs hroot)

/-- The keys `a` and `ab` written in one order. -/
def oneOrder : List Op := [.update keyA (slice [0x78]), .update keyAB longValue]

/-- The same map reached in the other order, with a value that is overwritten. -/
def otherOrder : List Op :=
  [.update keyAB longValue, .hash, .update keyA (slice [0x79]), .commit,
    .update keyA (slice [0x78])]

theorem lastValue_orders (key : Bytes) : lastValue (History.start.after oneOrder).live key =
    lastValue (History.start.after otherOrder).live key := by
  have hne : keyA.data ≠ keyAB.data := by decide
  simp only [oneOrder, otherOrder, History.after, History.next, foldl_cons, foldl_nil,
    History.start, lastValue]
  by_cases ha : keyA.data = key
  · have hb : ¬ keyAB.data = key := fun hb => hne (ha.trans hb.symm)
    simp only [if_pos ha, if_neg hb]
  · simp only [if_neg ha]

theorem session_canonical_orders : ∃ s s' outs outs' h t t',
    (Session.start ∅ ∅).run keccakSample oneOrder = .ok (s, outs) ∧
      (Session.start ∅ ∅).run keccakSample otherOrder = .ok (s', outs') ∧
      s.trie.Hash keccakSample = .ok (h, t) ∧ s'.trie.Hash keccakSample = .ok (h, t') := by
  obtain ⟨s, s', outs, outs', h, h', t, t', hr, hr', hh, hh', hmap, _⟩ :=
    session_canonical keccakSample ∅ ∅ ∅ ∅ oneOrder otherOrder (by decide +kernel)
  obtain ⟨rfl, _⟩ := hmap lastValue_orders
  exact ⟨s, s', outs, outs', h, t, t', hr, hr', hh, hh'⟩

end MxtChain.Trie
