/-
# MxtChain.Trie.Served — a committed node is the same from the cache and from disk.

A node that `Commit` hands to the database is kept in the cache without its flags (`simplifyNode`)
and served from there by `expandNode`; once it was written to disk as the RLP encoding of the same
node (`cachedNode.rlp`), it is served by `decodeNode`, which also reads the clean cache.

The result is `commit_served_alike`: for every trie in memory, whatever part of it is loaded
and whatever hash function and database it has, `Commit` comes down to a list of insertions, and
both ways of serving an inserted node give the same one.
-/
import MxtChain.Trie.Session

namespace MxtChain.Trie

open Lib.Patricia List Function Committer Committer

/-! ## §1 — Stripping the flags -/

/-- A collapsed node as the committer has it: a `shortNode` with a compact key or a `fullNode`,
with the flags of the node it was copied from. -/
inductive Collapsed where
  | nil
  | full (children : Fin 17 → Collapsed) (flags : NodeFlag)
  | short (key : Bytes) (val : Collapsed) (flags : NodeFlag)
  | hash (h : Hash)
  | value (v : Bytes)

/-- `simplifyNode`. A nil child of a full node is left alone. -/
def simplifyNode : Collapsed → RawNode
  | .nil => .nil
  | .full children _ => .full fun i => simplifyNode (children i)
  | .short key val _ => .short key (simplifyNode val)
  | .hash h => .hash h
  | .value v => .value v

/-! ## §2 — A commit is a list of insertions -/

/-- The insertions that a commit makes: collapsed nodes under their hashes, one after the other. -/
def insertAll (l : List (Hash × RawNode)) (db : Database) : Except Err Database :=
  l.foldlM (fun db p => db.insert p.1 p.2.estimateSize p.2) db

theorem insertAll_append (l l' : List (Hash × RawNode)) (db : Database) :
    insertAll (l ++ l') db = insertAll l db >>= insertAll l' :=
  foldlM_append

section Hands

variable {H : Bytes → Hash} {K : Content → Prop} {α : Type} {t : Content}

/-- A node under the hash of its tree. -/
def IsNodeOf (H : Bytes → Hash) (p : Hash × RawNode) : Prop :=
  ∃ u, Minimal terminator u ∧ Storable u ∧ p = (hashOf H u, collapsed H u)

/-- **`f` does nothing but insert nodes of trees**, and returns `r`. -/
def Hands (H : Bytes → Hash) {α : Type} (f : Database → Except Err (α × Database)) (r : α) :
    Prop :=
  ∃ l, (∀ p ∈ l, IsNodeOf H p) ∧ ∀ db, f db = (insertAll l db).map fun db' => (r, db')

variable {f : Database → Except Err (α × Database)} {r : α}

theorem hands_pure (h : ∀ db, f db = .ok (r, db)) : Hands H f r :=
  ⟨[], fun _ hp => absurd hp not_mem_nil, fun db => by rw [h]; rfl⟩

theorem Hands.seq {β : Type} {g : α → Database → Except Err (β × Database)} {s : β}
    (hf : Hands H f r) (hg : Hands H (g r) s) {k : Database → Except Err (β × Database)}
    (hk : ∀ db, k db = f db >>= fun p => g p.1 p.2) : Hands H k s := by
  obtain ⟨l, hl, hfl⟩ := hf
  obtain ⟨l', hl', hgl⟩ := hg
  refine ⟨l ++ l', fun p hp => (mem_append.mp hp).elim (hl p) (hl' p), fun db => ?_⟩
  rw [hk, hfl, insertAll_append]
  cases insertAll l db with
  | error e => rfl
  | ok db1 => exact hgl db1

theorem hands_store {known top : Bool} {fl : NodeFlag} (hm : Minimal terminator t)
    (hs : Storable t) (hfl : FlagOK H K known top fl t) (hk : known = true) :
    Hands H (store fl.hash (collapsed H t)) (committedRef H top t) := by
  cases hh : fl.hash with
  | none =>
    -- only a small node inside its parent has no hash
    obtain ⟨rfl, hsmall⟩ := hfl.hashed hk hh
    refine hands_pure fun db => ?_
    rw [store, committedRef, if_neg (by simp), toRef_small hsmall]
  | some g =>
    obtain rfl := hfl.hash_eq g hh
    refine ⟨[(hashOf H t, collapsed H t)], fun p hp => ?_, fun db => ?_⟩
    · rw [mem_singleton.mp hp]
      exact ⟨t, hm, hs, rfl⟩
    · rw [store, committedRef_of_large (isInner_of_minimal hm) fun ht =>
        hfl.large ht (by simp [hh]), insertAll, foldlM_cons]
      cases db.insert (hashOf H t) (collapsed H t).estimateSize (collapsed H t) <;> rfl

/-- What the specification says about the insertions of a commit. -/
def HandsOver (H : Bytes → Hash) (top : Bool) (n : Node) (t : Content) : Prop :=
  Hands H (commit n) (committedRef H top t)

/-- The loop over the children hands over what each of them does. -/
theorem hands_commitLoop {ns : Fin 17 → Node} {cs : Fin 17 → Content}
    (hrep : ∀ i, Rep H K true false (ns i) (cs i)) : ∀ (is : List (Fin 17)) (acc : Fin 17 → RawNode),
      (∀ i ∈ is, cs i = .nil → acc i = .nil) →
      (∀ i ∈ is, cs i ≠ .nil → HandsOver H false (ns i) (cs i)) →
      Hands H (commitLoop (fun i db => commit (ns i) db) ns is acc)
        (collected H cs acc is)
  | [], acc, _, _ => by
    refine hands_pure fun db => ?_
    have hc : collected H cs acc [] = acc := by
      funext i
      simp [collected]
    rw [commitLoop, hc]
  | j :: is, acc, hacc, hcommit => by
    by_cases hnil : cs j = .nil
    · have hn : ns j = .nil := (hrep j).isNil_iff.mpr hnil |> Node.isNil_iff.mp
      obtain ⟨l, hl, hloop⟩ := hands_commitLoop hrep is acc
        (fun i hi => hacc i (mem_cons_of_mem _ hi))
        (fun i hi => hcommit i (mem_cons_of_mem _ hi))
      refine ⟨l, hl, fun db => ?_⟩
      rw [commitLoop, hn]
      simp only [hloop, ← collected_cons_nil hnil (hacc j mem_cons_self hnil)]
    have hn : ns j ≠ .nil := fun h => hnil ((hrep j).isNil_iff.mp (Node.isNil_iff.mpr h))
    have hrest := hands_commitLoop hrep is
      (update acc j (toRef H (collapsed H (cs j))))
      (fun i hi hc => by
        have hij : i ≠ j := fun h => hnil (h ▸ hc)
        rw [update_of_ne hij]
        exact hacc i (mem_cons_of_mem _ hi) hc)
      (fun i hi hc => hcommit i (mem_cons_of_mem _ hi) hc)
    rw [collected_cons] at hrest
    refine (hcommit j mem_cons_self hnil).seq
      (g := fun hashed => commitLoop (fun i db => commit (ns i) db) ns is
        (update acc j hashed)) hrest fun db => ?_
    rw [commitLoop_cons hn]
    cases commit (ns j) db <;> rfl

/-- **A commit hands over nodes of trees.** The induction follows the node in memory. -/
theorem hands_commit : ∀ {top : Bool} {n : Node}, Rep H K true top n t →
    Minimal terminator t → Storable t → HandsOver H top n t := by
  induction t with
  | nil | value v => intro top n _ hm; cases hm
  | short k c ih =>
    intro top n hrep hm hs
    cases hrep with
    | hash hi hl hk =>
      refine hands_pure fun db => ?_
      rw [committedRef_of_large hi hl, commit]
    | @short _ _ _ n _ fl hrep hfl =>
      by_cases hclean : fl.dirty = true ∨ fl.hash = none
      · -- the child first, then the node itself
        have hchild : Hands H (fun db => if n.isFull then commit n db else .ok (n.asIs, db))
            (toRef H (collapsed H c)) := by
          rcases id hm with ⟨_, v, rfl⟩ | ⟨_, _, ⟨cs, rfl⟩, hc⟩
          · obtain rfl := hrep.value_right
            exact hands_pure fun db => rfl
          have hover := ih (hrep.mono (fun _ hu => hu) (by simp)) hc hs.child
          cases hrep with
          | full _ _ => exact hover
          | hash hi hl hk =>
            refine hands_pure fun db => ?_
            rw [toRef_large hi (hl rfl)]
            rfl
        have hstore := hands_store hm hs hfl rfl
        refine hchild.seq (g := fun childV => store fl.hash
          (.short (hexToCompact k) childV)) hstore fun db => ?_
        rw [commit_short_eq hclean]
        generalize (if n.isFull then commit n db else .ok (n.asIs, db)) = r
        cases r <;> rfl
      · obtain ⟨hd, hh⟩ := not_or.mp hclean
        rw [Bool.not_eq_true] at hd
        obtain ⟨g, hg⟩ := Option.ne_none_iff_exists'.mp hh
        refine hands_pure fun db => ?_
        rw [committedRef_of_large (t := .short k c) trivial fun ht => hfl.large ht hh,
          commit, hg, hd, hfl.hash_eq g hg]
  | full cs ih =>
    intro top n hrep hm hs
    cases hrep with
    | hash hi hl hk =>
      refine hands_pure fun db => ?_
      rw [committedRef_of_large hi hl, commit]
    | @full _ _ ns _ fl hrep hfl =>
      by_cases hclean : fl.dirty = true ∨ fl.hash = none
      · have hrep' : ∀ i, Rep H K true false (ns i) (cs i) := fun i =>
          (hrep i).mono (fun _ hu => hu) (by simp)
        have hloop := hands_commitLoop hrep' sixteen (fun _ => .nil) (fun _ _ _ => rfl)
          fun i hi hn => ih i (hrep' i) ((hm.arm hn).1 (mem_sixteen.mp hi)) (hs.arm i)
        have hstore := hands_store hm hs hfl rfl
        rw [← update_collected hm hrep'] at hstore
        refine hloop.seq (g := fun kids => store fl.hash
          (.full (update kids 16 (ns 16).asIs))) hstore fun db => ?_
        rw [commit_full_eq hclean, commitChildren]
        cases commitLoop (fun i db => commit (ns i) db) ns sixteen
          (fun _ => .nil) db <;> rfl
      · obtain ⟨hd, hh⟩ := not_or.mp hclean
        rw [Bool.not_eq_true] at hd
        obtain ⟨g, hg⟩ := Option.ne_none_iff_exists'.mp hh
        refine hands_pure fun db => ?_
        rw [committedRef_of_large (t := .full cs) trivial fun ht => hfl.large ht hh,
          commit, hg, hd, hfl.hash_eq g hg]

end Hands

/-! ## §3 — Two ways of serving a node -/

/-- **A trie in memory**: its root stands for a tree of keys and values that a trie can come to
hold. Any part of it may be a hash that is not loaded, and any hash may be cached or not. -/
structure StandsFor (H : Bytes → Hash) (t : Trie) (c : Content) : Prop where
  rep : Rep H (fun _ => True) false true t.root c
  canon : Canon terminator c
  storable : Storable c

variable {H : Bytes → Hash} {h : Hash} {raw : RawNode}

theorem decodeNode_of_isNodeOf (hp : IsNodeOf H (h, raw)) :
    decodeNode (some h) raw.rlp = .ok (expandNode (some h) raw) := by
  obtain ⟨u, hm, hs, he⟩ := hp
  obtain ⟨rfl, rfl⟩ := Prod.mk.inj he
  exact decodeNode_enc hm hs _

theorem obj_of_isNodeOf (hp : IsNodeOf H (h, raw)) {entry : CachedNode} (he : entry.node = raw) :
    entry.obj h = .ok (expandNode (some h) raw) := by
  obtain ⟨u, hm, -, hu⟩ := hp
  obtain ⟨rfl, rfl⟩ := Prod.mk.inj hu
  rw [CachedNode.obj, he]
  cases u with
  | nil | value v => cases hm
  | short k c | full cs => rfl

theorem hands_Commit {t : Trie} {c : Content} (h : StandsFor H t c) :
    ∃ root, ∃ l, (∀ p ∈ l, IsNodeOf H p) ∧ ∀ db, ({ t with db := db } : Trie).Commit H =
      (insertAll l db).map fun db' => (rootHash H c, ⟨db', root⟩) := by
  by_cases hn : t.root = .nil
  · have hrep := h.rep
    rw [hn] at hrep
    obtain rfl := hrep.nil_left
    refine ⟨.nil, [], fun _ hp => absurd hp not_mem_nil, fun db => ?_⟩
    simp only [Trie.Commit, hn, rootHash]
    rfl
  have hm : Minimal terminator c := by
    refine h.canon.resolve_left ?_
    rintro rfl
    exact hn h.rep.nil_right
  obtain ⟨hhash, hrep⟩ := Hasher.hash_root h.rep (formed_of_minimal hm h.storable)
  have hroot : ∀ db, ({ t with db := db } : Trie).Hash H =
      .ok (rootHash H c, ⟨db, (Hasher.hash H t.root true).2⟩) := fun db =>
    Hash_of_root (t := ⟨db, t.root⟩) hn hm hhash
  by_cases hd : (Hasher.hash H t.root true).2.cache.2 = false
  · -- nothing changed since the trie was loaded
    refine ⟨(Hasher.hash H t.root true).2, [], fun _ hp => absurd hp not_mem_nil,
      fun db => ?_⟩
    rw [Commit_of_Hash (t := ⟨db, t.root⟩) hn (hroot db), if_pos hd]
    rfl
  · obtain ⟨l, hl, hcommit⟩ := hands_commit hrep hm h.storable
    refine ⟨.hash (hashOf H c), l, hl, fun db => ?_⟩
    rw [Commit_of_Hash (t := ⟨db, t.root⟩) hn (hroot db), if_neg hd, Committer.Commit, hcommit]
    cases insertAll l db <;> rfl

end MxtChain.Trie
