/-
# MxtChain.Trie.CommitterSpec — committing stores the tree

On a node whose hashes are all known, `Committer.commit` returns the reference of the tree the
node stands for, and the database it leaves behind stores the tree: the top node if it is large
or the root, and every node below that is referred to by hash. Nothing that was stored before
is lost.
-/
import MxtChain.Trie.DatabaseView
import MxtChain.Trie.HasherSpec

namespace MxtChain.Trie

open Lib.Patricia List Function

namespace Committer

variable {H : Bytes → Hash} {E : List Bytes} {top known : Bool} {t c : Content}
  {db db' db'' : Database} {j : Fin 17} {cs : Fin 17 → Content} {ns : Fin 17 → Node} {n : Node}
  {fl : NodeFlag} {acc : Fin 17 → RawNode} {is : List (Fin 17)} {k : Hex}

/-- What the database stores of a committed tree. -/
def Committed (H : Bytes → Hash) (db : Database) (top : Bool) (t : Content) : Prop :=
  Below H (Holds H db) t ∧ (top = true ∨ 32 ≤ (enc H t).length → Holds H db t)

/-- The database `db'` has all the trees of `db`, and is one of trie nodes. -/
structure Extends (H : Bytes → Hash) (E : List Bytes) (db db' : Database) : Prop where
  ok : DbOK H E db'
  keeps : ∀ u, Holds H db u → Holds H db' u

theorem Extends.refl (h : DbOK H E db) : Extends H E db db := ⟨h, fun _ hu => hu⟩

theorem Extends.trans (h : Extends H E db db') (h' : Extends H E db' db'') : Extends H E db db'' :=
  ⟨h'.ok, fun u hu => h'.keeps u (h.keeps u hu)⟩

theorem Committed.mono (h : Committed H db top t) (he : Extends H E db db') :
    Committed H db' top t :=
  ⟨h.1.mono he.keeps, fun hl => he.keeps t (h.2 hl)⟩

/-- The reference under which a committed tree is known to its parent, or to the trie. -/
def committedRef (H : Bytes → Hash) (top : Bool) (t : Content) : RawNode :=
  if top then .hash (hashOf H t) else toRef H (collapsed H t)

theorem committedRef_of_large (hi : IsInner t) (h : top = false → 32 ≤ (enc H t).length) :
    committedRef H top t = .hash (hashOf H t) := by
  cases top with
  | true => rfl
  | false => exact toRef_large hi (h rfl)

/-- **What the specification says** about committing the node `n`, standing for `t`. -/
def Commits (H : Bytes → Hash) (E : List Bytes) (top : Bool) (n : Node) (t : Content)
    (db : Database) : Prop :=
  ∃ db', commit n db = .ok (committedRef H top t, db') ∧ Extends H E db db' ∧ Committed H db' top t

/-- A tree that is stored already is left alone. -/
theorem commits_of_stored (hdb : DbOK H E db) (hi : IsInner t)
    (hl : top = false → 32 ≤ (enc H t).length) (hs : Stored H db t)
    (hc : commit n db = .ok (.hash (hashOf H t), db)) : Commits H E top n t db :=
  ⟨db, by rw [hc, committedRef_of_large hi hl], .refl hdb, hs.2, fun _ => hs.1⟩

/-- Storing the collapsed node after its children. -/
theorem store_spec (cf : CollisionFree H E) (hdb : DbOK H E db) (hm : Minimal terminator t)
    (hs : Storable t) (he : encodings H t ⊆ E) (hfl : FlagOK H (Stored H db) known top fl t)
    (hk : known = true) (hb : Below H (Holds H db) t) :
    ∃ db', store fl.hash (collapsed H t) db = .ok (committedRef H top t, db') ∧
      Extends H E db db' ∧ Committed H db' top t := by
  cases hh : fl.hash with
  | none =>
    -- only a small node inside its parent has no hash
    obtain ⟨rfl, hsmall⟩ := hfl.hashed hk hh
    refine ⟨db, ?_, .refl hdb, hb, fun hl => ?_⟩
    · rw [store, committedRef, if_neg (by simp), toRef_small hsmall]
    · rcases hl with hl | hl
      · cases hl
      · exact absurd hsmall (not_lt.mpr hl)
  | some g =>
    obtain rfl := hfl.hash_eq g hh
    obtain ⟨db', hins, hok, hholds, hkeeps⟩ :=
      hdb.insert cf hm hs he (collapsed H t).estimateSize
    refine ⟨db', ?_, ⟨hok, hkeeps⟩, hb.mono hkeeps, fun _ => hholds⟩
    rw [store, hins, committedRef_of_large (isInner_of_minimal hm) fun ht =>
      hfl.large ht (by simp [hh])]

/-! ## The loop over the children of a full node -/

/-- A child that is not nil is committed; the shortcut for hash nodes does what `commit` does. -/
theorem commitLoop_cons (hj : ns j ≠ .nil) (is : List (Fin 17)) (acc : Fin 17 → RawNode)
    (db : Database) : commitLoop (fun i db => commit (ns i) db) ns (j :: is) acc db =
      match commit (ns j) db with
      | .error e => .error e
      | .ok (hashed, db) =>
        commitLoop (fun i db => commit (ns i) db) ns is (update acc j hashed) db := by
  rw [commitLoop]
  split
  · rename_i hn
    exact absurd hn hj
  · rename_i h hn
    rw [hn, commit]
  · rfl

/-- What the loop of `commitChildren` has collected after the children `is`. -/
def collected (H : Bytes → Hash) (cs : Fin 17 → Content) (acc : Fin 17 → RawNode)
    (is : List (Fin 17)) (i : Fin 17) : RawNode :=
  if i ∈ is then toRef H (collapsed H (cs i)) else acc i

theorem collected_cons : collected H cs (update acc j (toRef H (collapsed H (cs j)))) is =
      collected H cs acc (j :: is) := by
  funext i
  by_cases hij : i = j
  · subst hij
    simp [collected]
  · simp [collected, hij]

theorem collected_cons_nil (hj : cs j = .nil)
    (ha : acc j = .nil) : collected H cs acc is = collected H cs acc (j :: is) := by
  have hu : update acc j (toRef H (collapsed H (cs j))) = acc := by
    rw [hj]
    exact update_eq_self_iff.mpr ha.symm
  rw [← collected_cons, hu]

/-- **The loop commits every child**, one after the other, into the growing database. -/
theorem commitLoop_spec :
    ∀ (is : List (Fin 17)) (acc : Fin 17 → RawNode) (db : Database), DbOK H E db →
      (∀ i, Rep H (Stored H db) true false (ns i) (cs i)) →
      (∀ i ∈ is, cs i = .nil → acc i = .nil) →
      (∀ i ∈ is, cs i ≠ .nil → ∀ db', Extends H E db db' → Commits H E false (ns i) (cs i) db') →
      ∃ db', commitLoop (fun i db => commit (ns i) db) ns is acc db =
          .ok (collected H cs acc is, db') ∧ Extends H E db db' ∧
        ∀ i ∈ is, cs i ≠ .nil → Committed H db' false (cs i)
  | [], acc, db, hdb, _, _, _ => by
    refine ⟨db, ?_, .refl hdb, fun i hi => absurd hi (by simp)⟩
    have hc : collected H cs acc [] = acc := by funext i; simp [collected]
    rw [commitLoop, hc]
  | j :: is, acc, db, hdb, hrep, hacc, hcommit => by
    by_cases hnil : cs j = .nil
    · have hn : ns j = .nil := (hrep j).isNil_iff.mpr hnil |> Node.isNil_iff.mp
      obtain ⟨db', hloop, hext, hall⟩ := commitLoop_spec is acc db hdb hrep
        (fun i hi => hacc i (mem_cons_of_mem _ hi))
        (fun i hi => hcommit i (mem_cons_of_mem _ hi))
      refine ⟨db', ?_, hext, fun i hi hc => ?_⟩
      · rw [commitLoop, hn]
        simp only [hloop, ← collected_cons_nil hnil (hacc j mem_cons_self hnil)]
      · rcases mem_cons.mp hi with rfl | hi
        · exact absurd hnil hc
        · exact hall i hi hc
    have hn : ns j ≠ .nil := fun h => hnil ((hrep j).isNil_iff.mp (Node.isNil_iff.mpr h))
    obtain ⟨db1, hc1, hext1, hdone⟩ := hcommit j mem_cons_self hnil db (.refl hdb)
    obtain ⟨db', hloop, hext, hall⟩ := commitLoop_spec is
      (update acc j (toRef H (collapsed H (cs j)))) db1 hext1.ok
      (fun i => (hrep i).mono (fun u hu => hu.mono hext1.keeps) id)
      (fun i hi hc => by
        have hij : i ≠ j := fun h => hnil (h ▸ hc)
        rw [update_of_ne hij]
        exact hacc i (mem_cons_of_mem _ hi) hc)
      (fun i hi hc db2 hext2 =>
        hcommit i (mem_cons_of_mem _ hi) hc db2 (hext1.trans hext2))
    refine ⟨db', ?_, hext1.trans hext, fun i hi hc => ?_⟩
    · rw [commitLoop_cons hn, hc1]
      simp only [committedRef, Bool.false_eq_true, if_false, hloop, collected_cons]
    · rcases mem_cons.mp hi with rfl | hi
      · exact hdone.mono hext
      · exact hall i hi hc

theorem update_collected {K : Content → Prop} (hm : Minimal terminator (.full cs))
    (hrep : ∀ i, Rep H K known false (ns i) (cs i)) :
    RawNode.full (update (collected H cs (fun _ => .nil) sixteen) 16 (ns 16).asIs) =
      collapsed H (.full cs) := by
  rw [collapsed, RawNode.full.injEq]
  funext i
  by_cases hi : i = terminator
  · subst hi
    rw [show terminator = 16 from rfl, update_self]
    rcases hm.2.1 with hn | ⟨v, hv⟩
    · rw [(hn ▸ hrep 16 : Rep H K known false (ns 16) .nil).nil_right, show cs 16 = .nil from hn]
      rfl
    · rw [(hv ▸ hrep 16 : Rep H K known false (ns 16) (.value v)).value_right,
        show cs 16 = .value v from hv]
      rfl
  · have hi' : i ≠ 16 := hi
    rw [update_of_ne hi', collected, if_pos (mem_sixteen.mpr hi)]

/-! ## The specification -/

theorem commit_short_eq (h : fl.dirty = true ∨ fl.hash = none) : commit (.short k n fl) db =
      match (if n.isFull then commit n db else .ok (n.asIs, db)) with
      | .error e => .error e
      | .ok (childV, db) => store fl.hash (.short (hexToCompact k) childV) db := by
  rw [commit]
  rcases h with h | h
  · rw [h]
    cases fl.hash <;> rfl
  · rw [h] <;> rfl

theorem commit_full_eq (h : fl.dirty = true ∨ fl.hash = none) : commit (.full ns fl) db =
      match commitChildren (fun i db => commit (ns i) db) ns db with
      | .error e => .error e
      | .ok (kids, db) => store fl.hash (.full kids) db := by
  rw [commit]
  rcases h with h | h
  · rw [h]
    cases fl.hash <;> rfl
  · rw [h] <;> rfl

/-- The child of a short node is committed if it is a full node, and taken as it is otherwise. -/
theorem commit_child (hdb : DbOK H E db)
    (hm : Minimal terminator (.short k c)) (hrep : Rep H (Stored H db) true false n c)
    (ih : Minimal terminator c → Commits H E false n c db) :
    ∃ db', (if n.isFull then commit n db else .ok (n.asIs, db)) =
        .ok (toRef H (collapsed H c), db') ∧
      Extends H E db db' ∧ (IsInner c → Committed H db' false c) := by
  rcases hm with ⟨_, v, rfl⟩ | ⟨_, _, ⟨cs, rfl⟩, hc⟩
  · obtain rfl := hrep.value_right
    exact ⟨db, rfl, .refl hdb, nofun⟩
  obtain ⟨db', hcommit, hext, hdone⟩ := ih hc
  refine ⟨db', ?_, hext, fun _ => hdone⟩
  cases hrep with
  | full _ _ => exact hcommit
  | hash _ _ _ =>
    exact hcommit

theorem below_of_committed (hc : Part c) (h : IsInner c → Committed H db false c) :
    (IsInner c → 32 ≤ (enc H c).length → Holds H db c) ∧ Below H (Holds H db) c := by
  refine ⟨fun hi hl => (h hi).2 (.inr hl), ?_⟩
  rcases hc with rfl | ⟨v, rfl⟩ | hm
  · trivial
  · trivial
  · exact (h (isInner_of_minimal hm)).1

/-- **Committing is correct.** The induction follows the node in memory. The database grows
from child to child, so the statement is for every database that has the node's stored parts. -/
theorem commit_spec (cf : CollisionFree H E) : ∀ {top : Bool} {n : Node}
    {db : Database}, DbOK H E db → Rep H (Stored H db) true top n t → Minimal terminator t →
    Storable t → encodings H t ⊆ E → Commits H E top n t db := by
  induction t with
  | nil | value v => intro top n db _ _ hm; cases hm
  | short k c ih =>
    intro top n db hdb hrep hm hs he
    cases hrep with
    | hash hi hl hk => exact commits_of_stored hdb hi hl hk rfl
    | @short _ _ _ n _ fl hrep hfl =>
      have hec := Subset.trans (encodings_short_subset (H := H) k c) he
      by_cases hclean : fl.dirty = true ∨ fl.hash = none
      · obtain ⟨db1, hchild, hext1, hdone⟩ := commit_child hdb hm
          (hrep.mono (fun _ hu => hu) (by simp)) fun hc =>
            ih hdb (hrep.mono (fun _ hu => hu) (by simp)) hc hs.child hec
        obtain ⟨db', hstore, hext, hall⟩ := store_spec cf hext1.ok hm hs he
          (hfl.mono (fun u hu => hu.mono hext1.keeps) id) rfl
          (below_of_committed (part_child hm) hdone)
        refine ⟨db', ?_, hext1.trans hext, hall⟩
        rw [commit_short_eq hclean, hchild]
        exact hstore
      · obtain ⟨hd, hh⟩ := not_or.mp hclean
        rw [Bool.not_eq_true] at hd
        obtain ⟨g, hg⟩ := Option.ne_none_iff_exists'.mp hh
        refine commits_of_stored hdb trivial (fun ht => hfl.large ht hh) (hfl.clean hd hh) ?_
        rw [commit, hg, hd, hfl.hash_eq g hg]
  | full cs ih =>
    intro top n db hdb hrep hm hs he
    cases hrep with
    | hash hi hl hk => exact commits_of_stored hdb hi hl hk rfl
    | @full _ _ ns _ fl hrep hfl =>
      by_cases hclean : fl.dirty = true ∨ fl.hash = none
      · have hrep' : ∀ i, Rep H (Stored H db) true false (ns i) (cs i) := fun i =>
          (hrep i).mono (fun _ hu => hu) (by simp)
        have hkid : ∀ i ∈ sixteen, cs i ≠ .nil → ∀ db', Extends H E db db' →
            Commits H E false (ns i) (cs i) db' := fun i hi hn db' hext =>
          ih i hext.ok ((hrep' i).mono (fun u hu => hu.mono hext.keeps) id)
            ((hm.arm hn).1 (mem_sixteen.mp hi)) (hs.arm i)
            (Subset.trans (encodings_arm_subset (H := H) cs i) he)
        obtain ⟨db1, hloop, hext1, hdone⟩ := commitLoop_spec sixteen (fun _ => .nil) db hdb hrep'
          (fun _ _ _ => rfl) hkid
        have hbelow : Below H (Holds H db1) (.full cs) := fun i =>
          below_of_committed (part_arm hm i) fun hi => by
            have hmi := minimal_arm_of_isInner hm hi
            refine hdone i (mem_sixteen.mpr ?_) hmi.ne_nil
            rintro rfl
            obtain ⟨v, hv⟩ := (hm.arm hmi.ne_nil).2 rfl
            rw [hv] at hi
            exact hi
        obtain ⟨db', hstore, hext, hall⟩ := store_spec cf hext1.ok hm hs he
          (hfl.mono (fun u hu => hu.mono hext1.keeps) id) rfl hbelow
        refine ⟨db', ?_, hext1.trans hext, hall⟩
        rw [commit_full_eq hclean, commitChildren, hloop]
        simp only [update_collected hm hrep', hstore]
      · obtain ⟨hd, hh⟩ := not_or.mp hclean
        rw [Bool.not_eq_true] at hd
        obtain ⟨g, hg⟩ := Option.ne_none_iff_exists'.mp hh
        refine commits_of_stored hdb trivial (fun ht => hfl.large ht hh) (hfl.clean hd hh) ?_
        rw [commit, hg, hd, hfl.hash_eq g hg]

end Committer

end MxtChain.Trie
