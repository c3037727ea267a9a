/-
# MxtChain.State.Consistent — the invariant that ties the caches to the tries.

A live object caches slots of its storage trie in three layers, and the account trie lags behind
the objects until they are flushed. `Consistent` says what is true between any two operations: the
caches hold what the trie holds or know that it holds nothing, an address that is neither pending
nor touched has the account that the trie has, and the journal accounts for everything touched.
It is kept by growth, and so by a revert, and by every change an operation makes.
-/
import MxtChain.State.RevertSpec

set_option linter.unusedSectionVars false

namespace MxtChain.State

open Lib List Option

variable {S C : Type} [StorageHash S] [CodeHash C] [DecidableEq C] {s t u : StateDB S C}
  {a b : Address} {o p : StateObject S C} {e : JournalEntry S C}
/-! ## §1 — The invariant -/

/-- The code of an object as a byte string: no code is the empty one. -/
def StateObject.codeBytes (o : StateObject S C) (db : Database S C) : Bytes :=
  (o.Code db).1.getD []

/-- Only the code and its hash matter. -/
theorem StateObject.codeBytes_congr (db : Database S C) (hcode : p.code = o.code)
    (hhash : p.data.codeHash = o.data.codeHash) : p.codeBytes db = o.codeBytes db := by
  rw [codeBytes, codeBytes, Code_fst, Code_fst, hcode, hhash]

/-- The caches of an object agree with its storage trie, and its code with its code hash. -/
structure StateObject.Sound (s : StateDB S C) (a : Address) (o : StateObject S C) : Prop where
  origin : ∀ key v, o.originStorage.find? key = some v → v = o.content s.db key
  /-- the noop test of `updateTrie` is right about a pending slot -/
  pending : ∀ key, (o.pendingStorage.find? key).isSome →
    (o.originStorage.find? key).isSome ∨ o.content s.db key = Hash.zero
  dirty : ∀ key, (o.dirtyStorage.find? key).isSome →
    (o.originStorage.find? key).isSome ∨ (o.pendingStorage.find? key).isSome ∨
      o.content s.db key = Hash.zero
  behind : ∀ key, o.originStorage.find? key = none → s.slotBehind a o key = o.content s.db key
  root : storageRoot (o.content s.db) = o.data.root
  code : keccak256Hash (o.codeBytes s.db) = o.data.codeHash
  /-- a code that is not to be written is in the database -/
  clean : o.dirtyCode = false → (newObject o.data).codeBytes s.db = o.codeBytes s.db

theorem StateObject.Sound.code_congr (h : o.Sound s a) (hcode : p.code = o.code)
    (hhash : p.data.codeHash = o.data.codeHash) :
    keccak256Hash (p.codeBytes s.db) = p.data.codeHash := by
  rw [codeBytes_congr s.db hcode hhash, hhash]
  exact h.code

theorem StateObject.Sound.clean_congr (h : o.Sound s a) (hcode : p.code = o.code)
    (hhash : p.data.codeHash = o.data.codeHash) (hdirty : p.dirtyCode = o.dirtyCode)
    (hclean : p.dirtyCode = false) : (newObject p.data).codeBytes s.db = p.codeBytes s.db := by
  rw [codeBytes_congr s.db hcode hhash, ← h.clean (hdirty ▸ hclean)]
  exact codeBytes_congr s.db rfl hhash

/-- The address an entry is about. -/
def JournalEntry.about (e : JournalEntry S C) : Option Address := e.creates.or e.writes

theorem JournalEntry.about_eq_some : e.about = some a ↔ e.creates = some a ∨ e.writes = some a := by
  cases e <;> simp [about, creates, writes, dirtied]

namespace StateDB

/-- The addresses that the end of the transaction takes notice of. -/
def touched (s : StateDB S C) (a : Address) : Prop := s.created a ∨ s.written a

/-- What is true between any two operations. -/
structure Consistent (s : StateDB S C) : Prop where
  emptyTrie : s.db.storage emptyRoot = fun _ => Hash.zero
  codes : ∀ hash code, s.db.code hash = some code → keccak256Hash code = hash
  noFake : s.NoFake
  pending_dirty : ∀ a ∈ s.stateObjectsPending, a ∈ s.stateObjectsDirty
  dirty_live : ∀ a ∈ s.stateObjectsDirty, (s.stateObjects a).isSome
  touched_live : ∀ a, s.touched a → (s.stateObjects a).isSome
  dirties : ∀ a, s.dirties.count a = (s.entries.filterMap JournalEntry.dirtied).count a
  refund : s.entries = [] → s.refund = 0
  sound : ∀ a o, s.object a = some o → o.deleted = false → o.Sound s a
  read : ∀ a, s.stateObjects a = none → s.readAccount a = s.trie a
  absent : ∀ a, s.object a = none → ∀ key, s.slotBehind a freshObject key = Hash.zero
  /-- the trie is up to date where nothing is pending and nothing was touched -/
  settled : ∀ a, a ∉ s.stateObjectsPending → ¬ s.touched a →
    s.trie a = ((s.object a).filter fun o => !o.deleted).map StateObject.data
  /-- pending slots of an object that is not pending are in the trie -/
  flushed : ∀ a o, a ∉ s.stateObjectsPending → s.object a = some o → o.deleted = false →
    ∀ key v, o.pendingStorage.find? key = some v → v = o.content s.db key
  /-- dirty slots of an object that was not touched were put back to their committed value -/
  quiet : ∀ a o, ¬ s.touched a → s.object a = some o → o.deleted = false →
    o.suicided = false ∧ ∀ key v, o.dirtyStorage.find? key = some v → v = s.committedSlot a o key
  balances : ∀ a acc, s.trie a = some acc → 0 ≤ acc.balance
  /-- what is not to be committed is in the database -/
  stored : ∀ a o, a ∉ s.stateObjectsDirty → ¬ s.touched a → s.object a = some o →
    o.deleted = false → o.content s.db = s.db.storage o.data.root ∧
      (newObject o.data).codeBytes s.db = o.codeBytes s.db

theorem touched_iff : s.touched a ↔ ∃ e ∈ s.entries, e.about = some a := by
  constructor
  · rintro (⟨e, he, ha⟩ | ⟨e, he, ha⟩)
    · exact ⟨e, he, JournalEntry.about_eq_some.mpr (.inl ha)⟩
    · exact ⟨e, he, JournalEntry.about_eq_some.mpr (.inr ha)⟩
  · rintro ⟨e, he, ha⟩
    rcases JournalEntry.about_eq_some.mp ha with ha | ha
    · exact .inl ⟨e, he, ha⟩
    · exact .inr ⟨e, he, ha⟩

/-- No address is exempt from the count of dirty entries. -/
def nobody (_ : Address) : Prop := False

theorem touched_congr (h : t.entries = s.entries) : t.touched a = s.touched a := by
  unfold touched created written
  rw [h]

end StateDB

/-! ## §2 — Growth -/

namespace StateObject

/-- A grown object is sound if the object was. -/
theorem Grows.sound (h : o.Grows s a p) (hs : o.Sound s a) : p.Sound s a where
  origin key v hv := by
    rw [h.content]
    rcases h.origin key with ho | ⟨hnone, hsome⟩
    · exact hs.origin key v (ho ▸ hv)
    · rw [← hs.behind key hnone]
      exact some.inj (hv.symm.trans hsome)
  pending key hk := by
    rw [h.pendingStorage] at hk
    rw [h.content]
    refine (hs.pending key hk).imp_left fun ho => ?_
    rcases h.origin key with heq | ⟨-, hsome⟩
    · rwa [heq]
    · rw [hsome]
      rfl
  dirty key hk := by
    rw [h.content, h.pendingStorage]
    have horigin : (o.originStorage.find? key).isSome → (p.originStorage.find? key).isSome := by
      intro ho
      rcases h.origin key with heq | ⟨-, hsome⟩
      · rwa [heq]
      · rw [hsome]
        rfl
    rcases h.dirty key with heq | ⟨-, -, hknown⟩
    · exact (hs.dirty key (heq ▸ hk)).imp_left horigin
    rcases hknown with hp | ho | ⟨hsnap, hdestruct⟩
    · exact .inr (.inl (h.pendingStorage ▸ hp))
    · exact .inl ho
    -- a destructed account has nothing behind its caches
    cases ho : p.originStorage.find? key with
    | some v => exact .inl rfl
    | none =>
      have hnone : o.originStorage.find? key = none := by
        rcases h.origin key with heq | ⟨hnone, -⟩
        · rw [← heq, ho]
        · exact hnone
      refine .inr (.inr ?_)
      rw [← hs.behind key hnone]
      obtain ⟨snap, hsnap⟩ := isSome_iff_exists.mp hsnap
      simp [StateDB.slotBehind, hsnap, hdestruct]
  behind key hk := by
    rw [h.slotBehind_eq, h.content]
    refine hs.behind key ?_
    rcases h.origin key with heq | ⟨hnone, -⟩
    · rw [← heq, hk]
    · exact hnone
  root := by
    rw [h.content, h.data]
    exact hs.root
  code := by
    rw [codeBytes, h.code, h.data]
    exact hs.code
  clean hd := by
    have hclean : o.dirtyCode = false := by
      cases ho : o.dirtyCode with
      | false => rfl
      | true => exact absurd (h.dirtyCode ho) (by simp [hd])
    rw [h.data, hs.clean hclean, codeBytes, codeBytes, h.code]

/-- Soundness looks at the state only for what lies behind the caches. -/
theorem Sound.congr (h : o.Sound s a) (hdb : t.db = s.db) (hsnap : t.snap = s.snap)
    (hdestruct : t.snapDestructs a = s.snapDestructs a) : o.Sound t a := by
  refine ⟨?_, ?_, ?_, fun key hk => ?_, ?_, ?_, ?_⟩
  · rw [hdb]
    exact h.origin
  · rw [hdb]
    exact h.pending
  · rw [hdb]
    exact h.dirty
  · have hbehind : t.slotBehind a o key = s.slotBehind a o key := by
      unfold StateDB.slotBehind
      rw [hdb, hsnap, hdestruct]
    rw [hbehind, hdb]
    exact h.behind key hk
  · rw [hdb]
    exact h.root
  · rw [hdb]
    exact h.code
  · rw [hdb]
    exact h.clean

end StateObject

namespace StateDB

/-- **Growth keeps the invariant**, if the journal is the same. -/
theorem Consistent.grow (h : s.Consistent) (hg : s.Grows nobody t)
    (hentries : t.entries = s.entries) : t.Consistent := by
  have htouched : ∀ a, t.touched a = s.touched a := fun a => touched_congr hentries
  have hcongr : ∀ {a} {o : StateObject S C}, o.Sound s a → o.Sound t a := fun {a o} ho =>
    ho.congr hg.db hg.snap (congrFun hg.snapDestructs a)
  have hcommitted : ∀ a (o : StateObject S C), t.committedSlot a o = s.committedSlot a o := fun a o => by
    unfold committedSlot slotBehind
    rw [hg.db, hg.snap, hg.snapDestructs]
  -- every object of `t` is a grown object of `s`
  have hobject : ∀ {a p}, t.object a = some p → ∃ o, s.object a = some o ∧ o.Grows s a p := by
    intro a p hp
    rcases hg.object a with ⟨-, hnone⟩ | ⟨o, p', ho, hp', hop⟩
    · exact absurd (hp.symm.trans hnone) (by simp)
    · obtain rfl := some.inj (hp'.symm.trans hp)
      exact ⟨o, ho, hop⟩
  have hnone : ∀ {a}, t.stateObjects a = none → s.stateObjects a = none := by
    intro a ha
    by_contra hne
    have hlive := hg.live a (isSome_iff_ne_none.mpr hne)
    rw [ha] at hlive
    cases hlive
  refine ⟨?_, hg.db ▸ h.codes, hg.noFake h.noFake, fun a ha => ?_, fun a ha => ?_, fun a ha => ?_, fun a => ?_,
    fun he => ?_, fun a p hp hd => ?_, fun a ha => ?_, fun a ha key => ?_, fun a hp ht => ?_,
    fun a p hpend hp hd key v hv => ?_, fun a p ht hp hd => ?_, fun a acc hacc => ?_,
    fun a p hnd ht hp hd => ?_⟩
  · rw [hg.db]
    exact h.emptyTrie
  · rw [hg.pending] at ha
    have hdirty := h.pending_dirty a ha
    exact hg.dirty_kept a (h.dirty_live a hdirty) hdirty
  · exact hg.live a (h.dirty_live a (hg.dirty_sub a ha))
  · exact hg.live a (h.touched_live a (htouched a ▸ ha))
  · rw [hg.dirties a id, hentries]
    exact h.dirties a
  · rw [hg.refund]
    exact h.refund (hentries ▸ he)
  · obtain ⟨o, ho, hop⟩ := hobject hp
    exact hcongr (hop.sound (h.sound a o ho (hop.deleted ▸ hd)))
  · rw [hg.readAccount_eq, hg.trie]
    exact h.read a (hnone ha)
  · have hbehind : t.slotBehind a freshObject key = s.slotBehind a freshObject key := by
      unfold slotBehind
      rw [hg.db, hg.snap, hg.snapDestructs]
    rw [hbehind]
    refine h.absent a ?_ key
    rcases hg.object a with ⟨hs, -⟩ | ⟨o, p, -, hp, -⟩
    · exact hs
    · exact absurd (ha.symm.trans hp) (by simp)
  · rw [hg.pending] at hp
    rw [htouched] at ht
    rw [hg.trie, h.settled a hp ht]
    rcases hg.object a with ⟨hs, hn⟩ | ⟨o, p, ho, hp, hop⟩
    · rw [hs, hn]
    rw [ho, hp]
    simp only [filter_some, hop.deleted]
    split_ifs
    · simp only [map_some, hop.data]
    · rfl
  · obtain ⟨o, ho, hop⟩ := hobject hp
    rw [hg.db, hop.content]
    rw [hg.pending] at hpend
    exact h.flushed a o hpend ho (hop.deleted ▸ hd) key v (hop.pendingStorage ▸ hv)
  · obtain ⟨o, ho, hop⟩ := hobject hp
    obtain ⟨hsuicided, hdirty⟩ := h.quiet a o (htouched a ▸ ht) ho (hop.deleted ▸ hd)
    refine ⟨hop.suicided.trans hsuicided, fun key v hv => ?_⟩
    rw [hcommitted, hop.committedSlot_eq]
    rcases hop.dirty key with heq | ⟨-, hsome, -⟩
    · exact hdirty key v (heq ▸ hv)
    · exact some.inj (hv.symm.trans hsome)
  · exact h.balances a acc (hg.trie ▸ hacc)
  · obtain ⟨o, ho, hop⟩ := hobject hp
    have hnd' : a ∉ s.stateObjectsDirty := fun hm => hnd (hg.dirty_kept a (h.dirty_live a hm) hm)
    obtain ⟨hcontent, hcode⟩ := h.stored a o hnd' (htouched a ▸ ht) ho (hop.deleted ▸ hd)
    rw [hg.db, hop.content, hop.data, hcode]
    refine ⟨hcontent, ?_⟩
    rw [StateObject.codeBytes, StateObject.codeBytes, hop.code]

/-! ## §3 — Changes -/

/-- The state with another object at an address, and the entry of that change. -/
def changed (s : StateDB S C) (a : Address) (o : StateObject S C) (e : JournalEntry S C)
    (destructs : Address → Bool) : StateDB S C :=
  { s with
    stateObjects := Function.update s.stateObjects a (some o)
    snapDestructs := destructs
    entries := e :: s.entries
    dirties := e.dirtied.toList ++ s.dirties }

/-- **A journaled change of the object of one address keeps the invariant**, if the new object is
sound and has no pending slot that an address without pending objects could not have. -/
theorem Consistent.update (h : s.Consistent) {destructs : Address → Bool}
    (hdestructs : ∀ b, b ≠ a → destructs b = s.snapDestructs b) (he : e.about = some a)
    (hfake : o.fakeStorage = none) (hsound : o.Sound (s.changed a o e destructs) a)
    (hflushed : a ∉ s.stateObjectsPending →
      ∀ key v, o.pendingStorage.find? key = some v → v = o.content s.db key) :
    (s.changed a o e destructs).Consistent := by
  have hself : (s.changed a o e destructs).stateObjects a = some o := Function.update_self ..
  have hlive : ∀ b, b ≠ a → (s.changed a o e destructs).stateObjects b = s.stateObjects b :=
    fun b hb => Function.update_of_ne hb ..
  have hothers : ∀ b, b ≠ a → (s.changed a o e destructs).object b = s.object b := by
    intro b hb
    unfold object
    rw [hlive b hb]
    rfl
  have hbehind : ∀ b (p : StateObject S C), b ≠ a →
      (s.changed a o e destructs).slotBehind b p = s.slotBehind b p := by
    intro b p hb
    funext key
    simp only [slotBehind, changed, hdestructs b hb]
  have hsome : ∀ b, (s.stateObjects b).isSome ∨ b = a →
      ((s.changed a o e destructs).stateObjects b).isSome := by
    intro b hb
    by_cases hba : b = a
    · rw [hba, hself]
      rfl
    · rw [hlive b hba]
      exact hb.resolve_right hba
  -- an address other than `a` is as it was, and `a` itself is touched
  have htouched : ∀ b, (s.changed a o e destructs).touched b ↔ b = a ∨ s.touched b := by
    intro b
    rw [touched_iff, touched_iff]
    simp only [changed, mem_cons, exists_eq_or_imp, he, some.injEq]
    exact or_congr_left eq_comm
  have hother : ∀ {b}, ¬ (s.changed a o e destructs).touched b → b ≠ a ∧ ¬ s.touched b := by
    intro b hb
    rw [htouched] at hb
    exact not_or.mp hb
  -- the object of an address is the new one or an old one
  have hcases : ∀ {b p}, (s.changed a o e destructs).object b = some p →
      b = a ∧ p = o ∨ b ≠ a ∧ s.object b = some p := by
    intro b p hp
    by_cases hb : b = a
    · subst hb
      exact .inl ⟨rfl, some.inj (hp.symm.trans (object_of_live hself))⟩
    · exact .inr ⟨hb, hothers b hb ▸ hp⟩
  refine ⟨h.emptyTrie, h.codes, fun b p hp => ?_, h.pending_dirty,
    fun b hb => hsome b (.inl (h.dirty_live b hb)), fun b hb => hsome b ?_, fun b => ?_,
    fun hnil => absurd hnil (cons_ne_nil _ _), fun b p hp hd => ?_, fun b hb => ?_, fun b hb key => ?_,
    fun b hp ht => ?_, fun b p hpend hp hd key v hv => ?_, fun b p ht hp hd => ?_, h.balances,
    fun b p hnd ht hp hd => ?_⟩
  · rcases hcases (object_of_live hp) with ⟨-, rfl⟩ | ⟨-, hp⟩
    · exact hfake
    · exact h.noFake.object hp
  · exact ((htouched b).mp hb).symm.imp_left (h.touched_live b)
  · have hcount := h.dirties b
    simp only [changed, filterMap_cons, count_append]
    cases e.dirtied with
    | none => simpa using hcount
    | some c => simp [count_cons, Nat.add_comm, hcount]
  · rcases hcases hp with ⟨rfl, rfl⟩ | ⟨hb, hp⟩
    · exact hsound
    · exact (h.sound b p hp hd).congr rfl rfl (hdestructs b hb)
  · have hba : b ≠ a := by
      rintro rfl
      cases hself.symm.trans hb
    exact h.read b (hlive b hba ▸ hb)
  · have hba : b ≠ a := by
      rintro rfl
      cases (object_of_live hself).symm.trans hb
    rw [hbehind b _ hba]
    exact h.absent b (hothers b hba ▸ hb) key
  · obtain ⟨hba, hs⟩ := hother ht
    rw [hothers b hba]
    exact h.settled b hp hs
  · rcases hcases hp with ⟨rfl, rfl⟩ | ⟨hb, hp⟩
    · exact hflushed hpend key v hv
    · exact h.flushed b p hpend hp hd key v hv
  · obtain ⟨hba, hs⟩ := hother ht
    rw [hothers b hba] at hp
    have hcommitted : (s.changed a o e destructs).committedSlot b p = s.committedSlot b p := by
      unfold committedSlot
      rw [hbehind b p hba]
    rw [hcommitted]
    exact h.quiet b p hs hp hd
  · obtain ⟨hba, hs⟩ := hother ht
    exact h.stored b p hnd hs (hothers b hba ▸ hp) hd

/-- An entry about no address: only the refund, the logs or the preimages have changed. -/
theorem Consistent.note (h : s.Consistent) (he : e.about = none) (hnone : e.dirtied = none)
    {refund : UInt64} {logs : Hash → List Log} {logSize : Nat} {preimages : Hash → Option Bytes} :
    Consistent { s with
      entries := e :: s.entries
      refund := refund
      logs := logs
      logSize := logSize
      preimages := preimages } := by
  have htouched : ∀ b, touched { s with
      entries := e :: s.entries
      refund := refund
      logs := logs
      logSize := logSize
      preimages := preimages } b ↔ s.touched b := by
    intro b
    rw [touched_iff, touched_iff]
    simp [he]
  refine ⟨h.emptyTrie, h.codes, h.noFake, h.pending_dirty, h.dirty_live,
    fun b hb => h.touched_live b ((htouched b).mp hb), fun b => ?_, fun hnil => absurd hnil (cons_ne_nil _ _), ?_,
    h.read, h.absent, fun b hp ht => h.settled b hp fun hs => ht ((htouched b).mpr hs), h.flushed,
    fun b p ht => h.quiet b p fun hs => ht ((htouched b).mpr hs), h.balances,
    fun b p hnd ht => h.stored b p hnd fun hs => ht ((htouched b).mpr hs)⟩
  · rw [filterMap_cons, hnone]
    exact h.dirties b
  · exact fun b p hp hd => (h.sound b p hp hd).congr rfl rfl rfl

end StateDB

end MxtChain.State
