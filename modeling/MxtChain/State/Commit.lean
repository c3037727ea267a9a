/-
# MxtChain.State.Commit — the end of a block.

`Commit` writes the codes and the storage tries of the dirty objects into the database and lets go
of the snapshot. Both tables are keyed by the hash of what they hold, so nothing that was there is
changed by it, and after it everything that a live object shows can be read from the database as
well.
-/
import MxtChain.State.IntermediateRoot

set_option linter.unusedSectionVars false

namespace MxtChain.State

open Lib List Option StateObject

variable {S C : Type} [StorageHash S] [CodeHash C] [DecidableEq S] [DecidableEq C]
variable {s t u : StateDB S C} {a b : Address} {o p : StateObject S C} {d : Bool}

/-! ## §1 — Without the snapshot -/

namespace StateObject

/-- A sound object is sound without the snapshot, over any database with the same storage and
code for it. -/
theorem Sound.detach (h : o.Sound s a) (hsnap : t.snap = none)
    (hcontent : o.content t.db = o.content s.db) (hcode : o.codeBytes t.db = o.codeBytes s.db)
    (hclean : o.dirtyCode = false → (newObject o.data).codeBytes t.db = o.codeBytes t.db) :
    o.Sound t a := by
  refine ⟨?_, ?_, ?_, fun key _ => ?_, ?_, ?_, hclean⟩
  · rw [hcontent]
    exact h.origin
  · rw [hcontent]
    exact h.pending
  · rw [hcontent]
    exact h.dirty
  · simp [StateDB.slotBehind, hsnap]
  · rw [hcontent]
    exact h.root
  · rw [hcode]
    exact h.code

theorem Sound.committedSlot_detach (h : o.Sound s a) (hsnap : t.snap = none)
    (hcontent : o.content t.db = o.content s.db) : t.committedSlot a o = s.committedSlot a o := by
  funext key
  have hbehind : t.slotBehind a o key = o.content s.db key := by
    simp [StateDB.slotBehind, hsnap, hcontent]
  rw [StateDB.committedSlot, StateDB.committedSlot, hbehind]
  cases ho : o.originStorage.find? key with
  | some v => cases o.pendingStorage.find? key <;> rfl
  | none => rw [h.behind key ho]

/-- `updateRoot` does not look at the mark of the code. -/
theorem updateRoot_dirtyCode (o : StateObject S C) (b : Bool) (db : Database S C) :
    { o with dirtyCode := b }.updateRoot db =
      ({ (o.updateRoot db).1 with dirtyCode := b }, (o.updateRoot db).2) := by
  obtain ⟨data, trie, code, origin, pending, dirty, fake, dirtyCode, suicided, deleted⟩ := o
  unfold updateRoot updateTrie finalise
  by_cases hempty : (dirty.union pending).isEmpty
  · cases trie <;> simp [hempty]
  · simp [hempty, changes, content]

end StateObject

namespace StateDB

/-! ## §2 — What is written -/

/-- The object that `Commit` leaves in the place of another one. -/
theorem Consistent.commitObject_spec (h : s.Consistent) (hentries : s.entries = [])
    (ho : s.object a = some o) (hd : o.deleted = false) :
    ∃ q, o.Updated s a q (s.commitObject o).2 ∧
      (s.commitObject o).1 = { q with dirtyCode := o.dirtyCode && o.code.isNone } := by
  obtain ⟨-, hq⟩ := h.quiet a o (not_touched_of_nil hentries a) ho hd
  have hup := updateRoot_spec (h.sound a o ho hd) hq
  have heq : s.commitObject o = ({ (o.updateRoot s.db).1 with
      dirtyCode := o.dirtyCode && o.code.isNone }, (o.updateRoot s.db).2) := by
    rw [commitObject, if_neg (by simp [hd])]
    exact updateRoot_dirtyCode o _ s.db
  rw [heq]
  exact ⟨_, hup, rfl⟩

/-- The objects that `Commit` goes over. -/
theorem mem_committing : o ∈ s.stateObjectsDirty.filterMap s.stateObjects ↔
    ∃ a ∈ s.stateObjectsDirty, s.stateObjects a = some o := mem_filterMap

variable (h : s.Consistent)
include h

/-- Storage tries are written under their root. -/
theorem Consistent.committedTrie_addressed (hentries : s.entries = []) :
    ∀ p ∈ (s.stateObjectsDirty.filterMap s.stateObjects).filterMap s.committedTrie,
      storageRoot p.2 = p.1 := by
  rintro ⟨root, tr⟩ hp
  obtain ⟨o, ho, hw⟩ := mem_filterMap.mp hp
  obtain ⟨a, -, ho⟩ := mem_committing.mp ho
  cases hd : o.deleted with
  | true => simp [committedTrie, commitObject, hd] at hw
  | false =>
    obtain ⟨q, hup, heq⟩ := h.commitObject_spec hentries (object_of_live ho) hd
    have hdel : q.deleted = false := hup.deleted.trans hd
    simp only [committedTrie, heq, hdel, Bool.false_eq_true, if_false, map_eq_some_iff,
      Prod.mk.injEq] at hw
    obtain ⟨tr', htr, hroot, rfl⟩ := hw
    have hcontent : q.content s.db = tr' := by simp [StateObject.content, htr]
    rw [← hroot, ← hup.sound.root, hcontent]

/-- Codes are written under their hash. -/
theorem Consistent.committedCode_addressed :
    ∀ p ∈ (s.stateObjectsDirty.filterMap s.stateObjects).filterMap committedCode,
      keccak256Hash p.2 = p.1 := by
  rintro ⟨hash, code⟩ hp
  obtain ⟨o, ho, hw⟩ := mem_filterMap.mp hp
  obtain ⟨a, -, ho⟩ := mem_committing.mp ho
  unfold committedCode at hw
  split_ifs at hw with hskip
  simp only [Bool.or_eq_true, Bool.not_eq_true', not_or, Bool.not_eq_true, Bool.not_eq_false] at hskip
  simp only [map_eq_some_iff, Prod.mk.injEq] at hw
  obtain ⟨code', hcode, hhash, rfl⟩ := hw
  have hsound := h.sound a o (object_of_live ho) hskip.1
  rw [← hhash, ← hsound.code, StateObject.codeBytes, Code_fst, hcode]
  rfl

/-- A storage trie that was in the database is in it still. -/
theorem Consistent.commit_storage (hentries : s.entries = []) {root : S}
    (hroot : storageRoot (s.db.storage root) = root) :
    s.commitObjects.db.storage root = s.db.storage root :=
  lookup_getD_addressed StorageHash.storageRoot_injective (h.committedTrie_addressed hentries) hroot

/-- The codes in the database stand under their hash. -/
theorem Consistent.commit_codes (hash : C) (code : Bytes)
    (hcode : s.commitObjects.db.code hash = some code) : keccak256Hash code = hash := by
  change ((lookup hash _).or (s.db.code hash)) = some code at hcode
  rcases or_eq_some_iff.mp hcode with hnew | ⟨-, hold⟩
  · exact lookup_addressed h.committedCode_addressed hnew
  · exact h.codes hash code hold

/-- A code that could be read is read the same. -/
theorem Consistent.commit_Code (ho : keccak256Hash (o.codeBytes s.db) = o.data.codeHash) :
    (o.Code s.commitObjects.db).1 = (o.Code s.db).1 := by
  rw [Code_fst, Code_fst]
  rw [StateObject.codeBytes, Code_fst] at ho
  cases hc : o.code with
  | some c => rfl
  | none =>
    simp only [hc, none_or] at ho ⊢
    split_ifs at ho ⊢ with hempty
    · rfl
    · -- the code is not the empty one, so it was in the database
      cases hold : s.db.code o.data.codeHash with
      | none =>
        rw [hold] at ho
        exact absurd ho.symm hempty
      | some c =>
        cases hnew : s.commitObjects.db.code o.data.codeHash with
        | none =>
          change (lookup _ _).or (s.db.code o.data.codeHash) = none at hnew
          rw [hold] at hnew
          simp at hnew
        | some c' =>
          have hc := h.codes _ _ hold
          have hc' := h.commit_codes _ _ hnew
          rw [CodeHash.keccak256Hash_injective (hc'.trans hc.symm)]

theorem Consistent.commit_codeBytes (ho : keccak256Hash (o.codeBytes s.db) = o.data.codeHash) :
    o.codeBytes s.commitObjects.db = o.codeBytes s.db := by
  rw [StateObject.codeBytes, h.commit_Code ho]
  rfl

theorem Consistent.commit_content (hentries : s.entries = [])
    (ho : o.Sound s a) : o.content s.commitObjects.db = o.content s.db := by
  cases htrie : o.trie with
  | some tr => simp [StateObject.content, htrie]
  | none =>
    have hroot := ho.root
    simp only [StateObject.content, htrie, getD_none] at hroot ⊢
    exact h.commit_storage hentries hroot

/-- The account of an object as the database now has it. -/
theorem Consistent.commit_clean (hcode : keccak256Hash (o.codeBytes s.db) = o.data.codeHash)
    (hclean : (newObject o.data).codeBytes s.db = o.codeBytes s.db) :
    (newObject o.data).codeBytes s.commitObjects.db = o.codeBytes s.commitObjects.db := by
  have hnew : keccak256Hash ((newObject o.data).codeBytes s.db) = (newObject o.data).data.codeHash := by
    rw [hclean]
    exact hcode
  rw [h.commit_codeBytes hcode, h.commit_codeBytes hnew, hclean]

omit h

/-! ## §3 — The objects after the block -/

/-- The state that `Commit` leaves, once the last transaction has been written. -/
def committed (s : StateDB S C) : StateDB S C :=
  { s.commitObjects with
    snap := none
    snapDestructs := fun _ => false
    snapAccounts := fun _ => none
    snapStorage := fun _ => GoMap.empty }

end StateDB

/-- All that the object shows can be read from the database. -/
structure StateObject.Stored (s : StateDB S C) (a : Address) (o : StateObject S C) : Prop where
  sound : o.Sound s a
  pending : ∀ key v, o.pendingStorage.find? key = some v → v = o.content s.db key
  dirty : ∀ key v, o.dirtyStorage.find? key = some v → v = s.committedSlot a o key
  storage : o.content s.db = s.db.storage o.data.root
  code : (newObject o.data).codeBytes s.db = o.codeBytes s.db

/-- It does not matter whether the code is marked to be written. -/
theorem StateObject.Stored.withDirtyCode (h : o.Stored s a) (b : Bool) :
    { o with dirtyCode := b }.Stored s a := by
  have hbytes : { o with dirtyCode := b }.codeBytes s.db = o.codeBytes s.db :=
    codeBytes_congr s.db rfl rfl
  have hcode : (newObject o.data).codeBytes s.db = { o with dirtyCode := b }.codeBytes s.db :=
    h.code.trans hbytes.symm
  exact ⟨{ h.sound with code := hbytes ▸ h.sound.code, clean := fun _ => hcode }, h.pending,
    h.dirty, h.storage, hcode⟩

namespace StateDB

/-- A code that was to be written is in the database. -/
theorem Consistent.committed_code (h : s.Consistent) (ha : a ∈ s.stateObjectsDirty)
    (ho : s.stateObjects a = some o) (hd : o.deleted = false) :
    (newObject o.data).codeBytes s.committed.db = o.codeBytes s.committed.db := by
  have hsound := h.sound a o (object_of_live ho) hd
  cases hdirty : o.dirtyCode with
  | false => exact h.commit_clean hsound.code (hsound.clean hdirty)
  | true =>
    cases hc : o.code with
    | none => exact codeBytes_congr _ hc.symm rfl
    | some code =>
      have hw : committedCode o = some (o.data.codeHash, code) := by
        simp [committedCode, hd, hdirty, hc]
      have hfound := lookup_of_mem_addressed CodeHash.keccak256Hash_injective
        h.committedCode_addressed (mem_filterMap.mpr ⟨o, mem_committing.mpr ⟨a, ha, ho⟩, hw⟩)
      have hdb : s.committed.db.code o.data.codeHash = some code := by
        change (lookup _ _).or _ = _
        rw [hfound, some_or]
      have hhash : keccak256Hash code = o.data.codeHash := h.commit_codes _ _ hdb
      rw [StateObject.codeBytes, StateObject.codeBytes, Code_fst, Code_fst, hc]
      change (if o.data.codeHash = emptyCodeHash then none
        else s.committed.db.code o.data.codeHash).getD [] = code
      split_ifs with hempty
      · exact CodeHash.keccak256Hash_injective (hempty.symm.trans hhash.symm)
      · rw [hdb]
        rfl

/-- The storage trie of an object that was gone over is in the database. -/
theorem Consistent.committed_storage (h : s.Consistent) (hentries : s.entries = [])
    (ha : a ∈ s.stateObjectsDirty) (ho : s.stateObjects a = some o)
    (hdel : (s.commitObject o).1.deleted = false) : (s.commitObject o).1.content s.committed.db =
      s.committed.db.storage (s.commitObject o).1.data.root := by
  cases htrie : (s.commitObject o).1.trie with
  | none => simp [StateObject.content, htrie]
  | some tr =>
    have hw : s.committedTrie o = some ((s.commitObject o).1.data.root, tr) := by
      simp [committedTrie, hdel, htrie]
    have hfound := lookup_of_mem_addressed StorageHash.storageRoot_injective
      (h.committedTrie_addressed hentries)
      (mem_filterMap.mpr ⟨o, mem_committing.mpr ⟨a, ha, ho⟩, hw⟩)
    change _ = (lookup _ _).getD _
    rw [hfound]
    simp [StateObject.content, htrie]

/-- An object that `Commit` goes over. -/
theorem Consistent.committed_dirty (h : s.Consistent) (hentries : s.entries = [])
    (hpending : s.stateObjectsPending = []) (ha : a ∈ s.stateObjectsDirty)
    (ho : s.stateObjects a = some o) (hd : o.deleted = false) :
    (s.commitObject o).1.Stored s.committed a ∧ (s.commitObject o).1.data = o.data ∧
      (s.commitObject o).1.deleted = false ∧ (s.commitObject o).1.suicided = false ∧
      (s.commitObject o).1.fakeStorage = none ∧
      s.committed.account a (s.commitObject o).1 = s.account a o := by
  have hobj := object_of_live ho
  have hpend : a ∉ s.stateObjectsPending := by simp [hpending]
  obtain ⟨q, hup, heq⟩ := h.commitObject_spec hentries hobj hd
  obtain ⟨hsuicided, hq⟩ := h.quiet a o (not_touched_of_nil hentries a) hobj hd
  have hdata : q.data = o.data := by
    rw [hup.data, h.committedSlot_eq hpend hobj hd, (h.sound a o hobj hd).root]
  have hcontent := h.commit_content hentries hup.sound
  have hcode : (newObject q.data).codeBytes s.committed.db = q.codeBytes s.committed.db := by
    rw [hdata, h.committed_code ha ho hd]
    exact codeBytes_congr _ hup.code.symm (congrArg Account.codeHash hdata.symm)
  have hdel : (s.commitObject o).1.deleted = false := by
    rw [heq]
    exact hup.deleted.trans hd
  have hstorage := h.committed_storage hentries ha ho hdel
  rw [heq] at hstorage hdel ⊢
  have hdetach := hup.sound.detach (t := s.committed) rfl hcontent
    (h.commit_codeBytes hup.sound.code) fun _ => hcode
  have hslots : s.committed.committedSlot a q = s.committedSlot a o := by
    rw [hup.sound.committedSlot_detach (t := s.committed) rfl hcontent, hup.committed]
  have hstored : q.Stored s.committed a := by
    refine ⟨hdetach, fun key v hv => ?_, fun key v hv => ?_, hstorage, hcode⟩
    · rw [hup.pendingStorage key] at hv
      cases hv
    · rw [hup.dirtyStorage key] at hv
      cases hv
  refine ⟨hstored.withDirtyCode _, hdata, hdel, hup.suicided.trans hsuicided,
    hup.fakeStorage.trans (h.noFake a o ho), ?_⟩
  -- the account is shown as before
  have hstate : s.committed.currentSlot a q = s.currentSlot a o := by
    funext key
    rw [currentSlot, currentSlot, hup.dirtyStorage key, hslots]
    cases hv : o.dirtyStorage.find? key with
    | none => rfl
    | some v => exact (hq key v hv).symm
  have hCode : ({ q with dirtyCode := o.dirtyCode && o.code.isNone }.Code s.committed.db).1 =
      (o.Code s.db).1 := by
    rw [← h.commit_Code (h.sound a o hobj hd).code, Code_fst, Code_fst, ← hup.code, ← hdata]
    rfl
  change LogicalAccount.mk q.data.nonce q.data.balance q.data.codeHash _ q.suicided
    (s.committed.currentSlot a q) (s.committed.committedSlot a q) = _
  rw [hCode, hstate, hslots, hdata, hup.suicided]
  rfl

/-- An object that `Commit` does not go over. -/
theorem Consistent.committed_other (h : s.Consistent) (hentries : s.entries = [])
    (hpending : s.stateObjectsPending = []) (ha : a ∉ s.stateObjectsDirty)
    (hobj : s.object a = some o) (hd : o.deleted = false) :
    o.Stored s.committed a ∧ s.committed.account a o = s.account a o := by
  have hpend : a ∉ s.stateObjectsPending := by simp [hpending]
  have htouched := not_touched_of_nil hentries a
  have hsound := h.sound a o hobj hd
  have hcontent := h.commit_content hentries hsound
  obtain ⟨hstorage, hcode⟩ := h.stored a o ha htouched hobj hd
  have hclean := h.commit_clean hsound.code hcode
  have hslots : s.committed.committedSlot a o = s.committedSlot a o :=
    hsound.committedSlot_detach rfl hcontent
  have hroot : storageRoot (s.db.storage o.data.root) = o.data.root := by
    rw [← hstorage, hsound.root]
  refine ⟨⟨hsound.detach rfl hcontent (h.commit_codeBytes hsound.code) fun _ => hclean,
    fun key v hv => ?_, fun key v hv => ?_, ?_, hclean⟩, ?_⟩
  · exact (h.flushed a o hpend hobj hd key v hv).trans (congrFun hcontent.symm key)
  · rw [hslots]
    exact (h.quiet a o htouched hobj hd).2 key v hv
  · exact hcontent.trans (hstorage.trans (h.commit_storage hentries hroot).symm)
  · have hstate : s.committed.currentSlot a o = s.currentSlot a o := by
      funext key
      rw [currentSlot, currentSlot, hslots]
    have hCode : (o.Code s.committed.db).1 = (o.Code s.db).1 := h.commit_Code hsound.code
    unfold account
    rw [hCode, hstate, hslots]

/-! ## §4 — The state after the block -/

/-- The objects after `Commit`. -/
theorem Consistent.committed_object (h : s.Consistent) (hentries : s.entries = [])
    (hpending : s.stateObjectsPending = []) (a : Address) :
    (s.object a = none ∧ s.committed.object a = none) ∨
      ∃ o p, s.object a = some o ∧ s.committed.object a = some p ∧ p.data = o.data ∧
        p.deleted = o.deleted ∧ p.fakeStorage = none ∧
        (p.deleted = false → p.Stored s.committed a ∧ p.suicided = false ∧
          s.committed.account a p = s.account a o) := by
  by_cases ha : a ∈ s.stateObjectsDirty
  · obtain ⟨o, ho⟩ := isSome_iff_exists.mp (h.dirty_live a ha)
    have hlive : s.committed.stateObjects a = some (s.commitObject o).1 := by
      simp [committed, commitObjects, ha, ho]
    refine .inr ⟨o, _, object_of_live ho, object_of_live hlive, ?_⟩
    cases hd : o.deleted with
    | true =>
      have heq : (s.commitObject o).1 = o := by simp [commitObject, hd]
      rw [heq]
      exact ⟨rfl, hd, h.noFake a o ho, fun hf => absurd (hf.symm.trans hd) (by simp)⟩
    | false =>
      obtain ⟨hstored, hdata, hdel, hsuicided, hfake, hacc⟩ :=
        h.committed_dirty hentries hpending ha ho hd
      exact ⟨hdata, hdel, hfake, fun _ => ⟨hstored, hsuicided, hacc⟩⟩
  · have hobject : s.committed.object a = s.object a := by
      have hlive : s.committed.stateObjects a = s.stateObjects a := by
        simp [committed, commitObjects, ha]
      unfold object
      rw [hlive]
      cases hl : s.stateObjects a with
      | some o => rfl
      | none => rw [h.read a hl]; rfl
    cases hobj : s.object a with
    | none => exact .inl ⟨rfl, hobject.trans hobj⟩
    | some o =>
      refine .inr ⟨o, o, rfl, hobject.trans hobj, rfl, rfl, h.noFake.object hobj, fun hd => ?_⟩
      obtain ⟨hstored, hacc⟩ := h.committed_other hentries hpending ha hobj hd
      exact ⟨hstored, (h.quiet a o (not_touched_of_nil hentries a) hobj hd).1, hacc⟩

/-- **`Commit` keeps the invariant.** -/
theorem Consistent.committed (h : s.Consistent) (hentries : s.entries = [])
    (hpending : s.stateObjectsPending = []) : s.committed.Consistent := by
  have htouched : ∀ a, ¬ s.committed.touched a := not_touched_of_nil hentries
  -- every object that is not deleted is stored
  have hobject : ∀ {a p}, s.committed.object a = some p → p.fakeStorage = none ∧
      (p.deleted = false → p.Stored s.committed a ∧ p.suicided = false) := by
    intro a p hp
    rcases h.committed_object hentries hpending a with ⟨-, hnone⟩ | ⟨o, p', -, hp', -, -, hf, hrest⟩
    · exact absurd (hp.symm.trans hnone) (by simp)
    · obtain rfl := some.inj (hp'.symm.trans hp)
      exact ⟨hf, fun hd => ⟨(hrest hd).1, (hrest hd).2.1⟩⟩
  have hempty : s.committed.db.storage emptyRoot = fun _ => Hash.zero := by
    have hroot : storageRoot (s.db.storage emptyRoot) = (emptyRoot : S) := by
      rw [h.emptyTrie]
      rfl
    rw [← h.emptyTrie]
    exact h.commit_storage hentries hroot
  refine ⟨hempty, h.commit_codes, fun a p hp => (hobject (object_of_live hp)).1, fun a ha => ?_,
    fun a ha => ?_, fun a ha => absurd ha (htouched a), h.dirties, h.refund,
    fun a p hp hd => ((hobject hp).2 hd).1.sound, fun a _ => rfl, fun a _ key => ?_,
    fun a _ _ => ?_, fun a p _ hp hd => ((hobject hp).2 hd).1.pending,
    fun a p _ hp hd => ⟨((hobject hp).2 hd).2, ((hobject hp).2 hd).1.dirty⟩, h.balances,
    fun a p _ _ hp hd => ⟨((hobject hp).2 hd).1.storage, ((hobject hp).2 hd).1.code⟩⟩
  · change a ∈ s.stateObjectsPending at ha
    rw [hpending] at ha
    exact absurd ha not_mem_nil
  · exact absurd ha not_mem_nil
  · have hblank := StateObject.Blank.freshObject (S := S) (C := C)
    change (freshObject : StateObject S C).content s.committed.db key = Hash.zero
    rw [hblank.content hempty]
  · have hsettled := h.settled a (by simp [hpending]) (not_touched_of_nil hentries a)
    change s.trie a = _
    rw [hsettled]
    rcases h.committed_object hentries hpending a with
      ⟨ho, hp⟩ | ⟨o, p, ho, hp, hdata, hdel, -⟩
    · rw [ho, hp]
    rw [ho, hp, filter_some, filter_some, hdel]
    split_ifs
    · rw [map_some, map_some, hdata]
    · rfl

/-- `Commit` leaves every account as it is. -/
theorem Consistent.committed_world (h : s.Consistent) (hentries : s.entries = [])
    (hpending : s.stateObjectsPending = []) : s.committed.world = s.world := by
  apply World.ext
  · funext a
    simp only [world, accounts]
    rcases h.committed_object hentries hpending a with
      ⟨ho, hp⟩ | ⟨o, p, ho, hp, -, hdel, -, hrest⟩
    · rw [ho, hp]
      rfl
    rw [ho, hp, filter_some, filter_some]
    cases hd : p.deleted with
    | true =>
      rw [← hdel, hd]
      rfl
    | false =>
      rw [← hdel, hd]
      simp [(hrest hd).2.2]
  all_goals rfl

/-- **`Commit` ends the transaction and the block**, and fails where `IntermediateRoot` does. -/
theorem Commit_refines (h : s.Consistent) (hc : s.Covered) (d : Bool) :
    ((s.Commit d).isSome ↔ (s.world.finalise d).Solvent) ∧ ∀ t diff, s.Commit d = some (t, diff) →
        t.Consistent ∧ t.world = s.world.finalise d ∧ t.trie = (s.world.finalise d).trie ∧
        t.entries = [] := by
  obtain ⟨hiff, hroot⟩ := IntermediateRoot_refines h hc d
  cases hs : s.IntermediateRoot d with
  | none =>
    rw [hs] at hiff
    simp only [Commit, hs, bind_none]
    exact ⟨hiff, fun t diff ht => absurd ht (by simp)⟩
  | some u =>
    obtain ⟨hcons, hworld, htrie, hentries, hpending⟩ := hroot u hs
    have hcommit : s.Commit d = some (u.committed, u.commitObjects.diff) := by
      simp only [Commit, hs, bind_some]
      rw [if_pos hcons.dirty_live]
      rfl
    rw [hs] at hiff
    rw [hcommit]
    refine ⟨hiff, fun t diff ht => ?_⟩
    obtain ⟨rfl, -⟩ := Prod.mk.inj (some.inj ht)
    exact ⟨hcons.committed hentries hpending,
      (hcons.committed_world hentries hpending).trans hworld, htrie, hentries⟩

end StateDB

end MxtChain.State
