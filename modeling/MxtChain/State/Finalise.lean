/-
# MxtChain.State.Finalise — the end of a transaction, and what it writes into the tries.

`Finalise` settles the journal-dirty objects only. An object that was put in the place of another
one is not journal-dirty by that alone (`resetObjectChange` reports no address), so the end of the
transaction is what it should be if every such object was also changed: `Covered`. Then `Finalise`
does to the world what the end of a transaction is, and `IntermediateRoot` leaves an account trie
that is the trie of that world.
-/
import MxtChain.State.Refine

set_option linter.unusedSectionVars false

namespace MxtChain.State

open Lib List Option World

variable {S C : Type} [StorageHash S] [CodeHash C] [DecidableEq C]
variable {s t u : StateDB S C} {a b : Address} {o p : StateObject S C} {d : Bool}

theorem World.finalise_of_touched {w : World C} (h : w.touched a) : (w.finalise d).accounts a =
    (w.accounts a).bind fun acc =>
      if dead d acc then none else some { acc with committed := acc.state } :=
  if_pos h

theorem World.finalise_of_untouched {w : World C} (h : ¬ w.touched a) :
    (w.finalise d).accounts a = w.accounts a := if_neg h

namespace StateDB

/-- Every object that was put in the place of another one is journal-dirty. -/
def Covered (s : StateDB S C) : Prop :=
  ∀ a prev prevdestruct, .resetObjectChange a prev prevdestruct ∈ s.entries → a ∈ s.dirties

theorem Consistent.mem_dirties (h : s.Consistent) :
    a ∈ s.dirties ↔ ∃ e ∈ s.entries, e.dirtied = some a := by
  rw [← count_pos_iff, h.dirties a, count_pos_iff, mem_filterMap]

/-- Where the resets are covered, the touched addresses are the journal-dirty ones. -/
theorem Covered.touched_iff (hc : s.Covered) (h : s.Consistent) : s.touched a ↔ a ∈ s.dirties := by
  rw [StateDB.touched_iff]
  constructor
  · rintro ⟨e, he, ha⟩
    cases e with
    | resetObjectChange b prev prevdestruct =>
      obtain rfl : b = a := by simpa [JournalEntry.about, JournalEntry.creates] using ha
      exact hc b prev prevdestruct he
    | _ =>
      refine h.mem_dirties.mpr ⟨_, he, ?_⟩
      simp_all [JournalEntry.about, JournalEntry.creates, JournalEntry.writes, JournalEntry.dirtied]
  · intro ha
    obtain ⟨e, he, hd⟩ := h.mem_dirties.mp ha
    refine ⟨e, he, ?_⟩
    cases e <;> simp_all [JournalEntry.about, JournalEntry.creates, JournalEntry.writes,
      JournalEntry.dirtied]

/-! ## §1 — Finalise -/

/-- The object that `Finalise` leaves at a journal-dirty address. -/
def finaliseObject (d : Bool) (o : StateObject S C) : StateObject S C :=
  if dead d o then { o with deleted := true } else o.finalise

/-- The accounts that `Finalise` marks as destructed in the snapshot. -/
def destructed (s : StateDB S C) (d : Bool) (a : Address) : Bool :=
  s.snap.isSome && decide (a ∈ s.dirties) && (s.stateObjects a).any (dead d)

/-- The journal-dirty addresses with a live object. -/
def finished (s : StateDB S C) : List Address :=
  s.dirties.filter fun a => (s.stateObjects a).isSome

/-- `Finalise` with the journal always cleared. -/
theorem Consistent.Finalise_eq (h : s.Consistent) (d : Bool) : s.Finalise d = { s with
    stateObjects := fun a =>
      if a ∈ s.dirties then (s.stateObjects a).map (finaliseObject d) else s.stateObjects a
    snapDestructs := fun a => s.snapDestructs a || s.destructed d a
    snapAccounts := fun a => if s.destructed d a then none else s.snapAccounts a
    snapStorage := fun a => if s.destructed d a then GoMap.empty else s.snapStorage a
    stateObjectsPending := s.finished ++ s.stateObjectsPending
    stateObjectsDirty := s.finished ++ s.stateObjectsDirty
    entries := []
    dirties := []
    refund := 0
    validRevisions := [] } := by
  by_cases hnil : s.entries = []
  · -- an empty journal has no dirty address, and nothing was refunded
    have hdirties : s.dirties = [] := by
      apply eq_nil_iff_forall_not_mem.mpr
      intro a ha
      obtain ⟨e, he, -⟩ := h.mem_dirties.mp ha
      rw [hnil] at he
      exact absurd he not_mem_nil
    have hrefund := h.refund hnil
    change (if s.entries = [] then _ else _) = _
    simp only [destructed, finished, hnil, hdirties, hrefund]
    rfl
  · change (if s.entries = [] then _ else _) = _
    rw [if_neg hnil]
    rfl

theorem destructed_of_not_mem (h : a ∉ s.dirties) : s.destructed d a = false := by
  simp [destructed, h]

theorem destructed_of_alive (ho : s.stateObjects a = some o) (hd : dead d o = false) :
    s.destructed d a = false := by
  simp [destructed, ho, hd]

theorem Consistent.Finalise_object (h : s.Consistent) (hc : s.Covered) (d : Bool) (a : Address) :
    (a ∈ s.dirties ∧ ∃ o, s.stateObjects a = some o ∧ s.object a = some o ∧
        (s.Finalise d).stateObjects a = some (finaliseObject d o)) ∨
      (a ∉ s.dirties ∧ (s.Finalise d).stateObjects a = s.stateObjects a ∧
        (s.Finalise d).object a = s.object a) := by
  rw [h.Finalise_eq]
  by_cases ha : a ∈ s.dirties
  · obtain ⟨o, ho⟩ := isSome_iff_exists.mp (h.touched_live a ((hc.touched_iff h).mpr ha))
    refine .inl ⟨ha, o, ho, object_of_live ho, ?_⟩
    simp [ha, ho]
  · refine .inr ⟨ha, by simp [ha], ?_⟩
    simp only [object, ha, if_false]
    rfl

/-- What lies behind an object that stays is as before. -/
theorem Consistent.Finalise_behind (h : s.Consistent) (hd : s.destructed d a = false) :
    (s.Finalise d).slotBehind a = s.slotBehind a := by
  funext p key
  rw [h.Finalise_eq]
  simp [slotBehind, hd]

theorem Sound.finalise (h : o.Sound s a) : o.finalise.Sound s a := by
  refine ⟨h.origin, fun key hk => ?_, fun key hk => ?_, h.behind, h.root, h.code_congr rfl rfl,
    h.clean_congr rfl rfl rfl⟩
  · simp only [StateObject.finalise, GoMap.find?_union, isSome_or, Bool.or_eq_true] at hk
    rcases hk with hk | hk
    · rcases h.dirty key hk with ho | hp | hz
      · exact .inl ho
      · exact h.pending key hp
      · exact .inr hz
    · exact h.pending key hk
  · simp [StateObject.finalise] at hk

theorem committedSlot_finalise : s.committedSlot a o.finalise = s.currentSlot a o := by
  funext key
  simp only [committedSlot, currentSlot, StateObject.finalise, GoMap.find?_union]
  cases o.dirtyStorage.find? key <;> rfl

theorem account_finalise :
    s.account a o.finalise = { s.account a o with committed := (s.account a o).state } := by
  have hcode : (o.finalise.Code s.db).1 = (o.Code s.db).1 := by
    rw [StateObject.Code_fst, StateObject.Code_fst]
    rfl
  have hstate : s.currentSlot a o.finalise = s.currentSlot a o := by
    funext key
    rw [currentSlot, committedSlot_finalise]
    change (GoMap.empty.find? key).getD _ = _
    rw [GoMap.find?_empty, getD_none]
  unfold account
  rw [hcode, hstate, committedSlot_finalise]
  rfl

/-- **`Finalise` keeps the invariant**, where the resets are covered. -/
theorem Consistent.Finalise (h : s.Consistent) (hc : s.Covered) (d : Bool) :
    (s.Finalise d).Consistent := by
  have heq := h.Finalise_eq d
  have hdb : (s.Finalise d).db = s.db := by rw [heq]
  have hsnap : (s.Finalise d).snap = s.snap := by rw [heq]
  have htrie : (s.Finalise d).trie = s.trie := by rw [heq]
  have hread : (s.Finalise d).readAccount = s.readAccount := by
    unfold readAccount
    rw [hsnap, htrie]
  have hentries : (s.Finalise d).entries = [] := by rw [heq]
  have hpending : (s.Finalise d).stateObjectsPending = s.finished ++ s.stateObjectsPending := by
    rw [heq]
  have hdirty : (s.Finalise d).stateObjectsDirty = s.finished ++ s.stateObjectsDirty := by
    rw [heq]
  have hdestructs : ∀ {a}, s.destructed d a = false →
      (s.Finalise d).snapDestructs a = s.snapDestructs a := by
    intro a ha
    rw [heq]
    simp [ha]
  have hlive : ∀ a, ((s.Finalise d).stateObjects a).isSome = (s.stateObjects a).isSome := by
    intro a
    rcases h.Finalise_object hc d a with ⟨-, o, ho, -, hp⟩ | ⟨-, hp, -⟩
    · rw [ho, hp]
      rfl
    · rw [hp]
  have hfinished : ∀ {a}, a ∉ s.finished → a ∉ s.dirties := by
    intro a ha hm
    refine ha (mem_filter.mpr ⟨hm, ?_⟩)
    exact h.touched_live a ((hc.touched_iff h).mpr hm)
  -- an address that is not journal-dirty has the object it had, and was not touched
  have hother : ∀ {a p}, a ∉ s.dirties → (s.Finalise d).object a = some p →
      s.object a = some p ∧ ¬ s.touched a := by
    intro a p ha hp
    rcases h.Finalise_object hc d a with ⟨hm, -⟩ | ⟨-, -, hobj⟩
    · exact absurd hm ha
    · exact ⟨hobj ▸ hp, fun ht => ha ((hc.touched_iff h).mp ht)⟩
  -- a journal-dirty object that stays is finalised
  have hself : ∀ {a p}, a ∈ s.dirties → (s.Finalise d).object a = some p → p.deleted = false →
      ∃ o, s.stateObjects a = some o ∧ o.deleted = false ∧ dead d o = false ∧ p = o.finalise := by
    intro a p ha hp hd
    rcases h.Finalise_object hc d a with ⟨-, o, ho, -, hobj⟩ | ⟨hm, -⟩
    · obtain rfl : finaliseObject d o = p := some.inj ((object_of_live hobj).symm.trans hp)
      unfold finaliseObject at hd ⊢
      split_ifs at hd ⊢ with hdead
      exact ⟨o, ho, hd, by simpa using hdead, rfl⟩
    · exact absurd ha hm
  refine ⟨?_, hdb ▸ h.codes, fun a p hp => ?_, fun a ha => ?_, fun a ha => ?_, fun a ha => ?_,
    fun a => ?_, fun _ => ?_, fun a p hp hd => ?_, fun a ha => ?_, fun a ha key => ?_,
    fun a hp ht => ?_, fun a p hpend hp hd => ?_, fun a p ht hp hd => ?_, fun a acc hacc => ?_,
    fun a p hnd ht hp hd => ?_⟩
  · rw [hdb]
    exact h.emptyTrie
  · rcases h.Finalise_object hc d a with ⟨-, o, ho, -, hobj⟩ | ⟨-, hobj, -⟩
    · rw [← some.inj (hobj.symm.trans hp)]
      have hfake := h.noFake a o ho
      unfold finaliseObject
      split_ifs
      · exact hfake
      · exact hfake
    · exact h.noFake a p (hobj ▸ hp)
  · rw [hpending] at ha
    rw [hdirty]
    exact (mem_append.mp ha).elim (mem_append_left _)
      fun hm => mem_append_right _ (h.pending_dirty a hm)
  · rw [hlive]
    rw [hdirty] at ha
    rcases mem_append.mp ha with hm | hm
    · exact (mem_filter.mp hm).2
    · exact h.dirty_live a hm
  · rw [touched_iff, hentries] at ha
    simp at ha
  · rw [heq]
    rfl
  · rw [heq]
  · by_cases ha : a ∈ s.dirties
    · obtain ⟨o, ho, hdel, hdead, rfl⟩ := hself ha hp hd
      exact (Sound.finalise (h.sound a o (object_of_live ho) hdel)).congr hdb hsnap
        (hdestructs (destructed_of_alive ho hdead))
    · obtain ⟨hobj, -⟩ := hother ha hp
      exact (h.sound a p hobj hd).congr hdb hsnap (hdestructs (destructed_of_not_mem ha))
  · rw [hread, htrie]
    refine h.read a ?_
    have hnone := hlive a
    rw [ha] at hnone
    simpa using hnone.symm
  · rcases h.Finalise_object hc d a with ⟨-, o, -, -, hobj⟩ | ⟨hm, -, hobj⟩
    · rw [object_of_live hobj] at ha
      cases ha
    · rw [h.Finalise_behind (destructed_of_not_mem hm)]
      exact h.absent a (hobj ▸ ha) key
  · rw [hpending, mem_append, not_or] at hp
    have ha := hfinished hp.1
    rcases h.Finalise_object hc d a with ⟨hm, -⟩ | ⟨-, -, hobj⟩
    · exact absurd hm ha
    · rw [htrie, hobj]
      exact h.settled a hp.2 fun htouch => ha ((hc.touched_iff h).mp htouch)
  · rw [hpending, mem_append, not_or] at hpend
    rw [hdb]
    exact h.flushed a p hpend.2 (hother (hfinished hpend.1) hp).1 hd
  · by_cases ha : a ∈ s.dirties
    · obtain ⟨o, -, -, hdead, rfl⟩ := hself ha hp hd
      refine ⟨(Bool.or_eq_false_iff.mp hdead).1, fun key v hv => ?_⟩
      simp [StateObject.finalise] at hv
    obtain ⟨hobj, htouch⟩ := hother ha hp
    have hcommitted : (s.Finalise d).committedSlot a p = s.committedSlot a p := by
      unfold committedSlot
      rw [h.Finalise_behind (destructed_of_not_mem ha)]
    rw [hcommitted]
    exact h.quiet a p htouch hobj hd
  · exact h.balances a acc (htrie ▸ hacc)
  · rw [hdirty, mem_append, not_or] at hnd
    obtain ⟨hobj, htouch⟩ := hother (hfinished hnd.1) hp
    rw [hdb]
    exact h.stored a p hnd.2 htouch hobj hd

/-- **`Finalise` is the end of a transaction.** -/
theorem Consistent.Finalise_world (h : s.Consistent) (hc : s.Covered) (d : Bool) :
    (s.Finalise d).world = s.world.finalise d := by
  have heq := h.Finalise_eq d
  have hentries : (s.Finalise d).entries = [] := by rw [heq]
  have hdb : (s.Finalise d).db = s.db := by rw [heq]
  -- an object that stays shows the same account in both states
  have haccount : ∀ {a}, s.destructed d a = false → (s.Finalise d).account a = s.account a := by
    intro a ha
    unfold account currentSlot committedSlot
    rw [h.Finalise_behind ha, hdb]
  apply World.ext
  · funext a
    rcases h.Finalise_object hc d a with ⟨hm, o, ho, hobj, hp⟩ | ⟨hm, -, hobj⟩
    · have htouch : s.world.touched a := (hc.touched_iff h).mpr hm
      rw [finalise_of_touched htouch]
      simp only [world, accounts, hobj, object_of_live hp]
      cases hdel : o.deleted with
      | true =>
        have hdel' : (finaliseObject d o).deleted = true := by
          unfold finaliseObject
          split_ifs
          · rfl
          · exact hdel
        simp [filter_some, hdel, hdel']
      | false =>
        have hsame : World.dead d (s.account a o) = dead d o := rfl
        cases hdead : dead d o with
        | true => simp [filter_some, hdel, hsame, hdead, finaliseObject]
        | false =>
          have hdel' : o.finalise.deleted = false := hdel
          simp only [finaliseObject, hdead, Bool.false_eq_true, if_false, filter_some, hdel,
            hdel', Bool.not_false, if_true, map_some, bind_some, hsame,
            haccount (destructed_of_alive ho hdead), account_finalise]
    · have htouch : ¬ s.world.touched a := fun ht => hm ((hc.touched_iff h).mp ht)
      rw [finalise_of_untouched htouch]
      simp only [world, accounts, hobj, haccount (destructed_of_not_mem hm)]
  · funext a
    simp [world, created, hentries, finalise]
  · funext a
    simp [world, written, hentries, finalise]
  all_goals
    rw [heq]
    rfl

end StateDB

/-! ## §2 — Writing the storage tries -/

namespace StateObject

/-- `p` is what `updateRoot` makes of `o`, with the slots it reports: the storage trie holds the
committed slots, and the caches in front of it are settled. -/
structure Updated (s : StateDB S C) (a : Address) (o p : StateObject S C) (slots : Storage) :
    Prop where
  sound : p.Sound s a
  content : p.content s.db = s.committedSlot a o
  data : p.data = { o.data with root := storageRoot (s.committedSlot a o) }
  pendingStorage : ∀ key, p.pendingStorage.find? key = none
  dirtyStorage : ∀ key, p.dirtyStorage.find? key = none
  committed : s.committedSlot a p = s.committedSlot a o
  slots_eq : ∀ key, (slots.find? key).getD (o.content s.db key) = p.content s.db key
  /-- the trie was opened if anything was written -/
  trie : p.trie = none → o.trie = none ∧ p.data = o.data
  code : p.code = o.code
  fakeStorage : p.fakeStorage = o.fakeStorage
  dirtyCode : p.dirtyCode = o.dirtyCode
  suicided : p.suicided = o.suicided
  deleted : p.deleted = o.deleted

theorem Sound.committedSlot_of_none (h : o.Sound s a) {key : Hash}
    (hp : o.pendingStorage.find? key = none) : s.committedSlot a o key = o.content s.db key := by
  rw [StateDB.committedSlot, hp, none_or]
  cases ho : o.originStorage.find? key with
  | some v => exact h.origin key v ho
  | none => exact h.behind key ho

/-- The noop test of `updateTrie` drops only slots that the trie has. -/
theorem Sound.noop (h : o.Sound s a) {key v : Hash} (hp : o.pendingStorage.find? key = some v)
    (hv : v = o.originStorage.get key) : v = o.content s.db key := by
  cases ho : o.originStorage.find? key with
  | some w =>
    have hget : o.originStorage.get key = w := by simp [GoMap.get, ho]
    rw [hv, hget]
    exact h.origin key w ho
  | none =>
    have hget : o.originStorage.get key = Hash.zero := by
      simp only [GoMap.get, ho]
      rfl
    rw [hv, hget]
    rcases h.pending key (by simp [hp]) with hsome | hzero
    · simp [ho] at hsome
    · exact hzero.symm

/-- The slots that are written, over the trie. -/
theorem Sound.changes_content (h : o.Sound s a) (key : Hash) :
    (o.changes.find? key).getD (o.content s.db key) = s.committedSlot a o key := by
  rw [changes, GoMap.find?_filter]
  cases hp : o.pendingStorage.find? key with
  | none => exact (h.committedSlot_of_none hp).symm
  | some v =>
    have hcommitted : s.committedSlot a o key = v := by simp [StateDB.committedSlot, hp]
    rw [hcommitted]
    by_cases hv : v = o.originStorage.get key
    · simp only [filter_some, hv, ne_eq, not_true_eq_false, decide_false,
        Bool.false_eq_true, if_false, getD_none]
      rw [← hv]
      exact (h.noop hp hv).symm
    · simp [filter_some, hv]

/-- The dirty slots of an object with nothing to finalise are the committed ones. -/
theorem committedSlot_finalise_of_quiet
    (hq : ∀ key v, o.dirtyStorage.find? key = some v → v = s.committedSlot a o key) :
    s.committedSlot a o.finalise = s.committedSlot a o := by
  rw [StateDB.committedSlot_finalise]
  funext key
  rw [StateDB.currentSlot]
  cases hd : o.dirtyStorage.find? key with
  | none => rfl
  | some v => exact hq key v hd

/-- Where nothing is pending the trie is not touched. -/
theorem updateRoot_of_empty (h : o.Sound s a) (hempty : o.finalise.pendingStorage.isEmpty) :
    o.updateRoot s.db = (o.finalise, GoMap.empty) := by
  unfold updateRoot updateTrie
  simp only [hempty, if_true]
  split
  · rfl
  next tr htrie =>
  have hroot : storageRoot tr = o.finalise.data.root := by
    rw [← (StateDB.Sound.finalise h).root, content, htrie, getD_some]
  rw [hroot]

theorem updateRoot_spec (h : o.Sound s a)
    (hq : ∀ key v, o.dirtyStorage.find? key = some v → v = s.committedSlot a o key) :
    Updated s a o (o.updateRoot s.db).1 (o.updateRoot s.db).2 := by
  have hf := StateDB.Sound.finalise h
  have hcommitted := committedSlot_finalise_of_quiet hq
  by_cases hempty : o.finalise.pendingStorage.isEmpty
  · -- nothing is pending: the trie is not opened
    have hnone := GoMap.isEmpty_iff.mp hempty
    have hslots : o.content s.db = s.committedSlot a o := by
      funext key
      rw [← hcommitted]
      exact (hf.committedSlot_of_none (hnone key)).symm
    have hdata : o.finalise.data = { o.data with root := storageRoot (s.committedSlot a o) } := by
      rw [← hslots, h.root]
      rfl
    rw [updateRoot_of_empty h hempty]
    exact ⟨hf, hslots, hdata, hnone, fun _ => GoMap.find?_empty _, hcommitted, fun key => rfl,
      fun hn => ⟨hn, rfl⟩, rfl, rfl, rfl, rfl, rfl⟩
  unfold updateRoot updateTrie
  simp only [hempty, Bool.false_eq_true, if_false]
  have hwritten : (fun key => (o.finalise.changes.find? key).getD
      (o.finalise.content s.db key)) = s.committedSlot a o := by
    rw [← hcommitted]
    funext key
    exact hf.changes_content key
  -- a slot that is not written is as it was in the trie
  have hkept : ∀ key, o.finalise.changes.find? key = none →
      s.committedSlot a o key = o.content s.db key := by
    intro key hk
    rw [← hwritten]
    simp only [hk]
    rfl
  rw [hwritten]
  have hbehind : ∀ (p : StateObject S C) key, p.content s.db = s.committedSlot a o →
      o.finalise.changes.find? key = none →
      o.originStorage.find? key = none → s.slotBehind a p key = s.committedSlot a o key := by
    intro p key hp hc ho
    have hold := h.behind key ho
    rw [← hkept key hc] at hold
    rw [← hold]
    unfold StateDB.slotBehind
    rw [hp, hkept key hc]
  refine ⟨⟨fun key v hv => ?_, ?_, ?_, fun key hk => ?_, rfl, h.code_congr rfl rfl,
    h.clean_congr rfl rfl rfl⟩, rfl, rfl,
    fun _ => GoMap.find?_empty _, fun _ => GoMap.find?_empty _, ?_, fun key => ?_,
    fun hn => absurd hn (by simp), rfl, rfl, rfl, rfl, rfl⟩
  · change v = s.committedSlot a o key
    simp only [GoMap.find?_union] at hv
    cases hc : o.finalise.changes.find? key with
    | some w =>
      rw [hc, some_or] at hv
      rw [← hwritten]
      simp only [hc, getD_some]
      exact (some.inj hv).symm
    | none =>
      rw [hc, none_or] at hv
      rw [hkept key hc]
      exact h.origin key v hv
  · simp
  · simp [finalise]
  · simp only [GoMap.find?_union, or_eq_none_iff] at hk
    exact hbehind _ key rfl hk.1 hk.2
  · funext key
    rw [StateDB.committedSlot]
    simp only [GoMap.find?_empty, none_or, GoMap.find?_union]
    cases hc : o.finalise.changes.find? key with
    | some w =>
      rw [← hwritten]
      simp [hc]
    | none =>
      cases ho : o.finalise.originStorage.find? key with
      | some w =>
        rw [hkept key hc]
        exact h.origin key w ho
      | none => exact hbehind _ key rfl hc ho
  · exact congrFun hwritten key

end StateObject

end MxtChain.State
