/-
# MxtChain.State.Refine — every operation does to the world what it says.

The world that a state database shows (`StateDB.world`) changes under each operation exactly as
the operation on worlds (`World.apply`), panics included, and the invariant is kept. Loading an
object changes nothing; creating one, resetting one and changing one are three lemmas, and the
operations are put together from them.
-/
import MxtChain.State.Consistent

set_option linter.unusedSectionVars false

namespace MxtChain.State

open Lib Function Option StateObject JournalEntry World LogicalAccount

variable {S C : Type} [StorageHash S] [CodeHash C] [DecidableEq C] {s t u : StateDB S C}
  {a b : Address} {o p : StateObject S C} {e : JournalEntry S C}
/-! ## §1 — New objects -/

/-- An object without storage, as it is created. -/
structure StateObject.Blank (o : StateObject S C) : Prop where
  trie : o.trie = none
  root : o.data.root = emptyRoot
  code : o.code = none
  codeHash : o.data.codeHash = emptyCodeHash
  nonce : o.data.nonce = 0
  originStorage : o.originStorage = GoMap.empty
  pendingStorage : o.pendingStorage = GoMap.empty
  dirtyStorage : o.dirtyStorage = GoMap.empty
  fakeStorage : o.fakeStorage = none
  suicided : o.suicided = false
  deleted : o.deleted = false

namespace StateObject.Blank

theorem freshObject : (StateDB.freshObject : StateObject S C).Blank :=
  ⟨rfl, rfl, rfl, rfl, rfl, rfl, rfl, rfl, rfl, rfl, rfl⟩

theorem setBalance (h : o.Blank) (amount : Int) : (o.setBalance amount).Blank :=
  { h with }

theorem content (h : o.Blank) (hs : s.db.storage emptyRoot = fun _ => Hash.zero) :
    o.content s.db = fun _ => Hash.zero := by
  rw [StateObject.content, h.trie, h.root, getD_none, hs]

/-- A blank object is sound where nothing lies behind it. -/
theorem sound (h : o.Blank) (hs : s.db.storage emptyRoot = fun _ => Hash.zero)
    (hbehind : ∀ key, s.slotBehind a o key = Hash.zero) : o.Sound s a := by
  refine ⟨?_, ?_, ?_, fun key _ => ?_, ?_, ?_, fun _ => ?_⟩
  · simp [h.originStorage]
  · simp [h.pendingStorage]
  · simp [h.dirtyStorage]
  · rw [hbehind key, h.content hs]
  · rw [h.content hs, h.root]
    rfl
  · simp only [codeBytes, Code_fst, h.code, h.codeHash, if_true]
    rfl
  · exact codeBytes_congr s.db h.code.symm rfl

/-- The account of a blank object where nothing lies behind it. -/
theorem account (h : o.Blank) (hbehind : ∀ key, s.slotBehind a o key = Hash.zero) :
    s.account a o = { fresh with balance := o.data.balance } := by
  have hcommitted : s.committedSlot a o = fun _ => Hash.zero := by
    funext key
    simp [StateDB.committedSlot, h.pendingStorage, h.originStorage, hbehind key]
  have hcurrent : s.currentSlot a o = fun _ => Hash.zero := by
    funext key
    simp [StateDB.currentSlot, h.dirtyStorage, hcommitted]
  simp [StateDB.account, Code_fst, h.nonce, h.codeHash, h.code, h.suicided,
    hcommitted, hcurrent, fresh]

end StateObject.Blank

namespace StateDB

/-! ## §2 — Loading, creating, resetting, changing -/

/-- Growth with the same journal shows the same world. -/
theorem Grows.world_eq {X : Address → Prop} (h : Grows X s t) (hentries : t.entries = s.entries) :
    t.world = s.world := by
  unfold world created written
  rw [h.accounts_eq, h.refund, h.thash, h.bhash, h.txIndex, h.logs, h.logSize, h.preimages,
    hentries]

theorem world_load (s : StateDB S C) (a : Address) : (s.load a).world = s.world :=
  (Grows.load nobody s a).world_eq rfl

theorem Consistent.load (h : s.Consistent) (a : Address) : (s.load a).Consistent :=
  h.grow (.load nobody s a) rfl

theorem accounts_of_live (h : s.stateObjects a = some o) (hd : o.deleted = false) :
    s.accounts a = some (s.account a o) := by
  simp [accounts, object_of_live h, hd]

theorem accounts_setStateObject (hd : o.deleted = false) :
    (s.setStateObject a o).accounts = update s.accounts a (some (s.account a o)) := by
  funext b
  by_cases hb : b = a
  · subst hb
    rw [update_self, accounts_of_live (o := o) (by simp [setStateObject]) hd]
    rfl
  rw [update_of_ne hb]
  unfold accounts
  rw [object_setStateObject_of_ne hb]
  rfl

theorem world_change (hd : o.deleted = false) (hc : e.creates = none) (hw : e.writes = some a) :
    ((s.append e).setStateObject a o).world = s.world.put a (s.account a o) := by
  apply World.ext
  · exact accounts_setStateObject (s := s.append e) hd
  · funext b
    simp [world, created, setStateObject, append, World.put, World.touch, hc]
  · funext b
    simp [world, written, setStateObject, append, World.put, World.touch, hw, @eq_comm _ a b]
  all_goals rfl

theorem Consistent.change (h : s.Consistent) (hw : e.writes = some a)
    (hfake : o.fakeStorage = none) (hsound : o.Sound s a) (hflushed : a ∉ s.stateObjectsPending →
      ∀ key v, o.pendingStorage.find? key = some v → v = o.content s.db key) :
    ((s.append e).setStateObject a o).Consistent :=
  h.update (fun _ _ => rfl) (about_eq_some.mpr (.inr hw)) hfake
    (hsound.congr rfl rfl rfl) hflushed

theorem Consistent.create (h : s.Consistent) (ho : o.Blank)
    (hbehind : ∀ key, s.slotBehind a o key = Hash.zero) :
    ((s.append (.createObjectChange a)).setStateObject a o).Consistent ∧
      ((s.append (.createObjectChange a)).setStateObject a o).world =
        s.world.create a { fresh with balance := o.data.balance } := by
  constructor
  · refine h.update (fun _ _ => rfl) (about_eq_some.mpr (.inl rfl)) ho.fakeStorage ?_ ?_
    · exact ho.sound (s := (s.append (.createObjectChange a)).setStateObject a o) h.emptyTrie
        hbehind
    · simp [ho.pendingStorage]
  · apply World.ext
    · rw [← ho.account hbehind]
      exact accounts_setStateObject (s := s.append (.createObjectChange a)) ho.deleted
    · funext b
      simp [world, created, setStateObject, append, World.create, JournalEntry.creates,
        @eq_comm _ a b]
    · funext b
      simp [world, written, setStateObject, append, World.create, JournalEntry.writes]
    all_goals rfl

theorem Consistent.reset (h : s.Consistent) (prev : StateObject S C) (ho : o.Blank) :
    (s.resetObject a prev o).Consistent ∧ (s.resetObject a prev o).world =
        s.world.create a { fresh with balance := o.data.balance } := by
  have hothers : ∀ b, b ≠ a → (s.resetObject a prev o).snapDestructs b = s.snapDestructs b := by
    intro b hba
    simp only [resetObject]
    split_ifs
    · exact update_of_ne hba _ _
    · rfl
  -- what lay behind the old object is cut off
  have hbehind : ∀ key, (s.resetObject a prev o).slotBehind a o key = Hash.zero := by
    intro key
    have hempty := ho.content (s := s) h.emptyTrie
    cases hs : s.snap with
    | none => simp [slotBehind, resetObject, hs, hempty]
    | some snap => simp [slotBehind, resetObject, hs]
  constructor
  · refine h.update hothers (about_eq_some.mpr (.inl rfl)) ho.fakeStorage
      (ho.sound h.emptyTrie hbehind) ?_
    simp [ho.pendingStorage]
  · apply World.ext
    · rw [← ho.account hbehind]
      funext b
      by_cases hb : b = a
      · subst hb
        simp only [World.create, update_self]
        exact accounts_of_live (by simp [resetObject]) ho.deleted
      simp only [World.create, update_of_ne hb]
      have hobject : (s.resetObject a prev o).object b = s.object b := by
        unfold object
        rw [show (s.resetObject a prev o).stateObjects b = s.stateObjects b from
          update_of_ne hb _ _]
        rfl
      have haccount : (s.resetObject a prev o).account b = s.account b := by
        unfold account currentSlot committedSlot slotBehind
        rw [hothers b hb]
        rfl
      simp only [world, accounts, hobject, haccount]
    · funext b
      simp [world, created, resetObject, World.create, JournalEntry.creates, @eq_comm _ a b]
    · funext b
      simp [world, written, resetObject, World.create, JournalEntry.writes, JournalEntry.dirtied]
    all_goals rfl

/-- `GetOrNewStateObject` -/
theorem getOrNew_refines (h : s.Consistent) (a : Address) : (s.GetOrNewStateObject a).2.Consistent ∧
      s.world.getOrNew a = ((s.GetOrNewStateObject a).2.account a (s.GetOrNewStateObject a).1,
        (s.GetOrNewStateObject a).2.world) := by
  unfold GetOrNewStateObject getOrNew
  rw [getStateObject_eq]
  cases ho : (s.object a).filter fun o => !o.deleted with
  | some o =>
    have haccount : s.world.accounts a = some (s.account a o) := by simp [world, accounts, ho]
    rw [haccount]
    refine ⟨h.load a, ?_⟩
    simp only [world_load]
    rfl
  | none =>
    have haccount : s.world.accounts a = none := by simp [world, accounts, ho]
    rw [haccount]
    have hblank := StateObject.Blank.freshObject (S := S) (C := C)
    cases hobj : (s.load a).object a with
    | none =>
      have hbehind := (h.load a).absent a hobj
      obtain ⟨hcons, hworld⟩ := (h.load a).create hblank hbehind
      simp only [createObject_of_none hobj]
      refine ⟨hcons, ?_⟩
      rw [hworld, world_load]
      exact congrArg (·, s.world.create a .fresh) (hblank.account hbehind).symm
    | some prev =>
      obtain ⟨hcons, hworld⟩ := ((h.load a).load a).reset prev hblank
      simp only [createObject_of_some hobj]
      refine ⟨hcons, ?_⟩
      rw [hworld, world_load, world_load]
      have hacc : (((s.load a).load a).resetObject a prev freshObject).accounts a =
          some .fresh := by
        have hw := congrArg (fun w => w.accounts a) hworld
        simp only [create, update_self] at hw
        exact hw
      rw [accounts_of_live (by simp [resetObject]) hblank.deleted] at hacc
      exact congrArg (·, s.world.create a .fresh) (some.inj hacc).symm

/-- A change that leaves the storage of the object alone. -/
theorem Sound.sameStorage (h : o.Sound s a) (hp : StateObject.SameStorage o p)
    (hcode : keccak256Hash (p.codeBytes s.db) = p.data.codeHash)
    (hclean : p.dirtyCode = false → (newObject p.data).codeBytes s.db = p.codeBytes s.db) :
    p.Sound s a := by
  have hbehind : s.slotBehind a p = s.slotBehind a o := by
    unfold slotBehind
    rw [hp.content]
  refine ⟨?_, ?_, ?_, ?_, ?_, hcode, hclean⟩
  · rw [hp.originStorage, hp.content]
    exact h.origin
  · rw [hp.pendingStorage, hp.originStorage, hp.content]
    exact h.pending
  · rw [hp.dirtyStorage, hp.originStorage, hp.pendingStorage, hp.content]
    exact h.dirty
  · rw [hp.originStorage, hbehind, hp.content]
    exact h.behind
  · rw [hp.content, hp.root]
    exact h.root

theorem Consistent.changeAccount (h : s.Consistent) (hw : e.writes = some a)
    (ho : s.stateObjects a = some o) (hd : o.deleted = false) (hp : StateObject.SameStorage o p)
    (hcode : keccak256Hash (p.codeBytes s.db) = p.data.codeHash)
    (hclean : p.dirtyCode = false → (newObject p.data).codeBytes s.db = p.codeBytes s.db) :
    ((s.append e).setStateObject a p).Consistent := by
  have hobj := object_of_live ho
  refine h.change hw (hp.fakeStorage.trans (h.noFake a o ho))
    (Sound.sameStorage (h.sound a o hobj hd) hp hcode hclean) fun hpend => ?_
  rw [hp.pendingStorage, hp.content]
  exact h.flushed a o hpend hobj hd

/-- A change that also leaves the code of the object alone. -/
theorem Consistent.changeData (h : s.Consistent) (hw : e.writes = some a)
    (ho : s.stateObjects a = some o) (hd : o.deleted = false) (hp : StateObject.SameStorage o p)
    (hcode : p.code = o.code) (hhash : p.data.codeHash = o.data.codeHash)
    (hdirty : p.dirtyCode = o.dirtyCode) : ((s.append e).setStateObject a p).Consistent := by
  have hsound := h.sound a o (object_of_live ho) hd
  exact h.changeAccount hw ho hd hp (hsound.code_congr hcode hhash)
    (hsound.clean_congr hcode hhash hdirty)

/-! ## §3 — The operations -/

theorem account_setBalance (amount : Int) :
    s.account a (o.setBalance amount) = { s.account a o with balance := amount } := by
  have hcode : ((o.setBalance amount).Code s.db).1 = (o.Code s.db).1 := by
    rw [Code_fst, Code_fst]
    rfl
  unfold account
  rw [hcode]
  rfl

variable (h : s.Consistent)
include h

theorem setBalance_refines (ho : s.stateObjects a = some o) (hd : o.deleted = false)
    (amount : Int) : (s.setBalance a o amount).Consistent ∧ (s.setBalance a o amount).world =
        s.world.put a { s.account a o with balance := amount } := by
  refine ⟨h.changeData rfl ho hd ⟨rfl, rfl, rfl, rfl, rfl, rfl, rfl⟩ rfl rfl rfl, ?_⟩
  rw [← account_setBalance]
  exact world_change (o := o.setBalance amount) hd rfl rfl

theorem touch_refines (ho : s.stateObjects a = some o) (hd : o.deleted = false) (ha : a ≠ ripemd) :
    (s.touch a).Consistent ∧ (s.touch a).world = s.world.touch a := by
  rw [touch_eq, if_neg ha]
  have hobj := object_of_live ho
  constructor
  · have hsame : s.changed a o (.touchChange a) s.snapDestructs = s.append (.touchChange a) := by
      unfold changed
      rw [← ho, update_eq_self]
      rfl
    change (s.append (.touchChange a)).Consistent
    rw [← hsame]
    exact h.update (fun _ _ => rfl) (about_eq_some.mpr (.inr rfl)) (h.noFake a o ho)
      ((h.sound a o hobj hd).congr rfl rfl rfl) fun hpend => h.flushed a o hpend hobj hd
  · apply World.ext
    · rfl
    · funext b
      simp [world, created, World.touch, JournalEntry.creates]
    · funext b
      simp [world, written, World.touch, JournalEntry.writes, JournalEntry.dirtied, @eq_comm _ a b]
    all_goals rfl

theorem AddBalance_refines (a : Address) (amount : Int) (hripemd : ¬ (a = ripemd ∧ amount = 0)) :
    (s.AddBalance a amount).Consistent ∧
      s.world.apply (.addBalance a amount) = some (s.AddBalance a amount).world := by
  obtain ⟨hcons, hworld⟩ := getOrNew_refines h a
  obtain ⟨hlive, hd⟩ := getOrNew_live s a
  simp only [AddBalance, apply, hworld]
  generalize s.GetOrNewStateObject a = r at *
  obtain ⟨o, s1⟩ := r
  have hempty : (s1.account a o).empty = o.empty := rfl
  rw [hempty]
  split_ifs with hzero hemp
  · obtain ⟨hc, hw⟩ := touch_refines hcons hlive hd fun ha => hripemd ⟨ha, hzero⟩
    exact ⟨hc, by rw [hw]⟩
  · exact ⟨hcons, rfl⟩
  · obtain ⟨hc, hw⟩ := setBalance_refines hcons hlive hd (o.data.balance + amount)
    exact ⟨hc, by rw [hw]; rfl⟩

theorem SubBalance_refines (a : Address) (amount : Int) : (s.SubBalance a amount).Consistent ∧
      s.world.apply (.subBalance a amount) = some (s.SubBalance a amount).world := by
  obtain ⟨hcons, hworld⟩ := getOrNew_refines h a
  obtain ⟨hlive, hd⟩ := getOrNew_live s a
  simp only [SubBalance, apply, hworld]
  generalize s.GetOrNewStateObject a = r at *
  obtain ⟨o, s1⟩ := r
  split_ifs with hzero
  · exact ⟨hcons, rfl⟩
  · obtain ⟨hc, hw⟩ := setBalance_refines hcons hlive hd (o.data.balance - amount)
    exact ⟨hc, by rw [hw]; rfl⟩

theorem SetBalance_refines (a : Address) (amount : Int) : (s.SetBalance a amount).Consistent ∧
      s.world.apply (.setBalance a amount) = some (s.SetBalance a amount).world := by
  obtain ⟨hcons, hworld⟩ := getOrNew_refines h a
  obtain ⟨hlive, hd⟩ := getOrNew_live s a
  obtain ⟨hc, hw⟩ := setBalance_refines hcons hlive hd amount
  refine ⟨hc, ?_⟩
  simp only [apply, hworld]
  exact congrArg some hw.symm

theorem SetNonce_refines (a : Address) (nonce : UInt64) : (s.SetNonce a nonce).Consistent ∧
      s.world.apply (.setNonce a nonce) = some (s.SetNonce a nonce).world := by
  obtain ⟨hcons, hworld⟩ := getOrNew_refines h a
  obtain ⟨hlive, hd⟩ := getOrNew_live s a
  simp only [SetNonce, apply, hworld]
  generalize s.GetOrNewStateObject a = r at *
  obtain ⟨o, s1⟩ := r
  refine ⟨hcons.changeData rfl hlive hd ⟨rfl, rfl, rfl, rfl, rfl, rfl, rfl⟩ rfl rfl rfl, ?_⟩
  have hcode : ((o.setNonce nonce).Code s1.db).1 = (o.Code s1.db).1 := by
    rw [Code_fst, Code_fst]
    rfl
  rw [world_change (o := o.setNonce nonce) hd rfl rfl]
  unfold account
  rw [hcode]
  rfl

theorem SetCode_refines (a : Address) (code : Bytes) : (s.SetCode a code).Consistent ∧
      s.world.apply (.setCode a code) = some (s.SetCode a code).world := by
  obtain ⟨hcons, hworld⟩ := getOrNew_refines h a
  obtain ⟨hlive, hd⟩ := getOrNew_live s a
  simp only [SetCode, apply, hworld, Code_snd]
  refine ⟨hcons.changeAccount rfl hlive hd ⟨rfl, rfl, rfl, rfl, rfl, rfl, rfl⟩ ?_ ?_, ?_⟩
  · rfl
  · exact fun hclean => absurd hclean (by simp [StateObject.setCode])
  rw [world_change (by exact hd) rfl rfl]
  rfl

omit h

theorem Sound.setState (h : o.Sound s a) {key : Hash} (value : Hash)
    (hknown : o.dirtyStorage.find? key = none → StateObject.Known s a o key) :
    (o.setState key value).Sound s a := by
  refine { h with
    dirty := fun j hj => ?_, code := h.code_congr rfl rfl, clean := h.clean_congr rfl rfl rfl }
  by_cases hjk : j = key
  · subst hjk
    cases hd : o.dirtyStorage.find? j with
    | some v => exact h.dirty j (by simp [hd])
    | none =>
      rcases hknown hd with hp | ho | ⟨hsnap, hdestruct⟩
      · exact .inr (.inl hp)
      · exact .inl ho
      cases ho : o.originStorage.find? j with
      | some v => exact .inl (by simp [StateObject.setState, ho])
      | none =>
        refine .inr (.inr ?_)
        change o.content s.db j = Hash.zero
        rw [← h.behind j ho]
        obtain ⟨snap, hsnap⟩ := isSome_iff_exists.mp hsnap
        simp [slotBehind, hsnap, hdestruct]
  · simp only [StateObject.setState, GoMap.find?_insert_of_ne hjk] at hj
    exact h.dirty j hj

theorem account_setState (key value : Hash) : s.account a (o.setState key value) =
    { s.account a o with state := update (s.account a o).state key value } := by
  have hcode : ((o.setState key value).Code s.db).1 = (o.Code s.db).1 := by
    rw [Code_fst, Code_fst]
    rfl
  have hstate : s.currentSlot a (o.setState key value) = update (s.currentSlot a o) key value := by
    funext j
    by_cases hj : j = key
    · subst hj
      simp [currentSlot, StateObject.setState]
    · rw [update_of_ne hj]
      simp only [currentSlot, StateObject.setState, GoMap.find?_insert_of_ne hj]
      rfl
  unfold account
  rw [hcode, hstate]
  rfl

theorem SetState_refines (h : s.Consistent) (a : Address) (key value : Hash) :
    (s.SetState a key value).Consistent ∧
      s.world.apply (.setState a key value) = some (s.SetState a key value).world := by
  obtain ⟨hcons, hworld⟩ := getOrNew_refines h a
  obtain ⟨hlive, hd⟩ := getOrNew_live s a
  simp only [SetState, apply, hworld]
  generalize s.GetOrNewStateObject a = r at *
  obtain ⟨o, s1⟩ := r
  have hfake := hcons.noFake a o hlive
  have hobj := object_of_live hlive
  obtain ⟨hgrows, hdirty, hknown⟩ := GetState_grows s1 a hfake key
  have hload := Grows.setObject (X := nobody) hobj hgrows
  have hcons' := hcons.grow hload rfl
  have hworld' := hload.world_eq rfl
  have hstate : (s1.account a o).state key = (o.GetState s1 a key).1 :=
    (GetState_fst hfake).symm
  simp only [hfake, hstate]
  split_ifs with heq
  · exact ⟨hcons', by rw [hworld']⟩
  · have hself : (s1.setStateObject a (o.GetState s1 a key).2).object a =
        some (o.GetState s1 a key).2 := object_setStateObject_self
    have hd' : (o.GetState s1 a key).2.deleted = false := hgrows.deleted.trans hd
    have hsound := hcons'.sound a _ hself hd'
    constructor
    · refine hcons'.change (o := (o.GetState s1 a key).2.setState key value) rfl
        (hgrows.fakeStorage.trans hfake) (Sound.setState hsound value fun hnone => ?_)
        fun hpend => hcons'.flushed a (o.GetState s1 a key).2 hpend hself hd'
      exact hknown (hdirty ▸ hnone)
    · rw [world_change (o := (o.GetState s1 a key).2.setState key value) hd' rfl rfl, hworld']
      have haccount : (s1.setStateObject a (o.GetState s1 a key).2).account a
          (o.GetState s1 a key).2 = s1.account a o := hload.account_eq hgrows
      rw [account_setState, haccount]

theorem CreateAccount_refines (h : s.Consistent) (a : Address) : (s.CreateAccount a).Consistent ∧
      s.world.apply (.createAccount a) = some (s.CreateAccount a).world := by
  have hblank := StateObject.Blank.freshObject (S := S) (C := C)
  cases hobj : s.object a with
  | none =>
    obtain ⟨hcons, hworld⟩ := h.create hblank (h.absent a hobj)
    rw [CreateAccount_of_none hobj]
    refine ⟨hcons, ?_⟩
    have hnone : s.world.accounts a = none := by simp [world, accounts, hobj]
    simp only [apply, hnone, elim_none, hworld]
    rfl
  | some prev =>
    rw [CreateAccount_of_some hobj]
    cases hd : prev.deleted with
    | true =>
      obtain ⟨hcons, hworld⟩ := (h.load a).reset prev hblank
      refine ⟨hcons, ?_⟩
      have hnone : s.world.accounts a = none := by simp [world, accounts, hobj, hd]
      simp only [apply, hnone, elim_none, if_true, hworld, world_load]
      rfl
    | false =>
      obtain ⟨hcons, hworld⟩ := (h.load a).reset prev
        (hblank.setBalance prev.data.balance)
      refine ⟨hcons, ?_⟩
      have hsome : s.world.accounts a = some (s.account a prev) := by
        simp [world, accounts, hobj, hd]
      simp only [apply, hsome, elim_some, Bool.false_eq_true, if_false, hworld, world_load]
      rfl

theorem Suicide_refines (h : s.Consistent) (a : Address) : (s.Suicide a).Consistent ∧
      s.world.apply (.suicide a) = some (s.Suicide a).world := by
  unfold Suicide
  rw [getStateObject_eq]
  cases ho : (s.object a).filter fun o => !o.deleted with
  | none =>
    have hnone : s.world.accounts a = none := by simp [world, accounts, ho]
    simp only [apply, hnone, world_load]
    exact ⟨h.load a, trivial⟩
  | some o =>
    obtain ⟨hobj, hdel⟩ := filter_eq_some_iff.mp ho
    have hd : o.deleted = false := by simpa using hdel
    have hsome : s.world.accounts a = some (s.account a o) := by simp [world, accounts, ho]
    have hlive : (s.load a).stateObjects a = some o := by simp [load, hobj]
    simp only [apply, hsome]
    refine ⟨(h.load a).changeData rfl hlive hd ⟨rfl, rfl, rfl, rfl, rfl, rfl, rfl⟩ rfl rfl rfl, ?_⟩
    rw [world_change (by exact hd) rfl rfl, world_load]
    have hcode : ({ o.setBalance 0 with suicided := true }.Code s.db).1 = (o.Code s.db).1 := by
      rw [Code_fst, Code_fst]
      rfl
    unfold account
    rw [show (s.load a).db = s.db from rfl, hcode]
    rfl

/-- An entry about no address leaves the touched addresses as they were. -/
theorem created_note (hentries : t.entries = e :: s.entries) (he : e.creates = none) :
    t.created = s.created := by
  funext b
  simp [created, hentries, he]

theorem written_note (hentries : t.entries = e :: s.entries) (he : e.writes = none) :
    t.written = s.written := by
  funext b
  simp [written, hentries, he]

/-- **Every operation does to the world what it says**, panics included, and keeps the
invariant. -/
theorem step_refines (h : s.Consistent) {op : Op} (hripemd : op ≠ .addBalance ripemd 0)
    (hsnap : op ≠ .snapshot) (hrev : ∀ revid, op ≠ .revertToSnapshot revid) :
    (∀ t, step s op = some t → t.Consistent) ∧
      (step s op).map StateDB.world = s.world.apply op := by
  have hdone : ∀ {t : StateDB S C}, step s op = some t →
      t.Consistent ∧ s.world.apply op = some t.world →
      (∀ t, step s op = some t → t.Consistent) ∧
        (step s op).map StateDB.world = s.world.apply op := by
    intro t ht ⟨hcons, hworld⟩
    refine ⟨fun t' ht' => ?_, by rw [ht, hworld]; rfl⟩
    rw [← some.inj (ht.symm.trans ht')]
    exact hcons
  cases op with
  | snapshot => exact absurd rfl hsnap
  | revertToSnapshot revid => exact absurd rfl (hrev revid)
  | addBalance a amount =>
    exact hdone rfl (AddBalance_refines h a amount fun ⟨ha, hz⟩ => hripemd (by rw [ha, hz]))
  | subBalance a amount => exact hdone rfl (SubBalance_refines h a amount)
  | setBalance a amount => exact hdone rfl (SetBalance_refines h a amount)
  | setNonce a nonce => exact hdone rfl (SetNonce_refines h a nonce)
  | setCode a code => exact hdone rfl (SetCode_refines h a code)
  | setState a key value => exact hdone rfl (SetState_refines h a key value)
  | createAccount a => exact hdone rfl (CreateAccount_refines h a)
  | suicide a => exact hdone rfl (Suicide_refines h a)
  | read q =>
    have hask := onlyGrows_ask (X := nobody) h.noFake q
    refine hdone rfl ⟨h.grow hask.grows hask.entries, ?_⟩
    rw [hask.grows.world_eq hask.entries]
    rfl
  | addRefund gas =>
    refine hdone rfl ⟨h.note rfl rfl, congrArg some ?_⟩
    exact World.ext rfl (created_note rfl rfl).symm (written_note rfl rfl).symm rfl rfl rfl rfl rfl
      rfl rfl
  | subRefund gas =>
    by_cases hgas : s.refund < gas
    · have hpanic : step s (.subRefund gas) = none := by simp [step, SubRefund, hgas]
      refine ⟨fun t ht => absurd (hpanic.symm.trans ht) (by simp), ?_⟩
      have hworld : s.world.refund < gas := hgas
      rw [hpanic, apply, if_pos hworld]
      rfl
    have hworld : ¬ s.world.refund < gas := hgas
    refine hdone (t := { s.append (.refundChange s.refund) with refund := s.refund - gas })
      (by simp [step, SubRefund, hgas])
      ⟨h.note rfl rfl, ?_⟩
    rw [apply, if_neg hworld]
    exact congrArg some (World.ext rfl (created_note rfl rfl).symm (written_note rfl rfl).symm
      rfl rfl rfl rfl rfl rfl rfl)
  | addLog log =>
    refine hdone rfl ⟨h.note rfl rfl, congrArg some ?_⟩
    exact World.ext rfl (created_note rfl rfl).symm (written_note rfl rfl).symm rfl rfl rfl rfl rfl
      rfl rfl
  | addPreimage hash preimage =>
    refine hdone rfl ?_
    cases hpre : s.preimages hash with
    | some b =>
      have hsame : s.AddPreimage hash preimage = s := by simp [AddPreimage, hpre]
      have hworld : s.world.preimages hash = some b := hpre
      rw [hsame]
      refine ⟨h, ?_⟩
      simp only [apply, hworld]
    | none =>
      have hnew : s.AddPreimage hash preimage = { s.append (.addPreimageChange hash) with
          preimages := update s.preimages hash (some preimage) } := by
        simp [AddPreimage, hpre]
      have hworld : s.world.preimages hash = none := hpre
      rw [hnew]
      refine ⟨h.note rfl rfl, ?_⟩
      simp only [apply, hworld]
      exact congrArg some (World.ext rfl (created_note rfl rfl).symm (written_note rfl rfl).symm
        rfl rfl rfl rfl rfl rfl rfl)

end StateDB

end MxtChain.State
