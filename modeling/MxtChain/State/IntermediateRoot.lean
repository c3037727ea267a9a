/-
# MxtChain.State.IntermediateRoot — the account trie of the world.

Once a transaction is finalised, the loop over the pending objects writes each one's storage and
then its account. It changes nothing that can be read, and when nothing is pending any more the
account trie is the trie of the world. It gives up only on a negative balance.
-/
import MxtChain.State.Finalise

set_option linter.unusedSectionVars false

namespace MxtChain.State

open Lib Option

variable {S C : Type} [StorageHash S] [CodeHash C] [DecidableEq C]
variable {s t u : StateDB S C} {a b : Address} {o p : StateObject S C} {d : Bool}

/-- No account has a negative balance. -/
def World.Solvent (w : World C) : Prop := ∀ a acc, w.accounts a = some acc → 0 ≤ acc.balance

namespace StateDB

theorem not_touched_of_nil (h : s.entries = []) (a : Address) : ¬ s.touched a := by
  rw [touched_iff, h]
  simp

/-- A settled object has its committed slots in the trie. -/
theorem Consistent.committedSlot_eq (h : s.Consistent) (hp : a ∉ s.stateObjectsPending)
    (ho : s.object a = some o) (hd : o.deleted = false) : s.committedSlot a o = o.content s.db := by
  have hsound := h.sound a o ho hd
  funext key
  cases hpend : o.pendingStorage.find? key with
  | none => exact hsound.committedSlot_of_none hpend
  | some v =>
    rw [← h.flushed a o hp ho hd key v hpend]
    simp [committedSlot, hpend]

/-- **Where nothing is pending and nothing was touched, the account trie is that of the world.** -/
theorem Consistent.trie_eq (h : s.Consistent) (hpending : s.stateObjectsPending = [])
    (hentries : s.entries = []) : s.trie = s.world.trie := by
  funext a
  have hp : a ∉ s.stateObjectsPending := by simp [hpending]
  rw [h.settled a hp (not_touched_of_nil hentries a)]
  simp only [World.trie, world, accounts, map_map]
  cases hobj : (s.object a).filter fun o => !o.deleted with
  | none => rfl
  | some o =>
    obtain ⟨ho, hdel⟩ := filter_eq_some_iff.mp hobj
    have hd : o.deleted = false := by simpa using hdel
    have hroot : o.data.root = storageRoot (s.committedSlot a o) := by
      rw [h.committedSlot_eq hp ho hd, (h.sound a o ho hd).root]
    simp only [map_some, Function.comp_apply, account, ← hroot]

/-! ## §1 — The loop over the pending objects -/

variable [DecidableEq S]

theorem Consistent.flush_object (h : s.Consistent) (hentries : s.entries = []) (a : Address) :
    (a ∈ s.stateObjectsPending ∧ ∃ o p slots, s.object a = some o ∧
        s.flush.stateObjects a = some p ∧ p.deleted = o.deleted ∧
        (o.deleted = true → p = o) ∧ (o.deleted = false → o.Updated s a p slots) ∧
        s.flush.trie a = (if p.deleted then none else some p.data)) ∨
      (a ∉ s.stateObjectsPending ∧ s.flush.stateObjects a = s.stateObjects a ∧
        s.flush.trie a = s.trie a ∧ s.flush.object a = s.object a) := by
  by_cases ha : a ∈ s.stateObjectsPending
  · obtain ⟨o, ho⟩ := isSome_iff_exists.mp (h.dirty_live a (h.pending_dirty a ha))
    have hobj := object_of_live ho
    refine .inl ⟨ha, o, (if o.deleted then (o, GoMap.empty) else o.updateRoot s.db).1,
      (o.updateRoot s.db).2, hobj, ?_, ?_, fun hd => ?_, fun hd => ?_, ?_⟩
    · simp [flush, ha, ho]
    · cases hd : o.deleted with
      | true => simp [hd]
      | false =>
        obtain ⟨-, hq⟩ := h.quiet a o (not_touched_of_nil hentries a) hobj hd
        exact (StateObject.updateRoot_spec (h.sound a o hobj hd) hq).deleted.trans hd
    · simp [hd]
    · simp only [hd, Bool.false_eq_true, if_false]
      obtain ⟨-, hq⟩ := h.quiet a o (not_touched_of_nil hentries a) hobj hd
      exact StateObject.updateRoot_spec (h.sound a o hobj hd) hq
    · simp [flush, ha, ho]
  · have htrie : s.flush.trie a = s.trie a := by simp [flush, ha]
    refine .inr ⟨ha, by simp [flush, ha], htrie, ?_⟩
    have hread : s.flush.readAccount a = s.readAccount a := by
      unfold readAccount
      rw [htrie]
      rfl
    simp only [object, hread]
    simp [flush, ha]

/-- The loop keeps the invariant, if the balances can be encoded. -/
theorem Consistent.flush (h : s.Consistent) (hentries : s.entries = [])
    (hwrite : ∀ a ∈ s.stateObjectsPending, (s.stateObjects a).any writable) :
    s.flush.Consistent := by
  have htouched : ∀ a, ¬ s.touched a := not_touched_of_nil hentries
  have hlive : ∀ a, (s.flush.stateObjects a).isSome = (s.stateObjects a).isSome := by
    intro a
    rcases h.flush_object hentries a with ⟨ha, o, p, -, -, hp, -⟩ | ⟨-, hp, -⟩
    · rw [hp, h.dirty_live a (h.pending_dirty a ha)]
      rfl
    · rw [hp]
  refine ⟨h.emptyTrie, h.codes, fun a p hp => ?_, by simp [StateDB.flush], fun a ha => ?_, fun a ha => ?_,
    h.dirties, h.refund, fun a p hp hd => ?_, fun a ha => ?_, fun a ha key => ?_, fun a _ _ => ?_,
    fun a p _ hp hd => ?_, fun a p _ hp hd => ?_, fun a acc hacc => ?_, fun a p hnd _ hp hd => ?_⟩
  · rcases h.flush_object hentries a with ⟨-, o, p', slots, ho, hp', -, hdel, hupd, -⟩ | ⟨-, hobj, -⟩
    · obtain rfl := some.inj (hp'.symm.trans hp)
      have hfake := h.noFake.object ho
      cases hd : o.deleted with
      | true => rw [hdel hd, hfake]
      | false => rw [(hupd hd).fakeStorage, hfake]
    · exact h.noFake a p (hobj ▸ hp)
  · rw [hlive]
    exact h.dirty_live a ha
  · rw [hlive]
    exact h.touched_live a ha
  · rcases h.flush_object hentries a with ⟨-, o, p', slots, ho, hp', hdel, -, hupd, -⟩ | ⟨-, -, -, hobj⟩
    · obtain rfl := some.inj ((object_of_live hp').symm.trans hp)
      exact (hupd (hdel ▸ hd)).sound.congr rfl rfl rfl
    · exact (h.sound a p (hobj ▸ hp) hd).congr rfl rfl rfl
  · have hnone : s.stateObjects a = none := by
      have hl := hlive a
      rw [ha] at hl
      simpa using hl.symm
    rcases h.flush_object hentries a with ⟨-, o, p, -, -, hp, -⟩ | ⟨-, -, htrie, -⟩
    · exact absurd (ha.symm.trans hp) (by simp)
    have hread : s.flush.readAccount a = s.readAccount a := by
      unfold readAccount
      rw [htrie]
      rfl
    rw [hread, htrie]
    exact h.read a hnone
  · rcases h.flush_object hentries a with ⟨-, o, p, -, -, hp, -⟩ | ⟨-, -, -, hobj⟩
    · exact absurd (ha.symm.trans (object_of_live hp)) (by simp)
    · exact h.absent a (hobj ▸ ha) key
  · rcases h.flush_object hentries a with ⟨-, o, p, slots, -, hp, -, -, -, htrie⟩ | ⟨hpend, -, htrie, hobj⟩
    · rw [htrie, object_of_live hp, filter_some]
      cases p.deleted <;> rfl
    · rw [htrie, hobj]
      exact h.settled a hpend (htouched a)
  · rcases h.flush_object hentries a with
      ⟨-, o, p', slots, -, hp', hdel, -, hupd, -⟩ | ⟨hpend, -, -, hobj⟩
    · obtain rfl := some.inj ((object_of_live hp').symm.trans hp)
      intro key v hv
      rw [(hupd (hdel ▸ hd)).pendingStorage key] at hv
      cases hv
    · exact h.flushed a p hpend (hobj ▸ hp) hd
  · rcases h.flush_object hentries a with ⟨-, o, p', slots, ho, hp', hdel, -, hupd, -⟩ | ⟨-, -, -, hobj⟩
    · obtain rfl := some.inj ((object_of_live hp').symm.trans hp)
      have hup := hupd (hdel ▸ hd)
      refine ⟨hup.suicided.trans (h.quiet a o (htouched a) ho (hdel ▸ hd)).1, fun key v hv => ?_⟩
      rw [hup.dirtyStorage key] at hv
      cases hv
    · exact h.quiet a p (htouched a) (hobj ▸ hp) hd
  · rcases h.flush_object hentries a with
      ⟨ha, o, p, slots, ho, -, hdel, -, hupd, htrie⟩ | ⟨-, -, htrie, -⟩
    · rw [htrie] at hacc
      split_ifs at hacc with hpd
      have hd : o.deleted = false := by
        rw [← hdel]
        simpa using hpd
      obtain ⟨o', ho'⟩ := isSome_iff_exists.mp (h.dirty_live a (h.pending_dirty a ha))
      obtain rfl := some.inj ((object_of_live ho').symm.trans ho)
      have hw := hwrite a ha
      rw [ho'] at hw
      simp only [any_some, writable, hd, Bool.false_or, decide_eq_true_eq] at hw
      rw [← some.inj hacc, (hupd hd).data]
      exact hw
    · exact h.balances a acc (htrie ▸ hacc)
  · have hpend : a ∉ s.stateObjectsPending := fun hm => hnd (h.pending_dirty a hm)
    rcases h.flush_object hentries a with ⟨ha, -⟩ | ⟨-, -, -, hobj⟩
    · exact absurd ha hpend
    · exact h.stored a p hnd (htouched a) (hobj ▸ hp) hd

/-- The loop leaves every account as it is. -/
theorem Consistent.flush_world (h : s.Consistent) (hentries : s.entries = []) :
    s.flush.world = s.world := by
  apply World.ext
  · funext a
    simp only [world, accounts]
    rcases h.flush_object hentries a with
      ⟨-, o, p, slots, ho, hp, hdel, -, hupd, -⟩ | ⟨-, -, -, hobj⟩
    · rw [object_of_live hp, ho, filter_some, filter_some, hdel]
      cases hd : o.deleted with
      | true => rfl
      | false =>
        have hup := hupd hd
        obtain ⟨-, hq⟩ := h.quiet a o (not_touched_of_nil hentries a) ho hd
        have hcode : (p.Code s.db).1 = (o.Code s.db).1 := by
          rw [StateObject.Code_fst, StateObject.Code_fst, hup.code, hup.data]
        have hstate : s.currentSlot a p = s.currentSlot a o := by
          funext key
          rw [currentSlot, currentSlot, hup.dirtyStorage key, hup.committed]
          cases hv : o.dirtyStorage.find? key with
          | none => rfl
          | some v => exact (hq key v hv).symm
        have haccount : s.flush.account a p = s.account a o := by
          change s.account a p = s.account a o
          unfold account
          rw [hcode, hstate, hup.committed, hup.data, hup.suicided]
        simp [haccount]
    · rw [hobj]
      rfl
  all_goals rfl

/-! ## §2 — IntermediateRoot -/

/-- The loop can write every pending object if no balance is negative. -/
theorem Consistent.writable_iff (h : s.Consistent) (hentries : s.entries = []) :
    (∀ a ∈ s.stateObjectsPending, (s.stateObjects a).any writable) ↔ s.world.Solvent := by
  constructor
  · intro hwrite a acc hacc
    simp only [world, accounts, map_eq_some_iff] at hacc
    obtain ⟨o, hobj, rfl⟩ := hacc
    have hobj' := hobj
    obtain ⟨ho, hdel⟩ := filter_eq_some_iff.mp hobj
    by_cases ha : a ∈ s.stateObjectsPending
    · obtain ⟨o', ho'⟩ := isSome_iff_exists.mp (h.dirty_live a (h.pending_dirty a ha))
      obtain rfl := some.inj ((object_of_live ho').symm.trans ho)
      have hw := hwrite a ha
      rw [ho'] at hw
      have hd : o'.deleted = false := by simpa using hdel
      simpa [writable, hd, account] using hw
    · have htrie := h.settled a ha (not_touched_of_nil hentries a)
      rw [hobj'] at htrie
      exact h.balances a o.data htrie
  · intro hsolvent a ha
    obtain ⟨o, ho⟩ := isSome_iff_exists.mp (h.dirty_live a (h.pending_dirty a ha))
    rw [ho, any_some, writable]
    cases hd : o.deleted with
    | true => rfl
    | false =>
      have hacc : s.world.accounts a = some (s.account a o) := accounts_of_live ho hd
      simpa [account] using hsolvent a _ hacc

/-- **`IntermediateRoot` ends the transaction and leaves the trie of the world**; it fails exactly
on a negative balance. -/
theorem IntermediateRoot_refines (h : s.Consistent) (hc : s.Covered) (d : Bool) :
    ((s.IntermediateRoot d).isSome ↔ (s.world.finalise d).Solvent) ∧
      ∀ t, s.IntermediateRoot d = some t →
        t.Consistent ∧ t.world = s.world.finalise d ∧ t.trie = (s.world.finalise d).trie ∧
        t.entries = [] ∧ t.stateObjectsPending = [] := by
  have hf := h.Finalise hc d
  have hworld := h.Finalise_world hc d
  have hentries : (s.Finalise d).entries = [] := by rw [h.Finalise_eq]
  have hiff := hf.writable_iff hentries
  rw [hworld] at hiff
  unfold IntermediateRoot
  simp only
  split_ifs with hwrite
  · refine ⟨iff_of_true rfl (hiff.mp hwrite), fun t ht => ?_⟩
    obtain rfl := some.inj ht
    have hcons := hf.flush hentries hwrite
    have hw := (hf.flush_world hentries).trans hworld
    refine ⟨hcons, hw, ?_, hentries, rfl⟩
    rw [← hw]
    exact hcons.trie_eq rfl hentries
  · exact ⟨iff_of_false (by simp) fun hs => hwrite (hiff.mpr hs), fun t ht => absurd ht (by simp)⟩

end StateDB

end MxtChain.State
