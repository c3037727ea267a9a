/-
# MxtChain.State.Simulation — a state database keeps its ledger.

`Sim base s l` ties a state database to its ledger: the world, the account trie, and for every
snapshot that can be reverted to the world that the ledger has kept for it. Each event keeps the
relation, so that every run of events gives on both sides the same panics, the same answers and the
same tries. The ledger counts its snapshots from zero, the state database from `base`.
-/
import MxtChain.State.Ledger

set_option linter.unusedSectionVars false

namespace MxtChain.State

open Lib List Option StateDB World

variable {S C : Type} [StorageHash S] [CodeHash C] [DecidableEq S] [DecidableEq C]
variable {s t u : StateDB S C} {l m : Ledger S C} {base : Nat} {d : Bool}

/-! ## §1 — The relation -/

/-- A snapshot of the ledger, with its identifier as the state database has it. -/
def keptWorld (base : Nat) (x : Nat × World C) : Nat × World C := (x.1 + base, x.2.plain)

/-- A snapshot of the state database, with the world it was taken in. -/
def savedWorld (x : Revision × StateDB S C) : Nat × World C := (x.1.id, x.2.world.plain)

/-- The state database keeps the ledger. -/
structure Sim (base : Nat) (s : StateDB S C) (l : Ledger S C) : Prop where
  nested : ∃ old saved, Nested StateDB.nobody StateDB.Consistent old saved s ∧
    (∀ r ∈ old, r.id < base) ∧
    l.session.saved.map (keptWorld base) = saved.reverse.map savedWorld
  next : l.session.next + base = s.nextRevisionId
  world : l.session.world.plain = s.world.plain
  trie : l.trie = s.trie

namespace Sim

theorem consistent (h : Sim base s l) : s.Consistent := by
  obtain ⟨old, saved, hnest, -⟩ := h.nested
  exact hnest.good

theorem nested_nil (h : s.Consistent) (hrevs : s.validRevisions = []) :
    Nested StateDB.nobody StateDB.Consistent [] [] s :=
  ⟨.nil, hrevs, by simp, by simp [hrevs], by simp [hrevs], h⟩

theorem start (h : s.Consistent) (hrevs : s.validRevisions = [])
    (hsaved : l.session.saved = []) (hnext : l.session.next + base = s.nextRevisionId)
    (hworld : l.session.world.plain = s.world.plain) (htrie : l.trie = s.trie) : Sim base s l :=
  ⟨⟨[], [], nested_nil h hrevs, by simp, by simp [hsaved]⟩, hnext, hworld, htrie⟩

end Sim

/-! ## §2 — Operations -/

namespace StateDB

theorem Consistent.Prepare (h : s.Consistent) {thash bhash : Hash} {txIndex : Nat} :
    (s.Prepare thash bhash txIndex).Consistent :=
  ⟨h.emptyTrie, h.codes, h.noFake, h.pending_dirty, h.dirty_live, h.touched_live, h.dirties,
    h.refund, fun a o ho hd => (h.sound a o ho hd).congr rfl rfl rfl, h.read, h.absent, h.settled,
    h.flushed, h.quiet, h.balances, h.stored⟩

theorem Consistent.Snapshot (h : s.Consistent) : s.Snapshot.2.Consistent :=
  h.grow ((Grows.refl nobody s).withJournal _ _ _) rfl

end StateDB

namespace Sim

theorem snapshot (h : Sim base s l) :
    Rel (Sim base) (s.handle (.op .snapshot)) (l.handle (.op .snapshot)) := by
  obtain ⟨old, saved, hnest, hold, hsaved⟩ := h.nested
  refine .some ⟨⟨old, _, hnest.snapshot h.consistent.Snapshot, hold, ?_⟩, ?_, h.world, h.trie⟩
  · simp only [map_append, hsaved, reverse_cons, map_cons, map_nil]
    simp only [keptWorld, savedWorld, Nested.nextRevision, h.next, h.world]
  · have hnext := h.next
    change l.session.next + 1 + base = s.nextRevisionId + 1
    omega

/-- The snapshots of the ledger are in the order in which they were taken. -/
theorem sorted (h : Sim base s l) : l.session.saved.Pairwise fun x y => x.1 < y.1 := by
  obtain ⟨old, saved, hnest, -, hsaved⟩ := h.nested
  have hids : (saved.reverse.map savedWorld).Pairwise fun x y => x.1 < y.1 := by
    have hsorted := hnest.sorted
    rw [hnest.revisions] at hsorted
    have hlast := (pairwise_append.mp hsorted).2.1
    rw [← map_reverse, pairwise_map] at hlast
    rw [pairwise_map]
    exact hlast
  rw [← hsaved, pairwise_map] at hids
  refine hids.imp fun hlt => ?_
  simp only [keptWorld] at hlt
  omega

theorem revert (h : Sim base s l) (revid : Nat) :
    Rel (Sim base) (s.handle (.op (.revertToSnapshot (revid + base))))
      (l.handle (.op (.revertToSnapshot revid))) := by
  have hsorted := h.sorted
  obtain ⟨old, saved, hnest, hold, hsaved⟩ := h.nested
  by_cases hfound : ∃ x ∈ l.session.saved, x.1 = revid
  · obtain ⟨x, hx, rfl⟩ := hfound
    obtain ⟨l1, l2, hl⟩ := append_of_mem hx
    rw [hl] at hsorted hsaved
    have hlt : ∀ y ∈ l1, y.1 < x.1 := fun y hy =>
      (pairwise_append.mp hsorted).2.2 y hy x mem_cons_self
    -- the ledger finds the snapshot, and keeps the older ones
    have hfind : l.session.saved.find? (fun y => decide (y.1 = x.1)) = some x := by
      rw [hl, find?_append, find?_eq_none.mpr, find?_cons_of_pos] <;> simp
      intro a w hy
      exact (hlt _ hy).ne
    have htake : l.session.saved.takeWhile (fun y => decide (y.1 < x.1)) = l1 := by
      rw [hl, takeWhile_append_of_pos (by simpa using hlt), takeWhile_cons_of_neg (by simp)]
      simp
    -- so does the state database
    rw [map_append, map_cons] at hsaved
    obtain ⟨m1, m2', hm, h1, hm2⟩ := map_eq_append_iff.mp hsaved.symm
    obtain ⟨p, m2, rfl, hp, h2⟩ := map_eq_cons_iff.mp hm2
    have hrev : saved = m2.reverse ++ p :: m1.reverse := by
      have := congrArg reverse hm
      simpa using this
    obtain ⟨r, v⟩ := p
    have hid : r.id = x.1 + base := congrArg Prod.fst hp
    have hworld : v.world.plain = x.2.plain := congrArg Prod.snd hp
    rw [hrev] at hnest
    obtain ⟨t, ht, hgrows, hentries, hv, hnest'⟩ := hnest.revert
    have hcons := hv.grow hgrows hentries
    rw [hid] at ht
    have hs : s.handle (.op (.revertToSnapshot (x.1 + base))) = some t := ht
    have hl' : l.handle (.op (.revertToSnapshot x.1)) = some { l with
        session := { l.session with world := x.2, saved := l1 } } := by
      simp only [Ledger.handle, World.Session.step, hfind, htake, map_some]
    rw [hs, hl']
    refine .some ⟨⟨old, m1.reverse, hnest' hcons, hold, ?_⟩, ?_, ?_, ?_⟩
    · rw [reverse_reverse]
      exact h1.symm
    · rw [(RevertToSnapshot_kept ht).1]
      exact h.next
    · rw [hgrows.world_eq hentries]
      exact hworld.symm
    · rw [(RevertToSnapshot_kept ht).2]
      exact h.trie
  · have hnone : l.session.saved.find? (fun y => decide (y.1 = revid)) = none := by
      rw [find?_eq_none]
      intro y hy
      simpa using fun he => hfound ⟨y, hy, he⟩
    have hs : s.handle (.op (.revertToSnapshot (revid + base))) = none := by
      cases ht : s.RevertToSnapshot (revid + base) with
      | none => exact ht
      | some t =>
        obtain ⟨r, hr, hid⟩ := mem_of_RevertToSnapshot ht
        rw [hnest.revisions, mem_append, mem_reverse] at hr
        rcases hr with hr | hr
        · have := hold r hr
          omega
        obtain ⟨p, hp, rfl⟩ := mem_map.mp hr
        have hmem : savedWorld p ∈ saved.reverse.map savedWorld :=
          mem_map_of_mem (mem_reverse.mpr hp)
        rw [← hsaved] at hmem
        obtain ⟨y, hy, heq⟩ := mem_map.mp hmem
        have hfst : y.1 + base = p.1.id := congrArg Prod.fst heq
        exact absurd ⟨y, hy, by omega⟩ hfound
    have hl' : l.handle (.op (.revertToSnapshot revid)) = none := by
      simp only [Ledger.handle, World.Session.step, hnone, map_none]
    rw [hs, hl']
    exact .none

/-- The account trie is not touched by an operation. -/
theorem trie_of_journaled (h : Journaled StateDB.nobody s t) : t.trie = s.trie := by
  obtain ⟨⟨u, hu, hgrows⟩, -⟩ := h.back.unwind (fun _ _ _ => .trans) (StateDB.Grows.refl _)
  rw [← (unwind_kept hu).2, hgrows.trie]

theorem op (h : Sim base s l) {op : Op} (hripemd : op ≠ .addBalance ripemd 0)
    (hsnap : op ≠ .snapshot) (hrev : ∀ revid, op ≠ .revertToSnapshot revid) :
    Option.Rel (Sim base) (s.handle (.op op)) (l.handle (.op op)) := by
  obtain ⟨old, saved, hnest, hold, hsaved⟩ := h.nested
  obtain ⟨hcons, hworld⟩ := step_refines h.consistent hripemd hsnap hrev
  have hplain : (l.session.world.apply op).map plain = (step s op).map fun t => t.world.plain := by
    rw [apply_plain h.world, ← hworld, Option.map_map]
    rfl
  have hl : l.handle (.op op) = (l.session.world.apply op).map fun w =>
      { l with session := { l.session with world := w } } := by
    cases op with
    | snapshot => exact absurd rfl hsnap
    | revertToSnapshot revid => exact absurd rfl (hrev revid)
    | _ => simp only [Ledger.handle, World.Session.step, Option.map_map]; rfl
  rw [hl]
  cases ht : step s op with
  | none =>
    rw [ht, Option.map_none, Option.map_eq_none_iff] at hplain
    have hs : s.handle (.op op) = none := ht
    rw [hs, hplain]
    exact .none
  | some t =>
    rw [ht, Option.map_some, Option.map_eq_some_iff] at hplain
    obtain ⟨w, hw, hwt⟩ := hplain
    have hs : s.handle (.op op) = some t := ht
    rw [hs, hw]
    have hj := journaled_step h.consistent.noFake (X := StateDB.nobody)
      (fun he => absurd he hripemd) hsnap hrev ht
    exact .some ⟨⟨old, saved, hnest.op hj (hcons t ht), hold, hsaved⟩, hj.next.symm ▸ h.next, hwt,
      h.trie.trans (trie_of_journaled hj).symm⟩

/-! ## §3 — Ends of transactions -/

theorem finalise (h : Sim base s l) (hc : s.Covered) (d : Bool) :
    Sim base (s.Finalise d) (l.finalise d) := by
  have hcons := h.consistent
  have heq := hcons.Finalise_eq d
  refine start (hcons.Finalise hc d) (by rw [heq]) rfl (by rw [heq]; exact h.next) ?_
    (by rw [heq]; exact h.trie)
  rw [hcons.Finalise_world hc d]
  exact finalise_plain h.world d

end Sim

theorem StateDB.IntermediateRoot_kept (h : s.IntermediateRoot d = some t) :
    t.validRevisions = [] ∧ t.nextRevisionId = s.nextRevisionId := by
  unfold IntermediateRoot at h
  simp only at h
  split_ifs at h
  obtain rfl := some.inj h
  change (s.Finalise d).validRevisions = [] ∧ (s.Finalise d).nextRevisionId = s.nextRevisionId
  unfold Finalise clearJournalAndRefund
  simp only
  split_ifs <;> exact ⟨rfl, rfl⟩

theorem StateDB.Commit_kept {diff : Diff S C} (h : s.Commit d = some (t, diff)) :
    t.validRevisions = [] ∧ t.nextRevisionId = s.nextRevisionId := by
  obtain ⟨u, hu, ht⟩ := bind_eq_some_iff.mp h
  split_ifs at ht
  obtain ⟨rfl, -⟩ := Prod.mk.inj (some.inj ht)
  have hkept := IntermediateRoot_kept hu
  exact ⟨hkept.1, hkept.2⟩

namespace Sim

/-- A root is computed, at the end of a transaction or of a block. -/
theorem root (h : Sim base s l) {r : Option (StateDB S C)}
    (hiff : r.isSome ↔ (s.world.finalise d).Solvent)
    (hr : ∀ t, r = some t → t.Consistent ∧ t.world = s.world.finalise d ∧
      t.trie = (s.world.finalise d).trie ∧ t.validRevisions = [] ∧
      t.nextRevisionId = s.nextRevisionId) :
    Rel (Sim base) r (l.root d) := by
  have hworld := finalise_plain h.world d
  unfold Ledger.root
  cases ht : r with
  | none =>
    rw [ht] at hiff
    rw [if_neg fun hs => absurd (hiff.mpr (solvent_plain hworld hs)) (by simp)]
    exact .none
  | some t =>
    rw [ht] at hiff
    obtain ⟨hcons, hw, htrie, hrevs, hnext⟩ := hr t ht
    rw [if_pos (solvent_plain hworld.symm (hiff.mp rfl))]
    refine .some (start hcons hrevs rfl ?_ ?_ ?_)
    · rw [hnext]
      exact h.next
    · rw [hw]
      exact hworld
    · rw [htrie]
      exact trie_plain hworld

/-! ## §4 — Runs -/

/-- **Every proper event keeps the ledger**, panics included. -/
theorem handle (h : Sim base s l) {e : Event} (he : s.Proper (e.shift base)) :
    Rel (Sim base) (s.handle (e.shift base)) (l.handle e) := by
  cases e with
  | op op =>
    cases op with
    | snapshot => exact h.snapshot
    | revertToSnapshot revid => exact h.revert revid
    | _ => exact h.op he (by simp) (by simp)
  | prepare thash bhash txIndex =>
    have hsaved : l.session.saved = [] := by
      obtain ⟨old, saved, hnest, -, hsaved⟩ := h.nested
      have hrevs := hnest.revisions
      rw [show s.validRevisions = [] from he, eq_comm, append_eq_nil_iff] at hrevs
      have hnil : saved = [] := by simpa using hrevs.2
      simpa [hnil] using hsaved
    refine .some (start h.consistent.Prepare he hsaved h.next ?_ h.trie)
    have hworld := h.world
    simp only [World.plain, World.mk.injEq] at hworld ⊢
    exact ⟨hworld.1, hworld.2.1, hworld.2.2.1, hworld.2.2.2.1, rfl, rfl, rfl,
      hworld.2.2.2.2.2.2.2.1, hworld.2.2.2.2.2.2.2.2.1, hworld.2.2.2.2.2.2.2.2.2⟩
  | finalise d => exact .some (h.finalise he d)
  | intermediateRoot d =>
    obtain ⟨hiff, hr⟩ := IntermediateRoot_refines h.consistent he d
    refine h.root hiff fun t ht => ?_
    obtain ⟨hcons, hw, htrie, -⟩ := hr t ht
    exact ⟨hcons, hw, htrie, IntermediateRoot_kept ht⟩
  | commit d =>
    obtain ⟨hiff, hr⟩ := Commit_refines h.consistent he d
    refine h.root (r := (s.Commit d).map Prod.fst) (by rw [isSome_map]; exact hiff)
      fun t ht => ?_
    obtain ⟨⟨t', diff⟩, ht', rfl⟩ := map_eq_some_iff.mp ht
    obtain ⟨hcons, hw, htrie, -⟩ := hr t' diff ht'
    exact ⟨hcons, hw, htrie, Commit_kept ht'⟩

/-- **Every tame run keeps the ledger**, panics included. -/
theorem handleAll (h : Sim base s l) (es : List Event)
    (htame : s.Tame (es.map (Event.shift base))) :
    Rel (Sim base) (s.handleAll (es.map (Event.shift base))) (l.handleAll es) := by
  induction es generalizing s l with
  | nil => exact .some h
  | cons e es ih =>
    obtain ⟨he, hrest⟩ := htame
    have hstep := h.handle he
    simp only [map_cons, StateDB.handleAll, Ledger.handleAll]
    cases hs : s.handle (e.shift base) with
    | none =>
      rw [hs] at hstep
      cases hl : l.handle e with
      | none => exact .none
      | some m => rw [hl] at hstep; cases hstep
    | some t =>
      rw [hs] at hstep
      cases hl : l.handle e with
      | none => rw [hl] at hstep; cases hstep
      | some m =>
        rw [hl] at hstep
        cases hstep with
        | some hsim => exact ih hsim (hrest t hs)

end Sim

end MxtChain.State
