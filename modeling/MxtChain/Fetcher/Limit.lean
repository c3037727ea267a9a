/-
# MxtChain.Fetcher.Limit — how many announcements of a peer are tracked.

A peer may have `maxTxAnnounces` hashes in its slots and its set together. Only an announcement
brings it new ones, and a batch that would go beyond the limit is cut; but it is cut to the number
of hashes that are too many, `want - maxTxAnnounces`, and not to the number for which there is room,
`maxTxAnnounces - used`. So a large batch gets through: the limit holds throughout a run exactly if
no batch that is cut still has more new hashes than there is room for.
-/
import MxtChain.Fetcher.Loop

namespace MxtChain.Fetcher

open Lib TxFetcher List

variable {full : Prop} {f g : TxFetcher}

/-! ## §1 — The count as the size of one set -/

theorem Staged.disjoint_slots (hf : Staged full f) (p : Peer) :
    Disjoint (f.waitslots.get p) (f.announces.get p) := by
  rw [Finset.disjoint_left]
  intro h hwait hannounce
  have hlisted := hf.queues.listed p h id hannounce
  have hwaits := (hf.waits.slots p h).mp hwait
  rcases hf.apart h with hnone | ⟨hnone, hnone'⟩
  · rw [hnone] at hwaits
    exact Finset.notMem_empty p hwaits
  · rw [hnone, hnone'] at hlisted
    exact hlisted.elim (Finset.notMem_empty p) (Finset.notMem_empty p)

theorem Staged.used_eq (hf : Staged full f) (p : Peer) : f.used p = (f.tracked p).card :=
  (Finset.card_union_of_disjoint (hf.disjoint_slots p)).symm

theorem used_mono (hf : Staged full f) (hg : Staged full g)
    (hsub : ∀ p, g.tracked p ⊆ f.tracked p) (p : Peer) : g.used p ≤ f.used p := by
  rw [hf.used_eq, hg.used_eq]
  exact Finset.card_le_card (hsub p)

/-- After an announcement that is not refused, the new hashes among those that are left of the
batch are counted too. -/
theorem used_notify (env : Env) (origin : Peer) (hashes : List Hash) (hf : Staged full f)
    (hg : f.notify env origin hashes = .ok g) (p : Peer) :
    g.used p = if p = origin ∧ f.used origin < maxTxAnnounces then
      f.used p + ((truncate (f.used origin) hashes).toFinset \ f.tracked p).card
    else f.used p := by
  obtain ⟨g', hg', hstaged, htracked⟩ := notify_staged env origin hashes hf
  obtain rfl := Except.ok.inj (hg'.symm.trans hg)
  rw [hstaged.used_eq, htracked]
  split
  · rw [hf.used_eq p, ← Finset.card_union_of_disjoint Finset.disjoint_sdiff,
      Finset.union_sdiff_self_eq_union]
  · exact (hf.used_eq p).symm

/-! ## §2 — When the limit holds -/

/-- No peer has more than `maxTxAnnounces` hashes. -/
def Limited (f : TxFetcher) : Prop := ∀ p, f.used p ≤ maxTxAnnounces

/-- If the batch is too large, what is left after the cut has no more new hashes than there is
room for. -/
def Roomy (f : TxFetcher) (origin : Peer) (hashes : List Hash) : Prop :=
  f.used origin < maxTxAnnounces → maxTxAnnounces < f.used origin + hashes.length →
    ((hashes.take (f.used origin + hashes.length - maxTxAnnounces)).toFinset \
      f.tracked origin).card ≤ maxTxAnnounces - f.used origin

/-- A batch that is not cut always fits. -/
theorem card_truncate_le_iff (f : TxFetcher) (origin : Peer) (hashes : List Hash)
    (hused : f.used origin < maxTxAnnounces) :
    f.used origin + ((truncate (f.used origin) hashes).toFinset \ f.tracked origin).card ≤
      maxTxAnnounces ↔ Roomy f origin hashes := by
  unfold Roomy truncate
  by_cases hcut : f.used origin + hashes.length > maxTxAnnounces
  · rw [if_pos hcut]
    constructor
    · intro hle _ _
      omega
    · intro hroom
      omega
  rw [if_neg hcut]
  have hcard : (hashes.toFinset \ f.tracked origin).card ≤ hashes.length :=
    (Finset.card_le_card Finset.sdiff_subset).trans (toFinset_card_le hashes)
  constructor
  · intro _ _ hlarge
    exact absurd hlarge hcut
  · intro _
    omega

/-- **One announcement** keeps the limit exactly if the batch fits. -/
theorem notify_limited_iff (env : Env) {origin : Peer} {hashes : List Hash} (hf : Staged full f)
    (hlim : Limited f) (hg : f.notify env origin hashes = .ok g) :
    Limited g ↔ Roomy f origin hashes := by
  have hused := used_notify env origin hashes hf hg
  by_cases hroom : f.used origin < maxTxAnnounces
  · rw [← card_truncate_le_iff f origin hashes hroom]
    constructor
    · intro h
      have hor := h origin
      rwa [hused, if_pos ⟨rfl, hroom⟩] at hor
    · intro h p
      rw [hused]
      split
      · rename_i hp
        obtain ⟨rfl, -⟩ := hp
        exact h
      · exact hlim p
  · -- the announcement is refused
    refine ⟨fun _ h _ => absurd h hroom, fun _ p => ?_⟩
    rw [hused, if_neg fun hp => hroom hp.2]
    exact hlim p

/-- The event is not an announcement that does not fit. -/
def Event.Fits (f : TxFetcher) : Event → Prop
  | .notify origin hashes => Roomy f origin hashes
  | _ => True

theorem step_limited_iff (env : Env) (e : Event) (hf : Staged False f) (hlim : Limited f)
    (hg : f.step env e = .ok g) : Limited g ↔ e.Fits f := by
  have hnext : ∀ {r}, Next False f r → r = .ok g → (Limited g ↔ True) := by
    rintro r ⟨g', rfl, hstaged, hsub⟩ hr
    obtain rfl := Except.ok.inj hr
    exact iff_true_intro fun p => (used_mono hf hstaged hsub p).trans (hlim p)
  cases e with
  | notify origin hashes => exact notify_limited_iff env hf hlim hg
  | waitTrigger => exact hnext (waitTrigger_next env hf) hg
  | timeoutTrigger => exact hnext (timeoutTrigger_next env hf) hg
  | cleanup origin hashes direct => exact hnext (cleanup_next env origin hashes direct hf) hg
  | drop peer => exact hnext (drop_next env hf False.elim) hg

/-! ## §3 — The result -/

/-- **Announcement limit.** All along a run every peer has at most `maxTxAnnounces` hashes, exactly
if every batch of the run that is cut has, in what the cut leaves, no more new hashes than there is
room for. -/
theorem limited_of_loop_iff (events : List (Env × Event)) :
    (∀ pre, pre <+: events → ∀ f, NewTxFetcher.loop pre = .ok f → Limited f) ↔
      ∀ pre env origin hashes, pre ++ [(env, Event.notify origin hashes)] <+: events →
        ∀ f, NewTxFetcher.loop pre = .ok f → Roomy f origin hashes := by
  constructor
  · intro hlim pre env origin hashes hpre f hf
    obtain ⟨f', hf', hstaged⟩ := loop_staged pre
    obtain rfl := Except.ok.inj (hf'.symm.trans hf)
    obtain ⟨g, hg, -⟩ := step_staged env (.notify origin hashes) hstaged False.elim
    have hloop : NewTxFetcher.loop (pre ++ [(env, Event.notify origin hashes)]) = .ok g := by
      rw [loop_append, hf]
      exact hg
    have hbefore := hlim pre ((prefix_append _ _).trans hpre) f' hf
    exact (step_limited_iff env _ hstaged hbefore hg).mp (hlim _ hpre g hloop)
  · intro hroomy pre
    induction pre using reverseRecOn with
    | nil =>
      intro _ f hf p
      obtain rfl := Except.ok.inj hf
      exact Nat.zero_le _
    | append_singleton pre e ih =>
      intro hpre f hf
      obtain ⟨env, e⟩ := e
      obtain ⟨f', hf', hstaged⟩ := loop_staged pre
      have hbefore := ih ((prefix_append _ _).trans hpre) f' hf'
      rw [loop_append, hf'] at hf
      refine (step_limited_iff env e hstaged hbefore hf).mpr ?_
      cases e with
      | notify origin hashes => exact hroomy pre env origin hashes hpre f' hf'
      | _ => trivial

/-- Two small announcements are within the limit. -/
theorem limited_of_loop_iff_two : ∃ f, NewTxFetcher.loop twoAnnounce = .ok f ∧ Limited f := by
  obtain ⟨f, hf, -⟩ := loop_staged twoAnnounce
  refine ⟨f, hf, (limited_of_loop_iff twoAnnounce).mpr ?_ _ prefix_rfl f hf⟩
  intro pre env origin hashes hpre g hg hused hlarge
  -- each batch has one hash, so neither is cut
  have hmem : (env, Event.notify origin hashes) ∈ twoAnnounce :=
    hpre.subset (mem_append_right pre mem_cons_self)
  have hone : hashes.length = 1 := by
    simp only [twoAnnounce, mem_cons, Prod.mk.injEq, Event.notify.injEq, reduceCtorEq,
      and_false, not_mem_nil, or_false] at hmem
    rcases hmem with ⟨-, -, rfl⟩ | ⟨-, -, rfl⟩ <;> rfl
  omega

/-! ## §4 — A batch that gets through -/

/-- The hash that spells a number of two bytes. -/
def numbered (i : Nat) : Hash := Hash.ofBytes [UInt8.ofNat (i / 256), UInt8.ofNat i]

theorem numbered_injOn {i j : Nat} (hi : i < 65536) (hj : j < 65536)
    (h : numbered i = numbered j) : i = j := by
  have hbytes := congrArg Hash.bytes h
  simp only [numbered, Hash.ofBytes, length_cons, length_nil, append_cancel_left_eq,
    HashLength, Nat.reduceAdd, Nat.reduceSub, drop_zero, cons.injEq, and_true] at hbytes
  have hhigh := congrArg UInt8.toNat hbytes.1
  have hlow := congrArg UInt8.toNat hbytes.2
  simp only [UInt8.toNat_ofNat'] at hhigh hlow
  omega

theorem nodup_numbered {n : Nat} (hn : n ≤ 65536) : ((range n).map numbered).Nodup := by
  refine Nodup.map_on (fun i hi j hj h => ?_) nodup_range
  exact numbered_injOn ((mem_range.mp hi).trans_le hn) ((mem_range.mp hj).trans_le hn) h

theorem loop_notify (env : Env) (origin : Peer) (hashes : List Hash) :
    NewTxFetcher.loop [(env, .notify origin hashes)] = NewTxFetcher.notify env origin hashes :=
  loop_append NewTxFetcher [] env (.notify origin hashes)

/-- **Too many announcements**: one batch of 8193 hashes is cut to 4097. -/
theorem notify_exceeds_limit :
    ∃ f, NewTxFetcher.loop [(ordered 0, .notify "a" ((range 8193).map numbered))] = .ok f ∧
      f.used "a" = maxTxAnnounces + 1 := by
  obtain ⟨f, hf, -⟩ := notify_staged (ordered 0) "a" ((range 8193).map numbered)
    (staged_new False)
  refine ⟨f, (loop_notify _ _ _).trans hf, ?_⟩
  have hnew : NewTxFetcher.used "a" = 0 := rfl
  have htracked : NewTxFetcher.tracked "a" = ∅ := rfl
  have hmax : maxTxAnnounces = 4096 := rfl
  have hkept : truncate 0 ((range 8193).map numbered) = (range 4097).map numbered := by
    unfold truncate
    rw [length_map, length_range, hmax, if_pos (by omega), ← map_take, take_range]
    rfl
  rw [used_notify _ _ _ (staged_new False) hf, hnew, if_pos ⟨rfl, by omega⟩, hkept, htracked,
    Finset.sdiff_empty, toFinset_card_of_nodup (nodup_numbered (by omega)),
    length_map, length_range, hmax]

end MxtChain.Fetcher
