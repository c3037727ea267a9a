/-
# MxtChain.Fetcher.Stages — each transaction is in one stage.

The invariant of the fetcher in four parts: the waiting list and its slots (`Waits`), the queue and
what is being fetched (`Queues`), that the two stages are apart (`Apart`), and whose request a hash
belongs to (`Owned`). Each part speaks of the maps it is about, so that a step that does not touch
them keeps it as it is.

`Queues` has three openings. `loose` and `out` excuse the peer that a loop is at work on: its set
may be empty for the moment, or not in step with the sets of the hashes. And one direction of the
relation between hashes and peers, that a peer that is listed for a hash has it in its own set, is
only there if `full` holds: a dropped peer stays in the set of alternates of a hash that is fetched
from somebody else.
-/
import MxtChain.Fetcher.TxFetcher
import MxtChain.Lib.Except

namespace MxtChain.Fetcher

open Lib SetMap Finset

attribute [grind =] GoMap.find?_insert GoMap.find?_erase get_insert get_erase
  get_prune get_remove mem_get_add mem_get_discard mem_get_scrub

/-! ## §1 — The invariant -/

/-- The waiting list, with the times and the slots of the peers. -/
structure Waits (waitlist : SetMap Hash Peer) (waittime : GoMap Hash AbsTime)
    (waitslots : SetMap Peer Hash) : Prop where
  waitlist_tight : SetMap.Tight waitlist
  waitslots_tight : SetMap.Tight waitslots
  waittime : ∀ h, (waittime.find? h).isSome = true ↔ (waitlist.get h).Nonempty
  slots : ∀ p h, h ∈ waitslots.get p ↔ p ∈ waitlist.get h

/-- The queue, what is being fetched, and the hashes of each peer. -/
structure Queues (full : Prop) (loose out : Peer → Prop) (announced alternates : SetMap Hash Peer)
    (fetching : GoMap Hash Peer) (announces : SetMap Peer Hash) : Prop where
  announced_tight : SetMap.Tight announced
  alternates_tight : SetMap.Tight alternates
  announces_tight : ∀ p, ¬ loose p → announces.find? p ≠ some ∅
  fetching : ∀ h, (fetching.find? h).isSome = true ↔ (alternates.get h).Nonempty
  queued : ∀ h, announced.get h = ∅ ∨ alternates.get h = ∅
  listed : ∀ p h, ¬ out p → h ∈ announces.get p → p ∈ announced.get h ∨ p ∈ alternates.get h
  traced : full → ∀ p h, ¬ out p → p ∈ announced.get h ∨ p ∈ alternates.get h → h ∈ announces.get p

/-- No hash waits and is queued or fetched. -/
def Apart (waitlist announced alternates : SetMap Hash Peer) : Prop :=
  ∀ h, waitlist.get h = ∅ ∨ (announced.get h = ∅ ∧ alternates.get h = ∅)

/-- A hash is fetched from a peer exactly if the request of that peer has it, and the delivery was
not stolen; apart from what is `gone`. -/
structure Owned (gone : Peer → Hash → Prop) (fetching : GoMap Hash Peer)
    (requests : GoMap Peer TxRequest) : Prop where
  nodup : ∀ p req, requests.find? p = some req → req.hashes.Nodup
  owner : ∀ h p, fetching.find? h = some p ↔
    (∃ req, requests.find? p = some req ∧ h ∈ req.hashes ∧ h ∉ req.stolen) ∧ ¬ gone p h

/-- No peer. -/
def nobody : Peer → Prop := fun _ => False

/-- **The invariant of the fetcher**; `full` is whether no dropped peer is listed. -/
structure Staged (full : Prop) (f : TxFetcher) : Prop where
  waits : Waits f.waitlist f.waittime f.waitslots
  queues : Queues full nobody nobody f.announced f.alternates f.fetching f.announces
  apart : Apart f.waitlist f.announced f.alternates
  owned : Owned (fun _ _ => False) f.fetching f.requests

theorem staged_new (full : Prop) : Staged full NewTxFetcher where
  waits :=
    { waitlist_tight := tight_empty
      waitslots_tight := tight_empty
      waittime := by simp [NewTxFetcher]
      slots := by simp [NewTxFetcher] }
  queues :=
    { announced_tight := tight_empty
      alternates_tight := tight_empty
      announces_tight := fun p _ => tight_empty p
      fetching := by simp [NewTxFetcher]
      queued := by simp [NewTxFetcher]
      listed := by simp [NewTxFetcher]
      traced := by simp [NewTxFetcher] }
  apart := by simp [Apart, NewTxFetcher]
  owned :=
    { nodup := by simp [NewTxFetcher]
      owner := by simp [NewTxFetcher] }

/-! ## §2 — The waiting list -/

namespace Waits

variable {waitlist : SetMap Hash Peer} {waittime : GoMap Hash AbsTime}
  {waitslots waitslots' : SetMap Peer Hash} {h : Hash}

variable (w : Waits waitlist waittime waitslots)
include w

/-- A hash is in the waiting list if it has a time there. -/
theorem isSome_find? (h : Hash) : (waitlist.find? h).isSome = true ↔ (waitlist.get h).Nonempty :=
  SetMap.isSome_find? (w.waitlist_tight h)

theorem add (p : Peer) (hmem : (waitlist.get h).Nonempty) :
    Waits (waitlist.add h p) waittime (waitslots.add p h) where
  waitlist_tight := w.waitlist_tight.add
  waitslots_tight := w.waitslots_tight.add
  waittime := by
    intro j
    have hj := w.waittime j
    rw [get_add]
    grind [insert_nonempty]
  slots := by
    intro q j
    have hj := w.slots q j
    grind

theorem start (p : Peer) (t : AbsTime) (hnone : waitlist.get h = ∅) :
    Waits (waitlist.insert h {p}) (waittime.insert h t) (waitslots.add p h) where
  waitlist_tight := w.waitlist_tight.insert (singleton_ne_empty p)
  waitslots_tight := w.waitslots_tight.add
  waittime := by
    intro j
    have hj := w.waittime j
    grind [singleton_nonempty]
  slots := by
    intro q j
    have hj := w.slots q j
    grind

theorem leave (h : Hash) (htight : SetMap.Tight waitslots')
    (hslots : ∀ p j, j ∈ waitslots'.get p ↔ j ∈ waitslots.get p ∧ j ≠ h) :
    Waits (waitlist.erase h) (waittime.erase h) waitslots' where
  waitlist_tight := w.waitlist_tight.erase
  waitslots_tight := htight
  waittime := by
    intro j
    have hj := w.waittime j
    grind [Finset.not_nonempty_empty]
  slots := by
    intro p j
    have hj := w.slots p j
    grind

end Waits

/-! ## §3 — The queue -/

namespace Queues

variable {full : Prop} {loose out : Peer → Prop}
  {announced alternates announced' alternates' : SetMap Hash Peer} {fetching : GoMap Hash Peer}
  {announces announces' : SetMap Peer Hash} {h : Hash} {p : Peer} {s : Finset Peer}

theorem isSome_announced (q : Queues full loose out announced alternates fetching announces) :
    (announced.find? h).isSome = true ↔ (announced.get h).Nonempty :=
  isSome_find? (q.announced_tight h)

theorem isSome_alternates (q : Queues full loose out announced alternates fetching announces) :
    (alternates.find? h).isSome = true ↔ (alternates.get h).Nonempty :=
  isSome_find? (q.alternates_tight h)

variable (q : Queues full loose nobody announced alternates fetching announces)
include q

/-- Another peer for a hash that is being fetched. -/
theorem track_fetching (hmem : (alternates.get h).Nonempty) :
    Queues full loose nobody announced (alternates.add h p) fetching (announces.add p h) where
  announced_tight := q.announced_tight
  alternates_tight := q.alternates_tight.add
  announces_tight := by
    intro r hr
    have hold := q.announces_tight r hr
    rw [SetMap.add, GoMap.find?_insert]
    grind [insert_ne_empty]
  fetching := by
    intro j
    have hj := q.fetching j
    rw [get_add]
    grind [insert_nonempty]
  queued := by
    intro j
    have hj := q.queued j
    grind [Finset.not_nonempty_empty]
  listed := by
    intro r j hr hj
    have hold := q.listed r j hr
    grind
  traced := by
    intro hfull r j hr hj
    have hold := q.traced hfull r j hr
    grind

/-- Another peer for a hash that is queued. -/
theorem track_queued (hmem : (announced.get h).Nonempty) :
    Queues full loose nobody (announced.add h p) alternates fetching (announces.add p h) where
  announced_tight := q.announced_tight.add
  alternates_tight := q.alternates_tight
  announces_tight := by
    intro r hr
    have hold := q.announces_tight r hr
    rw [SetMap.add, GoMap.find?_insert]
    grind [insert_ne_empty]
  fetching := q.fetching
  queued := by
    intro j
    have hj := q.queued j
    grind [Finset.not_nonempty_empty]
  listed := by
    intro r j hr hj
    have hold := q.listed r j hr
    grind
  traced := by
    intro hfull r j hr hj
    have hold := q.traced hfull r j hr
    grind

/-- A new hash in the queue, with its peers. -/
theorem enqueue (hs : s ≠ ∅) (hnone : alternates.get h = ∅) (hqueue : announced.get h = ∅)
    (htight : ∀ p, ¬ loose p → announces'.find? p ≠ some ∅)
    (hmem : ∀ p j, j ∈ announces'.get p ↔ (j = h ∧ p ∈ s) ∨ j ∈ announces.get p) :
    Queues full loose nobody (announced.insert h s) alternates fetching announces' where
  announced_tight := q.announced_tight.insert hs
  alternates_tight := q.alternates_tight
  announces_tight := htight
  fetching := q.fetching
  queued := by
    intro j
    have hj := q.queued j
    grind
  listed := by
    intro r j hr hj
    have hold := q.listed r j hr
    grind
  traced := by
    intro hfull r j hr hj
    have hold := q.traced hfull r j hr
    grind

omit q

/-- A queued hash is fetched from a peer. -/
theorem fetch (q : Queues full loose out announced alternates fetching announces)
    (hs : announced.find? h = some s) (p : Peer) :
    Queues full loose out (announced.erase h) (alternates.insert h s) (fetching.insert h p)
      announces := by
  have hget := get_of_find? hs
  have hne : s ≠ ∅ := by
    rintro rfl
    exact q.announced_tight h hs
  exact
    { announced_tight := q.announced_tight.erase
      alternates_tight := q.alternates_tight.insert hne
      announces_tight := q.announces_tight
      fetching := by
        intro j
        have hj := q.fetching j
        grind [nonempty_iff_ne_empty]
      queued := by
        intro j
        have hj := q.queued j
        grind
      listed := by
        intro r j hr hj
        have hold := q.listed r j hr hj
        have hone := q.queued j
        grind
      traced := by
        intro hfull r j hr hj
        have hold := q.traced hfull r j hr
        grind }

/-- **A hash is not fetched any more**: what is left of its alternates goes back to the queue. A
peer that is `dropped` from the alternates loses the hash. -/
theorem release (q : Queues full loose out announced alternates fetching announces)
    (dropped lost : Peer → Prop) (hiff : ∀ p, ¬ out p → (lost p ↔ dropped p))
    (hqueue : announced.get h = ∅) (hother : ∀ j, j ≠ h → announced'.find? j = announced.find? j)
    (hleft : ∀ p, p ∈ announced'.get h ↔ p ∈ alternates.get h ∧ ¬ dropped p)
    (hne : announced'.find? h ≠ some ∅)
    (halternates : ∀ j, alternates'.find? j = if j = h then none else alternates.find? j)
    (hmem : ∀ p j, j ∈ announces'.get p ↔ j ∈ announces.get p ∧ ¬ (j = h ∧ lost p))
    (htight : ∀ p, ¬ loose p → announces'.find? p ≠ some ∅) :
    Queues full loose out announced' alternates' (fetching.erase h) announces' := by
  have hget : ∀ j, j ≠ h → announced'.get j = announced.get j := by
    intro j hj
    rw [GoMap.get, GoMap.get, hother j hj]
  have hget' : ∀ j, alternates'.get j = if j = h then ∅ else alternates.get j := by
    intro j
    rw [GoMap.get, GoMap.get, halternates j]
    split <;> rfl
  exact
    { announced_tight := by
        intro j
        by_cases hj : j = h
        · rw [hj]
          exact hne
        · rw [hother j hj]
          exact q.announced_tight j
      alternates_tight := by
        intro j
        have hj := q.alternates_tight j
        grind
      announces_tight := htight
      fetching := by
        intro j
        have hj := q.fetching j
        grind [Finset.not_nonempty_empty]
      queued := by
        intro j
        have hj := q.queued j
        grind
      listed := by
        intro r j hr hj
        have hold := q.listed r j hr
        grind
      traced := by
        intro hfull r j hr hj
        have hold := q.traced hfull r j hr
        grind }

/-- The set of a peer that was worked on is dropped if it is empty. -/
theorem prune (q : Queues full (· = p) out announced alternates fetching announces) :
    Queues full nobody out announced alternates fetching (announces.prune p) where
  announced_tight := q.announced_tight
  alternates_tight := q.alternates_tight
  announces_tight := by
    intro r _
    by_cases hr : r = p
    · rw [hr]
      exact SetMap.find?_prune_ne
    · rw [SetMap.find?_prune_of_ne hr]
      exact q.announces_tight r hr
  fetching := q.fetching
  queued := q.queued
  listed := by
    intro r j
    rw [get_prune]
    exact q.listed r j
  traced := by
    intro hfull r j
    rw [get_prune]
    exact q.traced hfull r j

/-- A hash that is not fetched anyway. -/
theorem settle (q : Queues full loose out announced alternates fetching announces)
    (hnone : alternates.get h = ∅) :
    Queues full loose out announced (alternates.erase h) (fetching.erase h) announces where
  announced_tight := q.announced_tight
  alternates_tight := q.alternates_tight.erase
  announces_tight := q.announces_tight
  fetching := by
    intro j
    have hj := q.fetching j
    grind [Finset.not_nonempty_empty]
  queued := by
    intro j
    have hj := q.queued j
    grind
  listed := by
    intro r j hr hj
    have hold := q.listed r j hr hj
    grind
  traced := by
    intro hfull r j hr hj
    have hold := q.traced hfull r j hr
    grind

theorem forget (q : Queues full loose out announced alternates fetching announces) (h : Hash) :
    Queues full loose out (announced.erase h) (alternates.erase h) (fetching.erase h)
      (announces.scrub h) where
  announced_tight := q.announced_tight.erase
  alternates_tight := q.alternates_tight.erase
  announces_tight := fun p _ => tight_scrub p
  fetching := by
    intro j
    have hj := q.fetching j
    grind [Finset.not_nonempty_empty]
  queued := by
    intro j
    have hj := q.queued j
    grind
  listed := by
    intro r j hr hj
    have hold := q.listed r j hr
    grind
  traced := by
    intro hfull r j hr hj
    have hold := q.traced hfull r j hr
    grind

end Queues

/-- What is left of the alternates of a hash goes to the queue, if there is anything. -/
def requeued (announced : SetMap Hash Peer) (h : Hash) (s : Finset Peer) : SetMap Hash Peer :=
  if s.card = 0 then announced else announced.insert h s

section Requeued

variable {announced : SetMap Hash Peer} {h j : Hash} {s : Finset Peer}

theorem find?_requeued_of_ne (hj : j ≠ h) :
    (requeued announced h s).find? j = announced.find? j := by
  unfold requeued
  split
  · rfl
  · exact GoMap.find?_insert_of_ne hj

theorem get_requeued (hqueue : announced.get h = ∅) : (requeued announced h s).get h = s := by
  unfold requeued
  split
  · next hs => rw [hqueue, card_eq_zero.mp hs]
  · rw [get_insert, if_pos rfl]

theorem find?_requeued_ne (htight : SetMap.Tight announced) :
    (requeued announced h s).find? h ≠ some ∅ := by
  unfold requeued
  split
  · exact htight h
  next hs =>
  rw [GoMap.find?_insert_self]
  exact fun heq => hs (card_eq_zero.mpr (Option.some.inj heq))

end Requeued

/-! ## §4 — Requests -/

namespace Owned

variable {gone : Peer → Hash → Prop} {fetching fetching' : GoMap Hash Peer}
  {requests requests' : GoMap Peer TxRequest} {h : Hash} {p : Peer} {req : TxRequest}

variable (o : Owned gone fetching requests)
include o

theorem flight (hreq : requests.find? p = some req)
    (hh : h ∈ req.hashes) (hs : h ∉ req.stolen) (hgone : ¬ gone p h) : fetching.find? h = some p :=
  (o.owner h p).mpr ⟨⟨req, hreq, hh, hs⟩, hgone⟩

/-- What is fetched from a peer stands in its request. -/
theorem mem_request (hfetch : fetching.find? h = some p) :
    ∃ req, requests.find? p = some req ∧ h ∈ req.hashes ∧ h ∉ req.stolen :=
  ((o.owner h p).mp hfetch).1

theorem mem_filter_iff (hreq : requests.find? p = some req)
    {q : Peer} (hfetch : fetching.find? h = some q) (hgone : ¬ gone p h) :
    h ∈ req.hashes.filter (fun h => h ∉ req.stolen) ↔ q = p := by
  rw [List.mem_filter, decide_eq_true_eq]
  constructor
  · rintro ⟨hh, hs⟩
    exact Option.some.inj (hfetch.symm.trans (o.flight hreq hh hs hgone))
  · rintro rfl
    obtain ⟨req', hreq', hh, hs⟩ := o.mem_request hfetch
    obtain rfl := Option.some.inj (hreq.symm.trans hreq')
    exact ⟨hh, hs⟩

/-- A delivered hash that was not in flight. -/
theorem idle (hnone : fetching.find? h = none) (hsame : ∀ j, fetching'.find? j = fetching.find? j)
    (c : Peer → Prop) : Owned (fun q j => gone q j ∨ (c q ∧ j = h)) fetching' requests where
  nodup := o.nodup
  owner := by
    intro j q
    have hold := o.owner j q
    grind

/-- A hash is delivered by the peer it was asked from. -/
theorem deliver (hfetch : fetching.find? h = some p) {c : Peer → Prop} (hc : c p) :
    Owned (fun q j => gone q j ∨ (c q ∧ j = h)) (fetching.erase h) requests where
  nodup := o.nodup
  owner := by
    intro j q
    have hold := o.owner j q
    grind

/-- A hash is delivered by somebody else. -/
theorem steal (hfetch : fetching.find? h = some p) (hreq : requests.find? p = some req)
    (c : Peer → Prop) : Owned (fun q j => gone q j ∨ (c q ∧ j = h)) (fetching.erase h)
      (requests.insert p { req with stolen := insert h req.stolen }) where
  nodup := by
    intro q req' hreq'
    rw [GoMap.find?_insert] at hreq'
    split at hreq'
    · rw [← Option.some.inj hreq']
      exact o.nodup p req hreq
    · exact o.nodup q req' hreq'
  owner := by
    intro j q
    have hold := o.owner j q
    rw [GoMap.find?_erase, GoMap.find?_insert]
    by_cases hj : j = h
    · -- whoever else had it in flight would be the same peer
      subst hj
      rw [if_pos rfl]
      refine ⟨fun hnone => absurd hnone.symm (Option.some_ne_none q), ?_⟩
      rintro ⟨⟨req', hreq', hmem, hs⟩, hgone⟩
      split at hreq'
      · rw [← Option.some.inj hreq'] at hs
        exact absurd (mem_insert_self j req.stolen) hs
      next hq =>
      have hq' := hold.mpr ⟨⟨req', hreq', hmem, hs⟩, fun hg => hgone (.inl hg)⟩
      exact absurd (Option.some.inj (hq'.symm.trans hfetch)) hq
    · rw [if_neg hj, hold]
      by_cases hq : q = p
      · subst hq
        simp [hreq, hj]
      · simp [hq, hj]

/-- **The request of a peer is closed**: its hashes are taken back, and it has none any more. -/
theorem close (hgone : ∀ q j, gone q j → q = p)
    (hfetching : ∀ j q, fetching'.find? j = some q ↔ q ≠ p ∧ fetching.find? j = some q)
    (hothers : ∀ q, q ≠ p → requests'.find? q = requests.find? q)
    (hclosed : ∀ req, requests'.find? p = some req → req.hashes = []) :
    Owned (fun _ _ => False) fetching' requests' where
  nodup := by
    intro q req hreq
    by_cases hq : q = p
    · subst hq
      rw [hclosed req hreq]
      exact List.nodup_nil
    · rw [hothers q hq] at hreq
      exact o.nodup q req hreq
  owner := by
    intro j q
    rw [hfetching, o.owner j q]
    by_cases hq : q = p
    · subst hq
      constructor
      · exact fun hne => absurd rfl hne.1
      · rintro ⟨⟨req, hreq, hmem, -⟩, -⟩
        rw [hclosed req hreq] at hmem
        exact absurd hmem List.not_mem_nil
    · rw [hothers q hq]
      tauto

end Owned

end MxtChain.Fetcher
