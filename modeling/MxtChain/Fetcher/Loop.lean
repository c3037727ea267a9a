/-
# MxtChain.Fetcher.Loop — the stage invariant over whole runs.

The loop never breaks down, and in every run the stages are apart and the maps fit together
(`Stages`), with one exception: that a peer that is listed for a hash has the hash in its own set
(`Traced`). A `drop` removes the peer from the sets in `announced` but not from those in
`alternates`, so a peer that is dropped while somebody else fetches what it announced stays listed.
That is the only way: `Traced` holds throughout a run exactly if no such drop happens.
-/
import MxtChain.Fetcher.Steps

namespace MxtChain.Fetcher

open Lib TxFetcher List

/-! ## §1 — The invariant in the terms of the maps -/

/-- The keys are in one stage, the maps have the keys they should, no empty sets are kept, and a
fetched hash belongs to a request. -/
structure Stages (f : TxFetcher) : Prop where
  waitlist_announced : ∀ h, f.waitlist.find? h = none ∨ f.announced.find? h = none
  waitlist_fetching : ∀ h, f.waitlist.find? h = none ∨ f.fetching.find? h = none
  announced_fetching : ∀ h, f.announced.find? h = none ∨ f.fetching.find? h = none
  waittime : ∀ h, (f.waittime.find? h).isSome = (f.waitlist.find? h).isSome
  alternates : ∀ h, (f.alternates.find? h).isSome = (f.fetching.find? h).isSome
  waitslots : ∀ p h, h ∈ f.waitslots.get p ↔ p ∈ f.waitlist.get h
  announces : ∀ p h, h ∈ f.announces.get p → p ∈ f.announced.get h ∨ p ∈ f.alternates.get h
  waitlist_tight : SetMap.Tight f.waitlist
  waitslots_tight : SetMap.Tight f.waitslots
  announces_tight : SetMap.Tight f.announces
  announced_tight : SetMap.Tight f.announced
  alternates_tight : SetMap.Tight f.alternates
  requests : ∀ h p, f.fetching.find? h = some p →
    ∃ req, f.requests.find? p = some req ∧ h ∈ req.hashes

/-- A peer that is listed for a hash has it in its own set. -/
def Traced (f : TxFetcher) : Prop :=
  ∀ p h, p ∈ f.announced.get h ∨ p ∈ f.alternates.get h → h ∈ f.announces.get p

variable {full : Prop} {f g : TxFetcher}

theorem Staged.stages (hf : Staged full f) : Stages f := by
  have hwait : ∀ h, f.waitlist.find? h = none ↔ f.waitlist.get h = ∅ := fun h =>
    SetMap.find?_eq_none (hf.waits.waitlist_tight h)
  have hannounced : ∀ h, f.announced.find? h = none ↔ f.announced.get h = ∅ := fun h =>
    SetMap.find?_eq_none (hf.queues.announced_tight h)
  have hfetching : ∀ h, f.fetching.find? h = none ↔ f.alternates.get h = ∅ := by
    intro h
    rw [← Option.not_isSome_iff_eq_none, hf.queues.fetching h, Finset.not_nonempty_iff_eq_empty]
  exact
    { waitlist_announced := by
        intro h
        rw [hwait, hannounced]
        exact (hf.apart h).imp_right And.left
      waitlist_fetching := by
        intro h
        rw [hwait, hfetching]
        exact (hf.apart h).imp_right And.right
      announced_fetching := by
        intro h
        rw [hannounced, hfetching]
        exact hf.queues.queued h
      waittime := by
        intro h
        rw [Bool.eq_iff_iff, hf.waits.waittime h, hf.waits.isSome_find? h]
      alternates := by
        intro h
        rw [Bool.eq_iff_iff, hf.queues.fetching h, hf.queues.isSome_alternates]
      waitslots := hf.waits.slots
      announces := fun p h => hf.queues.listed p h id
      waitlist_tight := hf.waits.waitlist_tight
      waitslots_tight := hf.waits.waitslots_tight
      announces_tight := fun p => hf.queues.announces_tight p id
      announced_tight := hf.queues.announced_tight
      alternates_tight := hf.queues.alternates_tight
      requests := by
        intro h p hp
        obtain ⟨req, hreq, hh, -⟩ := hf.owned.mem_request hp
        exact ⟨req, hreq, hh⟩ }

theorem Staged.traced (hf : Staged True f) : Traced f := fun p h =>
  hf.queues.traced trivial p h id

/-! ## §2 — Steps and runs -/

/-- The event does not drop a peer that is an alternate of somebody else. -/
def Event.Harmless (f : TxFetcher) : Event → Prop
  | .drop peer => f.Droppable peer
  | _ => True

theorem step_staged (env : Env) (e : Event) (hf : Staged full f) (he : full → e.Harmless f) :
    ∃ g, f.step env e = .ok g ∧ Staged full g := by
  cases e with
  | notify origin hashes =>
    obtain ⟨g, hg, hstaged, -⟩ := notify_staged env origin hashes hf
    exact ⟨g, hg, hstaged⟩
  | waitTrigger =>
    obtain ⟨g, hg, hstaged, -⟩ := waitTrigger_next env hf
    exact ⟨g, hg, hstaged⟩
  | timeoutTrigger =>
    obtain ⟨g, hg, hstaged, -⟩ := timeoutTrigger_next env hf
    exact ⟨g, hg, hstaged⟩
  | cleanup origin hashes direct =>
    obtain ⟨g, hg, hstaged, -⟩ := cleanup_next env origin hashes direct hf
    exact ⟨g, hg, hstaged⟩
  | drop peer =>
    obtain ⟨g, hg, hstaged, -⟩ := drop_next env hf he
    exact ⟨g, hg, hstaged⟩

theorem loop_append (f : TxFetcher) (events : List (Env × Event)) (env : Env) (e : Event) :
    f.loop (events ++ [(env, e)]) = (f.loop events).bind fun g => g.step env e := by
  unfold loop
  rw [foldlM_append]
  refine bind_congr fun g => ?_
  exact bind_pure _

/-- **The loop never breaks down.** -/
theorem loop_staged (events : List (Env × Event)) :
    ∃ f, NewTxFetcher.loop events = .ok f ∧ Staged False f := by
  induction events using reverseRecOn with
  | nil => exact ⟨_, rfl, staged_new False⟩
  | append_singleton events e ih =>
    obtain ⟨f, hf, hstaged⟩ := ih
    obtain ⟨g, hg, hstaged'⟩ := step_staged e.1 e.2 hstaged False.elim
    refine ⟨g, ?_, hstaged'⟩
    rw [loop_append, hf]
    exact hg

/-- Without harmful drops, the invariant is full. -/
theorem loop_full (events : List (Env × Event))
    (hdrops : ∀ pre env peer, pre ++ [(env, Event.drop peer)] <+: events →
      ∀ f, NewTxFetcher.loop pre = .ok f → f.Droppable peer) :
    ∃ f, NewTxFetcher.loop events = .ok f ∧ Staged True f := by
  induction events using reverseRecOn with
  | nil => exact ⟨_, rfl, staged_new True⟩
  | append_singleton events e ih =>
    obtain ⟨f, hf, hstaged⟩ := ih fun pre env peer hpre =>
      hdrops pre env peer (hpre.trans (prefix_append events [e]))
    have hharmless : e.2.Harmless f := by
      obtain ⟨env, e⟩ := e
      cases e with
      | drop peer => exact hdrops events env peer prefix_rfl f hf
      | _ => trivial
    obtain ⟨g, hg, hstaged'⟩ := step_staged e.1 e.2 hstaged fun _ => hharmless
    refine ⟨g, ?_, hstaged'⟩
    rw [loop_append, hf]
    exact hg

/-! ## §3 — The result -/

/-- **Stage invariant.** For every sequence of events the loop does not break down and the stages
hold; and all along the sequence every listed peer has its hashes, exactly if no peer is dropped
while it is an alternate for a hash that is fetched from somebody else. -/
theorem stages_of_loop_iff (events : List (Env × Event)) :
    (∃ f, NewTxFetcher.loop events = .ok f ∧ Stages f) ∧
    ((∀ pre, pre <+: events → ∀ f, NewTxFetcher.loop pre = .ok f → Traced f) ↔
      ∀ pre env peer, pre ++ [(env, Event.drop peer)] <+: events →
        ∀ f, NewTxFetcher.loop pre = .ok f → f.Droppable peer) := by
  refine ⟨?_, fun htraced pre env peer hpre f hf h q hfetch hne hmem => ?_,
    fun hdrops pre hpre f hf => ?_⟩
  · obtain ⟨f, hf, hstaged⟩ := loop_staged events
    exact ⟨f, hf, hstaged.stages⟩
  · -- the drop would leave the peer listed
    obtain ⟨f', hf', hstaged⟩ := loop_staged pre
    obtain rfl := Except.ok.inj (hf'.symm.trans hf)
    obtain ⟨g, hg, hlisted, hnone⟩ := drop_listed env hstaged hfetch hne hmem
    have hloop : NewTxFetcher.loop (pre ++ [(env, Event.drop peer)]) = .ok g := by
      rw [loop_append, hf]
      exact hg
    have hown := htraced _ hpre g hloop peer h (.inr hlisted)
    rw [hnone] at hown
    exact Finset.notMem_empty h hown
  · obtain ⟨f', hf', hstaged⟩ := loop_full pre fun pre' env peer hpre' =>
      hdrops pre' env peer (hpre'.trans hpre)
    obtain rfl := Except.ok.inj (hf'.symm.trans hf)
    exact hstaged.traced

/-! ## §4 — A run in the order of the test suite -/

/-- The elements of a set in ascending order. -/
def Order.sorted {α : Type} (r : α → α → Prop) [DecidableRel r] [Std.Total r] [IsTrans α r]
    [Std.Antisymm r] : Order α where
  list := fun s => Quot.liftOn s.val (insertionSort r) fun l l' h =>
    Perm.eq_of_pairwise' (pairwise_insertionSort r l) (pairwise_insertionSort r l')
      (((perm_insertionSort r l).trans h).trans (perm_insertionSort r l').symm)
  nodup := by
    rintro ⟨s, hs⟩
    induction s using Quot.inductionOn with
    | h l => exact (perm_insertionSort r l).nodup_iff.mpr hs
  mem := by
    rintro ⟨s, hs⟩ a
    induction s using Quot.inductionOn with
    | h l => exact (perm_insertionSort r l).mem_iff

/-- The order of `sortHashes`: that of the bytes. -/
def byteOrder (a b : Hash) : Prop := a.bytes ≤ b.bytes

instance decidableByteOrder : DecidableRel byteOrder := fun a b =>
  inferInstanceAs (Decidable (a.bytes ≤ b.bytes))

instance antisymm_byteOrder : Std.Antisymm byteOrder where
  antisymm := fun _ _ h h' => Hash.ext_bytes (Std.le_antisymm h h')

instance isTrans_byteOrder : IsTrans Hash byteOrder where
  trans := fun _ _ _ h h' => Std.le_trans h h'

instance total_byteOrder : Std.Total byteOrder where
  total := fun _ _ => Std.le_total

/-- A round at a time, with all sets in order. -/
def ordered (now : AbsTime) : Env where
  peers := .sorted fun a b => a ≤ b
  requests := .sorted fun a b => a ≤ b
  waits := .sorted byteOrder
  hashes := fun _ => .sorted byteOrder
  located := fun _ => .sorted fun a b => a ≤ b
  clock := fun _ => now
  clockOf := fun _ => now

/-- Two peers announce a transaction, and it is fetched from the first. -/
def twoAnnounce : List (Env × Event) :=
  [(ordered 0, .notify "a" [Hash.zero]), (ordered 0, .notify "b" [Hash.zero]),
    (ordered txArriveTimeout, .waitTrigger)]

/-- **A dropped peer stays listed**: the second peer is dropped while the first one fetches. -/
theorem drop_leaves_alternate :
    ∃ f, NewTxFetcher.loop (twoAnnounce ++ [(ordered txArriveTimeout, .drop "b")]) = .ok f ∧
      "b" ∈ f.alternates.get Hash.zero ∧ Hash.zero ∉ f.announces.get "b" := by
  have hrun : (NewTxFetcher.loop (twoAnnounce ++
      [(ordered txArriveTimeout, .drop "b")])).toOption.map (fun f =>
        (decide ("b" ∈ f.alternates.get Hash.zero), decide (Hash.zero ∈ f.announces.get "b"))) =
      some (true, false) := by decide +kernel
  obtain ⟨f, hf, hboth⟩ := Option.map_eq_some_iff.mp hrun
  obtain ⟨hlisted, hown⟩ := Prod.mk.inj hboth
  refine ⟨f, ?_, of_decide_eq_true hlisted, of_decide_eq_false hown⟩
  cases hloop : NewTxFetcher.loop (twoAnnounce ++ [(ordered txArriveTimeout, .drop "b")]) with
  | error e =>
    rw [hloop] at hf
    cases hf
  | ok g =>
    rw [hloop] at hf
    rw [Option.some.inj hf]

/-- Before the drop everything fits together. -/
theorem stages_of_loop_iff_two :
    ∃ f, NewTxFetcher.loop twoAnnounce = .ok f ∧ Stages f ∧ Traced f := by
  obtain ⟨⟨f, hf, hstages⟩, hiff⟩ := stages_of_loop_iff twoAnnounce
  refine ⟨f, hf, hstages, hiff.mpr (fun pre env peer hpre => ?_) _ prefix_rfl f hf⟩
  -- none of the three events is a drop
  have hmem : (env, Event.drop peer) ∈ twoAnnounce :=
    hpre.subset (mem_append_right pre mem_cons_self)
  simp [twoAnnounce] at hmem

end MxtChain.Fetcher
