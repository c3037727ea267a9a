/-
# MxtChain.Fetcher.Steps — every event keeps the stages.

One lemma for each case of the loop: it does not break down, the invariant holds after it, and no
peer has more hashes to its name than before (`Next`). Announcements are the exception to the last
point; they are in `Fetcher.Limit`.

The cases that take hashes back from a request are loops over its hashes. `Released` is what such a
loop does to the state, `foldlM_release` the induction, and each of them brings one lemma about its
body.
-/
import MxtChain.Fetcher.Stages

namespace MxtChain.Fetcher

open Lib Option SetMap
open Finset hiding filter_cons_of_neg filter_cons_of_pos map_cons mem_cons mem_singleton
open List hiding drop

namespace TxFetcher

/-- The hashes that count for a peer. -/
def tracked (f : TxFetcher) (p : Peer) : Finset Hash := f.waitslots.get p ∪ f.announces.get p

end TxFetcher

open TxFetcher

/-- The outcome is a state with the invariant in which no peer has a new hash. -/
def Next (full : Prop) (f : TxFetcher) (r : Except Fault TxFetcher) : Prop :=
  ∃ g, r = .ok g ∧ Staged full g ∧ ∀ p, g.tracked p ⊆ f.tracked p

/-- What is in flight stays, and every peer has the same hashes. -/
structure Kept (f g : TxFetcher) : Prop where
  announces : g.announces = f.announces
  tracked : ∀ p, g.tracked p = f.tracked p
  flight : ∀ h p, f.fetching.find? h = some p →
    g.fetching.find? h = some p ∧ g.alternates.get h = f.alternates.get h

theorem Kept.refl (f : TxFetcher) : Kept f f := ⟨rfl, fun _ => rfl, fun _ _ hp => ⟨hp, rfl⟩⟩

theorem Kept.trans {f g k : TxFetcher} (h : Kept f g) (h' : Kept g k) : Kept f k where
  announces := h'.announces.trans h.announces
  tracked := fun p => (h'.tracked p).trans (h.tracked p)
  flight := by
    intro j p hp
    obtain ⟨hg, hsame⟩ := h.flight j p hp
    obtain ⟨hk, hsame'⟩ := h'.flight j p hg
    exact ⟨hk, hsame'.trans hsame⟩

/-- The outcome is a state with the invariant in which what is in flight stays. -/
def Still (full : Prop) (f : TxFetcher) (r : Except Fault TxFetcher) : Prop :=
  ∃ g, r = .ok g ∧ Staged full g ∧ Kept f g

variable {full : Prop} {f g k : TxFetcher} {env : Env} {peer origin q : Peer} {α : Type}
  {picked delivered l rest l' : List Hash} {stolen : Finset Hash} {h : Hash} {last i : Nat}
  {gone : Peer → Hash → Prop}

theorem Next.refl (hf : Staged full f) : Next full f (.ok f) := ⟨f, rfl, hf, fun _ => subset_rfl⟩

theorem Next.trans {r : Except Fault TxFetcher} (hsub : ∀ p, g.tracked p ⊆ f.tracked p)
    (h : Next full g r) : Next full f r := by
  obtain ⟨k, hk, hstaged, hless⟩ := h
  exact ⟨k, hk, hstaged, fun p => (hless p).trans (hsub p)⟩

/-- A loop whose body keeps the invariant. -/
theorem foldlM_next {body : TxFetcher → α → Except Fault TxFetcher}
    (hbody : ∀ f a, Staged full f → Next full f (body f a)) (l : List α) (hf : Staged full f) :
    Next full f (l.foldlM body f) := by
  induction l generalizing f with
  | nil => exact .refl hf
  | cons a l ih =>
    obtain ⟨g, hg, hstaged, hless⟩ := hbody f a hf
    rw [foldlM_cons, hg]
    exact .trans hless (ih hstaged)

/-- The waiting list and the requests are as they were. -/
structure Elsewhere (f g : TxFetcher) : Prop where
  waitlist : g.waitlist = f.waitlist
  waittime : g.waittime = f.waittime
  waitslots : g.waitslots = f.waitslots
  requests : g.requests = f.requests

theorem Elsewhere.refl (f : TxFetcher) : Elsewhere f f := ⟨rfl, rfl, rfl, rfl⟩

theorem Elsewhere.trans (h : Elsewhere f g) (h' : Elsewhere g k) : Elsewhere f k where
  waitlist := h'.waitlist.trans h.waitlist
  waittime := h'.waittime.trans h.waittime
  waitslots := h'.waitslots.trans h.waitslots
  requests := h'.requests.trans h.requests

def TxFetcher.InQueues (f : TxFetcher) (full : Prop) (loose out : Peer → Prop) : Prop :=
  Queues full loose out f.announced f.alternates f.fetching f.announces

theorem Apart.mono {waitlist announced alternates announced' alternates' : SetMap Hash Peer}
    (h : Apart waitlist announced alternates)
    (hsub : ∀ j p, p ∈ announced'.get j ∨ p ∈ alternates'.get j →
      p ∈ announced.get j ∨ p ∈ alternates.get j) : Apart waitlist announced' alternates' := by
  intro j
  rcases h j with hw | ⟨ha, hl⟩
  · exact .inl hw
  refine .inr ⟨eq_empty_of_forall_notMem fun p hp => ?_, eq_empty_of_forall_notMem fun p hp => ?_⟩
  · have hold := hsub j p (.inl hp)
    simp [ha, hl] at hold
  · have hold := hsub j p (.inr hp)
    simp [ha, hl] at hold

/-! ## §1 — `scheduleFetches` -/

/-- Hashes were allocated to a peer. -/
structure Allocated (peer : Peer) (picked : List Hash) (f g : TxFetcher) : Prop where
  nodup : picked.Nodup
  elsewhere : Elsewhere f g
  announces : g.announces = f.announces
  fresh : ∀ h ∈ picked, f.fetching.find? h = none
  mine : ∀ h ∈ picked, g.fetching.find? h = some peer
  others : ∀ h, h ∉ picked → g.fetching.find? h = f.fetching.find? h
  alternates : ∀ h, h ∉ picked → g.alternates.get h = f.alternates.get h
  origins : ∀ h p, p ∈ g.announced.get h ∨ p ∈ g.alternates.get h →
    p ∈ f.announced.get h ∨ p ∈ f.alternates.get h

theorem Allocated.refl (f : TxFetcher) : Allocated peer [] f f where
  nodup := nodup_nil
  elsewhere := .refl f
  announces := rfl
  fresh := by simp
  mine := by simp
  others := fun _ _ => rfl
  alternates := fun _ _ => rfl
  origins := fun _ _ => id

theorem Allocated.cons {origins : Finset Peer}
    (hfree : f.fetching.find? h = none) (horigins : f.announced.find? h = some origins)
    (hg : Allocated peer picked { f with
      fetching := f.fetching.insert h peer
      alternates := f.alternates.insert h origins
      announced := f.announced.erase h } g) (hnew : h ∉ picked) :
    Allocated peer (h :: picked) f g where
  nodup := nodup_cons.mpr ⟨hnew, hg.nodup⟩
  elsewhere := ⟨hg.elsewhere.1, hg.elsewhere.2, hg.elsewhere.3, hg.elsewhere.4⟩
  announces := hg.announces
  fresh := by
    intro j hj
    have hrest := hg.fresh j
    grind
  mine := by
    intro j hj
    have hrest := hg.mine j
    have hother := hg.others j
    grind
  others := by
    intro j hj
    have hrest := hg.others j
    grind
  alternates := by
    intro j hj
    have hrest := hg.alternates j
    grind
  origins := by
    intro j p hp
    have hrest := hg.origins j p hp
    have hget := get_of_find? horigins
    grind

theorem pick_allocated (acc : List Hash) (hnodup : rest.Nodup)
    (hq : f.InQueues full nobody nobody) (hlisted : ∀ h ∈ rest, h ∈ f.announces.get peer) :
    ∃ g picked, pick peer rest f acc = .ok (g, acc ++ picked) ∧ (∀ h ∈ picked, h ∈ rest) ∧
      Allocated peer picked f g ∧ g.InQueues full nobody nobody := by
  induction rest generalizing f acc with
  | nil => exact ⟨f, [], by rw [pick, append_nil], by simp, .refl f, hq⟩
  | cons h rest ih =>
    have hrest := (nodup_cons.mp hnodup).2
    rw [pick]
    by_cases hfetching : (f.fetching.find? h).isSome = true
    · -- somebody fetches it already
      rw [if_pos hfetching]
      obtain ⟨g, picked, hok, hsub, halloc, hg⟩ := ih acc hrest hq fun j hj =>
        hlisted j (mem_cons_of_mem h hj)
      exact ⟨g, picked, hok, fun j hj => mem_cons_of_mem h (hsub j hj), halloc, hg⟩
    have hnone : ¬ (f.alternates.get h).Nonempty := fun hmem =>
      hfetching ((hq.fetching h).mpr hmem)
    have halternates : ¬ (f.alternates.find? h).isSome = true := fun hmem =>
      hnone (hq.isSome_alternates.mp hmem)
    rw [if_neg hfetching, if_neg halternates]
    -- it is listed for the peer, so it is queued
    have hqueued : peer ∈ f.announced.get h := by
      rcases hq.listed peer h id (hlisted h mem_cons_self) with hmem | hmem
      · exact hmem
      · exact absurd ⟨peer, hmem⟩ hnone
    obtain ⟨origins, horigins⟩ :=
      isSome_iff_exists.mp (hq.isSome_announced.mpr ⟨peer, hqueued⟩)
    rw [horigins]
    dsimp only
    have hfree := not_isSome_iff_eq_none.mp hfetching
    have hstep : InQueues { f with
        fetching := f.fetching.insert h peer
        alternates := f.alternates.insert h origins
        announced := f.announced.erase h } full nobody nobody := hq.fetch horigins peer
    by_cases hfull : (acc ++ [h]).length ≥ maxTxRetrievals
    · rw [if_pos hfull]
      exact ⟨_, [h], rfl, by simp, .cons hfree horigins (.refl _) (by simp), hstep⟩
    rw [if_neg hfull]
    obtain ⟨g, picked, hok, hsub, halloc, hg⟩ := ih (acc ++ [h]) hrest hstep
      fun j hj => hlisted j (mem_cons_of_mem h hj)
    refine ⟨g, h :: picked, ?_, ?_, .cons hfree horigins halloc ?_, hg⟩
    · rw [hok, append_assoc]
      rfl
    · intro j hj
      rcases mem_cons.mp hj with rfl | hj
      · exact mem_cons_self
      · exact mem_cons_of_mem h (hsub j hj)
    · exact fun hmem => (nodup_cons.mp hnodup).1 (hsub h hmem)

theorem Allocated.owned (h : Allocated peer picked f g)
    (ho : Owned (fun _ _ => False) f.fetching f.requests) (hidle : f.requests.find? peer = none)
    (t : AbsTime) :
    Owned (fun _ _ => False) g.fetching (g.requests.insert peer ⟨picked, ∅, t⟩) := by
  rw [h.elsewhere.requests]
  constructor
  · intro p req hreq
    have hold := ho.nodup p req
    have hnodup := h.nodup
    grind
  · intro j p
    have hold := ho.owner j p
    simp only [not_false_eq_true, and_true] at hold
    rw [GoMap.find?_insert]
    simp only [not_false_eq_true, and_true]
    by_cases hj : j ∈ picked
    · rw [h.mine j hj]
      rw [h.fresh j hj] at hold
      by_cases hp : p = peer
      · simp [hp, hj]
      · rw [if_neg hp, ← hold]
        simp [Ne.symm hp]
    · rw [h.others j hj, hold]
      by_cases hp : p = peer
      · simp [hp, hj, hidle]
      · rw [if_neg hp]

theorem scheduleFetch_still (hf : Staged full f) : Still full f (scheduleFetch env f peer) := by
  unfold scheduleFetch
  by_cases hbusy : (f.requests.find? peer).isSome = true
  · rw [if_pos hbusy]
    exact ⟨f, rfl, hf, .refl f⟩
  rw [if_neg hbusy]
  by_cases hidle : (f.announces.get peer).card = 0
  · rw [if_pos hidle]
    exact ⟨f, rfl, hf, .refl f⟩
  rw [if_neg hidle]
  obtain ⟨g, picked, hok, -, halloc, hg⟩ := pick_allocated [] ((env.hashes peer).nodup _) hf.queues
    fun h hh => ((env.hashes peer).mem _ h).mp hh
  rw [hok, nil_append]
  dsimp only
  have hfree := not_isSome_iff_eq_none.mp hbusy
  have hwaits : Waits g.waitlist g.waittime g.waitslots := by
    rw [halloc.elsewhere.waitlist, halloc.elsewhere.waittime, halloc.elsewhere.waitslots]
    exact hf.waits
  have hapart : Apart g.waitlist g.announced g.alternates := by
    rw [halloc.elsewhere.waitlist]
    exact hf.apart.mono halloc.origins
  have hkept : Kept f g := by
    refine ⟨halloc.announces, fun p => ?_, fun h p hp => ?_⟩
    · rw [tracked, tracked, halloc.elsewhere.waitslots, halloc.announces]
    · have hnew : h ∉ picked := fun hh => by
        rw [halloc.fresh h hh] at hp
        cases hp
      exact ⟨(halloc.others h hnew).trans hp, halloc.alternates h hnew⟩
  by_cases hnone : picked.length > 0
  · rw [if_pos hnone]
    exact ⟨_, rfl, ⟨hwaits, hg, hapart, halloc.owned hf.owned hfree _⟩,
      hkept.announces, hkept.tracked, hkept.flight⟩
  obtain rfl := length_eq_zero_iff.mp (Nat.eq_zero_of_not_pos hnone)
  refine ⟨g, rfl, ⟨hwaits, hg, hapart, ?_⟩, hkept⟩
  rw [halloc.elsewhere.requests]
  refine ⟨hf.owned.nodup, fun h p => ?_⟩
  rw [halloc.others h not_mem_nil]
  exact hf.owned.owner h p

theorem scheduleFetches_still (hf : Staged full f) (whitelist : Option (Finset Peer)) :
    Still full f (scheduleFetches env f whitelist) := by
  unfold scheduleFetches
  generalize env.peers.list (whitelist.getD f.announces.keys.toFinset) = l
  induction l generalizing f with
  | nil => exact ⟨f, rfl, hf, .refl f⟩
  | cons peer l ih =>
    obtain ⟨g, hg, hstaged, hkept⟩ := scheduleFetch_still hf
    obtain ⟨k, hk, hstaged', hkept'⟩ := ih hstaged
    rw [foldlM_cons, hg]
    exact ⟨k, hk, hstaged', hkept.trans hkept'⟩

theorem scheduleFetches_next (hf : Staged full f) (whitelist : Option (Finset Peer)) :
    Next full f (scheduleFetches env f whitelist) := by
  obtain ⟨g, hg, hstaged, hkept⟩ := scheduleFetches_still hf whitelist
  exact ⟨g, hg, hstaged, fun p => (hkept.tracked p).subset⟩

/-! ## §2 — The wait trigger -/

theorem foldl_moveSlot (h : Hash) (l : List Peer) (f : TxFetcher) :
    l.foldl (moveSlot h) f = { f with
      announces := l.foldl (fun m p => SetMap.add m p h) f.announces
      waitslots := l.foldl (fun m p => SetMap.discard m p h) f.waitslots } := by
  induction l generalizing f with
  | nil => rfl
  | cons p l ih =>
    rw [foldl_cons, ih]
    rfl

/-- A hash whose time ran out goes to the queue. -/
theorem expire_next (env : Env) (hf : Staged full f) (hwait : (f.waittime.find? h).isSome = true)
    (actives : Finset Peer) :
    ∃ g actives', expire env (f, actives) h = .ok (g, actives') ∧ Staged full g ∧
      (∀ p, g.tracked p ⊆ f.tracked p) ∧
      ∀ j, j ≠ h → g.waittime.find? j = f.waittime.find? j := by
  unfold expire
  by_cases htime : env.clock h - f.waittime.get h + txGatherSlack > txArriveTimeout
  · have hwaiting := (hf.waits.waittime h).mp hwait
    obtain ⟨origins, horigins⟩ :=
      isSome_iff_exists.mp ((hf.waits.isSome_find? h).mpr hwaiting)
    have hget := get_of_find? horigins
    obtain ⟨hqueue, hnone⟩ := (hf.apart h).resolve_left hwaiting.ne_empty
    have hannounced : ¬ (f.announced.find? h).isSome = true := fun hmem =>
      (hf.queues.isSome_announced.mp hmem).ne_empty hqueue
    rw [if_pos htime, if_neg hannounced, horigins]
    dsimp only
    rw [foldl_moveSlot]
    refine ⟨_, _, rfl, ⟨?_, ?_, ?_, hf.owned⟩, fun p j hj => ?_, fun j hj => ?_⟩
    · refine hf.waits.leave h hf.waits.waitslots_tight.foldl_discard fun p j => ?_
      have hslots := hf.waits.slots p j
      rw [mem_get_foldl_discard, (env.located h).mem]
      grind
    · refine hf.queues.enqueue ?_ hnone hqueue (fun p _ => ?_) fun p j => ?_
      · rw [← hget]
        exact hwaiting.ne_empty
      · exact SetMap.Tight.foldl_add (fun p => hf.queues.announces_tight p id) p
      · rw [mem_get_foldl_add, (env.located h).mem, and_comm]
    · intro j
      have hold := hf.apart j
      grind
    · have hslots := hf.waits.slots p h
      simp only [tracked, mem_union, mem_get_foldl_discard,
        mem_get_foldl_add, (env.located h).mem] at hj ⊢
      grind
    · rw [GoMap.find?_erase, if_neg hj]
  · rw [if_neg htime]
    exact ⟨f, actives, rfl, hf, fun _ => subset_rfl, fun _ _ => rfl⟩

theorem foldlM_expire (env : Env) (hnodup : l.Nodup) (hf : Staged full f)
    (hwait : ∀ h ∈ l, (f.waittime.find? h).isSome = true) (actives : Finset Peer) :
    ∃ g actives', l.foldlM (expire env) (f, actives) = .ok (g, actives') ∧ Staged full g ∧
      ∀ p, g.tracked p ⊆ f.tracked p := by
  induction l generalizing f actives with
  | nil => exact ⟨f, actives, rfl, hf, fun _ => subset_rfl⟩
  | cons h l ih =>
    obtain ⟨hnew, hrest⟩ := nodup_cons.mp hnodup
    obtain ⟨g, actives', hg, hstaged, hless, hsame⟩ :=
      expire_next env hf (hwait h mem_cons_self) actives
    have hwait' : ∀ j ∈ l, (g.waittime.find? j).isSome = true := by
      intro j hj
      have hne : j ≠ h := by
        rintro rfl
        exact hnew hj
      rw [hsame j hne]
      exact hwait j (mem_cons_of_mem h hj)
    obtain ⟨k, actives'', hk, hstaged', hless'⟩ := ih hrest hstaged hwait' actives'
    rw [foldlM_cons, hg]
    exact ⟨k, actives'', hk, hstaged', fun p => (hless' p).trans (hless p)⟩

theorem waitTrigger_next (env : Env) (hf : Staged full f) : Next full f (f.waitTrigger env) := by
  have hwait : ∀ h ∈ env.waits.list f.waittime.keys.toFinset,
      (f.waittime.find? h).isSome = true := by
    intro h hh
    rw [env.waits.mem, List.mem_toFinset] at hh
    rw [GoMap.find?, if_pos hh]
    rfl
  obtain ⟨g, actives, hg, hstaged, hless⟩ :=
    foldlM_expire env (env.waits.nodup _) hf hwait ∅
  unfold waitTrigger
  rw [hg]
  dsimp only
  split
  · exact .trans hless (scheduleFetches_next hstaged _)
  · exact .trans hless (.refl hstaged)

/-! ## §3 — Hashes that are taken back -/

/-- The hashes are not fetched any more; nobody has a new hash. -/
structure Released (l : List Hash) (f g : TxFetcher) : Prop where
  elsewhere : Elsewhere f g
  gone : ∀ h ∈ l, g.fetching.find? h = none
  fetching : ∀ h, h ∉ l → g.fetching.find? h = f.fetching.find? h
  announced : ∀ h, h ∉ l → g.announced.find? h = f.announced.find? h
  alternates : ∀ h, h ∉ l → g.alternates.find? h = f.alternates.find? h
  origins : ∀ h p, p ∈ g.announced.get h ∨ p ∈ g.alternates.get h →
    p ∈ f.announced.get h ∨ p ∈ f.alternates.get h
  announces : ∀ p, g.announces.get p ⊆ f.announces.get p

theorem Released.refl (f : TxFetcher) : Released [] f f where
  elsewhere := .refl f
  gone := by simp
  fetching := fun _ _ => rfl
  announced := fun _ _ => rfl
  alternates := fun _ _ => rfl
  origins := fun _ _ => id
  announces := fun _ => subset_rfl

theorem Released.append (h : Released l f g) (h' : Released l' g k) : Released (l ++ l') f k where
  elsewhere := h.elsewhere.trans h'.elsewhere
  gone := by
    intro j hj
    by_cases hl' : j ∈ l'
    · exact h'.gone j hl'
    · rw [h'.fetching j hl']
      exact h.gone j ((mem_append.mp hj).resolve_right hl')
  fetching := by
    intro j hj
    rw [mem_append, not_or] at hj
    rw [h'.fetching j hj.2, h.fetching j hj.1]
  announced := by
    intro j hj
    rw [mem_append, not_or] at hj
    rw [h'.announced j hj.2, h.announced j hj.1]
  alternates := by
    intro j hj
    rw [mem_append, not_or] at hj
    rw [h'.alternates j hj.2, h.alternates j hj.1]
  origins := fun j p hp => h.origins j p (h'.origins j p hp)
  announces := fun p => (h'.announces p).trans (h.announces p)

theorem Released.tracked (h : Released l f g) (p : Peer) : g.tracked p ⊆ f.tracked p := by
  rw [TxFetcher.tracked, TxFetcher.tracked, h.elsewhere.waitslots]
  exact union_subset_union_right (h.announces p)

/-- **A loop that takes hashes back.** Stolen ones are passed over; of the others, those that were
not `delivered` must be in flight. -/
theorem foldlM_release (body : TxFetcher → α → Except Fault TxFetcher) (key : α → Hash)
    (delivered : Hash → Prop) {I : TxFetcher → Prop}
    (hstolen : ∀ f a, key a ∈ stolen → body f a = .ok f) (hbody : ∀ f a, I f → key a ∉ stolen →
      (¬ delivered (key a) → (f.fetching.find? (key a)).isSome = true) →
      ∃ g, body f a = .ok g ∧ I g ∧ Released [key a] f g) {l : List α}
    (hnodup : (l.map key).Nodup) (hf : I f) (hflight : ∀ a ∈ l, key a ∉ stolen → ¬ delivered (key a) →
      (f.fetching.find? (key a)).isSome = true) :
    ∃ g, l.foldlM body f = .ok g ∧ I g ∧
      Released ((l.map key).filter fun h => h ∉ stolen) f g := by
  induction l generalizing f with
  | nil => exact ⟨f, rfl, hf, .refl f⟩
  | cons a l ih =>
    rw [map_cons, nodup_cons] at hnodup
    rw [map_cons]
    by_cases ha : key a ∈ stolen
    · obtain ⟨g, hg, hI, hrel⟩ := ih hnodup.2 hf fun b hb => hflight b (mem_cons_of_mem a hb)
      refine ⟨g, ?_, hI, ?_⟩
      · rw [foldlM_cons, hstolen f a ha]
        exact hg
      · rw [filter_cons_of_neg (by simpa using ha)]
        exact hrel
    obtain ⟨g, hg, hI, hrel⟩ := hbody f a hf ha (hflight a mem_cons_self ha)
    have hflight' : ∀ b ∈ l, key b ∉ stolen → ¬ delivered (key b) →
        (g.fetching.find? (key b)).isSome = true := by
      intro b hb hs hd
      have hne : key b ∉ [key a] := by
        rw [mem_singleton]
        rintro heq
        exact hnodup.1 (heq ▸ mem_map_of_mem hb)
      rw [hrel.fetching _ hne]
      exact hflight b (mem_cons_of_mem a hb) hs hd
    obtain ⟨k, hk, hI', hrel'⟩ := ih hnodup.2 hI hflight'
    refine ⟨k, ?_, hI', ?_⟩
    · rw [foldlM_cons, hg]
      exact hk
    · rw [filter_cons_of_pos (by simpa using ha)]
      exact hrel.append hrel'

/-- One hash, with the maps as `Queues.release` has them. -/
theorem release_one {loose out : Peer → Prop} (hq : f.InQueues full loose out)
    (hflight : (f.fetching.find? h).isSome = true) (dropped lost : Peer → Prop)
    (hiff : ∀ p, ¬ out p → (lost p ↔ dropped p)) {announced alternates : SetMap Hash Peer}
    {announces : SetMap Peer Hash} (hother : ∀ j, j ≠ h → announced.find? j = f.announced.find? j)
    (hleft : ∀ p, p ∈ announced.get h ↔ p ∈ f.alternates.get h ∧ ¬ dropped p)
    (hne : announced.find? h ≠ some ∅)
    (halternates : ∀ j, alternates.find? j = if j = h then none else f.alternates.find? j)
    (hmem : ∀ p j, j ∈ announces.get p ↔ j ∈ f.announces.get p ∧ ¬ (j = h ∧ lost p))
    (htight : ∀ p, ¬ loose p → announces.find? p ≠ some ∅) : InQueues { f with
      announced := announced
      alternates := alternates
      fetching := f.fetching.erase h
      announces := announces } full loose out ∧
    Released [h] f { f with
      announced := announced
      alternates := alternates
      fetching := f.fetching.erase h
      announces := announces } := by
  have hqueue := (hq.queued h).resolve_right ((hq.fetching h).mp hflight).ne_empty
  refine ⟨hq.release dropped lost hiff hqueue hother hleft hne halternates hmem htight, ?_⟩
  have hsingle : ∀ j, j ∉ [h] → j ≠ h := fun j hj heq => hj (mem_singleton.mpr heq)
  exact
    { elsewhere := ⟨rfl, rfl, rfl, rfl⟩
      gone := by
        intro j hj
        rw [GoMap.find?_erase, if_pos (mem_singleton.mp hj)]
      fetching := by
        intro j hj
        rw [GoMap.find?_erase, if_neg (hsingle j hj)]
      announced := fun j hj => hother j (hsingle j hj)
      alternates := by
        intro j hj
        rw [halternates, if_neg (hsingle j hj)]
      origins := by
        intro j p hp
        have hget : alternates.get j = if j = h then ∅ else f.alternates.get j := by
          rw [GoMap.get, GoMap.get, halternates]
          split <;> rfl
        by_cases hj : j = h
        · subst hj
          rw [hget, if_pos rfl] at hp
          exact .inr ((hleft p).mp (hp.resolve_right (Finset.notMem_empty p))).1
        · rw [hget, if_neg hj, GoMap.get, hother j hj] at hp
          exact hp
      announces := fun p j hj => ((hmem p j).mp hj).1 }

/-! ## §4 — The timeout trigger -/

theorem reschedule_stolen (f : TxFetcher) (h : Hash) (hs : h ∈ stolen) :
    reschedule peer stolen f h = .ok f := if_pos hs

theorem reschedule_released (hq : f.InQueues full (· = peer) nobody) (hs : h ∉ stolen)
    (hflight : (f.fetching.find? h).isSome = true) :
    ∃ g, reschedule peer stolen f h = .ok g ∧ g.InQueues full (· = peer) nobody ∧
      Released [h] f g := by
  have hmem := (hq.fetching h).mp hflight
  have hqueue := (hq.queued h).resolve_right hmem.ne_empty
  obtain ⟨origins, horigins⟩ := isSome_iff_exists.mp (hq.isSome_alternates.mpr hmem)
  have hannounced : ¬ (f.announced.find? h).isSome = true := fun hsome =>
    (hq.isSome_announced.mp hsome).ne_empty hqueue
  unfold reschedule
  rw [if_neg hs, if_neg hannounced, horigins]
  refine ⟨_, rfl, release_one hq hflight (· = peer) (· = peer) (fun _ _ => Iff.rfl) (fun j hj => ?_)
    (fun p => ?_) SetMap.find?_prune_ne (fun j => GoMap.find?_erase _ _ _) (fun p j => ?_)
    fun p hp => ?_⟩
  · rw [SetMap.discard, SetMap.find?_prune_of_ne hj, SetMap.find?_remove_of_ne hj,
      GoMap.find?_insert_of_ne hj]
  · rw [mem_get_discard, get_insert, if_pos rfl, get_of_find? horigins]
    simp
  · rw [mem_get_remove]
    tauto
  · rw [SetMap.find?_remove_of_ne hp]
    exact hq.announces_tight p hp

theorem Released.fetching_iff (hrel : Released l f g)
    (hmine : ∀ h p, f.fetching.find? h = some p → (h ∈ l ↔ p = peer)) (h : Hash) (p : Peer) :
    g.fetching.find? h = some p ↔ p ≠ peer ∧ f.fetching.find? h = some p := by
  by_cases hl : h ∈ l
  · rw [hrel.gone h hl]
    constructor
    · intro hnone
      cases hnone
    · exact fun hf => absurd ((hmine h p hf.2).mp hl) hf.1
  · rw [hrel.fetching h hl]
    exact ⟨fun hf => ⟨fun hp => hl ((hmine h p hf).mpr hp), hf⟩, fun hf => hf.2⟩

theorem expireRequest_next (hf : Staged full f) : Next full f (expireRequest env f peer) := by
  unfold expireRequest
  cases hreq : f.requests.find? peer with
  | none => exact .refl hf
  | some req =>
    dsimp only
    by_cases htime : env.clockOf peer - req.time + txGatherSlack > txFetchTimeout
    · rw [if_pos htime]
      have hloose : f.InQueues full (· = peer) nobody :=
        { hf.queues with announces_tight := fun p _ => hf.queues.announces_tight p id }
      have hnodup : (req.hashes.map id).Nodup := by
        rw [List.map_id]
        exact hf.owned.nodup peer req hreq
      obtain ⟨g, hg, hq, hrel⟩ := foldlM_release (reschedule peer req.stolen) id
        (fun _ => False) (fun f h hs => reschedule_stolen f h hs)
        (fun f h hq hs hflight => reschedule_released hq hs (hflight id)) hnodup hloose
        (fun h hh hs _ => isSome_of_eq_some (hf.owned.flight hreq hh hs id))
      rw [List.map_id] at hrel
      rw [hg]
      refine ⟨_, rfl, ⟨?_, hq.prune, ?_, ?_⟩, fun p => ?_⟩
      · rw [hrel.elsewhere.waitlist, hrel.elsewhere.waittime, hrel.elsewhere.waitslots]
        exact hf.waits
      · rw [hrel.elsewhere.waitlist]
        exact hf.apart.mono hrel.origins
      · rw [hrel.elsewhere.requests]
        refine hf.owned.close (fun _ _ => False.elim)
          (hrel.fetching_iff fun _ _ hfetch => hf.owned.mem_filter_iff hreq hfetch id)
          (fun q hq => ?_) fun req' hreq' => ?_
        · exact GoMap.find?_insert_of_ne hq
        · rw [GoMap.find?_insert_self] at hreq'
          rw [← some.inj hreq']
      · refine subset_trans ?_ (hrel.tracked p)
        rw [tracked, tracked, get_prune]
    · rw [if_neg htime]
      exact .refl hf

theorem timeoutTrigger_next (env : Env) (hf : Staged full f) : Next full f (f.timeoutTrigger env) := by
  obtain ⟨g, hg, hstaged, hless⟩ := foldlM_next (fun _ _ => expireRequest_next)
    (env.requests.list f.requests.keys.toFinset) hf
  unfold timeoutTrigger
  rw [hg]
  exact .trans hless (scheduleFetches_next hstaged none)

/-! ## §5 — Deliveries -/

/-- The invariant while the hashes of a delivery are removed. -/
structure Delivering (full : Prop) (gone : Peer → Hash → Prop) (f : TxFetcher) : Prop where
  waits : Waits f.waitlist f.waittime f.waitslots
  queues : f.InQueues full nobody nobody
  apart : Apart f.waitlist f.announced f.alternates
  owned : Owned gone f.fetching f.requests

/-- What the peer was asked for and has delivered. -/
def answered (origin : Peer) (direct : Bool) (p : Peer) : Prop := direct = true ∧ p = origin

theorem forget_delivering (origin : Peer) (direct : Bool) (hf : Delivering full gone f) (h : Hash) :
    ∃ g, forget origin direct f h = .ok g ∧
      Delivering full (fun q j => gone q j ∨ (answered origin direct q ∧ j = h)) g ∧
      (∀ p, g.tracked p ⊆ f.tracked p) ∧ g.fetching.find? h = none ∧
      ∀ j, f.fetching.find? j = none → g.fetching.find? j = none := by
  unfold forget
  by_cases hwait : (f.waitlist.find? h).isSome = true
  · rw [if_pos hwait]
    have hmem := (hf.waits.isSome_find? h).mp hwait
    have hidle : f.fetching.find? h = none := by
      rw [← not_isSome_iff_eq_none, hf.queues.fetching h]
      rw [((hf.apart h).resolve_left hmem.ne_empty).2]
      exact not_nonempty_empty
    refine ⟨_, rfl, ⟨?_, hf.queues, ?_, hf.owned.idle hidle (fun _ => rfl) _⟩, fun p => ?_, hidle,
      fun _ => id⟩
    · exact hf.waits.leave h tight_scrub fun p j => mem_get_scrub
    · intro j
      have hj := hf.apart j
      grind
    · refine union_subset_union_left fun j hj => ?_
      exact (mem_get_scrub.mp hj).1
  rw [if_neg hwait]
  have hapart : Apart f.waitlist (f.announced.erase h) (f.alternates.erase h) := by
    intro j
    have hj := hf.apart j
    grind
  have hless : ∀ p, f.waitslots.get p ∪ (f.announces.scrub h).get p ⊆ f.tracked p := fun p =>
    union_subset_union_right fun j hj => (mem_get_scrub.mp hj).1
  have hgone : (f.fetching.erase h).find? h = none := by rw [GoMap.find?_erase, if_pos rfl]
  have hstill : ∀ j, f.fetching.find? j = none → (f.fetching.erase h).find? j = none := by
    intro j hj
    rw [GoMap.find?_erase, hj, ite_self]
  dsimp only
  cases hfetch : f.fetching.find? h with
  | none =>
    have hsame : ∀ j, (f.fetching.erase h).find? j = f.fetching.find? j := by
      intro j
      rw [GoMap.find?_erase]
      split
      · next hj => rw [hj, hfetch]
      · rfl
    exact ⟨_, rfl, ⟨hf.waits, hf.queues.forget h, hapart, hf.owned.idle hfetch hsame _⟩, hless,
      hgone, hstill⟩
  | some source =>
    dsimp only
    by_cases hstolen : source ≠ origin ∨ direct = false
    · rw [if_pos hstolen]
      obtain ⟨req, hreq, -⟩ := hf.owned.mem_request hfetch
      rw [hreq]
      exact ⟨_, rfl, ⟨hf.waits, hf.queues.forget h, hapart, hf.owned.steal hfetch hreq _⟩, hless,
        hgone, hstill⟩
    · rw [if_neg hstolen]
      rw [not_or, not_not, Bool.not_eq_false] at hstolen
      exact ⟨_, rfl, ⟨hf.waits, hf.queues.forget h, hapart,
        hf.owned.deliver hfetch ⟨hstolen.2, hstolen.1⟩⟩, hless, hgone, hstill⟩

theorem foldlM_forget (origin : Peer) (direct : Bool) (hf : Delivering full gone f)
    (l : List Hash) : ∃ g, l.foldlM (forget origin direct) f = .ok g ∧
      Delivering full (fun q j => gone q j ∨ (answered origin direct q ∧ j ∈ l)) g ∧
      (∀ p, g.tracked p ⊆ f.tracked p) ∧ (∀ j ∈ l, g.fetching.find? j = none) ∧
      ∀ j, f.fetching.find? j = none → g.fetching.find? j = none := by
  induction l generalizing f gone with
  | nil =>
    refine ⟨f, rfl, ?_, fun _ => subset_rfl, by simp, fun _ => id⟩
    simpa using hf
  | cons h l ih =>
    obtain ⟨g, hg, hdel, hless, hnone, hstill⟩ := forget_delivering origin direct hf h
    obtain ⟨k, hk, hdel', hless', hnone', hstill'⟩ := ih hdel
    refine ⟨k, ?_, ?_, fun p => (hless' p).trans (hless p), ?_, fun j hj => hstill' j (hstill j hj)⟩
    · rw [foldlM_cons, hg]
      exact hk
    · have hgone : (fun q j => (gone q j ∨ (answered origin direct q ∧ j = h)) ∨
          (answered origin direct q ∧ j ∈ l)) =
          fun q j => gone q j ∨ (answered origin direct q ∧ j ∈ h :: l) := by
        funext q j
        rw [mem_cons]
        exact propext (by tauto)
      rw [← hgone]
      exact hdel'
    · intro j hj
      rcases mem_cons.mp hj with rfl | hj
      · exact hstill' j hnone
      · exact hnone' j hj

/-- The queues while an answered request is taken apart: what was delivered is not in flight. -/
def Answering (full : Prop) (delivered : List Hash) (f : TxFetcher) : Prop :=
  f.InQueues full nobody nobody ∧ ∀ h ∈ delivered, f.fetching.find? h = none

theorem Answering.released (hf : Answering full delivered f) (hg : g.InQueues full nobody nobody)
    (hrel : Released l f g) : Answering full delivered g := by
  refine ⟨hg, fun h hh => ?_⟩
  by_cases hl : h ∈ l
  · exact hrel.gone h hl
  · rw [hrel.fetching h hl]
    exact hf.2 h hh

theorem Answering.ok (hf : Answering full delivered f)
    (hg : g.InQueues full nobody nobody ∧ Released l f g) :
    ∃ k, (.ok g : Except Fault TxFetcher) = .ok k ∧ Answering full delivered k ∧ Released l f k :=
  ⟨g, rfl, hf.released hg.1 hg.2, hg.2⟩

theorem requeue_stolen (f : TxFetcher) (a : Hash × Nat) (hs : a.1 ∈ stolen) :
    requeue origin stolen delivered last f a = .ok f := if_pos hs

/-- What happens to a hash that was not delivered, before the cutoff and after it. -/
theorem requeue_undelivered (hs : h ∉ stolen) (hdel : h ∉ delivered)
    (hqueue : ¬ (f.announced.find? h).isSome = true) :
    requeue origin stolen delivered last f (h, i) = .ok (if i < last then
      { f with
        announced := requeued f.announced h ((f.alternates.remove h origin).get h)
        alternates := (f.alternates.remove h origin).erase h
        fetching := f.fetching.erase h
        announces := f.announces.discard origin h }
    else
      { f with
        announced := requeued f.announced h (f.alternates.get h)
        alternates := f.alternates.erase h
        fetching := f.fetching.erase h }) := by
  unfold requeue requeued
  dsimp only
  rw [if_neg hs, if_neg hdel]
  by_cases hi : i < last
  · rw [if_pos hi, if_pos hi]
    dsimp only
    by_cases hleft : ((f.alternates.remove h origin).get h).card = 0
    · rw [if_neg (by omega), if_pos hleft]
    · rw [if_pos (by omega), if_neg hqueue, if_neg hleft]
  · rw [if_neg hi, if_neg hi]
    by_cases hleft : (f.alternates.get h).card = 0
    · rw [if_neg (by omega), if_pos hleft]
    · rw [if_pos (by omega), if_neg hqueue, if_neg hleft]

theorem requeue_released {a : Hash × Nat} (hf : Answering full delivered f)
    (hs : a.1 ∉ stolen) (hflight : a.1 ∉ delivered → (f.fetching.find? a.1).isSome = true) :
    ∃ g, requeue origin stolen delivered last f a = .ok g ∧ Answering full delivered g ∧
      Released [a.1] f g := by
  obtain ⟨h, i⟩ := a
  have hq := hf.1
  by_cases hdel : h ∈ delivered
  · -- nothing is left to do
    have hnone : f.alternates.get h = ∅ := by
      rw [← not_nonempty_iff_eq_empty, ← hq.fetching h, hf.2 h hdel]
      exact Bool.false_ne_true
    unfold requeue
    rw [if_neg hs, if_pos hdel]
    have hrel : Released [h] f { f with
        alternates := f.alternates.erase h
        fetching := f.fetching.erase h } :=
      { elsewhere := ⟨rfl, rfl, rfl, rfl⟩
        gone := by grind
        fetching := by grind
        announced := fun _ _ => rfl
        alternates := by grind
        origins := by
          intro j p hp
          grind
        announces := fun _ => subset_rfl }
    exact ⟨_, rfl, hf.released (hq.settle hnone) hrel, hrel⟩
  have hmem := (hq.fetching h).mp (hflight hdel)
  have hqueue := (hq.queued h).resolve_right hmem.ne_empty
  have hannounced : ¬ (f.announced.find? h).isSome = true := fun hsome =>
    (hq.isSome_announced.mp hsome).ne_empty hqueue
  rw [requeue_undelivered hs hdel hannounced]
  have htight : SetMap.Tight f.announces := fun p => hq.announces_tight p id
  by_cases hi : i < last
  · rw [if_pos hi]
    refine hf.ok (release_one hq (hflight hdel) (· = origin) (· = origin) (fun _ _ => Iff.rfl)
      (fun j hj => find?_requeued_of_ne hj) (fun p => ?_) (find?_requeued_ne hq.announced_tight)
      (fun j => ?_) (fun p j => ?_) fun p _ => htight.discard p)
    · rw [get_requeued hqueue, mem_get_remove]
      simp
    · rw [GoMap.find?_erase]
      split
      · rfl
      · next hj => exact SetMap.find?_remove_of_ne hj
    · rw [mem_get_discard]
      tauto
  · rw [if_neg hi]
    refine hf.ok (release_one hq (hflight hdel) nobody nobody (fun _ _ => Iff.rfl)
      (fun j hj => find?_requeued_of_ne hj) (fun p => ?_) (find?_requeued_ne hq.announced_tight)
      (fun j => GoMap.find?_erase _ _ _) (fun p j => ?_) fun p _ => htight p)
    · rw [get_requeued hqueue]
      simp [nobody]
    · simp [nobody]

theorem cleanup_next (env : Env) (origin : Peer) (hashes : List Hash) (direct : Bool)
    (hf : Staged full f) : Next full f (f.cleanup env origin hashes direct) := by
  obtain ⟨g, hg, hdel, hless, hnone, -⟩ := foldlM_forget origin direct
    ({ hf with } : Delivering full (fun _ _ => False) f) hashes
  simp only [false_or] at hdel
  unfold cleanup
  rw [hg]
  dsimp only
  -- where nothing is missing from a request, nothing is gone
  have hall (hreq : ∀ j, ¬ (answered origin direct origin ∧ j ∈ hashes ∧
      (g.requests.find? origin).isSome = true)) : Staged full g := by
    refine ⟨hdel.waits, hdel.queues, hdel.apart, hdel.owned.nodup, fun h p => ?_⟩
    rw [hdel.owned.owner h p]
    refine and_congr_right ?_
    rintro ⟨req, hp, -⟩
    rw [not_false_eq_true, iff_true]
    rintro ⟨⟨hdirect, rfl⟩, hh⟩
    exact hreq h ⟨⟨hdirect, rfl⟩, hh, isSome_of_eq_some hp⟩
  by_cases hdirect : direct = false
  · rw [if_pos hdirect]
    refine .trans hless (.refl (hall ?_))
    rintro j ⟨⟨htrue, -⟩, -⟩
    rw [hdirect] at htrue
    cases htrue
  rw [if_neg hdirect]
  cases hreq : g.requests.find? origin with
  | none =>
    refine .trans hless (.refl (hall ?_))
    rintro j ⟨-, -, hsome⟩
    rw [hreq] at hsome
    cases hsome
  | some req =>
    dsimp only
    have hfst : req.hashes.zipIdx.map Prod.fst = req.hashes := zipIdx_map_fst 0 req.hashes
    have hflight : ∀ a ∈ req.hashes.zipIdx, a.1 ∉ req.stolen → a.1 ∉ hashes →
        (g.fetching.find? a.1).isSome = true := by
      intro a ha hs hnew
      have hmem : a.1 ∈ req.hashes := hfst ▸ mem_map_of_mem ha
      exact isSome_of_eq_some (hdel.owned.flight hreq hmem hs fun hgone => hnew hgone.2)
    obtain ⟨k, hk, hans, hrel⟩ := foldlM_release
      (requeue origin req.stolen hashes (cutoff req.hashes hashes)) Prod.fst (· ∈ hashes)
      (fun f a hs => requeue_stolen f a hs) (fun f a hf hs hflight => requeue_released hf hs hflight)
      (by rw [hfst]; exact hdel.owned.nodup origin req hreq)
      (⟨hdel.queues, hnone⟩ : Answering full hashes
        { g with requests := g.requests.erase origin }) hflight
    rw [hfst] at hrel
    rw [hk]
    -- what was delivered is not in flight
    have hlive : ∀ h p, g.fetching.find? h = some p → h ∉ hashes := by
      intro h p hfetch hh
      rw [hnone h hh] at hfetch
      cases hfetch
    have hstaged : Staged full k := by
      refine ⟨?_, hans.1, ?_, ?_⟩
      · rw [hrel.elsewhere.waitlist, hrel.elsewhere.waittime, hrel.elsewhere.waitslots]
        exact hdel.waits
      · rw [hrel.elsewhere.waitlist]
        exact hdel.apart.mono hrel.origins
      · rw [hrel.elsewhere.requests]
        refine hdel.owned.close (fun q j hgone => hgone.1.2) (hrel.fetching_iff fun h p hfetch =>
          hdel.owned.mem_filter_iff hreq hfetch fun hgone => hlive h p hfetch hgone.2)
          (fun q hq => ?_) fun req' hreq' => ?_
        · rw [GoMap.find?_erase, if_neg hq]
        · rw [GoMap.find?_erase, if_pos rfl] at hreq'
          cases hreq'
    exact .trans (fun p => (hrel.tracked p).trans (hless p)) (scheduleFetches_next hstaged none)

/-! ## §6 — Drops -/

theorem foldl_unwait (peer : Peer) (l : List Hash)
    (hw : ∀ h, (f.waittime.find? h).isSome = true ↔ (f.waitlist.get h).Nonempty) :
    ∃ waittime, l.foldl (unwait peer) f = { f with
        waitlist := l.foldl (fun m h => SetMap.discard m h peer) f.waitlist
        waittime := waittime } ∧
      ∀ h, (waittime.find? h).isSome = true ↔
        ((l.foldl (fun m h => SetMap.discard m h peer) f.waitlist).get h).Nonempty := by
  induction l generalizing f with
  | nil => exact ⟨f.waittime, rfl, hw⟩
  | cons h l ih =>
    have hstep : ∃ waittime, unwait peer f h = { f with
          waitlist := f.waitlist.discard h peer
          waittime := waittime } ∧
        ∀ j, (waittime.find? j).isSome = true ↔ ((f.waitlist.discard h peer).get j).Nonempty := by
      unfold unwait SetMap.discard SetMap.prune
      by_cases hempty : ((f.waitlist.remove h peer).get h).card = 0
      · rw [if_pos hempty, if_pos hempty]
        refine ⟨_, rfl, fun j => ?_⟩
        grind [Finset.not_nonempty_empty]
      rw [if_neg hempty, if_neg hempty]
      refine ⟨_, rfl, fun j => ?_⟩
      have hj := hw j
      have hne : ((f.waitlist.get h).erase peer).Nonempty := by
        rw [get_remove, if_pos rfl] at hempty
        exact card_pos.mp (Nat.pos_of_ne_zero hempty)
      rw [get_remove]
      split
      · next hjh =>
        subst hjh
        exact ⟨fun _ => hne, fun _ => hj.mpr (hne.mono (erase_subset _ _))⟩
      · exact hj
    obtain ⟨waittime, hunwait, hw'⟩ := hstep
    rw [foldl_cons, foldl_cons, hunwait]
    obtain ⟨waittime', heq, hw''⟩ := ih (f := { f with
      waitlist := f.waitlist.discard h peer
      waittime := waittime }) hw'
    exact ⟨waittime', heq, hw''⟩

/-- A dropped peer does not wait for anything. -/
theorem dropWaits_staged (env : Env) (peer : Peer) (hf : Staged full f) :
    Staged full (dropWaits env f peer) ∧ (∀ p, (dropWaits env f peer).tracked p ⊆ f.tracked p) ∧
      ∃ waitlist waittime waitslots, dropWaits env f peer = { f with
        waitlist := waitlist
        waittime := waittime
        waitslots := waitslots } := by
  unfold dropWaits
  cases hslots : f.waitslots.find? peer with
  | none => exact ⟨hf, fun _ => subset_rfl, f.waitlist, f.waittime, f.waitslots, rfl⟩
  | some slots =>
    dsimp only
    obtain ⟨waittime, heq, hw⟩ :=
      foldl_unwait peer ((env.hashes peer).list slots) hf.waits.waittime
    have hget := get_of_find? hslots
    rw [heq]
    refine ⟨⟨?_, hf.queues, ?_, hf.owned⟩, fun p => ?_, _, _, _, rfl⟩
    · refine ⟨hf.waits.waitlist_tight.foldl_discard, hf.waits.waitslots_tight.erase, hw, ?_⟩
      intro p h
      have hold := hf.waits.slots p h
      rw [get_erase, mem_get_foldl_discard, (env.hashes peer).mem]
      grind
    · intro h
      refine (hf.apart h).imp_left fun hnone => ?_
      refine eq_empty_of_forall_notMem fun p hp => ?_
      have hold := (mem_get_foldl_discard.mp hp).1
      rw [hnone] at hold
      exact notMem_empty p hold
    · refine union_subset_union_left ?_
      rw [get_erase]
      split
      · exact empty_subset _
      · exact subset_rfl

theorem abandon_released (hq : f.InQueues full nobody (· = peer)) (hs : h ∉ stolen)
    (hflight : (f.fetching.find? h).isSome = true) :
    InQueues (abandon peer stolen f h) full nobody (· = peer) ∧
      Released [h] f (abandon peer stolen f h) := by
  have hmem := (hq.fetching h).mp hflight
  have hqueue := (hq.queued h).resolve_right hmem.ne_empty
  have heq : abandon peer stolen f h = { f with
      announced := requeued f.announced h ((f.alternates.remove h peer).get h)
      alternates := (f.alternates.remove h peer).erase h
      fetching := f.fetching.erase h } := by
    unfold abandon requeued
    rw [if_neg hs]
    dsimp only
    split <;> rfl
  rw [heq]
  refine release_one hq hflight (· = peer) nobody (fun p hp => ?_)
    (fun j hj => find?_requeued_of_ne hj) (fun p => ?_) (find?_requeued_ne hq.announced_tight)
    (fun j => ?_) (fun p j => ?_) fun p hp => hq.announces_tight p hp
  · exact ⟨False.elim, fun heq => hp heq⟩
  · rw [get_requeued hqueue, mem_get_remove]
    simp
  · rw [GoMap.find?_erase]
    split
    · rfl
    · next hj => exact SetMap.find?_remove_of_ne hj
  · simp [nobody]

def TxFetcher.inFlight (f : TxFetcher) (peer : Peer) : List Hash :=
  match f.requests.find? peer with
  | none => []
  | some req => req.hashes.filter fun h => h ∉ req.stolen

theorem Staged.mem_inFlight (hf : Staged full f) (h : Hash) (p : Peer)
    (hfetch : f.fetching.find? h = some p) : h ∈ f.inFlight peer ↔ p = peer := by
  unfold TxFetcher.inFlight
  cases hreq : f.requests.find? peer with
  | none =>
    refine ⟨fun hh => absurd hh not_mem_nil, ?_⟩
    rintro rfl
    obtain ⟨req, hreq', -⟩ := hf.owned.mem_request hfetch
    rw [hreq] at hreq'
    cases hreq'
  | some req => exact hf.owned.mem_filter_iff hreq hfetch id

theorem foldl_abandon_announces (stolen : Finset Hash) (l : List Hash) :
    (l.foldl (abandon peer stolen) f).announces = f.announces := by
  induction l generalizing f with
  | nil => rfl
  | cons h l ih =>
    rw [foldl_cons, ih]
    unfold abandon
    dsimp only
    split
    · rfl
    · split <;> rfl

/-- The request of a dropped peer is gone, and what was in flight is taken back. -/
theorem dropRequest_released (peer : Peer) (hf : Staged full f) :
    ∃ g requests, dropRequest f peer = { g with requests := requests } ∧
      (∀ q, requests.find? q = if q = peer then none else f.requests.find? q) ∧
      g.InQueues full nobody (· = peer) ∧ Released (f.inFlight peer) f g ∧
      g.announces = f.announces := by
  have hout : f.InQueues full nobody (· = peer) :=
    { hf.queues with
      listed := fun p h _ => hf.queues.listed p h id
      traced := fun hfull p h _ => hf.queues.traced hfull p h id }
  unfold dropRequest TxFetcher.inFlight
  cases hreq : f.requests.find? peer with
  | none =>
    refine ⟨f, f.requests, rfl, fun q => ?_, hout, .refl f, rfl⟩
    split
    · next hq => rw [hq, hreq]
    · rfl
  | some req =>
    have hnodup : (req.hashes.map id).Nodup := by
      rw [List.map_id]
      exact hf.owned.nodup peer req hreq
    obtain ⟨g, hg, hq, hrel⟩ := foldlM_release
      (fun f h => (.ok (abandon peer req.stolen f h) : Except Fault TxFetcher)) id (fun _ => False)
      (fun f h hs => congrArg Except.ok (if_pos hs))
      (fun f h hq hs hflight => ⟨_, rfl, abandon_released hq hs (hflight id)⟩) hnodup hout
      (fun h hh hs _ => isSome_of_eq_some (hf.owned.flight hreq hh hs id))
    have hfold : req.hashes.foldl (abandon peer req.stolen) f = g :=
      Except.ok.inj (foldlM_pure.symm.trans hg)
    rw [List.map_id] at hrel
    refine ⟨g, f.requests.erase peer, ?_, fun q => GoMap.find?_erase _ _ _, hq, hrel, ?_⟩
    · dsimp only
      rw [hfold, hrel.elsewhere.requests]
    · rw [← hfold]
      exact foldl_abandon_announces req.stolen req.hashes

/-- The announcements of a dropped peer are gone. -/
theorem dropAnnounces_eq (env : Env) (f : TxFetcher) (peer : Peer) (ht : SetMap.Tight f.announced) :
    ∃ announced announces, dropAnnounces env f peer = { f with
        announced := announced
        announces := announces } ∧
      SetMap.Tight announced ∧
      (∀ h p, p ∈ announced.get h ↔
        p ∈ f.announced.get h ∧ ¬ (h ∈ f.announces.get peer ∧ p = peer)) ∧
      ∀ p, announces.find? p = if p = peer then none else f.announces.find? p := by
  unfold dropAnnounces
  cases hann : f.announces.find? peer with
  | none =>
    refine ⟨f.announced, f.announces, rfl, ht, fun h p => ?_, fun p => ?_⟩
    · rw [get_of_find?_none hann]
      simp
    · split
      · next hp => rw [hp, hann]
      · rfl
  | some hashes =>
    have hfold : ∀ (l : List Hash) (f : TxFetcher), l.foldl
        (fun f hash => { f with announced := f.announced.discard hash peer }) f =
        { f with announced := l.foldl (fun m h => SetMap.discard m h peer) f.announced } := by
      intro l
      induction l with
      | nil => exact fun _ => rfl
      | cons h l ih =>
        intro f
        rw [foldl_cons, ih]
        rfl
    dsimp only
    rw [hfold]
    refine ⟨_, _, rfl, ht.foldl_discard, fun h p => ?_, fun p => GoMap.find?_erase _ _ _⟩
    rw [mem_get_foldl_discard, (env.hashes peer).mem, get_of_find? hann]

/-- Nothing that is fetched from somebody else has the peer as an alternate. -/
def TxFetcher.Droppable (f : TxFetcher) (peer : Peer) : Prop :=
  ∀ h q, f.fetching.find? h = some q → q ≠ peer → peer ∉ f.alternates.get h

/-- What is not taken back has the peer as an alternate only if it had before. -/
theorem Released.not_alternate (hf : Staged full f) (hrel : Released (f.inFlight peer) f g)
    (hq : g.InQueues full nobody (· = peer)) (hdrop : f.Droppable peer) (h : Hash) :
    peer ∉ g.alternates.get h := by
  intro hmem
  obtain ⟨q, hfetch⟩ := isSome_iff_exists.mp ((hq.fetching h).mpr ⟨peer, hmem⟩)
  obtain ⟨hne, hold⟩ := (hrel.fetching_iff hf.mem_inFlight h q).mp hfetch
  have hkept : h ∉ f.inFlight peer := fun hh => hne ((hf.mem_inFlight h q hold).mp hh)
  rw [GoMap.get, hrel.alternates h hkept] at hmem
  exact hdrop h q hold hne hmem

/-- The state without a dropped peer, before anything is rescheduled. -/
def TxFetcher.without (env : Env) (f : TxFetcher) (peer : Peer) : TxFetcher :=
  dropAnnounces env (dropRequest (dropWaits env f peer) peer) peer

/-- **A dropped peer leaves no traces of its own**; and if it is not an alternate of somebody else,
none in the sets of the hashes. What is fetched from others stays as it is. -/
theorem without_staged (env : Env) (peer : Peer) (hf : Staged full f)
    (hdrop : full → f.Droppable peer) :
    Staged full (f.without env peer) ∧ (∀ p, (f.without env peer).tracked p ⊆ f.tracked p) ∧
      (f.without env peer).announces.get peer = ∅ ∧
      ∀ h q, f.fetching.find? h = some q → q ≠ peer →
        (f.without env peer).fetching.find? h = some q ∧
          (f.without env peer).alternates.get h = f.alternates.get h := by
  obtain ⟨hf1, hless1, waitlist, waittime, waitslots, heq1⟩ := dropWaits_staged env peer hf
  obtain ⟨g, requests, heq2, hreq, hq, hrel, hann⟩ := dropRequest_released peer hf1
  obtain ⟨announced, announces, heq3, htight, hmem, hannounces⟩ :=
    dropAnnounces_eq env { g with requests := requests } peer hq.announced_tight
  have hdrop1 : full → (dropWaits env f peer).Droppable peer := by
    rw [heq1]
    exact hdrop
  have hget : ∀ p, announces.get p = if p = peer then ∅ else g.announces.get p := by
    intro p
    rw [GoMap.get, GoMap.get, hannounces]
    split <;> rfl
  have hqueues : Queues full nobody nobody announced g.alternates g.fetching announces :=
    { announced_tight := htight
      alternates_tight := hq.alternates_tight
      announces_tight := by
        intro p _
        have hold := hq.announces_tight p id
        grind
      fetching := hq.fetching
      queued := by
        intro h
        refine (hq.queued h).imp_left fun hnone => ?_
        refine eq_empty_of_forall_notMem fun p hp => ?_
        have hold := ((hmem h p).mp hp).1
        rw [hnone] at hold
        exact notMem_empty p hold
      listed := by
        intro p h _ hh
        rw [hget] at hh
        split at hh
        · exact absurd hh (notMem_empty h)
        next hp =>
        refine (hq.listed p h hp hh).imp_left fun hold => ?_
        exact (hmem h p).mpr ⟨hold, fun hboth => hp hboth.2⟩
      traced := by
        intro hfull p h _ hp
        rw [hget]
        split
        · -- the dropped peer itself
          next heq =>
          subst heq
          rcases hp with hp | hp
          · obtain ⟨hold, hnot⟩ := (hmem h p).mp hp
            have hlisted := hf1.queues.traced hfull p h id (hrel.origins h p (.inl hold))
            rw [← hann] at hlisted
            exact absurd ⟨hlisted, rfl⟩ hnot
          · exact absurd hp (Released.not_alternate hf1 hrel hq (hdrop1 hfull) h)
        · next hne =>
          refine hq.traced hfull p h hne (hp.imp_left fun hp => ?_)
          exact ((hmem h p).mp hp).1 }
  have hstaged : Staged full { g with
      requests := requests
      announced := announced
      announces := announces } := by
    refine ⟨?_, hqueues, ?_, ?_⟩
    · rw [hrel.elsewhere.waitlist, hrel.elsewhere.waittime, hrel.elsewhere.waitslots]
      exact hf1.waits
    · rw [hrel.elsewhere.waitlist]
      refine hf1.apart.mono fun h p hp => hrel.origins h p (hp.imp_left fun hp => ?_)
      exact ((hmem h p).mp hp).1
    · refine hf1.owned.close (fun _ _ => False.elim) (hrel.fetching_iff hf1.mem_inFlight)
        (fun q hq => ?_) fun req hreq' => ?_
      · rw [hreq, if_neg hq]
      · rw [hreq, if_pos rfl] at hreq'
        cases hreq'
  have hless : ∀ p, tracked { g with
      requests := requests
      announced := announced
      announces := announces } p ⊆ f.tracked p := by
    intro p
    refine subset_trans (union_subset_union_right ?_) ((hrel.tracked p).trans (hless1 p))
    rw [hget]
    split
    · exact empty_subset _
    · exact subset_rfl
  have hflight : ∀ h q, (dropWaits env f peer).fetching.find? h = some q → q ≠ peer →
      g.fetching.find? h = some q ∧
        g.alternates.get h = (dropWaits env f peer).alternates.get h := by
    intro h q hold hne
    have hkept : h ∉ (dropWaits env f peer).inFlight peer := fun hh =>
      hne ((hf1.mem_inFlight h q hold).mp hh)
    refine ⟨(hrel.fetching_iff hf1.mem_inFlight h q).mpr ⟨hne, hold⟩, ?_⟩
    rw [GoMap.get, hrel.alternates h hkept]
    rfl
  rw [heq1] at hflight
  unfold TxFetcher.without
  rw [heq2, heq3]
  exact ⟨hstaged, hless, (hget peer).trans (if_pos rfl), hflight⟩

theorem drop_next (env : Env) (hf : Staged full f) (hdrop : full → f.Droppable peer) :
    Next full f (f.drop env peer) := by
  obtain ⟨hstaged, hless, -⟩ := without_staged env peer hf hdrop
  unfold drop
  split
  · exact .trans hless (scheduleFetches_next hstaged none)
  · exact .trans hless (.refl hstaged)

/-- **A peer that is an alternate of somebody else** is still listed for the hash after the drop. -/
theorem drop_listed (env : Env) (hf : Staged full f)
    (hfetch : f.fetching.find? h = some q) (hne : q ≠ peer) (hmem : peer ∈ f.alternates.get h) :
    ∃ g, f.drop env peer = .ok g ∧ peer ∈ g.alternates.get h ∧ g.announces.get peer = ∅ := by
  have hweak : Staged False f :=
    { hf with queues := { hf.queues with traced := False.elim } }
  obtain ⟨hstaged, -, hnone, hflight⟩ := without_staged env peer hweak False.elim
  obtain ⟨hfetch', hsame⟩ := hflight h q hfetch hne
  rw [← hsame] at hmem
  unfold drop
  split
  · obtain ⟨g, hg, -, hkept⟩ := scheduleFetches_still hstaged none
    refine ⟨g, hg, ?_, ?_⟩
    · rw [(hkept.flight h q hfetch').2]
      exact hmem
    · rw [hkept.announces]
      exact hnone
  · exact ⟨_, rfl, hmem, hnone⟩

/-! ## §7 — Announcements -/

/-- An announced hash goes to the stage that it is in, or to the waiting list, and counts for its
peer. -/
theorem track_staged (env : Env) (origin : Peer) (hf : Staged full f) (h : Hash) :
    Staged full (track env origin f h) ∧ ∀ p, (track env origin f h).tracked p =
      if p = origin then insert h (f.tracked p) else f.tracked p := by
  have hapart := hf.apart
  unfold track
  by_cases hfetching : (f.alternates.find? h).isSome = true
  · have hmem := hf.queues.isSome_alternates.mp hfetching
    rw [if_pos hfetching]
    refine ⟨⟨hf.waits, hf.queues.track_fetching hmem, fun j => ?_, hf.owned⟩, fun p => ?_⟩
    · have hj := hapart j
      grind [Finset.not_nonempty_empty]
    · rw [tracked, tracked, get_add]
      grind
  rw [if_neg hfetching]
  by_cases hqueued : (f.announced.find? h).isSome = true
  · have hmem := hf.queues.isSome_announced.mp hqueued
    rw [if_pos hqueued]
    refine ⟨⟨hf.waits, hf.queues.track_queued hmem, fun j => ?_, hf.owned⟩, fun p => ?_⟩
    · have hj := hapart j
      grind [Finset.not_nonempty_empty]
    · rw [tracked, tracked, get_add]
      grind
  rw [if_neg hqueued]
  have hnone : f.alternates.get h = ∅ := not_nonempty_iff_eq_empty.mp fun hmem =>
    hfetching (hf.queues.isSome_alternates.mpr hmem)
  have hnone' : f.announced.get h = ∅ := not_nonempty_iff_eq_empty.mp fun hmem =>
    hqueued (hf.queues.isSome_announced.mpr hmem)
  by_cases hwaiting : (f.waitlist.find? h).isSome = true
  · have hmem := (hf.waits.isSome_find? h).mp hwaiting
    rw [if_pos hwaiting]
    refine ⟨⟨hf.waits.add origin hmem, hf.queues, fun j => ?_, hf.owned⟩, fun p => ?_⟩
    · have hj := hapart j
      grind
    · rw [tracked, tracked, get_add]
      grind
  have hempty : f.waitlist.get h = ∅ := not_nonempty_iff_eq_empty.mp fun hmem =>
    hwaiting ((hf.waits.isSome_find? h).mpr hmem)
  rw [if_neg hwaiting]
  refine ⟨⟨hf.waits.start origin _ hempty, hf.queues, fun j => ?_, hf.owned⟩, fun p => ?_⟩
  · have hj := hapart j
    grind
  · rw [tracked, tracked, get_add]
    grind

theorem foldl_track (env : Env) (origin : Peer) (hf : Staged full f) (l : List Hash) :
    Staged full (l.foldl (track env origin) f) ∧ ∀ p, (l.foldl (track env origin) f).tracked p =
      if p = origin then f.tracked p ∪ l.toFinset else f.tracked p := by
  induction l generalizing f with
  | nil =>
    refine ⟨hf, fun p => ?_⟩
    rw [toFinset_nil, union_empty, ite_self]
    rfl
  | cons h l ih =>
    obtain ⟨hstaged, hone⟩ := track_staged env origin hf h
    obtain ⟨hstaged', hrest⟩ := ih hstaged
    rw [foldl_cons]
    refine ⟨hstaged', fun p => ?_⟩
    rw [hrest, hone, toFinset_cons]
    split
    · rw [insert_union, union_insert]
    · rfl

/-- **An announcement** brings its peer the hashes that are left of the batch, and nobody else
anything. -/
theorem notify_staged (env : Env) (origin : Peer) (hashes : List Hash) (hf : Staged full f) :
    ∃ g, f.notify env origin hashes = .ok g ∧ Staged full g ∧ ∀ p, g.tracked p =
      if p = origin ∧ f.used origin < maxTxAnnounces then
        f.tracked p ∪ (truncate (f.used origin) hashes).toFinset
      else f.tracked p := by
  unfold notify
  by_cases hused : f.used origin ≥ maxTxAnnounces
  · rw [if_pos hused]
    refine ⟨f, rfl, hf, fun p => ?_⟩
    rw [if_neg fun hp => Nat.not_lt.mpr hused hp.2]
  rw [if_neg hused]
  obtain ⟨hstaged, htracked⟩ := foldl_track env origin hf (truncate (f.used origin) hashes)
  have hboth : ∀ p, (p = origin ∧ f.used origin < maxTxAnnounces) = (p = origin) := fun p =>
    propext (and_iff_left (Nat.not_le.mp hused))
  simp only [hboth]
  split
  · obtain ⟨g, hg, hstaged', hkept⟩ := scheduleFetches_still hstaged (some {origin})
    exact ⟨g, hg, hstaged', fun p => (hkept.tracked p).trans (htracked p)⟩
  · exact ⟨_, rfl, hstaged, htracked⟩

end MxtChain.Fetcher
