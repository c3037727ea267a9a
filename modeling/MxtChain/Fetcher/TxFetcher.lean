/-
# MxtChain.Fetcher.TxFetcher — the loop of the transaction fetcher.

`mxt/fetcher/tx_fetcher.go`: announced transactions wait for a broadcast, are queued, and are
fetched from one of the peers that announced them. `TxFetcher.loop` is the step function of a state
machine with five kinds of events; each `case` of its `select` is a function here.

What the source leaves open stands in `Env`: the order of each `range` over a map, and the clock,
which may be read anew for each hash and each peer. The timers are left out, so that a trigger may
come at any time. Metrics and logs are left out.

Sets of peers are never nil in the maps. Where the code would store one, the model stops with
`Fault.nilMap`; it is a result that this does not happen. No two entries share a set: where one is
moved from a map to another, the old entry is deleted in the same case.
-/
import MxtChain.Common.Types
import MxtChain.Lib.SetMap

namespace MxtChain.Fetcher

open Lib

/-! ## §1 — State -/

def maxTxAnnounces : Nat := 4096

def maxTxRetrievals : Nat := 256

/-- `mclock.AbsTime`, in nanoseconds -/
abbrev AbsTime := Int

def txArriveTimeout : AbsTime := 500000000

def txGatherSlack : AbsTime := 100000000

def txFetchTimeout : AbsTime := 5000000000

abbrev Peer := String

/-- `txRequest`. A timed-out request has no hashes and stays. -/
structure TxRequest where
  hashes : List Hash
  stolen : Finset Hash
  time : AbsTime
  deriving Inhabited

structure TxFetcher where
  waitlist : SetMap Hash Peer
  waittime : GoMap Hash AbsTime
  waitslots : SetMap Peer Hash
  announces : SetMap Peer Hash
  announced : SetMap Hash Peer
  fetching : GoMap Hash Peer
  requests : GoMap Peer TxRequest
  alternates : SetMap Hash Peer

def NewTxFetcher : TxFetcher :=
  ⟨.empty, .empty, .empty, .empty, .empty, .empty, .empty, .empty⟩

/-- The ways in which the loop can break down. -/
inductive Fault where
  /-- announce tracker already contains waitlist item -/
  | announcedWaiting
  /-- announced tracker already contains alternate item -/
  | announcedAlternate
  /-- alternate tracker already contains fetching item -/
  | alternateFetching
  /-- nil pointer dereference: no request of the peer a hash is fetched from -/
  | nilRequest
  /-- a nil map is stored as a set of peers -/
  | nilMap
  deriving DecidableEq

/-- An order to go through sets in. -/
structure Order (α : Type) where
  list : Finset α → List α
  nodup : ∀ s, (list s).Nodup
  mem : ∀ s a, a ∈ list s ↔ a ∈ s

/-- What is left open in one round of the loop: the orders of its `range` loops, and what the clock
shows when a hash or a peer comes up. -/
structure Env where
  peers : Order Peer
  requests : Order Peer
  waits : Order Hash
  hashes : Peer → Order Hash
  located : Hash → Order Peer
  clock : Hash → AbsTime
  clockOf : Peer → AbsTime

/-- What the loop waits for. -/
inductive Event where
  | notify (origin : Peer) (hashes : List Hash)
  | waitTrigger
  | timeoutTrigger
  | cleanup (origin : Peer) (hashes : List Hash) (direct : Bool)
  | drop (peer : Peer)

namespace TxFetcher

/-! ## §2 — `scheduleFetches` -/

/-- The `forEachHash` of `scheduleFetches`: hashes that are not being fetched are allocated to the
peer, up to `maxTxRetrievals`. -/
def pick (peer : Peer) : List Hash → TxFetcher → List Hash → Except Fault (TxFetcher × List Hash)
  | [], f, hashes => .ok (f, hashes)
  | hash :: rest, f, hashes =>
    if (f.fetching.find? hash).isSome then pick peer rest f hashes
    else if (f.alternates.find? hash).isSome then .error .alternateFetching
    else
      match f.announced.find? hash with
      | none => .error .nilMap
      | some origins =>
        let f := { f with
          fetching := f.fetching.insert hash peer
          alternates := f.alternates.insert hash origins
          announced := f.announced.erase hash }
        let hashes := hashes ++ [hash]
        if hashes.length ≥ maxTxRetrievals then .ok (f, hashes) else pick peer rest f hashes

/-- The `forEachPeer` of `scheduleFetches`: an idle peer is sent a request. -/
def scheduleFetch (env : Env) (f : TxFetcher) (peer : Peer) : Except Fault TxFetcher :=
  if (f.requests.find? peer).isSome then .ok f
  else if (f.announces.get peer).card = 0 then .ok f
  else
    match pick peer ((env.hashes peer).list (f.announces.get peer)) f [] with
    | .error e => .error e
    | .ok (f, hashes) =>
      if hashes.length > 0 then
        .ok { f with requests := f.requests.insert peer ⟨hashes, ∅, env.clockOf peer⟩ }
      else .ok f

/-- `scheduleFetches`; no whitelist is all peers. -/
def scheduleFetches (env : Env) (f : TxFetcher) (whitelist : Option (Finset Peer)) :
    Except Fault TxFetcher :=
  (env.peers.list (whitelist.getD f.announces.keys.toFinset)).foldlM (scheduleFetch env) f

/-! ## §3 — Announcements -/

/-- `len(f.waitslots[peer]) + len(f.announces[peer])` -/
def used (f : TxFetcher) (peer : Peer) : Nat :=
  (f.waitslots.get peer).card + (f.announces.get peer).card

/-- What is left of a batch of hashes. -/
def truncate (used : Nat) (hashes : List Hash) : List Hash :=
  if used + hashes.length > maxTxAnnounces then
    hashes.take (used + hashes.length - maxTxAnnounces)
  else hashes

/-- One hash that a peer announces. -/
def track (env : Env) (origin : Peer) (f : TxFetcher) (hash : Hash) : TxFetcher :=
  if (f.alternates.find? hash).isSome then
    { f with
      alternates := f.alternates.add hash origin
      announces := f.announces.add origin hash }
  else if (f.announced.find? hash).isSome then
    { f with
      announced := f.announced.add hash origin
      announces := f.announces.add origin hash }
  else if (f.waitlist.find? hash).isSome then
    { f with
      waitlist := f.waitlist.add hash origin
      waitslots := f.waitslots.add origin hash }
  else
    { f with
      waitlist := f.waitlist.insert hash {origin}
      waittime := f.waittime.insert hash (env.clock hash)
      waitslots := f.waitslots.add origin hash }

/-- `case ann := <-f.notify` -/
def notify (env : Env) (f : TxFetcher) (origin : Peer) (hashes : List Hash) :
    Except Fault TxFetcher :=
  if f.used origin ≥ maxTxAnnounces then .ok f
  else
    let oldPeer := (f.announces.find? origin).isSome
    let f := (truncate (f.used origin) hashes).foldl (track env origin) f
    if !oldPeer ∧ (f.announces.get origin).card > 0 then scheduleFetches env f (some {origin})
    else .ok f

/-! ## §4 — Triggers -/

/-- A hash that is moved to the queue is accounted for one of its peers. -/
def moveSlot (hash : Hash) (f : TxFetcher) (peer : Peer) : TxFetcher :=
  { f with
    announces := f.announces.add peer hash
    waitslots := f.waitslots.discard peer hash }

/-- One hash of the waiting list; with the peers that become active. -/
def expire (env : Env) (acc : TxFetcher × Finset Peer) (hash : Hash) :
    Except Fault (TxFetcher × Finset Peer) :=
  let f := acc.1
  if env.clock hash - f.waittime.get hash + txGatherSlack > txArriveTimeout then
    if (f.announced.find? hash).isSome then .error .announcedWaiting
    else
      match f.waitlist.find? hash with
      | none => .error .nilMap
      | some origins =>
        let f := ((env.located hash).list origins).foldl (moveSlot hash)
          { f with announced := f.announced.insert hash origins }
        .ok ({ f with
          waittime := f.waittime.erase hash
          waitlist := f.waitlist.erase hash }, acc.2 ∪ origins)
  else .ok acc

/-- `case <-waitTrigger` -/
def waitTrigger (env : Env) (f : TxFetcher) : Except Fault TxFetcher :=
  match (env.waits.list f.waittime.keys.toFinset).foldlM (expire env) (f, ∅) with
  | .error e => .error e
  | .ok (f, actives) => if actives.card > 0 then scheduleFetches env f (some actives) else .ok f

/-- A hash of a timed-out request goes back to the queue, without the peer. -/
def reschedule (peer : Peer) (stolen : Finset Hash) (f : TxFetcher) (hash : Hash) :
    Except Fault TxFetcher :=
  if hash ∈ stolen then .ok f
  else if (f.announced.find? hash).isSome then .error .announcedAlternate
  else
    let announced :=
      match f.alternates.find? hash with
      | some origins => f.announced.insert hash origins
      | none => f.announced
    .ok { f with
      announced := SetMap.discard announced hash peer
      announces := f.announces.remove peer hash
      alternates := f.alternates.erase hash
      fetching := f.fetching.erase hash }

/-- One request; a timed-out one is kept as dangling. -/
def expireRequest (env : Env) (f : TxFetcher) (peer : Peer) : Except Fault TxFetcher :=
  match f.requests.find? peer with
  | none => .ok f
  | some req =>
    if env.clockOf peer - req.time + txGatherSlack > txFetchTimeout then
      match req.hashes.foldlM (reschedule peer req.stolen) f with
      | .error e => .error e
      | .ok f =>
        .ok { f with
          announces := f.announces.prune peer
          requests := f.requests.insert peer { req with hashes := [] } }
    else .ok f

/-- `case <-timeoutTrigger` -/
def timeoutTrigger (env : Env) (f : TxFetcher) : Except Fault TxFetcher :=
  match (env.requests.list f.requests.keys.toFinset).foldlM (expireRequest env) f with
  | .error e => .error e
  | .ok f => scheduleFetches env f none

/-! ## §5 — Deliveries -/

/-- All traces of a delivered hash are removed; if it is being fetched from somebody else, the
delivery is stolen. -/
def forget (origin : Peer) (direct : Bool) (f : TxFetcher) (hash : Hash) : Except Fault TxFetcher :=
  if (f.waitlist.find? hash).isSome then
    .ok { f with
      waitslots := f.waitslots.scrub hash
      waitlist := f.waitlist.erase hash
      waittime := f.waittime.erase hash }
  else
    let f := { f with
      announces := f.announces.scrub hash
      announced := f.announced.erase hash
      alternates := f.alternates.erase hash }
    match f.fetching.find? hash with
    | none => .ok { f with fetching := f.fetching.erase hash }
    | some source =>
      if source ≠ origin ∨ direct = false then
        match f.requests.find? source with
        | none => .error .nilRequest
        | some req =>
          .ok { f with
            requests := f.requests.insert source { req with stolen := insert hash req.stolen }
            fetching := f.fetching.erase hash }
      else .ok { f with fetching := f.fetching.erase hash }

/-- The index of the last hash that was delivered; if there is none, the number of hashes. -/
def cutoff (hashes delivered : List Hash) : Nat :=
  hashes.zipIdx.foldl (fun cutoff p => if p.1 ∈ delivered then p.2 else cutoff) hashes.length

/-- A hash of an answered request that was not delivered goes back to the queue, without the peer if
it stands before the cutoff. -/
def requeue (origin : Peer) (stolen : Finset Hash) (delivered : List Hash) (cutoff : Nat)
    (f : TxFetcher) (p : Hash × Nat) : Except Fault TxFetcher :=
  let hash := p.1
  if hash ∈ stolen then .ok f
  else if hash ∈ delivered then
    .ok { f with
      alternates := f.alternates.erase hash
      fetching := f.fetching.erase hash }
  else
    let f := if p.2 < cutoff then
        { f with
          alternates := f.alternates.remove hash origin
          announces := f.announces.discard origin hash }
      else f
    if (f.alternates.get hash).card > 0 then
      if (f.announced.find? hash).isSome then .error .announcedAlternate
      else
        .ok { f with
          announced := f.announced.insert hash (f.alternates.get hash)
          alternates := f.alternates.erase hash
          fetching := f.fetching.erase hash }
    else
      .ok { f with
        alternates := f.alternates.erase hash
        fetching := f.fetching.erase hash }

/-- `case delivery := <-f.cleanup` -/
def cleanup (env : Env) (f : TxFetcher) (origin : Peer) (hashes : List Hash) (direct : Bool) :
    Except Fault TxFetcher :=
  match hashes.foldlM (forget origin direct) f with
  | .error e => .error e
  | .ok f =>
    if direct = false then .ok f
    else
      match f.requests.find? origin with
      -- unexpected transaction delivery
      | none => .ok f
      | some req =>
        match req.hashes.zipIdx.foldlM
            (requeue origin req.stolen hashes (cutoff req.hashes hashes))
            { f with requests := f.requests.erase origin } with
        | .error e => .error e
        | .ok f => scheduleFetches env f none

/-! ## §6 — Drops -/

/-- A dropped peer does not wait for a hash any more. -/
def unwait (peer : Peer) (f : TxFetcher) (hash : Hash) : TxFetcher :=
  let waitlist := f.waitlist.remove hash peer
  if (waitlist.get hash).card = 0 then
    { f with
      waitlist := waitlist.erase hash
      waittime := f.waittime.erase hash }
  else { f with waitlist := waitlist }

/-- An undelivered hash of the request of a dropped peer goes back to the queue if it has another
origin. -/
def abandon (peer : Peer) (stolen : Finset Hash) (f : TxFetcher) (hash : Hash) : TxFetcher :=
  if hash ∈ stolen then f
  else
    let alternates := f.alternates.remove hash peer
    if (alternates.get hash).card = 0 then
      { f with
        alternates := alternates.erase hash
        fetching := f.fetching.erase hash }
    else
      { f with
        announced := f.announced.insert hash (alternates.get hash)
        alternates := alternates.erase hash
        fetching := f.fetching.erase hash }

/-- The waiting list without a dropped peer. -/
def dropWaits (env : Env) (f : TxFetcher) (peer : Peer) : TxFetcher :=
  match f.waitslots.find? peer with
  | none => f
  | some slots =>
    let f := ((env.hashes peer).list slots).foldl (unwait peer) f
    { f with waitslots := f.waitslots.erase peer }

def dropRequest (f : TxFetcher) (peer : Peer) : TxFetcher :=
  match f.requests.find? peer with
  | none => f
  | some req =>
    let f := req.hashes.foldl (abandon peer req.stolen) f
    { f with requests := f.requests.erase peer }

/-- The announcements of a dropped peer. -/
def dropAnnounces (env : Env) (f : TxFetcher) (peer : Peer) : TxFetcher :=
  match f.announces.find? peer with
  | none => f
  | some hashes =>
    let f := ((env.hashes peer).list hashes).foldl
      (fun f hash => { f with announced := f.announced.discard hash peer }) f
    { f with announces := f.announces.erase peer }

/-- `case drop := <-f.drop` -/
def drop (env : Env) (f : TxFetcher) (peer : Peer) : Except Fault TxFetcher :=
  let g := dropAnnounces env (dropRequest (dropWaits env f peer) peer) peer
  if (f.requests.find? peer).isSome then scheduleFetches env g none else .ok g

/-! ## §7 — The loop -/

/-- One round of `loop`. -/
def step (env : Env) (f : TxFetcher) : Event → Except Fault TxFetcher
  | .notify origin hashes => f.notify env origin hashes
  | .waitTrigger => f.waitTrigger env
  | .timeoutTrigger => f.timeoutTrigger env
  | .cleanup origin hashes direct => f.cleanup env origin hashes direct
  | .drop peer => f.drop env peer

/-- `loop`, over a sequence of events. -/
def loop (f : TxFetcher) (events : List (Env × Event)) : Except Fault TxFetcher :=
  events.foldlM (fun f e => f.step e.1 e.2) f

end TxFetcher

end MxtChain.Fetcher
