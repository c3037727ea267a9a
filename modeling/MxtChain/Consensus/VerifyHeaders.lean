/-
# MxtChain.Consensus.VerifyHeaders — headers verified by a pool of workers.

`VerifyHeaders` of `consensus/odfash/consensus.go` starts workers that take indices from the
channel `inputs`, verify the header there and report the index on the channel `done`; a dispatcher
hands out the indices, ticks off what is reported, and sends the longest finished run of results to
the caller. The model has one step per communication and per access to the shared slice `errors`,
in any order (`Step`). `inputs` has no buffer, so handing out an index is one step of the
dispatcher and a waiting worker; `done` holds as many indices as there are workers, and the channel
of results as many as there are headers.

An index that was handed out is in exactly one place (`Inv.place`), and a result is in `errors`
before its index is reported (`Inv.errors_eq`). That gives the order of the results; and as every
step brings a measure down (`cost`), everyone is done in the end.
-/
import MxtChain.Consensus.Header
import MxtChain.Lib.Transition

namespace MxtChain.Consensus

open Lib.Transition List Function

/-! ## §1 — the code. -/

/-- A header and whether its seal is to be verified. -/
abbrev Batch := List (Header × Bool)

def verifyHeaderWorker (hash : Header → Hash) (E : Engine)
    (GetHeader : Hash → UInt64 → Option Header) (headers : Batch) (index : Nat) :
    Option VerifyErr :=
  match headers[index]? with
  | none => none
  | some (header, withSeal) =>
    let parent :=
      if index = 0 then GetHeader header.parentHash (header.numberU64 - 1)
      else
        match headers[index - 1]? with
        | none => none
        | some (previous, _) => if hash previous = header.parentHash then some previous else none
    match parent with
    | none => some .unknownAncestor
    | some parent =>
      if (GetHeader (hash header) header.numberU64).isSome then none -- known block
      else verifyHeader hash E header parent false withSeal

/-- Where a worker is in its loop. -/
inductive Worker where
  /-- waits for an index -/
  | idle
  /-- verifies the header at an index -/
  | working (index : Nat)
  /-- sends an index to `done` -/
  | reporting (index : Nat)
  /-- has seen `inputs` closed -/
  | exited
  deriving DecidableEq

/-- Where the dispatcher is. -/
inductive Phase where
  /-- in its `select` -/
  | selecting
  /-- in the loop that sends results -/
  | draining
  /-- has returned, and closed `inputs` -/
  | returned
  deriving DecidableEq

/-- The state of one call of `VerifyHeaders`, and what its caller has received. -/
structure Pool where
  next : Nat
  out : Nat
  checked : Nat → Bool
  phase : Phase
  workers : List Worker
  done : List Nat
  errors : Nat → Option VerifyErr
  errorsOut : List (Option VerifyErr)
  results : List (Option VerifyErr)

/-- The state in which `VerifyHeaders` returns to its caller. -/
def VerifyHeaders (E : Engine) (headers : Batch) (procs : Nat) : Pool :=
  if E.mode = .ModeFullFake ∨ headers.length = 0 then
    ⟨0, 0, fun _ => false, .returned, [], [], fun _ => none, replicate headers.length none, []⟩
  else
    ⟨0, 0, fun _ => false, .selecting, replicate (min procs headers.length) .idle, [],
      fun _ => none, [], []⟩

/-- One step, of the dispatcher, a worker, or the caller. -/
inductive Step (n : Nat) (verify : Nat → Option VerifyErr) : Pool → Pool → Prop
  /-- an index is handed to a waiting worker -/
  | send {s : Pool} {l r : List Worker} : s.phase = .selecting → s.next < n →
      s.workers = l ++ .idle :: r →
      Step n verify s { s with next := s.next + 1, workers := l ++ .working s.next :: r }
  /-- a worker has verified a header -/
  | verified {s : Pool} {l r : List Worker} {k : Nat} : s.workers = l ++ .working k :: r →
      Step n verify s { s with
        errors := update s.errors k (verify k)
        workers := l ++ .reporting k :: r }
  /-- a worker reports -/
  | report {s : Pool} {l r : List Worker} {k : Nat} : s.workers = l ++ .reporting k :: r →
      s.done.length < s.workers.length →
      Step n verify s { s with done := s.done ++ [k], workers := l ++ .idle :: r }
  /-- the dispatcher ticks an index off -/
  | receive {s : Pool} {k : Nat} {rest : List Nat} : s.phase = .selecting → s.done = k :: rest →
      Step n verify s { s with
        checked := update s.checked k true
        phase := .draining
        done := rest }
  /-- the dispatcher sends a result that is not the last one -/
  | result {s : Pool} : s.phase = .draining → s.checked s.out = true → s.errorsOut.length < n →
      s.out ≠ n - 1 →
      Step n verify s { s with errorsOut := s.errorsOut ++ [s.errors s.out], out := s.out + 1 }
  /-- the dispatcher sends the last result and returns -/
  | last {s : Pool} : s.phase = .draining → s.checked s.out = true → s.errorsOut.length < n →
      s.out = n - 1 →
      Step n verify s { s with errorsOut := s.errorsOut ++ [s.errors s.out], phase := .returned }
  /-- the dispatcher has sent all results it can -/
  | drained {s : Pool} : s.phase = .draining → s.checked s.out = false →
      Step n verify s { s with phase := .selecting }
  /-- a waiting worker sees `inputs` closed -/
  | exit {s : Pool} {l r : List Worker} : s.phase = .returned → s.workers = l ++ .idle :: r →
      Step n verify s { s with workers := l ++ .exited :: r }
  /-- the caller receives a result -/
  | consume {s : Pool} {e : Option VerifyErr} {rest : List (Option VerifyErr)} :
      s.errorsOut = e :: rest →
      Step n verify s { s with errorsOut := rest, results := s.results ++ [e] }

/-- Everyone is done, and the caller has all results, in the order of the headers. -/
structure Finished (n : Nat) (verify : Nat → Option VerifyErr) (s : Pool) : Prop where
  results : s.results = (range n).map verify
  received : s.errorsOut = []
  returned : s.phase = .returned
  exited : ∀ w ∈ s.workers, w = .exited

/-! ## §2 — where an index is. -/

/-- A worker has the index `k`. -/
def Worker.holds (k : Nat) : Worker → Bool
  | .working i => i = k
  | .reporting i => i = k
  | _ => false

/-- In how many places the index `k` is: with a worker, in `done`, ticked off. -/
def places (s : Pool) (k : Nat) : Nat :=
  s.workers.countP (Worker.holds k) + s.done.count k + (if s.checked k then 1 else 0)

/-- How many results were sent: up to `out`, and all of them in the end. -/
def sent (n : Nat) (s : Pool) : Nat := if s.phase = .returned then n else s.out

/-- What holds throughout a call with `n` headers. -/
structure Inv (n : Nat) (verify : Nat → Option VerifyErr) (s : Pool) : Prop where
  next_le : s.next ≤ n
  /-- an index that was handed out is in exactly one place -/
  place : ∀ k, places s k = if k < s.next then 1 else 0
  /-- a result is there before its index is reported -/
  errors_eq : ∀ k, (.reporting k ∈ s.workers ∨ k ∈ s.done ∨ s.checked k = true) →
    s.errors k = verify k
  sent_eq : s.results ++ s.errorsOut = (range (sent n s)).map verify
  sent_checked : ∀ k < sent n s, s.checked k = true
  out_lt : s.phase ≠ .returned → s.out < n
  waits : s.phase = .selecting → s.checked s.out = false
  running : s.phase ≠ .returned → .exited ∉ s.workers ∧ s.workers ≠ []

section
variable {n : Nat} {verify : Nat → Option VerifyErr} {s t : Pool}

theorem places_of_workers {l r : List Worker} {w : Worker} (h : s.workers = l ++ w :: r)
    (k : Nat) : places s k = l.countP (Worker.holds k) + r.countP (Worker.holds k) +
      (if w.holds k then 1 else 0) + s.done.count k + (if s.checked k then 1 else 0) := by
  simp only [places, h, countP_append, countP_cons]
  omega

/-- What was sent is what the caller has received and what is still in the channel. -/
theorem Inv.length_sent (h : Inv n verify s) :
    s.results.length + s.errorsOut.length = sent n s := by
  have := congrArg length h.sent_eq
  simpa using this

/-- **Every step keeps the invariant.** -/
theorem inv_step (h : Inv n verify s) (hst : Step n verify s t) : Inv n verify t := by
  obtain ⟨hnext, hplace, herr, hsent, hchk, hout, hwait, hrun⟩ := h
  cases hst with
  | send hphase hlt hw =>
    refine ⟨hlt, ?_, ?_, hsent, hchk, hout, hwait, ?_⟩
    · intro k
      have hk := hplace k
      rw [places_of_workers hw] at hk
      rw [places_of_workers (s := { s with next := s.next + 1, workers := _ }) rfl]
      simp only [Worker.holds, decide_eq_true_eq] at hk ⊢
      split_ifs at hk ⊢ <;> first | omega | simp_all
    · intro k hk
      refine herr k (hk.imp (fun hm => ?_) id)
      rw [hw]
      simpa using hm
    · intro hne
      have := hrun hne
      rw [hw] at this
      simpa using this
  | verified hw =>
    rename_i l r i
    refine ⟨hnext, ?_, ?_, hsent, hchk, hout, hwait, ?_⟩
    · intro k
      have hk := hplace k
      rw [places_of_workers hw] at hk
      rw [places_of_workers (s := { s with errors := _, workers := _ }) rfl]
      exact hk
    · intro k hk
      by_cases hki : k = i
      · subst hki
        exact update_self ..
      simp only [update_of_ne hki]
      refine herr k (hk.imp (fun hm => ?_) id)
      rw [hw]
      simpa [hki] using hm
    · intro hne
      have := hrun hne
      rw [hw] at this
      simpa using this
  | report hw hcap =>
    refine ⟨hnext, ?_, ?_, hsent, hchk, hout, hwait, ?_⟩
    · intro k
      have hk := hplace k
      rw [places_of_workers hw] at hk
      rw [places_of_workers (s := { s with done := _, workers := _ }) rfl]
      simp only [Worker.holds, decide_eq_true_eq, count_append, count_singleton, beq_iff_eq] at hk ⊢
      split_ifs at hk ⊢ <;> first | omega | simp_all
    · intro k hk
      apply herr
      rw [hw]
      simp only [mem_append, mem_cons, not_mem_nil, or_false, reduceCtorEq,
        false_or, Worker.reporting.injEq] at hk ⊢
      tauto
    · intro hne
      have := hrun hne
      rw [hw] at this
      simpa using this
  | receive hphase hdone =>
    rename_i i rest
    have hsame : sent n { s with
        checked := update s.checked i true, phase := .draining, done := rest } =
        sent n s := by simp [sent, hphase]
    refine ⟨hnext, ?_, ?_, by rw [hsame]; exact hsent, ?_, fun _ => hout (by simp [hphase]),
      by simp, fun _ => hrun (by simp [hphase])⟩
    · intro k
      have hk := hplace k
      simp only [places, hdone, count_cons, beq_iff_eq] at hk ⊢
      by_cases hki : k = i
      · subst hki
        simp only [if_true, update_self] at hk ⊢
        split_ifs at hk ⊢ <;> omega
      · simp only [Ne.symm hki, if_false, update_of_ne hki] at hk ⊢
        omega
    · intro k hk
      apply herr
      rw [hdone]
      by_cases hki : k = i
      · simp [hki]
      simp only [update_of_ne hki] at hk
      simp only [mem_cons, hki, false_or]
      exact hk
    · rw [hsame]
      intro k hk
      by_cases hki : k = i
      · subst hki
        exact update_self ..
      · simp only [update_of_ne hki]
        exact hchk k hk
  | result hphase hck hcap hne =>
    have hlt := hout (by simp [hphase])
    have hs : sent n s = s.out := by simp [sent, hphase]
    have hs' : sent n { s with
        errorsOut := s.errorsOut ++ [s.errors s.out], out := s.out + 1 } = s.out + 1 := by
      simp [sent, hphase]
    rw [hs] at hsent hchk
    refine ⟨hnext, hplace, herr, ?_, ?_, fun _ => by simp only; omega, by simp [hphase], hrun⟩
    · rw [hs', range_succ, map_append, ← hsent, append_assoc, herr s.out (.inr (.inr hck))]
      rfl
    · rw [hs']
      intro k hk
      rcases Nat.lt_succ_iff_lt_or_eq.mp hk with hk | rfl
      · exact hchk k hk
      · exact hck
  | last hphase hck hcap heq =>
    have hs : sent n s = s.out := by simp [sent, hphase]
    have hn : n = s.out + 1 := by omega
    rw [hs] at hsent hchk
    refine ⟨hnext, hplace, herr, ?_, ?_, by simp, by simp, by simp⟩
    · simp only [sent, if_true]
      rw [hn, range_succ, map_append, ← hsent, append_assoc, herr s.out (.inr (.inr hck))]
      rfl
    · intro k hk
      rw [hn] at hk
      rcases Nat.lt_succ_iff_lt_or_eq.mp hk with hk | rfl
      · exact hchk k hk
      · exact hck
  | drained hphase hck =>
    have hsame : sent n { s with phase := .selecting } = sent n s := by simp [sent, hphase]
    exact ⟨hnext, hplace, herr, by rw [hsame]; exact hsent, by rw [hsame]; exact hchk,
      fun _ => hout (by simp [hphase]), fun _ => hck, fun _ => hrun (by simp [hphase])⟩
  | exit hphase hw =>
    refine ⟨hnext, ?_, ?_, hsent, hchk, by simp [hphase], by simp [hphase], by simp [hphase]⟩
    · intro k
      have hk := hplace k
      rw [places_of_workers hw] at hk
      rw [places_of_workers (s := { s with workers := _ }) rfl]
      exact hk
    · intro k hk
      refine herr k (hk.imp (fun hm => ?_) id)
      rw [hw]
      simpa using hm
  | consume hout' =>
    refine ⟨hnext, hplace, herr, ?_, hchk, hout, hwait, hrun⟩
    rw [hout'] at hsent
    simp only [append_assoc, singleton_append]
    exact hsent

/-! ## §3 — everyone is done in the end. -/

/-- What a worker has ahead of it. -/
def Worker.cost : Worker → Nat
  | .idle => 1
  | .working _ => 5
  | .reporting _ => 4
  | .exited => 0

/-- The steps that are left, at most. -/
def cost (n : Nat) (s : Pool) : Nat :=
  5 * (n - s.next) + (s.workers.map Worker.cost).sum + 2 * s.done.length +
    (if s.phase = .draining then 1 else 0) +
    2 * (n - (s.results.length + s.errorsOut.length)) + s.errorsOut.length

theorem cost_step (h : Inv n verify s) (hst : Step n verify s t) : cost n t < cost n s := by
  have hlen := h.length_sent
  cases hst with
  | send hphase hlt hw | verified hw =>
    simp only [cost, hw, map_append, map_cons, sum_append, sum_cons, Worker.cost]
    omega
  | report hw hcap =>
    simp only [cost, hw, map_append, map_cons, sum_append, sum_cons,
      Worker.cost, length_append, length_singleton]
    omega
  | receive hphase hdone =>
    simp only [cost, hphase, hdone, length_cons, reduceCtorEq, if_false, if_true]
    omega
  | result hphase hck hcap hne =>
    have hlt := h.out_lt (by simp [hphase])
    have hs : sent n s = s.out := by simp [sent, hphase]
    simp only [cost, length_append, length_singleton]
    omega
  | last hphase hck hcap heq =>
    have hs : sent n s = s.out := by simp [sent, hphase]
    simp only [cost, hphase, length_append, length_singleton, reduceCtorEq, if_false, if_true]
    omega
  | drained hphase hck =>
    simp only [cost, hphase, reduceCtorEq, if_false, if_true]
    omega
  | exit hphase hw =>
    simp only [cost, hw, map_append, map_cons, sum_append, sum_cons, Worker.cost]
    omega
  | consume hout =>
    simp only [cost, hout, length_append, length_cons]
    omega

/-- An index with a worker is neither in `done` nor ticked off. -/
theorem Inv.held (h : Inv n verify s) {w : Worker} (hw : w ∈ s.workers) {k : Nat}
    (hk : w.holds k = true) : k < s.next ∧ s.checked k = false := by
  obtain ⟨l, r, hlr⟩ := append_of_mem hw
  have hp := h.place k
  rw [places_of_workers hlr, hk] at hp
  constructor
  · by_contra hc
    rw [if_neg hc] at hp
    simp at hp
  · cases hck : s.checked k with
    | false => rfl
    | true =>
      simp only [hck, if_true] at hp
      split_ifs at hp
      omega

/-- **Somebody can go on** until everyone is done. -/
theorem progress (h : Inv n verify s) (hne : ¬ Finished n verify s) : ∃ t, Step n verify s t := by
  cases hphase : s.phase with
  | draining =>
    have hlt := h.out_lt (by simp [hphase])
    have hs : sent n s = s.out := by simp [sent, hphase]
    have hlen := h.length_sent
    cases hck : s.checked s.out with
    | false => exact ⟨_, .drained hphase hck⟩
    | true =>
      by_cases hlast : s.out = n - 1
      · exact ⟨_, .last hphase hck (by omega) hlast⟩
      · exact ⟨_, .result hphase hck (by omega) hlast⟩
  | returned =>
    have hs : sent n s = n := by simp [sent, hphase]
    cases hout : s.errorsOut with
    | cons e rest => exact ⟨_, .consume hout⟩
    | nil =>
      by_cases hidle : .idle ∈ s.workers
      · obtain ⟨l, r, hw⟩ := append_of_mem hidle
        exact ⟨_, .exit hphase hw⟩
      refine absurd ⟨?_, hout, hphase, ?_⟩ hne
      · have hsent := h.sent_eq
        rwa [hout, append_nil, hs] at hsent
      · intro w hw
        have hbusy : ∀ k, w.holds k = false := by
          intro k
          by_contra hc
          obtain ⟨hlt, hck⟩ := h.held hw (by simpa using hc)
          have hle := h.next_le
          rw [h.sent_checked k (by omega)] at hck
          cases hck
        cases w with
        | exited => rfl
        | idle => exact absurd hw hidle
        | working k | reporting k => simpa [Worker.holds] using hbusy k
  | selecting =>
    obtain ⟨hexit, hsome⟩ := h.running (by simp [hphase])
    cases hdone : s.done with
    | cons k rest => exact ⟨_, .receive hphase hdone⟩
    | nil =>
      by_cases hidle : ∀ w ∈ s.workers, w = .idle
      · by_cases hlt : s.next < n
        · obtain ⟨w, ws, hw⟩ := exists_cons_of_ne_nil hsome
          have hwi := hidle w (by simp [hw])
          subst hwi
          exact ⟨_, .send hphase hlt (l := []) hw⟩
        -- all indices are handed out and none is on its way, so the next result is there
        have hnone : s.workers.countP (Worker.holds s.out) = 0 := by
          rw [countP_eq_zero]
          intro w hw
          rw [hidle w hw]
          simp [Worker.holds]
        have hlt' := h.out_lt (by simp [hphase])
        have hp := h.place s.out
        rw [places, hnone, hdone, h.waits hphase, if_pos (show s.out < s.next by omega)] at hp
        simp at hp
      · push Not at hidle
        obtain ⟨w, hw, hwi⟩ := hidle
        obtain ⟨l, r, hlr⟩ := append_of_mem hw
        cases w with
        | idle => exact absurd rfl hwi
        | exited => exact absurd hw hexit
        | working k => exact ⟨_, .verified hlr⟩
        | reporting k =>
          refine ⟨_, .report hlr ?_⟩
          rw [hdone, hlr]
          simp

end

/-! ## §4 — every batch, every scheduling. -/

theorem inv_init {E : Engine} {headers : Batch} {procs : Nat} {verify : Nat → Option VerifyErr}
    (hmode : E.mode ≠ .ModeFullFake) (hprocs : 1 ≤ procs) :
    Inv headers.length verify (VerifyHeaders E headers procs) := by
  unfold VerifyHeaders
  by_cases hzero : headers.length = 0
  · constructor <;> simp [places, sent, hzero]
  rw [if_neg (by simp [hmode, hzero])]
  constructor
  · simp
  · intro k
    have hidle : (replicate (min procs headers.length) Worker.idle).countP
        (Worker.holds k) = 0 := by
      rw [countP_eq_zero]
      intro w hw
      rw [eq_of_mem_replicate hw]
      simp [Worker.holds]
    simp [places, hidle]
  · simp
  · simp [sent]
  · simp [sent]
  · intro _
    simp only
    omega
  · simp
  · intro _
    simp only [mem_replicate, ne_eq, replicate_eq_nil_iff, reduceCtorEq, and_false,
      not_false_eq_true, true_and]
    omega

/-- A header whose parent nobody knows. -/
def orphanBatch : Batch := [({ number := 5 }, false)]

end MxtChain.Consensus
