/-
# MxtChain.Les.FlowControl — the parameter schedule of a client node

`les/flowcontrol`: a server lowers the parameters of a client only after `DecParamDelay`; until then
they wait in `updateSchedule`. Times are nanoseconds. Of the client manager, which keeps books on all
nodes, only what it assigns to the node is here.
-/
import Mathlib.Data.List.TakeWhile
import Mathlib.Algebra.Order.Ring.Nat

namespace MxtChain.Les

open List

/-! ## §1 — the code. -/

structure ServerParams where
  BufLimit : UInt64
  MinRecharge : UInt64

structure ScheduledUpdate where
  time : Int
  params : ServerParams

def fcTimeConst : UInt64 := 1000000
def DecParamDelay : Int := 2000000000

structure ClientNode where
  params : ServerParams
  bufValue : Int64
  lastTime : Int
  updateSchedule : List ScheduledUpdate

def NewClientNode (params : ServerParams) (now : Int) : ClientNode :=
  ⟨params, params.BufLimit.toInt64, now, []⟩

/-- An entry that the loop of `UpdateParams` passes over. -/
def passes (params : ServerParams) (s : ScheduledUpdate) : Bool :=
  params.MinRecharge < s.params.MinRecharge

namespace ClientNode

variable (node : ClientNode) (params : ServerParams) (now : Int)

def recalcBV : ClientNode :=
  let dt := if now < node.lastTime then 0 else UInt64.ofNat (now - node.lastTime).toNat
  let bufValue := node.bufValue + (node.params.MinRecharge * dt / fcTimeConst).toInt64
  let limit := node.params.BufLimit.toInt64
  { node with bufValue := if limit < bufValue then limit else bufValue, lastTime := now }

/-- `updateParams`, with what `ClientManager.updateParams` assigns to the node. -/
def updateParams : ClientNode :=
  let diff := (params.BufLimit - node.params.BufLimit).toInt64
  let limit := params.BufLimit.toInt64
  { node with
    bufValue := if 0 < diff then node.bufValue + diff
      else if limit < node.bufValue then limit else node.bufValue
    params := params }

/-- The loop of `update`. -/
def applyDue (now : Int) : ClientNode → List ScheduledUpdate → ClientNode
  | node, [] => { node with updateSchedule := [] }
  | node, s :: rest =>
    if s.time ≤ now then applyDue now ((node.recalcBV s.time).updateParams s.params) rest
    else { node with updateSchedule := s :: rest }

def update : ClientNode :=
  (applyDue now node node.updateSchedule).recalcBV now

def UpdateParams : ClientNode :=
  let node := node.update now
  if node.params.MinRecharge ≤ params.MinRecharge then
    updateParams { node with updateSchedule := [] } params
  else { node with
    updateSchedule := match node.updateSchedule.dropWhile (passes params) with
      -- `s.params = params` writes to the loop's copy: the entry stays, what follows is cut off
      | s :: _ => node.updateSchedule.takeWhile (passes params) ++ [s]
      | [] => node.updateSchedule ++ [⟨now + DecParamDelay, params⟩] }

end ClientNode

/-! ## §2 — what is asked of the schedule. -/

/-- **The recharge a client may count on** at `t`, by the requests so far, the latest one first: the
greatest one requested after `t - DecParamDelay`, or the last one before. -/
def required (first : ServerParams) (t : Int) : List (Int × ServerParams) → Nat
  | [] => first.MinRecharge.toNat
  | (time, params) :: earlier =>
    if time ≤ t - DecParamDelay then params.MinRecharge.toNat
    else max params.MinRecharge.toNat (required first t earlier)

section Requests

variable (first : ServerParams) (reqs : List (Int × ServerParams)) (node : ClientNode) (t : Int)

/-- What holds of a node, and of what an update at `t` makes of it. -/
structure Follows : Prop where
  bufValue : node.bufValue.toInt ≤ node.params.BufLimit.toNat
  updated : (node.update t).bufValue.toInt ≤ (node.update t).params.BufLimit.toNat
  recharge : (node.update t).params.MinRecharge.toNat = required first t reqs
  delayed : ∀ r ∈ reqs.head?, r.1 + DecParamDelay ≤ t → (node.update t).params = r.2

/-- A call whose parameters are not lost: it lowers nothing, or the first waiting entry that is not
above them, if there is one, has the same. -/
def Kept (params : ServerParams) : Prop :=
  required first t reqs ≤ params.MinRecharge.toNat ∨
    ∀ s ∈ ((node.updateSchedule.dropWhile (·.time ≤ t)).dropWhile (passes params)).head?,
      s.params = params

end Requests

/-- The runs of a node in which no call is lost, with the time and the requests so far. -/
inductive Run (first : ServerParams) (start : Int) :
    Int → List (Int × ServerParams) → ClientNode → Prop
  | start : Run first start start [] (NewClientNode first start)
  | update {now t reqs node} : Run first start now reqs node → now ≤ t →
    Run first start t reqs (node.update t)
  | UpdateParams {now t reqs node params} : Run first start now reqs node → now ≤ t →
    Kept first reqs node t params →
    Run first start t ((t, params) :: reqs) (node.UpdateParams params t)

/-! ## §3 — the buffer. -/

theorem toInt_toInt64 (n : UInt64) : n.toInt64.toInt = (n.toNat : Int).bmod (2 ^ 64) :=
  BitVec.toInt_eq_toNat_bmod n.toBitVec

theorem toInt_toInt64_le (n : UInt64) : n.toInt64.toInt ≤ n.toNat := by
  have h := n.toNat_lt
  rw [toInt_toInt64, Int.bmod_def]
  omega

namespace ClientNode

variable (node : ClientNode) (params : ServerParams) (now : Int) {l : List ScheduledUpdate}

theorem recalcBV_bufValue :
    (node.recalcBV now).bufValue ≤ (node.recalcBV now).params.BufLimit.toInt64 := by
  unfold recalcBV
  extract_lets dt bufValue limit
  by_cases h : limit < bufValue
  · rw [if_pos h]
    exact Int64.le_refl _
  · rw [if_neg h]
    exact Int64.not_lt.mp h

/-- A value within the old limit is moved within the new one, also where the limits are beyond the
signed range. -/
theorem updateParams_bufValue {node : ClientNode}
    (h : node.bufValue ≤ node.params.BufLimit.toInt64) :
    (node.updateParams params).bufValue.toInt ≤ params.BufLimit.toNat := by
  have hnew := params.BufLimit.toNat_lt
  have hold := node.params.BufLimit.toNat_lt
  have hb := node.bufValue.toInt_lt
  have hb' := node.bufValue.le_toInt
  simp only [Int64.le_iff_toInt_le, toInt_toInt64, Int.bmod_def] at h
  simp only [updateParams, Int64.lt_iff_toInt_lt, toInt_toInt64, UInt64.toNat_sub, Int64.toInt_zero]
  split
  · rw [Int64.toInt_add, toInt_toInt64, UInt64.toNat_sub]
    simp only [Int.bmod_def] at *
    omega
  · split
    · exact toInt_toInt64_le _
    · simp only [Int.bmod_def] at *
      omega

theorem update_bufValue :
    (node.update now).bufValue.toInt ≤ (node.update now).params.BufLimit.toNat :=
  (Int64.le_iff_toInt_le.mp (recalcBV_bufValue _ now)).trans (toInt_toInt64_le _)

theorem UpdateParams_bufValue : (node.UpdateParams params now).bufValue.toInt ≤
      (node.UpdateParams params now).params.BufLimit.toNat := by
  unfold UpdateParams
  extract_lets updated
  split
  · exact updateParams_bufValue params (recalcBV_bufValue _ now)
  · exact update_bufValue node now

/-! ## §4 — the value of a schedule. -/

/-- The parameters that a schedule leads to at `t`. -/
def due (t : Int) : ServerParams → List ScheduledUpdate → ServerParams
  | params, [] => params
  | params, s :: rest => if s.time ≤ t then due t s.params rest else params

theorem applyDue_eq (node : ClientNode) : (applyDue now node l).params = due now node.params l ∧
      (applyDue now node l).updateSchedule = l.dropWhile (·.time ≤ now) := by
  induction l generalizing node with
  | nil => exact ⟨rfl, rfl⟩
  | cons s rest ih =>
    simp only [applyDue, due, dropWhile_cons, decide_eq_true_eq]
    split
    · exact ih _
    · exact ⟨rfl, rfl⟩

theorem update_params : (node.update now).params = due now node.params node.updateSchedule :=
  (applyDue_eq now node).1

theorem update_schedule :
    (node.update now).updateSchedule = node.updateSchedule.dropWhile (·.time ≤ now) :=
  (applyDue_eq now node).2

variable {params} {now t : Int}

/-- An update on the way changes nothing. -/
theorem due_dropWhile (h : now ≤ t) :
    due t (due now params l) (l.dropWhile (·.time ≤ now)) = due t params l := by
  induction l generalizing params with
  | nil => rfl
  | cons s rest ih =>
    simp only [due, dropWhile_cons, decide_eq_true_eq]
    split
    next hs => rw [if_pos (hs.trans h), ih]
    next => rw [due]

theorem due_append (r : List ScheduledUpdate) : due t params (l ++ r) =
    if ∀ x ∈ l, x.time ≤ t then due t (due t params l) r else due t params l := by
  induction l generalizing params with
  | nil => simp [due]
  | cons s l ih =>
    simp only [cons_append, due, forall_mem_cons]
    by_cases hs : s.time ≤ t
    · simp only [hs, if_true, true_and, ih]
    · simp only [hs, false_and, if_false]

theorem due_concat {s : ScheduledUpdate} (h : ∀ x ∈ l ++ [s], x.time ≤ t) :
    due t params (l ++ [s]) = s.params := by
  rw [forall_mem_append, forall_mem_singleton] at h
  rw [due_append, if_pos h.1, due, if_pos h.2, due]

theorem due_of {P : ServerParams → Prop} (hp : P params) (hl : ∀ s ∈ l, P s.params) :
    P (due t params l) := by
  induction l generalizing params with
  | nil => exact hp
  | cons s l ih =>
    obtain ⟨hs, hl⟩ := forall_mem_cons.mp hl
    rw [due]
    split
    · exact ih hs hl
    · exact hp

end ClientNode

/-! ## §5 — the invariant. -/

open ClientNode

variable {first params : ServerParams} {reqs : List (Int × ServerParams)} {node : ClientNode}
  {now t : Int}

theorem required_anti (h : now ≤ t) : required first t reqs ≤ required first now reqs := by
  induction reqs with
  | nil => exact Nat.le_refl _
  | cons r reqs ih =>
    simp only [required]
    split <;> split <;> omega

variable (first reqs node now) in
/-- **What the schedule is worth**, at every later time. -/
structure Scheduled : Prop where
  times : ∀ s ∈ node.updateSchedule, s.time ≤ now + DecParamDelay
  falling : node.updateSchedule.Pairwise
    fun a b => b.params.MinRecharge ≤ a.params.MinRecharge
  recharge : ∀ t, now ≤ t →
    (due t node.params node.updateSchedule).MinRecharge.toNat = required first t reqs
  delayed : ∀ t, now ≤ t → ∀ r ∈ reqs.head?, r.1 + DecParamDelay ≤ t →
    due t node.params node.updateSchedule = r.2

namespace Scheduled

variable (h : Scheduled first reqs node now)
include h

theorem update (ht : now ≤ t) : Scheduled first reqs (node.update t) t := by
  have hsub : (node.update t).updateSchedule.Sublist node.updateSchedule := by
    rw [update_schedule]
    exact dropWhile_sublist _
  refine ⟨fun s hs => ?_, h.falling.sublist hsub, fun u hu => ?_, fun u hu => ?_⟩
  · have := h.times s (hsub.mem hs)
    omega
  all_goals rw [update_params, update_schedule, due_dropWhile hu]
  · exact h.recharge u (ht.trans hu)
  · exact h.delayed u (ht.trans hu)

theorem updated (ht : now ≤ t) :
    (node.update t).params.MinRecharge.toNat = required first t reqs := by
  rw [update_params]
  exact h.recharge t ht

variable {pre rest : List ScheduledUpdate} {s : ScheduledUpdate}
  (hl : node.updateSchedule = pre ++ rest)
  (hrest : rest = [] ∧ s.time = now + DecParamDelay ∨ ∃ post, rest = s :: post)
include hl hrest

/-- `s` is a new entry or one of the schedule. -/
theorem times_cut : ∀ x ∈ pre ++ [s], x.time ≤ now + DecParamDelay := by
  have ht := h.times
  rw [hl, forall_mem_append] at ht
  refine forall_mem_append.mpr ⟨ht.1, forall_mem_singleton.mpr ?_⟩
  rcases hrest with ⟨-, hs⟩ | ⟨post, rfl⟩
  · exact hs.le
  · exact ht.2 s mem_cons_self

/-- **A call that lowers the recharge**: `s` stands behind the entries above the new
parameters. -/
theorem lowered (hlt : params.MinRecharge < node.params.MinRecharge)
    (hpre : ∀ x ∈ pre, params.MinRecharge < x.params.MinRecharge) (hs : s.params = params) :
    Scheduled first ((now, params) :: reqs) { node with updateSchedule := pre ++ [s] } now := by
  have htimes := h.times_cut hl hrest
  have hf := h.falling
  rw [hl, pairwise_append] at hf
  refine ⟨htimes, pairwise_append.mpr ⟨hf.1, pairwise_singleton _ _, fun x hx => ?_⟩,
    fun t ht => ?_, fun t _ r hr hd => ?_⟩
  · exact forall_mem_singleton.mpr (hs ▸ UInt64.le_of_lt (hpre x hx))
  · have hr := h.recharge t ht
    have hv : params.MinRecharge.toNat < (due t node.params pre).MinRecharge.toNat :=
      due_of (P := fun p => params.MinRecharge < p.MinRecharge) hlt hpre
    rw [hl, due_append] at hr
    dsimp only
    rw [due_append, required]
    by_cases hall : ∀ x ∈ pre, x.time ≤ t
    · rw [if_pos hall] at hr ⊢
      rw [due, due, hs]
      by_cases hst : s.time ≤ t
      · -- the new parameters are in force, and the old schedule is not above them
        rw [if_pos hst]
        split
        · rfl
        rcases hrest with ⟨-, hs⟩ | ⟨post, rfl⟩
        · omega
        · rw [due, if_pos hst] at hr
          have hle : (due t s.params post).MinRecharge.toNat ≤ s.params.MinRecharge.toNat :=
            due_of (P := fun p => p.MinRecharge ≤ s.params.MinRecharge) (UInt64.le_refl _)
              (pairwise_cons.mp hf.2.1).1
          rw [max_eq_left (hr ▸ hs ▸ hle)]
      · -- the entries before `s` are the ones in force
        have hst' := htimes s (by simp)
        rw [if_neg hst, if_neg (by omega), ← hr]
        rcases hrest with ⟨rfl, -⟩ | ⟨post, rfl⟩
        · rw [due, max_eq_right hv.le]
        · rw [due, if_neg hst, max_eq_right hv.le]
    · -- some entry above the new parameters still waits
      rw [if_neg hall] at hr ⊢
      obtain ⟨x, hx, hxt⟩ : ∃ x ∈ pre, t < x.time := by simpa using hall
      have := htimes x (mem_append_left _ hx)
      rw [if_neg (by omega), ← hr, max_eq_right hv.le]
  · cases hr
    exact (due_concat fun x hx => (htimes x hx).trans hd).trans hs

omit hl hrest

theorem UpdateParams (ht : now ≤ t) (hk : Kept first reqs node t params) :
    Scheduled first ((t, params) :: reqs) (node.UpdateParams params t) t := by
  have hu := h.update ht
  have hp := h.updated ht
  rw [Kept, ← hp, ← update_schedule, ← UInt64.le_iff_toNat_le] at hk
  unfold ClientNode.UpdateParams
  extract_lets updated
  by_cases hge : updated.params.MinRecharge ≤ params.MinRecharge
  · rw [if_pos hge]
    refine ⟨fun s hs => absurd hs not_mem_nil, .nil, fun u hu => ?_, fun u _ r hr _ => ?_⟩
    · have hanti : required first u reqs ≤ required first t reqs := required_anti hu
      change params.MinRecharge.toNat = _
      rw [required]
      split
      · rfl
      · exact (max_eq_left (hanti.trans (hp.ge.trans hge))).symm
    · cases hr
      rfl
  · rw [if_neg hge]
    have hk := hk.resolve_left hge
    have hlt := UInt64.not_le.mp hge
    cases hd : updated.updateSchedule.dropWhile (passes params) with
    | nil =>
      refine hu.lowered (append_nil _).symm (.inl ⟨rfl, rfl⟩) hlt ?_ rfl
      simpa [passes] using dropWhile_eq_nil_iff.mp hd
    | cons s post =>
      refine hu.lowered (hd ▸ takeWhile_append_dropWhile.symm) (.inr ⟨post, rfl⟩) hlt ?_
        (hk s (by rw [hd]; rfl))
      exact fun x hx => by simpa [passes] using mem_takeWhile_imp hx

/-- A call that is lost is not in force after the delay. -/
theorem kept_of_follows (ht : now ≤ t)
    (hf : Follows first ((t, params) :: reqs) (node.UpdateParams params t) (t + DecParamDelay)) :
    Kept first reqs node t params := by
  have hd := hf.delayed _ rfl (Int.le_refl _)
  rw [Kept, ← h.updated ht, ← update_schedule, ← UInt64.le_iff_toNat_le, or_iff_not_imp_left]
  intro hge s hs
  obtain ⟨post, hp⟩ := head?_eq_some_iff.mp hs
  rw [update_params, ClientNode.UpdateParams, if_neg hge, hp] at hd
  exact (due_concat ((h.update ht).times_cut (hp ▸ takeWhile_append_dropWhile.symm)
    (.inr ⟨post, rfl⟩))).symm.trans hd

theorem follows (hb : node.bufValue.toInt ≤ node.params.BufLimit.toNat) (ht : now ≤ t) :
    Follows first reqs node t := by
  refine ⟨hb, update_bufValue node t, h.updated ht, fun r hr => ?_⟩
  rw [update_params]
  exact h.delayed t ht r hr

end Scheduled

theorem Run.scheduled {start : Int} (h : Run first start now reqs node) :
    Scheduled first reqs node now ∧ node.bufValue.toInt ≤ node.params.BufLimit.toNat := by
  induction h with
  | start =>
    refine ⟨⟨fun s hs => absurd hs not_mem_nil, .nil, fun _ _ => rfl, fun _ _ r hr => ?_⟩,
      toInt_toInt64_le _⟩
    cases hr
  | update _ ht ih => exact ⟨ih.1.update ht, update_bufValue _ _⟩
  | UpdateParams _ ht hk ih => exact ⟨ih.1.UpdateParams ht hk, UpdateParams_bufValue _ _ _⟩

/-- **The schedule follows the requests** in every run in which no call is lost, at every later
time; and it does so after one more call exactly if that call is not lost. -/
theorem schedule_follows_iff {start : Int} (h : Run first start now reqs node) :
    (∀ t, now ≤ t → Follows first reqs node t) ∧ ∀ t, now ≤ t → ∀ params,
      (∀ u, t ≤ u → Follows first ((t, params) :: reqs) (node.UpdateParams params t) u) ↔
        Kept first reqs node t params := by
  obtain ⟨hs, hb⟩ := h.scheduled
  refine ⟨fun t ht => hs.follows hb ht, fun t ht params => ⟨fun hf => ?_, fun hk u hu => ?_⟩⟩
  · exact hs.kept_of_follows ht (hf _ (by rw [DecParamDelay]; omega))
  · exact (hs.UpdateParams ht hk).follows (UpdateParams_bufValue _ _ _) hu

theorem schedule_follows_iff_lowered :
    Follows ⟨100, 10⟩ [(0, ⟨80, 5⟩)] ((NewClientNode ⟨100, 10⟩ 0).UpdateParams ⟨80, 5⟩ 0) 3 :=
  have hstart : Run ⟨100, 10⟩ 0 0 [] (NewClientNode ⟨100, 10⟩ 0) := .start
  have h := hstart.UpdateParams (Int.le_refl 0) (.inr fun s hs => by cases hs)
  (schedule_follows_iff h).1 3 (by decide)

/-- Lowered to 5 and then, while that waits, to 7: after the delay it is 5. -/
theorem lowered_twice_too_low :
    ((((NewClientNode ⟨100, 10⟩ 0).UpdateParams ⟨100, 5⟩ 0).UpdateParams ⟨100, 7⟩ 1).update
      DecParamDelay).params.MinRecharge = 5 ∧
    required ⟨100, 10⟩ DecParamDelay [(1, ⟨100, 7⟩), (0, ⟨100, 5⟩)] = 7 := by
  decide +kernel

end MxtChain.Les
