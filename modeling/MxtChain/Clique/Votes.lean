/-
# MxtChain.Clique.Votes — the votes of a snapshot and their tally.

`Coherent` says what the tally is for: each signer has at most one open vote on an account, votes
come from signers and ask for what is not the case, and the tally is the number of votes on each
account. Every stage of `applyHeader` keeps it.
-/
import MxtChain.Clique.Apply

namespace MxtChain.Clique

open Consensus Lib List

/-! ## §1 — The tally of a list of votes -/

/-- The number of votes on an account. -/
def votesOn (votes : List Vote) (a : Address) : Nat := votes.countP fun v => v.Address = a

/-- The entry of an account that fits the votes. -/
def tallyOf (signers : Finset Address) (votes : List Vote) (a : Address) : Option Tally :=
  if votesOn votes a = 0 then none else some ⟨decide (a ∉ signers), votesOn votes a⟩

/-- **The votes and their tally fit the signers.** -/
structure Coherent (signers : Finset Address) (votes : List Vote) (tally : GoMap Address Tally) :
    Prop where
  once : (votes.map fun v => (v.Signer, v.Address)).Nodup
  voter : ∀ v ∈ votes, v.Signer ∈ signers
  flag : ∀ v ∈ votes, v.Authorize = decide (v.Address ∉ signers)
  tally : ∀ a, tally.find? a = tallyOf signers votes a

section Count

variable {signers : Finset Address} {votes votes' : List Vote} {v : Vote} {a b : Address}

theorem votesOn_cons :
    votesOn (v :: votes) a = votesOn votes a + if v.Address = a then 1 else 0 := by
  simp [votesOn, countP_cons]

theorem tallyOf_perm (h : votes.Perm votes') :
    tallyOf signers votes a = tallyOf signers votes' a := by
  have hcount : votesOn votes a = votesOn votes' a := h.countP_eq _
  rw [tallyOf, tallyOf, hcount]

theorem tallyOf_cons_self : tallyOf signers (v :: votes) v.Address =
    some ⟨decide (v.Address ∉ signers), votesOn votes v.Address + 1⟩ := by
  simp [tallyOf, votesOn_cons]

theorem tallyOf_cons_of_ne (h : a ≠ v.Address) :
    tallyOf signers (v :: votes) a = tallyOf signers votes a := by
  simp [tallyOf, votesOn_cons, Ne.symm h]

/-- Votes on another account do not count. -/
theorem tallyOf_filter_ne (h : a ≠ b) :
    tallyOf signers (votes.filter fun v => v.Address ≠ b) a = tallyOf signers votes a := by
  have hcount : votesOn (votes.filter fun v => v.Address ≠ b) a = votesOn votes a := by
    rw [votesOn, countP_filter]
    refine countP_congr fun v _ => ?_
    simp only [decide_not, Bool.and_eq_true, decide_eq_true_eq, Bool.not_eq_true',
      decide_eq_false_iff_not, and_iff_left_iff_imp]
    rintro rfl
    exact h
  simp only [tallyOf, hcount]

theorem tallyOf_filter_self : tallyOf signers (votes.filter fun v => v.Address ≠ a) a = none := by
  have hcount : votesOn (votes.filter fun v => v.Address ≠ a) a = 0 := by
    rw [votesOn, countP_filter, countP_eq_zero]
    intro v _
    simp
  rw [tallyOf, if_pos hcount]

/-- What is found first is what is erased. -/
theorem perm_eraseP {p : Vote → Bool} (h : votes.find? p = some v) :
    p v = true ∧ votes.Perm (v :: votes.eraseP p) := by
  obtain ⟨hp, before, after, rfl, hbefore⟩ := find?_eq_some_iff_append.mp h
  have hnot : ∀ w ∈ before, ¬ p w = true := fun w hw => by simpa using hbefore w hw
  rw [eraseP_append_right _ hnot, eraseP_cons_of_pos hp]
  exact ⟨hp, perm_middle⟩

end Count

/-! ## §2 — One vote more or less -/

namespace Voting

variable {s t : Voting} {signers signers' : Finset Address} {votes l : List Vote} {v : Vote}

theorem uncast_tally (h : ∀ a, s.Tally.find? a = tallyOf signers (v :: votes) a)
    (hflag : v.Authorize = decide (v.Address ∉ signers)) (a : Address) :
    (s.uncast v.Address v.Authorize).Tally.find? a = tallyOf signers votes a := by
  have hentry := h v.Address
  rw [tallyOf_cons_self] at hentry
  have hother : a ≠ v.Address → s.Tally.find? a = tallyOf signers votes a := fun ha => by
    rw [h a, tallyOf_cons_of_ne ha]
  unfold uncast
  rw [hentry]
  dsimp only
  rw [if_neg (not_not.mpr hflag.symm)]
  by_cases ha : a = v.Address
  · subst ha
    by_cases hcount : votesOn votes v.Address = 0
    · rw [if_neg (by omega), GoMap.find?_erase, if_pos rfl, tallyOf, if_pos hcount]
    · rw [if_pos (by omega), GoMap.find?_insert_self, tallyOf, if_neg hcount, Nat.add_sub_cancel]
  · split_ifs
    · rw [GoMap.find?_insert_of_ne ha, hother ha]
    · rw [GoMap.find?_erase, if_neg ha, hother ha]

theorem validVote_iff {a : Address} {authorize : Bool} :
    s.validVote a authorize = true ↔ authorize = decide (a ∉ s.Signers) := by
  by_cases ha : a ∈ s.Signers <;> cases authorize <;> simp [validVote, ha]

/-- A vote that makes sense is counted. -/
theorem cast_tally {a : Address} (h : ∀ a, s.Tally.find? a = tallyOf s.Signers votes a)
    (hv : v.Address = a) (hvalid : v.Authorize = decide (a ∉ s.Signers)) :
    ∃ tally, s.cast a v.Authorize = (true, { s with Tally := tally }) ∧
      ∀ b, tally.find? b = tallyOf s.Signers (v :: votes) b := by
  subst hv
  have hentry := h v.Address
  unfold cast
  rw [if_pos (validVote_iff.mpr hvalid), hentry]
  have hother : ∀ (t : Clique.Tally) b, b ≠ v.Address →
      (s.Tally.insert v.Address t).find? b = tallyOf s.Signers (v :: votes) b := fun t b hb => by
    rw [GoMap.find?_insert_of_ne hb, h b, tallyOf_cons_of_ne hb]
  by_cases hcount : votesOn votes v.Address = 0
  · rw [tallyOf, if_pos hcount]
    refine ⟨_, rfl, fun b => ?_⟩
    by_cases hb : b = v.Address
    · rw [hb, GoMap.find?_insert_self, tallyOf_cons_self, hcount, hvalid]
    · exact hother _ b hb
  rw [tallyOf, if_neg hcount]
  refine ⟨_, rfl, fun b => ?_⟩
  by_cases hb : b = v.Address
  · rw [hb, GoMap.find?_insert_self, tallyOf_cons_self]
  · exact hother _ b hb

/-! ## §3 — The stages of a header -/

/-- The votes and their tally fit the signers. -/
def Consistent (s : Voting) : Prop := Coherent s.Signers s.Votes s.Tally

theorem consistent_newSnapshot (number : Nat) (hash : Hash) (signers : List Address) :
    (newSnapshot number hash signers).Consistent where
  once := nodup_nil
  voter := fun _ hv => absurd hv not_mem_nil
  flag := fun _ hv => absurd hv not_mem_nil
  tally := fun a => GoMap.find?_empty a

theorem Consistent.reset (h : s.Consistent) (config : CliqueConfig) (number : Nat) :
    (s.reset config number).Consistent := by
  unfold Voting.reset
  split
  · exact ⟨nodup_nil, fun v hv => absurd hv not_mem_nil,
      fun v hv => absurd hv not_mem_nil, fun a => GoMap.find?_empty a⟩
  · exact h

theorem Consistent.forget (h : s.Consistent) (number : Nat) : (s.forget number).Consistent := by
  show Coherent (s.forget number).Signers (s.forget number).Votes (s.forget number).Tally
  rw [forget_Signers, forget_Votes, forget_Tally]
  exact h

/-- After `discard` the signer has no vote on the account. -/
theorem Consistent.discard (h : s.Consistent) (signer coinbase : Address) :
    (s.discard signer coinbase).Consistent ∧
      ∀ v ∈ (s.discard signer coinbase).Votes, (v.Signer, v.Address) ≠ (signer, coinbase) := by
  unfold Voting.discard
  cases hfind : s.Votes.find? fun v => v.Signer = signer ∧ v.Address = coinbase with
  | none =>
    refine ⟨h, fun v hv heq => ?_⟩
    have hnot := find?_eq_none.mp hfind v hv
    simp only [Prod.mk.injEq] at heq
    exact hnot (decide_eq_true heq)
  | some vote =>
    obtain ⟨hp, hperm⟩ := perm_eraseP hfind
    have hvote : vote.Signer = signer ∧ vote.Address = coinbase := of_decide_eq_true hp
    have htally := uncast_tally (fun a => (h.tally a).trans (tallyOf_perm hperm))
      (h.flag vote (hperm.mem_iff.mpr mem_cons_self))
    obtain ⟨tally, huncast⟩ := uncast_eq s vote.Address vote.Authorize
    generalize s.Votes.eraseP _ = rest at hperm htally
    have hsub : ∀ v ∈ rest, v ∈ s.Votes := fun v hv =>
      hperm.mem_iff.mpr (mem_cons_of_mem _ hv)
    have honce := (hperm.map fun v => (v.Signer, v.Address)).nodup_iff.mp h.once
    rw [map_cons, nodup_cons] at honce
    dsimp only
    rw [huncast] at htally ⊢
    refine ⟨⟨honce.2, fun v hv => h.voter v (hsub v hv), fun v hv => h.flag v (hsub v hv), htally⟩,
      fun v hv heq => honce.1 (mem_map.mpr ⟨v, hv, ?_⟩)⟩
    rw [heq, hvote.1, hvote.2]

/-- A new vote of a signer who has none on the account. -/
theorem Consistent.vote (h : s.Consistent) {signer coinbase : Address} (number : Nat)
    (authorize : Bool) (hsigner : signer ∈ s.Signers)
    (hnew : ∀ v ∈ s.Votes, (v.Signer, v.Address) ≠ (signer, coinbase)) :
    (s.vote signer number coinbase authorize).Consistent := by
  unfold Voting.vote
  by_cases hvalid : authorize = decide (coinbase ∉ s.Signers)
  · obtain ⟨tally, hcast, htally⟩ := cast_tally (v := ⟨signer, number, coinbase, authorize⟩)
      h.tally rfl hvalid
    rw [hcast]
    have hperm : Perm (s.Votes ++ [(⟨signer, number, coinbase, authorize⟩ : Vote)])
        (⟨signer, number, coinbase, authorize⟩ :: s.Votes) := perm_append_singleton _ _
    refine ⟨?_, fun v hv => ?_, fun v hv => ?_, fun a => ?_⟩
    · refine (hperm.map _).nodup_iff.mpr ?_
      rw [map_cons, nodup_cons]
      refine ⟨fun hmem => ?_, h.once⟩
      obtain ⟨v, hv, heq⟩ := mem_map.mp hmem
      exact hnew v hv heq
    · rcases mem_cons.mp (hperm.mem_iff.mp hv) with rfl | hv
      · exact hsigner
      · exact h.voter v hv
    · rcases mem_cons.mp (hperm.mem_iff.mp hv) with rfl | hv
      · exact hvalid
      · exact h.flag v hv
    · exact (htally a).trans (tallyOf_perm hperm).symm
  · have hcast : s.cast coinbase authorize = (false, s) := by
      rw [cast, if_neg fun hv => hvalid (validVote_iff.mp hv)]
    rw [hcast]
    exact h

/-! ## §4 — A vote that passes -/

/-- Counted votes are taken back one after the other. -/
theorem foldl_uncast_tally (hflag : ∀ v ∈ l, v.Authorize = decide (v.Address ∉ signers))
    (h : ∀ a, s.Tally.find? a = tallyOf signers (l ++ votes) a) (a : Address) :
    (l.foldl (fun s v => s.uncast v.Address v.Authorize) s).Tally.find? a =
      tallyOf signers votes a := by
  induction l generalizing s with
  | nil => exact h a
  | cons v l ih =>
    refine ih (fun w hw => hflag w (mem_cons_of_mem _ hw)) fun b => ?_
    exact uncast_tally h (hflag v mem_cons_self) b

/-- The votes of an account are taken back; the signers are those from before its removal. -/
theorem coherent_withdraw (h : Coherent signers s.Votes s.Tally) (a : Address) :
    Coherent signers (s.withdraw a).Votes (s.withdraw a).Tally := by
  have hsub : (s.withdraw a).Votes.Sublist s.Votes := filter_sublist
  refine ⟨h.once.sublist (hsub.map _), fun v hv => h.voter v (hsub.subset hv),
    fun v hv => h.flag v (hsub.subset hv), foldl_uncast_tally (fun v hv => ?_) fun b => ?_⟩
  · exact h.flag v (mem_of_mem_filter hv)
  · rw [h.tally b]
    refine tallyOf_perm (Perm.symm ?_)
    have hperm := filter_append_perm (fun v : Vote => decide (v.Signer = a)) s.Votes
    simpa only [withdraw, decide_not] using hperm

/-- The votes on an account are closed and it changes sides. -/
theorem coherent_close (h : Coherent signers s.Votes s.Tally)
    {a : Address} (hsame : ∀ b, b ≠ a → (b ∈ signers' ↔ b ∈ signers))
    (hvoter : ∀ v ∈ s.Votes, v.Signer ∈ signers') :
    Coherent signers' (s.close a).Votes (s.close a).Tally := by
  have hsub : (s.close a).Votes.Sublist s.Votes := filter_sublist
  refine ⟨h.once.sublist (hsub.map _), fun v hv => hvoter v (hsub.subset hv), fun v hv => ?_,
    fun b => ?_⟩
  · have hne : v.Address ≠ a := by simpa using (mem_filter.mp hv).2
    rw [h.flag v (hsub.subset hv)]
    exact decide_eq_decide.mpr (not_congr (hsame _ hne).symm)
  · show (s.Tally.erase a).find? b = tallyOf signers' (s.Votes.filter fun v => v.Address ≠ a) b
    rw [GoMap.find?_erase]
    split
    · next hb => rw [hb, tallyOf_filter_self]
    next hb =>
    rw [h.tally b, tallyOf_filter_ne hb]
    simp only [tallyOf, hsame b hb]

theorem Consistent.resolve (h : s.Consistent) (number : Nat) (coinbase : Address) :
    (s.resolve number coinbase).Consistent := by
  unfold Voting.resolve
  dsimp only
  split_ifs
  · have hadd : Coherent s.Signers { s with Signers := insert coinbase s.Signers }.Votes
        { s with Signers := insert coinbase s.Signers }.Tally := h
    exact coherent_close hadd (fun b hb => by simp [close, hb])
      fun v hv => Finset.mem_insert_of_mem (h.voter v hv)
  · -- the account's own votes go first, under the old signers
    have hw : Coherent s.Signers
        (({ s with Signers := s.Signers.erase coinbase }.forget number).withdraw coinbase).Votes
        (({ s with Signers := s.Signers.erase coinbase }.forget number).withdraw coinbase).Tally := by
      refine coherent_withdraw ?_ coinbase
      rw [forget_Votes, forget_Tally]
      exact h
    obtain ⟨tally, hwithdraw⟩ :=
      withdraw_eq ({ s with Signers := s.Signers.erase coinbase }.forget number) coinbase
    rw [hwithdraw] at hw ⊢
    refine coherent_close hw (fun b hb => by simp [close, hb]) fun v hv => ?_
    have hmem : v ∈ s.Votes ∧ v.Signer ≠ coinbase := by simpa using hv
    simpa [close, hmem.2] using h.voter v hmem.1
  · exact h

/-! ## §5 — Headers and runs -/

variable {config : CliqueConfig} {ecrecover : Header → Except CliqueError Address}

theorem Consistent.applyHeader {header : Header} (h : s.Consistent)
    (ht : s.applyHeader config ecrecover header = .ok t) : t.Consistent := by
  obtain ⟨signer, authorize, hs, -, rfl⟩ := applyHeader_ok.mp ht
  have hforget := (h.reset config header.number).forget header.number
  have hmem := (authorise_ok.mp hs).2.1
  generalize (s.reset config header.number).forget header.number = u at *
  have hsign : { u with Recents := u.Recents.insert header.number signer }.Consistent := hforget
  obtain ⟨hdiscard, hnew⟩ := hsign.discard signer header.coinbase
  refine (hdiscard.vote header.number authorize ?_ hnew).resolve header.number header.coinbase
  obtain ⟨votes, tally, hdiscard_eq⟩ :=
    discard_eq { u with Recents := u.Recents.insert header.number signer } signer header.coinbase
  rw [hdiscard_eq]
  exact hmem

end Voting

theorem Snapshot.consistent_apply {s t : Snapshot} {config : CliqueConfig}
    {ecrecover : Header → Except CliqueError Address} {hash : Header → MxtChain.Hash}
    {headers : List Header} (h : s.Consistent)
    (ht : s.apply config ecrecover hash headers = .ok t) : t.Consistent := by
  by_cases hne : headers = []
  · subst hne
    obtain rfl : s = t := Except.ok.inj ht
    exact h
  · obtain ⟨-, hfold, -⟩ := (apply_ok hne).mp ht
    exact foldlM_ok_invariant h (fun _ _ _ _ hb hstep => hb.applyHeader hstep) hfold

/-- **Votes and tally agree in every reachable snapshot.** Each signer has at most one vote on an
account; every vote was cast by a signer and asks for what is not the case; and an account has an
entry in the tally exactly if there are votes on it, with their number and their flag. -/
theorem votes_consistent (config : CliqueConfig) (ecrecover : Header → Except CliqueError Address)
    (hash : Header → Hash) (number : Nat) (genesis : Hash) (signers : List Address) {s : Snapshot}
    (hs : Snapshot.Reachable config ecrecover hash (newSnapshot number genesis signers) s) :
    (s.Votes.map fun v => (v.Signer, v.Address)).Nodup ∧
    (∀ v ∈ s.Votes, v.Signer ∈ s.Signers ∧ v.Authorize = decide (v.Address ∉ s.Signers)) ∧
    (∀ a, (s.Tally.find? a ≠ none ↔ ∃ v ∈ s.Votes, v.Address = a) ∧
      ∀ tally, s.Tally.find? a = some tally → tally.Votes = votesOn s.Votes a ∧
        ∀ v ∈ s.Votes, v.Address = a → v.Authorize = tally.Authorize) := by
  have h : s.Consistent := hs.invariant (Voting.consistent_newSnapshot number genesis signers)
    fun _ _ hcons hstep => Snapshot.consistent_apply hcons hstep.choose_spec
  refine ⟨h.once, fun v hv => ⟨h.voter v hv, h.flag v hv⟩, fun a => ?_⟩
  rw [h.tally a, tallyOf]
  have hcount : votesOn s.Votes a = 0 ↔ ¬ ∃ v ∈ s.Votes, v.Address = a := by
    simp [votesOn, countP_eq_zero]
  split
  · next hzero =>
    refine ⟨iff_of_false (fun hne => hne rfl) (hcount.mp hzero), fun tally htally => ?_⟩
    cases htally
  next hpos =>
  refine ⟨iff_of_true (by simp) (not_not.mp fun hno => hpos (hcount.mpr hno)), ?_⟩
  intro tally htally
  obtain rfl := Option.some.inj htally
  refine ⟨rfl, fun v hv hva => ?_⟩
  rw [h.flag v hv, hva]

/-- The first of three signers votes for a fourth. -/
theorem votes_consistent_ballot : ∃ s : Snapshot,
    (newSnapshot 0 Hash.zero [account 1, account 2, account 3]).apply (.New 15 0) plainSeal
      (fun _ => Hash.zero) [ballot 1 1 (account 4) nonceAuthVote] = .ok s ∧
    s.Votes.length = 1 ∧ ∀ v ∈ s.Votes, v.Signer ∈ s.Signers := by
  have hone : ((newSnapshot 0 Hash.zero [account 1, account 2, account 3]).apply (.New 15 0)
      plainSeal (fun _ => Hash.zero) [ballot 1 1 (account 4) nonceAuthVote]).toOption.map
        (fun s => s.Votes.length) = some 1 := by
    decide +kernel
  obtain ⟨s, hs, hlen⟩ := Option.map_eq_some_iff.mp hone
  have happly := Snapshot.toOption_eq_some.mp hs
  have h := votes_consistent (.New 15 0) plainSeal (fun _ => Hash.zero) 0 Hash.zero
    [account 1, account 2, account 3] (.single ⟨_, happly⟩)
  exact ⟨s, happly, hlen, fun v hv => (h.2.1 v hv).1⟩

end MxtChain.Clique
