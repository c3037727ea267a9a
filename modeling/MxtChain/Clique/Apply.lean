/-
# MxtChain.Clique.Apply — what `apply` does, stage by stage.

The fields that each stage leaves alone; when `applyHeader` and `apply` succeed; and that a list of
headers can be applied in pieces.
-/
import MxtChain.Clique.Snapshot
import MxtChain.Lib.Transition

namespace MxtChain.Clique

open Consensus Lib List

namespace Voting

/-! ## §1 — What the stages leave alone -/

/-- Taking back a vote changes only the tally. -/
theorem uncast_eq (s : Voting) (a : Address) (b : Bool) :
    ∃ tally, s.uncast a b = { s with Tally := tally } := by
  unfold uncast
  split
  · exact ⟨_, rfl⟩
  split_ifs
  · exact ⟨_, rfl⟩
  · exact ⟨_, rfl⟩
  · exact ⟨_, rfl⟩

theorem foldl_uncast_eq (l : List Vote) (s : Voting) :
    ∃ tally, l.foldl (fun s v => s.uncast v.Address v.Authorize) s = { s with Tally := tally } := by
  induction l generalizing s with
  | nil => exact ⟨_, rfl⟩
  | cons v l ih =>
    obtain ⟨tally, htally⟩ := uncast_eq s v.Address v.Authorize
    obtain ⟨tally', htally'⟩ := ih (s.uncast v.Address v.Authorize)
    exact ⟨tally', by rw [foldl_cons, htally', htally]⟩

variable (s : Voting) {config : CliqueConfig} {ecrecover : Header → Except CliqueError Address}
  {header : Header} {signer : Address}

theorem discard_eq (signer coinbase : Address) :
    ∃ votes tally, s.discard signer coinbase = { s with Votes := votes, Tally := tally } := by
  unfold discard
  split
  · exact ⟨_, _, rfl⟩
  next vote _ =>
  obtain ⟨tally, htally⟩ := uncast_eq s vote.Address vote.Authorize
  exact ⟨_, tally, by rw [htally]⟩

theorem vote_eq (signer : Address) (number : Nat) (coinbase : Address)
    (authorize : Bool) : ∃ votes tally,
      s.vote signer number coinbase authorize = { s with Votes := votes, Tally := tally } := by
  unfold vote cast
  split_ifs
  · cases s.Tally.find? coinbase with
    | none | some old => exact ⟨_, _, rfl⟩
  · exact ⟨_, _, rfl⟩

theorem withdraw_eq (a : Address) : ∃ tally,
    s.withdraw a = { s with Votes := s.Votes.filter fun v => v.Signer ≠ a, Tally := tally } := by
  obtain ⟨tally, htally⟩ := foldl_uncast_eq (s.Votes.filter fun v => v.Signer = a) s
  exact ⟨tally, by rw [withdraw, htally]⟩

@[simp] theorem forget_Signers (number : Nat) : (s.forget number).Signers = s.Signers := by
  unfold forget
  split <;> rfl

@[simp] theorem forget_Votes (number : Nat) : (s.forget number).Votes = s.Votes := by
  unfold forget
  split <;> rfl

@[simp] theorem forget_Tally (number : Nat) : (s.forget number).Tally = s.Tally := by
  unfold forget
  split <;> rfl

@[simp] theorem reset_Signers (config : CliqueConfig) (number : Nat) :
    (s.reset config number).Signers = s.Signers := by
  unfold reset
  split <;> rfl

@[simp] theorem reset_Recents (config : CliqueConfig) (number : Nat) :
    (s.reset config number).Recents = s.Recents := by
  unfold reset
  split <;> rfl

/-! ## §2 — One header -/

variable {s : Voting}

theorem any_recent_iff : (s.Recents.any fun _ recent => decide (recent = signer)) = true ↔
      ∃ n, s.Recents.find? n = some signer := by
  rw [GoMap.any_iff]
  constructor
  · rintro ⟨n, a, hn, hp⟩
    exact ⟨n, of_decide_eq_true hp ▸ hn⟩
  · rintro ⟨n, hn⟩
    exact ⟨n, signer, hn, decide_eq_true rfl⟩

theorem authorise_of_mem (h : ecrecover header = .ok signer)
    (hmem : signer ∈ s.Signers) : s.authorise ecrecover header =
      if s.Recents.any fun _ recent => recent = signer then .error .errRecentlySigned
      else .ok signer := by
  unfold authorise
  rw [h]
  dsimp only
  rw [if_neg (not_not.mpr hmem)]

theorem authorise_ok : s.authorise ecrecover header = .ok signer ↔ ecrecover header = .ok signer ∧
      signer ∈ s.Signers ∧ ∀ n, s.Recents.find? n ≠ some signer := by
  constructor
  · intro h
    cases hrec : ecrecover header with
    | error e =>
      rw [authorise, hrec] at h
      cases h
    | ok a =>
      by_cases hmem : a ∈ s.Signers
      · rw [authorise_of_mem hrec hmem] at h
        split_ifs at h with hany
        obtain rfl := Except.ok.inj h
        exact ⟨rfl, hmem, fun n hn => hany (any_recent_iff.mpr ⟨n, hn⟩)⟩
      rw [authorise, hrec] at h
      dsimp only at h
      rw [if_pos hmem] at h
      cases h
  · rintro ⟨hrec, hmem, hnone⟩
    rw [authorise_of_mem hrec hmem, if_neg]
    intro hany
    obtain ⟨n, hn⟩ := any_recent_iff.mp hany
    exact hnone n hn

/-- The votes and the signers after an authorised header. -/
def signed (s : Voting) (header : Header) (signer : Address) (authorize : Bool) : Voting :=
  (({ s with Recents := s.Recents.insert header.number signer }.discard signer
    header.coinbase).vote signer header.number header.coinbase authorize).resolve header.number
      header.coinbase

/-- **What `applyHeader` does**: the signer is authorised, and the vote goes through the stages. -/
theorem applyHeader_ok {t : Voting} : s.applyHeader config ecrecover header = .ok t ↔
    ∃ signer authorize,
      ((s.reset config header.number).forget header.number).authorise ecrecover header =
        .ok signer ∧
      voteOf header.nonce = .ok authorize ∧
      t = ((s.reset config header.number).forget header.number).signed header signer authorize := by
  unfold applyHeader
  simp only [bind_ok]
  constructor
  · rintro ⟨signer, hs, authorize, ha, ht⟩
    exact ⟨signer, authorize, hs, ha, (Except.ok.inj ht).symm⟩
  · rintro ⟨signer, authorize, hs, ha, rfl⟩
    exact ⟨signer, hs, authorize, ha, rfl⟩

/-- A signer is rejected as recently signed exactly if they are remembered. -/
theorem applyHeader_errRecentlySigned (hrec : ecrecover header = .ok signer)
    (hmem : signer ∈ s.Signers) :
    s.applyHeader config ecrecover header = .error .errRecentlySigned ↔
      ∃ n, ((s.reset config header.number).forget header.number).Recents.find? n =
        some signer := by
  have hmem' : signer ∈ ((s.reset config header.number).forget header.number).Signers := by
    simpa using hmem
  rw [← any_recent_iff]
  unfold applyHeader
  dsimp only
  rw [authorise_of_mem hrec hmem']
  split
  · next hany => exact iff_of_true rfl hany
  next hany =>
  refine iff_of_false (fun h => ?_) hany
  -- only the nonce can still be refused
  rcases bind_error.mp h with h | ⟨a, -, h⟩
  · cases h
  rcases bind_error.mp h with h | ⟨b, -, h⟩
  · unfold voteOf at h
    split_ifs at h
    cases h
  · cases h

end Voting

/-! ## §3 — Lists of headers -/

namespace Snapshot

variable {s t u : Snapshot} {config : CliqueConfig}
  {ecrecover : Header → Except CliqueError Address} {hash : Header → MxtChain.Hash}
  {headers a b : List Header} {header : Header}

/-- What `apply` does to a list that is not empty. -/
theorem apply_ok (hne : headers ≠ []) : s.apply config ecrecover hash headers = .ok t ↔
      consecutive (s.Number + 1) headers = true ∧
      headers.foldlM (Voting.applyHeader config ecrecover) s.toVoting = .ok t.toVoting ∧
      t.Number = s.Number + headers.length ∧ t.Hash = hash (headers.getLast hne) := by
  unfold apply
  rw [getLast?_eq_some_getLast hne]
  dsimp only
  by_cases hc : consecutive (s.Number + 1) headers = true
  · rw [if_neg (not_not.mpr hc), bind_ok]
    constructor
    · rintro ⟨u, hu, h⟩
      rw [← Except.ok.inj h]
      exact ⟨hc, hu, rfl, rfl⟩
    · rintro ⟨-, hu, hnumber, hhash⟩
      refine ⟨t.toVoting, hu, congrArg Except.ok ?_⟩
      rw [← hnumber, ← hhash]
  · rw [if_pos hc]
    constructor
    · intro h
      cases h
    · exact fun h => absurd h.1 hc

@[simp] theorem apply_nil : s.apply config ecrecover hash [] = .ok s := rfl

theorem consecutive_append (n : Nat) (a b : List Header) :
    consecutive n (a ++ b) = (consecutive n a && consecutive (n + a.length) b) := by
  induction a generalizing n with
  | nil => simp [consecutive]
  | cons h a ih =>
    have hlen : n + 1 + a.length = n + (a.length + 1) := by omega
    simp only [cons_append, consecutive, ih, length_cons, Bool.and_assoc, hlen]

theorem toOption_eq_some {x : Except CliqueError Snapshot} : x.toOption = some t ↔ x = .ok t := by
  cases x <;> simp [Except.toOption]

/-- **Headers can be applied in pieces**; if they cannot be applied, the pieces may name another
error. -/
theorem apply_append (s : Snapshot) (a b : List Header) :
    (s.apply config ecrecover hash (a ++ b)).toOption =
      (s.apply config ecrecover hash a).toOption.bind fun t =>
        (t.apply config ecrecover hash b).toOption := by
  by_cases ha : a = []
  · subst ha
    rfl
  by_cases hb : b = []
  · subst hb
    simp [Except.toOption]
  have hne : a ++ b ≠ [] := by simp [ha]
  apply Option.ext
  intro t
  simp only [Option.bind_eq_some_iff, toOption_eq_some, apply_ok hne, apply_ok ha, apply_ok hb,
    consecutive_append, foldlM_append, bind_ok, length_append, Bool.and_eq_true,
    getLast_append_of_ne_nil hne hb]
  have hlen : s.Number + 1 + a.length = s.Number + a.length + 1 := by omega
  constructor
  · rintro ⟨⟨hca, hcb⟩, ⟨v, hv, ht⟩, hnumber, hhash⟩
    refine ⟨⟨v, s.Number + a.length, hash (a.getLast ha)⟩, ⟨hca, hv, rfl, rfl⟩, ?_, ht, ?_, hhash⟩
    · rw [← hlen]
      exact hcb
    · rw [hnumber, Nat.add_assoc]
  · rintro ⟨u, ⟨hca, hv, hu, -⟩, hcb, ht, hnumber, hhash⟩
    rw [hu, ← hlen] at hcb
    refine ⟨⟨hca, hcb⟩, ⟨u.toVoting, hv, ht⟩, ?_, hhash⟩
    rw [hnumber, hu, Nat.add_assoc]

theorem apply_append_ok : s.apply config ecrecover hash (a ++ b) = .ok t ↔
      ∃ u, s.apply config ecrecover hash a = .ok u ∧ u.apply config ecrecover hash b = .ok t := by
  rw [← toOption_eq_some, apply_append, Option.bind_eq_some_iff]
  simp only [toOption_eq_some]

/-- What can be applied first does not change the error of the rest. -/
theorem apply_append_of_ok (h : s.apply config ecrecover hash a = .ok u) :
    s.apply config ecrecover hash (a ++ b) = u.apply config ecrecover hash b := by
  by_cases ha : a = []
  · subst ha
    obtain rfl := Except.ok.inj h
    rfl
  by_cases hb : b = []
  · subst hb
    rw [append_nil, h, apply_nil]
  obtain ⟨hca, hfold, hnumber, -⟩ := (apply_ok ha).mp h
  have hlast := getLast?_append_of_ne_nil a hb
  have hlen : s.Number + 1 + a.length = u.Number + 1 := by omega
  have hcons : consecutive (s.Number + 1) (a ++ b) = consecutive (u.Number + 1) b := by
    rw [consecutive_append, hca, Bool.true_and, hlen]
  have hrest : (a ++ b).foldlM (Voting.applyHeader config ecrecover) s.toVoting =
      b.foldlM (Voting.applyHeader config ecrecover) u.toVoting := by
    rw [foldlM_append, hfold]
    rfl
  have hnum : s.Number + (a ++ b).length = u.Number + b.length := by
    rw [length_append, hnumber, Nat.add_assoc]
  unfold apply
  rw [hlast, getLast?_eq_some_getLast hb, hcons, hrest, hnum]

/-- Applying one header that follows a snapshot. -/
theorem apply_singleton (hnumber : header.number = s.Number + 1) :
    s.apply config ecrecover hash [header] =
      (s.applyHeader config ecrecover header).map fun voting =>
        { toVoting := voting, Number := s.Number + 1, Hash := hash header } := by
  unfold apply
  simp only [getLast?_singleton, consecutive, hnumber, decide_true, Bool.and_self,
    not_true_eq_false, if_false, foldlM_cons, foldlM_nil, length_singleton]
  cases s.applyHeader config ecrecover header <;> rfl

theorem number_of_apply_cons (h : s.apply config ecrecover hash (header :: headers) = .ok t) :
    header.number = s.Number + 1 := by
  have hnumbers := ((apply_ok (cons_ne_nil _ _)).mp h).1
  simp only [consecutive, Bool.and_eq_true, decide_eq_true_eq] at hnumbers
  exact hnumbers.1

/-- The snapshots that are reached from another one by `apply`. -/
def Reachable (config : CliqueConfig) (ecrecover : Header → Except CliqueError Address)
    (hash : Header → MxtChain.Hash) : Snapshot → Snapshot → Prop :=
  Transition.Reachable fun s t => ∃ headers, s.apply config ecrecover hash headers = .ok t

end Snapshot

/-! ## §4 — Samples -/

/-- The account with a small number. -/
def account (n : UInt8) : Address := Address.ofBytes [n]

/-- A seal that names its signer: the last bytes of the extra data. -/
def plainSeal (header : Header) : Except CliqueError Address := .ok (Address.ofBytes header.extra)

def ballot (number : Nat) (signer : UInt8) (coinbase : Address) (nonce : UInt64) : Header where
  number := number
  extra := (account signer).bytes
  coinbase := coinbase
  nonce := nonce

end MxtChain.Clique
