/-
# MxtChain.Clique.Recents — who may sign again.

A snapshot remembers recent signers by block number. One entry is dropped with each header, and one
more when a signer is removed, while the number of blocks that a signer has to wait follows the
number of signers. `Window` says which blocks are remembered: none that is too old by more than
one, and all that matter. Right before a signer is checked the entry that is too old has been
dropped, and the window is exact.
-/
import MxtChain.Clique.Apply

namespace MxtChain.Clique

open Consensus Lib List Snapshot Voting

/-! ## §1 — Windows -/

/-- After the headers `done`, numbered from 1, the blocks that are remembered lie in the last `drop`
of them, and the last `keep` are remembered, counted from the next block. -/
structure Window (ecrecover : Header → Except CliqueError Address) (done : List Header)
    (recents : GoMap Nat Address) (keep drop : Nat) : Prop where
  sound : ∀ n a, recents.find? n = some a → ∃ i h, n = i + 1 ∧ done[i]? = some h ∧
    ecrecover h = .ok a ∧ done.length < i + drop
  complete : ∀ i h, done[i]? = some h → done.length < i + keep →
    ∃ a, ecrecover h = .ok a ∧ recents.find? (i + 1) = some a

namespace Window

variable {ecrecover : Header → Except CliqueError Address} {done : List Header}
  {recents : GoMap Nat Address} {keep drop keep' drop' c : Nat}

theorem empty : Window ecrecover [] .empty keep drop where
  sound := fun n a h => by simp at h
  complete := fun i h hi => by simp at hi

theorem mono (h : Window ecrecover done recents keep drop)
    (hkeep : keep' ≤ keep) (hdrop : drop ≤ drop') : Window ecrecover done recents keep' drop' where
  sound := fun n a hn => by
    obtain ⟨i, g, hi, hg, ha, hlt⟩ := h.sound n a hn
    exact ⟨i, g, hi, hg, ha, by omega⟩
  complete := fun i g hg hlt => h.complete i g hg (by omega)

/-- The entry that is too old by one is dropped. -/
theorem erase (h : Window ecrecover done recents keep (c + 1)) (hkeep : keep ≤ c)
    (hc : c ≤ done.length + 1) :
    Window ecrecover done (recents.erase (done.length + 1 - c)) keep c where
  sound := fun n a hn => by
    rw [GoMap.find?_erase] at hn
    split at hn
    · cases hn
    next hne =>
    obtain ⟨i, g, hi, hg, ha, hlt⟩ := h.sound n a hn
    exact ⟨i, g, hi, hg, ha, by omega⟩
  complete := fun i g hg hlt => by
    rw [GoMap.find?_erase, if_neg (by omega)]
    exact h.complete i g hg hlt

/-- Near the genesis block nothing is too old. -/
theorem young (h : Window ecrecover done recents keep (c + 1))
    (hc : done.length + 1 < c) : Window ecrecover done recents keep c where
  sound := fun n a hn => by
    obtain ⟨i, g, hi, hg, ha, -⟩ := h.sound n a hn
    exact ⟨i, g, hi, hg, ha, by omega⟩
  complete := h.complete

theorem sign {header : Header} {signer : Address}
    (h : Window ecrecover done recents c c) (hc : 0 < c) (hs : ecrecover header = .ok signer) :
    Window ecrecover (done ++ [header]) (recents.insert (done.length + 1) signer) (c + 1)
      (c + 1) where
  sound := fun n a hn => by
    rw [GoMap.find?_insert] at hn
    rw [List.length_append, List.length_singleton]
    split at hn
    · next hnew =>
      obtain rfl := Option.some.inj hn
      exact ⟨done.length, header, hnew, by simp, hs, by omega⟩
    obtain ⟨i, g, hi, hg, ha, hlt⟩ := h.sound n a hn
    obtain ⟨hbound, -⟩ := List.getElem?_eq_some_iff.mp hg
    exact ⟨i, g, hi, by rw [List.getElem?_append_left hbound, hg], ha, by omega⟩
  complete := fun i g hg hlt => by
    rw [List.length_append, List.length_singleton] at hlt
    rw [GoMap.find?_insert]
    by_cases hi : i = done.length
    · subst hi
      obtain rfl : header = g := by simpa using hg
      exact ⟨signer, hs, if_pos rfl⟩
    obtain ⟨hbound, -⟩ := List.getElem?_eq_some_iff.mp hg
    rw [List.length_append, List.length_singleton] at hbound
    rw [List.getElem?_append_left (by omega)] at hg
    rw [if_neg (by omega)]
    exact h.complete i g hg (by omega)

end Window

/-! ## §2 — The window of a snapshot -/

namespace Voting

variable {s t : Voting} {config : CliqueConfig} {ecrecover : Header → Except CliqueError Address}
  {done headers : List Header} {header : Header}

/-- The blocks that are remembered between two headers. -/
def Remembers (ecrecover : Header → Except CliqueError Address) (done : List Header)
    (s : Voting) : Prop := Window ecrecover done s.Recents s.limit (s.limit + 1)

/-- `forget` at a block number brings a window down by one. -/
theorem forget_window {number keep c : Nat} (h : Window ecrecover done s.Recents keep (c + 1))
    (hkeep : keep ≤ c) (hnumber : number + c = done.length + 1 + s.limit) :
    Window ecrecover done (s.forget number).Recents keep c := by
  unfold forget
  split
  · next hge =>
    have hkey : number - s.limit = done.length + 1 - c := by omega
    rw [hkey]
    exact h.erase hkeep (by omega)
  · exact h.young (by omega)

/-- **Right before the check the window is exact.** -/
theorem Remembers.exact (h : s.Remembers ecrecover done) :
    Window ecrecover done ((s.reset config (done.length + 1)).forget (done.length + 1)).Recents
      s.limit s.limit := by
  have hlimit : (s.reset config (done.length + 1)).limit = s.limit := by simp [limit]
  refine forget_window ?_ le_rfl (by rw [hlimit])
  rw [reset_Recents]
  exact h

/-- The window follows the number of signers. -/
theorem resolve_remembers (coinbase : Address)
    (h : Window ecrecover done s.Recents (s.limit + 1) (s.limit + 1)) :
    (s.resolve done.length coinbase).Remembers ecrecover done := by
  unfold resolve
  dsimp only
  split_ifs
  · -- one signer more: the window may grow by one block
    have hcard := Finset.card_insert_le coinbase s.Signers
    have hmono := Finset.card_le_card (Finset.subset_insert coinbase s.Signers)
    refine h.mono ?_ ?_
    · simp only [limit, close]
      omega
    · simp only [limit, close]
      omega
  · -- one signer less: it may shrink by one block, whose entry is dropped
    have hcard := Finset.card_erase_le (s := s.Signers) (a := coinbase)
    have hmono := Finset.pred_card_le_card_erase (s := s.Signers) (a := coinbase)
    generalize hu : ({ s with Signers := s.Signers.erase coinbase } : Voting) = u
    have hlimit : s.limit ≤ u.limit + 1 ∧ u.limit ≤ s.limit := by
      subst hu
      simp only [limit]
      omega
    have hrecents : u.Recents = s.Recents := by rw [← hu]
    have hwindow : Window ecrecover done (u.forget done.length).Recents u.limit (u.limit + 1) := by
      refine forget_window ?_ (by omega) (by omega)
      rw [hrecents]
      exact h.mono (by omega) (by omega)
    obtain ⟨tally, hwithdraw⟩ := withdraw_eq (u.forget done.length) coinbase
    rw [hwithdraw]
    show Window ecrecover done (u.forget done.length).Recents _ _
    simpa [limit, close] using hwindow
  · exact h.mono (by omega) le_rfl

/-- **One header keeps the window.** -/
theorem Remembers.applyHeader (h : s.Remembers ecrecover done)
    (hnumber : header.number = done.length + 1)
    (ht : s.applyHeader config ecrecover header = .ok t) :
    t.Remembers ecrecover (done ++ [header]) := by
  obtain ⟨signer, authorize, hs, -, rfl⟩ := applyHeader_ok.mp ht
  rw [hnumber] at hs ⊢
  have hexact : Window ecrecover done
      ((s.reset config (done.length + 1)).forget (done.length + 1)).Recents s.limit s.limit :=
    h.exact
  have hlimit : ((s.reset config (done.length + 1)).forget (done.length + 1)).limit = s.limit := by
    simp [limit]
  generalize (s.reset config (done.length + 1)).forget (done.length + 1) = u at *
  have hsign := hexact.sign (by simp [limit]) (authorise_ok.mp hs).1
  rw [← hlimit] at hsign
  have hlen : done.length + 1 = (done ++ [header]).length := by simp
  unfold signed
  rw [hnumber]
  obtain ⟨votes, tally, hdiscard⟩ :=
    discard_eq { u with Recents := u.Recents.insert (done.length + 1) signer } signer
      header.coinbase
  rw [hdiscard]
  obtain ⟨votes', tally', hvote⟩ := vote_eq { u with
    Recents := u.Recents.insert (done.length + 1) signer, Votes := votes, Tally := tally } signer
      (done.length + 1) header.coinbase authorize
  rw [hvote, hlen]
  exact resolve_remembers header.coinbase (by simpa [limit, ← hlen] using hsign)

/-- **A run of headers keeps the window.** -/
theorem Remembers.foldlM (h : s.Remembers ecrecover done)
    (hnumbers : consecutive (done.length + 1) headers = true)
    (ht : headers.foldlM (Voting.applyHeader config ecrecover) s = .ok t) :
    t.Remembers ecrecover (done ++ headers) := by
  induction headers generalizing s done with
  | nil =>
    obtain rfl : s = t := Except.ok.inj ht
    rw [append_nil]
    exact h
  | cons header headers ih =>
    simp only [consecutive, Bool.and_eq_true, decide_eq_true_eq] at hnumbers
    obtain ⟨u, hu, ht⟩ := bind_ok.mp ht
    have hdone : done ++ header :: headers = (done ++ [header]) ++ headers := by simp
    rw [hdone]
    exact ih (h.applyHeader hnumbers.1 hu) (by simpa using hnumbers.2) ht

end Voting

/-! ## §3 — Signing spacing -/

namespace Snapshot

variable {config : CliqueConfig} {ecrecover : Header → Except CliqueError Address}
  {hash : Header → MxtChain.Hash} {genesis : MxtChain.Hash} {signers : List Address}
  {headers : List Header} {s : Snapshot}

theorem remembers_of_apply
    (hs : (newSnapshot 0 genesis signers).apply config ecrecover hash headers = .ok s) :
    s.Remembers ecrecover headers ∧ s.Number = headers.length := by
  have hinit : (newSnapshot 0 genesis signers).Remembers ecrecover [] := Window.empty
  by_cases hne : headers = []
  · subst hne
    obtain rfl := Except.ok.inj hs
    exact ⟨hinit, rfl⟩
  obtain ⟨hnumbers, hfold, hnumber, -⟩ := (apply_ok hne).mp hs
  refine ⟨hinit.foldlM (by simpa [newSnapshot] using hnumbers) hfold, ?_⟩
  rw [hnumber]
  exact Nat.zero_add _

/-- Right before the check, the recent signers are those of the last `len(Signers)/2` headers. -/
theorem recent_iff (config : CliqueConfig)
    (hs : (newSnapshot 0 genesis signers).apply config ecrecover hash headers = .ok s)
    {a : Address} :
    (∃ n, ((s.reset config (s.Number + 1)).forget (s.Number + 1)).Recents.find? n = some a) ↔
      ∃ g ∈ headers.drop (headers.length - s.Signers.card / 2), ecrecover g = .ok a := by
  obtain ⟨hrem, hnumber⟩ := remembers_of_apply hs
  have hwindow : Window ecrecover headers
      ((s.reset config (s.Number + 1)).forget (s.Number + 1)).Recents s.limit s.limit := by
    rw [hnumber]
    exact hrem.exact
  simp only [mem_iff_getElem?, getElem?_drop]
  constructor
  · rintro ⟨n, hn⟩
    obtain ⟨i, g, -, hg, ha, hlt⟩ := hwindow.sound n a hn
    simp only [limit] at hlt
    refine ⟨g, ⟨i - (headers.length - s.Signers.card / 2), ?_⟩, ha⟩
    rw [Nat.add_sub_cancel' (by omega)]
    exact hg
  · rintro ⟨g, ⟨j, hg⟩, ha⟩
    obtain ⟨b, hb, hfind⟩ := hwindow.complete _ g hg (by simp only [limit]; omega)
    rw [ha] at hb
    exact ⟨_, hfind.trans (congrArg some (Except.ok.inj hb).symm)⟩

end Snapshot

/-- **Signing spacing.** After any headers that are applied from the genesis block, the next header
of a signer is rejected as recently signed exactly if they signed one of the last `N / 2` headers,
where `N` is the number of signers; so two blocks among `N / 2 + 1` consecutive ones never have the
same signer. -/
theorem recently_signed_iff (config : CliqueConfig)
    (ecrecover : Header → Except CliqueError Address) (hash : Header → Hash) (genesis : Hash)
    (signers : List Address) (headers : List Header) {s : Snapshot}
    (hs : (newSnapshot 0 genesis signers).apply config ecrecover hash headers = .ok s) :
    (∀ (h : Header) (a : Address), h.number = s.Number + 1 → ecrecover h = .ok a → a ∈ s.Signers →
      (s.apply config ecrecover hash [h] = .error .errRecentlySigned ↔
        ∃ g ∈ headers.drop (headers.length - s.Signers.card / 2), ecrecover g = .ok a)) ∧
    (∀ (before between after : List Header) (g h : Header),
      headers = before ++ g :: between ++ h :: after →
      ∃ t : Snapshot, (newSnapshot 0 genesis signers).apply config ecrecover hash
          (before ++ g :: between) = .ok t ∧
        (between.length + 1 ≤ t.Signers.card / 2 → ecrecover g ≠ ecrecover h)) := by
  constructor
  · intro h a hnumber hrec hmem
    rw [apply_singleton hnumber, map_error, ← recent_iff config hs, ← hnumber]
    exact applyHeader_errRecentlySigned hrec hmem
  · intro before between after g h hheaders
    rw [hheaders] at hs
    obtain ⟨t, ht, hrest⟩ := apply_append_ok.mp hs
    have hnumber := number_of_apply_cons hrest
    have hcons : t.apply config ecrecover hash ([h] ++ after) = .ok s := hrest
    obtain ⟨u, hu, -⟩ := apply_append_ok.mp hcons
    rw [apply_singleton hnumber] at hu
    obtain ⟨v, hv, -⟩ := map_ok.mp hu
    obtain ⟨a, -, hauth, -, -⟩ := applyHeader_ok.mp hv
    obtain ⟨hrec, -, hnone⟩ := authorise_ok.mp hauth
    refine ⟨t, ht, fun hwithin heq => ?_⟩
    -- the earlier block of the same signer would be remembered
    have hmem : g ∈ (before ++ g :: between).drop
        ((before ++ g :: between).length - t.Signers.card / 2) := by
      rw [mem_iff_getElem?]
      simp only [getElem?_drop, length_append, length_cons]
      refine ⟨before.length - (before.length + (between.length + 1) - t.Signers.card / 2), ?_⟩
      rw [Nat.add_sub_cancel' (by omega), getElem?_append_right le_rfl]
      simp
    obtain ⟨n, hn⟩ := (recent_iff config ht).mpr ⟨g, hmem, heq.trans hrec⟩
    rw [← hnumber] at hn
    exact hnone n hn

/-- One of three signers may not sign twice in a row. -/
theorem recently_signed_iff_three : ∃ s : Snapshot,
    (newSnapshot 0 Hash.zero [account 1, account 2, account 3]).apply (.New 15 0) plainSeal
      (fun _ => Hash.zero) [ballot 1 1 default nonceDropVote] = .ok s ∧
    s.apply (.New 15 0) plainSeal (fun _ => Hash.zero) [ballot 2 1 default nonceDropVote] =
      .error .errRecentlySigned := by
  have hthree : ((newSnapshot 0 Hash.zero [account 1, account 2, account 3]).apply (.New 15 0)
      plainSeal (fun _ => Hash.zero) [ballot 1 1 default nonceDropVote]).toOption.map
        (fun s => (s.Number, s.Signers)) = some (1, {account 1, account 2, account 3}) := by
    decide +kernel
  obtain ⟨s, hs, hfields⟩ := Option.map_eq_some_iff.mp hthree
  obtain ⟨hnumber, hsigners⟩ := Prod.mk.inj hfields
  have happly := toOption_eq_some.mp hs
  refine ⟨s, happly, ((recently_signed_iff (.New 15 0) plainSeal (fun _ => Hash.zero) Hash.zero
    [account 1, account 2, account 3] _ happly).1 (ballot 2 1 default nonceDropVote) (account 1)
      ?_ ?_ ?_).mpr ?_⟩
  · rw [hnumber]
    rfl
  · decide +kernel
  · rw [hsigners]
    decide +kernel
  · rw [hsigners]
    decide +kernel

end MxtChain.Clique
