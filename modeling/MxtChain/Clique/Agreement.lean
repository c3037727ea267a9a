/-
# MxtChain.Clique.Agreement — `verifySeal` and `apply` on signers that signed lately.

Both have the rule that a signer may sign one of any `len(Signers)/2 + 1` consecutive blocks.
`apply` deletes the block that leaves the window and then looks the signer up; `verifySeal` compares
block numbers over the undeleted map, with `seen > number - limit` in words of 64 bits.

From block `limit` on the two agree: what is not deleted is above `number - limit`, by the window
of `Clique.Recents`. Below block `limit` the difference wraps around, and `verifySeal` has nothing
against a signer of any earlier block, while `apply` remembers all of them.
-/
import MxtChain.Clique.Path
import MxtChain.Clique.Recents

namespace MxtChain.Clique

open Consensus Lib Snapshot Voting

/-! ## §1 — The two checks -/

section Checks

variable {E : Engine} {genesis : Hash} {signers : List Address} {headers : List Header}
  {s : Snapshot} {h : Header} {a : Address} {authorize : Bool}

/-- The account signed one of the last `len(Signers)/2` headers. -/
def Lately (ecrecover : Header → Except CliqueError Address) (s : Voting) (headers : List Header)
    (a : Address) : Prop :=
  ∃ g ∈ headers.drop (headers.length - s.Signers.card / 2), ecrecover g = .ok a

/-- The signer of a header signed before, and the block number is below the limit: the window has
not moved yet. -/
def Early (ecrecover : Header → Except CliqueError Address) (s : Voting) (headers : List Header)
    (h : Header) : Prop :=
  h.number < s.limit ∧ ∃ g ∈ headers, ∃ a ∈ s.Signers, ecrecover g = .ok a ∧ ecrecover h = .ok a

/-- `apply` goes by the last headers. -/
theorem apply_iff
    (hs : (newSnapshot 0 genesis signers).apply E.config E.ecrecover E.hash headers = .ok s)
    (hnumber : h.number = s.Number + 1) (hnonce : voteOf h.nonce = .ok authorize)
    (hrec : E.ecrecover h = .ok a) : (∃ t, s.apply E.config E.ecrecover E.hash [h] = .ok t) ↔
      a ∈ s.Signers ∧ ¬ Lately E.ecrecover s.toVoting headers a := by
  rw [apply_singleton hnumber, Lately, ← recent_iff E.config hs, ← hnumber]
  simp only [map_ok, applyHeader_ok, authorise_ok, not_exists]
  constructor
  · rintro ⟨t, v, ⟨b, _, ⟨hb, hmem, hnone⟩, -, -⟩, -⟩
    obtain rfl := Except.ok.inj (hrec.symm.trans hb)
    simp only [forget_Signers, reset_Signers] at hmem
    exact ⟨hmem, hnone⟩
  · rintro ⟨hmem, hnone⟩
    refine ⟨_, _, ⟨a, authorize, ⟨hrec, ?_, hnone⟩, hnonce, rfl⟩, rfl⟩
    simp only [forget_Signers, reset_Signers]
    exact hmem

theorem checkSigner_ok {v : Voting} : E.checkSigner v h = .ok a ↔
    E.ecrecover h = .ok a ∧ a ∈ v.Signers ∧
      ¬ ∃ seen, v.Recents.find? seen = some a ∧ seen > Engine.subUint64 h.number v.limit := by
  unfold Engine.checkSigner
  cases hrec : E.ecrecover h with
  | error e => simp
  | ok b =>
    dsimp only
    have hany : (v.Recents.any fun seen recent =>
        recent = b ∧ seen > Engine.subUint64 h.number v.limit) = true ↔
        ∃ seen, v.Recents.find? seen = some b ∧ seen > Engine.subUint64 h.number v.limit := by
      rw [GoMap.any_iff]
      constructor
      · rintro ⟨seen, recent, hfind, hp⟩
        obtain ⟨rfl, hgt⟩ := of_decide_eq_true hp
        exact ⟨seen, hfind, hgt⟩
      · rintro ⟨seen, hfind, hgt⟩
        exact ⟨seen, b, hfind, decide_eq_true ⟨rfl, hgt⟩⟩
    constructor
    · intro hok
      split at hok
      · cases hok
      next hmem =>
      split at hok
      · cases hok
      next hnone =>
      obtain rfl := Except.ok.inj hok
      exact ⟨rfl, not_not.mp hmem, fun hseen => hnone (hany.mpr hseen)⟩
    · rintro ⟨hab, hmem, hnone⟩
      obtain rfl := Except.ok.inj hab
      rw [if_neg (not_not.mpr hmem), if_neg fun hseen => hnone (hany.mp hseen)]

/-- From block `limit` on, what is above `number - limit` in the map is what is not deleted. -/
theorem seen_iff (hs : (newSnapshot 0 genesis signers).apply E.config E.ecrecover E.hash headers =
      .ok s) (hnumber : h.number = s.Number + 1) (hlimit : s.limit ≤ h.number) :
    (∃ seen, s.Recents.find? seen = some a ∧ seen > Engine.subUint64 h.number s.limit) ↔
      Lately E.ecrecover s.toVoting headers a := by
  obtain ⟨hrem, hlength⟩ := remembers_of_apply hs
  have hsub : Engine.subUint64 h.number s.limit = h.number - s.limit := if_pos hlimit
  have hkept : ((s.reset E.config h.number).forget h.number).Recents =
      s.Recents.erase (h.number - s.limit) := by
    have hreset : (s.reset E.config h.number).limit = s.limit := by simp [limit]
    rw [forget, if_pos (by rw [hreset]; exact hlimit), hreset]
    simp only [reset_Recents]
  rw [Lately, ← recent_iff E.config hs, ← hnumber, hkept, hsub]
  simp only [GoMap.find?_erase]
  constructor
  · rintro ⟨seen, hfind, hgt⟩
    exact ⟨seen, by rw [if_neg (Nat.ne_of_gt hgt)]; exact hfind⟩
  · rintro ⟨seen, hfind⟩
    split at hfind
    · cases hfind
    next hne =>
    obtain ⟨i, g, hi, -, -, hlt⟩ := hrem.sound seen a hfind
    exact ⟨seen, hfind, by omega⟩

/-- Below block `limit` the difference wraps around, and nothing is above it. -/
theorem not_seen (hs : (newSnapshot 0 genesis signers).apply E.config E.ecrecover E.hash headers =
      .ok s) (hcard : s.Signers.card < 2 ^ 63) (hnumber : h.number = s.Number + 1)
    (hlimit : h.number < s.limit) :
    ¬ ∃ seen, s.Recents.find? seen = some a ∧ seen > Engine.subUint64 h.number s.limit := by
  obtain ⟨hrem, hlength⟩ := remembers_of_apply hs
  rintro ⟨seen, hfind, hgt⟩
  obtain ⟨i, g, hi, hg, -, -⟩ := hrem.sound seen a hfind
  have hin : i < headers.length := (List.getElem?_eq_some_iff.mp hg).1
  have hsub : Engine.subUint64 h.number s.limit = h.number + 2 ^ 64 - s.limit :=
    if_neg (Nat.not_le.mpr hlimit)
  rw [hsub] at hgt
  simp only [limit] at hgt
  omega

/-- Below block `limit` all headers are in the window. -/
theorem lately_of_early (hlength : s.Number = headers.length) (hnumber : h.number = s.Number + 1)
    (hlimit : h.number < s.limit) :
    Lately E.ecrecover s.toVoting headers a ↔ ∃ g ∈ headers, E.ecrecover g = .ok a := by
  have hall : headers.length - s.Signers.card / 2 = 0 := by
    simp only [limit] at hlimit
    omega
  rw [Lately, hall, List.drop_zero]

/-- **Where the two checks agree.** -/
theorem checks_agree_iff
    (hs : (newSnapshot 0 genesis signers).apply E.config E.ecrecover E.hash headers = .ok s)
    (hcard : s.Signers.card < 2 ^ 63) (hnumber : h.number = s.Number + 1)
    (hnonce : voteOf h.nonce = .ok authorize) (hrec : E.ecrecover h = .ok a) :
    ((∃ b, E.checkSigner s.toVoting h = .ok b) ↔
        ∃ t, s.apply E.config E.ecrecover E.hash [h] = .ok t) ↔
      ¬ Early E.ecrecover s.toVoting headers h := by
  have hlength := (remembers_of_apply hs).2
  have hcheck : (∃ b, E.checkSigner s.toVoting h = .ok b) ↔ a ∈ s.Signers ∧
      ¬ ∃ seen, s.Recents.find? seen = some a ∧ seen > Engine.subUint64 h.number s.limit := by
    simp only [checkSigner_ok, hrec, Except.ok.injEq, exists_eq_left']
  have hearly : Early E.ecrecover s.toVoting headers h ↔
      h.number < s.limit ∧ a ∈ s.Signers ∧ ∃ g ∈ headers, E.ecrecover g = .ok a := by
    simp only [Early, hrec, Except.ok.injEq]
    constructor
    · rintro ⟨hlt, g, hg, b, hmem, hgb, rfl⟩
      exact ⟨hlt, hmem, g, hg, hgb⟩
    · rintro ⟨hlt, hmem, g, hg, hga⟩
      exact ⟨hlt, g, hg, a, hmem, hga, rfl⟩
  rw [hcheck, apply_iff hs hnumber hnonce hrec, hearly]
  by_cases hlimit : h.number < s.limit
  · have hnone := not_seen (a := a) hs hcard hnumber hlimit
    rw [lately_of_early hlength hnumber hlimit]
    simp only [hnone, hlimit, not_false_eq_true, and_true, true_and]
    rw [iff_self_and, not_and]
  · rw [seen_iff hs hnumber (Nat.not_lt.mp hlimit)]
    simp only [hlimit, false_and, not_false_eq_true]

/-- What `verifySeal` accepts can be applied, unless it is early. -/
theorem apply_of_checkSigner
    (hs : (newSnapshot 0 genesis signers).apply E.config E.ecrecover E.hash headers = .ok s)
    (hnumber : h.number = s.Number + 1)
    (hnonce : voteOf h.nonce = .ok authorize) (hcheck : E.checkSigner s.toVoting h = .ok a)
    (hearly : ¬ Early E.ecrecover s.toVoting headers h) :
    ∃ t, s.apply E.config E.ecrecover E.hash [h] = .ok t := by
  obtain ⟨hrec, hmem, hnone⟩ := checkSigner_ok.mp hcheck
  refine (apply_iff hs hnumber hnonce hrec).mpr ⟨hmem, fun hlately => ?_⟩
  by_cases hlimit : h.number < s.limit
  · have hlength := (remembers_of_apply hs).2
    obtain ⟨g, hg, hga⟩ := (lately_of_early hlength hnumber hlimit).mp hlately
    exact hearly ⟨hlimit, g, hg, a, hmem, hga, hrec⟩
  · exact hnone ((seen_iff hs hnumber (Nat.not_lt.mp hlimit)).mpr hlately)

end Checks

/-! ## §2 — Chains of verified headers -/

namespace Tree

variable {E : Engine} (T : Tree E) {l : List Header} {h x : Header}

/-- The header was accepted by `verifyHeader`: at some time, with some chain and explicit parents,
where the snapshot of the parent did not take more headers than can be reorged. -/
def Accepted (x : Header) : Prop :=
  ∃ c chain parents, T.History c ∧ T.Reads chain ∧ (∀ y ∈ parents, y ∈ T.headers) ∧
    Few E chain c (x.number - 1) x.parentHash parents ∧
    (E.verifyHeader chain c x parents).1 = .ok ()

variable {T}

theorem fold_hash {s : Snapshot} (p : T.Path l h) (hfold : T.fold l = .ok s) :
    s.Hash = E.hash h ∧ s.Number = h.number := by
  have hnumber := (remembers_of_apply hfold).2
  refine ⟨?_, hnumber.trans p.number.symm⟩
  cases p with
  | nil =>
    obtain rfl := Except.ok.inj hfold
    rfl
  | snoc _ _ _ _ =>
    have hlast := ((apply_ok (by simp)).mp hfold).2.2.2
    rw [hlast, List.getLast_concat]

/-- Verification of a header checks its signer against the snapshot of its parent. -/
theorem Accepted.checkSigner (hx : T.Accepted x) (p : T.Path l h)
    (hparent : x.parentHash = E.hash h) (hnumber : x.number = h.number + 1) :
    ∃ s a authorize, T.fold l = .ok s ∧ E.checkSigner s.toVoting x = .ok a ∧
      voteOf x.nonce = .ok authorize := by
  obtain ⟨c, chain, parents, hc, hchain, hparents, hfew, hok⟩ := hx
  obtain ⟨hfields, hcascade⟩ := Engine.verifyHeader_ok hok
  obtain ⟨authorize, hnonce⟩ := Engine.checkFields_nonce hfields
  obtain ⟨s, c', hsnap, hseal⟩ := Engine.verifyCascadingFields_ok (by omega) hcascade
  obtain ⟨s', c'', a, hagain, hcheck⟩ := Engine.verifySeal_ok hseal
  have hfold := (snapshot_sound hchain hc.valid hparents hfew).2 s (by rw [hsnap]) l h p
    hparent.symm (by omega)
  -- the second call finds what the first one left in memory
  have hkept := Engine.snapshot_kept hsnap
  rw [(fold_hash p hfold).1, ← hparent] at hkept
  have hsame : (E.snapshot chain c' (x.number - 1) x.parentHash parents).1 = .ok s :=
    Engine.snapshot_of_recent hkept
  rw [hagain] at hsame
  obtain rfl := Except.ok.inj hsame
  exact ⟨s', a, authorize, hfold, hcheck, hnonce⟩

/-- **A chain of accepted headers has a snapshot at its tip**, unless one of them is early. -/
theorem fold_of_accepted (p : T.Path l h) (haccepted : ∀ x ∈ l, T.Accepted x)
    (hearly : ∀ a x b s, l = a ++ x :: b → T.fold a = .ok s → ¬ Early E.ecrecover s.toVoting a x) :
    ∃ s, T.fold l = .ok s := by
  induction p with
  | nil => exact ⟨_, rfl⟩
  | @snoc l h x p _ hparent hnumber ih =>
    obtain ⟨s, a, authorize, hs, hcheck, hnonce⟩ :=
      (haccepted x (by simp)).checkSigner p hparent hnumber
    have hnext : x.number = s.Number + 1 := by rw [(fold_hash p hs).2, hnumber]
    obtain ⟨t, ht⟩ := apply_of_checkSigner hs hnext hnonce hcheck (hearly l x [] s rfl hs)
    exact ⟨t, apply_append_ok.mpr ⟨s, hs, ht⟩⟩

end Tree

/-! ## §3 — The result -/

/-- **Verification and application agree exactly on the headers that are not early.** For every
snapshot that is reached from a genesis list of signers, and every next header with a valid nonce
and a seal that can be recovered, `verifySeal` accepts the signer if and only if the header can be
applied; except that it also accepts a signer who signed before, as long as the block number is
below `len(Signers)/2 + 1`. So every chain of accepted headers without such a header has a snapshot
at its tip. -/
theorem verify_agrees_iff (E : Engine) :
    (∀ (genesis : Hash) (signers : List Address) (headers : List Header) (s : Snapshot),
      (newSnapshot 0 genesis signers).apply E.config E.ecrecover E.hash headers = .ok s →
      s.Signers.card < 2 ^ 63 →
      ∀ (h : Header) (a : Address) (authorize : Bool), h.number = s.Number + 1 →
        voteOf h.nonce = .ok authorize → E.ecrecover h = .ok a →
        (((∃ b, E.checkSigner s.toVoting h = .ok b) ↔
            ∃ t, s.apply E.config E.ecrecover E.hash [h] = .ok t) ↔
          ¬ Early E.ecrecover s.toVoting headers h)) ∧
    (∀ (T : Tree E) (l : List Header) (h : Header), T.Path l h → (∀ x ∈ l, T.Accepted x) →
      (∀ a x b s, l = a ++ x :: b → T.fold a = .ok s → ¬ Early E.ecrecover s.toVoting a x) →
      ∃ s, T.fold l = .ok s) := by
  constructor
  · intro genesis signers headers s hs hcard h a authorize hnumber hnonce hrec
    exact checks_agree_iff hs hcard hnumber hnonce hrec
  · intro T l h p haccepted hearly
    exact Tree.fold_of_accepted p haccepted hearly

/-- The first account signs two blocks in a row. -/
def rowTree : Tree smallEngine := smallTree [smallHeader 1 1, smallHeader 2 1] (by decide +kernel)

/-- The chain of the two blocks. -/
def rowReader : ChainReader := listReader [smallGenesis, smallHeader 1 1, smallHeader 2 1]

theorem rowReader_reads : rowTree.Reads rowReader := listReader_reads _

theorem rowPath : rowTree.Path [smallHeader 1 1, smallHeader 2 1] (smallHeader 2 1) := by
  have hone : rowTree.Path [smallHeader 1 1] (smallHeader 1 1) :=
    .snoc .nil (List.mem_cons_of_mem _ List.mem_cons_self) (by decide +kernel) rfl
  exact .snoc hone (List.mem_of_getLast? rfl) (by decide +kernel) rfl

/-- Both blocks are accepted on fresh caches. -/
theorem row_accepted (x : Header) (hx : x = smallHeader 1 1 ∨ x = smallHeader 2 1) :
    rowTree.Accepted x := by
  refine ⟨.fresh, rowReader, [], .refl, rowReader_reads, by simp, ?_, ?_⟩
  · intro found hfound
    have hlen : ∀ x, x = smallHeader 1 1 ∨ x = smallHeader 2 1 →
        (smallEngine.search rowReader .fresh (x.number - 1) x.parentHash [] []).1.toOption.map
          (fun found => decide (found.2.length ≤ 1)) = some true := by
      rintro x (rfl | rfl) <;> decide +kernel
    have hone := hlen x hx
    rw [hfound] at hone
    exact (of_decide_eq_true (Option.some.inj hone)).trans (by decide)
  · rcases hx with rfl | rfl <;> decide +kernel

/-- **A chain without a snapshot**: of four signers, one signs the first two blocks. Verification
accepts both, one by one; the second cannot be applied to the snapshot of the first. -/
theorem verify_accepts_early : rowTree.Path [smallHeader 1 1, smallHeader 2 1] (smallHeader 2 1) ∧
    (∀ x ∈ [smallHeader 1 1, smallHeader 2 1], rowTree.Accepted x) ∧
    rowTree.fold [smallHeader 1 1, smallHeader 2 1] = .error .errRecentlySigned ∧
    ∃ s, rowTree.fold [smallHeader 1 1] = .ok s ∧
      (∃ b, smallEngine.checkSigner s.toVoting (smallHeader 2 1) = .ok b) ∧
      s.apply smallEngine.config smallEngine.ecrecover smallEngine.hash [smallHeader 2 1] =
        .error .errRecentlySigned := by
  have hfold : (rowTree.fold [smallHeader 1 1, smallHeader 2 1]).map (fun s => s.Number) =
      .error .errRecentlySigned := by decide +kernel
  have hone : (rowTree.fold [smallHeader 1 1]).toOption.map (fun s =>
      decide (smallEngine.checkSigner s.toVoting (smallHeader 2 1) = .ok (account 1))) =
        some true := by decide +kernel
  obtain ⟨s, hs, hcheck⟩ := Option.map_eq_some_iff.mp hone
  have hs := toOption_eq_some.mp hs
  refine ⟨rowPath, by simpa using ⟨row_accepted _ (.inl rfl), row_accepted _ (.inr rfl)⟩,
    map_error.mp hfold, s, hs, ⟨account 1, of_decide_eq_true hcheck⟩, ?_⟩
  rw [← apply_append_of_ok hs]
  exact map_error.mp hfold

/-- The first block of the same chain is not early: it has a snapshot. And on that snapshot the two
checks agree about a second block of another signer. -/
theorem verify_agrees_iff_first : ∃ s, rowTree.fold [smallHeader 1 1] = .ok s ∧
    ((∃ b, smallEngine.checkSigner s.toVoting (smallHeader 2 2) = .ok b) ↔
      ∃ t, s.apply smallEngine.config smallEngine.ecrecover smallEngine.hash [smallHeader 2 2] =
        .ok t) := by
  have hchain : ∃ s, rowTree.fold [smallHeader 1 1] = .ok s := by
    refine (verify_agrees_iff smallEngine).2 rowTree [smallHeader 1 1] (smallHeader 1 1) ?_ ?_ ?_
    · exact .snoc .nil (List.mem_cons_of_mem _ List.mem_cons_self) (by decide +kernel) rfl
    · simpa using row_accepted _ (.inl rfl)
    · intro a x b s hl _ hearly
      -- nothing stands before the only header
      rcases a with _ | ⟨y, a⟩
      · obtain ⟨-, g, hg, -⟩ := hearly
        cases hg
      · simp at hl
  have hfields : (rowTree.fold [smallHeader 1 1]).toOption.map (fun s =>
      (s.Number, s.Signers.card)) = some (1, 4) := by decide +kernel
  obtain ⟨s, hs⟩ := hchain
  rw [toOption_eq_some.mpr hs] at hfields
  obtain ⟨hnumber, hcard⟩ := Prod.mk.inj (Option.some.inj hfields)
  have hrec : smallEngine.ecrecover (smallHeader 2 2) = .ok (account 2) := by decide +kernel
  refine ⟨s, hs, ((verify_agrees_iff smallEngine).1 _ _ _ s hs (by rw [hcard]; decide)
    (smallHeader 2 2) (account 2) false (by rw [hnumber]; rfl) (by decide) hrec).mpr ?_⟩
  rintro ⟨-, g, hg, a, -, hga, hha⟩
  obtain rfl := List.mem_singleton.mp hg
  exact absurd (hga.trans hha.symm) (by decide +kernel)

end MxtChain.Clique
