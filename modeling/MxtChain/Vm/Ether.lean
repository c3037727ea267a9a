/-
# MxtChain.Vm.Ether — a run moves ether and destroys some, but creates none.

The sum of all balances, with what has been destroyed, is the same before and after every call, and
no balance becomes negative. Ether is destroyed in one way only: a contract that destroys itself
and names itself as the beneficiary. An instance of the rule of `Vm.Kept`.
-/
import MxtChain.Vm.Accounts

namespace MxtChain.Vm

open State Lib Function Option

set_option linter.unusedSectionVars false

variable {C : Type} [CodeHash C] [DecidableEq C] {w w' : World C}
  {a recipient caller address self beneficiary : Address} {x y z : Books C} {env : Env C}
  {req : Request}

/-! ## §1 — The sum of the balances -/

/-- The sum of all balances. -/
noncomputable def totalBalance (w : World C) : Int := ∑ a, GetBalance w a

/-- No balance is negative. -/
def Solvent (w : World C) : Prop := ∀ a, 0 ≤ GetBalance w a

section

theorem balances_of_update {acc : LogicalAccount C} (h : account w' = update (account w) a acc) :
    GetBalance w' = update (GetBalance w) a acc.balance := by
  funext b
  rw [GetBalance_eq, h]
  by_cases hb : b = a
  · rw [hb, update_self, update_self]
  · rw [update_of_ne hb, update_of_ne hb, GetBalance_eq]

variable {amount : Int}

theorem totalBalance_of_update (h : GetBalance w' = update (GetBalance w) a amount) :
    totalBalance w' = totalBalance w - GetBalance w a + amount := by
  unfold totalBalance
  rw [h, Finset.sum_update_of_mem (Finset.mem_univ a), ← Finset.erase_eq,
    Finset.sum_erase_eq_sub (Finset.mem_univ a)]
  ring

theorem solvent_of_update (hs : Solvent w) (hamount : 0 ≤ amount)
    (h : GetBalance w' = update (GetBalance w) a amount) : Solvent w' := by
  intro b
  rw [h]
  by_cases hb : b = a
  · rw [hb, update_self]
    exact hamount
  · rw [update_of_ne hb]
    exact hs b

theorem balances_addBalance (h : w.apply (.addBalance a amount) = some w') :
    GetBalance w' = update (GetBalance w) a (GetBalance w a + amount) := by
  rw [balances_of_update (account_addBalance h), GetBalance_eq]

theorem balances_subBalance (h : w.apply (.subBalance a amount) = some w') :
    GetBalance w' = update (GetBalance w) a (GetBalance w a - amount) := by
  rw [balances_of_update (account_subBalance h), GetBalance_eq]

theorem balances_setNonce {nonce : UInt64} (h : w.apply (.setNonce a nonce) = some w') :
    GetBalance w' = GetBalance w := by
  rw [balances_of_update (account_setNonce h), ← GetBalance_eq, update_eq_self]

theorem balances_setCode {code : Bytes} (h : w.apply (.setCode a code) = some w') :
    GetBalance w' = GetBalance w := by
  rw [balances_of_update (account_setCode h), ← GetBalance_eq, update_eq_self]

theorem balances_setState {key value : Hash} (h : w.apply (.setState a key value) = some w') :
    GetBalance w' = GetBalance w := by
  rw [balances_of_update (account_setState h), ← GetBalance_eq, update_eq_self]

/-- An account that is created again keeps its balance. -/
theorem balances_createAccount (h : w.apply (.createAccount a) = some w') :
    GetBalance w' = GetBalance w := by
  rw [balances_of_update (account_createAccount h), ← GetBalance_eq, update_eq_self]

theorem balances_suicide (h : w.apply (.suicide a) = some w') :
    GetBalance w' = update (GetBalance w) a 0 := by
  have hacc := account_suicide h
  split at hacc
  · rw [balances_of_update hacc]
  next hexist =>
  -- an account that does not exist has no balance
  have hzero : GetBalance w a = 0 := by
    have hnone : w.accounts a = none := not_isSome_iff_eq_none.mp hexist
    unfold GetBalance
    rw [hnone]
    rfl
  rw [← hzero, update_eq_self]
  funext b
  rw [GetBalance_eq, GetBalance_eq, hacc]

theorem balances_of_offAccounts {op : Op} (hop : offAccounts op = true)
    (h : w.apply op = some w') : GetBalance w' = GetBalance w := by
  funext b
  rw [GetBalance_eq, GetBalance_eq, account_of_offAccounts hop h]

end

/-! ## §2 — The rule -/

/-- Between two states of the books: if no balance was negative none is, and what is gone from the
balances has been destroyed. -/
def Conserved (x y : Books C) : Prop :=
  Solvent x.1 → Solvent y.1 ∧ totalBalance y.1 + y.2 = totalBalance x.1 + x.2 ∧ x.2 ≤ y.2

namespace Conserved

theorem refl (x : Books C) : Conserved x x := fun h => ⟨h, rfl, le_rfl⟩

theorem trans (h : Conserved x y) (h' : Conserved y z) : Conserved x z := fun hs => by
  obtain ⟨hy, ht, hle⟩ := h hs
  obtain ⟨hz, ht', hle'⟩ := h' hy
  exact ⟨hz, ht'.trans ht, hle.trans hle'⟩

theorem of_eq (n : Int) (h : GetBalance w' = GetBalance w) : Conserved (w, n) (w', n) := by
  intro hs
  refine ⟨fun a => ?_, ?_, le_rfl⟩
  · rw [h]
    exact hs a
  · simp only [totalBalance, h]

end Conserved

section

theorem balances_applyAll {ops : List Op}
    (hops : ∀ op ∈ ops, ∀ w w' : World C, w.apply op = some w' → GetBalance w' = GetBalance w)
    (h : applyAll w ops = some w') : GetBalance w' = GetBalance w := by
  induction ops generalizing w with
  | nil =>
    cases h
    rfl
  | cons op ops ih =>
    obtain ⟨w1, h1, h⟩ := bind_eq_some_iff.mp h
    rw [ih (fun op hop => hops op (List.mem_cons_of_mem _ hop)) h,
      hops op List.mem_cons_self _ _ h1]

variable {sender : Address} {amount value : Nat}

/-- A transfer out of an account that has the amount. -/
theorem conserved_transfer (n : Int) (hfunds : (amount : Int) ≤ GetBalance w sender)
    (h : applyAll w (Transfer sender recipient amount) = some w') : Conserved (w, n) (w', n) := by
  obtain ⟨w1, h1, h⟩ := bind_eq_some_iff.mp h
  obtain ⟨w2, h2, h⟩ := bind_eq_some_iff.mp h
  cases h
  have hsub := balances_subBalance h1
  have hadd := balances_addBalance h2
  intro hs
  have hs1 := solvent_of_update hs (sub_nonneg.mpr hfunds) hsub
  refine ⟨solvent_of_update hs1 (Int.add_nonneg (hs1 _) (Int.natCast_nonneg _)) hadd, ?_, le_rfl⟩
  have ht1 := totalBalance_of_update hsub
  have ht2 := totalBalance_of_update hadd
  dsimp only
  omega

/-- A transfer is covered if its amount is nothing or has been checked. -/
theorem funds_of_check (hs : Solvent w) (h : amount = 0 ∨ CanTransfer w sender amount = true) :
    (amount : Int) ≤ GetBalance w sender := by
  rcases h with rfl | h
  · exact hs sender
  · exact of_decide_eq_true h

theorem conserved_prelude (n : Int)
    (hfunds : req.value = 0 ∨ req.kind = .DelegateCall ∨ req.kind = .StaticCall ∨
      CanTransfer w req.caller.self req.value = true)
    (h : applyAll w (req.prelude w) = some w') : Conserved (w, n) (w', n) := by
  intro hs
  unfold Request.prelude at h
  split at h
  · next hkind =>
    simp only [hkind, reduceCtorEq, false_or] at hfunds
    have hle := funds_of_check hs hfunds
    split at h
    · exact conserved_transfer n hle h hs
    obtain ⟨w1, h1, h⟩ := bind_eq_some_iff.mp h
    have hsame := balances_createAccount h1
    rw [← hsame] at hle
    exact (Conserved.of_eq n hsame).trans (conserved_transfer n hle h) hs
  · obtain ⟨w1, h1, h⟩ := bind_eq_some_iff.mp h
    cases h
    have hadd := balances_addBalance h1
    rw [Int.add_zero, update_eq_self] at hadd
    exact Conserved.of_eq n hadd hs
  · cases h
    exact Conserved.refl _ hs

theorem conserved_createPrelude (n : Int) (hfunds : (value : Int) ≤ GetBalance w caller)
    (h : applyAll w (createPrelude env caller address value) = some w') :
    Conserved (w, n) (w', n) := by
  obtain ⟨w1, h1, h⟩ := bind_eq_some_iff.mp h
  have hsame1 := balances_createAccount h1
  rw [← hsame1] at hfunds
  refine (Conserved.of_eq n hsame1).trans ?_
  split at h
  · obtain ⟨w2, h2, h⟩ := bind_eq_some_iff.mp h
    have hsame2 := balances_setNonce h2
    rw [← hsame2] at hfunds
    exact (Conserved.of_eq n hsame2).trans (conserved_transfer n hfunds h)
  · exact conserved_transfer n hfunds h

/-- **Self-destruction.** What the contract has goes to the beneficiary, or is destroyed if that is
the contract itself. -/
theorem conserved_suicide (n : Int)
    (h : applyAll w [.addBalance beneficiary (GetBalance w self), .suicide self] = some w') :
    Conserved (w, n)
      (w', n + if beneficiary = self then GetBalance w self else 0) := by
  obtain ⟨w1, h1, h⟩ := bind_eq_some_iff.mp h
  obtain ⟨w2, h2, h⟩ := bind_eq_some_iff.mp h
  cases h
  have hadd := balances_addBalance h1
  have hgone := balances_suicide h2
  intro hs
  have hs1 := solvent_of_update hs (Int.add_nonneg (hs beneficiary) (hs self)) hadd
  have ht1 := totalBalance_of_update hadd
  have ht2 := totalBalance_of_update hgone
  have hself : GetBalance w1 self =
      GetBalance w self + if beneficiary = self then GetBalance w self else 0 := by
    rw [hadd]
    split
    · next heq => rw [heq, update_self]
    · next hne => rw [update_of_ne (Ne.symm hne), Int.add_zero]
  refine ⟨solvent_of_update hs1 le_rfl hgone, ?_, ?_⟩
  · dsimp only
    omega
  · refine Int.le_add_of_nonneg_right ?_
    split
    · exact hs self
    · exact le_rfl

end

theorem conserved_instr {m m' m'' : Machine C} {f f' : Frame} {c : Charged}
    {op : Instr} {e : Effect} (hpaid : Paid env m f c m' f')
    (hrun : op.run env m' f'.contract f'.regs = .ok e) (hm'' : m'.apply e.ops = .ok m'') :
    Conserved m.books (m''.world, m''.destroyed + e.destroyed) := by
  obtain ⟨hw', hd', -⟩ := apply_plain
    (fun op hop => plainOp_of_refundOp (hpaid.toAdmitted.refundOp op hop)) hpaid.ops
  have hprice : GetBalance m'.world = GetBalance m.world := by
    refine balances_applyAll (fun op hop w w' => balances_of_offAccounts ?_) hw'
    have hrefund := hpaid.toAdmitted.refundOp op hop
    cases op with
    | addRefund gas | subRefund gas => rfl
    | _ => cases hrefund
  have hfirst : Conserved m.books (m'.world, m'.destroyed) := by
    rw [hd']
    exact .of_eq _ hprice
  refine hfirst.trans ?_
  have heffect := stateEffect_of_run hrun
  obtain ⟨hw, hd, -⟩ := apply_plain heffect.plain hm''
  rw [hd]
  generalize e.ops = ops, e.destroyed = destroyed at heffect hw
  cases heffect with
  | quiet op =>
    rw [← some.inj hw, Int.add_zero]
    exact .refl _
  | preimage hash data =>
    rw [applyAll_singleton] at hw
    rw [Int.add_zero]
    exact .of_eq _ (balances_of_offAccounts rfl hw)
  | store hst =>
    rw [Int.add_zero]
    exact .of_eq _ (balances_setState hw)
  | log size log =>
    rw [applyAll_singleton] at hw
    rw [Int.add_zero]
    exact .of_eq _ (balances_of_offAccounts rfl hw)
  | suicide beneficiary => exact conserved_suicide _ hw

theorem kept_conserved (env : Env C) : Kept env fun _ _ => Conserved where
  refl _ _ _ := .refl _
  trans _ _ _ _ _ _ := .trans
  weaken _ _ _ h := h
  instr _ _ _ _ _ _ _ _ hpaid _ hrun hm'' := conserved_instr hpaid hrun hm''
  call _ _ _ n _ _ _ hfunds h := conserved_prelude n hfunds h
  nonce _ _ n _ h := .of_eq n (balances_setNonce ((applyAll_singleton _ _).symm.trans h))
  create _ _ _ n _ _ _ hfunds hnonce h := by
    refine conserved_createPrelude n ?_ h
    rw [balances_setNonce ((applyAll_singleton _ _).symm.trans hnonce)]
    exact of_decide_eq_true hfunds
  code _ _ n _ _ h := .of_eq n (balances_setCode ((applyAll_singleton _ _).symm.trans h))

/-- **No ether is created by a call.** -/
theorem evm_conserved {m : Machine C} {r : Returned C} (hm : SnapshotsBelow m.session)
    (hperm : Permitted env m req) (h : evm env m req = .ok r) : Conserved m.books r.machine.books :=
  (evm_kept (kept_conserved env) hm hperm h).2

end MxtChain.Vm
