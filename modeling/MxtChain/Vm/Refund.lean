/-
# MxtChain.Vm.Refund — the refund counter.

Net metering takes back a refund that an earlier store of the same transaction was given. Two
potentials over all slots say why it can: what the counter must hold because it may be asked back
(`debt`), and what it may still be given for slots that have been written (`reserve`). The counter
is never below the debt, and together with the reserve it grows by at most five units for each unit
of gas; reverts put the slots and the counter back together.
-/
import MxtChain.Vm.Accounts

namespace MxtChain.Vm

open State Lib List Function Option Word

set_option linter.unusedSectionVars false

variable {C : Type} [CodeHash C] [DecidableEq C] {u u' k cost : Nat} {w w' w1 : World C}
  {a : Address} {value original current key : Hash} {φ : Hash → Hash → Nat} {ops : List Op}
  {p : NetGas} {r r' x y : UInt64} {op : Op} {operation : Operation} {rules : Rules} {env : Env C}
  {m m' m'' : Machine C} {f f' : Frame} {c : Charged} {st stack : Stack}

/-! ## §1 — The potentials -/

/-- What may be asked back for a slot, by its values before the transaction and now: the refund for
clearing it. -/
def debt (original current : Hash) : Nat :=
  if original ≠ Hash.zero ∧ current = Hash.zero then 15000 else 0

/-- What may still be given for a slot at the price of a dirty one. -/
def reserve (original current : Hash) : Nat :=
  if original = current then 0
  else if original = Hash.zero then 19800
  else if current = Hash.zero then 0
  else 15000

/-- The values of a slot before the transaction and now. -/
def slotOf (w : World C) (p : Address × Hash) : Hash × Hash :=
  (GetCommittedState w p.1 p.2, GetState w p.1 p.2)

theorem slotOf_refund (w : World C) (r : UInt64) :
    slotOf ({ w with refund := r } : World C) = slotOf w := rfl

/-- A potential of a slot, over all slots. -/
noncomputable def potential (φ : Hash → Hash → Nat) (w : World C) : Nat :=
  ∑ p, φ (slotOf w p).1 (slotOf w p).2

/-- The counter covers the debt, and with the reserve it is within a bound. -/
structure Refunded (u : Nat) (w : World C) : Prop where
  debt_le : potential debt w ≤ w.refund.toNat
  reserve_le : w.refund.toNat + potential reserve w ≤ u

theorem Refunded.mono (h : Refunded u w) (hle : u ≤ u') :
    Refunded u' w := ⟨h.debt_le, h.reserve_le.trans hle⟩

theorem potential_le_of_slots
    (h : ∀ p, φ (slotOf w' p).1 (slotOf w' p).2 ≤ φ (slotOf w p).1 (slotOf w p).2) :
    potential φ w' ≤ potential φ w :=
  Finset.sum_le_sum fun p _ => h p

theorem le_potential (φ : Hash → Hash → Nat) (w : World C) (p : Address × Hash) :
    φ (slotOf w p).1 (slotOf w p).2 ≤ potential φ w := by
  let f : Address × Hash → Nat := fun p => φ (slotOf w p).1 (slotOf w p).2
  have h : f p ≤ ∑ q, f q := Finset.single_le_sum (fun _ _ => Nat.zero_le _) (Finset.mem_univ p)
  exact h

theorem potential_write (φ : Hash → Hash → Nat) {p : Address × Hash}
    (h : slotOf w' = update (slotOf w) p ((slotOf w p).1, value)) :
    potential φ w' + φ (slotOf w p).1 (slotOf w p).2 = potential φ w + φ (slotOf w p).1 value := by
  have hf : (fun q => φ (slotOf w' q).1 (slotOf w' q).2) =
      update (fun q => φ (slotOf w q).1 (slotOf w q).2) p (φ (slotOf w p).1 value) := by
    funext q
    rw [h]
    by_cases hq : q = p
    · rw [hq, update_self, update_self]
    · rw [update_of_ne hq, update_of_ne hq]
  unfold potential
  rw [hf, Finset.sum_update_of_mem (Finset.mem_univ p)]
  have hsplit := Finset.sum_sdiff (f := fun q => φ (slotOf w q).1 (slotOf w q).2)
    (Finset.singleton_subset_iff.mpr (Finset.mem_univ p))
  rw [Finset.sum_singleton] at hsplit
  omega

theorem potential_of_slots (h : slotOf w' = slotOf w) : potential φ w' = potential φ w := by
  unfold potential
  rw [h]

/-- The slots and the counter are all that counts. -/
theorem Refunded.of_eq (h : Refunded u w) (hslots : slotOf w' = slotOf w)
    (hrefund : w'.refund = w.refund) : Refunded u w' := by
  refine ⟨?_, ?_⟩
  · rw [potential_of_slots hslots, hrefund]
    exact h.debt_le
  · rw [potential_of_slots hslots, hrefund]
    exact h.reserve_le

theorem slotOf_of_update {acc : LogicalAccount C}
    (h : account w' = update (account w) a acc) (hstate : acc.state = (account w a).state)
    (hcommitted : acc.committed = (account w a).committed) : slotOf w' = slotOf w := by
  funext ⟨b, key⟩
  simp only [slotOf, GetCommittedState_eq, GetState_eq, h]
  by_cases hb : b = a
  · rw [hb, update_self, hstate, hcommitted]
  · rw [update_of_ne hb]

theorem slotOf_of_account (h : account w' = account w) : slotOf w' = slotOf w := by
  funext ⟨b, key⟩
  simp only [slotOf, GetCommittedState_eq, GetState_eq, h]

theorem slotOf_setState (h : w.apply (.setState a key value) = some w') :
    slotOf w' = update (slotOf w) (a, key) ((slotOf w (a, key)).1, value) := by
  have hacc := account_setState h
  funext ⟨b, k⟩
  by_cases hb : b = a
  · subst hb
    by_cases hk : k = key
    · subst hk
      simp [slotOf, GetCommittedState_eq, GetState_eq, hacc]
    · simp [slotOf, GetCommittedState_eq, GetState_eq, hacc, hk]
  · simp [slotOf, GetCommittedState_eq, GetState_eq, hacc, hb]

/-- A new account has no values to ask anything back for. -/
theorem refunded_createAccount (hr : Refunded u w)
    (h : w.apply (.createAccount a) = some w') : Refunded u w' := by
  have hslots : ∀ p, slotOf w' p = if p.1 = a then (Hash.zero, Hash.zero) else slotOf w p := by
    intro ⟨b, key⟩
    have hacc := account_createAccount h
    by_cases hb : b = a
    · simp [slotOf, GetCommittedState_eq, GetState_eq, hacc, hb, LogicalAccount.fresh]
    · simp [slotOf, GetCommittedState_eq, GetState_eq, hacc, hb]
  have hle : ∀ φ : Hash → Hash → Nat, φ Hash.zero Hash.zero = 0 →
      potential φ w' ≤ potential φ w := by
    intro φ hφ
    refine potential_le_of_slots fun p => ?_
    rw [hslots]
    split
    · rw [hφ]
      exact Nat.zero_le _
    · exact le_rfl
  have hrefund := (sameBeside_of_apply (.inl rfl) h).refund
  refine ⟨?_, ?_⟩
  · rw [hrefund]
    exact (hle debt rfl).trans hr.debt_le
  · rw [hrefund]
    exact (Nat.add_le_add_left (hle reserve rfl) _).trans hr.reserve_le

/-! ## §2 — The price of a store -/

/-- What operations on the counter make of it. -/
def counter : UInt64 → List Op → Option UInt64
  | r, [] => some r
  | r, .addRefund gas :: ops => counter (r + gas) ops
  | r, .subRefund gas :: ops => if r < gas then none else counter (r - gas) ops
  | _, _ => none

theorem applyAll_counter (w : World C) (hops : ∀ op ∈ ops, refundOp op = true) :
    applyAll w ops = (counter w.refund ops).map fun r => { w with refund := r } := by
  induction ops generalizing w with
  | nil => rfl
  | cons op ops ih =>
    have hrest := fun w : World C => ih w fun op hop => hops op (mem_cons_of_mem _ hop)
    cases op with
    | addRefund gas => exact hrest { w with refund := w.refund + gas }
    | subRefund gas =>
      change (if w.refund < gas then none else some { w with refund := w.refund - gas }).bind _ = _
      by_cases hlt : w.refund < gas
      · simp [counter, hlt]
      · simp only [counter, if_neg hlt]
        exact hrest { w with refund := w.refund - gas }
    | _ => exact absurd (hops _ mem_cons_self) Bool.false_ne_true

/-- Prices and refunds that the potentials account for. -/
structure NetGas.Fair (p : NetGas) : Prop where
  clear : p.clearRefund = 15000
  resetClear : p.resetClearRefund.toNat ≤ 19800
  reset : p.resetRefund.toNat ≤ 4800
  init : 19800 ≤ 5 * p.init
  clean : 15000 ≤ 5 * p.clean

theorem fair_netGasEIP1283 : netGasEIP1283.Fair := by
  constructor <;> decide

theorem fair_netGasEIP2200 : netGasEIP2200.Fair := by
  constructor <;> decide

/-- **The refund that is asked back is there.** -/
theorem price_ok (hp : p.Fair) (hdebt : debt original current ≤ r.toNat) :
    ∃ r', counter r (p.price original current value).2 = some r' := by
  unfold NetGas.price
  rw [hp.clear]
  split
  · exact ⟨_, rfl⟩
  split
  · split
    · exact ⟨_, rfl⟩
    · split <;> exact ⟨_, rfl⟩
  by_cases horig : original = Hash.zero
  · rw [if_neg (not_not.mpr horig), nil_append]
    repeat' split
    all_goals exact ⟨_, rfl⟩
  rw [if_pos horig]
  by_cases hcurrent : current = Hash.zero
  · -- the slot has been cleared, and the counter holds its refund
    have hle : ¬r < 15000 := by
      rw [debt, if_pos ⟨horig, hcurrent⟩] at hdebt
      exact Nat.not_lt.mpr hdebt
    rw [if_pos hcurrent]
    simp only [singleton_append, counter, if_neg hle]
    repeat' split
    all_goals exact ⟨_, rfl⟩
  · rw [if_neg hcurrent]
    repeat' split
    all_goals exact ⟨_, rfl⟩

theorem toNat_add_of_lt (h : x.toNat + y.toNat < 2 ^ 64) : (x + y).toNat = x.toNat + y.toNat := by
  rw [UInt64.toNat_add, Nat.mod_eq_of_lt h]

/-- What a store leaves in the counter, against the potentials of its slot. -/
def PricedWell (r r' : UInt64) (original current value : Hash) (cost : Nat) : Prop :=
  r.toNat + debt original value ≤ r'.toNat + debt original current ∧
    r'.toNat + reserve original value ≤ r.toNat + reserve original current + 5 * cost

/-- A slot that the transaction has not written. -/
theorem price_clean (hp : p.Fair) (hne : original ≠ value)
    (hfit : r.toNat + 5 * (p.price original original value).1 < 2 ^ 64)
    (h : counter r (p.price original original value).2 = some r') :
    PricedWell r r' original original value (p.price original original value).1 := by
  have hinit := hp.init
  have hclean := hp.clean
  have hclear : (15000 : UInt64).toNat = 15000 := rfl
  unfold PricedWell
  simp only [NetGas.price, if_neg hne, if_true, hp.clear] at h hfit ⊢
  by_cases horig : original = Hash.zero
  · have hvalue : value ≠ Hash.zero := fun hv => hne (horig.trans hv.symm)
    simp only [if_pos horig, counter, some.injEq] at h ⊢
    subst h
    simp [debt, reserve, horig, hvalue, hvalue.symm]
    omega
  simp only [if_neg horig] at h hfit ⊢
  by_cases hvalue : value = Hash.zero
  · simp only [if_pos hvalue, counter, some.injEq] at h hfit ⊢
    have hadd := @toNat_add_of_lt r 15000 (by omega)
    rw [h, hclear] at hadd
    simp [debt, reserve, horig, hvalue]
    omega
  · simp only [if_neg hvalue, counter, some.injEq] at h ⊢
    subst h
    simp [debt, reserve, horig, hvalue, hne]
    omega

/-- A slot that was empty before the transaction and has been written. -/
theorem price_dirty_empty (hp : p.Fair) (hcurrent : current ≠ Hash.zero) (hne : current ≠ value)
    (hfit : r.toNat + 19800 < 2 ^ 64)
    (h : counter r (p.price Hash.zero current value).2 = some r') :
    PricedWell r r' Hash.zero current value (p.price Hash.zero current value).1 := by
  have hresetClear := hp.resetClear
  unfold PricedWell
  simp only [NetGas.price, if_neg hne, if_neg hcurrent.symm, ne_eq, not_true_eq_false, if_false,
    nil_append, if_true] at h ⊢
  by_cases hvalue : Hash.zero = value
  · simp only [if_pos hvalue, counter, some.injEq] at h
    have hadd := @toNat_add_of_lt r p.resetClearRefund (by omega)
    rw [h] at hadd
    simp [debt, reserve, hcurrent.symm, ← hvalue]
    omega
  · simp only [if_neg hvalue, counter, some.injEq] at h
    subst h
    simp [debt, reserve, hcurrent.symm, hvalue]

/-- A slot that had a value before the transaction and has been cleared. -/
theorem price_dirty_cleared (hp : p.Fair) (horig : original ≠ Hash.zero)
    (hvalue : Hash.zero ≠ value) (hdebt : 15000 ≤ r.toNat)
    (h : counter r (p.price original Hash.zero value).2 = some r') :
    PricedWell r r' original Hash.zero value (p.price original Hash.zero value).1 := by
  have hreset := hp.reset
  have hle : ¬r < 15000 := UInt64.not_lt.mpr (UInt64.le_iff_toNat_le.mpr hdebt)
  have hsub : (r - 15000).toNat = r.toNat - 15000 :=
    UInt64.toNat_sub_of_le _ _ (UInt64.not_lt.mp hle)
  have hlt := r.toNat_lt
  unfold PricedWell
  simp only [NetGas.price, if_neg hvalue, ne_eq, horig, not_false_eq_true, if_true, if_false,
    hp.clear, singleton_append, counter, if_neg hle] at h ⊢
  by_cases hback : original = value
  · simp only [if_pos hback, counter, some.injEq] at h
    have hadd := @toNat_add_of_lt (r - 15000) p.resetRefund (by omega)
    rw [h] at hadd
    simp [debt, reserve, horig, ← hback]
    omega
  · simp only [if_neg hback, counter, some.injEq] at h
    rw [h] at hsub
    simp [debt, reserve, horig, hvalue.symm, hback]
    omega

/-- A slot that had a value before the transaction and has got another one. -/
theorem price_dirty_changed (hp : p.Fair) (horig : original ≠ Hash.zero)
    (hcurrent : current ≠ Hash.zero) (hdirty : original ≠ current) (hne : current ≠ value)
    (hfit : r.toNat + 15000 < 2 ^ 64) (h : counter r (p.price original current value).2 = some r') :
    PricedWell r r' original current value (p.price original current value).1 := by
  have hreset := hp.reset
  have hclear : (15000 : UInt64).toNat = 15000 := rfl
  unfold PricedWell
  simp only [NetGas.price, if_neg hne, if_neg hdirty, ne_eq, horig, not_false_eq_true, if_true,
    if_neg hcurrent, hp.clear, if_false] at h ⊢
  by_cases hvalue : value = Hash.zero
  · have hback : original ≠ value := fun hb => horig (hb.trans hvalue)
    simp only [if_pos hvalue, if_neg hback, append_nil, counter, some.injEq] at h
    have hadd := @toNat_add_of_lt r 15000 (by omega)
    rw [h, hclear] at hadd
    simp [debt, reserve, horig, hcurrent, hdirty, hvalue]
    omega
  simp only [if_neg hvalue, nil_append] at h
  by_cases hback : original = value
  · simp only [if_pos hback, counter, some.injEq] at h
    have hadd := @toNat_add_of_lt r p.resetRefund (by omega)
    rw [h] at hadd
    simp [debt, reserve, hcurrent, hdirty, horig, ← hback]
    omega
  · simp only [if_neg hback, counter, some.injEq] at h
    subst h
    simp [debt, reserve, horig, hcurrent, hdirty, hvalue, hback]

/-- **What a store does to the counter.** -/
theorem price_counter (hp : p.Fair) (hdebt : debt original current ≤ r.toNat)
    (hfit : r.toNat + reserve original current + 5 * (p.price original current value).1 < 2 ^ 64)
    (h : counter r (p.price original current value).2 = some r') :
    PricedWell r r' original current value (p.price original current value).1 := by
  by_cases hsame : current = value
  · subst hsame
    simp only [NetGas.price, if_true, counter, some.injEq] at h ⊢
    subst h
    exact ⟨le_rfl, Nat.le_add_right _ _⟩
  by_cases hclean : original = current
  · subst hclean
    exact price_clean hp hsame (by omega) h
  by_cases horig : original = Hash.zero
  · subst horig
    have hreserve : reserve Hash.zero current = 19800 := by simp [reserve, hclean]
    exact price_dirty_empty hp (Ne.symm hclean) hsame (by omega) h
  by_cases hcurrent : current = Hash.zero
  · subst hcurrent
    rw [debt, if_pos ⟨horig, rfl⟩] at hdebt
    exact price_dirty_cleared hp horig hsame hdebt h
  · have hreserve : reserve original current = 15000 := by simp [reserve, hclean, horig, hcurrent]
    exact price_dirty_changed hp horig hcurrent hclean hsame (by omega) h

/-! ## §3 — The other operations -/

/-- Operations that neither write a slot nor touch the counter. -/
def slotSafe : Op → Bool
  | .addBalance _ _ | .subBalance _ _ | .setNonce _ _ | .setCode _ _ | .createAccount _
  | .suicide _ | .addLog _ | .addPreimage _ _ => true
  | _ => false

theorem refunded_apply (hop : slotSafe op = true) (hr : Refunded u w)
    (h : w.apply op = some w') : Refunded u w' := by
  cases op with
  | addBalance a amount =>
    exact hr.of_eq (slotOf_of_update (account_addBalance h) rfl rfl)
      (sameBeside_of_apply (.inl rfl) h).refund
  | subBalance a amount =>
    exact hr.of_eq (slotOf_of_update (account_subBalance h) rfl rfl)
      (sameBeside_of_apply (.inl rfl) h).refund
  | setNonce a nonce =>
    exact hr.of_eq (slotOf_of_update (account_setNonce h) rfl rfl)
      (sameBeside_of_apply (.inl rfl) h).refund
  | setCode a code =>
    exact hr.of_eq (slotOf_of_update (account_setCode h) rfl rfl)
      (sameBeside_of_apply (.inl rfl) h).refund
  | createAccount a => exact refunded_createAccount hr h
  | suicide a =>
    refine hr.of_eq ?_ (sameBeside_of_apply (.inl rfl) h).refund
    have hacc := account_suicide h
    split at hacc
    · exact slotOf_of_update hacc rfl rfl
    · exact slotOf_of_account hacc
  | addLog log =>
    refine hr.of_eq (slotOf_of_account (account_of_offAccounts rfl h)) ?_
    cases h
    rfl
  | addPreimage hash data =>
    exact hr.of_eq (slotOf_of_account (account_of_offAccounts rfl h))
      (sameBeside_of_apply (.inr ⟨hash, data, rfl⟩) h).refund
  | _ => cases hop

theorem refunded_applyAll (hops : ∀ op ∈ ops, slotSafe op = true)
    (hr : Refunded u w) (h : applyAll w ops = some w') : Refunded u w' := by
  induction ops generalizing w with
  | nil =>
    cases h
    exact hr
  | cons op ops ih =>
    obtain ⟨w1, h1, h⟩ := bind_eq_some_iff.mp h
    exact ih (fun op hop => hops op (mem_cons_of_mem _ hop))
      (refunded_apply (hops op mem_cons_self) hr h1) h

theorem slotSafe_of_preparing (h : preparing op = true) : slotSafe op = true := by
  cases op <;> first | rfl | cases h

theorem refunded_preparing (hops : ∀ op ∈ ops, preparing op = true)
    (hr : Refunded u w) (h : applyAll w ops = some w') : Refunded u w' :=
  refunded_applyAll (fun op hop => slotSafe_of_preparing (hops op hop)) hr h

/-! ## §4 — The instructions -/

/-- Net metering is in force, and with it the earlier price of self-destruction. -/
structure Metered (rules : Rules) : Prop where
  eip150 : rules.IsEIP150 = true
  net : rules.IsYoloV1 = true ∨ rules.IsIstanbul = true ∨
    rules.IsConstantinople = true ∧ rules.IsPetersburg = false

/-- An entry of a table refunds if it stores or destroys, with the gas function for that. -/
def refundsRight (e : UInt8 × Operation) : Bool :=
  match e.2.execute with
  | .instr .opSstore =>
    decide (e.2.dynamicGas = some .gasSStore ∨ e.2.dynamicGas = some .gasSStoreEIP2200)
  | .instr .opSuicide => decide (e.2.dynamicGas = some .gasSelfdestruct)
  | _ => !e.2.dynamicGas.any GasFunc.refunds

theorem refundsRight_of_lookup {op : UInt8}
    (h : (jumpTable rules).lookup op = some operation) : refundsRight (op, operation) = true :=
  of_all_entries (p := refundsRight) (by decide +kernel) h

/-- From Istanbul on every store has the prices of EIP 2200. -/
theorem storesEIP2200 (hrules : rules.IsYoloV1 = true ∨ rules.IsIstanbul = true)
    {op : UInt8} (h : (jumpTable rules).lookup op = some operation)
    (hstore : operation.execute = .instr .opSstore) :
    operation.dynamicGas = some .gasSStoreEIP2200 := by
  let p : UInt8 × Operation → Bool := fun e =>
    decide (e.2.execute = .instr .opSstore → e.2.dynamicGas = some .gasSStoreEIP2200)
  have hall : (jumpTable rules).all p = true := by
    unfold jumpTable
    split
    · decide +kernel
    · next hyolo =>
      rw [if_pos (hrules.resolve_left hyolo)]
      decide +kernel
  obtain ⟨l1, l2, heq, -⟩ := lookup_eq_some_iff.mp h
  have hmem : (op, operation) ∈ jumpTable rules := by
    rw [heq]
    exact mem_append_right _ mem_cons_self
  exact of_decide_eq_true (all_eq_true.mp hall _ hmem) hstore

theorem netSStore_eq {contract : Contract} {mem : Memory} {g : GasResult} {loc val : Word}
    (hst : stack = loc :: val :: st) (h : netSStore m contract stack mem p = .ok g) :
    (g.cost, g.ops) = p.price (GetCommittedState m.world contract.self (toHash loc))
      (GetState m.world contract.self (toHash loc)) (toHash val) := by
  subst hst
  cases h
  rfl

theorem Admitted.storePrice (h : Admitted env m f c) (hrules : Metered env.chainRules)
    (hop : c.operation.execute = .instr .opSstore) {loc val : Word}
    (hst : f.regs.stack = loc :: val :: st) : ∃ p : NetGas, p.Fair ∧ (c.gas.cost, c.gas.ops) =
      p.price (GetCommittedState m.world f.contract.self (toHash loc))
        (GetState m.world f.contract.self (toHash loc)) (toHash val) := by
  have hself : c.contract.self = f.contract.self := by
    obtain ⟨-, heq⟩ := UseGas_eq_some.mp h.constantGas
    rw [← heq]
  rw [← hself]
  have hright := refundsRight_of_lookup h.lookup
  simp only [refundsRight, hop, decide_eq_true_eq] at hright
  rcases dynamicCost_cases h.dynamicGas with ⟨hnone, -⟩ | ⟨func, hfunc, heval⟩
  · rw [hnone] at hright
    simp at hright
  rw [hfunc] at hright
  by_cases h2200 : func = .gasSStoreEIP2200
  · subst h2200
    change gasSStoreEIP2200 m c.contract f.regs.stack f.regs.memory = _ at heval
    unfold gasSStoreEIP2200 at heval
    split at heval
    · cases heval
    · exact ⟨_, fair_netGasEIP2200, netSStore_eq hst heval⟩
  -- the older gas function is in force before Istanbul only
  have hnet : env.chainRules.IsConstantinople = true ∧ env.chainRules.IsPetersburg = false := by
    rcases hrules.net with hr | hr | hr
    · have heq := storesEIP2200 (.inl hr) h.lookup hop
      rw [hfunc] at heq
      exact absurd (some.inj heq) h2200
    · have heq := storesEIP2200 (.inr hr) h.lookup hop
      rw [hfunc] at heq
      exact absurd (some.inj heq) h2200
    · exact hr
  obtain rfl : func = .gasSStore := by
    rcases hright with hr | hr
    · exact some.inj hr
    · exact absurd (some.inj hr) h2200
  change gasSStore env m c.contract f.regs.stack f.regs.memory = _ at heval
  unfold gasSStore at heval
  rw [if_neg (by simp [hnet])] at heval
  exact ⟨_, fair_netGasEIP1283, netSStore_eq hst heval⟩

/-- Self-destruction costs enough for its refund. -/
theorem Admitted.destroyPrice (h : Admitted env m f c) (hrules : Metered env.chainRules)
    (hop : c.operation.execute = .instr .opSuicide) :
    5000 ≤ c.gas.cost ∧ (c.gas.ops = [] ∨ c.gas.ops = [.addRefund 24000]) := by
  have hright := refundsRight_of_lookup h.lookup
  simp only [refundsRight, hop, decide_eq_true_eq] at hright
  rcases dynamicCost_cases h.dynamicGas with ⟨hnone, -⟩ | ⟨func, hfunc, heval⟩
  · rw [hnone] at hright
    cases hright
  rw [hfunc] at hright
  cases hright
  obtain ⟨address, -, heval⟩ := bind_ok.mp heval
  rw [← Except.ok.inj heval, if_pos hrules.eip150]
  refine ⟨Nat.le_add_right _ _, ?_⟩
  dsimp only
  split
  · exact .inl rfl
  · exact .inr rfl

theorem Admitted.quietPrice (h : Admitted env m f c)
    (hstore : c.operation.execute ≠ .instr .opSstore)
    (hdestroy : c.operation.execute ≠ .instr .opSuicide) : c.gas.ops = [] := by
  have hright := refundsRight_of_lookup h.lookup
  unfold refundsRight at hright
  split at hright
  · next heq => exact absurd heq hstore
  · next heq => exact absurd heq hdestroy
  rcases dynamicCost_cases h.dynamicGas with ⟨-, hg⟩ | ⟨func, hfunc, heval⟩
  · rw [hg]
  · rw [hfunc] at hright
    exact eval_ops_eq_nil (by simpa using hright) heval

theorem store_refunded (hp : p.Fair) (hr : Refunded u w)
    (hfit : u + 5 * k < 2 ^ 64) (hcost : cost ≤ k)
    (hprice : (cost, ops) = p.price (GetCommittedState w a key) (GetState w a key) value)
    (h1 : applyAll w ops = some w1) (h : w1.apply (.setState a key value) = some w') :
    Refunded (u + 5 * k) w' := by
  have hcost' : cost = (p.price (slotOf w (a, key)).1 (slotOf w (a, key)).2 value).1 :=
    congrArg Prod.fst hprice
  have hops : ops = (p.price (slotOf w (a, key)).1 (slotOf w (a, key)).2 value).2 :=
    congrArg Prod.snd hprice
  have hrefund : ∀ op ∈ ops, refundOp op = true := by
    rw [hops]
    exact price_refundOp _ _ _ _
  rw [applyAll_counter w hrefund] at h1
  obtain ⟨r', hr', rfl⟩ := map_eq_some_iff.mp h1
  rw [hops] at hr'
  have hdebt := le_potential debt w (a, key)
  have hreserve := le_potential reserve w (a, key)
  have hcover := hr.debt_le
  have hbound := hr.reserve_le
  obtain ⟨hlow, hhigh⟩ := price_counter hp (hdebt.trans hcover) (by omega) hr'
  have hslots := slotOf_setState h
  rw [slotOf_refund w r'] at hslots
  have hd := potential_write debt hslots
  have hres := potential_write reserve hslots
  have hafter : w'.refund = r' := (sameBeside_of_apply (.inl rfl) h).refund
  refine ⟨?_, ?_⟩
  · rw [hafter]
    omega
  · rw [hafter]
    omega

theorem destroy_refunded (hr : Refunded u w) (hfit : u + 5 * k < 2 ^ 64) (hcost : 5000 ≤ k)
    (hops : ops = [] ∨ ops = [.addRefund 24000]) (h1 : applyAll w ops = some w1) :
    Refunded (u + 5 * k) w1 := by
  rcases hops with rfl | rfl
  · cases h1
    exact hr.mono (Nat.le_add_right _ _)
  have hw1 : w1 = { w with refund := w.refund + 24000 } := (some.inj h1).symm
  have hslots : slotOf w1 = slotOf w := by
    rw [hw1]
    exact slotOf_refund w _
  have hcover := hr.debt_le
  have hbound := hr.reserve_le
  have hgas : (24000 : UInt64).toNat = 24000 := rfl
  have hadd : w1.refund.toNat = w.refund.toNat + 24000 := by
    have hsum := @toNat_add_of_lt w.refund 24000 (by omega)
    rw [hw1]
    exact hsum
  refine ⟨?_, ?_⟩
  · rw [potential_of_slots hslots]
    omega
  · rw [potential_of_slots hslots]
    omega

/-- **An instruction keeps the counter between its bounds.** -/
theorem instr_refunded (hrules : Metered env.chainRules) {op : Instr} {e : Effect}
    (hpaid : Paid env m f c m' f') (hop : c.operation.execute = .instr op)
    (hrun : op.run env m' f'.contract f'.regs = .ok e) (hm'' : m'.apply e.ops = .ok m'')
    (hfit : u + 5 * (c.operation.constantGas + c.gas.cost) < 2 ^ 64) (hr : Refunded u m.world) :
    Refunded (u + 5 * (c.operation.constantGas + c.gas.cost)) m''.world := by
  have hadm := hpaid.toAdmitted
  obtain ⟨hw', -, -⟩ := apply_plain
    (fun op hop => plainOp_of_refundOp (hadm.refundOp op hop)) hpaid.ops
  have heffect := stateEffect_of_run hrun
  have hw'' := (apply_plain heffect.plain hm'').1
  by_cases hstore : op = .opSstore
  · subst hstore
    obtain ⟨loc, val, st, hst, hops⟩ : ∃ loc val st, f'.regs.stack = loc :: val :: st ∧
        e.ops = [.setState f'.contract.self (toHash loc) (toHash val)] := by
      simp only [Instr.run] at hrun
      split at hrun
      · next hst =>
        cases hrun
        exact ⟨_, _, _, hst, rfl⟩
      · cases hrun
    have hstack : f.regs.stack = loc :: val :: st := by
      rw [← hst, hpaid.regs]
    have hself : f'.contract.self = f.contract.self := by rw [hpaid.contract]
    obtain ⟨p, hp, hprice⟩ := hadm.storePrice hrules hop hstack
    rw [hops, applyAll_singleton, hself] at hw''
    exact store_refunded hp hr hfit (Nat.le_add_left _ _) hprice hw' hw''
  · have hsafe : ∀ op ∈ e.ops, slotSafe op = true := by
      generalize e.ops = ops, e.destroyed = destroyed at heffect
      cases heffect with
      | store hst => exact absurd rfl hstore
      | _ => simp [slotSafe]
    refine refunded_applyAll hsafe ?_ hw''
    by_cases hdestroy : op = .opSuicide
    · subst hdestroy
      obtain ⟨hcost, hops⟩ := hadm.destroyPrice hrules hop
      exact destroy_refunded hr hfit (hcost.trans (Nat.le_add_left _ _)) hops hw'
    · rw [hadm.quietPrice (by simpa [hop] using hstore) (by simpa [hop] using hdestroy)] at hw'
      rw [← some.inj hw']
      exact hr.mono (Nat.le_add_right _ _)

/-! ## §5 — Runs -/

/-- A run that uses so much gas keeps the counter between its bounds. -/
def KeepsRefund (k : Nat) (x y : Books C) : Prop :=
  ∀ u, u + 5 * k < 2 ^ 64 → Refunded u x.1 → Refunded (u + 5 * k) y.1

theorem kept_refund (hrules : Metered env.chainRules) : Kept env fun _ => KeepsRefund where
  refl _ _ _ _ _ hr := hr.mono (Nat.le_add_right _ _)
  trans _ k k' _ _ _ h h' u hfit hr := by
    have hsum : u + 5 * (k + k') = u + 5 * k + 5 * k' := by ring
    rw [hsum] at hfit ⊢
    exact h' _ hfit (h u (by omega) hr)
  weaken _ _ _ h := h
  instr _ _ _ _ _ _ _ _ hpaid hop hrun hm'' u hfit hr :=
    instr_refunded hrules hpaid hop hrun hm'' hfit hr
  call _ _ _ _ req _ _ _ h _ _ hr := refunded_preparing (preparing_prelude req _) hr h
  nonce _ _ _ _ h _ _ hr := refunded_preparing (preparing_setNonce _ _) hr h
  create _ _ _ _ _ _ _ _ _ h _ _ hr :=
    refunded_preparing (preparing_createPrelude _ _ _ _) hr h
  code _ _ _ _ _ h _ _ hr := refunded_applyAll (by simp [slotSafe]) hr h

end MxtChain.Vm
