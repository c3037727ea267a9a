/-
# MxtChain.Core.TransitionSpec — what a state transition does to gas and ether.

The gas of a message is bought from the pool, shrinks while it runs and goes back, so that none of
the counters wraps and the pool never overflows. From what a transition consists of (`Applied`) come
the conservation of ether and, in `Core.StateProcessor`, the accounting of a block.
-/
import MxtChain.Core.StateTransition
import MxtChain.Vm.Ether

namespace MxtChain.Core

open State Vm Lib

set_option linter.unusedSectionVars false

variable {C α : Type} [CodeHash C] [DecidableEq C]
  {gp gas refund amount gp' price count gas' x y : UInt64} {st st' st1 : StateTransition C}
  {env : Env C} {r : Returned C} {res : Except TxError ExecutionResult} {session : World.Session C}
  {msg : Message} {a : Address} {result : ExecutionResult} {m1 m2 m3 m m' : Machine C}
  {req : Request}

/-! ## §1 — The pool and the intrinsic gas -/

theorem toNat_max_sub (x : UInt64) : (MaxUint64 - x).toNat = 2 ^ 64 - 1 - x.toNat := by
  have hle : x ≤ MaxUint64 := UInt64.le_iff_toNat_le.mpr (Nat.le_pred_of_lt x.toNat_lt)
  rw [UInt64.toNat_sub_of_le _ _ hle]
  rfl

theorem SubGas_ok (h : SubGas gp amount = .ok gp') : gp'.toNat + amount.toNat = gp.toNat := by
  unfold SubGas at h
  split at h
  · cases h
  next hlt =>
  cases h
  have hle := UInt64.not_lt.mp hlt
  rw [UInt64.toNat_sub_of_le _ _ hle]
  exact Nat.sub_add_cancel (UInt64.le_iff_toNat_le.mp hle)

theorem AddGas_ok (h : gp.toNat + amount.toNat < 2 ^ 64) :
    AddGas gp amount = .ok (gp + amount) ∧ (gp + amount).toNat = gp.toNat + amount.toNat := by
  refine ⟨if_neg fun hgt => ?_, ?_⟩
  · have hlt := UInt64.lt_iff_toNat_lt.mp hgt
    rw [toNat_max_sub] at hlt
    omega
  · rw [UInt64.toNat_add, Nat.mod_eq_of_lt h]

/-- The price of the bytes is added without wrapping. -/
theorem addDataGas_ok (hprice : 0 < price.toNat) (h : addDataGas gas price count = .ok gas') :
    gas'.toNat = gas.toNat + count.toNat * price.toNat := by
  unfold addDataGas at h
  split at h
  · cases h
  next hfit =>
  cases h
  have hle := UInt64.le_iff_toNat_le.mp (UInt64.not_lt.mp hfit)
  rw [UInt64.toNat_div, toNat_max_sub, Nat.le_div_iff_mul_le hprice] at hle
  have hgas := gas.toNat_lt
  have hmul : count.toNat * price.toNat < 2 ^ 64 := by omega
  rw [UInt64.toNat_add, UInt64.toNat_mul, Nat.mod_eq_of_lt hmul, Nat.mod_eq_of_lt (by omega)]

/-- **The intrinsic gas**, with no sum that wraps. -/
theorem IntrinsicGas_ok {data : Bytes} {contractCreation isHomestead isEIP2028 : Bool}
    (h : IntrinsicGas data contractCreation isHomestead isEIP2028 = .ok gas) :
    gas.toNat = (if contractCreation && isHomestead then 53000 else 21000) +
      if data.length > 0 then
        (nonZeroBytes data).toNat * (if isEIP2028 then 16 else 68) +
          (UInt64.ofNat data.length - nonZeroBytes data).toNat * 4
      else 0 := by
  have hbase : (if contractCreation && isHomestead then TxGasContractCreation else TxGas).toNat =
      if contractCreation && isHomestead then 53000 else 21000 := by
    split <;> rfl
  have hprice : (if isEIP2028 then TxDataNonZeroGasEIP2028 else TxDataNonZeroGasFrontier).toNat =
      if isEIP2028 then 16 else 68 := by
    split <;> rfl
  unfold IntrinsicGas at h
  dsimp only at h
  split at h
  · next hlen =>
    obtain ⟨gas1, h1, h2⟩ := bind_ok.mp h
    have hpos : 0 < (if isEIP2028 then TxDataNonZeroGasEIP2028
        else TxDataNonZeroGasFrontier).toNat := by
      split <;> decide
    rw [if_pos hlen, addDataGas_ok (by decide) h2, addDataGas_ok hpos h1, hbase, hprice,
      Nat.add_assoc]
    rfl
  · next hlen =>
    cases h
    rw [if_neg hlen, hbase, Nat.add_zero]

/-! ## §2 — The steps of a transition -/

theorem carries_eq_false (h : x.toNat + y.toNat < 2 ^ 64) : carries x y = false :=
  decide_eq_false (Nat.not_le.mpr h)

theorem borrows_eq_false (h : y ≤ x) : borrows x y = false :=
  decide_eq_false (UInt64.not_lt.mpr h)

/-- The gas of the message has been bought from a pool, and some of it may have been used. -/
structure Bought (gp : UInt64) (st : StateTransition C) : Prop where
  initialGas : st.initialGas = st.msg.Gas
  gas_le : st.gas ≤ st.msg.Gas
  pool : st.gp.toNat + st.msg.Gas.toNat = gp.toNat
  wrapped : st.wrapped = false

namespace Bought

variable (h : Bought gp st)
include h

theorem toNat_gas_le : st.gas.toNat ≤ st.msg.Gas.toNat :=
  UInt64.le_iff_toNat_le.mp h.gas_le

theorem toNat_gasUsed : st.gasUsed.toNat = st.msg.Gas.toNat - st.gas.toNat := by
  unfold StateTransition.gasUsed
  rw [h.initialGas, UInt64.toNat_sub_of_le _ _ h.gas_le]

theorem borrows : Core.borrows st.initialGas st.gas = false := by
  rw [h.initialGas]
  exact borrows_eq_false h.gas_le

theorem use (hle : gas ≤ st.gas) (machine : Machine C) : Bought gp { st with gas, machine } :=
  { h with gas_le := UInt64.le_trans hle h.gas_le }

theorem take (hle : gas ≤ st.gas) : Bought gp { st with
      gas := st.gas - gas, wrapped := st.wrapped || Core.borrows st.gas gas } := by
  refine ⟨h.initialGas, UInt64.le_trans (UInt64.sub_le hle) h.gas_le, h.pool, ?_⟩
  rw [h.wrapped, borrows_eq_false hle]
  rfl

end Bought

/-- `refundGas` returns at most half of what was used, and all that is left to the pool. -/
theorem refundGas_ok (h : Bought gp st) :
    ∃ (refund : UInt64) (machine : Machine C) (gp' : UInt64), 2 * refund.toNat ≤ st.gasUsed.toNat ∧
      (st.gas + refund).toNat = st.gas.toNat + refund.toNat ∧
      st.machine.apply
        [.addBalance st.msg.From ((st.gas + refund).toNat * st.msg.GasPrice : Nat)] = .ok machine ∧
      st.refundGas = .ok { st with gp := gp', gas := st.gas + refund, machine, wrapped := false } ∧
      gp'.toNat + st.msg.Gas.toNat = gp.toNat + (st.gas + refund).toNat := by
  let half := st.gasUsed / 2
  let refund := if half > st.machine.world.refund then st.machine.world.refund else half
  have hrefund : refund.toNat ≤ st.gasUsed.toNat / 2 := by
    change (if _ then _ else _ : UInt64).toNat ≤ _
    split
    · next hlt => exact (UInt64.lt_iff_toNat_lt.mp hlt).le
    · exact le_rfl
  have hused := h.toNat_gasUsed
  have hle := h.toNat_gas_le
  have hpool := h.pool
  have hgp := gp.toNat_lt
  have hgas : (st.gas + refund).toNat = st.gas.toNat + refund.toNat := by
    rw [UInt64.toNat_add, Nat.mod_eq_of_lt (by omega)]
  obtain ⟨machine, hm⟩ : ∃ machine, st.machine.apply
      [.addBalance st.msg.From ((st.gas + refund).toNat * st.msg.GasPrice : Nat)] = .ok machine :=
    ⟨_, rfl⟩
  obtain ⟨hadd, hsum⟩ := @AddGas_ok st.gp (st.gas + refund) (by omega)
  refine ⟨refund, machine, st.gp + (st.gas + refund), by omega, hgas, hm, ?_, by omega⟩
  have hwrapped : (st.wrapped || borrows st.initialGas st.gas || carries st.gas refund) = false := by
    rw [h.wrapped, h.borrows, carries_eq_false (by omega)]
    rfl
  rw [← hwrapped]
  exact bind_ok.mpr ⟨machine, mapError_ok.mpr hm, bind_ok.mpr ⟨_, hadd, rfl⟩⟩

/-- What a transition that is not refused consists of: the gas is bought, the nonce counted up, the
message run, the rest of the gas paid back and the coinbase paid. -/
structure Applied (env : Env C) (session : World.Session C) (msg : Message) (gp : UInt64)
    (st : StateTransition C) (result : ExecutionResult) (m1 m2 m3 : Machine C) (req : Request)
    (r : Returned C) (refund : UInt64) : Prop where
  covered : ((msg.Gas.toNat * msg.GasPrice : Nat) : Int) ≤ GetBalance session.world msg.From
  bought : ({ session } : Machine C).apply
    [.subBalance msg.From (msg.Gas.toNat * msg.GasPrice : Nat)] = .ok m1
  prepared : m1.apply (if msg.To.isNone then []
    else [.setNonce msg.From (GetNonce m1.world msg.From + 1)]) = .ok m2
  gas_le : req.gas ≤ msg.Gas.toNat
  ran : evm env m2 req = .ok r
  refunded : r.machine.apply
    [.addBalance msg.From ((r.leftOverGas + refund.toNat) * msg.GasPrice : Nat)] = .ok m3
  paid : m3.apply [.addBalance env.Coinbase (result.UsedGas.toNat * msg.GasPrice : Nat)] =
    .ok st.machine
  used : result.UsedGas.toNat + refund.toNat + r.leftOverGas = msg.Gas.toNat
  half : 2 * refund.toNat ≤ msg.Gas.toNat - r.leftOverGas
  pool : st.gp.toNat + result.UsedGas.toNat = gp.toNat
  err : result.Err = r.err

theorem execute_ok (hb : Bought gp st) (h : st.execute env = .ok (st', r)) :
    ∃ m2, st.machine.apply (if st.msg.To.isNone then []
        else [.setNonce st.msg.From (GetNonce st.machine.world st.msg.From + 1)]) = .ok m2 ∧
      evm env m2 st.request = .ok r ∧ r.leftOverGas ≤ st.gas.toNat ∧
      st'.gas.toNat = r.leftOverGas ∧ st'.msg = st.msg ∧ st'.machine = r.machine ∧
      Bought gp st' := by
  obtain ⟨m2, hm2, h⟩ := bind_ok.mp h
  obtain ⟨r', hr, h⟩ := bind_ok.mp h
  cases h
  have hr := mapError_ok.mp hr
  have hle : r.leftOverGas ≤ st.gas.toNat := perform_gas_le (loop_frugal env _) hr
  have hgas : (UInt64.ofNat r.leftOverGas).toNat = r.leftOverGas :=
    UInt64.toNat_ofNat_of_lt' (hle.trans_lt st.gas.toNat_lt)
  refine ⟨m2, mapError_ok.mp hm2, hr, hle, hgas, rfl, rfl, hb.use ?_ _⟩
  rw [UInt64.le_iff_toNat_le, hgas]
  exact hle

/-- A transition that is not refused, after the checks. -/
theorem settleGas_ok (hb : Bought gp st) (h : st.settleGas env = .ok (st', res)) :
    ∃ (result : ExecutionResult) (m2 m3 : Machine C) (r : Returned C) (refund : UInt64),
      res = .ok result ∧
      st.machine.apply (if st.msg.To.isNone then []
        else [.setNonce st.msg.From (GetNonce st.machine.world st.msg.From + 1)]) = .ok m2 ∧
      evm env m2 st.request = .ok r ∧
      r.machine.apply [.addBalance st.msg.From
        ((r.leftOverGas + refund.toNat) * st.msg.GasPrice : Nat)] = .ok m3 ∧
      m3.apply [.addBalance env.Coinbase (result.UsedGas.toNat * st.msg.GasPrice : Nat)] =
        .ok st'.machine ∧
      result.UsedGas.toNat + refund.toNat + r.leftOverGas = st.msg.Gas.toNat ∧
      2 * refund.toNat ≤ st.msg.Gas.toNat - r.leftOverGas ∧
      st'.gp.toNat + result.UsedGas.toNat = gp.toNat ∧ result.Err = r.err ∧
      st'.wrapped = false := by
  obtain ⟨⟨st1, r⟩, h1, h⟩ := bind_ok.mp h
  obtain ⟨st2, h2, h⟩ := bind_ok.mp h
  obtain ⟨machine, hpaid, h⟩ := bind_ok.mp h
  cases h
  obtain ⟨m2, hm2, hr, -, hleft, hmsg, hmachine, hb1⟩ := execute_ok hb h1
  obtain ⟨refund, m3, gp', hhalf, hgas, hm3, hst2, hpool⟩ := refundGas_ok hb1
  obtain rfl := Except.ok.inj (hst2.symm.trans h2)
  have hused1 := hb1.toNat_gasUsed
  rw [hmsg] at hused1 hpool
  have hle := hb1.toNat_gas_le
  rw [hmsg] at hle
  -- what the refund leaves is no more than was bought
  have hle2 : st1.gas + refund ≤ st.msg.Gas := UInt64.le_iff_toNat_le.mpr (by omega)
  have hinit : st1.initialGas = st.msg.Gas := hb1.initialGas.trans (by rw [hmsg])
  have hused : (st1.initialGas - (st1.gas + refund)).toNat =
      st.msg.Gas.toNat - (st1.gas + refund).toNat := by
    rw [hinit, UInt64.toNat_sub_of_le _ _ hle2]
  rw [hmachine, hmsg, hgas, hleft] at hm3
  refine ⟨_, m2, m3, r, refund, rfl, hm2, hr, hm3, ?_, ?_, ?_, ?_, rfl, ?_⟩
  · rw [← hmsg]
    exact mapError_ok.mp hpaid
  · change (st1.initialGas - (st1.gas + refund)).toNat + _ + _ = _
    omega
  · omega
  · change gp'.toNat + (st1.initialGas - (st1.gas + refund)).toNat = _
    omega
  · change (false || borrows st1.initialGas (st1.gas + refund)) = false
    rw [hinit, borrows_eq_false hle2]
    rfl

theorem mapError_ne_gasPool {x : Except Crash α} :
    x.mapError Panic.vm ≠ .error .gasPool := fun h => by
  obtain ⟨c, -, h⟩ := mapError_error.mp h
  cases h

/-- After the checks the gas pool does not overflow. -/
theorem settleGas_ne_gasPool (hb : Bought gp st) : st.settleGas env ≠ .error .gasPool := by
  intro h
  rcases bind_error.mp h with h1 | ⟨⟨st1, r⟩, h1, h⟩
  · rcases bind_error.mp h1 with hm | ⟨m2, -, h1⟩
    · exact mapError_ne_gasPool hm
    · rcases bind_error.mp h1 with hr | ⟨r, -, h1⟩
      · exact mapError_ne_gasPool hr
      · cases h1
  obtain ⟨-, -, -, -, -, -, -, hb1⟩ := execute_ok hb h1
  obtain ⟨refund, m3, gp', -, -, -, hst2, -⟩ := refundGas_ok hb1
  rcases bind_error.mp h with h2 | ⟨st2, -, h⟩
  · rw [hst2] at h2
    cases h2
  · rcases bind_error.mp h with hm | ⟨m', -, h⟩
    · exact mapError_ne_gasPool hm
    · cases h

/-! ## §3 — A transition -/

/-- The message passes `preCheck`: its nonce is right, and the sender and the gas pool have what it
costs. -/
def Passes (session : World.Session C) (msg : Message) (gp : UInt64) : Prop :=
  (msg.CheckNonce = true → GetNonce session.world msg.From = msg.Nonce) ∧
    ((msg.Gas.toNat * msg.GasPrice : Nat) : Int) ≤ GetBalance session.world msg.From ∧ msg.Gas ≤ gp

/-- The transition once the gas is bought. -/
def boughtGas (msg : Message) (gp : UInt64) (machine : Machine C) : StateTransition C :=
  { gp := gp - msg.Gas, msg, machine
    gas := 0 + msg.Gas
    initialGas := msg.Gas
    wrapped := false || carries 0 msg.Gas }

theorem Passes.bought (h : Passes session msg gp) (machine : Machine C) :
    Bought gp (boughtGas msg gp machine) := by
  refine ⟨rfl, UInt64.le_of_eq (UInt64.zero_add _), ?_, ?_⟩
  · exact SubGas_ok (if_neg (UInt64.not_lt.mpr h.2.2))
  · exact carries_eq_false ((Nat.zero_add _).trans_lt msg.Gas.toNat_lt)

/-- A message is refused at once, or its gas is bought. -/
theorem TransitionDb_factor (env : Env C) (session : World.Session C) (msg : Message) (gp : UInt64) :
    (¬ Passes session msg gp ∧ ∃ e, (NewStateTransition session msg gp).TransitionDb env =
      .ok (NewStateTransition session msg gp, .error e)) ∨
    (Passes session msg gp ∧ (NewStateTransition session msg gp).TransitionDb env =
      ((({ session } : Machine C).apply
          [.subBalance msg.From (msg.Gas.toNat * msg.GasPrice : Nat)]).mapError .vm).bind
        fun machine => (boughtGas msg gp machine).afterCheck env) := by
  unfold StateTransition.TransitionDb
  generalize hx : (NewStateTransition session msg gp).preCheck = x
  unfold StateTransition.preCheck at hx
  dsimp only at hx
  split at hx
  · next hhigh =>
    subst hx
    exact .inl ⟨fun hp => UInt64.lt_irrefl _ (hp.1 hhigh.1 ▸ hhigh.2), _, rfl⟩
  next hhigh =>
  split at hx
  · next hlow =>
    subst hx
    exact .inl ⟨fun hp => UInt64.lt_irrefl _ (hp.1 hlow.1 ▸ hlow.2), _, rfl⟩
  next hlow =>
  unfold StateTransition.buyGas SubGas at hx
  dsimp only at hx
  split at hx
  · next hfunds =>
    subst hx
    exact .inl ⟨fun hp => Int.not_lt.mpr hp.2.1 hfunds, _, rfl⟩
  next hfunds =>
  by_cases hpool : (NewStateTransition session msg gp).gp < (NewStateTransition session msg gp).msg.Gas
  · rw [if_pos hpool] at hx
    subst hx
    exact .inl ⟨fun hp => UInt64.not_lt.mpr hp.2.2 hpool, _, rfl⟩
  rw [if_neg hpool] at hx
  subst hx
  refine .inr ⟨⟨fun hc => ?_, Int.not_lt.mp hfunds, UInt64.not_lt.mp hpool⟩, ?_⟩
  · exact UInt64.le_antisymm (UInt64.not_lt.mp fun h => hlow ⟨hc, h⟩)
      (UInt64.not_lt.mp fun h => hhigh ⟨hc, h⟩)
  · rfl

/-- After that it is refused, or run with what the intrinsic gas leaves. -/
theorem afterCheck_factor (env : Env C) (st : StateTransition C) :
    (∃ st' e, st.afterCheck env = .ok (st', .error e) ∧ st'.gp = st.gp ∧
      st'.machine = st.machine ∧ st'.wrapped = st.wrapped) ∨
    ∃ gas, gas ≤ st.gas ∧ st.afterCheck env = StateTransition.settleGas
      { st with gas := st.gas - gas, wrapped := st.wrapped || borrows st.gas gas } env := by
  unfold StateTransition.afterCheck
  dsimp only
  split
  · exact .inl ⟨st, _, rfl, rfl, rfl, rfl⟩
  next gas _ =>
  split
  · exact .inl ⟨st, _, rfl, rfl, rfl, rfl⟩
  next hlt =>
  have hle := UInt64.not_lt.mp hlt
  split
  · refine .inl ⟨_, _, rfl, rfl, rfl, ?_⟩
    rw [borrows_eq_false hle, Bool.or_false]
  · exact .inr ⟨gas, hle, rfl⟩

/-- **What a transition can lead to.** No counter wraps. -/
theorem TransitionDb_cases (h : (NewStateTransition session msg gp).TransitionDb env = .ok (st, res)) :
    st.wrapped = false ∧ ∀ result, res = .ok result → ∃ m1 m2 m3 req r refund,
        Applied env session msg gp st result m1 m2 m3 req r refund := by
  rcases TransitionDb_factor env session msg gp with ⟨-, e, heq⟩ | ⟨hpass, heq⟩
  · cases heq.symm.trans h
    exact ⟨rfl, nofun⟩
  obtain ⟨m1, hbought, h⟩ := bind_ok.mp (heq.symm.trans h)
  have hb := hpass.bought m1
  rcases afterCheck_factor env (boughtGas msg gp m1) with ⟨st', e, heq, -, -, hw⟩ | ⟨gas, hle, heq⟩
  · cases heq.symm.trans h
    exact ⟨hw.trans hb.wrapped, nofun⟩
  have hb2 := hb.take hle
  obtain ⟨result, m2, m3, r, refund, hres, hm2, hr, hm3, hpaid, hused, hhalf, hpool, herr,
    hfalse⟩ := settleGas_ok hb2 (heq.symm.trans h)
  refine ⟨hfalse, fun result' hres' => ?_⟩
  obtain rfl := Except.ok.inj (hres.symm.trans hres')
  exact ⟨m1, m2, m3, _, r, refund, hpass.2.1, mapError_ok.mp hbought, hm2, hb2.toNat_gas_le, hr,
    hm3, hpaid, hused, hhalf, hpool, herr⟩

/-- **The gas pool never overflows.** -/
theorem TransitionDb_ne_gasPool :
    (NewStateTransition session msg gp).TransitionDb env ≠ .error .gasPool := by
  intro h
  rcases TransitionDb_factor env session msg gp with ⟨-, e, heq⟩ | ⟨hpass, heq⟩
  · cases heq.symm.trans h
  rcases bind_error.mp (heq.symm.trans h) with hm | ⟨m1, -, h⟩
  · exact mapError_ne_gasPool hm
  · rcases afterCheck_factor env (boughtGas msg gp m1) with ⟨st', e, heq, -⟩ | ⟨gas, hle, heq⟩
    · cases heq.symm.trans h
    · exact settleGas_ne_gasPool ((hpass.bought m1).take hle) (heq.symm.trans h)

/-! ## §4 — Ether -/

/-- One operation of a transition on a balance or a nonce. -/
theorem apply_one {op : Op} (hop : plainOp op = true) (h : m.apply [op] = .ok m') :
    m.world.apply op = some m'.world ∧ m'.destroyed = m.destroyed ∧ Carried m m' := by
  have hplain : ∀ op' ∈ [op], plainOp op' = true := fun op' h => by
    rw [List.mem_singleton.mp h]
    exact hop
  obtain ⟨hw, hd, hc⟩ := apply_plain hplain h
  exact ⟨(applyAll_singleton _ _).symm.trans hw, hd, hc⟩

theorem credited {w w' : World C} {amount : Nat} (hs : Solvent w)
    (h : w.apply (.addBalance a amount) = some w') :
    Solvent w' ∧ totalBalance w' = totalBalance w + amount := by
  have hadd := balances_addBalance h
  refine ⟨solvent_of_update hs (Int.add_nonneg (hs a) (Int.natCast_nonneg _)) hadd, ?_⟩
  have ht := totalBalance_of_update hadd
  omega

/-- A debit that the account has the balance for. -/
theorem debited {w w' : World C} {amount : Nat} (hs : Solvent w)
    (hfunds : (amount : Int) ≤ GetBalance w a) (h : w.apply (.subBalance a amount) = some w') :
    Solvent w' ∧ totalBalance w' = totalBalance w - amount := by
  have hsub := balances_subBalance h
  refine ⟨solvent_of_update hs (sub_nonneg.mpr hfunds) hsub, ?_⟩
  have ht := totalBalance_of_update hsub
  omega

/-- The nonce is not counted up by a creation, which does so itself. -/
theorem Applied.prepared_carried (h : Applied env session msg gp st result m1 m2 m3 req r refund) :
    GetBalance m2.world = GetBalance m1.world ∧ m2.destroyed = m1.destroyed ∧ Carried m1 m2 := by
  have hprepared := h.prepared
  split at hprepared
  · cases hprepared
    exact ⟨rfl, rfl, .refl _⟩
  · obtain ⟨hw, hd, hc⟩ := apply_one rfl hprepared
    exact ⟨balances_setNonce hw, hd, hc⟩

/-- The run of the message neither creates ether nor leaves the books. -/
theorem Applied.ran_conserved (h : Applied env session msg gp st result m1 m2 m3 req r refund)
    (hm : SnapshotsBelow session) : Conserved m1.books r.machine.books := by
  obtain ⟨-, -, hc1⟩ := apply_one rfl h.bought
  obtain ⟨hbalances, hd, hc2⟩ := h.prepared_carried
  have hnonce : Conserved m1.books m2.books := by
    have heq : m2.books = (m2.world, m1.destroyed) := Prod.ext rfl hd
    rw [heq]
    exact .of_eq _ hbalances
  have hbelow := (hc1.trans hc2).grown.below hm
  have hreadOnly : m2.readOnly = false := (hc1.trans hc2).readOnly
  refine hnonce.trans (evm_conserved hbelow (fun hp => ?_) h.ran)
  simp [isProtected, hreadOnly] at hp

/-- **No ether is created.** After a transition that is not refused no balance is negative, and the
sum of all balances, the coinbase's with its fee included, has become smaller by exactly what
contracts have destroyed that named themselves as the beneficiary. -/
theorem transition_creates_no_ether (env : Env C) (session : World.Session C) (msg : Message)
    (gp : UInt64) (st : StateTransition C) (result : ExecutionResult)
    (hm : SnapshotsBelow session) (hs : Solvent session.world)
    (h : (NewStateTransition session msg gp).TransitionDb env = .ok (st, .ok result)) :
    Solvent st.machine.world ∧ totalBalance st.machine.world ≤ totalBalance session.world ∧
      totalBalance st.machine.world = totalBalance session.world - st.machine.destroyed := by
  obtain ⟨m1, m2, m3, req, r, refund, ha⟩ := (TransitionDb_cases h).2 result rfl
  obtain ⟨hw1, hd1, -⟩ := apply_one rfl ha.bought
  obtain ⟨hw3, hd3, -⟩ := apply_one rfl ha.refunded
  obtain ⟨hw4, hd4, -⟩ := apply_one rfl ha.paid
  obtain ⟨hs1, ht1⟩ := debited hs ha.covered hw1
  obtain ⟨hs2, ht2, hle⟩ := ha.ran_conserved hm hs1
  obtain ⟨hs3, ht3⟩ := credited (w := r.machine.world) hs2 hw3
  obtain ⟨hs4, ht4⟩ := credited hs3 hw4
  -- what is paid back and what the coinbase gets is what the gas was bought for
  have hfee : result.UsedGas.toNat * msg.GasPrice + (r.leftOverGas + refund.toNat) * msg.GasPrice =
      msg.Gas.toNat * msg.GasPrice := by
    rw [← Nat.add_mul, ← ha.used]
    ring
  have hnone : m1.destroyed = 0 := hd1
  simp only [Machine.books, hnone] at ht2 hle
  refine ⟨hs4, ?_, ?_⟩
  · omega
  · omega

/-- A world with one account that has ether. -/
def fundedWorld : World Bytes :=
  emptyWorld.create default { LogicalAccount.fresh with balance := 100000 }

/-- A message that transfers a few units. -/
def transferMessage : Message where
  From := default
  To := some (Address.ofBytes [7])
  GasPrice := 2
  Gas := 30000
  Value := 5
  Nonce := 0
  CheckNonce := true
  Data := []

theorem fundedWorld_solvent : Solvent fundedWorld := by
  intro a
  rw [GetBalance_eq, fundedWorld, account_create]
  by_cases ha : a = default
  · rw [ha, Function.update_self]
    decide
  · rw [Function.update_of_ne ha]
    exact le_rfl

/-- A transfer costs its intrinsic gas and destroys nothing. -/
theorem transition_creates_no_ether_transfer :
    ∃ st result, (NewStateTransition { world := fundedWorld } transferMessage 50000).TransitionDb
        (sampleEnv { IsHomestead := true }) = .ok (st, .ok result) ∧
      result.UsedGas = 21000 ∧ Solvent st.machine.world ∧
      totalBalance st.machine.world ≤ totalBalance fundedWorld ∧
      totalBalance st.machine.world = totalBalance fundedWorld - 0 := by
  refine ⟨_, _, rfl, rfl, ?_⟩
  exact transition_creates_no_ether (sampleEnv { IsHomestead := true }) { world := fundedWorld }
    transferMessage 50000 _ _ (nofun) fundedWorld_solvent rfl

end MxtChain.Core
