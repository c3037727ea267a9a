/-
# MxtChain.Consensus.GasLimit — the gas limits that are proposed and those that are accepted.

`CalcGasLimit` of `core/block_validator.go` proposes the gas limit of the next block: less than that
of the parent by a 1024th, more by what the parent has used, and towards a range of the miner's
choice. `verifyHeader` accepts a step of less than a 1024th, up to a limit of 2⁶³ - 1. The two do
not agree on the smallest limits, where a full parent gains a step too many, nor above 2⁶³ - 1,
where only the range of the miner could hold the proposal down.
-/
import MxtChain.Consensus.Header

namespace MxtChain.Consensus

/-! ## §1 — The source -/

def CalcGasLimit (parent : Header) (gasFloor gasCeil : UInt64) : UInt64 :=
  let contrib := (parent.gasUsed + parent.gasUsed / 2) / GasLimitBoundDivisor
  let decay := parent.gasLimit / GasLimitBoundDivisor - 1
  let limit := parent.gasLimit - decay + contrib
  let limit := if limit < MinGasLimit then MinGasLimit else limit
  if limit < gasFloor then
    let limit := parent.gasLimit + decay
    if limit > gasFloor then gasFloor else limit
  else if limit > gasCeil then
    let limit := parent.gasLimit - decay
    if limit < gasCeil then gasCeil else limit
  else limit

/-- The checks of `verifyHeader` on a gas limit. -/
def gasLimitError (header parent : Header) : Option VerifyErr :=
  if header.gasLimit > 0x7fffffffffffffff then some (.gasLimitCap header.gasLimit)
  else
    let diff := parent.gasLimit.toInt64 - header.gasLimit.toInt64
    let diff := if diff < 0 then -diff else diff
    let limit := parent.gasLimit / GasLimitBoundDivisor
    if diff.toUInt64 ≥ limit ∨ header.gasLimit < MinGasLimit then
      some (.gasLimit header.gasLimit parent.gasLimit limit)
    else none

/-- They are the part of `verifyHeader` that is about the gas limit alone. -/
theorem verifyHeader_eq_none_iff {hash : Header → Hash} {E : Engine} {header parent : Header}
    {uncle withSeal : Bool} : verifyHeader hash E header parent uncle withSeal = none ↔
      gasLimitError header parent = none ∧ header.extra.length ≤ MaximumExtraDataSize ∧
      ¬ (!uncle ∧ header.time > E.latest) ∧ ¬ header.time ≤ parent.time ∧
      E.CalcDifficulty header.time parent = header.difficulty ∧
      ¬ header.gasUsed > header.gasLimit ∧ (header.number : Int) - parent.number = 1 ∧
      verifySpecial hash E header uncle withSeal = none := by
  simp only [verifyHeader, gasLimitError, ite_some_eq_none, not_lt, gt_iff_lt, ne_eq, not_not]
  tauto

/-! ## §2 — Without wraps -/

/-- The proposal, in natural numbers. -/
def proposal (limit used floor ceil : Nat) : Nat :=
  let next := max 5000 (limit - (limit / 1024 - 1) + (used + used / 2) / 1024)
  if next < floor then min floor (limit + (limit / 1024 - 1))
  else if ceil < next then max ceil (limit - (limit / 1024 - 1))
  else next

variable {header parent : Header} {gasFloor gasCeil a b : UInt64}

theorem toNat_CalcGasLimit (hmin : 5000 ≤ parent.gasLimit.toNat)
    (hcap : parent.gasLimit.toNat < 2 ^ 63) (hused : parent.gasUsed ≤ parent.gasLimit) :
    (CalcGasLimit parent gasFloor gasCeil).toNat =
      proposal parent.gasLimit.toNat parent.gasUsed.toNat gasFloor.toNat gasCeil.toNat := by
  rw [UInt64.le_iff_toNat_le] at hused
  have hdecay : (parent.gasLimit / GasLimitBoundDivisor - 1).toNat =
      parent.gasLimit.toNat / 1024 - 1 := by
    rw [UInt64.toNat_sub_of_le]
    · rfl
    · rw [UInt64.le_iff_toNat_le, UInt64.toNat_div]
      change 1 ≤ parent.gasLimit.toNat / 1024
      omega
  have hcontrib : ((parent.gasUsed + parent.gasUsed / 2) / GasLimitBoundDivisor).toNat =
      (parent.gasUsed.toNat + parent.gasUsed.toNat / 2) / 1024 := by
    rw [UInt64.toNat_div, UInt64.toNat_add, UInt64.toNat_div]
    change (parent.gasUsed.toNat + parent.gasUsed.toNat / 2) % 2 ^ 64 / 1024 = _
    omega
  generalize hd : parent.gasLimit / GasLimitBoundDivisor - 1 = decay at *
  generalize hc : (parent.gasUsed + parent.gasUsed / 2) / GasLimitBoundDivisor = contrib at *
  have hdown : (parent.gasLimit - decay).toNat = parent.gasLimit.toNat - decay.toNat :=
    UInt64.toNat_sub_of_le _ _ (by rw [UInt64.le_iff_toNat_le]; omega)
  have hup : (parent.gasLimit + decay).toNat = parent.gasLimit.toNat + decay.toNat := by
    rw [UInt64.toNat_add]
    omega
  have hnext : (parent.gasLimit - decay + contrib).toNat =
      parent.gasLimit.toNat - decay.toNat + contrib.toNat := by
    rw [UInt64.toNat_add, hdown]
    omega
  have hfive : MinGasLimit.toNat = 5000 := rfl
  unfold CalcGasLimit proposal
  simp only [hd, hc, UInt64.lt_iff_toNat_lt, gt_iff_lt, apply_ite UInt64.toNat, hdown, hup, hnext,
    hfive, ← hdecay, ← hcontrib]
  split_ifs <;> omega

theorem toInt_toInt64 (ha : a.toNat < 2 ^ 63) : a.toInt64.toInt = a.toNat := by
  change a.toBitVec.toInt = _
  rw [BitVec.toInt_eq_toNat_of_lt]
  · rfl
  · change 2 * a.toNat < 2 ^ 64
    omega

/-- The step between two limits, which `verifyHeader` takes in `int64`. -/
theorem toNat_step (ha : a.toNat < 2 ^ 63) (hb : b.toNat < 2 ^ 63) :
    (if a.toInt64 - b.toInt64 < 0 then -(a.toInt64 - b.toInt64)
      else a.toInt64 - b.toInt64).toUInt64.toNat = a.toNat - b.toNat + (b.toNat - a.toNat) := by
  have hsign : a.toInt64 - b.toInt64 < 0 ↔ a.toNat < b.toNat := by
    rw [Int64.lt_iff_toInt_lt, Int64.toInt_sub, toInt_toInt64 ha, toInt_toInt64 hb,
      Int.bmod_eq_of_le (by omega) (by omega)]
    change (a.toNat : Int) - b.toNat < 0 ↔ _
    omega
  simp only [hsign, apply_ite Int64.toUInt64, Int64.toUInt64_neg, Int64.toUInt64_sub,
    UInt64.toUInt64_toInt64]
  split
  · rw [UInt64.neg_sub, UInt64.toNat_sub_of_le _ _ (by rw [UInt64.le_iff_toNat_le]; omega)]
    omega
  · rw [UInt64.toNat_sub_of_le _ _ (by rw [UInt64.le_iff_toNat_le]; omega)]
    omega

theorem gasLimitError_eq_none_iff (hcap : parent.gasLimit.toNat < 2 ^ 63) :
    gasLimitError header parent = none ↔ header.gasLimit.toNat < 2 ^ 63 ∧
      5000 ≤ header.gasLimit.toNat ∧
      parent.gasLimit.toNat - header.gasLimit.toNat +
        (header.gasLimit.toNat - parent.gasLimit.toNat) < parent.gasLimit.toNat / 1024 := by
  have hlimit : (parent.gasLimit / GasLimitBoundDivisor).toNat = parent.gasLimit.toNat / 1024 := rfl
  have hmax : (0x7fffffffffffffff : UInt64).toNat = 2 ^ 63 - 1 := rfl
  have hfive : MinGasLimit.toNat = 5000 := rfl
  unfold gasLimitError
  simp only [gt_iff_lt, ge_iff_le, UInt64.lt_iff_toNat_lt, UInt64.le_iff_toNat_le, hlimit, hmax,
    hfive]
  by_cases hover : 2 ^ 63 - 1 < header.gasLimit.toNat
  · rw [if_pos hover]
    exact iff_of_false (by simp) (by omega)
  rw [if_neg hover, toNat_step hcap (by omega)]
  split
  · exact iff_of_false (by simp) (by omega)
  · exact iff_of_true rfl (by omega)

/-! ## §3 — Proposals and checks -/

/-- A full parent with one of the smallest limits, and a range in which the limit may grow by four:
a 1024th of it is four, too. -/
def Steep (limit used floor ceil : Nat) : Prop :=
  limit < 5120 ∧ 4779 ≤ used ∧ floor ≤ limit + 4 ∧ limit + 4 ≤ ceil

/-- A parent next to 2⁶³, and a range that does not hold the limit below it. -/
def Unbounded (limit used floor ceil : Nat) : Prop :=
  2 ^ 63 ≤ ceil ∧
    if limit + (used + used / 2) / 1024 + 1 < floor + limit / 1024 then
      2 ^ 63 ≤ floor ∧ 2 ^ 63 < limit + limit / 1024
    else 2 ^ 63 + limit / 1024 ≤ limit + (used + used / 2) / 1024 + 1

/-- **A proposed gas limit is valid** exactly if the parent is not steep and the range not
unbounded. -/
theorem proposed_gasLimit_iff (header parent : Header) (gasFloor gasCeil : UInt64)
    (hmin : 5000 ≤ parent.gasLimit.toNat) (hcap : parent.gasLimit.toNat < 2 ^ 63)
    (hused : parent.gasUsed ≤ parent.gasLimit) (hrange : gasFloor ≤ gasCeil)
    (hceil : 5000 ≤ gasCeil.toNat) (h : header.gasLimit = CalcGasLimit parent gasFloor gasCeil) :
    gasLimitError header parent = none ↔
      ¬ Steep parent.gasLimit.toNat parent.gasUsed.toNat gasFloor.toNat gasCeil.toNat ∧
      ¬ Unbounded parent.gasLimit.toNat parent.gasUsed.toNat gasFloor.toNat gasCeil.toNat := by
  rw [gasLimitError_eq_none_iff hcap, h, toNat_CalcGasLimit hmin hcap hused]
  rw [UInt64.le_iff_toNat_le] at hused hrange
  have hfloor := gasFloor.toNat_lt
  have hceil' := gasCeil.toNat_lt
  generalize parent.gasLimit.toNat = limit at *
  generalize parent.gasUsed.toNat = used at *
  unfold Steep Unbounded proposal
  dsimp only
  split_ifs <;> omega

def emptyParent : Header := { gasLimit := 8000000 }

/-- After an empty parent the limit may fall by a 1024th. -/
theorem proposed_gasLimit_iff_empty : CalcGasLimit emptyParent 5000 8000000 = 7992189 ∧
    gasLimitError { gasLimit := 7992189 } emptyParent = none := by
  have hlimit : CalcGasLimit emptyParent 5000 8000000 = 7992189 := by decide
  refine ⟨hlimit, (proposed_gasLimit_iff _ _ 5000 8000000 (by decide) (by decide) (by decide)
    (by decide) (by decide) hlimit.symm).mpr ?_⟩
  unfold Steep Unbounded
  decide

/-- A full parent with the smallest limit. -/
def fullParent : Header := { gasLimit := 5000, gasUsed := 5000 }

/-- **What is proposed after it is not accepted.** -/
theorem proposed_gasLimit_rejected : CalcGasLimit fullParent 5000 8000000 = 5004 ∧
    gasLimitError { gasLimit := 5004 } fullParent = some (.gasLimit 5004 5000 4) := by
  decide

end MxtChain.Consensus
