/-
# MxtChain.Consensus.Difficulty — the difficulty of the next block.

`CalcDifficulty` of `consensus/odfash/consensus.go` moves the difficulty of the parent by a number of
2048ths that falls with the time between the two blocks, and adds the exponential term of the fork.
The calculators differ in the number of 2048ths and in where the term starts; the law is the same.
-/
import MxtChain.Consensus.Header

namespace MxtChain.Consensus

/-! ## §1 — The source -/

/-- The fork blocks that `CalcDifficulty` reads. -/
structure ForkConfig extends ChainConfig where
  homesteadBlock : Option Nat := none
  muirGlacierBlock : Option Nat := none

def DifficultyBoundDivisor : Int := 2048
def MinimumDifficulty : Int := 131072
def DurationLimit : Int := 13
def expDiffPeriod : Int := 100000

-- the hash of an empty list of uncles
variable (EmptyUncleHash : Hash)

def makeDifficultyCalculator (bombDelay : Int) (time : UInt64) (parent : Header) : Int :=
  let bombDelayFromParent := bombDelay - 1
  let x : Int := (time.toNat - parent.time.toNat) / 9
  let x := if parent.uncleHash = EmptyUncleHash then 1 - x else 2 - x
  let x := if x < -99 then -99 else x
  let y := parent.difficulty / DifficultyBoundDivisor
  let x := parent.difficulty + y * x
  let x := if x < MinimumDifficulty then MinimumDifficulty else x
  let fakeBlockNumber : Int :=
    if parent.number ≥ bombDelayFromParent then parent.number - bombDelayFromParent else 0
  let periodCount := fakeBlockNumber / expDiffPeriod
  if periodCount > 1 then x + 2 ^ (periodCount - 2).toNat else x

def calcDifficultyEip2384 := makeDifficultyCalculator EmptyUncleHash 9000000

def calcDifficultyConstantinople := makeDifficultyCalculator EmptyUncleHash 5000000

def calcDifficultyByzantium := makeDifficultyCalculator EmptyUncleHash 3000000

def calcDifficultyHomestead (time : UInt64) (parent : Header) : Int :=
  let x : Int := (time.toNat - parent.time.toNat) / 10
  let x := 1 - x
  let x := if x < -99 then -99 else x
  let y := parent.difficulty / DifficultyBoundDivisor
  let x := parent.difficulty + y * x
  let x := if x < MinimumDifficulty then MinimumDifficulty else x
  let periodCount := (parent.number + 1) / expDiffPeriod
  if periodCount > 1 then x + 2 ^ (periodCount - 2).toNat else x

def calcDifficultyFrontier (time : UInt64) (parent : Header) : Int :=
  let adjust := parent.difficulty / DifficultyBoundDivisor
  let diff := if (time.toNat : Int) - parent.time.toNat < DurationLimit then
    parent.difficulty + adjust else parent.difficulty - adjust
  let diff := if diff < MinimumDifficulty then MinimumDifficulty else diff
  let periodCount := (parent.number + 1) / expDiffPeriod
  if periodCount > 1 then max (diff + 2 ^ (periodCount - 2).toNat) MinimumDifficulty else diff

def CalcDifficulty (config : ForkConfig) (time : UInt64) (parent : Header) : Int :=
  let next := parent.number + 1
  if isForked config.muirGlacierBlock next then calcDifficultyEip2384 EmptyUncleHash time parent
  else if config.IsConstantinople next then calcDifficultyConstantinople EmptyUncleHash time parent
  else if config.IsByzantium next then calcDifficultyByzantium EmptyUncleHash time parent
  else if isForked config.homesteadBlock next then calcDifficultyHomestead time parent
  else calcDifficultyFrontier time parent

/-! ## §2 — Adjustments -/

/-- The exponential term for a block number. -/
def expTerm (number : Int) : Int :=
  if number / expDiffPeriod > 1 then 2 ^ (number / expDiffPeriod - 2).toNat else 0

/-- The number that counts for the exponential term: it is put off by every fork. -/
def bombNumber (config : ForkConfig) (number : Nat) : Int :=
  if isForked config.muirGlacierBlock (number + 1) then max 0 (number - 8999999)
  else if config.IsConstantinople (number + 1) then max 0 (number - 4999999)
  else if config.IsByzantium (number + 1) then max 0 (number - 2999999)
  else number + 1

/-- A difficulty, moved by some 2048ths. -/
def adjusted (difficulty factor : Int) : Int :=
  max MinimumDifficulty (difficulty + difficulty / DifficultyBoundDivisor * factor)

/-- How many 2048ths a rule adds after some time. -/
structure Factor (f : Int → Int) : Prop where
  antitone : Antitone f
  lower : ∀ e, -99 ≤ f e
  upper : ∀ e, 0 ≤ e → f e ≤ 2

theorem factor_div {b n : Int} (hn : 0 < n) (hb : b ≤ 2) : Factor fun e => max (-99) (b - e / n) where
  antitone _ _ h := max_le_max le_rfl (sub_le_sub_left (Int.ediv_le_ediv hn h) b)
  lower _ := le_max_left _ _
  upper e he := by
    have := Int.ediv_nonneg he hn.le
    exact max_le (by omega) (by omega)

theorem factor_frontier : Factor fun e => if e < DurationLimit then 1 else -1 where
  antitone a b h := by
    dsimp only
    split_ifs <;> omega
  lower e := by split_ifs <;> omega
  upper e _ := by split_ifs <;> omega

theorem clamp_eq (m x : Int) : (if x < m then m else x) = max m x := by
  rw [max_comm, max_def_lt]

theorem add_expTerm (x number : Int) : (if number / expDiffPeriod > 1 then
    x + 2 ^ (number / expDiffPeriod - 2).toNat else x) = x + expTerm number := by
  unfold expTerm
  split_ifs
  · rfl
  · exact (add_zero x).symm

theorem makeDifficultyCalculator_eq (bombDelay : Int) (time : UInt64) (parent : Header) :
    makeDifficultyCalculator EmptyUncleHash bombDelay time parent =
      adjusted parent.difficulty (max (-99) ((if parent.uncleHash = EmptyUncleHash then 1 else 2) -
        (time.toNat - parent.time.toNat) / 9)) +
      expTerm (max 0 (parent.number - (bombDelay - 1))) := by
  have hfake : (if (parent.number : Int) ≥ bombDelay - 1 then parent.number - (bombDelay - 1)
      else 0 : Int) = max 0 (parent.number - (bombDelay - 1)) := by
    split_ifs <;> omega
  unfold makeDifficultyCalculator adjusted
  simp only [clamp_eq, add_expTerm, hfake, ite_sub]

theorem calcDifficultyHomestead_eq (time : UInt64) (parent : Header) :
    calcDifficultyHomestead time parent =
      adjusted parent.difficulty (max (-99) (1 - (time.toNat - parent.time.toNat) / 10)) +
        expTerm (parent.number + 1) := by
  unfold calcDifficultyHomestead adjusted
  simp only [clamp_eq, add_expTerm]

theorem calcDifficultyFrontier_eq (time : UInt64) (parent : Header) :
    calcDifficultyFrontier time parent = adjusted parent.difficulty
          (if (time.toNat : Int) - parent.time.toNat < DurationLimit then 1 else -1) +
        expTerm (parent.number + 1) := by
  have hmax : ∀ d k : Int, max (max MinimumDifficulty d + 2 ^ k.toNat) MinimumDifficulty =
      max MinimumDifficulty d + 2 ^ k.toNat := fun d k =>
    max_eq_left (le_add_of_le_of_nonneg (le_max_left _ _) (by positivity))
  unfold calcDifficultyFrontier adjusted
  simp only [clamp_eq, hmax, add_expTerm, mul_ite, mul_one, mul_neg, ← sub_eq_add_neg, add_ite]

/-- **Every rule is an adjustment** and the exponential term. -/
theorem CalcDifficulty_eq (config : ForkConfig) (parent : Header) : ∃ f, Factor f ∧ ∀ time,
    CalcDifficulty EmptyUncleHash config time parent =
      adjusted parent.difficulty (f (time.toNat - parent.time.toNat)) +
        expTerm (bombNumber config parent.number) := by
  have hbonus : (if parent.uncleHash = EmptyUncleHash then 1 else 2 : Int) ≤ 2 := by
    split_ifs <;> omega
  unfold CalcDifficulty bombNumber
  dsimp only
  split_ifs
  · exact ⟨_, factor_div (by omega) hbonus, fun time => makeDifficultyCalculator_eq _ 9000000 _ _⟩
  · exact ⟨_, factor_div (by omega) hbonus, fun time => makeDifficultyCalculator_eq _ 5000000 _ _⟩
  · exact ⟨_, factor_div (by omega) hbonus, fun time => makeDifficultyCalculator_eq _ 3000000 _ _⟩
  · exact ⟨_, factor_div (by omega) (by omega), fun time => calcDifficultyHomestead_eq _ _⟩
  · exact ⟨_, factor_frontier, fun time => calcDifficultyFrontier_eq _ _⟩

/-! ## §3 — The law -/

theorem expTerm_nonneg (number : Int) : 0 ≤ expTerm number := by
  unfold expTerm
  split_ifs
  · positivity
  · exact le_rfl

theorem adjusted_mono {d : Int} (hd : MinimumDifficulty ≤ d) : Monotone (adjusted d) := by
  intro k l h
  have hunit : 0 ≤ d / DifficultyBoundDivisor := Int.ediv_nonneg (le_trans (by decide) hd) (by decide)
  exact max_le_max le_rfl (Int.add_le_add_left (mul_le_mul_of_nonneg_left h hunit) d)

/-- **The difficulty adjustment**: at least the minimum, falling with the time, and up to the
exponential term at most 99 of the 2048ths below the parent and two above. -/
theorem difficulty_adjustment (config : ForkConfig) (parent : Header) (time later : UInt64)
    (hmin : MinimumDifficulty ≤ parent.difficulty) (htime : parent.time < time)
    (hlater : time ≤ later) :
    let difficulty := CalcDifficulty EmptyUncleHash config time parent
    let base := difficulty - expTerm (bombNumber config parent.number)
    let unit : Int := parent.difficulty / DifficultyBoundDivisor
    MinimumDifficulty ≤ difficulty ∧
      CalcDifficulty EmptyUncleHash config later parent ≤ difficulty ∧
      parent.difficulty - 99 * unit ≤ base ∧ base ≤ parent.difficulty + 2 * unit := by
  intro difficulty base unit
  obtain ⟨f, hf, heq⟩ := CalcDifficulty_eq EmptyUncleHash config parent
  rw [UInt64.lt_iff_toNat_lt] at htime
  rw [UInt64.le_iff_toNat_le] at hlater
  have hbase : base = adjusted parent.difficulty (f (time.toNat - parent.time.toNat)) :=
    sub_eq_of_eq_add (heq time)
  have hunit : 0 ≤ unit := Int.ediv_nonneg (Int.natCast_nonneg _) (by decide)
  refine ⟨?_, ?_, ?_, ?_⟩
  · rw [show difficulty = _ from heq time]
    exact le_add_of_le_of_nonneg (le_max_left _ _) (expTerm_nonneg _)
  · rw [show difficulty = _ from heq time, heq later]
    exact Int.add_le_add_right (adjusted_mono hmin (hf.antitone (by omega))) _
  · calc parent.difficulty - 99 * unit = parent.difficulty + unit * -99 := by ring
      _ ≤ adjusted parent.difficulty (-99) := le_max_right _ _
      _ ≤ base := hbase ▸ adjusted_mono hmin (hf.lower _)
  · calc base ≤ adjusted parent.difficulty 2 := hbase ▸ adjusted_mono hmin (hf.upper _ (by omega))
      _ ≤ parent.difficulty + 2 * unit := max_le (by omega) (by rw [mul_comm 2])

/-- Ten seconds after a genesis block without uncles Homestead keeps its difficulty. -/
theorem difficulty_adjustment_homestead :
    CalcDifficulty Hash.zero { homesteadBlock := some 0 } 10 { difficulty := 131072 } = 131072 ∧
    CalcDifficulty Hash.zero { homesteadBlock := some 0 } 20 { difficulty := 131072 } ≤ 131072 :=
  ⟨rfl, (difficulty_adjustment Hash.zero { homesteadBlock := some 0 } { difficulty := 131072 } 10 20
    (by decide) (by decide) (by decide)).2.1⟩

end MxtChain.Consensus
