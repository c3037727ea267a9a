/-
# MxtChain.Consensus.Header — headers, blocks, and the checks of `verifyHeader`.

`verifyHeader` of `consensus/odfash/consensus.go` compares a header with its parent: extra data,
time, difficulty, gas, number, seal, and the special fields of two hard forks. The difficulty
algorithm and the proof of work are parameters of the engine here; nothing below depends on them.

The hash of a header is a parameter as well, `hash : Header → Hash`.
-/
import MxtChain.Common.Types

namespace MxtChain.Consensus

structure Header where
  parentHash : Hash := Hash.zero
  uncleHash : Hash := Hash.zero
  coinbase : Address := default
  root : Hash := Hash.zero
  txHash : Hash := Hash.zero
  receiptHash : Hash := Hash.zero
  bloom : Bytes := []
  difficulty : Nat := 0
  number : Nat := 0
  gasLimit : UInt64 := 0
  gasUsed : UInt64 := 0
  time : UInt64 := 0
  extra : Bytes := []
  mixDigest : Hash := Hash.zero
  nonce : UInt64 := 0
  deriving DecidableEq

/-- `types.Block`, as far as uncles are concerned. -/
structure Block where
  header : Header
  uncles : List Header
  deriving DecidableEq

/-- `big.Int.Uint64` of the number. -/
def Header.numberU64 (h : Header) : UInt64 := UInt64.ofNat h.number

/-- The fork blocks of `params.ChainConfig` that are read here. -/
structure ChainConfig where
  daoForkBlock : Option Nat := none
  daoForkSupport : Bool := false
  eip150Block : Option Nat := none
  eip150Hash : Hash := Hash.zero
  byzantiumBlock : Option Nat := none
  constantinopleBlock : Option Nat := none

def isForked (s : Option Nat) (head : Nat) : Bool :=
  match s with
  | none => false
  | some n => n ≤ head

def ChainConfig.IsByzantium (c : ChainConfig) (num : Nat) : Bool := isForked c.byzantiumBlock num

def ChainConfig.IsConstantinople (c : ChainConfig) (num : Nat) : Bool :=
  isForked c.constantinopleBlock num

inductive Mode where
  | ModeNormal
  | ModeShared
  | ModeTest
  | ModeFake
  | ModeFullFake
  deriving DecidableEq

/-- Why a header, or the uncles of a block, are not valid. -/
inductive VerifyErr where
  | unknownAncestor
  | extraTooLong (len : Nat)
  | futureBlock
  | olderBlockTime
  | difficulty (have_ : Nat) (want : Int)
  | gasLimitCap (have_ : UInt64)
  | gasUsed (have_ gasLimit : UInt64)
  | gasLimit (have_ want limit : UInt64)
  | invalidNumber
  | invalidDifficulty
  | invalidMixDigest
  | invalidPoW
  | badProDAOExtra
  | badNoDAOExtra
  | forkHash (have_ want : Hash)
  | tooManyUncles
  | duplicateUncle
  | uncleIsAncestor
  | danglingUncle
  deriving DecidableEq

/-- `Ethash`: the mode, the latest time a header may carry (`time.Now` and
`allowedFutureBlockTime`), the chain configuration, the difficulty algorithm and the check of the
proof of work. -/
structure Engine where
  mode : Mode
  latest : UInt64
  config : ChainConfig
  CalcDifficulty : UInt64 → Header → Int
  VerifySeal : Header → Option VerifyErr

def MaximumExtraDataSize : Nat := 32

def GasLimitBoundDivisor : UInt64 := 1024

def MinGasLimit : UInt64 := 5000

def DAOForkExtraRange : Nat := 10

/-- `params.DAOForkBlockExtra`: `dao-hard-fork`. -/
def DAOForkBlockExtra : Bytes :=
  [0x64, 0x61, 0x6f, 0x2d, 0x68, 0x61, 0x72, 0x64, 0x2d, 0x66, 0x6f, 0x72, 0x6b]

def VerifyDAOHeaderExtraData (config : ChainConfig) (header : Header) : Option VerifyErr :=
  match config.daoForkBlock with
  | none => none
  | some fork =>
    if header.number < fork ∨ header.number ≥ fork + DAOForkExtraRange then none
    else if config.daoForkSupport then
      if header.extra ≠ DAOForkBlockExtra then some .badProDAOExtra else none
    else if header.extra = DAOForkBlockExtra then some .badNoDAOExtra
    else none

def VerifyForkHashes (hash : Header → Hash) (config : ChainConfig) (header : Header)
    (uncle : Bool) : Option VerifyErr :=
  if uncle then none
  else if config.eip150Block = some header.number ∧ config.eip150Hash ≠ Hash.zero ∧
      config.eip150Hash ≠ hash header then
    some (.forkHash (hash header) config.eip150Hash)
  else none

/-- The checks of `verifyHeader` from the seal on. -/
def verifySpecial (hash : Header → Hash) (E : Engine) (header : Header) (uncle withSeal : Bool) :
    Option VerifyErr :=
  match if withSeal then E.VerifySeal header else none with
  | some e => some e
  | none =>
    match VerifyDAOHeaderExtraData E.config header with
    | some e => some e
    | none => VerifyForkHashes hash E.config header uncle

def verifyHeader (hash : Header → Hash) (E : Engine) (header parent : Header)
    (uncle withSeal : Bool) : Option VerifyErr :=
  if header.extra.length > MaximumExtraDataSize then some (.extraTooLong header.extra.length)
  else if !uncle ∧ header.time > E.latest then some .futureBlock
  else if header.time ≤ parent.time then some .olderBlockTime
  else if E.CalcDifficulty header.time parent ≠ header.difficulty then
    some (.difficulty header.difficulty (E.CalcDifficulty header.time parent))
  else if header.gasLimit > 0x7fffffffffffffff then some (.gasLimitCap header.gasLimit)
  else if header.gasUsed > header.gasLimit then some (.gasUsed header.gasUsed header.gasLimit)
  else
    -- the gas limit remains within bounds; the difference is taken in `int64`
    let diff := parent.gasLimit.toInt64 - header.gasLimit.toInt64
    let diff := if diff < 0 then -diff else diff
    let limit := parent.gasLimit / GasLimitBoundDivisor
    if diff.toUInt64 ≥ limit ∨ header.gasLimit < MinGasLimit then
      some (.gasLimit header.gasLimit parent.gasLimit limit)
    else if (header.number : Int) - parent.number ≠ 1 then some .invalidNumber
    else verifySpecial hash E header uncle withSeal

theorem ite_some_eq_none {α : Type} {c : Prop} [Decidable c] {a : α} {r : Option α} :
    (if c then some a else r) = none ↔ ¬ c ∧ r = none := by
  split_ifs with h <;> simp [h]

/-- **A verified header follows its parent.** -/
theorem number_of_verifyHeader {hash : Header → Hash} {E : Engine} {header parent : Header}
    {uncle withSeal : Bool} (h : verifyHeader hash E header parent uncle withSeal = none) :
    header.number = parent.number + 1 := by
  simp only [verifyHeader, ite_some_eq_none] at h
  omega

/-- A sample engine whose difficulty is always zero. -/
def sampleEngine (mode : Mode) : Engine where
  mode := mode
  latest := 100
  config := {}
  CalcDifficulty := fun _ _ => 0
  VerifySeal := fun _ => none

end MxtChain.Consensus
