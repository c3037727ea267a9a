/-
# MxtChain.Core.ForkID — fork identifiers and their filter.

`core/forkid/forkid.go`: `NewID` sums up the genesis block and the fork blocks that a chain has
passed, and names the next one; `newFilter` decides whether the identifier of a remote node is
compatible with the local chain. `eip2124` states the four rules that both files cite, on the fork
blocks themselves.

The two functions do not agree on what it is to have passed a fork: for `NewID` a head on the fork
block has, for the filter it has not. `filter_iff` says exactly when this shows.
-/
import MxtChain.Common.Types
import MxtChain.Lib.Sorted

namespace MxtChain.ForkID

open Lib

/-! ## §1 — Checksums -/

/-- One bit of `simpleMakeTable(IEEE)`. -/
def crcBit (crc : UInt32) : UInt32 :=
  if crc &&& 1 = 1 then (crc >>> 1) ^^^ 0xedb88320 else crc >>> 1

/-- `crc32.IEEETable[i]` -/
def ieeeTable (i : UInt8) : UInt32 := crcBit^[8] i.toUInt32

/-- `crc32.Update(crc, crc32.IEEETable, p)` -/
def crcUpdate (crc : UInt32) (p : Bytes) : UInt32 :=
  ~~~ p.foldl (fun crc v => ieeeTable (crc.toUInt8 ^^^ v) ^^^ (crc >>> 8)) (~~~ crc)

def ChecksumIEEE (p : Bytes) : UInt32 := crcUpdate 0 p

/-- `binary.BigEndian.PutUint64` -/
def putUint64 (v : UInt64) : Bytes :=
  [(v >>> 56).toUInt8, (v >>> 48).toUInt8, (v >>> 40).toUInt8, (v >>> 32).toUInt8,
    (v >>> 24).toUInt8, (v >>> 16).toUInt8, (v >>> 8).toUInt8, v.toUInt8]

def checksumUpdate (hash : UInt32) (fork : UInt64) : UInt32 := crcUpdate hash (putUint64 fork)

def checksumToBytes (hash : UInt32) : Vector UInt8 4 :=
  #v[(hash >>> 24).toUInt8, (hash >>> 16).toUInt8, (hash >>> 8).toUInt8, hash.toUInt8]

/-! ## §2 — The fork blocks of a configuration -/

/-- A field of a configuration, as reflection shows it. -/
inductive Field where
  /-- of type `*big.Int` -/
  | bigInt (v : Option Int)
  /-- of any other type -/
  | other

/-- `params.ChainConfig`; a field that is no block number is here only by its name. -/
structure ChainConfig where
  ChainID : Option Int := none
  HomesteadBlock : Option Int := none
  DAOForkBlock : Option Int := none
  EIP150Block : Option Int := none
  EIP155Block : Option Int := none
  EIP158Block : Option Int := none
  ByzantiumBlock : Option Int := none
  ConstantinopleBlock : Option Int := none
  PetersburgBlock : Option Int := none
  IstanbulBlock : Option Int := none
  MuirGlacierBlock : Option Int := none
  YoloV1Block : Option Int := none
  EWASMBlock : Option Int := none

/-- The fields in their order. -/
def ChainConfig.fields (c : ChainConfig) : List (String × Field) :=
  [("ChainID", .bigInt c.ChainID), ("HomesteadBlock", .bigInt c.HomesteadBlock),
    ("DAOForkBlock", .bigInt c.DAOForkBlock), ("DAOForkSupport", .other),
    ("EIP150Block", .bigInt c.EIP150Block), ("EIP150Hash", .other),
    ("EIP155Block", .bigInt c.EIP155Block), ("EIP158Block", .bigInt c.EIP158Block),
    ("ByzantiumBlock", .bigInt c.ByzantiumBlock),
    ("ConstantinopleBlock", .bigInt c.ConstantinopleBlock),
    ("PetersburgBlock", .bigInt c.PetersburgBlock), ("IstanbulBlock", .bigInt c.IstanbulBlock),
    ("MuirGlacierBlock", .bigInt c.MuirGlacierBlock), ("YoloV1Block", .bigInt c.YoloV1Block),
    ("EWASMBlock", .bigInt c.EWASMBlock), ("Ethash", .other), ("Clique", .other)]

/-- `big.Int.Uint64` -/
def bigUint64 (x : Int) : UInt64 := UInt64.ofNat x.natAbs

/-- The fork rule of a field, if it is one and is set. -/
def fieldFork : String × Field → Option UInt64
  | (name, .bigInt (some rule)) => if name.endsWith "Block" then some (bigUint64 rule) else none
  | _ => none

/-- Without the forks in block 0, the rules of the genesis. -/
def skipGenesis : List UInt64 → List UInt64
  | [] => []
  | fork :: forks => if fork = 0 then forks else fork :: forks

/-- The fork rules that are set, in order and each once. -/
def sortedForks (config : ChainConfig) : List UInt64 :=
  let forks := config.fields.filterMap fieldFork
  dedup (exchangeSort forks.length forks)

def gatherForks (config : ChainConfig) : List UInt64 := skipGenesis (sortedForks config)

theorem sortedForks_sorted (config : ChainConfig) : (sortedForks config).Pairwise (· < ·) :=
  dedup_sorted (exchangeSort_sorted le_rfl)

variable {genesis : Hash} {forks forks' remote : List UInt64} {fork head remoteNext f : UInt64}
  {config : ChainConfig}

theorem mem_sortedForks : fork ∈ sortedForks config ↔ fork ∈ config.fields.filterMap fieldFork :=
  mem_dedup.trans (exchangeSort_perm _ _).mem_iff

theorem skipGenesis_sublist (l : List UInt64) : (skipGenesis l).Sublist l := by
  cases l with
  | nil => exact List.Sublist.refl _
  | cons x l =>
    rw [skipGenesis]
    split
    · exact List.sublist_cons_self x l
    · exact List.Sublist.refl _

theorem mem_skipGenesis {l : List UInt64} (hl : l.Pairwise (· < ·)) :
    fork ∈ skipGenesis l ↔ fork ∈ l ∧ 0 < fork := by
  cases l with
  | nil => simp [skipGenesis]
  | cons x l =>
    have hx := (List.pairwise_cons.mp hl).1
    rw [skipGenesis]
    split
    · next h0 =>
      subst h0
      constructor
      · exact fun h => ⟨List.mem_cons_of_mem _ h, hx fork h⟩
      · rintro ⟨h, hpos⟩
        rcases List.mem_cons.mp h with rfl | h
        · exact absurd hpos (UInt64.lt_irrefl 0)
        · exact h
    · next h0 =>
      have hpos : 0 < x := UInt64.pos_iff_ne_zero.mpr h0
      refine ⟨fun h => ⟨h, ?_⟩, And.left⟩
      rcases List.mem_cons.mp h with rfl | h
      · exact hpos
      · exact UInt64.lt_trans hpos (hx fork h)

/-- **The forks are in chronological order, each once.** -/
theorem gatherForks_sorted (config : ChainConfig) : (gatherForks config).Pairwise (· < ·) :=
  (sortedForks_sorted config).sublist (skipGenesis_sublist _)

/-- They are the fork rules that are set, but for those in block 0. -/
theorem mem_gatherForks :
    fork ∈ gatherForks config ↔ fork ∈ config.fields.filterMap fieldFork ∧ 0 < fork := by
  rw [gatherForks, mem_skipGenesis (sortedForks_sorted config), mem_sortedForks]

/-! ## §3 — Identifiers and the filter -/

structure ID where
  Hash : Vector UInt8 4
  Next : UInt64
  deriving DecidableEq

/-- The loop of `NewID` over the forks. -/
def newIDLoop (head : UInt64) : UInt32 → List UInt64 → ID
  | hash, [] => ⟨checksumToBytes hash, 0⟩
  | hash, fork :: forks =>
    if fork ≤ head then newIDLoop head (checksumUpdate hash fork) forks
    else ⟨checksumToBytes hash, fork⟩

def NewID (config : ChainConfig) (genesis : Hash) (head : UInt64) : ID :=
  newIDLoop head (ChecksumIEEE genesis.bytes) (gatherForks config)

inductive FilterError where
  /-- `remote needs update` -/
  | ErrRemoteStale
  /-- `local incompatible or needs update` -/
  | ErrLocalIncompatibleOrStale
  deriving DecidableEq

/-- The checksums before the first fork and after each one: `sums`. -/
def sums : UInt32 → List UInt64 → List (Vector UInt8 4)
  | hash, [] => [checksumToBytes hash]
  | hash, fork :: forks => checksumToBytes hash :: sums (checksumUpdate hash fork) forks

/-- `math.MaxUint64`, the fork that is never passed. -/
def sentinel : UInt64 := 0xffffffffffffffff

/-- The rules at the first fork that is not passed, number `i`. -/
def applyRules (sums : List (Vector UInt8 4)) (forks : List UInt64) (head : UInt64) (id : ID)
    (i : Nat) : Option FilterError :=
  -- rule 1
  if sums[i]? = some id.Hash then
    if id.Next > 0 ∧ head ≥ id.Next then some .ErrLocalIncompatibleOrStale else none
  else
    -- rule 2
    match (List.range i).find? fun j => sums[j]? = some id.Hash with
    | some j => if forks[j]? ≠ some id.Next then some .ErrRemoteStale else none
    | none =>
      -- rule 3
      if id.Hash ∈ sums.drop (i + 1) then none else some .ErrLocalIncompatibleOrStale

/-- The loop of the filter over the forks, from number `i` on. -/
def filterLoop (sums : List (Vector UInt8 4)) (forks : List UInt64) (head : UInt64) (id : ID) :
    Nat → List UInt64 → Option FilterError
  | _, [] => none
  | i, fork :: rest =>
    if head > fork then filterLoop sums forks head id (i + 1) rest
    else applyRules sums forks head id i

/-- `newFilter(config, genesis, headfn)(id)`, where `headfn` returns `head`. -/
def newFilter (config : ChainConfig) (genesis : Hash) (head : UInt64) (id : ID) :
    Option FilterError :=
  let forks := gatherForks config
  let sums := sums (ChecksumIEEE genesis.bytes) forks
  filterLoop sums (forks ++ [sentinel]) head id 0 (forks ++ [sentinel])

/-! ## §4 — What the rules say about fork blocks -/

/-- The fork blocks a chain has passed at a head: those that are not above it. -/
def passed (forks : List UInt64) (head : UInt64) : List UInt64 := forks.takeWhile (· ≤ head)

/-- The fork block it comes to next, 0 if there is none. -/
def next (forks : List UInt64) (head : UInt64) : UInt64 :=
  ((forks.dropWhile (· ≤ head)).head?).getD 0

/-- The four rules, for a node that has passed the forks `past`: its answer to a node that has
passed the forks `remote` and announces `remoteNext`. -/
def rules (forks past : List UInt64) (head : UInt64) (remote : List UInt64) (remoteNext : UInt64) :
    Option FilterError :=
  if remote = past then
    -- a fork that the remote node announces may have been passed here without it
    if remoteNext > 0 ∧ remoteNext ≤ head then some .ErrLocalIncompatibleOrStale else none
  else if remote <+: past then
    if forks[remote.length]? = some remoteNext then none else some .ErrRemoteStale
  else if past <+: remote ∧ remote <+: forks then none
  else some .ErrLocalIncompatibleOrStale

/-- **EIP-2124**: the rules, where a fork is passed as soon as the head is on its block. -/
def eip2124 (forks : List UInt64) (head : UInt64) (remote : List UInt64) (remoteNext : UInt64) :
    Option FilterError :=
  rules forks (passed forks head) head remote remoteNext

/-- The checksum of the genesis block and some forks. -/
def checksum (genesis : Hash) (forks : List UInt64) : Vector UInt8 4 :=
  checksumToBytes (forks.foldl checksumUpdate (ChecksumIEEE genesis.bytes))

/-- Different beginnings of two lists of forks have different checksums. -/
def Separated (genesis : Hash) (forks forks' : List UInt64) : Prop :=
  ∀ p ∈ forks.inits ++ forks'.inits, ∀ q ∈ forks.inits ++ forks'.inits,
    checksum genesis p = checksum genesis q → p = q

instance separatedDecidable (genesis : Hash) (forks forks' : List UInt64) :
    Decidable (Separated genesis forks forks') :=
  inferInstanceAs (Decidable (∀ p ∈ _, ∀ q ∈ _, _))

/-! ## §5 — The code on fork blocks -/

theorem newIDLoop_eq (head : UInt64) (hash : UInt32) (forks : List UInt64) :
    newIDLoop head hash forks =
      ⟨checksumToBytes ((passed forks head).foldl checksumUpdate hash), next forks head⟩ := by
  induction forks generalizing hash with
  | nil => rfl
  | cons fork forks ih =>
    rw [newIDLoop]
    split
    · next h =>
      rw [ih]
      simp [passed, next, h]
    · next h => simp [passed, next, h]

/-- `NewID` sums up the forks that are passed. -/
theorem NewID_eq (config : ChainConfig) (genesis : Hash) (head : UInt64) :
    NewID config genesis head = ⟨checksum genesis (passed (gatherForks config) head),
      next (gatherForks config) head⟩ :=
  newIDLoop_eq head _ _

theorem getElem?_sums (hash : UInt32) (forks : List UInt64) (j : Nat) :
    (sums hash forks)[j]? = if j ≤ forks.length then
      some (checksumToBytes ((forks.take j).foldl checksumUpdate hash)) else none := by
  induction forks generalizing hash j with
  | nil => cases j <;> simp [sums]
  | cons fork forks ih =>
    cases j with
    | zero => simp [sums]
    | succ j => simp [sums, ih]

theorem filterLoop_skip {ss : List (Vector UInt8 4)} {below above : List UInt64} {id : ID}
    (h : ∀ f ∈ below, f < head) (i : Nat) : filterLoop ss forks head id i (below ++ above) =
      filterLoop ss forks head id (i + below.length) above := by
  induction below generalizing i with
  | nil => rfl
  | cons f below ih =>
    have hf : head > f := h f List.mem_cons_self
    rw [List.cons_append, filterLoop, if_pos hf,
      ih (fun g hg => h g (List.mem_cons_of_mem _ hg)), List.length_cons]
    congr 1
    omega

/-- The fork blocks below the head: those that the filter takes for passed. -/
def below (forks : List UInt64) (head : UInt64) : List UInt64 := forks.takeWhile (· < head)

theorem lt_of_mem_below {f : UInt64} (h : f ∈ below forks head) : f < head := by
  have := List.mem_takeWhile_imp (p := fun f => decide (f < head)) h
  exact of_decide_eq_true this

/-- The filter applies its rules at the first fork that is not below the head. -/
theorem newFilter_eq (config : ChainConfig) (genesis : Hash) (head : UInt64) (id : ID) :
    newFilter config genesis head id =
      applyRules (sums (ChecksumIEEE genesis.bytes) (gatherForks config))
        (gatherForks config ++ [sentinel]) head id (below (gatherForks config) head).length := by
  unfold newFilter
  dsimp only
  generalize gatherForks config = forks
  have hsplit : forks ++ [sentinel] =
      below forks head ++ (forks.dropWhile (· < head) ++ [sentinel]) := by
    rw [← List.append_assoc, below, List.takeWhile_append_dropWhile]
  nth_rewrite 2 [hsplit]
  rw [filterLoop_skip fun f hf => lt_of_mem_below hf, Nat.zero_add]
  -- the loop stops right here: at a fork that is not below the head, or at the sentinel
  cases hrest : forks.dropWhile (· < head) with
  | nil =>
    have hmax : ¬ head > sentinel := by
      have := head.toNat_lt
      rw [gt_iff_lt, UInt64.lt_iff_toNat_lt]
      simp [sentinel]
      omega
    rw [List.nil_append, filterLoop, if_neg hmax]
  | cons f rest =>
    have hf : ¬ head > f := by
      have := List.head_dropWhile_not (fun g => decide (g < head)) (l := forks) (by simp [hrest])
      simpa [hrest] using this
    rw [List.cons_append, filterLoop, if_neg hf]

/-- The checksum of a beginning of `forks'` stands in the table of `forks` at its length, if it is a
beginning of `forks` as well, and nowhere else. -/
theorem getElem?_sums_eq_iff (hsep : Separated genesis forks forks') (hremote : remote <+: forks')
    (j : Nat) : (sums (ChecksumIEEE genesis.bytes) forks)[j]? = some (checksum genesis remote) ↔
      j = remote.length ∧ remote <+: forks := by
  have hmem : remote ∈ forks.inits ++ forks'.inits :=
    List.mem_append_right _ ((List.mem_inits _ _).mpr hremote)
  rw [getElem?_sums]
  constructor
  · intro h
    split at h
    · next hj =>
      have hfront := List.take_prefix j forks
      have htake : forks.take j ∈ forks.inits ++ forks'.inits :=
        List.mem_append_left _ ((List.mem_inits _ _).mpr hfront)
      have heq : forks.take j = remote := hsep _ htake _ hmem (Option.some.inj h)
      have hlen := congrArg List.length heq
      rw [List.length_take, min_eq_left hj] at hlen
      exact ⟨hlen, heq ▸ hfront⟩
    · cases h
  · rintro ⟨rfl, h⟩
    rw [if_pos h.length_le, checksum]
    nth_rewrite 2 [List.prefix_iff_eq_take.mp h]
    rfl

/-- **The filter follows the rules, with the forks below the head for passed.** -/
theorem newFilter_eq_rules (config : ChainConfig) (head : UInt64)
    (hsep : Separated genesis (gatherForks config) forks') (hremote : remote <+: forks') :
    newFilter config genesis head ⟨checksum genesis remote, remoteNext⟩ =
      rules (gatherForks config) (below (gatherForks config) head) head remote remoteNext := by
  rw [newFilter_eq]
  generalize gatherForks config = forks at hsep ⊢
  have hpast : below forks head <+: forks := List.takeWhile_prefix _
  have hiff := getElem?_sums_eq_iff hsep hremote
  have hremote_eq : remote <+: forks → (remote.length = (below forks head).length ↔
      remote = below forks head) := fun h =>
    ⟨fun hl => (List.prefix_of_prefix_length_le h hpast hl.le).eq_of_length hl, fun he => by rw [he]⟩
  unfold applyRules rules
  simp only [hiff]
  by_cases heq : remote = below forks head
  · -- rule 1
    rw [if_pos ⟨by rw [heq], heq ▸ hpast⟩, if_pos heq]
  have hne : ¬ ((below forks head).length = remote.length ∧ remote <+: forks) := fun h =>
    heq ((hremote_eq h.2).mp h.1.symm)
  rw [if_neg hne, if_neg heq]
  by_cases hpre : remote <+: below forks head
  · -- rule 2: the number of the fork is the length of what is passed
    have hlt : remote.length < (below forks head).length := by
      have hle := hpre.length_le
      have hne : remote.length ≠ (below forks head).length := fun hl =>
        heq (hpre.eq_of_length hl)
      omega
    have hfind : (List.range (below forks head).length).find?
        (fun j => decide (j = remote.length ∧ remote <+: forks)) = some remote.length := by
      rw [List.find?_range_eq_some]
      refine ⟨by simp [hpre.trans hpast], List.mem_range.mpr hlt, fun j hj => ?_⟩
      simp [hj.ne]
    have hget : (forks ++ [sentinel])[remote.length]? = forks[remote.length]? :=
      List.getElem?_append_left (hlt.trans_le hpast.length_le)
    rw [hfind, if_pos hpre]
    dsimp only
    rw [hget]
    simp only [ne_eq, ite_not]
  -- rule 3
  have hfind : (List.range (below forks head).length).find?
      (fun j => decide (j = remote.length ∧ remote <+: forks)) = none := by
    rw [List.find?_eq_none]
    intro j hj hjr
    obtain ⟨rfl, h⟩ := of_decide_eq_true hjr
    exact hpre (List.prefix_of_prefix_length_le h hpast (List.mem_range.mp hj).le)
  have hdrop : checksum genesis remote ∈ (sums (ChecksumIEEE genesis.bytes) forks).drop
      ((below forks head).length + 1) ↔ below forks head <+: remote ∧ remote <+: forks := by
    rw [List.mem_iff_getElem?]
    simp only [List.getElem?_drop, hiff]
    constructor
    · rintro ⟨j, hj, h⟩
      exact ⟨List.prefix_of_prefix_length_le hpast h (by omega), h⟩
    · rintro ⟨hle, h⟩
      have hlen := hle.length_le
      have hne : (below forks head).length ≠ remote.length := fun hl => hne ⟨hl, h⟩
      exact ⟨remote.length - ((below forks head).length + 1), by omega, h⟩
  rw [hfind, if_neg hpre]
  simp only [hdrop]

/-! ## §6 — The filter and EIP-2124 -/

theorem passed_eq (hs : forks.Pairwise (· < ·)) (head : UInt64) :
    passed forks head = below forks head ++ if head ∈ forks then [head] else [] :=
  takeWhile_le_eq hs head

/-- Behind the forks that are passed stands the next one, unless all are passed. -/
theorem next_cases (forks : List UInt64) (head : UInt64) :
    (∃ rest, forks = passed forks head ++ next forks head :: rest ∧ head < next forks head) ∨
      forks = passed forks head ∧ next forks head = 0 := by
  induction forks with
  | nil => exact .inr ⟨rfl, rfl⟩
  | cons f forks ih =>
    by_cases hf : f ≤ head
    · have hpassed : passed (f :: forks) head = f :: passed forks head := by simp [passed, hf]
      have hnext : next (f :: forks) head = next forks head := by simp [next, hf]
      rw [hpassed, hnext]
      rcases ih with ⟨rest, hsplit, hlt⟩ | ⟨hall, hzero⟩
      · exact .inl ⟨rest, by rw [List.cons_append, ← hsplit], hlt⟩
      · exact .inr ⟨by rw [← hall], hzero⟩
    · have hpassed : passed (f :: forks) head = [] := by simp [passed, hf]
      have hnext : next (f :: forks) head = f := by simp [next, hf]
      rw [hpassed, hnext]
      exact .inl ⟨forks, rfl, UInt64.not_le.mp hf⟩

theorem le_of_mem_passed (h : f ∈ passed forks head) : f ≤ head := by
  have := List.mem_takeWhile_imp (p := fun f => decide (f ≤ head)) h
  exact of_decide_eq_true this

theorem getElem?_of_split {p rest : List UInt64} (h : forks = p ++ f :: rest) :
    forks[p.length]? = some f := by
  rw [h, List.getElem?_append_right le_rfl]
  simp

/-- A fork behind others that are passed, and passed itself, is among those that are passed. -/
theorem length_lt_passed {p rest : List UInt64} (h : forks = p ++ f :: rest)
    (hp : ∀ g ∈ p, g ≤ head) (hf : f ≤ head) : p.length < (passed forks head).length := by
  have hall : ∀ g ∈ p, decide (g ≤ head) = true := fun g hg => decide_eq_true (hp g hg)
  rw [h, passed, List.takeWhile_append_of_pos hall]
  simp [hf]

/-- A head on a fork block: the filter has one fork less for passed. -/
theorem getElem?_length_below (hs : forks.Pairwise (· < ·)) (h : head ∈ forks) :
    forks[(below forks head).length]? = some head := by
  have hpassed := passed_eq hs head
  rw [if_pos h] at hpassed
  obtain ⟨rest, hrest⟩ : passed forks head <+: forks := List.takeWhile_prefix _
  rw [hpassed, List.append_assoc] at hrest
  exact getElem?_of_split hrest.symm

/-- **Where the rules of the filter and of EIP-2124 part**: if the head is on a fork block and the
remote node has passed just the forks before it. -/
theorem rules_below_iff (hs : forks.Pairwise (· < ·)) (hpos : ∀ f ∈ forks, 0 < f) (head : UInt64)
    (hnext : ∀ f ∈ remote, remoteNext = 0 ∨ f < remoteNext) :
    rules forks (below forks head) head remote remoteNext = eip2124 forks head remote remoteNext ↔
      ¬ (head ∈ forks ∧ remote = below forks head) := by
  have hpassed := passed_eq hs head
  have hfront : passed forks head <+: forks := List.takeWhile_prefix _
  unfold eip2124
  by_cases hmem : head ∈ forks
  · rw [if_pos hmem] at hpassed
    rw [hpassed] at hfront ⊢
    have hget := getElem?_length_below hs hmem
    have hat : 0 < head := hpos head hmem
    generalize below forks head = past at *
    have hsub : past <+: past ++ [head] := List.prefix_append past [head]
    by_cases heq : remote = past
    · -- rule 1 here and rule 2 there
      subst heq
      refine iff_of_false ?_ (fun h => h ⟨hmem, rfl⟩)
      have hne : remote ≠ remote ++ [head] := by simp
      rw [rules, rules, if_pos rfl, if_neg hne, if_pos hsub, hget]
      by_cases hn : remoteNext = head
      · rw [hn, if_pos ⟨hat, UInt64.le_refl head⟩, if_pos rfl]
        simp
      · have hne' : ¬ some head = some remoteNext := fun h => hn (Option.some.inj h).symm
        split <;> simp
    refine iff_of_true ?_ (fun h => heq h.2)
    rw [rules, rules, if_neg heq]
    by_cases hall : remote = past ++ [head]
    · -- rule 3 here and rule 1 there: what the remote node announces lies ahead of the head
      have hnot : ¬ remote <+: past := fun h => by
        have := h.length_le
        rw [hall, List.length_append, List.length_singleton] at this
        omega
      have hahead : ¬ (remoteNext > 0 ∧ remoteNext ≤ head) := by
        rintro ⟨h0, hle⟩
        rcases hnext head (by rw [hall]; simp) with rfl | hlt
        · exact UInt64.lt_irrefl 0 h0
        · exact UInt64.not_lt.mpr hle hlt
      rw [if_neg hnot, if_pos ⟨hall ▸ hsub, hall ▸ hfront⟩, if_pos hall, if_neg hahead]
    rw [if_neg hall]
    -- between a proper beginning of `past` and one of `past ++ [head]` there is nothing else
    have hbefore : remote <+: past ++ [head] ↔ remote <+: past := by
      rw [List.prefix_concat_iff]
      simp [hall]
    by_cases hpre : remote <+: past
    · rw [if_pos hpre, if_pos (hbefore.mpr hpre)]
    rw [if_neg hpre, if_neg fun h => hpre (hbefore.mp h)]
    have hafter : past <+: remote ∧ remote <+: forks ↔
        past ++ [head] <+: remote ∧ remote <+: forks := by
      refine and_congr_left fun h => ⟨fun hp => ?_, fun hp => hsub.trans hp⟩
      rcases List.prefix_or_prefix_of_prefix h hfront with hle | hge
      · exact absurd (hbefore.mp hle) hpre
      · exact hge
    simp only [hafter]
  · rw [if_neg hmem, List.append_nil] at hpassed
    rw [hpassed]
    exact iff_of_true rfl fun h => hmem h.1

/-- **EIP-2124 accepts a node of the same configuration, wherever the two heads are.** -/
theorem eip2124_self (forks : List UInt64) (head remoteHead : UInt64) :
    eip2124 forks head (passed forks remoteHead) (next forks remoteHead) = none := by
  have hpast : passed forks head <+: forks := List.takeWhile_prefix _
  have hremote : passed forks remoteHead <+: forks := List.takeWhile_prefix _
  have hsuper : ¬ passed forks remoteHead <+: passed forks head →
      passed forks head <+: passed forks remoteHead := fun h =>
    (List.prefix_or_prefix_of_prefix hremote hpast).resolve_left h
  unfold eip2124 rules
  rcases next_cases forks remoteHead with ⟨rest, hsplit, -⟩ | ⟨hall, hzero⟩
  · split
    · next heq =>
      -- a next fork that the local head has passed would stand in its list
      refine if_neg fun h => ?_
      have hlong := length_lt_passed hsplit (fun f hf => le_of_mem_passed (heq ▸ hf)) h.2
      rw [heq] at hlong
      exact lt_irrefl _ hlong
    · split
      · exact if_pos (getElem?_of_split hsplit)
      · next hpre => exact if_pos ⟨hsuper hpre, hremote⟩
  · split
    · rw [hzero]
      exact if_neg fun h => UInt64.lt_irrefl 0 h.1
    next hne =>
    split
    · next hpre =>
      have hle : (passed forks head).length ≤ (passed forks remoteHead).length :=
        hpast.length_le.trans (congrArg List.length hall).le
      exact absurd (hpre.eq_of_length_le hle) hne
    · next hpre => exact if_pos ⟨hsuper hpre, hremote⟩

theorem Separated.left (h : Separated genesis forks forks') : Separated genesis forks forks := by
  intro p hp q hq
  rw [List.mem_append, or_self] at hp hq
  exact h p (List.mem_append_left _ hp) q (List.mem_append_left _ hq)

/-- **The filter of a local chain against the identifier of a remote one** with the same genesis. A
node of the same configuration is accepted, and any other is answered as EIP-2124 has it, exactly if
the local head is not on a fork block, or the remote node has not passed just the forks before that
block. -/
theorem filter_iff (config remote : ChainConfig) (genesis : Hash) (head remoteHead : UInt64)
    (hsep : Separated genesis (gatherForks config) (gatherForks remote)) :
    (newFilter config genesis head (NewID config genesis remoteHead) = none ↔
      ¬ (head ∈ gatherForks config ∧
        passed (gatherForks config) remoteHead = below (gatherForks config) head)) ∧
    (newFilter config genesis head (NewID remote genesis remoteHead) =
        eip2124 (gatherForks config) head (passed (gatherForks remote) remoteHead)
          (next (gatherForks remote) remoteHead) ↔
      ¬ (head ∈ gatherForks config ∧
        passed (gatherForks remote) remoteHead = below (gatherForks config) head)) := by
  have hs := gatherForks_sorted config
  have hpos : ∀ f ∈ gatherForks config, 0 < f := fun f hf => (mem_gatherForks.mp hf).2
  -- what is announced lies ahead of everything that is passed
  have hnext : ∀ forks : List UInt64, ∀ f ∈ passed forks remoteHead,
      next forks remoteHead = 0 ∨ f < next forks remoteHead := by
    intro forks f hf
    rcases next_cases forks remoteHead with ⟨rest, -, hlt⟩ | ⟨-, hzero⟩
    · exact .inr (UInt64.lt_of_le_of_lt (le_of_mem_passed hf) hlt)
    · exact .inl hzero
  have hfront : ∀ forks : List UInt64, passed forks remoteHead <+: forks := fun forks =>
    List.takeWhile_prefix _
  constructor
  · have h := rules_below_iff hs hpos head (hnext (gatherForks config))
    rw [eip2124_self] at h
    rw [NewID_eq, newFilter_eq_rules config head hsep.left (hfront _)]
    exact h
  · rw [NewID_eq, newFilter_eq_rules config head hsep (hfront _)]
    exact rules_below_iff hs hpos head (hnext _)

def MainnetChainConfig : ChainConfig where
  ChainID := some 1
  HomesteadBlock := some 1150000
  DAOForkBlock := some 1920000
  EIP150Block := some 2463000
  EIP155Block := some 2675000
  EIP158Block := some 2675000
  ByzantiumBlock := some 4370000
  ConstantinopleBlock := some 7280000
  PetersburgBlock := some 7280000
  IstanbulBlock := some 9069000
  MuirGlacierBlock := some 9200000

def MainnetGenesisHash : Hash where
  bytes := [0xd4, 0xe5, 0x67, 0x40, 0xf8, 0x76, 0xae, 0xf8, 0xc0, 0x10, 0xb8, 0x6a, 0x40, 0xd5,
    0xf5, 0x67, 0x45, 0xa1, 0x18, 0xd0, 0x90, 0x6a, 0x34, 0xe6, 0x9a, 0xec, 0x8c, 0x0d, 0xb1, 0xcb,
    0x8f, 0xa3]
  length_eq := rfl

-- two of the identifiers that `TestCreation` expects
example : NewID MainnetChainConfig MainnetGenesisHash 0 =
    ⟨checksumToBytes 0xfc64ec04, 1150000⟩ := by decide +kernel

example : NewID MainnetChainConfig MainnetGenesisHash 1150000 =
    ⟨checksumToBytes 0x97c2c34c, 1920000⟩ := by decide +kernel

/-- The checksums of the main network are separated, and a node in Petersburg accepts one that is
still in Byzantium. -/
theorem filter_iff_petersburg : Separated MainnetGenesisHash (gatherForks MainnetChainConfig)
      (gatherForks MainnetChainConfig) ∧
    newFilter MainnetChainConfig MainnetGenesisHash 7987396
      (NewID MainnetChainConfig MainnetGenesisHash 7279999) = none := by
  have hsep : Separated MainnetGenesisHash (gatherForks MainnetChainConfig)
      (gatherForks MainnetChainConfig) := by decide +kernel
  refine ⟨hsep, (filter_iff _ _ _ _ _ hsep).1.mpr ?_⟩
  decide +kernel

/-- **A node on the first Homestead block turns away one of its own network that is a block
behind**, though that node announces the very fork. -/
theorem filter_rejects_on_fork_block : Separated MainnetGenesisHash (gatherForks MainnetChainConfig)
      (gatherForks MainnetChainConfig) ∧
    newFilter MainnetChainConfig MainnetGenesisHash 1150000
      (NewID MainnetChainConfig MainnetGenesisHash 1149999) = some .ErrLocalIncompatibleOrStale ∧
    eip2124 (gatherForks MainnetChainConfig) 1150000
      (passed (gatherForks MainnetChainConfig) 1149999)
      (next (gatherForks MainnetChainConfig) 1149999) = none := by
  decide +kernel

end MxtChain.ForkID
