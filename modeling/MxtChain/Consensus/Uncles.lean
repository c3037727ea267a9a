/-
# MxtChain.Consensus.Uncles — `VerifyUncles` and the rewards for uncles.

`VerifyUncles` looks at the last seven ancestors of a block only. That is enough for a statement
about whole chains: an uncle's parent is one of these ancestors but not the block's own parent, and
`verifyHeader` ties the uncle's number to its parent's, so an uncle is at most six blocks old; hence
a block that could have included the same uncle before, or be the uncle itself, is still among the
seven.

Two facts about hashing are assumed, of the headers of the chain and its uncles only.
`CollisionFree`: two of them with one hash are one header. `Acyclic`: the hash of a header comes
after the hashes that went into it, those of its parent and of the uncles it commits to.

An engine in `ModeFullFake` accepts any uncles by design.
-/
import MxtChain.Consensus.Header

namespace MxtChain.Consensus

open List

/-! ## §1 — the code. -/

def maxUncles : Nat := 2

/-- The set of past uncles and the map of ancestors that `VerifyUncles` gathers. -/
structure Gathered where
  uncles : List Hash
  ancestors : List (Hash × Header)

section
variable (hash : Header → Hash)

/-- A chain reader that returns the blocks of `blocks`, by hash and number. -/
def GetBlock (blocks : List Block) (h : Hash) (number : UInt64) : Option Block :=
  blocks.find? fun b => hash b.header = h ∧ b.header.numberU64 = number

/-- The loop of `VerifyUncles` over the last ancestors. -/
def gather (chain : List Block) : Nat → Hash → UInt64 → Gathered → Gathered
  | 0, _, _, g => g
  | i + 1, parent, number, g =>
    match GetBlock hash chain parent number with
    | none => g
    | some ancestor =>
      gather chain i ancestor.header.parentHash (number - 1)
        ⟨ancestor.uncles.map hash ++ g.uncles,
          (hash ancestor.header, ancestor.header) :: g.ancestors⟩

/-- The loop of `VerifyUncles` over the uncles of the block with parent `parentHash`. -/
def checkUncles (E : Engine) (parentHash : Hash) (ancestors : List (Hash × Header)) :
    List Header → List Hash → Option VerifyErr
  | [], _ => none
  | uncle :: rest, uncles =>
    if hash uncle ∈ uncles then some .duplicateUncle
    else if (ancestors.lookup (hash uncle)).isSome then some .uncleIsAncestor
    else
      match ancestors.lookup uncle.parentHash with
      | none => some .danglingUncle
      | some parent =>
        if uncle.parentHash = parentHash then some .danglingUncle
        else
          match verifyHeader hash E uncle parent true true with
          | some e => some e
          | none => checkUncles E parentHash ancestors rest (hash uncle :: uncles)

def VerifyUncles (E : Engine) (chain : List Block) (block : Block) : Option VerifyErr :=
  if E.mode = .ModeFullFake then none
  else if block.uncles.length > maxUncles then some .tooManyUncles
  else if block.uncles.length = 0 then none
  else
    let g := gather hash chain 7 block.header.parentHash (block.header.numberU64 - 1) ⟨[], []⟩
    checkUncles hash E block.header.parentHash ((hash block.header, block.header) :: g.ancestors)
      block.uncles (hash block.header :: g.uncles)

end

/-- `FrontierBlockReward`, `ByzantiumBlockReward` and `ConstantinopleBlockReward`, in wei. -/
def blockReward (config : ChainConfig) (number : Nat) : Int :=
  let reward := 5000000000000000000
  let reward := if config.IsByzantium number then 3000000000000000000 else reward
  if config.IsConstantinople number then 2000000000000000000 else reward

/-- The loop of `accumulateRewards`: what the uncles' coinbases are credited with, and the reward
of the miner. -/
def rewardUncles (reward : Int) (header : Header) :
    List Header → List (Address × Int) → Int → List (Address × Int) × Int
  | [], credits, miner => (credits, miner)
  | uncle :: rest, credits, miner =>
    rewardUncles reward header rest
      (credits ++ [(uncle.coinbase, ((uncle.number : Int) + 8 - header.number) * reward / 8)])
      (miner + reward / 32)

/-- `accumulateRewards`: the calls of `AddBalance`, those for the uncles apart from the one for the
miner. -/
def accumulateRewards (config : ChainConfig) (header : Header) (uncles : List Header) :
    List (Address × Int) × (Address × Int) :=
  let reward := blockReward config header.number
  let r := rewardUncles reward header uncles [] reward
  (r.1, (header.coinbase, r.2))

/-! ## §2 — chains. -/

/-- The blocks of a chain, newest first, each linked to the one behind it. -/
def Linked (hash : Header → Hash) : List Block → Prop
  | [] => True
  | [_] => True
  | b :: a :: rest =>
    b.header.parentHash = hash a.header ∧ b.header.number = a.header.number + 1 ∧
      Linked hash (a :: rest)

/-- Every block of the chain passes `VerifyUncles` against a reader of its ancestors. -/
def Verified (hash : Header → Hash) (E : Engine) : List Block → Prop
  | [] => True
  | b :: ancestors => VerifyUncles hash E ancestors b = none ∧ Verified hash E ancestors

def headers (chain : List Block) : List Header := chain.flatMap fun b => b.header :: b.uncles

/-- Two headers with one hash are one header. -/
def CollisionFree (hash : Header → Hash) (chain : List Block) : Prop :=
  ∀ x ∈ headers chain, ∀ y ∈ headers chain, hash x = hash y → x = y

/-- `rank` orders the hashes of the chain such that a header's hash comes after those that the
header contains: its parent's, and through `UncleHash` those of its uncles. -/
def Ranks (hash : Header → Hash) (chain : List Block) (rank : Hash → Nat) : Prop :=
  ∀ b ∈ chain, rank b.header.parentHash < rank (hash b.header) ∧
    ∀ u ∈ b.uncles, rank u.parentHash < rank (hash u) ∧ rank (hash u) < rank (hash b.header)

def Acyclic (hash : Header → Hash) (chain : List Block) : Prop := ∃ rank, Ranks hash chain rank

instance (hash : Header → Hash) : (chain : List Block) → Decidable (Linked hash chain)
  | [] => isTrue trivial
  | [_] => isTrue trivial
  | _ :: a :: rest =>
    have : Decidable (Linked hash (a :: rest)) := instDecidableLinked hash (a :: rest)
    inferInstanceAs (Decidable (_ ∧ _ ∧ _))

instance (hash : Header → Hash) (E : Engine) :
    (chain : List Block) → Decidable (Verified hash E chain)
  | [] => isTrue trivial
  | _ :: ancestors =>
    have : Decidable (Verified hash E ancestors) := instDecidableVerified hash E ancestors
    inferInstanceAs (Decidable (_ ∧ _))

instance (hash : Header → Hash) (chain : List Block) : Decidable (CollisionFree hash chain) :=
  inferInstanceAs (Decidable (∀ x ∈ headers chain, ∀ y ∈ headers chain, hash x = hash y → x = y))

instance (hash : Header → Hash) (chain : List Block) (rank : Hash → Nat) :
    Decidable (Ranks hash chain rank) :=
  inferInstanceAs (Decidable (∀ b ∈ chain, _ ∧ ∀ u ∈ b.uncles, _))

variable {chain pre : List Block} {a b : Block}

section
variable {hash : Header → Hash} {rest : List Block} {b : Block} {rank : Hash → Nat}

theorem Linked.tail (h : Linked hash (b :: rest)) : Linked hash rest := by
  cases rest with
  | nil => trivial
  | cons a rest => exact h.2.2

theorem mem_headers {h : Header} :
    h ∈ headers chain ↔ ∃ b ∈ chain, h = b.header ∨ h ∈ b.uncles := by
  simp [headers]

theorem CollisionFree.tail (h : CollisionFree hash (b :: rest)) : CollisionFree hash rest := by
  intro x hx y hy
  apply h
  · simp only [headers, flatMap_cons, mem_append] at hx ⊢
    exact .inr hx
  · simp only [headers, flatMap_cons, mem_append] at hy ⊢
    exact .inr hy

theorem Ranks.tail (h : Ranks hash (b :: rest) rank) : Ranks hash rest rank :=
  fun a ha => h a (mem_cons_of_mem _ ha)

variable (h : Linked hash (b :: rest))
include h

/-- The number of an ancestor says how far back it is. -/
theorem number_of_getElem {i : Nat} (ha : rest[i]? = some a) :
    a.header.number + (i + 1) = b.header.number := by
  induction i generalizing b rest with
  | zero =>
    cases rest with
    | nil => simp at ha
    | cons c rest =>
      simp only [getElem?_cons_zero, Option.some.injEq] at ha
      subst ha
      exact h.2.1.symm
  | succ i ih =>
    cases rest with
    | nil => simp at ha
    | cons c rest =>
      have := ih h.2.2 ha
      have := h.2.1
      omega

theorem number_lt_of_mem (ha : a ∈ rest) : a.header.number < b.header.number := by
  obtain ⟨i, hi⟩ := mem_iff_getElem?.mp ha
  have := number_of_getElem h hi
  omega

/-- A recent ancestor is in the window of the last seven. -/
theorem mem_window (ha : a ∈ rest)
    (hrecent : b.header.number ≤ a.header.number + 7) : a ∈ rest.take 7 := by
  obtain ⟨i, hi⟩ := mem_iff_getElem?.mp ha
  have := number_of_getElem h hi
  rw [mem_iff_getElem?]
  exact ⟨i, by rw [getElem?_take_of_lt (by omega), hi]⟩

theorem rank_lt_of_mem (hr : Ranks hash (b :: rest) rank)
    (ha : a ∈ rest) : rank (hash a.header) < rank (hash b.header) := by
  induction rest generalizing b with
  | nil => simp at ha
  | cons c rest ih =>
    have hbc : rank (hash c.header) < rank (hash b.header) := by
      rw [← h.1]
      exact (hr b mem_cons_self).1
    rcases mem_cons.mp ha with rfl | ha
    · exact hbc
    · exact (ih h.2.2 hr.tail ha).trans hbc

omit h

theorem number_lt_of_append (h : Linked hash (pre ++ b :: rest)) (ha : a ∈ pre) :
    b.header.number < a.header.number := by
  induction pre with
  | nil => simp at ha
  | cons c pre ih =>
    rcases mem_cons.mp ha with rfl | ha
    · exact number_lt_of_mem h (by simp)
    · exact ih (Linked.tail h) ha

/-! ## §3 — the window of seven ancestors. -/

/-- The reader finds every block of the chain. -/
theorem GetBlock_self (h : Linked hash (pre ++ b :: rest))
    (hcf : CollisionFree hash (pre ++ b :: rest)) :
    GetBlock hash (pre ++ b :: rest) (hash b.header) b.header.numberU64 = some b := by
  unfold GetBlock
  rw [find?_eq_some_iff_append]
  refine ⟨by simp, pre, rest, rfl, ?_⟩
  intro a ha
  have hlt := number_lt_of_append h ha
  simp only [Bool.not_eq_eq_eq_not, Bool.not_true, decide_eq_false_iff_not, not_and]
  intro hh
  have heq := hcf a.header (mem_headers.mpr ⟨a, by simp [ha], .inl rfl⟩) b.header
    (mem_headers.mpr ⟨b, by simp, .inl rfl⟩) hh
  rw [heq] at hlt
  omega

theorem GetBlock_first (h : Linked hash (pre ++ [b])) (hr : Ranks hash (pre ++ [b]) rank)
    (number : UInt64) : GetBlock hash (pre ++ [b]) b.header.parentHash number = none := by
  unfold GetBlock
  rw [find?_eq_none]
  intro a ha
  simp only [decide_eq_true_eq, not_and]
  intro hh
  have hb := (hr b (by simp)).1
  have hle : rank (hash b.header) ≤ rank (hash a.header) := by
    induction pre with
    | nil =>
      simp only [nil_append, mem_singleton] at ha
      rw [ha]
    | cons c pre ih =>
      rcases mem_cons.mp ha with rfl | ha
      · exact (rank_lt_of_mem h hr (by simp)).le
      · exact ih (Linked.tail h) hr.tail ha
  rw [hh] at hle
  omega

def collect (hash : Header → Hash) (g : Gathered) (a : Block) : Gathered :=
  ⟨a.uncles.map hash ++ g.uncles, (hash a.header, a.header) :: g.ancestors⟩

theorem numberU64_sub_one (h : b.header.number = a.header.number + 1) :
    b.header.numberU64 - 1 = a.header.numberU64 := by
  simp only [Header.numberU64, h]
  rw [UInt64.ofNat_add]
  exact add_sub_cancel_right _ _

/-- What the loop finds, from the block in front of `suf` on. -/
theorem gather_suffix (h : Linked hash chain) (hcf : CollisionFree hash chain)
    (hr : Ranks hash chain rank) (k : Nat) : ∀ (pre suf : List Block) (p : Hash) (n : UInt64)
    (g : Gathered), chain = pre ++ suf →
      (∀ a t, suf = a :: t → p = hash a.header ∧ n = a.header.numberU64) →
      (suf = [] → GetBlock hash chain p n = none) →
      gather hash chain k p n g = (suf.take k).foldl (collect hash) g := by
  induction k with
  | zero =>
    intro pre suf p n g _ _ _
    rfl
  | succ k ih =>
    intro pre suf p n g hchain hstart hend
    cases suf with
    | nil => rw [gather, hend rfl, take_nil, foldl_nil]
    | cons a t =>
      obtain ⟨rfl, rfl⟩ := hstart a t rfl
      have hget : GetBlock hash chain (hash a.header) a.header.numberU64 = some a := by
        subst hchain
        exact GetBlock_self h hcf
      rw [gather, hget]
      refine ih (pre ++ [a]) t _ _ _ (by simp [hchain]) ?_ ?_
      · rintro c t' rfl
        have hlink : Linked hash (a :: c :: t') := by
          subst hchain
          clear hstart hend hget hcf hr ih
          induction pre with
          | nil => exact h
          | cons d pre ih => exact ih (Linked.tail h)
        exact ⟨hlink.1, numberU64_sub_one hlink.2.1⟩
      · rintro rfl
        subst hchain
        exact GetBlock_first h hr _

/-- **The loop of `VerifyUncles` collects the last seven ancestors.** -/
theorem gather_window (h : Linked hash (b :: rest)) (hcf : CollisionFree hash (b :: rest))
    (hr : Ranks hash (b :: rest) rank) (g : Gathered) :
    gather hash rest 7 b.header.parentHash (b.header.numberU64 - 1) g =
      (rest.take 7).foldl (collect hash) g := by
  refine gather_suffix h.tail hcf.tail hr.tail 7 [] rest _ _ g rfl ?_ ?_
  · rintro a t rfl
    exact ⟨h.1, numberU64_sub_one h.2.1⟩
  · rintro rfl
    rfl

variable {g : Gathered} {l : List Block}

theorem mem_uncles_collect {u : Header} (ha : a ∈ l)
    (hu : u ∈ a.uncles) : hash u ∈ (l.foldl (collect hash) g).uncles := by
  have hkeep : ∀ (l : List Block) (g : Gathered) (x : Hash), x ∈ g.uncles →
      x ∈ (l.foldl (collect hash) g).uncles := by
    intro l
    induction l with
    | nil => exact fun g x hx => hx
    | cons c l ih => exact fun g x hx => ih _ x (by simp [collect, hx])
  induction l generalizing g with
  | nil => simp at ha
  | cons c l ih =>
    rcases mem_cons.mp ha with rfl | ha
    · refine hkeep l _ _ ?_
      simp only [collect, mem_append, mem_map]
      exact .inl ⟨u, hu, rfl⟩
    · exact ih ha

theorem mem_ancestors_collect {e : Hash × Header} : e ∈ (l.foldl (collect hash) g).ancestors ↔
      e ∈ g.ancestors ∨ ∃ a ∈ l, e = (hash a.header, a.header) := by
  induction l generalizing g with
  | nil => simp
  | cons c l ih =>
    rw [foldl_cons, ih]
    simp only [collect, mem_cons, exists_eq_or_imp]
    tauto

end

/-! ## §4 — what a block that passes has for uncles. -/

section
variable {hash : Header → Hash} {E : Engine} {rest : List Block} {b : Block} {rank : Hash → Nat}

/-- An uncle that passes the loop. -/
structure Passes (hash : Header → Hash) (E : Engine) (parentHash : Hash)
    (ancestors : List (Hash × Header)) (seen : List Hash) (u : Header) : Prop where
  fresh : hash u ∉ seen
  notAncestor : ancestors.lookup (hash u) = none
  parent : ∃ p, ancestors.lookup u.parentHash = some p ∧ u.number = p.number + 1
  notSibling : u.parentHash ≠ parentHash

theorem checkUncles_sound {parentHash : Hash} {ancestors : List (Hash × Header)} :
    ∀ {us : List Header} {seen : List Hash},
      checkUncles hash E parentHash ancestors us seen = none →
      (us.map hash).Nodup ∧ ∀ u ∈ us, Passes hash E parentHash ancestors seen u
  | [], _, _ => by simp
  | u :: us, seen, h => by
    rw [checkUncles] at h
    split at h
    · cases h
    rename_i hfresh
    split at h
    · cases h
    rename_i hanc
    split at h
    · cases h
    rename_i p hp
    split at h
    · cases h
    rename_i hsib
    split at h
    · cases h
    rename_i hver
    obtain ⟨hnodup, hpass⟩ := checkUncles_sound h
    constructor
    · rw [map_cons, nodup_cons]
      refine ⟨fun hmem => ?_, hnodup⟩
      obtain ⟨v, hv, hvu⟩ := mem_map.mp hmem
      exact (hpass v hv).fresh (by simp [hvu])
    · intro v hv
      rcases mem_cons.mp hv with rfl | hv
      · exact ⟨hfresh, Option.not_isSome_iff_eq_none.mp hanc,
          ⟨p, hp, number_of_verifyHeader hver⟩, hsib⟩
      · obtain ⟨h1, h2, h3, h4⟩ := hpass v hv
        exact ⟨fun hm => h1 (mem_cons_of_mem _ hm), h2, h3, h4⟩

variable {x : Hash} {p : Header} {l : List (Hash × Header)}

theorem lookup_mem (h : l.lookup x = some p) : (x, p) ∈ l := by
  induction l with
  | nil => simp at h
  | cons e l ih =>
    obtain ⟨y, q⟩ := e
    rw [lookup_cons] at h
    by_cases hxy : x = y
    · subst hxy
      simp only [beq_self_eq_true, Option.some.injEq] at h
      simp [h]
    · simp only [show (x == y) = false by simpa using hxy] at h
      exact mem_cons_of_mem _ (ih h)

theorem lookup_ne_none (h : (x, p) ∈ l) : l.lookup x ≠ none := by
  rw [Ne, lookup_eq_none_iff]
  intro hall
  simpa using hall _ h

/-- What one verified block says about its uncles. -/
structure UnclesOf (hash : Header → Hash) (rest : List Block) (b : Block) : Prop where
  nodup : (b.uncles.map hash).Nodup
  young : ∀ u ∈ b.uncles, b.header.number ≤ u.number + 6
  older : ∀ u ∈ b.uncles, u.number + 1 ≤ b.header.number
  notAncestor : ∀ u ∈ b.uncles, ∀ a ∈ rest, hash a.header ≠ hash u
  fresh : ∀ u ∈ b.uncles, ∀ a ∈ rest.take 7, ∀ v ∈ a.uncles, hash v ≠ hash u

/-- **One block.** The uncles of a block that passes `VerifyUncles` are distinct, at most six
blocks old, no ancestors, and no uncles of the last seven ancestors. -/
theorem unclesOf_verified (hmode : E.mode ≠ .ModeFullFake) (hl : Linked hash (b :: rest))
    (hcf : CollisionFree hash (b :: rest)) (hr : Ranks hash (b :: rest) rank)
    (hv : VerifyUncles hash E rest b = none) : UnclesOf hash rest b := by
  unfold VerifyUncles at hv
  rw [if_neg hmode] at hv
  split at hv
  · cases hv
  split at hv
  · rename_i hzero
    have hnil : b.uncles = [] := length_eq_zero_iff.mp hzero
    constructor <;> simp [hnil]
  simp only [gather_window hl hcf hr] at hv
  obtain ⟨hnodup, hpass⟩ := checkUncles_sound hv
  have hage : ∀ u ∈ b.uncles, b.header.number ≤ u.number + 6 ∧ u.number + 1 ≤ b.header.number := by
    intro u hu
    obtain ⟨p, hp, hnum⟩ := (hpass u hu).parent
    rcases mem_cons.mp (lookup_mem hp) with heq | hmem
    · -- the block itself is in the map, but no uncle it commits to can be its child
      obtain ⟨hr1, hr2⟩ := (hr b mem_cons_self).2 u hu
      simp only [Prod.mk.injEq] at heq
      rw [heq.1] at hr1
      omega
    rw [mem_ancestors_collect] at hmem
    rcases hmem with hmem | ⟨a, ha, heq⟩
    · simp at hmem
    simp only [Prod.mk.injEq] at heq
    obtain ⟨hhash, rfl⟩ := heq
    obtain ⟨i, hi⟩ := mem_iff_getElem?.mp ha
    have hlt : i < 7 := by
      by_contra hc
      simp [hc] at hi
    rw [getElem?_take_of_lt hlt] at hi
    have hnum' := number_of_getElem hl hi
    -- the block's own parent is excluded
    have hpos : i ≠ 0 := by
      rintro rfl
      cases rest with
      | nil => simp at hi
      | cons c rest =>
        simp only [getElem?_cons_zero, Option.some.injEq] at hi
        subst hi
        exact (hpass u hu).notSibling (by rw [hhash, hl.1])
    omega
  refine ⟨hnodup, fun u hu => (hage u hu).1, fun u hu => (hage u hu).2, ?_, ?_⟩
  · intro u hu a ha hh
    have heq := hcf a.header (mem_headers.mpr ⟨a, by simp [ha], .inl rfl⟩) u
      (mem_headers.mpr ⟨b, by simp, .inr hu⟩) hh
    have hnum : a.header.number = u.number := by rw [heq]
    have hwin := mem_window hl ha (by have := (hage u hu).1; omega)
    refine lookup_ne_none (p := a.header) ?_ (hpass u hu).notAncestor
    rw [← hh]
    refine mem_cons_of_mem _ (mem_ancestors_collect.mpr (.inr ⟨a, hwin, rfl⟩))
  · intro u hu a ha v hv' hh
    refine (hpass u hu).fresh (mem_cons_of_mem _ ?_)
    rw [← hh]
    exact mem_uncles_collect ha hv'

theorem unclesOf_chain (hmode : E.mode ≠ .ModeFullFake) (hl : Linked hash chain)
    (hcf : CollisionFree hash chain) (hr : Ranks hash chain rank) (hv : Verified hash E chain)
    (h : chain = pre ++ b :: rest) : UnclesOf hash rest b := by
  induction pre generalizing chain with
  | nil =>
    subst h
    exact unclesOf_verified hmode hl hcf hr hv.1
  | cons c pre ih =>
    subst h
    exact ih hl.tail hcf.tail hr.tail hv.2 rfl

/-- No uncle is in two blocks: the older block would be in the window of the newer one. -/
theorem nodup_uncles (hl : Linked hash chain) (hcf : CollisionFree hash chain)
    (hof : ∀ pre b rest, chain = pre ++ b :: rest → UnclesOf hash rest b) :
    (chain.flatMap fun b => b.uncles.map hash).Nodup := by
  induction chain with
  | nil => simp
  | cons b rest ih =>
    have hb := hof [] b rest rfl
    have hrest := ih hl.tail hcf.tail fun pre c t h => hof (b :: pre) c t (by rw [h]; rfl)
    refine Nodup.append hb.nodup hrest ?_
    intro x hx hx'
    obtain ⟨u, hu, rfl⟩ := mem_map.mp hx
    obtain ⟨a, ha, hx'⟩ := mem_flatMap.mp hx'
    obtain ⟨v, hv, hvu⟩ := mem_map.mp hx'
    have heq := hcf v (mem_headers.mpr ⟨a, by simp [ha], .inr hv⟩) u
      (mem_headers.mpr ⟨b, by simp, .inr hu⟩) hvu
    subst heq
    obtain ⟨pre, t, rfl⟩ := append_of_mem ha
    have hold := (hof (b :: pre) a t rfl).older v hv
    have hyoung := hb.young v hu
    exact hb.fresh v hu a (mem_window hl ha (by omega)) v hv rfl

end

/-! ## §5 — rewards. -/

theorem rewardUncles_credits (reward : Int) (header : Header) (uncles : List Header)
    (credits : List (Address × Int)) (miner : Int) :
    (rewardUncles reward header uncles credits miner).1 = credits ++ uncles.map fun u =>
      (u.coinbase, ((u.number : Int) + 8 - header.number) * reward / 8) := by
  induction uncles generalizing credits miner with
  | nil => simp [rewardUncles]
  | cons u us ih => rw [rewardUncles, ih, append_assoc, map_cons, singleton_append]

/-- A block reward is a positive multiple of eight. -/
theorem blockReward_eq (config : ChainConfig) (number : Nat) :
    ∃ k, 0 < k ∧ blockReward config number = 8 * k := by
  unfold blockReward
  simp only
  split
  · exact ⟨250000000000000000, by norm_num, by norm_num⟩
  split
  · exact ⟨375000000000000000, by norm_num, by norm_num⟩
  · exact ⟨625000000000000000, by norm_num, by norm_num⟩

/-- The reward for an uncle between one and six blocks old. -/
theorem reward_bounds {reward : Int} (hreward : ∃ k, 0 < k ∧ reward = 8 * k) {u n : Nat}
    (hyoung : n ≤ u + 6) (holder : u + 1 ≤ n) :
    2 * reward ≤ 8 * (((u : Int) + 8 - n) * reward / 8) ∧
      8 * (((u : Int) + 8 - n) * reward / 8) ≤ 7 * reward := by
  obtain ⟨k, hk, rfl⟩ := hreward
  have hdiv : ((u : Int) + 8 - n) * (8 * k) / 8 = ((u : Int) + 8 - n) * k := by
    rw [show ((u : Int) + 8 - n) * (8 * k) = 8 * (((u : Int) + 8 - n) * k) by ring]
    exact Int.mul_ediv_cancel_left _ (by norm_num)
  have h2 : 2 * k ≤ ((u : Int) + 8 - n) * k := Int.mul_le_mul_of_nonneg_right (by omega) hk.le
  have h7 : ((u : Int) + 8 - n) * k ≤ 7 * k := Int.mul_le_mul_of_nonneg_right (by omega) hk.le
  omega

/-- **No uncle is rewarded twice.** In a chain, newest block first, whose blocks all pass
`VerifyUncles` against a reader of their ancestors, the hashes of all uncles are distinct, no uncle
is an ancestor of its block, its number is one to six below its block's, and the reward for it is
between two and seven eighths of the block reward. -/
theorem uncles_rewarded_once (hash : Header → Hash) (E : Engine) (hmode : E.mode ≠ .ModeFullFake)
    (chain : List Block) (hlinked : Linked hash chain) (hcf : CollisionFree hash chain)
    (hacyclic : Acyclic hash chain) (hverified : Verified hash E chain) :
    (chain.flatMap fun b => b.uncles.map hash).Nodup ∧
    ∀ pre b ancestors, chain = pre ++ b :: ancestors →
      (∀ u ∈ b.uncles, (∀ a ∈ ancestors, hash a.header ≠ hash u) ∧
        b.header.number ≤ u.number + 6 ∧ u.number + 1 ≤ b.header.number) ∧
      (accumulateRewards E.config b.header b.uncles).1.length = b.uncles.length ∧
      ∀ c ∈ (accumulateRewards E.config b.header b.uncles).1,
        2 * blockReward E.config b.header.number ≤ 8 * c.2 ∧
          8 * c.2 ≤ 7 * blockReward E.config b.header.number := by
  obtain ⟨rank, hrank⟩ := hacyclic
  have hof : ∀ pre b rest, chain = pre ++ b :: rest → UnclesOf hash rest b :=
    fun pre b rest h => unclesOf_chain hmode hlinked hcf hrank hverified h
  refine ⟨nodup_uncles hlinked hcf hof, fun pre b ancestors h => ?_⟩
  have hb := hof pre b ancestors h
  refine ⟨fun u hu => ⟨hb.notAncestor u hu, hb.young u hu, hb.older u hu⟩, ?_, ?_⟩
  · simp [accumulateRewards, rewardUncles_credits]
  · intro c hc
    simp only [accumulateRewards, rewardUncles_credits, nil_append, mem_map] at hc
    obtain ⟨u, hu, rfl⟩ := hc
    exact reward_bounds (blockReward_eq _ _) (hb.young u hu) (hb.older u hu)

/-- A hash for small examples. -/
def sampleHash (h : Header) : Hash := Hash.ofBytes [UInt8.ofNat (10 * h.number + h.extra.length + 1)]

def sampleRank (h : Hash) : Nat := (h.bytes.getLastD 0).toNat

def sampleGenesis : Header := { gasLimit := 5000 }

/-- A child of the genesis block that did not make it into the chain. -/
def sampleUncle : Header :=
  { parentHash := sampleHash sampleGenesis, number := 1, gasLimit := 5000, time := 1, extra := [0] }

/-- A block that includes the uncle. -/
def sampleBlock : Block where
  header := { parentHash := Hash.ofBytes [11], number := 2, gasLimit := 5000, time := 2 }
  uncles := [sampleUncle]

def sampleChain : List Block :=
  [sampleBlock,
   ⟨{ parentHash := sampleHash sampleGenesis, number := 1, gasLimit := 5000, time := 1 }, []⟩,
   ⟨sampleGenesis, []⟩]

theorem uncles_rewarded_once_sample : (sampleChain.flatMap fun b => b.uncles.map sampleHash).Nodup ∧
      ∀ c ∈ (accumulateRewards {} sampleBlock.header [sampleUncle]).1,
        2 * blockReward {} 2 ≤ 8 * c.2 ∧ 8 * c.2 ≤ 7 * blockReward {} 2 := by
  obtain ⟨hnodup, hblocks⟩ := uncles_rewarded_once sampleHash (sampleEngine .ModeNormal)
    (by decide) sampleChain (by decide +kernel) (by decide +kernel)
    ⟨sampleRank, by decide +kernel⟩ (by decide +kernel)
  exact ⟨hnodup, (hblocks [] sampleBlock _ rfl).2.2⟩

/-- **Full faking accepts any uncles**: a block with one uncle twice, of its own height. -/
theorem fullFake_accepts_duplicate_uncle :
    ∃ chain : List Block, Linked sampleHash chain ∧ CollisionFree sampleHash chain ∧
      Acyclic sampleHash chain ∧ Verified sampleHash (sampleEngine .ModeFullFake) chain ∧
      ¬ (chain.flatMap fun b => b.uncles.map sampleHash).Nodup :=
  ⟨[⟨{ parentHash := sampleHash sampleGenesis, number := 1, extra := [0, 0, 0, 0, 0] },
      [sampleUncle, sampleUncle]⟩, ⟨sampleGenesis, []⟩],
    by decide +kernel, by decide +kernel, ⟨sampleRank, by decide +kernel⟩, by decide +kernel,
    by decide +kernel⟩

end MxtChain.Consensus
