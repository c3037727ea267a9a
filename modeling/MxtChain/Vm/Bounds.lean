/-
# MxtChain.Vm.Bounds — what memory and data accesses need.

The memory that an instruction touches is named by stack positions (`MemorySizeFunc`). A size that
has been computed, priced and allocated covers the range, and the largest memory that is priced is
far below 2⁶³, so that no cast of an offset or a size changes it. A range of no bytes is not covered
and not touched.
-/
import MxtChain.Vm.GasSpec

namespace MxtChain.Vm

open State Lib List Word

/-! ## §1 — Ranges of memory -/

/-- The range is empty, or in the memory. -/
def Covers (mem : Memory) (off size : Word) : Prop :=
  size = 0 ∨ off.toNat + size.toNat ≤ mem.Len

/-- A memory that may have been paid for. -/
def Priced (mem : Memory) : Prop := mem.Len ≤ maxMemorySize

variable {data : Bytes} {n len : Nat} {stack : Stack} {x off size l y : Word} {mem : Memory}
  {func : MemorySizeFunc} {operation : Operation}

theorem uint64_of_lt (h : x.toNat < 2 ^ 64) : uint64 x = x.toNat :=
  Nat.mod_eq_of_lt h

theorem toInt64_of_lt (h : n < 2 ^ 63) : toInt64 n = n := if_pos h

theorem toNat_ne_zero (h : x ≠ 0) : x.toNat ≠ 0 := fun h' =>
  h (BitVec.eq_of_toNat_eq h')

namespace Covers

/-- No cast of a covered range changes it. -/
theorem casts (h : Covers mem off size) (hp : Priced mem) (hs : size ≠ 0) :
    uint64 off = off.toNat ∧ uint64 size = size.toNat ∧
      off.toNat + size.toNat ≤ mem.Len ∧ off.toNat < 2 ^ 63 ∧ size.toNat < 2 ^ 63 := by
  have hle : off.toNat + size.toNat ≤ mem.Len := h.resolve_left hs
  have hp : mem.Len ≤ 0x1FFFFFFFE0 := hp
  refine ⟨uint64_of_lt ?_, uint64_of_lt ?_, hle, ?_, ?_⟩
  all_goals omega

/-- A covered range is written without a panic, and the memory keeps its length and its fee. -/
theorem set_ok (h : Covers mem off size) (hp : Priced mem) (value : Bytes) :
    ∃ mem', mem.Set (uint64 off) (uint64 size) value = .ok mem' ∧
      mem'.Len = mem.Len ∧ mem'.lastGasCost = mem.lastGasCost := by
  unfold Memory.Set
  by_cases hs : size = 0
  · subst hs
    exact ⟨mem, rfl, rfl, rfl⟩
  obtain ⟨hoff, hsize, hle, hlt, hlt'⟩ := h.casts hp hs
  have hpos := toNat_ne_zero hs
  rw [hoff, hsize, if_pos (Nat.pos_of_ne_zero hpos)]
  rw [Nat.mod_eq_of_lt (by omega), if_neg (by omega)]
  exact ⟨_, rfl, mem.Len_copyTo hle, rfl⟩

/-- A covered range is read without a panic, and has the length that was asked for. -/
theorem read_ok {r : Regs} (h : Covers r.memory off size) (hp : Priced r.memory) :
    ∃ data, readRange r off size = .ok data ∧ data.length = size.toNat ∧
      data = (r.memory.store.drop off.toNat).take size.toNat := by
  unfold readRange Memory.GetPtr
  by_cases hs : size = 0
  · subst hs
    exact ⟨[], rfl, rfl, take_zero.symm⟩
  obtain ⟨hoff, hsize, hle, hlt, hlt'⟩ := h.casts hp hs
  have hpos := toNat_ne_zero hs
  rw [hoff, hsize, toInt64_of_lt hlt, toInt64_of_lt hlt', if_neg (by omega), if_pos (by omega)]
  unfold slice
  have hle' : off.toNat + size.toNat ≤ r.memory.store.length := hle
  rw [if_pos (by omega)]
  have htoNat : ((off.toNat : Int) + size.toNat).toNat - (off.toNat : Int).toNat =
      size.toNat := by omega
  refine ⟨_, rfl, ?_, ?_⟩
  · rw [htoNat, length_take, length_drop]
    omega
  · rw [htoNat, Int.toNat_natCast]

end Covers

/-! ## §2 — Memory sizes -/

/-- A computed size is a number of 64 bits, and the end of the range unless that is empty. -/
theorem calcMemSize64WithUint_some (hlen : len < 2 ^ 64)
    (h : calcMemSize64WithUint off len = some n) :
    n < 2 ^ 64 ∧ (len = 0 ∨ off.toNat + len = n) := by
  unfold calcMemSize64WithUint at h
  split at h
  · next h0 =>
    cases h
    exact ⟨Nat.two_pow_pos 64, .inl h0⟩
  split at h
  · next hoff =>
    rw [uint64_of_isUint64 hoff] at h
    dsimp only at h
    split at h
    · cases h
    next hge =>
    cases h
    refine ⟨Nat.mod_lt _ (Nat.two_pow_pos 64), .inr ?_⟩
    by_cases hfit : off.toNat + len < 2 ^ 64
    · exact (Nat.mod_eq_of_lt hfit).symm
    · -- a sum that wraps around is below the offset
      omega
  · cases h

theorem calcMemSize64_some (h : calcMemSize64 off l = some n) :
    n < 2 ^ 64 ∧ (l = 0 ∨ off.toNat + l.toNat = n) := by
  unfold calcMemSize64 at h
  split at h
  · next hl =>
    rw [uint64_of_isUint64 hl] at h
    obtain ⟨hlt, h⟩ := calcMemSize64WithUint_some (of_decide_eq_true hl) h
    exact ⟨hlt, h.imp_left fun h0 => BitVec.eq_of_toNat_eq h0⟩
  · cases h

/-- The number of stack items a memory size function reads. -/
def MemorySizeFunc.need : MemorySizeFunc → Nat
  | .range off l => max off l + 1
  | .fixed off _ => off + 1
  | .larger off l off' l' => max (max off l) (max off' l') + 1

/-- The ranges of a memory size function are in the memory. -/
def MemorySizeFunc.Covered (stack : Stack) (mem : Memory) : MemorySizeFunc → Prop
  | .range off l => ∀ x y, stack[off]? = some x → stack[l]? = some y → Covers mem x y
  | .fixed off n => ∀ x, stack[off]? = some x → Covers mem x (BitVec.ofNat 256 n)
  | .larger off l off' l' =>
    (∀ x y, stack[off]? = some x → stack[l]? = some y → Covers mem x y) ∧
    ∀ x y, stack[off']? = some x → stack[l']? = some y → Covers mem x y

/-- A fixed size is a number of 64 bits. -/
def MemorySizeFunc.small : MemorySizeFunc → Bool
  | .fixed _ len => decide (len < 2 ^ 64)
  | _ => true

/-- A range of stack positions, and its size. -/
theorem covers_of_calc {off l k : Nat} (hx : stack[off]? = some x)
    (hy : stack[l]? = some y) (hk : calcMemSize64 x y = some k) (hle : k ≤ mem.Len) (x' y' : Word)
    (hx' : stack[off]? = some x') (hy' : stack[l]? = some y') : Covers mem x' y' := by
  rw [hx] at hx'
  rw [hy] at hy'
  cases hx'
  cases hy'
  exact (calcMemSize64_some hk).2.imp_right fun h => h.trans_le hle

/-- **What a memory size function computes**: a number of 64 bits, and a memory of that size covers
the ranges; it panics only for want of stack items. -/
theorem meets_memorySize (hsmall : func.small = true) :
    Meets (Underflow stack func.need) (fun o => ∀ n, o = some n →
      n < 2 ^ 64 ∧ ∀ mem : Memory, n ≤ mem.Len → func.Covered stack mem) (func.eval stack) := by
  cases func with
  | range off l =>
    refine (meets_Back (Nat.lt_succ_of_le (le_max_left _ _))).bind fun x hx =>
      (meets_Back (Nat.lt_succ_of_le (le_max_right _ _))).bind fun y hy n hn => ?_
    exact ⟨(calcMemSize64_some hn).1, fun mem hle => covers_of_calc hx hy hn hle⟩
  | fixed off len =>
    have hlen : len < 2 ^ 64 := of_decide_eq_true hsmall
    refine (meets_Back (Nat.lt_succ_self off)).bind fun x hx n hn => ?_
    obtain ⟨hlt, hend⟩ := calcMemSize64WithUint_some hlen hn
    refine ⟨hlt, fun mem hle x' hx' => ?_⟩
    rw [hx] at hx'
    cases hx'
    have htoNat : (BitVec.ofNat 256 len).toNat = len := by
      rw [BitVec.toNat_ofNat, Nat.mod_eq_of_lt (hlen.trans (by norm_num))]
    rcases hend with h0 | h
    · exact .inl (by rw [h0]; rfl)
    · refine .inr ?_
      rw [htoNat, h]
      exact hle
  | larger off l off' l' =>
    have hneed : ∀ k, k ≤ max (max off l) (max off' l') →
        k < (MemorySizeFunc.larger off l off' l').need := fun _ h => Nat.lt_succ_of_le h
    refine (meets_Back (hneed _ (by omega))).bind fun x hx =>
      (meets_Back (hneed _ (by omega))).bind fun y hy => ?_
    split
    · nofun
    next k hk =>
    refine (meets_Back (hneed _ (by omega))).bind fun x' hx' =>
      (meets_Back (hneed _ (by omega))).bind fun y' hy' => ?_
    split
    · nofun
    next k' hk' =>
    intro n hn
    have hmax : (if k > k' then k else k') = n := Option.some.inj hn
    have hlt := (calcMemSize64_some hk).1
    have hlt' := (calcMemSize64_some hk').1
    have hle : k ≤ n ∧ k' ≤ n ∧ n < 2 ^ 64 := by
      rw [← hmax]
      split <;> omega
    exact ⟨hle.2.2, fun mem hn => ⟨covers_of_calc hx hy hk (hle.1.trans hn),
      covers_of_calc hx' hy' hk' (hle.2.1.trans hn)⟩⟩

theorem le_toWordSize (h : n < 2 ^ 64) : n ≤ toWordSize n * 32 := by
  unfold toWordSize
  split <;> omega

/-- **The requested memory** is in whole words and covers the ranges of the instruction. -/
theorem meets_requestedMemory (hfunc : operation.memorySize = some func)
    (hsmall : func.small = true) : Meets (Underflow stack func.need)
      (fun n => 32 ∣ n ∧ ∀ mem : Memory, n ≤ mem.Len → func.Covered stack mem)
      (requestedMemory operation stack) := by
  unfold requestedMemory
  rw [hfunc]
  refine (meets_memorySize hsmall).bind fun o ho => ?_
  cases o with
  | none => exact meets_overflow
  | some k =>
    obtain ⟨hlt, hcovered⟩ := ho k rfl
    refine (meets_SafeMul _ _).mono (fun _ h => h) fun n hn => ?_
    obtain ⟨-, rfl⟩ := hn
    exact ⟨Dvd.intro_left _ rfl, fun mem hle => hcovered mem ((le_toWordSize hlt).trans hle)⟩

theorem requestedMemory_none (stack : Stack)
    (hfunc : operation.memorySize = none) : requestedMemory operation stack = .ok 0 := by
  unfold requestedMemory
  rw [hfunc]

/-! ## §3 — Ranges of data -/

/-- The bytes of data from an offset on, with zeros after its end: no number is cut here. -/
def paddedRange (data : Bytes) (off size : Nat) : Bytes :=
  (data.drop off).take size ++ replicate (size - (data.length - off)) 0

/-- A slice with padding, once the bounds have been cut to the data. -/
theorem getData_eq {start size : Nat} (hdata : data.length < 2 ^ 63) (hsize : size < 2 ^ 63) :
    getData data start size = .ok (paddedRange data start size) := by
  have hrange : ∀ lo hi : Nat, lo ≤ hi → hi ≤ data.length →
      slice data lo hi = .ok ((data.drop lo).take (hi - lo)) := by
    intro lo hi hle hle'
    unfold slice
    rw [if_pos (by omega), Int.toNat_natCast, Int.toNat_natCast]
  have hpad : ∀ (b : Bytes), b.length ≤ size →
      RightPadBytes b (toInt64 size) = b ++ replicate (size - b.length) 0 := by
    intro b hb
    unfold RightPadBytes
    rw [toInt64_of_lt hsize]
    by_cases heq : b.length = size
    · rw [if_pos (by omega), heq, Nat.sub_self, replicate_zero, append_nil]
    · rw [if_neg (by omega), Int.toNat_natCast]
  unfold getData
  dsimp only
  by_cases hstart : start > data.length
  · -- past the end of the data there are only zeros
    rw [if_pos hstart, Nat.mod_eq_of_lt (by omega)]
    have hhi : (if data.length + size > data.length then data.length else data.length + size) =
        data.length := by
      split <;> omega
    rw [hhi, hrange _ _ le_rfl le_rfl]
    change Except.ok (RightPadBytes _ _) = _
    rw [hpad _ (by simp)]
    simp [paddedRange, drop_eq_nil_of_le hstart.le, hstart.le]
  rw [if_neg hstart, Nat.mod_eq_of_lt (by omega)]
  by_cases hend : start + size > data.length
  · rw [if_pos hend, hrange _ _ (by omega) le_rfl]
    change Except.ok (RightPadBytes _ _) = _
    rw [hpad _ (by simp; omega)]
    unfold paddedRange
    rw [take_of_length_le (by simp), take_of_length_le (by simp; omega), length_drop]
  rw [if_neg hend, hrange _ _ (by omega) (by omega), Nat.add_sub_cancel_left]
  change Except.ok (RightPadBytes _ _) = _
  rw [hpad _ (by simp)]
  unfold paddedRange
  have hlen : ((data.drop start).take size).length = size := by simp; omega
  have hzero : size - (data.length - start) = 0 := by omega
  rw [hlen, Nat.sub_self, hzero]

theorem paddedRange_past {off size : Nat} (h : data.length ≤ off) :
    paddedRange data off size = replicate size 0 := by
  unfold paddedRange
  rw [drop_eq_nil_of_le h, Nat.sub_eq_zero_of_le h, take_nil, nil_append, Nat.sub_zero]

theorem dataOffset64_range (hdata : data.length < 2 ^ 63) (off : Word) (size : Nat) :
    paddedRange data (dataOffset64 off) size = paddedRange data off.toNat size := by
  unfold dataOffset64
  split
  · next h => rw [uint64_of_isUint64 h]
  next h =>
  -- an offset of more than 64 bits is past the end, and so is the one that stands for it
  have hoff : 2 ^ 64 ≤ off.toNat := by
    by_contra hlt
    exact h (decide_eq_true (Nat.not_le.mp hlt))
  rw [paddedRange_past (by omega), paddedRange_past (by omega)]

end MxtChain.Vm
