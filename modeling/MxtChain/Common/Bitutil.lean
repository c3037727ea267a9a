/-
# MxtChain.Common.Bitutil — the bitset compression of `common/bitutil`.

Sparse data is stored as its non-zero bytes behind a bitset that says where they stand, and that
bitset is stored the same way. A target size is one that `make` can allocate.
-/
import MxtChain.Common.Types
import MxtChain.Lib.Except

namespace MxtChain.Bitutil

open Lib List

/-! ## §1 — the code. -/

def errMissingData : Err := .failure "missing bytes on input"
def errUnreferencedData : Err := .failure "extra bytes on input"
def errExceededTarget : Err := .failure "target data size exceeded"
def errZeroContent : Err := .failure "zero byte in input content"

/-- The bit `1 << byte(7-i%8)` of slot `i`. -/
def mask (i : Nat) : UInt8 := 1 <<< UInt8.ofNat (7 - i % 8)

/-- The loop of `bitsetEncodeBytes`, from slot `i` on. -/
def collect : Nat → Bytes → Bytes → Bytes → Bytes × Bytes
  | _, [], nonZeroBitset, nonZeroBytes => (nonZeroBitset, nonZeroBytes)
  | i, b :: data, nonZeroBitset, nonZeroBytes =>
    if b ≠ 0 then
      collect (i + 1) data
        (nonZeroBitset.set (i / 8) (nonZeroBitset.getD (i / 8) 0 ||| mask i)) (nonZeroBytes ++ [b])
    else collect (i + 1) data nonZeroBitset nonZeroBytes

theorem length_collect (i : Nat) (data bitset bytes : Bytes) :
    (collect i data bitset bytes).1.length = bitset.length := by
  fun_induction collect with
  | case1 => rfl
  | case2 i b data bitset bytes _ ih => rw [ih, length_set]
  | case3 i b data bitset bytes _ ih => exact ih

/-- Bitset and non-zero bytes of `data` when the loop is done. -/
def collected (data : Bytes) : Bytes × Bytes :=
  collect 0 data (replicate ((data.length + 7) / 8) 0) []

def bitsetEncodeBytes (data : Bytes) : Bytes :=
  if data.length = 0 then []
  else if data.length = 1 then if data.getD 0 0 = 0 then [] else data
  else if (collected data).2 = [] then []
  else bitsetEncodeBytes (collected data).1 ++ (collected data).2
  termination_by data.length
  decreasing_by
    rw [collected, length_collect, length_replicate]
    omega

def CompressBytes (data : Bytes) : Bytes :=
  if (bitsetEncodeBytes data).length < data.length then bitsetEncodeBytes data else data

/-- `s[i]`. -/
def index (s : Bytes) (i : Nat) : Except Err UInt8 :=
  match s[i]? with
  | some b => .ok b
  | none => .error (.crash "index out of range")

/-- The loop of `bitsetDecodePartialBytes`, with `n` slots from `i` on still to do: what it leaves in
the `room` slots of `decomp` from `i` on, and the final `ptr`. -/
def distribute (nonZeroBitset data : Bytes) : Nat → Nat → Nat → Nat → Except Err (Bytes × Nat)
  | 0, _, room, ptr => .ok (replicate room 0, ptr)
  | n + 1, i, room, ptr => do
    let bits ← index nonZeroBitset (i / 8)
    if bits &&& mask i ≠ 0 then
      if ptr ≥ data.length then .error errMissingData
      else if room = 0 then .error errExceededTarget
      else do
        let b ← index data ptr
        if b = 0 then .error errZeroContent
        else do
          let (out, ptr) ← distribute nonZeroBitset data n (i + 1) (room - 1) (ptr + 1)
          .ok (b :: out, ptr)
    else do
      let (out, ptr) ← distribute nonZeroBitset data n (i + 1) (room - 1) ptr
      .ok (if room = 0 then out else 0 :: out, ptr)

def bitsetDecodePartialBytes (data : Bytes) (target : Nat) : Except Err (Bytes × Nat) :=
  if target = 0 then .ok ([], 0)
  else if data.length = 0 then .ok (replicate target 0, 0)
  else if target = 1 then do
    let b ← index data 0
    if b ≠ 0 then .ok ([b], 1) else .ok ([b], 0)
  else do
    let (nonZeroBitset, ptr) ← bitsetDecodePartialBytes data ((target + 7) / 8)
    distribute nonZeroBitset data (8 * nonZeroBitset.length) 0 target ptr

def bitsetDecodeBytes (data : Bytes) (target : Nat) : Except Err Bytes := do
  let (out, size) ← bitsetDecodePartialBytes data target
  if size ≠ data.length then .error errUnreferencedData else .ok out

def DecompressBytes (data : Bytes) (target : Int) : Except Err Bytes :=
  if data.length > target then .error errExceededTarget
  else if data.length = target then .ok data
  else bitsetDecodeBytes data target.toNat

/-! ## §2 — bitsets. -/

/-- Whether slot `i` of a bitset is set, as the decoder tests it. -/
def bit (s : Bytes) (i : Nat) : Bool := s.getD (i / 8) 0 &&& mask i != 0

theorem toNat_mask (i : Nat) : (mask i).toNat = 2 ^ (7 - i % 8) := by
  have hall : ∀ k : Fin 8, (1 <<< UInt8.ofNat (7 - k) : UInt8).toNat = 2 ^ (7 - k.val) := by decide
  exact hall ⟨i % 8, Nat.mod_lt i (by decide)⟩

theorem and_mask (b : UInt8) (i : Nat) : (b &&& mask i != 0) = b.toNat.testBit (7 - i % 8) := by
  rw [Bool.eq_iff_iff, bne_iff_ne, ← UInt8.toNat_inj.ne, UInt8.toNat_and, toNat_mask, Nat.and_two_pow]
  simp

theorem mask_testBit (i j : Nat) : (mask i).toNat.testBit (7 - j % 8) = decide (j % 8 = i % 8) := by
  rw [toNat_mask, Nat.testBit_two_pow, decide_eq_decide]
  omega

/-- **A bitset is its bits.** -/
theorem eq_of_bit {s t : Bytes} (hlen : s.length = t.length) (h : ∀ i, bit s i = bit t i) :
    s = t := by
  refine ext_getElem hlen fun n hs ht => UInt8.toNat_inj.mp (Nat.eq_of_testBit_eq fun k => ?_)
  by_cases hk : k < 8
  · have hbit := h (8 * n + (7 - k))
    have hdiv : (8 * n + (7 - k)) / 8 = n := by omega
    have hmod : 7 - (8 * n + (7 - k)) % 8 = k := by omega
    rw [bit, bit, and_mask, and_mask, hdiv, hmod] at hbit
    simpa [hs, ht] using hbit
  · have hsmall : ∀ b : UInt8, b.toNat.testBit k = false := fun b =>
      Nat.testBit_lt_two_pow (lt_of_lt_of_le b.toNat_lt
        (Nat.pow_le_pow_right (by decide) (by omega : 8 ≤ k)))
    rw [hsmall, hsmall]

theorem bit_set (s : Bytes) {i : Nat} (hi : i / 8 < s.length) (j : Nat) :
    bit (s.set (i / 8) (s.getD (i / 8) 0 ||| mask i)) j = (bit s j || decide (j = i)) := by
  simp only [bit, and_mask]
  by_cases hd : j / 8 = i / 8
  · have hj : decide (j = i) = decide (j % 8 = i % 8) := by
      rw [decide_eq_decide]
      omega
    rw [hj, ← mask_testBit, hd]
    simp [getD, hi, Nat.testBit_or]
  · have hj : j ≠ i := fun h => hd (congrArg (· / 8) h)
    simp [getD, getElem?_set_ne (Ne.symm hd), hj]

@[simp] theorem bit_zeros (n i : Nat) : bit (replicate n 0) i = false := by
  rw [bit, getD, getElem?_replicate]
  split <;> simp

def nonZero (d : Bytes) : Bytes := d.filter (· != 0)

theorem collect_spec (i : Nat) (data bitset bytes : Bytes)
    (hlen : i + data.length ≤ 8 * bitset.length) :
    (collect i data bitset bytes).2 = bytes ++ nonZero data ∧
      ∀ j, bit (collect i data bitset bytes).1 j =
        (bit bitset j || (decide (i ≤ j) && data.getD (j - i) 0 != 0)) := by
  fun_induction collect with
  | case1 => simp [nonZero]
  | case2 i b data bitset bytes hb ih =>
    rw [length_cons] at hlen
    obtain ⟨hbytes, hbits⟩ := ih (by rw [length_set]; omega)
    refine ⟨by rw [hbytes]; simp [nonZero, hb], fun j => ?_⟩
    rw [hbits, bit_set _ (by omega)]
    grind
  | case3 i b data bitset bytes hb ih =>
    rw [length_cons] at hlen
    obtain ⟨hbytes, hbits⟩ := ih (by omega)
    rw [not_not] at hb
    refine ⟨by rw [hbytes]; simp [nonZero, hb], fun j => ?_⟩
    rw [hbits]
    grind

/-- `s` is the bitset of `d`. -/
structure BitsetOf (d s : Bytes) : Prop where
  length_eq : s.length = (d.length + 7) / 8
  bit_eq : ∀ i, bit s i = (d.getD i 0 != 0)

theorem bitsetOf_collected (d : Bytes) : BitsetOf d (collected d).1 where
  length_eq := by rw [collected, length_collect, length_replicate]
  bit_eq i := by
    rw [collected, (collect_spec 0 d _ [] (by rw [length_replicate]; omega)).2 i]
    simp

theorem collected_bytes (d : Bytes) : (collected d).2 = nonZero d :=
  (collect_spec 0 d _ [] (by rw [length_replicate]; omega)).1

theorem nonZero_eq_nil {d : Bytes} : nonZero d = [] ↔ d = replicate d.length 0 := by
  rw [nonZero, filter_eq_nil_iff, eq_replicate_iff]
  simp

variable {d s data : Bytes}

theorem BitsetOf.eq (h : BitsetOf d s) : s = (collected d).1 := by
  have hc := bitsetOf_collected d
  exact eq_of_bit (by rw [h.length_eq, hc.length_eq]) fun i => by rw [h.bit_eq, hc.bit_eq]

theorem BitsetOf.nonZero_eq_nil (h : BitsetOf d s) : nonZero s = [] ↔ nonZero d = [] := by
  rw [Bitutil.nonZero_eq_nil, Bitutil.nonZero_eq_nil]
  constructor
  · intro hs
    have hbits := h.bit_eq
    rw [hs] at hbits
    refine ext_getElem (by simp) fun i hi _ => ?_
    simpa [hi] using hbits i
  · intro hd
    refine eq_of_bit (by simp) fun i => ?_
    rw [h.bit_eq, hd]
    simp [getD, getElem?_replicate]
    split <;> rfl

/-- **What the encoder makes**, all lengths in one. -/
theorem encode_eq (d : Bytes) : bitsetEncodeBytes d =
    if nonZero d = [] then [] else if d.length = 1 then d
    else bitsetEncodeBytes (collected d).1 ++ nonZero d := by
  rw [bitsetEncodeBytes, collected_bytes]
  match d with
  | [] => rfl
  | [b] => by_cases hb : b = 0 <;> simp [nonZero, hb]
  | b :: c :: d => simp

/-! ## §3 — the decoder accepts encodings only. -/

/-- An error value, not a panic. -/
def Reported (e : Err) : Prop := ∀ msg, e ≠ .crash msg

theorem reported (msg : String) : Reported (.failure msg) := fun _ h => by cases h

theorem index_eq {i : Nat} (h : i < s.length) : index s i = .ok (s.getD i 0) := by
  simp [index, h]

theorem bit_cons {i : Nat} {b : UInt8} {out : Bytes} (hi : bit s i = (b != 0))
    (h : ∀ j, bit s (i + 1 + j) = (out.getD j 0 != 0)) :
    ∀ j, bit s (i + j) = ((b :: out).getD j 0 != 0)
  | 0 => hi
  | j + 1 => by rw [← Nat.add_assoc, Nat.add_right_comm]; exact h j

/-- **What the loop leaves**: the set slots from `i` on hold the bytes from `ptr` on, none of them
zero, and the other slots are zero. -/
theorem distribute_sound (s data : Bytes) : ∀ n i room ptr, i + n = 8 * s.length →
    ptr ≤ data.length → Meets Reported
      (fun r => r.1.length = room ∧ (∀ j, bit s (i + j) = (r.1.getD j 0 != 0)) ∧
        r.2 ≤ data.length ∧ data.take r.2 = data.take ptr ++ nonZero r.1)
      (distribute s data n i room ptr)
  | 0, i, room, ptr, hi, hp => by
      refine ⟨by simp, fun j => ?_, hp, by simp [nonZero]⟩
      rw [bit, getD_eq_default _ _ (by omega)]
      simp [getD, getElem?_replicate]
      split <;> rfl
  | n + 1, i, room, ptr, hi, hp => by
      rw [distribute, index_eq (by omega)]
      refine .ite (fun hbit => .ite (fun _ => reported _) fun hptr =>
        .ite (fun _ => reported _) fun hroom => ?_) fun hbit => ?_
      · rw [not_le] at hptr
        rw [index_eq hptr]
        refine .ite (fun _ => reported _) fun hb => (distribute_sound s data n (i + 1) (room - 1)
          (ptr + 1) (by omega) hptr).bind ?_
        rintro ⟨out, m⟩ ⟨hl, hbits, hle, htake⟩
        have hslot : bit s i = (data.getD ptr 0 != 0) :=
          (bne_iff_ne.mpr hbit).trans (bne_iff_ne.mpr hb).symm
        refine ⟨by rw [length_cons, hl]; omega, bit_cons hslot hbits, hle, ?_⟩
        rw [htake, nonZero, nonZero, filter_cons_of_pos (by simpa using hb), take_add_one, append_assoc]
        simp [hptr]
      · refine (distribute_sound s data n (i + 1) (room - 1) ptr (by omega) hp).bind ?_
        rintro ⟨out, m⟩ ⟨hl, hbits, hle, htake⟩
        have hslot : bit s i = ((0 : UInt8) != 0) := by simpa [bit] using hbit
        by_cases hroom : room = 0
        · subst hroom
          obtain rfl := length_eq_zero_iff.mp hl
          exact ⟨rfl, fun j => by rw [bit_cons hslot hbits]; cases j <;> rfl, hle, htake⟩
        · simp only [if_neg hroom]
          exact ⟨by rw [length_cons, hl]; omega, bit_cons hslot hbits, hle, htake⟩

/-- **What the decoder has used up is what the encoder makes of its result.** -/
theorem decodePartial_sound (data : Bytes) (target : Nat) : Meets Reported
      (fun r => r.1.length = target ∧ r.2 ≤ data.length ∧ data.take r.2 = bitsetEncodeBytes r.1)
      (bitsetDecodePartialBytes data target) := by
  induction target using Nat.strongRecOn with
  | _ target ih =>
    rw [bitsetDecodePartialBytes]
    refine .ite (fun h => ?_) fun h0 => .ite (fun h => ?_) fun hd => .ite (fun h => ?_) fun h1 => ?_
    · exact ⟨h.symm, Nat.zero_le _, by rw [encode_eq]; rfl⟩
    · exact ⟨length_replicate, Nat.zero_le _, by rw [encode_eq]; simp [nonZero]⟩
    · obtain ⟨b, rest, rfl⟩ := exists_cons_of_length_pos (Nat.pos_of_ne_zero hd)
      refine .ite (fun hb => ⟨h.symm, by simp, ?_⟩) fun hb => ⟨h.symm, by simp, ?_⟩
      all_goals
        rw [encode_eq]
        simp_all [nonZero]
    · refine (ih _ (by omega)).bind ?_
      rintro ⟨s, ptr⟩ ⟨hs, hptr, htake⟩
      refine (distribute_sound s data _ 0 target ptr (Nat.zero_add _) hptr).mono (fun _ h => h) ?_
      rintro ⟨out, m⟩ ⟨hl, hbits, hle, hout⟩
      have hset : BitsetOf out s := ⟨by rw [hs, hl], fun i => by rw [← hbits, Nat.zero_add]⟩
      refine ⟨hl, hle, ?_⟩
      have hone : ¬out.length = 1 := hl.trans_ne h1
      rw [hout, htake, encode_eq out, ← hset.eq, if_neg hone]
      split
      · next hz => rw [hz, append_nil, encode_eq, if_pos (hset.nonZero_eq_nil.mpr hz)]
      · rfl

/-! ## §4 — the decoder reads encodings back. -/

/-- **The loop rebuilds the data** whose bitset and non-zero bytes it is given. -/
theorem distribute_complete (rest : Bytes) : ∀ (n i ptr : Nat) (d : Bytes), i + n = 8 * s.length →
    (∀ j, bit s (i + j) = (d.getD j 0 != 0)) → data.drop ptr = nonZero d ++ rest →
    distribute s data n i d.length ptr = .ok (d, ptr + (nonZero d).length)
  | 0, i, ptr, d, hi, hbits, _ => by
      have hd : d = replicate d.length 0 := ext_getElem (by simp) fun j hj _ => by
        have hj' := hbits j
        rw [bit, getD_eq_default _ _ (by omega)] at hj'
        simpa [hj] using hj'
      rw [distribute, nonZero_eq_nil.mpr hd, ← hd]
      rfl
  | n + 1, i, ptr, [], hi, hbits, hdata => by
      have ih := distribute_complete rest n (i + 1) ptr [] (by omega)
        (fun j => Nat.add_right_comm i 1 j ▸ hbits (j + 1)) hdata
      rw [distribute, index_eq (by omega)]
      exact (if_neg (by simpa [bit] using hbits 0)).trans (bind_ok.mpr ⟨_, ih, rfl⟩)
  | n + 1, i, ptr, b :: d, hi, hbits, hdata => by
      have hrest : ∀ j, bit s (i + 1 + j) = (d.getD j 0 != 0) := fun j =>
        Nat.add_right_comm i 1 j ▸ hbits (j + 1)
      have hslot : bit s i = (b != 0) := hbits 0
      rw [distribute, index_eq (by omega)]
      by_cases hb : b = 0
      · have hz : nonZero (b :: d) = nonZero d := by simp [nonZero, hb]
        rw [hz] at hdata ⊢
        have ih := distribute_complete rest n (i + 1) ptr d (by omega) hrest hdata
        rw [hb] at hslot ⊢
        exact (if_neg (by simpa [bit] using hslot)).trans (bind_ok.mpr ⟨_, ih, rfl⟩)
      · have hz : nonZero (b :: d) = b :: nonZero d := by simp [nonZero, hb]
        rw [hz, cons_append] at hdata
        have hptr : ptr < data.length := by
          have := congrArg length hdata
          rw [length_drop, length_cons] at this
          omega
        rw [drop_eq_getElem_cons hptr, cons.injEq, ← getD_eq_getElem _ 0 hptr] at hdata
        have ih := distribute_complete rest n (i + 1) (ptr + 1) d (by omega) hrest hdata.2
        rw [hz, @length_cons _ b (nonZero d), ← Nat.add_assoc ptr, Nat.add_right_comm ptr]
        rw [bne_iff_ne.mpr hb] at hslot
        refine (if_pos (bne_iff_ne.mp hslot)).trans ((if_neg (by omega)).trans
          ((if_neg (by simp)).trans ?_))
        rw [index_eq hptr, hdata.1]
        exact (if_neg hb).trans (bind_ok.mpr ⟨_, ih, rfl⟩)

/-- **The decoder stops where the encoding ends**, whatever follows; only of all-zero data, whose
encoding is empty, it cannot see the end. -/
theorem decodePartial_encode (rest : Bytes) (h : nonZero d ≠ []) :
    bitsetDecodePartialBytes (bitsetEncodeBytes d ++ rest) d.length =
      .ok (d, (bitsetEncodeBytes d).length) := by
  induction hn : d.length using Nat.strongRecOn generalizing d rest with
  | _ n ih =>
    subst hn
    have hpos : d.length ≠ 0 := fun h0 => h (by rw [length_eq_zero_iff.mp h0]; rfl)
    rw [encode_eq, if_neg h, bitsetDecodePartialBytes, if_neg hpos]
    by_cases hone : d.length = 1
    · obtain ⟨b, rfl⟩ := length_eq_one_iff.mp hone
      rw [if_pos hone, if_neg (by simp), if_pos hone]
      exact if_pos fun hb : b = 0 => h (by simp [nonZero, hb])
    · have hs := bitsetOf_collected d
      have hd := ih _ (by rw [hs.length_eq]; omega) (nonZero d ++ rest)
        (mt hs.nonZero_eq_nil.mp h) rfl
      rw [if_neg hone, if_neg (by simp [h]), if_neg hone, append_assoc, ← hs.length_eq, length_append]
      exact bind_ok.mpr ⟨_, hd, distribute_complete rest _ 0 _ d (Nat.zero_add _)
        (fun j => by rw [Nat.zero_add, hs.bit_eq]) (by simp)⟩

theorem decode_encode (d : Bytes) : bitsetDecodeBytes (bitsetEncodeBytes d) d.length = .ok d := by
  refine bind_ok.mpr ⟨(d, (bitsetEncodeBytes d).length), ?_, if_neg (by simp)⟩
  by_cases h : nonZero d = []
  · rw [encode_eq, if_pos h, bitsetDecodePartialBytes, ← nonZero_eq_nil.mp h]
    split
    · next h0 => rw [length_eq_zero_iff.mp h0]; rfl
    · rfl
  · simpa using decodePartial_encode [] h

theorem decode_sound (data : Bytes) (target : Nat) :
    Meets Reported (fun d => bitsetEncodeBytes d = data) (bitsetDecodeBytes data target) := by
  refine (decodePartial_sound data target).bind ?_
  rintro ⟨out, size⟩ ⟨-, -, htake⟩
  refine .ite (fun _ => reported _) fun hsize => ?_
  exact htake.symm.trans (take_of_length_le (not_not.mp hsize).ge)

end MxtChain.Bitutil
