/-
# MxtChain.Vm.Analysis — which bytes of a code are instructions.

`codeBitmap` marks the data of the push instructions, eight bits at a time and past the end of the
code. What it marks is compared with a walk over the code that skips the data of each push
(`Reached`): a byte is unmarked exactly when the walk comes to it (`codeBitmap_spec`).

A contract keeps the analysis of its code, and the contracts that call each other share a map of
analyses under the hash of the code. The caches make no difference (`jump_analysis_exact`), because
under a hash there is the analysis of the code with that hash.
-/
import MxtChain.Lib.Except
import MxtChain.Lib.Transition
import MxtChain.Vm.Machine

namespace MxtChain.Vm

open Lib Lib.Transition List Word

/-! ## §1 — Bits -/

/-- Bit `i` of a byte, the most significant one first, as `codeSegment` tests it. -/
def bitOf (b : UInt8) (i : Nat) : Bool := b &&& (0x80 >>> UInt8.ofNat i) != 0

theorem bitOf_or (a b : UInt8) (i : Nat) : bitOf (a ||| b) i = (bitOf a i || bitOf b i) := by
  have hand (m : UInt8) : (a ||| b) &&& m = a &&& m ||| b &&& m := by
    apply UInt8.toBitVec_inj.mp
    ext j hj
    simp [Bool.and_or_distrib_right]
  rw [bitOf, hand, Bool.eq_iff_iff]
  simp only [bitOf, bne_iff_ne, ne_eq, UInt8.or_eq_zero_iff, Bool.or_eq_true]
  exact not_and_or

/-- The three masks: one bit, the bits from one on, and the bits before it. -/
theorem bitOf_masks : ∀ i j : Fin 8, bitOf (0x80 >>> UInt8.ofNat i) j = decide (i = j) ∧
    bitOf (0xff >>> UInt8.ofNat i) j = decide (i ≤ j) ∧
    bitOf (~~~(0xff >>> UInt8.ofNat i)) j = decide (j < i) := by
  decide

namespace Bitvec

def bit (bits : Bitvec) (pos : Nat) : Bool := bitOf (bits.getD (pos / 8) 0) (pos % 8)

/-- **`n` positions from `lo` on are marked**, and nothing else changes. -/
structure Marks (lo n : Nat) (bits bits' : Bitvec) : Prop where
  length : bits'.length = bits.length
  bit : ∀ pos, bits'.bit pos = (bits.bit pos || decide (lo ≤ pos ∧ pos < lo + n))

variable {bits bits1 bits2 : Bitvec} {pos lo n m i len : Nat}

theorem marks_zero : Marks lo 0 bits bits :=
  ⟨rfl, fun pos => by simp⟩

theorem Marks.append (h1 : Marks lo n bits bits1) (h2 : Marks (lo + n) m bits1 bits2) :
    Marks lo (n + m) bits bits2 := by
  refine ⟨h2.length.trans h1.length, fun pos => ?_⟩
  rw [h2.bit, h1.bit, Bool.or_assoc, ← Bool.decide_or]
  congr 2
  rw [eq_iff_iff]
  omega

theorem meets_orAt (h : i < bits.length) (mask : UInt8) :
    Meets (fun _ => False) (fun bits' => bits'.length = bits.length ∧ ∀ pos, bits'.bit pos =
      (bits.bit pos || (decide (pos / 8 = i) && bitOf mask (pos % 8)))) (bits.orAt i mask) := by
  unfold orAt
  rw [getElem?_eq_getElem h]
  refine ⟨length_set, fun pos => ?_⟩
  unfold bit
  by_cases hi : pos / 8 = i
  · simp [hi, h, bitOf_or]
  · simp [hi, Ne.symm hi]

theorem meets_set1 (h : pos / 8 < bits.length) :
    Meets (fun _ => False) (Marks pos 1 bits) (bits.set1 pos) := by
  refine (meets_orAt h _).mono (fun _ h => h) fun bits' h' => ⟨h'.1, fun p => ?_⟩
  have hmask := (bitOf_masks ⟨pos % 8, Nat.mod_lt _ (by omega)⟩ ⟨p % 8, Nat.mod_lt _ (by omega)⟩).1
  rw [h'.2, hmask, ← Bool.decide_and]
  congr 2
  simp only [Fin.mk.injEq, eq_iff_iff]
  omega

/-- Eight positions are the tail of one byte of the bitmap and the head of the next. -/
theorem meets_set8 (h : pos / 8 + 1 < bits.length) :
    Meets (fun _ => False) (Marks pos 8 bits) (bits.set8 pos) := by
  refine (meets_orAt (by omega) _).bind fun bits1 h1 => ?_
  refine (meets_orAt (h1.1 ▸ h) _).mono (fun _ h => h) fun bits2 h2 =>
    ⟨h2.1.trans h1.1, fun p => ?_⟩
  have hmasks := bitOf_masks ⟨pos % 8, Nat.mod_lt _ (by omega)⟩ ⟨p % 8, Nat.mod_lt _ (by omega)⟩
  rw [h2.2, h1.2, hmasks.2.1, hmasks.2.2, ← Bool.decide_and, ← Bool.decide_and, Bool.or_assoc,
    ← Bool.decide_or]
  congr 2
  simp only [Fin.mk_le_mk, Fin.mk_lt_mk, eq_iff_iff]
  omega

theorem meets_set8s (k : Nat) : ∀ {bits : Bitvec} {pos : Nat}, pos / 8 + k < bits.length →
    Meets (fun _ => False) (Marks pos (8 * k) bits) (set8s k pos bits) := by
  induction k with
  | zero => exact fun _ => marks_zero
  | succ k ih =>
    intro bits pos h
    refine (meets_set8 (by omega)).bind fun bits1 h1 => ?_
    refine (ih (by rw [h1.length]; omega)).mono (fun _ h => h) fun bits2 h2 => ?_
    rw [Nat.mul_succ, Nat.add_comm]
    exact h1.append h2

theorem meets_set1s (k : Nat) : ∀ {bits : Bitvec} {pos : Nat},
    (0 < k → (pos + k - 1) / 8 < bits.length) →
    Meets (fun _ => False) (Marks pos k bits) (set1s k pos bits) := by
  induction k with
  | zero => exact fun _ => marks_zero
  | succ k ih =>
    intro bits pos h
    have h := h (Nat.succ_pos k)
    refine (meets_set1 (by omega)).bind fun bits1 h1 => ?_
    refine (ih (by rw [h1.length]; omega)).mono (fun _ h => h) fun bits2 h2 => ?_
    rw [Nat.add_comm]
    exact h1.append h2

/-- The data of a push instruction in the code fits in the bitmap, even if the code ends before. -/
theorem meets_mark (hn : n ≤ 32) (hpos : pos ≤ len) (hbits : bits.length = len / 8 + 1 + 4) :
    Meets (fun _ => False) (Marks pos n bits) (mark n pos bits) := by
  refine (meets_set8s (n / 8) (by omega)).bind fun bits1 h1 => ?_
  refine (meets_set1s (n % 8) (by rw [h1.length]; omega)).mono (fun _ h => h) fun bits2 h2 => ?_
  rw [← Nat.div_add_mod n 8]
  exact h1.append h2

end Bitvec

/-! ## §2 — The walk over the code -/

/-- How many bytes of data an instruction has. -/
def pushSize (op : UInt8) : Nat := if 0x60 ≤ op ∧ op ≤ 0x7f then (op - 0x60 + 1).toNat else 0

/-- **The positions of instructions**: those that a walk from the start comes to, past the data of
each push. -/
inductive Reached (code : Bytes) : Nat → Prop
  | start : Reached code 0
  | next {pc : Nat} {op : UInt8} (h : Reached code pc) (hop : code[pc]? = some op) :
      Reached code (pc + 1 + pushSize op)

variable {code : Bytes} {bits bits' : Bitvec} {op : UInt8} {pc q udest : Nat}

/-- The walk does not stop inside the data of a push. -/
theorem Reached.gap (hp : Reached code pc) (hop : code[pc]? = some op) (hq : Reached code q)
    (hlt : pc < q) : pc + 1 + pushSize op ≤ q := by
  induction q using Nat.strongRecOn generalizing pc op with
  | ind q ih =>
    cases hq with
    | start => omega
    | @next q' op' hq' hop' =>
      rcases Nat.lt_trichotomy pc q' with h | rfl | h
      · have := ih q' (by omega) hp hop hq' h
        omega
      · rw [Option.some.inj (hop.symm.trans hop')]
      · have := ih pc hlt hq' hop' hp h
        omega

theorem pushSize_le (op : UInt8) : pushSize op ≤ 32 := by
  unfold pushSize
  split
  · next h =>
    have hlo : 96 ≤ op.toNat := UInt8.le_iff_toNat_le.mp h.1
    have hhi : op.toNat ≤ 127 := UInt8.le_iff_toNat_le.mp h.2
    rw [UInt8.toNat_add, UInt8.toNat_sub_of_le _ _ h.1]
    change (op.toNat - 96 + 1) % 256 ≤ 32
    omega
  · omega

/-- The bitmap when the walk is at `pc`. -/
structure Analysed (code : Bytes) (pc : Nat) (bits : Bitvec) : Prop where
  length : bits.length = code.length / 8 + 1 + 4
  reached : Reached code pc
  before : ∀ pos < pc, bits.bit pos = false ↔ Reached code pos
  after : ∀ pos, pc ≤ pos → bits.bit pos = false

theorem analysed_start (code : Bytes) :
    Analysed code 0 (replicate (code.length / 8 + 1 + 4) 0) := by
  refine ⟨length_replicate, .start, by simp, fun pos _ => ?_⟩
  have hbyte : (replicate (code.length / 8 + 1 + 4) (0 : UInt8)).getD (pos / 8) 0 = 0 := by
    rw [getD, getElem?_replicate]
    split <;> rfl
  rw [Bitvec.bit, hbyte, bitOf, UInt8.zero_and]
  rfl

theorem Analysed.next (h : Analysed code pc bits) (hop : code[pc]? = some op)
    (hm : Bitvec.Marks (pc + 1) (pushSize op) bits bits') :
    Analysed code (pc + 1 + pushSize op) bits' := by
  refine ⟨hm.length.trans h.length, .next h.reached hop, fun pos hpos => ?_, fun pos hpos => ?_⟩
  · rw [hm.bit, Bool.or_eq_false_iff, decide_eq_false_iff_not]
    rcases Nat.lt_trichotomy pos pc with hlt | rfl | hlt
    · rw [h.before pos hlt, and_iff_left (by omega)]
    · simp only [h.after pos (le_refl _), h.reached, true_and, iff_true]
      omega
    -- the data of the push are marked, and the walk skips them
    refine iff_of_false (fun hc => hc.2 (by omega)) fun hr => ?_
    have := h.reached.gap hop hr hlt
    omega
  · rw [hm.bit, h.after pos (by omega), Bool.false_or, decide_eq_false_iff_not]
    omega

theorem meets_codeBitmapFrom (code : Bytes) (fuel : Nat) : ∀ (pc : Nat) (bits : Bitvec),
    Analysed code pc bits → code.length ≤ pc + fuel →
    Meets (fun _ => False) (fun bits' => ∃ pc', Analysed code pc' bits' ∧ code.length ≤ pc')
      (codeBitmapFrom code fuel pc bits) := by
  induction fuel with
  | zero => exact fun pc bits h hpc => ⟨pc, h, hpc⟩
  | succ fuel ih =>
    intro pc bits h hpc
    unfold codeBitmapFrom
    cases hop : code[pc]? with
    | none => exact ⟨pc, h, getElem?_eq_none_iff.mp hop⟩
    | some op =>
      have hlt : pc < code.length := (List.getElem?_eq_some_iff.mp hop).1
      refine .ite (fun hpush => ?_) fun hpush => ?_
      · have hdata : (op - 0x60 + 1).toNat = pushSize op := (if_pos hpush).symm
        simp only [hdata]
        refine (Bitvec.meets_mark (pushSize_le op) hlt h.length).bind fun bits1 h1 => ?_
        exact ih _ _ (h.next hop h1) (by omega)
      · have hdata : pushSize op = 0 := if_neg hpush
        have hnext := h.next hop (hdata ▸ Bitvec.marks_zero)
        rw [hdata] at hnext
        exact ih _ _ hnext (by omega)

/-- **The bitmap is exact**: it is made without leaving the allocation, and a byte of the code is
unmarked if and only if the walk comes to it. -/
theorem codeBitmap_spec (code : Bytes) :
    ∃ bits, codeBitmap code = .ok bits ∧ code.length / 8 < bits.length ∧
      ∀ pos < code.length, bits.bit pos = false ↔ Reached code pos := by
  obtain ⟨bits, hbits, pc, h, hpc⟩ :=
    (meets_codeBitmapFrom code code.length 0 _ (analysed_start code) (by omega)).exists_ok
  exact ⟨bits, hbits, by rw [h.length]; omega, fun pos hpos => h.before pos (by omega)⟩

/-! ## §3 — Jump destinations -/

theorem isCode_spec (c : Contract) (h : udest < c.Code.length) :
    ∃ b, c.isCode udest = .ok b ∧ (b = true ↔ Reached c.Code udest) := by
  obtain ⟨bits, hbits, hlen, hbit⟩ := codeBitmap_spec c.Code
  have hin : udest / 8 < bits.length := by omega
  refine ⟨!bits.bit udest, ?_, by rw [Bool.not_eq_true', hbit udest h]⟩
  rw [Contract.isCode, hbits]
  show bits.codeSegment udest = _
  unfold Bitvec.codeSegment Bitvec.bit
  rw [getElem?_eq_getElem hin]
  simp [bitOf, getD, getElem?_eq_getElem hin, bne]

theorem isInstruction_spec (c : Contract) (opcode : UInt8) (udest : Nat) :
    ∃ b, c.isInstruction opcode udest = .ok b ∧
      (b = true ↔ c.Code[udest]? = some opcode ∧ Reached c.Code udest) := by
  unfold Contract.isInstruction
  by_cases hop : c.Code[udest]? = some opcode
  · obtain ⟨b, hb, hiff⟩ := isCode_spec c (List.getElem?_eq_some_iff.mp hop).1
    exact ⟨b, by rw [if_pos hop, hb], by rw [hiff, and_iff_right hop]⟩
  · exact ⟨false, if_neg hop, by simp [hop]⟩

theorem validJumpdest_ok (c : Contract) (dest : Word) : ∃ b, c.validJumpdest dest = .ok b := by
  unfold Contract.validJumpdest
  split
  · exact ⟨false, rfl⟩
  · exact (isInstruction_spec c 0x5b (uint64 dest)).imp fun _ h => h.1

theorem validJumpSubdest_ok (c : Contract) (udest : Nat) :
    ∃ b, c.validJumpSubdest udest = .ok b := by
  unfold Contract.validJumpSubdest
  split
  · exact ⟨false, rfl⟩
  · exact (isInstruction_spec c 0x5c udest).imp fun _ h => h.1

/-- A destination of more than 64 bits is past the end of any code. -/
theorem validJumpdest_iff {c : Contract} {dest : Word} {b : Bool} (hlen : c.Code.length < 2 ^ 63)
    (h : c.validJumpdest dest = .ok b) : b = true ↔ dest.toNat < c.Code.length ∧
      c.Code[dest.toNat]? = some 0x5b ∧ Reached c.Code dest.toNat := by
  unfold Contract.validJumpdest at h
  by_cases h64 : isUint64 dest = true
  · rw [h64, uint64_of_isUint64 h64] at h
    obtain ⟨b', hb', hiff⟩ := isInstruction_spec c 0x5b dest.toNat
    obtain rfl : b' = b := Except.ok.inj (hb'.symm.trans h)
    exact hiff.trans ⟨fun h => ⟨(List.getElem?_eq_some_iff.mp h.1).1, h⟩, fun h => h.2⟩
  rw [if_pos (by simp [h64])] at h
  obtain rfl := Except.ok.inj h
  refine ⟨by simp, fun h => absurd (decide_eq_true ?_) h64⟩
  have := h.1
  omega

/-! ## §4 — Analyses that are kept -/

/-- `Contract` with its caches. The Go map `jumpdests` is a reference: the number of one of the maps
that were made. -/
structure CachedContract where
  contract : Contract
  CodeHash : Hash
  jumpdests : Nat
  analysis : Option Bitvec := none

/-- The maps of analyses that were made. -/
abbrev Maps := List (GoMap Hash Bitvec)

/-- `isCode`, with the contract and the maps afterwards. -/
def CachedContract.isCode (c : CachedContract) (maps : Maps) (udest : Nat) :
    Except Fault (Bool × CachedContract × Maps) :=
  match c.analysis with
  | some analysis => do return (← analysis.codeSegment udest, c, maps)
  | none =>
    if c.CodeHash ≠ Hash.zero then
      match (maps.getD c.jumpdests .empty).find? c.CodeHash with
      | some analysis => do
        return (← analysis.codeSegment udest, { c with analysis := some analysis }, maps)
      | none => do
        let analysis ← codeBitmap c.contract.Code
        return (← analysis.codeSegment udest, { c with analysis := some analysis },
          maps.modify c.jumpdests (·.insert c.CodeHash analysis))
    else do
      -- initcode: the analysis is not shared
      let analysis ← codeBitmap c.contract.Code
      return (← analysis.codeSegment udest, { c with analysis := some analysis }, maps)

/-- `validJumpdest`, with the contract and the maps afterwards. -/
def CachedContract.validJumpdest (c : CachedContract) (maps : Maps) (dest : Word) :
    Except Fault (Bool × CachedContract × Maps) :=
  if !isUint64 dest then .ok (false, c, maps)
  else if c.contract.Code[uint64 dest]? = some 0x5b then c.isCode maps (uint64 dest)
  else .ok (false, c, maps)

/-- The contracts that were entered, and the maps that they refer to. -/
structure Frames where
  maps : Maps := []
  contracts : List CachedContract := []

/-- `NewContract` and `SetCallCode`: a contract that is called by a contract uses its map. -/
def Frames.NewContract (fs : Frames) (caller : Option CachedContract) (c : Contract)
    (codeHash : Hash) : Frames :=
  match caller with
  | some parent => { fs with contracts := fs.contracts ++ [⟨c, codeHash, parent.jumpdests, none⟩] }
  | none => ⟨fs.maps ++ [.empty], fs.contracts ++ [⟨c, codeHash, fs.maps.length, none⟩]⟩

section Sharing

variable (hash : Bytes → Hash) (codes : Set Bytes)

/-- **What frames do with the caches**: a contract is entered, with the hash of its code or none, or
asks for a destination. -/
inductive Frames.Step : Frames → Frames → Prop
  | enter {fs : Frames} {caller : Option CachedContract} {c : Contract} {codeHash : Hash}
      (hcaller : ∀ parent ∈ caller, parent ∈ fs.contracts) (hcode : c.Code ∈ codes)
      (hhash : codeHash = Hash.zero ∨ codeHash = hash c.Code) :
      Frames.Step fs (fs.NewContract caller c codeHash)
  | jump {fs : Frames} {i : Nat} {c c' : CachedContract} {dest : Word} {b : Bool} {maps' : Maps}
      (hc : fs.contracts[i]? = some c) (h : c.validJumpdest fs.maps dest = .ok (b, c', maps')) :
      Frames.Step fs ⟨maps', fs.contracts.set i c'⟩

/-- Under the hash of a code there is the analysis of that code. -/
def RightMaps (maps : Maps) : Prop :=
  ∀ m ∈ maps, ∀ code ∈ codes, ∀ bits, m.find? (hash code) = some bits → codeBitmap code = .ok bits

/-- What a contract keeps is the analysis of its code. -/
structure RightContract (c : CachedContract) : Prop where
  code : c.contract.Code ∈ codes
  hashed : c.CodeHash = Hash.zero ∨ c.CodeHash = hash c.contract.Code
  analysis : ∀ bits, c.analysis = some bits → codeBitmap c.contract.Code = .ok bits

variable {hash codes} {c c' : CachedContract} {maps maps' : Maps}

theorem RightMaps.share (hinj : Set.InjOn hash codes) (h : RightMaps hash codes maps)
    (hc : RightContract hash codes c) (hne : c.CodeHash ≠ Hash.zero)
    (hbits : codeBitmap c.contract.Code = .ok bits) :
    RightMaps hash codes (maps.modify c.jumpdests (·.insert c.CodeHash bits)) := by
  intro m hm code hcode bits' hfind
  obtain ⟨i, hi⟩ := mem_iff_getElem?.mp hm
  rw [getElem?_modify] at hi
  obtain ⟨m0, hm0, hm⟩ := Option.map_eq_some_iff.mp hi
  have hm0 := mem_of_getElem? hm0
  split at hm
  · subst hm
    rw [GoMap.find?_insert] at hfind
    split at hfind
    · next heq =>
      obtain rfl := Option.some.inj hfind
      rwa [hinj hcode hc.code (heq.trans (hc.hashed.resolve_left hne))]
    · exact h m0 hm0 code hcode bits' hfind
  · exact h m (hm ▸ hm0) code hcode bits' hfind

/-- **The caches make no difference** to `isCode`, and stay right. -/
theorem isCode_cached (hinj : Set.InjOn hash codes) (h : RightMaps hash codes maps)
    (hc : RightContract hash codes c) (hlt : udest < c.contract.Code.length) :
    ∃ b c' maps', c.isCode maps udest = .ok (b, c', maps') ∧ c.contract.isCode udest = .ok b ∧
      RightContract hash codes c' ∧ RightMaps hash codes maps' := by
  obtain ⟨b, hb, -⟩ := isCode_spec c.contract hlt
  obtain ⟨bits, hbits, -⟩ := codeBitmap_spec c.contract.Code
  have hseg : bits.codeSegment udest = .ok b := by
    rw [Contract.isCode, hbits] at hb
    exact hb
  have hkeep : RightContract hash codes { c with analysis := some bits } :=
    ⟨hc.code, hc.hashed, fun _ h => Option.some.inj h ▸ hbits⟩
  unfold CachedContract.isCode
  cases hanalysis : c.analysis with
  | some bits' =>
    obtain rfl : bits' = bits := Except.ok.inj ((hc.analysis _ hanalysis).symm.trans hbits)
    exact ⟨b, c, maps, bind_ok.mpr ⟨b, hseg, rfl⟩, hb, hc, h⟩
  | none =>
    by_cases hne : c.CodeHash ≠ Hash.zero
    · rw [if_pos hne]
      cases hfind : (maps.getD c.jumpdests .empty).find? c.CodeHash with
      | some bits' =>
        have hmap : codeBitmap c.contract.Code = .ok bits' := by
          rw [getD] at hfind
          cases hm : maps[c.jumpdests]? with
          | none => simp [hm] at hfind
          | some m =>
            rw [hm, hc.hashed.resolve_left hne] at hfind
            exact h m (mem_of_getElem? hm) _ hc.code _ hfind
        obtain rfl : bits' = bits := Except.ok.inj (hmap.symm.trans hbits)
        exact ⟨b, _, maps, bind_ok.mpr ⟨b, hseg, rfl⟩, hb, hkeep, h⟩
      | none =>
        exact ⟨b, _, _, bind_ok.mpr ⟨bits, hbits, bind_ok.mpr ⟨b, hseg, rfl⟩⟩, hb, hkeep,
          h.share hinj hc hne hbits⟩
    · rw [if_neg hne]
      exact ⟨b, _, maps, bind_ok.mpr ⟨bits, hbits, bind_ok.mpr ⟨b, hseg, rfl⟩⟩, hb, hkeep, h⟩

theorem validJumpdest_cached (hinj : Set.InjOn hash codes) (h : RightMaps hash codes maps)
    (hc : RightContract hash codes c) (dest : Word) :
    ∃ b c' maps', c.validJumpdest maps dest = .ok (b, c', maps') ∧
      c.contract.validJumpdest dest = .ok b ∧
      RightContract hash codes c' ∧ RightMaps hash codes maps' := by
  unfold CachedContract.validJumpdest Contract.validJumpdest Contract.isInstruction
  split
  · exact ⟨false, c, maps, rfl, rfl, hc, h⟩
  · split
    · next hop => exact isCode_cached hinj h hc (List.getElem?_eq_some_iff.mp hop).1
    · exact ⟨false, c, maps, rfl, rfl, hc, h⟩

/-- Every map and every contract is right. -/
structure Right (hash : Bytes → Hash) (codes : Set Bytes) (fs : Frames) : Prop where
  maps : RightMaps hash codes fs.maps
  contracts : ∀ c ∈ fs.contracts, RightContract hash codes c

theorem Right.step (hinj : Set.InjOn hash codes) {fs fs' : Frames} (h : Right hash codes fs)
    (hstep : Frames.Step hash codes fs fs') : Right hash codes fs' := by
  cases hstep with
  | @enter caller c codeHash _ hcode hhash =>
    have hnew (k : Nat) : RightContract hash codes ⟨c, codeHash, k, none⟩ :=
      ⟨hcode, hhash, nofun⟩
    have hall (k : Nat) : ∀ c' ∈ fs.contracts ++ [⟨c, codeHash, k, none⟩],
        RightContract hash codes c' := by
      intro c' hc'
      rcases mem_append.mp hc' with hold | hlast
      · exact h.contracts c' hold
      · exact mem_singleton.mp hlast ▸ hnew k
    cases caller with
    | some parent => exact ⟨h.maps, hall _⟩
    | none =>
      refine ⟨fun m hm code hcode bits hfind => ?_, hall _⟩
      rcases mem_append.mp hm with hold | hlast
      · exact h.maps m hold code hcode bits hfind
      · rw [mem_singleton.mp hlast, GoMap.find?_empty] at hfind
        exact nomatch hfind
  | @jump i c c' dest b maps' hc hjump =>
    obtain ⟨_, _, _, hjump', -, hc', hmaps'⟩ :=
      validJumpdest_cached hinj h.maps (h.contracts c (mem_of_getElem? hc)) dest
    rw [hjump, Except.ok.injEq, Prod.mk.injEq, Prod.mk.injEq] at hjump'
    obtain ⟨-, rfl, rfl⟩ := hjump'
    refine ⟨hmaps', fun c'' hc'' => ?_⟩
    rcases mem_or_eq_of_mem_set hc'' with hold | rfl
    · exact h.contracts c'' hold
    · exact hc'

/-- **Jump analysis is exact.** The bitmap of any code is made without leaving its allocation; and
whatever the frames have entered, asked and kept, a destination is valid for a contract exactly when
it is a `JUMPDEST` of the code that a walk over the code comes to. -/
theorem jump_analysis_exact (hinj : Set.InjOn hash codes)
    (hlen : ∀ code ∈ codes, code.length < 2 ^ 63) :
    (∀ code, ∃ bits, codeBitmap code = .ok bits) ∧
    ∀ fs, Reachable (Frames.Step hash codes) {} fs → ∀ c ∈ fs.contracts, ∀ dest : Word,
      ∃ b c' maps', c.validJumpdest fs.maps dest = .ok (b, c', maps') ∧
        c.contract.validJumpdest dest = .ok b ∧
        (b = true ↔ dest.toNat < c.contract.Code.length ∧
          c.contract.Code[dest.toNat]? = some 0x5b ∧ Reached c.contract.Code dest.toNat) := by
  refine ⟨fun code => (codeBitmap_spec code).imp fun _ h => h.1, fun fs hfs c hc dest => ?_⟩
  have hright : Right hash codes fs :=
    hfs.invariant ⟨by simp [RightMaps], by simp⟩ fun _ _ h hstep => h.step hinj hstep
  obtain ⟨b, c', maps', hjump, hvalid, -⟩ :=
    validJumpdest_cached hinj hright.maps (hright.contracts c hc) dest
  exact ⟨b, c', maps', hjump, hvalid, validJumpdest_iff (hlen _ (hright.contracts c hc).code) hvalid⟩

end Sharing

/-- A push of a byte that looks like a destination, and a destination. -/
def pushing : Contract :=
  { CallerAddress := toAddress 1, self := toAddress 2, Code := [0x60, 0x5b, 0x5b],
    Gas := 0, value := 0 }

/-- A contract asks, and one with the same code that it calls finds the analysis in the map. -/
theorem jump_analysis_exact_shared : ∃ fs : Frames, fs.contracts.length = 2 ∧
    ∀ c ∈ fs.contracts, ∀ dest : Word, ∃ b c' maps',
      c.validJumpdest fs.maps dest = .ok (b, c', maps') ∧ (b = true ↔
        dest.toNat < c.contract.Code.length ∧ c.contract.Code[dest.toNat]? = some 0x5b ∧
          Reached c.contract.Code dest.toNat) := by
  have hinj : Set.InjOn (fun _ => toHash 1) {pushing.Code} := by simp
  have hright : RightContract (fun _ => toHash 1) {pushing.Code}
      ⟨pushing, toHash 1, 0, none⟩ := ⟨rfl, .inr rfl, nofun⟩
  have hmaps : RightMaps (fun _ => toHash 1) {pushing.Code} [.empty] := by simp [RightMaps]
  obtain ⟨b, c', maps', hjump, -⟩ := validJumpdest_cached hinj hmaps hright 2
  have henter : Frames.Step (fun _ => toHash 1) {pushing.Code} {}
      (Frames.NewContract {} none pushing (toHash 1)) :=
    .enter (by simp) rfl (.inr rfl)
  have hcall : Frames.Step (fun _ => toHash 1) {pushing.Code} ⟨maps', [c']⟩
      (Frames.NewContract ⟨maps', [c']⟩ (some c') pushing (toHash 1)) :=
    .enter (by simp) rfl (.inr rfl)
  have hreach := (Relation.ReflTransGen.single henter).tail (.jump (i := 0) rfl hjump) |>.tail hcall
  refine ⟨Frames.NewContract ⟨maps', [c']⟩ (some c') pushing (toHash 1), rfl,
    fun c hc dest => ?_⟩
  obtain ⟨b, c', maps', hjump, -, hiff⟩ :=
    (jump_analysis_exact hinj (by simp [pushing])).2 _ hreach c hc dest
  exact ⟨b, c', maps', hjump, hiff⟩

end MxtChain.Vm
