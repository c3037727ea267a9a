/-
# MxtChain.Vm.Fits — every execution function finds what it touches.

For each execution function, the stack items it takes and leaves and the memory it touches. The
tables of all forks ask for exactly that (checked by evaluation); so an execution function that is
reached has its operands, its memory and its data, and leaves a frame within its limits.
-/
import MxtChain.Vm.Analysis
import MxtChain.Vm.Bounds

namespace MxtChain.Vm

open State Lib Covers Word

set_option linter.unusedSectionVars false

/-! ## §1 — What an execution function touches -/

/-- The stack items an execution function takes. -/
def Instr.pops : Instr → Nat
  | .binary _ | .opSha3 | .opMstore | .opMstore8 | .opSstore | .opJumpi | .opReturn | .opRevert => 2
  | .unary _ | .loaded _ | .opPop | .opJump | .opJumpSub | .opSuicide => 1
  | .ternary _ | .copied _ => 3
  | .opExtCodeCopy => 4
  | .pushed _ | .opJumpdest | .opBeginSub | .opReturnSub | .opPush1 | .makePush _ _ | .opStop => 0
  | .makeDup size => size
  | .makeSwap size => size + 1
  | .makeLog size => size + 2

/-- The stack items it leaves in their place. -/
def Instr.pushes : Instr → Nat
  | .binary _ | .unary _ | .ternary _ | .pushed _ | .loaded _ | .opSha3 | .opPush1
  | .makePush _ _ => 1
  | .makeDup size | .makeSwap size => size + 1
  | _ => 0

/-- The memory it touches, by stack positions. -/
def Instr.memory : Instr → Option MemorySizeFunc
  | .loaded .opMload | .opMstore => some (.fixed 0 32)
  | .opMstore8 => some (.fixed 0 1)
  | .copied _ => some (.range 0 2)
  | .opExtCodeCopy => some (.range 1 3)
  | .opSha3 | .makeLog _ | .opReturn | .opRevert => some (.range 0 1)
  | _ => none

def Calling.pops : Calling → Nat
  | .opCreate => 3
  | .opCreate2 => 4
  | .opCall | .opCallCode => 7
  | .opDelegateCall | .opStaticCall => 6

def Calling.memory : Calling → MemorySizeFunc
  | .opCreate | .opCreate2 => .range 1 2
  | .opCall | .opCallCode => .larger 5 6 3 4
  | .opDelegateCall | .opStaticCall => .larger 4 5 2 3

namespace Exec

def pops : Exec → Nat
  | .instr op => op.pops
  | .calling op => op.pops

/-- A call leaves one item when it has returned. -/
def pushes : Exec → Nat
  | .instr op => op.pushes
  | .calling _ => 1

def memory : Exec → Option MemorySizeFunc
  | .instr op => op.memory
  | .calling op => some op.memory

end Exec

/-- An entry of a table asks for what its execution function, its memory size function and its gas
function touch, and the growth of the memory is priced. -/
def Operation.fitting (e : UInt8 × Operation) : Bool :=
  decide (e.2.minStack = e.2.execute.pops) &&
  decide (e.2.maxStack = StackLimit + e.2.execute.pops - e.2.execute.pushes) &&
  decide (e.2.execute.pushes ≤ StackLimit) &&
  decide (e.2.memorySize = e.2.execute.memory) &&
  (e.2.memorySize.all fun func => decide (func.need ≤ e.2.minStack) && func.small &&
    e.2.dynamicGas.any GasFunc.pricesMemory) &&
  (e.2.dynamicGas.all fun func => decide (func.need ≤ e.2.minStack)) &&
  decide (e.1 = CALL → 3 ≤ e.2.minStack) &&
  decide (e.2.execute ≠ .instr (.makeDup 0)) &&
  (match e.2.execute with
  | .instr _ => true
  | .calling _ => !e.2.halts && !e.2.reverts)

theorem fitting_of_lookup {rules : Rules} {op : UInt8} {operation : Operation}
    (h : (jumpTable rules).lookup op = some operation) : Operation.fitting (op, operation) = true :=
  of_all_entries (by decide +kernel) h

structure Fitting (op : UInt8) (operation : Operation) : Prop where
  minStack : operation.minStack = operation.execute.pops
  maxStack : operation.maxStack = StackLimit + operation.execute.pops - operation.execute.pushes
  pushes : operation.execute.pushes ≤ StackLimit
  memorySize : operation.memorySize = operation.execute.memory
  memoryNeed : ∀ func, operation.memorySize = some func →
    func.need ≤ operation.minStack ∧ func.small = true ∧
      ∃ gas, operation.dynamicGas = some gas ∧ gas.pricesMemory = true
  gasNeed : ∀ func, operation.dynamicGas = some func → func.need ≤ operation.minStack
  callNeed : op = CALL → 3 ≤ operation.minStack
  dup : operation.execute ≠ .instr (.makeDup 0)
  goesOn : ∀ call, operation.execute = .calling call →
    operation.halts = false ∧ operation.reverts = false

theorem fitting_spec {rules : Rules} {op : UInt8} {operation : Operation}
    (h : (jumpTable rules).lookup op = some operation) : Fitting op operation := by
  have hf := fitting_of_lookup h
  simp only [Operation.fitting, Bool.and_eq_true, decide_eq_true_eq] at hf
  obtain ⟨⟨⟨⟨⟨⟨⟨⟨h1, h2⟩, h3⟩, h4⟩, h5⟩, h6⟩, h7⟩, h8⟩, h9⟩ := hf
  refine ⟨h1, h2, h3, h4, fun func hfunc => ?_, fun func hfunc => ?_, h7, h8, fun call hcall => ?_⟩
  · rw [hfunc] at h5
    simp only [Option.all_some, Bool.and_eq_true, decide_eq_true_eq] at h5
    obtain ⟨⟨hneed, hsmall⟩, hany⟩ := h5
    cases hgas : operation.dynamicGas with
    | none =>
      rw [hgas] at hany
      cases hany
    | some gas =>
      rw [hgas] at hany
      exact ⟨hneed, hsmall, gas, rfl, hany⟩
  · rw [hfunc] at h6
    exact of_decide_eq_true h6
  · rw [hcall] at h9
    simpa using h9

/-! ## §2 — Data -/

section Data

variable {C : Type} [CodeHash C] [DecidableEq C] {env : Env C} {m : Machine C} {contract : Contract}
  {r : Regs}

/-- The codes of the accounts are byte slices. -/
def CodesFit (w : World C) : Prop := ∀ a, (GetCode w a).length < 2 ^ 63

def Copied.source (m : Machine C) (contract : Contract) : Copied → Bytes
  | .opCallDataCopy => contract.Input
  | .opCodeCopy => contract.Code
  | .opReturnDataCopy => m.returnData

theorem paddedRange_of_le {data : Bytes} {off size : Nat} (h : off + size ≤ data.length) :
    paddedRange data off size = (data.drop off).take size := by
  unfold paddedRange
  rw [Nat.sub_eq_zero_of_le (by omega), List.replicate_zero, List.append_nil]

theorem getData_dataOffset64 {data : Bytes} {off length : Word} (hdata : data.length < 2 ^ 63)
    (hlen : length.toNat < 2 ^ 63) : getData data (dataOffset64 off) (uint64 length) =
      .ok (paddedRange data off.toNat length.toNat) := by
  rw [uint64_of_lt (by omega), getData_eq hdata hlen, dataOffset64_range hdata]

/-- A copy does not panic, and what it copies are the bytes its operands name: none of the casts has
changed them. -/
theorem copied_eval {op : Copied} {off length : Word} (hcode : contract.Code.length < 2 ^ 63)
    (hinput : contract.Input.length < 2 ^ 63) (hlen : length.toNat < 2 ^ 63) :
    (∃ data, op.eval m contract off length = .ok data ∧
      data = paddedRange (op.source m contract) off.toNat length.toNat ∧
      (op = .opReturnDataCopy → off.toNat + length.toNat ≤ m.returnData.length)) ∨
    op = .opReturnDataCopy ∧
      op.eval m contract off length = .error (.err .ErrReturnDataOutOfBounds) := by
  cases op with
  | opCallDataCopy => exact .inl ⟨_, getData_dataOffset64 hinput hlen, rfl, nofun⟩
  | opCodeCopy => exact .inl ⟨_, getData_dataOffset64 hcode hlen, rfl, nofun⟩
  | opReturnDataCopy =>
    unfold Copied.eval
    dsimp only
    split
    · exact .inr ⟨rfl, rfl⟩
    next hoff =>
    have hoff : isUint64 off = true := by simpa using hoff
    split
    · exact .inr ⟨rfl, rfl⟩
    next hend =>
    rw [not_or] at hend
    have hend64 : isUint64 (off + length) = true := by simpa using hend.1
    have hle := Nat.not_lt.mp hend.2
    have hoffLt : off.toNat < 2 ^ 64 := of_decide_eq_true hoff
    -- neither operand is long enough for the sum of words to wrap
    have hsum : (off + length).toNat = off.toNat + length.toNat := by
      rw [BitVec.toNat_add, Nat.mod_eq_of_lt]
      exact (Nat.add_lt_add hoffLt hlen).trans (by norm_num)
    rw [uint64_of_isUint64 hend64, hsum] at hle
    rw [uint64_of_isUint64 hoff, uint64_of_isUint64 hend64, hsum]
    refine .inl ⟨_, if_pos ⟨by omega, by omega, by omega⟩, ?_, fun _ => hle⟩
    rw [Int.toNat_natCast, Int.toNat_natCast, Nat.add_sub_cancel_left]
    exact (paddedRange_of_le hle).symm

end Data

/-! ## §3 — Execution functions that call no other contract -/

/-- What an execution function leaves of a frame. -/
structure Ran (op : Instr) (r : Regs) (e : Effect) : Prop where
  stack : e.regs.stack.length + op.pops = r.stack.length + op.pushes
  memory : e.regs.memory.Len = r.memory.Len
  lastGasCost : e.regs.memory.lastGasCost = r.memory.lastGasCost
  rstack : e.regs.rstack.length ≤ 1023
  res : e.res.length ≤ r.memory.Len

/-- No panic, and a frame within its limits. -/
def Fine (op : Instr) (r : Regs) (x : Except Fault Effect) : Prop :=
  x ≠ .error .panic ∧ ∀ e, x = .ok e → Ran op r e

namespace Fine

variable {op : Instr} {r : Regs} {x : Except Fault Effect}

theorem of_ok {e : Effect} (hx : x = .ok e) (h : Ran op r e) : Fine op r x := by
  subst hx
  refine ⟨by simp, fun e' he' => ?_⟩
  cases he'
  exact h

theorem of_err {err : FrameError} (hx : x = .error (.err err)) : Fine op r x := by
  subst hx
  exact ⟨by simp, by simp⟩

end Fine

/-- What an execution function is given. -/
structure Given {C : Type} [CodeHash C] (m : Machine C) (contract : Contract) (r : Regs)
    (pops : Nat) (memory : Option MemorySizeFunc) : Prop where
  pops : pops ≤ r.stack.length
  covered : ∀ func, memory = some func → func.Covered r.stack r.memory
  priced : Priced r.memory
  rstack : r.rstack.length ≤ 1023
  code : contract.Code.length < 2 ^ 63
  input : contract.Input.length < 2 ^ 63
  codes : CodesFit m.world

variable {n size : Nat} {st : Stack} {op : Instr}

/-- A stack with enough items has a top. -/
theorem exists_top (h : n + 1 ≤ st.length) : ∃ x st', st = x :: st' ∧ n ≤ st'.length := by
  cases st with
  | nil => cases h
  | cons x st' => exact ⟨x, st', rfl, Nat.le_of_succ_le_succ h⟩

theorem exists_top₂ (h : n + 2 ≤ st.length) : ∃ x y st', st = x :: y :: st' ∧ n ≤ st'.length := by
  obtain ⟨x, st1, rfl, h1⟩ := exists_top h
  obtain ⟨y, st2, rfl, h2⟩ := exists_top h1
  exact ⟨x, y, st2, rfl, h2⟩

theorem exists_top₃ (h : n + 3 ≤ st.length) :
    ∃ x y z st', st = x :: y :: z :: st' ∧ n ≤ st'.length := by
  obtain ⟨x, y, st1, rfl, h1⟩ := exists_top₂ h
  obtain ⟨z, st2, rfl, h2⟩ := exists_top h1
  exact ⟨x, y, z, st2, rfl, h2⟩

theorem Covers.size_le {mem : Memory} {off size : Word} (h : Covers mem off size) :
    size.toNat ≤ mem.Len := by
  rcases h with rfl | h
  · exact Nat.zero_le _
  · omega

theorem Covers.size_lt {mem : Memory} {off size : Word} (h : Covers mem off size)
    (hp : Priced mem) : size.toNat < 2 ^ 63 :=
  (h.size_le.trans hp).trans_lt (by decide)

section Run

variable {C : Type} [CodeHash C] [DecidableEq C] {env : Env C} {m : Machine C} {contract : Contract}
  {r : Regs}

theorem fine_copied {op : Copied} (h : Given m contract r 3 (some (.range 0 2))) :
    Fine (.copied op) r ((Instr.copied op).run env m contract r) := by
  obtain ⟨pc, stack, rstack, memory⟩ := r
  obtain ⟨memOffset, dataOffset, length, st, rfl, -⟩ := exists_top₃ h.pops
  have hcov : Covers memory memOffset length := h.covered _ rfl _ _ rfl rfl
  rcases @copied_eval C _ _ m contract op dataOffset length h.code h.input
    (hcov.size_lt h.priced) with ⟨data, hdata, -⟩ | ⟨-, herr⟩
  · obtain ⟨memory', hset, hlen, hcost⟩ := hcov.set_ok h.priced data
    refine .of_ok (bind_ok.mpr ⟨data, hdata, bind_ok.mpr ⟨memory', hset, rfl⟩⟩) ?_
    exact ⟨rfl, hlen, hcost, h.rstack, Nat.zero_le _⟩
  · exact .of_err (bind_error.mpr (.inl herr))

theorem fine_extCodeCopy (h : Given m contract r 4 (some (.range 1 3))) :
    Fine .opExtCodeCopy r (Instr.opExtCodeCopy.run env m contract r) := by
  obtain ⟨pc, stack, rstack, memory⟩ := r
  obtain ⟨a, memOffset, codeOffset, st, rfl, h3⟩ := exists_top₃ h.pops
  obtain ⟨length, st, rfl, -⟩ := exists_top h3
  have hcov : Covers memory memOffset length := h.covered _ rfl _ _ rfl rfl
  obtain ⟨memory', hset, hlen, hcost⟩ := hcov.set_ok h.priced
    (paddedRange (GetCode m.world (toAddress a)) codeOffset.toNat length.toNat)
  refine .of_ok (bind_ok.mpr ⟨_, getData_dataOffset64 (h.codes _) (hcov.size_lt h.priced),
    bind_ok.mpr ⟨memory', hset, rfl⟩⟩) ?_
  exact ⟨rfl, hlen, hcost, h.rstack, Nat.zero_le _⟩

theorem fine_sha3 (h : Given m contract r 2 (some (.range 0 1))) :
    Fine .opSha3 r (Instr.opSha3.run env m contract r) := by
  obtain ⟨pc, stack, rstack, memory⟩ := r
  obtain ⟨offset, size, st, rfl, -⟩ := exists_top₂ h.pops
  have hcov : Covers memory offset size := h.covered _ rfl _ _ rfl rfl
  obtain ⟨data, hdata, -⟩ := read_ok (r := ⟨pc, offset :: size :: st, rstack, memory⟩) hcov
    h.priced
  refine .of_ok (bind_ok.mpr ⟨data, hdata, rfl⟩) ?_
  exact ⟨rfl, rfl, rfl, h.rstack, Nat.zero_le _⟩

theorem fine_log (h : Given m contract r (size + 2) (some (.range 0 1))) :
    Fine (.makeLog size) r ((Instr.makeLog size).run env m contract r) := by
  obtain ⟨pc, stack, rstack, memory⟩ := r
  obtain ⟨mStart, mSize, st, rfl, h2⟩ := exists_top₂ h.pops
  have hcov : Covers memory mStart mSize := h.covered _ rfl _ _ rfl rfl
  obtain ⟨data, hdata, -⟩ := read_ok (r := ⟨pc, mStart :: mSize :: st, rstack, memory⟩) hcov
    h.priced
  refine .of_ok ((if_neg (Nat.not_lt.mpr h2)).trans (bind_ok.mpr ⟨data, hdata, rfl⟩)) ?_
  refine ⟨?_, rfl, rfl, h.rstack, Nat.zero_le _⟩
  change (st.drop size).length + (size + 2) = st.length + 1 + 1 + 0
  rw [List.length_drop]
  omega

/-- `RETURN` and `REVERT`, which are the same function. -/
theorem fine_return (hop : op = .opReturn ∨ op = .opRevert)
    (h : Given m contract r 2 (some (.range 0 1))) : Fine op r (op.run env m contract r) := by
  obtain ⟨pc, stack, rstack, memory⟩ := r
  obtain ⟨offset, size, st, rfl, -⟩ := exists_top₂ h.pops
  have hcov : Covers memory offset size := h.covered _ rfl _ _ rfl rfl
  obtain ⟨data, hdata, hlen, -⟩ :=
    read_ok (r := ⟨pc, offset :: size :: st, rstack, memory⟩) hcov h.priced
  have hran : ∀ op', op'.pops = 2 → op'.pushes = 0 → Ran op' ⟨pc, offset :: size :: st, rstack,
      memory⟩ { regs := ⟨pc, st, rstack, memory⟩, res := data } := by
    intro op' hpops hpushes
    refine ⟨?_, rfl, rfl, h.rstack, ?_⟩
    · rw [hpops, hpushes]
      rfl
    · rw [hlen]
      exact hcov.size_le
  rcases hop with rfl | rfl
  · exact .of_ok (bind_ok.mpr ⟨data, hdata, rfl⟩) (hran _ rfl rfl)
  · exact .of_ok (bind_ok.mpr ⟨data, hdata, rfl⟩) (hran _ rfl rfl)

theorem Covers.fixed {mem : Memory} {off : Word} (h : Covers mem off (BitVec.ofNat 256 n))
    (hn : 0 < n) (hn' : n < 2 ^ 63) (hp : Priced mem) :
    uint64 off = off.toNat ∧ off.toNat + n ≤ mem.Len ∧ mem.Len < 2 ^ 63 := by
  have htoNat : (BitVec.ofNat 256 n).toNat = n := by
    rw [BitVec.toNat_ofNat, Nat.mod_eq_of_lt (hn'.trans (by norm_num))]
  have hne : BitVec.ofNat 256 n ≠ 0 := fun h0 => by
    rw [h0] at htoNat
    exact hn.ne' htoNat.symm
  obtain ⟨hoff, -, hle, -, -⟩ := h.casts hp hne
  rw [htoNat] at hle
  exact ⟨hoff, hle, hp.trans_lt (by decide)⟩

theorem fine_mstore (h : Given m contract r 2 (some (.fixed 0 32))) :
    Fine .opMstore r (Instr.opMstore.run env m contract r) := by
  obtain ⟨pc, stack, rstack, memory⟩ := r
  obtain ⟨mStart, val, st, rfl, -⟩ := exists_top₂ h.pops
  have hcov : Covers memory mStart (BitVec.ofNat 256 32) := h.covered _ rfl _ rfl
  obtain ⟨hoff, hle, hlt⟩ := hcov.fixed (by decide) (by decide) h.priced
  have hset : memory.Set32 (uint64 mStart) val =
      .ok (memory.copyTo mStart.toNat 32 (toHash val).bytes) := by
    unfold Memory.Set32
    rw [hoff]
    rw [Nat.mod_eq_of_lt (by omega), if_neg (by omega)]
  refine .of_ok (bind_ok.mpr ⟨_, hset, rfl⟩) ?_
  exact ⟨rfl, memory.Len_copyTo hle, rfl, h.rstack, Nat.zero_le _⟩

theorem fine_mstore8 (h : Given m contract r 2 (some (.fixed 0 1))) :
    Fine .opMstore8 r (Instr.opMstore8.run env m contract r) := by
  obtain ⟨pc, stack, rstack, memory⟩ := r
  obtain ⟨off, val, st, rfl, -⟩ := exists_top₂ h.pops
  have hcov : Covers memory off (BitVec.ofNat 256 1) := h.covered _ rfl _ rfl
  obtain ⟨hoff, hle, -⟩ := hcov.fixed (by decide) (by decide) h.priced
  have hset : memory.setByte (uint64 off) (UInt8.ofNat (uint64 val)) =
      .ok (memory.copyTo off.toNat 1 [UInt8.ofNat (uint64 val)]) := by
    unfold Memory.setByte
    rw [hoff, if_pos (by omega)]
  refine .of_ok (bind_ok.mpr ⟨_, hset, rfl⟩) ?_
  exact ⟨rfl, memory.Len_copyTo hle, rfl, h.rstack, Nat.zero_le _⟩

theorem fine_loaded {op : Loaded} (h : Given m contract r 1 (Instr.loaded op).memory) :
    Fine (.loaded op) r ((Instr.loaded op).run env m contract r) := by
  obtain ⟨pc, stack, rstack, memory⟩ := r
  obtain ⟨x, st, rfl, -⟩ := exists_top h.pops
  have hread : ∃ w, op.eval env m contract ⟨pc, x :: st, rstack, memory⟩ x = .ok w := by
    cases op with
    | opCallDataLoad =>
      unfold Loaded.eval
      dsimp only
      split
      · rw [getData_eq h.input (by decide)]
        exact ⟨_, rfl⟩
      · exact ⟨_, rfl⟩
    | opMload =>
      have hcov : Covers memory x (BitVec.ofNat 256 32) := h.covered _ rfl _ rfl
      obtain ⟨data, hdata, -⟩ := read_ok (r := ⟨pc, x :: st, rstack, memory⟩) hcov h.priced
      exact ⟨setBytes data, congrArg (Except.map setBytes) hdata⟩
    | opBalance | opExtCodeSize | opExtCodeHash | opBlockhash | opSload => exact ⟨_, rfl⟩
  obtain ⟨w, hw⟩ := hread
  exact .of_ok (bind_ok.mpr ⟨w, hw, rfl⟩) ⟨rfl, rfl, rfl, h.rstack, Nat.zero_le _⟩

theorem fine_jumpTo {pos : Word} (hst : st.length + op.pops = r.stack.length + op.pushes)
    (hr : r.rstack.length ≤ 1023) : Fine op r (jumpTo contract r st pos) := by
  obtain ⟨b, hb⟩ := validJumpdest_ok contract pos
  cases b with
  | true => exact .of_ok (bind_ok.mpr ⟨true, hb, rfl⟩) ⟨hst, rfl, rfl, hr, Nat.zero_le _⟩
  | false => exact .of_err (bind_error.mpr (.inr ⟨false, hb, rfl⟩))

theorem fine_jumpSub (h : Given m contract r 1 none) :
    Fine .opJumpSub r (Instr.opJumpSub.run env m contract r) := by
  obtain ⟨pc, stack, rstack, memory⟩ := r
  obtain ⟨pos, st, rfl, -⟩ := exists_top h.pops
  by_cases hfull : rstack.length ≥ 1023
  · exact .of_err (if_pos hfull)
  change Fine _ _ (if rstack.length ≥ 1023 then _ else _)
  rw [if_neg hfull]
  split
  · exact .of_err rfl
  obtain ⟨b, hb⟩ := validJumpSubdest_ok contract (uint64 pos)
  cases b with
  | true =>
    refine .of_ok (bind_ok.mpr ⟨true, hb, rfl⟩) ⟨rfl, rfl, rfl, ?_, Nat.zero_le _⟩
    change rstack.length + 1 ≤ 1023
    omega
  | false => exact .of_err (bind_error.mpr (.inr ⟨false, hb, rfl⟩))

theorem fine_dup (hsize : size ≠ 0) (h : Given m contract r size none) :
    Fine (.makeDup size) r ((Instr.makeDup size).run env m contract r) := by
  have hlt : size - 1 < r.stack.length := by
    have := h.pops
    omega
  have hrun : (Instr.makeDup size).run env m contract r =
      .ok { regs := { r with stack := r.stack[size - 1] :: r.stack } } := by
    unfold Instr.run
    dsimp only
    rw [List.getElem?_eq_getElem hlt]
  refine .of_ok hrun ⟨?_, rfl, rfl, h.rstack, Nat.zero_le _⟩
  change r.stack.length + 1 + size = r.stack.length + (size + 1)
  omega

theorem fine_swap (h : Given m contract r (size + 1) none) :
    Fine (.makeSwap size) r ((Instr.makeSwap size).run env m contract r) := by
  have hlt : size < r.stack.length := h.pops
  have hpos : 0 < r.stack.length := by omega
  have hrun : (Instr.makeSwap size).run env m contract r =
      .ok { regs := { r with stack := (r.stack.set 0 r.stack[size]).set size r.stack[0] } } := by
    unfold Instr.run
    dsimp only
    rw [List.getElem?_eq_getElem hlt, List.getElem?_eq_getElem hpos]
  refine .of_ok hrun ⟨?_, rfl, rfl, h.rstack, Nat.zero_le _⟩
  change ((r.stack.set 0 _).set size _).length + (size + 1) = r.stack.length + (size + 1)
  rw [List.length_set, List.length_set]

/-- **Every execution function** that is given what it touches runs without a panic and leaves a frame
within its limits. -/
theorem fine_run (h : Given m contract r op.pops op.memory) (hdup : op ≠ .makeDup 0) :
    Fine op r (op.run env m contract r) := by
  -- what only moves stack items
  have hstack : ∀ (pc : Nat) (st : Stack) (ops : List Op) (destroyed : Int),
      st.length + op.pops = r.stack.length + op.pushes →
      Ran op r { regs := { r with pc, stack := st }, ops, destroyed } :=
    fun _ _ _ _ hst => ⟨hst, rfl, rfl, h.rstack, Nat.zero_le _⟩
  cases op with
  | binary op =>
    obtain ⟨pc, stack, rstack, memory⟩ := r
    obtain ⟨x, y, st, rfl, -⟩ := exists_top₂ h.pops
    exact .of_ok rfl (hstack _ _ _ _ rfl)
  | unary op =>
    obtain ⟨pc, stack, rstack, memory⟩ := r
    obtain ⟨x, st, rfl, -⟩ := exists_top h.pops
    exact .of_ok rfl (hstack _ _ _ _ rfl)
  | ternary op =>
    obtain ⟨pc, stack, rstack, memory⟩ := r
    obtain ⟨x, y, z, st, rfl, -⟩ := exists_top₃ h.pops
    exact .of_ok rfl (hstack _ _ _ _ rfl)
  | pushed op => exact .of_ok rfl (hstack _ _ _ _ rfl)
  | loaded op => exact fine_loaded h
  | copied op => exact fine_copied h
  | opExtCodeCopy => exact fine_extCodeCopy h
  | opSha3 => exact fine_sha3 h
  | opPop =>
    obtain ⟨pc, stack, rstack, memory⟩ := r
    obtain ⟨x, st, rfl, -⟩ := exists_top h.pops
    exact .of_ok rfl (hstack _ _ _ _ rfl)
  | opMstore => exact fine_mstore h
  | opMstore8 => exact fine_mstore8 h
  | opSstore =>
    obtain ⟨pc, stack, rstack, memory⟩ := r
    obtain ⟨loc, val, st, rfl, -⟩ := exists_top₂ h.pops
    exact .of_ok rfl (hstack _ _ _ _ rfl)
  | opJump =>
    obtain ⟨pc, stack, rstack, memory⟩ := r
    obtain ⟨pos, st, rfl, -⟩ := exists_top h.pops
    exact fine_jumpTo rfl h.rstack
  | opJumpi =>
    obtain ⟨pc, stack, rstack, memory⟩ := r
    obtain ⟨pos, cond, st, rfl, -⟩ := exists_top₂ h.pops
    by_cases hcond : cond ≠ 0
    · have hrun : Instr.opJumpi.run env m contract ⟨pc, pos :: cond :: st, rstack, memory⟩ =
          jumpTo contract ⟨pc, pos :: cond :: st, rstack, memory⟩ st pos := if_pos hcond
      rw [hrun]
      exact fine_jumpTo rfl h.rstack
    · exact .of_ok (if_neg hcond) (hstack _ _ _ _ rfl)
  | opJumpdest => exact .of_ok rfl (hstack _ _ _ _ rfl)
  | opBeginSub => exact .of_err rfl
  | opJumpSub => exact fine_jumpSub h
  | opReturnSub =>
    obtain ⟨pc, stack, rstack, memory⟩ := r
    cases rstack with
    | nil => exact .of_err rfl
    | cons pc' rst =>
      refine .of_ok rfl ⟨rfl, rfl, rfl, ?_, Nat.zero_le _⟩
      exact (Nat.le_succ _).trans h.rstack
  | opPush1 | makePush size pushByteSize => exact .of_ok rfl (hstack _ _ _ _ rfl)
  | makeDup size => exact fine_dup (fun h0 => hdup (by rw [h0])) h
  | makeSwap size => exact fine_swap h
  | makeLog size => exact fine_log h
  | opReturn => exact fine_return (.inl rfl) h
  | opRevert => exact fine_return (.inr rfl) h
  | opStop => exact .of_ok rfl (hstack _ _ _ _ rfl)
  | opSuicide =>
    obtain ⟨pc, stack, rstack, memory⟩ := r
    obtain ⟨beneficiary, st, rfl, -⟩ := exists_top h.pops
    exact .of_ok rfl (hstack _ _ _ _ rfl)

/-! ## §4 — Execution functions that call another contract -/

/-- What is asked for, and what is left of the frame until the call has returned: the memory for the
result is there. -/
structure Asked (op : Calling) (r : Regs) (s : Suspended) : Prop where
  stack : s.regs.stack.length + op.pops = r.stack.length
  memory : s.regs.memory = r.memory
  rstack : s.regs.rstack = r.rstack
  input : s.req.input.length ≤ r.memory.Len
  pending : ∀ retOffset retSize, s.pending = .call retOffset retSize →
    Covers r.memory retOffset retSize

theorem asked_valueCall {op : Calling} {kind : CallKind}
    (hop : op.pops = 7 ∧ op.memory = .larger 5 6 3 4)
    (h : Given m contract r op.pops (some op.memory)) :
    ∃ s, valueCall m contract r kind = .ok s ∧ Asked op r s := by
  obtain ⟨pc, stack, rstack, memory⟩ := r
  rw [hop.1, hop.2] at h
  obtain ⟨x, addr, value, st, rfl, h3⟩ := exists_top₃ h.pops
  obtain ⟨inOffset, inSize, retOffset, st, rfl, h6⟩ := exists_top₃ h3
  obtain ⟨retSize, st, rfl, -⟩ := exists_top h6
  obtain ⟨hret, hin⟩ := h.covered _ rfl
  have hin : Covers memory inOffset inSize := hin _ _ rfl rfl
  obtain ⟨data, hdata, hlen, -⟩ := read_ok (r := ⟨pc, x :: addr :: value :: inOffset ::
    inSize :: retOffset :: retSize :: st, rstack, memory⟩) hin h.priced
  refine ⟨_, bind_ok.mpr ⟨data, hdata, rfl⟩, ?_, rfl, rfl, hlen.trans_le hin.size_le, ?_⟩
  · rw [hop.1]
    rfl
  · intro ro rs hpending
    cases hpending
    exact hret _ _ rfl rfl

theorem asked_plainCall {op : Calling} {kind : CallKind}
    (hop : op.pops = 6 ∧ op.memory = .larger 4 5 2 3)
    (h : Given m contract r op.pops (some op.memory)) :
    ∃ s, plainCall m contract r kind = .ok s ∧ Asked op r s := by
  obtain ⟨pc, stack, rstack, memory⟩ := r
  rw [hop.1, hop.2] at h
  obtain ⟨x, addr, inOffset, st, rfl, h3⟩ := exists_top₃ h.pops
  obtain ⟨inSize, retOffset, retSize, st, rfl, -⟩ := exists_top₃ h3
  obtain ⟨hret, hin⟩ := h.covered _ rfl
  have hin : Covers memory inOffset inSize := hin _ _ rfl rfl
  obtain ⟨data, hdata, hlen, -⟩ := read_ok (r := ⟨pc, x :: addr :: inOffset :: inSize ::
    retOffset :: retSize :: st, rstack, memory⟩) hin h.priced
  refine ⟨_, bind_ok.mpr ⟨data, hdata, rfl⟩, ?_, rfl, rfl, hlen.trans_le hin.size_le, ?_⟩
  · rw [hop.1]
    rfl
  · intro ro rs hpending
    cases hpending
    exact hret _ _ rfl rfl

/-- **A call finds its operands and its memory.** -/
theorem asked_run {op : Calling} (h : Given m contract r op.pops (some op.memory)) :
    ∃ s, op.run env m contract r = .ok s ∧ Asked op r s := by
  cases op with
  | opCall | opCallCode => exact asked_valueCall ⟨rfl, rfl⟩ h
  | opDelegateCall | opStaticCall => exact asked_plainCall ⟨rfl, rfl⟩ h
  | opCreate =>
    obtain ⟨pc, stack, rstack, memory⟩ := r
    obtain ⟨value, offset, size, st, rfl, -⟩ := exists_top₃ h.pops
    have hin : Covers memory offset size := h.covered _ rfl _ _ rfl rfl
    obtain ⟨data, hdata, hlen, -⟩ :=
      read_ok (r := ⟨pc, value :: offset :: size :: st, rstack, memory⟩) hin h.priced
    exact ⟨_, bind_ok.mpr ⟨data, hdata, rfl⟩, rfl, rfl, rfl, hlen.trans_le hin.size_le, nofun⟩
  | opCreate2 =>
    obtain ⟨pc, stack, rstack, memory⟩ := r
    obtain ⟨value, offset, size, st, rfl, h3⟩ := exists_top₃ h.pops
    obtain ⟨salt, st, rfl, -⟩ := exists_top h3
    have hin : Covers memory offset size := h.covered _ rfl _ _ rfl rfl
    obtain ⟨data, hdata, hlen, -⟩ :=
      read_ok (r := ⟨pc, value :: offset :: size :: salt :: st, rstack, memory⟩) hin h.priced
    exact ⟨_, bind_ok.mpr ⟨data, hdata, rfl⟩, rfl, rfl, rfl, hlen.trans_le hin.size_le, nofun⟩

end Run

end MxtChain.Vm
