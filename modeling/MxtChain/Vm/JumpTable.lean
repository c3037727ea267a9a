/-
# MxtChain.Vm.JumpTable — the instruction sets of the forks.

The tables of `jump_table.go` with the changes of `eips.go`: for each opcode its execution function,
its price, the stack it needs and leaves room for, the memory it touches and how the loop goes on.
-/
import MxtChain.Vm.Instructions

namespace MxtChain.Vm

def minStack (pops _push : Nat) : Nat := pops

def maxStack (pop push : Nat) : Nat := StackLimit + pop - push

structure Operation where
  execute : Exec
  constantGas : Nat := 0
  dynamicGas : Option GasFunc := none
  minStack : Nat
  maxStack : Nat
  memorySize : Option MemorySizeFunc := none
  halts : Bool := false
  jumps : Bool := false
  writes : Bool := false
  reverts : Bool := false
  returns : Bool := false
  deriving DecidableEq

/-- `JumpTable`: the first entry of an opcode counts. -/
abbrev JumpTable := List (UInt8 × Operation)

namespace JumpTable

/-- The assignment `jt[op] = operation`. -/
def set (jt : JumpTable) (op : UInt8) (operation : Operation) : JumpTable := (op, operation) :: jt

/-- A change of the entry of an opcode. -/
def modify (jt : JumpTable) (op : UInt8) (f : Operation → Operation) : JumpTable :=
  jt.map fun e => (e.1, if e.1 = op then f e.2 else e.2)

end JumpTable

/-- The entry of an instruction with a constant price that takes `pops` items and leaves `push`. -/
def simple (op : Instr) (constantGas pops push : Nat) : Operation where
  execute := .instr op
  constantGas := constantGas
  minStack := minStack pops push
  maxStack := maxStack pops push

/-- The entry of an instruction that calls another contract. -/
def calling (op : Calling) (constantGas pops push : Nat) : Operation where
  execute := .calling op
  constantGas := constantGas
  minStack := minStack pops push
  maxStack := maxStack pops push
  returns := true

/-! ## §1 — Prices -/

def GasQuickStep : Nat := 2
def GasFastestStep : Nat := 3
def GasFastStep : Nat := 5
def GasMidStep : Nat := 8
def GasSlowStep : Nat := 10
def GasExtStep : Nat := 20

/-! ## §2 — Opcodes that a later fork changes -/

def BALANCE : UInt8 := 0x31
def EXTCODESIZE : UInt8 := 0x3b
def EXTCODECOPY : UInt8 := 0x3c
def EXTCODEHASH : UInt8 := 0x3f
def EXP : UInt8 := 0x0a
def SLOAD : UInt8 := 0x54
def SSTORE : UInt8 := 0x55
def CALL : UInt8 := 0xf1
def CALLCODE : UInt8 := 0xf2
def DELEGATECALL : UInt8 := 0xf4

/-! ## §3 — The instruction sets -/

/-- `PUSH2` to `PUSH32` -/
def pushes : JumpTable :=
  (List.range 31).map fun i =>
    (UInt8.ofNat (0x61 + i), simple (.makePush (i + 2) (i + 2)) GasFastestStep 0 1)

/-- `DUP1` to `DUP16` -/
def dups : JumpTable :=
  (List.range 16).map fun i =>
    (UInt8.ofNat (0x80 + i), simple (.makeDup (i + 1)) GasFastestStep (i + 1) (i + 2))

/-- `SWAP1` to `SWAP16` -/
def swaps : JumpTable :=
  (List.range 16).map fun i =>
    (UInt8.ofNat (0x90 + i), simple (.makeSwap (i + 1)) GasFastestStep (i + 2) (i + 2))

/-- `LOG0` to `LOG4` -/
def logs : JumpTable :=
  (List.range 5).map fun i =>
    (UInt8.ofNat (0xa0 + i), { simple (.makeLog i) 0 (i + 2) 0 with
        dynamicGas := some (.makeGasLog i), memorySize := some memoryLog, writes := true })

def frontierInstructionSet : JumpTable :=
  [(0x00, { simple .opStop 0 0 0 with halts := true }),
    (0x01, simple (.binary .opAdd) GasFastestStep 2 1),
    (0x02, simple (.binary .opMul) GasFastStep 2 1),
    (0x03, simple (.binary .opSub) GasFastestStep 2 1),
    (0x04, simple (.binary .opDiv) GasFastStep 2 1),
    (0x05, simple (.binary .opSdiv) GasFastStep 2 1),
    (0x06, simple (.binary .opMod) GasFastStep 2 1),
    (0x07, simple (.binary .opSmod) GasFastStep 2 1),
    (0x08, simple (.ternary .opAddmod) GasMidStep 3 1),
    (0x09, simple (.ternary .opMulmod) GasMidStep 3 1),
    (EXP, { simple (.binary .opExp) 0 2 1 with dynamicGas := some .gasExpFrontier }),
    (0x0b, simple (.binary .opSignExtend) GasFastStep 2 1),
    (0x10, simple (.binary .opLt) GasFastestStep 2 1),
    (0x11, simple (.binary .opGt) GasFastestStep 2 1),
    (0x12, simple (.binary .opSlt) GasFastestStep 2 1),
    (0x13, simple (.binary .opSgt) GasFastestStep 2 1),
    (0x14, simple (.binary .opEq) GasFastestStep 2 1),
    (0x15, simple (.unary .opIszero) GasFastestStep 1 1),
    (0x16, simple (.binary .opAnd) GasFastestStep 2 1),
    (0x17, simple (.binary .opOr) GasFastestStep 2 1),
    (0x18, simple (.binary .opXor) GasFastestStep 2 1),
    (0x19, simple (.unary .opNot) GasFastestStep 1 1),
    (0x1a, simple (.binary .opByte) GasFastestStep 2 1),
    (0x20, { simple .opSha3 30 2 1 with
      dynamicGas := some .gasSha3, memorySize := some memorySha3 }),
    (0x30, simple (.pushed .opAddress) GasQuickStep 0 1),
    (BALANCE, simple (.loaded .opBalance) 20 1 1),
    (0x32, simple (.pushed .opOrigin) GasQuickStep 0 1),
    (0x33, simple (.pushed .opCaller) GasQuickStep 0 1),
    (0x34, simple (.pushed .opCallValue) GasQuickStep 0 1),
    (0x35, simple (.loaded .opCallDataLoad) GasFastestStep 1 1),
    (0x36, simple (.pushed .opCallDataSize) GasQuickStep 0 1),
    (0x37, { simple (.copied .opCallDataCopy) GasFastestStep 3 0 with
      dynamicGas := some (.memoryCopierGas 2), memorySize := some memoryCallDataCopy }),
    (0x38, simple (.pushed .opCodeSize) GasQuickStep 0 1),
    (0x39, { simple (.copied .opCodeCopy) GasFastestStep 3 0 with
      dynamicGas := some (.memoryCopierGas 2), memorySize := some memoryCodeCopy }),
    (0x3a, simple (.pushed .opGasprice) GasQuickStep 0 1),
    (EXTCODESIZE, simple (.loaded .opExtCodeSize) 20 1 1),
    (EXTCODECOPY, { simple .opExtCodeCopy 20 4 0 with
      dynamicGas := some (.memoryCopierGas 3), memorySize := some memoryExtCodeCopy }),
    (0x40, simple (.loaded .opBlockhash) GasExtStep 1 1),
    (0x41, simple (.pushed .opCoinbase) GasQuickStep 0 1),
    (0x42, simple (.pushed .opTimestamp) GasQuickStep 0 1),
    (0x43, simple (.pushed .opNumber) GasQuickStep 0 1),
    (0x44, simple (.pushed .opDifficulty) GasQuickStep 0 1),
    (0x45, simple (.pushed .opGasLimit) GasQuickStep 0 1),
    (0x50, simple .opPop GasQuickStep 1 0),
    (0x51, { simple (.loaded .opMload) GasFastestStep 1 1 with
      dynamicGas := some .pureMemoryGascost, memorySize := some memoryMLoad }),
    (0x52, { simple .opMstore GasFastestStep 2 0 with
      dynamicGas := some .pureMemoryGascost, memorySize := some memoryMStore }),
    (0x53, { simple .opMstore8 GasFastestStep 2 0 with
      dynamicGas := some .pureMemoryGascost, memorySize := some memoryMStore8 }),
    (SLOAD, simple (.loaded .opSload) 50 1 1),
    (SSTORE, { simple .opSstore 0 2 0 with dynamicGas := some .gasSStore, writes := true }),
    (0x56, { simple .opJump GasMidStep 1 0 with jumps := true }),
    (0x57, { simple .opJumpi GasSlowStep 2 0 with jumps := true }),
    (0x58, simple (.pushed .opPc) GasQuickStep 0 1),
    (0x59, simple (.pushed .opMsize) GasQuickStep 0 1),
    (0x5a, simple (.pushed .opGas) GasQuickStep 0 1),
    (0x5b, simple .opJumpdest 1 0 0),
    (0x60, simple .opPush1 GasFastestStep 0 1),
    (0xf0, { calling .opCreate 32000 3 1 with
      dynamicGas := some .pureMemoryGascost, memorySize := some memoryCreate
      writes := true }),
    (CALL, { calling .opCall 40 7 1 with
      dynamicGas := some .gasCall, memorySize := some memoryCall }),
    (CALLCODE, { calling .opCallCode 40 7 1 with
      dynamicGas := some .gasCallCode, memorySize := some memoryCall }),
    (0xf3, { simple .opReturn 0 2 0 with
      dynamicGas := some .pureMemoryGascost, memorySize := some memoryReturn, halts := true }),
    (0xff, { simple .opSuicide 0 1 0 with
      dynamicGas := some .gasSelfdestruct, halts := true, writes := true })] ++
  pushes ++ dups ++ swaps ++ logs

def homesteadInstructionSet : JumpTable :=
  frontierInstructionSet.set DELEGATECALL
    { calling .opDelegateCall 40 6 1 with
      dynamicGas := some .gasDelegateCall, memorySize := some memoryDelegateCall }

def tangerineWhistleInstructionSet : JumpTable :=
  homesteadInstructionSet
    |>.modify BALANCE (fun o => { o with constantGas := 400 })
    |>.modify EXTCODESIZE (fun o => { o with constantGas := 700 })
    |>.modify SLOAD (fun o => { o with constantGas := 200 })
    |>.modify EXTCODECOPY (fun o => { o with constantGas := 700 })
    |>.modify CALL (fun o => { o with constantGas := 700 })
    |>.modify CALLCODE (fun o => { o with constantGas := 700 })
    |>.modify DELEGATECALL (fun o => { o with constantGas := 700 })

def spuriousDragonInstructionSet : JumpTable :=
  tangerineWhistleInstructionSet.modify EXP fun o => { o with dynamicGas := some .gasExpEIP158 }

def byzantiumInstructionSet : JumpTable :=
  spuriousDragonInstructionSet
    |>.set 0xfa { calling .opStaticCall 700 6 1 with
      dynamicGas := some .gasStaticCall, memorySize := some memoryStaticCall }
    |>.set 0x3d (simple (.pushed .opReturnDataSize) GasQuickStep 0 1)
    |>.set 0x3e { simple (.copied .opReturnDataCopy) GasFastestStep 3 0 with
      dynamicGas := some (.memoryCopierGas 2), memorySize := some memoryReturnDataCopy }
    |>.set 0xfd { simple .opRevert 0 2 0 with
      dynamicGas := some .pureMemoryGascost, memorySize := some memoryRevert
      reverts := true, returns := true }

def constantinopleInstructionSet : JumpTable :=
  byzantiumInstructionSet
    |>.set 0x1b (simple (.binary .opSHL) GasFastestStep 2 1)
    |>.set 0x1c (simple (.binary .opSHR) GasFastestStep 2 1)
    |>.set 0x1d (simple (.binary .opSAR) GasFastestStep 2 1)
    |>.set EXTCODEHASH (simple (.loaded .opExtCodeHash) 400 1 1)
    |>.set 0xf5 { calling .opCreate2 32000 4 1 with
      dynamicGas := some .gasCreate2, memorySize := some memoryCreate2
      writes := true }

def enable1344 (jt : JumpTable) : JumpTable :=
  jt.set 0x46 (simple (.pushed .opChainID) GasQuickStep 0 1)

def enable1884 (jt : JumpTable) : JumpTable :=
  jt.modify SLOAD (fun o => { o with constantGas := 800 })
    |>.modify BALANCE (fun o => { o with constantGas := 700 })
    |>.modify EXTCODEHASH (fun o => { o with constantGas := 700 })
    |>.set 0x47 (simple (.pushed .opSelfBalance) GasFastStep 0 1)

def enable2200 (jt : JumpTable) : JumpTable :=
  jt.modify SLOAD (fun o => { o with constantGas := 800 })
    |>.modify SSTORE (fun o => { o with dynamicGas := some .gasSStoreEIP2200 })

def enable2315 (jt : JumpTable) : JumpTable :=
  jt.set 0x5c (simple .opBeginSub GasQuickStep 0 0)
    |>.set 0x5e { simple .opJumpSub GasSlowStep 1 0 with jumps := true }
    |>.set 0x5d { simple .opReturnSub GasFastStep 0 0 with jumps := true }

def istanbulInstructionSet : JumpTable :=
  enable2200 (enable1884 (enable1344 constantinopleInstructionSet))

/-- `newYoloV1InstructionSet` -/
def yoloV1InstructionSet : JumpTable := enable2315 istanbulInstructionSet

/-- The instruction set `NewEVMInterpreter` chooses for the rules. -/
def jumpTable (rules : Rules) : JumpTable :=
  if rules.IsYoloV1 then yoloV1InstructionSet
  else if rules.IsIstanbul then istanbulInstructionSet
  else if rules.IsConstantinople then constantinopleInstructionSet
  else if rules.IsByzantium then byzantiumInstructionSet
  else if rules.IsEIP158 then spuriousDragonInstructionSet
  else if rules.IsEIP150 then tangerineWhistleInstructionSet
  else if rules.IsHomestead then homesteadInstructionSet
  else frontierInstructionSet

def instructionSets : List JumpTable :=
  [frontierInstructionSet, homesteadInstructionSet, tangerineWhistleInstructionSet,
    spuriousDragonInstructionSet, byzantiumInstructionSet, constantinopleInstructionSet,
    istanbulInstructionSet, yoloV1InstructionSet]

theorem jumpTable_mem (rules : Rules) : jumpTable rules ∈ instructionSets := by
  unfold jumpTable instructionSets
  repeat' split
  all_goals simp only [List.mem_cons, true_or, or_true]

end MxtChain.Vm
