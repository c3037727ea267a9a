/-
# MxtChain.Vm.RefundWrap — the refund counter can wrap around.

`AddRefund` adds 64-bit words. A contract that clears so many slots that the sum passes 2⁶⁴ leaves
the counter at a small number, and writing to one of the slots again asks back more than that. The
code below clears 1229782938247304 slots in a loop; its gas fits in 64 bits.
-/
import MxtChain.Vm.StatePanic

namespace MxtChain.Vm

open State Lib Word

/-! ## §1 — Running forward -/

section Forward

variable {C : Type} [CodeHash C] [DecidableEq C] {env : Env C} {m m' m'' : Machine C} {f f' : Frame}

/-- An instruction that has been paid for is executed. -/
theorem step_instr {c : Charged} {contract : Contract} {op : Instr} {e : Effect}
    (hc : charge env m f = .ok c)
    (hops : { m with callGasTemp := c.gas.callGasTemp }.apply c.gas.ops = .ok m')
    (hgas : c.contract.UseGas c.gas.cost = some contract) (hop : c.operation.execute = .instr op)
    (hrun : op.run env m' contract { f.regs with memory := c.gas.memory.Resize c.memorySize } =
      .ok e)
    (hm : m'.apply e.ops = .ok m'') :
    step env m f = .ok (finish c.operation { m'' with destroyed := m''.destroyed + e.destroyed }
      { contract, regs := e.regs } e.res) := by
  unfold step
  rw [hc]
  change paid env m f c = _
  unfold paid
  rw [hops]
  dsimp only [bind, Except.bind]
  rw [hgas]
  change executed env c.operation m' _ = _
  unfold executed
  rw [hop]
  dsimp only
  rw [hrun]
  dsimp only
  rw [hm]
  rfl

theorem loop_next {n : Nat} (h : step env m f = .ok (.next m' f')) :
    loop env (n + 1) m f = loop env n m' f' := by
  have hturn : turn (Run (loop env n)) env m f = .ok (.next m' f') := by
    unfold turn
    rw [h]
    rfl
  rw [loop, hturn]
  rfl

theorem loop_crash {n : Nat} {e : Crash} (h : step env m f = .error e) :
    loop env (n + 1) m f = .error e := by
  have hturn : turn (Run (loop env n)) env m f = .error e := by
    unfold turn
    rw [h]
    rfl
  rw [loop, hturn]
  rfl

end Forward

/-! ## §2 — The code -/

/-- Net metering by EIP 1283. -/
def netRules : Rules :=
  { IsHomestead := true, IsEIP150 := true, IsEIP158 := true, IsByzantium := true,
    IsConstantinople := true }

def clearedSlots : Nat := 1229782938247304

/-- Clear the slots from the last to the first, and write to the first again. -/
def clearingCode : Bytes :=
  [ -- PUSH7 clearedSlots
    0x66, 0x04, 0x5e, 0x7b, 0x27, 0x2f, 0x60, 0x88,
    -- JUMPDEST, PUSH1 0, DUP2, SSTORE
    0x5b, 0x60, 0x00, 0x81, 0x55,
    -- PUSH1 1, SWAP1, SUB, DUP1, PUSH1 8, JUMPI
    0x60, 0x01, 0x90, 0x03, 0x80, 0x60, 0x08, 0x57,
    -- PUSH1 2, PUSH1 1, SSTORE
    0x60, 0x02, 0x60, 0x01, 0x55]

/-- The account with the code. -/
def clearer : Address := Address.ofBytes [7]

/-- The machine in the frame of the code. -/
def clearing (l : World.Session Bytes) : Machine Bytes := { session := l, depth := 1 }

/-- The frame of the code. -/
def clearingAt (pc : Nat) (stack : Stack) (gas : Nat) : Frame where
  contract :=
    { CallerAddress := default, self := clearer, Code := clearingCode, Gas := gas, value := 0 }
  regs := { pc, stack }

/-- One turn of the code. -/
def Turn (l : World.Session Bytes) (pc : Nat) (stack : Stack) (gas : Nat)
    (l' : World.Session Bytes) (pc' : Nat) (stack' : Stack) (gas' : Nat) : Prop :=
  step (sampleEnv netRules) (clearing l) (clearingAt pc stack gas) =
    .ok (.next (clearing l') (clearingAt pc' stack' gas'))

/-- The code from a program counter on. -/
abbrev runFrom (n : Nat) (l : World.Session Bytes) (pc : Nat) (stack : Stack) (gas : Nat) :
    Except Crash (Done Bytes) :=
  loop (sampleEnv netRules) n (clearing l) (clearingAt pc stack gas)

/-- The word of a counter. -/
def counted (i : Nat) : Word := BitVec.ofNat 256 i

/-- The value of a slot that has not been cleared. -/
def filled : Hash := toHash 1

theorem toHash_zero : toHash 0 = Hash.zero := by decide

theorem counted_sub (i : Nat) : counted (i + 1) - 1 = counted i := by
  unfold counted
  rw [BitVec.ofNat_add]
  exact BitVec.add_sub_cancel _ _

theorem toHash_counted_inj {i j : Nat} (hi : i < 2 ^ 256) (hj : j < 2 ^ 256)
    (h : toHash (counted i) = toHash (counted j)) : i = j := by
  have h := congrArg BitVec.toNat (toHash_injective h)
  rwa [counted, counted, BitVec.toNat_ofNat, BitVec.toNat_ofNat, Nat.mod_eq_of_lt hi,
    Nat.mod_eq_of_lt hj] at h

theorem counted_ne_zero {i : Nat} (h0 : i ≠ 0) (hi : i < 2 ^ 256) : counted i ≠ 0 := by
  intro h
  have h := congrArg BitVec.toNat h
  rw [counted, BitVec.toNat_ofNat, Nat.mod_eq_of_lt hi] at h
  exact h0 h

/-! ## §3 — Its turns -/

section Turns

variable (l : World.Session Bytes) (g : Nat) (x y z : Word) {n pc i fuel gas : Nat}

theorem step_count : Turn l 0 [] (g + 3) l 8 [counted clearedSlots] g := rfl

theorem step_jumpdest : Turn l 8 [x] (g + 1) l 9 [x] g := rfl

theorem step_value : Turn l 9 [x] (g + 3) l 11 [0, x] g := rfl

theorem step_slot : Turn l 11 [y, x] (g + 3) l 12 [x, y, x] g := rfl

theorem step_one : Turn l 13 [x] (g + 3) l 15 [1, x] g := rfl

theorem step_swap : Turn l 15 [y, x] (g + 3) l 16 [x, y] g := rfl

theorem step_sub : Turn l 16 [x, y] (g + 3) l 17 [x - y] g := rfl

theorem step_copy : Turn l 17 [x] (g + 3) l 18 [x, x] g := rfl

theorem step_target : Turn l 18 [x, y] (g + 3) l 20 [8, x, y] g := rfl

theorem step_two : Turn l 21 [x] (g + 3) l 23 [2, x] g := rfl

theorem step_first : Turn l 23 [y, x] (g + 3) l 25 [1, y, x] g := rfl

def storeOperation : Operation :=
  { simple .opSstore 0 2 0 with dynamicGas := some .gasSStore, writes := true }

/-- The net price of a store. -/
def storePrice : Nat × List Op :=
  netGasEIP1283.price (slotOf l.world (clearer, toHash x)).1
    (slotOf l.world (clearer, toHash x)).2 (toHash y)

theorem charge_store (hpc : pc = 12 ∨ pc = 25) :
    charge (sampleEnv netRules) (clearing l) (clearingAt pc [x, y, z] g) =
      .ok ⟨storeOperation, (clearingAt pc [x, y, z] g).contract, 0,
        ⟨(storePrice l x y).1, {}, 0, (storePrice l x y).2⟩⟩ := by
  rcases hpc with rfl | rfl <;> rfl

theorem step_clear (h : slotOf l.world (clearer, toHash x) = (filled, filled)) :
    ∃ l', Turn l 12 [x, 0, z] (g + 5000) l' 13 [z] g ∧ l'.world.refund = l.world.refund + 15000 ∧
      slotOf l'.world =
        Function.update (slotOf l.world) (clearer, toHash x) (filled, Hash.zero) := by
  have hprice : storePrice l x 0 = (5000, [.addRefund 15000]) := by
    rw [storePrice, h]
    rfl
  let l1 : World.Session Bytes :=
    { l with world := { l.world with refund := l.world.refund + 15000 } }
  obtain ⟨l', hl'⟩ := @step_surely Bytes _ _ (.setState clearer (toHash x) (toHash 0)) l1 rfl
  have hw : l1.world.apply (.setState clearer (toHash x) (toHash 0)) = some l'.world := by
    rw [step_eq_of_plain l1 rfl] at hl'
    obtain ⟨w, hw, rfl⟩ := Option.map_eq_some_iff.mp hl'
    exact hw
  have happly : (clearing l1).apply [.setState clearer (toHash x) (toHash 0)] =
      .ok (clearing l') := by
    refine apply_eq_ok.mpr ⟨l', ?_, rfl⟩
    exact Option.bind_eq_some_iff.mpr ⟨l', hl', rfl⟩
  have hgas : (clearingAt 12 [x, 0, z] (g + 5000)).contract.UseGas 5000 =
      some (clearingAt 13 [z] g).contract := by
    unfold Contract.UseGas
    rw [if_neg (by change ¬ g + 5000 < 5000; omega)]
    change some { (clearingAt 13 [z] g).contract with Gas := g + 5000 - 5000 } = _
    rw [Nat.add_sub_cancel]
    rfl
  refine ⟨l', ?_, ?_, ?_⟩
  · have hcharge := charge_store l (g + 5000) x 0 z (.inl rfl : (12 = 12 ∨ 12 = 25))
    rw [hprice] at hcharge
    exact step_instr hcharge (rfl : _ = Except.ok (clearing l1)) hgas rfl rfl happly
  · exact (sameBeside_of_apply (.inl rfl) hw).refund
  · rw [slotOf_setState hw, slotOf_refund l.world (l.world.refund + 15000), h, toHash_zero]

/-- Writing to a cleared slot panics if the counter is too low. -/
theorem step_refill (h : slotOf l.world (clearer, toHash 1) = (filled, Hash.zero))
    (hlow : l.world.refund < 15000) :
    step (sampleEnv netRules) (clearing l) (clearingAt 25 [1, 2, z] g) = .error .statePanic := by
  have hprice : storePrice l 1 2 = (200, [.subRefund 15000]) := by
    rw [storePrice, h]
    rfl
  have hcharge := charge_store l g 1 2 z (.inr rfl : (25 = 12 ∨ 25 = 25))
  rw [hprice] at hcharge
  have happly : (clearing l).apply [.subRefund 15000] = .error .statePanic := by
    have hstep : l.step (.subRefund 15000) = none := by
      rw [step_eq_of_plain l rfl, World.apply, if_pos hlow]
      rfl
    have hrun : (clearing l).session.run [.subRefund 15000] = none :=
      Option.bind_eq_none_iff.mpr fun l' hl' => absurd (hstep.symm.trans hl') (by simp)
    unfold Machine.apply
    rw [hrun]
  unfold step
  rw [hcharge]
  change ((clearing l).apply [.subRefund 15000]).bind _ = _
  rw [happly]
  rfl

/-- The jump back, as long as the counter is not zero. -/
theorem step_again (hx : x ≠ 0) : Turn l 20 [8, x, y] (g + 10) l 8 [y] g := by
  have hcharge : charge (sampleEnv netRules) (clearing l) (clearingAt 20 [8, x, y] (g + 10)) =
      .ok ⟨{ simple .opJumpi GasSlowStep 2 0 with jumps := true },
        (clearingAt 8 [y] g).contract, 0, ⟨0, {}, 0, []⟩⟩ := rfl
  have hrun : Instr.opJumpi.run (sampleEnv netRules) (clearing l) (clearingAt 8 [y] g).contract
      (clearingAt 20 [8, x, y] g).regs = .ok { regs := (clearingAt 8 [y] g).regs } :=
    if_pos hx
  have happly : (clearing l).apply [] = .ok (clearing l) := rfl
  exact step_instr hcharge happly rfl rfl hrun happly

theorem round (hi : i + 1 < 2 ^ 256)
    (h : slotOf l.world (clearer, toHash (counted (i + 1))) = (filled, filled)) :
    ∃ l', runFrom (n + 10) l 8 [counted (i + 1)] (g + 5032) =
        runFrom n l' (if i = 0 then 21 else 8) [counted i] g ∧
      l'.world.refund = l.world.refund + 15000 ∧
      slotOf l'.world = Function.update (slotOf l.world)
        (clearer, toHash (counted (i + 1))) (filled, Hash.zero) := by
  obtain ⟨l', hstore, hrefund, hslots⟩ := step_clear l (g + 25) _ (counted (i + 1)) h
  refine ⟨l', ?_, hrefund, hslots⟩
  have hjump : Turn l' 20 [8, counted i, counted i] (g + 10)
      l' (if i = 0 then 21 else 8) [counted i] g := by
    by_cases h0 : i = 0
    · subst h0
      rfl
    · rw [if_neg h0]
      exact step_again l' g _ _ (counted_ne_zero h0 (by omega))
  calc runFrom (n + 10) l 8 [counted (i + 1)] (g + 5032)
      = runFrom (n + 9) l 9 [counted (i + 1)] (g + 5031) := loop_next (step_jumpdest ..)
    _ = runFrom (n + 8) l 11 [0, counted (i + 1)] (g + 5028) := loop_next (step_value ..)
    _ = runFrom (n + 7) l 12 [counted (i + 1), 0, counted (i + 1)] (g + 5025) :=
        loop_next (step_slot ..)
    _ = runFrom (n + 6) l' 13 [counted (i + 1)] (g + 25) := loop_next hstore
    _ = runFrom (n + 5) l' 15 [1, counted (i + 1)] (g + 22) := loop_next (step_one ..)
    _ = runFrom (n + 4) l' 16 [counted (i + 1), 1] (g + 19) := loop_next (step_swap ..)
    _ = runFrom (n + 3) l' 17 [counted i] (g + 16) := by
        rw [← counted_sub i]
        exact loop_next (step_sub ..)
    _ = runFrom (n + 2) l' 18 [counted i, counted i] (g + 13) := loop_next (step_copy ..)
    _ = runFrom (n + 1) l' 20 [8, counted i, counted i] (g + 10) := loop_next (step_target ..)
    _ = _ := loop_next hjump

/-- **The loop**: all slots are cleared and the counter has got a refund for each. -/
theorem rounds (i : Nat) : ∀ (l : World.Session Bytes), i + 1 < 2 ^ 256 → (∀ j, 1 ≤ j → j ≤ i + 1 →
      slotOf l.world (clearer, toHash (counted j)) = (filled, filled)) →
    ∃ l', runFrom (n + 10 * (i + 1)) l 8 [counted (i + 1)] (g + 5032 * (i + 1)) =
        runFrom n l' 21 [0] g ∧
      l'.world.refund = l.world.refund + 15000 * UInt64.ofNat (i + 1) ∧
      slotOf l'.world (clearer, toHash 1) = (filled, Hash.zero) := by
  induction i with
  | zero =>
    intro l hi h
    obtain ⟨l', hloop, hrefund, hslots⟩ := round l g hi (h 1 le_rfl le_rfl)
    refine ⟨l', hloop, hrefund, ?_⟩
    rw [hslots]
    exact Function.update_self _ _ _
  | succ i ih =>
    intro l hi h
    obtain ⟨l1, hloop, hrefund, hslots⟩ :=
      round l (g + 5032 * (i + 1)) (n := n + 10 * (i + 1)) hi (h (i + 2) (by omega) le_rfl)
    obtain ⟨l2, hloop2, hrefund2, hfirst⟩ := ih l1 (by omega) fun j h1 hj => by
      rw [hslots, Function.update_of_ne, h j h1 (by omega)]
      intro heq
      have := toHash_counted_inj (by omega) hi (Prod.mk.inj heq).2
      omega
    refine ⟨l2, ?_, ?_, hfirst⟩
    · have hfuel : n + 10 * (i + 1 + 1) = n + 10 * (i + 1) + 10 := by omega
      have hgas : g + 5032 * (i + 1 + 1) = g + 5032 * (i + 1) + 5032 := by omega
      rw [if_neg (by omega)] at hloop
      rw [hfuel, hgas, hloop, hloop2]
    · rw [hrefund2, hrefund, UInt64.add_assoc, UInt64.ofNat_add (i + 1) 1, UInt64.mul_add,
        UInt64.add_comm 15000]
      rfl

/-- **The whole code panics**, if the slots it clears are filled and the counter is zero. -/
theorem loop_clearing (hfuel : 4 + 10 * clearedSlots ≤ fuel)
    (hgas : 9 + 5032 * clearedSlots ≤ gas) (hrefund : l.world.refund = 0)
    (h : ∀ j, 1 ≤ j → j ≤ clearedSlots →
      slotOf l.world (clearer, toHash (counted j)) = (filled, filled)) :
    runFrom fuel l 0 [] gas = .error .statePanic := by
  obtain ⟨n, rfl⟩ := Nat.exists_eq_add_of_le hfuel
  obtain ⟨g, rfl⟩ := Nat.exists_eq_add_of_le hgas
  obtain ⟨l', hloop, hrefund', hslot⟩ := rounds (g + 6) (clearedSlots - 1) l (n := n + 3)
    (by decide) h
  have hcount : clearedSlots - 1 + 1 = clearedSlots := by decide
  rw [hcount] at hloop hrefund'
  have hlow : l'.world.refund = 8384 := by
    rw [hrefund', hrefund]
    decide
  have hturns : 4 + 10 * clearedSlots + n = n + 3 + 10 * clearedSlots + 1 := by omega
  have hprice : 9 + 5032 * clearedSlots + g = g + 6 + 5032 * clearedSlots + 3 := by omega
  rw [hturns, hprice]
  calc runFrom (n + 3 + 10 * clearedSlots + 1) l 0 [] (g + 6 + 5032 * clearedSlots + 3)
      = runFrom (n + 3) l' 21 [0] (g + 6) := (loop_next (step_count ..)).trans hloop
    _ = runFrom (n + 2) l' 23 [2, 0] (g + 3) := loop_next (step_two ..)
    _ = runFrom (n + 1) l' 25 [1, 2, 0] g := loop_next (step_first ..)
    _ = .error .statePanic := loop_crash (step_refill l' g 0 hslot (by rw [hlow]; decide))

end Turns

end MxtChain.Vm
