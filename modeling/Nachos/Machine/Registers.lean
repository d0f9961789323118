import Mathlib.Logic.Function.Basic
import Mathlib.Tactic.Common

/-!
# The registers of the simulated machine

`Machine::registers`, with the numbers of the special ones, and `DelayedLoad`. A load has
been delayed when `LoadReg` names a register; register 0 stands for none, as it is set back
to 0 each time.
-/

namespace Nachos.Machine

def numGPRegs : ℕ := 32

def numTotalRegs : ℕ := 40

/-- `registers`. -/
abbrev Registers := Fin numTotalRegs → BitVec 32

/-- The number of a register. -/
abbrev Reg := Fin numTotalRegs

def zeroReg : Reg := (0 : Fin 40)
def resultReg : Reg := (2 : Fin 40)
def stackReg : Reg := (29 : Fin 40)
def retAddrReg : Reg := (31 : Fin 40)
def hiReg : Reg := (32 : Fin 40)
def loReg : Reg := (33 : Fin 40)
def pcReg : Reg := (34 : Fin 40)
def nextPCReg : Reg := (35 : Fin 40)
def prevPCReg : Reg := (36 : Fin 40)
/-- The target register of a delayed load. -/
def loadReg : Reg := (37 : Fin 40)
/-- The value to be loaded by a delayed load. -/
def loadValueReg : Reg := (38 : Fin 40)
def badVAddrReg : Reg := (39 : Fin 40)

namespace Registers

/-- The constructor of `Machine`. -/
def create : Registers := fun _ => 0

/-- `registers[number] = value`, where the number is a value of the machine's own. -/
def store (r : Registers) (number value : BitVec 32) : Registers :=
  fun reg => if reg.val = number.toNat then value else r reg

/-- `DelayedLoad`. -/
def delayedLoad (r : Registers) (nextReg nextValue : BitVec 32) : Registers :=
  let r := r.store (r loadReg) (r loadValueReg)
  let r := Function.update r loadReg nextReg
  let r := Function.update r loadValueReg nextValue
  Function.update r zeroReg 0

/-- No load is delayed. -/
structure Settled (r : Registers) : Prop where
  loadReg : r loadReg = 0
  loadValue : r loadValueReg = 0
  zero : r zeroReg = 0

theorem create_settled : Settled create := ⟨rfl, rfl, rfl⟩

theorem delayedLoad_settled (r : Registers) : Settled (r.delayedLoad 0 0) := ⟨rfl, rfl, rfl⟩

/-- Then there is nothing to finish. -/
theorem Settled.delayedLoad {r : Registers} (h : Settled r) : r.delayedLoad 0 0 = r := by
  have hstore : r.store (r Machine.loadReg) (r loadValueReg) = r := by
    funext reg
    unfold store
    split
    · rename_i hreg
      rw [h.loadReg] at hreg
      have hzero : reg = zeroReg := Fin.ext hreg
      rw [hzero, h.zero, h.loadValue]
    · rfl
  unfold Registers.delayedLoad
  rw [hstore]
  funext reg
  simp only [Function.update_apply]
  split
  · rename_i hreg
    rw [hreg, h.zero]
  · split
    · rename_i hreg
      rw [hreg, h.loadValue]
    · split
      · rename_i hreg
        rw [hreg, h.loadReg]
      · rfl

/-- What is written elsewhere leaves it so. -/
theorem Settled.update {r : Registers} (h : Settled r) {reg : Reg} (value : BitVec 32)
    (hreg : reg ∉ [zeroReg, Machine.loadReg, loadValueReg]) :
    Settled (Function.update r reg value) := by
  simp only [List.mem_cons, List.not_mem_nil, or_false, not_or] at hreg
  refine ⟨?_, ?_, ?_⟩
  · rw [Function.update_of_ne (Ne.symm hreg.2.1), h.loadReg]
  · rw [Function.update_of_ne (Ne.symm hreg.2.2), h.loadValue]
  · rw [Function.update_of_ne (Ne.symm hreg.1), h.zero]

end Registers

end Nachos.Machine
