import Mathlib
import Nachos.Machine.Mipssim

/-!
# The end of an instruction

What an instruction assigns and the load that was on its way there, register by
register. The numbers below that of the program counter are those that a program
sees: the general registers, `Hi` and `Lo`.
-/

namespace Nachos.Machine

/-- What holds of the registers of a machine at any time. -/
structure Registers.Tidy (r : Registers) : Prop where
  zero : r zeroReg = 0
  load : (r loadReg).toNat < numGPRegs

/-- A register once the load that was on its way has arrived. -/
def arrived (r : Registers) (reg : Reg) : Word :=
  if reg.val = (r loadReg).toNat then r loadValueReg else r reg

/-- What an instruction assigns, to registers that a program sees, and the load that it
delays, for one of the general ones. -/
structure Effect.WellFormed (e : Effect) : Prop where
  visible : ∀ w ∈ e.writes, w.1 < pcReg
  nodup : (e.writes.map Prod.fst).Nodup
  load : e.nextLoadReg.toNat < numGPRegs

/-- The registers after the assignments. -/
def Effect.assign (e : Effect) (r : Registers) : Registers :=
  e.writes.foldl (fun r w => Function.update r w.1 w.2) r

/-! ## Assignments -/

theorem lookup_iff_mem {γ : Type*} {l : List (Reg × γ)} (h : (l.map Prod.fst).Nodup)
    {reg : Reg} {x : γ} : l.lookup reg = some x ↔ (reg, x) ∈ l := by
  induction l with
  | nil => simp
  | cons w l ih =>
      obtain ⟨hnot, hrest⟩ := List.nodup_cons.1 h
      rw [List.lookup_cons, List.mem_cons]
      by_cases heq : reg = w.1
      · have hmem : (reg, x) ∉ l := fun hmem =>
          hnot (List.mem_map.2 ⟨_, hmem, heq⟩)
        rw [heq, beq_self_eq_true, or_iff_left (heq ▸ hmem)]
        simp [Prod.ext_iff, eq_comm]
      · rw [beq_eq_false_iff_ne.2 heq, ih hrest, or_iff_right]
        rintro rfl
        exact heq rfl

theorem lookup_eq_none {γ : Type*} {l : List (Reg × γ)} {reg : Reg} :
    l.lookup reg = none ↔ reg ∉ l.map Prod.fst := by
  rw [List.lookup_eq_none_iff, List.mem_map]
  simp only [bne_iff_ne, not_exists, not_and]
  exact forall₂_congr fun w _ => ne_comm

theorem foldl_update {ws : List (Reg × Word)} (hnodup : (ws.map Prod.fst).Nodup)
    (r : Registers) (reg : Reg) :
    (ws.foldl (fun r w => Function.update r w.1 w.2) r : Registers) reg =
      (ws.lookup reg).getD (r reg) := by
  induction ws generalizing r with
  | nil => rfl
  | cons w ws ih =>
      obtain ⟨hnot, hrest⟩ := List.nodup_cons.1 hnodup
      rw [List.foldl_cons, ih hrest, List.lookup_cons]
      by_cases h : reg = w.1
      · rw [lookup_eq_none.2 (h ▸ hnot), h, Function.update_self, beq_self_eq_true]
        rfl
      · rw [Function.update_of_ne h, beq_eq_false_iff_ne.2 h]

theorem Effect.WellFormed.assign_apply {e : Effect} (h : e.WellFormed) (r : Registers)
    (reg : Reg) : e.assign r reg = (e.writes.lookup reg).getD (r reg) :=
  foldl_update h.nodup r reg

/-- The special registers are not assigned. -/
theorem Effect.WellFormed.assign_special {e : Effect} (h : e.WellFormed) (r : Registers)
    {reg : Reg} (hreg : pcReg ≤ reg) : e.assign r reg = r reg := by
  have hnot : reg ∉ e.writes.map Prod.fst := by
    rintro hmem
    obtain ⟨w, hw, rfl⟩ := List.mem_map.1 hmem
    exact absurd (h.visible w hw) (Fin.not_lt.2 hreg)
  rw [h.assign_apply, lookup_eq_none.2 hnot]
  rfl

/-! ## Delayed loads -/

theorem ne_special {reg special : Reg} (hreg : reg < pcReg) (hspecial : pcReg ≤ special) :
    reg ≠ special := by
  rintro rfl
  exact absurd hreg (Fin.not_lt.2 hspecial)

/-- A register that a program sees has its load. -/
theorem delayedLoad_apply {r : Registers} {reg : Reg} (hreg : reg < pcReg)
    (hzero : reg ≠ zeroReg) (nextReg nextValue : Word) :
    r.delayedLoad nextReg nextValue reg = arrived r reg := by
  unfold Registers.delayedLoad
  rw [Function.update_of_ne hzero, Function.update_of_ne (ne_special hreg (by decide)),
    Function.update_of_ne (ne_special hreg (by decide))]
  rfl

/-- The special registers are out of a load's reach. -/
theorem delayedLoad_special {r : Registers} (h : (r loadReg).toNat < numGPRegs) {reg : Reg}
    (hlow : pcReg ≤ reg) (hload : reg ≠ loadReg) (hvalue : reg ≠ loadValueReg)
    (nextReg nextValue : Word) : r.delayedLoad nextReg nextValue reg = r reg := by
  have hge : 34 ≤ reg.val := hlow
  have hzero : reg ≠ zeroReg := by
    rintro rfl
    exact absurd hge (by decide)
  have hne : reg.val ≠ (r loadReg).toNat := by
    have hgeneral : (r loadReg).toNat < 32 := h
    omega
  unfold Registers.delayedLoad
  rw [Function.update_of_ne hzero, Function.update_of_ne hvalue, Function.update_of_ne hload]
  exact if_neg hne

/-! ## The end of `OneInstruction` -/

theorem finish_zero (r : Registers) (e : Effect) : finish r e zeroReg = 0 := rfl

theorem finish_tidy (r : Registers) {e : Effect} (h : e.WellFormed) : (finish r e).Tidy :=
  ⟨rfl, h.load⟩

section Finish

variable {r : Registers} {e : Effect} (h : e.WellFormed)

include h

theorem finish_pc (hload : (r loadReg).toNat < numGPRegs) :
    finish r e pcReg = r nextPCReg := by
  have hassigned : (e.assign r loadReg).toNat < numGPRegs := by
    rw [h.assign_special r (by decide)]
    exact hload
  calc finish r e pcReg
      = (e.assign r).delayedLoad e.nextLoadReg e.nextLoadValue nextPCReg := rfl
    _ = e.assign r nextPCReg :=
        delayedLoad_special hassigned (by decide) (by decide) (by decide) _ _
    _ = r nextPCReg := h.assign_special r (by decide)

/-- A load that was on its way arrives after the assignments. -/
theorem finish_apply {reg : Reg} (hreg : reg < pcReg) (hzero : reg ≠ zeroReg) :
    finish r e reg =
      if reg.val = (r loadReg).toNat then r loadValueReg
      else (e.writes.lookup reg).getD (r reg) := by
  have hdelayed : finish r e reg =
      (e.assign r).delayedLoad e.nextLoadReg e.nextLoadValue reg := by
    unfold finish
    rw [Function.update_of_ne (ne_special hreg (by decide)),
      Function.update_of_ne (ne_special hreg (by decide)),
      Function.update_of_ne (ne_special hreg (by decide))]
    rfl
  rw [hdelayed, delayedLoad_apply hreg hzero, arrived, h.assign_special r (by decide),
    h.assign_special r (by decide), h.assign_apply]

end Finish

/-! ## The start of an exception -/

/-- **An exception changes no register that a program sees**, once its load has arrived. -/
theorem raiseException_apply {r : Registers} {reg : Reg} (hreg : reg < pcReg)
    (hzero : reg ≠ zeroReg) (badVAddr : Word) :
    raiseException r badVAddr reg = arrived r reg := by
  have hbad : ∀ special : Reg, special ≠ badVAddrReg →
      Function.update r badVAddrReg badVAddr special = r special :=
    fun _ h => Function.update_of_ne h ..
  unfold raiseException
  rw [delayedLoad_apply hreg hzero, arrived, arrived, hbad _ (by decide), hbad _ (by decide),
    hbad _ (ne_special hreg (by decide))]

theorem raiseException_special {r : Registers} (h : (r loadReg).toNat < numGPRegs)
    {reg : Reg} (hlow : pcReg ≤ reg) (hhigh : reg < loadReg) (badVAddr : Word) :
    raiseException r badVAddr reg = r reg := by
  have hne : ∀ special : Reg, loadReg ≤ special → reg ≠ special := by
    rintro special hspecial rfl
    exact absurd hhigh (Fin.not_lt.2 hspecial)
  unfold raiseException
  rw [delayedLoad_special _ hlow (hne _ (by decide)) (hne _ (by decide)),
    Function.update_of_ne (hne _ (by decide))]
  rw [Function.update_of_ne (by decide)]
  exact h

/-! ## One word -/

/-- A machine about to fetch its first word, with two operands. -/
def operands (a b : Word) : Registers :=
  (Registers.create.store 1 a).store 2 b

def oneWord (w : Word) : Memory := Memory.store (fun _ => 0) 0 4 w

end Nachos.Machine
