import Nachos.Lib.Run
import Nachos.Machine.Manual

/-!
# Faults and interrupts are not seen by user code

An access that is not translated raises a page fault. The exception finishes a delayed load,
the handler repairs the translation and touches neither the registers nor the memory of the
process, and the instruction is executed again. A device interrupt between two instructions
finishes a delayed load, too.

So a load may arrive one instruction early. A program does not see it when the instruction in
the delay slot neither reads the target of the load nor assigns it; that `LWR` merges with the
load that is on its way is no reading.
-/

namespace Nachos.Machine

open Nachos.Lib

/-! ## The target of a load in its delay slot -/

/-- The general registers that the code of an instruction reads. That the old value which `LWR`
merges with stands in `rt` is left out. -/
def Instruction.reads (i : Instruction) : List (Fin numGPRegs) :=
  match i.opCode with
  | .add | .addu | .and | .beq | .bne | .div | .divu | .mult | .multu | .nor | .sllv | .slt
  | .sltu | .srav | .srlv | .sub | .subu | .xor | .sb | .sh | .sw | .swl | .swr => [i.rs, i.rt]
  | .addi | .addiu | .andi | .bgez | .bgezal | .bgtz | .blez | .bltz | .bltzal | .jalr | .jr
  | .lb | .lbu | .lh | .lhu | .lw | .lwl | .lwr | .mthi | .mtlo | .or | .ori | .slti | .sltiu
  | .xori => [i.rs]
  | .sll | .sra | .srl => [i.rt]
  | .j | .jal | .lui | .mfhi | .mflo | .syscall | .res | .unimp => []

/-- The general registers that it assigns at once. -/
def Instruction.assigns (i : Instruction) : List (Fin numGPRegs) :=
  match i.opCode with
  | .add | .addu | .and | .jalr | .mfhi | .mflo | .nor | .or | .sll | .sllv | .slt | .sltu | .sra
  | .srav | .srl | .srlv | .sub | .subu | .xor => [i.rd]
  | .addi | .addiu | .andi | .lui | .ori | .slti | .sltiu | .xori => [i.rt]
  | .bgezal | .bltzal | .jal => [ra]
  | _ => []

/-! ## The machine -/

/-- The machine as a process sees it. -/
structure Processor where
  registers : Registers
  memory : Memory

/-- `ExceptionHandler`, but for page faults. -/
abbrev Handler := ExceptionType → Processor → Option Processor

/-- The translation with some pages missing. -/
def missing (misses : Access → Word → Bool) (mapped : Translation) : Translation :=
  fun access addr size =>
    if misses access addr then .error (.raise .pageFault addr) else mapped access addr size

inductive Occurrence where
  /-- `OneInstruction`, with the accesses that are not translated. -/
  | instruction (misses : Access → Word → Bool)
  /-- `CheckIfDue`, when an interrupt is due. -/
  | interrupt

section Steps

variable (handler : Handler) (mapped : Translation)

/-- What comes of `OneInstruction`, and whether the program goes on. -/
def resume : Outcome → Option (Processor × Bool)
  | .completed r m => some (⟨r, m⟩, true)
  | .raised which r m =>
      if which = .pageFault then some (⟨r, m⟩, false)
      else (handler which ⟨r, m⟩).map fun s => (s, true)
  | .aborted => none

namespace Processor

def step (s : Processor) : Occurrence → Option (Processor × Bool)
  | .instruction misses =>
      resume handler (oneInstruction (missing misses mapped) s.registers s.memory)
  | .interrupt => some (⟨s.registers.delayedLoad 0 0, s.memory⟩, false)

/-- The next instruction, when every access is translated. -/
def next (s : Processor) : Option Processor :=
  match s.step handler mapped (.instruction fun _ _ => false) with
  | some (s', true) => some s'
  | _ => none

/-- The run without faults and interrupts. -/
def cleanRun (boot : Processor) : ℕ → Option Processor
  | 0 => some boot
  | n + 1 => (cleanRun boot n).bind (next handler mapped)

/-- The instruction to come leaves the target of a load that is on its way alone. -/
def SlotFree (s : Processor) : Prop :=
  s.registers loadReg = 0 ∨
    match readMem mapped .fetch s.memory (s.registers pcReg) 4 with
    | .ok w => ∀ n ∈ (decode w).reads ++ (decode w).assigns, regNumber n ≠ s.registers loadReg
    | .error _ => True

instance (s : Processor) : Decidable (s.SlotFree mapped) := by
  unfold SlotFree
  split <;> infer_instance

/-- The same memory, and the same registers with what has been delayed. -/
structure Same (s c : Processor) : Prop where
  memory : s.memory = c.memory
  registers : ∀ reg, reg ≠ badVAddrReg →
    s.registers.delayedLoad 0 0 reg = c.registers.delayedLoad 0 0 reg

end Processor

end Steps

/-! ## Missing translations -/

/-- An access is as it is without faults, or raises a page fault. -/
def OrFault {α : Type} (result clean : Except Trap α) : Prop :=
  result = clean ∨ ∃ addr, result = .error (.raise .pageFault addr)

section Missing

variable (misses : Access → Word → Bool) (mapped : Translation) (m : Memory) (addr : Word)
  (size : ℕ)

theorem translate_missing (access : Access) :
    OrFault (translate (missing misses mapped) access addr size)
      (translate mapped access addr size) := by
  unfold translate missing
  split
  · exact .inl rfl
  · split
    · exact .inr ⟨addr, rfl⟩
    · exact .inl rfl

theorem readMem_missing (access : Access) :
    OrFault (readMem (missing misses mapped) access m addr size)
      (readMem mapped access m addr size) := by
  unfold readMem
  rcases translate_missing misses mapped addr size access with h | ⟨a, h⟩
  · exact .inl (by rw [h])
  · exact .inr ⟨a, by rw [h]; rfl⟩

theorem writeMem_missing (value : Word) :
    OrFault (writeMem (missing misses mapped) m addr size value)
      (writeMem mapped m addr size value) := by
  unfold writeMem
  rcases translate_missing misses mapped addr size .write with h | ⟨a, h⟩
  · exact .inl (by rw [h])
  · exact .inr ⟨a, by rw [h]; rfl⟩

end Missing

/-- **An instruction is executed as without faults, or it raises a page fault** and has done
nothing yet. -/
theorem execute_missing (misses : Access → Word → Bool) (mapped : Translation) (i : Instruction)
    (r : Registers) (m : Memory) :
    OrFault (execute i (missing misses mapped) r m) (execute i mapped r m) := by
  obtain ⟨op, rs, rt, rd, extra⟩ := i
  cases op with
  | lb | lbu =>
      rcases readMem_missing misses mapped m (r (gpr rs) + extra) 1 .read with h | ⟨a, h⟩
      · exact .inl (by simp only [execute, h])
      · exact .inr ⟨a, by simp only [execute, h]⟩
  | lh | lhu =>
      rcases readMem_missing misses mapped m (r (gpr rs) + extra) 2 .read with h | ⟨a, h⟩
      · exact .inl (by simp only [execute, h])
      · simp only [execute, h]
        split
        · exact .inl rfl
        · exact .inr ⟨a, rfl⟩
  | lw | lwl | lwr =>
      rcases readMem_missing misses mapped m (r (gpr rs) + extra) 4 .read with h | ⟨a, h⟩
      · exact .inl (by simp only [execute, h])
      · simp only [execute, h]
        split
        · exact .inl rfl
        · exact .inr ⟨a, rfl⟩
  | sb | sh | sw =>
      have hwrite := fun size =>
        writeMem_missing misses mapped m (r (gpr rs) + extra) size (r (gpr rt))
      simp only [execute]
      rcases hwrite _ with h | ⟨a, h⟩
      · exact .inl (by rw [h])
      · exact .inr ⟨a, by rw [h]⟩
  | swl | swr =>
      rcases readMem_missing misses mapped m (r (gpr rs) + extra) 4 .read with h | ⟨a, h⟩
      · simp only [execute, h]
        split
        · exact .inl rfl
        · split
          · rename_i value hvalue
            rcases writeMem_missing misses mapped m (r (gpr rs) + extra) 4 _ with hw | ⟨a, hw⟩
            · exact .inl (by rw [hw])
            · exact .inr ⟨a, by rw [hw]⟩
          · exact .inl rfl
      · simp only [execute, h]
        split
        · exact .inl rfl
        · exact .inr ⟨a, rfl⟩
  | _ => exact .inl rfl

/-! ## What an instruction depends on -/

/-- The old value that `LWR` merges with. -/
def merged (r : Registers) (n : Fin numGPRegs) : Word :=
  if r loadReg = regNumber n then r loadValueReg else r (gpr n)

/-- Without the value of a load into register 0. -/
def Effect.trimmed (e : Effect) : Effect :=
  if e.nextLoadReg = 0 then { e with nextLoadValue := 0 } else e

/-- The same values for an instruction. -/
structure ReadsSame (i : Instruction) (r r' : Registers) : Prop where
  reads : ∀ n ∈ i.reads, r (gpr n) = r' (gpr n)
  nextPC : r nextPCReg = r' nextPCReg
  hi : r hiReg = r' hiReg
  lo : r loReg = r' loReg
  merged : i.opCode = .lwr → regNumber i.rt ≠ 0 → merged r i.rt = merged r' i.rt

theorem execute_same {i : Instruction} {r r' : Registers} (h : ReadsSame i r r')
    (tlb : Translation) (m : Memory) :
    (execute i tlb r m).map Effect.trimmed = (execute i tlb r' m).map Effect.trimmed := by
  obtain ⟨op, rs, rt, rd, extra⟩ := i
  have hnext := h.nextPC
  cases op with
  | add | addu | and | beq | bne | div | divu | mult | multu | nor | sllv | slt | sltu | srav
  | srlv | sub | subu | xor | sb | sh | sw | swl | swr =>
      have hrs : r (gpr rs) = r' (gpr rs) := h.reads rs (by simp [Instruction.reads])
      have hrt : r (gpr rt) = r' (gpr rt) := h.reads rt (by simp [Instruction.reads])
      simp only [execute, hrs, hrt, hnext]
  | addi | addiu | andi | bgez | bgezal | bgtz | blez | bltz | bltzal | jalr | jr | lb | lbu | lh
  | lhu | lw | lwl | mthi | mtlo | or | ori | slti | sltiu | xori =>
      have hrs : r (gpr rs) = r' (gpr rs) := h.reads rs (by simp [Instruction.reads])
      simp only [execute, hrs, hnext]
  | sll | sra | srl =>
      have hrt : r (gpr rt) = r' (gpr rt) := h.reads rt (by simp [Instruction.reads])
      simp only [execute, hrt, hnext]
  | mfhi => simp only [execute, h.hi, hnext]
  | mflo => simp only [execute, h.lo, hnext]
  | lwr =>
      have hrs : r (gpr rs) = r' (gpr rs) := h.reads rs (by simp [Instruction.reads])
      simp only [execute, hrs, hnext]
      split
      · rfl
      · split
        · by_cases hzero : regNumber rt = 0
          · simp [Except.map, Effect.trimmed, hzero]
          · have hmerged := h.merged rfl hzero
            unfold Machine.merged at hmerged
            rw [hmerged]
        · rfl
  | j | jal | lui | syscall | res | unimp => simp only [execute, hnext]

/-- What an instruction assigns, beside `Hi` and `Lo`, is its own. -/
structure Effect.Fits (i : Instruction) (e : Effect) : Prop extends e.WellFormed where
  own : ∀ w ∈ e.writes, w.1 = hiReg ∨ w.1 = loReg ∨ ∃ n ∈ i.assigns, w.1 = gpr n

section Fits

variable {i : Instruction} {e : Effect}

theorem fits_nil (hwrites : e.writes = []) (hload : e.nextLoadReg.toNat < numGPRegs) :
    e.Fits i where
  visible w hw := absurd (hwrites ▸ hw) List.not_mem_nil
  nodup := by simp [hwrites]
  load := hload
  own w hw := absurd (hwrites ▸ hw) List.not_mem_nil

theorem fits_none (hwrites : e.writes = []) (hload : e.nextLoadReg = 0) : e.Fits i :=
  fits_nil hwrites (by rw [hload]; decide)

theorem fits_one {reg : Reg} {value : Word} (hwrites : e.writes = [(reg, value)])
    (hload : e.nextLoadReg = 0)
    (hreg : reg = hiReg ∨ reg = loReg ∨ ∃ n ∈ i.assigns, reg = gpr n) : e.Fits i where
  visible w hw := by
    rw [hwrites, List.mem_singleton] at hw
    subst hw
    rcases hreg with rfl | rfl | ⟨n, -, rfl⟩
    · exact show hiReg < pcReg by decide
    · exact show loReg < pcReg by decide
    · exact gpr_lt n
  nodup := by simp [hwrites]
  load := by
    rw [hload]
    decide
  own w hw := by
    rw [hwrites, List.mem_singleton] at hw
    rwa [hw]

theorem fits_pair {reg reg' : Reg} {x y : Word} (hwrites : e.writes = [(reg, x), (reg', y)])
    (hload : e.nextLoadReg = 0)
    (hpair : (reg, reg') = (hiReg, loReg) ∨ (reg, reg') = (loReg, hiReg)) : e.Fits i := by
  obtain ⟨rfl, rfl⟩ | ⟨rfl, rfl⟩ := hpair.imp Prod.mk.inj Prod.mk.inj
  all_goals
    refine ⟨⟨?_, ?_, by rw [hload]; decide⟩, ?_⟩
    · rw [hwrites]
      simp only [List.mem_cons, List.not_mem_nil, or_false, forall_eq_or_imp, forall_eq]
      decide
    · rw [hwrites]
      simp only [List.map_cons, List.map_nil]
      decide
    · rw [hwrites]
      simp

end Fits

theorem branch_fits {i : Instruction} {pcAfter next : Word} {m : Memory} (taken : Bool) :
    (if taken then (⟨[], next, 0, 0, m⟩ : Effect) else ⟨[], pcAfter, 0, 0, m⟩).Fits i := by
  cases taken <;> exact fits_none rfl rfl

theorem link_fits {i : Instruction} {pcAfter next : Word} {m : Memory} (taken : Bool) {reg : Reg}
    {value : Word} (hreg : ∃ n ∈ i.assigns, reg = gpr n) :
    ({ (if taken then (⟨[], next, 0, 0, m⟩ : Effect) else ⟨[], pcAfter, 0, 0, m⟩) with
      writes := [(reg, value)] } : Effect).Fits i := by
  cases taken <;> exact fits_one rfl rfl (.inr (.inr hreg))

/-- The number of a general register. -/
theorem regNumber_toNat (n : Fin numGPRegs) : (regNumber n).toNat = n.val := by
  rw [regNumber, BitVec.toNat_ofNat, Nat.mod_eq_of_lt (Nat.lt_trans n.isLt (by decide))]

theorem regNumber_lt (n : Fin numGPRegs) : (regNumber n).toNat < numGPRegs := by
  rw [regNumber_toNat]
  exact n.isLt

theorem execute_fits {i : Instruction} {tlb : Translation} {r : Registers} {m : Memory}
    {e : Effect} (h : execute i tlb r m = .ok e) : e.Fits i := by
  obtain ⟨op, rs, rt, rd, extra⟩ := i
  cases op with
  | add | addi | sub =>
      simp only [execute] at h
      split at h
      · cases h
      · cases h
        exact fits_one rfl rfl (.inr (.inr ⟨_, List.mem_singleton_self _, rfl⟩))
  | addiu | addu | and | andi | lui | mfhi | mflo | nor | or | ori | sll | sllv | slt | slti | sltiu
  | sltu | sra | srav | srl | srlv | subu | xor | xori =>
      cases h
      exact fits_one rfl rfl (.inr (.inr ⟨_, List.mem_singleton_self _, rfl⟩))
  | mthi =>
      cases h
      exact fits_one rfl rfl (.inl rfl)
  | mtlo =>
      cases h
      exact fits_one rfl rfl (.inr (.inl rfl))
  | beq | bgez | bgtz | blez | bltz | bne =>
      cases h
      exact branch_fits _
  | bgezal | bltzal =>
      cases h
      exact link_fits _ ⟨_, List.mem_singleton_self _, rfl⟩
  | j | jr =>
      cases h
      exact fits_none rfl rfl
  | jal | jalr =>
      cases h
      exact fits_one rfl rfl (.inr (.inr ⟨_, List.mem_singleton_self _, rfl⟩))
  | div | divu =>
      simp only [execute] at h
      repeat' split at h
      all_goals cases h
      all_goals exact fits_pair rfl rfl (.inr rfl)
  | mult | multu =>
      cases h
      exact fits_pair rfl rfl (.inl rfl)
  | lb | lbu | lh | lhu | lw | lwl | lwr =>
      simp only [execute] at h
      repeat' split at h
      all_goals cases h
      all_goals exact fits_nil rfl (regNumber_lt _)
  | sb | sh | sw | swl | swr =>
      simp only [execute] at h
      repeat' split at h
      all_goals cases h
      all_goals exact fits_none rfl rfl
  | syscall | res | unimp => cases h

/-! ## Registers that are alike -/

/-- The same registers, but for what no instruction looks at. -/
structure Alike (r r' : Registers) : Prop where
  same : ∀ reg, reg ≠ badVAddrReg → reg ≠ loadValueReg → r reg = r' reg
  value : r loadReg ≠ 0 → r loadValueReg = r' loadValueReg

theorem flush_apply (r : Registers) (reg : Reg) : r.delayedLoad 0 0 reg =
    if reg = zeroReg ∨ reg = loadReg ∨ reg = loadValueReg then 0 else arrived r reg := by
  unfold Registers.delayedLoad
  simp only [Function.update_apply]
  by_cases hzero : reg = zeroReg
  · simp [hzero]
  · by_cases hload : reg = loadReg
    · simp [hload]
    · by_cases hvalue : reg = loadValueReg
      · simp [hvalue]
      · simp only [hzero, hload, hvalue, or_self, if_false]
        rfl

theorem Alike.flush {r r' : Registers} (h : Alike r r') {reg : Reg} (hreg : reg ≠ badVAddrReg) :
    r.delayedLoad 0 0 reg = r'.delayedLoad 0 0 reg := by
  have hload : r loadReg = r' loadReg := h.same _ (by decide) (by decide)
  rw [flush_apply, flush_apply]
  refine if_ctx_congr Iff.rfl (fun _ => rfl) fun hspecial => ?_
  simp only [not_or] at hspecial
  unfold arrived
  rw [← hload]
  split
  · rename_i heq
    refine h.value fun hnone => hspecial.1 (Fin.ext ?_)
    rw [heq, hnone]
    rfl
  · exact h.same reg hreg hspecial.2.2

theorem alike_of_flush {r r' : Registers}
    (h : ∀ reg, reg ≠ badVAddrReg → r.delayedLoad 0 0 reg = r'.delayedLoad 0 0 reg) :
    Alike (r.delayedLoad 0 0) (r'.delayedLoad 0 0) :=
  ⟨fun reg hreg _ => h reg hreg, fun _ => h _ (by decide)⟩

theorem flush_flush (r : Registers) : (r.delayedLoad 0 0).delayedLoad 0 0 = r.delayedLoad 0 0 :=
  (Registers.delayedLoad_settled r).delayedLoad

/-- What an exception leaves. -/
theorem raiseException_flush {r : Registers} (h : (r loadReg).toNat < numGPRegs) (badVAddr : Word)
    (reg : Reg) : raiseException r badVAddr reg =
      if reg = badVAddrReg then badVAddr else r.delayedLoad 0 0 reg := by
  have hload : Function.update r badVAddrReg badVAddr loadReg = r loadReg :=
    Function.update_of_ne (by decide) ..
  have hvalue : Function.update r badVAddrReg badVAddr loadValueReg = r loadValueReg :=
    Function.update_of_ne (by decide) ..
  unfold raiseException
  rw [flush_apply, flush_apply]
  unfold arrived
  rw [hload, hvalue]
  by_cases hbad : reg = badVAddrReg
  · subst hbad
    have hne : badVAddrReg.val ≠ (r loadReg).toNat := fun heq => by
      rw [← heq] at h
      exact absurd h (by decide)
    rw [if_neg (by decide), if_neg hne, if_pos rfl, Function.update_self]
  · rw [if_neg hbad, Function.update_of_ne hbad]

/-! ## The two runs -/

/-- Where the machine is when the one without faults is at `c`: there, or a load has arrived
already that is on its way in `c`. -/
structure Mirrors (s c : Processor) : Prop where
  memory : s.memory = c.memory
  tidy : c.registers.Tidy
  alike : Alike s.registers c.registers ∨ Alike s.registers (c.registers.delayedLoad 0 0)

section Mirrors

variable {s c : Processor} {mapped : Translation} {handler : Handler}

theorem Mirrors.refl (htidy : c.registers.Tidy) : Mirrors c c :=
  ⟨rfl, htidy, .inl ⟨fun _ _ _ => rfl, fun _ => rfl⟩⟩

theorem Mirrors.flush (h : Mirrors s c) {reg : Reg} (hreg : reg ≠ badVAddrReg) :
    s.registers.delayedLoad 0 0 reg = c.registers.delayedLoad 0 0 reg := by
  rcases h.alike with halike | halike
  · exact halike.flush hreg
  · rw [halike.flush hreg, flush_flush]

theorem Mirrors.same (h : Mirrors s c) : s.Same c := ⟨h.memory, fun _ => h.flush⟩

theorem Mirrors.load (h : Mirrors s c) :
    s.registers loadReg = c.registers loadReg ∨ s.registers loadReg = 0 :=
  h.alike.imp (fun halike => halike.same _ (by decide) (by decide))
    fun halike => halike.same _ (by decide) (by decide)

theorem Mirrors.load_lt (h : Mirrors s c) : (s.registers loadReg).toNat < numGPRegs := by
  rcases h.load with heq | heq <;> rw [heq]
  · exact h.tidy.load
  · decide

/-- The program counters and the multiplication registers are the same. -/
theorem Mirrors.special (h : Mirrors s c) {reg : Reg} (hlow : hiReg ≤ reg) (hhigh : reg < loadReg) :
    s.registers reg = c.registers reg := by
  have hlow : 32 ≤ reg.val := hlow
  have hhigh : reg.val < 37 := hhigh
  have hbad : reg ≠ badVAddrReg := fun heq => absurd (heq ▸ hhigh) (by decide)
  have hvalue : reg ≠ loadValueReg := fun heq => absurd (heq ▸ hhigh) (by decide)
  rcases h.alike with halike | halike
  · exact halike.same reg hbad hvalue
  · have hload : (c.registers loadReg).toNat < 32 := h.tidy.load
    have hzero : reg ≠ zeroReg := fun heq => absurd (heq ▸ hlow) (by decide)
    have hne : reg ≠ loadReg := fun heq => absurd (heq ▸ hhigh) (by decide)
    rw [halike.same reg hbad hvalue, flush_apply, if_neg (by simp [hzero, hne, hvalue]), arrived,
      if_neg (by omega)]

/-- A page fault and an interrupt leave the machine where it is. -/
theorem Mirrors.flushed (h : Mirrors s c) : Mirrors ⟨s.registers.delayedLoad 0 0, s.memory⟩ c :=
  ⟨h.memory, h.tidy, .inr (alike_of_flush fun _ => h.flush)⟩

theorem Mirrors.faulted (h : Mirrors s c) (badVAddr : Word) :
    Mirrors ⟨raiseException s.registers badVAddr, s.memory⟩ c := by
  have heq : ∀ reg, reg ≠ badVAddrReg →
      raiseException s.registers badVAddr reg = c.registers.delayedLoad 0 0 reg := by
    intro reg hreg
    rw [raiseException_flush h.load_lt, if_neg hreg, h.flush hreg]
  exact ⟨h.memory, h.tidy,
    .inr ⟨fun reg hreg _ => heq reg hreg, fun _ => heq loadValueReg (by decide)⟩⟩

/-- The handler of another exception finds the same state. -/
theorem Mirrors.raised (h : Mirrors s c) (badVAddr : Word) :
    (⟨raiseException s.registers badVAddr, s.memory⟩ : Processor) =
      ⟨raiseException c.registers badVAddr, c.memory⟩ := by
  have heq : raiseException s.registers badVAddr = raiseException c.registers badVAddr := by
    funext reg
    rw [raiseException_flush h.load_lt, raiseException_flush h.tidy.load]
    split
    · rfl
    · rename_i hreg
      exact h.flush hreg
  rw [heq, h.memory]

theorem eq_regNumber {w : Word} {n : Fin numGPRegs} (h : n.val = w.toNat) : regNumber n = w :=
  BitVec.eq_of_toNat_eq ((regNumber_toNat n).trans h)

/-- A general register is the same, but for the target of a load. -/
theorem Mirrors.general (h : Mirrors s c) {n : Fin numGPRegs}
    (hslot : c.registers loadReg = 0 ∨ regNumber n ≠ c.registers loadReg) :
    s.registers (gpr n) = c.registers (gpr n) := by
  have hlt : (gpr n).val < 34 := gpr_lt n
  have hbad : gpr n ≠ badVAddrReg := fun heq => absurd (heq ▸ hlt) (by decide)
  have hvalue : gpr n ≠ loadValueReg := fun heq => absurd (heq ▸ hlt) (by decide)
  rcases h.alike with halike | halike
  · exact halike.same _ hbad hvalue
  · rw [halike.same _ hbad hvalue, flush_apply]
    by_cases hzero : gpr n = zeroReg
    · rw [hzero, h.tidy.zero]
      rfl
    · have hne : gpr n ≠ loadReg := fun heq => absurd (heq ▸ hlt) (by decide)
      rw [if_neg (by simp [hzero, hne, hvalue]), arrived, if_neg]
      intro heq
      rcases hslot with hnone | htarget
      · rw [hnone] at heq
        exact hzero (Fin.ext heq)
      · exact htarget (eq_regNumber heq)

/-- What `LWR` merges with is the same. -/
theorem Mirrors.merged (h : Mirrors s c) {n : Fin numGPRegs} (hn : regNumber n ≠ 0) :
    Machine.merged s.registers n = Machine.merged c.registers n := by
  have hlt : (gpr n).val < 34 := gpr_lt n
  have hbad : gpr n ≠ badVAddrReg := fun heq => absurd (heq ▸ hlt) (by decide)
  have hvalue : gpr n ≠ loadValueReg := fun heq => absurd (heq ▸ hlt) (by decide)
  unfold Machine.merged
  rcases h.alike with halike | halike
  · have hload : s.registers loadReg = c.registers loadReg :=
      halike.same _ (by decide) (by decide)
    rw [← hload, halike.same _ hbad hvalue]
    split
    · rename_i heq
      exact halike.value (heq ▸ hn)
    · rfl
  · have hload : s.registers loadReg = 0 := halike.same _ (by decide) (by decide)
    have hzero : gpr n ≠ zeroReg := fun heq => hn (eq_regNumber (congrArg Fin.val heq))
    have hne : gpr n ≠ loadReg := fun heq => absurd (heq ▸ hlt) (by decide)
    rw [hload, if_neg (Ne.symm hn), halike.same _ hbad hvalue, flush_apply,
      if_neg (by simp [hzero, hne, hvalue]), arrived]
    refine if_congr ⟨fun heq => (eq_regNumber heq).symm, fun heq => ?_⟩ rfl rfl
    rw [heq, regNumber_toNat]
    rfl

end Mirrors

/-! ## The end of an instruction -/

theorem trimmed_eq {e e' : Effect} (h : e.trimmed = e'.trimmed) :
    e.writes = e'.writes ∧ e.pcAfter = e'.pcAfter ∧ e.nextLoadReg = e'.nextLoadReg ∧
      e.memory = e'.memory ∧ (e.nextLoadReg ≠ 0 → e.nextLoadValue = e'.nextLoadValue) := by
  obtain ⟨ws, pc, reg, value, m⟩ := e
  obtain ⟨ws', pc', reg', value', m'⟩ := e'
  unfold Effect.trimmed at h
  split at h <;> split at h <;> simp_all

theorem finish_prevPC {r : Registers} {e : Effect} (h : e.WellFormed)
    (hload : (r loadReg).toNat < numGPRegs) : finish r e prevPCReg = r pcReg := by
  have hassigned : (e.assign r loadReg).toNat < numGPRegs := by
    rw [h.assign_special r (by decide)]
    exact hload
  calc finish r e prevPCReg
      = (e.assign r).delayedLoad e.nextLoadReg e.nextLoadValue pcReg := rfl
    _ = e.assign r pcReg := delayedLoad_special hassigned (by decide) (by decide) (by decide) _ _
    _ = r pcReg := h.assign_special r (by decide)

section Finish

variable {s c : Processor} {i : Instruction} {e e' : Effect}

/-- A register that a program sees. A load that has arrived early is not undone, as its target
is not assigned. -/
theorem Mirrors.finish_visible (h : Mirrors s c)
    (hslot : c.registers loadReg = 0 ∨ ∀ n ∈ i.assigns, regNumber n ≠ c.registers loadReg)
    (he : e.Fits i) (he' : e'.Fits i) (hwrites : e.writes = e'.writes) {reg : Reg}
    (hreg : reg < pcReg) (hzero : reg ≠ zeroReg) :
    finish s.registers e reg = finish c.registers e' reg := by
  have hlt : reg.val < 34 := hreg
  have hbad : reg ≠ badVAddrReg := fun heq => absurd (heq ▸ hlt) (by decide)
  have hvalue : reg ≠ loadValueReg := fun heq => absurd (heq ▸ hlt) (by decide)
  have hne : reg ≠ loadReg := fun heq => absurd (heq ▸ hlt) (by decide)
  rw [finish_apply he.toWellFormed hreg hzero, finish_apply he'.toWellFormed hreg hzero, hwrites]
  rcases h.alike with halike | halike
  · have hload : s.registers loadReg = c.registers loadReg :=
      halike.same _ (by decide) (by decide)
    rw [← hload, halike.same reg hbad hvalue]
    split
    · rename_i heq
      refine halike.value fun hnone => hzero (Fin.ext ?_)
      rw [heq, hnone]
      rfl
    · rfl
  · have hload : s.registers loadReg = 0 := halike.same _ (by decide) (by decide)
    have hnone : reg.val ≠ (s.registers loadReg).toNat := by
      rw [hload]
      exact fun heq => hzero (Fin.ext heq)
    rw [if_neg hnone, halike.same reg hbad hvalue, flush_apply,
      if_neg (by simp [hzero, hne, hvalue]), arrived]
    split
    · rename_i htarget
      -- nothing is assigned there
      have hlookup : e'.writes.lookup reg = none := by
        refine lookup_eq_none.2 fun hmem => ?_
        obtain ⟨w, hw, rfl⟩ := List.mem_map.1 hmem
        have hgeneral : w.1.val < 32 := htarget ▸ h.tidy.load
        rcases he'.own w hw with heq | heq | ⟨n, hn, heq⟩
        · exact absurd (heq ▸ hgeneral) (by decide)
        · exact absurd (heq ▸ hgeneral) (by decide)
        · rcases hslot with hzero' | hother
          · rw [hzero'] at htarget
            exact hzero (Fin.ext htarget)
          · exact hother n hn (eq_regNumber ((congrArg Fin.val heq).symm.trans htarget))
      rw [hlookup]
      rfl
    · rfl

theorem Mirrors.finish (h : Mirrors s c)
    (hslot : c.registers loadReg = 0 ∨ ∀ n ∈ i.assigns, regNumber n ≠ c.registers loadReg)
    (he : e.Fits i) (he' : e'.Fits i) (heq : e.trimmed = e'.trimmed) :
    Mirrors ⟨Machine.finish s.registers e, e.memory⟩
      ⟨Machine.finish c.registers e', e'.memory⟩ := by
  obtain ⟨hwrites, hpc, hload, hmemory, hvalue⟩ := trimmed_eq heq
  refine ⟨hmemory, finish_tidy _ he'.toWellFormed, .inl ⟨fun reg hbad hreg => ?_, fun hne => ?_⟩⟩
  · show Machine.finish s.registers e reg = Machine.finish c.registers e' reg
    by_cases hlow : reg < pcReg
    · by_cases hzero : reg = zeroReg
      · rw [hzero, finish_zero, finish_zero]
      · exact h.finish_visible hslot he he' hwrites hlow hzero
    · obtain rfl | rfl | rfl | rfl : reg = pcReg ∨ reg = nextPCReg ∨ reg = prevPCReg ∨
          reg = loadReg := by
        revert reg
        decide
      · rw [finish_pc he.toWellFormed h.load_lt, finish_pc he'.toWellFormed h.tidy.load]
        exact h.special (by decide) (by decide)
      · exact hpc
      · rw [finish_prevPC he.toWellFormed h.load_lt, finish_prevPC he'.toWellFormed h.tidy.load]
        exact h.special (by decide) (by decide)
      · exact hload
  · exact hvalue hne

end Finish

/-! ## Every step -/

/-- `OneInstruction` up to the end of its `switch`. -/
def switch (tlb : Translation) (r : Registers) (m : Memory) : Except Trap Effect :=
  match readMem tlb .fetch m (r pcReg) 4 with
  | .ok raw => execute (decode raw) tlb r m
  | .error t => .error t

theorem oneInstruction_eq (tlb : Translation) (r : Registers) (m : Memory) :
    oneInstruction tlb r m = conclude r m (switch tlb r m) := by
  unfold oneInstruction switch
  cases readMem tlb .fetch m (r pcReg) 4 <;> rfl

section Steps

variable {s s' c : Processor} {mapped : Translation} {handler : Handler} {done : Bool}

/-- The registers that an instruction depends on are the same. -/
theorem Mirrors.reads (h : Mirrors s c) {i : Instruction}
    (hslot : c.registers loadReg = 0 ∨ ∀ n ∈ i.reads, regNumber n ≠ c.registers loadReg) :
    ReadsSame i s.registers c.registers where
  reads n hn := h.general (hslot.imp id fun hother => hother n hn)
  nextPC := h.special (by decide) (by decide)
  hi := h.special (by decide) (by decide)
  lo := h.special (by decide) (by decide)
  merged _ hn := h.merged hn

/-- What the two machines come to: the effects of one instruction, or the same trap, or a page
fault in the first. -/
inductive Agreement (c : Processor) (result clean : Except Trap Effect) : Prop
  | fault (addr : Word) : result = .error (.raise .pageFault addr) → Agreement c result clean
  | trap (t : Trap) : result = .error t → clean = .error t → Agreement c result clean
  | effect (i : Instruction) (e e' : Effect) : result = .ok e → clean = .ok e' → e.Fits i →
      e'.Fits i → e.trimmed = e'.trimmed →
      (c.registers loadReg = 0 ∨ ∀ n ∈ i.assigns, regNumber n ≠ c.registers loadReg) →
      Agreement c result clean

theorem Mirrors.switch (h : Mirrors s c) (hslot : c.SlotFree mapped)
    (misses : Access → Word → Bool) :
    Agreement c (Machine.switch (missing misses mapped) s.registers s.memory)
      (Machine.switch mapped c.registers c.memory) := by
  have hpc : s.registers pcReg = c.registers pcReg := h.special (by decide) (by decide)
  unfold Machine.switch
  rw [hpc, h.memory]
  rcases readMem_missing misses mapped c.memory (c.registers pcReg) 4 .fetch with
    hfetch | ⟨a, hfetch⟩
  · rw [hfetch]
    cases hclean : readMem mapped .fetch c.memory (c.registers pcReg) 4 with
    | error t => exact .trap t rfl rfl
    | ok w =>
        simp only
        have hslot : c.registers loadReg = 0 ∨
            ∀ n ∈ (decode w).reads ++ (decode w).assigns, regNumber n ≠ c.registers loadReg := by
          unfold Processor.SlotFree at hslot
          rwa [hclean] at hslot
        have hreads := h.reads (i := decode w)
          (hslot.imp id fun hother n hn => hother n (List.mem_append_left _ hn))
        have hsame := execute_same hreads mapped c.memory
        rcases execute_missing misses mapped (decode w) s.registers c.memory with heq | ⟨a, heq⟩
        · rw [heq]
          cases hs : execute (decode w) mapped s.registers c.memory with
          | error t =>
              cases hc : execute (decode w) mapped c.registers c.memory with
              | error t' =>
                  rw [hs, hc] at hsame
                  exact .trap t rfl (congrArg _ (Except.error.inj hsame).symm)
              | ok e' =>
                  rw [hs, hc] at hsame
                  cases hsame
          | ok e =>
              cases hc : execute (decode w) mapped c.registers c.memory with
              | error t' =>
                  rw [hs, hc] at hsame
                  cases hsame
              | ok e' =>
                  rw [hs, hc] at hsame
                  exact .effect (decode w) e e' rfl rfl (execute_fits hs) (execute_fits hc)
                    (Except.ok.inj hsame)
                    (hslot.imp id fun hother n hn => hother n (List.mem_append_right _ hn))
        · exact .fault a heq
  · rw [hfetch]
    exact .fault a rfl

/-- **One step.** Either an instruction is completed in both runs, or the machine stays where the
one without faults is. -/
theorem Mirrors.step (htidy : ∀ which s s', handler which s = some s' → s'.registers.Tidy)
    (h : Mirrors s c) (hslot : c.SlotFree mapped) {o : Occurrence}
    (hs : s.step handler mapped o = some (s', done)) :
    done = false ∧ Mirrors s' c ∨
      done = true ∧ ∃ c', c.next handler mapped = some c' ∧ Mirrors s' c' := by
  cases o with
  | interrupt =>
      obtain ⟨rfl, rfl⟩ := Prod.mk.inj (Option.some.inj hs)
      exact .inl ⟨rfl, h.flushed⟩
  | instruction misses =>
      have hnext : c.next handler mapped =
          match resume handler (conclude c.registers c.memory
              (Machine.switch mapped c.registers c.memory)) with
          | some (c', true) => some c'
          | _ => none := by
        rw [← oneInstruction_eq]
        rfl
      simp only [Processor.step, oneInstruction_eq] at hs
      rw [hnext]
      rcases h.switch hslot misses with ⟨a, hresult⟩ | ⟨t, hresult, hclean⟩ |
        ⟨i, e, e', hresult, hclean, he, he', heq, hassigns⟩
      · rw [hresult] at hs
        obtain ⟨rfl, rfl⟩ := Prod.mk.inj (Option.some.inj hs)
        exact .inl ⟨rfl, h.faulted a⟩
      · rw [hresult] at hs
        cases t with
        | abort => cases hs
        | raise which badVAddr =>
            simp only [conclude, resume] at hs
            split at hs
            · obtain ⟨rfl, rfl⟩ := Prod.mk.inj (Option.some.inj hs)
              exact .inl ⟨rfl, h.faulted badVAddr⟩
            · rename_i hwhich
              rw [h.raised] at hs
              obtain ⟨s₁, hhandler, heq⟩ := Option.map_eq_some_iff.1 hs
              obtain ⟨rfl, rfl⟩ := Prod.mk.inj heq
              refine .inr ⟨rfl, s₁, ?_, .refl (htidy _ _ _ hhandler)⟩
              rw [hclean]
              simp only [conclude, resume, if_neg hwhich, hhandler, Option.map_some]
      · rw [hresult] at hs
        obtain ⟨rfl, rfl⟩ := Prod.mk.inj (Option.some.inj hs)
        refine .inr ⟨rfl, _, ?_, h.finish hassigns he he' heq⟩
        rw [hclean]
        rfl

/-- What a fault or an interrupt leaves behind: the delayed load has arrived, and that is all. -/
structure Processor.Restarts (s s' : Processor) : Prop where
  memory : s'.memory = s.memory
  registers : ∀ reg, reg ≠ badVAddrReg → s'.registers reg = s.registers.delayedLoad 0 0 reg

theorem step_restarts (hload : (s.registers loadReg).toNat < numGPRegs) {o : Occurrence}
    (hs : s.step handler mapped o = some (s', false)) : s.Restarts s' := by
  cases o with
  | interrupt =>
      obtain ⟨rfl, -⟩ := Prod.mk.inj (Option.some.inj hs)
      exact ⟨rfl, fun _ _ => rfl⟩
  | instruction misses =>
      simp only [Processor.step, oneInstruction_eq] at hs
      cases hresult : Machine.switch (missing misses mapped) s.registers s.memory with
      | ok e =>
          rw [hresult] at hs
          cases hs
      | error t =>
          rw [hresult] at hs
          cases t with
          | abort => cases hs
          | raise which badVAddr =>
              simp only [conclude, resume] at hs
              split at hs
              · obtain ⟨rfl, -⟩ := Prod.mk.inj (Option.some.inj hs)
                refine ⟨rfl, fun reg hreg => ?_⟩
                show raiseException s.registers badVAddr reg = _
                rw [raiseException_flush hload, if_neg hreg]
              · obtain ⟨_, -, heq⟩ := Option.map_eq_some_iff.1 hs
                cases (Prod.mk.inj heq).2

/-- Where the run without faults and interrupts is. -/
theorem mirrors_of_run {ok : List Bool → Processor → Occurrence → Prop} {boot : Processor}
    {tr : List Bool} (htidy : ∀ which s s', handler which s = some s' → s'.registers.Tidy)
    (hboot : boot.registers.Tidy) (hrun : Run (Processor.step handler mapped) ok boot tr s)
    (hslots : ∀ k ≤ tr.count true, ∀ c, boot.cleanRun handler mapped k = some c →
      c.SlotFree mapped) :
    ∃ c, boot.cleanRun handler mapped (tr.count true) = some c ∧ Mirrors s c := by
  revert hslots
  refine hrun.invariant (I := fun tr s => (∀ k ≤ tr.count true, ∀ c,
    boot.cleanRun handler mapped k = some c → c.SlotFree mapped) →
      ∃ c, boot.cleanRun handler mapped (tr.count true) = some c ∧ Mirrors s c)
    (fun _ => ⟨boot, rfl, .refl hboot⟩) ?_
  intro tr s o s' done ih _ hs hslots
  rw [List.count_append] at hslots ⊢
  obtain ⟨c, hc, hmirror⟩ := ih fun k hk => hslots k (Nat.le_add_right_of_le hk)
  have hslot := hslots _ (Nat.le_add_right _ _) c hc
  rcases hmirror.step htidy hslot hs with ⟨rfl, hstays⟩ | ⟨rfl, c', hnext, hgoes⟩
  · exact ⟨c, hc, hstays⟩
  · refine ⟨c', ?_, hgoes⟩
    simp only [List.count_singleton_self, Processor.cleanRun, hc]
    exact hnext

/-- **Faults and interrupts are not seen.** Accesses miss their translation and interrupts come
as they may; a fault is repaired without touching the registers or the memory. If no instruction
of the run without them uses the target of a load in its delay slot, then after as many completed
instructions the memory is the same, and so are all registers with what has been delayed, but for
the one with the faulting address. -/
theorem faults_invisible {ok : List Bool → Processor → Occurrence → Prop} {boot : Processor}
    {tr : List Bool} (htidy : ∀ which s s', handler which s = some s' → s'.registers.Tidy)
    (hboot : boot.registers.Tidy) (hrun : Run (Processor.step handler mapped) ok boot tr s)
    (hslots : ∀ k ≤ tr.count true, ∀ c, boot.cleanRun handler mapped k = some c →
      c.SlotFree mapped) :
    ∃ c, boot.cleanRun handler mapped (tr.count true) = some c ∧ s.Same c := by
  obtain ⟨c, hc, hmirror⟩ := mirrors_of_run htidy hboot hrun hslots
  exact ⟨c, hc, hmirror.same⟩

/-- **Instructions are restarted.** At any time the run is where the run without faults and
interrupts is after the instructions that have been completed; and an instruction that faults,
wherever it stands, has had no effect, so that it can be executed again. -/
theorem instructions_restarted {ok : List Bool → Processor → Occurrence → Prop}
    {boot : Processor} {tr : List Bool}
    (htidy : ∀ which s s', handler which s = some s' → s'.registers.Tidy)
    (hboot : boot.registers.Tidy) (hrun : Run (Processor.step handler mapped) ok boot tr s)
    (hslots : ∀ k ≤ tr.count true, ∀ c, boot.cleanRun handler mapped k = some c →
      c.SlotFree mapped) :
    (∃ c, boot.cleanRun handler mapped (tr.count true) = some c ∧ s.Same c) ∧
      ∀ o s', s.step handler mapped o = some (s', false) → s.Restarts s' := by
  obtain ⟨c, hc, hmirror⟩ := mirrors_of_run htidy hboot hrun hslots
  exact ⟨⟨c, hc, hmirror.same⟩, fun o s' hs => step_restarts hmirror.load_lt hs⟩

end Steps

/-! ## A load between a fault and an interrupt -/

/-- `LW $3, 64($0)`, `ADDI $4, $0, 1` in its delay slot, and `ADDU $2, $3, $4`. -/
def loadProgram : Memory :=
  (((Memory.store (fun _ => 0) 0 4 0x8c030040).store 4 4 0x20040001).store 8 4 0x00641021).store
    64 4 7

def bootLoad : Processor := ⟨Registers.create.store 35 4, loadProgram⟩

/-- The load misses its own page and then that of the word, an interrupt comes into its delay
slot, and the next instruction misses its page. -/
def occurrences : List Occurrence :=
  [.instruction fun access _ => access == .fetch, .instruction fun access _ => access == .read,
    .instruction fun _ _ => false, .interrupt, .instruction fun access _ => access == .fetch,
    .instruction fun _ _ => false, .instruction fun _ _ => false]

theorem faults_invisible_sample : ∃ s,
    Run (Processor.step (fun _ _ => none) allMapped) anyStep bootLoad
        [false, false, true, false, false, true, true] s ∧ s.registers resultReg = 8 ∧
      ∃ c, bootLoad.cleanRun (fun _ _ => none) allMapped 3 = some c ∧ s.Same c := by
  have hp : (exec (Processor.step (fun _ _ => none) allMapped) anyStep [] bootLoad occurrences).map
      (fun r => (r.1, r.2.registers resultReg)) =
        some ([false, false, true, false, false, true, true], 8) := by
    decide +kernel
  have hslots : ∀ k ≤ 3, (bootLoad.cleanRun (fun _ _ => none) allMapped k).all
      (fun c => c.SlotFree allMapped) := by
    decide +kernel
  obtain ⟨⟨tr, s⟩, hexec, heq⟩ := Option.map_eq_some_iff.mp hp
  obtain ⟨rfl, hsum⟩ := Prod.mk.inj heq
  have hrun := Run.of_exec .start hexec
  refine ⟨s, hrun, hsum, faults_invisible (by simp) ⟨rfl, by decide⟩ hrun fun k hk c hc => ?_⟩
  have hall := hslots k hk
  rw [hc] at hall
  exact of_decide_eq_true hall

/-- `BEQ $0, $0` to `12`, `LW $3, 64($0)` in its delay slot, an instruction that is not reached,
`ADDI $5, $0, 1` and `ADDU $2, $3, $5`. -/
def branchProgram : Memory :=
  (((((Memory.store (fun _ => 0) 0 4 0x10000002).store 4 4 0x8c030040).store 8 4
    0x20030009).store 12 4 0x20050001).store 16 4 0x00651021).store 64 4 7

def bootBranch : Processor := ⟨Registers.create.store 35 4, branchProgram⟩

/-- The load behind the branch misses twice, with an interrupt between. -/
def branchOccurrences : List Occurrence :=
  [.instruction fun _ _ => false, .instruction fun access _ => access == .fetch, .interrupt,
    .instruction fun access _ => access == .read, .instruction fun _ _ => false, .interrupt,
    .instruction fun _ _ => false, .instruction fun _ _ => false]

theorem instructions_restarted_sample : ∃ s,
    Run (Processor.step (fun _ _ => none) allMapped) anyStep bootBranch
        [true, false, false, false, true, false, true, true] s ∧ s.registers resultReg = 8 ∧
      (∃ c, bootBranch.cleanRun (fun _ _ => none) allMapped 4 = some c ∧ s.Same c) ∧
      ∀ o s', s.step (fun _ _ => none) allMapped o = some (s', false) → s.Restarts s' := by
  have hp : (exec (Processor.step (fun _ _ => none) allMapped) anyStep [] bootBranch
      branchOccurrences).map (fun r => (r.1, r.2.registers resultReg)) =
        some ([true, false, false, false, true, false, true, true], 8) := by
    decide +kernel
  have hslots : ∀ k ≤ 4, (bootBranch.cleanRun (fun _ _ => none) allMapped k).all
      (fun c => c.SlotFree allMapped) := by
    decide +kernel
  obtain ⟨⟨tr, s⟩, hexec, heq⟩ := Option.map_eq_some_iff.mp hp
  obtain ⟨rfl, hsum⟩ := Prod.mk.inj heq
  have hrun := Run.of_exec .start hexec
  refine ⟨s, hrun, hsum, instructions_restarted (by simp) ⟨rfl, by decide⟩ hrun fun k hk c hc => ?_⟩
  have hall := hslots k hk
  rw [hc] at hall
  exact of_decide_eq_true hall

end Nachos.Machine
