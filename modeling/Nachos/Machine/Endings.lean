import Nachos.Machine.Completion

/-!
# How an instruction can end

An instruction is completed or raises an exception, unless the simulator itself comes to
an end in it: at an `ASSERT`, or in a division that the host cannot do. Both are open to
a user program, through the division of the smallest number by -1 and through the loads
and stores of parts of words; `LW` and `LH` raise an exception where these assert.

Memory accesses go through the TLB here, with the checks of `Translate` and its `ASSERT`
on the physical address.
-/

namespace Nachos.Machine

/-! ## The TLB -/

def pageSize : ℕ := 128

def numPhysPages : ℕ := 4096

def memorySize : ℕ := numPhysPages * pageSize

structure TranslationEntry where
  virtualPage : Word
  physicalPage : Word
  valid : Bool
  readOnly : Bool
deriving DecidableEq, Repr

/-- `Translate` with a TLB, after the check for alignment. -/
def tlbTranslation (tlb : List TranslationEntry) : Translation := fun access addr size =>
  let vpn := addr.toNat / pageSize
  let offset := addr.toNat % pageSize
  match tlb.find? (fun entry => entry.valid && entry.virtualPage.toNat == vpn) with
  | none => .error (.raise .pageFault addr)
  | some entry =>
      if entry.readOnly && access == .write then .error (.raise .readOnly addr)
      else
        let pageFrame := entry.physicalPage.toNat
        if numPhysPages ≤ pageFrame then .error (.raise .busError addr)
        else
          let physAddr := pageFrame * pageSize + offset
          if physAddr + size ≤ memorySize then .ok () else .error .abort

/-- An access that is translated is within a page. -/
theorem aligned_within {addr : Word} {size : ℕ} (hsize : size = 1 ∨ size = 2 ∨ size = 4)
    (haligned : ¬ ((size = 4 ∧ addr &&& 3 ≠ 0) ∨ (size = 2 ∧ addr &&& 1 ≠ 0))) :
    addr.toNat % pageSize + size ≤ pageSize := by
  have hthree : addr &&& 3 = 0 → addr.toNat % 4 = 0 := fun h => by
    rw [← Nat.and_two_pow_sub_one_eq_mod addr.toNat 2]
    exact congrArg BitVec.toNat h
  have hone : addr &&& 1 = 0 → addr.toNat % 2 = 0 := fun h => by
    rw [← Nat.and_two_pow_sub_one_eq_mod addr.toNat 1]
    exact congrArg BitVec.toNat h
  unfold pageSize
  rcases hsize with rfl | rfl | rfl
  · omega
  · have := hone (by_contra fun h => haligned (.inr ⟨rfl, h⟩))
    omega
  · have := hthree (by_contra fun h => haligned (.inl ⟨rfl, h⟩))
    omega

/-- A translation that ends no access of a size that the instructions use in an `ASSERT`. -/
def Translation.Safe (t : Translation) : Prop :=
  ∀ access addr size, size = 1 ∨ size = 2 ∨ size = 4 →
    translate t access addr size ≠ .error .abort

/-- **The `ASSERT` of `Translate` holds**, whatever the TLB has in it. -/
theorem tlbTranslation_safe (tlb : List TranslationEntry) : (tlbTranslation tlb).Safe := by
  intro access addr size hsize
  unfold translate
  split
  · nofun
  · rename_i haligned
    have hwithin := aligned_within hsize haligned
    unfold tlbTranslation
    dsimp only
    split
    · nofun
    · rename_i entry hentry
      split
      · nofun
      · split
        · nofun
        · rename_i hframe
          have hphys : entry.physicalPage.toNat * pageSize + addr.toNat % pageSize + size ≤
              memorySize := by
            unfold memorySize
            have hlt : entry.physicalPage.toNat + 1 ≤ numPhysPages := Nat.lt_of_not_le hframe
            calc entry.physicalPage.toNat * pageSize + addr.toNat % pageSize + size
                ≤ entry.physicalPage.toNat * pageSize + pageSize := by omega
              _ = (entry.physicalPage.toNat + 1) * pageSize := by rw [Nat.add_mul, Nat.one_mul]
              _ ≤ numPhysPages * pageSize := Nat.mul_le_mul_right _ hlt
          rw [if_pos hphys]
          nofun

/-- What an access raises is passed on. -/
theorem error_ne_abort {α β : Type} {result : Except Trap α} (h : result ≠ .error .abort)
    {trap : Trap} (htrap : result = .error trap) :
    (.error trap : Except Trap β) ≠ .error .abort := by
  intro heq
  rw [Except.error.inj heq] at htrap
  exact h htrap

section Accesses

variable {t : Translation} (ht : t.Safe) (m : Memory) (addr : Word) {size : ℕ}
  (hsize : size = 1 ∨ size = 2 ∨ size = 4)

include ht hsize

theorem readMem_ne_abort (access : Access) : readMem t access m addr size ≠ .error .abort := by
  have hsafe := ht access addr size hsize
  unfold readMem
  cases h : translate t access addr size with
  | ok _ => nofun
  | error trap => exact error_ne_abort hsafe h

theorem writeMem_ne_abort (value : Word) : writeMem t m addr size value ≠ .error .abort := by
  have hsafe := ht .write addr size hsize
  unfold writeMem
  cases h : translate t .write addr size with
  | ok _ => nofun
  | error trap => exact error_ne_abort hsafe h

end Accesses

/-! ## The instructions -/

/-- The instruction ends the simulator. -/
def Fatal (i : Instruction) (r : Registers) : Prop :=
  match i.opCode with
  | .div => r (gpr i.rs) = signBit ∧ r (gpr i.rt) = -1
  | .lwl | .lwr | .swl | .swr => (r (gpr i.rs) + i.extra) &&& 3 ≠ 0
  | _ => False

/-- The `switch` ends the simulator in no other instruction. -/
theorem execute_abort_iff {t : Translation} (ht : t.Safe) (i : Instruction) (r : Registers)
    (m : Memory) : execute i t r m = .error .abort ↔ Fatal i r := by
  obtain ⟨op, rs, rt, rd, extra⟩ := i
  cases op with
  | add | addi | sub =>
      refine iff_of_false ?_ id
      simp only [execute]
      split <;> nofun
  | div =>
      simp only [execute, Fatal]
      split
      · rename_i hzero
        refine iff_of_false nofun fun h => ?_
        rw [h.2] at hzero
        exact absurd hzero (by decide)
      · split
        · rename_i h
          exact iff_of_true rfl h
        · rename_i h
          exact iff_of_false nofun h
  | divu =>
      refine iff_of_false ?_ id
      simp only [execute]
      split <;> nofun
  | lb | lbu =>
      have hread := readMem_ne_abort ht m (r (gpr rs) + extra) (.inl rfl) .read
      refine iff_of_false ?_ id
      simp only [execute]
      split
      · split <;> nofun
      · rename_i trap hvalue
        exact error_ne_abort hread hvalue
  | lh | lhu =>
      have hread := readMem_ne_abort ht m (r (gpr rs) + extra) (.inr (.inl rfl)) .read
      refine iff_of_false ?_ id
      simp only [execute]
      split
      · nofun
      · split
        · split <;> nofun
        · rename_i trap hvalue
          exact error_ne_abort hread hvalue
  | lw =>
      have hread := readMem_ne_abort ht m (r (gpr rs) + extra) (.inr (.inr rfl)) .read
      refine iff_of_false ?_ id
      simp only [execute]
      split
      · nofun
      · split
        · nofun
        · rename_i trap hvalue
          exact error_ne_abort hread hvalue
  | lwl | lwr =>
      have hread := readMem_ne_abort ht m (r (gpr rs) + extra) (.inr (.inr rfl)) .read
      simp only [execute, Fatal]
      split
      · rename_i h
        exact iff_of_true rfl h
      · rename_i h
        refine iff_of_false ?_ h
        split
        · nofun
        · rename_i trap hvalue
          exact error_ne_abort hread hvalue
  | sb | sh | sw =>
      have hwrite : ∀ size, size = 1 ∨ size = 2 ∨ size = 4 →
          writeMem t m (r (gpr rs) + extra) size (r (gpr rt)) ≠ .error .abort :=
        fun _ hsize => writeMem_ne_abort ht m _ hsize _
      refine iff_of_false ?_ id
      simp only [execute]
      split
      · nofun
      · rename_i trap hvalue
        exact error_ne_abort (hwrite _ (by decide)) hvalue
  | swl | swr =>
      have hread := readMem_ne_abort ht m (r (gpr rs) + extra) (.inr (.inr rfl)) .read
      have hwrite : ∀ value, writeMem t m (r (gpr rs) + extra) 4 value ≠ .error .abort :=
        fun _ => writeMem_ne_abort ht m _ (.inr (.inr rfl)) _
      simp only [execute, Fatal]
      split
      · rename_i h
        exact iff_of_true rfl h
      · rename_i h
        refine iff_of_false ?_ h
        split
        · split
          · nofun
          · rename_i trap hvalue
            exact error_ne_abort (hwrite _) hvalue
        · rename_i trap hvalue
          exact error_ne_abort hread hvalue
  | _ => exact iff_of_false (by simp [execute]) id

/-- The instruction is completed or ends in an exception. -/
def Outcome.Proper : Outcome → Prop
  | .aborted => False
  | _ => True

theorem conclude_proper_iff (r : Registers) (m : Memory) (result : Except Trap Effect) :
    (conclude r m result).Proper ↔ result ≠ .error .abort := by
  cases result with
  | ok e => exact iff_of_true trivial nofun
  | error trap =>
      cases trap with
      | raise which badVAddr => exact iff_of_true trivial nofun
      | abort => exact iff_of_false id fun h => h rfl

/-- **How an instruction ends.** Whatever the TLB, the registers and the memory are, the
simulator survives an instruction if and only if it is not fatal in this state. -/
theorem oneInstruction_proper_iff (tlb : List TranslationEntry) (r : Registers) (m : Memory) :
    (oneInstruction (tlbTranslation tlb) r m).Proper ↔
      ∀ w, readMem (tlbTranslation tlb) .fetch m (r pcReg) 4 = .ok w → ¬ Fatal (decode w) r := by
  have hsafe := tlbTranslation_safe tlb
  have hfetch := readMem_ne_abort hsafe m (r pcReg) (.inr (.inr rfl)) .fetch
  unfold oneInstruction
  cases h : readMem (tlbTranslation tlb) .fetch m (r pcReg) 4 with
  | ok raw =>
      refine (conclude_proper_iff ..).trans ((not_congr (execute_abort_iff hsafe ..)).trans ?_)
      exact ⟨fun hfatal w hw => Except.ok.inj hw ▸ hfatal, fun hall => hall raw rfl⟩
  | error trap =>
      exact iff_of_true ((conclude_proper_iff ..).2 (error_ne_abort hfetch h)) nofun

/-- The first page in the first frame. -/
def firstPage : TranslationEntry := ⟨0, 0, true, false⟩

/-- `DIV $1, $2` of the smallest number by -1, and `LWL $3, 1($0)`. -/
theorem oneInstruction_aborts :
    ¬ (oneInstruction (tlbTranslation [firstPage]) (operands 0x80000000 0xffffffff)
        (oneWord 0x0022001a)).Proper ∧
      ¬ (oneInstruction (tlbTranslation [firstPage]) (operands 0 0) (oneWord 0x88030001)).Proper := by
  exact ⟨id, id⟩

end Nachos.Machine
