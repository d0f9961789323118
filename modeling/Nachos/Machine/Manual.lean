import Nachos.Machine.Completion
import Nachos.Machine.Words

/-!
# What an instruction computes

The arithmetic, logical, shift, compare, branch, jump and `HI`/`LO` instructions, as the
manual of the R2000 describes them: their encoding by its tables, and their results in
the numbers that the registers stand for. A branch or a jump is relative to its delay
slot, and an instruction that writes a register wins over a load that was still on its
way there.

`OneInstruction` does as much except where `Unaffected` says so: `OR` ors its first operand
with itself, the logical right shifts are those of an `int`, a jump in the last word of a
region takes its region from the word behind, the largest negative quotient is left to
the host, and a delayed load arrives after the result of the next instruction.
-/

namespace Nachos.Machine

/-! ## The encoding -/

/-- The instructions by their opcode. -/
def primaryCodes : List (ℕ × OpCode) :=
  [(0x02, .j), (0x03, .jal), (0x04, .beq), (0x05, .bne), (0x06, .blez), (0x07, .bgtz),
    (0x08, .addi), (0x09, .addiu), (0x0a, .slti), (0x0b, .sltiu),
    (0x0c, .andi), (0x0d, .ori), (0x0e, .xori), (0x0f, .lui)]

/-- Those with opcode 0, by their function. -/
def functionCodes : List (ℕ × OpCode) :=
  [(0x00, .sll), (0x02, .srl), (0x03, .sra), (0x04, .sllv), (0x06, .srlv), (0x07, .srav),
    (0x08, .jr), (0x09, .jalr),
    (0x10, .mfhi), (0x11, .mthi), (0x12, .mflo), (0x13, .mtlo),
    (0x18, .mult), (0x19, .multu), (0x1a, .div), (0x1b, .divu),
    (0x20, .add), (0x21, .addu), (0x22, .sub), (0x23, .subu),
    (0x24, .and), (0x25, .or), (0x26, .xor), (0x27, .nor), (0x2a, .slt), (0x2b, .sltu)]

/-- Those with opcode 1, by their second register. -/
def conditionCodes : List (ℕ × OpCode) :=
  [(0x00, .bltz), (0x01, .bgez), (0x10, .bltzal), (0x11, .bgezal)]

/-- The register whose number stands at bit `k` of an instruction. -/
def field (w : Word) (k : ℕ) : Fin numGPRegs :=
  ⟨(w.extractLsb' k 5).toNat, (w.extractLsb' k 5).isLt⟩

/-- The instruction that a word is. -/
def mnemonic (w : Word) : Option OpCode :=
  let code := (w.extractLsb' 26 6).toNat
  if code = 0 then functionCodes.lookup (w.extractLsb' 0 6).toNat
  else if code = 1 then conditionCodes.lookup (field w 16).val
  else primaryCodes.lookup code

/-- The instructions that neither load nor store nor trap. -/
def Computes : OpCode → Bool
  | .lb | .lbu | .lh | .lhu | .lw | .lwl | .lwr | .sb | .sh | .sw | .swl | .swr => false
  | .syscall | .res | .unimp => false
  | _ => true

/-! ## The results -/

/-- What the manual prescribes: an overflow, or values for registers and the next program
counter. A value that is left open is `none`. -/
inductive Prescription where
  | overflow
  | result (values : List (Reg × Option Word)) (next : Word)

/-- A condition as a word. -/
def truth (p : Prop) [Decidable p] : Word := if p then 1 else 0

/-- What the manual prescribes for an instruction. -/
def prescribe (op : OpCode) (w : Word) (r : Registers) : Prescription :=
  let rs := r (gpr (field w 21))
  let rt := r (gpr (field w 16))
  let toRt := gpr (field w 16)
  let toRd := gpr (field w 11)
  let imm := immediate w
  let slot := r nextPCReg
  let value (reg : Reg) (v : Word) : Prescription := .result [(reg, some v)] (slot + 4)
  let checked (reg : Reg) (n : ℤ) : Prescription :=
    if Fits n then value reg (BitVec.ofInt 32 n) else .overflow
  let branch (links : List (Reg × Option Word)) (p : Prop) [Decidable p] : Prescription :=
    .result links (if p then slot + BitVec.ofInt 32 (4 * imm.toInt) else slot + 4)
  let jump := BitVec.ofNat 32 (slot.toNat / 2 ^ 28 * 2 ^ 28 + 4 * (target w).toNat)
  let link (reg : Reg) : List (Reg × Option Word) := [(reg, some (slot + 4))]
  let product (n : ℤ) : Prescription :=
    .result [(hiReg, some (BitVec.ofInt 32 (n / 2 ^ 32))), (loReg, some (BitVec.ofInt 32 n))]
      (slot + 4)
  let quotient (q rem : Word) : Prescription :=
    -- nothing is said about a division by zero
    if rt = 0 then .result [(loReg, none), (hiReg, none)] (slot + 4)
    else .result [(loReg, some q), (hiReg, some rem)] (slot + 4)
  match op with
  | .add => checked toRd (rs.toInt + rt.toInt)
  | .addi => checked toRt (rs.toInt + imm.toInt)
  | .sub => checked toRd (rs.toInt - rt.toInt)
  | .addu => value toRd (BitVec.ofInt 32 (rs.toInt + rt.toInt))
  | .addiu => value toRt (BitVec.ofInt 32 (rs.toInt + imm.toInt))
  | .subu => value toRd (BitVec.ofInt 32 (rs.toInt - rt.toInt))
  | .and => value toRd (rs &&& rt)
  | .or => value toRd (rs ||| rt)
  | .xor => value toRd (rs ^^^ rt)
  | .nor => value toRd (~~~(rs ||| rt))
  | .andi => value toRt (rs &&& imm.setWidth 32)
  | .ori => value toRt (rs ||| imm.setWidth 32)
  | .xori => value toRt (rs ^^^ imm.setWidth 32)
  | .lui => value toRt (BitVec.ofNat 32 (imm.toNat * 2 ^ 16))
  | .sll => value toRd (BitVec.ofNat 32 (rt.toNat * 2 ^ (shiftAmount w).toNat))
  | .srl => value toRd (BitVec.ofNat 32 (rt.toNat / 2 ^ (shiftAmount w).toNat))
  | .sra => value toRd (BitVec.ofInt 32 (rt.toInt / 2 ^ (shiftAmount w).toNat))
  | .sllv => value toRd (BitVec.ofNat 32 (rt.toNat * 2 ^ (rs.toNat % 32)))
  | .srlv => value toRd (BitVec.ofNat 32 (rt.toNat / 2 ^ (rs.toNat % 32)))
  | .srav => value toRd (BitVec.ofInt 32 (rt.toInt / 2 ^ (rs.toNat % 32)))
  | .slt => value toRd (truth (rs.toInt < rt.toInt))
  | .slti => value toRt (truth (rs.toInt < imm.toInt))
  | .sltu => value toRd (truth (rs.toNat < rt.toNat))
  | .sltiu => value toRt (truth (rs.toNat < (BitVec.ofInt 32 imm.toInt).toNat))
  | .beq => branch [] (rs = rt)
  | .bne => branch [] (rs ≠ rt)
  | .blez => branch [] (rs.toInt ≤ 0)
  | .bgtz => branch [] (0 < rs.toInt)
  | .bltz => branch [] (rs.toInt < 0)
  | .bgez => branch [] (0 ≤ rs.toInt)
  | .bltzal => branch (link retAddrReg) (rs.toInt < 0)
  | .bgezal => branch (link retAddrReg) (0 ≤ rs.toInt)
  | .j => .result [] jump
  | .jal => .result (link retAddrReg) jump
  | .jr => .result [] rs
  | .jalr => .result (link toRd) rs
  | .mult => product (rs.toInt * rt.toInt)
  | .multu => product (rs.toNat * rt.toNat)
  | .div => quotient (BitVec.ofInt 32 (rs.toInt.tdiv rt.toInt))
      (BitVec.ofInt 32 (rs.toInt.tmod rt.toInt))
  | .divu => quotient (BitVec.ofNat 32 (rs.toNat / rt.toNat))
      (BitVec.ofNat 32 (rs.toNat % rt.toNat))
  | .mfhi => value toRd (r hiReg)
  | .mflo => value toRd (r loReg)
  | .mthi => value hiReg rs
  | .mtlo => value loReg rs
  -- not among the mnemonics above
  | _ => .overflow

/-- The outcome is what is prescribed. Register 0 stays zero whatever is written there. -/
def Prescription.Met (r : Registers) (m : Memory) : Prescription → Outcome → Prop
  | .overflow, .raised which r' m' =>
      which = .overflow ∧ m' = m ∧ r' pcReg = r pcReg ∧ r' nextPCReg = r nextPCReg ∧
        r' zeroReg = 0 ∧ ∀ reg < pcReg, reg ≠ zeroReg → r' reg = arrived r reg
  | .result values next, .completed r' m' =>
      m' = m ∧ r' pcReg = r nextPCReg ∧ r' nextPCReg = next ∧ r' loadReg = 0 ∧
        r' zeroReg = 0 ∧ ∀ reg < pcReg, reg ≠ zeroReg →
          match values.lookup reg with
          | some (some v) => r' reg = v
          | some none => True
          | none => r' reg = arrived r reg
  | _, _ => False

/-- A register in an outcome. -/
def Outcome.register : Outcome → Registers
  | .completed r _ => r
  | .raised _ r _ => r
  | .aborted => Registers.create

theorem Prescription.Met.value {r : Registers} {m : Memory} {outcome : Outcome}
    {values : List (Reg × Option Word)} {next : Word}
    (h : (Prescription.result values next).Met r m outcome) (reg : Reg) (hreg : reg < pcReg)
    (hzero : reg ≠ zeroReg) {v : Word} (hvalue : values.lookup reg = some (some v)) :
    outcome.register reg = v := by
  cases outcome with
  | completed r' m' =>
      have hfinal := h.2.2.2.2.2 reg hreg hzero
      rw [hvalue] at hfinal
      exact hfinal
  | raised which r' m' => exact h.elim
  | aborted => exact h.elim

/-- The instruction does what the manual prescribes. -/
def MeetsManual (w : Word) (r : Registers) (m : Memory) (outcome : Outcome) : Prop :=
  ∃ op, mnemonic w = some op ∧ (prescribe op w r).Met r m outcome

/-! ## Where the code does as much -/

/-- The value that the code computes for a register is the prescribed one. -/
def Exact (op : OpCode) (w : Word) (r : Registers) : Prop :=
  let rs := r (gpr (field w 21))
  let rt := r (gpr (field w 16))
  match op with
  | .or => rs ||| rt = rs
  | .srl => (shiftAmount w).toNat = 0 ∨ rt.msb = false
  | .srlv => rs.toNat % 32 = 0 ∨ rt.msb = false
  | _ => True

/-- The word behind the delay slot is in the region of the delay slot, if that matters. -/
def InRegion (op : OpCode) (r : Registers) : Prop :=
  op = .j ∨ op = .jal → (r nextPCReg + 4).toNat / 2 ^ 28 = (r nextPCReg).toNat / 2 ^ 28

/-- The quotient is an `int`. -/
def Divides (op : OpCode) (w : Word) (r : Registers) : Prop :=
  op = .div → ¬ (r (gpr (field w 21)) = signBit ∧ r (gpr (field w 16)) = -1)

/-- The values prescribed are those in the registers after the instruction: where a delayed
load arrives, it brings the same value. -/
def ValuesKept (op : OpCode) (w : Word) (r : Registers) : Prescription → Prop
  | .overflow => True
  | .result values _ => ∀ reg v, (reg, some v) ∈ values → reg ≠ zeroReg →
      if reg.val = (r loadReg).toNat then r loadValueReg = v else Exact op w r

/-- None of the slips matters. -/
def Unaffected (op : OpCode) (w : Word) (r : Registers) : Prop :=
  InRegion op r ∧ Divides op w r ∧ ValuesKept op w r (prescribe op w r)

/-- A link instruction does not read the register that it links in. -/
def LinkApart (op : OpCode) (w : Word) : Prop :=
  (op = .bltzal ∨ op = .bgezal → gpr (field w 21) ≠ retAddrReg) ∧
    (op = .jalr → field w 21 ≠ field w 11)

instance (op : OpCode) (w : Word) : Decidable (LinkApart op w) :=
  inferInstanceAs (Decidable (_ ∧ _))

/-! ## Decoding -/

theorem regField_eq (w : Word) (k : ℕ) : regField w k = field w k :=
  Fin.ext (toNat_shift_and w k 5 (by decide))

/-- The format of an instruction. -/
def formatOf : OpCode → Format
  | .j | .jal => .jfmt
  | .addi | .addiu | .slti | .sltiu | .andi | .ori | .xori | .lui => .ifmt
  | .beq | .bne | .blez | .bgtz | .bltz | .bgez | .bltzal | .bgezal => .ifmt
  | _ => .rfmt

/-- An entry of the first table agrees with the manual. -/
def EntryAgrees (n : ℕ) : TableCode × Format → Prop
  | (.op o, format) => Computes o →
      n ≠ 0 ∧ n ≠ 1 ∧ primaryCodes.lookup n = some o ∧ format = formatOf o
  | (.special, format) => n = 0 ∧ format = .rfmt
  | (.bcond, format) => n = 1 ∧ format = .ifmt

instance (n : ℕ) : (entry : TableCode × Format) → Decidable (EntryAgrees n entry)
  | (.op _, _) => inferInstanceAs (Decidable (_ → _))
  | (.special, _) => inferInstanceAs (Decidable (_ ∧ _))
  | (.bcond, _) => inferInstanceAs (Decidable (_ ∧ _))

theorem opTable_agrees : ∀ n < 64, EntryAgrees n (opTable.getD n (.op .res, .ifmt)) := by
  decide

/-- And so does every entry of the second one. -/
theorem specialTable_function : ∀ n < 64,
    Computes (specialTable.getD n .res) →
      functionCodes.lookup n = some (specialTable.getD n .res) ∧
        formatOf (specialTable.getD n .res) = .rfmt := by
  decide

theorem bcondCode_condition : ∀ n : Fin numGPRegs,
    Computes (bcondCode (BitVec.ofNat 32 (n.val * 2 ^ 16))) →
      conditionCodes.lookup n.val = some (bcondCode (BitVec.ofNat 32 (n.val * 2 ^ 16))) ∧
        formatOf (bcondCode (BitVec.ofNat 32 (n.val * 2 ^ 16))) = .ifmt := by
  decide

/-- The bits that `Decode` compares are the number of the second register. -/
theorem condition_bits (w : Word) :
    w &&& 0x1f0000 = BitVec.ofNat 32 ((field w 16).val * 2 ^ 16) := by
  have hbits : w &&& (0x1f0000 : Word) = ((w >>> 16) &&& (0x1f : Word)) <<< 16 := by
    apply BitVec.eq_of_getLsbD_eq
    intro k hk
    interval_cases k <;> simp [-BitVec.getLsbD_eq_getElem]
  rw [hbits, shiftLeft_toNat]
  exact congrArg (fun n => BitVec.ofNat 32 (n * 2 ^ 16)) (toNat_shift_and w 16 5 (by decide))

/-- `Decode` reads an instruction as the manual does. -/
theorem decode_mnemonic {w : Word} (h : Computes (decode w).opCode) :
    mnemonic w = some (decode w).opCode ∧
      (decode w).extra = extraField w (formatOf (decode w).opCode) := by
  have hcode : ((w >>> 26) &&& 0x3f).toNat = (w.extractLsb' 26 6).toNat :=
    toNat_shift_and w 26 6 (by decide)
  have hfunction : (w &&& 0x3f).toNat = (w.extractLsb' 0 6).toNat := by
    rw [← toNat_shift_and w 0 6 (by decide), BitVec.ushiftRight_zero]
    rfl
  have hentry := opTable_agrees _ (w.extractLsb' 26 6).isLt
  have hspecial := specialTable_function _ (w.extractLsb' 0 6).isLt
  unfold mnemonic
  simp only [decode, hcode, hfunction] at h ⊢
  generalize opTable.getD (w.extractLsb' 26 6).toNat (.op .res, .ifmt) = entry at h hentry ⊢
  obtain ⟨code, format⟩ := entry
  cases code with
  | op o =>
      obtain ⟨hzero, hone, hlookup, hformat⟩ := hentry h
      rw [if_neg hzero, if_neg hone]
      exact ⟨hlookup, by rw [hformat]⟩
  | special =>
      obtain ⟨hzero, hformat⟩ := hentry
      obtain ⟨hlookup, hrfmt⟩ := hspecial h
      rw [if_pos hzero]
      exact ⟨hlookup, by rw [hformat, hrfmt]⟩
  | bcond =>
      obtain ⟨hone, hformat⟩ := hentry
      rw [if_neg (by omega), if_pos hone]
      dsimp only at h ⊢
      rw [condition_bits] at h ⊢
      obtain ⟨hlookup, hifmt⟩ := bcondCode_condition (field w 16) h
      exact ⟨hlookup, by rw [hformat, hifmt]⟩

/-! ## The outcome -/

section Outcome

variable {r : Registers} {m : Memory}

/-- An effect that delays no load and leaves memory alone. -/
def computed (writes : List (Reg × Word)) (pcAfter : Word) (m : Memory) : Effect :=
  ⟨writes, pcAfter, 0, 0, m⟩

theorem computed_wellFormed {writes : List (Reg × Word)} (pcAfter : Word) (m : Memory)
    (hvisible : ∀ reg ∈ writes.map Prod.fst, reg < pcReg)
    (hnodup : (writes.map Prod.fst).Nodup) : (computed writes pcAfter m).WellFormed where
  visible w hw := hvisible w.1 (List.mem_map_of_mem hw)
  nodup := hnodup
  load := show (0 : ℕ) < 32 by decide

/-- A value prescribed for a register that the code writes. -/
theorem value_iff {writes : List (Reg × Word)} {pcAfter : Word}
    (hwf : (computed writes pcAfter m).WellFormed) {reg : Reg} (hzero : reg ≠ zeroReg)
    (hmem : reg ∈ writes.map Prod.fst) (v : Word) :
    finish r (computed writes pcAfter m) reg = v ↔
      if reg.val = (r loadReg).toNat then r loadValueReg = v else (reg, v) ∈ writes := by
  obtain ⟨⟨reg, x⟩, hx, rfl⟩ := List.mem_map.1 hmem
  rw [finish_apply hwf (hwf.visible _ hx) hzero]
  split
  · exact Iff.rfl
  · have hnodup : (writes.map Prod.fst).Nodup := hwf.nodup
    change (writes.lookup reg).getD (r reg) = v ↔ (reg, v) ∈ writes
    rw [← lookup_iff_mem hnodup, (lookup_iff_mem hnodup).2 hx, Option.some_inj]
    rfl

/-- **A result as prescribed**: the next program counter, and each value where it is not
overtaken by a delayed load. -/
theorem result_met_iff (htidy : r.Tidy) {writes : List (Reg × Word)} {pcAfter next : Word}
    {values : List (Reg × Option Word)} (hwf : (computed writes pcAfter m).WellFormed)
    (hregs : writes.map Prod.fst = values.map Prod.fst) :
    (Prescription.result values next).Met r m
        (.completed (finish r (computed writes pcAfter m)) m) ↔
      pcAfter = next ∧ ∀ reg v, (reg, some v) ∈ values → reg ≠ zeroReg →
        if reg.val = (r loadReg).toNat then r loadValueReg = v else (reg, v) ∈ writes := by
  have hnodup : (values.map Prod.fst).Nodup := hregs ▸ hwf.nodup
  have hwritten : ∀ {reg v}, (reg, v) ∈ values → reg ∈ writes.map Prod.fst := by
    intro reg v hmem
    rw [hregs]
    exact List.mem_map_of_mem hmem
  constructor
  · rintro ⟨-, -, hnext, -, -, hregisters⟩
    refine ⟨hnext, ?_⟩
    intro reg v hmem hzero
    obtain ⟨w, hw, hreg⟩ := List.mem_map.1 (hwritten hmem)
    have hvalue := hregisters reg (hreg ▸ hwf.visible w hw) hzero
    rw [(lookup_iff_mem hnodup).2 hmem] at hvalue
    exact (value_iff hwf hzero (hwritten hmem) v).1 hvalue
  · rintro ⟨hnext, hvalues⟩
    refine ⟨rfl, finish_pc hwf htidy.load, hnext, rfl, rfl, ?_⟩
    intro reg hreg hzero
    cases hlookup : values.lookup reg with
    | none =>
        have hnot : writes.lookup reg = none := by
          rw [lookup_eq_none, hregs]
          exact lookup_eq_none.1 hlookup
        dsimp only
        rw [finish_apply hwf hreg hzero, arrived]
        change (if _ then _ else (writes.lookup reg).getD _) = _
        rw [hnot]
        rfl
    | some value =>
        have hmem := (lookup_iff_mem hnodup).1 hlookup
        cases value with
        | none => trivial
        | some v => exact (value_iff hwf hzero (hwritten hmem) v).2 (hvalues reg v hmem hzero)

/-- How the code's result compares with the one prescribed. -/
inductive Executed (op : OpCode) (w : Word) (r : Registers) (m : Memory) :
    Except Trap Effect → Prescription → Prop
  | overflow (hregion : InRegion op r) (hdivides : Divides op w r) :
      Executed op w r m (.error (.raise .overflow 0)) .overflow
  | host {values : List (Reg × Option Word)} {next : Word} (h : ¬ Divides op w r) :
      Executed op w r m (.error .abort) (.result values next)
  | result {writes : List (Reg × Word)} {values : List (Reg × Option Word)}
      {pcAfter next : Word} (hwf : (computed writes pcAfter m).WellFormed)
      (hregs : writes.map Prod.fst = values.map Prod.fst) (hdivides : Divides op w r)
      (hnext : pcAfter = next ↔ InRegion op r)
      (hvalues : ∀ reg v, (reg, some v) ∈ values → ((reg, v) ∈ writes ↔ Exact op w r)) :
      Executed op w r m (.ok (computed writes pcAfter m)) (.result values next)

theorem Executed.met_iff {op : OpCode} {w : Word} {result : Except Trap Effect}
    {p : Prescription} (h : Executed op w r m result p) (hp : prescribe op w r = p)
    (htidy : r.Tidy) : p.Met r m (conclude r m result) ↔ Unaffected op w r := by
  unfold Unaffected
  rw [hp]
  cases h with
  | overflow hregion hdivides =>
      have hregisters : ∀ reg < pcReg, reg ≠ zeroReg → raiseException r 0 reg = arrived r reg :=
        fun reg hreg hzero => raiseException_apply hreg hzero 0
      have hkept : ∀ reg : Reg, pcReg ≤ reg → reg < loadReg → raiseException r 0 reg = r reg :=
        fun reg hlow hhigh => raiseException_special htidy.load hlow hhigh 0
      refine iff_of_true ?_ ⟨hregion, hdivides, trivial⟩
      exact ⟨rfl, rfl, hkept pcReg (by decide) (by decide),
        hkept nextPCReg (by decide) (by decide), rfl, hregisters⟩
  | host h =>
      -- the simulator ends, whatever is prescribed
      exact iff_of_false (fun hmet => hmet) fun hunaffected => h hunaffected.2.1
  | result hwf hregs hdivides hnext hvalues =>
      rw [conclude]
      refine (result_met_iff htidy hwf hregs).trans ?_
      rw [hnext, and_iff_right hdivides]
      refine and_congr_right fun _ => ?_
      refine forall₄_congr fun reg v hmem hzero => ?_
      rw [hvalues reg v hmem]

end Outcome

/-! ## Every instruction -/

section Instructions

variable {w : Word} {r : Registers} {m : Memory}

theorem gpr_lt (n : Fin numGPRegs) : gpr n < pcReg := by
  have hlt : n.val < 32 := n.isLt
  exact Fin.lt_def.2 (lt_trans hlt (by decide))

/-- The number of the usual link register. -/
def ra : Fin numGPRegs := ⟨31, by decide⟩

/-- The link register of a branch or a jump, if it has one. -/
inductive Links (r : Registers) : List (Reg × Word) → List (Reg × Option Word) → Prop
  | none : Links r [] []
  | one (n : Fin numGPRegs) :
      Links r [(gpr n, r nextPCReg + 4)] [(gpr n, some (r nextPCReg + 4))]

theorem computed_links {op : OpCode} {links : List (Reg × Word)}
    {values : List (Reg × Option Word)} (hlinks : Links r links values) {pcAfter next : Word}
    (hdivides : Divides op w r) (hexact : Exact op w r)
    (hnext : pcAfter = next ↔ InRegion op r) :
    Executed op w r m (.ok (computed links pcAfter m)) (.result values next) := by
  cases hlinks with
  | none =>
      refine .result (computed_wellFormed _ _ (by simp) (by simp)) rfl hdivides hnext ?_
      exact fun _ _ h => absurd h List.not_mem_nil
  | one n =>
      refine .result (computed_wellFormed _ _ (by simpa using gpr_lt n) (by simp)) rfl hdivides
        hnext ?_
      rintro reg v hmem
      obtain ⟨rfl, hv⟩ := Prod.mk.inj (List.mem_singleton.1 hmem)
      obtain rfl := Option.some.inj hv
      exact iff_of_true (List.mem_singleton_self _) hexact

section Values

variable {op : OpCode} (hop : op ≠ .div ∧ op ≠ .j ∧ op ≠ .jal)

include hop

theorem divides_of_ne : Divides op w r := fun h => absurd h hop.1

theorem inRegion_of_ne : InRegion op r := fun h => absurd h (not_or.2 hop.2)

theorem computed_value {reg : Reg} (hreg : reg < pcReg) {v x : Word}
    (hvalue : v = x ↔ Exact op w r) :
    Executed op w r m (.ok (computed [(reg, v)] (r nextPCReg + 4) m))
      (.result [(reg, some x)] (r nextPCReg + 4)) := by
  refine .result (computed_wellFormed _ _ (by simpa using hreg) (by simp)) rfl
    (divides_of_ne hop) (iff_of_true rfl (inRegion_of_ne hop)) ?_
  rintro reg' y hmem
  obtain ⟨rfl, hy⟩ := Prod.mk.inj (List.mem_singleton.1 hmem)
  obtain rfl := Option.some.inj hy
  rw [← hvalue, List.mem_singleton, Prod.mk.injEq, and_iff_right rfl, eq_comm]

/-- A sum or a difference whose overflow is noticed. -/
theorem computed_checked {n : Fin numGPRegs} {p : Prop} [Decidable p] {v : Word} {i : ℤ}
    (hfits : p ↔ ¬ Fits i) (hvalue : v = BitVec.ofInt 32 i) (hexact : Exact op w r) :
    Executed op w r m
      (if p then .error (.raise .overflow 0)
        else .ok (computed [(gpr n, v)] (r nextPCReg + 4) m))
      (if Fits i then .result [(gpr n, some (BitVec.ofInt 32 i))] (r nextPCReg + 4)
        else .overflow) := by
  by_cases h : Fits i
  · rw [if_pos h, if_neg (mt hfits.1 (not_not_intro h))]
    exact computed_value hop (gpr_lt n) (iff_of_true hvalue hexact)
  · rw [if_neg h, if_pos (hfits.2 h)]
    exact .overflow (inRegion_of_ne hop) (divides_of_ne hop)

/-- A branch is relative to its delay slot. -/
theorem computed_branch {links : List (Reg × Word)} {values : List (Reg × Option Word)}
    (hlinks : Links r links values) (hexact : Exact op w r) {e : Effect} {taken : Bool}
    (he : e = computed links (if taken then r nextPCReg + indexToAddr (extraField w .ifmt)
      else r nextPCReg + 4) m)
    {p : Prop} [Decidable p] (htaken : taken = true ↔ p) :
    Executed op w r m (.ok e)
      (.result values (if p then r nextPCReg + BitVec.ofInt 32 (4 * (immediate w).toInt)
        else r nextPCReg + 4)) := by
  rw [he, extraField_ifmt, branch_offset]
  refine computed_links hlinks (divides_of_ne hop) hexact (iff_of_true ?_ (inRegion_of_ne hop))
  exact if_congr htaken rfl rfl

end Values

/-- `Hi` and `Lo`, in the one order or the other. -/
theorem computed_pair {op : OpCode} (hop : op ≠ .j ∧ op ≠ .jal) (hdivides : Divides op w r)
    (hexact : Exact op w r) {a b : Reg} (hregs : (a = hiReg ∧ b = loReg) ∨ (a = loReg ∧ b = hiReg))
    {x y : Word} {x' y' : Option Word} (hx : ∀ v, x' = some v → x = v)
    (hy : ∀ v, y' = some v → y = v) :
    Executed op w r m (.ok (computed [(a, x), (b, y)] (r nextPCReg + 4) m))
      (.result [(a, x'), (b, y')] (r nextPCReg + 4)) := by
  have hvisible : (∀ reg ∈ [a, b], reg < pcReg) ∧ [a, b].Nodup := by
    rcases hregs with ⟨rfl, rfl⟩ | ⟨rfl, rfl⟩ <;> decide
  refine .result (computed_wellFormed _ _ hvisible.1 hvisible.2) rfl hdivides
    (iff_of_true rfl fun h => absurd h (not_or.2 hop)) ?_
  · intro reg v hmem
    refine iff_of_true ?_ hexact
    rw [List.mem_cons, List.mem_singleton] at hmem ⊢
    rcases hmem with h | h
    · obtain ⟨rfl, hv⟩ := Prod.mk.inj h
      rw [hx v hv.symm]
      exact .inl rfl
    · obtain ⟨rfl, hv⟩ := Prod.mk.inj h
      rw [hy v hv.symm]
      exact .inr rfl

theorem computed_product {op : OpCode} (hop : op = .mult ∨ op = .multu) {n : ℤ} {hi lo : Word}
    (hwords : hi = BitVec.ofInt 32 (n / 2 ^ 32) ∧ lo = BitVec.ofInt 32 n) :
    Executed op w r m (.ok (computed [(hiReg, hi), (loReg, lo)] (r nextPCReg + 4) m))
      (.result [(hiReg, some (BitVec.ofInt 32 (n / 2 ^ 32))), (loReg, some (BitVec.ofInt 32 n))]
        (r nextPCReg + 4)) := by
  have hexact : Exact op w r := by
    rcases hop with rfl | rfl <;> trivial
  refine computed_pair ?_ ?_ hexact (.inl ⟨rfl, rfl⟩) ?_ ?_
  · rcases hop with rfl | rfl <;> decide
  · rcases hop with rfl | rfl <;> exact fun h => absurd h (by decide)
  · exact fun v hv => hwords.1.trans (Option.some.inj hv)
  · exact fun v hv => hwords.2.trans (Option.some.inj hv)

/-- A quotient and a remainder, in a division that the host can do. -/
theorem computed_quotient {op : OpCode} (hop : op = .div ∨ op = .divu) (hdivides : Divides op w r)
    {p : Prop} [Decidable p] {q rem q' rem' : Word} (hq : q = q') (hrem : rem = rem') :
    Executed op w r m
      (if p then .ok (computed [(loReg, 0), (hiReg, 0)] (r nextPCReg + 4) m)
        else .ok (computed [(loReg, q), (hiReg, rem)] (r nextPCReg + 4) m))
      (if p then .result [(loReg, none), (hiReg, none)] (r nextPCReg + 4)
        else .result [(loReg, some q'), (hiReg, some rem')] (r nextPCReg + 4)) := by
  have hjump : op ≠ .j ∧ op ≠ .jal := by
    rcases hop with rfl | rfl <;> decide
  have hexact : Exact op w r := by
    rcases hop with rfl | rfl <;> trivial
  by_cases h : p
  · rw [if_pos h, if_pos h]
    exact computed_pair hjump hdivides hexact (.inr ⟨rfl, rfl⟩) nofun nofun
  · rw [if_neg h, if_neg h]
    exact computed_pair hjump hdivides hexact (.inr ⟨rfl, rfl⟩)
      (fun v hv => hq.trans (Option.some.inj hv)) (fun v hv => hrem.trans (Option.some.inj hv))

/-- The signed division. -/
theorem executed_div (tlb : Translation) :
    Executed .div w r m
      (execute ⟨.div, field w 21, field w 16, field w 11, extraField w (formatOf .div)⟩ tlb r m)
      (prescribe .div w r) := by
  by_cases h : r (gpr (field w 21)) = signBit ∧ r (gpr (field w 16)) = -1
  · have hzero : ¬ r (gpr (field w 16)) = 0 := by
      rw [h.2]
      decide
    simp only [execute, prescribe]
    rw [if_neg hzero, if_pos h, if_neg hzero]
    exact .host fun hdivides => hdivides rfl h
  · have hquotient := computed_quotient (m := m) (.inl rfl) (fun _ => h)
      (p := r (gpr (field w 16)) = 0)
      (sdiv_toInt (r (gpr (field w 21))) (r (gpr (field w 16))))
      (srem_toInt (r (gpr (field w 21))) (r (gpr (field w 16))))
    simp only [execute, prescribe]
    rw [if_neg h]
    exact hquotient

theorem branch_eq (taken : Bool) (x y : Word) :
    (if taken then computed [] x m else computed [] y m) =
      computed [] (if taken then x else y) m := by
  cases taken <;> rfl

theorem branch_link_eq (taken : Bool) (x y : Word) (links : List (Reg × Word)) :
    { (if taken then computed [] x m else computed [] y m) with writes := links } =
      computed links (if taken then x else y) m := by
  cases taken <;> rfl

theorem flag_eq {b : Bool} {p : Prop} [Decidable p] (h : b = true ↔ p) : flag b = truth p :=
  if_congr h rfl rfl

theorem executed (op : OpCode) (hop : Computes op) (hlink : LinkApart op w) (tlb : Translation) :
    Executed op w r m
      (execute ⟨op, field w 21, field w 16, field w 11, extraField w (formatOf op)⟩ tlb r m)
      (prescribe op w r) := by
  cases op with
  | add => exact computed_checked (by decide) (add_overflows_iff ..) (add_toInt ..) trivial
  | sub => exact computed_checked (by decide) (sub_overflows_iff ..) (sub_toInt ..) trivial
  | addi =>
      refine computed_checked (by decide) ?_ ?_ trivial
      · -- the code tests the immediate for a change of sign
        have htest := add_overflows_iff ((immediate w).signExtend 32) (r (gpr (field w 21)))
        rw [toInt_signExtend, BitVec.xor_comm, BitVec.add_comm, Int.add_comm,
          ← extraField_ifmt] at htest
        exact htest
      · exact add_immediate ..
  | addu => exact computed_value (by decide) (gpr_lt _) (iff_of_true (add_toInt ..) trivial)
  | subu => exact computed_value (by decide) (gpr_lt _) (iff_of_true (sub_toInt ..) trivial)
  | addiu => exact computed_value (by decide) (gpr_lt _) (iff_of_true (add_immediate ..) trivial)
  | and | xor | nor => exact computed_value (by decide) (gpr_lt _) (iff_of_true rfl trivial)
  | or => exact computed_value (by decide) (gpr_lt _) (or_self_eq_iff ..)
  | andi | ori | xori =>
      refine computed_value (by decide) (gpr_lt _) (iff_of_true ?_ trivial)
      exact congrArg _ (low_extraField w)
  | lui => exact computed_value (by decide) (gpr_lt _) (iff_of_true (lui_value w) trivial)
  | sll => exact computed_value (by decide) (gpr_lt _) (iff_of_true (sll_value ..) trivial)
  | sllv => exact computed_value (by decide) (gpr_lt _) (iff_of_true (sllv_value ..) trivial)
  | sra => exact computed_value (by decide) (gpr_lt _) (iff_of_true (sra_value ..) trivial)
  | srav => exact computed_value (by decide) (gpr_lt _) (iff_of_true (srav_value ..) trivial)
  | srl => exact computed_value (by decide) (gpr_lt _) (srl_value_iff ..)
  | srlv => exact computed_value (by decide) (gpr_lt _) (srlv_value_iff ..)
  | slt =>
      exact computed_value (by decide) (gpr_lt _)
        (iff_of_true (flag_eq BitVec.slt_iff_toInt_lt) trivial)
  | sltu =>
      exact computed_value (by decide) (gpr_lt _)
        (iff_of_true (flag_eq BitVec.ult_iff_toNat_lt) trivial)
  | slti =>
      exact computed_value (by decide) (gpr_lt _) (iff_of_true (flag_eq (slti_iff ..)) trivial)
  | sltiu =>
      exact computed_value (by decide) (gpr_lt _) (iff_of_true (flag_eq (sltiu_iff ..)) trivial)
  | beq =>
      refine computed_branch (by decide) .none ?_ (branch_eq ..) beq_iff_eq
      trivial
  | bne =>
      refine computed_branch (by decide) .none ?_ (branch_eq ..) bne_iff_ne
      trivial
  | blez =>
      refine computed_branch (by decide) .none ?_ (branch_eq ..) BitVec.sle_iff_toInt_le
      trivial
  | bgtz =>
      refine computed_branch (by decide) .none ?_ (branch_eq ..) BitVec.slt_iff_toInt_lt
      trivial
  | bltz =>
      refine computed_branch (by decide) .none ?_ (branch_eq ..) (sign_set_iff _)
      trivial
  | bgez =>
      refine computed_branch (by decide) .none ?_ (branch_eq ..) (sign_clear_iff _)
      trivial
  | bltzal =>
      refine computed_branch (by decide) (.one ra) ?_ (branch_link_eq ..) ?_
      · trivial
      · rw [if_neg (hlink.1 (.inl rfl))]
        exact sign_set_iff _
  | bgezal =>
      refine computed_branch (by decide) (.one ra) ?_ (branch_link_eq ..) ?_
      · trivial
      · rw [if_neg (hlink.1 (.inr rfl))]
        exact sign_clear_iff _
  | j =>
      exact computed_links .none (fun h => absurd h (by decide)) trivial
        ((jump_iff ..).trans ⟨fun h _ => h, fun h => h (.inl rfl)⟩)
  | jal =>
      exact computed_links (.one ra) (fun h => absurd h (by decide)) trivial
        ((jump_iff ..).trans ⟨fun h _ => h, fun h => h (.inr rfl)⟩)
  | jr =>
      exact computed_links .none (fun h => absurd h (by decide)) trivial
        (iff_of_true rfl fun h => absurd h (by decide))
  | jalr =>
      exact computed_links (.one _) (fun h => absurd h (by decide)) trivial
        (iff_of_true (if_neg (hlink.2 rfl)) fun h => absurd h (by decide))
  | mult => exact computed_product (.inl rfl) (mult_words ..)
  | multu => exact computed_product (.inr rfl) (multu_words ..)
  | div => exact executed_div tlb
  | divu =>
      exact computed_quotient (.inr rfl) (fun h => absurd h (by decide)) (udiv_toNat ..)
        (umod_toNat ..)
  | mfhi | mflo => exact computed_value (by decide) (gpr_lt _) (iff_of_true rfl trivial)
  | mthi | mtlo => exact computed_value (by decide) (by decide) (iff_of_true rfl trivial)
  | lb | lbu | lh | lhu | lw | lwl | lwr | sb | sh | sw | swl | swr | syscall | res | unimp =>
      exact absurd hop (by decide)

/-- **What an instruction computes.** Let it be fetched, and let it be one that computes and
that does not read the register it links in. It meets the manual if and only if none of the
slips matters to it. -/
theorem oneInstruction_meets_iff (htidy : r.Tidy) {tlb : Translation}
    (hfetch : readMem tlb .fetch m (r pcReg) 4 = .ok w) (hop : Computes (decode w).opCode)
    (hlink : LinkApart (decode w).opCode w) :
    MeetsManual w r m (oneInstruction tlb r m) ↔ Unaffected (decode w).opCode w r := by
  obtain ⟨hmnemonic, hextra⟩ := decode_mnemonic hop
  have hdecode : decode w = ⟨(decode w).opCode, field w 21, field w 16, field w 11,
      extraField w (formatOf (decode w).opCode)⟩ := by
    rw [← hextra, ← regField_eq, ← regField_eq, ← regField_eq]
    rfl
  have hexecuted := executed (r := r) (m := m) _ hop hlink tlb
  rw [← hdecode] at hexecuted
  have hone : oneInstruction tlb r m = conclude r m (execute (decode w) tlb r m) := by
    rw [oneInstruction, hfetch]
  unfold MeetsManual
  rw [hone, hmnemonic, ← hexecuted.met_iff rfl htidy]
  constructor
  · rintro ⟨op, heq, hmet⟩
    rw [Option.some.inj heq]
    exact hmet
  · exact fun hmet => ⟨_, rfl, hmet⟩

end Instructions

/-! ## Two words -/

/-- Every address is mapped. -/
def allMapped : Translation := fun _ _ _ => .ok ()

/-- `ADDU $3, $1, $2`. -/
theorem oneInstruction_meets_iff_sample :
    MeetsManual 0x00221821 (operands 6 3) (oneWord 0x00221821)
      (oneInstruction allMapped (operands 6 3) (oneWord 0x00221821)) := by
  refine (oneInstruction_meets_iff ⟨by decide, by decide⟩ (by decide) (by decide) (by decide)).2
    ⟨fun h => absurd h (by decide), fun h => absurd h (by decide), ?_⟩
  intro reg v hmem hzero
  have hreg : reg = (3 : Fin 40) := congrArg Prod.fst (List.mem_singleton.1 hmem)
  rw [hreg]
  exact trivial

/-- `OR $3, $1, $2` of 4 and 3, and `SRL $3, $2, 4` of the number with all bits set. -/
theorem or_srl_differ :
    ¬ MeetsManual 0x00221825 (operands 4 3) (oneWord 0x00221825)
        (oneInstruction allMapped (operands 4 3) (oneWord 0x00221825)) ∧
      ¬ MeetsManual 0x00021902 (operands 0 0xffffffff) (oneWord 0x00021902)
        (oneInstruction allMapped (operands 0 0xffffffff) (oneWord 0x00021902)) := by
  have hthree : (3 : Fin 40) ≠ zeroReg := Fin.ne_of_val_ne (by decide)
  constructor
  · rintro ⟨op, hop, hmet⟩
    obtain rfl : op = .or := Option.some.inj (hop.symm.trans (by decide))
    have hvalue := Prescription.Met.value hmet (3 : Fin 40) (by decide) hthree rfl
    exact absurd hvalue (by decide)
  · rintro ⟨op, hop, hmet⟩
    obtain rfl : op = .srl := Option.some.inj (hop.symm.trans (by decide))
    have hvalue := Prescription.Met.value hmet (3 : Fin 40) (by decide) hthree rfl
    exact absurd hvalue (by decide)

end Nachos.Machine
