import Nachos.Machine.Mipssim
import Mathlib.Tactic.IntervalCases

/-!
# Words as numbers

What the C expressions of the simulator come to in the numbers that the words stand
for: fields and immediates, the tests for overflow, the shifts, the targets of jumps
and branches, and the rounds of `Mult`.
-/

namespace Nachos.Machine

/-! ## Fields and immediates -/

/-- The immediate of an instruction. -/
def immediate (w : Word) : BitVec 16 := w.extractLsb' 0 16

/-- The target of a jump. -/
def target (w : Word) : BitVec 26 := w.extractLsb' 0 26

/-- The number of bits to shift by. -/
def shiftAmount (w : Word) : BitVec 5 := w.extractLsb' 6 5

/-- Bits `k` to `k + n` of a word, shifted and masked or cut out. -/
theorem toNat_shift_and (w : Word) (k n : ℕ) (h : n < 32) :
    ((w >>> k) &&& BitVec.ofNat 32 (2 ^ n - 1)).toNat = (w.extractLsb' k n).toNat := by
  have hlt : 2 ^ n - 1 < 2 ^ 32 := by
    have := Nat.pow_lt_pow_right (a := 2) (by decide) h
    omega
  rw [BitVec.toNat_and, BitVec.extractLsb'_toNat, BitVec.toNat_ushiftRight, BitVec.toNat_ofNat,
    Nat.mod_eq_of_lt hlt, Nat.and_two_pow_sub_one_eq_mod]

/-- An immediate has its sign. -/
theorem extraField_ifmt (w : Word) :
    extraField w .ifmt = (immediate w).signExtend 32 := by
  have hsign : (w &&& 0xffff) &&& 0x8000 ≠ 0 ↔ w.getLsbD 15 := by
    have hbit : (w &&& 0xffff) &&& 0x8000 = if w.getLsbD 15 then 0x8000 else (0 : Word) := by
      apply BitVec.eq_of_getLsbD_eq
      intro k hk
      cases h : w.getLsbD 15 <;> interval_cases k <;> simp [-BitVec.getLsbD_eq_getElem, h]
    rw [hbit]
    cases w.getLsbD 15 <;> simp
  simp only [extraField, hsign]
  apply BitVec.eq_of_getLsbD_eq
  intro k hk
  have hmsb : (immediate w).msb = w.getLsbD 15 := by
    rw [immediate, BitVec.msb_eq_getLsbD_last, BitVec.getLsbD_extractLsb']
    rfl
  rw [BitVec.getLsbD_signExtend, hmsb]
  cases h : w.getLsbD 15 <;> interval_cases k <;>
    simp [immediate, -BitVec.getLsbD_eq_getElem, h]

theorem toInt_signExtend (i : BitVec 16) : (i.signExtend 32).toInt = i.toInt :=
  BitVec.toInt_signExtend_of_le (by decide)

/-- The logical instructions take the sign off again. -/
theorem low_signExtend (i : BitVec 16) :
    i.signExtend 32 &&& (0xffff : Word) = i.setWidth 32 := by
  apply BitVec.eq_of_getLsbD_eq
  intro k hk
  rw [BitVec.getLsbD_and, BitVec.getLsbD_signExtend, BitVec.getLsbD_setWidth]
  interval_cases k <;> simp [-BitVec.getLsbD_eq_getElem]

theorem low_extraField (w : Word) :
    extraField w .ifmt &&& (0xffff : Word) = (immediate w).setWidth 32 := by
  rw [extraField_ifmt, low_signExtend]

theorem high_signExtend (i : BitVec 16) :
    i.signExtend 32 <<< 16 = BitVec.ofNat 32 (i.toNat * 2 ^ 16) := by
  have hlow : i.signExtend 32 <<< 16 = i.setWidth 32 <<< 16 := by
    apply BitVec.eq_of_getLsbD_eq
    intro k hk
    rw [BitVec.getLsbD_shiftLeft, BitVec.getLsbD_shiftLeft, BitVec.getLsbD_signExtend,
      BitVec.getLsbD_setWidth]
    interval_cases k <;> simp [-BitVec.getLsbD_eq_getElem]
  rw [hlow]
  apply BitVec.eq_of_toNat_eq
  have hi := i.isLt
  rw [BitVec.toNat_shiftLeft, BitVec.toNat_setWidth, Nat.shiftLeft_eq, BitVec.toNat_ofNat]
  omega

theorem lui_value (w : Word) :
    extraField w .ifmt <<< 16 = BitVec.ofNat 32 ((immediate w).toNat * 2 ^ 16) := by
  rw [extraField_ifmt, high_signExtend]

theorem extraField_jfmt (w : Word) :
    extraField w .jfmt = (target w).setWidth 32 := by
  rw [extraField]
  apply BitVec.eq_of_toNat_eq
  have hmask := toNat_shift_and w 0 26 (by decide)
  rw [BitVec.ushiftRight_zero] at hmask
  rw [BitVec.toNat_setWidth, target, ← hmask, Nat.mod_eq_of_lt (BitVec.isLt _)]
  rfl

theorem extraField_rfmt (w : Word) : (extraField w .rfmt).toNat = (shiftAmount w).toNat :=
  toNat_shift_and w 6 5 (by decide)

/-! ## Signs and overflow -/

theorem and_signBit (x : Word) : x &&& signBit = if x.msb then signBit else 0 := by
  apply BitVec.eq_of_getLsbD_eq
  intro k hk
  rw [BitVec.msb_eq_getLsbD_last]
  cases h : x.getLsbD 31 <;> interval_cases k <;>
    simp [signBit, -BitVec.getLsbD_eq_getElem, h]

theorem and_signBit_eq_zero (x : Word) : x &&& signBit = 0 ↔ 0 ≤ x.toInt := by
  rw [and_signBit, BitVec.msb_eq_toInt]
  by_cases h : x.toInt < 0
  · rw [decide_eq_true h, if_pos rfl]
    exact iff_of_false (by decide) (by omega)
  · rw [decide_eq_false h, if_neg (by simp)]
    exact iff_of_true rfl (by omega)

theorem xor_signBit_eq_zero (x y : Word) :
    (x ^^^ y) &&& signBit = 0 ↔ (0 ≤ x.toInt ↔ 0 ≤ y.toInt) := by
  rw [and_signBit, BitVec.msb_xor, BitVec.msb_eq_toInt, BitVec.msb_eq_toInt]
  by_cases hx : x.toInt < 0 <;> by_cases hy : y.toInt < 0 <;> simp [hx, hy, signBit] <;> omega

theorem add_toInt (x y : Word) : x + y = BitVec.ofInt 32 (x.toInt + y.toInt) := by
  rw [BitVec.ofInt_add, BitVec.ofInt_toInt, BitVec.ofInt_toInt]

theorem sub_toInt (x y : Word) : x - y = BitVec.ofInt 32 (x.toInt - y.toInt) := by
  apply BitVec.eq_of_toInt_eq
  rw [BitVec.toInt_sub, BitVec.toInt_ofInt]

theorem add_immediate (x w : Word) :
    x + extraField w .ifmt = BitVec.ofInt 32 (x.toInt + (immediate w).toInt) := by
  rw [add_toInt, extraField_ifmt, toInt_signExtend]

/-- `OR` with the first operand twice. -/
theorem or_self_eq_iff (x y : Word) : x ||| x = x ||| y ↔ x ||| y = x := by
  rw [BitVec.or_self, eq_comm]

/-- A number that an `int` can be. -/
def Fits (n : ℤ) : Prop := -2 ^ 31 ≤ n ∧ n < 2 ^ 31

instance (n : ℤ) : Decidable (Fits n) := inferInstanceAs (Decidable (_ ∧ _))

theorem fits_toInt (x : Word) : Fits x.toInt := ⟨BitVec.le_toInt x, BitVec.toInt_lt⟩

/-- **The test for overflow** of a sum. -/
theorem add_overflows_iff (x y : Word) :
    ((x ^^^ y) &&& signBit = 0 ∧ (x ^^^ (x + y)) &&& signBit ≠ 0) ↔ ¬ Fits (x.toInt + y.toInt) := by
  have hx := fits_toInt x
  have hy := fits_toInt y
  rw [ne_eq, xor_signBit_eq_zero, xor_signBit_eq_zero, BitVec.toInt_add]
  unfold Fits at *
  rw [Int.bmod_def]
  split <;> omega

/-- **The test for overflow** of a difference. -/
theorem sub_overflows_iff (x y : Word) :
    ((x ^^^ y) &&& signBit ≠ 0 ∧ (x ^^^ (x - y)) &&& signBit ≠ 0) ↔ ¬ Fits (x.toInt - y.toInt) := by
  have hx := fits_toInt x
  have hy := fits_toInt y
  rw [ne_eq, ne_eq, xor_signBit_eq_zero, xor_signBit_eq_zero, BitVec.toInt_sub]
  unfold Fits at *
  rw [Int.bmod_def]
  split <;> omega

/-! ## Comparisons -/

theorem slti_iff (x w : Word) :
    x.slt (extraField w .ifmt) = true ↔ x.toInt < (immediate w).toInt := by
  rw [BitVec.slt_iff_toInt_lt, extraField_ifmt, toInt_signExtend]

/-- The immediate keeps its sign, and is then compared without one. -/
theorem sltiu_iff (x w : Word) : x.ult (extraField w .ifmt) = true ↔
    x.toNat < (BitVec.ofInt 32 (immediate w).toInt).toNat := by
  rw [BitVec.ult_iff_toNat_lt, extraField_ifmt]
  rfl

theorem sign_clear_iff (x : Word) : (x &&& signBit == 0) = true ↔ 0 ≤ x.toInt := by
  rw [beq_iff_eq, and_signBit_eq_zero]

theorem sign_set_iff (x : Word) : (x &&& signBit != 0) = true ↔ x.toInt < 0 := by
  rw [bne_iff_ne, ne_eq, and_signBit_eq_zero, Int.not_le]

/-! ## Shifts and quotients -/

theorem shiftLeft_toNat (x : Word) (n : ℕ) :
    x <<< n = BitVec.ofNat 32 (x.toNat * 2 ^ n) := by
  apply BitVec.eq_of_toNat_eq
  rw [BitVec.toNat_shiftLeft, Nat.shiftLeft_eq, BitVec.toNat_ofNat]

theorem sshiftRight_toInt (x : Word) (n : ℕ) :
    x.sshiftRight n = BitVec.ofInt 32 (x.toInt / 2 ^ n) := by
  rw [BitVec.sshiftRight, Int.shiftRight_eq_div_pow]
  push_cast
  rfl

theorem low_five (x : Word) : (x &&& 0x1f).toNat = x.toNat % 32 := by
  rw [BitVec.toNat_and]
  exact Nat.and_two_pow_sub_one_eq_mod x.toNat 5

/-- **A right shift of an `int`** is one that inserts zeros only for numbers without a
sign. -/
theorem sshiftRight_eq_iff {x : Word} {n : ℕ} (hn : n < 32) :
    x.sshiftRight n = BitVec.ofNat 32 (x.toNat / 2 ^ n) ↔ n = 0 ∨ x.msb = false := by
  have hlogical : BitVec.ofNat 32 (x.toNat / 2 ^ n) = x >>> n := by
    apply BitVec.eq_of_toNat_eq
    rw [BitVec.toNat_ofNat, BitVec.toNat_ushiftRight, Nat.shiftRight_eq_div_pow, Nat.mod_eq_of_lt]
    exact Nat.lt_of_le_of_lt (Nat.div_le_self ..) x.isLt
  rw [hlogical]
  constructor
  · intro h
    by_contra hnot
    rw [not_or, Bool.not_eq_false] at hnot
    -- the sign stays, where it should have gone
    have hmsb := congrArg BitVec.msb h
    rw [BitVec.msb_sshiftRight, hnot.2, BitVec.msb_eq_toNat, BitVec.toNat_ushiftRight,
      Nat.shiftRight_eq_div_pow, eq_comm, decide_eq_true_iff] at hmsb
    have hhalf : x.toNat / 2 ^ n ≤ x.toNat / 2 ^ 1 :=
      Nat.div_le_div_left (Nat.pow_le_pow_right (by decide) (by omega)) (by decide)
    have := x.isLt
    omega
  · rintro (rfl | h)
    · simp
    · exact BitVec.sshiftRight_eq_of_msb_false h

/-! The number of bits to shift by stands in the instruction or in a register. -/

theorem sll_value (x w : Word) : x <<< (extraField w .rfmt).toNat =
    BitVec.ofNat 32 (x.toNat * 2 ^ (shiftAmount w).toNat) := by
  rw [shiftLeft_toNat, extraField_rfmt]

theorem sllv_value (x y : Word) : x <<< (y &&& (0x1f : Word)).toNat =
    BitVec.ofNat 32 (x.toNat * 2 ^ (y.toNat % 32)) := by
  rw [shiftLeft_toNat, low_five]

theorem sra_value (x w : Word) : x.sshiftRight (extraField w .rfmt).toNat =
    BitVec.ofInt 32 (x.toInt / 2 ^ (shiftAmount w).toNat) := by
  rw [sshiftRight_toInt, extraField_rfmt]

theorem srav_value (x y : Word) : x.sshiftRight (y &&& (0x1f : Word)).toNat =
    BitVec.ofInt 32 (x.toInt / 2 ^ (y.toNat % 32)) := by
  rw [sshiftRight_toInt, low_five]

theorem srl_value_iff (x w : Word) : x.sshiftRight (extraField w .rfmt).toNat =
    BitVec.ofNat 32 (x.toNat / 2 ^ (shiftAmount w).toNat) ↔
      (shiftAmount w).toNat = 0 ∨ x.msb = false := by
  rw [extraField_rfmt]
  exact sshiftRight_eq_iff (shiftAmount w).isLt

theorem srlv_value_iff (x y : Word) : x.sshiftRight (y &&& (0x1f : Word)).toNat =
    BitVec.ofNat 32 (x.toNat / 2 ^ (y.toNat % 32)) ↔ y.toNat % 32 = 0 ∨ x.msb = false := by
  rw [low_five]
  exact sshiftRight_eq_iff (Nat.mod_lt _ (by decide))

theorem sdiv_toInt (x y : Word) : x.sdiv y = BitVec.ofInt 32 (x.toInt.tdiv y.toInt) := by
  apply BitVec.eq_of_toInt_eq
  rw [BitVec.toInt_sdiv, BitVec.toInt_ofInt]

theorem udiv_toNat (x y : Word) : x / y = BitVec.ofNat 32 (x.toNat / y.toNat) := by
  apply BitVec.eq_of_toNat_eq
  rw [BitVec.toNat_udiv, BitVec.toNat_ofNat, Nat.mod_eq_of_lt]
  exact Nat.lt_of_le_of_lt (Nat.div_le_self ..) x.isLt

theorem umod_toNat (x y : Word) : x % y = BitVec.ofNat 32 (x.toNat % y.toNat) := by
  apply BitVec.eq_of_toNat_eq
  rw [BitVec.toNat_umod, BitVec.toNat_ofNat]
  exact (Nat.mod_eq_of_lt (Nat.lt_of_le_of_lt (Nat.mod_le ..) x.isLt)).symm

theorem srem_toInt (x y : Word) : x.srem y = BitVec.ofInt 32 (x.toInt.tmod y.toInt) := by
  rw [← BitVec.toInt_srem, BitVec.ofInt_toInt]

/-! ## Jumps and branches -/

theorem and_highBits (x : Word) :
    x &&& (0xf0000000 : Word) = BitVec.ofNat 32 (x.toNat / 2 ^ 28 * 2 ^ 28) := by
  have hshift : x &&& (0xf0000000 : Word) = (x >>> 28) <<< 28 := by
    apply BitVec.eq_of_getLsbD_eq
    intro k hk
    interval_cases k <;> simp [-BitVec.getLsbD_eq_getElem]
  rw [hshift]
  apply BitVec.eq_of_toNat_eq
  rw [BitVec.toNat_shiftLeft, BitVec.toNat_ushiftRight, Nat.shiftRight_eq_div_pow,
    Nat.shiftLeft_eq, BitVec.toNat_ofNat]

/-- The target of a jump: the high four bits of an address and 26 bits of the instruction. -/
theorem jump_target (pc : Word) (t : BitVec 26) :
    (pc &&& 0xf0000000) ||| indexToAddr (t.setWidth 32) =
      BitVec.ofNat 32 (pc.toNat / 2 ^ 28 * 2 ^ 28 + 4 * t.toNat) := by
  have hdisjoint : (pc &&& 0xf0000000) &&& indexToAddr (t.setWidth 32) = 0 := by
    apply BitVec.eq_of_getLsbD_eq
    intro k hk
    interval_cases k <;> simp [indexToAddr, -BitVec.getLsbD_eq_getElem]
  rw [← BitVec.add_eq_or_of_and_eq_zero _ _ hdisjoint, and_highBits]
  apply BitVec.eq_of_toNat_eq
  have ht := t.isLt
  rw [BitVec.toNat_add, indexToAddr, BitVec.toNat_shiftLeft, BitVec.toNat_setWidth,
    Nat.shiftLeft_eq, BitVec.toNat_ofNat, BitVec.toNat_ofNat]
  omega

theorem shiftLeft_two (x : Word) : x <<< 2 = (4 : Word) * x := by
  apply BitVec.eq_of_toNat_eq
  simp only [BitVec.toNat_shiftLeft, BitVec.toNat_mul, Nat.shiftLeft_eq, BitVec.ofNat_eq_ofNat,
    BitVec.toNat_ofNat]
  omega

/-- The offset of a branch. -/
theorem branch_offset (imm : BitVec 16) :
    indexToAddr (imm.signExtend 32) = BitVec.ofInt 32 (4 * imm.toInt) := by
  rw [indexToAddr, shiftLeft_two, BitVec.signExtend, BitVec.ofInt_mul]
  rfl

/-- The target of a jump from the word behind the delay slot is the target from the delay
slot where both are in one region. -/
theorem jump_iff (slot w : Word) :
    ((slot + 4) &&& (0xf0000000 : Word)) ||| indexToAddr (extraField w .jfmt) =
        BitVec.ofNat 32 (slot.toNat / 2 ^ 28 * 2 ^ 28 + 4 * (target w).toNat) ↔
      (slot + 4).toNat / 2 ^ 28 = slot.toNat / 2 ^ 28 := by
  rw [extraField_jfmt, jump_target, ← BitVec.toNat_inj, BitVec.toNat_ofNat, BitVec.toNat_ofNat]
  have ht := (target w).isLt
  have hslot := slot.isLt
  have hnext := (slot + 4).isLt
  omega

/-! ## Multiplication -/

/-- A double word. -/
def double (hi lo : Word) : BitVec 64 := hi ++ lo

theorem double_toNat (hi lo : Word) : (double hi lo).toNat = hi.toNat * 2 ^ 32 + lo.toNat := by
  rw [double, BitVec.toNat_append, ← Nat.shiftLeft_add_eq_or_of_lt lo.isLt, Nat.shiftLeft_eq]

/-- The sum of a round, with the carry. -/
theorem double_add (hi lo bHi bLo : Word) :
    double ((if lo + bLo < bLo then hi + (1 : Word) else hi) + bHi) (lo + bLo) =
      double hi lo + double bHi bLo := by
  apply BitVec.eq_of_toNat_eq
  have hlo := lo.isLt
  have hbLo := bLo.isLt
  rw [BitVec.toNat_add, double_toNat, double_toNat, double_toNat]
  by_cases h : lo + bLo < bLo
  · rw [if_pos h]
    rw [BitVec.lt_def, BitVec.toNat_add] at h
    simp only [BitVec.toNat_add, BitVec.toNat_ofNat, BitVec.ofNat_eq_ofNat]
    omega
  · rw [if_neg h]
    rw [BitVec.lt_def, BitVec.toNat_add] at h
    simp only [BitVec.toNat_add]
    omega

theorem shiftLeft_one (x : Word) : x <<< 1 = (2 : Word) * x := by
  apply BitVec.eq_of_toNat_eq
  simp only [BitVec.toNat_shiftLeft, BitVec.toNat_mul, Nat.shiftLeft_eq, BitVec.ofNat_eq_ofNat,
    BitVec.toNat_ofNat]
  omega

/-- The other factor for the next round. -/
theorem double_shiftLeft (bHi bLo : Word) :
    double ((bHi <<< 1) ||| (if bLo &&& 0x80000000 ≠ 0 then (1 : Word) else 0)) (bLo <<< 1) =
      2 * double bHi bLo := by
  have hcarry : (bHi <<< 1) ||| (if bLo &&& 0x80000000 ≠ 0 then (1 : Word) else 0) =
      (2 : Word) * bHi + (if bLo.msb then 1 else 0) := by
    rw [← shiftLeft_one, BitVec.add_eq_or_of_and_eq_zero]
    · change _ ||| (if bLo &&& signBit ≠ 0 then _ else _) = _
      rw [and_signBit]
      cases bLo.msb <;> simp [signBit]
    · apply BitVec.eq_of_getLsbD_eq
      intro k hk
      cases bLo.msb
      · simp
      · cases k <;> simp
  rw [hcarry, shiftLeft_one]
  apply BitVec.eq_of_toNat_eq
  have hlo := bLo.isLt
  rw [double_toNat, BitVec.toNat_mul, BitVec.toNat_mul, double_toNat, BitVec.msb_eq_toNat]
  by_cases h : 2 ^ (32 - 1) ≤ bLo.toNat
  · simp only [h, decide_true, if_true, BitVec.toNat_add, BitVec.toNat_mul, BitVec.toNat_ofNat,
      BitVec.ofNat_eq_ofNat]
    omega
  · simp only [h, decide_false, Bool.false_eq_true, if_false, BitVec.toNat_add, BitVec.toNat_mul,
      BitVec.toNat_ofNat, BitVec.ofNat_eq_ofNat]
    omega

theorem and_one_ne_zero (a : Word) : a &&& 1 ≠ 0 ↔ a.toNat % 2 = 1 := by
  rw [ne_eq, ← BitVec.toNat_inj, BitVec.toNat_and]
  change ¬ (a.toNat &&& 1) = 0 ↔ _
  rw [Nat.and_one_is_mod]
  omega

/-- One round adds the other factor if the last bit is set. -/
theorem multRound (a bLo bHi lo hi : Word) :
    double
        (if a &&& 1 ≠ 0 then
          (if (if a &&& 1 ≠ 0 then lo + bLo else lo) < bLo then hi + 1 else hi) + bHi
        else hi)
        (if a &&& 1 ≠ 0 then lo + bLo else lo) =
      double hi lo + BitVec.ofNat 64 (a.toNat % 2) * double bHi bLo := by
  by_cases h : a &&& 1 ≠ 0
  · rw [if_pos h, if_pos h, double_add, (and_one_ne_zero a).1 h]
    simp
  · have hzero : a.toNat % 2 = 0 := by
      have := mt (and_one_ne_zero a).2 h
      omega
    rw [if_neg h, if_neg h, hzero]
    simp

theorem sshiftRight_one_mod (a : Word) (n : ℕ) (hn : n < 32) :
    (a.sshiftRight 1).toNat % 2 ^ n = a.toNat / 2 % 2 ^ n := by
  have hdvd : 2 ^ n ∣ 2 ^ 31 := pow_dvd_pow 2 (by omega)
  have hmod : (a.sshiftRight 1).toNat % 2 ^ 31 = a.toNat / 2 % 2 ^ 31 := by
    have hlt := a.isLt
    rw [BitVec.toNat_sshiftRight, BitVec.msb_eq_toNat, Nat.shiftRight_eq_div_pow,
      Nat.shiftRight_eq_div_pow]
    by_cases h : 2 ^ (32 - 1) ≤ a.toNat
    · rw [if_pos (decide_eq_true h)]
      omega
    · rw [if_neg (by simpa using h)]
  rw [← Nat.mod_mod_of_dvd _ hdvd, hmod, Nat.mod_mod_of_dvd _ hdvd]

theorem toNat_mod_two_pow (a : Word) (n : ℕ) (hn : n < 32) :
    a.toNat % 2 ^ (n + 1) = a.toNat % 2 + 2 * ((a.sshiftRight 1).toNat % 2 ^ n) := by
  rw [sshiftRight_one_mod a n hn, Nat.pow_succ', Nat.mod_mul]

theorem eq_one_of_last {a : Word} (hodd : a &&& 1 ≠ 0) (hlast : a &&& 0xfffffffe = 0) :
    a = 1 := by
  have hmod := (and_one_ne_zero a).1 hodd
  have hrest : a &&& (0xfffffffe : Word) = (a >>> 1) <<< 1 := by
    apply BitVec.eq_of_getLsbD_eq
    intro k hk
    interval_cases k <;> simp [-BitVec.getLsbD_eq_getElem]
  rw [hrest] at hlast
  have hnum := congrArg BitVec.toNat hlast
  have hlt := a.isLt
  simp only [BitVec.toNat_shiftLeft, BitVec.toNat_ushiftRight, Nat.shiftRight_eq_div_pow,
    Nat.shiftLeft_eq, BitVec.ofNat_eq_ofNat, BitVec.toNat_ofNat] at hnum
  apply BitVec.eq_of_toNat_eq
  change a.toNat = 1
  omega

/-- One round adds the shifted factor if the last bit is set. -/
theorem multLoop_eq (n : ℕ) (hn : n ≤ 32) (a bLo bHi lo hi : Word) :
    double (multLoop n a bLo bHi lo hi).1 (multLoop n a bLo bHi lo hi).2 =
      double hi lo + BitVec.ofNat 64 (a.toNat % 2 ^ n) * double bHi bLo := by
  induction n generalizing a bLo bHi lo hi with
  | zero => simp [multLoop, Nat.mod_one]
  | succ n ih =>
      have hround := multRound a bLo bHi lo hi
      have hbits := toNat_mod_two_pow a n (by omega)
      rw [multLoop]
      split
      · rename_i hlast
        have hone := eq_one_of_last hlast.1 hlast.2
        rw [hround, hone]
        simp [Nat.mod_eq_of_lt (Nat.one_lt_two_pow (Nat.succ_ne_zero n))]
      · rw [ih (by omega), hround, double_shiftLeft, hbits, BitVec.ofNat_add, BitVec.ofNat_mul]
        grind

theorem double_zero (x : Word) : double 0 x = BitVec.ofNat 64 x.toNat := by
  apply BitVec.eq_of_toNat_eq
  have hx := x.isLt
  rw [double_toNat, BitVec.toNat_ofNat, Nat.mod_eq_of_lt (by omega)]
  simp

/-- The negation at the end of `Mult`. -/
theorem double_neg (hi lo : Word) :
    double (if ~~~lo + 1 = 0 then ~~~hi + 1 else ~~~hi) (~~~lo + 1) = -double hi lo := by
  apply BitVec.eq_of_toNat_eq
  have hhi := hi.isLt
  have hlo := lo.isLt
  have hzero : ~~~lo + 1 = 0 ↔ lo.toNat = 0 := by
    rw [← BitVec.toNat_inj]
    simp only [BitVec.toNat_add, BitVec.toNat_not, BitVec.toNat_ofNat, BitVec.ofNat_eq_ofNat]
    omega
  rw [BitVec.toNat_neg, double_toNat, double_toNat]
  by_cases h : lo.toNat = 0
  · rw [if_pos (hzero.2 h)]
    simp only [BitVec.toNat_add, BitVec.toNat_not, BitVec.toNat_ofNat, BitVec.ofNat_eq_ofNat]
    omega
  · rw [if_neg (mt hzero.1 h)]
    simp only [BitVec.toNat_add, BitVec.toNat_not, BitVec.toNat_ofNat, BitVec.ofNat_eq_ofNat]
    omega

/-- The loop multiplies numbers without a sign. -/
theorem multLoop_product (a b : Word) :
    double (multLoop 32 a b 0 0 0).1 (multLoop 32 a b 0 0 0).2 =
      BitVec.ofNat 64 (a.toNat * b.toNat) := by
  rw [multLoop_eq 32 (le_refl _), double_zero, double_zero, Nat.mod_eq_of_lt a.isLt,
    BitVec.ofNat_mul]
  simp

theorem toNat_abs (x : Word) : (if x.slt 0 then -x else x).toNat = x.toInt.natAbs := by
  have hx := x.isLt
  rw [BitVec.slt_eq_decide]
  simp only [BitVec.ofNat_eq_ofNat, BitVec.toInt_zero, decide_eq_true_eq]
  split
  · rename_i hneg
    rw [BitVec.toNat_neg]
    rw [BitVec.toInt_eq_toNat_cond] at hneg ⊢
    split at hneg <;> omega
  · rename_i hneg
    rw [BitVec.toInt_eq_toNat_cond] at hneg ⊢
    split at hneg <;> omega

theorem natAbs_product (x y : ℤ) :
    x * y = if x < 0 ↔ y < 0 then ((x.natAbs * y.natAbs : ℕ) : ℤ)
      else -((x.natAbs * y.natAbs : ℕ) : ℤ) := by
  have habs : ∀ z : ℤ, (z.natAbs : ℤ) = if z < 0 then -z else z := fun z => by
    split <;> omega
  rw [Int.natCast_mul, habs, habs]
  by_cases hx : x < 0 <;> by_cases hy : y < 0 <;> simp [hx, hy]

/-- A product of two words with a sign has room in a double word. -/
theorem natAbs_product_le (a b : Word) : (a.toInt * b.toInt).natAbs ≤ 2 ^ 62 := by
  have ha := fits_toInt a
  have hb := fits_toInt b
  unfold Fits at ha hb
  rw [Int.natAbs_mul]
  calc a.toInt.natAbs * b.toInt.natAbs
      ≤ 2 ^ 31 * 2 ^ 31 := Nat.mul_le_mul (by omega) (by omega)
    _ = 2 ^ 62 := by decide

theorem mult_unsigned (a b : Word) :
    double (mult a b false).1 (mult a b false).2 = BitVec.ofNat 64 (a.toNat * b.toNat) := by
  unfold mult
  split
  · rename_i h
    rcases h with rfl | rfl
    · simp [double]
    · simp [double]
  · exact multLoop_product a b

theorem mult_signed (a b : Word) :
    double (mult a b true).1 (mult a b true).2 = BitVec.ofInt 64 (a.toInt * b.toInt) := by
  unfold mult
  split
  · rename_i h
    rcases h with rfl | rfl
    · simp [double]
    · simp [double]
  · have hloop := multLoop_product (if a.slt 0 then -a else a) (if b.slt 0 then -b else b)
    rw [toNat_abs, toNat_abs] at hloop
    simp only [Bool.true_and]
    generalize multLoop 32 (if a.slt 0 then -a else a) (if b.slt 0 then -b else b) 0 0 0 = product
      at hloop ⊢
    obtain ⟨hi, lo⟩ := product
    have hneg := double_neg hi lo
    rw [hloop] at hneg
    have hsign : ∀ x : Word, x.slt 0 = decide (x.toInt < 0) := fun x => by
      rw [BitVec.slt_eq_decide]
      rfl
    rw [hsign, hsign, natAbs_product a.toInt]
    by_cases h : a.toInt < 0 ↔ b.toInt < 0
    · have hxor : (decide (a.toInt < 0) ^^ decide (b.toInt < 0)) = false := by
        simp [h]
      rw [if_pos h, hxor, BitVec.ofInt_natCast]
      exact hloop
    · have hxor : (decide (a.toInt < 0) ^^ decide (b.toInt < 0)) = true := by
        by_cases ha : a.toInt < 0 <;> by_cases hb : b.toInt < 0 <;> simp_all
      rw [if_neg h, hxor, BitVec.ofInt_neg, BitVec.ofInt_natCast]
      exact hneg

/-- **Multiplication is exact**, with a sign and without one. -/
theorem mult_exact (a b : Word) :
    (double (mult a b true).1 (mult a b true).2).toInt = a.toInt * b.toInt ∧
      (double (mult a b false).1 (mult a b false).2).toNat = a.toNat * b.toNat := by
  constructor
  · have hbound := natAbs_product_le a b
    rw [mult_signed, BitVec.toInt_ofInt, Int.bmod_eq_of_le]
    · omega
    · omega
  · rw [mult_unsigned, BitVec.toNat_ofNat, Nat.mod_eq_of_lt]
    calc a.toNat * b.toNat
        < 2 ^ 32 * 2 ^ 32 := Nat.mul_lt_mul'' a.isLt b.isLt
      _ = 2 ^ 64 := by decide

/-- The words of a double word. -/
theorem double_words {hi lo : Word} {n : ℤ} (h : double hi lo = BitVec.ofInt 64 n) :
    hi = BitVec.ofInt 32 (n / 2 ^ 32) ∧ lo = BitVec.ofInt 32 n := by
  have hnum := congrArg BitVec.toNat h
  have hhi := hi.isLt
  have hlo := lo.isLt
  rw [double_toNat, BitVec.toNat_ofInt] at hnum
  constructor
  · apply BitVec.eq_of_toNat_eq
    rw [BitVec.toNat_ofInt]
    omega
  · apply BitVec.eq_of_toNat_eq
    rw [BitVec.toNat_ofInt]
    omega

/-- **`Mult`** computes the product of two numbers with a sign. -/
theorem mult_words (a b : Word) :
    (mult a b true).1 = BitVec.ofInt 32 (a.toInt * b.toInt / 2 ^ 32) ∧
      (mult a b true).2 = BitVec.ofInt 32 (a.toInt * b.toInt) :=
  double_words (mult_signed a b)

/-- Or without one. -/
theorem multu_words (a b : Word) :
    (mult a b false).1 = BitVec.ofInt 32 ((a.toNat * b.toNat : ℤ) / 2 ^ 32) ∧
      (mult a b false).2 = BitVec.ofInt 32 (a.toNat * b.toNat : ℤ) := by
  apply double_words
  rw [mult_unsigned, ← Int.natCast_mul, BitVec.ofInt_natCast]

end Nachos.Machine
