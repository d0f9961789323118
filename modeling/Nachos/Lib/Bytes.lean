import Mathlib.Algebra.Ring.Int.Defs
import Mathlib.Algebra.Ring.Nat
import Mathlib.Data.Nat.Init
import Mathlib.Data.List.Basic
import Mathlib.Tactic.Common

/-!
# Memory of bytes

A region of memory is its bytes by offset. An integer takes four of them, the
least significant first, and a bit map packs eight bits into one.
-/

namespace Nachos.Lib

/-- A region of memory, by offset. -/
abbrev Buffer : Type := ℕ → UInt8

namespace Buffer

/-- The bytes of a list, and zeros behind them. -/
def ofList (bytes : List UInt8) : Buffer := fun o => bytes[o]?.getD 0

/-- `bcopy` of `n` bytes at `src + p` to `dst + q`. -/
def copy (src : Buffer) (p : ℕ) (dst : Buffer) (q n : ℕ) : Buffer :=
  fun o => if q ≤ o ∧ o < q + n then src (p + (o - q)) else dst o

theorem copy_of_mem {src dst : Buffer} {p q n o : ℕ} (h : q ≤ o ∧ o < q + n) :
    src.copy p dst q n o = src (p + (o - q)) := if_pos h

theorem copy_of_not_mem {src dst : Buffer} {p q n o : ℕ} (h : ¬ (q ≤ o ∧ o < q + n)) :
    src.copy p dst q n o = dst o := if_neg h

/-! ## Integers -/

/-- The integer at `p`. -/
def intAt (b : Buffer) (p : ℕ) : ℕ :=
  (b p).toNat + 256 * (b (p + 1)).toNat + 65536 * (b (p + 2)).toNat +
    16777216 * (b (p + 3)).toNat

end Buffer

/-- Byte `k` of an integer. -/
def intByte (n k : ℕ) : UInt8 := UInt8.ofNat (n / 256 ^ k)

/-- **Integers are read back as they were written.** -/
theorem Buffer.intAt_eq {b : Buffer} {p n : ℕ} (h : ∀ k < 4, b (p + k) = intByte n k)
    (hn : n < 2 ^ 32) : b.intAt p = n := by
  have h₀ := h 0 (by decide)
  have h₁ := h 1 (by decide)
  have h₂ := h 2 (by decide)
  have h₃ := h 3 (by decide)
  rw [Nat.add_zero] at h₀
  rw [Buffer.intAt, h₀, h₁, h₂, h₃]
  simp only [intByte, UInt8.toNat_ofNat']
  omega

theorem Buffer.intAt_congr {b b' : Buffer} {p : ℕ} (h : ∀ k < 4, b' (p + k) = b (p + k)) :
    b'.intAt p = b.intAt p := by
  have h₀ := h 0 (by decide)
  rw [Nat.add_zero] at h₀
  rw [Buffer.intAt, Buffer.intAt, h₀, h 1 (by decide), h 2 (by decide), h 3 (by decide)]

/-! ## Bits -/

/-- Eight bits in a byte. -/
def packByte (f : ℕ → Bool) : UInt8 := UInt8.ofNat (Nat.ofBits fun k : Fin 8 => f k)

theorem testBit_packByte (f : ℕ → Bool) {k : ℕ} (hk : k < 8) :
    (packByte f).toNat.testBit k = f k := by
  rw [packByte, UInt8.toNat_ofNat', Nat.mod_eq_of_lt (Nat.ofBits_lt_two_pow _),
    Nat.testBit_ofBits_lt _ _ hk]

/-- The bits of a region, eight to a byte. -/
def packBits (m : ℕ → Bool) : Buffer := fun o => packByte fun k => m (8 * o + k)

def unpackBits (b : Buffer) : ℕ → Bool := fun i => (b (i / 8)).toNat.testBit (i % 8)

/-- **Bits are read back as they were written.** -/
theorem unpackBits_eq {b : Buffer} {m : ℕ → Bool} {i : ℕ} (h : b (i / 8) = packBits m (i / 8)) :
    unpackBits b i = m i := by
  rw [unpackBits, h, packBits, testBit_packByte _ (Nat.mod_lt i (by decide)), Nat.div_add_mod]

/-! ## The bits of integers -/

theorem testBit_intByte (n j : ℕ) {k : ℕ} (hk : k < 8) :
    (intByte n j).toNat.testBit k = n.testBit (8 * j + k) := by
  have hpow : 256 ^ j = 2 ^ (8 * j) := by rw [Nat.pow_mul]
  rw [intByte, UInt8.toNat_ofNat', Nat.testBit_mod_two_pow, decide_eq_true hk, Bool.true_and, hpow,
    ← Nat.shiftRight_eq_div_pow, Nat.testBit_shiftRight]

/-- A byte is its eight bits. -/
theorem eq_packByte {x : UInt8} {f : ℕ → Bool} (h : ∀ k < 8, x.toNat.testBit k = f k) :
    x = packByte f := by
  refine UInt8.toNat_inj.1 (Nat.eq_of_testBit_eq fun k => ?_)
  by_cases hk : k < 8
  · rw [h k hk, testBit_packByte f hk]
  · have hle : (2 : ℕ) ^ 8 ≤ 2 ^ k := Nat.pow_le_pow_right (by decide) (not_lt.1 hk)
    rw [Nat.testBit_lt_two_pow (lt_of_lt_of_le x.toNat_lt hle),
      Nat.testBit_lt_two_pow (lt_of_lt_of_le (packByte f).toNat_lt hle)]

/-- The bits of an integer are those of its bytes. -/
theorem Buffer.testBit_intAt (b : Buffer) (p : ℕ) {j k : ℕ} (hj : j < 4) (hk : k < 8) :
    (b.intAt p).testBit (8 * j + k) = (b (p + j)).toNat.testBit k := by
  have hbyte : b.intAt p / 2 ^ (8 * j) % 2 ^ 8 = (b (p + j)).toNat := by
    have h₀ := (b p).toNat_lt
    have h₁ := (b (p + 1)).toNat_lt
    have h₂ := (b (p + 2)).toNat_lt
    have h₃ := (b (p + 3)).toNat_lt
    unfold Buffer.intAt
    obtain rfl | rfl | rfl | rfl : j = 0 ∨ j = 1 ∨ j = 2 ∨ j = 3 := by omega
    · rw [Nat.add_zero p, Nat.mul_zero, Nat.pow_zero, Nat.div_one]
      omega
    · omega
    · omega
    · omega
  rw [← hbyte, Nat.testBit_mod_two_pow, decide_eq_true hk, Bool.true_and,
    ← Nat.shiftRight_eq_div_pow, Nat.testBit_shiftRight]

end Nachos.Lib
