import Mathlib

/-!
# Integers of 32 bits

An `int` is kept as a word, read as signed or not, and its division rounds
towards zero.
-/

namespace Nachos.Lib

/-- The 32 bits of an integer. -/
def word (n : ℤ) : ℕ := (n % 2 ^ 32).toNat

/-- The `int` with these bits. -/
def signed (w : ℕ) : ℤ := Int.bmod w (2 ^ 32)

/-- What a sum of two `int`s wraps to, if it is not too small for one. -/
def wrapped (n : ℤ) : ℤ := if n < 2147483648 then n else n - 4294967296

/-- `n++` of an `int`. -/
def increment (n : ℤ) : ℤ := wrapped (n + 1)

/-- `n--` of an `int`. -/
def decrement (n : ℤ) : ℤ := if n = -2147483648 then 2147483647 else n - 1

/-- The macro `divRoundUp`, of an `int`. -/
def divRoundUpInt (n : ℤ) (s : ℕ) : ℤ := n.tdiv s + if 0 < n.tmod s then 1 else 0

theorem signed_word {n : ℤ} (h : -2 ^ 31 ≤ n ∧ n < 2 ^ 31) : signed (word n) = n := by
  unfold signed word
  rw [Int.bmod_def]
  split <;> omega

theorem wrapped_of_lt {n : ℤ} (h : n < 2147483648) : wrapped n = n := if_pos h

theorem increment_of_lt {n : ℤ} (h : n < 2147483647) : increment n = n + 1 :=
  wrapped_of_lt (by omega)

theorem decrement_of_nonneg {n : ℤ} (h : 0 ≤ n) : decrement n = n - 1 :=
  if_neg (by omega)

/-- **Rounding up** works for positive numbers; others are rounded towards zero. -/
theorem divRoundUpInt_cases (n : ℤ) {s : ℕ} (hs : 0 < s) :
    n ≤ 0 ∧ n ≤ divRoundUpInt n s ∧ divRoundUpInt n s ≤ 0 ∨
      0 < n ∧ n ≤ s * divRoundUpInt n s ∧ s * divRoundUpInt n s < n + s := by
  have hs : (0 : ℤ) < s := Int.ofNat_lt.mpr hs
  unfold divRoundUpInt
  rcases Int.lt_or_le 0 n with hn | hn
  · right
    rw [Int.tdiv_eq_ediv_of_nonneg (Int.le_of_lt hn), Int.tmod_eq_emod_of_nonneg (Int.le_of_lt hn)]
    have hdiv := Int.mul_ediv_add_emod n s
    have hlt := Int.emod_lt_of_pos n hs
    have hnonneg := Int.emod_nonneg n (Int.ne_of_gt hs)
    split
    · rw [Int.mul_add, Int.mul_one]
      omega
    · rw [Int.add_zero]
      omega
  · left
    -- the quotient of the negated number is between zero and that number
    have hdiv : (-n).tdiv s = -n / s := Int.tdiv_eq_ediv_of_nonneg (by omega)
    have hmod : (-n).tmod s = -n % s := Int.tmod_eq_emod_of_nonneg (by omega)
    have hle := Int.ediv_le_self (s : ℤ) (show 0 ≤ -n by omega)
    have hquot := Int.ediv_nonneg (show 0 ≤ -n by omega) (Int.le_of_lt hs)
    have hrem := Int.emod_nonneg (-n) (Int.ne_of_gt hs)
    rw [Int.neg_tdiv] at hdiv
    rw [Int.neg_tmod] at hmod
    rw [if_neg (by omega)]
    omega

theorem divRoundUpInt_natCast (n s : ℕ) :
    divRoundUpInt n s = (n / s + if n % s > 0 then 1 else 0 : ℕ) := by
  unfold divRoundUpInt
  rw [← Int.ofNat_tdiv, ← Int.ofNat_tmod]
  split <;> split <;> omega

end Nachos.Lib
