import Mathlib.Order.Bounds.Basic
import Mathlib.Algebra.Order.Group.Unbundled.Int

/-!
# Things that come round

`n` things pass by one after another, each in a slot of the same length, and then again from the
first. Slot `k` begins at time `k * period`.
-/

namespace Nachos.Lib

/-- The thing `i` of `n` begins to pass by at time `t`. -/
def ComesAt (n period i t : ℤ) : Prop := ∃ k, t = k * period ∧ k % n = i % n

/-- How many slots it is from slot `k` to the next one of `i`. -/
def slotsAhead (n i k : ℤ) : ℤ := (i - k) % n

/-- The beginning of the first slot that does not begin before `t`. -/
def roundUp (period t : ℤ) : ℤ := t + if 0 < t % period then period - t % period else 0

section Rotation

variable {n period i j k t : ℤ}

theorem slotsAhead_nonneg (hn : 0 < n) : 0 ≤ slotsAhead n i k :=
  Int.emod_nonneg _ (Int.ne_of_gt hn)

theorem comesAt_slotsAhead (n period i k : ℤ) :
    ComesAt n period i ((k + slotsAhead n i k) * period) := by
  refine ⟨_, rfl, ?_⟩
  rw [slotsAhead, Int.add_emod, Int.emod_emod_of_dvd _ (Int.dvd_refl n), ← Int.add_emod]
  congr 1
  omega

/-- Nothing else of `i` comes before. -/
theorem slotsAhead_le (hn : 0 < n) (hperiod : 0 < period) (ht : ComesAt n period i t)
    (hk : k * period ≤ t) :
    (k + slotsAhead n i k) * period ≤ t := by
  obtain ⟨j, rfl, hj⟩ := ht
  have hle : k ≤ j := Int.le_of_mul_le_mul_right hk hperiod
  have hslots : slotsAhead n i k = (j - k) % n := by
    rw [slotsAhead, Int.sub_emod, ← hj, ← Int.sub_emod]
  refine Int.mul_le_mul_of_nonneg_right ?_ (Int.le_of_lt hperiod)
  have hdivision := Int.emod_add_mul_ediv (j - k) n
  have hrounds : 0 ≤ n * ((j - k) / n) :=
    Int.mul_nonneg (Int.le_of_lt hn) (Int.ediv_nonneg (by omega) (Int.le_of_lt hn))
  omega

/-- **The next time** that `i` comes, from the beginning of a slot on. -/
theorem isLeast_slotsAhead (hn : 0 < n) (hperiod : 0 < period) :
    IsLeast {t | ComesAt n period i t ∧ k * period ≤ t} ((k + slotsAhead n i k) * period) := by
  refine ⟨⟨comesAt_slotsAhead n period i k, ?_⟩, fun t ht => slotsAhead_le hn hperiod ht.1 ht.2⟩
  refine Int.mul_le_mul_of_nonneg_right ?_ (Int.le_of_lt hperiod)
  have := slotsAhead_nonneg (i := i) (k := k) hn
  omega

theorem le_roundUp (hperiod : 0 < period) : t ≤ roundUp period t := by
  have := Int.emod_lt_of_pos t hperiod
  unfold roundUp
  split <;> omega

theorem roundUp_lt (hperiod : 0 < period) : roundUp period t < t + period := by
  unfold roundUp
  split <;> omega

theorem roundUp_eq (hperiod : 0 < period) : ∃ k, roundUp period t = k * period := by
  have hdivision := Int.emod_add_mul_ediv t period
  have hnonneg := Int.emod_nonneg t (Int.ne_of_gt hperiod)
  unfold roundUp
  split
  · refine ⟨t / period + 1, ?_⟩
    rw [Int.add_mul, Int.mul_comm (t / period)]
    omega
  · refine ⟨t / period, ?_⟩
    rw [Int.mul_comm (t / period)]
    omega

/-- What begins with a slot and not before `t` does not begin before it. -/
theorem roundUp_le_iff (hperiod : 0 < period) : roundUp period t ≤ k * period ↔ t ≤ k * period := by
  refine ⟨Int.le_trans (le_roundUp hperiod), fun h => ?_⟩
  obtain ⟨j, hj⟩ := roundUp_eq (t := t) hperiod
  have hlt := roundUp_lt (t := t) hperiod
  rw [hj] at hlt ⊢
  refine Int.mul_le_mul_of_nonneg_right ?_ (Int.le_of_lt hperiod)
  have hstep : j * period < (k + 1) * period := by
    rw [Int.add_mul, Int.one_mul]
    omega
  have := Int.lt_of_mul_lt_mul_right hstep (Int.le_of_lt hperiod)
  omega

theorem ComesAt.roundUp_le_iff (hperiod : 0 < period) {u : ℤ} (ht : ComesAt n period i t) :
    roundUp period u ≤ t ↔ u ≤ t := by
  obtain ⟨k, rfl, -⟩ := ht
  exact Lib.roundUp_le_iff hperiod

end Rotation

end Nachos.Lib
