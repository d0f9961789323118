import Mathlib.Logic.Function.Basic
import Mathlib.Algebra.BigOperators.Group.Finset.Basic
import Mathlib.Tactic.Common
import Mathlib.Algebra.Order.Group.Unbundled.Int

/-!
# Bit maps and slot tables

`BitMap::Find` hands out the first clear bit; `Table` is an array of pointers
with such a map beside it. A bit map is modelled by its set bits and a table by
its slots, a slot being `none` while its bit is clear. Reading through an index
is guarded by `Get`; writing through a pointer obtained from `Get` is `store`.
-/

namespace Nachos.Userprog

/-! ## Bit maps -/

/-- A bit map: which bits are set. The number of bits is passed to `find`. -/
abbrev BitMap : Type := ℕ → Bool

namespace BitMap

/-- The scan of `BitMap::Find`: `left` bits remain, `i` is the next one. -/
def findFrom (m : BitMap) : (left i : ℕ) → Option ℕ
  | 0, _ => none
  | left + 1, i => if m i then findFrom m left (i + 1) else some i

/-- The bit `BitMap::Find` returns; `none` stands for its `-1`. -/
def find (n : ℕ) (m : BitMap) : Option ℕ := findFrom m n 0

def mark (m : BitMap) (i : ℕ) : BitMap := Function.update m i true

def clear (m : BitMap) (i : ℕ) : BitMap := Function.update m i false

theorem findFrom_some {m : BitMap} : ∀ {left i k : ℕ},
    findFrom m left i = some k → i ≤ k ∧ k < i + left ∧ m k = false ∧
      ∀ j, i ≤ j → j < k → m j = true
  | 0, _, _, h => by cases h
  | left + 1, i, k, h => by
      unfold findFrom at h
      split at h
      · rename_i hi
        obtain ⟨h₁, h₂, h₃, h₄⟩ := findFrom_some h
        refine ⟨by omega, by omega, h₃, ?_⟩
        intro j hij hjk
        rcases Nat.eq_or_lt_of_le hij with rfl | hlt
        · exact hi
        · exact h₄ j hlt hjk
      · rename_i hi
        obtain rfl : i = k := Option.some.inj h
        exact ⟨le_rfl, by omega, by simpa using hi, fun j h₁ h₂ => by omega⟩

theorem findFrom_none {m : BitMap} : ∀ {left i : ℕ},
    findFrom m left i = none → ∀ j, i ≤ j → j < i + left → m j = true
  | 0, _, _, j, h₁, h₂ => by omega
  | left + 1, i, h, j, h₁, h₂ => by
      unfold findFrom at h
      split at h
      · rename_i hi
        rcases Nat.eq_or_lt_of_le h₁ with rfl | hlt
        · exact hi
        · exact findFrom_none h j hlt (by omega)
      · cases h

/-- The bit found is in range, clear, and the first such. -/
theorem find_some {n k : ℕ} {m : BitMap} (h : find n m = some k) :
    k < n ∧ m k = false ∧ ∀ j < k, m j = true := by
  obtain ⟨-, h₂, h₃, h₄⟩ := findFrom_some h
  exact ⟨by omega, h₃, fun j hj => h₄ j (Nat.zero_le j) hj⟩

/-- Nothing is found only when every bit is set. -/
theorem find_none {n : ℕ} {m : BitMap} (h : find n m = none) :
    ∀ j < n, m j = true :=
  fun j hj => findFrom_none h j (Nat.zero_le j) (by omega)

/-- When one bit alone is clear, it is the one found. -/
theorem find_only {n k : ℕ} {m : BitMap} (hk : k < n) (hc : m k = false)
    (hall : ∀ j < n, j ≠ k → m j = true) : find n m = some k := by
  cases h : find n m with
  | none =>
      have := find_none h k hk
      simp [hc] at this
  | some i =>
      obtain ⟨hi, hci, -⟩ := find_some h
      by_cases hik : i = k
      · rw [hik]
      · have := hall i hi hik
        simp [hci] at this

theorem findFrom_congr {m m' : BitMap} : ∀ {left i : ℕ},
    (∀ j, i ≤ j → j < i + left → m j = m' j) → findFrom m left i = findFrom m' left i
  | 0, _, _ => rfl
  | left + 1, i, h => by
      rw [findFrom, findFrom, h i (Nat.le_refl i) (by omega),
        findFrom_congr fun j hj hlt => h j (by omega) (by omega)]

theorem find_congr {n : ℕ} {m m' : BitMap} (h : ∀ j < n, m j = m' j) : find n m = find n m' :=
  findFrom_congr fun j _ hj => h j (by omega)

@[simp] theorem mark_self (m : BitMap) (i : ℕ) : m.mark i i = true := by
  simp [mark]

@[simp] theorem mark_of_ne (m : BitMap) {i j : ℕ} (h : j ≠ i) :
    m.mark i j = m j := by
  simp [mark, h]

@[simp] theorem clear_self (m : BitMap) (i : ℕ) : m.clear i i = false := by
  simp [clear]

@[simp] theorem clear_of_ne (m : BitMap) {i j : ℕ} (h : j ≠ i) :
    m.clear i j = m j := by
  simp [clear, h]

/-- In a full map the bit just cleared is the one found, and marking it restores
the map. -/
theorem find_clear {n k : ℕ} {m : BitMap} (hfull : ∀ j < n, m j = true) (hk : k < n) :
    find n (m.clear k) = some k ∧ (m.clear k).mark k = m := by
  constructor
  · refine find_only hk (clear_self m k) ?_
    intro j hj hne
    rw [clear_of_ne m hne]
    exact hfull j hj
  · funext j
    by_cases hj : j = k
    · subst hj
      rw [mark_self, hfull j hk]
    · rw [mark_of_ne _ hj, clear_of_ne m hj]

/-- `BitMap::NumClear`. -/
def numClear (m : BitMap) : (n : ℕ) → ℕ
  | 0 => 0
  | n + 1 => numClear m n + if m n then 0 else 1

theorem numClear_eq (m : BitMap) (n : ℕ) :
    m.numClear n = ((Finset.range n).filter fun i => m i = false).card := by
  induction n with
  | zero => rfl
  | succ n ih =>
      rw [numClear, ih, Finset.range_add_one, Finset.filter_insert]
      cases h : m n with
      | true => simp
      | false => simp

/-- A map with a clear bit has one to find. -/
theorem find_of_numClear {m : BitMap} {n : ℕ} (h : 0 < m.numClear n) : ∃ k, find n m = some k := by
  cases hfind : find n m with
  | some k => exact ⟨k, rfl⟩
  | none =>
      rw [numClear_eq] at h
      obtain ⟨i, hi⟩ := Finset.card_pos.mp h
      obtain ⟨hlt, hclear⟩ := Finset.mem_filter.mp hi
      rw [find_none hfind i (Finset.mem_range.mp hlt)] at hclear
      cases hclear

theorem numClear_mark {m : BitMap} {n k : ℕ} (hk : k < n) (hclear : m k = false) :
    (m.mark k).numClear n + 1 = m.numClear n := by
  have hmem : k ∈ (Finset.range n).filter fun i => m i = false :=
    Finset.mem_filter.mpr ⟨Finset.mem_range.mpr hk, hclear⟩
  have herase : ((Finset.range n).filter fun i => m.mark k i = false) =
      ((Finset.range n).filter fun i => m i = false).erase k := by
    ext i
    by_cases hi : i = k
    · subst hi
      simp
    · simp [hi]
  rw [numClear_eq, numClear_eq, herase, Finset.card_erase_add_one hmem]

end BitMap

/-! ## Tables -/

/-- `Table`: `size` slots, a slot holding a pointer while its bit is set. -/
structure Table (α : Type) where
  size : ℕ
  slot : ℕ → Option α

namespace Table

variable {α : Type}

/-- `Table::Table`. -/
def empty (n : ℕ) : Table α := ⟨n, fun _ => none⟩

/-- `Table::Get`: the element at `i`, or `0` (`none`) if there is none. -/
def get (t : Table α) (i : ℤ) : Option α :=
  if 0 ≤ i ∧ i < t.size then t.slot i.toNat else none

/-- `Table::Put`: the slot used, or `-1` when all are taken. -/
def put (t : Table α) (x : α) : ℤ × Table α :=
  match BitMap.find t.size (fun i => (t.slot i).isSome) with
  | some i => (i, { t with slot := Function.update t.slot i (some x) })
  | none => (-1, t)

/-- `Table::Remove`: the slot is emptied; its former element is returned. -/
def remove (t : Table α) (i : ℤ) : Option α × Table α :=
  if 0 ≤ i ∧ i < t.size then
    (t.slot i.toNat, { t with slot := Function.update t.slot i.toNat none })
  else (none, t)

/-- An assignment through the pointer that `get t i` returned. -/
def store (t : Table α) (i : ℤ) (x : α) : Table α :=
  { t with slot := Function.update t.slot i.toNat (some x) }

theorem get_range {t : Table α} {i : ℤ} {x : α} (h : t.get i = some x) :
    0 ≤ i ∧ i < t.size := by
  unfold get at h
  split at h
  · assumption
  · cases h

@[simp] theorem store_size (t : Table α) (i : ℤ) (x : α) :
    (t.store i x).size = t.size := rfl

theorem get_store_self {t : Table α} {i : ℤ} {x : α} (y : α)
    (h : t.get i = some x) : (t.store i y).get i = some y := by
  have hr := get_range h
  simp [get, store, hr.1, hr.2]

theorem get_store_of_ne {t : Table α} {i j : ℤ} {x : α} (y : α)
    (h : t.get i = some x) (hne : j ≠ i) : (t.store i y).get j = t.get j := by
  have hr := get_range h
  unfold get store
  by_cases hj : 0 ≤ j ∧ j < t.size
  · have hn : j.toNat ≠ i.toNat := by omega
    simp [hn]
  · simp only [hj, if_false]

/-- Storing what is there changes nothing. -/
theorem store_get {t : Table α} {i : ℤ} {x : α} (h : t.get i = some x) : t.store i x = t := by
  have hslot : t.slot i.toNat = some x := by
    have hr := get_range h
    rwa [get, if_pos hr] at h
  rw [store, ← hslot, Function.update_eq_self]

/-- The last of two assignments counts. -/
theorem store_store (t : Table α) (i : ℤ) (x y : α) : (t.store i x).store i y = t.store i y := by
  simp only [store, Function.update_idem]

@[simp] theorem get_empty (n : ℕ) (i : ℤ) : (empty n : Table α).get i = none := by
  unfold get empty
  split <;> rfl

/-- A `put` that found a slot: the slot was empty, now it holds the element,
and no other slot changed. -/
theorem put_spec {t : Table α} {x : α} {i : ℤ} {t' : Table α}
    (h : t.put x = (i, t')) (hi : i ≠ -1) :
    t.get i = none ∧ t'.get i = some x ∧ t'.size = t.size ∧
      ∀ j, j ≠ i → t'.get j = t.get j := by
  unfold put at h
  split at h
  · rename_i k hk
    obtain ⟨hlt, hclear, -⟩ := BitMap.find_some hk
    simp only [Prod.mk.injEq] at h
    obtain ⟨rfl, rfl⟩ := h
    have hnone : t.slot k = none := by simpa using hclear
    refine ⟨by simp [get, hlt, hnone], by simp [get, hlt], rfl, ?_⟩
    intro j hj
    unfold get
    by_cases hr : 0 ≤ j ∧ j < t.size
    · have hn : j.toNat ≠ k := by omega
      simp [hn]
    · simp only [hr, if_false]
  · simp only [Prod.mk.injEq] at h
    exact absurd h.1.symm hi

/-- `put` takes the first free slot. -/
theorem put_le {t : Table α} {k : ℕ} (x : α) (hk : k < t.size) (hnone : t.get k = none) :
    0 ≤ (t.put x).1 ∧ (t.put x).1 ≤ k := by
  have hslot : t.slot k = none := by
    simpa [get, hk] using hnone
  unfold put
  split
  · rename_i i hi
    obtain ⟨-, -, hfirst⟩ := BitMap.find_some hi
    refine ⟨Int.natCast_nonneg i, ?_⟩
    by_contra hlt
    have := hfirst k (by omega)
    simp [hslot] at this
  · rename_i hfull
    have := BitMap.find_none hfull k hk
    simp [hslot] at this

/-- `remove` empties its slot and changes no other. -/
theorem get_remove (t : Table α) (i j : ℤ) :
    (t.remove i).2.get j = if j = i then none else t.get j := by
  unfold remove
  by_cases hr : 0 ≤ i ∧ i < t.size
  · simp only [hr, and_self, if_true]
    unfold get
    by_cases hji : j = i
    · subst hji
      simp
    · by_cases hj : 0 ≤ j ∧ j < t.size
      · have hn : j.toNat ≠ i.toNat := by omega
        simp [hn, hji]
      · simp only [hj, if_false, hji]
  · simp only [hr, if_false]
    by_cases hji : j = i
    · subst hji
      simp [get, hr]
    · simp [hji]

@[simp] theorem remove_size (t : Table α) (i : ℤ) : (t.remove i).2.size = t.size := by
  unfold remove
  split <;> rfl

/-! ## Counting -/

/-- The number of slots in use. -/
def occupied (t : Table α) : ℕ := ((Finset.range t.size).filter fun i : ℕ => (t.get i).isSome).card

/-- One more slot in use. -/
theorem occupied_of_filled {t t' : Table α} {i : ℤ} (hsize : t'.size = t.size)
    (hnone : t.get i = none) (hsome : (t'.get i).isSome) (hrest : ∀ j, j ≠ i → t'.get j = t.get j) :
    t'.occupied = t.occupied + 1 := by
  obtain ⟨x, hx⟩ := Option.isSome_iff_exists.mp hsome
  obtain ⟨hnonneg, hlt⟩ := get_range hx
  obtain ⟨k, rfl⟩ := Int.eq_ofNat_of_zero_le hnonneg
  have hinsert : ((Finset.range t'.size).filter fun j : ℕ => (t'.get j).isSome) =
      insert k ((Finset.range t.size).filter fun j : ℕ => (t.get j).isSome) := by
    ext j
    rw [Finset.mem_insert, Finset.mem_filter, Finset.mem_filter, hsize]
    by_cases hj : j = k
    · subst hj
      simp only [Finset.mem_range, true_or, iff_true]
      exact ⟨by omega, hsome⟩
    · rw [hrest j (by omega)]
      simp [hj]
  rw [occupied, hinsert, Finset.card_insert_of_notMem]
  · rfl
  · simp [hnone]

theorem occupied_empty (n : ℕ) : (empty n : Table α).occupied = 0 := by
  simp [occupied]

/-! ## The same table with other elements -/

section Map

variable {β : Type} (f : α → β)

/-- Every element replaced by its image under `f`. -/
def map (t : Table α) : Table β := ⟨t.size, fun i => (t.slot i).map f⟩

@[simp] theorem map_size (t : Table α) : (t.map f).size = t.size := rfl

theorem get_map (t : Table α) (i : ℤ) : (t.map f).get i = (t.get i).map f := by
  unfold get map
  split <;> rfl

theorem map_store (t : Table α) (i : ℤ) (x : α) :
    (t.store i x).map f = (t.map f).store i (f x) := by
  simp only [map, store, Table.mk.injEq, true_and]
  exact Function.comp_update (Option.map f) t.slot i.toNat (some x)

theorem map_put (t : Table α) (x : α) :
    (t.map f).put (f x) = ((t.put x).1, (t.put x).2.map f) := by
  have hsome : (fun i => ((t.map f).slot i).isSome) = fun i => (t.slot i).isSome := by
    funext i
    simp [map]
  unfold put
  rw [hsome, map_size]
  split
  · rename_i i _
    simp only [map, Prod.mk.injEq, Table.mk.injEq, true_and]
    exact (Function.comp_update (Option.map f) t.slot i (some x)).symm
  · rfl

end Map

/-! ## Sums over a table -/

/-- The sum of `f` over the elements of a table. -/
def total (f : α → ℕ) (t : Table α) : ℕ :=
  ∑ i ∈ Finset.range t.size, (t.get i).elim 0 f

@[simp] theorem total_empty (f : α → ℕ) (n : ℕ) : total f (empty n) = 0 := by
  simp [total]

/-- Two tables that differ in one slot differ in their sums by that slot. -/
theorem total_update {t t' : Table α} {i : ℤ} (f : α → ℕ) (hsize : t'.size = t.size)
    (hi : 0 ≤ i ∧ i < t.size) (hne : ∀ j, j ≠ i → t'.get j = t.get j) :
    t'.total f + (t.get i).elim 0 f = t.total f + (t'.get i).elim 0 f := by
  have hmem : i.toNat ∈ Finset.range t.size := by
    rw [Finset.mem_range]
    omega
  have hcast : ((i.toNat : ℕ) : ℤ) = i := Int.toNat_of_nonneg hi.1
  have hrest : ∑ j ∈ (Finset.range t.size).erase i.toNat, (t'.get j).elim 0 f =
      ∑ j ∈ (Finset.range t.size).erase i.toNat, (t.get j).elim 0 f := by
    refine Finset.sum_congr rfl ?_
    intro j hj
    rw [hne j]
    intro hji
    exact (Finset.mem_erase.mp hj).1 (by omega)
  unfold total
  rw [hsize, ← Finset.add_sum_erase _ _ hmem, ← Finset.add_sum_erase (Finset.range t.size)
    (fun j : ℕ => (t.get j).elim 0 f) hmem, hrest, hcast]
  omega

theorem total_store {t : Table α} {i : ℤ} {x : α} (f : α → ℕ) (h : t.get i = some x) (y : α) :
    (t.store i y).total f + f x = t.total f + f y := by
  have hsum := total_update f (store_size t i y) (get_range h) (fun j hj => get_store_of_ne y h hj)
  rw [h, get_store_self y h] at hsum
  exact hsum

theorem total_remove_le {t : Table α} {i : ℤ} {x : α} (f : α → ℕ) (h : t.get i = some x) :
    (t.remove i).2.total f ≤ t.total f := by
  have hsum := total_update f (remove_size t i) (get_range h)
    (fun j hj => by rw [get_remove, if_neg hj])
  rw [get_remove, if_pos rfl, h] at hsum
  simp only [Option.elim_none, Option.elim_some] at hsum
  omega

end Table

end Nachos.Userprog
