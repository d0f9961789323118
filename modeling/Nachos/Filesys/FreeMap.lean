import Nachos.Userprog.Table
import Nachos.Filesys.OpenFile

/-!
# Sectors given out and taken back

The free sectors are kept in a bit map, which is itself a file. A header takes
its sectors from the map when a file is created and gives them back when it is
removed.
-/

namespace Nachos.Filesys

open Nachos.Lib Nachos.Userprog

/-! ## The map as a file -/

/-- `BitMap::FetchFrom`. -/
def fetchMap (d : Disk) (file : FileHeader) : Option BitMap :=
  (readAt d file (fun _ => 0) 0 (numSectors / 8 : ℕ) 0).map fun r => unpackBits r.1

/-- `BitMap::WriteBack`. -/
def writeBackMap (m : BitMap) (d : Disk) (file : FileHeader) (heap : Buffer) : Option Disk :=
  (writeAt d file heap (packBits m) (numSectors / 8 : ℕ) 0).map Prod.fst

/-! ## Headers and the map -/

namespace FileHeader

/-- The loop of `Allocate`. -/
def allocateSectors (h : FileHeader) (freeMap : BitMap) :
    (left i : ℕ) → Option (FileHeader × BitMap)
  | 0, _ => some (h, freeMap)
  | left + 1, i =>
      if i < numDirect then
        match BitMap.find Filesys.numSectors freeMap with
        | some k =>
            allocateSectors { h with dataSectors := Function.update h.dataSectors i k }
              (freeMap.mark k) left (i + 1)
        -- `-1`
        | none =>
            allocateSectors { h with dataSectors := Function.update h.dataSectors i (2 ^ 32 - 1) }
              freeMap left (i + 1)
      else none

/-- `Allocate`, in the memory of a new header. -/
def allocate (h : FileHeader) (freeMap : BitMap) (fileSize : ℕ) :
    Option (Bool × FileHeader × BitMap) :=
  let n := divRoundUp fileSize sectorSize
  let h : FileHeader := { h with numBytes := fileSize, numSectors := n }
  if freeMap.numClear Filesys.numSectors < n then some (false, h, freeMap)
  else (h.allocateSectors freeMap n 0).map fun r => (true, r)

/-- `Deallocate` of `left` sectors from `i` on, each of which ought to be marked. -/
def deallocate (h : FileHeader) (freeMap : BitMap) : (left i : ℕ) → Option BitMap
  | 0, _ => some freeMap
  | left + 1, i =>
      if h.dataSectors i < Filesys.numSectors ∧ freeMap (h.dataSectors i) = true then
        deallocate h (freeMap.clear (h.dataSectors i)) left (i + 1)
      else none

end FileHeader

/-! ## What the map file holds -/

/-- A file as long as the map. -/
structure MapFile (file : FileHeader) : Prop extends file.Fits where
  length : file.numBytes = numSectors / 8

/-- The map that a file holds. -/
def mapOf (d : Disk) (file : FileHeader) : BitMap := unpackBits (fileByte d file)

section Map

variable {file : FileHeader}

theorem fetchMap_eq (hfile : MapFile file) (d : Disk) : ∃ m, fetchMap d file = some m ∧
    ∀ i < numSectors, m i = mapOf d file i := by
  obtain ⟨buf, hread, hbytes⟩ := readAt_whole d (fun _ => 0) hfile.toFits
  rw [hfile.length] at hread hbytes
  refine ⟨unpackBits buf, by rw [fetchMap, hread, Option.map_some], ?_⟩
  intro i hi
  rw [mapOf, unpackBits, unpackBits, hbytes (i / 8) (Nat.div_lt_div_of_lt_of_dvd (by decide) hi)]

theorem writeBackMap_eq (hfile : MapFile file) (m : BitMap) (d : Disk) (heap : Buffer) :
    ∃ d', writeBackMap m d file heap = some d' ∧
      (∀ x, (∀ i < file.numSectors, x ≠ file.dataSectors i) → d' x = d x) ∧
      ∀ i < numSectors, mapOf d' file i = m i := by
  obtain ⟨d', hwrite, hother, hbytes⟩ := writeAt_whole d heap (packBits m) hfile.toFits
  rw [hfile.length] at hwrite hbytes
  refine ⟨d', by rw [writeBackMap, hwrite, Option.map_some], hother, ?_⟩
  intro i hi
  exact unpackBits_eq (hbytes (i / 8) (Nat.div_lt_div_of_lt_of_dvd (by decide) hi))

end Map

/-! ## Allocation -/

section Allocate

variable {h h' : FileHeader} {m m' : BitMap} {left i : ℕ}

/-- **The loop of `Allocate`**, with as many clear bits as there are sectors left to
find: the sectors found were clear, are different, and are marked afterwards. -/
theorem allocateSectors_eq (hclear : left ≤ m.numClear numSectors) (hi : i + left ≤ numDirect) :
    ∃ h' m', h.allocateSectors m left i = some (h', m') ∧
      h'.numBytes = h.numBytes ∧ h'.numSectors = h.numSectors ∧
      (∀ j < i, h'.dataSectors j = h.dataSectors j) ∧
      (∀ j, i ≤ j → j < i + left → h'.dataSectors j < numSectors ∧
        m (h'.dataSectors j) = false ∧ m' (h'.dataSectors j) = true) ∧
      (∀ j k, i ≤ j → j < k → k < i + left → h'.dataSectors j ≠ h'.dataSectors k) ∧
      (∀ x, m x = true → m' x = true) ∧
      ∀ x, m' x = true → m x = true ∨ ∃ j, i ≤ j ∧ j < i + left ∧ h'.dataSectors j = x := by
  induction left generalizing h m i with
  | zero =>
      refine ⟨h, m, rfl, rfl, rfl, fun j _ => rfl, ?_, ?_, fun x hx => hx, fun x hx => .inl hx⟩
      · intro j hj hlt
        omega
      · intro j k hj hlt hk
        omega
  | succ left ih =>
      obtain ⟨k, hk⟩ := BitMap.find_of_numClear (Nat.lt_of_lt_of_le (Nat.succ_pos left) hclear)
      obtain ⟨hlt, hfree, -⟩ := BitMap.find_some hk
      have hcount := BitMap.numClear_mark hlt hfree
      obtain ⟨h', m', hloop, hbytes, hsectors, hbefore, hnew, hne, hmono, hback⟩ :=
        ih (h := { h with dataSectors := Function.update h.dataSectors i k }) (m := m.mark k)
          (i := i + 1) (by omega) (by omega)
      have hself : h'.dataSectors i = k := by
        rw [hbefore i (Nat.lt_succ_self i)]
        exact Function.update_self ..
      have hlater : ∀ j, i + 1 ≤ j → j < i + 1 + left → h'.dataSectors j ≠ k ∧
          m (h'.dataSectors j) = false := by
        intro j hj hj'
        obtain ⟨-, hclear', -⟩ := hnew j hj hj'
        have hjk : h'.dataSectors j ≠ k := by
          intro heq
          rw [heq, BitMap.mark_self] at hclear'
          cases hclear'
        rw [BitMap.mark_of_ne _ hjk] at hclear'
        exact ⟨hjk, hclear'⟩
      refine ⟨h', m', ?_, hbytes, hsectors, ?_, ?_, ?_, ?_, ?_⟩
      · rw [FileHeader.allocateSectors, if_pos (by omega), hk]
        exact hloop
      · intro j hj
        rw [hbefore j (by omega)]
        exact Function.update_of_ne (by omega) _ _
      · intro j hj hj'
        rcases Nat.eq_or_lt_of_le hj with rfl | hgt
        · rw [hself]
          exact ⟨hlt, hfree, hmono k (BitMap.mark_self m k)⟩
        · obtain ⟨hdisk, -, hmarked⟩ := hnew j hgt (by omega)
          exact ⟨hdisk, (hlater j hgt (by omega)).2, hmarked⟩
      · intro j l hj hjl hl
        rcases Nat.eq_or_lt_of_le hj with rfl | hgt
        · rw [hself]
          exact ((hlater l hjl (by omega)).1).symm
        · exact hne j l hgt hjl (by omega)
      · intro x hx
        refine hmono x ?_
        by_cases hxk : x = k
        · rw [hxk, BitMap.mark_self]
        · rwa [BitMap.mark_of_ne _ hxk]
      · intro x hx
        rcases hback x hx with hx | ⟨j, hj, hj', heq⟩
        · by_cases hxk : x = k
          · exact .inr ⟨i, Nat.le_refl i, by omega, hself.trans hxk.symm⟩
          · rw [BitMap.mark_of_ne _ hxk] at hx
            exact .inl hx
        · exact .inr ⟨j, by omega, by omega, heq⟩

/-- **`Allocate`** succeeds when there are enough clear bits. -/
theorem allocate_eq (h : FileHeader) {size : ℕ} (hsize : size ≤ maxFileSize)
    (hclear : divRoundUp size sectorSize ≤ m.numClear numSectors) :
    ∃ h' m', h.allocate m size = some (true, h', m') ∧ h'.Fits ∧ h'.numBytes = size ∧
      (∀ i < h'.numSectors, m (h'.dataSectors i) = false) ∧
      ∀ x, m' x = true ↔ m x = true ∨ ∃ i < h'.numSectors, h'.dataSectors i = x := by
  have hdirect : 0 + divRoundUp size sectorSize ≤ numDirect := by
    unfold divRoundUp maxFileSize numDirect sectorSize at *
    split <;> omega
  obtain ⟨h', m', hloop, hbytes, hsectors, -, hnew, hne, hmono, hback⟩ := allocateSectors_eq
    (h := { h with numBytes := size, numSectors := divRoundUp size sectorSize }) hclear hdirect
  simp only at hbytes hsectors
  rw [Nat.zero_add, ← hsectors] at hnew hne hback
  refine ⟨h', m', ?_, ?_, hbytes, ?_, ?_⟩
  · simp only [FileHeader.allocate, if_neg (Nat.not_lt.mpr hclear), hloop, Option.map_some]
  · constructor
    · rw [hbytes]
      exact hsize
    · rw [hbytes]
      exact hsectors
    · intro i hi
      exact (hnew i (Nat.zero_le i) hi).1
    · intro i j hi hj heq
      rcases Nat.lt_trichotomy i j with hlt | rfl | hgt
      · exact absurd heq (hne i j (Nat.zero_le i) hlt hj)
      · rfl
      · exact absurd heq.symm (hne j i (Nat.zero_le j) hgt hi)
  · intro i hi
    exact (hnew i (Nat.zero_le i) hi).2.1
  · intro x
    constructor
    · intro hx
      rcases hback x hx with hx | ⟨i, -, hi, heq⟩
      · exact .inl hx
      · exact .inr ⟨i, hi, heq⟩
    · rintro (hx | ⟨i, hi, rfl⟩)
      · exact hmono x hx
      · exact (hnew i (Nat.zero_le i) hi).2.2

/-- The first sector of a file is the first one that is clear. -/
theorem allocate_first {size : ℕ} (hpos : 0 < size) (hsize : size ≤ maxFileSize)
    (hclear : divRoundUp size sectorSize ≤ m.numClear numSectors)
    (halloc : h.allocate m size = some (true, h', m')) :
    BitMap.find numSectors m = some (h'.dataSectors 0) := by
  obtain ⟨n, hn⟩ : ∃ n, divRoundUp size sectorSize = n + 1 := by
    apply Nat.exists_eq_succ_of_ne_zero
    unfold divRoundUp sectorSize
    split <;> omega
  have hdirect : 0 + 1 + n ≤ numDirect := by
    unfold divRoundUp maxFileSize numDirect sectorSize at *
    split at hn <;> omega
  obtain ⟨k, hk⟩ := BitMap.find_of_numClear (Nat.lt_of_lt_of_le (Nat.succ_pos n) (hn ▸ hclear))
  obtain ⟨hlt, hfree, -⟩ := BitMap.find_some hk
  have hcount := BitMap.numClear_mark hlt hfree
  obtain ⟨h₁, m₁, hloop, -, -, hbefore, -⟩ := allocateSectors_eq
    (h := { h with numBytes := size, numSectors := n + 1, dataSectors := Function.update h.dataSectors 0 k })
    (m := m.mark k) (i := 0 + 1) (show n ≤ _ by omega) hdirect
  have hresult : h.allocate m size = some (true, h₁, m₁) := by
    simp only [FileHeader.allocate, hn, if_neg (show ¬ m.numClear numSectors < n + 1 by omega),
      FileHeader.allocateSectors, if_pos (show 0 < numDirect by decide), hk]
    rw [hloop]
    rfl
  rw [hresult] at halloc
  obtain ⟨-, hpair⟩ := Prod.mk.inj (Option.some.inj halloc)
  obtain ⟨rfl, -⟩ := Prod.mk.inj hpair
  rw [hk, hbefore 0 (Nat.lt_succ_self 0)]
  dsimp only
  rw [Function.update_self]

theorem deallocateSectors_eq (hfits : h.Fits) (hi : i + left = h.numSectors)
    (hmarked : ∀ j, i ≤ j → j < h.numSectors → m (h.dataSectors j) = true) :
    ∃ m', h.deallocate m left i = some m' ∧
      ∀ x, m' x = true ↔ m x = true ∧ ∀ j, i ≤ j → j < h.numSectors → h.dataSectors j ≠ x := by
  induction left generalizing m i with
  | zero =>
      refine ⟨m, rfl, ?_⟩
      intro x
      refine ⟨fun hx => ⟨hx, ?_⟩, fun hx => hx.1⟩
      intro j hj hlt
      omega
  | succ left ih =>
      have hthis := hmarked i (Nat.le_refl i) (by omega)
      have hdisk := hfits.in_disk (show i < h.numSectors by omega)
      have hrest : ∀ j, i + 1 ≤ j → j < h.numSectors →
          m.clear (h.dataSectors i) (h.dataSectors j) = true := by
        intro j hj hlt
        have hne : h.dataSectors j ≠ h.dataSectors i := by
          intro heq
          have := hfits.inj hlt (by omega) heq
          omega
        rw [BitMap.clear_of_ne _ hne]
        exact hmarked j (by omega) hlt
      obtain ⟨m', hloop, hbits⟩ := ih (by omega) hrest
      refine ⟨m', ?_, ?_⟩
      · rw [FileHeader.deallocate, if_pos ⟨hdisk, hthis⟩]
        exact hloop
      · intro x
        rw [hbits]
        by_cases hx : x = h.dataSectors i
        · subst hx
          rw [BitMap.clear_self]
          constructor
          · rintro ⟨⟨⟩, -⟩
          · rintro ⟨-, hall⟩
            exact absurd rfl (hall i (Nat.le_refl i) (by omega))
        · rw [BitMap.clear_of_ne _ hx]
          refine and_congr_right fun _ => ?_
          constructor
          · intro hall j hj hlt
            rcases Nat.eq_or_lt_of_le hj with rfl | hgt
            · exact Ne.symm hx
            · exact hall j hgt hlt
          · intro hall j hj hlt
            exact hall j (by omega) hlt

/-- **`Deallocate`** clears the sectors of the file and no others. -/
theorem deallocate_eq (hfits : h.Fits) (hmarked : ∀ i < h.numSectors, m (h.dataSectors i) = true) :
    ∃ m', h.deallocate m h.numSectors 0 = some m' ∧
      ∀ x, m' x = true ↔ m x = true ∧ ∀ i < h.numSectors, h.dataSectors i ≠ x := by
  obtain ⟨m', hloop, hbits⟩ :=
    deallocateSectors_eq hfits (Nat.zero_add _) fun j _ hj => hmarked j hj
  refine ⟨m', hloop, ?_⟩
  intro x
  rw [hbits]
  exact and_congr_right fun _ => ⟨fun hall i hi => hall i (Nat.zero_le i) hi,
    fun hall i _ hi => hall i hi⟩

end Allocate

end Nachos.Filesys
