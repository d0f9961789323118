import Nachos.Lib.Bytes

/-!
# Files on a disk

A file is its header, which takes one sector, and the sectors the header names.
A disk transfers whole sectors only: reading brings in all sectors of the request
and copies the part wanted; writing first brings in those that are changed in
part. Nothing checks that a request is sensible beyond the length of the file.

The integers of a header are not negative in any file that was created, and are
natural numbers here. `none` stands for an assertion that fails, an index out of
its array or an addition that overflows.
-/

namespace Nachos.Filesys

open Nachos.Lib

/-! ## Disk and headers -/

def sectorSize : ℕ := 128

/-- `NumSectors`. -/
def numSectors : ℕ := 1024

/-- `NumDirect`: the sector numbers that fit into a header. -/
def numDirect : ℕ := 30

def maxFileSize : ℕ := numDirect * sectorSize

def divRoundUp (n s : ℕ) : ℕ := n / s + if n % s > 0 then 1 else 0

/-- The sectors of a disk. Of each one `sectorSize` bytes count. -/
abbrev Disk : Type := ℕ → Buffer

def readSector (d : Disk) (sector : ℕ) : Option Buffer :=
  if sector < numSectors then some (d sector) else none

def writeSector (d : Disk) (sector : ℕ) (data : Buffer) : Option Disk :=
  if sector < numSectors then some (Function.update d sector data) else none

structure FileHeader where
  numBytes : ℕ
  numSectors : ℕ
  dataSectors : ℕ → ℕ

namespace FileHeader

/-- The header as `WriteBack` casts it. -/
def toBytes (h : FileHeader) : Buffer := fun o =>
  intByte (if o / 4 = 0 then h.numBytes else if o / 4 = 1 then h.numSectors
    else h.dataSectors (o / 4 - 2)) (o % 4)

/-- The header that `FetchFrom` reads. -/
def ofBytes (b : Buffer) : FileHeader := ⟨b.intAt 0, b.intAt 4, fun i => b.intAt (8 + 4 * i)⟩

def fetchFrom (d : Disk) (sector : ℕ) : Option FileHeader := (readSector d sector).map ofBytes

def writeBack (h : FileHeader) (d : Disk) (sector : ℕ) : Option Disk :=
  writeSector d sector h.toBytes

def byteToSector (h : FileHeader) (offset : ℕ) : Option ℕ :=
  if offset / sectorSize < numDirect then some (h.dataSectors (offset / sectorSize)) else none

def fileLength (h : FileHeader) : ℕ := h.numBytes

end FileHeader

/-! ## Reading and writing -/

/-- The loop of `ReadAt`: `left` sectors of the file from sector `i` on. -/
def readSectors (d : Disk) (h : FileHeader) (firstSector : ℕ) :
    (left i : ℕ) → Buffer → Option Buffer
  | 0, _, buf => some buf
  | left + 1, i, buf =>
      (h.byteToSector (i * sectorSize)).bind fun sector =>
        (readSector d sector).bind fun data =>
          readSectors d h firstSector left (i + 1)
            (data.copy 0 buf ((i - firstSector) * sectorSize) sectorSize)

/-- The loop of `WriteAt`. -/
def writeSectors (h : FileHeader) (firstSector : ℕ) (buf : Buffer) :
    (left i : ℕ) → Disk → Option Disk
  | 0, _, d => some d
  | left + 1, i, d =>
      (h.byteToSector (i * sectorSize)).bind fun sector =>
        (writeSector d sector fun o => buf ((i - firstSector) * sectorSize + o)).bind fun d =>
          writeSectors h firstSector buf left (i + 1) d

/-- `position + numBytes` does not fit into an `int` where it is computed. -/
def Overflows (h : FileHeader) (numBytes : ℤ) (position : ℕ) : Prop :=
  0 < numBytes ∧ position < h.fileLength ∧ (2 : ℤ) ^ 31 ≤ position + numBytes

instance (h : FileHeader) (numBytes : ℤ) (position : ℕ) : Decidable (Overflows h numBytes position) :=
  inferInstanceAs (Decidable (_ ∧ _))

/-- `ReadAt` into the memory at `into + q`. Every byte of the buffer `buf` is read
from the disk, so it does not matter what it holds at first. -/
def readAt (d : Disk) (h : FileHeader) (into : Buffer) (q : ℕ) (numBytes : ℤ) (position : ℕ) :
    Option (Buffer × ℕ) :=
  let fileLength := h.fileLength
  if numBytes ≤ 0 ∨ fileLength ≤ position then some (into, 0)
  else if (2 : ℤ) ^ 31 ≤ position + numBytes then none
  else
    let n := if (fileLength : ℤ) < position + numBytes then fileLength - position
      else numBytes.toNat
    let firstSector := position / sectorSize
    let lastSector := (position + n - 1) / sectorSize
    (readSectors d h firstSector (1 + lastSector - firstSector) firstSector (fun _ => 0)).map
      fun buf => (buf.copy (position - firstSector * sectorSize) into q n, n)

/-- `WriteAt`; `heap` is what the memory of the new buffer holds. -/
def writeAt (d : Disk) (h : FileHeader) (heap src : Buffer) (numBytes : ℤ) (position : ℕ) :
    Option (Disk × ℕ) :=
  let fileLength := h.fileLength
  if numBytes ≤ 0 ∨ fileLength ≤ position then some (d, 0)
  else if (2 : ℤ) ^ 31 ≤ position + numBytes then none
  else
    let n := if (fileLength : ℤ) < position + numBytes then fileLength - position
      else numBytes.toNat
    let firstSector := position / sectorSize
    let lastSector := (position + n - 1) / sectorSize
    let firstAligned := position = firstSector * sectorSize
    let lastAligned := position + n = (lastSector + 1) * sectorSize
    -- the sectors that are changed in part
    (if ¬ firstAligned then readAt d h heap 0 sectorSize (firstSector * sectorSize)
      else some (heap, 0)).bind fun (buf, _) =>
    (if ¬ lastAligned ∧ (firstSector ≠ lastSector ∨ firstAligned) then
        readAt d h buf ((lastSector - firstSector) * sectorSize) sectorSize (lastSector * sectorSize)
      else some (buf, 0)).bind fun (buf, _) =>
    let buf := src.copy 0 buf (position - firstSector * sectorSize) n
    (writeSectors h firstSector buf (1 + lastSector - firstSector) firstSector d).map (·, n)

/-! ## What is read and written -/

/-- Byte `i` of a file. -/
def fileByte (d : Disk) (h : FileHeader) (i : ℕ) : UInt8 :=
  d (h.dataSectors (i / sectorSize)) (i % sectorSize)

/-- A header as `Allocate` makes it. -/
structure FileHeader.Fits (h : FileHeader) : Prop where
  size : h.numBytes ≤ maxFileSize
  sectors : h.numSectors = divRoundUp h.numBytes sectorSize
  in_disk : ∀ {i}, i < h.numSectors → h.dataSectors i < Filesys.numSectors
  inj : ∀ {i j}, i < h.numSectors → j < h.numSectors → h.dataSectors i = h.dataSectors j → i = j

/-- The number of bytes that a request transfers. -/
def transferred (h : FileHeader) (numBytes : ℤ) (position : ℕ) : ℕ :=
  min numBytes.toNat (h.numBytes - position)

section Transfers

variable {d : Disk} {h : FileHeader} {i j left firstSector q position : ℕ} {numBytes : ℤ}
  {buf into heap src : Buffer}

theorem FileHeader.Fits.sector_lt (hfits : h.Fits) (hi : i * sectorSize < h.numBytes) :
    i < h.numSectors ∧ i < numDirect := by
  have hsize := hfits.size
  have hsectors := hfits.sectors
  unfold divRoundUp at hsectors
  unfold maxFileSize numDirect sectorSize at *
  split at hsectors <;> omega

theorem byteToSector_eq (hi : i < numDirect) :
    h.byteToSector (i * sectorSize) = some (h.dataSectors i) := by
  rw [FileHeader.byteToSector, Nat.mul_div_cancel i (by decide), if_pos hi]

/-- **The loop of `ReadAt`** fills the buffer with the bytes of the file. -/
theorem readSectors_eq (hle : firstSector ≤ i)
    (hok : ∀ j, i ≤ j → j < i + left → j < numDirect ∧ h.dataSectors j < numSectors) :
    ∃ buf', readSectors d h firstSector left i buf = some buf' ∧ ∀ o, buf' o =
      if (i - firstSector) * sectorSize ≤ o ∧ o < (i - firstSector + left) * sectorSize then
        fileByte d h (firstSector * sectorSize + o) else buf o := by
  induction left generalizing i buf with
  | zero =>
      refine ⟨buf, rfl, ?_⟩
      intro o
      rw [if_neg (by rw [Nat.add_zero]; omega)]
  | succ left ih =>
      obtain ⟨hdirect, hdisk⟩ := hok i (Nat.le_refl i) (by omega)
      have hrest : ∀ j, i + 1 ≤ j → j < i + 1 + left →
          j < numDirect ∧ h.dataSectors j < numSectors :=
        fun j hj hlt => hok j (by omega) (by omega)
      obtain ⟨buf', hread, hbytes⟩ := ih (Nat.le_succ_of_le hle) hrest
      refine ⟨buf', ?_, ?_⟩
      · rw [readSectors, byteToSector_eq hdirect, Option.bind_some, readSector, if_pos hdisk,
          Option.bind_some]
        exact hread
      · intro o
        rw [hbytes]
        unfold Buffer.copy fileByte sectorSize
        by_cases hlater : (i + 1 - firstSector) * 128 ≤ o ∧ o < (i + 1 - firstSector + left) * 128
        · rw [if_pos hlater, if_pos (by omega)]
        · rw [if_neg hlater]
          by_cases hthis : (i - firstSector) * 128 ≤ o ∧ o < (i - firstSector) * 128 + 128
          · rw [if_pos hthis, if_pos (by omega)]
            congr 2 <;> omega
          · rw [if_neg hthis, if_neg (by omega)]

/-- **The loop of `WriteAt`** stores the buffer in the sectors, and nothing else. -/
theorem writeSectors_eq (d : Disk) (buf : Buffer) (hle : firstSector ≤ i)
    (hok : ∀ j, i ≤ j → j < i + left → j < numDirect ∧ h.dataSectors j < numSectors)
    (hinj : ∀ j k, i ≤ j → j < i + left → i ≤ k → k < i + left →
      h.dataSectors j = h.dataSectors k → j = k) :
    ∃ d', writeSectors h firstSector buf left i d = some d' ∧
      (∀ x, (∀ j, i ≤ j → j < i + left → x ≠ h.dataSectors j) → d' x = d x) ∧
      ∀ j, i ≤ j → j < i + left → ∀ o, d' (h.dataSectors j) o = buf ((j - firstSector) * sectorSize + o) := by
  induction left generalizing i d with
  | zero =>
      refine ⟨d, rfl, fun x _ => rfl, ?_⟩
      intro j hj hlt
      omega
  | succ left ih =>
      obtain ⟨hdirect, hdisk⟩ := hok i (Nat.le_refl i) (by omega)
      obtain ⟨d', hwrite, hother, hstored⟩ := ih _ (Nat.le_succ_of_le hle)
        (fun j hj hlt => hok j (by omega) (by omega))
        (fun j k hj hj' hk hk' => hinj j k (by omega) (by omega) (by omega) (by omega))
      refine ⟨d', ?_, ?_, ?_⟩
      · rw [writeSectors, byteToSector_eq hdirect, Option.bind_some, writeSector, if_pos hdisk,
          Option.bind_some]
        exact hwrite
      · intro x hx
        rw [hother x fun j hj hlt => hx j (by omega) (by omega),
          Function.update_of_ne (hx i (Nat.le_refl i) (by omega))]
      · intro j hj hlt o
        rcases Nat.eq_or_lt_of_le hj with rfl | hgt
        · rw [hother _ ?_, Function.update_self]
          intro k hk hk' heq
          have := hinj i k (Nat.le_refl i) (by omega) (by omega) (by omega) heq
          omega
        · exact hstored j hgt (by omega) o

/-- The sectors of a request are sectors of the file. -/
theorem FileHeader.Fits.request {n : ℕ} (hfits : h.Fits) (hpos : 0 < n)
    (hn : position + n ≤ h.numBytes) : ∀ j, position / sectorSize ≤ j →
      j < position / sectorSize + (1 + (position + n - 1) / sectorSize - position / sectorSize) →
      j < h.numSectors ∧ j < numDirect ∧ h.dataSectors j < Filesys.numSectors := by
  intro j _ hlt
  have hj : j * sectorSize < h.numBytes := by
    unfold sectorSize at *
    omega
  obtain ⟨hsectors, hdirect⟩ := hfits.sector_lt hj
  exact ⟨hsectors, hdirect, hfits.in_disk hsectors⟩

/-- The length that both requests are cut to. -/
theorem transferred_eq (hpos : ¬ (numBytes ≤ 0 ∨ h.fileLength ≤ position)) :
    (if (h.fileLength : ℤ) < position + numBytes then h.fileLength - position
      else numBytes.toNat) = transferred h numBytes position ∧
      0 < transferred h numBytes position ∧
      position + transferred h numBytes position ≤ h.numBytes := by
  unfold transferred FileHeader.fileLength at *
  split <;> omega

theorem transferred_zero (hzero : numBytes ≤ 0 ∨ h.fileLength ≤ position) :
    transferred h numBytes position = 0 := by
  unfold transferred FileHeader.fileLength at *
  omega

/-- **`ReadAt`** copies the bytes of the file. -/
theorem readAt_eq (d : Disk) (into : Buffer) (q : ℕ) (hfits : h.Fits)
    (hno : ¬ Overflows h numBytes position) :
    ∃ into', readAt d h into q numBytes position = some (into', transferred h numBytes position) ∧
      ∀ o, into' o = if q ≤ o ∧ o < q + transferred h numBytes position then
        fileByte d h (position + (o - q)) else into o := by
  unfold readAt
  by_cases hzero : numBytes ≤ 0 ∨ h.fileLength ≤ position
  · refine ⟨into, ?_, ?_⟩
    · simp only [hzero, if_true, transferred_zero]
    · intro o
      rw [transferred_zero hzero, if_neg (by omega)]
  · have hsmall : ¬ (2 : ℤ) ^ 31 ≤ position + numBytes := by
      intro hbig
      exact hno ⟨by omega, by omega, hbig⟩
    obtain ⟨hn, hpos, hle⟩ := transferred_eq hzero
    simp only [hzero, hsmall, if_false, hn]
    generalize transferred h numBytes position = n at hpos hle
    obtain ⟨buf, hread, hbytes⟩ := readSectors_eq (d := d) (Nat.le_refl (position / sectorSize))
      fun j hj hlt => (hfits.request hpos hle j hj hlt).2
    refine ⟨_, by rw [hread, Option.map_some], ?_⟩
    intro o
    unfold Buffer.copy
    by_cases ho : q ≤ o ∧ o < q + n
    · rw [if_pos ho, if_pos ho, hbytes, if_pos]
      · congr 1
        unfold sectorSize
        omega
      · unfold sectorSize
        omega
    · rw [if_neg ho, if_neg ho]

/-- Reading one whole sector to its place in the buffer. The file may have only a
part of it. -/
theorem readAt_place (d : Disk) (buf : Buffer) (hfits : h.Fits) (hle : firstSector ≤ j)
    (hj : j * sectorSize < h.numBytes) :
    ∃ buf' m, readAt d h buf ((j - firstSector) * sectorSize) sectorSize (j * sectorSize) =
        some (buf', m) ∧
      ∀ i < h.numBytes, firstSector ≤ i / sectorSize → buf' (i - firstSector * sectorSize) =
        if i / sectorSize = j then fileByte d h i else buf (i - firstSector * sectorSize) := by
  have hno : ¬ Overflows h sectorSize (j * sectorSize) := by
    have hsize := hfits.size
    unfold Overflows maxFileSize numDirect sectorSize at *
    omega
  obtain ⟨buf', hread, hbytes⟩ := readAt_eq d buf _ hfits hno
  refine ⟨buf', _, hread, ?_⟩
  intro i hi hsector
  rw [hbytes]
  unfold transferred
  by_cases heq : i / sectorSize = j
  · rw [if_pos (by unfold sectorSize at *; omega), if_pos heq]
    congr 1
    unfold sectorSize at *
    omega
  · rw [if_neg (by unfold sectorSize at *; omega), if_neg heq]

/-- The buffer of `WriteAt` before the new bytes are copied: what is not to be
changed is there. -/
theorem partial_sectors {n last : ℕ} (d : Disk) (heap : Buffer) (hfits : h.Fits) (hpos : 0 < n)
    (hle : position + n ≤ h.numBytes) (hfirst : firstSector = position / sectorSize)
    (hlast : last = (position + n - 1) / sectorSize) :
    ∃ buf₁ m₁ buf₂ m₂,
      (if ¬ position = firstSector * sectorSize then
        readAt d h heap 0 sectorSize (firstSector * sectorSize) else some (heap, 0)) =
          some (buf₁, m₁) ∧
      (if ¬ position + n = (last + 1) * sectorSize ∧
          (firstSector ≠ last ∨ position = firstSector * sectorSize) then
        readAt d h buf₁ ((last - firstSector) * sectorSize) sectorSize (last * sectorSize)
        else some (buf₁, 0)) = some (buf₂, m₂) ∧
      ∀ i < h.numBytes, firstSector ≤ i / sectorSize → i / sectorSize ≤ last →
        ¬ (position ≤ i ∧ i < position + n) →
        buf₂ (i - firstSector * sectorSize) = fileByte d h i := by
  have hspan : firstSector ≤ last ∧ firstSector * sectorSize < h.numBytes ∧
      last * sectorSize < h.numBytes := by
    unfold sectorSize at *
    omega
  obtain ⟨hfl, hfirst_lt, hlast_lt⟩ := hspan
  obtain ⟨buf₁, m₁, hread₁, hbytes₁⟩ : ∃ buf₁ m₁,
      (if ¬ position = firstSector * sectorSize then
        readAt d h heap 0 sectorSize (firstSector * sectorSize) else some (heap, 0)) =
          some (buf₁, m₁) ∧
      (position ≠ firstSector * sectorSize → ∀ i < h.numBytes, i / sectorSize = firstSector →
        buf₁ (i - firstSector * sectorSize) = fileByte d h i) := by
    by_cases haligned : position = firstSector * sectorSize
    · exact ⟨heap, 0, if_neg (not_not.mpr haligned), fun hc => absurd haligned hc⟩
    · obtain ⟨buf₁, m₁, hread, hbytes⟩ :=
        readAt_place d heap hfits (Nat.le_refl firstSector) hfirst_lt
      rw [Nat.sub_self, Nat.zero_mul] at hread
      refine ⟨buf₁, m₁, by rw [if_pos haligned, hread], ?_⟩
      intro _ i hi hsector
      rw [hbytes i hi (Nat.le_of_eq hsector.symm), if_pos hsector]
  refine ⟨buf₁, m₁, ?_⟩
  by_cases hlater : ¬ position + n = (last + 1) * sectorSize ∧
      (firstSector ≠ last ∨ position = firstSector * sectorSize)
  · obtain ⟨buf₂, m₂, hread, hbytes⟩ := readAt_place d buf₁ hfits hfl hlast_lt
    refine ⟨buf₂, m₂, hread₁, by rw [if_pos hlater, hread], ?_⟩
    intro i hi hle' hlast' hout
    rw [hbytes i hi hle']
    split
    · rfl
    · -- not in the last sector, so before the request
      exact hbytes₁ (by unfold sectorSize at *; omega) i hi (by unfold sectorSize at *; omega)
  · refine ⟨buf₁, 0, hread₁, if_neg hlater, ?_⟩
    intro i hi hle' hlast' hout
    rw [not_and_or, not_not, not_or, not_not] at hlater
    exact hbytes₁ (by unfold sectorSize at *; omega) i hi (by unfold sectorSize at *; omega)

/-- **`WriteAt`** changes the bytes addressed and no others, of this file or of
another sector. -/
theorem writeAt_eq (d : Disk) (heap src : Buffer) (hfits : h.Fits)
    (hno : ¬ Overflows h numBytes position) :
    ∃ d', writeAt d h heap src numBytes position = some (d', transferred h numBytes position) ∧
      (∀ x, (∀ i < h.numSectors, x ≠ h.dataSectors i) → d' x = d x) ∧
      ∀ i < h.numBytes, fileByte d' h i =
        if position ≤ i ∧ i < position + transferred h numBytes position then src (i - position)
        else fileByte d h i := by
  unfold writeAt
  by_cases hzero : numBytes ≤ 0 ∨ h.fileLength ≤ position
  · refine ⟨d, ?_, fun x _ => rfl, ?_⟩
    · simp only [hzero, if_true, transferred_zero]
    · intro i _
      rw [transferred_zero hzero, if_neg (by omega)]
  · have hsmall : ¬ (2 : ℤ) ^ 31 ≤ position + numBytes := by
      intro hbig
      exact hno ⟨by omega, by omega, hbig⟩
    obtain ⟨hn, hpos, hle⟩ := transferred_eq hzero
    simp only [hzero, hsmall, if_false, hn]
    generalize transferred h numBytes position = n at hpos hle
    obtain ⟨buf₁, m₁, buf₂, m₂, hread₁, hread₂, hkept⟩ :=
      partial_sectors d heap hfits hpos hle rfl rfl
    have hreq := hfits.request hpos hle
    obtain ⟨d', hwrite, hother, hstored⟩ := writeSectors_eq d
      (src.copy 0 buf₂ (position - position / sectorSize * sectorSize) n)
      (Nat.le_refl (position / sectorSize)) (fun j hj hlt => (hreq j hj hlt).2)
      fun j k hj hj' hk hk' heq => hfits.inj (hreq j hj hj').1 (hreq k hk hk').1 heq
    refine ⟨d', ?_, ?_, ?_⟩
    · rw [hread₁]
      simp only [Option.bind_some]
      rw [hread₂]
      simp only [Option.bind_some, hwrite, Option.map_some]
    · intro x hx
      exact hother x fun j hj hlt => hx j (hreq j hj hlt).1
    · intro i hi
      by_cases hsector : position / sectorSize ≤ i / sectorSize ∧
          i / sectorSize ≤ (position + n - 1) / sectorSize
      · rw [fileByte, hstored _ hsector.1 (by omega)]
        have hoffset : (i / sectorSize - position / sectorSize) * sectorSize + i % sectorSize =
            i - position / sectorSize * sectorSize := by
          unfold sectorSize at *
          omega
        rw [hoffset]
        unfold Buffer.copy
        by_cases hin : position ≤ i ∧ i < position + n
        · rw [if_pos (by unfold sectorSize at *; omega), if_pos hin]
          congr 1
          unfold sectorSize at *
          omega
        · rw [if_neg (by unfold sectorSize at *; omega), if_neg hin]
          exact hkept i hi hsector.1 hsector.2 hin
      · -- a sector of the file that is not written
        rw [if_neg (by unfold sectorSize at *; omega)]
        have hi' : i / sectorSize < h.numSectors := by
          refine (hfits.sector_lt ?_).1
          unfold sectorSize at *
          omega
        rw [fileByte, fileByte, hother]
        intro j hj hlt heq
        have := hfits.inj hi' (hreq j hj hlt).1 heq
        omega

/-! ## Headers on the disk -/

/-- **A header is read back as it was written**, as far as its sectors go. -/
theorem FileHeader.Fits.reread (hfits : h.Fits) :
    (ofBytes h.toBytes).numBytes = h.numBytes ∧ (ofBytes h.toBytes).numSectors = h.numSectors ∧
      ∀ i < h.numSectors, (ofBytes h.toBytes).dataSectors i = h.dataSectors i := by
  have hsize := hfits.size
  have hsectors := hfits.sectors
  unfold divRoundUp maxFileSize numDirect sectorSize at *
  refine ⟨?_, ?_, ?_⟩
  · refine Buffer.intAt_eq ?_ (by omega)
    intro k hk
    rw [toBytes, if_pos (by omega)]
    congr 1
    omega
  · refine Buffer.intAt_eq ?_ (by split at hsectors <;> omega)
    intro k hk
    rw [toBytes, if_neg (by omega), if_pos (by omega)]
    congr 1
    omega
  · intro i hi
    have hdisk := hfits.in_disk hi
    unfold Filesys.numSectors at hdisk
    refine Buffer.intAt_eq ?_ (by omega)
    intro k hk
    rw [toBytes, if_neg (by omega), if_neg (by omega)]
    congr 1
    · congr 1
      omega
    · omega

theorem FileHeader.Fits.ofBytes (hfits : h.Fits) : (FileHeader.ofBytes h.toBytes).Fits := by
  obtain ⟨hbytes, hsectors, hdata⟩ := hfits.reread
  constructor
  · rw [hbytes]
    exact hfits.size
  · rw [hbytes, hsectors]
    exact hfits.sectors
  · intro i hi
    rw [hsectors] at hi
    rw [hdata i hi]
    exact hfits.in_disk hi
  · intro i j hi hj heq
    rw [hsectors] at hi hj
    rw [hdata i hi, hdata j hj] at heq
    exact hfits.inj hi hj heq

/-! ## Whole files -/

theorem not_overflows_whole (hfits : h.Fits) : ¬ Overflows h h.numBytes 0 := by
  rintro ⟨-, -, hbig⟩
  have hsize := hfits.size
  unfold maxFileSize numDirect sectorSize at hsize
  omega

theorem transferred_whole (h : FileHeader) : transferred h h.numBytes 0 = h.numBytes := by
  rw [transferred, Int.toNat_natCast, Nat.sub_zero, Nat.min_self]

theorem readAt_whole (d : Disk) (into : Buffer) (hfits : h.Fits) :
    ∃ buf, readAt d h into 0 h.numBytes 0 = some (buf, h.numBytes) ∧
      ∀ o < h.numBytes, buf o = fileByte d h o := by
  obtain ⟨buf, hread, hbytes⟩ := readAt_eq d into 0 hfits (not_overflows_whole hfits)
  rw [transferred_whole] at hread hbytes
  refine ⟨buf, hread, ?_⟩
  intro o ho
  rw [hbytes, if_pos ⟨Nat.zero_le o, by omega⟩, Nat.zero_add, Nat.sub_zero]

theorem writeAt_whole (d : Disk) (heap src : Buffer) (hfits : h.Fits) :
    ∃ d', writeAt d h heap src h.numBytes 0 = some (d', h.numBytes) ∧
      (∀ x, (∀ i < h.numSectors, x ≠ h.dataSectors i) → d' x = d x) ∧
      ∀ o < h.numBytes, fileByte d' h o = src o := by
  obtain ⟨d', hwrite, hother, hbytes⟩ := writeAt_eq d heap src hfits (not_overflows_whole hfits)
  rw [transferred_whole] at hwrite hbytes
  refine ⟨d', hwrite, hother, ?_⟩
  intro o ho
  rw [hbytes o ho, if_pos ⟨Nat.zero_le o, by omega⟩, Nat.sub_zero]

end Transfers

end Nachos.Filesys
