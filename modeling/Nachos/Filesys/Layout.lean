import Nachos.Filesys.FileSystem

/-!
# The layout of the disk

Sectors 0 to 4 belong to the free map and the directory. Every file has its
header's sector and the sectors the header names, no sector belongs to two files,
and the free map marks exactly the sectors that belong to something. The three
ways in which an operation changes the disk, a new file, a file that goes and
bytes of a file written, are relations between two states that keep the layout.
-/

namespace Nachos.Filesys

open Nachos.Lib Nachos.Userprog

/-! ## What is on the disk -/

namespace FileSystem

/-- Entry `i` of the directory on the disk. -/
def slot (s : FileSystem) (i : ℕ) : Option (List UInt8 × ℕ) :=
  (directoryOf s.disk s.directoryFile.hdr).slot i

/-- The header in a sector. -/
def header (s : FileSystem) (sector : ℕ) : FileHeader := .ofBytes (s.disk sector)

/-- The free map on the disk. -/
def freeMap (s : FileSystem) : BitMap := mapOf s.disk s.freeMapFile.hdr

/-- Sector `x` belongs to the file of entry `i`. -/
def Owns (s : FileSystem) (i x : ℕ) : Prop :=
  ∃ k sector, s.slot i = some (k, sector) ∧
    (x = sector ∨ ∃ j < (s.header sector).numSectors, (s.header sector).dataSectors j = x)

end FileSystem

/-- The sectors of the free map and the directory. -/
def systemSectors : ℕ := 5

/-- **The layout.** -/
structure Layout (s : FileSystem) : Prop where
  mapFile : MapFile s.freeMapFile.hdr
  mapSector : s.freeMapFile.hdr.dataSectors 0 = 2
  directoryFile : DirectoryFile s.directoryFile.hdr
  directorySectors : s.directoryFile.hdr.dataSectors 0 = 3 ∧ s.directoryFile.hdr.dataSectors 1 = 4
  fits : ∀ {i k sector}, i < numDirEntries → s.slot i = some (k, sector) → (s.header sector).Fits
  owned : ∀ {i x}, i < numDirEntries → s.Owns i x → systemSectors ≤ x ∧ x < numSectors
  apart : ∀ {i k sector j}, i < numDirEntries → s.slot i = some (k, sector) →
    j < (s.header sector).numSectors → (s.header sector).dataSectors j ≠ sector
  disjoint : ∀ {i j x}, i < numDirEntries → j < numDirEntries → s.Owns i x → s.Owns j x → j = i
  names : ∀ {i j k sector sector'}, i < numDirEntries → j < numDirEntries →
    s.slot i = some (k, sector) → s.slot j = some (k, sector') → j = i
  marked : ∀ {x}, x < numSectors →
    (s.freeMap x = true ↔ x < systemSectors ∨ ∃ i < numDirEntries, s.Owns i x)

section SystemFiles

variable {s : FileSystem} {d d' : Disk} {i k x : ℕ}

theorem mapFile_sectors (h : Layout s) : s.freeMapFile.hdr.numSectors = 1 := by
  rw [h.mapFile.sectors, h.mapFile.length]
  decide

theorem directoryFile_sectors (h : Layout s) : s.directoryFile.hdr.numSectors = 2 := by
  rw [h.directoryFile.sectors, h.directoryFile.length]
  decide

/-- The map is in sector 2. -/
theorem mapOf_congr (h : Layout s) (hd : d' 2 = d 2) (hx : x < numSectors) :
    mapOf d' s.freeMapFile.hdr x = mapOf d s.freeMapFile.hdr x := by
  have hsector : x / 8 / sectorSize = 0 := by
    unfold numSectors sectorSize at *
    omega
  simp only [mapOf, unpackBits, fileByte, hsector, h.mapSector, hd]

/-- The directory is in sectors 3 and 4. -/
theorem directoryOf_congr (h : Layout s) (hd₃ : d' 3 = d 3) (hd₄ : d' 4 = d 4)
    (hi : i < numDirEntries) : (directoryOf d' s.directoryFile.hdr).slot i =
      (directoryOf d s.directoryFile.hdr).slot i := by
  refine Directory.slot_congr ?_
  intro o ho
  have hlt := entry_in_file hi ho
  have hsector : (i * entrySize + o) / sectorSize = 0 ∨ (i * entrySize + o) / sectorSize = 1 := by
    unfold directoryFileSize entrySize numDirEntries sectorSize at *
    omega
  unfold fileByte
  rcases hsector with hsector | hsector
  · rw [hsector, h.directorySectors.1, hd₃]
  · rw [hsector, h.directorySectors.2, hd₄]

/-- Every operation reads the directory and the map. -/
theorem Layout.fetch (h : Layout s) : ∃ t m,
    Directory.fetchFrom s.disk s.directoryFile.hdr = some t ∧
      (∀ i < numDirEntries, t.slot i = s.slot i) ∧
      fetchMap s.disk s.freeMapFile.hdr = some m ∧ ∀ x < numSectors, m x = s.freeMap x := by
  obtain ⟨t, ht, hslots⟩ := fetchDirectory_eq h.directoryFile s.disk
  obtain ⟨m, hm, hbits⟩ := fetchMap_eq h.mapFile s.disk
  exact ⟨t, m, ht, hslots, hm, hbits⟩

theorem Layout.storeMap (h : Layout s) (m : BitMap) (d : Disk) (heap : Buffer) :
    ∃ d', writeBackMap m d s.freeMapFile.hdr heap = some d' ∧ (∀ x, x ≠ 2 → d' x = d x) ∧
      ∀ x < numSectors, mapOf d' s.freeMapFile.hdr x = m x := by
  obtain ⟨d', hwrite, hother, hbits⟩ := writeBackMap_eq h.mapFile m d heap
  refine ⟨d', hwrite, ?_, hbits⟩
  intro x hx
  refine hother x ?_
  intro i hi
  rw [mapFile_sectors h] at hi
  obtain rfl : i = 0 := by omega
  rw [h.mapSector]
  exact hx

theorem Layout.storeDirectory (h : Layout s) (t : Directory) (d : Disk) (heap : Buffer)
    (hsector : ∀ i < numDirEntries, ∀ k sector, t.slot i = some (k, sector) → sector < numSectors) :
    ∃ d', t.writeBack d s.directoryFile.hdr heap = some d' ∧
      (∀ x, x ≠ 3 → x ≠ 4 → d' x = d x) ∧
      ∀ i < numDirEntries, (directoryOf d' s.directoryFile.hdr).slot i = t.slot i := by
  have hbound : ∀ i < numDirEntries, ∀ k sector, t.slot i = some (k, sector) → sector < 2 ^ 32 := by
    intro i hi k sector hslot
    exact Nat.lt_trans (hsector i hi k sector hslot) (by decide)
  obtain ⟨d', hwrite, hother, hslots⟩ := writeBackDirectory_eq h.directoryFile t d heap hbound
  refine ⟨d', hwrite, ?_, hslots⟩
  intro x hx₃ hx₄
  refine hother x ?_
  intro i hi
  rw [directoryFile_sectors h] at hi
  rcases (show i = 0 ∨ i = 1 by omega) with rfl | rfl
  · rw [h.directorySectors.1]
    exact hx₃
  · rw [h.directorySectors.2]
    exact hx₄

/-- A name is found where the directory on the disk has it. -/
theorem Layout.find_cases {t : Directory} (ht : ∀ i < numDirEntries, t.slot i = s.slot i)
    (name : FileName) :
    (t.findIndex name = none ∧ t.find name = none ∧
        ∀ i < numDirEntries, ∀ sector, s.slot i ≠ some (name.key, sector)) ∨
      ∃ i sector, i < numDirEntries ∧ t.findIndex name = some i ∧ t.find name = some sector ∧
        s.slot i = some (name.key, sector) := by
  cases hfind : t.findIndex name with
  | none =>
      refine .inl ⟨rfl, by rw [Directory.find, hfind, Option.map_none], ?_⟩
      intro i hi sector
      rw [← ht i hi]
      exact Directory.findIndex_none hfind hi sector
  | some i =>
      obtain ⟨hi, hslot⟩ := Directory.findIndex_some hfind
      refine .inr ⟨i, (t i).sector, hi, rfl, by rw [Directory.find, hfind, Option.map_some], ?_⟩
      rw [← ht i hi, hslot]

end SystemFiles

/-! ## Owners -/

section Owners

variable {s s' : FileSystem} {i j x sector : ℕ} {k : List UInt8}

theorem owns_header (h : s.slot i = some (k, sector)) : s.Owns i sector :=
  ⟨k, sector, h, .inl rfl⟩

theorem owns_data (h : s.slot i = some (k, sector)) (hj : j < (s.header sector).numSectors) :
    s.Owns i ((s.header sector).dataSectors j) :=
  ⟨k, sector, h, .inr ⟨j, hj, rfl⟩⟩

/-- A file whose entry and header are the same has the same sectors. -/
theorem owns_congr (hslot : s'.slot i = s.slot i)
    (hdisk : ∀ k sector, s.slot i = some (k, sector) → s'.disk sector = s.disk sector) :
    s'.Owns i x ↔ s.Owns i x := by
  unfold FileSystem.Owns FileSystem.header
  rw [hslot]
  constructor
  · rintro ⟨k, sector, hs, hx⟩
    rw [hdisk k sector hs] at hx
    exact ⟨k, sector, hs, hx⟩
  · rintro ⟨k, sector, hs, hx⟩
    rw [← hdisk k sector hs] at hx
    exact ⟨k, sector, hs, hx⟩

/-- A sector that is not marked belongs to nothing. -/
theorem Layout.free (h : Layout s) (hx : x < numSectors) (hfree : s.freeMap x = false) :
    systemSectors ≤ x ∧ ∀ i < numDirEntries, ¬ s.Owns i x := by
  have hnot : ¬ (x < systemSectors ∨ ∃ i < numDirEntries, s.Owns i x) := by
    rw [← h.marked hx, hfree]
    decide
  refine ⟨Nat.not_lt.mp fun hlt => hnot (.inl hlt), ?_⟩
  intro i hi howns
  exact hnot (.inr ⟨i, hi, howns⟩)

end Owners

/-! ## A new file -/

/-- Entry `i` is given to a new file with name `k`, whose header `hdr` is in
`sector`. -/
structure Created (s s' : FileSystem) (i : ℕ) (k : List UInt8) (sector : ℕ) (hdr : FileHeader) :
    Prop where
  freeMapFile : s'.freeMapFile = s.freeMapFile
  directoryFile : s'.directoryFile = s.directoryFile
  opened : s'.opened = s.opened
  entry : i < numDirEntries
  absent : ∀ j < numDirEntries, ∀ sector, s.slot j ≠ some (k, sector)
  was_free : s.slot i = none
  slots : ∀ j < numDirEntries, s'.slot j = if j = i then some (k, sector) else s.slot j
  fits : hdr.Fits
  header : s'.disk sector = hdr.toBytes
  disk : ∀ x, systemSectors ≤ x → x ≠ sector → s'.disk x = s.disk x
  free : sector < numSectors ∧ s.freeMap sector = false
  free_data : ∀ j < hdr.numSectors, s.freeMap (hdr.dataSectors j) = false ∧
    hdr.dataSectors j ≠ sector
  map : ∀ x < numSectors, (s'.freeMap x = true ↔
    s.freeMap x = true ∨ x = sector ∨ ∃ j < hdr.numSectors, hdr.dataSectors j = x)

section Created

variable {s s' : FileSystem} {i j x sector : ℕ} {k : List UInt8} {hdr : FileHeader}

/-- The sectors of the new file were free. -/
theorem Created.new_free (hc : Created s s' i k sector hdr)
    (hx : x = sector ∨ ∃ j < hdr.numSectors, hdr.dataSectors j = x) :
    x < numSectors ∧ s.freeMap x = false := by
  rcases hx with rfl | ⟨j, hj, rfl⟩
  · exact hc.free
  · exact ⟨hc.fits.in_disk hj, (hc.free_data j hj).1⟩

/-- The header of another file stays. -/
theorem Created.other_header (hc : Created s s' i k sector hdr) (h : Layout s)
    (hj : j < numDirEntries) {k' : List UInt8} {sector' : ℕ} (hslot : s.slot j = some (k', sector')) :
    s'.disk sector' = s.disk sector' := by
  have howns := owns_header hslot
  refine hc.disk sector' (h.owned hj howns).1 ?_
  rintro rfl
  exact (h.free hc.free.1 hc.free.2).2 j hj howns

theorem Created.owns_other (hc : Created s s' i k sector hdr) (h : Layout s)
    (hj : j < numDirEntries) (hne : j ≠ i) : s'.Owns j x ↔ s.Owns j x := by
  refine owns_congr ?_ ?_
  · rw [hc.slots j hj, if_neg hne]
  · intro k' sector' hslot
    exact hc.other_header h hj hslot

theorem Created.owns_new (hc : Created s s' i k sector hdr) :
    s'.Owns i x ↔ x = sector ∨ ∃ j < hdr.numSectors, hdr.dataSectors j = x := by
  have hslot : s'.slot i = some (k, sector) := by
    rw [hc.slots i hc.entry, if_pos rfl]
  have hheader : s'.header sector = .ofBytes hdr.toBytes := by
    rw [FileSystem.header, hc.header]
  obtain ⟨-, hsectors, hdata⟩ := hc.fits.reread
  constructor
  · rintro ⟨k', sector', hslot', hx⟩
    obtain ⟨rfl, rfl⟩ := Prod.mk.inj (Option.some.inj (hslot.symm.trans hslot'))
    rw [hheader, hsectors] at hx
    rcases hx with hx | ⟨j, hj, rfl⟩
    · exact .inl hx
    · exact .inr ⟨j, hj, (hdata j hj).symm⟩
  · intro hx
    refine ⟨k, sector, hslot, ?_⟩
    rw [hheader, hsectors]
    rcases hx with hx | ⟨j, hj, rfl⟩
    · exact .inl hx
    · exact .inr ⟨j, hj, hdata j hj⟩

/-- **A new file** keeps the layout. -/
theorem Layout.created (h : Layout s) (hc : Created s s' i k sector hdr) : Layout s' := by
  have hother : ∀ {j k' sector'}, j < numDirEntries → j ≠ i → s'.slot j = some (k', sector') →
      s.slot j = some (k', sector') ∧ s'.header sector' = s.header sector' := by
    intro j k' sector' hj hne hslot
    rw [hc.slots j hj, if_neg hne] at hslot
    exact ⟨hslot, congrArg FileHeader.ofBytes (hc.other_header h hj hslot)⟩
  have hnew : ∀ {k' sector'}, s'.slot i = some (k', sector') → k' = k ∧ sector' = sector := by
    intro k' sector' hslot
    rw [hc.slots i hc.entry, if_pos rfl] at hslot
    obtain ⟨rfl, rfl⟩ := Prod.mk.inj (Option.some.inj hslot)
    exact ⟨rfl, rfl⟩
  have hheader : s'.header sector = .ofBytes hdr.toBytes := by
    rw [FileSystem.header, hc.header]
  -- a sector of the new file is nobody else's
  have hfresh : ∀ {j x}, j < numDirEntries → j ≠ i → s'.Owns i x → ¬ s'.Owns j x := by
    intro j x hj hne hi howns
    obtain ⟨hx, hfree⟩ := hc.new_free (hc.owns_new.mp hi)
    exact (h.free hx hfree).2 j hj ((hc.owns_other h hj hne).mp howns)
  constructor
  case mapFile => rw [hc.freeMapFile]; exact h.mapFile
  case mapSector => rw [hc.freeMapFile]; exact h.mapSector
  case directoryFile => rw [hc.directoryFile]; exact h.directoryFile
  case directorySectors => rw [hc.directoryFile]; exact h.directorySectors
  case fits =>
    intro j k' sector' hj hslot
    by_cases hne : j = i
    · subst hne
      obtain ⟨-, rfl⟩ := hnew hslot
      rw [hheader]
      exact hc.fits.ofBytes
    · obtain ⟨hslot', hsame⟩ := hother hj hne hslot
      rw [hsame]
      exact h.fits hj hslot'
  case owned =>
    intro j x hj howns
    by_cases hne : j = i
    · subst hne
      obtain ⟨hx, hfree⟩ := hc.new_free (hc.owns_new.mp howns)
      exact ⟨(h.free hx hfree).1, hx⟩
    · exact h.owned hj ((hc.owns_other h hj hne).mp howns)
  case apart =>
    intro j k' sector' l hj hslot hl
    by_cases hne : j = i
    · subst hne
      obtain ⟨-, rfl⟩ := hnew hslot
      obtain ⟨-, hsectors, hdata⟩ := hc.fits.reread
      rw [hheader, hsectors] at hl
      rw [hheader, hdata l hl]
      exact (hc.free_data l hl).2
    · obtain ⟨hslot', hsame⟩ := hother hj hne hslot
      rw [hsame] at hl ⊢
      exact h.apart hj hslot' hl
  case disjoint =>
    intro j l x hj hl hjx hlx
    by_cases hji : j = i
    · subst hji
      by_contra hne
      exact hfresh hl hne hjx hlx
    · by_cases hli : l = i
      · subst hli
        exact absurd hjx (hfresh hj hji hlx)
      · exact h.disjoint hj hl ((hc.owns_other h hj hji).mp hjx) ((hc.owns_other h hl hli).mp hlx)
  case names =>
    intro j l k' sector₁ sector₂ hj hl hslot₁ hslot₂
    by_cases hji : j = i
    · subst hji
      by_contra hne
      obtain ⟨rfl, -⟩ := hnew hslot₁
      exact hc.absent l hl _ (hother hl hne hslot₂).1
    · by_cases hli : l = i
      · subst hli
        obtain ⟨rfl, -⟩ := hnew hslot₂
        exact absurd (hother hj hji hslot₁).1 (hc.absent j hj _)
      · exact h.names hj hl (hother hj hji hslot₁).1 (hother hl hli hslot₂).1
  case marked =>
    intro x hx
    rw [hc.map x hx, h.marked hx, or_assoc]
    refine or_congr_right ?_
    constructor
    · rintro (⟨j, hj, howns⟩ | hx')
      · have hne : j ≠ i := by
          rintro rfl
          obtain ⟨k', sector', hslot, -⟩ := howns
          rw [hc.was_free] at hslot
          cases hslot
        exact ⟨j, hj, (hc.owns_other h hj hne).mpr howns⟩
      · exact ⟨i, hc.entry, hc.owns_new.mpr hx'⟩
    · rintro ⟨j, hj, howns⟩
      by_cases hne : j = i
      · subst hne
        exact .inr (hc.owns_new.mp howns)
      · exact .inl ⟨j, hj, (hc.owns_other h hj hne).mp howns⟩

end Created

/-! ## A file that goes -/

/-- The file of entry `i` goes, and its sectors are free again. -/
structure Removed (s s' : FileSystem) (i : ℕ) : Prop where
  freeMapFile : s'.freeMapFile = s.freeMapFile
  directoryFile : s'.directoryFile = s.directoryFile
  opened : s'.opened = s.opened
  entry : i < numDirEntries
  slots : ∀ j < numDirEntries, s'.slot j = if j = i then none else s.slot j
  disk : ∀ x, systemSectors ≤ x → s'.disk x = s.disk x
  map : ∀ x < numSectors, (s'.freeMap x = true ↔ s.freeMap x = true ∧ ¬ s.Owns i x)

section Removed

variable {s s' : FileSystem} {i j x sector : ℕ} {k : List UInt8}

theorem Removed.slot_back (hr : Removed s s' i) (hj : j < numDirEntries)
    (hslot : s'.slot j = some (k, sector)) : j ≠ i ∧ s.slot j = some (k, sector) := by
  rw [hr.slots j hj] at hslot
  split at hslot
  · cases hslot
  · rename_i hne
    exact ⟨hne, hslot⟩

theorem Removed.header (hr : Removed s s' i) (h : Layout s) (hj : j < numDirEntries)
    (hslot : s.slot j = some (k, sector)) : s'.disk sector = s.disk sector :=
  hr.disk sector (h.owned hj (owns_header hslot)).1

theorem Removed.owns (hr : Removed s s' i) (h : Layout s) (hj : j < numDirEntries) :
    s'.Owns j x ↔ j ≠ i ∧ s.Owns j x := by
  by_cases hne : j = i
  · subst hne
    constructor
    · rintro ⟨k, sector, hslot, -⟩
      exact absurd rfl (hr.slot_back hj hslot).1
    · rintro ⟨hc, -⟩
      exact absurd rfl hc
  · have hcongr : s'.Owns j x ↔ s.Owns j x := by
      refine owns_congr ?_ fun k sector hslot => hr.header h hj hslot
      rw [hr.slots j hj, if_neg hne]
    rw [hcongr]
    exact ⟨fun howns => ⟨hne, howns⟩, fun howns => howns.2⟩

/-- **A file that goes** keeps the layout. -/
theorem Layout.removed (h : Layout s) (hr : Removed s s' i) : Layout s' := by
  have hheader : ∀ {j k sector}, j < numDirEntries → s.slot j = some (k, sector) →
      s'.header sector = s.header sector := by
    intro j k sector hj hslot
    exact congrArg FileHeader.ofBytes (hr.header h hj hslot)
  constructor
  case mapFile => rw [hr.freeMapFile]; exact h.mapFile
  case mapSector => rw [hr.freeMapFile]; exact h.mapSector
  case directoryFile => rw [hr.directoryFile]; exact h.directoryFile
  case directorySectors => rw [hr.directoryFile]; exact h.directorySectors
  case fits =>
    intro j k sector hj hslot
    obtain ⟨-, hslot⟩ := hr.slot_back hj hslot
    rw [hheader hj hslot]
    exact h.fits hj hslot
  case owned =>
    intro j x hj howns
    exact h.owned hj ((hr.owns h hj).mp howns).2
  case apart =>
    intro j k sector l hj hslot hl
    obtain ⟨-, hslot⟩ := hr.slot_back hj hslot
    rw [hheader hj hslot] at hl ⊢
    exact h.apart hj hslot hl
  case disjoint =>
    intro j l x hj hl hjx hlx
    exact h.disjoint hj hl ((hr.owns h hj).mp hjx).2 ((hr.owns h hl).mp hlx).2
  case names =>
    intro j l k sector sector' hj hl hslot hslot'
    exact h.names hj hl (hr.slot_back hj hslot).2 (hr.slot_back hl hslot').2
  case marked =>
    intro x hx
    rw [hr.map x hx, h.marked hx]
    constructor
    · rintro ⟨hlt | ⟨j, hj, howns⟩, hnot⟩
      · exact .inl hlt
      · refine .inr ⟨j, hj, (hr.owns h hj).mpr ⟨?_, howns⟩⟩
        rintro rfl
        exact hnot howns
    · rintro (hlt | ⟨j, hj, howns⟩)
      · refine ⟨.inl hlt, ?_⟩
        intro howns
        have := (h.owned hr.entry howns).1
        omega
      · obtain ⟨hne, howns⟩ := (hr.owns h hj).mp howns
        exact ⟨.inr ⟨j, hj, howns⟩, fun hi => hne (h.disjoint hr.entry hj hi howns)⟩

end Removed

/-! ## Bytes of a file -/

/-- Only data sectors of the file of entry `i` are written. -/
structure Written (s s' : FileSystem) (i : ℕ) : Prop where
  freeMapFile : s'.freeMapFile = s.freeMapFile
  directoryFile : s'.directoryFile = s.directoryFile
  entry : i < numDirEntries
  disk : ∀ x, (∀ k sector, s.slot i = some (k, sector) → ∀ j < (s.header sector).numSectors,
    x ≠ (s.header sector).dataSectors j) → s'.disk x = s.disk x

section Written

variable {s s' : FileSystem} {i j x sector : ℕ} {k : List UInt8}

theorem Written.disk_other (hw : Written s s' i) (hx : ¬ s.Owns i x) : s'.disk x = s.disk x := by
  refine hw.disk x ?_
  rintro k sector hslot j hj rfl
  exact hx (owns_data hslot hj)

theorem Written.header (hw : Written s s' i) (h : Layout s) (hj : j < numDirEntries)
    (hslot : s.slot j = some (k, sector)) : s'.disk sector = s.disk sector := by
  by_cases hne : j = i
  · subst hne
    refine hw.disk sector ?_
    intro k' sector' hslot' l hl heq
    obtain ⟨rfl, rfl⟩ := Prod.mk.inj (Option.some.inj (hslot.symm.trans hslot'))
    exact h.apart hj hslot hl heq.symm
  · refine hw.disk_other ?_
    intro howns
    exact hne (h.disjoint hw.entry hj howns (owns_header hslot))

theorem Written.system (hw : Written s s' i) (h : Layout s) (hx : x < systemSectors) :
    s'.disk x = s.disk x := by
  refine hw.disk_other ?_
  intro howns
  have := (h.owned hw.entry howns).1
  omega

theorem Written.slot (hw : Written s s' i) (h : Layout s) (hj : j < numDirEntries) :
    s'.slot j = s.slot j := by
  rw [FileSystem.slot, hw.directoryFile]
  exact directoryOf_congr h (hw.system h (by decide)) (hw.system h (by decide)) hj

theorem Written.owns (hw : Written s s' i) (h : Layout s) (hj : j < numDirEntries) :
    s'.Owns j x ↔ s.Owns j x :=
  owns_congr (hw.slot h hj) fun _ _ hslot => hw.header h hj hslot

/-- **Writing to a file** keeps the layout. -/
theorem Layout.written (h : Layout s) (hw : Written s s' i) : Layout s' := by
  have hheader : ∀ {j k sector}, j < numDirEntries → s.slot j = some (k, sector) →
      s'.header sector = s.header sector := by
    intro j k sector hj hslot
    exact congrArg FileHeader.ofBytes (hw.header h hj hslot)
  constructor
  case mapFile => rw [hw.freeMapFile]; exact h.mapFile
  case mapSector => rw [hw.freeMapFile]; exact h.mapSector
  case directoryFile => rw [hw.directoryFile]; exact h.directoryFile
  case directorySectors => rw [hw.directoryFile]; exact h.directorySectors
  case fits =>
    intro j k sector hj hslot
    rw [hw.slot h hj] at hslot
    rw [hheader hj hslot]
    exact h.fits hj hslot
  case owned =>
    intro j x hj howns
    exact h.owned hj ((hw.owns h hj).mp howns)
  case apart =>
    intro j k sector l hj hslot hl
    rw [hw.slot h hj] at hslot
    rw [hheader hj hslot] at hl ⊢
    exact h.apart hj hslot hl
  case disjoint =>
    intro j l x hj hl hjx hlx
    exact h.disjoint hj hl ((hw.owns h hj).mp hjx) ((hw.owns h hl).mp hlx)
  case names =>
    intro j l k sector sector' hj hl hslot hslot'
    rw [hw.slot h hj] at hslot
    rw [hw.slot h hl] at hslot'
    exact h.names hj hl hslot hslot'
  case marked =>
    intro x hx
    have hmap : s'.freeMap x = s.freeMap x := by
      rw [FileSystem.freeMap, hw.freeMapFile]
      exact mapOf_congr h (hw.system h (by decide)) hx
    rw [hmap, h.marked hx]
    refine or_congr_right ?_
    constructor
    · rintro ⟨j, hj, howns⟩
      exact ⟨j, hj, (hw.owns h hj).mpr howns⟩
    · rintro ⟨j, hj, howns⟩
      exact ⟨j, hj, (hw.owns h hj).mp howns⟩

end Written

end Nachos.Filesys
