import Mathlib.Algebra.Order.BigOperators.Group.Finset
import Nachos.Filesys.Layout

/-!
# What the operations do to the disk

On a disk with the right layout every operation returns. The map never runs out of
sectors: ten files of the greatest size take less than a third of the disk, so a
file can be created whenever there is an entry for it.
-/

namespace Nachos.Filesys

open Nachos.Lib Nachos.Userprog

/-! ## There are always free sectors -/

section Space

variable {s : FileSystem} {m : BitMap}

/-- The sectors of the file of entry `i`. -/
def FileSystem.sectorsOf (s : FileSystem) (i : ℕ) : Finset ℕ :=
  match s.slot i with
  | none => ∅
  | some (_, sector) =>
      insert sector ((Finset.range (s.header sector).numSectors).image (s.header sector).dataSectors)

theorem mem_sectorsOf {i x : ℕ} (h : s.Owns i x) : x ∈ s.sectorsOf i := by
  obtain ⟨k, sector, hslot, hx⟩ := h
  rw [FileSystem.sectorsOf, hslot]
  rcases hx with rfl | ⟨j, hj, rfl⟩
  · exact Finset.mem_insert_self ..
  · exact Finset.mem_insert_of_mem (Finset.mem_image_of_mem _ (Finset.mem_range.mpr hj))

theorem card_sectorsOf (h : Layout s) {i : ℕ} (hi : i < numDirEntries) :
    (s.sectorsOf i).card ≤ numDirect + 1 := by
  unfold FileSystem.sectorsOf
  split
  · exact Nat.zero_le _
  · rename_i k sector hslot
    have hfits := h.fits hi hslot
    have hdirect : (s.header sector).numSectors ≤ numDirect := by
      have hsize := hfits.size
      have hsectors := hfits.sectors
      unfold divRoundUp maxFileSize numDirect sectorSize at *
      split at hsectors <;> omega
    refine (Finset.card_insert_le ..).trans (Nat.succ_le_succ ?_)
    refine Finset.card_image_le.trans ?_
    rwa [Finset.card_range]

/-- The marked sectors are few. -/
theorem Layout.space (h : Layout s) (hm : ∀ x < numSectors, m x = s.freeMap x) :
    numDirect + 1 < m.numClear numSectors := by
  have hsub : ((Finset.range numSectors).filter fun x => ¬ m x = false) ⊆
      Finset.range systemSectors ∪ (Finset.range numDirEntries).biUnion s.sectorsOf := by
    intro x hx
    obtain ⟨hlt, hmarked⟩ := Finset.mem_filter.mp hx
    have hlt := Finset.mem_range.mp hlt
    rw [hm x hlt, Bool.not_eq_false, h.marked hlt] at hmarked
    rcases hmarked with hsys | ⟨i, hi, howns⟩
    · exact Finset.mem_union_left _ (Finset.mem_range.mpr hsys)
    · refine Finset.mem_union_right _ (Finset.mem_biUnion.mpr ?_)
      exact ⟨i, Finset.mem_range.mpr hi, mem_sectorsOf howns⟩
  have hfiles : ((Finset.range numDirEntries).biUnion s.sectorsOf).card ≤
      numDirEntries * (numDirect + 1) := by
    have := Finset.card_biUnion_le_card_mul (Finset.range numDirEntries) s.sectorsOf
      (numDirect + 1) fun i hi => card_sectorsOf h (Finset.mem_range.mp hi)
    rwa [Finset.card_range] at this
  have hcard := (Finset.card_le_card hsub).trans (Finset.card_union_le _ _)
  have hsplit := Finset.card_filter_add_card_filter_not (s := Finset.range numSectors)
    fun x => m x = false
  rw [Finset.card_range] at hsplit hcard
  rw [BitMap.numClear_eq]
  unfold numSectors systemSectors numDirEntries numDirect at *
  omega

end Space

/-! ## Create -/

section Create

variable {s : FileSystem}

theorem writeHeader_eq (hdr : FileHeader) (d : Disk) {sector : ℕ} (h : sector < numSectors) :
    hdr.writeBack d sector = some (Function.update d sector hdr.toBytes) := if_pos h

/-- The last part of `Create`: an entry and a sector for the header are there. -/
theorem createIn_eq (h : Layout s) {t t' : Directory} {m : BitMap} {name : FileName}
    {i sector size : ℕ} (heap : ℕ → Buffer) (hsize : size ≤ maxFileSize)
    (ht : ∀ i < numDirEntries, t.slot i = s.slot i) (hm : ∀ x < numSectors, m x = s.freeMap x)
    (hfind : BitMap.find numSectors m = some sector) (hi : i < numDirEntries)
    (hfree : t.slot i = none)
    (hslots : ∀ j, t'.slot j = if j = i then some (name.key, sector) else t.slot j)
    (habsent : ∀ j < numDirEntries, ∀ sector, s.slot j ≠ some (name.key, sector)) :
    ∃ s' hdr, s.createIn t' (m.mark sector) sector size heap = some (s', true) ∧
      hdr.numBytes = size ∧
      (0 < size → BitMap.find numSectors (m.mark sector) = some (hdr.dataSectors 0)) ∧
      Created s s' i name.key sector hdr := by
  obtain ⟨hlt, hclear, -⟩ := BitMap.find_some hfind
  have hfreemap : s.freeMap sector = false := by
    rw [← hm sector hlt]
    exact hclear
  have hsystem := (h.free hlt hfreemap).1
  have hspace : divRoundUp size sectorSize ≤ (m.mark sector).numClear numSectors := by
    have hroom := h.space hm
    have hcount := BitMap.numClear_mark hlt hclear
    unfold divRoundUp maxFileSize numDirect sectorSize at *
    split <;> omega
  obtain ⟨hdr, m', halloc, hfits, hbytes, hnew, hmap⟩ :=
    allocate_eq (.ofBytes (heap 0)) hsize hspace
  have hnew' : ∀ j < hdr.numSectors, s.freeMap (hdr.dataSectors j) = false ∧
      hdr.dataSectors j ≠ sector := by
    intro j hj
    have hclear' := hnew j hj
    have hne : hdr.dataSectors j ≠ sector := by
      intro heq
      rw [heq, BitMap.mark_self] at hclear'
      cases hclear'
    rw [BitMap.mark_of_ne _ hne, hm _ (hfits.in_disk hj)] at hclear'
    exact ⟨hclear', hne⟩
  have hsectors : ∀ j < numDirEntries, ∀ k sector', t'.slot j = some (k, sector') →
      sector' < numSectors := by
    intro j hj k sector' hslot
    rw [hslots] at hslot
    split at hslot
    · obtain ⟨-, rfl⟩ := Prod.mk.inj (Option.some.inj hslot)
      exact hlt
    · rw [ht j hj] at hslot
      exact (h.owned hj (owns_header hslot)).2
  obtain ⟨d₂, hd₂, hother₂, hdir⟩ := h.storeDirectory t'
    (Function.update s.disk sector hdr.toBytes) (heap 1) hsectors
  obtain ⟨d₃, hd₃, hother₃, hbits⟩ := h.storeMap m' d₂ (heap 2)
  unfold systemSectors at hsystem
  refine ⟨{ s with disk := d₃ }, hdr, ?_, hbytes,
    fun hpos => allocate_first hpos hsize hspace halloc, ?_⟩
  · simp only [FileSystem.createIn, halloc, writeHeader_eq hdr s.disk hlt, hd₂, hd₃,
      Option.bind_eq_bind, Option.bind_some, if_true]
    rfl
  · constructor
    case freeMapFile => rfl
    case directoryFile => rfl
    case opened => rfl
    case entry => exact hi
    case absent => exact habsent
    case was_free =>
      rw [← ht i hi]
      exact hfree
    case slots =>
      intro j hj
      have hsame : FileSystem.slot { s with disk := d₃ } j = t'.slot j := by
        rw [← hdir j hj, ← directoryOf_congr h (hother₃ 3 (by decide)) (hother₃ 4 (by decide)) hj]
        rfl
      rw [hsame, hslots, ht j hj]
    case fits => exact hfits
    case header =>
      show d₃ sector = hdr.toBytes
      rw [hother₃ sector (by omega), hother₂ sector (by omega) (by omega), Function.update_self]
    case disk =>
      intro x hx hne
      unfold systemSectors at hx
      show d₃ x = s.disk x
      rw [hother₃ x (by omega), hother₂ x (by omega) (by omega), Function.update_of_ne hne]
    case free => exact ⟨hlt, hfreemap⟩
    case free_data => exact hnew'
    case map =>
      intro x hx
      have hbit : FileSystem.freeMap { s with disk := d₃ } x = m' x := hbits x hx
      rw [hbit, hmap x, ← hm x hx]
      by_cases hxs : x = sector
      · subst hxs
        simp
      · rw [BitMap.mark_of_ne _ hxs]
        simp only [hxs, false_or]

/-- **`Create`** fails when the name is there or the directory is full, and then
changes nothing; otherwise there is a new file, in the first sectors that are free. -/
theorem create_cases (h : Layout s) (name : FileName) {size : ℕ} (hsize : size ≤ maxFileSize)
    (heap : ℕ → Buffer) :
    (s.create name size heap = some (s, false) ∧
        ((∃ i sector, i < numDirEntries ∧ s.slot i = some (name.key, sector)) ∨
          ∀ i < numDirEntries, s.slot i ≠ none)) ∨
      ∃ s' i sector hdr, s.create name size heap = some (s', true) ∧ hdr.numBytes = size ∧
        BitMap.find numSectors s.freeMap = some sector ∧
        (0 < size → BitMap.find numSectors (s.freeMap.mark sector) = some (hdr.dataSectors 0)) ∧
        Created s s' i name.key sector hdr := by
  obtain ⟨t, m, ht, hslots, hm, hbits⟩ := h.fetch
  unfold FileSystem.create
  simp only [ht, Option.bind_eq_bind, Option.bind_some]
  rcases Layout.find_cases hslots name with ⟨hindex, hfind, habsent⟩ |
    ⟨i, sector, hi, -, hfind, hslot⟩
  · obtain ⟨sector, hsector⟩ : ∃ sector, BitMap.find numSectors m = some sector :=
      BitMap.find_of_numClear (Nat.lt_of_le_of_lt (Nat.zero_le _) (h.space hbits))
    simp only [hfind, hm, hsector, Option.bind_some]
    rcases Directory.add_cases hindex sector with ⟨hadd, hfull⟩ | ⟨t', i, hadd, hi, hfree, hnew⟩
    · refine .inl ⟨by rw [hadd]; rfl, .inr ?_⟩
      intro i hi
      rw [← hslots i hi]
      exact hfull i hi
    · obtain ⟨s', hdr, hcreate, hbytes, hdata, hcreated⟩ :=
        createIn_eq h heap hsize hslots hbits hsector hi hfree hnew habsent
      have hmark : ∀ x < numSectors, m.mark sector x = s.freeMap.mark sector x := by
        intro x hx
        by_cases hxs : x = sector
        · rw [hxs, BitMap.mark_self, BitMap.mark_self]
        · rw [BitMap.mark_of_ne _ hxs, BitMap.mark_of_ne _ hxs, hbits x hx]
      rw [BitMap.find_congr hbits] at hsector
      rw [BitMap.find_congr hmark] at hdata
      exact .inr ⟨s', i, sector, hdr, by rw [hadd]; exact hcreate, hbytes, hsector, hdata, hcreated⟩
  · refine .inl ⟨by rw [hfind]; rfl, .inl ⟨i, sector, hi, hslot⟩⟩

end Create

/-! ## Open and Remove -/

section Names

variable {s : FileSystem}

theorem fetchHeader_eq {sector : ℕ} (h : sector < numSectors) :
    FileHeader.fetchFrom s.disk sector = some (s.header sector) := by
  rw [FileHeader.fetchFrom, readSector, if_pos h]
  rfl

/-- **`Open`** finds exactly the names that are there. -/
theorem openFile_cases (h : Layout s) (name : FileName) :
    (s.openFile name = some (s, none) ∧
        ∀ i < numDirEntries, ∀ sector, s.slot i ≠ some (name.key, sector)) ∨
      ∃ i sector, i < numDirEntries ∧ s.slot i = some (name.key, sector) ∧
        s.openFile name = some ({ s with opened := s.opened ++ [⟨s.header sector, 0⟩] },
          some s.opened.length) := by
  obtain ⟨t, m, ht, hslots, -⟩ := h.fetch
  unfold FileSystem.openFile
  simp only [ht, Option.bind_eq_bind, Option.bind_some]
  rcases Layout.find_cases hslots name with ⟨-, hfind, habsent⟩ | ⟨i, sector, hi, -, hfind, hslot⟩
  · exact .inl ⟨by rw [hfind]; rfl, habsent⟩
  · refine .inr ⟨i, sector, hi, hslot, ?_⟩
    have hlt := (h.owned hi (owns_header hslot)).2
    simp only [hfind, OpenFile.ofSector, fetchHeader_eq hlt, Option.map_some, Option.bind_some]
    rfl

/-- **`Remove`** takes away the file with this name, if there is one. -/
theorem remove_cases (h : Layout s) (name : FileName) (heap : ℕ → Buffer) :
    (s.remove name heap = some (s, false) ∧
        ∀ i < numDirEntries, ∀ sector, s.slot i ≠ some (name.key, sector)) ∨
      ∃ s' i sector, s.slot i = some (name.key, sector) ∧
        s.remove name heap = some (s', true) ∧ Removed s s' i := by
  obtain ⟨t, m, ht, hslots, hm, hbits⟩ := h.fetch
  unfold FileSystem.remove
  simp only [ht, Option.bind_eq_bind, Option.bind_some]
  rcases Layout.find_cases hslots name with ⟨-, hfind, habsent⟩ |
    ⟨i, sector, hi, hindex, hfind, hslot⟩
  · exact .inl ⟨by rw [hfind]; rfl, habsent⟩
  · have hlt := (h.owned hi (owns_header hslot)).2
    have hfits := h.fits hi hslot
    have hmarked : ∀ j < (s.header sector).numSectors,
        m ((s.header sector).dataSectors j) = true := by
      intro j hj
      rw [hbits _ (hfits.in_disk hj), h.marked (hfits.in_disk hj)]
      exact .inr ⟨i, hi, owns_data hslot hj⟩
    obtain ⟨m', hdealloc, hmap⟩ := deallocate_eq hfits hmarked
    obtain ⟨t', hremove, hslots'⟩ := Directory.remove_eq hindex
    have hsectors : ∀ j < numDirEntries, ∀ k sector', t'.slot j = some (k, sector') →
        sector' < numSectors := by
      intro j hj k sector' hslot'
      rw [hslots'] at hslot'
      split at hslot'
      · cases hslot'
      · rw [hslots j hj] at hslot'
        exact (h.owned hj (owns_header hslot')).2
    obtain ⟨d₁, hd₁, hother₁, hbits'⟩ := h.storeMap (m'.clear sector) s.disk (heap 0)
    obtain ⟨d₂, hd₂, hother₂, hdir⟩ := h.storeDirectory t' d₁ (heap 1) hsectors
    refine .inr ⟨{ s with disk := d₂ }, i, sector, hslot, ?_, ?_⟩
    · simp only [hfind, fetchHeader_eq hlt, hm, hdealloc, hlt, guard, if_true, hremove, hd₁, hd₂,
        Option.bind_some]
      rfl
    · constructor
      case freeMapFile => rfl
      case directoryFile => rfl
      case opened => rfl
      case entry => exact hi
      case slots =>
        intro j hj
        have hsame : FileSystem.slot { s with disk := d₂ } j = t'.slot j := hdir j hj
        rw [hsame, hslots', hslots j hj]
      case disk =>
        intro x hx
        unfold systemSectors at hx
        show d₂ x = s.disk x
        rw [hother₂ x (by omega) (by omega), hother₁ x (by omega)]
      case map =>
        intro x hx
        have hbit : FileSystem.freeMap { s with disk := d₂ } x = m'.clear sector x := by
          rw [← hbits' x hx, ← mapOf_congr h (hother₂ 2 (by decide) (by decide)) hx]
          rfl
        have howns : s.Owns i x ↔ x = sector ∨
            ∃ j < (s.header sector).numSectors, (s.header sector).dataSectors j = x := by
          constructor
          · rintro ⟨k, sector', hslot', hx'⟩
            obtain ⟨-, rfl⟩ := Prod.mk.inj (Option.some.inj (hslot.symm.trans hslot'))
            exact hx'
          · intro hx'
            exact ⟨_, sector, hslot, hx'⟩
        rw [hbit, howns]
        by_cases hxs : x = sector
        · subst hxs
          simp
        · rw [BitMap.clear_of_ne _ hxs, hmap x, hbits x hx]
          simp only [hxs, false_or, not_exists, not_and, ne_eq]

end Names

/-! ## Format -/

section Format

/-- The map after the header of the map and of the directory are marked. -/
def headerMap : BitMap := BitMap.mark (BitMap.mark (fun _ => false) freeMapSector) directorySector

/-- The map on a new disk. -/
def systemMap : BitMap := ((headerMap.mark 2).mark 3).mark 4

theorem systemMap_iff (x : ℕ) : systemMap x = true ↔ x < systemSectors := by
  have hlow : ∀ x < systemSectors, systemMap x = true := by decide
  refine ⟨?_, hlow x⟩
  intro hx
  by_contra hge
  unfold systemSectors at hge
  unfold systemMap headerMap freeMapSector directorySector at hx
  rw [BitMap.mark_of_ne _ (by omega), BitMap.mark_of_ne _ (by omega), BitMap.mark_of_ne _ (by omega),
    BitMap.mark_of_ne _ (by omega), BitMap.mark_of_ne _ (by omega)] at hx
  cases hx

/-- The header of the map on a new disk. The sectors past the first are what the
heap held. -/
def mapHeader (f : ℕ → ℕ) : FileHeader := ⟨freeMapFileSize, 1, Function.update f 0 2⟩

/-- The header of the directory on a new disk. -/
def directoryHeader (f : ℕ → ℕ) : FileHeader :=
  ⟨directoryFileSize, 2, Function.update (Function.update f 0 3) 1 4⟩

/-- The map takes sector 2. -/
theorem allocate_map (h : FileHeader) : h.allocate headerMap freeMapFileSize =
    some (true, mapHeader h.dataSectors, headerMap.mark 2) := by
  have hclear : ¬ headerMap.numClear numSectors < 1 := by decide +kernel
  have hfind : BitMap.find numSectors headerMap = some 2 := by decide +kernel
  have hn : divRoundUp freeMapFileSize sectorSize = 1 := by decide
  simp only [FileHeader.allocate, hn, hclear, if_false, FileHeader.allocateSectors, hfind,
    show 0 < numDirect from by decide, if_true, Option.map_some, mapHeader]

/-- The directory takes sectors 3 and 4. -/
theorem allocate_directory (h : FileHeader) : h.allocate (headerMap.mark 2) directoryFileSize =
    some (true, directoryHeader h.dataSectors, systemMap) := by
  have hclear : ¬ (headerMap.mark 2).numClear numSectors < 2 := by decide +kernel
  have hfind₃ : BitMap.find numSectors (headerMap.mark 2) = some 3 := by decide +kernel
  have hfind₄ : BitMap.find numSectors ((headerMap.mark 2).mark 3) = some 4 := by decide +kernel
  have hn : divRoundUp directoryFileSize sectorSize = 2 := by decide
  simp only [FileHeader.allocate, hn, hclear, if_false, FileHeader.allocateSectors, hfind₃, hfind₄,
    show 0 < numDirect from by decide, show 0 + 1 < numDirect from by decide, if_true,
    Option.map_some]
  rfl

theorem fits_map (f : ℕ → ℕ) : (mapHeader f).Fits := by
  constructor
  · show freeMapFileSize ≤ maxFileSize
    decide
  · show 1 = divRoundUp freeMapFileSize sectorSize
    decide
  · intro i hi
    obtain rfl : i = 0 := Nat.lt_one_iff.mp hi
    show Function.update f 0 2 0 < numSectors
    rw [Function.update_self]
    decide
  · intro i j hi hj _
    rw [Nat.lt_one_iff.mp hi, Nat.lt_one_iff.mp hj]

theorem directoryHeader_sector (f : ℕ → ℕ) {i : ℕ} (hi : i < 2) :
    (directoryHeader f).dataSectors i = i + 3 := by
  show Function.update (Function.update f 0 3) 1 4 i = i + 3
  rcases (show i = 0 ∨ i = 1 by omega) with rfl | rfl
  · rw [Function.update_of_ne (by decide), Function.update_self]
  · rw [Function.update_self]

theorem fits_directory (f : ℕ → ℕ) : (directoryHeader f).Fits := by
  constructor
  · show directoryFileSize ≤ maxFileSize
    decide
  · show 2 = divRoundUp directoryFileSize sectorSize
    decide
  · intro i hi
    rw [directoryHeader_sector f hi]
    have hi : i < 2 := hi
    unfold numSectors
    omega
  · intro i j hi hj heq
    rw [directoryHeader_sector f hi, directoryHeader_sector f hj] at heq
    omega

/-- The header of the map, read back from its sector. -/
theorem mapHeader_reread (f : ℕ → ℕ) : MapFile (.ofBytes (mapHeader f).toBytes) ∧
    (FileHeader.ofBytes (mapHeader f).toBytes).dataSectors 0 = 2 := by
  obtain ⟨hlen, -, hdata⟩ := (fits_map f).reread
  refine ⟨⟨(fits_map f).ofBytes, hlen⟩, ?_⟩
  rw [hdata 0 Nat.zero_lt_one]
  exact Function.update_self 0 2 f

/-- The header of the directory, read back from its sector. -/
theorem directoryHeader_reread (f : ℕ → ℕ) :
    DirectoryFile (.ofBytes (directoryHeader f).toBytes) ∧
      (FileHeader.ofBytes (directoryHeader f).toBytes).numSectors = 2 ∧
      ∀ i < 2, (FileHeader.ofBytes (directoryHeader f).toBytes).dataSectors i = i + 3 := by
  obtain ⟨hlen, hnum, hdata⟩ := (fits_directory f).reread
  refine ⟨⟨(fits_directory f).ofBytes, hlen⟩, hnum, ?_⟩
  intro i hi
  rw [hdata i hi, directoryHeader_sector f hi]

/-- A directory without files asks nothing of the disk but the two system files. -/
theorem Layout.of_empty {s : FileSystem} (hmapFile : MapFile s.freeMapFile.hdr)
    (hmapSector : s.freeMapFile.hdr.dataSectors 0 = 2)
    (hdirectoryFile : DirectoryFile s.directoryFile.hdr)
    (hsectors : ∀ i < 2, s.directoryFile.hdr.dataSectors i = i + 3)
    (hnone : ∀ i < numDirEntries, s.slot i = none)
    (hmap : ∀ x < numSectors, s.freeMap x = systemMap x) : Layout s := by
  have hnoowner : ∀ {i x}, i < numDirEntries → ¬ s.Owns i x := by
    rintro i x hi ⟨k, sector, hslot, -⟩
    rw [hnone i hi] at hslot
    cases hslot
  constructor
  case mapFile => exact hmapFile
  case mapSector => exact hmapSector
  case directoryFile => exact hdirectoryFile
  case directorySectors => exact ⟨hsectors 0 (by decide), hsectors 1 (by decide)⟩
  case fits =>
    intro i k sector hi hslot
    rw [hnone i hi] at hslot
    cases hslot
  case owned =>
    intro i x hi howns
    exact absurd howns (hnoowner hi)
  case apart =>
    intro i k sector j hi hslot
    rw [hnone i hi] at hslot
    cases hslot
  case disjoint =>
    intro i j x hi _ howns
    exact absurd howns (hnoowner hi)
  case names =>
    intro i j k sector sector' hi _ hslot
    rw [hnone i hi] at hslot
    cases hslot
  case marked =>
    intro x hx
    rw [hmap x hx, systemMap_iff]
    refine ⟨.inl, ?_⟩
    rintro (hlt | ⟨i, hi, howns⟩)
    · exact hlt
    · exact absurd howns (hnoowner hi)

/-- The two headers are written and opened, and the map and the directory written
through them. -/
theorem format_of_writes {d d₂ d₃ d₄ : Disk} {heap : ℕ → Buffer} {mapHdr dirHdr : FileHeader}
    (hmapHdr : mapHeader (FileHeader.ofBytes (heap 1)).dataSectors = mapHdr)
    (hdirHdr : directoryHeader (FileHeader.ofBytes (heap 2)).dataSectors = dirHdr)
    (hd₂ : d₂ = Function.update (Function.update d freeMapSector mapHdr.toBytes) directorySector
      dirHdr.toBytes)
    (hd₃ : writeBackMap systemMap d₂ (.ofBytes mapHdr.toBytes) (heap 3) = some d₃)
    (hd₄ : Directory.writeBack (fun i => { Directory.ofBytes (heap 0) i with inUse := false }) d₃
      (.ofBytes dirHdr.toBytes) (heap 4) = some d₄) :
    FileSystem.format d heap =
      some ⟨d₄, ⟨.ofBytes mapHdr.toBytes, 0⟩, ⟨.ofBytes dirHdr.toBytes, 0⟩, []⟩ := by
  have hmap := allocate_map (.ofBytes (heap 1))
  have hdirectory := allocate_directory (.ofBytes (heap 2))
  rw [hmapHdr] at hmap
  rw [hdirHdr] at hdirectory
  unfold headerMap at hmap hdirectory
  have hwrite₁ := writeHeader_eq mapHdr d (show freeMapSector < numSectors by decide)
  have hwrite₂ := writeHeader_eq dirHdr (Function.update d freeMapSector mapHdr.toBytes)
    (show directorySector < numSectors by decide)
  rw [← hd₂] at hwrite₂
  have hfile₁ : OpenFile.ofSector d₂ freeMapSector = some ⟨.ofBytes mapHdr.toBytes, 0⟩ := by
    rw [hd₂]
    rfl
  have hfile₂ : OpenFile.ofSector d₂ directorySector = some ⟨.ofBytes dirHdr.toBytes, 0⟩ := by
    rw [hd₂]
    rfl
  simp only [FileSystem.format, hmap, hdirectory, guard, if_true, Option.bind_eq_bind,
    Option.bind_some, Option.pure_def]
  rw [hwrite₁, Option.bind_some, hwrite₂, Option.bind_some, hfile₁, Option.bind_some, hfile₂,
    Option.bind_some]
  show (writeBackMap systemMap d₂ (.ofBytes mapHdr.toBytes) (heap 3)).bind _ = _
  rw [hd₃, Option.bind_some, hd₄, Option.bind_some]

/-- **A new disk** has the layout, with no files. -/
theorem format_eq (d : Disk) (heap : ℕ → Buffer) : ∃ s, FileSystem.format d heap = some s ∧
    Layout s ∧ s.opened = [] ∧ ∀ i < numDirEntries, s.slot i = none := by
  obtain ⟨hmapFile, hsector⟩ := mapHeader_reread (FileHeader.ofBytes (heap 1)).dataSectors
  obtain ⟨hdirFile, hnum, hsectors⟩ :=
    directoryHeader_reread (FileHeader.ofBytes (heap 2)).dataSectors
  generalize hmapHdr : mapHeader (FileHeader.ofBytes (heap 1)).dataSectors = mapHdr at *
  generalize hdirHdr : directoryHeader (FileHeader.ofBytes (heap 2)).dataSectors = dirHdr at *
  let table : Directory := fun i => { Directory.ofBytes (heap 0) i with inUse := false }
  have hempty : ∀ i, table.slot i = none := fun i => rfl
  obtain ⟨d₃, hd₃, -, hbits⟩ := writeBackMap_eq hmapFile systemMap
    (Function.update (Function.update d freeMapSector mapHdr.toBytes) directorySector
      dirHdr.toBytes) (heap 3)
  obtain ⟨d₄, hd₄, hother, hslots⟩ := writeBackDirectory_eq hdirFile table d₃ (heap 4)
    fun i _ k sector hslot => by rw [hempty] at hslot; cases hslot
  let s : FileSystem := ⟨d₄, ⟨.ofBytes mapHdr.toBytes, 0⟩, ⟨.ofBytes dirHdr.toBytes, 0⟩, []⟩
  have hnone : ∀ i < numDirEntries, s.slot i = none := by
    intro i hi
    show (directoryOf d₄ (.ofBytes dirHdr.toBytes)).slot i = none
    rw [hslots i hi, hempty]
  -- the directory's sectors are not the map's
  have hkept : d₄ 2 = d₃ 2 := by
    refine hother 2 ?_
    intro i hi
    rw [hnum] at hi
    rw [hsectors i hi]
    omega
  refine ⟨s, format_of_writes hmapHdr hdirHdr rfl hd₃ hd₄, ?_, rfl, hnone⟩
  refine .of_empty hmapFile hsector hdirFile hsectors hnone ?_
  intro x hx
  have hin : x / 8 / sectorSize = 0 := by
    unfold numSectors sectorSize at *
    omega
  rw [← hbits x hx]
  show unpackBits (fileByte d₄ (.ofBytes mapHdr.toBytes)) x = _
  simp only [mapOf, unpackBits, fileByte, hin, hsector, hkept]

end Format

end Nachos.Filesys
