import Mathlib.Data.List.Nodup
import Mathlib.Data.List.Pairwise
import Nachos.Filesys.ByteRanges
import Nachos.Filesys.Creation

/-!
# Sector accounting

The free map on the disk marks the sectors of the two system files and of the files in the
directory, each of which has one owner. It does as long as open files are not used
after their file is removed: nothing tells an open file that its sectors are no longer its own.
-/

namespace Nachos.Filesys

open Nachos.Lib Nachos.Userprog

/-! ## Sectors in use -/

/-- The data sectors of a file. -/
def FileHeader.sectors (h : FileHeader) : List ℕ := (List.range h.numSectors).map h.dataSectors

namespace FileSystem

/-- The header sector and the data sectors of the file of entry `i`. -/
def entrySectors (s : FileSystem) (i : ℕ) : List ℕ :=
  match s.slot i with
  | none => []
  | some (_, sector) => sector :: (s.header sector).sectors

/-- Every sector that belongs to something, once for each owner. -/
def inUse (s : FileSystem) : List ℕ :=
  freeMapSector :: directorySector :: (s.freeMapFile.hdr.sectors ++ s.directoryFile.hdr.sectors ++
    (List.range numDirEntries).flatMap s.entrySectors)

/-- **The accounting is right**: no sector has two owners, and the map marks those that have one. -/
def Accounted (s : FileSystem) : Prop :=
  s.inUse.Nodup ∧ ∀ x < numSectors, (s.freeMap x = true ↔ x ∈ s.inUse)

end FileSystem

section Accounts

variable {s : FileSystem} {i x : ℕ}

theorem mem_entrySectors : x ∈ s.entrySectors i ↔ s.Owns i x := by
  unfold FileSystem.entrySectors FileSystem.Owns
  cases hslot : s.slot i with
  | none => simp
  | some file =>
      obtain ⟨k, sector⟩ := file
      constructor
      · intro hx
        refine ⟨k, sector, rfl, ?_⟩
        rcases List.mem_cons.mp hx with rfl | hx
        · exact .inl rfl
        · obtain ⟨j, hj, rfl⟩ := List.mem_map.mp hx
          exact .inr ⟨j, List.mem_range.mp hj, rfl⟩
      · rintro ⟨k', sector', heq, hx⟩
        obtain ⟨rfl, rfl⟩ := Prod.mk.inj (Option.some.inj heq)
        rcases hx with rfl | ⟨j, hj, rfl⟩
        · exact List.mem_cons_self
        · exact List.mem_cons_of_mem _ (List.mem_map_of_mem (List.mem_range.mpr hj))

/-- The system files take the first five sectors. -/
theorem Layout.inUse_eq (h : Layout s) :
    s.inUse = List.range systemSectors ++ (List.range numDirEntries).flatMap s.entrySectors := by
  have hmap : s.freeMapFile.hdr.sectors = [2] := by
    rw [FileHeader.sectors, mapFile_sectors h, List.range_one, List.map_singleton, h.mapSector]
  have hdir : s.directoryFile.hdr.sectors = [3, 4] := by
    rw [FileHeader.sectors, directoryFile_sectors h]
    show [s.directoryFile.hdr.dataSectors 0, s.directoryFile.hdr.dataSectors 1] = _
    rw [h.directorySectors.1, h.directorySectors.2]
  rw [FileSystem.inUse, hmap, hdir]
  rfl

theorem Layout.nodup_entry (h : Layout s) (hi : i < numDirEntries) : (s.entrySectors i).Nodup := by
  unfold FileSystem.entrySectors
  cases hslot : s.slot i with
  | none => exact List.nodup_nil
  | some file =>
      obtain ⟨k, sector⟩ := file
      refine List.nodup_cons.mpr ⟨?_, ?_⟩
      · intro hmem
        obtain ⟨j, hj, heq⟩ := List.mem_map.mp hmem
        exact h.apart hi hslot (List.mem_range.mp hj) heq
      · refine List.Nodup.map_on ?_ List.nodup_range
        intro j hj l hl heq
        exact (h.fits hi hslot).inj (List.mem_range.mp hj) (List.mem_range.mp hl) heq

/-- A disk with the right layout is accounted for. -/
theorem Layout.accounted (h : Layout s) : s.Accounted := by
  have hmem : ∀ x, x ∈ (List.range numDirEntries).flatMap s.entrySectors ↔
      ∃ i < numDirEntries, s.Owns i x := by
    intro x
    simp only [List.mem_flatMap, List.mem_range, mem_entrySectors]
  constructor
  · rw [h.inUse_eq, List.nodup_append]
    refine ⟨List.nodup_range, ?_, ?_⟩
    · rw [List.nodup_flatMap]
      refine ⟨fun i hi => h.nodup_entry (List.mem_range.mp hi), ?_⟩
      refine List.Pairwise.imp_of_mem ?_ List.nodup_range
      intro i j hi hj hne x hx hx'
      exact hne (h.disjoint (List.mem_range.mp hi) (List.mem_range.mp hj) (mem_entrySectors.mp hx)
        (mem_entrySectors.mp hx')).symm
    · rintro x hx y hy rfl
      obtain ⟨i, hi, howns⟩ := (hmem x).mp hy
      have hlt := List.mem_range.mp hx
      have := (h.owned hi howns).1
      omega
  · intro x hx
    rw [h.marked hx, h.inUse_eq, List.mem_append, List.mem_range, hmem]

end Accounts

/-! ## Runs -/

/-- **Every sector is accounted for** in every state of a run from a new disk, if open files are
used only until their file is removed. -/
theorem sectors_accounted {d : Disk} {heap : ℕ → Buffer} {s₀ s : FileSystem} {tr : List Event}
    (hformat : FileSystem.format d heap = some s₀) (hrun : Run step Permitted s₀ tr s) :
    s.Accounted := by
  obtain ⟨s₁, hformat₁, hl, hopened, hslots⟩ := format_eq d heap
  obtain rfl := Option.some.inj (hformat.symm.trans hformat₁)
  obtain ⟨S, -, hr⟩ := (Represents.format hl hopened hslots).run hrun
  exact hr.layout.accounted

theorem sectors_accounted_sample : ∃ s₀ s,
    FileSystem.format (fun _ _ => 0) (fun _ _ => 0) = some s₀ ∧ Run step Permitted s₀ tenBytes s ∧
      s.Accounted := by
  obtain ⟨s₀, s, file, hformat, hrun, -, -⟩ := tenBytes_run
  exact ⟨s₀, s, hformat, hrun, sectors_accounted hformat hrun⟩

/-! ## A file that is written after it was removed -/

/-- What is asked of the operations: sizes are possible ones and no request overflows. -/
def SizesOk (_ : List Event) (s : FileSystem) (l : Op × (ℕ → Buffer)) : Prop :=
  (match l.1 with
    | .create _ initialSize => initialSize ≤ maxFileSize
    | _ => True) ∧ ¬ RequestOverflows s l.1

section Stale

variable {s s₁ s₂ : FileSystem} {i y sector : ℕ} {k : List UInt8} {hdr : FileHeader} {name : FileName}

theorem create_new (h : Layout s) (name : FileName) {size : ℕ} (hsize : size ≤ maxFileSize)
    (heap : ℕ → Buffer) (habsent : ∀ i < numDirEntries, ∀ sector, s.slot i ≠ some (name.key, sector))
    (hfree : ∃ i < numDirEntries, s.slot i = none) :
    ∃ s' i sector hdr, s.create name size heap = some (s', true) ∧ hdr.numBytes = size ∧
      BitMap.find numSectors s.freeMap = some sector ∧
      (0 < size → BitMap.find numSectors (s.freeMap.mark sector) = some (hdr.dataSectors 0)) ∧
      Created s s' i name.key sector hdr := by
  rcases create_cases h name hsize heap with ⟨-, ⟨i, sector, hi, hslot⟩ | hfull⟩ | hnew
  · exact absurd hslot (habsent i hi sector)
  · obtain ⟨i, hi, hslot⟩ := hfree
    exact absurd hslot (hfull i hi)
  · exact hnew

/-- Once a new file is removed the map is as before. -/
theorem Created.then_removed (hc : Created s s₁ i k sector hdr)
    (hmap : ∀ x < numSectors, (s₂.freeMap x = true ↔ s₁.freeMap x = true ∧ ¬ s₁.Owns i x)) :
    ∀ x < numSectors, s₂.freeMap x = s.freeMap x := by
  intro x hx
  rw [Bool.eq_iff_iff, hmap x hx, hc.owns_new, hc.map x hx]
  constructor
  · rintro ⟨hmarked | hnew, hnot⟩
    · exact hmarked
    · exact absurd hnew hnot
  · intro hmarked
    refine ⟨.inl hmarked, fun hnew => ?_⟩
    rw [(hc.new_free hnew).2] at hmarked
    cases hmarked

/-- The map after a file without data. -/
theorem Created.map_empty (hc : Created s s₁ i k sector hdr) (hsize : hdr.numBytes = 0) :
    ∀ x < numSectors, s₁.freeMap x = s.freeMap.mark sector x := by
  have hnone : hdr.numSectors = 0 := by
    rw [hc.fits.sectors, hsize]
    rfl
  intro x hx
  rw [Bool.eq_iff_iff, hc.map x hx, hnone]
  by_cases hxs : x = sector
  · simp [hxs]
  · simp [hxs]

/-- The names `b` and `c`. -/
def fileB : FileName := ⟨[98], by decide⟩

def fileC : FileName := ⟨[99], by decide⟩

/-- The first bytes of a header: one data sector, which is sector 0. -/
def forgedHeader : Buffer := Buffer.ofList [128, 0, 0, 0, 1, 0, 0, 0, 0, 0, 0, 0]

/-- A file is removed while it is open. -/
def removedOpen : List Event := [.create fileA 12 true, .openFile fileA (some 0), .remove fileA true]

/-- Two others are created after that. -/
def reusedSectors : List Event := removedOpen ++ [.create fileB 0 true] ++ [.create fileC 0 true]

/-- A header that names sector 0 as its data: that sector has two owners. -/
theorem not_accounted (hi : i < numDirEntries) (hslot : s.slot i = some (k, sector))
    (hone : (s.header sector).numSectors = 1) (hzero : (s.header sector).dataSectors 0 = 0) :
    ¬ s.Accounted := by
  rintro ⟨hnodup, -⟩
  have hmem : 0 ∈ s.entrySectors i :=
    mem_entrySectors.mpr ⟨k, sector, hslot, .inr ⟨0, by rw [hone]; exact Nat.one_pos, hzero⟩⟩
  refine (List.nodup_cons.mp hnodup).1 (List.mem_cons_of_mem _ (List.mem_append_right _ ?_))
  exact List.mem_flatMap.mpr ⟨i, List.mem_range.mpr hi, hmem⟩

/-- An open file whose first sector is now the header of another file. -/
theorem stale_overwrites (hl : Layout s) {h : FileHeader} (hi : i < numDirEntries)
    (hslot : s.slot i = some (k, y)) (hopen : s.opened[0]? = some ⟨h, 0⟩) (hfits : h.Fits)
    (hlength : h.numBytes = 12) (hdata : h.dataSectors 0 = y) (heap : ℕ → Buffer) :
    ∃ s', s.writeFile 0 forgedHeader 12 heap = some (s', 12) ∧ ¬ s'.Accounted := by
  obtain ⟨s', hwrite, -, hover⟩ :=
    writeFile_range hfits hopen 12 (by decide) forgedHeader heap
  have hcount : transferred h 12 0 = 12 := by
    rw [transferred, hlength]
    rfl
  rw [hcount] at hwrite hover
  have hsince := writeFile_since _ hwrite
  have hone : h.numSectors = 1 := by
    rw [hfits.sectors, hlength]
    rfl
  have hkept : ∀ x, x ≠ y → s'.disk x = s.disk x := by
    intro x hx
    refine hover.other x ?_
    intro j hj
    obtain rfl : j = 0 := by omega
    rw [hdata]
    exact hx
  have hsystem := (hl.owned hi (owns_header hslot)).1
  have hslot' : s'.slot i = some (k, y) := by
    rw [← hslot, FileSystem.slot, hsince.directoryFile]
    unfold systemSectors at hsystem
    exact directoryOf_congr hl (hkept 3 (by omega)) (hkept 4 (by omega)) hi
  have hbyte : ∀ o < 12, s'.disk y o = forgedHeader o := by
    intro o ho
    have hread := hover.bytes o (by omega)
    rw [if_pos (by omega), fileByte, Nat.div_eq_of_lt (by unfold sectorSize; omega),
      Nat.mod_eq_of_lt (by unfold sectorSize; omega), hdata] at hread
    exact hread
  refine ⟨s', hwrite, not_accounted hi hslot' ?_ ?_⟩
  · refine (Buffer.intAt_congr fun o ho => hbyte (4 + o) (by omega)).trans ?_
    decide
  · refine (Buffer.intAt_congr fun o ho => hbyte (8 + o) (by omega)).trans ?_
    decide

/-- The removed file is still open, and its sectors are free again. -/
theorem removedOpen_run : ∃ s₀ s header hdr : _, ∃ h : FileHeader,
    FileSystem.format (fun _ _ => 0) (fun _ _ => 0) = some s₀ ∧
      Run step SizesOk s₀ removedOpen s ∧ Layout s ∧ (∀ i < numDirEntries, s.slot i = none) ∧
      s.opened = [⟨h, 0⟩] ∧ h.Fits ∧ h.numBytes = 12 ∧ h.dataSectors 0 = hdr ∧
      BitMap.find numSectors s.freeMap = some header ∧
      BitMap.find numSectors (s.freeMap.mark header) = some hdr := by
  obtain ⟨s₀, hformat, hl, hopened, hslots⟩ := format_eq (fun _ _ => 0) (fun _ _ => 0)
  have hsize : 12 ≤ maxFileSize := by decide
  have hnone : ∀ i < numDirEntries, ∀ k sector, s₀.slot i ≠ some (k, sector) := by
    intro i hi k sector hslot
    rw [hslots i hi] at hslot
    cases hslot
  obtain ⟨s₁, i, header, hdr, hcreate, hbytes, hfind, hdata, hc⟩ := create_new hl fileA hsize
    (fun _ _ => 0) (fun i hi sector => hnone i hi _ sector) ⟨0, by decide, hslots 0 (by decide)⟩
  have hl₁ := hl.created hc
  have hslot : s₁.slot i = some (fileA.key, header) := by
    rw [hc.slots i hc.entry, if_pos rfl]
  rcases openFile_cases hl₁ fileA with ⟨-, habsent⟩ | ⟨j, sector, hj, hslot', hopen⟩
  · exact absurd hslot (habsent i hc.entry header)
  obtain rfl := hl₁.names hc.entry hj hslot hslot'
  obtain ⟨-, rfl⟩ := Prod.mk.inj (Option.some.inj (hslot.symm.trans hslot'))
  have hopened₁ : s₁.opened = [] := hc.opened.trans hopened
  rw [hopened₁] at hopen
  have hl₂ := hl₁.reopened ([] ++ [⟨s₁.header header, 0⟩])
  rcases remove_cases hl₂ fileA (fun _ _ => 0) with
    ⟨-, habsent⟩ | ⟨s₃, l, sector, hslot₂, hremove, hr⟩
  · exact absurd hslot (habsent j hj header)
  obtain rfl := hl₁.names hr.entry hj hslot₂ hslot
  have hmap := hc.then_removed hr.map
  have hheader : s₁.header header = .ofBytes hdr.toBytes := by
    rw [FileSystem.header, hc.header]
  obtain ⟨hlength, -, hsectors⟩ := hc.fits.reread
  have hone : 0 < hdr.numSectors := by
    rw [hc.fits.sectors, hbytes]
    decide
  have hmark : ∀ x < numSectors, s₃.freeMap.mark header x = s₀.freeMap.mark header x := by
    intro x hx
    by_cases hxs : x = header
    · rw [hxs, BitMap.mark_self, BitMap.mark_self]
    · rw [BitMap.mark_of_ne _ hxs, BitMap.mark_of_ne _ hxs, hmap x hx]
  refine ⟨s₀, s₃, header, hdr.dataSectors 0, s₁.header header, hformat, ?_, hl₂.removed hr, ?_,
    hr.opened, ?_, ?_, ?_, ?_, ?_⟩
  · have hrun₁ : Run step SizesOk s₀ [.create fileA 12 true] s₁ :=
      Run.snoc (l := (Op.create fileA 12, fun _ _ => 0)) .start ⟨hsize, id⟩
        (by rw [step, hcreate]; rfl)
    have hrun₂ := Run.snoc (l := (Op.openFile fileA, fun _ _ => 0)) hrun₁ ⟨True.intro, id⟩
      (show step s₁ _ = some (_, .openFile fileA (some 0)) by rw [step, hopen]; rfl)
    exact Run.snoc (l := (Op.remove fileA, fun _ _ => 0)) hrun₂ ⟨True.intro, id⟩
      (by rw [step, hremove]; rfl)
  · intro i hi
    rw [hr.slots i hi]
    split
    · rfl
    · rename_i hne
      show s₁.slot i = none
      rw [hc.slots i hi, if_neg hne, hslots i hi]
  · rw [hheader]
    exact hc.fits.ofBytes
  · rw [hheader, hlength, hbytes]
  · rw [hheader, hsectors 0 hone]
  · rw [BitMap.find_congr hmap, hfind]
  · rw [BitMap.find_congr hmark, hdata (by decide)]

/-- **A stale open file** breaks the accounting: two new files take the sectors of the one removed,
and a write through it makes up a header. -/
theorem stale_write : ∃ s₀ s, FileSystem.format (fun _ _ => 0) (fun _ _ => 0) = some s₀ ∧
    Run step SizesOk s₀ (reusedSectors ++ [.write 0 forgedHeader 12 12]) s ∧ ¬ s.Accounted := by
  obtain ⟨s₀, s₃, header, y, h, hformat, hrun₃, hl₃, hslots, hopened, hfits, hlength, hdata, hfind,
    hfind'⟩ := removedOpen_run
  have hzero : 0 ≤ maxFileSize := by decide
  obtain ⟨s₄, i, sector, hdr, hcreate, hbytes, hsector, -, hc⟩ := create_new hl₃ fileB hzero
    (fun _ _ => 0) (fun i hi sector => by rw [hslots i hi]; simp)
    ⟨0, by decide, hslots 0 (by decide)⟩
  obtain rfl := Option.some.inj (hfind.symm.trans hsector)
  have hl₄ := hl₃.created hc
  have hslots₄ : ∀ j < numDirEntries, s₄.slot j = if j = i then some (fileB.key, header) else none := by
    intro j hj
    rw [hc.slots j hj]
    split
    · rfl
    · exact hslots j hj
  obtain ⟨j, hj, hfree⟩ : ∃ j < numDirEntries, s₄.slot j = none := by
    by_cases hi : i = 0
    · exact ⟨1, by decide, by rw [hslots₄ 1 (by decide), if_neg (by omega)]⟩
    · exact ⟨0, by decide, by rw [hslots₄ 0 (by decide), if_neg (Ne.symm hi)]⟩
  have habsent : ∀ j < numDirEntries, ∀ sector, s₄.slot j ≠ some (fileC.key, sector) := by
    intro j hj sector
    rw [hslots₄ j hj]
    split
    · intro heq
      obtain ⟨hkey, -⟩ := Prod.mk.inj (Option.some.inj heq)
      exact absurd hkey (by decide)
    · simp
  obtain ⟨s₅, l, sector, hdr', hcreate', -, hsector', -, hc'⟩ :=
    create_new hl₄ fileC hzero (fun _ _ => 0) habsent ⟨j, hj, hfree⟩
  -- the header of the third file is in the data sector of the first
  rw [BitMap.find_congr (hc.map_empty hbytes), hfind'] at hsector'
  obtain rfl := Option.some.inj hsector'
  have hopen : s₅.opened[0]? = some ⟨h, 0⟩ := by
    rw [hc'.opened, hc.opened, hopened]
    rfl
  have hslot : s₅.slot l = some (fileC.key, y) := by
    rw [hc'.slots l hc'.entry, if_pos rfl]
  obtain ⟨s₆, hwrite, hnot⟩ := stale_overwrites (hl₄.created hc') hc'.entry hslot hopen hfits hlength
    hdata fun _ _ => 0
  refine ⟨s₀, s₆, hformat, ?_, hnot⟩
  have hrun₄ := Run.snoc (l := (Op.create fileB 0, fun _ _ => 0)) hrun₃ ⟨hzero, id⟩
    (show step s₃ _ = some (s₄, .create fileB 0 true) by rw [step, hcreate]; rfl)
  have hrun₅ := Run.snoc (l := (Op.create fileC 0, fun _ _ => 0)) hrun₄ ⟨hzero, id⟩
    (show step s₄ _ = some (s₅, .create fileC 0 true) by rw [step, hcreate']; rfl)
  refine Run.snoc (l := (Op.write 0 forgedHeader 12, fun _ _ => 0)) hrun₅ ⟨True.intro, ?_⟩
    (by rw [step, hwrite]; rfl)
  rintro ⟨file, hfile, -, -, hbig⟩
  obtain rfl := Option.some.inj (hopen.symm.trans hfile)
  dsimp only at hbig
  omega

end Stale

end Nachos.Filesys
