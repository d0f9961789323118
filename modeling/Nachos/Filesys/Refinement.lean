import Nachos.Filesys.FileMap
import Nachos.Filesys.Operations

/-!
# The file system refines the map

A disk with the right layout holds a map: its names are those of the directory,
and a name stands for the bytes in the sectors of its file. As sectors are not
shared, an operation on one file leaves the bytes of the others alone. Each
operation is matched by one of the map that returns the same, so every trace is
a trace of the map.

The addition `position + numBytes` is the one place where the code can leave the
map: a request near the largest integer overflows before it is cut to the length
of the file.
-/

namespace Nachos.Filesys

open Nachos.Lib Nachos.Userprog

/-! ## The map on the disk -/

/-- The bytes of a file. -/
def fileBytes (d : Disk) (h : FileHeader) : List UInt8 := (List.range h.numBytes).map (fileByte d h)

namespace FileSystem

/-- The bytes of the file of entry `i`, if it has this name. -/
def bytesAt (s : FileSystem) (k : List UInt8) (i : ℕ) : Option (List UInt8) :=
  (s.slot i).bind fun file =>
    if file.1 = k then some (fileBytes s.disk (s.header file.2)) else none

/-- What a name stands for. -/
def contents (s : FileSystem) (k : List UInt8) : Option (List UInt8) :=
  (List.range numDirEntries).findSome? (s.bytesAt k)

end FileSystem

section Contents

variable {s s' : FileSystem} {i j sector : ℕ} {k c : List UInt8}

theorem bytesAt_eq_some : s.bytesAt k i = some c ↔
    ∃ sector, s.slot i = some (k, sector) ∧ fileBytes s.disk (s.header sector) = c := by
  unfold FileSystem.bytesAt
  constructor
  · intro h
    obtain ⟨⟨k', sector⟩, hslot, hfile⟩ := Option.bind_eq_some_iff.mp h
    split at hfile
    · rename_i heq
      have heq : k' = k := heq
      subst heq
      exact ⟨sector, hslot, Option.some.inj hfile⟩
    · cases hfile
  · rintro ⟨sector, hslot, rfl⟩
    rw [hslot, Option.bind_some, if_pos rfl]

theorem contents_eq_none : s.contents k = none ↔
    ∀ i < numDirEntries, ∀ sector, s.slot i ≠ some (k, sector) := by
  unfold FileSystem.contents
  rw [List.findSome?_eq_none_iff]
  constructor
  · intro h i hi sector hslot
    have hnone := h i (List.mem_range.mpr hi)
    rw [bytesAt_eq_some.mpr ⟨sector, hslot, rfl⟩] at hnone
    cases hnone
  · intro h i hi
    cases hbytes : s.bytesAt k i with
    | none => rfl
    | some c =>
        obtain ⟨sector, hslot, -⟩ := bytesAt_eq_some.mp hbytes
        exact absurd hslot (h i (List.mem_range.mp hi) sector)

/-- **A name stands for the bytes of its file.** -/
theorem contents_eq_some (h : Layout s) : s.contents k = some c ↔
    ∃ i < numDirEntries, ∃ sector, s.slot i = some (k, sector) ∧
      fileBytes s.disk (s.header sector) = c := by
  constructor
  · intro hc
    obtain ⟨i, hi, hbytes⟩ := List.exists_of_findSome?_eq_some hc
    exact ⟨i, List.mem_range.mp hi, bytesAt_eq_some.mp hbytes⟩
  · rintro ⟨i, hi, sector, hslot, rfl⟩
    cases hc : s.contents k with
    | none => exact absurd hslot (contents_eq_none.mp hc i hi sector)
    | some c =>
        -- the entry that is found is this one: no name is there twice
        obtain ⟨j, hj, hbytes⟩ := List.exists_of_findSome?_eq_some hc
        obtain ⟨sector', hslot', rfl⟩ := bytesAt_eq_some.mp hbytes
        obtain rfl := h.names hi (List.mem_range.mp hj) hslot hslot'
        obtain ⟨-, rfl⟩ := Prod.mk.inj (Option.some.inj (hslot.symm.trans hslot'))
        rfl

theorem contents_ne_none : s.contents k ≠ none ↔
    ∃ i < numDirEntries, ∃ sector, s.slot i = some (k, sector) := by
  rw [Ne, contents_eq_none]
  push Not
  rfl

/-- There are at most as many names as entries. -/
theorem contents_few (s : FileSystem) :
    {k | s.contents k ≠ none}.encard ≤ numDirEntries := by
  let key : ℕ → List UInt8 := fun i => ((s.slot i).map Prod.fst).getD []
  have hsub : {k | s.contents k ≠ none} ⊆ ((Finset.range numDirEntries).image key : Finset _) := by
    intro k hk
    obtain ⟨i, hi, sector, hslot⟩ := contents_ne_none.mp hk
    refine Finset.mem_coe.mpr (Finset.mem_image.mpr ⟨i, Finset.mem_range.mpr hi, ?_⟩)
    show ((s.slot i).map Prod.fst).getD [] = k
    rw [hslot]
    rfl
  refine (Set.encard_le_encard hsub).trans ?_
  rw [Set.encard_coe_eq_coe_finsetCard]
  have hcard := Finset.card_image_le (s := Finset.range numDirEntries) (f := key)
  rw [Finset.card_range] at hcard
  exact_mod_cast hcard

/-- When no entry is free there are ten names. -/
theorem contents_full (h : Layout s) (hfull : ∀ i < numDirEntries, s.slot i ≠ none) :
    {k | s.contents k ≠ none}.encard = numDirEntries := by
  refine le_antisymm (contents_few s) ?_
  let key : ℕ → List UInt8 := fun i => ((s.slot i).map Prod.fst).getD []
  have hkey : ∀ i < numDirEntries, ∃ sector, s.slot i = some (key i, sector) := by
    intro i hi
    obtain ⟨⟨k, sector⟩, hslot⟩ := Option.ne_none_iff_exists'.mp (hfull i hi)
    refine ⟨sector, ?_⟩
    show s.slot i = some (((s.slot i).map Prod.fst).getD [], sector)
    rw [hslot]
    rfl
  have hinj : Set.InjOn key (Finset.range numDirEntries) := by
    intro i hi j hj heq
    have hi := Finset.mem_range.mp hi
    have hj := Finset.mem_range.mp hj
    obtain ⟨sector, hslot⟩ := hkey i hi
    obtain ⟨sector', hslot'⟩ := hkey j hj
    rw [← heq] at hslot'
    exact (h.names hi hj hslot hslot').symm
  have hsub : (((Finset.range numDirEntries).image key : Finset _) : Set (List UInt8)) ⊆
      {k | s.contents k ≠ none} := by
    intro k hk
    obtain ⟨i, hi, rfl⟩ := Finset.mem_image.mp (Finset.mem_coe.mp hk)
    have hi := Finset.mem_range.mp hi
    obtain ⟨sector, hslot⟩ := hkey i hi
    exact contents_ne_none.mpr ⟨i, hi, sector, hslot⟩
  refine le_trans ?_ (Set.encard_le_encard hsub)
  rw [Set.encard_coe_eq_coe_finsetCard, Finset.card_image_of_injOn hinj, Finset.card_range]

end Contents

/-! ## Contents after a change of the disk -/

section Changes

variable {s s' : FileSystem} {i j x sector : ℕ} {k k' c : List UInt8} {hdr : FileHeader}

theorem length_fileBytes (d : Disk) (h : FileHeader) : (fileBytes d h).length = h.numBytes := by
  rw [fileBytes, List.length_map, List.length_range]

/-- A file whose sectors are the same has the same bytes. -/
theorem fileBytes_kept (h : Layout s) (hj : j < numDirEntries) (hslot : s.slot j = some (k, sector))
    (hdisk : ∀ x, s.Owns j x → s'.disk x = s.disk x) :
    s'.header sector = s.header sector ∧
      fileBytes s'.disk (s'.header sector) = fileBytes s.disk (s.header sector) := by
  have hheader : s'.header sector = s.header sector :=
    congrArg FileHeader.ofBytes (hdisk sector (owns_header hslot))
  refine ⟨hheader, ?_⟩
  rw [hheader]
  refine List.map_congr_left ?_
  intro o ho
  have ho := List.mem_range.mp ho
  have hsector : o / sectorSize < (s.header sector).numSectors := by
    refine ((h.fits hj hslot).sector_lt ?_).1
    exact Nat.lt_of_le_of_lt (Nat.div_mul_le_self o sectorSize) ho
  rw [fileByte, fileByte, hdisk _ (owns_data hslot hsector)]

/-- A name whose entry and sectors are the same stands for the same bytes. -/
theorem contents_kept (h : Layout s) (h' : Layout s')
    (hslots : ∀ j < numDirEntries, ∀ sector,
      s'.slot j = some (k, sector) ↔ s.slot j = some (k, sector))
    (hdisk : ∀ j < numDirEntries, ∀ sector, s.slot j = some (k, sector) →
      ∀ x, s.Owns j x → s'.disk x = s.disk x) :
    s'.contents k = s.contents k := by
  refine Option.ext fun c => ?_
  rw [contents_eq_some h, contents_eq_some h']
  constructor
  · rintro ⟨j, hj, sector, hslot, rfl⟩
    have hslot := (hslots j hj sector).mp hslot
    exact ⟨j, hj, sector, hslot, (fileBytes_kept h hj hslot (hdisk j hj sector hslot)).2.symm⟩
  · rintro ⟨j, hj, sector, hslot, rfl⟩
    have hkept := fileBytes_kept h hj hslot (hdisk j hj sector hslot)
    exact ⟨j, hj, sector, (hslots j hj sector).mpr hslot, hkept.2⟩

/-- A change that concerns one name. -/
theorem contents_update {o : Option (List UInt8)} (hself : s'.contents k = o)
    (hother : ∀ k' ≠ k, s'.contents k' = s.contents k') :
    s'.contents = Function.update s.contents k o := by
  funext k'
  by_cases hk : k' = k
  · subst hk
    rw [hself, Function.update_self]
  · rw [hother k' hk, Function.update_of_ne hk]

theorem Created.disk_owned (hc : Created s s' i k sector hdr) (h : Layout s) (hj : j < numDirEntries)
    (howns : s.Owns j x) : s'.disk x = s.disk x := by
  refine hc.disk x (h.owned hj howns).1 ?_
  rintro rfl
  exact (h.free hc.free.1 hc.free.2).2 j hj howns

/-- **A new file** has bytes of its own. -/
theorem Created.contents (hc : Created s s' i k sector hdr) (h : Layout s) :
    ∃ c, c.length = hdr.numBytes ∧ s'.contents = Function.update s.contents k (some c) := by
  have h' := h.created hc
  have hslot : s'.slot i = some (k, sector) := by
    rw [hc.slots i hc.entry, if_pos rfl]
  refine ⟨fileBytes s'.disk (s'.header sector), ?_, contents_update ?_ ?_⟩
  · rw [length_fileBytes, FileSystem.header, hc.header]
    exact hc.fits.reread.1
  · exact (contents_eq_some h').mpr ⟨i, hc.entry, sector, hslot, rfl⟩
  · intro k' hne
    refine contents_kept h h' ?_ fun j hj _ _ x => hc.disk_owned h hj
    intro j hj sector'
    rw [hc.slots j hj]
    by_cases hji : j = i
    · subst hji
      rw [if_pos rfl, hc.was_free]
      simp [hne.symm]
    · rw [if_neg hji]

/-- **A file that goes** takes its name along. -/
theorem Removed.contents (hr : Removed s s' i) (h : Layout s) (hslot : s.slot i = some (k, sector)) :
    s'.contents = Function.update s.contents k none := by
  have h' := h.removed hr
  refine contents_update ?_ ?_
  · rw [contents_eq_none]
    intro j hj sector' hslot'
    obtain ⟨hne, hslot'⟩ := hr.slot_back hj hslot'
    exact hne (h.names hr.entry hj hslot hslot')
  · intro k' hne
    refine contents_kept h h' ?_ fun j hj _ _ x howns => hr.disk x (h.owned hj howns).1
    intro j hj sector'
    rw [hr.slots j hj]
    by_cases hji : j = i
    · subst hji
      rw [if_pos rfl, hslot]
      simp [hne.symm]
    · rw [if_neg hji]

/-- **Writing to a file** changes what its name stands for, and nothing else. -/
theorem Written.contents (hw : Written s s' i) (h : Layout s) (hslot : s.slot i = some (k, sector)) :
    s'.contents =
      Function.update s.contents k (some (fileBytes s'.disk (s.header sector))) := by
  have h' := h.written hw
  refine contents_update ?_ ?_
  · refine (contents_eq_some h').mpr ⟨i, hw.entry, sector, ?_, ?_⟩
    · rw [hw.slot h hw.entry]
      exact hslot
    · rw [FileSystem.header, hw.header h hw.entry hslot]
      rfl
  · intro k' hne
    refine contents_kept h h' ?_ ?_
    · intro j hj sector'
      rw [hw.slot h hj]
    · intro j hj sector' hslot' x howns
      refine hw.disk_other ?_
      intro howns'
      obtain rfl := h.disjoint hj hw.entry howns howns'
      obtain ⟨rfl, -⟩ := Prod.mk.inj (Option.some.inj (hslot.symm.trans hslot'))
      exact hne rfl

end Changes

/-! ## Requests -/

section Requests

variable {s s' : FileSystem} {d d' : Disk} {hdr : FileHeader} {i h p sector position : ℕ}
  {k : List UInt8} {numBytes : ℤ}

theorem span_fileBytes : span (fileBytes d hdr) numBytes position = transferred hdr numBytes position := by
  rw [span, length_fileBytes, transferred]

/-- **`ReadAt`** returns the bytes it addresses. -/
theorem readFileAt_eq (hl : Layout s) (hi : i < numDirEntries) (hslot : s.slot i = some (k, sector))
    (hopen : s.opened[h]? = some ⟨s.header sector, p⟩)
    (hno : ¬ Overflows (s.header sector) numBytes position) :
    s.readFileAt h numBytes position =
      some (addressed (fileBytes s.disk (s.header sector)) numBytes position) := by
  obtain ⟨into, hread, hbytes⟩ :=
    readAt_eq s.disk (fun _ => 0) 0 (hl.fits hi hslot) hno
  simp only [FileSystem.readFileAt, hopen, Option.bind_eq_bind, Option.bind_some, hread]
  refine congrArg some (List.ext_getElem ?_ ?_)
  · rw [length_addressed, span_fileBytes, FileSystem.taken, List.length_map, List.length_range]
  · intro o ho _
    rw [FileSystem.taken, List.length_map, List.length_range] at ho
    simp only [FileSystem.taken, addressed, fileBytes, List.getElem_map, List.getElem_range,
      List.getElem_take, List.getElem_drop]
    rw [hbytes o, if_pos ⟨Nat.zero_le o, by omega⟩, Nat.sub_zero]

/-- **`WriteAt`** changes the bytes it addresses. -/
theorem writeFileAt_eq (hl : Layout s) (hi : i < numDirEntries) (hslot : s.slot i = some (k, sector))
    (hopen : s.opened[h]? = some ⟨s.header sector, p⟩)
    (hno : ¬ Overflows (s.header sector) numBytes position) (src : Buffer) (heap : ℕ → Buffer) :
    ∃ s', s.writeFileAt h src numBytes position heap =
        some (s', span (fileBytes s.disk (s.header sector)) numBytes position) ∧
      Written s s' i ∧ s'.opened = s.opened ∧ fileBytes s'.disk (s.header sector) =
        overwrite (fileBytes s.disk (s.header sector)) src numBytes position := by
  obtain ⟨d, hwrite, hother, hbytes⟩ :=
    writeAt_eq s.disk (heap 0) src (hl.fits hi hslot) hno
  refine ⟨{ s with disk := d }, ?_, ?_, rfl, ?_⟩
  · simp only [FileSystem.writeFileAt, hopen, Option.bind_eq_bind, Option.bind_some, hwrite,
      span_fileBytes]
    rfl
  · refine ⟨rfl, rfl, hi, ?_⟩
    intro x hx
    exact hother x (hx k sector hslot)
  · refine List.ext_getElem ?_ ?_
    · rw [length_overwrite, length_fileBytes, length_fileBytes]
    · intro o ho _
      rw [length_fileBytes] at ho
      simp only [overwrite, List.getElem_mapIdx, span_fileBytes]
      simp only [fileBytes, List.getElem_map, List.getElem_range]
      exact hbytes o ho

end Requests

/-! ## The simulation -/

/-- Number `h` is an open file with this name, at position `p`. -/
def FileSystem.OpenAt (s : FileSystem) (h : ℕ) (k : List UInt8) (p : ℕ) : Prop :=
  ∃ i < numDirEntries, ∃ sector, s.slot i = some (k, sector) ∧
    s.opened[h]? = some ⟨s.header sector, p⟩

/-- **The disk holds the map.** -/
structure Represents (s : FileSystem) (S : Files) : Prop where
  layout : Layout s
  contents : S.contents = s.contents
  next : S.next = s.opened.length
  handles : ∀ {h k p}, S.handles h = some (k, p) → s.OpenAt h k p

/-- The map that a disk holds, with the open files that are given. -/
def FileSystem.files (s : FileSystem) (handles : ℕ → Option (List UInt8 × ℕ)) : Files where
  contents := s.contents
  handles := handles
  next := s.opened.length
  few := contents_few s

/-- **What an operation changes in the directory and the free map**: a new file
takes an entry and its sectors, a file that is removed gives them back, and
everything else leaves both alone. -/
def TablesAfter (s s' : FileSystem) : Event → Prop
  | .create name _ true => ∃ i < numDirEntries, ∃ sector, s.slot i = none ∧
      (∀ j < numDirEntries, s'.slot j = if j = i then some (name.key, sector) else s.slot j) ∧
      ∀ x < numSectors, (s'.freeMap x = true ↔ s.freeMap x = true ∨ s'.Owns i x)
  | .remove name true => ∃ i < numDirEntries, ∃ sector, s.slot i = some (name.key, sector) ∧
      (∀ j < numDirEntries, s'.slot j = if j = i then none else s.slot j) ∧
      ∀ x < numSectors, (s'.freeMap x = true ↔ s.freeMap x = true ∧ ¬ s.Owns i x)
  | _ => (∀ j < numDirEntries, s'.slot j = s.slot j) ∧
      ∀ x < numSectors, s'.freeMap x = s.freeMap x

/-- The request of an operation overflows. -/
def RequestOverflows (s : FileSystem) : Op → Prop
  | .readAt h numBytes position | .writeAt h _ numBytes position =>
      ∃ file, s.opened[h]? = some file ∧ Overflows file.hdr numBytes position
  | .read h numBytes | .write h _ numBytes =>
      ∃ file, s.opened[h]? = some file ∧ Overflows file.hdr numBytes file.seekPosition
  | _ => False

/-- The operation returns, and the map has one that returns the same. -/
def Matched (s : FileSystem) (S : Files) (l : Op × (ℕ → Buffer)) : Prop :=
  ∃ s' e S', step s l = some (s', e) ∧ S.Step e S' ∧ Represents s' S' ∧ TablesAfter s s' e

section Simulation

variable {s s' : FileSystem} {S : Files} {i h p sector position size : ℕ} {k c : List UInt8}
  {numBytes : ℤ} {name : FileName} {hdr : FileHeader} {heap : ℕ → Buffer}

/-- The layout does not depend on the open files. -/
theorem Layout.reopened (hl : Layout s) (files : List OpenFile) :
    Layout { s with opened := files } := by
  constructor
  case mapFile => exact hl.mapFile
  case mapSector => exact hl.mapSector
  case directoryFile => exact hl.directoryFile
  case directorySectors => exact hl.directorySectors
  case fits => exact hl.fits
  case owned => exact hl.owned
  case apart => exact hl.apart
  case disjoint => exact hl.disjoint
  case names => exact hl.names
  case marked => exact hl.marked

theorem openAt_kept (hopen : s.OpenAt h k p) (hopened : s'.opened = s.opened)
    (hkept : ∀ i < numDirEntries, ∀ sector, s.slot i = some (k, sector) →
      s'.slot i = some (k, sector) ∧ s'.disk sector = s.disk sector) : s'.OpenAt h k p := by
  obtain ⟨i, hi, sector, hslot, hfile⟩ := hopen
  obtain ⟨hslot', hdisk⟩ := hkept i hi sector hslot
  refine ⟨i, hi, sector, hslot', ?_⟩
  rw [hopened, hfile, FileSystem.header, FileSystem.header, hdisk]

theorem Represents.create (hr : Represents s S) (hsize : size ≤ maxFileSize) :
    Matched s S (.create name size, heap) := by
  have hl := hr.layout
  rcases create_cases hl name hsize heap with ⟨hcreate, hcause⟩ |
    ⟨s', i, sector, hdr, hcreate, hbytes, -, -, hc⟩
  · refine ⟨s, .create name size false, S, by rw [step, hcreate]; rfl, .createFails ?_, hr,
      fun _ _ => rfl, fun _ _ => rfl⟩
    rw [Files.names, hr.contents]
    rcases hcause with ⟨i, sector, hi, hslot⟩ | hfull
    · exact .inl (contents_ne_none.mpr ⟨i, hi, sector, hslot⟩)
    · exact .inr (contents_full hl hfull)
  · obtain ⟨c, hlength, hcontents⟩ := hc.contents hl
    refine ⟨s', .create name size true, s'.files S.handles, by rw [step, hcreate]; rfl, ?_, ?_, ?_⟩
    · refine .create ?_ (hlength.trans hbytes) ?_ rfl ?_
      · rw [hr.contents]
        exact contents_eq_none.mpr hc.absent
      · rw [hr.contents]
        exact hcontents
      · rw [hr.next]
        exact congrArg List.length hc.opened
    · refine ⟨hl.created hc, rfl, rfl, ?_⟩
      intro h k p hhandle
      refine openAt_kept (hr.handles hhandle) hc.opened ?_
      intro j hj sector' hslot
      have hne : j ≠ i := by
        rintro rfl
        rw [hc.was_free] at hslot
        cases hslot
      exact ⟨by rw [hc.slots j hj, if_neg hne, hslot], hc.other_header hl hj hslot⟩
    · refine ⟨i, hc.entry, sector, hc.was_free, hc.slots, ?_⟩
      intro x hx
      rw [hc.map x hx, hc.owns_new]

theorem Represents.openFile (hr : Represents s S) : Matched s S (.openFile name, heap) := by
  have hl := hr.layout
  rcases openFile_cases hl name with ⟨hopen, habsent⟩ | ⟨i, sector, hi, hslot, hopen⟩
  · refine ⟨s, .openFile name none, S, by rw [step, hopen]; rfl, .openFails ?_, hr,
      fun _ _ => rfl, fun _ _ => rfl⟩
    rw [hr.contents]
    exact contents_eq_none.mpr habsent
  · let s' : FileSystem := { s with opened := s.opened ++ [⟨s.header sector, 0⟩] }
    let handles := Function.update S.handles S.next (some (name.key, 0))
    refine ⟨s', .openFile name (some S.next), s'.files handles, ?_, ?_, ?_,
      fun _ _ => rfl, fun _ _ => rfl⟩
    · rw [step, hopen, hr.next]
      rfl
    · refine .openFile ?_ hr.contents.symm rfl ?_
      · rw [hr.contents]
        exact contents_ne_none.mpr ⟨i, hi, sector, hslot⟩
      · rw [hr.next]
        exact List.length_append
    · refine ⟨hl.reopened _, rfl, rfl, ?_⟩
      intro h k p hhandle
      by_cases hnew : h = S.next
      · subst hnew
        have hnow : handles S.next = some (name.key, 0) := Function.update_self ..
        obtain ⟨rfl, rfl⟩ := Prod.mk.inj (Option.some.inj (hnow.symm.trans hhandle))
        refine ⟨i, hi, sector, hslot, ?_⟩
        rw [hr.next]
        exact List.getElem?_concat_length
      · have hold : S.handles h = some (k, p) := by
          rw [← Function.update_of_ne hnew (some (name.key, 0)) S.handles]
          exact hhandle
        obtain ⟨j, hj, sector', hslot', hfile⟩ := hr.handles hold
        refine ⟨j, hj, sector', hslot', ?_⟩
        obtain ⟨hlt, -⟩ := List.getElem?_eq_some_iff.mp hfile
        show (s.opened ++ _)[h]? = _
        rw [List.getElem?_append_left hlt]
        exact hfile

/-- The file behind an open file. -/
theorem Represents.file (hr : Represents s S) (hhandle : S.handles h = some (k, p)) :
    ∃ i < numDirEntries, ∃ sector, s.slot i = some (k, sector) ∧
      s.opened[h]? = some ⟨s.header sector, p⟩ ∧
      S.contents k = some (fileBytes s.disk (s.header sector)) := by
  obtain ⟨i, hi, sector, hslot, hfile⟩ := hr.handles hhandle
  refine ⟨i, hi, sector, hslot, hfile, ?_⟩
  rw [hr.contents]
  exact (contents_eq_some hr.layout).mpr ⟨i, hi, sector, hslot, rfl⟩

theorem Represents.readAt (hr : Represents s S) (hhandle : S.handles h = some (k, p))
    (hno : ¬ RequestOverflows s (.readAt h numBytes position)) :
    Matched s S (.readAt h numBytes position, heap) := by
  obtain ⟨i, hi, sector, hslot, hfile, hcontents⟩ := hr.file hhandle
  have hread := readFileAt_eq hr.layout hi hslot hfile fun hover => hno ⟨_, hfile, hover⟩
  refine ⟨s, _, S, by rw [step, hread]; rfl, .readAt hhandle hcontents, hr, fun _ _ => rfl,
    fun _ _ => rfl⟩

/-- Both tables are elsewhere. -/
theorem Written.tables (hw : Written s s' i) (hl : Layout s) :
    (∀ j < numDirEntries, s'.slot j = s.slot j) ∧ ∀ x < numSectors, s'.freeMap x = s.freeMap x := by
  refine ⟨fun j hj => hw.slot hl hj, ?_⟩
  intro x hx
  rw [FileSystem.freeMap, hw.freeMapFile]
  exact mapOf_congr hl (hw.system hl (by decide)) hx

/-- Open files after a write. -/
theorem Written.openAt (hw : Written s s' i) (hl : Layout s) (hopened : s'.opened = s.opened)
    (hopen : s.OpenAt h k p) : s'.OpenAt h k p := by
  refine openAt_kept hopen hopened ?_
  intro j hj sector hslot
  exact ⟨by rw [hw.slot hl hj, hslot], hw.header hl hj hslot⟩

theorem Represents.writeAt (hr : Represents s S) (hhandle : S.handles h = some (k, p)) (src : Buffer)
    (hno : ¬ RequestOverflows s (.writeAt h src numBytes position)) :
    Matched s S (.writeAt h src numBytes position, heap) := by
  have hl := hr.layout
  obtain ⟨i, hi, sector, hslot, hfile, hcontents⟩ := hr.file hhandle
  obtain ⟨s', hwrite, hw, hopened, hbytes⟩ :=
    writeFileAt_eq hl hi hslot hfile (fun hover => hno ⟨_, hfile, hover⟩) src heap
  refine ⟨s', _, s'.files S.handles, by rw [step, hwrite]; rfl, .writeAt hhandle hcontents ?_ rfl ?_,
    ⟨hl.written hw, rfl, rfl, ?_⟩, hw.tables hl⟩
  · rw [hr.contents, ← hbytes]
    exact hw.contents hl hslot
  · rw [hr.next]
    exact congrArg List.length hopened
  · intro h' k' p' hhandle'
    exact hw.openAt hl hopened (hr.handles hhandle')

/-- Open files after the position of one of them has moved. -/
theorem openAt_seekBy {i : ℕ} (hi : i < numDirEntries)
    (hslot : s.slot i = some (k, sector)) (hfile : s.opened[h]? = some ⟨s.header sector, p⟩) (n : ℕ)
    {handles : ℕ → Option (List UInt8 × ℕ)}
    (hopen : ∀ {h k p}, handles h = some (k, p) → s.OpenAt h k p) {h' p' : ℕ} {k' : List UInt8}
    (hhandle : Function.update handles h (some (k, p + n)) h' = some (k', p')) :
    (s.seekBy h ⟨s.header sector, p⟩ n).OpenAt h' k' p' := by
  by_cases heq : h' = h
  · subst heq
    rw [Function.update_self] at hhandle
    obtain ⟨rfl, rfl⟩ := Prod.mk.inj (Option.some.inj hhandle)
    obtain ⟨hlt, -⟩ := List.getElem?_eq_some_iff.mp hfile
    exact ⟨i, hi, sector, hslot, List.getElem?_set_self hlt⟩
  · rw [Function.update_of_ne heq] at hhandle
    obtain ⟨j, hj, sector', hslot', hfile'⟩ := hopen hhandle
    refine ⟨j, hj, sector', hslot', ?_⟩
    show (s.opened.set h _)[h']? = _
    rw [List.getElem?_set_ne (Ne.symm heq)]
    exact hfile'

theorem Represents.read (hr : Represents s S) (hhandle : S.handles h = some (k, p))
    (hno : ¬ RequestOverflows s (.read h numBytes)) : Matched s S (.read h numBytes, heap) := by
  have hl := hr.layout
  obtain ⟨i, hi, sector, hslot, hfile, hcontents⟩ := hr.file hhandle
  have hread := readFileAt_eq hl hi hslot hfile fun hover => hno ⟨_, hfile, hover⟩
  generalize hc : fileBytes s.disk (s.header sector) = c at hcontents hread
  let s' := s.seekBy h ⟨s.header sector, p⟩ (span c numBytes p)
  let handles := Function.update S.handles h (some (k, p + span c numBytes p))
  refine ⟨s', .read h numBytes (addressed c numBytes p), s'.files handles, ?_,
    .read hhandle hcontents hr.contents.symm rfl ?_, ⟨hl.reopened _, rfl, rfl, ?_⟩,
    fun _ _ => rfl, fun _ _ => rfl⟩
  · simp only [step, FileSystem.readFile, hfile, Option.bind_eq_bind, Option.bind_some, hread,
      length_addressed]
    rfl
  · rw [hr.next]
    exact List.length_set
  · exact openAt_seekBy hi hslot hfile _ hr.handles

theorem Represents.write (hr : Represents s S) (hhandle : S.handles h = some (k, p)) (src : Buffer)
    (hno : ¬ RequestOverflows s (.write h src numBytes)) :
    Matched s S (.write h src numBytes, heap) := by
  have hl := hr.layout
  obtain ⟨i, hi, sector, hslot, hfile, hcontents⟩ := hr.file hhandle
  obtain ⟨s₁, hwrite, hw, hopened, hbytes⟩ :=
    writeFileAt_eq hl hi hslot hfile (fun hover => hno ⟨_, hfile, hover⟩) src heap
  generalize hc : fileBytes s.disk (s.header sector) = c at hcontents hwrite hbytes
  have hheader : s₁.header sector = s.header sector :=
    congrArg FileHeader.ofBytes (hw.header hl hi hslot)
  let s' := s₁.seekBy h ⟨s₁.header sector, p⟩ (span c numBytes p)
  let handles := Function.update S.handles h (some (k, p + span c numBytes p))
  refine ⟨s', .write h src numBytes (span c numBytes p), s'.files handles, ?_,
    .write hhandle hcontents ?_ rfl ?_, ⟨(hl.written hw).reopened _, rfl, rfl, ?_⟩, hw.tables hl⟩
  · simp only [step, FileSystem.writeFile, hfile, Option.bind_eq_bind, Option.bind_some, hwrite,
      ← hheader]
    rfl
  · rw [hr.contents, ← hbytes]
    exact hw.contents hl hslot
  · rw [hr.next, ← hopened]
    exact List.length_set
  · refine openAt_seekBy hi (by rw [hw.slot hl hi, hslot]) ?_ _ ?_
    · rw [hopened, hfile, hheader]
    · intro h' k' p' hhandle'
      exact hw.openAt hl hopened (hr.handles hhandle')

theorem Represents.remove (hr : Represents s S) : Matched s S (.remove name, heap) := by
  have hl := hr.layout
  rcases remove_cases hl name heap with ⟨hremove, habsent⟩ | ⟨s', i, sector, hslot, hremove, hrem⟩
  · refine ⟨s, .remove name false, S, by rw [step, hremove]; rfl, .removeFails ?_, hr,
      fun _ _ => rfl, fun _ _ => rfl⟩
    rw [hr.contents]
    exact contents_eq_none.mpr habsent
  · refine ⟨s', .remove name true,
      s'.files fun h => (S.handles h).filter fun file => file.1 ≠ name.key,
      by rw [step, hremove]; rfl, .remove ?_ ?_ (fun _ => rfl) ?_, ⟨hl.removed hrem, rfl, rfl, ?_⟩,
      i, hrem.entry, sector, hslot, hrem.slots, hrem.map⟩
    · rw [hr.contents]
      exact contents_ne_none.mpr ⟨i, hrem.entry, sector, hslot⟩
    · rw [hr.contents]
      exact hrem.contents hl hslot
    · rw [hr.next]
      exact congrArg List.length hrem.opened
    · intro h k p hhandle
      obtain ⟨hhandle, hne⟩ := Option.filter_eq_some_iff.mp hhandle
      refine openAt_kept (hr.handles hhandle) hrem.opened ?_
      intro j hj sector' hslot'
      refine ⟨?_, hrem.header hl hj hslot'⟩
      rw [hrem.slots j hj, if_neg, hslot']
      rintro rfl
      obtain ⟨rfl, -⟩ := Prod.mk.inj (Option.some.inj (hslot.symm.trans hslot'))
      simp at hne

end Simulation

/-! ## Runs -/

/-- The operation is used as it should be: sizes are possible ones, and an open
file is used only until its file is removed. -/
def WellUsed (tr : List Event) : Op → Prop
  | .create _ initialSize => initialSize ≤ maxFileSize
  | .readAt h _ _ | .writeAt h _ _ _ | .read h _ | .write h _ _ => ∃ k, (h, k) ∈ usable tr
  | .openFile _ | .remove _ => True

/-- Every trace is one of the map, the disk holds that map, and every permitted
operation returns and changes the tables as described. -/
def RefinesMap (ok : List Event → FileSystem → Op × (ℕ → Buffer) → Prop) (s₀ : FileSystem) : Prop :=
  ∀ tr s, Run step ok s₀ tr s → (∃ S, Files.Runs tr S ∧ Represents s S) ∧
    ∀ l, ok tr s l → ∃ s' e, step s l = some (s', e) ∧ TablesAfter s s' e

section Runs

variable {s : FileSystem} {S : Files} {tr : List Event} {l : Op × (ℕ → Buffer)}

theorem Represents.matched (hr : Represents s S) (hknows : S.Knows (usable tr))
    (hused : WellUsed tr l.1) (hno : ¬ RequestOverflows s l.1) : Matched s S l := by
  have hhandle : ∀ {h}, (∃ k, (h, k) ∈ usable tr) → ∃ k p, S.handles h = some (k, p) := by
    rintro h ⟨k, hmem⟩
    exact ⟨k, (hknows h k hmem).2⟩
  obtain ⟨op, heap⟩ := l
  cases op with
  | create name size => exact hr.create hused
  | openFile name => exact hr.openFile
  | readAt h numBytes position =>
      obtain ⟨k, p, hp⟩ := hhandle hused
      exact hr.readAt hp hno
  | writeAt h src numBytes position =>
      obtain ⟨k, p, hp⟩ := hhandle hused
      exact hr.writeAt hp src hno
  | read h numBytes =>
      obtain ⟨k, p, hp⟩ := hhandle hused
      exact hr.read hp hno
  | write h src numBytes =>
      obtain ⟨k, p, hp⟩ := hhandle hused
      exact hr.write hp src hno
  | remove name => exact hr.remove

/-- A new disk holds the empty map. -/
theorem Represents.format {s₀ : FileSystem} (hl : Layout s₀) (hopened : s₀.opened = [])
    (hslots : ∀ i < numDirEntries, s₀.slot i = none) : Represents s₀ .empty := by
  refine ⟨hl, ?_, ?_, ?_⟩
  · funext k
    refine (contents_eq_none.mpr ?_).symm
    intro i hi sector
    rw [hslots i hi]
    simp
  · rw [hopened]
    rfl
  · intro h k p hhandle
    cases hhandle

/-- The condition under which the file system refines the map. -/
def Permitted (tr : List Event) (s : FileSystem) (l : Op × (ℕ → Buffer)) : Prop :=
  WellUsed tr l.1 ∧ ¬ RequestOverflows s l.1

/-- Runs and the map go together. -/
theorem Represents.run {s₀ : FileSystem} (h₀ : Represents s₀ .empty)
    (hrun : Run step Permitted s₀ tr s) : ∃ S, Files.Runs tr S ∧ Represents s S := by
  induction hrun with
  | start => exact ⟨.empty, .start, h₀⟩
  | snoc _ hok hstep ih =>
      obtain ⟨S, hruns, hr⟩ := ih
      obtain ⟨s', e, S', hstep', habs, hr', -⟩ := hr.matched hruns.knows hok.1 hok.2
      obtain ⟨rfl, rfl⟩ := Prod.mk.inj (Option.some.inj (hstep'.symm.trans hstep))
      exact ⟨S', .snoc hruns habs, hr'⟩

/-- **The file system refines the map** as long as no request overflows: formatting
succeeds, whatever the disk and the memory hold before, and from then on every
operation returns what the map returns. -/
theorem file_system_refines_map (d : Disk) (heap : ℕ → Buffer) :
    ∃ s₀, FileSystem.format d heap = some s₀ ∧ RefinesMap Permitted s₀ := by
  obtain ⟨s₀, hformat, hl, hopened, hslots⟩ := format_eq d heap
  refine ⟨s₀, hformat, ?_⟩
  intro tr s hrun
  obtain ⟨S, hruns, hr⟩ := (Represents.format hl hopened hslots).run hrun
  refine ⟨⟨S, hruns, hr⟩, ?_⟩
  intro l hok
  obtain ⟨s', e, -, hstep, -, -, htables⟩ := hr.matched hruns.knows hok.1 hok.2
  exact ⟨s', e, hstep, htables⟩

/-! ## One file of ten bytes -/

/-- The name `a`. -/
def fileA : FileName := ⟨[97], by decide⟩

/-- A file of ten bytes is created and opened. -/
def tenBytes : List Event := [.create fileA 10 true, .openFile fileA (some 0)]

theorem tenBytes_run : ∃ s₀ s file, FileSystem.format (fun _ _ => 0) (fun _ _ => 0) = some s₀ ∧
    Run step Permitted s₀ tenBytes s ∧ s.opened[0]? = some file ∧ file.hdr.numBytes = 10 := by
  obtain ⟨s₀, hformat, hl, hopened, hslots⟩ := format_eq (fun _ _ => 0) (fun _ _ => 0)
  have hsize : 10 ≤ maxFileSize := by decide
  rcases create_cases hl fileA hsize (fun _ _ => 0) with ⟨-, hcause⟩ |
    ⟨s₁, i, sector, hdr, hcreate, hbytes, -, -, hc⟩
  · exfalso
    rcases hcause with ⟨i, sector, hi, hslot⟩ | hfull
    · rw [hslots i hi] at hslot
      cases hslot
    · exact hfull 0 (by decide) (hslots 0 (by decide))
  · have hslot : s₁.slot i = some (fileA.key, sector) := by
      rw [hc.slots i hc.entry, if_pos rfl]
    rcases openFile_cases (hl.created hc) fileA with ⟨-, habsent⟩ | ⟨j, sector', hj, hslot', hopen⟩
    · exact absurd hslot (habsent i hc.entry sector)
    · obtain rfl := (hl.created hc).names hc.entry hj hslot hslot'
      obtain ⟨-, rfl⟩ := Prod.mk.inj (Option.some.inj (hslot.symm.trans hslot'))
      have hnone : s₁.opened = [] := hc.opened.trans hopened
      have hrun₁ : Run step Permitted s₀ [.create fileA 10 true] s₁ := by
        refine Run.snoc (l := (Op.create fileA 10, fun _ _ => 0)) .start ⟨hsize, id⟩ ?_
        rw [step, hcreate]
        rfl
      refine ⟨s₀, { s₁ with opened := s₁.opened ++ [⟨s₁.header sector, 0⟩] },
        ⟨s₁.header sector, 0⟩, hformat, ?_, ?_, ?_⟩
      · refine Run.snoc (l := (Op.openFile fileA, fun _ _ => 0)) hrun₁ ⟨True.intro, id⟩ ?_
        rw [step, hopen, hnone]
        rfl
      · show (s₁.opened ++ _)[0]? = _
        rw [hnone]
        rfl
      · show (FileHeader.ofBytes (s₁.disk sector)).numBytes = 10
        rw [hc.header, hc.fits.reread.1, hbytes]

theorem file_system_refines_map_sample : ∃ s₀ s,
    FileSystem.format (fun _ _ => 0) (fun _ _ => 0) = some s₀ ∧
      Run step Permitted s₀ tenBytes s ∧
      (∃ S, Files.Runs tenBytes S ∧ Represents s S) ∧
      ∃ s' e, step s (.readAt 0 4 8, fun _ _ => 0) = some (s', e) ∧ TablesAfter s s' e := by
  obtain ⟨s₀, s, file, hformat, hrun, hfile, hbytes⟩ := tenBytes_run
  obtain ⟨s₁, hformat₁, hrefines⟩ := file_system_refines_map (fun _ _ => 0) (fun _ _ => 0)
  obtain rfl := Option.some.inj (hformat.symm.trans hformat₁)
  obtain ⟨hmap, hsteps⟩ := hrefines tenBytes s hrun
  refine ⟨s₀, s, hformat, hrun, hmap, hsteps _ ⟨⟨[97], by decide⟩, ?_⟩⟩
  rintro ⟨file', hfile', -, -, hbig⟩
  omega

/-- Reading from position 1 with the largest count there is: the sum overflows,
where the map returns the nine bytes that are left. -/
theorem read_overflows : ∃ s₀ s, FileSystem.format (fun _ _ => 0) (fun _ _ => 0) = some s₀ ∧
    Run step (fun tr _ l => WellUsed tr l.1) s₀ tenBytes s ∧
    WellUsed tenBytes (.readAt 0 2147483647 1) ∧
    (∀ heap, step s (.readAt 0 2147483647 1, heap) = none) ∧
    (∀ S, Files.Runs tenBytes S → ∃ bytes, bytes.length = 9 ∧
      S.Step (.readAt 0 2147483647 1 bytes) S) ∧
    ¬ RefinesMap (fun tr _ l => WellUsed tr l.1) s₀ := by
  obtain ⟨s₀, s, file, hformat, hrun, hfile, hbytes⟩ := tenBytes_run
  have hrun' : Run step (fun tr _ l => WellUsed tr l.1) s₀ tenBytes s := hrun.weaken And.left
  have hused : WellUsed tenBytes (.readAt 0 2147483647 1) := ⟨[97], by decide⟩
  have hnone : ∀ heap, step s (.readAt 0 2147483647 1, heap) = none := by
    intro heap
    have hread : readAt s.disk file.hdr (fun _ => 0) 0 2147483647 1 = none := by
      unfold readAt FileHeader.fileLength
      rw [if_neg (by omega), if_pos (by decide)]
    simp only [step, FileSystem.readFileAt, hfile, Option.bind_eq_bind, Option.bind_some, hread,
      Option.bind_none, Option.map_none]
  refine ⟨s₀, s, hformat, hrun', hused, hnone, ?_, ?_⟩
  · intro S hruns
    have hknows := hruns.knows
    obtain ⟨S₁, hruns, hopen⟩ := Files.Runs.snoc_inv [.create fileA 10 true] hruns
    obtain ⟨S₀, hruns, hcreate⟩ := Files.Runs.snoc_inv [] hruns
    obtain ⟨p, hp⟩ := (hknows 0 fileA.key (by decide)).2
    cases hcreate with
    | @create _ _ _ c _ hlength hcontents _ _ =>
        have hfile' : S.contents fileA.key = some c := by
          rw [hopen.openFile_contents, hcontents, Function.update_self]
        refine ⟨_, ?_, .readAt hp hfile'⟩
        rw [length_addressed, span, hlength]
        decide
  · intro hrefines
    obtain ⟨s', e, hstep, -⟩ := (hrefines tenBytes s hrun').2 (.readAt 0 2147483647 1, fun _ _ => 0) hused
    rw [hnone] at hstep
    cases hstep

end Runs

end Nachos.Filesys
