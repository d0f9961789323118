import Mathlib.Data.List.Range
import Nachos.Lib.CInt
import Nachos.Filesys.Refinement

/-!
# Creating files on any disk

What `Create` does depends on the disk only through the directory and the map, and it
asks nothing of them: they may hold anything. It is followed here for every `int`, also
for sizes that `Allocate` has no room for in a header. The array `dataSectors` is memory
without a bound, and the indexes at which it is used are recorded.
-/

namespace Nachos.Filesys

open Nachos.Lib Nachos.Userprog

/-! ## Sizes -/

/-- The sectors for a file of this size. -/
def sectorCount (fileSize : ℤ) : ℤ := divRoundUpInt fileSize sectorSize

theorem sectorCount_natCast (n : ℕ) : sectorCount n = (divRoundUp n sectorSize : ℕ) :=
  divRoundUpInt_natCast n sectorSize

/-! ## Allocate -/

namespace FileHeader

/-- The loop of `Allocate`; `used` are the indexes into `dataSectors` so far. -/
def fillSectors (h : FileHeader) (freeMap : BitMap) (used : List ℕ) :
    (left i : ℕ) → FileHeader × BitMap × List ℕ
  | 0, _ => (h, freeMap, used)
  | left + 1, i =>
      match BitMap.find Filesys.numSectors freeMap with
      | some k =>
          fillSectors { h with dataSectors := Function.update h.dataSectors i k }
            (freeMap.mark k) (used ++ [i]) left (i + 1)
      -- `-1`
      | none =>
          fillSectors { h with dataSectors := Function.update h.dataSectors i (2 ^ 32 - 1) }
            freeMap (used ++ [i]) left (i + 1)

/-- `Allocate` for any `int`. -/
def allocateAny (h : FileHeader) (freeMap : BitMap) (fileSize : ℤ) :
    Bool × FileHeader × BitMap × List ℕ :=
  let n := sectorCount fileSize
  let h : FileHeader := { h with numBytes := word fileSize, numSectors := word n }
  if (freeMap.numClear Filesys.numSectors : ℤ) < n then (false, h, freeMap, [])
  else (true, h.fillSectors freeMap [] n.toNat 0)

/-- The indexes that `Deallocate` uses. -/
def deallocateIndexes (h : FileHeader) : List ℕ := List.range (signed h.numSectors).toNat

/-- The index that `ByteToSector` uses. -/
def byteToSectorIndex (offset : ℤ) : ℤ := offset.tdiv sectorSize

/-- **The array is long enough**: for the sectors of the file, for giving them back and for
finding the sector of any byte in the file. -/
structure InBounds (h : FileHeader) : Prop where
  count : signed h.numSectors ≤ numDirect
  deallocate : ∀ i ∈ h.deallocateIndexes, i < numDirect
  byteToSector : ∀ offset : ℤ, 0 ≤ offset → offset < signed h.numBytes →
    0 ≤ byteToSectorIndex offset ∧ byteToSectorIndex offset < numDirect

end FileHeader

section Allocate

variable {h : FileHeader} {m : BitMap} {used : List ℕ}

theorem fillSectors_eq (left : ℕ) : ∀ (h : FileHeader) (m : BitMap) (used : List ℕ) (i : ℕ),
    (h.fillSectors m used left i).2.2 = used ++ List.range' i left ∧
      (h.fillSectors m used left i).1.numBytes = h.numBytes ∧
      (h.fillSectors m used left i).1.numSectors = h.numSectors := by
  induction left with
  | zero => exact fun _ _ _ _ => ⟨(List.append_nil _).symm, rfl, rfl⟩
  | succ left ih =>
      intro h m used i
      rw [FileHeader.fillSectors]
      split
      all_goals
        refine ⟨?_, (ih _ _ _ (i + 1)).2⟩
        rw [(ih _ _ _ (i + 1)).1, List.append_assoc, List.range'_succ]
        rfl

/-- Within the array it is the loop that stops at the array's end. -/
theorem fillSectors_refines (left : ℕ) :
    ∀ {h : FileHeader} {m : BitMap} {used : List ℕ} {i : ℕ}, i + left ≤ numDirect →
      h.allocateSectors m left i =
        some ((h.fillSectors m used left i).1, (h.fillSectors m used left i).2.1) := by
  induction left with
  | zero => exact fun _ => rfl
  | succ left ih =>
      intro h m used i hi
      rw [FileHeader.allocateSectors, FileHeader.fillSectors, if_pos (by omega)]
      cases BitMap.find numSectors m with
      | none => exact ih (by omega)
      | some k => exact ih (by omega)

/-- For a size that a header can describe it is `Allocate` as before. -/
theorem allocateAny_refines (h : FileHeader) (m : BitMap) {size : ℕ} (hsize : size ≤ maxFileSize) :
    h.allocate m size =
      some ((h.allocateAny m size).1, (h.allocateAny m size).2.1, (h.allocateAny m size).2.2.1) := by
  have hcount : divRoundUp size sectorSize ≤ numDirect ∧ word size = size ∧
      word (sectorCount size) = divRoundUp size sectorSize := by
    rw [sectorCount_natCast]
    unfold word divRoundUp maxFileSize numDirect sectorSize at *
    split <;> omega
  obtain ⟨hdirect, hbytes, hsectors⟩ := hcount
  have hloop : ∀ h : FileHeader, h.allocateSectors m (divRoundUp size sectorSize) 0 =
      some ((h.fillSectors m [] (divRoundUp size sectorSize) 0).1,
        (h.fillSectors m [] (divRoundUp size sectorSize) 0).2.1) :=
    fun h => fillSectors_refines _ (by omega)
  simp only [FileHeader.allocate, FileHeader.allocateAny, hbytes, hsectors]
  rw [sectorCount_natCast]
  by_cases hspace : m.numClear numSectors < divRoundUp size sectorSize
  · rw [if_pos hspace, if_pos (Int.ofNat_lt.mpr hspace)]
  · rw [if_neg hspace, if_neg (mt Int.ofNat_lt.mp hspace), hloop, Int.toNat_natCast]
    rfl

end Allocate

/-! ## Create -/

/-- What a call of `Create` leaves: the file system, the header of the new file if there is
one, and the indexes into its array that were used. -/
structure Creation where
  system : FileSystem
  made : Option FileHeader
  used : List ℕ

/-- Every index is in the array, now and when the file is used. -/
def Creation.InBounds (c : Creation) : Prop :=
  (∀ i ∈ c.used, i < numDirect) ∧ ∀ h ∈ c.made, h.InBounds

namespace FileSystem

/-- `Create`, once there is a sector for the header and an entry for the name. -/
def createAnyIn (s : FileSystem) (directory : Directory) (freeMap : BitMap) (sector : ℕ)
    (initialSize : ℤ) (heap : ℕ → Buffer) : Option Creation := do
  let (success, hdr, freeMap, used) := (FileHeader.ofBytes (heap 0)).allocateAny freeMap initialSize
  if success then
    let d ← hdr.writeBack s.disk sector
    let d ← directory.writeBack d s.directoryFile.hdr (heap 1)
    let d ← writeBackMap freeMap d s.freeMapFile.hdr (heap 2)
    return ⟨{ s with disk := d }, some hdr, used⟩
  -- no space on disk for data
  else return ⟨s, none, used⟩

/-- `Create` for any `int`. -/
def createAny (s : FileSystem) (name : FileName) (initialSize : ℤ) (heap : ℕ → Buffer) :
    Option Creation := do
  let directory ← Directory.fetchFrom s.disk s.directoryFile.hdr
  match directory.find name with
  -- file is already in directory
  | some _ => return ⟨s, none, []⟩
  | none =>
      let freeMap ← fetchMap s.disk s.freeMapFile.hdr
      match BitMap.find numSectors freeMap with
      -- no free block for file header
      | none => return ⟨s, none, []⟩
      | some sector =>
          match directory.add name sector with
          -- no space in directory
          | none => return ⟨s, none, []⟩
          | some directory =>
              s.createAnyIn directory (freeMap.mark sector) sector initialSize heap

/-- The sectors that the map on the disk says are free. -/
def freeSectors (s : FileSystem) : ℕ := s.freeMap.numClear numSectors

/-- **What stands in the way of a new file** with `n` sectors: its name is there, the
directory is full, there is no sector for the header, or there are not enough for both. -/
inductive Blocked (s : FileSystem) (name : FileName) (n : ℤ) : Prop
  | present {i sector : ℕ} : i < numDirEntries → s.slot i = some (name.key, sector) → Blocked s name n
  | full : (∀ i < numDirEntries, s.slot i ≠ none) → Blocked s name n
  | noHeader : s.freeSectors = 0 → Blocked s name n
  | noSpace : (s.freeSectors : ℤ) < 1 + n → Blocked s name n

/-- `s` has the system files of `s₀` open. Its disk may hold anything. -/
structure Since (s₀ s : FileSystem) : Prop where
  freeMapFile : s.freeMapFile = s₀.freeMapFile
  directoryFile : s.directoryFile = s₀.directoryFile

end FileSystem

/-! ## The system files stay open -/

section Since

variable {s₀ s s' : FileSystem} {name : FileName} {h : ℕ} {heap : ℕ → Buffer} {numBytes : ℤ}

theorem mem_bind {α β : Type} {P : β → Prop} {x : Option α} {f : α → Option β}
    (hf : ∀ a, ∀ b ∈ f a, P b) : ∀ b ∈ x >>= f, P b := by
  intro b hb
  obtain ⟨a, -, hb⟩ := Option.bind_eq_some_iff.mp hb
  exact hf a b hb

theorem mem_pure {β : Type} {P : β → Prop} {x : β} (hx : P x) :
    ∀ b ∈ (pure x : Option β), P b := by
  intro b hb
  obtain rfl := Option.some.inj hb
  exact hx

theorem since_disk (d : Disk) (opened : List OpenFile) :
    s.Since { s with disk := d, opened := opened } := ⟨rfl, rfl⟩

theorem create_since {size : ℕ} : ∀ r ∈ s.create name size heap, s.Since r.1 := by
  refine mem_bind fun directory => ?_
  split
  · exact mem_pure (since_disk ..)
  · refine mem_bind fun freeMap => ?_
    split
    · exact mem_pure (since_disk ..)
    · split
      · exact mem_pure (since_disk ..)
      · refine mem_bind fun r => ?_
        obtain ⟨success, hdr, freeMap⟩ := r
        dsimp only
        split
        · exact mem_bind fun _ => mem_bind fun _ => mem_bind fun _ => mem_pure (since_disk ..)
        · exact mem_pure (since_disk ..)

theorem openFile_since : ∀ r ∈ s.openFile name, s.Since r.1 := by
  refine mem_bind fun directory => ?_
  split
  · exact mem_pure (since_disk ..)
  · exact mem_bind fun _ => mem_pure (since_disk ..)

theorem remove_since : ∀ r ∈ s.remove name heap, s.Since r.1 := by
  refine mem_bind fun directory => ?_
  split
  · exact mem_pure (since_disk ..)
  · exact mem_bind fun _ => mem_bind fun _ => mem_bind fun _ => mem_bind fun _ =>
      mem_bind fun _ => mem_bind fun _ => mem_bind fun _ => mem_pure (since_disk ..)

theorem writeFileAt_since {src : Buffer} {position : ℕ} :
    ∀ r ∈ s.writeFileAt h src numBytes position heap, s.Since r.1 :=
  mem_bind fun _ => mem_bind fun _ => mem_pure (since_disk ..)

theorem readFile_since : ∀ r ∈ s.readFile h numBytes, s.Since r.1 :=
  mem_bind fun _ => mem_bind fun _ => mem_pure (since_disk ..)

theorem writeFile_since {src : Buffer} : ∀ r ∈ s.writeFile h src numBytes heap, s.Since r.1 := by
  refine mem_bind fun file => ?_
  intro r hr
  obtain ⟨t, hwrite, hr⟩ := Option.bind_eq_some_iff.mp hr
  obtain rfl := Option.some.inj hr
  have hsince := writeFileAt_since t hwrite
  exact ⟨hsince.freeMapFile, hsince.directoryFile⟩

/-- No operation opens the system files again. -/
theorem step_since {l : Op × (ℕ → Buffer)} {e : Event} (hstep : step s l = some (s', e)) :
    s.Since s' := by
  obtain ⟨op, heap⟩ := l
  cases op
  all_goals
    obtain ⟨r, hr, heq⟩ := Option.map_eq_some_iff.mp hstep
    obtain ⟨rfl, -⟩ := Prod.mk.inj heq
  case create => exact create_since r hr
  case openFile => exact openFile_since r hr
  case readAt => exact since_disk ..
  case writeAt => exact writeFileAt_since r hr
  case read => exact readFile_since r hr
  case write => exact writeFile_since r hr
  case remove => exact remove_since r hr

/-- **Whatever has been done** to the file system, by any operations at all, the system files
are those it was started with. -/
theorem run_since {ok : List Event → FileSystem → Op × (ℕ → Buffer) → Prop} {tr : List Event}
    (hrun : Run step ok s₀ tr s) : s₀.Since s := by
  induction hrun with
  | start => exact ⟨rfl, rfl⟩
  | snoc _ _ hstep ih =>
      have hsince := step_since hstep
      exact ⟨hsince.freeMapFile.trans ih.freeMapFile, hsince.directoryFile.trans ih.directoryFile⟩

end Since

/-! ## When Create succeeds -/

section Cases

variable {s₀ s : FileSystem} {d : Disk} {heap₀ : ℕ → Buffer}

/-- The two system files are as long as they should be. -/
theorem since_format (hformat : FileSystem.format d heap₀ = some s₀) (hsince : s₀.Since s) :
    MapFile s.freeMapFile.hdr ∧ DirectoryFile s.directoryFile.hdr := by
  obtain ⟨s₁, hformat₁, hl, -⟩ := format_eq d heap₀
  obtain rfl := Option.some.inj (hformat.symm.trans hformat₁)
  rw [hsince.freeMapFile, hsince.directoryFile]
  exact ⟨hl.mapFile, hl.directoryFile⟩

theorem numClear_congr {m m' : BitMap} {n : ℕ} (h : ∀ i < n, m i = m' i) :
    m.numClear n = m'.numClear n := by
  induction n with
  | zero => rfl
  | succ n ih =>
      rw [BitMap.numClear, BitMap.numClear, ih fun i hi => h i (Nat.lt_succ_of_lt hi),
        h n (Nat.lt_succ_self n)]

/-- The directory can be written whatever is in it. -/
theorem writeBackDirectory_some {file : FileHeader} (hdir : DirectoryFile file) (t : Directory)
    (d : Disk) (heap : Buffer) : ∃ d', t.writeBack d file heap = some d' := by
  obtain ⟨d', hwrite, -⟩ := writeAt_whole d heap t.toBytes hdir.toFits
  rw [hdir.length] at hwrite
  exact ⟨d', by rw [Directory.writeBack, hwrite, Option.map_some]⟩

/-- `Create` has got as far as `Allocate`. -/
theorem createAnyIn_cases (hmap : MapFile s.freeMapFile.hdr)
    (hdir : DirectoryFile s.directoryFile.hdr) (t : Directory) {m : BitMap} {sector : ℕ}
    (hsector : sector < numSectors) (size : ℤ) (heap : ℕ → Buffer) :
    ((m.numClear numSectors : ℤ) < sectorCount size ∧
        s.createAnyIn t m sector size heap = some ⟨s, none, []⟩) ∨
      ¬ (m.numClear numSectors : ℤ) < sectorCount size ∧
        ∃ s' hdr, s.createAnyIn t m sector size heap =
            some ⟨s', some hdr, List.range (sectorCount size).toNat⟩ ∧
          hdr.numBytes = word size ∧ hdr.numSectors = word (sectorCount size) := by
  unfold FileSystem.createAnyIn FileHeader.allocateAny
  by_cases hspace : (m.numClear numSectors : ℤ) < sectorCount size
  · left
    refine ⟨hspace, ?_⟩
    simp only [if_pos hspace]
    rfl
  · right
    refine ⟨hspace, ?_⟩
    simp only [if_neg hspace]
    generalize hh₀ : ({ FileHeader.ofBytes (heap 0) with
      numBytes := word size, numSectors := word (sectorCount size) } : FileHeader) = h₀
    obtain ⟨hused, hbytes, hsectors⟩ := fillSectors_eq (sectorCount size).toNat h₀ m [] 0
    generalize h₀.fillSectors m [] (sectorCount size).toNat 0 = r at *
    obtain ⟨hdr, m', used⟩ := r
    dsimp only at hused hbytes hsectors
    obtain ⟨d₂, hd₂⟩ :=
      writeBackDirectory_some hdir t (Function.update s.disk sector hdr.toBytes) (heap 1)
    obtain ⟨d₃, hd₃, -⟩ := writeBackMap_eq hmap m' d₂ (heap 2)
    refine ⟨{ s with disk := d₃ }, hdr, ?_, ?_, ?_⟩
    · rw [hused, List.nil_append, ← List.range_eq_range']
      simp only [writeHeader_eq hdr s.disk hsector, hd₂, hd₃, Option.bind_eq_bind,
        Option.bind_some, if_true]
      rfl
    · rw [hbytes, ← hh₀]
    · rw [hsectors, ← hh₀]

/-- **`Create` of any size on any disk**: it is blocked and leaves everything as it was, or
there is a new file with as many sectors as its size asks for. -/
theorem createAny_cases (hmap : MapFile s.freeMapFile.hdr)
    (hdir : DirectoryFile s.directoryFile.hdr) (name : FileName) (size : ℤ) (heap : ℕ → Buffer) :
    (s.Blocked name (sectorCount size) ∧ s.createAny name size heap = some ⟨s, none, []⟩) ∨
      ¬ s.Blocked name (sectorCount size) ∧
        ∃ s' hdr, s.createAny name size heap =
            some ⟨s', some hdr, List.range (sectorCount size).toNat⟩ ∧
          hdr.numBytes = word size ∧ hdr.numSectors = word (sectorCount size) := by
  obtain ⟨t, ht, hslots⟩ := fetchDirectory_eq hdir s.disk
  obtain ⟨m, hm, hbits⟩ := fetchMap_eq hmap s.disk
  have hslots : ∀ i < numDirEntries, t.slot i = s.slot i := hslots
  have hclear : m.numClear numSectors = s.freeSectors := numClear_congr hbits
  unfold FileSystem.createAny
  simp only [ht, Option.bind_eq_bind, Option.bind_some]
  rcases Layout.find_cases hslots name with ⟨hindex, hfind, habsent⟩ |
    ⟨i, sector, hi, -, hfind, hslot⟩
  · simp only [hfind, hm, Option.bind_some]
    cases hsector : BitMap.find numSectors m with
    | none =>
        refine .inl ⟨.noHeader ?_, rfl⟩
        rw [← hclear]
        by_contra hne
        obtain ⟨k, hk⟩ := BitMap.find_of_numClear (Nat.pos_of_ne_zero hne)
        rw [hk] at hsector
        cases hsector
    | some sector =>
        obtain ⟨hlt, hfree, -⟩ := BitMap.find_some hsector
        have hcount := BitMap.numClear_mark hlt hfree
        dsimp only
        rcases Directory.add_cases hindex sector with ⟨hadd, hfull⟩ | ⟨t', i, hadd, hi, hnone, -⟩
        · refine .inl ⟨.full ?_, by rw [hadd]; rfl⟩
          intro i hi
          rw [← hslots i hi]
          exact hfull i hi
        · rw [hadd]
          dsimp only
          rcases createAnyIn_cases hmap hdir t' hlt size heap with
            ⟨hspace, hcreate⟩ | ⟨hspace, hcreate⟩
          · exact .inl ⟨.noSpace (by omega), hcreate⟩
          · refine .inr ⟨?_, hcreate⟩
            rintro (⟨hj, hslot⟩ | hfull | hzero | hfew)
            · exact habsent _ hj _ hslot
            · refine hfull i hi ?_
              rw [← hslots i hi]
              exact hnone
            · omega
            · omega
  · exact .inl ⟨.present hi hslot, by rw [hfind]; rfl⟩

end Cases

/-! ## Failure leaves no trace -/

section Atomicity

variable {s₀ s : FileSystem} {d : Disk} {heap₀ : ℕ → Buffer}

/-- For a size that a header can describe it is `Create` as before. -/
theorem create_refines (s : FileSystem) (name : FileName) {size : ℕ} (hsize : size ≤ maxFileSize)
    (heap : ℕ → Buffer) :
    s.create name size heap =
      (s.createAny name size heap).map fun c => (c.system, c.made.isSome) := by
  unfold FileSystem.create FileSystem.createAny
  simp only [Option.bind_eq_bind, Option.map_bind]
  congr 1
  funext directory
  dsimp only [Function.comp]
  cases directory.find name with
  | some sector => rfl
  | none =>
      simp only [Option.map_bind]
      congr 1
      funext freeMap
      dsimp only [Function.comp]
      cases BitMap.find numSectors freeMap with
      | none => rfl
      | some sector =>
          dsimp only
          cases directory.add name sector with
          | none => rfl
          | some directory =>
              simp only [FileSystem.createIn, FileSystem.createAnyIn,
                allocateAny_refines _ _ hsize, Option.bind_eq_bind, Option.bind_some]
              split
              · simp only [Option.map_bind, Function.comp_def]
                rfl
              · rfl

/-- **`Create` is atomic**: on any disk, it returns; if it returns `FALSE` nothing has changed,
and it returns `TRUE` exactly when nothing stands in the way of the file. -/
theorem create_atomic (hformat : FileSystem.format d heap₀ = some s₀) (hsince : s₀.Since s)
    (name : FileName) {size : ℕ} (hsize : size ≤ maxFileSize) (heap : ℕ → Buffer) :
    ∃ s' success, s.create name size heap = some (s', success) ∧
      (success = false → s' = s) ∧
      (success = true ↔ ¬ s.Blocked name (divRoundUp size sectorSize : ℕ)) := by
  obtain ⟨hmap, hdir⟩ := since_format hformat hsince
  rw [create_refines s name hsize, ← sectorCount_natCast]
  rcases createAny_cases hmap hdir name size heap with
    ⟨hblocked, hcreate⟩ | ⟨hblocked, s', hdr, hcreate, -⟩
  · refine ⟨s, false, by rw [hcreate]; rfl, fun _ => rfl, ?_⟩
    exact ⟨fun h => Bool.noConfusion h, fun h => absurd hblocked h⟩
  · refine ⟨s', true, by rw [hcreate]; rfl, fun h => Bool.noConfusion h, ?_⟩
    exact ⟨fun _ => hblocked, fun _ => rfl⟩

theorem create_atomic_sample : ∃ s₀ s' success,
    FileSystem.format (fun _ _ => 0) (fun _ _ => 0) = some s₀ ∧
      s₀.create fileA 10 (fun _ _ => 0) = some (s', success) ∧ (success = false → s' = s₀) ∧
      (success = true ↔ ¬ s₀.Blocked fileA (divRoundUp 10 sectorSize : ℕ)) := by
  obtain ⟨s₀, hformat, -⟩ := format_eq (fun _ _ => 0) (fun _ _ => 0)
  obtain ⟨s', success, hcreate, hsame, hiff⟩ :=
    create_atomic hformat ⟨rfl, rfl⟩ fileA (show 10 ≤ maxFileSize by decide) fun _ _ => 0
  exact ⟨s₀, s', success, hformat, hcreate, hsame, hiff⟩

end Atomicity

/-! ## Room in the header -/

section Bounds

variable {s₀ s : FileSystem} {d : Disk} {heap₀ : ℕ → Buffer} {size : ℤ}

/-- A header with as many sectors as its size asks for has room for them or not. -/
theorem inBounds_iff (hint : -2 ^ 31 ≤ size ∧ size < 2 ^ 31) {s' : FileSystem} {hdr : FileHeader}
    (hbytes : hdr.numBytes = word size) (hsectors : hdr.numSectors = word (sectorCount size)) :
    Creation.InBounds ⟨s', some hdr, List.range (sectorCount size).toNat⟩ ↔
      sectorCount size ≤ numDirect := by
  have hcases : size ≤ 0 ∧ size ≤ sectorCount size ∧ sectorCount size ≤ 0 ∨
      0 < size ∧ size ≤ 128 * sectorCount size ∧ 128 * sectorCount size < size + 128 :=
    divRoundUpInt_cases size (show 0 < sectorSize by decide)
  have hlength : signed hdr.numBytes = size := by
    rw [hbytes, signed_word hint]
  have hcount : signed hdr.numSectors = sectorCount size := by
    rw [hsectors, signed_word (by omega)]
  constructor
  · rintro ⟨-, hmade⟩
    rw [← hcount]
    exact (hmade hdr rfl).count
  · intro hroom
    have hrange : ∀ i ∈ List.range (sectorCount size).toNat, i < numDirect := by
      intro i hi
      have hlt := List.mem_range.mp hi
      omega
    refine ⟨hrange, ?_⟩
    intro h hh
    obtain rfl := Option.some.inj hh
    constructor
    · rw [hcount]
      exact hroom
    · rw [FileHeader.deallocateIndexes, hcount]
      exact hrange
    · intro offset hnonneg hlt
      rw [hlength] at hlt
      unfold FileHeader.byteToSectorIndex sectorSize
      unfold numDirect at *
      rw [Int.tdiv_eq_ediv_of_nonneg hnonneg]
      omega

/-- **The array in the header is long enough** exactly when the size asks for at most `NumDirect`
sectors, or the file is not made for another reason. `Allocate` looks only at the sectors that
are free. -/
theorem header_bounds (hformat : FileSystem.format d heap₀ = some s₀) (hsince : s₀.Since s)
    (name : FileName) (size : ℤ) (hint : -2 ^ 31 ≤ size ∧ size < 2 ^ 31) (heap : ℕ → Buffer) :
    ∃ c, s.createAny name size heap = some c ∧
      (c.InBounds ↔ sectorCount size ≤ numDirect ∨ s.Blocked name (sectorCount size)) := by
  obtain ⟨hmap, hdir⟩ := since_format hformat hsince
  rcases createAny_cases hmap hdir name size heap with
    ⟨hblocked, hcreate⟩ | ⟨hblocked, s', hdr, hcreate, hbytes, hsectors⟩
  · refine ⟨_, hcreate, ?_⟩
    constructor
    · exact fun _ => .inr hblocked
    · exact fun _ => ⟨fun i hi => absurd hi List.not_mem_nil, fun h hh => nomatch hh⟩
  · refine ⟨_, hcreate, ?_⟩
    rw [inBounds_iff hint hbytes hsectors]
    constructor
    · exact .inl
    · exact fun h => h.resolve_right hblocked

theorem header_bounds_sample : ∃ s₀ c,
    FileSystem.format (fun _ _ => 0) (fun _ _ => 0) = some s₀ ∧
      s₀.createAny fileA (-200) (fun _ _ => 0) = some c ∧
      (c.InBounds ↔ sectorCount (-200) ≤ numDirect ∨ s₀.Blocked fileA (sectorCount (-200))) := by
  obtain ⟨s₀, hformat, -⟩ := format_eq (fun _ _ => 0) (fun _ _ => 0)
  obtain ⟨c, hcreate, hiff⟩ :=
    header_bounds hformat ⟨rfl, rfl⟩ fileA (-200) (by decide) fun _ _ => 0
  exact ⟨s₀, c, hformat, hcreate, hiff⟩

/-- On a new disk all sectors but the first five are free. -/
theorem freeSectors_format (hl : Layout s) (hslots : ∀ i < numDirEntries, s.slot i = none) :
    s.freeSectors = 1019 := by
  have hbits : ∀ x < numSectors, s.freeMap x = systemMap x := by
    intro x hx
    rw [Bool.eq_iff_iff, hl.marked hx, systemMap_iff]
    constructor
    · rintro (hlt | ⟨i, hi, k, sector, hslot, -⟩)
      · exact hlt
      · rw [hslots i hi] at hslot
        cases hslot
    · exact .inl
  rw [FileSystem.freeSectors, numClear_congr hbits]
  decide +kernel

/-- A file of 5000 bytes on a new disk: the header is made, and the array used past its end. -/
theorem header_overrun : ∃ s₀ c,
    FileSystem.format (fun _ _ => 0) (fun _ _ => 0) = some s₀ ∧
      s₀.createAny fileA 5000 (fun _ _ => 0) = some c ∧
      c.made.isSome ∧ numDirect ∈ c.used ∧ ¬ c.InBounds := by
  obtain ⟨s₀, hformat, hl, -, hslots⟩ := format_eq (fun _ _ => 0) (fun _ _ => 0)
  have hfree := freeSectors_format hl hslots
  have hcount : sectorCount 5000 = 40 := by decide
  have hsince : s₀.Since s₀ := ⟨rfl, rfl⟩
  obtain ⟨hmap, hdir⟩ := since_format hformat hsince
  rcases createAny_cases hmap hdir fileA 5000 fun _ _ => 0 with
    ⟨hblocked, -⟩ | ⟨-, s', hdr, hcreate, hbytes, hsectors⟩
  · exfalso
    rw [hcount] at hblocked
    rcases hblocked with ⟨hi, hslot⟩ | hfull | hzero | hfew
    · rw [hslots _ hi] at hslot
      cases hslot
    · exact hfull 0 (by decide) (hslots 0 (by decide))
    · omega
    · omega
  · refine ⟨s₀, _, hformat, hcreate, rfl, ?_, ?_⟩
    · rw [hcount]
      exact List.mem_range.mpr (by decide)
    · rw [inBounds_iff (by decide) hbytes hsectors, hcount]
      decide

end Bounds

end Nachos.Filesys
