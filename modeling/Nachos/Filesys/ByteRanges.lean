import Mathlib.Algebra.BigOperators.Group.List.Basic
import Nachos.Filesys.FileSystem

/-!
# Byte ranges of a file

`ReadAt` and `WriteAt` transfer the part of a range that lies in the file, whatever
the alignment of its ends. So a file that is written piece by piece from its
beginning ends up as if it had been written at once.
-/

namespace Nachos.Filesys

open Nachos.Lib

/-! ## Pieces -/

/-- `Write` of one piece of `src` after the other, the first one at `src + done`. Every
piece comes with what its call finds in the memory it allocates. -/
def FileSystem.writeChunks (handle : ℕ) (src : Buffer) :
    FileSystem → (done : ℕ) → List (ℕ × (ℕ → Buffer)) → Option FileSystem
  | s, _, [] => some s
  | s, done, (n, heap) :: chunks =>
      (s.writeFile handle (fun o => src (done + o)) n heap).bind fun r =>
        writeChunks handle src r.1 (done + n) chunks

/-- The length of all pieces together. -/
def chunkBytes (chunks : List (ℕ × (ℕ → Buffer))) : ℕ := (chunks.map Prod.fst).sum

theorem chunkBytes_cons (n : ℕ) (heap : ℕ → Buffer) (chunks : List (ℕ × (ℕ → Buffer))) :
    chunkBytes ((n, heap) :: chunks) = n + chunkBytes chunks := by
  rw [chunkBytes, List.map_cons, List.sum_cons]
  rfl

/-! ## What a range is -/

section Ranges

variable (d : Disk) (h : FileHeader) (numBytes : ℤ) (position n : ℕ)

/-- `ReadAt` returns `n` and the bytes of the file from `position` on. -/
def ReadsRange : Prop :=
  ∀ into q, ∃ into', readAt d h into q numBytes position = some (into', n) ∧
    ∀ o, into' o = if q ≤ o ∧ o < q + n then fileByte d h (position + (o - q)) else into o

/-- From `d` to `d'` the `n` bytes of the file at `position` have become those of `src`, and
neither another byte of the file nor a sector that is not the file's has changed. -/
structure Overwritten (d' : Disk) (src : Buffer) : Prop where
  bytes : ∀ i < h.numBytes, fileByte d' h i =
    if position ≤ i ∧ i < position + n then src (i - position) else fileByte d h i
  other : ∀ x, (∀ i < h.numSectors, x ≠ h.dataSectors i) → d' x = d x

/-- Two files that share no sector. -/
def Apart (h' : FileHeader) : Prop :=
  ∀ i < h.numSectors, ∀ j < h'.numSectors, h'.dataSectors j ≠ h.dataSectors i

/-- `WriteAt` returns `n` and changes just these bytes; other files keep all of theirs. -/
def WritesRange : Prop :=
  ∀ heap src, ∃ d', writeAt d h heap src numBytes position = some (d', n) ∧
    Overwritten d h position n d' src ∧
    ∀ h' : FileHeader, h'.Fits → Apart h h' → ∀ i < h'.numBytes, fileByte d' h' i = fileByte d h' i

end Ranges

section Writing

variable {d d' : Disk} {h h' : FileHeader} {numBytes : ℤ} {position n : ℕ} {src : Buffer}

/-- A file that shares no sector with the one written keeps its bytes. -/
theorem Overwritten.other_file (hw : Overwritten d h position n d' src) (hfits : h'.Fits)
    (hapart : Apart h h') {i : ℕ} (hi : i < h'.numBytes) : fileByte d' h' i = fileByte d h' i := by
  have hsector : i / sectorSize < h'.numSectors := by
    apply (hfits.sector_lt _).1
    unfold sectorSize
    omega
  rw [fileByte, fileByte, hw.other]
  intro j hj
  exact hapart j hj _ hsector

theorem not_overflows (hrange : position + numBytes < 2 ^ 31) :
    ¬ Overflows h numBytes position := by
  rintro ⟨-, -, hbig⟩
  omega

/-- How many bytes both calls move, for every `int`. -/
theorem transferred_int (h : FileHeader) (numBytes : ℤ) (position : ℕ) :
    (transferred h numBytes position : ℤ) = max 0 (min numBytes (h.numBytes - position)) := by
  unfold transferred
  omega

theorem readsRange (d : Disk) (numBytes : ℤ) (position : ℕ) (hfits : h.Fits)
    (hrange : position + numBytes < 2 ^ 31) :
    ReadsRange d h numBytes position (transferred h numBytes position) := by
  intro into q
  exact readAt_eq d into q hfits (not_overflows hrange)

theorem writesRange (d : Disk) (numBytes : ℤ) (position : ℕ) (hfits : h.Fits)
    (hrange : position + numBytes < 2 ^ 31) :
    WritesRange d h numBytes position (transferred h numBytes position) := by
  intro heap src
  obtain ⟨d', hwrite, hother, hbytes⟩ :=
    writeAt_eq d heap src hfits (not_overflows hrange)
  have hover : Overwritten d h position (transferred h numBytes position) d' src := ⟨hbytes, hother⟩
  exact ⟨d', hwrite, hover, fun h' hfits' hapart i hi => hover.other_file hfits' hapart hi⟩

/-! ## Writing in pieces -/

/-- Two ranges that follow each other are one. -/
theorem Overwritten.append {d₁ d₂ : Disk} {n₁ n₂ : ℕ}
    (h₁ : Overwritten d h position n₁ d₁ src)
    (h₂ : Overwritten d₁ h (position + n₁) n₂ d₂ fun o => src (n₁ + o)) :
    Overwritten d h position (n₁ + n₂) d₂ src := by
  constructor
  case bytes =>
    intro i hi
    rw [h₂.bytes i hi, h₁.bytes i hi]
    by_cases hlater : position + n₁ ≤ i ∧ i < position + n₁ + n₂
    · rw [if_pos hlater, if_pos (by omega)]
      congr 1
      omega
    · rw [if_neg hlater]
      by_cases hearlier : position ≤ i ∧ i < position + n₁
      · rw [if_pos hearlier, if_pos (by omega)]
      · rw [if_neg hearlier, if_neg (by omega)]
  case other =>
    intro x hx
    rw [h₂.other x hx, h₁.other x hx]

/-- Past the end of the file there is nothing to write. -/
theorem Overwritten.congr {position' n' : ℕ} (hw : Overwritten d h position n d' src)
    {src' : Buffer}
    (hsame : ∀ i < h.numBytes, (position ≤ i ∧ i < position + n ↔
      position' ≤ i ∧ i < position' + n') ∧
      (position ≤ i → i < position + n → src (i - position) = src' (i - position'))) :
    Overwritten d h position' n' d' src' := by
  refine ⟨?_, hw.other⟩
  intro i hi
  obtain ⟨hiff, hsrc⟩ := hsame i hi
  rw [hw.bytes i hi]
  by_cases hin : position ≤ i ∧ i < position + n
  · rw [if_pos hin, if_pos (hiff.mp hin), hsrc hin.1 hin.2]
  · rw [if_neg hin, if_neg (mt hiff.mpr hin)]

/-- One `Write`: the bytes go to the position of the open file, which moves on. -/
theorem writeFile_range {s : FileSystem} {handle : ℕ} (hfits : h.Fits)
    (hopen : s.opened[handle]? = some ⟨h, position⟩) (numBytes : ℤ)
    (hrange : position + numBytes < 2 ^ 31) (src : Buffer) (heap : ℕ → Buffer) :
    ∃ s', s.writeFile handle src numBytes heap =
        some (s', transferred h numBytes position) ∧
      s'.opened[handle]? = some ⟨h, position + transferred h numBytes position⟩ ∧
      Overwritten s.disk h position (transferred h numBytes position) s'.disk src := by
  obtain ⟨d', hwrite, hover, -⟩ := writesRange s.disk numBytes position hfits hrange (heap 0) src
  obtain ⟨hlt, -⟩ := List.getElem?_eq_some_iff.mp hopen
  refine ⟨{ s with disk := d' }.seekBy handle ⟨h, position⟩ (transferred h numBytes position),
    ?_, ?_, hover⟩
  · simp only [FileSystem.writeFile, FileSystem.writeFileAt, hopen, hwrite, Option.bind_eq_bind,
      Option.bind_some]
    rfl
  · exact List.getElem?_set_self hlt

/-- **The pieces so far**, by induction on the pieces: the position is behind the last one,
or at the end of the file. -/
theorem writeChunks_range {handle : ℕ} (hfits : h.Fits) (src : Buffer)
    (chunks : List (ℕ × (ℕ → Buffer))) :
    ∀ {s : FileSystem} {done : ℕ}, s.opened[handle]? = some ⟨h, min done h.numBytes⟩ →
      done + chunkBytes chunks < 2 ^ 31 →
      ∃ s', FileSystem.writeChunks handle src s done chunks = some s' ∧
        Overwritten s.disk h done (chunkBytes chunks) s'.disk fun o => src (done + o) := by
  induction chunks with
  | nil =>
      intro s done _ _
      refine ⟨s, rfl, ?_, fun _ _ => rfl⟩
      intro i _
      rw [if_neg (by change ¬ (done ≤ i ∧ i < done + 0); omega)]
  | cons chunk chunks ih =>
      obtain ⟨n, heap⟩ := chunk
      intro s done hopen hbound
      rw [chunkBytes_cons] at hbound ⊢
      obtain ⟨s₁, hwrite, hopen₁, hover₁⟩ := writeFile_range hfits hopen n
        (by omega) (fun o => src (done + o)) heap
      have hposition : min done h.numBytes + transferred h n (min done h.numBytes) =
          min (done + n) h.numBytes := by
        unfold transferred
        omega
      rw [hposition] at hopen₁
      obtain ⟨s', hrest, hover₂⟩ := ih hopen₁ (by omega)
      refine ⟨s', ?_, ?_⟩
      · rw [FileSystem.writeChunks, hwrite, Option.bind_some]
        exact hrest
      · have hover : Overwritten s.disk h done n s₁.disk fun o => src (done + o) := by
          refine hover₁.congr ?_
          intro i hi
          unfold transferred
          constructor
          · omega
          · intro hle hlt
            congr 2
            omega
        refine hover.append (hover₂.congr ?_)
        intro i _
        refine ⟨Iff.rfl, fun hle _ => ?_⟩
        congr 1
        omega

end Writing

/-- Two ways of writing have left the same file. -/
def SameFile (h : FileHeader) (d₁ d₂ : Disk) : Prop :=
  (∀ i < h.numBytes, fileByte d₁ h i = fileByte d₂ h i) ∧
    ∀ x, (∀ i < h.numSectors, x ≠ h.dataSectors i) → d₁ x = d₂ x

/-- Writing `src` in pieces through a handle that is at the beginning of the file leaves
the file that one `WriteAt` leaves. -/
def ChunksAgree (d : Disk) (h : FileHeader) : Prop :=
  ∀ (s : FileSystem) (handle : ℕ) (src : Buffer) (chunks : List (ℕ × (ℕ → Buffer))) (heap : Buffer),
    s.disk = d → s.opened[handle]? = some ⟨h, 0⟩ → chunkBytes chunks < 2 ^ 31 →
    ∃ s' d' n, FileSystem.writeChunks handle src s 0 chunks = some s' ∧
      writeAt d h heap src (chunkBytes chunks) 0 = some (d', n) ∧ SameFile h s'.disk d'

theorem chunksAgree (d : Disk) {h : FileHeader} (hfits : h.Fits) : ChunksAgree d h := by
  rintro s handle src chunks heap rfl hopen hbound
  have hstart : s.opened[handle]? = some ⟨h, min 0 h.numBytes⟩ := by
    rw [Nat.zero_min]
    exact hopen
  obtain ⟨s', hchunks, hover⟩ := writeChunks_range hfits src chunks hstart (by omega)
  obtain ⟨d', hwrite, hover', -⟩ :=
    writesRange s.disk (chunkBytes chunks) 0 hfits (by omega) heap src
  refine ⟨s', d', _, hchunks, hwrite, ?_, ?_⟩
  · intro i hi
    rw [hover.bytes i hi, hover'.bytes i hi]
    unfold transferred
    by_cases hin : i < chunkBytes chunks
    · rw [if_pos (by omega), if_pos (by omega)]
      congr 1
      omega
    · rw [if_neg (by omega), if_neg (by omega)]
  · intro x hx
    rw [hover.other x hx, hover'.other x hx]

/-- **`ReadAt` and `WriteAt` on byte ranges**: both transfer the part of the range that is in
the file and touch nothing else, and writing in pieces is writing at once. -/
theorem byte_ranges (d : Disk) {h : FileHeader} (hfits : h.Fits) (numBytes : ℤ) (position : ℕ)
    (hrange : position + numBytes < 2 ^ 31) :
    ∃ n : ℕ, (n : ℤ) = max 0 (min numBytes (h.numBytes - position)) ∧
      ReadsRange d h numBytes position n ∧ WritesRange d h numBytes position n ∧
      ChunksAgree d h :=
  ⟨transferred h numBytes position, transferred_int h numBytes position,
    readsRange d numBytes position hfits hrange, writesRange d numBytes position hfits hrange,
    chunksAgree d hfits⟩

/-- A file of 200 bytes in the sectors 5 and 6. -/
def twoSectors : FileHeader := ⟨200, 2, fun i => i + 5⟩

theorem twoSectors_fits : twoSectors.Fits := by
  constructor
  · show 200 ≤ maxFileSize
    decide
  · show 2 = divRoundUp 200 sectorSize
    decide
  · intro i hi
    have hi : i < 2 := hi
    show i + 5 < numSectors
    unfold numSectors
    omega
  · intro i j _ _ heq
    exact Nat.add_right_cancel heq

theorem byte_ranges_sample : ∃ n : ℕ, (n : ℤ) = max 0 (min 150 ((200 : ℕ) - (100 : ℕ))) ∧
    ReadsRange (fun _ _ => 0) twoSectors 150 100 n ∧
    WritesRange (fun _ _ => 0) twoSectors 150 100 n ∧ ChunksAgree (fun _ _ => 0) twoSectors :=
  byte_ranges (fun _ _ => 0) twoSectors_fits 150 100 (by decide)

end Nachos.Filesys
