import Mathlib.Data.List.ReduceOption
import Nachos.Filesys.Reopen

/-!
# Commands on files

`Copy`, `Print` and `PerformanceTest` of `filesys/fstest.cc`, which the command line calls, and
`Remove`. They move a file in pieces of ten bytes, over whatever boundaries of sectors. Nachos is
started for every command line.

A file that is opened here stays on the list of open files; deleting the `OpenFile` frees memory
and nothing else. The UNIX file is what it holds, if it can be opened.
-/

namespace Nachos.Filesys

open Nachos.Lib Nachos.Userprog

/-! ## The commands -/

/-- `TransferSize`. -/
def transferSize : ℕ := 10

namespace FileSystem

/-- The loop of `Copy`: `rest` is what `fread` has not read yet. -/
def copyLoop (heaps : ℕ → ℕ → Buffer) (h : ℕ) :
    ℕ → List UInt8 → FileSystem → Option (FileSystem)
  | 0, _, _ => none
  | fuel + 1, rest, s =>
      let buffer := rest.take transferSize
      if buffer = [] then some s
      else
        (s.writeFile h (.ofList buffer) buffer.length (heaps fuel)).bind fun r =>
          copyLoop heaps h fuel (rest.drop transferSize) r.1

/-- The loop of `Print`: what is printed. -/
def printLoop (h : ℕ) : ℕ → FileSystem → Option (FileSystem × List UInt8)
  | 0, _ => none
  | fuel + 1, s =>
      (s.readFile h transferSize).bind fun r =>
        if r.2 = [] then some (r.1, [])
        else (printLoop h fuel r.1).map fun r' => (r'.1, r.2 ++ r'.2)

end FileSystem

inductive CopyResult where
  | copied
  /-- `Copy: couldn't open input file`. -/
  | noInput
  /-- `Copy: couldn't create output file`. -/
  | noOutput
deriving DecidableEq, Repr

namespace FileSystem

def copy (s : FileSystem) (content : Option (List UInt8)) (name : FileName)
    (heaps : ℕ → ℕ → Buffer) : Option (FileSystem × CopyResult) :=
  match content with
  | none => some (s, .noInput)
  | some content => do
      let (s, success) ← s.create name content.length (heaps 0)
      if success then
        let (s, openFile) ← s.openFile name
        -- `ASSERT(openFile != NULL)`
        let h ← openFile
        let s ← s.copyLoop (fun k => heaps (k + 1)) h (content.length + 1) content
        return (s, .copied)
      else return (s, .noOutput)

/-- `Print`: what is printed, if the file can be opened. A file has `maxFileSize` bytes at most,
and every round of the loop but the last one gets one of them. -/
def print (s : FileSystem) (name : FileName) : Option (FileSystem × Option (List UInt8)) := do
  let (s, openFile) ← s.openFile name
  match openFile with
  | none => return (s, none)
  | some h =>
      let (s, output) ← s.printLoop h (maxFileSize + 1)
      return (s, some output)

end FileSystem

/-! ## The performance test -/

/-- `FileName`: `TestFile`. -/
def perfFileName : FileName := ⟨[84, 101, 115, 116, 70, 105, 108, 101], by decide⟩

/-- `Contents`: `1234567890`. -/
def perfContents : List UInt8 := [49, 50, 51, 52, 53, 54, 55, 56, 57, 48]

/-- How often `Contents` is written and read: `FileSize / ContentSize`. -/
def perfRounds : ℕ := 5000

/-- `Perf test: ...`. -/
inductive PerfMessage where
  | cannotCreate
  | unableToOpen
  | unableToWrite
  | unableToRead
  | unableToRemove
deriving DecidableEq, Repr

namespace FileSystem

/-- The loop of `FileWrite`, and whether it came to its end. -/
def fileWriteLoop (heaps : ℕ → ℕ → Buffer) (h : ℕ) :
    ℕ → FileSystem → Option (FileSystem × Bool)
  | 0, s => some (s, true)
  | left + 1, s =>
      (s.writeFile h (.ofList perfContents) perfContents.length (heaps left)).bind fun r =>
        if r.2 < 10 then some (r.1, false) else fileWriteLoop heaps h left r.1

/-- The loop of `FileRead`. -/
def fileReadLoop (h : ℕ) : ℕ → FileSystem → Option (FileSystem × Bool)
  | 0, s => some (s, true)
  | left + 1, s =>
      (s.readFile h perfContents.length).bind fun r =>
        if r.2.length < 10 ∨ r.2 ≠ perfContents then some (r.1, false)
        else fileReadLoop h left r.1

def fileWrite (s : FileSystem) (heaps : ℕ → ℕ → Buffer) :
    Option (FileSystem × List PerfMessage) := do
  let (s, success) ← s.create perfFileName 0 (heaps 0)
  if success then
    let (s, openFile) ← s.openFile perfFileName
    match openFile with
    | none => return (s, [.unableToOpen])
    | some h =>
        let (s, done) ← s.fileWriteLoop (fun k => heaps (k + 1)) h perfRounds
        return (s, if done then [] else [.unableToWrite])
  else return (s, [.cannotCreate])

def fileRead (s : FileSystem) : Option (FileSystem × List PerfMessage) := do
  let (s, openFile) ← s.openFile perfFileName
  match openFile with
  | none => return (s, [.unableToRead])
  | some h =>
      let (s, done) ← s.fileReadLoop h perfRounds
      return (s, if done then [] else [.unableToRead])

/-- `PerformanceTest`; what the statistics print is left out. -/
def performanceTest (s : FileSystem) (heaps : ℕ → ℕ → Buffer) :
    Option (FileSystem × List PerfMessage) := do
  let (s, written) ← s.fileWrite heaps
  let (s, read) ← s.fileRead
  let (s, success) ← s.remove perfFileName (heaps (perfRounds + 1))
  return (s, written ++ read ++ if success then [] else [.unableToRemove])

end FileSystem

/-! ## A command line -/

inductive Command where
  /-- `-cp`. -/
  | copy (content : Option (List UInt8)) (name : FileName)
  /-- `-p`. -/
  | print (name : FileName)
  /-- `-r`. -/
  | remove (name : FileName)
  /-- `-t`. -/
  | performanceTest

/-- A command and what came of it. -/
inductive CommandEvent where
  | copy (content : Option (List UInt8)) (name : FileName) (result : CopyResult)
  | print (name : FileName) (output : Option (List UInt8))
  | remove (name : FileName) (success : Bool)
  | performanceTest (messages : List PerfMessage)

/-- One command, with the memory it finds. -/
def commandStep (s : FileSystem) :
    Command × (ℕ → ℕ → Buffer) → Option (FileSystem × CommandEvent)
  | (.copy content name, heaps) =>
      (s.copy content name heaps).map fun r => (r.1, .copy content name r.2)
  | (.print name, _) => (s.print name).map fun r => (r.1, .print name r.2)
  | (.remove name, heaps) => (s.remove name (heaps 0)).map fun r => (r.1, .remove name r.2)
  | (.performanceTest, heaps) => (s.performanceTest heaps).map fun r => (r.1, .performanceTest r.2)

/-! ## What the file system does for a command -/

section Operations

variable {s : FileSystem} {S : Files} {h p size : ℕ} {k c : List UInt8} {name : FileName}

theorem Mounted.created (hr : Mounted s S) (name : FileName) (hsize : size ≤ maxFileSize)
    (heap : ℕ → Buffer) :
    ∃ s' S' success, s.create name size heap = some (s', success) ∧ Mounted s' S' ∧
      (success = true ∧ S.contents name.key = none ∧ S'.handles = S.handles ∧
          (∃ c, c.length = size ∧ S'.contents = Function.update S.contents name.key (some c)) ∨
        success = false ∧ S' = S ∧
          (S.contents name.key ≠ none ∨ S.names.encard = numDirEntries)) := by
  have hmatched : Matched s S (.create name size, heap) := hr.create hsize
  obtain ⟨s', e, S', hstep, habs, hr', -⟩ := hmatched
  obtain ⟨⟨s₁, success⟩, hcreate, heq⟩ := Option.map_eq_some_iff.mp hstep
  obtain ⟨rfl, rfl⟩ := Prod.mk.inj heq
  have hsame := create_system hr.layout hcreate
  refine ⟨s₁, S', success, hcreate, ⟨hr', hr.reopens.same hsame⟩, ?_⟩
  cases habs with
  | create habsent hlength hcontents hhandles _ =>
      exact .inl ⟨rfl, habsent, hhandles, _, hlength, hcontents⟩
  | createFails hcause => exact .inr ⟨rfl, rfl, hcause⟩

theorem Mounted.opens (hr : Mounted s S) (name : FileName) :
    ∃ s' S' openFile, s.openFile name = some (s', openFile) ∧ Mounted s' S' ∧
      S'.contents = S.contents ∧
      (openFile = none ∧ S.contents name.key = none ∨
        ∃ h, openFile = some h ∧ S.contents name.key ≠ none ∧
          S'.handles h = some (name.key, 0)) := by
  have hmatched : Matched s S (.openFile name, fun _ _ => 0) := hr.openFile
  obtain ⟨s', e, S', hstep, habs, hr', -⟩ := hmatched
  obtain ⟨⟨s₁, openFile⟩, hopen, heq⟩ := Option.map_eq_some_iff.mp hstep
  obtain ⟨rfl, rfl⟩ := Prod.mk.inj heq
  have hsame := openFile_system hr.layout hopen
  refine ⟨s₁, S', openFile, hopen, ⟨hr', hr.reopens.same hsame⟩, habs.openFile_contents, ?_⟩
  cases habs with
  | openFile hpresent _ hhandles _ =>
      refine .inr ⟨_, rfl, hpresent, ?_⟩
      rw [hhandles, Function.update_self]
  | openFails habsent => exact .inl ⟨rfl, habsent⟩

/-- Ten bytes are too few to overflow. -/
theorem Mounted.small (hr : Mounted s S) (hhandle : S.handles h = some (k, p)) {n : ℕ}
    (hn : n ≤ 10) {file : OpenFile} (hfile : s.opened[h]? = some file) :
    ¬ Overflows file.hdr n file.seekPosition := by
  obtain ⟨i, hi, sector, hslot, hopened, -⟩ := hr.file hhandle
  obtain rfl := Option.some.inj (hopened.symm.trans hfile)
  have hsize := (hr.layout.fits hi hslot).size
  rintro ⟨-, hlt, hover⟩
  unfold FileHeader.fileLength at hlt
  unfold maxFileSize numDirect sectorSize at hsize
  simp only at hlt hover
  omega

theorem Mounted.reads (hr : Mounted s S) (hhandle : S.handles h = some (k, p))
    (hc : S.contents k = some c) {n : ℕ} (hn : n ≤ 10) :
    ∃ s' S', s.readFile h n = some (s', (c.drop p).take n) ∧ Mounted s' S' ∧
      S'.contents = S.contents ∧ S'.handles h = some (k, p + min n (c.length - p)) := by
  have hno : ¬ RequestOverflows s (.read h n) := by
    rintro ⟨file, hfile, hover⟩
    exact hr.small hhandle hn hfile hover
  have hmatched : Matched s S (.read h n, fun _ _ => 0) := hr.read hhandle hno
  obtain ⟨s', e, S', hstep, habs, hr', -⟩ := hmatched
  obtain ⟨⟨s₁, bytes⟩, hread, heq⟩ := Option.map_eq_some_iff.mp hstep
  obtain ⟨rfl, rfl⟩ := Prod.mk.inj heq
  cases habs with
  | read hhandle' hfile hcontents hhandles _ =>
      obtain ⟨rfl, rfl⟩ := Prod.mk.inj (Option.some.inj (hhandle.symm.trans hhandle'))
      obtain rfl := Option.some.inj (hc.symm.trans hfile)
      refine ⟨s₁, S', hread, ⟨hr', hr.reopens.same (readFile_system hread)⟩, hcontents, ?_⟩
      rw [hhandles, Function.update_self]
      rfl

theorem Mounted.writes (hr : Mounted s S) (hhandle : S.handles h = some (k, p))
    (hc : S.contents k = some c) (src : Buffer) {n : ℕ} (hn : n ≤ 10) (heap : ℕ → Buffer) :
    ∃ s' S', s.writeFile h src n heap = some (s', min n (c.length - p)) ∧ Mounted s' S' ∧
      S'.contents = Function.update S.contents k (some (overwrite c src n p)) ∧
      S'.handles h = some (k, p + min n (c.length - p)) := by
  have hno : ¬ RequestOverflows s (.write h src n) := by
    rintro ⟨file, hfile, hover⟩
    exact hr.small hhandle hn hfile hover
  have hmatched : Matched s S (.write h src n, heap) := hr.write hhandle src hno
  obtain ⟨s', e, S', hstep, habs, hr', -⟩ := hmatched
  obtain ⟨⟨s₁, written⟩, hwrite, heq⟩ := Option.map_eq_some_iff.mp hstep
  obtain ⟨rfl, rfl⟩ := Prod.mk.inj heq
  cases habs with
  | write hhandle' hfile hcontents hhandles _ =>
      obtain ⟨rfl, rfl⟩ := Prod.mk.inj (Option.some.inj (hhandle.symm.trans hhandle'))
      obtain rfl := Option.some.inj (hc.symm.trans hfile)
      have hsame := writeFile_system hr.toRepresents hhandle hno hwrite
      refine ⟨s₁, S', hwrite, ⟨hr', hr.reopens.same hsame⟩, hcontents, ?_⟩
      rw [hhandles, Function.update_self]
      rfl

theorem Mounted.removes (hr : Mounted s S) (name : FileName) (heap : ℕ → Buffer) :
    ∃ s' S' success, s.remove name heap = some (s', success) ∧ Mounted s' S' ∧
      S'.contents = Function.update S.contents name.key none ∧
      (success = true ↔ S.contents name.key ≠ none) := by
  have hmatched : Matched s S (.remove name, heap) := hr.remove
  obtain ⟨s', e, S', hstep, habs, hr', -⟩ := hmatched
  obtain ⟨⟨s₁, success⟩, hremove, heq⟩ := Option.map_eq_some_iff.mp hstep
  obtain ⟨rfl, rfl⟩ := Prod.mk.inj heq
  have hsame := remove_system hr.layout hremove
  refine ⟨s₁, S', success, hremove, ⟨hr', hr.reopens.same hsame⟩, ?_⟩
  cases habs with
  | remove hpresent hcontents _ _ => exact ⟨hcontents, iff_of_true rfl hpresent⟩
  | removeFails habsent =>
      refine ⟨?_, iff_of_false Bool.false_ne_true (not_not.mpr habsent)⟩
      rw [← habsent, Function.update_eq_self]

end Operations

/-! ## The loops -/

section Loops

variable {s : FileSystem} {S : Files} {h p left fuel : ℕ} {k c rest : List UInt8}

/-- What is written takes the place of what was there. -/
theorem overwrite_ofList (c bytes : List UInt8) {p : ℕ} (hfits : p + bytes.length ≤ c.length) :
    overwrite c (.ofList bytes) bytes.length p =
      c.take p ++ bytes ++ c.drop (p + bytes.length) := by
  have hspan : span c bytes.length p = bytes.length := by
    unfold span
    omega
  refine List.ext_getElem ?_ fun i hi _ => ?_
  · rw [length_overwrite, List.length_append, List.length_append, List.length_take,
      List.length_drop]
    omega
  · rw [length_overwrite] at hi
    simp only [overwrite, List.getElem_mapIdx, hspan, List.getElem_append, List.getElem_take,
      List.getElem_drop, List.length_append, List.length_take,
      Nat.min_eq_left (show p ≤ c.length by omega)]
    by_cases hlow : i < p
    · rw [if_neg (by omega), dif_pos (by omega), dif_pos hlow]
    · by_cases hmid : i < p + bytes.length
      · rw [if_pos (by omega), dif_pos hmid, dif_neg hlow, Buffer.ofList,
          List.getElem?_eq_getElem (by omega), Option.getD_some]
      · rw [if_neg (by omega), dif_neg hmid]
        congr 1
        omega

/-- **The loop of `Copy`** writes what is left behind what has been written. -/
theorem copyLoop_eq (heaps : ℕ → ℕ → Buffer) (hr : Mounted s S)
    (hhandle : S.handles h = some (k, p)) (hc : S.contents k = some c)
    (hlength : c.length = p + rest.length) (hfuel : rest.length < fuel) :
    ∃ s' S', s.copyLoop heaps h fuel rest = some s' ∧ Mounted s' S' ∧
      S'.contents = Function.update S.contents k (some (c.take p ++ rest)) := by
  induction fuel generalizing s S p c rest with
  | zero => exact absurd hfuel (Nat.not_lt_zero _)
  | succ fuel ih =>
      unfold FileSystem.copyLoop
      by_cases hend : rest.take transferSize = []
      · have hrest : rest = [] := by
          rcases List.take_eq_nil_iff.mp hend with hzero | hnil
          · cases hzero
          · exact hnil
        subst hrest
        refine ⟨s, S, if_pos hend, hr, ?_⟩
        rw [List.append_nil, List.take_of_length_le (by simp [hlength]), ← hc,
          Function.update_eq_self]
      · generalize hbuffer : rest.take transferSize = buffer at hend
        have hsplit : rest = buffer ++ rest.drop transferSize := by
          rw [← hbuffer, List.take_append_drop]
        have hlengths := congrArg List.length hsplit
        rw [List.length_append] at hlengths
        have hpos : 0 < buffer.length := List.length_pos_iff.mpr hend
        have hsmall : buffer.length ≤ 10 := by
          rw [← hbuffer, List.length_take]
          exact Nat.min_le_left ..
        have hfits : p + buffer.length ≤ c.length := by omega
        obtain ⟨s₁, S₁, hwrite, hr₁, hcontents₁, hhandle₁⟩ :=
          hr.writes hhandle hc (.ofList buffer) hsmall (heaps fuel)
        rw [overwrite_ofList c buffer hfits] at hcontents₁
        rw [Nat.min_eq_left (by omega)] at hhandle₁
        have hc₁ : S₁.contents k = some (c.take p ++ buffer ++ c.drop (p + buffer.length)) := by
          rw [hcontents₁, Function.update_self]
        have htake : (c.take p).length = p := by
          rw [List.length_take]
          omega
        have hlength₁ : (c.take p ++ buffer ++ c.drop (p + buffer.length)).length =
            p + buffer.length + (rest.drop transferSize).length := by
          rw [List.length_append, List.length_append, htake, List.length_drop]
          omega
        obtain ⟨s', S', hloop, hr', hcontents'⟩ := ih hr₁ hhandle₁ hc₁ hlength₁ (by omega)
        refine ⟨s', S', ?_, hr', ?_⟩
        · rw [if_neg hend, hwrite, Option.bind_some]
          exact hloop
        · have hwritten : (c.take p ++ buffer ++ c.drop (p + buffer.length)).take
              (p + buffer.length) = c.take p ++ buffer :=
            List.take_left' (by rw [List.length_append, htake])
          rw [hcontents', hcontents₁, Function.update_idem, hwritten, List.append_assoc, ← hsplit]

/-- **The loop of `Print`** prints what is left of the file. -/
theorem printLoop_eq (hr : Mounted s S) (hhandle : S.handles h = some (k, p))
    (hc : S.contents k = some c) (hfuel : c.length - p < fuel) :
    ∃ s' S', s.printLoop h fuel = some (s', c.drop p) ∧ Mounted s' S' ∧
      S'.contents = S.contents := by
  induction fuel generalizing s S p with
  | zero => exact absurd hfuel (Nat.not_lt_zero _)
  | succ fuel ih =>
      obtain ⟨s₁, S₁, hread, hr₁, hcontents₁, hhandle₁⟩ :=
        hr.reads hhandle hc (n := transferSize) (Nat.le_refl 10)
      unfold FileSystem.printLoop
      rw [hread, Option.bind_some]
      by_cases hend : (c.drop p).take transferSize = []
      · refine ⟨s₁, S₁, ?_, hr₁, hcontents₁⟩
        have hdrop : c.drop p = [] := by
          rcases List.take_eq_nil_iff.mp hend with hzero | hnil
          · cases hzero
          · exact hnil
        rw [if_pos hend, hdrop]
      · have hpos : p < c.length := by
          by_contra hle
          rw [List.drop_of_length_le (Nat.not_lt.mp hle), List.take_nil] at hend
          exact hend rfl
        have hmin : 0 < min transferSize (c.length - p) := by
          unfold transferSize
          omega
        obtain ⟨s', S', hloop, hr', hcontents'⟩ :=
          ih hr₁ hhandle₁ (hcontents₁ ▸ hc) (by omega)
        refine ⟨s', S', ?_, hr', hcontents'.trans hcontents₁⟩
        rw [if_neg hend, hloop, Option.map_some]
        have hdrop : c.drop (p + min transferSize (c.length - p)) =
            (c.drop p).drop transferSize := by
          rw [List.drop_drop]
          by_cases hle : transferSize ≤ c.length - p
          · rw [Nat.min_eq_left hle]
          · rw [Nat.min_eq_right (by omega), List.drop_of_length_le (by omega),
              List.drop_of_length_le (by omega)]
        rw [hdrop, List.take_append_drop]

/-- Nothing can be written to a file of no bytes. -/
theorem fileWriteLoop_empty (heaps : ℕ → ℕ → Buffer) (left : ℕ) (hr : Mounted s S)
    (hhandle : S.handles h = some (k, p)) (hc : S.contents k = some []) :
    ∃ s' S', s.fileWriteLoop heaps h (left + 1) = some (s', false) ∧ Mounted s' S' ∧
      S'.contents = S.contents := by
  obtain ⟨s', S', hwrite, hr', hcontents, -⟩ := hr.writes hhandle hc (.ofList perfContents)
    (n := perfContents.length) (by decide) (heaps left)
  refine ⟨s', S', ?_, hr', ?_⟩
  · unfold FileSystem.fileWriteLoop
    rw [hwrite, Option.bind_some]
    exact if_pos (by simp)
  · rw [hcontents]
    exact (congrArg (Function.update S.contents k) hc.symm).trans (Function.update_eq_self ..)

/-- A file is read to its end before the loop of `FileRead` is done. -/
theorem fileReadLoop_short (hr : Mounted s S) (hhandle : S.handles h = some (k, p))
    (hc : S.contents k = some c) (hp : p ≤ c.length) (hshort : c.length < p + 10 * left) :
    ∃ s' S', s.fileReadLoop h left = some (s', false) ∧ Mounted s' S' ∧
      S'.contents = S.contents := by
  induction left generalizing s S p with
  | zero => omega
  | succ left ih =>
      obtain ⟨s₁, S₁, hread, hr₁, hcontents₁, hhandle₁⟩ :=
        hr.reads hhandle hc (n := perfContents.length) (by decide)
      unfold FileSystem.fileReadLoop
      rw [hread, Option.bind_some]
      by_cases hstop : ((c.drop p).take perfContents.length).length < 10 ∨
          (c.drop p).take perfContents.length ≠ perfContents
      · exact ⟨s₁, S₁, if_pos hstop, hr₁, hcontents₁⟩
      · have hfull : 10 ≤ c.length - p := by
          have hten := (not_or.mp hstop).1
          rw [List.length_take, List.length_drop] at hten
          omega
        have hten : min perfContents.length (c.length - p) = 10 := Nat.min_eq_left hfull
        rw [hten] at hhandle₁
        obtain ⟨s', S', hloop, hr', hcontents'⟩ :=
          ih hr₁ hhandle₁ (hcontents₁ ▸ hc) (by omega) (by omega)
        exact ⟨s', S', by rw [if_neg hstop, hloop], hr', hcontents'.trans hcontents₁⟩

end Loops

/-! ## Every command line -/

/-- What the files hold after a command. -/
def CommandEvent.store (m : List UInt8 → Option (List UInt8)) :
    CommandEvent → List UInt8 → Option (List UInt8)
  | .copy (some content) name .copied => Function.update m name.key (some content)
  | .remove name _ => Function.update m name.key none
  | .performanceTest _ => Function.update m perfFileName.key none
  | _ => m

/-- What they hold after a command line, on a new disk. -/
def stored (log : List CommandEvent) : List UInt8 → Option (List UInt8) :=
  log.foldl CommandEvent.store fun _ => none

/-- The directory has no entry left. -/
def Full (m : List UInt8 → Option (List UInt8)) : Prop := {k | m k ≠ none}.encard = numDirEntries

/-- What a command does, when the files hold `m`. -/
def Answers (m : List UInt8 → Option (List UInt8)) : CommandEvent → Prop
  | .copy none _ result => result = .noInput
  | .copy (some _) name result =>
      result = .copied ∧ m name.key = none ∧ ¬ Full m ∨
        result = .noOutput ∧ (m name.key ≠ none ∨ Full m)
  | .print name output => output = m name.key
  | .remove name success => success = true ↔ m name.key ≠ none
  | .performanceTest messages =>
      messages = [.unableToWrite, .unableToRead] ∧ m perfFileName.key = none ∧ ¬ Full m ∨
        messages = [.cannotCreate, .unableToRead, .unableToRemove] ∧
          m perfFileName.key = none ∧ Full m ∨
        messages = [.cannotCreate, .unableToRead] ∧ m perfFileName.key ≠ none

/-- A UNIX file that is copied is not too long. -/
def Copyable : Command → Prop
  | .copy (some content) _ => content.length ≤ maxFileSize
  | _ => True

section Runs

variable {s : FileSystem} {S : Files} {name : FileName} (heaps : ℕ → ℕ → Buffer)

/-- The directory has room for what has been created. -/
theorem not_full_of_update {S' : Files} {k c : List UInt8} (habsent : S.contents k = none)
    (hcontents : S'.contents = Function.update S.contents k (some c)) : ¬ Full S.contents := by
  intro hfull
  have hfew := S'.few
  have hnames : {j | S'.contents j ≠ none} = insert k {j | S.contents j ≠ none} := by
    ext j
    rw [hcontents]
    by_cases hj : j = k
    · simp [hj]
    · simp [hj]
  rw [hnames, Set.encard_insert_of_notMem (by simpa using habsent), hfull] at hfew
  exact absurd hfew (by decide)

theorem Mounted.copy (hr : Mounted s S) (content : Option (List UInt8))
    (hsize : Copyable (.copy content name)) :
    ∃ s' S' result, s.copy content name heaps = some (s', result) ∧ Mounted s' S' ∧
      Answers S.contents (.copy content name result) ∧
      S'.contents = CommandEvent.store S.contents (.copy content name result) := by
  cases content with
  | none => exact ⟨s, S, .noInput, rfl, hr, rfl, rfl⟩
  | some content =>
      obtain ⟨s₁, S₁, success, hcreate, hr₁, hcase⟩ :=
        hr.created name hsize (heaps 0)
      rcases hcase with ⟨rfl, habsent, -, c, hlength, hcontents₁⟩ | ⟨rfl, rfl, hcause⟩
      · have hc₁ : S₁.contents name.key = some c := by rw [hcontents₁, Function.update_self]
        obtain ⟨s₂, S₂, openFile, hopen, hr₂, hcontents₂, hcase⟩ := hr₁.opens name
        rcases hcase with ⟨-, hnone⟩ | ⟨h, rfl, -, hhandle⟩
        · rw [hc₁] at hnone
          cases hnone
        · have hlength : c.length = 0 + content.length := by rw [hlength, Nat.zero_add]
          obtain ⟨s₃, S₃, hloop, hr₃, hcontents₃⟩ := copyLoop_eq (fun k => heaps (k + 1)) hr₂
            hhandle (hcontents₂ ▸ hc₁) hlength (Nat.lt_succ_self _)
          refine ⟨s₃, S₃, .copied, ?_, hr₃,
            .inl ⟨rfl, habsent, not_full_of_update habsent hcontents₁⟩, ?_⟩
          · simp only [FileSystem.copy, hcreate, hopen, hloop, Option.bind_eq_bind,
              Option.bind_some, if_true]
            rfl
          · rw [hcontents₃, hcontents₂, hcontents₁, Function.update_idem]
            rfl
      · refine ⟨s₁, S₁, .noOutput, ?_, hr₁, .inr ⟨rfl, hcause⟩, rfl⟩
        simp only [FileSystem.copy, hcreate, Option.bind_eq_bind, Option.bind_some]
        rfl

theorem Mounted.print (hr : Mounted s S) (name : FileName) :
    ∃ s' S', s.print name = some (s', S.contents name.key) ∧ Mounted s' S' ∧
      S'.contents = S.contents := by
  obtain ⟨s₁, S₁, openFile, hopen, hr₁, hcontents₁, hcase⟩ := hr.opens name
  rcases hcase with ⟨rfl, hnone⟩ | ⟨h, rfl, hpresent, hhandle⟩
  · refine ⟨s₁, S₁, ?_, hr₁, hcontents₁⟩
    simp only [FileSystem.print, hopen, Option.bind_eq_bind, Option.bind_some, hnone]
    rfl
  · obtain ⟨c, hc⟩ := Option.ne_none_iff_exists'.mp hpresent
    obtain ⟨i, hi, sector, hslot, -, hfile⟩ := hr₁.file hhandle
    have hshort : c.length ≤ maxFileSize := by
      rw [hcontents₁, hc] at hfile
      rw [Option.some.inj hfile, length_fileBytes]
      exact (hr₁.layout.fits hi hslot).size
    have hfuel : c.length - 0 < maxFileSize + 1 := by omega
    obtain ⟨s₂, S₂, hloop, hr₂, hcontents₂⟩ := printLoop_eq hr₁ hhandle (hcontents₁ ▸ hc) hfuel
    refine ⟨s₂, S₂, ?_, hr₂, hcontents₂.trans hcontents₁⟩
    simp only [FileSystem.print, hopen, hloop, Option.bind_eq_bind, Option.bind_some, hc,
      List.drop_zero]
    rfl

/-- The read part of the performance test fails on every file. -/
theorem Mounted.fileRead (hr : Mounted s S) :
    ∃ s' S', s.fileRead = some (s', [.unableToRead]) ∧ Mounted s' S' ∧
      S'.contents = S.contents := by
  obtain ⟨s₁, S₁, openFile, hopen, hr₁, hcontents₁, hcase⟩ := hr.opens perfFileName
  rcases hcase with ⟨rfl, hnone⟩ | ⟨h, rfl, -, hhandle⟩
  · refine ⟨s₁, S₁, ?_, hr₁, hcontents₁⟩
    simp only [FileSystem.fileRead, hopen, Option.bind_eq_bind, Option.bind_some]
    rfl
  · obtain ⟨i, hi, sector, hslot, -, hfile⟩ := hr₁.file hhandle
    have hsize := (hr₁.layout.fits hi hslot).size
    have hlength := length_fileBytes s₁.disk (s₁.header sector)
    generalize fileBytes s₁.disk (s₁.header sector) = c at hfile hlength
    unfold maxFileSize numDirect sectorSize at hsize
    have hshort : c.length < 0 + 10 * perfRounds := by
      unfold perfRounds
      omega
    obtain ⟨s₂, S₂, hloop, hr₂, hcontents₂⟩ :=
      fileReadLoop_short hr₁ hhandle hfile (Nat.zero_le _) hshort
    refine ⟨s₂, S₂, ?_, hr₂, hcontents₂.trans hcontents₁⟩
    simp only [FileSystem.fileRead, hopen, hloop, Option.bind_eq_bind, Option.bind_some]
    rfl

/-- The write part creates a file of no bytes, to which nothing can be written. -/
theorem Mounted.fileWrite (hr : Mounted s S) :
    ∃ s' S' messages, s.fileWrite heaps = some (s', messages) ∧ Mounted s' S' ∧
      (messages = [.unableToWrite] ∧ S.contents perfFileName.key = none ∧ ¬ Full S.contents ∧
          S'.contents = Function.update S.contents perfFileName.key (some []) ∨
        messages = [.cannotCreate] ∧ S'.contents = S.contents ∧
          (S.contents perfFileName.key ≠ none ∨ Full S.contents)) := by
  obtain ⟨s₁, S₁, success, hcreate, hr₁, hcase⟩ :=
    hr.created perfFileName (Nat.zero_le _) (heaps 0)
  rcases hcase with ⟨rfl, habsent, -, c, hlength, hcontents₁⟩ | ⟨rfl, rfl, hcause⟩
  · obtain rfl := List.length_eq_zero_iff.mp hlength
    have hc₁ : S₁.contents perfFileName.key = some [] := by rw [hcontents₁, Function.update_self]
    obtain ⟨s₂, S₂, openFile, hopen, hr₂, hcontents₂, hcase⟩ := hr₁.opens perfFileName
    rcases hcase with ⟨-, hnone⟩ | ⟨h, rfl, -, hhandle⟩
    · rw [hc₁] at hnone
      cases hnone
    · obtain ⟨s₃, S₃, hloop, hr₃, hcontents₃⟩ := fileWriteLoop_empty
        (fun k => heaps (k + 1)) 4999 hr₂ hhandle (hcontents₂ ▸ hc₁)
      refine ⟨s₃, S₃, [.unableToWrite], ?_, hr₃, .inl ⟨rfl, habsent,
        not_full_of_update habsent hcontents₁, hcontents₃.trans (hcontents₂.trans hcontents₁)⟩⟩
      simp only [FileSystem.fileWrite, hcreate, hopen, perfRounds, hloop, Option.bind_eq_bind,
        Option.bind_some, if_true]
      rfl
  · refine ⟨s₁, S₁, [.cannotCreate], ?_, hr₁, .inr ⟨rfl, rfl, hcause⟩⟩
    simp only [FileSystem.fileWrite, hcreate, Option.bind_eq_bind, Option.bind_some]
    rfl

theorem Mounted.performanceTest (hr : Mounted s S) :
    ∃ s' S' messages, s.performanceTest heaps = some (s', messages) ∧ Mounted s' S' ∧
      Answers S.contents (.performanceTest messages) ∧
      S'.contents = Function.update S.contents perfFileName.key none := by
  obtain ⟨s₁, S₁, written, hwrite, hr₁, hwritten⟩ := hr.fileWrite heaps
  obtain ⟨s₂, S₂, hread, hr₂, hcontents₂⟩ := hr₁.fileRead
  obtain ⟨s₃, S₃, success, hremove, hr₃, hcontents₃, hsuccess⟩ :=
    hr₂.removes perfFileName (heaps (perfRounds + 1))
  rw [hcontents₂] at hcontents₃ hsuccess
  refine ⟨s₃, S₃, written ++ [.unableToRead] ++ if success then [] else [.unableToRemove], ?_, hr₃,
    ?_, ?_⟩
  · simp only [FileSystem.performanceTest, hwrite, hread, hremove, Option.bind_eq_bind,
      Option.bind_some]
    rfl
  · rcases hwritten with ⟨rfl, habsent, hfull, hcontents₁⟩ | ⟨rfl, hcontents₁, hcause⟩
    · rw [hcontents₁, Function.update_self] at hsuccess
      rw [hsuccess.mpr (by simp)]
      exact .inl ⟨rfl, habsent, hfull⟩
    · rw [hcontents₁] at hsuccess
      by_cases hpresent : S.contents perfFileName.key = none
      · have hfailed : success = false :=
          Bool.eq_false_iff.mpr fun heq => hsuccess.mp heq hpresent
        rw [hfailed]
        exact .inr (.inl ⟨rfl, hpresent, hcause.resolve_left fun hne => hne hpresent⟩)
      · rw [hsuccess.mpr hpresent]
        exact .inr (.inr ⟨rfl, hpresent⟩)
  · rcases hwritten with ⟨-, -, -, hcontents₁⟩ | ⟨-, hcontents₁, -⟩
    · rw [hcontents₃, hcontents₁, Function.update_idem]
    · rw [hcontents₃, hcontents₁]

/-- **What one command does.** -/
theorem Mounted.command (hr : Mounted s S) {l : Command × (ℕ → ℕ → Buffer)}
    (hl : Copyable l.1) : ∃ s' e S', commandStep s l = some (s', e) ∧ Mounted s' S' ∧
      Answers S.contents e ∧ S'.contents = e.store S.contents := by
  obtain ⟨command, heaps⟩ := l
  cases command with
  | copy content name =>
      obtain ⟨s', S', result, hcopy, hr', hanswer, hstore⟩ := hr.copy heaps content hl
      exact ⟨s', _, S', by rw [commandStep, hcopy]; rfl, hr', hanswer, hstore⟩
  | print name =>
      obtain ⟨s', S', hprint, hr', hstore⟩ := hr.print name
      exact ⟨s', .print name (S.contents name.key), S', by rw [commandStep, hprint]; rfl, hr',
        rfl, hstore⟩
  | remove name =>
      obtain ⟨s', S', success, hremove, hr', hstore, hanswer⟩ := hr.removes name (heaps 0)
      exact ⟨s', .remove name success, S', by rw [commandStep, hremove]; rfl, hr', hanswer,
        hstore⟩
  | performanceTest =>
      obtain ⟨s', S', messages, htest, hr', hanswer, hstore⟩ := hr.performanceTest heaps
      exact ⟨s', _, S', by rw [commandStep, htest]; rfl, hr', hanswer, hstore⟩

end Runs

/-! ## A file of 25 bytes -/

/-- A new disk is not full. -/
theorem copied_first {content : List UInt8} {name : FileName} {result : CopyResult}
    (h : Answers (stored []) (.copy (some content) name result)) : result = .copied := by
  rcases h with ⟨hcopied, -⟩ | ⟨-, hne | hfull⟩
  · exact hcopied
  · exact absurd rfl hne
  · have hempty : ({k | stored [] k ≠ none} : Set (List UInt8)) = ∅ := by
      ext k
      simp [stored]
    unfold Full at hfull
    rw [hempty, Set.encard_empty] at hfull
    exact absurd hfull (by decide)

/-- A command, or Nachos is started again without `-f`. -/
def invocationStep (s : FileSystem) :
    Option (Command × (ℕ → ℕ → Buffer)) → Option (FileSystem × Option CommandEvent)
  | none => (FileSystem.reopen s.disk).map fun s' => (s', none)
  | some l => (commandStep s l).map fun r => (r.1, some r.2)

/-- What the files hold after command lines. -/
def storedOver (tr : List (Option CommandEvent)) : List UInt8 → Option (List UInt8) :=
  stored tr.reduceOption

section Invocations

variable {s : FileSystem} {S : Files}

/-- **One step**, and that it is possible. -/
theorem Mounted.invocation {tr : List (Option CommandEvent)}
    {l : Option (Command × (ℕ → ℕ → Buffer))} (hm : Mounted s S)
    (hstored : S.contents = storedOver tr) (hl : ∀ l' ∈ l, Copyable l'.1) :
    ∃ s' e S', invocationStep s l = some (s', e) ∧ Mounted s' S' ∧
      (∀ e' ∈ e, Answers (storedOver tr) e') ∧ S'.contents = storedOver (tr ++ [e]) := by
  unfold storedOver
  cases l with
  | none =>
      obtain ⟨hreopen, hm'⟩ := hm.restart
      refine ⟨_, none, _, by rw [invocationStep, hreopen]; rfl, hm', ?_, ?_⟩
      · intro e' he'
        cases he'
      · rw [List.reduceOption_append, List.reduceOption_singleton]
        exact hstored.trans (congrArg stored (List.append_nil _).symm)
  | some l =>
      obtain ⟨s', e, S', hstep, hm', hanswer, hstore⟩ := hm.command (hl l rfl)
      rw [hstored] at hanswer hstore
      refine ⟨s', some e, S', by rw [invocationStep, hstep]; rfl, hm', ?_, ?_⟩
      · intro e' he'
        obtain rfl := Option.some.inj he'
        exact hanswer
      · rw [hstore, List.reduceOption_append, List.reduceOption_singleton, storedOver, stored,
          stored]
        exact (List.foldl_concat ..).symm

end Invocations

end Nachos.Filesys
