import Nachos.Lib.Run
import Nachos.Filesys.Directory
import Nachos.Filesys.FreeMap

/-!
# The file system

The free map and the directory are files whose headers are in the first two
sectors. Every operation reads them from the disk and writes them back if it has
changed something. Open files are numbered in the order in which they were opened.

Memory that is allocated and not set holds anything: `heap k` is what the `k`-th
allocation of an operation finds there, as far as it matters.
-/

namespace Nachos.Filesys

open Nachos.Lib Nachos.Userprog

/-! ## State -/

structure OpenFile where
  hdr : FileHeader
  seekPosition : ℕ

/-- `OpenFile::OpenFile`. -/
def OpenFile.ofSector (d : Disk) (sector : ℕ) : Option OpenFile :=
  (FileHeader.fetchFrom d sector).map (⟨·, 0⟩)

def freeMapSector : ℕ := 0

def directorySector : ℕ := 1

def freeMapFileSize : ℕ := numSectors / 8

structure FileSystem where
  disk : Disk
  freeMapFile : OpenFile
  directoryFile : OpenFile
  opened : List OpenFile

namespace FileSystem

/-- `FileSystem(TRUE)`. -/
def format (d : Disk) (heap : ℕ → Buffer) : Option FileSystem := do
  let freeMap : BitMap := BitMap.mark (BitMap.mark (fun _ => false) freeMapSector) directorySector
  let directory : Directory := fun i => { Directory.ofBytes (heap 0) i with inUse := false }
  let (success, mapHdr, freeMap) ←
    (FileHeader.ofBytes (heap 1)).allocate freeMap freeMapFileSize
  guard success
  let (success, dirHdr, freeMap) ←
    (FileHeader.ofBytes (heap 2)).allocate freeMap directoryFileSize
  guard success
  let d ← mapHdr.writeBack d freeMapSector
  let d ← dirHdr.writeBack d directorySector
  let freeMapFile ← OpenFile.ofSector d freeMapSector
  let directoryFile ← OpenFile.ofSector d directorySector
  let d ← writeBackMap freeMap d freeMapFile.hdr (heap 3)
  let d ← directory.writeBack d directoryFile.hdr (heap 4)
  return { disk := d, freeMapFile, directoryFile, opened := [] }

/-! ## Operations on names -/

/-- `Create`, once there is a sector for the header and an entry for the name. -/
def createIn (s : FileSystem) (directory : Directory) (freeMap : BitMap) (sector initialSize : ℕ)
    (heap : ℕ → Buffer) : Option (FileSystem × Bool) := do
  let (success, hdr, freeMap) ← (FileHeader.ofBytes (heap 0)).allocate freeMap initialSize
  if success then
    let d ← hdr.writeBack s.disk sector
    let d ← directory.writeBack d s.directoryFile.hdr (heap 1)
    let d ← writeBackMap freeMap d s.freeMapFile.hdr (heap 2)
    return ({ s with disk := d }, true)
  -- no space on disk for data
  else return (s, false)

def create (s : FileSystem) (name : FileName) (initialSize : ℕ) (heap : ℕ → Buffer) :
    Option (FileSystem × Bool) := do
  let directory ← Directory.fetchFrom s.disk s.directoryFile.hdr
  match directory.find name with
  -- file is already in directory
  | some _ => return (s, false)
  | none =>
      let freeMap ← fetchMap s.disk s.freeMapFile.hdr
      match BitMap.find numSectors freeMap with
      -- no free block for file header
      | none => return (s, false)
      | some sector =>
          match directory.add name sector with
          -- no space in directory
          | none => return (s, false)
          | some directory =>
              s.createIn directory (freeMap.mark sector) sector initialSize heap

/-- `Open`: the number of the open file, if there is one. -/
def openFile (s : FileSystem) (name : FileName) : Option (FileSystem × Option ℕ) := do
  let directory ← Directory.fetchFrom s.disk s.directoryFile.hdr
  match directory.find name with
  | none => return (s, none)
  | some sector =>
      let file ← OpenFile.ofSector s.disk sector
      return ({ s with opened := s.opened ++ [file] }, some s.opened.length)

def remove (s : FileSystem) (name : FileName) (heap : ℕ → Buffer) :
    Option (FileSystem × Bool) := do
  let directory ← Directory.fetchFrom s.disk s.directoryFile.hdr
  match directory.find name with
  | none => return (s, false)
  | some sector =>
      let fileHdr ← FileHeader.fetchFrom s.disk sector
      let freeMap ← fetchMap s.disk s.freeMapFile.hdr
      let freeMap ← fileHdr.deallocate freeMap fileHdr.numSectors 0
      guard (sector < numSectors)
      let directory ← directory.remove name
      let d ← writeBackMap (freeMap.clear sector) s.disk s.freeMapFile.hdr (heap 0)
      let d ← directory.writeBack d s.directoryFile.hdr (heap 1)
      return ({ s with disk := d }, true)

/-! ## Operations on open files -/

/-- The first `n` bytes of the caller's memory. -/
def taken (into : Buffer) (n : ℕ) : List UInt8 := (List.range n).map into

/-- `OpenFile::ReadAt`: the bytes that the caller finds. -/
def readFileAt (s : FileSystem) (h : ℕ) (numBytes : ℤ) (position : ℕ) : Option (List UInt8) := do
  let file ← s.opened[h]?
  let (into, n) ← readAt s.disk file.hdr (fun _ => 0) 0 numBytes position
  return taken into n

/-- `OpenFile::WriteAt`. -/
def writeFileAt (s : FileSystem) (h : ℕ) (src : Buffer) (numBytes : ℤ) (position : ℕ)
    (heap : ℕ → Buffer) : Option (FileSystem × ℕ) := do
  let file ← s.opened[h]?
  let (d, n) ← writeAt s.disk file.hdr (heap 0) src numBytes position
  return ({ s with disk := d }, n)

/-- `seekPosition += result`. -/
def seekBy (s : FileSystem) (h : ℕ) (file : OpenFile) (n : ℕ) : FileSystem :=
  { s with opened := s.opened.set h { file with seekPosition := file.seekPosition + n } }

/-- `OpenFile::Read`. -/
def readFile (s : FileSystem) (h : ℕ) (numBytes : ℤ) : Option (FileSystem × List UInt8) := do
  let file ← s.opened[h]?
  let bytes ← s.readFileAt h numBytes file.seekPosition
  return (s.seekBy h file bytes.length, bytes)

/-- `OpenFile::Write`. -/
def writeFile (s : FileSystem) (h : ℕ) (src : Buffer) (numBytes : ℤ) (heap : ℕ → Buffer) :
    Option (FileSystem × ℕ) := do
  let file ← s.opened[h]?
  let (s, n) ← s.writeFileAt h src numBytes file.seekPosition heap
  return (s.seekBy h file n, n)

end FileSystem

/-! ## The machine -/

/-- The operations. `src` is the caller's memory. -/
inductive Op where
  | create (name : FileName) (initialSize : ℕ)
  | openFile (name : FileName)
  | readAt (h : ℕ) (numBytes : ℤ) (position : ℕ)
  | writeAt (h : ℕ) (src : Buffer) (numBytes : ℤ) (position : ℕ)
  | read (h : ℕ) (numBytes : ℤ)
  | write (h : ℕ) (src : Buffer) (numBytes : ℤ)
  | remove (name : FileName)

/-- An operation and what it returned. -/
inductive Event where
  | create (name : FileName) (initialSize : ℕ) (success : Bool)
  | openFile (name : FileName) (h : Option ℕ)
  | readAt (h : ℕ) (numBytes : ℤ) (position : ℕ) (bytes : List UInt8)
  | writeAt (h : ℕ) (src : Buffer) (numBytes : ℤ) (position n : ℕ)
  | read (h : ℕ) (numBytes : ℤ) (bytes : List UInt8)
  | write (h : ℕ) (src : Buffer) (numBytes : ℤ) (n : ℕ)
  | remove (name : FileName) (success : Bool)

/-- One operation, with the memory it finds. -/
def step (s : FileSystem) : Op × (ℕ → Buffer) → Option (FileSystem × Event)
  | (.create name size, heap) =>
      (s.create name size heap).map fun (t, success) => (t, .create name size success)
  | (.openFile name, _) => (s.openFile name).map fun (t, h) => (t, .openFile name h)
  | (.readAt h numBytes position, _) =>
      (s.readFileAt h numBytes position).map fun bytes => (s, .readAt h numBytes position bytes)
  | (.writeAt h src numBytes position, heap) =>
      (s.writeFileAt h src numBytes position heap).map fun (t, n) =>
        (t, .writeAt h src numBytes position n)
  | (.read h numBytes, _) => (s.readFile h numBytes).map fun (t, bytes) => (t, .read h numBytes bytes)
  | (.write h src numBytes, heap) =>
      (s.writeFile h src numBytes heap).map fun (t, n) => (t, .write h src numBytes n)
  | (.remove name, heap) => (s.remove name heap).map fun (t, success) => (t, .remove name success)

end Nachos.Filesys
