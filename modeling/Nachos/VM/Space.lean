import Nachos.Userprog.Table

/-!
# Executables, address spaces and processes

An address space is an array of page entries over one executable. Nothing is
loaded when it is built: a page entry says where its page is to be found, in the
executable, in the swap file, or nowhere yet. Stacks are eight pages each, the
first behind the program and one more for every forked thread.

The `use`, `dirty` and `readOnly` bits of a page entry and its `virtualPage` are
never read and are left out.
-/

namespace Nachos.VM

open Nachos.Userprog

/-! ## Constants -/

def pageSize : ℕ := 128

/-- Irreducible, so that no unification counts the frames. -/
@[irreducible] def numPhysPages : ℕ := 4096

/-- `SWAPFILE_MAX_PAGES`. -/
@[irreducible] def swapFileMaxPages : ℕ := 4096

theorem numPhysPages_eq : numPhysPages = 4096 := by
  unfold numPhysPages
  rfl

theorem swapFileMaxPages_eq : swapFileMaxPages = 4096 := by
  unfold swapFileMaxPages
  rfl

/-- The frames that `rand()%32` can hit. -/
theorem lt_numPhysPages {n : ℕ} (h : n < 32) : n < numPhysPages := by
  rw [numPhysPages_eq]
  omega

def userStackSize : ℕ := 1024

def divRoundUp (n s : ℕ) : ℕ := n / s + if n % s > 0 then 1 else 0

/-- The contents of one page, by offset. -/
abbrev Page : Type := ℕ → UInt8

def zeroPage : Page := fun _ => 0

/-! ## Executables -/

structure Segment where
  virtualAddr : ℕ
  inFileAddr : ℕ
  size : ℕ
deriving DecidableEq, Repr

/-- An executable with its header. The code starts at virtual address 0, the
initialised data follow it in memory and in the file, and both are in the file:
the loader reads them as one block and looks at no other field. -/
structure Executable where
  file : List UInt8
  code : Segment
  initData : Segment
  uninitData : Segment
  code_at_zero : code.virtualAddr = 0
  data_follows : 0 < initData.size → initData.virtualAddr = code.size ∧
    initData.inFileAddr = code.inFileAddr + code.size
  in_file : code.inFileAddr + code.size + initData.size ≤ file.length

namespace Executable

/-- `ReadAt`: what is there in the file replaces the destination. -/
def readAt (x : Executable) (into : Page) (numBytes position : ℕ) : Page :=
  fun o => if o < numBytes then x.file[position + o]?.getD (into o) else into o

def codeAndInitDataSize (x : Executable) : ℕ := x.code.size + x.initData.size

def codeAndInitDataNumPages (x : Executable) : ℕ := divRoundUp x.codeAndInitDataSize pageSize

/-- A page of the block, read into a cleared frame. The last one may be partial. -/
def loadPage (x : Executable) (vpn diskLocation : ℕ) : Page :=
  x.readAt zeroPage
    (if vpn = x.codeAndInitDataNumPages - 1 then
      x.codeAndInitDataSize - (x.codeAndInitDataNumPages - 1) * pageSize
    else pageSize) diskLocation

/-- `firstThreadStartVPN`: the pages before the first stack. -/
def firstThreadStartVPN (x : Executable) : ℕ :=
  divRoundUp (x.code.size + x.initData.size + x.uninitData.size) pageSize

end Executable

/-! ## Address spaces -/

/-- `status`: where a page that is not in memory is found. -/
inductive PageStatus where
  | executable
  | swapFile
  | neither
deriving DecidableEq, Repr

structure PageEntry where
  physicalPage : ℕ
  valid : Bool
  status : PageStatus
  diskLocation : ℕ
deriving DecidableEq, Repr

/-- A page with no contents yet. Its two unset fields are not read before they
are written. -/
def PageEntry.fresh : PageEntry := ⟨0, false, .neither, 0⟩

structure AddrSpace where
  exec : Executable
  numPages : ℕ
  pageTable : ℕ → PageEntry

namespace AddrSpace

/-- `AddrSpace::AddrSpace`. -/
def create (x : Executable) : AddrSpace where
  exec := x
  numPages := x.firstThreadStartVPN + divRoundUp userStackSize pageSize
  pageTable := fun i =>
    if i < x.codeAndInitDataNumPages then
      ⟨0, false, .executable, x.code.inFileAddr + i * pageSize⟩
    else .fresh

/-- An assignment to `pageTable[vpn]`. -/
def setEntry (a : AddrSpace) (vpn : ℕ) (e : PageEntry) : AddrSpace :=
  { a with pageTable := Function.update a.pageTable vpn e }

/-- `IncrementStackSpace`: the old entries are copied and eight more follow. -/
def incrementStackSpace (a : AddrSpace) : AddrSpace :=
  { a with
    numPages := a.numPages + 8
    pageTable := fun i => if i < a.numPages then a.pageTable i else .fresh }

/-- The address `IncrementStackSpace` returns. -/
def stackStartVirtualAddress (a : AddrSpace) : ℕ := a.numPages * pageSize - 16

/-- `pageToSwapFile`. -/
def pageToSwapFile (a : AddrSpace) (vpn loc : ℕ) : AddrSpace :=
  a.setEntry vpn { a.pageTable vpn with
    status := .swapFile
    diskLocation := loc * pageSize
    valid := false }

/-- The loop of `DecreaseStackSpace` over `left` pages from `i` on, with the
frame bit map: bits are cleared and entries invalidated, and that is all. -/
def decreaseStackSpace (a : AddrSpace) (bm : BitMap) : (left i : ℕ) → AddrSpace × BitMap
  | 0, _ => (a, bm)
  | left + 1, i =>
      let bm := if (a.pageTable i).valid then bm.clear (a.pageTable i).physicalPage else bm
      decreaseStackSpace (a.setEntry i { a.pageTable i with valid := false }) bm left (i + 1)

/-- The loop of `DeleteSpace`. -/
def deleteSpace (a : AddrSpace) : (left i : ℕ) → BitMap → BitMap
  | 0, _, bm => bm
  | left + 1, i, bm =>
      deleteSpace a left (i + 1)
        (if (a.pageTable i).valid then bm.clear (a.pageTable i).physicalPage else bm)

end AddrSpace

/-! ## Processes -/

/-- A thread of a process. It has no stack before it first runs. -/
structure Thread where
  startVPN : Option ℕ
  finished : Bool
deriving DecidableEq, Repr

/-- A process with its threads in the order of their creation; `MainThread` is
the first. -/
structure Process where
  space : AddrSpace
  threads : List Thread
  childThreadCounter : ℕ

/-- A process as `Exec_Syscall` and `StartProcess` leave it. -/
def Process.create (x : Executable) : Process where
  space := .create x
  threads := [⟨some x.firstThreadStartVPN, false⟩]
  childThreadCounter := 1

end Nachos.VM
