import Nachos.Lib.CInt
import Nachos.Lib.Run
import Nachos.VM.Space

/-!
# Address translation, page faults and eviction

The machine translates addresses through a small software-loaded TLB. A miss is
a page fault: `updateTLB` looks the page up in the inverted page table and, when
it is there, puts it in the TLB; otherwise `updateIPT` brings the page into a
frame, evicting another one when memory is full, and the next fault on the same
address finds it. The file embeds these functions, the process syscalls around
them and, over them, one machine for all processes.

A fault is handled to its end before another thread runs, so the locks have no
part in the model. The `use` and `dirty` bits are copied about but never read and
are left out, and so is `physicalPage` of an inverted entry, which is the index
of the entry. Memory and swap file are arrays of pages: every transfer is of a
whole page and an aligned access does not cross one.

`TLBCounter` counts the entries ever put in the TLB. When the `int` has run over,
entries are written in front of the TLB. Such an entry is lost, and what it goes
over is not in the model: an access of a user program has no result then.
-/

namespace Nachos.VM

open Nachos.Lib Nachos.Userprog

/-! ## State -/

def tlbSize : ℕ := 4

/-- `ChoiceOfReplacementPolicy`. -/
inductive Policy where
  | fifo
  | rand
deriving DecidableEq, Repr

structure TranslationEntry where
  virtualPage : ℕ
  physicalPage : ℕ
  valid : Bool
  readOnly : Bool
deriving DecidableEq, Repr

/-- `IPT`. Nothing ever assigns `readOnly`: it stays what the heap held. -/
structure IptEntry where
  virtualPage : ℕ
  pid : ℤ
  valid : Bool
  readOnly : Bool
deriving DecidableEq, Repr

/-- The machine, the kernel's globals and the running thread. `threadCounter`
numbers the mailboxes that `Exec` hands out. -/
structure Vm where
  policy : Policy
  mainMemory : ℕ → Page
  tlb : ℕ → TranslationEntry
  tlbCounter : ℤ
  ipt : ℕ → IptEntry
  bm : BitMap
  sfBM : BitMap
  swapFile : ℕ → Page
  fifoQueue : List ℕ
  processTable : Table Process
  current : Option (ℤ × ℕ)
  threadCounter : ℕ

/-- The `AddrSpace` of process `pid`, reached through `ProcessTable`. -/
def Vm.setSpace (s : Vm) (pid : ℤ) (a : AddrSpace) : Vm :=
  match s.processTable.get pid with
  | none => s
  | some p => { s with processTable := s.processTable.store pid { p with space := a } }

/-! ## Eviction -/

/-- The TLB loop of an eviction. It runs to `i<=TLBSize`, one past the array. -/
def invalidateFrame (tlb : ℕ → TranslationEntry) (phy : ℕ) : ℕ → TranslationEntry :=
  fun i =>
    if i ≤ tlbSize ∧ (tlb i).physicalPage = phy then { tlb i with valid := false } else tlb i

/-- The body of `writeOneToSwapFile` that both policies share. A full swap file
makes `Find` return `-1`, and the page would be written before the file. The
inverted entry of the frame is left as it is. -/
def evict (s : Vm) (phy : ℕ) : Option Vm :=
  match BitMap.find swapFileMaxPages s.sfBM with
  | none => none
  | some locNum =>
      match s.processTable.get (s.ipt phy).pid with
      | none => none
      | some p =>
          let s' : Vm := { s with
            tlb := invalidateFrame s.tlb phy
            sfBM := s.sfBM.mark locNum
            swapFile := Function.update s.swapFile locNum (s.mainMemory phy)
            mainMemory := Function.update s.mainMemory phy zeroPage
            bm := s.bm.clear phy }
          some (s'.setSpace (s.ipt phy).pid
            (p.space.pageToSwapFile (s.ipt phy).virtualPage locNum))

/-- `writeOneToSwapFile`; `rand` is what `rand()` returns. -/
def writeOneToSwapFile (s : Vm) (rand : ℕ) : Option Vm :=
  match s.policy with
  | .rand => evict s (rand % 32)
  | .fifo =>
      match s.fifoQueue with
      | [] => none
      | phy :: rest => (evict s phy).map fun s => { s with fifoQueue := rest }

/-- `bm->Find()`, with one eviction and a second try when memory is full. -/
def findFrame (s : Vm) (rand : ℕ) : Option (Vm × ℕ) :=
  match BitMap.find numPhysPages s.bm with
  | some f => some ({ s with bm := s.bm.mark f }, f)
  | none =>
      match writeOneToSwapFile s rand with
      | none => none
      | some s =>
          -- the frame just cleared is the only free one
          match BitMap.find numPhysPages s.bm with
          | none => none
          | some f => some ({ s with bm := s.bm.mark f }, f)

/-! ## Faults -/

/-- The end of every branch of `updateIPT`: frame `f` now holds page `vpn` of
process `pid` with these contents. -/
def install (s : Vm) (pid : ℤ) (a : AddrSpace) (vpn f : ℕ) (contents : Page) : Vm :=
  let s' : Vm := { s with
    mainMemory := Function.update s.mainMemory f contents
    ipt := Function.update s.ipt f ⟨vpn, pid, true, (s.ipt f).readOnly⟩
    fifoQueue := if s.policy = .fifo then s.fifoQueue ++ [f] else s.fifoQueue }
  s'.setSpace pid (a.setEntry vpn { a.pageTable vpn with physicalPage := f, valid := true })

/-- `updateIPT`. A page number out of range returns with `IPTLock` held, and the
thread never gets any further. -/
def updateIPT (s : Vm) (vaddr : ℕ) (pid : ℤ) (rand : ℕ) : Option Vm :=
  match s.processTable.get pid with
  | none => none
  | some p =>
      let vpn := vaddr / pageSize
      if p.space.numPages ≤ vpn then none
      else
        match findFrame s rand with
        | none => none
        | some (s, f) =>
            -- the page table is looked at again: an eviction may have changed it
            match s.processTable.get pid with
            | none => none
            | some p' =>
                let a := p'.space
                if (p.space.pageTable vpn).status ≠ .swapFile then
                  if vpn < a.exec.codeAndInitDataNumPages then
                    some (install s pid a vpn f
                      (a.exec.loadPage vpn (a.pageTable vpn).diskLocation))
                  -- the frame is not cleared here
                  else some (install s pid a vpn f (s.mainMemory f))
                else
                  let diskloc := (a.pageTable vpn).diskLocation
                  some { install s pid a vpn f (s.swapFile (diskloc / pageSize)) with
                    sfBM := s.sfBM.clear (diskloc / pageSize) }

/-- `findIPTIndex`, for the process of the running thread. -/
def findIPTIndex (s : Vm) (pid : ℤ) (vpn : ℕ) : Option ℕ :=
  (List.range numPhysPages).find? fun k =>
    (s.ipt k).valid && (s.ipt k).pid == pid && (s.ipt k).virtualPage == vpn

/-- `TLBCounter%TLBSize`, if it is an index. The remainder of a negative number is
negative, or 0. -/
def tlbIndex (counter : ℤ) : Option ℕ :=
  if counter.tmod tlbSize < 0 then none else some (counter.tmod tlbSize).toNat

/-- `addTLB`. -/
def addTLB (s : Vm) (ppn : ℕ) : Vm :=
  { s with
    tlb :=
      match tlbIndex s.tlbCounter with
      | some i => Function.update s.tlb i
          ⟨(s.ipt ppn).virtualPage, ppn, (s.ipt ppn).valid, (s.ipt ppn).readOnly⟩
      | none => s.tlb
    tlbCounter := increment s.tlbCounter }

/-- `updateTLB`, the handler of a page fault. -/
def updateTLB (s : Vm) (pid : ℤ) (vaddr rand : ℕ) : Option Vm :=
  match findIPTIndex s pid (vaddr / pageSize) with
  | none => updateIPT s vaddr pid rand
  | some ppn => some (addTLB s ppn)

/-! ## Translation and memory access -/

inductive ExceptionType where
  | addressError
  | pageFault
  | readOnly
  | busError
deriving DecidableEq, Repr

/-- An access of this size at this address passes the alignment check; other
sizes end in `ASSERT(FALSE)`. -/
def Aligned (vaddr size : ℕ) : Prop :=
  size = 1 ∨ size = 2 ∧ vaddr % 2 = 0 ∨ size = 4 ∧ vaddr % 4 = 0

instance (vaddr size : ℕ) : Decidable (Aligned vaddr size) :=
  inferInstanceAs (Decidable (_ ∨ _))

/-- `Translate`: the frame of the page; the offset in it is that of the address. -/
def translate (s : Vm) (vaddr size : ℕ) (writing : Bool) : Except ExceptionType ℕ :=
  if ¬ Aligned vaddr size then .error .addressError
  else
    match (List.range tlbSize).find? fun i =>
        (s.tlb i).valid && (s.tlb i).virtualPage == vaddr / pageSize with
    | none => .error .pageFault
    | some i =>
        if (s.tlb i).readOnly && writing then .error .readOnly
        else if numPhysPages ≤ (s.tlb i).physicalPage then .error .busError
        else .ok (s.tlb i).physicalPage

/-- `addTLB` is to write in front of the TLB. -/
def leavesTLB (s : Vm) (pid : ℤ) (vaddr : ℕ) : Bool :=
  (findIPTIndex s pid (vaddr / pageSize)).isSome && (tlbIndex s.tlbCounter).isNone

/-- An instruction is retried after every page fault. Every other exception
halts the machine. -/
def access (pid : ℤ) (vaddr size : ℕ) (writing : Bool) (rand : ℕ) : (tries : ℕ) → Vm → Option (Vm × ℕ)
  | 0, _ => none
  | tries + 1, s =>
      match translate s vaddr size writing with
      | .ok frame => some (s, frame)
      | .error .pageFault =>
          if leavesTLB s pid vaddr then none
          else
            match updateTLB s pid vaddr rand with
            | none => none
            | some s => access pid vaddr size writing rand tries s
      | .error _ => none

/-- A page that is not in memory faults twice before the access goes through. -/
def maxTries : ℕ := 3

/-- The bytes that `ReadMem` assembles its value from. -/
def readBytes (s : Vm) (frame vaddr size : ℕ) : List UInt8 :=
  (List.range size).map fun i => s.mainMemory frame (vaddr % pageSize + i)

/-- The bytes that `WriteMem` takes its value apart into, stored one by one. -/
def storeBytes (page : Page) : (offset : ℕ) → List UInt8 → Page
  | _, [] => page
  | offset, b :: bs => storeBytes (Function.update page offset b) (offset + 1) bs

def writeBytes (s : Vm) (frame vaddr : ℕ) (bytes : List UInt8) : Vm :=
  { s with
    mainMemory := Function.update s.mainMemory frame
      (storeBytes (s.mainMemory frame) (vaddr % pageSize) bytes) }

/-! ## Processes and threads -/

/-- `RestoreState`: the TLB belongs to one process at a time. -/
def restoreState (s : Vm) : Vm :=
  { s with tlb := fun i => if i ≤ tlbSize then { s.tlb i with valid := false } else s.tlb i }

/-- The post office has a hundred boxes, and the network thread that `Exec`
starts before the new process asserts that box `threadCounter+1` is one of them. -/
def numBoxes : ℕ := 100

/-- `Exec_Syscall`: the process gets the first free slot, or `-1`. -/
def execSyscall (s : Vm) (x : Executable) : Option (Vm × ℤ) :=
  if s.threadCounter + 1 < numBoxes then
    let (pid, processTable) := s.processTable.put (.create x)
    some ({ s with processTable, threadCounter := s.threadCounter + 2 }, pid)
  else none

/-- `Fork_Syscall`: the thread is counted at once and has a stack when it runs. -/
def forkSyscall (s : Vm) (pid : ℤ) : Option Vm :=
  match s.processTable.get pid with
  | none => none
  | some p =>
      some { s with
        processTable := s.processTable.store pid
          { p with
            threads := p.threads ++ [⟨none, false⟩]
            childThreadCounter := p.childThreadCounter + 1 } }

/-- `kernel_thread`: the first thing a forked thread does. -/
def kernelThread (s : Vm) (pid : ℤ) (tid : ℕ) : Option Vm :=
  match s.processTable.get pid with
  | none => none
  | some p =>
      if p.threads[tid]? = some ⟨none, false⟩ then
        let space := p.space.incrementStackSpace
        -- the stack pointer starts 16 bytes below the top, so this rounds up to the first page
        let sVPN := divRoundUp (space.stackStartVirtualAddress - 1024) pageSize
        some (restoreState { s with
          processTable := s.processTable.store pid
            { p with space, threads := p.threads.set tid ⟨some sVPN, false⟩ }
          current := some (pid, tid) })
      else none

/-- `Scheduler::Run` with a thread that has run before, or `exec_thread` with the
main thread of a new process. -/
def schedulerRun (s : Vm) (pid : ℤ) (tid : ℕ) : Option Vm :=
  match s.processTable.get pid with
  | none => none
  | some p =>
      match p.threads[tid]? with
      | some ⟨some _, false⟩ => some (restoreState { s with current := some (pid, tid) })
      | _ => none

/-- `Exit_Syscall` of thread `tid`. The last thread takes the process with it;
another one gives up its stack unless it is the main thread. -/
def exitSyscall (s : Vm) (pid : ℤ) (tid : ℕ) : Option Vm :=
  match s.processTable.get pid with
  | none => none
  | some p =>
      if p.childThreadCounter - 1 = 0 then
        -- the inverted entries of the pages stay valid, here and below
        some { s with
          processTable := (s.processTable.remove pid).2
          bm := p.space.deleteSpace p.space.numPages 0 s.bm
          current := none }
      else
        match p.threads[tid]? with
        | some ⟨some startVPN, _⟩ =>
            let (space, bm) :=
              if tid ≠ 0 then p.space.decreaseStackSpace s.bm 8 startVPN else (p.space, s.bm)
            some { s with
              processTable := s.processTable.store pid
                { p with
                  space
                  threads := p.threads.set tid ⟨some startVPN, true⟩
                  childThreadCounter := p.childThreadCounter - 1 }
              bm
              current := none }
        | _ => none

/-! ## The machine -/

inductive Label where
  | exec (x : Executable)
  | fork
  | start (pid : ℤ) (tid : ℕ)
  | run (pid : ℤ) (tid : ℕ)
  | read (vaddr size rand : ℕ)
  | write (vaddr : ℕ) (bytes : List UInt8) (rand : ℕ)
  | exit

def Label.isExit : Label → Bool
  | .exit => true
  | _ => false

inductive Event where
  | exec (pid : ℤ)
  | read (pid : ℤ) (vaddr : ℕ) (bytes : List UInt8)
  | write (pid : ℤ) (vaddr : ℕ) (bytes : List UInt8)
  | other
deriving DecidableEq, Repr

/-- One step of the machine: a syscall of the running thread, a user access with
all its faults, or the scheduler. -/
def step (s : Vm) (l : Label) : Option (Vm × Event) :=
  match l, s.current with
  | .exec x, some _ => (execSyscall s x).map fun (s, pid) => (s, .exec pid)
  | .fork, some (pid, _) => (forkSyscall s pid).map (·, .other)
  | .start pid tid, _ => (kernelThread s pid tid).map (·, .other)
  | .run pid tid, _ => (schedulerRun s pid tid).map (·, .other)
  | .read vaddr size rand, some (pid, _) =>
      (access pid vaddr size false rand maxTries s).map fun (s, frame) =>
        (s, .read pid vaddr (readBytes s frame vaddr size))
  | .write vaddr bytes rand, some (pid, _) =>
      (access pid vaddr bytes.length true rand maxTries s).map fun (s, frame) =>
        (writeBytes s frame vaddr bytes, .write pid vaddr bytes)
  | .exit, some (pid, tid) => (exitSyscall s pid tid).map (·, .other)
  | _, none => none

/-- The machine when the first process starts: memory is zero, no entry of the
TLB or the inverted page table is valid, everything else there is arbitrary. -/
def boot (policy : Policy) (tlb : ℕ → TranslationEntry) (ipt : ℕ → IptEntry)
    (swapFile : ℕ → Page) (x : Executable) : Vm where
  policy := policy
  mainMemory := fun _ => zeroPage
  tlb := fun i => { tlb i with valid := false }
  tlbCounter := 0
  ipt := fun f => { ipt f with valid := false }
  bm := fun _ => false
  sfBM := fun _ => false
  swapFile := swapFile
  fifoQueue := []
  processTable := ((Table.empty 100).put (.create x)).2
  current := some (0, 0)
  threadCounter := 0

/-- Four bytes of code and four of data. -/
def sampleProgram : Executable where
  file := [1, 2, 3, 4, 5, 6, 7, 8]
  code := ⟨0, 0, 4⟩
  initData := ⟨4, 4, 4⟩
  uninitData := ⟨8, 0, 0⟩
  code_at_zero := rfl
  data_follows := by decide
  in_file := by decide

/-- A program of nothing but `size` bytes that are not initialised. -/
def bssOnly (size : ℕ) : Executable where
  file := []
  code := ⟨0, 0, 0⟩
  initData := ⟨0, 0, 0⟩
  uninitData := ⟨0, 0, size⟩
  code_at_zero := rfl
  data_follows := fun h => absurd h (Nat.lt_irrefl 0)
  in_file := Nat.le_refl 0

/-- A machine that starts the small program under FIFO. -/
def bootSample : Vm :=
  boot .fifo (fun _ => ⟨0, 0, false, false⟩) (fun _ => ⟨0, 0, false, false⟩) (fun _ => zeroPage)
    sampleProgram

end Nachos.VM
