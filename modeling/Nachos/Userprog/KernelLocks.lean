import Nachos.Threads.Synch
import Nachos.Userprog.Descriptors
import Nachos.VM.Space

/-!
# The locks of the kernel in system calls and page faults

`PLock` guards the tables of processes and threads, `IPTLock` the inverted page
table. Both are taken and released by hand in the handlers of `ExceptionHandler`.
Here every handler is cut at the operations on the two locks, and any number of
threads run their handlers interleaved, a cut apart.

What the handlers find elsewhere is left open: whether a page is in the TLB or in
`ipt`, whether a file opens, how much of it is read. The counters that decide the
course of `Exit` and the number of pages that decides the course of `updateIPT`
are in the state.
-/

namespace Nachos.Userprog.Locking

open Nachos.Lib Nachos.Threads
open Nachos.VM (pageSize)

/-! ## The handlers -/

/-- The two locks. -/
inductive LockName where
  | pLock
  | iptLock
deriving DecidableEq, Repr

/-- The system calls with the registers they read; `unknown` is any other number. -/
inductive Call where
  | halt
  | exit (status : ℤ)
  | exec (vaddr : UInt32)
  | create (vaddr : UInt32) (len : ℤ)
  | open (vaddr : UInt32) (len : ℤ)
  | read (vaddr : UInt32) (len id : ℤ)
  | write (vaddr : UInt32) (len id : ℤ)
  | close (id : ℤ)
  | fork (vaddr : UInt32)
  | yield
  | createCondition (vaddr : UInt32) (len : ℤ)
  | destroyCondition (cond : ℤ)
  | waitCondition (cond lock : ℤ)
  | signalCondition (cond lock : ℤ)
  | broadcastCondition (cond lock : ℤ)
  | createLock (vaddr : UInt32) (len : ℤ)
  | destroyLock (lock : ℤ)
  | acquireLock (lock : ℤ)
  | releaseLock (lock : ℤ)
  | createMonitor (vaddr : UInt32) (len : ℤ)
  | retrieveMonitor (mon : ℤ)
  | setMonitor (mon value : ℤ)
  | startSimulation
  | unknown (type : ℤ)
deriving DecidableEq, Repr

/-- Where a thread is in `updateTLB`: before `findIPTIndex` takes the lock, in its
search, before `updateIPT` takes the lock, and in what it does with it. -/
inductive FaultPc where
  | find
  | scan
  | update
  | load
deriving DecidableEq, Repr

/-- What a page fault interrupted: an instruction of the user, the `ReadMem` of
`copyin` (with the call it is part of) or the `WriteMem` of `copyout`. -/
inductive Within where
  | user
  | copyin (c : Call) (vaddr : UInt32) (left : ℕ)
  | copyout
deriving DecidableEq, Repr

/-- Where a thread is. The names ending in `Enter` stand before the `Acquire` of a
call, those ending in `Body` behind it. -/
inductive Pc where
  | startProcess
  | startBody
  | user
  | fault (w : Within) (vaddr : UInt32) (at_ : FaultPc)
  | copyin (c : Call) (vaddr : UInt32) (left : ℕ)
  | copyout (vaddr : UInt32) (left : ℕ)
  /-- The part of a call that uses neither lock. -/
  | call (c : Call)
  | execEnter
  | execBody
  | forkEnter
  | forkBody
  /-- Before the second `Acquire` of `Fork_Syscall`. -/
  | forkAgain
  | forkLeave
  /-- A forked thread, before `kernel_thread`. -/
  | kernelThread
  | exitEnter
  | exitBody
  /-- Before the `Finish` that follows the `Release` of `Exit_Syscall`. -/
  | finishing
  | finished
deriving DecidableEq, Repr

/-- Where the handler of a call starts, unless the call halts the machine. -/
def Call.entry : Call → Option Pc
  | .halt => none
  | .unknown _ => none
  | .exit _ => some .exitEnter
  | .fork _ => some .forkEnter
  | .exec vaddr => some (.copyin (.exec vaddr) vaddr 20)
  | .create vaddr len => some (.copyin (.create vaddr len) vaddr len.toNat)
  | .open vaddr len => some (.copyin (.open vaddr len) vaddr len.toNat)
  | .write vaddr len id =>
      if id = consoleInput then some (.call (.write vaddr len id))
      else some (.copyin (.write vaddr len id) vaddr len.toNat)
  | .createLock vaddr len => some (.copyin (.createLock vaddr len) vaddr len.toNat)
  | .createCondition vaddr len => some (.copyin (.createCondition vaddr len) vaddr len.toNat)
  | .createMonitor vaddr len => some (.copyin (.createMonitor vaddr len) vaddr len.toNat)
  | c => some (.call c)

/-- What follows the `copyin` of a call. -/
def Call.copied : Call → Pc
  | .exec _ => .execEnter
  | c => .call c

/-- Where a thread goes on when its page fault has been handled. `copyin` tries the
same byte again; `copyout` gives up, and with it the call. -/
def Within.resume : Within → Pc
  | .user => .user
  | .copyin c vaddr left => .copyin c vaddr left
  | .copyout => .user

/-- What the handlers read of a process and of its space. -/
structure Process where
  childThreadCounter : ℤ
  numPages : ℕ
deriving DecidableEq, Repr

structure Thread where
  pc : Pc
  /-- The place of its process in the order of creation. -/
  parentProcess : ℕ
deriving DecidableEq, Repr

structure Kernel where
  locks : LockName → Lock ℕ
  processCounter : ℤ
  processes : List Process
  threads : List Thread
  halted : Bool

/-- What becomes of a thread next, as far as the code leaves it open here. -/
inductive Choice where
  /-- A system call of the user. -/
  | trap (c : Call)
  /-- An instruction of the user faults on an address. -/
  | pageFault (vaddr : UInt32)
  /-- The machine halts: a call for it, an unknown one, an exception that is no page
  fault, a send that fails. -/
  | halt
  /-- The thread goes on; the outcome of the test it makes, if it makes one. -/
  | go (found : Bool)
  /-- The file to run opens, with the number of pages of the space, or not. -/
  | opens (numPages : Option ℕ)
  /-- `Read` has got this many bytes. -/
  | got (n : ℕ)
deriving DecidableEq, Repr

structure Label where
  tid : ℕ
  choice : Choice
deriving DecidableEq, Repr

/-- What a step does to a lock. -/
inductive LockOp where
  | none
  | acquire (l : LockName)
  | release (l : LockName)
deriving DecidableEq, Repr

/-- The function that a thread is forked with. -/
inductive Body where
  | execThread
  | kernelThread
deriving DecidableEq, Repr

/-- `exec_thread` goes to user mode without a lock. -/
def Body.pc : Body → Pc
  | .execThread => .user
  | .kernelThread => .kernelThread

/-- A step of a thread: its operation on a lock, what becomes of the thread and of
the tables. -/
structure Move where
  op : LockOp
  thread : Thread
  processCounter : ℤ
  processes : List Process
  /-- The threads that are forked, with their processes. -/
  forked : List (Body × ℕ)

namespace Kernel

/-- A step that leaves the tables as they are. -/
def stay (s : Kernel) (th : Thread) (op : LockOp) (pc : Pc) : Move :=
  ⟨op, { th with pc := pc }, s.processCounter, s.processes, []⟩

/-- `updateTLB(vaddr)` of a thread of process `p`. -/
def updateTLB (s : Kernel) (th : Thread) (p : Process) (w : Within) (vaddr : UInt32)
    (found : Bool) : FaultPc → Move
  | .find => s.stay th (.acquire .iptLock) (.fault w vaddr .scan)
  | .scan =>
      if found then s.stay th (.release .iptLock) w.resume
      else s.stay th (.release .iptLock) (.fault w vaddr .update)
  | .update => s.stay th (.acquire .iptLock) (.fault w vaddr .load)
  | .load =>
      -- `updateIPT` returns at once when the page is beyond the space
      if p.numPages ≤ vaddr.toNat / pageSize then s.stay th .none w.resume
      else s.stay th (.release .iptLock) w.resume

/-- The common part of `StartProcess` and `Exec_Syscall`, behind the `Acquire`. The
new process has a thread, the caller in the one and a new one in the other. -/
def createProcess (s : Kernel) (th : Thread) (numPages : ℕ) (forked : List (Body × ℕ)) : Move :=
  ⟨.release .pLock, th, s.processCounter + 1, s.processes ++ [⟨1, numPages⟩], forked⟩

/-- `Exit_Syscall` behind its `Acquire`. -/
def exitSyscall (s : Kernel) (th : Thread) (p : Process) : Move :=
  let processes := s.processes.set th.parentProcess ⟨p.childThreadCounter - 1, p.numPages⟩
  if p.childThreadCounter - 1 = 0 then
    if s.processCounter - 1 = 0 then
      -- `Finish` stands before `Release` and does not return
      ⟨.none, { th with pc := .finished }, s.processCounter - 1, processes, []⟩
    else ⟨.release .pLock, { th with pc := .finishing }, s.processCounter - 1, processes, []⟩
  else ⟨.release .pLock, { th with pc := .finishing }, s.processCounter, processes, []⟩

/-- `Fork_Syscall` between its two calls of `Acquire`. -/
def forkSyscall (s : Kernel) (th : Thread) (p : Process) : Move :=
  ⟨.none, { th with pc := .forkAgain }, s.processCounter,
    s.processes.set th.parentProcess ⟨p.childThreadCounter + 1, p.numPages⟩,
    [(.kernelThread, th.parentProcess)]⟩

/-- `kernel_thread`, with the pages that `IncrementStackSpace` adds. -/
def kernelThread (s : Kernel) (th : Thread) (p : Process) : Move :=
  ⟨.none, { th with pc := .user }, s.processCounter,
    s.processes.set th.parentProcess ⟨p.childThreadCounter, p.numPages + 8⟩, []⟩

/-- The step of a thread that is not asleep. -/
def move (s : Kernel) (th : Thread) : Pc → Choice → Option Move
  | .startProcess, .go _ => some (s.stay th (.acquire .pLock) .startBody)
  -- without a program to run the main thread ends
  | .startBody, .opens none => some (s.stay th (.release .pLock) .finishing)
  | .startBody, .opens (some n) =>
      some (s.createProcess ⟨.user, s.processes.length⟩ n [])
  | .user, .trap c => c.entry.map (s.stay th .none)
  | .user, .pageFault vaddr => some (s.stay th .none (.fault .user vaddr .find))
  | .fault w vaddr f, .go found =>
      s.processes[th.parentProcess]?.map fun p => s.updateTLB th p w vaddr found f
  | .copyin c vaddr left, .go found =>
      if left = 0 then some (s.stay th .none c.copied)
      else if found then some (s.stay th .none (.copyin c (vaddr + 1) (left - 1)))
      else some (s.stay th .none (.fault (.copyin c vaddr left) vaddr .find))
  | .copyout vaddr left, .go found =>
      if left = 0 then some (s.stay th .none .user)
      else if found then some (s.stay th .none (.copyout (vaddr + 1) (left - 1)))
      else some (s.stay th .none (.fault .copyout vaddr .find))
  | .call _, .go _ => some (s.stay th .none .user)
  | .call (.read vaddr len id), .got n =>
      if id = consoleOutput ∨ len.toNat < n then none
      else some (s.stay th .none (.copyout vaddr n))
  | .execEnter, .go _ => some (s.stay th (.acquire .pLock) .execBody)
  | .execBody, .opens none => some (s.stay th (.release .pLock) .user)
  | .execBody, .opens (some n) =>
      some (s.createProcess { th with pc := .user } n [(.execThread, s.processes.length)])
  | .forkEnter, .go _ => some (s.stay th (.acquire .pLock) .forkBody)
  | .forkBody, .go _ => s.processes[th.parentProcess]?.map (s.forkSyscall th)
  | .forkAgain, .go _ => some (s.stay th (.acquire .pLock) .forkLeave)
  | .forkLeave, .go _ => some (s.stay th .none .user)
  | .kernelThread, .go _ => s.processes[th.parentProcess]?.map (s.kernelThread th)
  | .exitEnter, .go _ => some (s.stay th (.acquire .pLock) .exitBody)
  | .exitBody, .go _ => s.processes[th.parentProcess]?.map (s.exitSyscall th)
  | .finishing, .go _ => some (s.stay th .none .finished)
  | _, _ => none

/-- The thread sleeps in `Acquire`. -/
def Asleep (s : Kernel) (tid : ℕ) : Prop := ∃ l, tid ∈ (s.locks l).waitQueue

instance (s : Kernel) (tid : ℕ) : Decidable (s.Asleep tid) :=
  decidable_of_iff (tid ∈ (s.locks .pLock).waitQueue ∨ tid ∈ (s.locks .iptLock).waitQueue) <| by
    constructor
    · rintro (h | h)
      · exact ⟨_, h⟩
      · exact ⟨_, h⟩
    · rintro ⟨l, h⟩
      cases l
      · exact .inl h
      · exact .inr h

def operate (locks : LockName → Lock ℕ) (tid : ℕ) : LockOp → LockName → Lock ℕ
  | .none => locks
  | .acquire l => Function.update locks l ((locks l).acquire tid)
  | .release l => Function.update locks l ((locks l).release tid)

/-- The state after a step of thread `tid`. -/
def perform (s : Kernel) (tid : ℕ) (m : Move) : Kernel where
  locks := operate s.locks tid m.op
  processCounter := m.processCounter
  processes := m.processes
  threads := s.threads.set tid m.thread ++ m.forked.map fun f => ⟨f.1.pc, f.2⟩
  halted := s.halted

def step (s : Kernel) (l : Label) : Option (Kernel × LockOp) :=
  if s.halted ∨ s.Asleep l.tid then none
  else if l.choice = .halt then some ({ s with halted := true }, .none)
  else
    s.threads[l.tid]?.bind fun th =>
      (s.move th th.pc l.choice).map fun m => (s.perform l.tid m, m.op)

/-! ## Balance -/

end Kernel

/-- A handler has returned: the thread is in user mode or has finished, or a page
fault that `copyin` or `copyout` ran into has been handled. -/
def Pc.Returned : Pc → Prop
  | .user | .finished | .copyin .. | .copyout .. => True
  | _ => False

namespace Kernel

/-- **Lock balance.** A thread whose handler has returned owns neither lock, and who
waits for a lock waits for a thread that is still in its handler. -/
structure Balanced (s : Kernel) : Prop where
  released : ∀ l tid th, s.threads[tid]? = some th → th.pc.Returned →
    (s.locks l).lockerOwner ≠ some tid
  waiting : ∀ l, ∀ tid ∈ (s.locks l).waitQueue, ∃ owner th,
    (s.locks l).lockerOwner = some owner ∧ s.threads[owner]? = some th ∧ ¬ th.pc.Returned

/-- Thread `th` is about to leave a handler with a lock: at the end of
`Fork_Syscall`, in the `Exit_Syscall` of the last thread of the last process, in
`updateIPT` with a page beyond the space. -/
def Leaks (s : Kernel) (th : Thread) : Prop :=
  match th.pc with
  | .forkLeave => True
  | .exitBody =>
      s.processCounter = 1 ∧ ∃ p ∈ s.processes[th.parentProcess]?, p.childThreadCounter = 1
  | .fault _ vaddr .load =>
      ∃ p ∈ s.processes[th.parentProcess]?, p.numPages ≤ vaddr.toNat / pageSize
  | _ => False

instance (s : Kernel) (th : Thread) : Decidable (s.Leaks th) := by
  unfold Leaks
  split <;> infer_instance

/-- No handler is left with a lock. -/
def releases (_ : List LockOp) (s : Kernel) (l : Label) : Prop :=
  l.choice ≠ .halt → ∀ th ∈ s.threads[l.tid]?, ¬ s.Leaks th

instance (tr : List LockOp) (s : Kernel) (l : Label) : Decidable (releases tr s l) :=
  inferInstanceAs (Decidable (l.choice ≠ .halt → ∀ th ∈ s.threads[l.tid]?, ¬ s.Leaks th))

/-- Any tables and any threads, none of them in a handler, and both locks free. -/
structure Start (s : Kernel) : Prop where
  locks : ∀ l, (s.locks l).lockerOwner = none
  threads : ∀ th ∈ s.threads, th.pc = .startProcess ∨ th.pc = .user ∨ th.pc = .finished

end Kernel

/-! ## What the places hold -/

/-- The lock that the code at this place has acquired and is to release. -/
def Pc.holds : Pc → Option LockName
  | .startBody | .execBody | .forkBody | .forkAgain | .forkLeave | .exitBody => some .pLock
  | .fault _ _ .scan | .fault _ _ .load => some .iptLock
  | _ => none

theorem Pc.Returned.holds {pc : Pc} (h : pc.Returned) : pc.holds = none := by
  cases pc with
  | user | finished | copyin | copyout => rfl
  | _ => exact h.elim

theorem Within.resume_returned (w : Within) : w.resume.Returned := by
  cases w <;> exact trivial

theorem Call.copied_holds (c : Call) : c.copied.holds = none := by
  cases c <;> rfl

theorem Call.entry_holds {c : Call} {pc : Pc} (h : c.entry = some pc) : pc.holds = none := by
  unfold Call.entry at h
  split at h
  all_goals first
    | cases h
      rfl
    | split at h
      all_goals
        cases h
        rfl
    | cases h

namespace Kernel

/-- What a step can do with the locks: nothing; take a lock, which the thread holds
from then on; release the one it holds; or leave a handler with it. -/
inductive Locks (pc : Pc) : LockOp → Pc → Bool → Prop
  | none {pc' : Pc} (h : pc'.holds = pc.holds) : Locks pc .none pc' false
  | acquire {l : LockName} {pc' : Pc} (h : pc.holds = Option.none ∨ pc.holds = some l)
      (h' : pc'.holds = some l) : Locks pc (.acquire l) pc' false
  | release {l : LockName} {pc' : Pc} (h : pc.holds = some l) (h' : pc'.holds = Option.none) :
      Locks pc (.release l) pc' false
  | leak {l : LockName} {pc' : Pc} (h : pc.holds = some l) (h' : pc'.Returned) :
      Locks pc .none pc' true

variable {s s' : Kernel} {th : Thread} {m : Move} {c : Choice}

theorem Locks.of_not_leaks {pc pc' : Pc} {op : LockOp} (hleak : ¬ s.Leaks th)
    (h : Locks pc op pc' false) : Locks pc op pc' (decide (s.Leaks th)) := by
  rwa [decide_eq_false hleak]

theorem locks_updateTLB {p : Process} {w : Within} {vaddr : UInt32} {f : FaultPc} {found : Bool}
    (hpc : th.pc = .fault w vaddr f) (hp : s.processes[th.parentProcess]? = some p) :
    Locks th.pc (s.updateTLB th p w vaddr found f).op (s.updateTLB th p w vaddr found f).thread.pc
      (decide (s.Leaks th)) := by
  have hw := w.resume_returned
  cases f with
  | find =>
      refine .of_not_leaks (by simp [Leaks, hpc]) ?_
      exact .acquire (.inl (by rw [hpc]; rfl)) rfl
  | scan =>
      refine .of_not_leaks (by simp [Leaks, hpc]) ?_
      cases found with
      | true => exact .release (by rw [hpc]; rfl) hw.holds
      | false => exact .release (by rw [hpc]; rfl) rfl
  | update =>
      refine .of_not_leaks (by simp [Leaks, hpc]) ?_
      exact .acquire (.inl (by rw [hpc]; rfl)) rfl
  | load =>
      have hleak : s.Leaks th ↔ p.numPages ≤ vaddr.toNat / pageSize := by
        simp [Leaks, hpc, hp]
      unfold updateTLB
      by_cases hpage : p.numPages ≤ vaddr.toNat / pageSize
      · rw [if_pos hpage, decide_eq_true (hleak.mpr hpage)]
        exact .leak (l := .iptLock) (by rw [hpc]; rfl) hw
      · rw [if_neg hpage, decide_eq_false (mt hleak.mp hpage)]
        exact .release (by rw [hpc]; rfl) hw.holds

theorem locks_exitSyscall {p : Process} (hpc : th.pc = .exitBody)
    (hp : s.processes[th.parentProcess]? = some p) :
    Locks th.pc (s.exitSyscall th p).op (s.exitSyscall th p).thread.pc (decide (s.Leaks th)) := by
  have hleak : s.Leaks th ↔ p.childThreadCounter - 1 = 0 ∧ s.processCounter - 1 = 0 := by
    simp only [Leaks, hpc, hp, Option.mem_def, Option.some.injEq, exists_eq_left']
    omega
  have hheld : th.pc.holds = some .pLock := by
    rw [hpc]
    rfl
  unfold exitSyscall
  by_cases hlast : p.childThreadCounter - 1 = 0
  · by_cases hend : s.processCounter - 1 = 0
    · rw [if_pos hlast, if_pos hend, decide_eq_true (hleak.mpr ⟨hlast, hend⟩)]
      exact .leak hheld trivial
    · rw [if_pos hlast, if_neg hend, decide_eq_false (fun h => hend (hleak.mp h).2)]
      exact .release hheld rfl
  · rw [if_neg hlast, decide_eq_false (fun h => hlast (hleak.mp h).1)]
    exact .release hheld rfl

theorem move_copyin (call : Call) (vaddr : UInt32) (left : ℕ) (found : Bool) :
    s.move th (.copyin call vaddr left) (.go found) =
      if left = 0 then some (s.stay th .none call.copied)
      else if found then some (s.stay th .none (.copyin call (vaddr + 1) (left - 1)))
      else some (s.stay th .none (.fault (.copyin call vaddr left) vaddr .find)) := rfl

theorem move_copyout (vaddr : UInt32) (left : ℕ) (found : Bool) :
    s.move th (.copyout vaddr left) (.go found) =
      if left = 0 then some (s.stay th .none .user)
      else if found then some (s.stay th .none (.copyout (vaddr + 1) (left - 1)))
      else some (s.stay th .none (.fault .copyout vaddr .find)) := rfl

theorem move_read (vaddr : UInt32) (len id : ℤ) (n : ℕ) :
    s.move th (.call (.read vaddr len id)) (.got n) =
      if id = consoleOutput ∨ len.toNat < n then none
      else some (s.stay th .none (.copyout vaddr n)) := rfl

theorem locks_user (hpc : th.pc = .user) (h : s.move th .user c = some m) :
    Locks .user m.op m.thread.pc (decide (s.Leaks th)) := by
  refine .of_not_leaks (by simp [Leaks, hpc]) ?_
  cases c with
  | trap call =>
      obtain ⟨pc, hentry, rfl⟩ := Option.map_eq_some_iff.mp h
      exact .none (Call.entry_holds hentry)
  | pageFault vaddr =>
      cases h
      exact .none rfl
  | _ => cases h

theorem locks_copyin {call : Call} {vaddr : UInt32} {left : ℕ} (hpc : th.pc = .copyin call vaddr left)
    (h : s.move th (.copyin call vaddr left) c = some m) :
    Locks (.copyin call vaddr left) m.op m.thread.pc (decide (s.Leaks th)) := by
  refine .of_not_leaks (by simp [Leaks, hpc]) ?_
  cases c with
  | go found =>
      simp only [move_copyin] at h
      split at h
      · cases h
        exact .none call.copied_holds
      · split at h <;> cases h
        · exact .none rfl
        · exact .none rfl
  | _ => cases h

theorem locks_copyout {vaddr : UInt32} {left : ℕ} (hpc : th.pc = .copyout vaddr left)
    (h : s.move th (.copyout vaddr left) c = some m) :
    Locks (.copyout vaddr left) m.op m.thread.pc (decide (s.Leaks th)) := by
  refine .of_not_leaks (by simp [Leaks, hpc]) ?_
  cases c with
  | go found =>
      simp only [move_copyout] at h
      split at h
      · cases h
        exact .none rfl
      · split at h <;> cases h
        · exact .none rfl
        · exact .none rfl
  | _ => cases h

theorem locks_call {call : Call} (hpc : th.pc = .call call)
    (h : s.move th (.call call) c = some m) :
    Locks (.call call) m.op m.thread.pc (decide (s.Leaks th)) := by
  refine .of_not_leaks (by simp [Leaks, hpc]) ?_
  cases c with
  | go =>
      cases h
      exact .none rfl
  | got n =>
      cases call with
      | read vaddr len id =>
          simp only [move_read] at h
          split at h <;> cases h
          exact .none rfl
      | _ => cases h
  | _ => cases h

/-- Every step of every handler does one of these, and leaks where `Leaks` says so. -/
theorem locks_move {pc : Pc} (hpc : th.pc = pc) (h : s.move th pc c = some m) :
    Locks pc m.op m.thread.pc (decide (s.Leaks th)) := by
  cases pc with
  | fault w vaddr f =>
      cases c with
      | go found =>
          obtain ⟨p, hp, rfl⟩ := Option.map_eq_some_iff.mp h
          rw [← hpc]
          exact locks_updateTLB hpc hp
      | _ => cases h
  | exitBody =>
      cases c with
      | go found =>
          obtain ⟨p, hp, rfl⟩ := Option.map_eq_some_iff.mp h
          rw [← hpc]
          exact locks_exitSyscall hpc hp
      | _ => cases h
  | forkLeave =>
      have hleak : s.Leaks th := by simp [Leaks, hpc]
      rw [decide_eq_true hleak]
      cases c with
      | go found =>
          cases h
          exact .leak rfl trivial
      | _ => cases h
  | user => exact locks_user hpc h
  | copyin call vaddr left => exact locks_copyin hpc h
  | copyout vaddr left => exact locks_copyout hpc h
  | call call => exact locks_call hpc h
  | startProcess | execEnter | forkEnter | exitEnter =>
      refine .of_not_leaks (by simp [Leaks, hpc]) ?_
      cases c with
      | go found =>
          cases h
          exact .acquire (.inl rfl) rfl
      | _ => cases h
  | forkAgain =>
      refine .of_not_leaks (by simp [Leaks, hpc]) ?_
      cases c with
      | go found =>
          cases h
          exact .acquire (.inr rfl) rfl
      | _ => cases h
  | startBody | execBody =>
      refine .of_not_leaks (by simp [Leaks, hpc]) ?_
      cases c with
      | opens n =>
          cases n <;> cases h
          · exact .release rfl rfl
          · exact .release rfl rfl
      | _ => cases h
  | forkBody | kernelThread =>
      refine .of_not_leaks (by simp [Leaks, hpc]) ?_
      cases c with
      | go found =>
          obtain ⟨p, -, rfl⟩ := Option.map_eq_some_iff.mp h
          exact .none rfl
      | _ => cases h
  | finishing =>
      refine .of_not_leaks (by simp [Leaks, hpc]) ?_
      cases c with
      | go found =>
          cases h
          exact .none rfl
      | _ => cases h
  | finished => cases c <;> cases h

/-! ## The invariant -/

/-- The owners of the locks and the threads asleep are those whose place says so. -/
structure Held (s : Kernel) : Prop where
  owner : ∀ l tid, (s.locks l).lockerOwner = some tid →
    ∃ th, s.threads[tid]? = some th ∧ th.pc.holds = some l
  waiter : ∀ l, ∀ tid ∈ (s.locks l).waitQueue,
    ∃ th, s.threads[tid]? = some th ∧ th.pc.holds = some l
  holder : ∀ l tid th, s.threads[tid]? = some th → th.pc.holds = some l →
    (s.locks l).lockerOwner = some tid ∨ tid ∈ (s.locks l).waitQueue

theorem Held.start (h : Start s) : Held s := by
  constructor
  case owner =>
    intro l tid ho
    rw [h.locks l] at ho
    cases ho
  case waiter =>
    intro l tid hw
    rw [(s.locks l).idle (h.locks l)] at hw
    cases hw
  case holder =>
    intro l tid th hth hholds
    rcases h.threads th (List.mem_of_getElem? hth) with hpc | hpc | hpc <;>
      · rw [hpc] at hholds
        cases hholds

/-- A thread that runs owns the lock of its place. -/
theorem Held.owned (h : Held s) {tid : ℕ} {l : LockName} (hth : s.threads[tid]? = some th)
    (hawake : ¬ s.Asleep tid) (hholds : th.pc.holds = some l) :
    (s.locks l).lockerOwner = some tid := by
  rcases h.holder l tid th hth hholds with ho | hw
  · exact ho
  · exact absurd ⟨l, hw⟩ hawake

theorem Held.balanced (h : Held s) : Balanced s := by
  constructor
  case released =>
    intro l tid th hth hret ho
    obtain ⟨th', hth', hholds⟩ := h.owner l tid ho
    obtain rfl := Option.some.inj (hth.symm.trans hth')
    rw [hret.holds] at hholds
    cases hholds
  case waiting =>
    intro l tid hw
    obtain ⟨owner, ho⟩ := Lock.lockerOwner_of_waiting hw
    obtain ⟨th, hth, hholds⟩ := h.owner l owner ho
    refine ⟨owner, th, ho, hth, ?_⟩
    intro hret
    rw [hret.holds] at hholds
    cases hholds

/-! ### One step -/

section Steps

variable {tid : ℕ}

theorem perform_self (hth : s.threads[tid]? = some th) :
    (s.perform tid m).threads[tid]? = some m.thread := by
  obtain ⟨hlt, -⟩ := List.getElem?_eq_some_iff.mp hth
  have hset : tid < (s.threads.set tid m.thread).length := by rwa [List.length_set]
  show (s.threads.set tid m.thread ++ _)[tid]? = _
  rw [List.getElem?_append_left hset, List.getElem?_set_self hlt]

theorem perform_other {u : ℕ} {th' : Thread} (hne : u ≠ tid) (hth : s.threads[u]? = some th') :
    (s.perform tid m).threads[u]? = some th' := by
  obtain ⟨hlt, -⟩ := List.getElem?_eq_some_iff.mp hth
  have hset : u < (s.threads.set tid m.thread).length := by rwa [List.length_set]
  show (s.threads.set tid m.thread ++ _)[u]? = _
  rw [List.getElem?_append_left hset, List.getElem?_set_ne hne.symm, hth]

/-- A thread that holds a lock after the step of another one was there before. -/
theorem of_perform_other {u : ℕ} {th' : Thread} {l : LockName} (hne : u ≠ tid)
    (h : (s.perform tid m).threads[u]? = some th') (hholds : th'.pc.holds = some l) :
    s.threads[u]? = some th' := by
  change (s.threads.set tid m.thread ++ _)[u]? = _ at h
  rcases lt_or_ge u (s.threads.set tid m.thread).length with hlt | hge
  · rwa [List.getElem?_append_left hlt, List.getElem?_set_ne hne.symm] at h
  · -- a forked thread holds nothing
    rw [List.getElem?_append_right hge] at h
    obtain ⟨⟨body, pid⟩, -, rfl⟩ := List.mem_map.mp (List.mem_of_getElem? h)
    cases body <;> cases hholds

/-- The thread holds `l` by its place. -/
def Holds (s : Kernel) (u : ℕ) (l : LockName) : Prop :=
  ∃ th, s.threads[u]? = some th ∧ th.pc.holds = some l

/-- What has to be known of the locks after a step of thread `tid`. -/
theorem Held.perform (hth : s.threads[tid]? = some th)
    (howner : ∀ l u, (operate s.locks tid m.op l).lockerOwner = some u →
      u = tid ∧ m.thread.pc.holds = some l ∨ u ≠ tid ∧ s.Holds u l)
    (hwaiter : ∀ l, ∀ u ∈ (operate s.locks tid m.op l).waitQueue,
      u = tid ∧ m.thread.pc.holds = some l ∨ u ≠ tid ∧ s.Holds u l)
    (hself : ∀ l, m.thread.pc.holds = some l →
      (operate s.locks tid m.op l).lockerOwner = some tid ∨
        tid ∈ (operate s.locks tid m.op l).waitQueue)
    (hother : ∀ l u, u ≠ tid → s.Holds u l →
      (operate s.locks tid m.op l).lockerOwner = some u ∨
        u ∈ (operate s.locks tid m.op l).waitQueue) :
    Held (s.perform tid m) := by
  have hplace : ∀ l u, u = tid ∧ m.thread.pc.holds = some l ∨ u ≠ tid ∧ s.Holds u l →
      (s.perform tid m).Holds u l := by
    rintro l u (⟨rfl, hholds⟩ | ⟨hne, th', hth', hholds⟩)
    · exact ⟨_, perform_self hth, hholds⟩
    · exact ⟨th', perform_other hne hth', hholds⟩
  constructor
  case owner => exact fun l u ho => hplace l u (howner l u ho)
  case waiter => exact fun l u hw => hplace l u (hwaiter l u hw)
  case holder =>
    intro l u th' hth' hholds
    by_cases hu : u = tid
    · subst hu
      obtain rfl := Option.some.inj ((perform_self hth).symm.trans hth')
      exact hself l hholds
    · exact hother l u hu ⟨th', of_perform_other hu hth' hholds, hholds⟩

/-- Somebody who holds a lock by his place, the thread that runs or another one. -/
theorem Holds.split {u : ℕ} {l : LockName} (hu : s.Holds u l) (hth : s.threads[tid]? = some th) :
    u = tid ∧ th.pc.holds = some l ∨ u ≠ tid ∧ s.Holds u l := by
  by_cases heq : u = tid
  · subst heq
    obtain ⟨th', hth', hholds⟩ := hu
    obtain rfl := Option.some.inj (hth.symm.trans hth')
    exact .inl ⟨rfl, hholds⟩
  · exact .inr ⟨heq, hu⟩

theorem Held.step_none (h : Held s) (hth : s.threads[tid]? = some th) (hop : m.op = .none)
    (hholds : m.thread.pc.holds = th.pc.holds) : Held (s.perform tid m) := by
  have hlocks : operate s.locks tid m.op = s.locks := by
    rw [hop]
    rfl
  refine Held.perform hth ?_ ?_ ?_ ?_ <;> rw [hlocks]
  · intro l u ho
    rw [hholds]
    exact Holds.split (h.owner l u ho) hth
  · intro l u hw
    rw [hholds]
    exact Holds.split (h.waiter l u hw) hth
  · intro l hl
    rw [hholds] at hl
    exact h.holder l tid th hth hl
  · rintro l u - ⟨th', hth', hl⟩
    exact h.holder l u th' hth' hl

theorem Held.step_acquire (h : Held s) (hth : s.threads[tid]? = some th) {l : LockName}
    (hop : m.op = .acquire l) (hbefore : th.pc.holds = none ∨ th.pc.holds = some l)
    (hafter : m.thread.pc.holds = some l) : Held (s.perform tid m) := by
  have hlocks : operate s.locks tid m.op = Function.update s.locks l ((s.locks l).acquire tid) := by
    rw [hop]
    rfl
  -- what the thread holds, if anything, is the lock it acquires
  have hself : ∀ l', th.pc.holds = some l' → l' = l := by
    intro l' hl'
    rcases hbefore with hl | hl
    · rw [hl] at hl'
      cases hl'
    · exact (Option.some.inj (hl.symm.trans hl')).symm
  have hplace : ∀ l' u, s.Holds u l' →
      u = tid ∧ m.thread.pc.holds = some l' ∨ u ≠ tid ∧ s.Holds u l' := by
    intro l' u hu
    refine (hu.split hth).imp_left ?_
    rintro ⟨rfl, hl'⟩
    rw [hself l' hl']
    exact ⟨rfl, hafter⟩
  refine Held.perform hth ?_ ?_ ?_ ?_ <;> rw [hlocks]
  · intro l' u ho
    by_cases hl : l' = l
    · subst hl
      rw [Function.update_self] at ho
      rcases Lock.lockerOwner_of_acquire ho with ho | rfl
      · exact hplace l' u (h.owner l' u ho)
      · exact .inl ⟨rfl, hafter⟩
    · rw [Function.update_of_ne hl] at ho
      exact hplace l' u (h.owner l' u ho)
  · intro l' u hw
    by_cases hl : l' = l
    · subst hl
      rw [Function.update_self] at hw
      rcases Lock.waiting_of_acquire hw with hw | rfl
      · exact hplace l' u (h.waiter l' u hw)
      · exact .inl ⟨rfl, hafter⟩
    · rw [Function.update_of_ne hl] at hw
      exact hplace l' u (h.waiter l' u hw)
  · intro l' hl'
    obtain rfl := Option.some.inj (hafter.symm.trans hl')
    rw [Function.update_self]
    exact Lock.acquire_owner_or_waiting _ _
  · rintro l' u - ⟨th', hth', hl'⟩
    have hold := h.holder l' u th' hth' hl'
    by_cases hl : l' = l
    · subst hl
      rw [Function.update_self]
      exact hold.imp Lock.acquire_lockerOwner Lock.acquire_waiting
    · rw [Function.update_of_ne hl]
      exact hold

theorem Held.step_release (h : Held s) (hth : s.threads[tid]? = some th)
    (hawake : ¬ s.Asleep tid) {l : LockName} (hop : m.op = .release l)
    (hbefore : th.pc.holds = some l) (hafter : m.thread.pc.holds = none) :
    Held (s.perform tid m) := by
  have hlocks : operate s.locks tid m.op = Function.update s.locks l ((s.locks l).release tid) := by
    rw [hop]
    rfl
  have howned := h.owned hth hawake hbefore
  have hwaits : ∀ l' u, u ∈ (s.locks l').waitQueue → u ≠ tid ∧ s.Holds u l' := by
    intro l' u hw
    refine ⟨?_, h.waiter l' u hw⟩
    rintro rfl
    exact hawake ⟨l', hw⟩
  refine Held.perform hth ?_ ?_ ?_ ?_ <;> rw [hlocks]
  · intro l' u ho
    by_cases hl : l' = l
    · subst hl
      rw [Function.update_self] at ho
      exact .inr (hwaits l' u (Lock.waiting_of_release howned ho))
    · rw [Function.update_of_ne hl] at ho
      rcases Holds.split (h.owner l' u ho) hth with ⟨-, hl'⟩ | hu
      · exact absurd (Option.some.inj (hl'.symm.trans hbefore)) hl
      · exact .inr hu
  · intro l' u hw
    by_cases hl : l' = l
    · subst hl
      rw [Function.update_self] at hw
      exact .inr (hwaits l' u (Lock.waitQueue_of_release hw))
    · rw [Function.update_of_ne hl] at hw
      exact .inr (hwaits l' u hw)
  · intro l' hl'
    rw [hafter] at hl'
    cases hl'
  · rintro l' u hne ⟨th', hth', hl'⟩
    have hold := h.holder l' u th' hth' hl'
    by_cases hl : l' = l
    · subst hl
      rw [Function.update_self]
      rcases hold with ho | hw
      · exact absurd (Option.some.inj (ho.symm.trans howned)) hne
      · exact Lock.release_waiting howned hw
    · rw [Function.update_of_ne hl]
      exact hold

/-- A step of a thread that is awake. -/
theorem step_cases {l : Label} {op : LockOp} (h : s.step l = some (s', op)) :
    ¬ s.Asleep l.tid ∧ (l.choice = .halt ∧ s' = { s with halted := true } ∨
      l.choice ≠ .halt ∧ ∃ th m, s.threads[l.tid]? = some th ∧
        s.move th th.pc l.choice = some m ∧ s' = s.perform l.tid m) := by
  unfold step at h
  split at h
  · cases h
  · rename_i hawake
    refine ⟨fun hs => hawake (.inr hs), ?_⟩
    split at h
    · rename_i hhalt
      cases h
      exact .inl ⟨hhalt, rfl⟩
    · rename_i hgo
      obtain ⟨th, hth, hm⟩ := Option.bind_eq_some_iff.mp h
      obtain ⟨m, hmove, heq⟩ := Option.map_eq_some_iff.mp hm
      exact .inr ⟨hgo, th, m, hth, hmove, (congrArg Prod.fst heq).symm⟩

theorem Held.step {tr : List LockOp} {l : Label} {op : LockOp} (h : Held s)
    (hok : releases tr s l) (hs : s.step l = some (s', op)) : Held s' := by
  obtain ⟨hawake, ⟨-, rfl⟩ | ⟨hgo, th, m, hth, hmove, rfl⟩⟩ := step_cases hs
  · exact ⟨h.owner, h.waiter, h.holder⟩
  · have hlocks := locks_move rfl hmove
    rw [decide_eq_false (hok hgo th hth)] at hlocks
    generalize hop : m.op = op at hlocks
    cases hlocks with
    | none hsame => exact h.step_none hth hop hsame
    | acquire hbefore hafter => exact h.step_acquire hth hop hbefore hafter
    | release hbefore hafter => exact h.step_release hth hawake hop hbefore hafter

/-- A handler left with a lock breaks the balance. -/
theorem releases_of_balanced {tr : List LockOp} {l : Label} {op : LockOp} (h : Held s)
    (hs : s.step l = some (s', op)) (hb : Balanced s') : releases tr s l := by
  intro hgo th hth hleak
  obtain ⟨hawake, ⟨hhalt, -⟩ | ⟨-, th', m, hth', hmove, rfl⟩⟩ := step_cases hs
  · exact hgo hhalt
  · obtain rfl := Option.some.inj (hth'.symm.trans hth)
    have hlocks := locks_move rfl hmove
    rw [decide_eq_true hleak] at hlocks
    generalize hop : m.op = op at hlocks
    cases hlocks with
    | @leak lock _ hbefore hafter =>
        refine hb.released lock l.tid m.thread (perform_self hth') hafter ?_
        show (operate s.locks l.tid m.op lock).lockerOwner = _
        rw [hop]
        exact h.owned hth' hawake hbefore

end Steps

/-- **Kernel lock balance.** From any tables and any threads in user mode, in every
interleaving of handlers none of which is left with a lock, the locks are balanced.
The next step keeps them so exactly when it does not leave a handler with a lock. -/
theorem locks_balanced_iff_releases {s₀ s : Kernel} {tr : List LockOp} (h₀ : Start s₀)
    (h : Run step releases s₀ tr s) :
    Balanced s ∧ ∀ l t op, step s l = some (t, op) → (Balanced t ↔ releases tr s l) := by
  have hheld : Held s := by
    refine h.invariant (I := fun _ s => Held s) (Held.start h₀) ?_
    intro tr s l t op hi hok hs
    exact hi.step hok hs
  refine ⟨hheld.balanced, ?_⟩
  intro l t op hs
  exact ⟨releases_of_balanced hheld hs, fun hok => (hheld.step hok hs).balanced⟩

/-- Two processes with a thread each, in user mode. -/
def twoProcesses : Kernel :=
  ⟨fun _ => .create, 2, [⟨1, 20⟩, ⟨1, 20⟩], [⟨.user, 0⟩, ⟨.user, 1⟩], false⟩

theorem twoProcesses_start : Start twoProcesses := by
  refine ⟨fun _ => rfl, ?_⟩
  intro th hth
  rcases List.mem_pair.mp hth with rfl | rfl
  · exact .inr (.inl rfl)
  · exact .inr (.inl rfl)

/-- Both threads fault, the second one waits for the first; then it exits. -/
theorem locks_balanced_iff_releases_sample :
    ∃ tr s, Run step releases twoProcesses tr s ∧ s.threads.map Thread.pc = [.user, .finished] ∧
      Balanced s := by
  have hp : (exec step releases [] twoProcesses [⟨0, .pageFault 0⟩, ⟨1, .pageFault 200⟩,
      ⟨0, .go false⟩, ⟨1, .go false⟩, ⟨0, .go false⟩, ⟨1, .go true⟩, ⟨0, .go false⟩, ⟨0, .go false⟩,
      ⟨1, .trap (.exit 0)⟩, ⟨1, .go false⟩, ⟨1, .go false⟩, ⟨1, .go false⟩]).map
        (fun r => r.2.threads.map Thread.pc) = some [.user, .finished] := by
    decide +kernel
  obtain ⟨⟨tr, s⟩, hexec, hpcs⟩ := Option.map_eq_some_iff.mp hp
  have hrun := Run.of_exec .start hexec
  exact ⟨tr, s, hrun, hpcs, (locks_balanced_iff_releases twoProcesses_start hrun).1⟩

/-- A thread forks and is back in user mode with `PLock`; the exit of another process
waits for it. -/
theorem fork_keeps_pLock :
    ∃ tr s, Run step anyStep twoProcesses tr s ∧
      s.threads.map Thread.pc = [.user, .exitBody, .kernelThread] ∧
      (s.locks .pLock).lockerOwner = some 0 ∧ (s.locks .pLock).waitQueue = [1] ∧
      ¬ Balanced s := by
  have hp : (exec step anyStep [] twoProcesses [⟨0, .trap (.fork 0)⟩, ⟨0, .go false⟩,
      ⟨0, .go false⟩, ⟨0, .go false⟩, ⟨0, .go false⟩, ⟨1, .trap (.exit 0)⟩, ⟨1, .go false⟩]).map
        (fun r => (r.2.threads, (r.2.locks .pLock).lockerOwner, (r.2.locks .pLock).waitQueue)) =
          some ([⟨.user, 0⟩, ⟨.exitBody, 1⟩, ⟨.kernelThread, 0⟩], some 0, [1]) := by
    decide +kernel
  obtain ⟨⟨tr, s⟩, hexec, hstate⟩ := Option.map_eq_some_iff.mp hp
  simp only [Prod.mk.injEq] at hstate
  obtain ⟨hthreads, howner, hqueue⟩ := hstate
  refine ⟨tr, s, .of_exec .start hexec, by rw [hthreads]; rfl, howner, hqueue, ?_⟩
  intro hb
  exact hb.released .pLock 0 ⟨.user, 0⟩ (by rw [hthreads]; rfl) trivial howner

end Kernel

end Nachos.Userprog.Locking
