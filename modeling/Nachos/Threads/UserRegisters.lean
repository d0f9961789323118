import Mathlib
import Nachos.Lib.Run
import Nachos.Machine.Registers

/-!
# User registers and context switches

There is one register file. `Run` saves it for a thread with an address space that gives up
the processor, and loads it again behind `SWITCH`; threads without one do neither, and a new
thread starts in `ThreadRoot` with the registers as they are.

The scheduler's choice is free: `Run` may be called with any thread that has been forked and
is not done, the caller included. A user instruction may do anything to the registers. The
kernel is entered through `RaiseException`, or when an interrupt is due.
-/

namespace Nachos.Threads.UserRegisters

open Nachos.Lib Nachos.Machine

/-! ## State -/

/-- Where a thread goes on when it gets the processor. -/
inductive Place where
  | unborn
  | running
  /-- It has been forked: in `ThreadRoot`. -/
  | fresh
  /-- Behind `SWITCH` in `Run`. -/
  | inRun
  | finished
deriving DecidableEq, Repr

inductive Mode where
  | user
  | system
  /-- In `Yield` or `Sleep`, with interrupts off. -/
  | switching
  /-- In the `Sleep` that `Finish` calls. -/
  | finishing
deriving DecidableEq, Repr

/-- The machine and its threads. `A` are the address spaces. -/
structure Processor (T A : Type*) where
  registers : Registers
  mode : Mode
  currentThread : T
  place : T → Place
  space : T → Option A
  userRegisters : T → Registers

inductive Move (T A : Type*) where
  /-- `OneInstruction`, which leaves the registers like this. -/
  | oneInstruction (registers : Registers)
  /-- From the user program, or in the kernel, when `ReadMem` or `WriteMem` finds no translation. -/
  | raiseException (badVAddr : BitVec 32)
  /-- `CheckIfDue` calls a handler: behind an instruction, when the kernel enables
  interrupts, or while the machine idles in `Sleep`. -/
  | checkIfDue
  /-- The end of `ExceptionHandler` behind a system call. -/
  | returned (rv : BitVec 32)
  /-- Back to the user program without a result: behind a page fault or an interrupt, and in
  `Machine::Run`. -/
  | userMode
  /-- `StartProcess` gives the thread an address space. -/
  | setSpace (space : A)
  /-- `InitRegisters`, with the end of the stack. -/
  | initRegisters (stack : BitVec 32)
  /-- `kernel_thread` sets its program counters. -/
  | kernelThread (vaddr : BitVec 32)
  /-- `kernel_thread` has got a stack. -/
  | stackTop (newBottomOfStackVaddr : BitVec 32)
  /-- `Fork` of a new thread, whose address space has been set before. -/
  | fork (thread : T) (space : Option A)
  /-- `Yield` or `Sleep`. -/
  | giveUp
  | finish
  /-- `Yield` finds no other thread. -/
  | stay
  | run (nextThread : T)

/-- What a step does. Giving up the processor and getting it back are seen with the
registers. -/
inductive Event (T A : Type*) where
  | gaveUp (t : T) (space : Option A) (registers : Registers)
  | ranAgain (t : T) (space : Option A) (registers : Registers)
  /-- Anything else that the thread does. -/
  | did (t : T)
  /-- An interrupt while the processor is given up. -/
  | idled

def Event.thread {T A : Type*} : Event T A → Option T
  | .gaveUp t _ _ | .ranAgain t _ _ | .did t => some t
  | .idled => none

namespace Processor

variable {T A : Type*} [DecidableEq T]

/-! ## What the kernel writes -/

/-- The result, and on to the next instruction. -/
def returnFrom (r : Registers) (rv : BitVec 32) : Registers :=
  let r := Function.update r resultReg rv
  let r := Function.update r prevPCReg (r pcReg)
  let r := Function.update r pcReg (r nextPCReg)
  Function.update r nextPCReg (r pcReg + 4)

/-- `InitRegisters`. -/
def initRegisters (stack : BitVec 32) : Registers :=
  let r := Function.update Registers.create pcReg 0
  let r := Function.update r nextPCReg 4
  Function.update r stackReg stack

/-- The first lines of `kernel_thread`. -/
def kernelThread (r : Registers) (vaddr : BitVec 32) : Registers :=
  Function.update (Function.update r pcReg vaddr) nextPCReg (vaddr + 4)

/-! ## Switches -/

variable (s : Processor T A)

/-- `SaveUserState`. -/
def saveUserState : Processor T A :=
  { s with userRegisters := Function.update s.userRegisters s.currentThread s.registers }

/-- `RestoreUserState`. -/
def restoreUserState : Processor T A :=
  { s with registers := s.userRegisters s.currentThread }

/-- `Run` up to `SWITCH`. -/
def switchOut (nextThread : T) : Processor T A :=
  let s := if (s.space s.currentThread).isSome then s.saveUserState else s
  { s with
    place := Function.update s.place s.currentThread
      (if s.mode = .finishing then .finished else .inRun)
    currentThread := nextThread }

/-- `Run` behind `SWITCH`, on the stack of the thread that runs again. -/
def switchIn : Processor T A :=
  if (s.space s.currentThread).isSome then s.restoreUserState else s

@[simp] theorem switchOut_registers (nextThread : T) :
    (s.switchOut nextThread).registers = s.registers := by
  unfold switchOut
  split <;> rfl

@[simp] theorem switchOut_space (nextThread : T) :
    (s.switchOut nextThread).space = s.space := by
  unfold switchOut
  split <;> rfl

@[simp] theorem switchOut_place (nextThread : T) :
    (s.switchOut nextThread).place = Function.update s.place s.currentThread
      (if s.mode = .finishing then .finished else .inRun) := by
  unfold switchOut
  split <;> rfl

theorem switchOut_userRegisters_self (nextThread : T)
    (h : (s.space s.currentThread).isSome) :
    (s.switchOut nextThread).userRegisters s.currentThread = s.registers := by
  simp only [switchOut, if_pos h, saveUserState, Function.update_self]

theorem switchOut_userRegisters_of_ne (nextThread : T) {t : T} (h : t ≠ s.currentThread) :
    (s.switchOut nextThread).userRegisters t = s.userRegisters t := by
  unfold switchOut
  split
  · exact Function.update_of_ne h ..
  · rfl

/-- The current thread runs, in the kernel. -/
def start : Processor T A :=
  { s with place := Function.update s.place s.currentThread .running, mode := .system }

/-- `Run`. -/
def run (nextThread : T) : Option (Processor T A × Event T A) :=
  let s := s.switchOut nextThread
  match s.place nextThread with
  | .fresh => some (s.start, .did nextThread)
  | .inRun =>
      let s := s.start.switchIn
      some (s, .ranAgain nextThread (s.space nextThread) s.registers)
  | _ => none

end Processor

/-! ## Steps -/

variable {T A : Type*} [DecidableEq T]

/-- The current thread goes on with other registers. -/
def Processor.go (s : Processor T A) (mode : Mode) (registers : Registers) :
    Option (Processor T A × Event T A) :=
  some ({ s with mode, registers }, .did s.currentThread)

def step (s : Processor T A) : Move T A → Option (Processor T A × Event T A)
  | .oneInstruction registers =>
      if s.mode = .user then s.go .user registers else none
  | .raiseException badVAddr =>
      if s.mode = .user ∨ s.mode = .system then
        s.go .system (Registers.delayedLoad (Function.update s.registers badVAddrReg badVAddr) 0 0)
      else none
  | .checkIfDue =>
      match s.mode with
      | .user | .system => s.go .system (s.registers.delayedLoad 0 0)
      | .switching | .finishing =>
          some ({ s with registers := s.registers.delayedLoad 0 0 }, .idled)
  | .returned rv =>
      if s.mode = .system ∧ (s.space s.currentThread).isSome then
        s.go .user (Processor.returnFrom s.registers rv)
      else none
  | .userMode =>
      if s.mode = .system ∧ (s.space s.currentThread).isSome then s.go .user s.registers else none
  | .setSpace space =>
      if s.mode = .system then
        some ({ s with space := Function.update s.space s.currentThread (some space) },
          .did s.currentThread)
      else none
  | .initRegisters stack =>
      if s.mode = .system ∧ (s.space s.currentThread).isSome then
        s.go .system (Processor.initRegisters stack)
      else none
  | .kernelThread vaddr =>
      if s.mode = .system ∧ (s.space s.currentThread).isSome then
        s.go .system (Processor.kernelThread s.registers vaddr)
      else none
  | .stackTop newBottomOfStackVaddr =>
      if s.mode = .system ∧ (s.space s.currentThread).isSome then
        s.go .system (Function.update s.registers stackReg newBottomOfStackVaddr)
      else none
  | .fork thread space =>
      if s.mode = .system ∧ s.place thread = .unborn then
        some ({ s with
          place := Function.update s.place thread .fresh
          space := Function.update s.space thread space }, .did s.currentThread)
      else none
  | .giveUp =>
      if s.mode = .system then
        some ({ s with mode := .switching },
          .gaveUp s.currentThread (s.space s.currentThread) s.registers)
      else none
  | .finish =>
      if s.mode = .system then some ({ s with mode := .finishing }, .did s.currentThread) else none
  | .stay =>
      if s.mode = .switching then
        some ({ s with mode := .system },
          .ranAgain s.currentThread (s.space s.currentThread) s.registers)
      else none
  | .run nextThread =>
      if s.mode = .switching ∨ s.mode = .finishing then s.run nextThread else none

/-- The thread `main` runs, in the kernel and without an address space. -/
def boot (main : T) : Processor T A where
  registers := .create
  mode := .system
  currentThread := main
  place := Function.update (fun _ => .unborn) main .running
  space _ := none
  userRegisters _ := .create

/-! ## What a thread finds -/

/-- The last that the thread has done is to give up the processor with these registers. -/
def GaveUp (tr : List (Event T A)) (t : T) (space : Option A) (registers : Registers) : Prop :=
  Since tr (fun _ e => e = .gaveUp t space registers) (fun e => e.thread = some t)

/-- A thread with an address space that runs again finds the registers it gave up. -/
def FindsOwn (tr : List (Event T A)) (e : Event T A) : Prop :=
  ∀ t a registers, e = .ranAgain t (some a) registers → GaveUp tr t (some a) registers

/-- The others have saved what they gave up. -/
def Saved (tr : List (Event T A)) (s : Processor T A) : Prop :=
  ∀ t a, s.place t = .inRun → s.space t = some a →
    (s.userRegisters t).Settled ∧ GaveUp tr t (some a) (s.userRegisters t)

structure Private (tr : List (Event T A)) (s : Processor T A) : Prop where
  running : s.place s.currentThread = .running
  /-- The kernel is entered with no load delayed, and makes none. -/
  settled : s.mode ≠ .user → s.registers.Settled
  saved : Saved tr s
  switching : s.mode = .switching →
    GaveUp tr s.currentThread (s.space s.currentThread) s.registers
  contract : Always FindsOwn tr

section Proofs

variable {tr : List (Event T A)} {s s' : Processor T A} {e : Event T A} {t : T}
  {space : Option A} {registers : Registers}

omit [DecidableEq T] in
theorem GaveUp.snoc (h : GaveUp tr t space registers) (he : e.thread ≠ some t) :
    GaveUp (tr ++ [e]) t space registers :=
  since_snoc.mpr (.inr ⟨h, he⟩)

omit [DecidableEq T] in
theorem Private.ne_of_inRun (h : Private tr s) (ht : s.place t = .inRun) :
    t ≠ s.currentThread := by
  rintro rfl
  cases ht.symm.trans h.running

omit [DecidableEq T] in
/-- The current thread does something else than to get the processor back. The others have
saved what they gave up. -/
theorem Private.goes (h : Private tr s) (hcur : s'.currentThread = s.currentThread)
    (hthread : ∀ t, e.thread = some t → t = s.currentThread) (he : FindsOwn tr e)
    (hrunning : s'.place s.currentThread = .running)
    (hsettled : s'.mode ≠ .user → s'.registers.Settled)
    (hsaved : ∀ t, s'.place t = .inRun → s.place t = .inRun ∧ s'.space t = s.space t ∧
      s'.userRegisters t = s.userRegisters t)
    (hswitching : s'.mode = .switching →
      GaveUp (tr ++ [e]) s.currentThread (s'.space s.currentThread) s'.registers) :
    Private (tr ++ [e]) s' where
  running := by rw [hcur]; exact hrunning
  settled := hsettled
  saved t a ht ha := by
    obtain ⟨hin, hspace, hregs⟩ := hsaved t ht
    rw [hregs]
    obtain ⟨hset, hgave⟩ := h.saved t a hin (hspace.symm.trans ha)
    exact ⟨hset, hgave.snoc fun heq => h.ne_of_inRun hin (hthread t heq)⟩
  switching hmode := by rw [hcur]; exact hswitching hmode
  contract := always_snoc.mpr ⟨h.contract, he⟩

omit [DecidableEq T] in
theorem Private.go (h : Private tr s) {mode : Mode} (hs : s.go mode registers = some (s', e))
    (hmode : mode ≠ .switching) (hsettled : mode ≠ .user → registers.Settled) :
    Private (tr ++ [e]) s' := by
  obtain ⟨rfl, rfl⟩ := Prod.mk.inj (Option.some.inj hs)
  exact h.goes rfl (fun _ ht => (Option.some.inj ht).symm) nofun h.running hsettled
    (fun _ ht => ⟨ht, rfl, rfl⟩) fun hsw => absurd hsw hmode

/-! ### What the kernel writes -/

theorem kernelThread_settled (hr : registers.Settled) (vaddr : BitVec 32) :
    (Processor.kernelThread registers vaddr).Settled :=
  (hr.update _ (by decide)).update _ (by decide)

theorem initRegisters_settled (stack : BitVec 32) : (Processor.initRegisters stack).Settled :=
  ((Registers.create_settled.update _ (by decide)).update _ (by decide)).update _ (by decide)

/-! ### Switches -/

theorem Private.switchOut (h : Private tr s) (hmode : s.mode = .switching ∨ s.mode = .finishing)
    (nextThread : T) : Saved tr (s.switchOut nextThread) := by
  intro t a ht ha
  rw [Processor.switchOut_space] at ha
  rw [Processor.switchOut_place] at ht
  by_cases hcur : t = s.currentThread
  · subst hcur
    rw [Function.update_self] at ht
    have hswitching : s.mode = .switching := by
      refine hmode.resolve_right fun hfin => ?_
      rw [if_pos hfin] at ht
      cases ht
    rw [Processor.switchOut_userRegisters_self s nextThread (Option.isSome_of_eq_some ha), ← ha]
    refine ⟨h.settled ?_, h.switching hswitching⟩
    rw [hswitching]
    nofun
  · rw [Function.update_of_ne hcur] at ht
    rw [Processor.switchOut_userRegisters_of_ne s nextThread hcur]
    exact h.saved t a ht ha

/-- The thread that gets the processor goes on with these registers. -/
theorem Saved.start (h : Saved tr s) (hcontract : Always FindsOwn tr) (hregs : registers.Settled)
    (hthread : e.thread = some s.currentThread) (he : FindsOwn tr e) :
    Private (tr ++ [e]) { s.start with registers } where
  running := Function.update_self ..
  settled _ := hregs
  saved t a ht ha := by
    have hne : t ≠ s.currentThread := by
      rintro rfl
      rw [show ({ s.start with registers } : Processor T A).place s.currentThread = .running from
        Function.update_self ..] at ht
      cases ht
    have ht : s.place t = .inRun := (Function.update_of_ne hne ..).symm.trans ht
    obtain ⟨hset, hgave⟩ := h t a ht ha
    refine ⟨hset, hgave.snoc fun heq => hne ?_⟩
    exact (Option.some.inj (hthread.symm.trans heq)).symm
  switching := nofun
  contract := always_snoc.mpr ⟨hcontract, he⟩

theorem Private.run (h : Private tr s) (hmode : s.mode = .switching ∨ s.mode = .finishing)
    {nextThread : T} (hs : s.run nextThread = some (s', e)) : Private (tr ++ [e]) s' := by
  have hsaved := h.switchOut hmode nextThread
  have hsettled : (s.switchOut nextThread).registers.Settled := by
    rw [Processor.switchOut_registers]
    refine h.settled ?_
    rcases hmode with hm | hm <;> rw [hm] <;> nofun
  have hcur : (s.switchOut nextThread).currentThread = nextThread := rfl
  simp only [Processor.run] at hs
  generalize s.switchOut nextThread = s₁ at hsaved hsettled hcur hs
  subst hcur
  split at hs
  · obtain ⟨rfl, rfl⟩ := Prod.mk.inj (Option.some.inj hs)
    exact hsaved.start h.contract hsettled rfl nofun
  · rename_i hin
    obtain ⟨rfl, rfl⟩ := Prod.mk.inj (Option.some.inj hs)
    unfold Processor.switchIn
    cases ha : s₁.space s₁.currentThread with
    | none =>
        rw [if_neg (by rw [show s₁.start.space s₁.start.currentThread = none from ha]; nofun)]
        exact hsaved.start h.contract hsettled rfl fun _ _ _ heq => by
          injection heq with _ heq _
          cases ha.symm.trans heq
    | some a =>
        rw [if_pos (by rw [show s₁.start.space s₁.start.currentThread = some a from ha]; rfl)]
        obtain ⟨hset, hgave⟩ := hsaved _ a hin ha
        refine hsaved.start h.contract hset rfl fun t a' registers heq => ?_
        injection heq with ht ha' hregs
        obtain rfl : a = a' := Option.some.inj (ha.symm.trans ha')
        rw [← ht, ← hregs]
        exact hgave
  · cases hs

/-! ### Every run -/

/-- What one step preserves. -/
theorem private_step (h : Private tr s) {m : Move T A} (hs : step s m = some (s', e)) :
    Private (tr ++ [e]) s' := by
  have hsystem : s.mode = .system → s.registers.Settled := fun hm =>
    h.settled (by rw [hm]; nofun)
  cases m with simp only [step] at hs
  | oneInstruction registers =>
      split at hs
      · exact h.go hs nofun (fun hm => absurd rfl hm)
      · cases hs
  | raiseException badVAddr =>
      split at hs
      · exact h.go hs nofun (fun _ => Registers.delayedLoad_settled _)
      · cases hs
  | checkIfDue =>
      have hflushed := Registers.delayedLoad_settled s.registers
      split at hs
      · exact h.go hs nofun (fun _ => hflushed)
      · exact h.go hs nofun (fun _ => hflushed)
      all_goals
          rename_i hmode
          -- The kernel has run, so no load is delayed.
          obtain ⟨rfl, rfl⟩ := Prod.mk.inj (Option.some.inj hs)
          have hsame : s.registers.delayedLoad 0 0 = s.registers :=
            (h.settled (by rw [hmode]; nofun)).delayedLoad
          refine h.goes rfl nofun nofun h.running (fun _ => hflushed)
            (fun _ ht => ⟨ht, rfl, rfl⟩) fun hsw => ?_
          rw [hsame]
          exact (h.switching hsw).snoc nofun
  | returned rv =>
      split at hs
      · exact h.go hs nofun (fun hm => absurd rfl hm)
      · cases hs
  | userMode =>
      split at hs
      · exact h.go hs nofun (fun hm => absurd rfl hm)
      · cases hs
  | setSpace a =>
      split at hs
      · rename_i hmode
        obtain ⟨rfl, rfl⟩ := Prod.mk.inj (Option.some.inj hs)
        refine h.goes rfl (fun _ ht => (Option.some.inj ht).symm) nofun h.running
          (fun _ => hsystem hmode) (fun t ht => ⟨ht, ?_, rfl⟩)
          fun hsw => by cases hmode.symm.trans hsw
        exact Function.update_of_ne (h.ne_of_inRun ht) ..
      · cases hs
  | initRegisters stack =>
      split at hs
      · exact h.go hs nofun (fun _ => initRegisters_settled stack)
      · cases hs
  | kernelThread vaddr =>
      split at hs
      · rename_i hmode
        exact h.go hs nofun (fun _ => kernelThread_settled (hsystem hmode.1) vaddr)
      · cases hs
  | stackTop newBottomOfStackVaddr =>
      split at hs
      · rename_i hmode
        exact h.go hs nofun (fun _ => (hsystem hmode.1).update _ (by decide))
      · cases hs
  | fork thread space =>
      split at hs
      · rename_i hmode
        obtain ⟨rfl, rfl⟩ := Prod.mk.inj (Option.some.inj hs)
        refine h.goes rfl (fun _ ht => (Option.some.inj ht).symm) nofun ?_
          (fun _ => hsystem hmode.1) (fun t ht => ?_) fun hsw => by cases hmode.1.symm.trans hsw
        · show Function.update s.place thread .fresh s.currentThread = .running
          rw [Function.update_of_ne, h.running]
          rintro rfl
          cases h.running.symm.trans hmode.2
        · have ht : Function.update s.place thread .fresh t = .inRun := ht
          have hne : t ≠ thread := by
            rintro rfl
            rw [Function.update_self] at ht
            cases ht
          rw [Function.update_of_ne hne] at ht
          exact ⟨ht, Function.update_of_ne hne .., rfl⟩
      · cases hs
  | giveUp =>
      split at hs
      · rename_i hmode
        obtain ⟨rfl, rfl⟩ := Prod.mk.inj (Option.some.inj hs)
        exact h.goes rfl (fun _ ht => (Option.some.inj ht).symm) nofun h.running
          (fun _ => hsystem hmode) (fun _ ht => ⟨ht, rfl, rfl⟩)
          fun _ => since_snoc.mpr (.inl rfl)
      · cases hs
  | finish =>
      split at hs
      · rename_i hmode
        obtain ⟨rfl, rfl⟩ := Prod.mk.inj (Option.some.inj hs)
        exact h.goes rfl (fun _ ht => (Option.some.inj ht).symm) nofun h.running
          (fun _ => hsystem hmode) (fun _ ht => ⟨ht, rfl, rfl⟩) nofun
      · cases hs
  | stay =>
      split at hs
      · rename_i hmode
        obtain ⟨rfl, rfl⟩ := Prod.mk.inj (Option.some.inj hs)
        refine h.goes rfl (fun _ ht => (Option.some.inj ht).symm) (fun t a registers heq => ?_)
          h.running (fun _ => h.settled (by rw [hmode]; nofun)) (fun _ ht => ⟨ht, rfl, rfl⟩) nofun
        injection heq with ht ha hregs
        rw [← ht, ← ha, ← hregs]
        exact h.switching hmode
      · cases hs
  | run nextThread =>
      split at hs
      · rename_i hmode
        exact h.run hmode hs
      · cases hs

variable {ok : List (Event T A) → Processor T A → Move T A → Prop} {main : T}

theorem private_of_run (hrun : Run step ok (boot main) tr s) : Private tr s := by
  refine hrun.invariant ⟨?_, ?_, ?_, nofun, always_nil⟩ fun h _ hs => private_step h hs
  · show Function.update (fun _ => Place.unborn) main .running main = .running
    rw [Function.update_self]
  · exact fun _ => Registers.create_settled
  · intro t a _ ha
    cases ha

/-- **User registers are private.** However user threads and threads of the kernel take turns:
a thread with an address space that has given up the processor and runs again finds all
registers as they were then, and has done nothing in between. -/
theorem user_registers_private (hrun : Run step anyStep (boot main) tr s) :
    Always FindsOwn tr :=
  (private_of_run hrun).contract

end Proofs

/-! ### Two user threads and one of the kernel -/

/-- Register 2 and the program counter, as a thread finds them. -/
def found : Event (Fin 3) Unit → Option (Fin 3 × BitVec 32 × BitVec 32)
  | .ranAgain t _ registers => some (t, registers resultReg, registers pcReg)
  | _ => none

/-- Thread `t` gets an address space and runs its program, and forks thread `u` with an address
space and thread `v` without. They take turns until thread `t` runs again. -/
def turns (t u v : Fin 3) : List (Move (Fin 3) Unit) :=
  [.setSpace (), .initRegisters 1008, .userMode, .oneInstruction fun _ => 7,
    .raiseException 0, .fork v none, .fork u (some ()), .giveUp, .run u, .kernelThread 64,
    .giveUp, .run v, .giveUp, .checkIfDue, .run u, .stackTop 2032, .userMode,
    .oneInstruction fun _ => 9, .checkIfDue, .giveUp, .run v, .finish, .run t, .returned 5]

theorem user_registers_private_sample : ∃ tr s,
    Run step anyStep (boot 0 : Processor (Fin 3) Unit) tr s ∧
      tr.filterMap found = [(1, 7, 64), (2, 9, 9), (0, 7, 7)] ∧ Always FindsOwn tr := by
  have hp : (exec step anyStep [] (boot 0 : Processor (Fin 3) Unit) (turns 0 1 2)).map
      (fun r => r.1.filterMap found) = some [(1, 7, 64), (2, 9, 9), (0, 7, 7)] := by
    decide +kernel
  obtain ⟨⟨tr, s⟩, hexec, hfound⟩ := Option.map_eq_some_iff.mp hp
  have hrun := Run.of_exec .start hexec
  exact ⟨tr, s, hrun, hfound, user_registers_private hrun⟩

end Nachos.Threads.UserRegisters
