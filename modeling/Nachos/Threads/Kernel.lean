import Nachos.Lib.CInt
import Nachos.Lib.Run
import Nachos.Threads.Synch
import Mathlib.Algebra.Group.Int.Defs
import Mathlib.Logic.Function.Basic

/-!
# Threads, and what they wait for

`Thread`, `Scheduler`, `Semaphore`, `Lock` and `Condition`. Every operation turns
interrupts off first, so the processor changes hands in three places only: in `Sleep`,
in `Yield`, and where interrupts are enabled again, since this may be the time of the
timer. A step goes from one such place to the next. What threads call, and when, is
free; a thread that sleeps goes on behind the call of `Sleep` that it made.

Handlers of interrupts use `V` only. They run where interrupts are enabled, and while
the machine idles in `Sleep`.
-/

namespace Nachos.Threads

open Nachos.Lib

/-! ## State -/

/-- `ThreadStatus`. -/
inductive ThreadStatus where
  | justCreated
  | running
  | ready
  | blocked
deriving DecidableEq, Repr

/-- `value` is an `int`. -/
structure Semaphore (T : Type*) where
  value : ℤ
  queue : List T

/-- `Condition`. -/
structure Condition (T L : Type*) where
  waitLock : Option L
  waitQueue : List T

namespace Condition

variable {T L : Type*}

/-- The constructor. -/
def create : Condition T L := ⟨none, []⟩

/-- `Wait` with the lock `l`, which is `waitLock` if there is one. -/
def append (c : Condition T L) (l : L) (t : T) : Condition T L :=
  ⟨some l, c.waitQueue ++ [t]⟩

/-- `Signal` when somebody waits. -/
def remove (c : Condition T L) : Condition T L :=
  ⟨if c.waitQueue.tail = [] then none else c.waitLock, c.waitQueue.tail⟩

theorem remove_waitQueue (c : Condition T L) : c.remove.waitQueue = c.waitQueue.tail := rfl

/-- As long as somebody waits they wait with the same lock. -/
theorem remove_waitLock (c : Condition T L) :
    c.remove.waitLock = if c.remove.waitQueue = [] then none else c.waitLock := rfl

/-- There is a lock that is waited with as long as somebody waits. -/
def Bound (c : Condition T L) : Prop := c.waitLock = none ↔ c.waitQueue = []

theorem bound_create : (create : Condition T L).Bound := iff_of_true rfl rfl

theorem bound_append (c : Condition T L) (l : L) (t : T) : (c.append l t).Bound :=
  iff_of_false (Option.some_ne_none l) (List.append_ne_nil_of_right_ne_nil _ (List.cons_ne_nil t []))

theorem Bound.remove {c : Condition T L} (h : c.Bound) : c.remove.Bound := by
  unfold Bound
  rw [remove_waitLock]
  split
  · rename_i hnil
    exact iff_of_true rfl hnil
  · rename_i hne
    refine iff_of_false (fun hnone => hne ?_) hne
    rw [remove_waitQueue, h.mp hnone]
    rfl

end Condition

/-- Calls. `T`, `S`, `L` and `C` are the threads, semaphores, locks and conditions there
are; a lock that is passed to a condition may be `NULL`. -/
inductive Op (T S L C : Type*) where
  | p (s : S)
  | v (s : S)
  | acquire (l : L)
  | release (l : L)
  | wait (c : C) (conditionLock : Option L)
  | signal (c : C) (conditionLock : Option L)
  | broadcast (c : C) (conditionLock : Option L)
  /-- `Fork` of a new thread. -/
  | fork (thread : T)
  | yield
  | finish
deriving DecidableEq, Repr

/-- Where a thread is, or goes on when it gets the processor. -/
inductive Pc (T S L C : Type*) where
  | unborn
  /-- In code of its own. -/
  | outside
  /-- In the last line of a call, where interrupts are enabled; `ok` if the call was not
  refused. -/
  | leaving (op : Op T S L C) (ok : Bool)
  /-- Behind `Sleep` in `P`. -/
  | inP (s : S)
  /-- Behind `Sleep` in `Acquire`. -/
  | inAcquire (l : L)
  /-- Behind `Sleep` in `Wait`. -/
  | inWait (c : C) (l : L)
  /-- Behind `Sleep` in the `Acquire` that `Wait` calls. -/
  | inReacquire (c : C) (l : L)
  /-- In the loop of `Broadcast`. -/
  | inBroadcast (c : C) (conditionLock : Option L)
  | finished
deriving DecidableEq, Repr

/-- Interrupts are enabled here, or the next thing that is done enables them. -/
def Pc.Open {T S L C : Type*} : Pc T S L C → Prop
  | .outside | .leaving _ _ | .inBroadcast _ _ => True
  | _ => False

instance {T S L C : Type*} : DecidablePred (Pc.Open : Pc T S L C → Prop)
  | .outside | .leaving _ _ | .inBroadcast _ _ => .isTrue trivial
  | .unborn | .inP _ | .inAcquire _ | .inWait _ _ | .inReacquire _ _ | .finished => .isFalse id

/-- The lists of threads. -/
inductive Queue (S L C : Type*) where
  | readyList
  | semaphore (s : S)
  | lock (l : L)
  | condition (c : C)
deriving DecidableEq, Repr

/-- What a step does. -/
inductive Effect (T S L C : Type*) where
  | called (t : T) (op : Op T S L C)
  /-- `t` is appended to a queue and goes to sleep. -/
  | appended (t : T) (q : Queue S L C)
  /-- `t` is removed from a queue and made ready, by a thread or by an interrupt. -/
  | removed (waker : Option T) (t : T) (q : Queue S L C)
  /-- `value--` by `t`. -/
  | decremented (t : T) (s : S)
  /-- `value++`. -/
  | incremented (s : S)
  /-- `Acquire`, when `Wait` calls it, returns. -/
  | reacquired (t : T) (l : L)
  /-- `Release`, called by `t` or by its `Wait`. -/
  | released (t : T) (l : L)
  | returned (t : T) (op : Op T S L C) (ok : Bool)
deriving DecidableEq, Repr

structure Kernel (T S L C : Type*) where
  currentThread : T
  /-- `Sleep` has found no thread that is ready. -/
  idle : Bool
  readyList : List T
  status : T → ThreadStatus
  pc : T → Pc T S L C
  semaphores : S → Semaphore T
  locks : L → Lock T
  conditions : C → Condition T L

namespace Kernel

variable {T S L C : Type*}

/-! ## Replacing one object -/

section Replace

variable (k : Kernel T S L C)

def setSemaphore [DecidableEq S] (k : Kernel T S L C) (s : S) (sem : Semaphore T) :
    Kernel T S L C :=
  { k with semaphores := Function.update k.semaphores s sem }

@[simp] theorem setSemaphore_self [DecidableEq S] (s : S) (sem : Semaphore T) :
    (k.setSemaphore s sem).semaphores s = sem := Function.update_self ..

theorem setSemaphore_of_ne [DecidableEq S] {s s' : S} (h : s' ≠ s) (sem : Semaphore T) :
    (k.setSemaphore s sem).semaphores s' = k.semaphores s' := Function.update_of_ne h ..

def setLock [DecidableEq L] (k : Kernel T S L C) (l : L) (lock : Lock T) : Kernel T S L C :=
  { k with locks := Function.update k.locks l lock }

@[simp] theorem setLock_self [DecidableEq L] (l : L) (lock : Lock T) :
    (k.setLock l lock).locks l = lock := Function.update_self ..

theorem setLock_of_ne [DecidableEq L] {l l' : L} (h : l' ≠ l) (lock : Lock T) :
    (k.setLock l lock).locks l' = k.locks l' := Function.update_of_ne h ..

def setCondition [DecidableEq C] (k : Kernel T S L C) (c : C) (cond : Condition T L) :
    Kernel T S L C :=
  { k with conditions := Function.update k.conditions c cond }

@[simp] theorem setCondition_self [DecidableEq C] (c : C) (cond : Condition T L) :
    (k.setCondition c cond).conditions c = cond := Function.update_self ..

theorem setCondition_of_ne [DecidableEq C] {c c' : C} (h : c' ≠ c) (cond : Condition T L) :
    (k.setCondition c cond).conditions c' = k.conditions c' := Function.update_of_ne h ..

end Replace

/-! ## Scheduler and threads -/

section Scheduler

variable [DecidableEq T]

def setPc (k : Kernel T S L C) (t : T) (pc : Pc T S L C) : Kernel T S L C :=
  { k with pc := Function.update k.pc t pc }

/-- The current thread has done what it called, but for enabling interrupts. -/
def leave (k : Kernel T S L C) (op : Op T S L C) (ok : Bool) : Kernel T S L C :=
  k.setPc k.currentThread (.leaving op ok)

/-- `ReadyToRun`. -/
def readyToRun (k : Kernel T S L C) (t : T) : Kernel T S L C :=
  { k with
    status := Function.update k.status t .ready
    readyList := k.readyList ++ [t] }

/-- `Run`. -/
def run (k : Kernel T S L C) (nextThread : T) : Kernel T S L C :=
  { k with
    currentThread := nextThread
    idle := false
    status := Function.update k.status nextThread .running }

/-- A round of the loop in `Sleep`. -/
def dispatch (k : Kernel T S L C) : Kernel T S L C :=
  match k.readyList with
  | [] => k
  | nextThread :: rest => { k with readyList := rest }.run nextThread

/-- `Sleep` of the current thread, which is to go on at `pc`. -/
def sleep (k : Kernel T S L C) (pc : Pc T S L C) : Kernel T S L C :=
  { k with
    status := Function.update k.status k.currentThread .blocked
    pc := Function.update k.pc k.currentThread pc
    idle := true }.dispatch

/-- `Yield`. -/
def yield (k : Kernel T S L C) : Kernel T S L C :=
  match k.readyList with
  | [] => k
  | nextThread :: rest => ({ k with readyList := rest }.readyToRun k.currentThread).run nextThread

/-- `Fork`. -/
def fork (k : Kernel T S L C) (t : T) : Kernel T S L C := (k.setPc t .outside).readyToRun t

variable (k : Kernel T S L C) (t : T) (op : Op T S L C) (ok : Bool) (pc : Pc T S L C)

@[simp] theorem leave_pc :
    (k.leave op ok).pc = Function.update k.pc k.currentThread (.leaving op ok) := rfl

theorem leave_pc_of {k₁ : Kernel T S L C} (hcur : k₁.currentThread = k.currentThread)
    (hpc : k₁.pc = k.pc) :
    (k₁.leave op ok).pc = Function.update k.pc k.currentThread (.leaving op ok) := by
  rw [leave_pc, hcur, hpc]

@[simp] theorem leave_semaphores : (k.leave op ok).semaphores = k.semaphores := rfl

@[simp] theorem leave_locks : (k.leave op ok).locks = k.locks := rfl

@[simp] theorem leave_conditions : (k.leave op ok).conditions = k.conditions := rfl

@[simp] theorem readyToRun_semaphores : (k.readyToRun t).semaphores = k.semaphores := rfl

@[simp] theorem readyToRun_locks : (k.readyToRun t).locks = k.locks := rfl

@[simp] theorem readyToRun_conditions : (k.readyToRun t).conditions = k.conditions := rfl

/-- The processor changes hands, and nothing else happens. -/
theorem dispatch_kept : k.dispatch.pc = k.pc ∧ k.dispatch.semaphores = k.semaphores ∧
    k.dispatch.locks = k.locks ∧ k.dispatch.conditions = k.conditions := by
  unfold dispatch
  split <;> exact ⟨rfl, rfl, rfl, rfl⟩

theorem yield_kept : k.yield.pc = k.pc ∧ k.yield.semaphores = k.semaphores ∧
    k.yield.locks = k.locks ∧ k.yield.conditions = k.conditions := by
  unfold yield
  split <;> exact ⟨rfl, rfl, rfl, rfl⟩

@[simp] theorem sleep_pc : (k.sleep pc).pc = Function.update k.pc k.currentThread pc :=
  (dispatch_kept _).1

@[simp] theorem sleep_semaphores : (k.sleep pc).semaphores = k.semaphores := (dispatch_kept _).2.1

@[simp] theorem sleep_locks : (k.sleep pc).locks = k.locks := (dispatch_kept _).2.2.1

@[simp] theorem sleep_conditions : (k.sleep pc).conditions = k.conditions := (dispatch_kept _).2.2.2

end Scheduler

/-! ## Semaphores -/

section Semaphores

variable [DecidableEq T] [DecidableEq S]

/-- `P` from the test of its loop on. -/
def p (k : Kernel T S L C) (s : S) : Kernel T S L C × List (Effect T S L C) :=
  let sem := k.semaphores s
  if sem.value = 0 then
    ((k.setSemaphore s ⟨sem.value, sem.queue ++ [k.currentThread]⟩).sleep (.inP s),
      [.appended k.currentThread (.semaphore s)])
  else
    ((k.setSemaphore s ⟨decrement sem.value, sem.queue⟩).leave (.p s) true,
      [.decremented k.currentThread s])

/-- `V`, by a thread or by the handler of an interrupt. -/
def v (k : Kernel T S L C) (waker : Option T) (s : S) : Kernel T S L C × List (Effect T S L C) :=
  let sem := k.semaphores s
  match sem.queue with
  | [] => (k.setSemaphore s ⟨increment sem.value, []⟩, [.incremented s])
  | thread :: rest =>
      ((k.setSemaphore s ⟨increment sem.value, rest⟩).readyToRun thread,
        [.removed waker thread (.semaphore s), .incremented s])

variable (k : Kernel T S L C) {s : S} {t : T} {rest : List T} {waker : Option T}

theorem p_zero (h : (k.semaphores s).value = 0) : k.p s =
    ((k.setSemaphore s ⟨(k.semaphores s).value,
        (k.semaphores s).queue ++ [k.currentThread]⟩).sleep (.inP s),
      [.appended k.currentThread (.semaphore s)]) := if_pos h

theorem p_pos (h : (k.semaphores s).value ≠ 0) : k.p s =
    ((k.setSemaphore s
        ⟨decrement (k.semaphores s).value, (k.semaphores s).queue⟩).leave (.p s) true,
      [.decremented k.currentThread s]) := if_neg h

theorem v_nil (h : (k.semaphores s).queue = []) : k.v waker s =
    (k.setSemaphore s ⟨increment (k.semaphores s).value, []⟩, [.incremented s]) := by
  simp only [v, h]

theorem v_cons (h : (k.semaphores s).queue = t :: rest) : k.v waker s =
    ((k.setSemaphore s ⟨increment (k.semaphores s).value, rest⟩).readyToRun t,
      [.removed waker t (.semaphore s), .incremented s]) := by
  simp only [v, h]

variable (s : S) (waker : Option T)

theorem p_kept : (k.p s).1.locks = k.locks ∧ (k.p s).1.conditions = k.conditions := by
  simp only [p]
  split <;> simp [leave, setPc, setSemaphore]

theorem v_kept : (k.v waker s).1.currentThread = k.currentThread ∧
    (k.v waker s).1.idle = k.idle ∧ (k.v waker s).1.pc = k.pc ∧
    (k.v waker s).1.locks = k.locks ∧ (k.v waker s).1.conditions = k.conditions := by
  simp only [v]
  split <;> exact ⟨rfl, rfl, rfl, rfl, rfl⟩

end Semaphores

/-! ## Locks -/

section Locks

variable [DecidableEq T] [DecidableEq L]

/-- `Acquire`: the kernel afterwards, and whether the thread has the lock. If not, it is
in the queue and has to sleep. -/
def acquire (k : Kernel T S L C) (l : L) : Kernel T S L C × Bool :=
  let lock := k.locks l
  (k.setLock l (lock.acquire k.currentThread),
    lock.lockerOwner = some k.currentThread ∨ lock.status = .free)

/-- `Release`. -/
def release (k : Kernel T S L C) (l : L) : Kernel T S L C × List (Effect T S L C) :=
  let lock := k.locks l
  let k' := k.setLock l (lock.release k.currentThread)
  if lock.lockerOwner = some k.currentThread then
    match lock.waitQueue with
    | nextThread :: _ =>
        (k'.readyToRun nextThread,
          [.released k.currentThread l, .removed k.currentThread nextThread (.lock l)])
    | [] => (k', [.released k.currentThread l])
  else (k', [.released k.currentThread l])

variable (k : Kernel T S L C) {l : L} {t : T} {rest : List T}

/-- A lock that is the thread's own. -/
theorem acquire_own (h : (k.locks l).lockerOwner = some k.currentThread) :
    k.acquire l = (k, true) := by
  simp only [acquire, h, true_or, decide_true, Lock.acquire_owned h, setLock,
    Function.update_eq_self]

theorem acquire_none (h : (k.locks l).lockerOwner = none) :
    k.acquire l = (k.setLock l ((k.locks l).acquire k.currentThread), true) := by
  simp only [acquire, (k.locks l).free_iff.mpr h, or_true, decide_true]

theorem acquire_other (h : (k.locks l).lockerOwner = some t) (hne : t ≠ k.currentThread) :
    k.acquire l = (k.setLock l ((k.locks l).acquire k.currentThread), false) := by
  have hbusy : (k.locks l).status ≠ .free := by
    rw [Ne, (k.locks l).free_iff, h]
    nofun
  simp only [acquire, h, Option.some.injEq, hne, hbusy, or_self, decide_false]

theorem release_nobody (h : (k.locks l).lockerOwner = some k.currentThread)
    (hq : (k.locks l).waitQueue = []) :
    k.release l = (k.setLock l .create, [.released k.currentThread l]) := by
  simp only [release, hq, if_pos h, Lock.release_free h hq]

theorem release_somebody (h : (k.locks l).lockerOwner = some k.currentThread)
    (hq : (k.locks l).waitQueue = t :: rest) :
    k.release l = ((k.setLock l ((k.locks l).release k.currentThread)).readyToRun t,
      [.released k.currentThread l, .removed k.currentThread t (.lock l)]) := by
  simp only [release, hq, if_pos h]

/-- Releasing somebody else's lock does nothing. -/
theorem release_other (h : (k.locks l).lockerOwner ≠ some k.currentThread) :
    k.release l = (k, [.released k.currentThread l]) := by
  simp only [release, if_neg h, Lock.release_other h, setLock, Function.update_eq_self]

theorem release_kept (l : L) : (k.release l).1.currentThread = k.currentThread ∧
    (k.release l).1.idle = k.idle ∧ (k.release l).1.pc = k.pc ∧
    (k.release l).1.semaphores = k.semaphores ∧ (k.release l).1.conditions = k.conditions ∧
    (k.release l).1.locks = Function.update k.locks l ((k.locks l).release k.currentThread) := by
  simp only [release]
  split
  · split <;> exact ⟨rfl, rfl, rfl, rfl, rfl, rfl⟩
  · exact ⟨rfl, rfl, rfl, rfl, rfl, rfl⟩

end Locks

/-! ## Conditions -/

section Conditions

variable [DecidableEq T] [DecidableEq L] [DecidableEq C]

/-- `Wait` up to its call of `Sleep`. -/
def wait (k : Kernel T S L C) (c : C) (conditionLock : Option L) :
    Kernel T S L C × List (Effect T S L C) :=
  let cond := k.conditions c
  let waitLock := if cond.waitLock = none then conditionLock else cond.waitLock
  match conditionLock with
  -- the lock is `NULL`, or is not the one that is waited with
  | none => (k.leave (.wait c none) false, [])
  | some l =>
      if waitLock ≠ some l then (k.leave (.wait c (some l)) false, [])
      else
        let (k', effects) := (k.setCondition c (cond.append l k.currentThread)).release l
        (k'.sleep (.inWait c l), .appended k.currentThread (.condition c) :: effects)

/-- `Signal`: the kernel afterwards, and whether it was not refused. -/
def signal (k : Kernel T S L C) (c : C) (conditionLock : Option L) :
    Kernel T S L C × List (Effect T S L C) × Bool :=
  let cond := k.conditions c
  match cond.waitQueue with
  | [] => (k, [], true)
  | nextThread :: _ =>
      if conditionLock ≠ cond.waitLock then (k, [], false)
      else
        ((k.setCondition c cond.remove).readyToRun nextThread,
          [.removed k.currentThread nextThread (.condition c)], true)

variable (k : Kernel T S L C) {l : L} {c : C} {t : T} {rest : List T} {conditionLock : Option L}

/-- The lock that is waited with, or would be. -/
def Waitable (k : Kernel T S L C) (c : C) (conditionLock : Option L) : Prop :=
  conditionLock ≠ none ∧
    ((k.conditions c).waitLock = none ∨ (k.conditions c).waitLock = conditionLock)

omit [DecidableEq C] in
/-- `Release` has nothing to do with conditions. -/
theorem release_conditions (conditions : C → Condition T L) (l : L) :
    { k with conditions }.release l =
      ({ (k.release l).1 with conditions }, (k.release l).2) := by
  by_cases howner : (k.locks l).lockerOwner = some k.currentThread
  · cases hq : (k.locks l).waitQueue <;> simp only [release, if_pos howner, hq] <;> rfl
  · simp only [release, if_neg howner]
    rfl

theorem wait_refused (h : ¬ k.Waitable c conditionLock) :
    k.wait c conditionLock = (k.leave (.wait c conditionLock) false, []) := by
  cases conditionLock with
  | none => rfl
  | some l =>
      have hne : (if (k.conditions c).waitLock = none then some l
          else (k.conditions c).waitLock) ≠ some l := by
        intro heq
        refine h ⟨nofun, ?_⟩
        by_cases hnone : (k.conditions c).waitLock = none
        · exact .inl hnone
        · rw [if_neg hnone] at heq
          exact .inr heq
      simp only [wait]
      rw [if_pos hne]

theorem wait_accepted (h : k.Waitable c (some l)) :
    k.wait c (some l) =
      ((((k.release l).1.setCondition c
          ((k.conditions c).append l k.currentThread)).sleep (.inWait c l)),
        .appended k.currentThread (.condition c) :: (k.release l).2) := by
  have hlock : (if (k.conditions c).waitLock = none then some l
      else (k.conditions c).waitLock) = some l := by
    rcases h.2 with h | h <;> simp [h]
  have hcond : (k.release l).1.conditions = k.conditions :=
    congrArg (fun r => r.1.conditions) (release_conditions k k.conditions l)
  simp only [wait, hlock, ne_eq, not_true_eq_false, if_false, setCondition, release_conditions,
    hcond]

theorem signal_nil (h : (k.conditions c).waitQueue = []) :
    k.signal c conditionLock = (k, [], true) := by
  simp only [signal, h]

theorem signal_refused (hq : (k.conditions c).waitQueue = t :: rest)
    (h : conditionLock ≠ (k.conditions c).waitLock) :
    k.signal c conditionLock = (k, [], false) := by
  simp only [signal, hq]
  exact if_pos h

theorem signal_cons (hq : (k.conditions c).waitQueue = t :: rest)
    (h : conditionLock = (k.conditions c).waitLock) :
    k.signal c conditionLock =
      ((k.setCondition c (k.conditions c).remove).readyToRun t,
        [.removed k.currentThread t (.condition c)], true) := by
  simp only [signal, hq]
  exact if_neg (not_not.mpr h)

theorem wait_kept (c : C) (conditionLock : Option L) :
    (k.wait c conditionLock).1.semaphores = k.semaphores := by
  by_cases h : k.Waitable c conditionLock
  · cases conditionLock with
    | none => exact absurd rfl h.1
    | some l =>
        rw [wait_accepted k h, sleep_semaphores]
        exact (release_kept k l).2.2.2.1
  · rw [wait_refused k h]
    rfl

theorem signal_kept (c : C) (l : Option L) : (k.signal c l).1.currentThread = k.currentThread ∧
    (k.signal c l).1.idle = k.idle ∧ (k.signal c l).1.pc = k.pc ∧
    (k.signal c l).1.semaphores = k.semaphores ∧ (k.signal c l).1.locks = k.locks := by
  simp only [signal]
  split
  · exact ⟨rfl, rfl, rfl, rfl, rfl⟩
  · split <;> exact ⟨rfl, rfl, rfl, rfl, rfl⟩

end Conditions

/-! ## Calls and what follows them -/

section Calls

variable [DecidableEq T] [DecidableEq S] [DecidableEq L] [DecidableEq C]

/-- The current thread calls `op`. -/
def call (k : Kernel T S L C) : Op T S L C → Kernel T S L C × List (Effect T S L C)
  | .p s => k.p s
  | .v s =>
      let (k', effects) := k.v (some k.currentThread) s
      (k'.leave (.v s) true, effects)
  | .acquire l =>
      let (k', owned) := k.acquire l
      if owned then (k'.leave (.acquire l) true, [])
      else (k'.sleep (.inAcquire l), [.appended k.currentThread (.lock l)])
  | .release l =>
      let (k', effects) := k.release l
      (k'.leave (.release l) true, effects)
  | .wait c l => k.wait c l
  | .signal c l =>
      let (k', effects, ok) := k.signal c l
      (k'.leave (.signal c l) ok, effects)
  | .broadcast c l => (k.setPc k.currentThread (.inBroadcast c l), [])
  | .fork t => ((k.fork t).leave (.fork t) true, [])
  | .yield => ((k.leave .yield true).yield, [])
  | .finish => (k.sleep .finished, [])

theorem call_acquire_owned {k : Kernel T S L C} {l : L} (h : (k.acquire l).2 = true) :
    k.call (.acquire l) = ((k.acquire l).1.leave (.acquire l) true, []) := if_pos h

theorem call_acquire_sleep {k : Kernel T S L C} {l : L} (h : (k.acquire l).2 = false) :
    k.call (.acquire l) = ((k.acquire l).1.sleep (.inAcquire l),
      [.appended k.currentThread (.lock l)]) := if_neg (Bool.eq_false_iff.mp h)

/-- A thread that has the processor again goes on behind `Sleep`. -/
def resume (k : Kernel T S L C) : Option (Kernel T S L C × List (Effect T S L C)) :=
  match k.pc k.currentThread with
  | .inP s => some (k.p s)
  | .inAcquire l => some (k.leave (.acquire l) true, [])
  | .inWait c l =>
      let (k', owned) := k.acquire l
      if owned then
        some (k'.leave (.wait c (some l)) true, [.reacquired k.currentThread l])
      else some (k'.sleep (.inReacquire c l), [.appended k.currentThread (.lock l)])
  | .inReacquire c l =>
      some (k.leave (.wait c (some l)) true, [.reacquired k.currentThread l])
  | _ => none

/-- A round of the loop in `Broadcast`. -/
def loop (k : Kernel T S L C) (c : C) (l : Option L) : Kernel T S L C × List (Effect T S L C) :=
  if (k.conditions c).waitQueue = [] then
    (k.setPc k.currentThread .outside, [.returned k.currentThread (.broadcast c l) true])
  else
    let (k', effects, _) := k.signal c l
    (k', effects)

end Calls

end Kernel

inductive Label (T S L C : Type*) where
  /-- The current thread calls. -/
  | call (op : Op T S L C)
  /-- It goes on behind `Sleep`. -/
  | resume
  /-- It goes through the loop of `Broadcast` once more. -/
  | loop
  /-- It returns from its call. -/
  | return
  /-- The timer takes the processor away from it. -/
  | preempt
  /-- The handler of an interrupt calls `V`. -/
  | interrupt (s : S)
  /-- `Sleep` looks for a thread again. -/
  | dispatch
deriving DecidableEq, Repr

section Step

variable {T S L C : Type*} [DecidableEq T] [DecidableEq S] [DecidableEq L] [DecidableEq C]

/-- A call is possible in code of the thread's own; only a new thread is forked. -/
def Kernel.CanCall (k : Kernel T S L C) (op : Op T S L C) : Prop :=
  k.idle = false ∧ k.pc k.currentThread = .outside ∧ ∀ t, op = .fork t → k.pc t = .unborn

instance (k : Kernel T S L C) (op : Op T S L C) : Decidable (k.CanCall op) :=
  match op with
  | .fork t => decidable_of_iff
      (k.idle = false ∧ k.pc k.currentThread = .outside ∧ k.pc t = .unborn) (by
        simp [Kernel.CanCall])
  | .p _ | .v _ | .acquire _ | .release _ | .wait _ _ | .signal _ _ | .broadcast _ _ | .yield
  | .finish => decidable_of_iff (k.idle = false ∧ k.pc k.currentThread = .outside) (by
      simp [Kernel.CanCall])

def step (k : Kernel T S L C) :
    Label T S L C → Option (Kernel T S L C × List (Effect T S L C))
  | .call op =>
      if k.CanCall op then
        let (k', effects) := k.call op
        some (k', .called k.currentThread op :: effects)
      else none
  | .resume => if k.idle then none else k.resume
  | .loop =>
      match k.idle, k.pc k.currentThread with
      | false, .inBroadcast c l => some (k.loop c l)
      | _, _ => none
  | .return =>
      match k.idle, k.pc k.currentThread with
      | false, .leaving op ok =>
          some (k.setPc k.currentThread .outside, [.returned k.currentThread op ok])
      | _, _ => none
  | .preempt =>
      if k.idle = false ∧ (k.pc k.currentThread).Open then some (k.yield, []) else none
  | .interrupt s =>
      if k.idle = true ∨ (k.pc k.currentThread).Open then some (k.v none s) else none
  | .dispatch => if k.idle then some (k.dispatch, []) else none

/-- The steps. -/
inductive Step (k : Kernel T S L C) : Kernel T S L C → List (Effect T S L C) → Prop where
  | call {op : Op T S L C} : k.CanCall op →
      Step k (k.call op).1 (.called k.currentThread op :: (k.call op).2)
  | resumeP {s : S} : k.idle = false → k.pc k.currentThread = .inP s → Step k (k.p s).1 (k.p s).2
  | resumeAcquire {l : L} : k.idle = false → k.pc k.currentThread = .inAcquire l →
      Step k (k.leave (.acquire l) true) []
  | resumeWait {c : C} {l : L} : k.idle = false → k.pc k.currentThread = .inWait c l →
      (k.acquire l).2 = true →
      Step k ((k.acquire l).1.leave (.wait c (some l)) true) [.reacquired k.currentThread l]
  | resumeWaitSleep {c : C} {l : L} : k.idle = false → k.pc k.currentThread = .inWait c l →
      (k.acquire l).2 = false →
      Step k ((k.acquire l).1.sleep (.inReacquire c l)) [.appended k.currentThread (.lock l)]
  | resumeReacquire {c : C} {l : L} : k.idle = false → k.pc k.currentThread = .inReacquire c l →
      Step k (k.leave (.wait c (some l)) true) [.reacquired k.currentThread l]
  | loopEnd {c : C} {l : Option L} : k.idle = false → k.pc k.currentThread = .inBroadcast c l →
      (k.conditions c).waitQueue = [] →
      Step k (k.setPc k.currentThread .outside) [.returned k.currentThread (.broadcast c l) true]
  | loopSignal {c : C} {l : Option L} : k.idle = false →
      k.pc k.currentThread = .inBroadcast c l → (k.conditions c).waitQueue ≠ [] →
      Step k (k.signal c l).1 (k.signal c l).2.1
  | return {op : Op T S L C} {ok : Bool} : k.idle = false →
      k.pc k.currentThread = .leaving op ok →
      Step k (k.setPc k.currentThread .outside) [.returned k.currentThread op ok]
  | preempt : k.idle = false → (k.pc k.currentThread).Open → Step k k.yield []
  | interrupt {s : S} : k.idle = true ∨ (k.pc k.currentThread).Open →
      Step k (k.v none s).1 (k.v none s).2
  | dispatch : k.idle = true → Step k k.dispatch []

/-- **What a step can be.** -/
theorem Step.of_step {k k' : Kernel T S L C} {l : Label T S L C} {es : List (Effect T S L C)}
    (hs : step k l = some (k', es)) : Step k k' es := by
  cases l with
  | call op =>
      simp only [step] at hs
      split at hs
      · rename_i hcan
        obtain ⟨rfl, rfl⟩ := Prod.mk.inj (Option.some.inj hs)
        exact .call hcan
      · cases hs
  | resume =>
      simp only [step] at hs
      split at hs
      · cases hs
      · rename_i hidle
        have hidle := Bool.eq_false_iff.mpr hidle
        unfold Kernel.resume at hs
        cases hpc : k.pc k.currentThread with
        | inP s =>
            simp only [hpc] at hs
            rw [← (Prod.mk.inj (Option.some.inj hs)).1, ← (Prod.mk.inj (Option.some.inj hs)).2]
            exact .resumeP hidle hpc
        | inAcquire l =>
            simp only [hpc] at hs
            obtain ⟨rfl, rfl⟩ := Prod.mk.inj (Option.some.inj hs)
            exact .resumeAcquire hidle hpc
        | inWait c l =>
            simp only [hpc] at hs
            split at hs
            · rename_i howned
              obtain ⟨rfl, rfl⟩ := Prod.mk.inj (Option.some.inj hs)
              exact .resumeWait hidle hpc howned
            · rename_i howned
              obtain ⟨rfl, rfl⟩ := Prod.mk.inj (Option.some.inj hs)
              exact .resumeWaitSleep hidle hpc (Bool.eq_false_iff.mpr howned)
        | inReacquire c l =>
            simp only [hpc] at hs
            obtain ⟨rfl, rfl⟩ := Prod.mk.inj (Option.some.inj hs)
            exact .resumeReacquire hidle hpc
        | unborn | outside | leaving op ok | inBroadcast c l | finished =>
            simp only [hpc] at hs
            cases hs
  | loop =>
      cases hidle : k.idle with
      | true => simp [step, hidle] at hs
      | false =>
          cases hpc : k.pc k.currentThread with
          | inBroadcast c l =>
              simp only [step, hidle, hpc, Kernel.loop] at hs
              split at hs
              · rename_i hq
                obtain ⟨rfl, rfl⟩ := Prod.mk.inj (Option.some.inj hs)
                exact .loopEnd hidle hpc hq
              · rename_i hq
                obtain ⟨rfl, rfl⟩ := Prod.mk.inj (Option.some.inj hs)
                exact .loopSignal hidle hpc hq
          | _ => simp [step, hidle, hpc] at hs
  | «return» =>
      cases hidle : k.idle with
      | true => simp [step, hidle] at hs
      | false =>
          cases hpc : k.pc k.currentThread with
          | leaving op ok =>
              simp only [step, hidle, hpc] at hs
              obtain ⟨rfl, rfl⟩ := Prod.mk.inj (Option.some.inj hs)
              exact .return hidle hpc
          | _ => simp [step, hidle, hpc] at hs
  | preempt =>
      simp only [step] at hs
      split at hs
      · rename_i hopen
        obtain ⟨rfl, rfl⟩ := Prod.mk.inj (Option.some.inj hs)
        exact .preempt hopen.1 hopen.2
      · cases hs
  | interrupt s =>
      simp only [step] at hs
      split at hs
      · rename_i hopen
        obtain ⟨rfl, rfl⟩ := Prod.mk.inj (Option.some.inj hs)
        exact .interrupt hopen
      · cases hs
  | dispatch =>
      simp only [step] at hs
      split at hs
      · rename_i hidle
        obtain ⟨rfl, rfl⟩ := Prod.mk.inj (Option.some.inj hs)
        exact .dispatch hidle
      · cases hs

/-- The main thread runs, and there is no other one. -/
def boot (main : T) (initialValue : S → ℤ) : Kernel T S L C where
  currentThread := main
  idle := false
  readyList := []
  status := Function.update (fun _ => .justCreated) main .running
  pc := Function.update (fun _ => .unborn) main .outside
  semaphores s := ⟨initialValue s, []⟩
  locks _ := .create
  conditions _ := .create

end Step

end Nachos.Threads
