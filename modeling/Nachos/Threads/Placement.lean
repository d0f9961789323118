import Nachos.Lib.Located
import Nachos.Threads.Kernel

/-!
# No thread is lost

A thread is on the ready list, in the queue of what it waits for, or in no list at all,
and its status and the place it goes on at tell which. Every step moves at most two
threads, each from one list to another one or between a list and the processor.
-/

namespace Nachos.Threads

open Nachos.Lib

variable {T S L C : Type*}

/-! ## Where a thread is -/

/-- The queue a thread sleeps in that goes on here. -/
def Pc.queue : Pc T S L C → Option (Queue S L C)
  | .inP s => some (.semaphore s)
  | .inAcquire l | .inReacquire _ l => some (.lock l)
  | .inWait c _ => some (.condition c)
  | _ => none

theorem Pc.Open.queue {pc : Pc T S L C} (h : pc.Open) : pc.queue = none := by
  cases pc <;> first | rfl | exact h.elim

/-- The list of a thread with this status that goes on here. -/
def Pc.listed (pc : Pc T S L C) : ThreadStatus → Option (Queue S L C)
  | .ready => some .readyList
  | .blocked => pc.queue
  | .justCreated | .running => none

/-- Status and place go together. -/
structure Pc.Fits (pc : Pc T S L C) (status : ThreadStatus) : Prop where
  unborn_iff : status = .justCreated ↔ pc = .unborn
  asleep : status = .blocked → pc = .finished ∨ ∃ q, pc.queue = some q
  finished : pc = .finished → status = .blocked

namespace Kernel

/-- The threads in a list. -/
def queue (k : Kernel T S L C) : Queue S L C → List T
  | .readyList => k.readyList
  | .semaphore s => (k.semaphores s).queue
  | .lock l => (k.locks l).waitQueue
  | .condition c => (k.conditions c).waitQueue

/-- The list a thread is in. -/
def loc (k : Kernel T S L C) (t : T) : Option (Queue S L C) := (k.pc t).listed (k.status t)

section Update

variable [DecidableEq S] [DecidableEq L] [DecidableEq C] (k : Kernel T S L C)

theorem queue_readyList (ready : List T) :
    { k with readyList := ready }.queue = Function.update k.queue .readyList ready := by
  funext q
  cases q <;> simp [queue, Function.update]

theorem queue_setSemaphore (s : S) (sem : Semaphore T) :
    (k.setSemaphore s sem).queue = Function.update k.queue (.semaphore s) sem.queue := by
  funext q
  cases q with
  | semaphore s' =>
      by_cases hs : s' = s
      · subst hs
        simp [queue, setSemaphore]
      · simp [queue, setSemaphore, hs]
  | _ => simp [queue, setSemaphore]

theorem queue_setLock (l : L) (lock : Lock T) :
    (k.setLock l lock).queue = Function.update k.queue (.lock l) lock.waitQueue := by
  funext q
  cases q with
  | lock l' =>
      by_cases hl : l' = l
      · subst hl
        simp [queue, setLock]
      · simp [queue, setLock, hl]
  | _ => simp [queue, setLock]

theorem queue_setCondition [DecidableEq T] (c : C) (cond : Condition T L) :
    (k.setCondition c cond).queue = Function.update k.queue (.condition c) cond.waitQueue := by
  funext q
  cases q with
  | condition c' =>
      by_cases hc : c' = c
      · subst hc
        simp [queue, setCondition]
      · simp [queue, setCondition, hc]
  | _ => simp [queue, setCondition]

end Update

/-- The same threads do the same: only lists and what they belong to may differ. -/
structure SameThreads (k k' : Kernel T S L C) : Prop where
  currentThread : k'.currentThread = k.currentThread
  idle : k'.idle = k.idle
  status : k'.status = k.status
  pc : k'.pc = k.pc

end Kernel

/-- **No thread is lost**: every thread is in the list its status and place tell, once,
and in no other one. -/
structure Placed [DecidableEq T] [DecidableEq S] [DecidableEq L] [DecidableEq C]
    (k : Kernel T S L C) : Prop where
  located : Located k.queue k.loc
  running_iff : ∀ t, k.status t = .running ↔ t = k.currentThread ∧ k.idle = false
  fits : ∀ t, (k.pc t).Fits (k.status t)

namespace Placed

open Kernel

variable [DecidableEq T] [DecidableEq S] [DecidableEq L] [DecidableEq C]
  {k k' : Kernel T S L C} {t u : T} {q : Queue S L C} {rest : List T} {pc : Pc T S L C}
  {status : ThreadStatus}

theorem status_current (h : Placed k) (hidle : k.idle = false) :
    k.status k.currentThread = .running := (h.running_iff _).mpr ⟨rfl, hidle⟩

theorem loc_current (h : Placed k) (hidle : k.idle = false) : k.loc k.currentThread = none := by
  rw [Kernel.loc, h.status_current hidle]
  rfl

/-- A thread in a list other than the ready list sleeps there. -/
theorem of_mem (h : Placed k) (hq : t ∈ k.queue q) (hne : q ≠ .readyList) :
    k.status t = .blocked ∧ (k.pc t).queue = some q := by
  have hloc := h.located.mem_iff.mp hq
  rw [Kernel.loc] at hloc
  cases hs : k.status t with
  | ready =>
      rw [hs] at hloc
      exact absurd (Option.some.inj hloc).symm hne
  | blocked =>
      rw [hs] at hloc
      exact ⟨rfl, hloc⟩
  | running | justCreated =>
      rw [hs] at hloc
      cases hloc

/-- A thread on the ready list is ready. -/
theorem of_mem_readyList (h : Placed k) (ht : t ∈ k.readyList) : k.status t = .ready := by
  have hloc := h.located.mem_iff.mp (show t ∈ k.queue .readyList from ht)
  rw [Kernel.loc] at hloc
  cases hs : k.status t with
  | ready => rfl
  | blocked =>
      rw [hs] at hloc
      have hqueue : (k.pc t).queue = some .readyList := hloc
      cases hpc : k.pc t <;> simp [hpc, Pc.queue] at hqueue
  | running | justCreated =>
      rw [hs] at hloc
      cases hloc

/-! ### One thread changes -/

/-- Nothing changes in the lists. -/
theorem congr (h : Placed k) (hsame : SameThreads k k') (hqueue : k'.queue = k.queue) :
    Placed k' := by
  have hloc : k'.loc = k.loc := by
    funext t
    rw [Kernel.loc, Kernel.loc, hsame.status, hsame.pc]
  constructor
  · rw [hqueue, hloc]
    exact h.located
  · rw [hsame.status, hsame.currentThread, hsame.idle]
    exact h.running_iff
  · rw [hsame.status, hsame.pc]
    exact h.fits

/-- **One thread changes** its status and its place. -/
theorem change (h : Placed k) (t : T) (status : ThreadStatus) (pc : Pc T S L C)
    (hstatus : k'.status = Function.update k.status t status)
    (hpc : k'.pc = Function.update k.pc t pc) (hfits : pc.Fits status)
    (hlocated : Located k'.queue (Function.update k.loc t (pc.listed status)))
    (hrunning : ∀ u, k'.status u = .running ↔ u = k'.currentThread ∧ k'.idle = false) :
    Placed k' := by
  have hloc : k'.loc = Function.update k.loc t (pc.listed status) := by
    funext u
    by_cases hu : u = t
    · subst hu
      rw [Kernel.loc, hstatus, hpc, Function.update_self, Function.update_self,
        Function.update_self]
    · rw [Kernel.loc, hstatus, hpc, Function.update_of_ne hu, Function.update_of_ne hu,
        Function.update_of_ne hu, Kernel.loc]
  refine ⟨by rw [hloc]; exact hlocated, hrunning, ?_⟩
  intro u
  rw [hstatus, hpc]
  by_cases hu : u = t
  · subst hu
    rw [Function.update_self, Function.update_self]
    exact hfits
  · rw [Function.update_of_ne hu, Function.update_of_ne hu]
    exact h.fits u

/-- The current thread goes on elsewhere. -/
theorem setPc (h : Placed k) (hidle : k.idle = false) (hborn : pc ≠ .unborn)
    (hfinished : pc ≠ .finished) : Placed (k.setPc k.currentThread pc) := by
  have hstatus := h.status_current hidle
  refine h.change k.currentThread .running pc ?_ rfl ?_ ?_ h.running_iff
  · show k.status = _
    rw [← hstatus, Function.update_eq_self]
  · exact ⟨iff_of_false nofun hborn, nofun, fun hpc => absurd hpc hfinished⟩
  · have hloc : Function.update k.loc k.currentThread (pc.listed .running) = k.loc := by
      rw [show pc.listed .running = k.loc k.currentThread from (h.loc_current hidle).symm,
        Function.update_eq_self]
    rw [hloc]
    exact h.located

theorem leave (h : Placed k) (hidle : k.idle = false) (op : Op T S L C) (ok : Bool) :
    Placed (k.leave op ok) := h.setPc hidle nofun nofun

/-! ### Waking up -/

/-- The first of a queue is made ready. -/
theorem readyToRun (h : Placed k) (hsame : SameThreads k k') (hq : k.queue q = t :: rest)
    (hne : q ≠ .readyList) (hqueue : k'.queue = Function.update k.queue q rest) :
    Placed (k'.readyToRun t) := by
  have ht : t ∈ k.queue q := by
    rw [hq]
    exact List.mem_cons_self
  obtain ⟨hstatus, hpc⟩ := h.of_mem ht hne
  have hready : k'.readyList = k.readyList := by
    have heq := congrFun hqueue .readyList
    rw [Function.update_of_ne hne.symm] at heq
    exact heq
  have hborn : k.pc t ≠ .unborn := by
    intro hpc'
    rw [hpc'] at hpc
    cases hpc
  have hfinished : k.pc t ≠ .finished := by
    intro hpc'
    rw [hpc'] at hpc
    cases hpc
  refine h.change t .ready (k.pc t) ?_ ?_ ?_ ?_ ?_
  · show Function.update k'.status t .ready = _
    rw [hsame.status]
  · show k'.pc = _
    rw [hsame.pc, Function.update_eq_self]
  · exact ⟨iff_of_false nofun hborn, nofun, fun hpc' => absurd hpc' hfinished⟩
  · have hlists : (k'.readyToRun t).queue =
        Function.update (Function.update k.queue q rest) .readyList (k.queue .readyList ++ [t]) := by
      rw [← hqueue, ← show k'.readyList = k.queue .readyList from hready, ← queue_readyList]
      rfl
    rw [hlists]
    exact h.located.move hq hne.symm
  · intro u
    show Function.update k'.status t .ready u = .running ↔ u = k'.currentThread ∧ k'.idle = false
    rw [hsame.status, hsame.currentThread, hsame.idle, ← h.running_iff u]
    by_cases hu : u = t
    · subst hu
      rw [Function.update_self, hstatus]
      exact iff_of_false nofun nofun
    · rw [Function.update_of_ne hu]

/-! ### The processor changes hands -/

/-- While the machine idles, the first thread that is ready gets the processor. -/
theorem dispatch (h : Placed k) (hidle : k.idle = true) : Placed k.dispatch := by
  unfold Kernel.dispatch
  cases hready : k.readyList with
  | nil => exact h
  | cons next rest =>
      have hstatus : k.status next = .ready := by
        refine h.of_mem_readyList ?_
        rw [hready]
        exact List.mem_cons_self
      have hnobody : ∀ u, k.status u ≠ .running := by
        intro u hu
        have hnot := ((h.running_iff u).mp hu).2
        rw [hidle] at hnot
        cases hnot
      have hfits := h.fits next
      rw [hstatus] at hfits
      refine h.change next .running (k.pc next) rfl ?_ ?_ ?_ ?_
      · exact (Function.update_eq_self next k.pc).symm
      · refine ⟨iff_of_false nofun fun hpc => ?_, nofun, fun hpc => ?_⟩
        · cases hfits.unborn_iff.mpr hpc
        · cases hfits.finished hpc
      · have hlists : (({ k with readyList := rest } : Kernel T S L C).run next).queue =
            Function.update k.queue .readyList rest := by
          rw [← queue_readyList]
          rfl
        show Located (Kernel.queue (({ k with readyList := rest } : Kernel T S L C).run next)) _
        rw [hlists]
        exact h.located.remove hready
      · intro u
        show Function.update k.status next .running u = .running ↔ u = next ∧ false = false
        by_cases hu : u = next
        · subst hu
          rw [Function.update_self]
          exact iff_of_true rfl ⟨rfl, rfl⟩
        · rw [Function.update_of_ne hu]
          exact iff_of_false (hnobody u) fun hn => hu hn.1

/-- The current thread goes to sleep: in a queue, or for ever. -/
theorem sleep (h : Placed k) (hidle : k.idle = false) (hsame : SameThreads k k')
    (hpc : pc = .finished ∧ k'.queue = k.queue ∨ ∃ q, pc.queue = some q ∧
      k'.queue = Function.update k.queue q (k.queue q ++ [k.currentThread])) :
    Placed (k'.sleep pc) := by
  have hloc := h.loc_current hidle
  refine dispatch (k := { k' with
    status := Function.update k'.status k'.currentThread .blocked
    pc := Function.update k'.pc k'.currentThread pc
    idle := true }) ?_ rfl
  refine h.change k.currentThread .blocked pc ?_ ?_ ?_ ?_ ?_
  · show Function.update k'.status k'.currentThread .blocked = _
    rw [hsame.status, hsame.currentThread]
  · show Function.update k'.pc k'.currentThread pc = _
    rw [hsame.pc, hsame.currentThread]
  · refine ⟨iff_of_false nofun ?_, fun _ => ?_, fun _ => rfl⟩
    · rcases hpc with ⟨rfl, -⟩ | ⟨q, hq, -⟩
      · nofun
      · rintro rfl
        cases hq
    · rcases hpc with ⟨rfl, -⟩ | ⟨q, hq, -⟩
      · exact .inl rfl
      · exact .inr ⟨q, hq⟩
  · show Located k'.queue _
    rcases hpc with ⟨rfl, hqueue⟩ | ⟨q, hq, hqueue⟩
    · rw [hqueue, show (Pc.finished : Pc T S L C).listed .blocked = k.loc k.currentThread from
        hloc.symm, Function.update_eq_self]
      exact h.located
    · rw [hqueue, show pc.listed .blocked = some q from hq]
      exact h.located.append hloc
  · intro u
    show Function.update k'.status k'.currentThread .blocked u = .running ↔ _ ∧ true = false
    refine iff_of_false ?_ nofun
    rw [hsame.status, hsame.currentThread]
    by_cases hu : u = k.currentThread
    · subst hu
      rw [Function.update_self]
      nofun
    · rw [Function.update_of_ne hu]
      intro hrun
      exact hu ((h.running_iff u).mp hrun).1

/-- `Yield` is going to the end of the ready list and looking for a thread. -/
theorem yield (h : Placed k) (hidle : k.idle = false) (hpc : (k.pc k.currentThread).Open) :
    Placed k.yield := by
  unfold Kernel.yield
  cases hready : k.readyList with
  | nil => exact h
  | cons next rest =>
      have hparked : Placed { k.readyToRun k.currentThread with idle := true } := by
        refine h.change k.currentThread .ready (k.pc k.currentThread) rfl
          (Function.update_eq_self _ _).symm ?_ ?_ ?_
        · refine ⟨iff_of_false nofun fun hborn => ?_, nofun, fun hfin => ?_⟩
          · rw [hborn] at hpc
            exact hpc
          · rw [hfin] at hpc
            exact hpc.elim
        · have hlists : ({ k.readyToRun k.currentThread with idle := true } :
              Kernel T S L C).queue = Function.update k.queue .readyList
                (k.queue .readyList ++ [k.currentThread]) := by
            rw [show k.queue .readyList = k.readyList from rfl, ← queue_readyList]
            rfl
          rw [hlists]
          exact h.located.append (h.loc_current hidle)
        · intro u
          show Function.update k.status k.currentThread .ready u = .running ↔ _ ∧ true = false
          refine iff_of_false ?_ nofun
          by_cases hu : u = k.currentThread
          · subst hu
            rw [Function.update_self]
            nofun
          · rw [Function.update_of_ne hu]
            intro hrun
            exact hu ((h.running_iff u).mp hrun).1
      have hyield := hparked.dispatch rfl
      unfold Kernel.dispatch at hyield
      rw [show ({ k.readyToRun k.currentThread with idle := true } : Kernel T S L C).readyList =
        next :: (rest ++ [k.currentThread]) by
          show k.readyList ++ [k.currentThread] = _
          rw [hready]
          rfl] at hyield
      exact hyield

/-- A new thread is put on the ready list. -/
theorem fork (h : Placed k) (ht : k.pc t = .unborn) : Placed (k.fork t) := by
  have hstatus : k.status t = .justCreated := (h.fits t).unborn_iff.mpr ht
  have hloc : k.loc t = none := by
    rw [Kernel.loc, hstatus]
    rfl
  refine h.change t .ready .outside rfl rfl
    ⟨iff_of_false nofun nofun, nofun, nofun⟩ ?_ ?_
  · have hlists : (k.fork t).queue =
        Function.update k.queue .readyList (k.queue .readyList ++ [t]) := by
      rw [show k.queue .readyList = k.readyList from rfl, ← queue_readyList]
      rfl
    rw [hlists]
    exact h.located.append hloc
  · intro u
    show Function.update k.status t .ready u = .running ↔ u = k.currentThread ∧ k.idle = false
    rw [← h.running_iff u]
    by_cases hu : u = t
    · subst hu
      rw [Function.update_self, hstatus]
      exact iff_of_false nofun nofun
    · rw [Function.update_of_ne hu]

/-! ### Operations -/

theorem p (h : Placed k) (hidle : k.idle = false) (s : S) : Placed (k.p s).1 := by
  by_cases hzero : (k.semaphores s).value = 0
  · rw [p_zero k hzero]
    exact h.sleep hidle ⟨rfl, rfl, rfl, rfl⟩ (.inr ⟨.semaphore s, rfl, queue_setSemaphore ..⟩)
  · rw [p_pos k hzero]
    refine leave (k := k.setSemaphore s _) (h.congr ⟨rfl, rfl, rfl, rfl⟩ ?_) hidle _ _
    rw [queue_setSemaphore]
    exact Function.update_eq_self (.semaphore s) k.queue

theorem v (h : Placed k) (waker : Option T) (s : S) : Placed (k.v waker s).1 := by
  cases hq : (k.semaphores s).queue with
  | nil =>
      rw [v_nil k hq]
      refine h.congr ⟨rfl, rfl, rfl, rfl⟩ ?_
      rw [queue_setSemaphore, ← hq]
      exact Function.update_eq_self (.semaphore s) k.queue
  | cons t rest =>
      rw [v_cons k hq]
      exact h.readyToRun (q := .semaphore s) ⟨rfl, rfl, rfl, rfl⟩ hq nofun
        (queue_setSemaphore ..)

/-- `Acquire` leaves the thread out of the queue exactly if it has the lock now. -/
theorem acquire_queue (k : Kernel T S L C) (l : L) :
    (k.acquire l).1.queue = if (k.acquire l).2 then k.queue else
      Function.update k.queue (.lock l) (k.queue (.lock l) ++ [k.currentThread]) := by
  cases ho : (k.locks l).lockerOwner with
  | none =>
      rw [acquire_none k ho, if_pos rfl, queue_setLock, (Lock.acquire_free ho).2,
        ← (k.locks l).idle ho]
      exact Function.update_eq_self (.lock l) k.queue
  | some o =>
      by_cases heq : o = k.currentThread
      · subst heq
        rw [acquire_own k ho, if_pos rfl]
      · rw [acquire_other k ho heq, if_neg nofun, queue_setLock, (Lock.acquire_busy ho heq).2]
        rfl

/-- An `Acquire` with what follows it. -/
theorem acquire (h : Placed k) (hidle : k.idle = false) (l : L) :
    ((k.acquire l).2 = true → ∀ op ok, Placed ((k.acquire l).1.leave op ok)) ∧
      ((k.acquire l).2 = false → ∀ pc, pc.queue = some (.lock l) →
        Placed ((k.acquire l).1.sleep pc)) := by
  have hqueue := acquire_queue k l
  constructor
  · intro howned op ok
    rw [howned, if_pos rfl] at hqueue
    exact leave (k := (k.acquire l).1) (h.congr ⟨rfl, rfl, rfl, rfl⟩ hqueue) hidle op ok
  · intro howned pc hpc
    rw [howned, if_neg (by decide)] at hqueue
    exact h.sleep hidle ⟨rfl, rfl, rfl, rfl⟩ (.inr ⟨_, hpc, hqueue⟩)

theorem release (h : Placed k) (l : L) : Placed (k.release l).1 := by
  by_cases howner : (k.locks l).lockerOwner = some k.currentThread
  · cases hq : (k.locks l).waitQueue with
    | nil =>
        rw [release_nobody k howner hq]
        refine h.congr ⟨rfl, rfl, rfl, rfl⟩ ?_
        rw [queue_setLock, Lock.create_waitQueue, ← hq]
        exact Function.update_eq_self (.lock l) k.queue
    | cons t rest =>
        rw [release_somebody k howner hq]
        refine h.readyToRun (q := .lock l) ⟨rfl, rfl, rfl, rfl⟩ hq nofun ?_
        rw [queue_setLock, (Lock.release_next howner hq).2]
  · rw [release_other k howner]
    exact h

theorem wait (h : Placed k) (hidle : k.idle = false) (c : C) (l : Option L) :
    Placed (k.wait c l).1 := by
  by_cases hwaitable : k.Waitable c l
  · cases l with
    | none => exact absurd rfl hwaitable.1
    | some l =>
        rw [wait_accepted k hwaitable]
        obtain ⟨hcur, hidle', -, -, hcond, -⟩ := release_kept k l
        refine (h.release l).sleep (hidle'.trans hidle) ⟨rfl, rfl, rfl, rfl⟩
          (.inr ⟨.condition c, rfl, ?_⟩)
        rw [queue_setCondition, hcur, ← hcond]
        rfl
  · rw [wait_refused k hwaitable]
    exact h.leave hidle _ _

theorem signal (h : Placed k) (c : C) (l : Option L) : Placed (k.signal c l).1 := by
  cases hq : (k.conditions c).waitQueue with
  | nil =>
      rw [signal_nil k hq]
      exact h
  | cons t rest =>
      by_cases hl : l = (k.conditions c).waitLock
      · rw [signal_cons k hq hl]
        refine h.readyToRun (q := .condition c) ⟨rfl, rfl, rfl, rfl⟩ hq nofun ?_
        rw [queue_setCondition, Condition.remove_waitQueue, hq]
        rfl
      · rw [signal_refused k hq hl]
        exact h

/-! ### Steps -/

theorem call (h : Placed k) {op : Op T S L C} (hcan : k.CanCall op) : Placed (k.call op).1 := by
  obtain ⟨hidle, hpc, hfork⟩ := hcan
  cases op with
  | p s => exact h.p hidle s
  | v s => exact (h.v _ s).leave ((v_kept k s _).2.1.trans hidle) _ _
  | acquire l =>
      obtain ⟨howned, hslept⟩ := h.acquire hidle l
      cases heq : (k.acquire l).2 with
      | true =>
          rw [call_acquire_owned heq]
          exact howned heq _ _
      | false =>
          rw [call_acquire_sleep heq]
          exact hslept heq _ rfl
  | release l => exact (h.release l).leave ((release_kept k l).2.1.trans hidle) _ _
  | wait c l => exact h.wait hidle c l
  | signal c l => exact (h.signal c l).leave ((signal_kept k c l).2.1.trans hidle) _ _
  | broadcast c l => exact h.setPc hidle nofun nofun
  | fork t => exact (h.fork (hfork t rfl)).leave hidle _ _
  | yield =>
      refine (h.leave hidle _ _).yield hidle ?_
      rw [show (k.leave .yield true).pc (k.leave .yield true).currentThread = .leaving .yield true
        from Function.update_self ..]
      trivial
  | finish => exact h.sleep hidle ⟨rfl, rfl, rfl, rfl⟩ (.inl ⟨rfl, rfl⟩)

/-- **One step** loses no thread. -/
theorem step (h : Placed k) {es : List (Effect T S L C)} (hs : Step k k' es) : Placed k' := by
  cases hs with
  | call hcan => exact h.call hcan
  | resumeP hidle _ => exact h.p hidle _
  | resumeAcquire hidle _ | resumeReacquire hidle _ => exact h.leave hidle _ _
  | resumeWait hidle _ howned => exact (h.acquire hidle _).1 howned _ _
  | resumeWaitSleep hidle _ howned => exact (h.acquire hidle _).2 howned _ rfl
  | loopEnd hidle _ _ | «return» hidle _ => exact h.setPc hidle nofun nofun
  | loopSignal _ _ _ => exact h.signal _ _
  | preempt hidle hopen => exact h.yield hidle hopen
  | interrupt _ => exact h.v none _
  | dispatch hidle => exact h.dispatch hidle

theorem boot (main : T) (initialValue : S → ℤ) :
    Placed (Threads.boot main initialValue : Kernel T S L C) := by
  have hstatus : ∀ u, (Threads.boot main initialValue : Kernel T S L C).status u =
      if u = main then .running else .justCreated := by
    intro u
    by_cases hu : u = main <;> simp [Threads.boot, hu]
  have hpc : ∀ u, (Threads.boot main initialValue : Kernel T S L C).pc u =
      if u = main then .outside else .unborn := by
    intro u
    by_cases hu : u = main <;> simp [Threads.boot, hu]
  constructor
  · intro u q
    rw [Kernel.loc, hstatus]
    have hnil : (Threads.boot main initialValue : Kernel T S L C).queue q = [] := by
      cases q <;> rfl
    rw [hnil]
    split <;> rfl
  · intro u
    rw [hstatus]
    show _ ↔ u = main ∧ false = false
    split <;> simp_all
  · intro u
    rw [hstatus, hpc]
    split
    · exact ⟨iff_of_false nofun nofun, nofun, nofun⟩
    · exact ⟨iff_of_true rfl rfl, nofun, nofun⟩

end Placed

end Nachos.Threads
