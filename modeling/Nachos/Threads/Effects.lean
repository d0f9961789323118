import Nachos.Threads.Placement

/-!
# What a step does

To one semaphore, to one lock, to one condition, and to the place of one thread, with the
effects that tell. Everything about these objects is proved from what is said here, so that
no other proof goes through the operations.
-/

namespace Nachos.Threads

open Nachos.Lib

variable {T S L C : Type*} [DecidableEq T] [DecidableEq S] [DecidableEq L] [DecidableEq C]

/-! ## Effects on an object -/

/-- The effects on a queue and on what it belongs to. -/
def Effect.about (q : Queue S L C) : Effect T S L C → Bool
  | .appended _ q' | .removed _ _ q' => q' = q
  | .decremented _ s | .incremented s => .semaphore s = q
  | .released _ l => .lock l = q
  | .called _ _ | .reacquired _ _ | .returned _ _ _ => false

/-- The thread that goes to sleep in the queue. -/
def Effect.joins (q : Queue S L C) : Effect T S L C → Option T
  | .appended t q' => if q' = q then some t else none
  | _ => none

/-- The thread that is woken out of the queue. -/
def Effect.leaves (q : Queue S L C) : Effect T S L C → Option T
  | .removed _ t q' => if q' = q then some t else none
  | _ => none

omit [DecidableEq T] in
/-- Who goes to sleep or wakes up in a queue is told by the effects on it. -/
theorem filterMap_about {f : Effect T S L C → Option T} {q : Queue S L C}
    (hf : ∀ e : Effect T S L C, e.about q = false → f e = none) (es : List (Effect T S L C)) :
    (es.filter (Effect.about q)).filterMap f = es.filterMap f := by
  induction es with
  | nil => rfl
  | cons e es ih =>
      cases he : e.about q with
      | true => rw [List.filter_cons_of_pos he, List.filterMap_cons, List.filterMap_cons, ih]
      | false =>
          rw [List.filter_cons_of_neg (by simp [he]), List.filterMap_cons, hf e he, ih]

omit [DecidableEq T] in
theorem joins_of_about {q : Queue S L C} (e : Effect T S L C) (h : e.about q = false) :
    e.joins q = none := by
  cases e <;> simp_all [Effect.about, Effect.joins]

omit [DecidableEq T] in
theorem leaves_of_about {q : Queue S L C} (e : Effect T S L C) (h : e.about q = false) :
    e.leaves q = none := by
  cases e <;> simp_all [Effect.about, Effect.leaves]

/-- What a step does to a semaphore. -/
inductive SemaphoreChange (k : Kernel T S L C) (s : S) :
    Semaphore T → List (Effect T S L C) → Prop where
  | kept : SemaphoreChange k s (k.semaphores s) []
  | down : (k.semaphores s).value ≠ 0 →
      SemaphoreChange k s ⟨decrement (k.semaphores s).value, (k.semaphores s).queue⟩
        [.decremented k.currentThread s]
  | sleep : (k.semaphores s).value = 0 →
      SemaphoreChange k s ⟨(k.semaphores s).value, (k.semaphores s).queue ++ [k.currentThread]⟩
        [.appended k.currentThread (.semaphore s)]
  | up : (k.semaphores s).queue = [] →
      SemaphoreChange k s ⟨increment (k.semaphores s).value, []⟩ [.incremented s]
  | wake {waker : Option T} {t : T} {rest : List T} : (k.semaphores s).queue = t :: rest →
      SemaphoreChange k s ⟨increment (k.semaphores s).value, rest⟩
        [.removed waker t (.semaphore s), .incremented s]

/-- What a step does to a lock. -/
inductive LockChange (k k' : Kernel T S L C) (l : L) : List (Effect T S L C) → Prop where
  | kept : k'.locks l = k.locks l → LockChange k k' l []
  | refused : k.idle = false → k.pc k.currentThread = .outside →
      (k.locks l).lockerOwner ≠ some k.currentThread → k'.locks l = k.locks l →
      LockChange k k' l [.released k.currentThread l]
  | taken : k.idle = false → (k.locks l).lockerOwner = none →
      k'.locks l = (k.locks l).acquire k.currentThread → LockChange k k' l []
  | joined {u : T} : k.idle = false → (k.locks l).lockerOwner = some u → u ≠ k.currentThread →
      k'.locks l = (k.locks l).acquire k.currentThread →
      LockChange k k' l [.appended k.currentThread (.lock l)]
  | freed : k.idle = false → k.pc k.currentThread = .outside →
      (k.locks l).lockerOwner = some k.currentThread → (k.locks l).waitQueue = [] →
      k'.locks l = .create → LockChange k k' l [.released k.currentThread l]
  | handed {t : T} {rest : List T} : k.idle = false → k.pc k.currentThread = .outside →
      (k.locks l).lockerOwner = some k.currentThread → (k.locks l).waitQueue = t :: rest →
      k'.locks l = (k.locks l).release k.currentThread →
      LockChange k k' l [.released k.currentThread l, .removed k.currentThread t (.lock l)]

/-- What a step does to a condition; with all its effects if it does something. -/
inductive ConditionChange (k k' : Kernel T S L C) (c : C) (es : List (Effect T S L C)) :
    Prop where
  | kept : k'.conditions c = k.conditions c → es.filter (Effect.about (.condition c)) = [] →
      ConditionChange k k' c es
  | waited {l : L} : k.CanCall (.wait c (some l)) → k.Waitable c (some l) →
      k'.conditions c = (k.conditions c).append l k.currentThread →
      es = .called k.currentThread (.wait c (some l)) ::
        .appended k.currentThread (.condition c) :: (k.release l).2 →
      ConditionChange k k' c es
  | signalled {t : T} {rest : List T} : (k.conditions c).waitQueue = t :: rest →
      k'.conditions c = (k.conditions c).remove →
      k.CanCall (.signal c (k.conditions c).waitLock) →
      es = [.called k.currentThread (.signal c (k.conditions c).waitLock),
        .removed k.currentThread t (.condition c)] →
      ConditionChange k k' c es
  | looped {t : T} {rest : List T} : (k.conditions c).waitQueue = t :: rest →
      k'.conditions c = (k.conditions c).remove → k.idle = false →
      k.pc k.currentThread = .inBroadcast c (k.conditions c).waitLock →
      es = [.removed k.currentThread t (.condition c)] →
      ConditionChange k k' c es

/-- Where the current thread is after a step, and how it has come there. -/
inductive Goes (k k' : Kernel T S L C) (es : List (Effect T S L C)) : Pc T S L C → Prop where
  | stays {pc : Pc T S L C} : k.pc k.currentThread = pc → k.idle = true ∨ pc.Open →
      Goes k k' es pc
  | sleepP {s : S} : .called k.currentThread (.p s) ∈ es ∨ k.pc k.currentThread = .inP s →
      Goes k k' es (.inP s)
  | sleepAcquire {l : L} : es = [.called k.currentThread (.acquire l),
      .appended k.currentThread (.lock l)] → Goes k k' es (.inAcquire l)
  | sleepWait {c : C} {l : L} : es = .called k.currentThread (.wait c (some l)) ::
        .appended k.currentThread (.condition c) :: (k.release l).2 →
      Goes k k' es (.inWait c l)
  | sleepReacquire {c : C} {l : L} : k.pc k.currentThread = .inWait c l →
      es = [.appended k.currentThread (.lock l)] → Goes k k' es (.inReacquire c l)
  | acquired {l : L} : es = [.called k.currentThread (.acquire l)] →
      (k.acquire l).2 = true → k'.locks = (k.acquire l).1.locks →
      Goes k k' es (.leaving (.acquire l) true)
  | granted {l : L} : k.pc k.currentThread = .inAcquire l → k'.locks = k.locks → es = [] →
      Goes k k' es (.leaving (.acquire l) true)
  | reacquired {c : C} {l : L} : k.pc k.currentThread = .inWait c l → (k.acquire l).2 = true →
      k'.locks = (k.acquire l).1.locks → es = [.reacquired k.currentThread l] →
      Goes k k' es (.leaving (.wait c (some l)) true)
  | regranted {c : C} {l : L} : k.pc k.currentThread = .inReacquire c l → k'.locks = k.locks →
      es = [.reacquired k.currentThread l] → Goes k k' es (.leaving (.wait c (some l)) true)
  | refused {c : C} {l : Option L} : es = [.called k.currentThread (.wait c l)] →
      Goes k k' es (.leaving (.wait c l) false)
  | left {op : Op T S L C} {ok : Bool} : (∀ l, op ≠ .acquire l) → (∀ c l, op ≠ .wait c l) →
      .called k.currentThread op ∈ es ∨ (∃ s, op = .p s ∧ k.pc k.currentThread = .inP s) →
      Goes k k' es (.leaving op ok)
  | returned : (∃ op ok, k.pc k.currentThread = .leaving op ok ∨
      ∃ c l, k.pc k.currentThread = .inBroadcast c l) → Goes k k' es .outside
  | broadcast {c : C} {l : Option L} : es = [.called k.currentThread (.broadcast c l)] →
      Goes k k' es (.inBroadcast c l)
  | finished : .called k.currentThread .finish ∈ es → Goes k k' es .finished

namespace Kernel

variable (k : Kernel T S L C)

/-! ### Semaphores -/

omit [DecidableEq L] [DecidableEq C] in
/-- `P` puts the thread to sleep, or takes a unit. -/
theorem p_cases (s : S) :
    (∀ t, t ≠ k.currentThread → (k.p s).1.pc t = k.pc t) ∧
    ((k.semaphores s).value = 0 ∧ (k.p s).1.pc k.currentThread = .inP s ∧
        ((k.p s).1.semaphores s).value = (k.semaphores s).value ∨
      (k.semaphores s).value ≠ 0 ∧ (k.p s).1.pc k.currentThread = .leaving (.p s) true ∧
        ((k.p s).1.semaphores s).value = decrement (k.semaphores s).value) := by
  by_cases hzero : (k.semaphores s).value = 0
  · rw [p_zero k hzero, sleep_pc, sleep_semaphores, setSemaphore_self]
    exact ⟨fun t hne => Function.update_of_ne hne .., .inl ⟨hzero, Function.update_self .., rfl⟩⟩
  · rw [p_pos k hzero, leave_semaphores, setSemaphore_self]
    exact ⟨fun t hne => Function.update_of_ne hne .., .inr ⟨hzero, Function.update_self .., rfl⟩⟩

omit [DecidableEq L] [DecidableEq C] in
theorem p_semaphores_of_ne {s s' : S} (h : s' ≠ s) :
    (k.p s).1.semaphores s' = k.semaphores s' := by
  by_cases hzero : (k.semaphores s).value = 0
  · rw [p_zero k hzero, sleep_semaphores, setSemaphore_of_ne _ h]
  · rw [p_pos k hzero, leave_semaphores, setSemaphore_of_ne _ h]

/-- `P` has effects on its semaphore only. -/
theorem p_about {q : Queue S L C} {s : S}
    (h : q ≠ .semaphore s) : (k.p s).2.filter (Effect.about q) = [] := by
  simp only [p]
  split <;> simpa [Effect.about] using h.symm

theorem v_about {q : Queue S L C} {s : S} {waker : Option T} (h : q ≠ .semaphore s) :
    (k.v waker s).2.filter (Effect.about q) = [] := by
  simp only [v]
  split <;> simpa [Effect.about] using h.symm

theorem p_change (s s' : S) : SemaphoreChange k s' ((k.p s).1.semaphores s')
    ((k.p s).2.filter (Effect.about (.semaphore s'))) := by
  by_cases hs : s' = s
  · subst hs
    by_cases hzero : (k.semaphores s').value = 0
    · rw [p_zero k hzero]
      simpa [Effect.about] using SemaphoreChange.sleep hzero
    · rw [p_pos k hzero]
      simpa [Effect.about] using SemaphoreChange.down hzero
  · rw [p_semaphores_of_ne k hs, p_about k (by simpa using hs)]
    exact .kept

omit [DecidableEq L] [DecidableEq C] in
theorem v_semaphores_of_ne {s s' : S} (h : s' ≠ s) (waker : Option T) :
    (k.v waker s).1.semaphores s' = k.semaphores s' := by
  cases hq : (k.semaphores s).queue with
  | nil => rw [v_nil k hq, setSemaphore_of_ne _ h]
  | cons t rest => rw [v_cons k hq, readyToRun_semaphores, setSemaphore_of_ne _ h]

omit [DecidableEq L] [DecidableEq C] in
theorem v_value (waker : Option T) (s : S) :
    ((k.v waker s).1.semaphores s).value = increment (k.semaphores s).value := by
  cases hq : (k.semaphores s).queue with
  | nil => rw [v_nil k hq, setSemaphore_self]
  | cons t rest => rw [v_cons k hq, readyToRun_semaphores, setSemaphore_self]

theorem v_change (waker : Option T) (s s' : S) :
    SemaphoreChange k s' ((k.v waker s).1.semaphores s')
      ((k.v waker s).2.filter (Effect.about (.semaphore s'))) := by
  cases hq : (k.semaphores s).queue with
  | nil =>
      rw [v_nil k hq]
      by_cases hs : s' = s
      · subst hs
        simpa [Effect.about] using SemaphoreChange.up hq
      · rw [setSemaphore_of_ne _ hs]
        simpa [Effect.about, Ne.symm hs] using SemaphoreChange.kept
  | cons t rest =>
      rw [v_cons k hq]
      by_cases hs : s' = s
      · subst hs
        simpa [Effect.about] using SemaphoreChange.wake hq
      · rw [readyToRun_semaphores, setSemaphore_of_ne _ hs]
        simpa [Effect.about, Ne.symm hs] using SemaphoreChange.kept

/-- `Release` has effects on its lock only. -/
theorem release_about {q : Queue S L C} {l : L} (h : q ≠ .lock l) :
    (k.release l).2.filter (Effect.about q) = [] := by
  have hne : ∀ e ∈ (k.release l).2, e.about q = false := by
    intro e he
    simp only [release] at he
    split at he
    · split at he
      · rcases List.mem_cons.mp he with rfl | he
        · exact decide_eq_false h.symm
        · rw [List.mem_singleton.mp he]
          exact decide_eq_false h.symm
      · rw [List.mem_singleton.mp he]
        exact decide_eq_false h.symm
    · rw [List.mem_singleton.mp he]
      exact decide_eq_false h.symm
  exact List.filter_eq_nil_iff.mpr fun e he => by simp [hne e he]

/-! ### Locks -/

variable {k' : Kernel T S L C}

theorem acquire_change (hidle : k.idle = false) (l l' : L)
    (hlocks : k'.locks = (k.acquire l).1.locks) :
    LockChange k k' l' (List.filter (Effect.about (.lock l'))
      (if (k.acquire l).2 then [] else [.appended k.currentThread (.lock l)])) := by
  by_cases hl : l' = l
  · subst hl
    have hlock : k'.locks l' = (k.locks l').acquire k.currentThread := by
      rw [hlocks]
      exact setLock_self ..
    cases ho : (k.locks l').lockerOwner with
    | none =>
        rw [acquire_none k ho]
        exact .taken hidle ho hlock
    | some u =>
        by_cases hu : u = k.currentThread
        · subst hu
          rw [acquire_own k ho]
          rw [Lock.acquire_owned ho] at hlock
          exact .kept hlock
        · rw [acquire_other k ho hu]
          simpa [Effect.about] using LockChange.joined hidle ho hu hlock
  · have hlock : k'.locks l' = k.locks l' := by
      rw [hlocks]
      exact setLock_of_ne _ hl _
    have hnil : List.filter (Effect.about (.lock l')) (if (k.acquire l).2 then [] else
        [.appended k.currentThread (.lock l)] : List (Effect T S L C)) = [] := by
      split <;> simp [Effect.about, Ne.symm hl]
    rw [hnil]
    exact .kept hlock

theorem release_change (hidle : k.idle = false) (hpc : k.pc k.currentThread = .outside) (l l' : L)
    (hlocks : k'.locks = (k.release l).1.locks) :
    LockChange k k' l' ((k.release l).2.filter (Effect.about (.lock l'))) := by
  rw [(release_kept k l).2.2.2.2.2] at hlocks
  by_cases hl : l' = l
  · subst hl
    have hlock : k'.locks l' = (k.locks l').release k.currentThread := by
      rw [hlocks, Function.update_self]
    by_cases ho : (k.locks l').lockerOwner = some k.currentThread
    · cases hq : (k.locks l').waitQueue with
      | nil =>
          rw [release_nobody k ho hq]
          rw [Lock.release_free ho hq] at hlock
          simpa [Effect.about] using LockChange.freed hidle hpc ho hq hlock
      | cons t rest =>
          rw [release_somebody k ho hq]
          simpa [Effect.about] using LockChange.handed hidle hpc ho hq hlock
    · rw [release_other k ho]
      rw [Lock.release_other ho] at hlock
      simpa [Effect.about] using LockChange.refused hidle hpc ho hlock
  · rw [release_about k (by simpa using hl)]
    refine .kept ?_
    rw [hlocks, Function.update_of_ne hl]

/-! ### Conditions -/

/-- The effects of `Wait` are on its condition and its lock. -/
theorem wait_about {q : Queue S L C} {c : C} {conditionLock : Option L} (hc : q ≠ .condition c)
    (hl : ∀ l, conditionLock = some l → q ≠ .lock l) :
    (k.wait c conditionLock).2.filter (Effect.about q) = [] := by
  by_cases h : k.Waitable c conditionLock
  · cases conditionLock with
    | none => exact absurd rfl h.1
    | some l =>
        rw [wait_accepted k h, List.filter_cons_of_neg (by simpa [Effect.about] using hc.symm)]
        exact release_about k (hl l rfl)
  · rw [wait_refused k h]
    rfl

/-- The effects of `Signal` are on its condition. -/
theorem signal_about {q : Queue S L C} {c : C} {conditionLock : Option L}
    (hc : q ≠ .condition c) : (k.signal c conditionLock).2.1.filter (Effect.about q) = [] := by
  simp only [signal]
  split
  · rfl
  · split
    · rfl
    · simpa [Effect.about] using hc.symm

end Kernel

namespace Step

open Kernel

variable {k k' : Kernel T S L C} {es : List (Effect T S L C)}

/-- **What a step does to a semaphore.** -/
theorem semaphore (hs : Step k k' es) (s : S) :
    SemaphoreChange k s (k'.semaphores s) (es.filter (Effect.about (.semaphore s))) := by
  have hkept : ∀ {sem : S → Semaphore T} {es : List (Effect T S L C)}, sem = k.semaphores →
      es.filter (Effect.about (.semaphore s)) = [] →
      SemaphoreChange k s (sem s) (es.filter (Effect.about (.semaphore s))) := by
    rintro sem es rfl hnil
    rw [hnil]
    exact .kept
  cases hs with
  | @call op _ =>
      rw [List.filter_cons_of_neg (by simp [Effect.about])]
      cases op with
      | p s' => exact p_change k s' s
      | v s' => exact v_change k _ s' s
      | acquire l =>
          cases howned : (k.acquire l).2 with
          | true =>
              rw [call_acquire_owned howned]
              exact hkept rfl rfl
          | false =>
              rw [call_acquire_sleep howned]
              exact hkept (sleep_semaphores _ _) (by simp [Effect.about])
      | release l => exact hkept (release_kept k l).2.2.2.1 (release_about k nofun)
      | wait c l => exact hkept (wait_kept k c l) (wait_about k nofun nofun)
      | signal c l => exact hkept (signal_kept k c l).2.2.2.1 (signal_about k nofun)
      | broadcast c l | fork t => exact hkept rfl rfl
      | yield => exact hkept (yield_kept _).2.1 rfl
      | finish => exact hkept (sleep_semaphores _ _) rfl
  | resumeP _ _ => exact p_change k _ s
  | resumeAcquire _ _ => exact hkept rfl rfl
  | resumeWait _ _ _ => exact hkept rfl (by simp [Effect.about])
  | resumeWaitSleep _ _ _ => exact hkept (sleep_semaphores _ _) (by simp [Effect.about])
  | resumeReacquire _ _ | loopEnd _ _ _ | «return» _ _ => exact hkept rfl (by simp [Effect.about])
  | loopSignal _ _ _ => exact hkept (signal_kept k _ _).2.2.2.1 (signal_about k nofun)
  | preempt _ _ => exact hkept (yield_kept k).2.1 rfl
  | interrupt _ => exact v_change k none _ s
  | dispatch _ => exact hkept (dispatch_kept k).2.1 rfl

/-- **What a step does to a lock.** -/
theorem lock (hs : Step k k' es) (l : L) :
    LockChange k k' l (es.filter (Effect.about (.lock l))) := by
  have hkept : ∀ {k' : Kernel T S L C} {es : List (Effect T S L C)}, k'.locks = k.locks →
      es.filter (Effect.about (.lock l)) = [] →
      LockChange k k' l (es.filter (Effect.about (.lock l))) := by
    intro k' es hlocks hnil
    rw [hnil]
    exact .kept (congrFun hlocks l)
  cases hs with
  | @call op hcan =>
      obtain ⟨hidle, hpc, -⟩ := hcan
      rw [List.filter_cons_of_neg (by simp [Effect.about])]
      cases op with
      | p s => exact hkept (p_kept k s).1 (p_about k nofun)
      | v s => exact hkept (v_kept k s _).2.2.2.1 (v_about k nofun)
      | acquire l' =>
          cases howned : (k.acquire l').2 with
          | true =>
              have hchange : LockChange k ((k.acquire l').1.leave (.acquire l') true) l _ :=
                acquire_change k hidle l' l rfl
              rw [howned] at hchange
              rwa [call_acquire_owned howned]
          | false =>
              have hchange : LockChange k ((k.acquire l').1.sleep (.inAcquire l')) l _ :=
                acquire_change k hidle l' l (sleep_locks _ _)
              rw [howned] at hchange
              rwa [call_acquire_sleep howned]
      | release l' => exact release_change k hidle hpc l' l rfl
      | wait c conditionLock =>
          by_cases h : k.Waitable c conditionLock
          · cases conditionLock with
            | none => exact absurd rfl h.1
            | some l' =>
                have hlocks : (k.wait c (some l')).1.locks = (k.release l').1.locks := by
                  rw [wait_accepted k h, sleep_locks]
                  rfl
                have hchange := release_change k hidle hpc l' l hlocks
                simp only [Kernel.call]
                rw [wait_accepted k h] at hchange ⊢
                rwa [List.filter_cons_of_neg (by simp [Effect.about])]
          · simp only [Kernel.call]
            rw [wait_refused k h]
            exact hkept rfl rfl
      | signal c l' => exact hkept (signal_kept k c l').2.2.2.2 (signal_about k nofun)
      | broadcast c l' | fork t => exact hkept rfl rfl
      | yield => exact hkept (yield_kept _).2.2.1 rfl
      | finish => exact hkept (sleep_locks _ _) rfl
  | resumeP _ _ => exact hkept (p_kept k _).1 (p_about k nofun)
  | resumeAcquire _ _ => exact hkept rfl rfl
  | @resumeWait c l' hidle _ howned =>
      have hchange : LockChange k ((k.acquire l').1.leave (.wait c (some l')) true) l _ :=
        acquire_change k hidle l' l rfl
      rw [howned] at hchange
      simpa [Effect.about] using hchange
  | @resumeWaitSleep c l' hidle _ howned =>
      have hchange : LockChange k ((k.acquire l').1.sleep (.inReacquire c l')) l _ :=
        acquire_change k hidle l' l (sleep_locks _ _)
      rw [howned] at hchange
      exact hchange
  | resumeReacquire _ _ | loopEnd _ _ _ | «return» _ _ => exact hkept rfl (by simp [Effect.about])
  | loopSignal _ _ _ => exact hkept (signal_kept k _ _).2.2.2.2 (signal_about k nofun)
  | preempt _ _ => exact hkept (yield_kept k).2.2.1 rfl
  | interrupt _ => exact hkept (v_kept k _ none).2.2.2.1 (v_about k nofun)
  | dispatch _ => exact hkept (dispatch_kept k).2.2.1 rfl

/-- **What a step does to a condition.** -/
theorem condition (hs : Step k k' es) (c : C) : ConditionChange k k' c es := by
  cases hs with
  | @call op hcan =>
      have hcalled : ∀ {es : List (Effect T S L C)}, es.filter (Effect.about (.condition c)) = [] →
          (Effect.called k.currentThread op :: es).filter (Effect.about (.condition c)) = [] :=
        fun hnil => by rwa [List.filter_cons_of_neg (by simp [Effect.about])]
      cases op with
      | p s => exact .kept (congrFun (p_kept k s).2 c) (hcalled (p_about k nofun))
      | v s => exact .kept (congrFun (v_kept k s _).2.2.2.2 c) (hcalled (v_about k nofun))
      | acquire l =>
          cases howned : (k.acquire l).2 with
          | true =>
              rw [call_acquire_owned howned]
              exact .kept rfl (hcalled rfl)
          | false =>
              rw [call_acquire_sleep howned]
              exact .kept (congrFun (sleep_conditions _ _) c)
                (hcalled (by simp [Effect.about]))
      | release l =>
          exact .kept (congrFun (release_kept k l).2.2.2.2.1 c) (hcalled (release_about k nofun))
      | wait c' conditionLock =>
          by_cases h : k.Waitable c' conditionLock
          · cases conditionLock with
            | none => exact absurd rfl h.1
            | some l =>
                have hcall : k.call (.wait c' (some l)) = _ := wait_accepted k h
                rw [hcall]
                by_cases hc : c = c'
                · subst hc
                  refine .waited hcan h ?_ rfl
                  rw [sleep_conditions, setCondition_self]
                · refine .kept ?_ (hcalled ?_)
                  · rw [sleep_conditions, setCondition_of_ne _ hc,
                      (release_kept k l).2.2.2.2.1]
                  · rw [List.filter_cons_of_neg (by simpa [Effect.about] using Ne.symm hc)]
                    exact release_about k nofun
          · have hcall : k.call (.wait c' conditionLock) = _ := wait_refused k h
            rw [hcall]
            exact .kept rfl (hcalled rfl)
      | signal c' l =>
          cases hq : (k.conditions c').waitQueue with
          | nil =>
              simp only [Kernel.call, signal_nil k hq]
              exact .kept rfl (hcalled rfl)
          | cons t rest =>
              by_cases hl : l = (k.conditions c').waitLock
              · simp only [Kernel.call, signal_cons k hq hl]
                by_cases hc : c = c'
                · subst hc hl
                  exact .signalled hq (setCondition_self ..) hcan rfl
                · exact .kept (setCondition_of_ne _ hc _)
                    (hcalled (by simpa [Effect.about] using Ne.symm hc))
              · simp only [Kernel.call, signal_refused k hq hl]
                exact .kept rfl (hcalled rfl)
      | broadcast c' l | fork t => exact .kept rfl (hcalled rfl)
      | yield => exact .kept (congrFun (yield_kept _).2.2.2 c) (hcalled rfl)
      | finish => exact .kept (congrFun (sleep_conditions _ _) c) (hcalled rfl)
  | resumeP _ _ => exact .kept (congrFun (p_kept k _).2 c) (p_about k nofun)
  | resumeAcquire _ _ => exact .kept rfl rfl
  | resumeWaitSleep _ _ _ =>
      exact .kept (congrFun (sleep_conditions _ _) c) (by simp [Effect.about])
  | resumeWait _ _ _ | resumeReacquire _ _ | loopEnd _ _ _ | «return» _ _ =>
      exact .kept rfl (by simp [Effect.about])
  | @loopSignal c' l hidle hpc hne =>
      obtain ⟨t, rest, hq⟩ := List.exists_cons_of_ne_nil hne
      by_cases hl : l = (k.conditions c').waitLock
      · rw [signal_cons k hq hl]
        by_cases hc : c = c'
        · subst hc hl
          exact .looped hq (setCondition_self ..) hidle hpc rfl
        · exact .kept (setCondition_of_ne _ hc _) (by simpa [Effect.about] using Ne.symm hc)
      · rw [signal_refused k hq hl]
        exact .kept rfl rfl
  | preempt _ _ => exact .kept (congrFun (yield_kept k).2.2.2 c) rfl
  | interrupt _ => exact .kept (congrFun (v_kept k _ none).2.2.2.2 c) (v_about k nofun)
  | dispatch _ => exact .kept (congrFun (dispatch_kept k).2.2.2 c) rfl

theorem bound (hs : Step k k' es) {c : C} (h : (k.conditions c).Bound) :
    (k'.conditions c).Bound := by
  cases hs.condition c with
  | kept hcond _ => rwa [hcond]
  | waited _ _ hcond _ =>
      rw [hcond]
      exact Condition.bound_append ..
  | signalled _ hcond _ _ | looped _ hcond _ _ _ =>
      rw [hcond]
      exact h.remove

/-- **The place of a thread** changes when it goes on itself, or is forked. -/
theorem pc (hs : Step k k' es) {u : T} (hu : u ≠ k.currentThread ∨ k.idle = true) :
    k'.pc u = k.pc u ∨
      (.called k.currentThread (.fork u) ∈ es ∧ k.pc u = .unborn ∧ k'.pc u = .outside) := by
  have hother : ∀ {k' : Kernel T S L C} {pc : Pc T S L C}, k.idle = false →
      k'.pc = Function.update k.pc k.currentThread pc → k'.pc u = k.pc u := by
    intro k' pc hidle heq
    rw [heq, Function.update_of_ne]
    exact hu.resolve_right (by simp [hidle])
  have hp : ∀ s, k.idle = false → (k.p s).1.pc u = k.pc u := by
    intro s hidle
    by_cases hzero : (k.semaphores s).value = 0
    · rw [p_zero k hzero]
      exact hother hidle (sleep_pc _ _)
    · rw [p_pos k hzero]
      exact hother hidle rfl
  cases hs with
  | @call op hcan =>
      obtain ⟨hidle, -, hfork⟩ := hcan
      cases op with
      | p s => exact .inl (hp s hidle)
      | v s =>
          obtain ⟨hcur, -, hpc, -⟩ := v_kept k s (some k.currentThread)
          exact .inl (hother hidle (leave_pc_of k (.v s) true hcur hpc))
      | acquire l =>
          cases howned : (k.acquire l).2 with
          | true =>
              rw [call_acquire_owned howned]
              exact .inl (hother hidle rfl)
          | false =>
              rw [call_acquire_sleep howned]
              exact .inl (hother hidle (sleep_pc _ _))
      | release l =>
          obtain ⟨hcur, -, hpc, -⟩ := release_kept k l
          exact .inl (hother hidle (leave_pc_of k (.release l) true hcur hpc))
      | wait c conditionLock =>
          by_cases h : k.Waitable c conditionLock
          · cases conditionLock with
            | none => exact absurd rfl h.1
            | some l =>
                obtain ⟨hcur, -, hpc, -⟩ := release_kept k l
                have hcall : k.call (.wait c (some l)) = _ := wait_accepted k h
                rw [hcall]
                have hupdate : ∀ cond : Condition T L,
                    (((k.release l).1.setCondition c cond).sleep (.inWait c l)).pc =
                      Function.update k.pc k.currentThread (.inWait c l) := by
                  intro cond
                  rw [sleep_pc, ← hcur, ← hpc]
                  rfl
                exact .inl (hother hidle (hupdate _))
          · have hcall : k.call (.wait c conditionLock) = _ := wait_refused k h
            rw [hcall]
            exact .inl (hother hidle rfl)
      | signal c l =>
          obtain ⟨hcur, -, hpc, -⟩ := signal_kept k c l
          exact .inl (hother hidle (leave_pc_of k (.signal c l) (k.signal c l).2.2 hcur hpc))
      | broadcast c l => exact .inl (hother hidle rfl)
      | fork t =>
          have hne := hu.resolve_right (by simp [hidle])
          have heq : (k.call (.fork t)).1.pc u = Function.update k.pc t .outside u :=
            Function.update_of_ne hne ..
          rw [heq]
          by_cases ht : u = t
          · subst ht
            exact .inr ⟨List.mem_cons_self, hfork u rfl, Function.update_self ..⟩
          · exact .inl (Function.update_of_ne ht ..)
      | yield => exact .inl (hother hidle (yield_kept _).1)
      | finish => exact .inl (hother hidle (sleep_pc _ _))
  | resumeP hidle _ => exact .inl (hp _ hidle)
  | resumeAcquire hidle _ | resumeWait hidle _ _ | resumeReacquire hidle _ | loopEnd hidle _ _
  | «return» hidle _ => exact .inl (hother hidle rfl)
  | resumeWaitSleep hidle _ _ => exact .inl (hother hidle (sleep_pc _ _))
  | loopSignal _ _ _ => exact .inl (congrFun (signal_kept k _ _).2.2.1 u)
  | preempt _ _ => exact .inl (congrFun (yield_kept k).1 u)
  | interrupt _ => exact .inl (congrFun (v_kept k _ none).2.2.1 u)
  | dispatch _ => exact .inl (congrFun (dispatch_kept k).1 u)

/-- **The place of the current thread.** -/
theorem goes (hs : Step k k' es) : Goes k k' es (k'.pc k.currentThread) := by
  have hgoes : ∀ {k' : Kernel T S L C} {es : List (Effect T S L C)} {pc : Pc T S L C},
      Goes k k' es pc → k'.pc = Function.update k.pc k.currentThread pc →
      Goes k k' es (k'.pc k.currentThread) := by
    intro k' es pc h hpc
    rwa [hpc, Function.update_self]
  have hstays : ∀ {k' : Kernel T S L C} {es : List (Effect T S L C)},
      k.idle = true ∨ (k.pc k.currentThread).Open → k'.pc = k.pc →
      Goes k k' es (k'.pc k.currentThread) := by
    intro k' es hopen hpc
    rw [hpc]
    exact .stays rfl hopen
  have hp : ∀ {s} {es : List (Effect T S L C)},
      .called k.currentThread (.p s) ∈ es ∨ k.pc k.currentThread = .inP s →
      Goes k (k.p s).1 es ((k.p s).1.pc k.currentThread) := by
    intro s es hcan
    by_cases hzero : (k.semaphores s).value = 0
    · rw [p_zero k hzero]
      exact hgoes (.sleepP hcan) (sleep_pc _ _)
    · rw [p_pos k hzero]
      refine hgoes (.left (by simp) (by simp) ?_) rfl
      exact hcan.imp_right fun hpc => ⟨s, rfl, hpc⟩
  have hcalled : ∀ {op : Op T S L C} {es : List (Effect T S L C)},
      .called k.currentThread op ∈ Effect.called k.currentThread op :: es :=
    List.mem_cons_self
  cases hs with
  | @call op hcan =>
      cases op with
      | p s => exact hp (.inl hcalled)
      | v s =>
          obtain ⟨hcur, -, hpc, -⟩ := v_kept k s (some k.currentThread)
          exact hgoes (.left (by simp) (by simp) (.inl hcalled)) (leave_pc_of k (.v s) true hcur hpc)
      | acquire l =>
          cases howned : (k.acquire l).2 with
          | true =>
              rw [call_acquire_owned howned]
              exact hgoes (.acquired rfl howned rfl) rfl
          | false =>
              rw [call_acquire_sleep howned]
              exact hgoes (.sleepAcquire rfl) (sleep_pc _ _)
      | release l =>
          obtain ⟨hcur, -, hpc, -⟩ := release_kept k l
          exact hgoes (.left (by simp) (by simp) (.inl hcalled)) (leave_pc_of k (.release l) true hcur hpc)
      | wait c conditionLock =>
          by_cases h : k.Waitable c conditionLock
          · cases conditionLock with
            | none => exact absurd rfl h.1
            | some l =>
                obtain ⟨hcur, -, hpc, -⟩ := release_kept k l
                have hcall : k.call (.wait c (some l)) = _ := wait_accepted k h
                rw [hcall]
                refine hgoes (.sleepWait rfl) ?_
                rw [sleep_pc, ← hcur, ← hpc]
                rfl
          · have hcall : k.call (.wait c conditionLock) = _ := wait_refused k h
            rw [hcall]
            exact hgoes (.refused rfl) rfl
      | signal c l =>
          obtain ⟨hcur, -, hpc, -⟩ := signal_kept k c l
          exact hgoes (.left (by simp) (by simp) (.inl hcalled))
            (leave_pc_of k (.signal c l) (k.signal c l).2.2 hcur hpc)
      | broadcast c l => exact hgoes (.broadcast rfl) rfl
      | fork t =>
          have hpc : (k.call (.fork t)).1.pc k.currentThread = .leaving (.fork t) true :=
            Function.update_self ..
          rw [hpc]
          exact .left (by simp) (by simp) (.inl hcalled)
      | yield => exact hgoes (.left (by simp) (by simp) (.inl hcalled)) (yield_kept _).1
      | finish => exact hgoes (.finished List.mem_cons_self) (sleep_pc _ _)
  | resumeP _ hpc => exact hp (.inr hpc)
  | resumeAcquire _ hpc => exact hgoes (.granted hpc rfl rfl) rfl
  | resumeWait _ hpc howned => exact hgoes (.reacquired hpc howned rfl rfl) rfl
  | resumeWaitSleep _ hpc _ => exact hgoes (.sleepReacquire hpc rfl) (sleep_pc _ _)
  | resumeReacquire _ hpc => exact hgoes (.regranted hpc rfl rfl) rfl
  | loopEnd _ hpc _ => exact hgoes (.returned ⟨.yield, true, .inr ⟨_, _, hpc⟩⟩) rfl
  | loopSignal _ hpc _ =>
      refine hstays (.inr ?_) (signal_kept k _ _).2.2.1
      rw [hpc]
      trivial
  | «return» _ hpc => exact hgoes (.returned ⟨_, _, .inl hpc⟩) rfl
  | preempt _ hopen => exact hstays (.inr hopen) (yield_kept k).1
  | interrupt hopen => exact hstays hopen (v_kept k _ none).2.2.1
  | dispatch hidle => exact hstays (.inl hidle) (dispatch_kept k).1

/-- **First in, first out**: what joins a queue stands behind what was there, and what
leaves it stood in front. -/
theorem flow (hs : Step k k' es) {q : Queue S L C} (hq : q ≠ .readyList) :
    Flow (k.queue q) (es.filterMap (Effect.joins q)) (es.filterMap (Effect.leaves q))
      (k'.queue q) := by
  rw [← filterMap_about joins_of_about es, ← filterMap_about leaves_of_about es]
  cases q with
  | readyList => exact absurd rfl hq
  | semaphore s =>
      show Flow (k.semaphores s).queue _ _ (k'.semaphores s).queue
      have hchange := hs.semaphore s
      revert hchange
      generalize k'.semaphores s = sem
      generalize es.filter _ = es
      rintro (_ | _ | _ | hnil | hcons)
      · exact .refl _
      · exact .refl _
      · simp only [List.filterMap_cons, Effect.joins, Effect.leaves, if_true, List.filterMap_nil]
        exact .join _ _
      · rw [hnil]
        exact .refl _
      · rw [hcons]
        simp only [List.filterMap_cons, Effect.joins, Effect.leaves, if_true, List.filterMap_nil]
        exact .leave _ _
  | lock l =>
      show Flow (k.locks l).waitQueue _ _ (k'.locks l).waitQueue
      have hchange := hs.lock l
      revert hchange
      generalize es.filter _ = es
      rintro (hlock | ⟨-, -, -, hlock⟩ | ⟨-, hnone, hlock⟩ | ⟨-, howner, hne, hlock⟩ |
        ⟨-, -, -, hnil, hlock⟩ | ⟨-, -, howner, hcons, hlock⟩)
      · rw [hlock]
        exact .refl _
      · rw [hlock]
        exact .refl _
      · rw [hlock, (Lock.acquire_free hnone).2, (k.locks l).idle hnone]
        exact .refl _
      · rw [hlock, (Lock.acquire_busy howner hne).2]
        simp only [List.filterMap_cons, Effect.joins, Effect.leaves, if_true, List.filterMap_nil]
        exact .join _ _
      · rw [hlock, hnil]
        exact .refl _
      · rw [hlock, (Lock.release_next howner hcons).2, hcons]
        simp only [List.filterMap_cons, Effect.joins, Effect.leaves, if_true, List.filterMap_nil]
        exact .leave _ _
  | condition c =>
      show Flow (k.conditions c).waitQueue _ _ (k'.conditions c).waitQueue
      rcases hs.condition c with ⟨hcond, hnil⟩ | @⟨l, -, -, hcond, hes⟩ |
        ⟨hcons, hcond, -, hes⟩ | ⟨hcons, hcond, -, -, hes⟩ <;> rw [hcond]
      · rw [hnil]
        exact .refl _
      · rw [hes, List.filter_cons_of_neg (by simp [Effect.about]),
          List.filter_cons_of_pos (by simp [Effect.about]),
          release_about k (by simp : (Queue.condition c : Queue S L C) ≠ .lock l)]
        simp only [List.filterMap_cons, Effect.joins, Effect.leaves, if_true, List.filterMap_nil]
        exact .join _ _
      · rw [Condition.remove_waitQueue, hcons, hes]
        simp only [List.filter_cons, List.filter_nil, Effect.about, decide_true, if_true,
          Bool.false_eq_true, if_false, List.filterMap_cons, Effect.joins, Effect.leaves,
          List.filterMap_nil]
        exact .leave _ _
      · rw [Condition.remove_waitQueue, hcons, hes]
        simp only [List.filter_cons, List.filter_nil, Effect.about, decide_true, if_true,
          List.filterMap_cons, Effect.joins, Effect.leaves, List.filterMap_nil]
        exact .leave _ _

end Step

/-! ## Calls and returns -/

/-- Something that is done inside a call. -/
def Effect.inner : Effect T S L C → Bool
  | .called _ _ | .reacquired _ _ | .returned _ _ _ => false
  | .appended _ _ | .removed _ _ _ | .decremented _ _ | .incremented _ | .released _ _ => true

namespace Kernel

variable (k : Kernel T S L C)

omit [DecidableEq L] [DecidableEq C] in
theorem p_inner (s : S) : ∀ e ∈ (k.p s).2, e.inner = true := by
  simp only [p]
  split <;> simp [Effect.inner]

omit [DecidableEq L] [DecidableEq C] in
theorem v_inner (waker : Option T) (s : S) : ∀ e ∈ (k.v waker s).2, e.inner = true := by
  simp only [v]
  split <;> simp [Effect.inner]

omit [DecidableEq S] [DecidableEq C] in
theorem release_inner (l : L) : ∀ e ∈ (k.release l).2, e.inner = true := by
  simp only [release]
  split
  · split <;> simp [Effect.inner]
  · simp [Effect.inner]

omit [DecidableEq S] in
theorem signal_inner (c : C) (l : Option L) : ∀ e ∈ (k.signal c l).2.1, e.inner = true := by
  simp only [signal]
  split
  · simp
  · split <;> simp [Effect.inner]

theorem call_inner (op : Op T S L C) : ∀ e ∈ (k.call op).2, e.inner = true := by
  cases op with
  | p s => exact p_inner k s
  | v s => exact v_inner k _ s
  | acquire l =>
      cases howned : (k.acquire l).2 with
      | true =>
          rw [call_acquire_owned howned]
          simp
      | false =>
          rw [call_acquire_sleep howned]
          simp [Effect.inner]
  | release l => exact release_inner k l
  | wait c conditionLock =>
      by_cases h : k.Waitable c conditionLock
      · cases conditionLock with
        | none => exact absurd rfl h.1
        | some l =>
            have hcall : k.call (.wait c (some l)) = _ := wait_accepted k h
            rw [hcall]
            exact List.forall_mem_cons.mpr ⟨rfl, release_inner k l⟩
      · have hcall : k.call (.wait c conditionLock) = _ := wait_refused k h
        rw [hcall]
        simp
  | signal c l => exact signal_inner k c l
  | broadcast _ _ | fork _ | yield | finish => simp [Kernel.call]

end Kernel

namespace Step

open Kernel

variable {k k' : Kernel T S L C} {es : List (Effect T S L C)} {t : T} {op : Op T S L C}

/-- **A call** is the whole step. -/
theorem called (hs : Step k k' es) (he : .called t op ∈ es) :
    t = k.currentThread ∧ k.CanCall op ∧ k' = (k.call op).1 ∧
      es = .called k.currentThread op :: (k.call op).2 := by
  have hinner : ∀ {es : List (Effect T S L C)}, (∀ e ∈ es, e.inner = true) →
      .called t op ∉ es := fun hall hmem => nomatch hall _ hmem
  cases hs with
  | call hcan =>
      rcases List.mem_cons.mp he with heq | he
      · obtain ⟨rfl, rfl⟩ := Effect.called.inj heq
        exact ⟨rfl, hcan, rfl, rfl⟩
      · exact absurd he (hinner (call_inner k _))
  | resumeP _ _ => exact absurd he (hinner (p_inner k _))
  | loopSignal _ _ _ => exact absurd he (hinner (signal_inner k _ _))
  | interrupt _ => exact absurd he (hinner (v_inner k none _))
  | resumeAcquire _ _ | resumeWait _ _ _ | resumeWaitSleep _ _ _ | resumeReacquire _ _
  | loopEnd _ _ _ | «return» _ _ | preempt _ _ | dispatch _ => simp at he

theorem called_of_label (hs : step k (.call op) = some (k', es)) :
    k.CanCall op ∧ k' = (k.call op).1 ∧ .called k.currentThread op ∈ es := by
  simp only [Threads.step] at hs
  split at hs
  · rename_i hcan
    obtain ⟨rfl, rfl⟩ := Prod.mk.inj (Option.some.inj hs)
    exact ⟨hcan, rfl, List.mem_cons_self⟩
  · cases hs

/-- What is called is what the thread has chosen to call. -/
theorem label_of_called {label : Label T S L C} (hs : step k label = some (k', es))
    (he : .called t op ∈ es) : label = .call op := by
  have hother : ∀ {r : Kernel T S L C × List (Effect T S L C)}, .called t op ∉ r.2 →
      some r ≠ some (k', es) := by
    intro r hnot heq
    rw [Option.some.inj heq] at hnot
    exact hnot he
  have hinner : ∀ {es : List (Effect T S L C)}, (∀ e ∈ es, e.inner = true) →
      .called t op ∉ es := fun hall hmem => nomatch hall _ hmem
  cases label with
  | call op' =>
      simp only [Threads.step] at hs
      split at hs
      · rw [← (Prod.mk.inj (Option.some.inj hs)).2] at he
        rcases List.mem_cons.mp he with heq | he
        · rw [(Effect.called.inj heq).2]
        · exact absurd he (hinner (call_inner k op'))
      · cases hs
  | resume =>
      simp only [Threads.step] at hs
      split at hs
      · cases hs
      · unfold Kernel.resume at hs
        cases hpc : k.pc k.currentThread with
        | inP s =>
            simp only [hpc] at hs
            exact absurd hs (hother (hinner (p_inner k s)))
        | inAcquire l =>
            simp only [hpc] at hs
            exact absurd hs (hother (by simp))
        | inWait c l =>
            simp only [hpc] at hs
            split at hs <;> exact absurd hs (hother (by simp))
        | inReacquire c l =>
            simp only [hpc] at hs
            exact absurd hs (hother (by simp))
        | unborn | outside | leaving op ok | inBroadcast c l | finished =>
            simp only [hpc] at hs
            cases hs
  | loop =>
      cases hidle : k.idle with
      | true => simp [Threads.step, hidle] at hs
      | false =>
          cases hpc : k.pc k.currentThread with
          | inBroadcast c l =>
              simp only [Threads.step, hidle, hpc, Kernel.loop] at hs
              split at hs
              · exact absurd hs (hother (by simp))
              · exact absurd hs (hother (hinner (signal_inner k c l)))
          | _ => simp [Threads.step, hidle, hpc] at hs
  | «return» =>
      cases hidle : k.idle with
      | true => simp [Threads.step, hidle] at hs
      | false =>
          cases hpc : k.pc k.currentThread with
          | leaving op ok =>
              simp only [Threads.step, hidle, hpc] at hs
              exact absurd hs (hother (by simp))
          | _ => simp [Threads.step, hidle, hpc] at hs
  | preempt =>
      simp only [Threads.step] at hs
      split at hs
      · exact absurd hs (hother (by simp))
      · cases hs
  | interrupt s =>
      simp only [Threads.step] at hs
      split at hs
      · exact absurd hs (hother (hinner (v_inner k none s)))
      · cases hs
  | dispatch =>
      simp only [Threads.step] at hs
      split at hs
      · exact absurd hs (hother (by simp))
      · cases hs

/-- A call of something else leaves a semaphore as it is. -/
theorem call_semaphores {s : S} (hp : op ≠ .p s) (hv : op ≠ .v s) :
    (k.call op).1.semaphores s = k.semaphores s := by
  have hkept : ∀ {k' : Kernel T S L C}, k'.semaphores = k.semaphores →
      k'.semaphores s = k.semaphores s := fun heq => congrFun heq s
  cases op with
  | p s' => exact p_semaphores_of_ne k (by rintro rfl; exact hp rfl)
  | v s' =>
      have hne : s ≠ s' := by
        rintro rfl
        exact hv rfl
      exact v_semaphores_of_ne k hne _
  | acquire l =>
      cases howned : (k.acquire l).2 with
      | true =>
          rw [call_acquire_owned howned]
          rfl
      | false =>
          rw [call_acquire_sleep howned]
          exact hkept (sleep_semaphores _ _)
  | release l => exact hkept (release_kept k l).2.2.2.1
  | wait c l => exact hkept (wait_kept k c l)
  | signal c l => exact hkept (signal_kept k c l).2.2.2.1
  | broadcast c l | fork t => rfl
  | yield => exact hkept (yield_kept _).2.1
  | finish => exact hkept (sleep_semaphores _ _)

/-- What a step inside the kernel does to a semaphore: it is nothing but a `P` that tests the
value again. -/
theorem inside_semaphores {label : Label T S L C} (hs : step k label = some (k', es))
    (hcall : ∀ op, label ≠ .call op) (hinterrupt : ∀ s, label ≠ .interrupt s) (s : S) :
    k'.semaphores s = k.semaphores s ∨
      k.idle = false ∧ k.pc k.currentThread = .inP s ∧ k' = (k.p s).1 := by
  have hkept : ∀ {r : Kernel T S L C × List (Effect T S L C)}, some r = some (k', es) →
      r.1.semaphores = k.semaphores → k'.semaphores s = k.semaphores s := by
    intro r hr heq
    rw [← heq, Option.some.inj hr]
  cases label with
  | call op => exact absurd rfl (hcall op)
  | interrupt s => exact absurd rfl (hinterrupt s)
  | resume =>
      simp only [Threads.step] at hs
      split at hs
      · cases hs
      · rename_i hidle
        unfold Kernel.resume at hs
        cases hpc : k.pc k.currentThread with
        | inP s' =>
            simp only [hpc] at hs
            by_cases hne : s = s'
            · subst hne
              refine .inr ⟨Bool.eq_false_iff.mpr hidle, rfl, ?_⟩
              rw [Option.some.inj hs]
            · left
              rw [show k' = (k.p s').1 by rw [Option.some.inj hs]]
              exact p_semaphores_of_ne k hne
        | inAcquire l =>
            simp only [hpc] at hs
            exact .inl (hkept hs rfl)
        | inWait c l =>
            simp only [hpc] at hs
            split at hs
            · exact .inl (hkept hs rfl)
            · exact .inl (hkept hs (sleep_semaphores _ _))
        | inReacquire c l =>
            simp only [hpc] at hs
            exact .inl (hkept hs rfl)
        | unborn | outside | leaving op ok | inBroadcast c l | finished =>
            simp only [hpc] at hs
            cases hs
  | loop =>
      cases hidle : k.idle with
      | true => simp [Threads.step, hidle] at hs
      | false =>
          cases hpc : k.pc k.currentThread with
          | inBroadcast c l =>
              simp only [Threads.step, hidle, hpc, Kernel.loop] at hs
              split at hs
              · exact .inl (hkept hs rfl)
              · exact .inl (hkept hs (signal_kept k c l).2.2.2.1)
          | _ => simp [Threads.step, hidle, hpc] at hs
  | «return» =>
      cases hidle : k.idle with
      | true => simp [Threads.step, hidle] at hs
      | false =>
          cases hpc : k.pc k.currentThread with
          | leaving op ok =>
              simp only [Threads.step, hidle, hpc] at hs
              exact .inl (hkept hs rfl)
          | _ => simp [Threads.step, hidle, hpc] at hs
  | preempt =>
      simp only [Threads.step] at hs
      split at hs
      · exact .inl (hkept hs (yield_kept k).2.1)
      · cases hs
  | dispatch =>
      simp only [Threads.step] at hs
      split at hs
      · exact .inl (hkept hs (dispatch_kept k).2.1)
      · cases hs

/-- **A thread behind `Sleep`** that has the processor goes on there. -/
theorem resumed (hs : Step k k' es) (hidle : k.idle = false)
    (hq : (k.pc k.currentThread).queue ≠ none) : k.resume = some (k', es) := by
  have hopen : ¬ (k.pc k.currentThread).Open := fun hopen => hq hopen.queue
  cases hs with
  | call hcan => exact absurd (by rw [hcan.2.1]; trivial) hopen
  | resumeP _ hpc | resumeAcquire _ hpc | resumeReacquire _ hpc => simp only [Kernel.resume, hpc]
  | resumeWait _ hpc howned =>
      simp only [Kernel.resume, hpc]
      exact if_pos howned
  | resumeWaitSleep _ hpc howned =>
      simp only [Kernel.resume, hpc]
      exact if_neg (Bool.eq_false_iff.mp howned)
  | loopEnd _ hpc _ | loopSignal _ hpc _ | «return» _ hpc => exact absurd (by rw [hpc]; trivial) hopen
  | preempt _ hopen' => exact absurd hopen' hopen
  | interrupt hopen' => exact absurd (hopen'.resolve_left (by simp [hidle])) hopen
  | dispatch hidle' =>
      rw [hidle] at hidle'
      cases hidle'

/-- A thread in code of its own stays there until it calls. -/
theorem outside (hs : Step k k' es) (hpc : k.pc t = .outside) (hnot : ∀ op, .called t op ∉ es) :
    k'.pc t = .outside := by
  by_cases hcur : t ≠ k.currentThread ∨ k.idle = true
  · rcases hs.pc hcur with heq | ⟨-, -, hout⟩
    · rw [heq, hpc]
    · exact hout
  · push Not at hcur
    obtain ⟨rfl, -⟩ := hcur
    have hgoes := hs.goes
    revert hgoes
    generalize k'.pc k.currentThread = pc
    rintro (⟨hstay, -⟩ | hcall | hes | hes | ⟨hpc', -⟩ | ⟨hes, -⟩ | ⟨hpc', -⟩ | ⟨hpc', -⟩ |
      ⟨hpc', -⟩ | hes | ⟨-, -, hcall⟩ | - | hes | hcall)
    case stays => rw [← hstay, hpc]
    case returned => rfl
    case sleepP =>
      rcases hcall with hcall | hpc'
      · exact absurd hcall (hnot _)
      · rw [hpc] at hpc'
        cases hpc'
    case left =>
      rcases hcall with hcall | ⟨s, -, hpc'⟩
      · exact absurd hcall (hnot _)
      · rw [hpc] at hpc'
        cases hpc'
    case finished => exact absurd hcall (hnot _)
    case sleepReacquire | granted | reacquired | regranted =>
      rw [hpc] at hpc'
      cases hpc'
    all_goals
      rw [hes] at hnot
      exact absurd List.mem_cons_self (hnot _)

/-- A thread that is not asleep stays so until it calls. -/
theorem open_kept (hs : Step k k' es) (hopen : (k.pc t).Open) (hnot : ∀ op, .called t op ∉ es) :
    (k'.pc t).Open := by
  by_cases hcur : t ≠ k.currentThread ∨ k.idle = true
  · rcases hs.pc hcur with heq | ⟨-, hborn, -⟩
    · rwa [heq]
    · rw [hborn] at hopen
      exact hopen.elim
  · push Not at hcur
    obtain ⟨rfl, -⟩ := hcur
    have hgoes := hs.goes
    revert hgoes
    generalize k'.pc k.currentThread = pc
    rintro (⟨hstay, -⟩ | hcall | hes | hes | ⟨hpc', -⟩ | ⟨hes, -⟩ | ⟨hpc', -⟩ | ⟨hpc', -⟩ |
      ⟨hpc', -⟩ | hes | ⟨-, -, hcall⟩ | - | hes | hcall)
    case stays => rwa [← hstay]
    case sleepP =>
      rcases hcall with hcall | hpc'
      · exact absurd hcall (hnot _)
      · rw [hpc'] at hopen
        exact hopen.elim
    case finished => exact absurd hcall (hnot _)
    case sleepReacquire =>
      rw [hpc'] at hopen
      exact hopen.elim
    case sleepAcquire | sleepWait =>
      rw [hes] at hnot
      exact absurd List.mem_cons_self (hnot _)
    all_goals trivial

/-- Who sleeps in `P` has slept there before, or has just called it. -/
theorem of_inP {s : S} (hs : Step k k' es) (hpc : k'.pc t = .inP s) :
    k.pc t = .inP s ∨ .called t (.p s) ∈ es := by
  by_cases hcur : t ≠ k.currentThread ∨ k.idle = true
  · rcases hs.pc hcur with heq | ⟨-, -, hout⟩
    · exact .inl (heq.symm.trans hpc)
    · rw [hout] at hpc
      cases hpc
  · push Not at hcur
    obtain ⟨rfl, -⟩ := hcur
    have hgoes := hs.goes
    rw [hpc] at hgoes
    cases hgoes with
    | stays hstay _ => exact .inl hstay
    | sleepP hcall => exact hcall.symm

/-- `Release` is called by the thread, or by its `Wait`. -/
theorem released {l : L} (hs : Step k k' es) (he : .released t l ∈ es) :
    t = k.currentThread ∧ (.called t (.release l) ∈ es ∨
      ∃ c, .called t (.wait c (some l)) ∈ es ∧ k.Waitable c (some l)) := by
  have hrelease : ∀ {l'}, .released t l ∈ (k.release l').2 → t = k.currentThread ∧ l = l' := by
    intro l' hmem
    simp only [Kernel.release] at hmem
    split at hmem
    · split at hmem <;> simpa using hmem
    · simpa using hmem
  have hp : ∀ s, .released t l ∉ (k.p s).2 := by
    intro s hmem
    simp only [Kernel.p] at hmem
    split at hmem <;> simp at hmem
  have hv : ∀ w s, .released t l ∉ (k.v w s).2 := by
    intro w s hmem
    simp only [Kernel.v] at hmem
    split at hmem <;> simp at hmem
  have hsignal : ∀ c l', .released t l ∉ (k.signal c l').2.1 := by
    intro c l' hmem
    simp only [Kernel.signal] at hmem
    split at hmem
    · cases hmem
    · split at hmem <;> simp at hmem
  cases hs with
  | @call op hcan =>
      have he := (List.mem_cons.mp he).resolve_left (by simp)
      cases op with
      | p s => exact absurd he (hp s)
      | v s => exact absurd he (hv _ s)
      | acquire l' =>
          cases howned : (k.acquire l').2 with
          | true =>
              rw [call_acquire_owned howned] at he
              cases he
          | false =>
              rw [call_acquire_sleep howned] at he
              simp at he
      | release l' =>
          obtain ⟨rfl, rfl⟩ := hrelease he
          exact ⟨rfl, .inl List.mem_cons_self⟩
      | wait c passed =>
          by_cases h : k.Waitable c passed
          · cases passed with
            | none => exact absurd rfl h.1
            | some l' =>
                have hcall : k.call (.wait c (some l')) = _ := wait_accepted k h
                rw [hcall] at he
                obtain ⟨rfl, rfl⟩ := hrelease ((List.mem_cons.mp he).resolve_left (by simp))
                exact ⟨rfl, .inr ⟨c, List.mem_cons_self, h⟩⟩
          · have hcall : k.call (.wait c passed) = _ := wait_refused k h
            rw [hcall] at he
            cases he
      | signal c l' => exact absurd he (hsignal c l')
      | broadcast _ _ | fork _ | yield | finish => simp [Kernel.call] at he
  | resumeP _ _ => exact absurd he (hp _)
  | loopSignal _ _ _ => exact absurd he (hsignal _ _)
  | interrupt _ => exact absurd he (hv none _)
  | resumeAcquire _ _ | resumeWait _ _ _ | resumeWaitSleep _ _ _ | resumeReacquire _ _
  | loopEnd _ _ _ | «return» _ _ | preempt _ _ | dispatch _ => simp at he

/-- **A return**: from the last line of a call, or from the loop of `Broadcast`. -/
theorem returned {ok : Bool} (hs : Step k k' es) (he : .returned t op ok ∈ es) :
    t = k.currentThread ∧ k.idle = false ∧ k' = k.setPc k.currentThread .outside ∧
      es = [.returned t op ok] ∧ (k.pc k.currentThread = .leaving op ok ∨
        ∃ c l, op = .broadcast c l ∧ k.pc k.currentThread = .inBroadcast c l) := by
  have hinner : ∀ {es : List (Effect T S L C)}, (∀ e ∈ es, e.inner = true) →
      .returned t op ok ∉ es := fun hall hmem => nomatch hall _ hmem
  cases hs with
  | call hcan =>
      rcases List.mem_cons.mp he with heq | he
      · cases heq
      · exact absurd he (hinner (call_inner k _))
  | resumeP _ _ => exact absurd he (hinner (p_inner k _))
  | loopSignal _ _ _ => exact absurd he (hinner (signal_inner k _ _))
  | interrupt _ => exact absurd he (hinner (v_inner k none _))
  | loopEnd hidle hpc _ =>
      obtain ⟨rfl, rfl, rfl⟩ := Effect.returned.inj (List.mem_singleton.mp he)
      exact ⟨rfl, hidle, rfl, rfl, .inr ⟨_, _, rfl, hpc⟩⟩
  | «return» hidle hpc =>
      obtain ⟨rfl, rfl, rfl⟩ := Effect.returned.inj (List.mem_singleton.mp he)
      exact ⟨rfl, hidle, rfl, rfl, .inl hpc⟩
  | resumeAcquire _ _ | resumeWait _ _ _ | resumeWaitSleep _ _ _ | resumeReacquire _ _
  | preempt _ _ | dispatch _ => simp at he

/-- **`Wait` has the lock again.** -/
theorem reacquired {l : L} (hs : Step k k' es) (he : .reacquired t l ∈ es) :
    t = k.currentThread ∧ k.idle = false ∧ es = [.reacquired t l] ∧ ∃ c,
      (k.pc k.currentThread = .inWait c l ∧ (k.acquire l).2 = true ∧
          k' = (k.acquire l).1.leave (.wait c (some l)) true) ∨
        (k.pc k.currentThread = .inReacquire c l ∧ k' = k.leave (.wait c (some l)) true) := by
  have hinner : ∀ {es : List (Effect T S L C)}, (∀ e ∈ es, e.inner = true) →
      .reacquired t l ∉ es := fun hall hmem => nomatch hall _ hmem
  cases hs with
  | call hcan =>
      rcases List.mem_cons.mp he with heq | he
      · cases heq
      · exact absurd he (hinner (call_inner k _))
  | resumeP _ _ => exact absurd he (hinner (p_inner k _))
  | loopSignal _ _ _ => exact absurd he (hinner (signal_inner k _ _))
  | interrupt _ => exact absurd he (hinner (v_inner k none _))
  | resumeWait hidle hpc howned =>
      obtain ⟨rfl, rfl⟩ := Effect.reacquired.inj (List.mem_singleton.mp he)
      exact ⟨rfl, hidle, rfl, _, .inl ⟨hpc, howned, rfl⟩⟩
  | resumeReacquire hidle hpc =>
      obtain ⟨rfl, rfl⟩ := Effect.reacquired.inj (List.mem_singleton.mp he)
      exact ⟨rfl, hidle, rfl, _, .inr ⟨hpc, rfl⟩⟩
  | loopEnd _ _ _ | «return» _ _ | resumeAcquire _ _ | resumeWaitSleep _ _ _ | preempt _ _
  | dispatch _ => simp at he

end Step

/-- In every run a condition has a lock as long as somebody waits. -/
theorem bound_of_run {ok : List (List (Effect T S L C)) → Kernel T S L C → Label T S L C → Prop}
    {main : T} {initialValue : S → ℤ} {tr : List (List (Effect T S L C))} {k : Kernel T S L C}
    (hrun : Run step ok (boot main initialValue) tr k) (c : C) : (k.conditions c).Bound :=
  hrun.invariant (I := fun _ k => (k.conditions c).Bound) Condition.bound_create
    fun h _ hs => (Step.of_step hs).bound h

end Nachos.Threads
