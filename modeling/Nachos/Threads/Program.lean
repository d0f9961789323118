import Nachos.Threads.MutualExclusion

/-!
# Code between calls

Threads that run code: what a thread calls, and what it does to shared data between two
calls, depends on the point it has reached. Interrupts have handlers that may change the
data as well and then call `V`. The kernel below knows nothing of this, so the contracts of
locks, conditions and semaphores hold in every run.

A section between `Acquire` and `Release` is a set of points that is entered by calling
`Acquire` and left by calling `Release`. A thread in it that runs owns the lock.
-/

namespace Nachos.Threads

open Nachos.Lib Kernel

variable {T S L C P D X A I : Type*}

/-- What a thread does next. -/
inductive Action (T S L C P D X : Type*) where
  /-- It calls, and goes on at `next` when it has returned. -/
  | call (op : Op T S L C) (next : P)
  /-- It goes on to `next`, and leaves its events in the trace. -/
  | go (next : P) (data : D) (events : List X)

/-- The action of one kind of thread, among the points of all. -/
def Action.map {P' : Type*} (f : P → P') : Action T S L C P D X → Action T S L C P' D X
  | .call op next => .call op (f next)
  | .go next data events => .go (f next) data events

/-- The code of the threads, with a choice where they have one, and the handlers of
interrupts. -/
structure Program (T S L C P D X A I : Type*) where
  start : P
  act : T → P → D → A → Option (Action T S L C P D X)
  /-- The data afterwards, the events, and the semaphore the handler calls `V` on. -/
  handler : I → D → Option (D × List X × Option S)

structure System (T S L C P D : Type*) where
  kernel : Kernel T S L C
  /-- Where a thread is in its code. -/
  point : T → P
  data : D

inductive Event (T S L C X : Type*) where
  | kernel (e : Effect T S L C)
  | own (x : X)
deriving DecidableEq, Repr

def Event.kernel? : Event T S L C X → Option (Effect T S L C)
  | .kernel e => some e
  | .own _ => none

def Event.own? : Event T S L C X → Option X
  | .kernel _ => none
  | .own x => some x

inductive Move (T S L C A I : Type*) where
  /-- The current thread goes on in its code. -/
  | act (a : A)
  /-- It goes on in a call, or the processor changes hands. -/
  | kernel (label : Label T S L C)
  | interrupt (i : I)

/-- A step inside the kernel. -/
def Label.inside : Label T S L C → Bool
  | .call _ | .interrupt _ => false
  | .resume | .loop | .return | .preempt | .dispatch => true

/-- A call that is passed the lock. -/
def Op.usesLock [DecidableEq L] (lock : L) : Op T S L C → Bool
  | .acquire l | .release l => l = lock
  | .wait _ l | .signal _ l | .broadcast _ l => l = some lock
  | .p _ | .v _ | .fork _ | .yield | .finish => false

variable [DecidableEq T] [DecidableEq S] [DecidableEq L] [DecidableEq C]

namespace Program

def step (prog : Program T S L C P D X A I) (s : System T S L C P D) :
    Move T S L C A I → Option (System T S L C P D × List (Event T S L C X))
  | .act a =>
      let t := s.kernel.currentThread
      if s.kernel.idle = false ∧ s.kernel.pc t = .outside then
        match prog.act t (s.point t) s.data a with
        | some (.call op next) =>
            (Threads.step s.kernel (.call op)).map fun r =>
              (⟨r.1, Function.update s.point t next, s.data⟩, r.2.map .kernel)
        | some (.go next data events) =>
            some (⟨s.kernel, Function.update s.point t next, data⟩, events.map .own)
        | none => none
      else none
  | .kernel label =>
      if label.inside then
        (Threads.step s.kernel label).map fun r => (⟨r.1, s.point, s.data⟩, r.2.map .kernel)
      else none
  | .interrupt i =>
      match prog.handler i s.data with
      | some (data, events, some sem) =>
          (Threads.step s.kernel (.interrupt sem)).map fun r =>
            (⟨r.1, s.point, data⟩, events.map .own ++ r.2.map .kernel)
      | some (data, events, none) =>
          if s.kernel.idle = true ∨ (s.kernel.pc s.kernel.currentThread).Open then
            some (⟨s.kernel, s.point, data⟩, events.map .own)
          else none
      | none => none

def boot (prog : Program T S L C P D X A I) (main : T) (initialValue : S → ℤ) (data : D) :
    System T S L C P D :=
  ⟨Threads.boot main initialValue, fun _ => prog.start, data⟩

/-- The current thread goes on, or somebody else if it sleeps. -/
def onward (a : A) (s : System T S L C P D) : Move T S L C A I :=
  if s.kernel.idle then .kernel .dispatch
  else
    match s.kernel.pc s.kernel.currentThread with
    | .leaving _ _ => .kernel .return
    | .inBroadcast _ _ => .kernel .loop
    | .inP _ | .inAcquire _ | .inWait _ _ | .inReacquire _ _ => .kernel .resume
    | .unborn | .outside | .finished => .act a

/-- The steps. -/
inductive Steps (prog : Program T S L C P D X A I) (s : System T S L C P D) :
    Move T S L C A I → System T S L C P D → List (Event T S L C X) → Prop where
  | call {a : A} {op : Op T S L C} {next : P} {k' : Kernel T S L C} {es : List (Effect T S L C)} :
      prog.act s.kernel.currentThread (s.point s.kernel.currentThread) s.data a =
        some (.call op next) → Threads.step s.kernel (.call op) = some (k', es) →
      Steps prog s (.act a) ⟨k', Function.update s.point s.kernel.currentThread next, s.data⟩
        (es.map .kernel)
  | go {a : A} {next : P} {data : D} {events : List X} : s.kernel.idle = false →
      s.kernel.pc s.kernel.currentThread = .outside →
      prog.act s.kernel.currentThread (s.point s.kernel.currentThread) s.data a =
        some (.go next data events) →
      Steps prog s (.act a) ⟨s.kernel, Function.update s.point s.kernel.currentThread next, data⟩
        (events.map .own)
  | kernel {label : Label T S L C} {k' : Kernel T S L C} {es : List (Effect T S L C)} :
      label.inside = true → Threads.step s.kernel label = some (k', es) →
      Steps prog s (.kernel label) ⟨k', s.point, s.data⟩ (es.map .kernel)
  | interrupt {i : I} {data : D} {events : List X} {sem : S} {k' : Kernel T S L C}
      {es : List (Effect T S L C)} :
      prog.handler i s.data = some (data, events, some sem) →
      Threads.step s.kernel (.interrupt sem) = some (k', es) →
      Steps prog s (.interrupt i) ⟨k', s.point, data⟩ (events.map .own ++ es.map .kernel)
  | device {i : I} {data : D} {events : List X} :
      prog.handler i s.data = some (data, events, none) →
      Steps prog s (.interrupt i) ⟨s.kernel, s.point, data⟩ (events.map .own)

variable {prog : Program T S L C P D X A I} {s s' : System T S L C P D}
  {es : List (Event T S L C X)} {m : Move T S L C A I}

theorem Steps.of_step (hs : prog.step s m = some (s', es)) : Steps prog s m s' es := by
  cases m with
  | act a =>
      simp only [step] at hs
      split at hs
      · rename_i hcan
        cases hact : prog.act s.kernel.currentThread (s.point s.kernel.currentThread) s.data a with
        | none =>
            simp only [hact] at hs
            cases hs
        | some action =>
            cases action with
            | call op next =>
                simp only [hact] at hs
                obtain ⟨⟨k', effects⟩, hstep, heq⟩ := Option.map_eq_some_iff.mp hs
                obtain ⟨rfl, rfl⟩ := Prod.mk.inj heq
                exact .call hact hstep
            | go next data events =>
                simp only [hact] at hs
                obtain ⟨rfl, rfl⟩ := Prod.mk.inj (Option.some.inj hs)
                exact .go hcan.1 hcan.2 hact
      · cases hs
  | kernel label =>
      simp only [step] at hs
      split at hs
      · rename_i hinside
        obtain ⟨⟨k', effects⟩, hstep, heq⟩ := Option.map_eq_some_iff.mp hs
        obtain ⟨rfl, rfl⟩ := Prod.mk.inj heq
        exact .kernel hinside hstep
      · cases hs
  | interrupt i =>
      simp only [step] at hs
      cases hhandler : prog.handler i s.data with
      | none =>
          simp only [hhandler] at hs
          cases hs
      | some r =>
          obtain ⟨data, events, sem⟩ := r
          cases sem with
          | none =>
              simp only [hhandler] at hs
              split at hs
              · obtain ⟨rfl, rfl⟩ := Prod.mk.inj (Option.some.inj hs)
                exact .device hhandler
              · cases hs
          | some sem =>
              simp only [hhandler] at hs
              obtain ⟨⟨k', effects⟩, hstep, heq⟩ := Option.map_eq_some_iff.mp hs
              obtain ⟨rfl, rfl⟩ := Prod.mk.inj heq
              exact .interrupt hhandler hstep

theorem step_call {a : A} {op : Op T S L C} {next : P} {k' : Kernel T S L C}
    {es : List (Effect T S L C)}
    (hact : prog.act s.kernel.currentThread (s.point s.kernel.currentThread) s.data a =
      some (.call op next)) (hstep : Threads.step s.kernel (.call op) = some (k', es)) :
    prog.step s (.act a) = some (⟨k', Function.update s.point s.kernel.currentThread next, s.data⟩,
      es.map .kernel) := by
  obtain ⟨hcan, -⟩ := Step.called_of_label hstep
  simp only [step, if_pos (And.intro hcan.1 hcan.2.1), hact, hstep, Option.map_some]

theorem step_go {a : A} {next : P} {data : D} {events : List X} (hidle : s.kernel.idle = false)
    (hpc : s.kernel.pc s.kernel.currentThread = .outside)
    (hact : prog.act s.kernel.currentThread (s.point s.kernel.currentThread) s.data a =
      some (.go next data events)) :
    prog.step s (.act a) = some (⟨s.kernel, Function.update s.point s.kernel.currentThread next,
      data⟩, events.map .own) := by
  simp only [step, if_pos (And.intro hidle hpc), hact]

theorem step_kernel {label : Label T S L C} {k' : Kernel T S L C} {es : List (Effect T S L C)}
    (hinside : label.inside = true) (hstep : Threads.step s.kernel label = some (k', es)) :
    prog.step s (.kernel label) = some (⟨k', s.point, s.data⟩, es.map .kernel) := by
  simp only [step, if_pos hinside, hstep, Option.map_some]

theorem step_interrupt {i : I} {data : D} {events : List X} {sem : S} {k' : Kernel T S L C}
    {es : List (Effect T S L C)} (hhandler : prog.handler i s.data = some (data, events, some sem))
    (hstep : Threads.step s.kernel (.interrupt sem) = some (k', es)) :
    prog.step s (.interrupt i) =
      some (⟨k', s.point, data⟩, events.map .own ++ es.map .kernel) := by
  simp only [step, hhandler, hstep, Option.map_some]

/-- What the kernel has done. -/
def kernelLog (log : List (Event T S L C X)) : List (Effect T S L C) :=
  log.filterMap Event.kernel?

/-- What the code has done besides. -/
def ownLog (log : List (Event T S L C X)) : List X := log.filterMap Event.own?

omit [DecidableEq T] [DecidableEq S] [DecidableEq L] [DecidableEq C] in
@[simp] theorem kernelLog_map (es : List (Effect T S L C)) :
    kernelLog (es.map Event.kernel : List (Event T S L C X)) = es := by
  rw [kernelLog, List.filterMap_map]
  exact List.filterMap_some

omit [DecidableEq T] [DecidableEq S] [DecidableEq L] [DecidableEq C] in
@[simp] theorem kernelLog_own (events : List X) :
    kernelLog (events.map Event.own : List (Event T S L C X)) = [] := by
  rw [kernelLog, List.filterMap_map]
  exact List.filterMap_none events

omit [DecidableEq T] [DecidableEq S] [DecidableEq L] [DecidableEq C] in
@[simp] theorem ownLog_map (es : List (Effect T S L C)) :
    ownLog (es.map Event.kernel : List (Event T S L C X)) = [] := by
  rw [ownLog, List.filterMap_map]
  exact List.filterMap_none es

omit [DecidableEq T] [DecidableEq S] [DecidableEq L] [DecidableEq C] in
@[simp] theorem ownLog_own (events : List X) :
    ownLog (events.map Event.own : List (Event T S L C X)) = events := by
  rw [ownLog, List.filterMap_map]
  exact List.filterMap_some

omit [DecidableEq T] [DecidableEq S] [DecidableEq L] [DecidableEq C] in
@[simp] theorem ownLog_append (log es : List (Event T S L C X)) :
    ownLog (log ++ es) = ownLog log ++ ownLog es := List.filterMap_append

variable {ok : List (List (Event T S L C X)) → System T S L C P D → Move T S L C A I → Prop}
  {main : T} {initialValue : S → ℤ} {data : D} {tr : List (List (Event T S L C X))}

/-- A step of the code is a step of the kernel, or none. -/
theorem Steps.kernel_step (hs : Steps prog s m s' es) :
    (∃ label, Threads.step s.kernel label = some (s'.kernel, kernelLog es)) ∨
      s'.kernel = s.kernel ∧ kernelLog es = [] := by
  cases hs with
  | call _ hstep =>
      rw [kernelLog_map]
      exact .inl ⟨_, hstep⟩
  | kernel _ hstep =>
      rw [kernelLog_map]
      exact .inl ⟨_, hstep⟩
  | interrupt _ hstep =>
      have hlog : ∀ (es es' : List (Event T S L C X)), kernelLog (es ++ es') =
          kernelLog es ++ kernelLog es' := fun _ _ => List.filterMap_append
      rw [hlog, kernelLog_own, kernelLog_map, List.nil_append]
      exact .inl ⟨_, hstep⟩
  | go _ _ _ | device _ => exact .inr ⟨rfl, kernelLog_own _⟩

/-- **A run of the code is a run of the kernel.** -/
theorem kernel_run (hrun : Run prog.step ok (prog.boot main initialValue data) tr s) :
    ∃ tr', Run Threads.step anyStep (Threads.boot main initialValue) tr' s.kernel := by
  have hkernel : ∃ tr', Run Threads.step anyStep (Threads.boot main initialValue) tr' s.kernel ∧
      True := by
    refine hrun.simulate (J := fun _ _ => True) (f := System.kernel) (R := fun _ _ => True)
      (fun _ => trivial) trivial fun _ _ _ hs => ?_
    rcases (Steps.of_step hs).kernel_step with ⟨label, hstep⟩ | ⟨heq, -⟩
    · exact .inl ⟨label, _, trivial, hstep, trivial⟩
    · exact .inr ⟨heq, trivial⟩
  obtain ⟨tr', hrun', -⟩ := hkernel
  exact ⟨tr', hrun'⟩

/-! ### Alone

What a thread does while nobody takes the processor away. -/

section Alone

variable {l : L} {k k' : Kernel T S L C} {point : T → P} {data data' : D} {a : A} {held done next : P}

/-- From a call that does not put the thread to sleep to its return. -/
theorem run_call (hrun : Run prog.step anyStep s tr ⟨k, point, data⟩) {op : Op T S L C}
    {es : List (Effect T S L C)} (hcan : k.CanCall op) (hcall : k.call op = (k'.leave op true, es))
    (hidle : k'.idle = false) (hpc : k'.pc k'.currentThread = .outside)
    (hact : prog.act k.currentThread (point k.currentThread) data a = some (.call op next)) :
    ∃ tr', Run prog.step anyStep s tr' ⟨k', Function.update point k.currentThread next, data⟩ := by
  have hstep : Threads.step k (.call op) =
      some (k'.leave op true, .called k.currentThread op :: es) := by
    simp only [Threads.step, if_pos hcan, hcall]
  have hreturn : Threads.step (k'.leave op true) .return =
      some (k', [.returned k'.currentThread op true]) := by
    have hidle' : (k'.leave op true).idle = false := hidle
    have hleaving : (k'.leave op true).pc (k'.leave op true).currentThread = .leaving op true :=
      Function.update_self ..
    have hleft : (k'.leave op true).setPc k'.currentThread .outside = k' := by
      show { k' with pc := _ } = k'
      rw [leave_pc, Function.update_idem, ← hpc, Function.update_eq_self]
    simp only [Threads.step, hidle', hleaving]
    exact congrArg (fun k => some (k, _)) hleft
  exact ⟨_, .snoc (.snoc hrun trivial (step_call hact hstep)) trivial (step_kernel rfl hreturn)⟩

/-- Through a section of a lock that is free. -/
theorem run_section (hrun : Run prog.step anyStep s tr ⟨k, point, data⟩)
    (hidle : k.idle = false) (hpc : k.pc k.currentThread = .outside)
    (hnone : (k.locks l).lockerOwner = none) {events : List X}
    (hacquire : prog.act k.currentThread (point k.currentThread) data a =
      some (.call (.acquire l) held))
    (hgo : prog.act k.currentThread held data a = some (.go done data' events))
    (hrelease : prog.act k.currentThread done data' a = some (.call (.release l) next)) :
    ∃ tr', Run prog.step anyStep s tr' ⟨k, Function.update point k.currentThread next, data'⟩ := by
  obtain ⟨howner, hqueue⟩ := Lock.acquire_free (t := k.currentThread) hnone
  have hcall : k.call (.acquire l) =
      ((k.setLock l ((k.locks l).acquire k.currentThread)).leave (.acquire l) true, []) := by
    rw [call_acquire_owned (congrArg Prod.snd (acquire_none k hnone)), acquire_none k hnone]
  obtain ⟨tr₁, hrun⟩ := run_call hrun ⟨hidle, hpc, fun _ h => by cases h⟩ hcall hidle hpc hacquire
  have hrun := Run.snoc hrun trivial (step_go hidle hpc ((congrArg (fun p =>
    prog.act k.currentThread p data a) (Function.update_self ..)).trans hgo))
  have hcall : (k.setLock l ((k.locks l).acquire k.currentThread)).call (.release l) =
      (k.leave (.release l) true, [.released k.currentThread l]) := by
    have hback : (k.setLock l ((k.locks l).acquire k.currentThread)).setLock l .create = k := by
      rw [setLock, setLock, Function.update_idem, ← Lock.eq_create hnone, Function.update_eq_self]
    have hreleased := release_nobody (k.setLock l ((k.locks l).acquire k.currentThread))
      ((congrArg Lock.lockerOwner (setLock_self k l _)).trans howner)
      ((congrArg Lock.waitQueue (setLock_self k l _)).trans hqueue)
    simp only [Kernel.call, hreleased, hback]
    rfl
  obtain ⟨tr₂, hrun⟩ := run_call hrun ⟨hidle, hpc, fun _ h => by cases h⟩ hcall hidle hpc
    ((congrArg (fun p => prog.act k.currentThread p data' a) (Function.update_self ..)).trans hrelease)
  dsimp only [setLock] at hrun
  rw [Function.update_idem, Function.update_idem] at hrun
  exact ⟨tr₂, hrun⟩

end Alone

end Program

/-! ## Sections -/

/-- The thread owns the lock, or sleeps for it, or waits with it. -/
def Kernel.InLock (k : Kernel T S L C) (t : T) (l : L) : Prop :=
  (k.locks l).lockerOwner = some t ∨ k.pc t = .inAcquire l ∨
    ∃ c, k.pc t = .inWait c l ∨ k.pc t = .inReacquire c l

section InLock

variable {k k' : Kernel T S L C} {effects : List (Effect T S L C)} {t : T} {l : L}

omit [DecidableEq T] [DecidableEq S] [DecidableEq L] [DecidableEq C] in
theorem Kernel.InLock.owner (h : k.InLock t l) (hpc : (k.pc t).queue = none) :
    (k.locks l).lockerOwner = some t := by
  rcases h with h | h | ⟨c, h | h⟩
  · exact h
  all_goals
    rw [h] at hpc
    cases hpc

/-- Who calls `Acquire` owns the lock then, or sleeps for it. -/
theorem Step.inLock_of_acquire (hs : Step k k' effects)
    (hcalled : .called t (.acquire l) ∈ effects) : k'.InLock t l := by
  obtain ⟨rfl, -, rfl, -⟩ := hs.called hcalled
  cases howned : (k.acquire l).2 with
  | true =>
      rw [call_acquire_owned howned]
      exact .inl (acquire_lockerOwner howned)
  | false =>
      rw [call_acquire_sleep howned]
      right
      left
      rw [sleep_pc]
      exact Function.update_self ..

/-- Nobody gets out of the lock without `Release`. -/
theorem Kernel.InLock.step (h : k.InLock t l) (hplaced : Placed k) (hlocked : Locked k)
    (hs : Step k k' effects) (hnot : .called t (.release l) ∉ effects) : k'.InLock t l := by
  by_cases howner : (k.locks l).lockerOwner = some t
  · rcases hs.lockerOwner howner with howner' | ⟨-, -, -, hreleased⟩
    · exact .inl howner'
    · obtain ⟨rfl, hcalled | ⟨c, hcalled, hwaitable⟩⟩ := hs.released hreleased
      · exact absurd hcalled hnot
      · obtain ⟨-, -, rfl, -⟩ := hs.called hcalled
        have hcall : k.call (.wait c (some l)) = _ := wait_accepted k hwaitable
        obtain ⟨hcur, -⟩ := release_kept k l
        refine .inr (.inr ⟨c, .inl ?_⟩)
        rw [hcall, sleep_pc, show ((k.release l).1.setCondition c _).currentThread =
          k.currentThread from hcur, Function.update_self]
  · have hpc := h.resolve_left howner
    by_cases hcur : t ≠ k.currentThread ∨ k.idle = true
    · rcases hs.pc hcur with heq | ⟨-, hborn, -⟩
      · rw [← heq] at hpc
        exact .inr hpc
      · rw [hborn] at hpc
        simp at hpc
    · push Not at hcur
      obtain ⟨rfl, hidle⟩ := hcur
      have hidle := Bool.eq_false_iff.mpr hidle
      have hawake : k.currentThread ∉ k.queue (.lock l) :=
        hplaced.located.not_mem (hplaced.loc_current hidle)
      have hresume := hs.resumed hidle (by
        rcases hpc with hpc | ⟨c, hpc | hpc⟩ <;> rw [hpc] <;> nofun)
      rcases hpc with hpc | ⟨c, hpc | hpc⟩
      · exact absurd (hlocked.owns _ l (by rw [hpc]; rfl) hawake) howner
      · simp only [Kernel.resume, hpc] at hresume
        cases howned : (k.acquire l).2 with
        | true =>
            rw [if_pos howned] at hresume
            rw [← (Prod.mk.inj (Option.some.inj hresume)).1]
            exact .inl (acquire_lockerOwner howned)
        | false =>
            rw [if_neg (Bool.eq_false_iff.mp howned)] at hresume
            rw [← (Prod.mk.inj (Option.some.inj hresume)).1]
            refine .inr (.inr ⟨c, .inr ?_⟩)
            rw [sleep_pc]
            exact Function.update_self ..
      · exact absurd (hlocked.owns _ l (by rw [hpc]; rfl) hawake) howner

end InLock

namespace Program

variable {prog : Program T S L C P D X A I} {s s' : System T S L C P D}
  {es : List (Event T S L C X)} {m : Move T S L C A I} {l : L} {critical : P → Prop} {t u : T}

omit [DecidableEq S] [DecidableEq L] [DecidableEq C] in
/-- What holds at the points afterwards, where one thread has gone on. -/
theorem of_update {q : P → Prop} {point : T → P} {next : P} (h : q (Function.update point u next t)) :
    t = u ∧ q next ∨ t ≠ u ∧ q (point t) := by
  by_cases ht : t = u
  · subst ht
    rw [Function.update_self] at h
    exact .inl ⟨rfl, h⟩
  · rw [Function.update_of_ne ht] at h
    exact .inr ⟨ht, h⟩

/-- The points of a section are entered by `Acquire` of the lock and left by `Release`. -/
structure Guarded (prog : Program T S L C P D X A I) (l : L) (critical : P → Prop) : Prop where
  start : ¬ critical prog.start
  call : ∀ t p d a op next, prog.act t p d a = some (.call op next) → critical next →
    op = .acquire l ∨ critical p ∧ op ≠ .release l
  go : ∀ t p d a next d' events, prog.act t p d a = some (.go next d' events) →
    critical next → critical p

/-- **Who is in a section is in the lock.** -/
theorem Guarded.step (hguarded : prog.Guarded l critical)
    (h : ∀ t, critical (s.point t) → s.kernel.InLock t l) (hplaced : Placed s.kernel)
    (hlocked : Locked s.kernel) (hs : Steps prog s m s' es) :
    ∀ t, critical (s'.point t) → s'.kernel.InLock t l := by
  intro t ht
  cases hs with
  | @call a op next k' es hact hstep =>
      have hs := Step.of_step hstep
      rcases of_update (q := critical) ht with ⟨rfl, hnext⟩ | ⟨hcur, hold⟩
      · have hcalled := (Step.called_of_label hstep).2.2
        rcases hguarded.call _ _ _ _ _ _ hact hnext with rfl | ⟨hold, hne⟩
        · exact hs.inLock_of_acquire hcalled
        · refine (h _ hold).step hplaced hlocked hs fun hreleased => hne ?_
          exact (Label.call.inj (Step.label_of_called hstep hreleased))
      · refine (h t hold).step hplaced hlocked hs fun hreleased => hcur ?_
        exact (hs.called hreleased).1
  | @go a next data events _ _ hact =>
      rcases of_update (q := critical) ht with ⟨rfl, hnext⟩ | ⟨-, hold⟩
      · exact h _ (hguarded.go _ _ _ _ _ _ _ hact hnext)
      · exact h t hold
  | kernel hinside hstep =>
      refine (h t ht).step hplaced hlocked (.of_step hstep) fun hreleased => ?_
      rw [Step.label_of_called hstep hreleased] at hinside
      cases hinside
  | interrupt _ hstep =>
      refine (h t ht).step hplaced hlocked (.of_step hstep) fun hreleased => ?_
      cases Step.label_of_called hstep hreleased
  | device _ => exact h t ht

variable {ok : List (List (Event T S L C X)) → System T S L C P D → Move T S L C A I → Prop}
  {main : T} {initialValue : S → ℤ} {data : D} {tr : List (List (Event T S L C X))}

/-- **Mutual exclusion of sections**: a thread in the section that runs code owns the lock. -/
theorem Guarded.inLock (hguarded : prog.Guarded l critical)
    (hrun : Run prog.step ok (prog.boot main initialValue data) tr s) :
    ∀ t, critical (s.point t) → s.kernel.InLock t l := by
  refine hrun.invariant_with (I := fun _ s => ∀ t, critical (s.point t) → s.kernel.InLock t l)
    (fun hrun => (kernel_run hrun).elim fun _ h => And.intro (placed_of_run h) (locked_of_run h))
    ?_ ?_
  · intro t ht
    exact absurd ht hguarded.start
  · rintro tr s m s' es ⟨hplaced, hlocked⟩ h _ hs
    exact hguarded.step h hplaced hlocked (.of_step hs)

/-- Only one thread at a time is in the section and not asleep. -/
theorem Guarded.exclusive (hguarded : prog.Guarded l critical)
    (hrun : Run prog.step ok (prog.boot main initialValue data) tr s)
    (ht : critical (s.point t)) (hu : critical (s.point u))
    (hpct : (s.kernel.pc t).queue = none) (hpcu : (s.kernel.pc u).queue = none) : t = u := by
  have howner := (hguarded.inLock hrun t ht).owner hpct
  rw [(hguarded.inLock hrun u hu).owner hpcu] at howner
  exact (Option.some.inj howner).symm

end Program

end Nachos.Threads
