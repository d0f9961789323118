import Nachos.Threads.Program

/-!
# What a thread is in, from where it is in its code

Between two calls a thread is in none. In a call it is in the one that its code has made
last, so where it sleeps is known from its point. The locks that a thread holds can be read
off its point as well, if the code acquires and releases them in order: then the owner of a
lock is a thread whose point says so, and the other way round.

Interrupts are enabled in the last line of a call, and where a thread starts. Between two
calls nothing takes the processor away.
-/

namespace Nachos.Threads

open Nachos.Lib Kernel

variable {T S L C P D X A I : Type*}

/-- The call that a thread is in. -/
def Pc.op? : Pc T S L C → Option (Op T S L C)
  | .leaving op _ => some op
  | .inP s => some (.p s)
  | .inAcquire l => some (.acquire l)
  | .inWait c l | .inReacquire c l => some (.wait c (some l))
  | .inBroadcast c l => some (.broadcast c l)
  | .unborn | .outside | .finished => none

variable [DecidableEq T] [DecidableEq S] [DecidableEq L] [DecidableEq C]

section Kernel

variable {k k' : Kernel T S L C} {es : List (Effect T S L C)} {t : T} {l : L} {c : C}
  {op : Op T S L C}

/-- A thread comes into a call by calling. -/
theorem Step.call_op (hs : Step k k' es) (hop : (k'.pc t).op? = some op) :
    (k.pc t).op? = some op ∨ .called t op ∈ es := by
  by_cases hcur : t ≠ k.currentThread ∨ k.idle = true
  · rcases hs.pc hcur with heq | ⟨-, -, hout⟩
    · rw [heq] at hop
      exact .inl hop
    · rw [hout] at hop
      cases hop
  · push Not at hcur
    obtain ⟨rfl, -⟩ := hcur
    have hgoes := hs.goes
    generalize k'.pc k.currentThread = pc at hgoes hop
    cases hgoes with
    | stays hpc _ => exact .inl (by rw [hpc]; exact hop)
    | sleepP h =>
        obtain rfl := Option.some.inj hop
        exact h.symm.imp (fun hpc => by rw [hpc]; rfl) id
    | sleepAcquire hes | acquired hes _ _ | refused hes | sleepWait hes | broadcast hes =>
        obtain rfl := Option.some.inj hop
        exact .inr (by rw [hes]; exact List.mem_cons_self)
    | sleepReacquire hpc _ | reacquired hpc _ _ _ | regranted hpc _ _ | granted hpc _ _ =>
        obtain rfl := Option.some.inj hop
        exact .inl (by rw [hpc]; rfl)
    | left _ _ h =>
        obtain rfl := Option.some.inj hop
        rcases h with h | ⟨s, rfl, hpc⟩
        · exact .inr h
        · exact .inl (by rw [hpc]; rfl)
    | returned _ | finished _ => cases hop

/-- A lock that is free is taken by a call of `Acquire`, or behind a wait. -/
theorem Step.takes (hs : Step k k' es) (hnone : (k.locks l).lockerOwner = none)
    (howner : (k'.locks l).lockerOwner = some t) :
    t = k.currentThread ∧ (.called t (.acquire l) ∈ es ∨ ∃ c, k.pc t = .inWait c l) := by
  have hkept : ∀ {k₁ : Kernel T S L C}, k₁.locks = k.locks →
      ¬ (k₁.locks l).lockerOwner = some t := by
    intro k₁ heq h
    rw [heq, hnone] at h
    cases h
  have hrelease : ∀ {k₁ : Kernel T S L C} (l' : L), k₁.locks = (k.release l').1.locks →
      ¬ (k₁.locks l).lockerOwner = some t := by
    intro k₁ l' heq h
    rw [heq, (release_kept k l').2.2.2.2.2] at h
    by_cases hl : l = l'
    · subst hl
      rw [Function.update_self, Lock.release_other (by rw [hnone]; nofun), hnone] at h
      cases h
    · rw [Function.update_of_ne hl, hnone] at h
      cases h
  have hacquire : ∀ {k₁ : Kernel T S L C} (l' : L), k₁.locks = (k.acquire l').1.locks →
      (k₁.locks l).lockerOwner = some t → l' = l ∧ t = k.currentThread := by
    intro k₁ l' heq h
    by_cases hl : l = l'
    · subst hl
      rw [heq, acquire_none k hnone, setLock_self, (Lock.acquire_free hnone).1] at h
      exact ⟨rfl, (Option.some.inj h).symm⟩
    · rw [heq, show (k.acquire l').1 = k.setLock l' ((k.locks l').acquire k.currentThread) from rfl,
        setLock_of_ne k hl, hnone] at h
      cases h
  cases hs with
  | @call op _ =>
      cases op with
      | acquire l' =>
          have hlocks : (k.call (.acquire l')).1.locks = (k.acquire l').1.locks := by
            cases h : (k.acquire l').2 with
            | true => rw [call_acquire_owned h]; rfl
            | false => rw [call_acquire_sleep h, sleep_locks]
          obtain ⟨rfl, rfl⟩ := hacquire l' hlocks howner
          exact ⟨rfl, .inl List.mem_cons_self⟩
      | release l' => exact absurd howner (hrelease l' rfl)
      | wait c' l' =>
          by_cases hw : k.Waitable c' l'
          · cases l' with
            | none => exact absurd rfl hw.1
            | some l' =>
                refine absurd howner (hrelease l' ?_)
                show (k.wait c' (some l')).1.locks = _
                rw [wait_accepted k hw, sleep_locks]
                rfl
          · refine absurd howner (hkept ?_)
            show (k.wait c' l').1.locks = _
            rw [wait_refused k hw]
            rfl
      | p s => exact absurd howner (hkept (p_kept k s).1)
      | v s => exact absurd howner (hkept (v_kept k s _).2.2.2.1)
      | signal c' l' => exact absurd howner (hkept (signal_kept k c' l').2.2.2.2)
      | broadcast c' l' => exact absurd howner (hkept rfl)
      | fork u => exact absurd howner (hkept rfl)
      | yield => exact absurd howner (hkept (yield_kept _).2.2.1)
      | finish => exact absurd howner (hkept (sleep_locks ..))
  | resumeP _ _ => exact absurd howner (hkept (p_kept k _).1)
  | resumeAcquire _ _ | resumeReacquire _ _ | loopEnd _ _ _ | «return» _ _ =>
      exact absurd howner (hkept rfl)
  | @resumeWait c' l' _ hpc _ =>
      obtain ⟨rfl, rfl⟩ := hacquire l' rfl howner
      exact ⟨rfl, .inr ⟨c', hpc⟩⟩
  | @resumeWaitSleep c' l' _ hpc _ =>
      obtain ⟨rfl, rfl⟩ := hacquire l' (sleep_locks ..) howner
      exact ⟨rfl, .inr ⟨c', hpc⟩⟩
  | loopSignal _ _ _ => exact absurd howner (hkept (signal_kept k _ _).2.2.2.2)
  | preempt _ _ => exact absurd howner (hkept (yield_kept k).2.2.1)
  | interrupt _ => exact absurd howner (hkept (v_kept k _ _).2.2.2.1)
  | dispatch _ => exact absurd howner (hkept (dispatch_kept k).2.2.1)

/-- **Who owns a lock** has owned it, or calls `Acquire`, or is in a call that takes it. -/
theorem Step.owner (hs : Step k k' es) (hplaced : Placed k)
    (howner : (k'.locks l).lockerOwner = some t) :
    (k.locks l).lockerOwner = some t ∨ .called t (.acquire l) ∈ es ∨
      (k.pc t).op? = some (.acquire l) ∨ ∃ c, (k.pc t).op? = some (.wait c (some l)) := by
  have hchange := hs.lock l
  generalize es.filter _ = about at hchange
  cases hchange with
  | kept hlock | refused _ _ _ hlock =>
      rw [hlock] at howner
      exact .inl howner
  | taken _ hnone _ =>
      obtain ⟨-, hcalled | ⟨c, hpc⟩⟩ := hs.takes hnone howner
      · exact .inr (.inl hcalled)
      · exact .inr (.inr (.inr ⟨c, by rw [hpc]; rfl⟩))
  | joined _ hu hne hlock =>
      rw [hlock, (Lock.acquire_busy hu hne).1] at howner
      exact .inl (hu.trans howner)
  | freed _ _ _ _ hlock =>
      rw [hlock] at howner
      cases howner
  | @handed u rest _ _ hcur hq hlock =>
      rw [hlock, (Lock.release_next hcur hq).1] at howner
      obtain rfl := Option.some.inj howner
      have hmem : u ∈ k.queue (.lock l) := by
        show u ∈ (k.locks l).waitQueue
        rw [hq]
        exact List.mem_cons_self
      obtain ⟨-, hpc⟩ := hplaced.of_mem hmem nofun
      right
      right
      cases hpcu : k.pc u <;> rw [hpcu] at hpc <;> cases hpc
      · exact .inl rfl
      · exact .inr ⟨_, rfl⟩

/-- Who releases a lock does not own it then. -/
theorem Step.not_owner_of_release (hs : Step k k' es) (hplaced : Placed k)
    (hcalled : .called t (.release l) ∈ es) : (k'.locks l).lockerOwner ≠ some t := by
  obtain ⟨rfl, hcan, rfl, -⟩ := hs.called hcalled
  show ((k.release l).1.locks l).lockerOwner ≠ _
  rw [(release_kept k l).2.2.2.2.2, Function.update_self]
  by_cases howner : (k.locks l).lockerOwner = some k.currentThread
  · cases hq : (k.locks l).waitQueue with
    | nil =>
        rw [Lock.release_free howner hq]
        nofun
    | cons u rest =>
        rw [(Lock.release_next howner hq).1]
        intro heq
        obtain rfl := Option.some.inj heq
        have hout := hplaced.located.not_mem (q := .lock l) (hplaced.loc_current hcan.1)
        refine hout ?_
        show k.currentThread ∈ (k.locks l).waitQueue
        rw [hq]
        exact List.mem_cons_self
  · rwa [Lock.release_other howner]

/-- A free lock is taken at once. -/
theorem Step.acquire_of_free {l : L}
    (hs : Threads.step k (.call (.acquire l)) = some (k', effects))
    (hfree : (k.locks l).lockerOwner = none) :
    (k'.locks l).lockerOwner = some k.currentThread := by
  obtain ⟨-, -, hk', -⟩ := (Step.of_step hs).called (Step.called_of_label hs).2.2
  have howned : (k.acquire l).2 = true := by rw [acquire_none k hfree]
  rw [hk', call_acquire_owned howned]
  exact acquire_lockerOwner howned

/-- Who is in the queue of a condition was there before, or calls `Wait`. -/
theorem Step.mem_or_wait {c : C} (hs : Step k k' effects)
    (hmem : t ∈ (k'.conditions c).waitQueue) : t ∈ (k.conditions c).waitQueue ∨
      ∃ l, .called t (.wait c (some l)) ∈ effects := by
  rcases hs.condition c with ⟨hcond, -⟩ | @⟨l, -, -, hcond, hes⟩ | ⟨-, hcond, -, -⟩ |
    ⟨-, hcond, -, -, -⟩
  · exact .inl (hcond ▸ hmem)
  · rw [hcond] at hmem
    rcases List.mem_append.mp hmem with hmem | hmem
    · exact .inl hmem
    · rw [List.mem_singleton.mp hmem, hes]
      exact .inr ⟨l, List.mem_cons_self⟩
  all_goals
    rw [hcond, Condition.remove_waitQueue] at hmem
    exact .inl (List.mem_of_mem_tail hmem)

/-- Who is in the queue of a condition stays there, unless somebody calls `Signal` or is in the
loop of `Broadcast`. -/
theorem Step.mem_or_woken (hs : Step k k' effects)
    (hmem : t ∈ (k.conditions c).waitQueue) : t ∈ (k'.conditions c).waitQueue ∨
      (∃ l, .called k.currentThread (.signal c l) ∈ effects) ∨
        ∃ l, k.pc k.currentThread = .inBroadcast c l := by
  rcases hs.condition c with ⟨hcond, -⟩ | ⟨-, -, hcond, -⟩ | ⟨-, -, -, hes⟩ | ⟨-, -, -, hpc, -⟩
  · exact .inl (hcond ▸ hmem)
  · rw [hcond]
    exact .inl (List.mem_append_left _ hmem)
  · rw [hes]
    exact .inr (.inl ⟨_, List.mem_cons_self⟩)
  · exact .inr (.inr ⟨_, hpc⟩)

/-- Who waits with the right lock is the last in the queue. -/
theorem Step.wait_last {l : L}
    (hs : Threads.step k (.call (.wait c (some l))) = some (k', effects))
    (hlock : (k.conditions c).waitLock = none ∨ (k.conditions c).waitLock = some l) :
    (k'.conditions c).waitQueue = (k.conditions c).waitQueue ++ [k.currentThread] := by
  obtain ⟨-, -, hk', -⟩ := (Step.of_step hs).called (Step.called_of_label hs).2.2
  have hcall : k.call (.wait c (some l)) = _ := wait_accepted k ⟨nofun, hlock⟩
  rw [hk', hcall, sleep_conditions, setCondition_self]
  rfl

theorem Step.mem_of_wait {l : L}
    (hs : Threads.step k (.call (.wait c (some l))) = some (k', effects))
    (hlock : (k.conditions c).waitLock = none ∨ (k.conditions c).waitLock = some l) :
    k.currentThread ∈ (k'.conditions c).waitQueue := by
  rw [Step.wait_last hs hlock]
  exact List.mem_append_right _ (List.mem_singleton_self _)

/-- A call that is not about a condition leaves it alone. -/
theorem Step.condition_of_call {op : Op T S L C}
    (hs : Threads.step k (.call op) = some (k', effects))
    (hop : ∀ l, op ≠ .wait c l ∧ op ≠ .signal c l) : k'.conditions c = k.conditions c := by
  have hcalled : ∀ {op'}, .called k.currentThread op' ∈ effects → op = op' :=
    fun he => Label.call.inj (Step.label_of_called hs he)
  rcases (Step.of_step hs).condition c with ⟨hkept, -⟩ | ⟨-, -, -, hes⟩ | ⟨-, -, -, hes⟩ |
    ⟨-, -, -, -, hes⟩
  · exact hkept
  · exact absurd (hcalled (by rw [hes]; exact List.mem_cons_self)) (hop _).1
  · exact absurd (hcalled (by rw [hes]; exact List.mem_cons_self)) (hop _).2
  · have hmem := (Step.called_of_label hs).2.2
    rw [hes] at hmem
    simp at hmem

/-- So does a step inside the kernel, if nobody is in the loop of `Broadcast`. -/
theorem Step.condition_of_inside (hs : Step k k' effects) (hcalled : ∀ t op, .called t op ∉ effects)
    (hpc : ∀ l, k.pc k.currentThread ≠ .inBroadcast c l) : k'.conditions c = k.conditions c := by
  rcases hs.condition c with ⟨hkept, -⟩ | ⟨-, -, -, hes⟩ | ⟨-, -, -, hes⟩ | ⟨-, -, -, hloop, -⟩
  · exact hkept
  · exact absurd (by rw [hes]; exact List.mem_cons_self) (hcalled _ _)
  · exact absurd (by rw [hes]; exact List.mem_cons_self) (hcalled _ _)
  · exact absurd hloop (hpc _)

/-- `Signal` with the right lock wakes the first that waits. -/
theorem Step.signal_first {c : C} {l : Option L} {rest : List T}
    (hs : Threads.step k (.call (.signal c l)) = some (k', effects))
    (hq : (k.conditions c).waitQueue = t :: rest) (hlock : (k.conditions c).waitLock = l) :
    (k'.conditions c).waitQueue = rest ∧
      effects = [.called k.currentThread (.signal c l),
        .removed k.currentThread t (.condition c)] := by
  obtain ⟨-, -, hk', hes⟩ := (Step.of_step hs).called (Step.called_of_label hs).2.2
  have hcall : k.call (.signal c l) =
      (((k.setCondition c (k.conditions c).remove).readyToRun t).leave (.signal c l) true,
        [.removed k.currentThread t (.condition c)]) := by
    simp only [Kernel.call, signal_cons k hq hlock.symm]
  rw [hk', hes, hcall]
  refine ⟨?_, rfl⟩
  rw [leave_conditions, readyToRun_conditions, setCondition_self, Condition.remove_waitQueue, hq]
  rfl

end Kernel

namespace Program

variable {prog : Program T S L C P D X A I} {s s' : System T S L C P D}
  {es : List (Event T S L C X)} {m : Move T S L C A I} {t : T} {l : L} {c : C}
  {ok : List (List (Event T S L C X)) → System T S L C P D → Move T S L C A I → Prop}
  {main : T} {initialValue : S → ℤ} {data : D} {tr : List (List (Event T S L C X))}

/-- The timer takes the processor away where interrupts are enabled: in a call, and where a
thread starts. -/
def uninterrupted (prog : Program T S L C P D X A I) :
    List (List (Event T S L C X)) → System T S L C P D → Move T S L C A I → Prop
  | _, s, m => m = .kernel .preempt → s.kernel.pc s.kernel.currentThread = .outside →
      s.point s.kernel.currentThread = prog.start

/-- What the kernel is in a run of the code. -/
theorem placed_locked (hrun : Run prog.step ok (prog.boot main initialValue data) tr s) :
    Placed s.kernel ∧ Locked s.kernel :=
  (kernel_run hrun).elim fun _ h => ⟨placed_of_run h, locked_of_run h⟩

/-! ### The call a thread is in -/

/-- A thread in a call has made this call in its code. -/
def Asked (prog : Program T S L C P D X A I) (s : System T S L C P D) : Prop :=
  ∀ t op, (s.kernel.pc t).op? = some op →
    ∃ p d a, prog.act t p d a = some (.call op (s.point t))

/-- Only the current thread's point changes, and it is in no call then. -/
theorem Asked.step (h : Asked prog s) (hs : Steps prog s m s' es) : Asked prog s' := by
  intro t op hop
  cases hs with
  | @call a op' next k' es hact hstep =>
      obtain ⟨hcan, -, -⟩ := Step.called_of_label hstep
      rcases (Step.of_step hstep).call_op hop with hold | hcalled
      · have hne : t ≠ s.kernel.currentThread := by
          rintro rfl
          rw [hcan.2.1] at hold
          cases hold
        obtain ⟨p, d, a, hact⟩ := h t op hold
        refine ⟨p, d, a, ?_⟩
        rw [hact]
        exact congrArg (fun p => some (Action.call op p)) (Function.update_of_ne hne ..).symm
      · obtain rfl := ((Step.of_step hstep).called hcalled).1
        obtain rfl := Label.call.inj (Step.label_of_called hstep hcalled)
        refine ⟨s.point s.kernel.currentThread, s.data, a, ?_⟩
        show _ = some (Action.call op' (Function.update s.point s.kernel.currentThread next
          s.kernel.currentThread))
        rw [hact, Function.update_self]
  | @go a next data events _ hpc hact =>
      have hne : t ≠ s.kernel.currentThread := by
        rintro rfl
        have hop : (s.kernel.pc s.kernel.currentThread).op? = some op := hop
        rw [hpc] at hop
        cases hop
      obtain ⟨p, d, a, hact⟩ := h t op hop
      refine ⟨p, d, a, ?_⟩
      rw [hact]
      exact congrArg (fun p => some (Action.call op p)) (Function.update_of_ne hne ..).symm
  | kernel hinside hstep =>
      refine ((Step.of_step hstep).call_op hop).elim (h t op) fun hcalled => ?_
      rw [Step.label_of_called hstep hcalled] at hinside
      cases hinside
  | interrupt _ hstep =>
      refine ((Step.of_step hstep).call_op hop).elim (h t op) fun hcalled => ?_
      cases Step.label_of_called hstep hcalled
  | device _ => exact h t op hop

theorem asked_of_run (hrun : Run prog.step ok (prog.boot main initialValue data) tr s) :
    Asked prog s := by
  refine hrun.invariant (I := fun _ s => Asked prog s) ?_ fun h _ hs => h.step (.of_step hs)
  intro t op hop
  have hop : ((Threads.boot main initialValue : Kernel T S L C).pc t).op? = some op := hop
  by_cases ht : t = main <;> simp [Threads.boot, ht, Pc.op?] at hop

/-- Who sleeps in a condition has called `Wait`, and goes on behind it. -/
theorem Asked.waiting (h : Asked prog s) (hplaced : Placed s.kernel)
    (ht : t ∈ (s.kernel.conditions c).waitQueue) : ∃ l, s.kernel.pc t = .inWait c l ∧
      ∃ p d a, prog.act t p d a = some (.call (.wait c (some l)) (s.point t)) := by
  obtain ⟨-, hpc⟩ := hplaced.of_mem (q := .condition c) ht nofun
  cases hpct : s.kernel.pc t <;> rw [hpct] at hpc <;> cases hpc
  refine ⟨_, rfl, h t _ ?_⟩
  rw [hpct]
  rfl

/-! ### The locks of a thread -/

/-- The code acquires and releases locks so that its points tell which it holds. -/
structure Holding (prog : Program T S L C P D X A I) (held : T → P → List L) : Prop where
  start : ∀ t, held t prog.start = []
  call : ∀ {t p d a op next}, prog.act t p d a = some (.call op next) →
    ∀ l, l ∈ held t next ↔ op = .acquire l ∨ l ∈ held t p ∧ op ≠ .release l
  /-- A thread waits with a lock of its own. -/
  wait : ∀ {t p d a c l next}, prog.act t p d a = some (.call (.wait c l) next) →
    ∃ l', l = some l' ∧ l' ∈ held t p
  go : ∀ {t p d a next d' events}, prog.act t p d a = some (.go next d' events) →
    ∀ l, l ∈ held t next ↔ l ∈ held t p

/-- Points and owners agree. -/
structure Held (held : T → P → List L) (s : System T S L C P D) : Prop where
  inLock : ∀ t l, l ∈ held t (s.point t) → s.kernel.InLock t l
  of_owner : ∀ t l, (s.kernel.locks l).lockerOwner = some t → l ∈ held t (s.point t)

variable {held : T → P → List L}

omit [DecidableEq S] [DecidableEq L] [DecidableEq C] in
theorem mem_held_update {point : T → P} {u : T} {next : P} :
    l ∈ held t (Function.update point u next t) ↔
      t = u ∧ l ∈ held t next ∨ t ≠ u ∧ l ∈ held t (point t) := by
  by_cases ht : t = u
  · subst ht
    simp
  · simp [ht]

theorem Held.inLock_step (h : Held held s) (hholding : Holding prog held) (hplaced : Placed s.kernel)
    (hlocked : Locked s.kernel) (hs : Steps prog s m s' es) :
    ∀ t l, l ∈ held t (s'.point t) → s'.kernel.InLock t l := by
  intro t l hheld
  cases hs with
  | @call a op next k' es hact hstep =>
      have hcalled := (Step.called_of_label hstep).2.2
      rcases mem_held_update.mp hheld with ⟨rfl, hnext⟩ | ⟨hne, hold⟩
      · rcases (hholding.call hact l).mp hnext with rfl | ⟨hold, hop⟩
        · exact (Step.of_step hstep).inLock_of_acquire hcalled
        · refine (h.inLock _ l hold).step hplaced hlocked (.of_step hstep) fun hreleased => hop ?_
          exact Label.call.inj (Step.label_of_called hstep hreleased)
      · refine (h.inLock t l hold).step hplaced hlocked (.of_step hstep) fun hreleased => hne ?_
        exact ((Step.of_step hstep).called hreleased).1
  | @go a next data events _ _ hact =>
      rcases mem_held_update.mp hheld with ⟨rfl, hnext⟩ | ⟨-, hold⟩
      · exact h.inLock _ l ((hholding.go hact l).mp hnext)
      · exact h.inLock t l hold
  | kernel hinside hstep =>
      refine (h.inLock t l hheld).step hplaced hlocked (.of_step hstep) fun hreleased => ?_
      rw [Step.label_of_called hstep hreleased] at hinside
      cases hinside
  | interrupt _ hstep =>
      refine (h.inLock t l hheld).step hplaced hlocked (.of_step hstep) fun hreleased => ?_
      cases Step.label_of_called hstep hreleased
  | device _ => exact h.inLock t l hheld

omit [DecidableEq T] [DecidableEq S] [DecidableEq L] [DecidableEq C] in
/-- Who is in a call that takes a lock is at a point that has it. -/
theorem Holding.of_op (hholding : Holding prog held) (hasked : Asked prog s)
    (hop : (s.kernel.pc t).op? = some (.acquire l) ∨
      ∃ c, (s.kernel.pc t).op? = some (.wait c (some l))) : l ∈ held t (s.point t) := by
  rcases hop with hop | ⟨c, hop⟩
  · obtain ⟨p, d, a, hact⟩ := hasked t _ hop
    exact (hholding.call hact l).mpr (.inl rfl)
  · obtain ⟨p, d, a, hact⟩ := hasked t _ hop
    obtain ⟨l', heq, hold⟩ := hholding.wait hact
    obtain rfl := Option.some.inj heq
    exact (hholding.call hact l).mpr (.inr ⟨hold, nofun⟩)

theorem Held.owner_step (h : Held held s) (hholding : Holding prog held) (hasked : Asked prog s)
    (hplaced : Placed s.kernel) (hs : Steps prog s m s' es) :
    ∀ t l, (s'.kernel.locks l).lockerOwner = some t → l ∈ held t (s'.point t) := by
  intro t l howner
  have hold : ∀ {k' : Kernel T S L C} {effects : List (Effect T S L C)},
      Step s.kernel k' effects → (k'.locks l).lockerOwner = some t →
      l ∈ held t (s.point t) ∨ .called t (.acquire l) ∈ effects := by
    intro k' effects hs howner
    rcases hs.owner hplaced howner with howner | hcalled | hop
    · exact .inl (h.of_owner t l howner)
    · exact .inr hcalled
    · exact .inl (hholding.of_op hasked hop)
  cases hs with
  | @call a op next k' es hact hstep =>
      refine mem_held_update.mpr ?_
      by_cases hcur : t = s.kernel.currentThread
      · refine .inl ⟨hcur, ?_⟩
        subst hcur
        refine (hholding.call hact l).mpr ?_
        rcases hold (.of_step hstep) howner with hheld | hcalled
        · refine .inr ⟨hheld, ?_⟩
          rintro rfl
          have hcalled := (Step.called_of_label hstep).2.2
          exact (Step.of_step hstep).not_owner_of_release hplaced hcalled howner
        · exact .inl (Label.call.inj (Step.label_of_called hstep hcalled))
      · refine .inr ⟨hcur, (hold (.of_step hstep) howner).resolve_right fun hcalled => hcur ?_⟩
        exact ((Step.of_step hstep).called hcalled).1
  | @go a next data events _ _ hact =>
      refine mem_held_update.mpr ?_
      have hheld := h.of_owner t l howner
      by_cases hcur : t = s.kernel.currentThread
      · subst hcur
        exact .inl ⟨rfl, (hholding.go hact l).mpr hheld⟩
      · exact .inr ⟨hcur, hheld⟩
  | kernel hinside hstep =>
      refine (hold (.of_step hstep) howner).resolve_right fun hcalled => ?_
      rw [Step.label_of_called hstep hcalled] at hinside
      cases hinside
  | interrupt _ hstep =>
      refine (hold (.of_step hstep) howner).resolve_right fun hcalled => ?_
      cases Step.label_of_called hstep hcalled
  | device _ => exact h.of_owner t l howner

/-- **Points tell who owns a lock.** -/
theorem Holding.of_run (hholding : Holding prog held)
    (hrun : Run prog.step ok (prog.boot main initialValue data) tr s) : Held held s := by
  refine hrun.invariant_with (I := fun _ s => Held held s)
    (fun hrun => And.intro (asked_of_run hrun) (placed_locked hrun)) ⟨?_, ?_⟩ ?_
  · intro t l hheld
    have hheld : l ∈ held t prog.start := hheld
    rw [hholding.start] at hheld
    cases hheld
  · intro t l howner
    cases howner
  · rintro tr s m s' es ⟨hasked, hplaced, hlocked⟩ h _ hs
    exact ⟨h.inLock_step hholding hplaced hlocked (.of_step hs),
      h.owner_step hholding hasked hplaced (.of_step hs)⟩

omit [DecidableEq T] [DecidableEq S] [DecidableEq L] [DecidableEq C] in
/-- Two threads that hold a lock by their points are one, if neither is asleep. -/
theorem Held.exclusive (h : Held held s) {u : T} (ht : l ∈ held t (s.point t))
    (hu : l ∈ held u (s.point u)) (hpct : (s.kernel.pc t).queue = none)
    (hpcu : (s.kernel.pc u).queue = none) : t = u := by
  have howner := (h.inLock t l ht).owner hpct
  rw [(h.inLock u l hu).owner hpcu] at howner
  exact (Option.some.inj howner).symm

omit [DecidableEq T] [DecidableEq S] [DecidableEq L] [DecidableEq C] in
/-- Behind a call that does not take the lock, a thread at a point that holds it owns it. -/
theorem Held.owner (h : Held held s) (hasked : Asked prog s) (hheld : l ∈ held t (s.point t))
    (hcall : ∀ {p d a op}, prog.act t p d a = some (.call op (s.point t)) →
      op ≠ .acquire l ∧ ∀ c, op ≠ .wait c (some l)) :
    (s.kernel.locks l).lockerOwner = some t := by
  have hnot : ∀ {op}, (s.kernel.pc t).op? = some op →
      op ≠ .acquire l ∧ ∀ c, op ≠ .wait c (some l) := by
    intro op hop
    obtain ⟨p, d, a, hact⟩ := hasked t op hop
    exact hcall hact
  rcases h.inLock t l hheld with howner | hpc | ⟨c, hpc | hpc⟩
  · exact howner
  · exact absurd rfl (hnot (by rw [hpc]; rfl)).1
  all_goals exact absurd rfl ((hnot (by rw [hpc]; rfl)).2 c)

/-! ### Between two calls -/

/-- **Code between two calls is not interrupted**: a thread at a point that is reached without
a call has the processor. -/
theorem prompt_of_run {prompt : P → Prop} (hstart : ¬ prompt prog.start)
    (hcall : ∀ {t p d a op next}, prog.act t p d a = some (.call op next) → ¬ prompt next)
    (hrun : Run prog.step prog.uninterrupted (prog.boot main initialValue data) tr s) :
    ∀ t, prompt (s.point t) →
      t = s.kernel.currentThread ∧ s.kernel.idle = false ∧ s.kernel.pc t = .outside := by
  refine hrun.invariant (I := fun _ s => ∀ t, prompt (s.point t) →
    t = s.kernel.currentThread ∧ s.kernel.idle = false ∧ s.kernel.pc t = .outside)
    (fun t ht => absurd ht hstart) ?_
  intro tr s m s' es h hok hs t ht
  cases Steps.of_step hs with
  | @call a op next k' es hact hstep =>
      rcases of_update (q := prompt) ht with ⟨-, hnext⟩ | ⟨hne, hold⟩
      · exact absurd hnext (hcall hact)
      · exact absurd (h t hold).1 hne
  | @go a next data events hidle hpc hact =>
      rcases of_update (q := prompt) ht with ⟨rfl, -⟩ | ⟨hne, hold⟩
      · exact ⟨rfl, hidle, hpc⟩
      · exact absurd (h t hold).1 hne
  | @kernel label k' effects hinside hstep =>
      obtain ⟨rfl, hidle, hpc⟩ := h t ht
      exfalso
      cases label with
      | call op | interrupt sem => cases hinside
      | resume => simp [Threads.step, hidle, Kernel.resume, hpc] at hstep
      | loop | «return» => simp [Threads.step, hidle, hpc] at hstep
      | preempt =>
          rw [hok rfl hpc] at ht
          exact hstart ht
      | dispatch => simp [Threads.step, hidle] at hstep
  | @interrupt i d events sem k' effects _ hstep =>
      obtain ⟨rfl, hidle, hpc⟩ := h t ht
      simp only [Threads.step] at hstep
      split at hstep
      · obtain ⟨rfl, -⟩ := Prod.mk.inj (Option.some.inj hstep)
        obtain ⟨hcur, hidle', hpc', -⟩ := v_kept s.kernel sem none
        exact ⟨hcur.symm, hidle'.trans hidle, (congrFun hpc' _).trans hpc⟩
      · cases hstep
  | device _ => exact h t ht

/-! ### Conditions with a lock of their own -/

/-- Everybody waits for a condition with the same lock. -/
theorem waitLock_of_run {lockOf : C → L}
    (hwait : ∀ {t p d a c l next}, prog.act t p d a = some (.call (.wait c l) next) →
      l = some (lockOf c))
    (hrun : Run prog.step ok (prog.boot main initialValue data) tr s) (c : C) :
    (s.kernel.conditions c).waitLock = none ∨
      (s.kernel.conditions c).waitLock = some (lockOf c) := by
  refine hrun.invariant (I := fun _ s => (s.kernel.conditions c).waitLock = none ∨
    (s.kernel.conditions c).waitLock = some (lockOf c)) (.inl rfl) ?_
  intro tr s m s' es h _ hs
  have hremove : (s.kernel.conditions c).remove.waitLock = none ∨
      (s.kernel.conditions c).remove.waitLock = some (lockOf c) := by
    rw [(s.kernel.conditions c).remove_waitLock]
    split
    · exact .inl rfl
    · exact h
  have hstep : ∀ {k' : Kernel T S L C} {effects : List (Effect T S L C)},
      Step s.kernel k' effects →
      (∀ l, .called s.kernel.currentThread (.wait c (some l)) ∈ effects → l = lockOf c) →
      (k'.conditions c).waitLock = none ∨ (k'.conditions c).waitLock = some (lockOf c) := by
    intro k' effects hs hcalls
    cases hs.condition c with
    | kept heq _ => rwa [heq]
    | @waited l _ _ heq hes =>
        rw [heq]
        refine .inr (congrArg some (hcalls l ?_))
        rw [hes]
        exact List.mem_cons_self
    | signalled _ heq _ _ | looped _ heq _ _ _ => rwa [heq]
  cases Steps.of_step hs with
  | @call a op next k' es hact hcall =>
      refine hstep (.of_step hcall) fun l hcalled => ?_
      obtain rfl := Label.call.inj (Step.label_of_called hcall hcalled)
      exact Option.some.inj (hwait hact)
  | kernel hinside hcall =>
      refine hstep (.of_step hcall) fun l hcalled => ?_
      rw [Step.label_of_called hcall hcalled] at hinside
      cases hinside
  | interrupt _ hcall =>
      refine hstep (.of_step hcall) fun l hcalled => ?_
      cases Step.label_of_called hcall hcalled
  | go _ _ _ | device _ => exact h

end Program

end Nachos.Threads
