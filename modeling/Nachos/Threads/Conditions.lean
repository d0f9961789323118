import Nachos.Threads.MutualExclusion

/-!
# Conditions

`Wait` puts the thread into the queue, releases the lock and goes to sleep in one step, so
no `Signal` with this lock can come in between. All threads that wait do so with the same
lock, and who signals them owns it: a thread that is in the loop of `Broadcast` finds
nobody in the queue who has come after it called.
-/

namespace Nachos.Threads

open Nachos.Lib Kernel

variable {T S L C : Type*}

/-! ## Waiting, by what has happened -/

/-- The last call of the thread is a `Wait` that has put it into the queue, and this is what
has happened since. -/
def Enqueued (log : List (Effect T S L C)) (t : T) (c : C) (l : L)
    (after : List (Effect T S L C)) : Prop :=
  (∃ before, log = before ++ .called t (.wait c (some l)) :: .appended t (.condition c) :: after) ∧
    ∀ op, .called t op ∉ after

/-- The thread has been woken by a `Signal` or a `Broadcast` with this lock that has been
called since then, and by no earlier call of the thread that woke it. -/
def Chosen (after : List (Effect T S L C)) (t : T) (c : C) (l : L) : Prop :=
  ∃ a w choice b d, after = a ++ .called w choice :: (b ++ .removed (some w) t (.condition c) :: d) ∧
    (choice = .signal c (some l) ∨ choice = .broadcast c (some l)) ∧ ∀ op, .called w op ∉ b

/-- `w` is in a `Broadcast` that it has called since then. -/
def Broadcasts (after : List (Effect T S L C)) (w : T) (c : C) (l : L) : Prop :=
  ∃ a b, after = a ++ .called w (.broadcast c (some l)) :: b ∧ ∀ op, .called w op ∉ b

/-- The lock that is passed to a condition. -/
def Op.conditionLock : Op T S L C → Option (Option L)
  | .wait _ l | .signal _ l | .broadcast _ l => some l
  | _ => none

variable {log es after : List (Effect T S L C)} {t w : T} {c : C} {l : L}

theorem Chosen.append (h : Chosen after t c l) (es : List (Effect T S L C)) :
    Chosen (after ++ es) t c l := by
  obtain ⟨a, w, choice, b, d, rfl, hchoice, hb⟩ := h
  exact ⟨a, w, choice, b, d ++ es, by simp, hchoice, hb⟩

theorem Broadcasts.append (h : Broadcasts after w c l) (hes : ∀ op, .called w op ∉ es) :
    Broadcasts (after ++ es) w c l := by
  obtain ⟨a, b, rfl, hb⟩ := h
  refine ⟨a, b ++ es, by simp, fun op hop => ?_⟩
  rcases List.mem_append.mp hop with hop | hop
  · exact hb op hop
  · exact hes op hop

/-- Who is woken by a thread in `Broadcast` has been chosen. -/
theorem Broadcasts.chosen (h : Broadcasts after w c l) :
    Chosen (after ++ [.removed (some w) t (.condition c)]) t c l := by
  obtain ⟨a, b, rfl, hb⟩ := h
  exact ⟨a, w, _, b, [], by simp, .inr rfl, hb⟩

variable [DecidableEq T] [DecidableEq S] [DecidableEq L] [DecidableEq C]
  {k k' : Kernel T S L C}

/-- Who calls `Wait`, `Signal` or `Broadcast` owns the lock it passes. -/
def withLock : List (List (Effect T S L C)) → Kernel T S L C → Label T S L C → Prop
  | _, k, .call op => ∀ passed, op.conditionLock = some passed →
      ∃ l, passed = some l ∧ (k.locks l).lockerOwner = some k.currentThread
  | _, _, _ => True

instance (tr : List (List (Effect T S L C))) (k : Kernel T S L C) (label : Label T S L C) :
    Decidable (withLock tr k label) :=
  match label with
  | .call (.wait _ none) | .call (.signal _ none) | .call (.broadcast _ none) =>
      .isFalse fun h => by simpa using h none rfl
  | .call (.wait _ (some l)) | .call (.signal _ (some l)) | .call (.broadcast _ (some l)) =>
      decidable_of_iff ((k.locks l).lockerOwner = some k.currentThread) (by
        simp [withLock, Op.conditionLock])
  | .call (.p _) | .call (.v _) | .call (.acquire _) | .call (.release _) | .call (.fork _)
  | .call .yield | .call .finish => .isTrue nofun
  | .resume | .loop | .return | .preempt | .interrupt _ | .dispatch => .isTrue trivial

/-- The same of a step. -/
def WithLock (k : Kernel T S L C) (es : List (Effect T S L C)) : Prop :=
  ∀ t op passed, .called t op ∈ es → op.conditionLock = some passed →
    ∃ l, passed = some l ∧ (k.locks l).lockerOwner = some t

/-- What is true of waiting threads. -/
structure Waits (log : List (Effect T S L C)) (k : Kernel T S L C) : Prop where
  pc : ∀ t c l after, Enqueued log t c l after → k.pc t = .inWait c l ∨
    k.pc t = .inReacquire c l ∨ k.pc t = .leaving (.wait c (some l)) true ∨ k.pc t = .outside
  waiting : ∀ t c l after, Enqueued log t c l after → (∀ w, .removed w t (.condition c) ∉ after) →
    t ∈ (k.conditions c).waitQueue
  waitLock : ∀ t c l after, Enqueued log t c l after → t ∈ (k.conditions c).waitQueue →
    (k.conditions c).waitLock = some l
  chosen : ∀ t c l after, Enqueued log t c l after → t ∉ (k.conditions c).waitQueue →
    Chosen after t c l
  broadcasting : ∀ w c passed, k.pc w = .inBroadcast c passed → ∃ l, passed = some l ∧
    (k.locks l).lockerOwner = some w ∧ ∀ t after, Enqueued log t c l after →
      t ∈ (k.conditions c).waitQueue → Broadcasts after w c l

namespace Step

/-- A thread goes to sleep in the queue of a condition where it calls `Wait`. -/
theorem waited (hs : Step k k' es) (he : .appended t (.condition c) ∈ es) :
    ∃ l, t = k.currentThread ∧ k.CanCall (.wait c (some l)) ∧ k.Waitable c (some l) ∧
      k'.conditions c = (k.conditions c).append l t ∧
      es = .called t (.wait c (some l)) :: .appended t (.condition c) :: (k.release l).2 := by
  have hmem : .appended t (.condition c) ∈ es.filter (Effect.about (.condition c)) :=
    List.mem_filter.mpr ⟨he, by simp [Effect.about]⟩
  rcases hs.condition c with ⟨-, hnil⟩ | @⟨l, hcan, hwaitable, hcond, hes⟩ | ⟨-, -, -, hes⟩ |
    ⟨-, -, -, -, hes⟩
  · rw [hnil] at hmem
    cases hmem
  · rw [hes, List.filter_cons_of_neg (by simp [Effect.about]),
      List.filter_cons_of_pos (by simp [Effect.about]),
      release_about k (by simp : (Queue.condition c : Queue S L C) ≠ .lock l),
      List.mem_singleton] at hmem
    obtain ⟨rfl, -⟩ := Effect.appended.inj hmem
    exact ⟨l, rfl, hcan, hwaitable, hcond, hes⟩
  · rw [hes] at he
    simp at he
  · rw [hes] at he
    simp at he

/-- Who leaves the queue of a condition is chosen by a `Signal`, or in the loop of a
`Broadcast`. -/
theorem woken (hs : Step k k' es) (hmem : t ∈ (k.conditions c).waitQueue)
    (hnot : t ∉ (k'.conditions c).waitQueue) :
    es = [.called k.currentThread (.signal c (k.conditions c).waitLock),
        .removed k.currentThread t (.condition c)] ∨
      k.pc k.currentThread = .inBroadcast c (k.conditions c).waitLock ∧
        es = [.removed k.currentThread t (.condition c)] := by
  have hhead : ∀ {u : T} {rest : List T}, (k.conditions c).waitQueue = u :: rest →
      k'.conditions c = (k.conditions c).remove → u = t := by
    intro u rest hcons hcond
    rw [hcond, Condition.remove_waitQueue, hcons] at hnot
    rw [hcons] at hmem
    exact ((List.mem_cons.mp hmem).resolve_right hnot).symm
  rcases hs.condition c with ⟨hcond, -⟩ | ⟨-, -, hcond, -⟩ | ⟨hcons, hcond, -, hes⟩ |
    ⟨hcons, hcond, -, hpc, hes⟩
  · exact absurd (hcond ▸ hmem) hnot
  · rw [hcond] at hnot
    exact absurd (List.mem_append_left _ hmem) hnot
  · obtain rfl := hhead hcons hcond
    exact .inl hes
  · obtain rfl := hhead hcons hcond
    exact .inr ⟨hpc, hes⟩

/-- Nobody comes into the queue of a condition without a call. -/
theorem waiting_before (hs : Step k k' es) (hnot : ∀ op, .called t op ∉ es)
    (hmem : t ∈ (k'.conditions c).waitQueue) : t ∈ (k.conditions c).waitQueue := by
  have hremove : k'.conditions c = (k.conditions c).remove → t ∈ (k.conditions c).waitQueue := by
    intro hcond
    rw [hcond, Condition.remove_waitQueue] at hmem
    exact List.mem_of_mem_tail hmem
  rcases hs.condition c with ⟨hcond, -⟩ | ⟨-, -, hcond, hes⟩ | ⟨-, hcond, -, -⟩ |
    ⟨-, hcond, -, -, -⟩
  · rwa [hcond] at hmem
  · rw [hcond] at hmem
    rcases List.mem_append.mp hmem with hmem | hmem
    · exact hmem
    · rw [List.mem_singleton.mp hmem, hes] at hnot
      exact absurd List.mem_cons_self (hnot _)
  · exact hremove hcond
  · exact hremove hcond

/-- As long as somebody waits the lock stays the same. -/
theorem waitLock (hs : Step k k' es) (hbound : (k.conditions c).Bound)
    (hmem : t ∈ (k.conditions c).waitQueue) (hmem' : t ∈ (k'.conditions c).waitQueue) :
    (k'.conditions c).waitLock = (k.conditions c).waitLock := by
  have hremove : k'.conditions c = (k.conditions c).remove →
      (k'.conditions c).waitLock = (k.conditions c).waitLock := by
    intro hcond
    rw [hcond] at hmem' ⊢
    rw [Condition.remove_waitLock, if_neg (List.ne_nil_of_mem hmem')]
  rcases hs.condition c with ⟨hcond, -⟩ | ⟨-, hwaitable, hcond, -⟩ | ⟨-, hcond, -, -⟩ |
    ⟨-, hcond, -, -, -⟩
  · rw [hcond]
  · rw [hcond]
    refine (hwaitable.2.resolve_left fun hnone => ?_).symm
    rw [hbound.mp hnone] at hmem
    cases hmem
  · exact hremove hcond
  · exact hremove hcond

end Step

/-- A `Wait` of a longer run is one of before, or the last step. -/
theorem Enqueued.of_append (hs : Step k k' es) (h : Enqueued (log ++ es) t c l after) :
    (∃ since, Enqueued log t c l since ∧ after = since ++ es ∧ ∀ op, .called t op ∉ es) ∨
      t = k.currentThread ∧ k.CanCall (.wait c (some l)) ∧ k.Waitable c (some l) ∧
        k'.conditions c = (k.conditions c).append l t ∧
        es = .called t (.wait c (some l)) :: .appended t (.condition c) :: after := by
  obtain ⟨⟨before, hlog⟩, hnot⟩ := h
  rcases append_eq_append_cons hlog with ⟨since, hold, hafter⟩ | ⟨before', hes⟩
  · cases since with
    | nil =>
        obtain ⟨l', -, -, -, -, hes⟩ := hs.waited (t := t) (c := c) (by
          rw [← show _ = es from hafter]
          exact List.mem_cons_self)
        rw [hes] at hafter
        cases hafter
    | cons e since =>
        rw [List.cons_append] at hafter
        obtain ⟨rfl, rfl⟩ := List.cons.inj hafter
        simp only [List.mem_append, not_or] at hnot
        exact .inl ⟨since, ⟨⟨before, hold⟩, fun op => (hnot op).1⟩, rfl, fun op => (hnot op).2⟩
  · obtain ⟨l', rfl, hcan, hwaitable, hcond, hes'⟩ := hs.waited (t := t) (c := c) (by
      rw [hes]
      simp)
    have hmem : .called k.currentThread (.wait c (some l)) ∈ es := by
      rw [hes]
      simp
    obtain ⟨-, -, -, hcalled⟩ := hs.called hmem
    cases before' with
    | nil =>
        rw [hes] at hes'
        obtain ⟨hop, -⟩ := List.cons.inj hes'
        obtain ⟨-, hop⟩ := Effect.called.inj hop
        obtain ⟨-, hl⟩ := Op.wait.inj hop
        obtain rfl := Option.some.inj hl
        exact .inr ⟨rfl, hcan, hwaitable, hcond, hes⟩
    | cons e before' =>
        rw [hcalled] at hes
        obtain ⟨-, htail⟩ := List.cons.inj hes
        have hinner := call_inner k (.wait c (some l)) (.called k.currentThread (.wait c (some l)))
          (by rw [htail]; simp)
        cases hinner

/-! ## Steps -/

namespace Waits

variable (h : Waits log k) (hs : Step k k' es) (hwait : Enqueued (log ++ es) t c l after)

include h hs hwait

theorem pc_step : k'.pc t = .inWait c l ∨ k'.pc t = .inReacquire c l ∨
    k'.pc t = .leaving (.wait c (some l)) true ∨ k'.pc t = .outside := by
  rcases hwait.of_append hs with ⟨since, hold, -, hnot⟩ | ⟨rfl, -, hwaitable, -, hes⟩
  · have hpc := h.pc t c l since hold
    by_cases hcur : t ≠ k.currentThread ∨ k.idle = true
    · rcases hs.pc hcur with heq | ⟨-, -, hout⟩
      · rwa [heq]
      · exact .inr (.inr (.inr hout))
    · push Not at hcur
      obtain ⟨rfl, -⟩ := hcur
      have hgoes := hs.goes
      revert hgoes
      generalize k'.pc k.currentThread = pc
      rintro (⟨hstay, -⟩ | hcall | hes | hes | ⟨hpc', -⟩ | ⟨hes, -⟩ | ⟨hpc', -⟩ | ⟨hpc', -⟩ |
        ⟨hpc', -⟩ | hes | ⟨-, -, hcall⟩ | - | hes | hcall)
      case stays => rwa [← hstay]
      case granted =>
        rw [hpc'] at hpc
        simp at hpc
      case sleepReacquire | reacquired | regranted =>
        rw [hpc'] at hpc
        simpa using hpc
      case returned => exact .inr (.inr (.inr rfl))
      case sleepP =>
        rcases hcall with hcall | hpc'
        · exact absurd hcall (hnot _)
        · rw [hpc'] at hpc
          simp at hpc
      case left =>
        rcases hcall with hcall | ⟨s, -, hpc'⟩
        · exact absurd hcall (hnot _)
        · rw [hpc'] at hpc
          simp at hpc
      case finished => exact absurd hcall (hnot _)
      all_goals
        rw [hes] at hnot
        exact absurd List.mem_cons_self (hnot _)
  · left
    have hmem : .called k.currentThread (.wait c (some l)) ∈ es := by
      rw [hes]
      exact List.mem_cons_self
    obtain ⟨-, -, rfl, -⟩ := hs.called hmem
    have hcall : k.call (.wait c (some l)) = _ := wait_accepted k hwaitable
    obtain ⟨hcur, -⟩ := release_kept k l
    rw [hcall, sleep_pc, show ((k.release l).1.setCondition c _).currentThread = k.currentThread
      from hcur, Function.update_self]

theorem waiting_step (hnot : ∀ w, .removed w t (.condition c) ∉ after) :
    t ∈ (k'.conditions c).waitQueue := by
  rcases hwait.of_append hs with ⟨since, hold, rfl, -⟩ | ⟨rfl, -, -, hcond, -⟩
  · simp only [List.mem_append, not_or] at hnot
    have hmem := h.waiting t c l since hold fun w => (hnot w).1
    by_contra hgone
    rcases hs.woken hmem hgone with hes | ⟨-, hes⟩
    · exact (hnot (some k.currentThread)).2 (by rw [hes]; simp)
    · exact (hnot (some k.currentThread)).2 (by rw [hes]; simp)
  · rw [hcond]
    exact List.mem_append_right _ (List.mem_singleton_self _)

theorem waitLock_step (hbound : (k.conditions c).Bound)
    (hmem : t ∈ (k'.conditions c).waitQueue) : (k'.conditions c).waitLock = some l := by
  rcases hwait.of_append hs with ⟨since, hold, rfl, hnot⟩ | ⟨rfl, -, -, hcond, -⟩
  · have hwaited := hs.waiting_before hnot hmem
    rw [hs.waitLock hbound hwaited hmem]
    exact h.waitLock t c l since hold hwaited
  · rw [hcond]
    rfl

theorem chosen_step (hgone : t ∉ (k'.conditions c).waitQueue) : Chosen after t c l := by
  rcases hwait.of_append hs with ⟨since, hold, rfl, -⟩ | ⟨rfl, -, -, hcond, -⟩
  · by_cases hmem : t ∈ (k.conditions c).waitQueue
    · have hlock := h.waitLock t c l since hold hmem
      rcases hs.woken hmem hgone with hes | ⟨hpc, hes⟩
      · rw [hlock] at hes
        exact ⟨since, _, _, [], [], by rw [hes]; rfl, .inl rfl, nofun⟩
      · rw [hlock] at hpc
        obtain ⟨l', hl, -, hloop⟩ := h.broadcasting _ c _ hpc
        obtain rfl := Option.some.inj hl
        rw [hes]
        exact (hloop t since hold hmem).chosen
    · exact (h.chosen t c l since hold hmem).append es
  · rw [hcond] at hgone
    exact absurd (List.mem_append_right _ (List.mem_singleton_self _)) hgone

omit hwait

/-- A thread in `Broadcast` keeps its lock, so nobody else comes into the queue with it. -/
theorem broadcasting_step (hlock : WithLock k es) {passed : Option L}
    (hpc : k'.pc w = .inBroadcast c passed) : ∃ l, passed = some l ∧
      (k'.locks l).lockerOwner = some w ∧ ∀ t after, Enqueued (log ++ es) t c l after →
        t ∈ (k'.conditions c).waitQueue → Broadcasts after w c l := by
  have hstays : k.pc w = .inBroadcast c passed → ∃ l, passed = some l ∧
      (k'.locks l).lockerOwner = some w ∧ ∀ t after, Enqueued (log ++ es) t c l after →
        t ∈ (k'.conditions c).waitQueue → Broadcasts after w c l := by
    intro hold
    have houtside : k.pc w ≠ .outside := by
      rw [hold]
      nofun
    obtain ⟨l, rfl, howner, hall⟩ := h.broadcasting w c passed hold
    have hsilent : ∀ op, .called w op ∉ es := by
      intro op hcalled
      obtain ⟨rfl, hcan, -⟩ := hs.called hcalled
      exact houtside hcan.2.1
    refine ⟨l, rfl, (hs.lockerOwner howner).resolve_right fun hn => houtside hn.2.2.1, ?_⟩
    intro t after hwait hmem
    rcases hwait.of_append hs with ⟨since, hsince, rfl, hnot⟩ | ⟨rfl, hcan, -, -, hes⟩
    · exact (hall t since hsince (hs.waiting_before hnot hmem)).append hsilent
    · obtain ⟨l', hl, howner'⟩ := hlock k.currentThread (.wait c (some l)) (some l)
        (by rw [hes]; exact List.mem_cons_self) rfl
      obtain rfl := Option.some.inj hl
      rw [howner] at howner'
      rw [Option.some.inj howner'] at houtside
      exact absurd hcan.2.1 houtside
  by_cases hcur : w ≠ k.currentThread ∨ k.idle = true
  · rcases hs.pc hcur with heq | ⟨-, -, hout⟩
    · exact hstays (heq ▸ hpc)
    · rw [hout] at hpc
      cases hpc
  · push Not at hcur
    obtain ⟨rfl, -⟩ := hcur
    have hgoes := hs.goes
    rw [hpc] at hgoes
    cases hgoes with
    | stays hold _ => exact hstays hold
    | broadcast hes =>
        have hcalled : .called k.currentThread (.broadcast c passed) ∈ es := by
          rw [hes]
          exact List.mem_cons_self
        obtain ⟨l, rfl, howner⟩ := hlock _ _ _ hcalled rfl
        obtain ⟨-, -, rfl, -⟩ := hs.called hcalled
        refine ⟨l, rfl, howner, fun t after hwait _ => ?_⟩
        rcases hwait.of_append hs with ⟨since, -, rfl, -⟩ | ⟨-, -, -, -, hes'⟩
        · exact ⟨since, [], by rw [hes], nofun⟩
        · rw [hes] at hes'
          simp at hes'

omit hs

theorem step (hs : Step k k' es) (hbound : ∀ c, (k.conditions c).Bound) (hlock : WithLock k es) :
    Waits (log ++ es) k' where
  pc _ _ _ _ := h.pc_step hs
  waiting _ _ _ _ := h.waiting_step hs
  waitLock _ c _ _ hwait := h.waitLock_step hs hwait (hbound c)
  chosen _ _ _ _ := h.chosen_step hs
  broadcasting _ _ _ := h.broadcasting_step hs hlock

end Waits

/-! ## Runs -/

variable {main : T} {initialValue : S → ℤ} {tr : List (List (Effect T S L C))}

theorem withLock_step {label : Label T S L C} (hok : withLock tr k label)
    (hs : step k label = some (k', es)) : WithLock k es := by
  intro t op passed hcalled hpassed
  obtain ⟨rfl, -⟩ := (Step.of_step hs).called hcalled
  obtain rfl := Step.label_of_called hs hcalled
  exact hok passed hpassed

theorem waits_of_run (hrun : Run step withLock (boot main initialValue) tr k) :
    Waits tr.flatten k := by
  refine hrun.invariant_with (I := fun tr k => Waits tr.flatten k) bound_of_run ?_ ?_
  · have hnever : ∀ {t c l after}, ¬ Enqueued ([] : List (Effect T S L C)) t c l after := by
      rintro t c l after ⟨⟨before, hlog⟩, -⟩
      simp at hlog
    refine ⟨fun _ _ _ _ h => absurd h hnever, fun _ _ _ _ h => absurd h hnever,
      fun _ _ _ _ h => absurd h hnever, fun _ _ _ _ h => absurd h hnever, ?_⟩
    intro w c passed hpc
    by_cases hw : w = main <;> simp [boot, hw] at hpc
  · intro tr k label k' es hbound h hok hs
    rw [List.flatten_append, List.flatten_singleton]
    exact h.step (.of_step hs) hbound (withLock_step hok hs)

/-- Who returns from a `Wait` that has put it into the queue has been chosen and owns the lock
again. -/
theorem Waits.returned (h : Waits log k) (hplaced : Placed k) (hlocked : Locked k)
    (hs : Step k k' es) {ok : Bool} {passed : Option L} (hret : .returned t (.wait c passed) ok ∈ es)
    (hwait : Enqueued log t c l after) :
    passed = some l ∧ ok = true ∧ Chosen after t c l ∧ (k'.locks l).lockerOwner = some t := by
  obtain ⟨rfl, hidle, rfl, -, hpc | ⟨c', l', hop, -⟩⟩ := hs.returned hret
  · have hpc' := h.pc _ c l after hwait
    rw [hpc] at hpc'
    have hleaving : passed = some l ∧ ok = true := by simpa using hpc'
    obtain ⟨rfl, rfl⟩ := hleaving
    have hout : ∀ q, k.currentThread ∉ k.queue q :=
      fun q => hplaced.located.not_mem (hplaced.loc_current hidle)
    refine ⟨rfl, rfl, h.chosen _ c l after hwait (hout (.condition c)), ?_⟩
    exact hlocked.owns _ l (by rw [hpc]; rfl) (hout (.lock l))
  · cases hop

/-- **The contract of conditions.** In every run in which who calls `Wait`, `Signal` or
`Broadcast` owns the lock it passes: who returns from a `Wait` that has put it into the queue
has been chosen by a `Signal` or a `Broadcast` called since then, and owns the lock; until it
is chosen it is in the queue, and its lock is `waitLock`; a `Signal` with this lock wakes the
thread that has waited longest and nobody else, and one that finds nobody does nothing; and
who passes another lock while somebody waits changes nothing. -/
theorem condition_contract (hrun : Run step withLock (boot main initialValue) tr k) (c : C) :
    (∀ label k' es t l after passed ok, step k label = some (k', es) →
      .returned t (.wait c passed) ok ∈ es → Enqueued tr.flatten t c l after →
      passed = some l ∧ ok = true ∧ Chosen after t c l ∧
        (k'.locks l).lockerOwner = some t) ∧
    (∀ t l after, Enqueued tr.flatten t c l after →
      (∀ w, .removed w t (.condition c) ∉ after) →
      t ∈ (k.conditions c).waitQueue ∧ (k.conditions c).waitLock = some l) ∧
    joined (.condition c) tr.flatten =
      left (.condition c) tr.flatten ++ (k.conditions c).waitQueue ∧
    (∀ t rest k' es, (k.conditions c).waitQueue = t :: rest →
      step k (.call (.signal c (k.conditions c).waitLock)) = some (k', es) →
      (k'.conditions c).waitQueue = rest ∧ k'.readyList = k.readyList ++ [t] ∧
        k'.status = Function.update k.status t .ready ∧ k'.locks = k.locks ∧
        ∀ q, q ≠ .readyList → q ≠ .condition c → k'.queue q = k.queue q) ∧
    (∀ passed k' es, (k.conditions c).waitQueue = [] →
      step k (.call (.signal c passed)) = some (k', es) → k' = k.leave (.signal c passed) true) ∧
    ((k.conditions c).waitLock = none ↔ (k.conditions c).waitQueue = []) ∧
    ∀ passed k' es, (k.conditions c).waitQueue ≠ [] → passed ≠ (k.conditions c).waitLock →
      (step k (.call (.wait c passed)) = some (k', es) → k' = k.leave (.wait c passed) false) ∧
      (step k (.call (.signal c passed)) = some (k', es) →
        k' = k.leave (.signal c passed) false) := by
  have hany : Run step anyStep _ tr k := hrun.weaken fun _ => trivial
  have hplaced := placed_of_run hany
  have hlocked := locked_of_run hany
  have hwaits := waits_of_run hrun
  have hcall : ∀ {op k' es}, step k (.call op) = some (k', es) → k' = (k.call op).1 :=
    fun hs => (Step.called_of_label hs).2.1
  refine ⟨?_, ?_, joined_eq nofun hany, ?_, ?_, bound_of_run hrun c, ?_⟩
  · intro label k' es t l after passed ok hs hret hwait
    exact hwaits.returned hplaced hlocked (.of_step hs) hret hwait
  · intro t l after hwait hnot
    have hmem := hwaits.waiting t c l after hwait hnot
    exact ⟨hmem, hwaits.waitLock t c l after hwait hmem⟩
  · intro t rest k' es hq hs
    rw [hcall hs]
    simp only [Kernel.call, signal_cons k hq rfl]
    refine ⟨?_, rfl, rfl, rfl, fun q hready hcond => ?_⟩
    · show ((k.setCondition c _).conditions c).waitQueue = rest
      rw [setCondition_self, Condition.remove_waitQueue, hq]
      rfl
    · have hqueue := congrFun (queue_setCondition k c (k.conditions c).remove) q
      rw [Function.update_of_ne hcond] at hqueue
      rw [← hqueue]
      cases q <;> first | rfl | exact absurd rfl hready
  · intro passed k' es hq hs
    rw [hcall hs]
    simp only [Kernel.call, signal_nil k hq]
  · intro passed k' es hne hpassed
    constructor
    · intro hs
      have hnot : ¬ k.Waitable c passed := by
        rintro ⟨-, hnone | heq⟩
        · exact hne ((bound_of_run hrun c).mp hnone)
        · exact hpassed heq.symm
      rw [hcall hs]
      exact congrArg Prod.fst (wait_refused k hnot)
    · intro hs
      obtain ⟨t, rest, hq⟩ := List.exists_cons_of_ne_nil hne
      rw [hcall hs]
      simp only [Kernel.call, signal_refused k hq hpassed]

/-- `t` forks `u` and acquires the lock. -/
def beforeWait (t u : T) : List (Effect T Unit Unit Unit) :=
  [.called t (.fork u), .returned t (.fork u) true, .called t (.acquire ()),
    .returned t (.acquire ()) true]

/-- `u` signals `t`, which goes on. -/
def afterWait (t u : T) : List (Effect T Unit Unit Unit) :=
  [.released t (), .called u (.acquire ()), .returned u (.acquire ()) true,
    .called u (.signal () (some ())), .removed (some u) t (.condition ()),
    .returned u (.signal () (some ())) true, .called u (.release ()), .released u (),
    .returned u (.release ()) true, .called u .yield, .reacquired t ()]

/-- A thread waits, and another one signals it. -/
theorem condition_contract_sample : ∃ tr k after,
    Run step withLock (boot 0 fun _ => 0 : Kernel (Fin 2) Unit Unit Unit) tr k ∧
      Enqueued tr.flatten 0 () () after ∧ ∀ label k' es passed ok, step k label = some (k', es) →
        .returned 0 (.wait () passed) ok ∈ es → passed = some () ∧ ok = true ∧
          Chosen after 0 () () ∧ (k'.locks ()).lockerOwner = some 0 := by
  have hp : (exec step withLock [] (boot 0 fun _ => 0 : Kernel (Fin 2) Unit Unit Unit)
      [.call (.fork 1), .return, .call (.acquire ()), .return, .call (.wait () (some ())),
        .call (.acquire ()), .return, .call (.signal () (some ())), .return,
        .call (.release ()), .return, .call .yield, .resume]).map (fun r => r.1.flatten) =
      some (beforeWait 0 1 ++ .called 0 (.wait () (some ())) :: .appended 0 (.condition ()) ::
        afterWait 0 1) := by decide
  obtain ⟨⟨tr, k⟩, hexec, hlog⟩ := Option.map_eq_some_iff.mp hp
  have hrun := Run.of_exec .start hexec
  have hwait : Enqueued tr.flatten 0 () () _ :=
    ⟨⟨_, hlog⟩, by
      intro op hop
      simp [afterWait] at hop⟩
  refine ⟨tr, k, _, hrun, hwait, ?_⟩
  intro label k' es passed ok hs hret
  exact (condition_contract hrun ()).1 label k' es 0 () _ passed ok hs hret hwait

end Nachos.Threads
