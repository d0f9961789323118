import Nachos.Threads.Lives

/-!
# Locks

A lock is handed over inside `Release`, to a thread that still sleeps; when this thread
gets the processor it does not look again. So a thread behind `Sleep` in `Acquire` is the
owner as soon as it is out of the queue, and stays it, because nobody else can release the
lock.
-/

namespace Nachos.Threads

open Nachos.Lib Kernel

variable {T S L C : Type*}

/-! ## Who owns a lock -/

/-- The lock that a thread which goes on here owns, unless it sleeps. -/
def Pc.owns : Pc T S L C → Option L
  | .inAcquire l | .inReacquire _ l | .leaving (.acquire l) _ => some l
  | .leaving (.wait _ (some l)) true => some l
  | _ => none

variable [DecidableEq T] [DecidableEq S] [DecidableEq L] [DecidableEq C]
  {k k' : Kernel T S L C} {log es : List (Effect T S L C)} {main t u : T} {l : L}

/-- Who owns which lock. -/
structure Locked (k : Kernel T S L C) : Prop where
  owns : ∀ t l, (k.pc t).owns = some l → t ∉ (k.locks l).waitQueue →
    (k.locks l).lockerOwner = some t
  awake : ∀ t l, (k.locks l).lockerOwner = some t → t ∉ (k.locks l).waitQueue

omit [DecidableEq S] [DecidableEq C] in
theorem acquire_lockerOwner (h : (k.acquire l).2 = true) :
    ((k.acquire l).1.locks l).lockerOwner = some k.currentThread := by
  cases ho : (k.locks l).lockerOwner with
  | none =>
      rw [acquire_none k ho]
      simp [(Lock.acquire_free ho).1]
  | some u =>
      by_cases hu : u = k.currentThread
      · subst hu
        rw [acquire_own k ho]
        exact ho
      · rw [acquire_other k ho hu] at h
        cases h

namespace Step

/-- An owner stays it until it releases the lock. -/
theorem lockerOwner (hs : Step k k' es) (h : (k.locks l).lockerOwner = some t) :
    (k'.locks l).lockerOwner = some t ∨ t = k.currentThread ∧ k.idle = false ∧
      k.pc t = .outside ∧ .released t l ∈ es := by
  have hchange := hs.lock l
  have hreleased : ∀ e, e ∈ es.filter (Effect.about (.lock l)) → e ∈ es :=
    fun e he => (List.mem_filter.mp he).1
  revert hchange hreleased
  generalize es.filter _ = about
  rintro (hlock | ⟨-, -, -, hlock⟩ | ⟨-, hnone, -⟩ | ⟨-, howner, hne, hlock⟩ |
    ⟨hidle, hpc, howner, -, -⟩ | ⟨hidle, hpc, howner, -, -⟩) hreleased
  · exact .inl (hlock ▸ h)
  · exact .inl (hlock ▸ h)
  · rw [hnone] at h
    cases h
  · rw [hlock, (Lock.acquire_busy howner hne).1, ← howner]
    exact .inl h
  all_goals
    rw [h] at howner
    obtain rfl := Option.some.inj howner
    exact .inr ⟨rfl, hidle, hpc, hreleased _ List.mem_cons_self⟩

/-- A thread leaves the queue of a lock as its owner. -/
theorem lockerOwner_of_woken (hs : Step k k' es) (h : t ∈ (k.locks l).waitQueue)
    (h' : t ∉ (k'.locks l).waitQueue) : (k'.locks l).lockerOwner = some t := by
  have hchange := hs.lock l
  revert hchange
  generalize es.filter _ = about
  rintro (hlock | ⟨-, -, -, hlock⟩ | ⟨-, hnone, -⟩ | ⟨-, howner, hne, hlock⟩ |
    ⟨-, -, -, hnil, -⟩ | ⟨-, -, howner, hcons, hlock⟩)
  · exact absurd (hlock ▸ h) h'
  · exact absurd (hlock ▸ h) h'
  · rw [(k.locks l).idle hnone] at h
    cases h
  · rw [hlock, (Lock.acquire_busy howner hne).2] at h'
    exact absurd (List.mem_append_left _ h) h'
  · rw [hnil] at h
    cases h
  · rw [hlock, (Lock.release_next howner hcons).2] at h'
    rw [hcons] at h
    rw [hlock, (Lock.release_next howner hcons).1]
    rcases List.mem_cons.mp h with rfl | h
    · rfl
    · exact absurd h h'

/-- A thread that goes to sleep for a lock is in the queue then. -/
theorem mem_of_appended (hs : Step k k' es) (he : .appended t (.lock l) ∈ es) :
    t = k.currentThread ∧ k.idle = false ∧ t ∈ (k'.locks l).waitQueue := by
  have hmem : .appended t (.lock l) ∈ es.filter (Effect.about (.lock l)) :=
    List.mem_filter.mpr ⟨he, by simp [Effect.about]⟩
  have hchange := hs.lock l
  revert hchange hmem
  generalize es.filter _ = about
  rintro hmem (_ | _ | _ | ⟨hidle, howner, hne, hlock⟩ | _ | _)
  case joined =>
    obtain ⟨rfl, -⟩ := Effect.appended.inj (List.mem_singleton.mp hmem)
    rw [hlock, (Lock.acquire_busy howner hne).2]
    exact ⟨rfl, hidle, List.mem_append_right _ (List.mem_singleton_self _)⟩
  all_goals simp at hmem

/-- A thread goes to sleep for a lock where it calls `Acquire`, itself or in `Wait`. -/
theorem calls_of_appended (hs : Step k k' es) (hplaced : Placed k)
    (he : .appended t (.lock l) ∈ es) :
    .called t (.acquire l) ∈ es ∨ ∃ c, k.pc t = .inWait c l := by
  obtain ⟨rfl, hidle, hmem⟩ := hs.mem_of_appended he
  obtain ⟨-, hqueue⟩ := (hplaced.step hs).of_mem (q := .lock l) hmem nofun
  have hgoes := hs.goes
  revert hqueue hgoes
  generalize k'.pc k.currentThread = pc
  rintro hqueue (⟨hpc, hopen⟩ | _ | hes | _ | ⟨hpc, -⟩ | _ | _ | _ | _ | _ | _ | _ | _ | _)
  case stays =>
    rw [(hopen.resolve_left (by simp [hidle])).queue] at hqueue
    cases hqueue
  case sleepAcquire =>
    obtain rfl := Queue.lock.inj (Option.some.inj hqueue)
    exact .inl (by rw [hes]; exact List.mem_cons_self)
  case sleepReacquire =>
    obtain rfl := Queue.lock.inj (Option.some.inj hqueue)
    exact .inr ⟨_, hpc⟩
  all_goals cases hqueue

/-- Who is woken for a lock is its owner then. -/
theorem lockerOwner_of_removed {w : Option T} (hs : Step k k' es)
    (he : .removed w t (.lock l) ∈ es) : (k'.locks l).lockerOwner = some t := by
  have hmem : .removed w t (.lock l) ∈ es.filter (Effect.about (.lock l)) :=
    List.mem_filter.mpr ⟨he, by simp [Effect.about]⟩
  have hchange := hs.lock l
  revert hchange hmem
  generalize es.filter _ = about
  rintro hmem (_ | _ | _ | _ | _ | ⟨-, -, howner, hcons, hlock⟩)
  case handed =>
    rw [List.mem_cons, List.mem_singleton] at hmem
    obtain ⟨-, rfl, -⟩ := Effect.removed.inj (hmem.resolve_left (by simp))
    rw [hlock, (Lock.release_next howner hcons).1]
  all_goals simp at hmem

end Step

namespace Locked

/-- Behind a call of `Acquire` the thread has the lock. -/
theorem step_current (h : Locked k) (hplaced : Placed k) (hs : Step k k' es)
    (hidle : k.idle = false) (howns : (k'.pc k.currentThread).owns = some l)
    (hawake : k.currentThread ∉ (k'.locks l).waitQueue) :
    (k'.locks l).lockerOwner = some k.currentThread := by
  have hout : k.currentThread ∉ k.queue (.lock l) :=
    hplaced.located.not_mem (hplaced.loc_current hidle)
  have hgoes := hs.goes
  revert howns hgoes
  generalize k'.pc k.currentThread = pc
  rintro howns (⟨hpc, -⟩ | _ | hes | _ | ⟨-, hes⟩ | ⟨-, howned, hlocks⟩ | ⟨hpc, hlocks, -⟩ |
    ⟨-, howned, hlocks, -⟩ | ⟨hpc, hlocks, -⟩ | _ | ⟨hacquire, hwait, -⟩ | _ | _ | _)
  case stays =>
    rw [← hpc] at howns
    rcases hs.lockerOwner (h.owns _ l howns hout) with howner | ⟨-, -, houtside, -⟩
    · exact howner
    · rw [houtside] at howns
      cases howns
  case sleepAcquire =>
    obtain rfl := Option.some.inj howns
    exact absurd (hs.mem_of_appended (by rw [hes]; simp)).2.2 hawake
  case sleepReacquire =>
    obtain rfl := Option.some.inj howns
    exact absurd (hs.mem_of_appended (by rw [hes]; simp)).2.2 hawake
  case acquired | reacquired =>
    obtain rfl := Option.some.inj howns
    rw [hlocks]
    exact acquire_lockerOwner howned
  case granted | regranted =>
    obtain rfl := Option.some.inj howns
    rw [hlocks]
    exact h.owns _ _ (by rw [hpc]; rfl) hout
  case refused c l' _ => cases l' <;> cases howns
  case left op ok =>
    cases op with
    | acquire l' => exact absurd rfl (hacquire l')
    | wait c l' => exact absurd rfl (hwait c l')
    | _ => cases howns
  all_goals cases howns

theorem step (h : Locked k) (hplaced : Placed k) (hs : Step k k' es) : Locked k' where
  owns t l howns hawake := by
    by_cases ht : t ≠ k.currentThread ∨ k.idle = true
    · rcases hs.pc ht with heq | ⟨-, -, hout⟩
      · rw [heq] at howns
        by_cases hwaiting : t ∈ (k.locks l).waitQueue
        · exact hs.lockerOwner_of_woken hwaiting hawake
        · refine (hs.lockerOwner (h.owns t l howns hwaiting)).resolve_right ?_
          rintro ⟨rfl, hidle, -, -⟩
          simp [hidle] at ht
      · rw [hout] at howns
        cases howns
    · push Not at ht
      obtain ⟨rfl, hidle⟩ := ht
      exact h.step_current hplaced hs (Bool.eq_false_iff.mpr hidle) howns hawake
  awake t l howner := by
    have hchange := hs.lock l
    have hnodup := hplaced.located.nodup (.lock l)
    revert hchange
    generalize es.filter _ = about
    rintro (hlock | ⟨-, -, -, hlock⟩ | ⟨-, hnone, hlock⟩ | ⟨-, howner', hne, hlock⟩ |
      ⟨-, -, -, -, hlock⟩ | ⟨-, -, howner', hcons, hlock⟩)
    · rw [hlock] at howner ⊢
      exact h.awake t l howner
    · rw [hlock] at howner ⊢
      exact h.awake t l howner
    · rw [hlock, (Lock.acquire_free hnone).2]
      exact List.not_mem_nil
    · rw [hlock, (Lock.acquire_busy howner' hne).1] at howner
      obtain rfl := Option.some.inj howner
      rw [hlock, (Lock.acquire_busy howner' hne).2, List.mem_append, List.mem_singleton]
      rintro (hmem | heq)
      · exact h.awake _ l howner' hmem
      · exact hne heq
    · rw [hlock] at howner
      cases howner
    · rw [hlock, (Lock.release_next howner' hcons).1] at howner
      obtain rfl := Option.some.inj howner
      rw [hlock, (Lock.release_next howner' hcons).2]
      rw [show k.queue (.lock l) = _ from hcons, List.nodup_cons] at hnodup
      exact hnodup.1

end Locked

theorem locked_of_run {initialValue : S → ℤ} {tr : List (List (Effect T S L C))}
    (hrun : Run step anyStep (boot main initialValue) tr k) : Locked k := by
  refine hrun.invariant_with (I := fun _ k => Locked k) placed_of_run ⟨?_, nofun⟩ ?_
  · intro t l howns
    by_cases ht : t = main <;> simp [boot, ht, Pc.owns] at howns
  · intro tr k l k' es hplaced h _ hs
    exact h.step hplaced (.of_step hs)

/-! ## From `Acquire` to `Release` -/

/-- With this effect the thread gets the lock: `Acquire` returns, or `Wait` has it again. -/
def Effect.Gets (t : T) (l : L) (e : Effect T S L C) : Prop :=
  (∃ ok, e = .returned t (.acquire l) ok) ∨ e = .reacquired t l

/-- The thread has got the lock and has not released it since. -/
def Holds (log : List (Effect T S L C)) (t : T) (l : L) : Prop :=
  ∃ before e after, log = before ++ e :: after ∧ e.Gets t l ∧ .released t l ∉ after

omit [DecidableEq T] [DecidableEq S] [DecidableEq L] [DecidableEq C] in
theorem Holds.of_append (h : Holds (log ++ es) t l) :
    Holds log t l ∧ .released t l ∉ es ∨ ∃ e ∈ es, e.Gets t l := by
  obtain ⟨before, e, after, hlog, hgets, hnot⟩ := h
  rcases append_eq_append_cons hlog with ⟨after', hold, rfl⟩ | ⟨before', hes⟩
  · rw [List.mem_append, not_or] at hnot
    exact .inl ⟨⟨before, e, after', hold, hgets, hnot.1⟩, hnot.2⟩
  · refine .inr ⟨e, ?_, hgets⟩
    rw [hes]
    exact List.mem_append_right _ List.mem_cons_self

/-- **A thread that gets a lock is its owner.** -/
theorem Step.lockerOwner_of_gets (hs : Step k k' es) (hplaced : Placed k) (hlocked : Locked k)
    {e : Effect T S L C} (he : e ∈ es) (hgets : e.Gets t l) :
    (k'.locks l).lockerOwner = some t := by
  have howner : k.idle = false → (k.pc k.currentThread).owns = some l →
      (k.locks l).lockerOwner = some k.currentThread := by
    intro hidle howns
    exact hlocked.owns _ l howns
      (hplaced.located.not_mem (hplaced.loc_current hidle) : _ ∉ k.queue (.lock l))
  rcases hgets with ⟨ok, rfl⟩ | rfl
  · obtain ⟨rfl, hidle, rfl, -, hpc | ⟨c, l', hop, -⟩⟩ := hs.returned he
    · exact howner hidle (by rw [hpc]; rfl)
    · cases hop
  · obtain ⟨rfl, hidle, -, c, ⟨-, howned, rfl⟩ | ⟨hpc, rfl⟩⟩ := hs.reacquired he
    · exact acquire_lockerOwner howned
    · exact howner hidle (by rw [hpc]; rfl)

variable {initialValue : S → ℤ} {tr : List (List (Effect T S L C))}

/-- Between getting a lock and releasing it a thread is its owner. -/
theorem lockerOwner_of_holds (hrun : Run step anyStep (boot main initialValue) tr k) :
    ∀ t l, Holds tr.flatten t l → (k.locks l).lockerOwner = some t := by
  refine hrun.invariant_with
    (I := fun tr k => ∀ t l, Holds tr.flatten t l → (k.locks l).lockerOwner = some t)
    (fun hrun => And.intro (placed_of_run hrun) (locked_of_run hrun)) ?_ ?_
  · rintro t l ⟨before, e, after, hlog, -, -⟩
    simp at hlog
  · rintro tr k label k' es ⟨hplaced, hlocked⟩ h _ hs t l hholds
    have hs := Step.of_step hs
    rw [List.flatten_append, List.flatten_singleton] at hholds
    rcases hholds.of_append with ⟨hheld, hnot⟩ | ⟨e, he, hgets⟩
    · rcases hs.lockerOwner (h t l hheld) with howner | ⟨-, -, -, hreleased⟩
      · exact howner
      · exact absurd hreleased hnot
    · exact hs.lockerOwner_of_gets hplaced hlocked he hgets

/-- **Mutual exclusion.** At every moment of every run a lock is free if and only if nobody
owns it, and who waits for it waits once and does not own it. A thread gets a lock only as
its owner, so the stretches in which two threads have it never overlap; releasing somebody
else's lock does nothing; and the lock is handed to the threads that sleep in `Acquire` in
the order in which they called it. -/
theorem mutual_exclusion (hrun : Run step anyStep (boot main initialValue) tr k) (l : L) :
    ((k.locks l).status = .free ↔ (k.locks l).lockerOwner = none) ∧
    ((k.locks l).waitQueue ≠ [] → (k.locks l).status = .busy) ∧
    (k.locks l).waitQueue.Nodup ∧
    (∀ t, (k.locks l).lockerOwner = some t → t ∉ (k.locks l).waitQueue) ∧
    (∀ label k' es t e, step k label = some (k', es) → e ∈ es → e.Gets t l →
      (k'.locks l).lockerOwner = some t) ∧
    (∀ t u, Holds tr.flatten t l → Holds tr.flatten u l → t = u) ∧
    ((k.locks l).lockerOwner ≠ some k.currentThread → ∀ k' es,
      step k (.call (.release l)) = some (k', es) → k' = k.leave (.release l) true) ∧
    joined (.lock l) tr.flatten = left (.lock l) tr.flatten ++ (k.locks l).waitQueue ∧
    ∀ label k' es t, step k label = some (k', es) →
      (.appended t (.lock l) ∈ es → .called t (.acquire l) ∈ es ∨ ∃ c, k.pc t = .inWait c l) ∧
      ∀ w, .removed w t (.lock l) ∈ es → (k'.locks l).lockerOwner = some t := by
  have hplaced := placed_of_run hrun
  have hlocked := locked_of_run hrun
  refine ⟨(k.locks l).free_iff, ?_, hplaced.located.nodup (.lock l), fun t => hlocked.awake t l,
    ?_, ?_, ?_, joined_eq nofun hrun, ?_⟩
  · intro hne
    cases hstatus : (k.locks l).status with
    | free => exact absurd ((k.locks l).idle ((k.locks l).free_iff.mp hstatus)) hne
    | busy => rfl
  · intro label k' es t e hs he hgets
    exact (Step.of_step hs).lockerOwner_of_gets hplaced hlocked he hgets
  · intro t u ht hu
    have howner := lockerOwner_of_holds hrun t l ht
    rw [lockerOwner_of_holds hrun u l hu] at howner
    exact (Option.some.inj howner).symm
  · intro hother k' es hs
    rw [(Step.called_of_label hs).2.1]
    simp only [Kernel.call, release_other k hother]
  · intro label k' es t hs
    have hs := Step.of_step hs
    exact ⟨hs.calls_of_appended hplaced, fun w => hs.lockerOwner_of_removed⟩

/-- A thread gets the lock from another one that releases it. -/
theorem mutual_exclusion_sample : ∃ tr k,
    Run step anyStep (boot 0 fun _ => 0 : Kernel (Fin 2) Unit Unit Unit) tr k ∧
      (k.locks ()).lockerOwner = some 1 ∧ Holds tr.flatten 1 () ∧
      ∀ u, Holds tr.flatten u () → 1 = u := by
  have hp : (exec step anyStep [] (boot 0 fun _ => 0 : Kernel (Fin 2) Unit Unit Unit)
      [.call (.acquire ()), .return, .call (.fork 1), .return, .call .yield,
        .call (.acquire ()), .return, .call (.release ()), .return, .call .yield, .resume,
        .return]).map
        (fun r => (r.1.flatten.drop 6, (r.2.locks ()).lockerOwner)) =
      some ([.appended 1 (.lock ()), .returned 0 .yield true, .called 0 (.release ()),
        .released 0 (), .removed (some 0) 1 (.lock ()), .returned 0 (.release ()) true,
        .called 0 .yield, .returned 1 (.acquire ()) true], some 1) := by decide
  obtain ⟨⟨tr, k⟩, hexec, hvalues⟩ := Option.map_eq_some_iff.mp hp
  obtain ⟨hlog, howner⟩ := Prod.mk.inj hvalues
  have hlog : tr.flatten.drop 6 = _ := hlog
  have hrun := Run.of_exec .start hexec
  have hholds : Holds tr.flatten 1 () := by
    refine ⟨tr.flatten.take 6 ++ (tr.flatten.drop 6).take 7, .returned 1 (.acquire ()) true, [],
      ?_, .inl ⟨true, rfl⟩, nofun⟩
    conv_lhs => rw [← List.take_append_drop 6 tr.flatten, hlog]
    rw [hlog, List.append_assoc]
    rfl
  obtain ⟨-, -, -, -, -, hexclusive, -⟩ := mutual_exclusion hrun ()
  exact ⟨tr, k, hrun, howner, hholds, fun u hu => hexclusive 1 u hholds hu⟩

end Nachos.Threads
