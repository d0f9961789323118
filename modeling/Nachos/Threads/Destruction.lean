import Nachos.Threads.Lives

/-!
# The destruction of threads

A thread that finishes still stands on its stack, so `Finish` only records it in
`threadToBeDestroyed`, and `Run` deletes the thread recorded when it goes on behind `SWITCH`
in another thread. A new thread does not go on there: its stack begins in `ThreadRoot`. If
it finishes in its first turn, it records itself in the place of the thread that finished
before it, which nobody deletes any more.
-/

namespace Nachos.Threads

open Nachos.Lib

variable {T S L C : Type*}

/-- The step has gone through `Run`: another thread has the processor, or the one that was
idling in `Sleep`. -/
def Kernel.Ran (k k' : Kernel T S L C) : Prop :=
  k'.idle = false ∧ (k'.currentThread ≠ k.currentThread ∨ k.idle = true)

instance [DecidableEq T] (k k' : Kernel T S L C) : Decidable (k.Ran k') :=
  inferInstanceAs (Decidable (_ ∧ _))

/-- The kernel with `threadToBeDestroyed`. -/
structure Scheduler (T S L C : Type*) where
  kernel : Kernel T S L C
  threadToBeDestroyed : Option T
  /-- The thread has called `SWITCH`, and goes on behind it. -/
  switched : T → Bool

/-- What a step does; `overwritten` is what `Finish` finds recorded. -/
structure Handover (T S L C : Type*) where
  effects : List (Effect T S L C)
  overwritten : Option T
  deleted : Option T

namespace Scheduler

/-- The line of `Finish` that records the thread; also what it finds there. -/
def finish (s : Scheduler T S L C) : Label T S L C → Option T × Option T
  | .call .finish => (some s.kernel.currentThread, s.threadToBeDestroyed)
  | _ => (s.threadToBeDestroyed, none)

theorem finish_of_ne (s : Scheduler T S L C) {l : Label T S L C} (hl : l ≠ .call .finish) :
    s.finish l = (s.threadToBeDestroyed, none) := by
  unfold finish
  split
  · exact absurd rfl hl
  · rfl

/-- `Run` behind `SWITCH`, in `currentThread`: what is recorded afterwards, and what is
deleted. `none` stands for the `ASSERT` of the destructor. -/
def afterSwitch [DecidableEq T] (currentThread : T) : Option T → Option (Option T × Option T)
  | none => some (none, none)
  | some t => if t ≠ currentThread then some (none, some t) else none

section Step

variable [DecidableEq T] [DecidableEq S] [DecidableEq L] [DecidableEq C]

/-- A step of the kernel, with `Finish` and the end of `Run`. -/
def step (s : Scheduler T S L C) (l : Label T S L C) :
    Option (Scheduler T S L C × Handover T S L C) :=
  match Threads.step s.kernel l with
  | none => none
  | some (k', effects) =>
      let (toBeDestroyed, overwritten) := s.finish l
      if s.kernel.Ran k' then
        let switched := Function.update s.switched s.kernel.currentThread true
        -- a new thread goes on in `ThreadRoot`
        if switched k'.currentThread then
          (afterSwitch k'.currentThread toBeDestroyed).map fun r =>
            (⟨k', r.1, switched⟩, ⟨effects, overwritten, r.2⟩)
        else some (⟨k', toBeDestroyed, switched⟩, ⟨effects, overwritten, none⟩)
      else some (⟨k', toBeDestroyed, s.switched⟩, ⟨effects, overwritten, none⟩)

/-- The main thread runs, and nobody has finished. -/
def start (main : T) (initialValue : S → ℤ) : Scheduler T S L C :=
  ⟨boot main initialValue, none, fun _ => false⟩

end Step

end Scheduler

/-! ## Who has the processor -/

section Hands

variable {k k' : Kernel T S L C} {es : List (Effect T S L C)}

namespace Kernel

theorem dispatch_idle [DecidableEq T] (k : Kernel T S L C) :
    k.dispatch.currentThread = k.currentThread ∨ k.dispatch.idle = false := by
  unfold dispatch
  split
  · exact .inl rfl
  · exact .inr rfl

/-- `Ran` tells when the loop of `Sleep` has found a thread. -/
theorem ran_dispatch [DecidableEq T] (k : Kernel T S L C) (hidle : k.idle = true) :
    k.Ran k.dispatch ↔ k.readyList ≠ [] := by
  unfold dispatch
  split
  · rename_i hnil
    refine iff_of_false (fun hran => ?_) (not_not_intro hnil)
    rw [hran.1] at hidle
    cases hidle
  · rename_i t rest hcons
    refine iff_of_true ⟨rfl, .inr hidle⟩ ?_
    rw [hcons]
    exact List.cons_ne_nil t rest

/-- The same of `Yield`. -/
theorem ran_yield [DecidableEq T] (k : Kernel T S L C) (hidle : k.idle = false)
    (hcur : k.currentThread ∉ k.readyList) : k.Ran k.yield ↔ k.readyList ≠ [] := by
  unfold yield
  split
  · rename_i hnil
    refine iff_of_false ?_ (not_not_intro hnil)
    rintro ⟨-, hne | htrue⟩
    · exact hne rfl
    · rw [hidle] at htrue
      cases htrue
  · rename_i t rest hcons
    rw [hcons] at hcur ⊢
    refine iff_of_true ⟨rfl, .inl ?_⟩ (List.cons_ne_nil t rest)
    rintro rfl
    exact hcur List.mem_cons_self

/-- The same of `Sleep`. -/
theorem ran_sleep [DecidableEq T] (k : Kernel T S L C) (pc : Pc T S L C)
    (hcur : k.currentThread ∉ k.readyList) : k.Ran (k.sleep pc) ↔ k.readyList ≠ [] := by
  unfold sleep dispatch
  dsimp only
  split
  · rename_i hnil
    exact iff_of_false (fun hran => nomatch hran.1) (not_not_intro hnil)
  · rename_i t rest hcons
    rw [hcons] at hcur ⊢
    refine iff_of_true ⟨rfl, .inl ?_⟩ (List.cons_ne_nil t rest)
    rintro rfl
    exact hcur List.mem_cons_self

theorem sleep_idle [DecidableEq T] (k : Kernel T S L C) (pc : Pc T S L C) :
    (k.sleep pc).currentThread = k.currentThread ∨ (k.sleep pc).idle = false := dispatch_idle _

theorem yield_idle [DecidableEq T] (k : Kernel T S L C) :
    k.yield.currentThread = k.currentThread ∨ k.yield.idle = false := by
  unfold yield
  split
  · exact .inl rfl
  · exact .inr rfl

theorem p_idle [DecidableEq T] [DecidableEq S] (k : Kernel T S L C) (s : S) :
    (k.p s).1.currentThread = k.currentThread ∨ (k.p s).1.idle = false := by
  by_cases hzero : (k.semaphores s).value = 0
  · rw [p_zero k hzero]
    exact sleep_idle _ _
  · rw [p_pos k hzero]
    exact .inl rfl

theorem wait_idle [DecidableEq T] [DecidableEq L] [DecidableEq C] (k : Kernel T S L C) (c : C)
    (l : Option L) :
    (k.wait c l).1.currentThread = k.currentThread ∨ (k.wait c l).1.idle = false := by
  by_cases h : k.Waitable c l
  · cases l with
    | none => exact absurd rfl h.1
    | some l =>
        rw [wait_accepted k h]
        refine (sleep_idle _ _).imp_left fun hcur => hcur.trans ?_
        exact (release_kept k l).1
  · rw [wait_refused k h]
    exact .inl rfl

/-- A call gives up the processor only to another thread. -/
theorem call_idle [DecidableEq T] [DecidableEq S] [DecidableEq L] [DecidableEq C]
    (k : Kernel T S L C) (op : Op T S L C) :
    (k.call op).1.currentThread = k.currentThread ∨ (k.call op).1.idle = false := by
  cases op with
  | p s => exact p_idle k s
  | v s => exact .inl (v_kept k s _).1
  | acquire l =>
      cases howned : (k.acquire l).2 with
      | true =>
          rw [call_acquire_owned howned]
          exact .inl rfl
      | false =>
          rw [call_acquire_sleep howned]
          exact sleep_idle _ _
  | release l => exact .inl (release_kept k l).1
  | wait c l => exact wait_idle k c l
  | signal c l => exact .inl (signal_kept k c l).1
  | broadcast c l => exact .inl rfl
  | fork t => exact .inl rfl
  | yield => exact yield_idle _
  | finish => exact sleep_idle _ _

end Kernel

/-- **The processor changes hands in `Run` only.** -/
theorem Step.ran_or_kept [DecidableEq T] [DecidableEq S] [DecidableEq L] [DecidableEq C]
    (hs : Step k k' es) : k.Ran k' ∨ k'.currentThread = k.currentThread := by
  have hidle : k'.currentThread = k.currentThread ∨ k'.idle = false := by
    cases hs with
    | call _ => exact k.call_idle _
    | resumeP _ _ => exact k.p_idle _
    | resumeWaitSleep _ _ _ => exact Kernel.sleep_idle _ _
    | loopSignal _ _ _ => exact .inl (Kernel.signal_kept k _ _).1
    | interrupt _ => exact .inl (Kernel.v_kept k _ _).1
    | preempt _ _ => exact k.yield_idle
    | dispatch _ => exact k.dispatch_idle
    | resumeAcquire _ _ | resumeWait _ _ _ | resumeReacquire _ _ | loopEnd _ _ _ | «return» _ _ =>
        exact .inl rfl
  by_cases hcur : k'.currentThread = k.currentThread
  · exact .inr hcur
  · exact .inl ⟨hidle.resolve_left hcur, .inl hcur⟩

end Hands

/-! ## Finished, recorded, deleted -/

/-- The finished threads `F`: each one is deleted, recorded, or lost. -/
structure Accounted (F : T → Prop) (record : Option T) (gone forgotten : List T) : Prop where
  recorded : ∀ t, record = some t → F t ∧ t ∉ gone
  deleted : ∀ t ∈ gone, F t
  nodup : gone.Nodup
  lost : ∀ t ∈ forgotten, F t ∧ t ∉ gone ∧ record ≠ some t
  all : ∀ t, F t → t ∈ gone ∨ record = some t ∨ t ∈ forgotten

namespace Accounted

variable {F F' : T → Prop} {record : Option T} {gone forgotten : List T} {t : T}

/-- Another thread finishes. -/
theorem finish (h : Accounted F record gone forgotten) (hnew : ¬ F t)
    (hF : ∀ u, F' u ↔ F u ∨ u = t) : Accounted F' (some t) gone (forgotten ++ record.toList) where
  recorded u hu := by
    obtain rfl := Option.some.inj hu
    exact ⟨(hF t).2 (.inr rfl), fun hdel => hnew (h.deleted t hdel)⟩
  deleted u hu := (hF u).2 (.inl (h.deleted u hu))
  nodup := h.nodup
  lost u hu := by
    have hold : F u ∧ u ∉ gone := by
      rcases List.mem_append.1 hu with hu | hu
      · exact ⟨(h.lost u hu).1, (h.lost u hu).2.1⟩
      · exact h.recorded u (Option.mem_toList.1 hu)
    refine ⟨(hF u).2 (.inl hold.1), hold.2, ?_⟩
    intro heq
    obtain rfl := Option.some.inj heq
    exact hnew hold.1
  all u hu := by
    rcases (hF u).1 hu with hu | rfl
    · rcases h.all u hu with hdel | hrec | hlost
      · exact .inl hdel
      · exact .inr (.inr (List.mem_append_right _ (Option.mem_toList.2 hrec)))
      · exact .inr (.inr (List.mem_append_left _ hlost))
    · exact .inr (.inl rfl)

/-- The thread recorded is deleted. -/
theorem delete (h : Accounted F (some t) gone forgotten) :
    Accounted F none (gone ++ [t]) forgotten where
  recorded u hu := nomatch hu
  deleted u hu := by
    rcases List.mem_append.1 hu with hu | hu
    · exact h.deleted u hu
    · rw [List.mem_singleton.1 hu]
      exact (h.recorded t rfl).1
  nodup := by
    refine List.nodup_append.2 ⟨h.nodup, List.nodup_singleton t, ?_⟩
    rintro u hu v hv rfl
    rw [List.mem_singleton.1 hv] at hu
    exact (h.recorded t rfl).2 hu
  lost u hu := by
    obtain ⟨hF, hdel, hrec⟩ := h.lost u hu
    refine ⟨hF, ?_, nofun⟩
    rw [List.mem_append, List.mem_singleton]
    rintro (hmem | rfl)
    · exact hdel hmem
    · exact hrec rfl
  all u hu := by
    rcases h.all u hu with hdel | hrec | hlost
    · exact .inl (List.mem_append_left _ hdel)
    · obtain rfl := Option.some.inj hrec
      exact .inl (List.mem_append_right _ (List.mem_singleton_self t))
    · exact .inr (.inr hlost)

theorem congr (h : Accounted F record gone forgotten) (hF : ∀ u, F' u ↔ F u) :
    Accounted F' record gone forgotten := by
  rwa [show F' = F from funext fun u => propext (hF u)]

/-- Whoever is lost stays lost. -/
theorem all_iff (h : Accounted F record gone forgotten) :
    (∀ t, F t → t ∉ gone → record = some t) ↔ forgotten = [] := by
  constructor
  · intro hall
    refine List.eq_nil_iff_forall_not_mem.2 fun t ht => ?_
    obtain ⟨hF, hdel, hrec⟩ := h.lost t ht
    exact hrec (hall t hF hdel)
  · rintro rfl t hF hdel
    exact ((h.all t hF).resolve_left hdel).resolve_right List.not_mem_nil

end Accounted

/-! ## Runs -/

/-- What the threads and the handlers of interrupts have done. -/
def log (tr : List (Handover T S L C)) : List (Effect T S L C) :=
  (tr.map Handover.effects).flatten

theorem log_snoc (tr : List (Handover T S L C)) (e : Handover T S L C) :
    log (tr ++ [e]) = log tr ++ e.effects := by
  rw [log, List.map_append, List.flatten_append, List.map_singleton, List.flatten_singleton, log]

/-- The threads deleted, in this order. -/
def deletions (tr : List (Handover T S L C)) : List T := tr.filterMap Handover.deleted

/-- The threads that were recorded when another one finished. -/
def overwritten (tr : List (Handover T S L C)) : List T := tr.filterMap Handover.overwritten

variable [DecidableEq T] [DecidableEq S] [DecidableEq L] [DecidableEq C]

namespace Scheduler

variable {s s' : Scheduler T S L C} {l : Label T S L C} {e : Handover T S L C}
  {tr : List (Handover T S L C)} {main t : T}

/-- **What a step can do.** -/
theorem step_spec (hs : s.step l = some (s', e)) :
    Threads.step s.kernel l = some (s'.kernel, e.effects) ∧ e.overwritten = (s.finish l).2 ∧
      ((e.deleted = none ∧ s'.threadToBeDestroyed = (s.finish l).1) ∨
        ∃ t, (s.finish l).1 = some t ∧ t ≠ s'.kernel.currentThread ∧ e.deleted = some t ∧
          s'.threadToBeDestroyed = none) := by
  unfold step at hs
  split at hs
  · cases hs
  · rename_i k' effects hk
    dsimp only at hs
    split at hs
    · split at hs
      · obtain ⟨r, hr, heq⟩ := Option.map_eq_some_iff.1 hs
        obtain ⟨rfl, rfl⟩ := Prod.mk.inj heq
        refine ⟨hk, rfl, ?_⟩
        unfold afterSwitch at hr
        split at hr
        · rename_i hnone
          cases hr
          exact .inl ⟨rfl, hnone.symm⟩
        · rename_i t hsome
          split at hr
          · rename_i hne
            cases hr
            exact .inr ⟨t, hsome, hne, rfl, rfl⟩
          · cases hr
      · obtain ⟨rfl, rfl⟩ := Prod.mk.inj (Option.some.inj hs)
        exact ⟨hk, rfl, .inl ⟨rfl, rfl⟩⟩
    · obtain ⟨rfl, rfl⟩ := Prod.mk.inj (Option.some.inj hs)
      exact ⟨hk, rfl, .inl ⟨rfl, rfl⟩⟩

/-- The kernel runs as it does without the destruction of threads. -/
theorem kernel_of_run {initialValue : S → ℤ}
    (hrun : Run step anyStep (start main initialValue) tr s) :
    Run Threads.step anyStep (boot main initialValue) (tr.map Handover.effects) s.kernel := by
  induction hrun with
  | start => exact .start
  | snoc _ _ hs ih =>
      rw [List.map_append]
      exact .snoc ih trivial (step_spec hs).1

/-- Who has finished after a step. -/
theorem finished_snoc (hk : Threads.step s.kernel l = some (s'.kernel, e.effects)) (t : T) :
    Finished (log (tr ++ [e])) t ↔
      Finished (log tr) t ∨ l = .call .finish ∧ t = s.kernel.currentThread := by
  rw [Finished, log_snoc, List.mem_append, ← Finished]
  refine or_congr_right ⟨fun hcalled => ?_, ?_⟩
  · exact ⟨Step.label_of_called hk hcalled, ((Step.of_step hk).called hcalled).1⟩
  · rintro ⟨rfl, rfl⟩
    exact (Step.called_of_label hk).2.2

/-- A thread that has finished never has the processor. -/
theorem ne_current {k : Kernel T S L C} {es : List (Effect T S L C)} (hplaced : Placed k)
    (hlives : Lives main es k) (hidle : k.idle = false) (hfin : Finished es t) :
    t ≠ k.currentThread := by
  rintro rfl
  exact (hplaced.pc_current hidle).2 ((hlives.finished_iff _).2 hfin)

theorem accounted_step (hplaced : Placed s.kernel) (hlives : Lives main (log tr) s.kernel)
    (h : Accounted (Finished (log tr)) s.threadToBeDestroyed (deletions tr) (overwritten tr))
    (hs : s.step l = some (s', e)) :
    Accounted (Finished (log (tr ++ [e]))) s'.threadToBeDestroyed (deletions (tr ++ [e]))
      (overwritten (tr ++ [e])) := by
  obtain ⟨hk, hover, hdel⟩ := step_spec hs
  -- `Finish`, before `Run`
  have hfinish : Accounted (Finished (log (tr ++ [e]))) (s.finish l).1 (deletions tr)
      (overwritten (tr ++ [e])) := by
    rw [overwritten, filterMap_snoc, hover]
    by_cases hl : l = .call .finish
    · subst hl
      have hidle := (Step.called_of_label hk).1.1
      refine h.finish (fun hfin => ne_current hplaced hlives hidle hfin rfl) fun t => ?_
      rw [finished_snoc hk, and_iff_right rfl]
    · rw [finish_of_ne s hl]
      rw [Option.toList_none, List.append_nil]
      refine h.congr fun t => ?_
      rw [finished_snoc hk, or_iff_left fun hand => hl hand.1]
  rw [deletions, filterMap_snoc]
  rcases hdel with ⟨hnone, hrecord⟩ | ⟨t, hrecord, -, hsome, hfree⟩
  · rw [hnone, hrecord, Option.toList_none, List.append_nil]
    exact hfinish
  · rw [hsome, hfree]
    rw [hrecord] at hfinish
    exact hfinish.delete

/-- The thread that deletes, and whoever comes after it, is none of the threads deleted. -/
theorem deleted_step (hplaced : Placed s'.kernel) (hlives : Lives main (log (tr ++ [e])) s'.kernel)
    (hfin : ∀ t ∈ deletions tr, Finished (log (tr ++ [e])) t)
    (h : s.kernel.currentThread ∉ deletions tr) (hs : s.step l = some (s', e)) :
    s'.kernel.currentThread ∉ deletions (tr ++ [e]) := by
  obtain ⟨hk, -, hdel⟩ := step_spec hs
  have hold : s'.kernel.currentThread ∉ deletions tr := by
    rcases (Step.of_step hk).ran_or_kept with hran | hkept
    · exact fun hmem => ne_current hplaced hlives hran.1 (hfin _ hmem) rfl
    · rwa [hkept]
  rw [deletions, filterMap_snoc, List.mem_append]
  rintro (hmem | hmem)
  · exact hold hmem
  · rcases hdel with ⟨hnone, -⟩ | ⟨t, -, hne, hsome, -⟩
    · rw [hnone] at hmem
      exact List.not_mem_nil hmem
    · rw [hsome] at hmem
      exact hne (List.mem_singleton.1 hmem).symm

/-- The `ASSERT` of the destructor does not fail. -/
theorem step_isSome (hplaced : Placed s.kernel) (hlives : Lives main (log tr) s.kernel)
    (hrecord : ∀ t, s.threadToBeDestroyed = some t → Finished (log tr) t) {k' : Kernel T S L C}
    {es : List (Effect T S L C)} (hk : Threads.step s.kernel l = some (k', es)) :
    ∃ s' e, s.step l = some (s', e) := by
  have hne : s.kernel.Ran k' → ∀ t, (s.finish l).1 = some t → t ≠ k'.currentThread := by
    intro hran t ht
    have hstep := Step.of_step hk
    refine ne_current (hplaced.step hstep) (hlives.step hplaced hstep) hran.1 ?_
    by_cases hl : l = .call .finish
    · subst hl
      obtain rfl := Option.some.inj ht
      exact List.mem_append_right _ (Step.called_of_label hk).2.2
    · rw [finish_of_ne s hl] at ht
      exact List.mem_append_left _ (hrecord t ht)
  simp only [step, hk]
  split
  · rename_i hran
    split
    · cases hfin : (s.finish l).1 with
      | none => exact ⟨_, _, rfl⟩
      | some t => exact ⟨_, _, by rw [afterSwitch, if_pos (hne hran t hfin), Option.map_some]⟩
    · exact ⟨_, _, rfl⟩
  · exact ⟨_, _, rfl⟩

end Scheduler

open Scheduler

/-- **Finished threads are destroyed once.** In every run no thread is deleted twice, and a
thread that is deleted has finished, is not `currentThread` and waits for nothing; the
destructor never fails. The finished threads that are not deleted are the one recorded, as
long as no thread finishes while another one is recorded. -/
theorem destroyed_run {main : T} {initialValue : S → ℤ} {s : Scheduler T S L C}
    {tr : List (Handover T S L C)}
    (hrun : Run Scheduler.step anyStep (start main initialValue) tr s) :
    (deletions tr).Nodup ∧
      (∀ t ∈ deletions tr, Finished (log tr) t ∧ t ≠ s.kernel.currentThread ∧
        ∀ q, t ∉ s.kernel.queue q) ∧
      (∀ l k' es, Threads.step s.kernel l = some (k', es) → ∃ s' e, s.step l = some (s', e)) ∧
      ((∀ t, Finished (log tr) t → t ∉ deletions tr → s.threadToBeDestroyed = some t) ↔
        overwritten tr = []) := by
  have hacc : Accounted (Finished (log tr)) s.threadToBeDestroyed (deletions tr)
      (overwritten tr) ∧ s.kernel.currentThread ∉ deletions tr := by
    refine Run.invariant_with (J := fun tr s => Placed s.kernel ∧ Lives main (log tr) s.kernel)
      (I := fun tr s => Accounted (Finished (log tr)) s.threadToBeDestroyed (deletions tr)
        (overwritten tr) ∧ s.kernel.currentThread ∉ deletions tr) ?_ ?_ ?_ hrun
    · intro tr s hrun
      have hkernel := kernel_of_run hrun
      exact ⟨placed_of_run hkernel, lives_of_run hkernel⟩
    · exact ⟨⟨nofun, nofun, List.nodup_nil, nofun, nofun⟩, List.not_mem_nil⟩
    · rintro tr s l s' e ⟨hplaced, hlives⟩ ⟨hacc, hcur⟩ - hs
      have hstep := Step.of_step (step_spec hs).1
      have hlives' := hlives.step hplaced hstep
      rw [← log_snoc] at hlives'
      have hacc' := accounted_step hplaced hlives hacc hs
      refine ⟨hacc', deleted_step (hplaced.step hstep) hlives' ?_ hcur hs⟩
      intro t ht
      refine hacc'.deleted t ?_
      rw [deletions, filterMap_snoc]
      exact List.mem_append_left _ ht
  obtain ⟨hacc, hcur⟩ := hacc
  have hkernel := kernel_of_run hrun
  refine ⟨hacc.nodup, ?_, ?_, hacc.all_iff⟩
  · intro t ht
    have hfin := hacc.deleted t ht
    refine ⟨hfin, fun heq => hcur (heq ▸ ht), (never_lost hkernel t).2.2 hfin⟩
  · intro l k' es hk
    exact step_isSome (placed_of_run hkernel) (lives_of_run hkernel)
      (fun t ht => (hacc.recorded t ht).1) hk

/-- A thread finishes and is deleted when the main thread is woken. -/
theorem destroyed_run_sample : ∃ tr s,
    Run Scheduler.step anyStep
      (start 0 fun _ => 0 : Scheduler (Fin 2) Unit Unit Unit) tr s ∧
      deletions tr = [1] ∧ overwritten tr = [] ∧
      ∀ t, Finished (log tr) t → t ∉ deletions tr → s.threadToBeDestroyed = some t := by
  have hp : (exec Scheduler.step anyStep []
      (start 0 fun _ => 0 : Scheduler (Fin 2) Unit Unit Unit)
      [.call (.fork 1), .return, .call (.p ()), .call .finish, .interrupt (), .dispatch]).map
        (fun r => (deletions r.1, overwritten r.1)) = some ([1], []) := by decide
  obtain ⟨⟨tr, s⟩, hexec, hvalues⟩ := Option.map_eq_some_iff.mp hp
  obtain ⟨hdeleted, hover⟩ := Prod.mk.inj hvalues
  have hrun := Run.of_exec .start hexec
  exact ⟨tr, s, hrun, hdeleted, hover, (destroyed_run hrun).2.2.2.2 hover⟩

/-- Two new threads finish, one after the other, before the main thread is woken: the first
one is never deleted. -/
theorem finished_thread_lost : ∃ tr s,
    Run Scheduler.step anyStep
      (start 0 fun _ => 0 : Scheduler (Fin 3) Unit Unit Unit) tr s ∧
      Finished (log tr) 1 ∧ 1 ∉ deletions tr ∧ s.threadToBeDestroyed ≠ some 1 := by
  have hp : (exec Scheduler.step anyStep []
      (start 0 fun _ => 0 : Scheduler (Fin 3) Unit Unit Unit)
      [.call (.fork 1), .return, .call (.fork 2), .return, .call (.p ()), .call .finish,
        .call .finish, .interrupt (), .dispatch]).map
        (fun r => decide (.called 1 .finish ∈ log r.1 ∧ 1 ∉ deletions r.1 ∧
          r.2.threadToBeDestroyed ≠ some 1)) = some true := by decide
  obtain ⟨⟨tr, s⟩, hexec, hvalues⟩ := Option.map_eq_some_iff.mp hp
  have hlost : .called 1 .finish ∈ log tr ∧ 1 ∉ deletions tr ∧ s.threadToBeDestroyed ≠ some 1 :=
    of_decide_eq_true hvalues
  exact ⟨tr, s, .of_exec .start hexec, hlost⟩

end Nachos.Threads
