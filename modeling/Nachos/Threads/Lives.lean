import Nachos.Threads.Effects

/-!
# The lives of threads

From its `Fork` to its `Finish` a thread is in exactly one place: it has the processor,
it is on the ready list, or it sleeps in the queue of one object. While the machine idles
nobody has the processor; the variable `currentThread` then still names the thread that
was the last to go to sleep.
-/

namespace Nachos.Threads

open Nachos.Lib Kernel

variable {T S L C : Type*}

/-- `Fork` has been called on the thread. -/
def Forked (log : List (Effect T S L C)) (t : T) : Prop := ∃ w, .called w (.fork t) ∈ log

/-- The thread has called `Finish`. -/
def Finished (log : List (Effect T S L C)) (t : T) : Prop := .called t .finish ∈ log

/-- In this queue once, and in no other one. -/
def Kernel.OnlyIn [DecidableEq T] [DecidableEq S] [DecidableEq L] [DecidableEq C]
    (k : Kernel T S L C) (t : T) (q : Queue S L C) : Prop :=
  ∀ q', (k.queue q').count t = if q' = q then 1 else 0

/-- The beginning and the end of a thread, by what has been called. -/
structure Lives (main : T) (log : List (Effect T S L C)) (k : Kernel T S L C) : Prop where
  unborn_iff : ∀ t, k.pc t = .unborn ↔ t ≠ main ∧ ¬ Forked log t
  finished_iff : ∀ t, k.pc t = .finished ↔ Finished log t

variable [DecidableEq T] [DecidableEq S] [DecidableEq L] [DecidableEq C]
  {k k' : Kernel T S L C} {log es : List (Effect T S L C)} {main t : T}

namespace Placed

variable (h : Placed k)

include h

/-- A thread that runs has been forked and goes on. -/
theorem pc_current (hidle : k.idle = false) :
    k.pc k.currentThread ≠ .unborn ∧ k.pc k.currentThread ≠ .finished := by
  have hfits := h.fits k.currentThread
  rw [h.status_current hidle] at hfits
  constructor
  · intro hpc
    cases hfits.unborn_iff.mpr hpc
  · intro hpc
    cases hfits.finished hpc

/-- A thread that goes on behind a step is one that did before, or a new one. -/
theorem unborn_iff (hs : Step k k' es) :
    k'.pc t = .unborn ↔ k.pc t = .unborn ∧ ¬ Forked es t := by
  by_cases ht : t ≠ k.currentThread ∨ k.idle = true
  · by_cases hforked : Forked es t
    · obtain ⟨w, hcalled⟩ := hforked
      obtain ⟨-, hcan, hk, -⟩ := hs.called hcalled
      have hne : t ≠ k.currentThread := ht.resolve_right (by simp [hcan.1])
      have hpc : k'.pc t = .outside := by
        rw [hk]
        exact (Function.update_of_ne hne ..).trans (Function.update_self ..)
      rw [hpc]
      exact iff_of_false nofun fun hn => hn.2 ⟨w, hcalled⟩
    · rcases hs.pc ht with heq | ⟨hcalled, -, -⟩
      · rw [heq]
        exact ⟨fun hpc => ⟨hpc, hforked⟩, And.left⟩
      · exact absurd ⟨_, hcalled⟩ hforked
  · push Not at ht
    obtain ⟨rfl, hidle⟩ := ht
    have hidle := Bool.eq_false_iff.mpr hidle
    refine iff_of_false ?_ fun hn => (h.pc_current hidle).1 hn.1
    intro hpc
    have hgoes := hs.goes
    rw [hpc] at hgoes
    cases hgoes with
    | stays hpc' _ => exact (h.pc_current hidle).1 hpc'

/-- Only a thread that runs finishes. -/
theorem finished_iff (hs : Step k k' es) :
    k'.pc t = .finished ↔ k.pc t = .finished ∨ Finished es t := by
  constructor
  · intro hpc
    by_cases ht : t ≠ k.currentThread ∨ k.idle = true
    · rcases hs.pc ht with heq | ⟨-, -, hout⟩
      · exact .inl (heq ▸ hpc)
      · rw [hout] at hpc
        cases hpc
    · push Not at ht
      obtain ⟨rfl, -⟩ := ht
      have hgoes := hs.goes
      rw [hpc] at hgoes
      cases hgoes with
      | finished hcalled => exact .inr hcalled
      | stays hpc' _ => exact .inl hpc'
  · rintro (hpc | hcalled)
    · have ht : t ≠ k.currentThread ∨ k.idle = true := by
        by_contra hcur
        push Not at hcur
        obtain ⟨rfl, hidle⟩ := hcur
        exact (h.pc_current (Bool.eq_false_iff.mpr hidle)).2 hpc
      rcases hs.pc ht with heq | ⟨-, hborn, -⟩
      · rw [heq, hpc]
      · rw [hpc] at hborn
        cases hborn
    · obtain ⟨rfl, -, rfl, -⟩ := hs.called hcalled
      exact (congrFun (sleep_pc _ _) _).trans (Function.update_self ..)

end Placed

theorem Lives.step (h : Lives main log k) (hplaced : Placed k) (hs : Step k k' es) :
    Lives main (log ++ es) k' where
  unborn_iff t := by
    rw [hplaced.unborn_iff hs, h.unborn_iff]
    simp only [Forked, List.mem_append, exists_or, not_or, and_assoc]
  finished_iff t := by
    rw [hplaced.finished_iff hs, h.finished_iff, Finished, Finished, Finished, List.mem_append]

omit [DecidableEq S] [DecidableEq L] [DecidableEq C] in
theorem Lives.boot (main : T) (initialValue : S → ℤ) :
    Lives main [] (Threads.boot main initialValue : Kernel T S L C) where
  unborn_iff t := by
    by_cases ht : t = main <;> simp [Threads.boot, Forked, ht]
  finished_iff t := by
    by_cases ht : t = main <;> simp [Threads.boot, Finished, ht]

/-! ## Runs -/

/-- **Every thread is somewhere**, whatever is called. -/
theorem placed_of_run {initialValue : S → ℤ} {tr : List (List (Effect T S L C))}
    (hrun : Run step anyStep (boot main initialValue) tr k) : Placed k := by
  refine hrun.invariant (I := fun _ k => Placed k) (.boot main initialValue) ?_
  intro tr k l k' es h _ hs
  exact h.step (.of_step hs)

theorem lives_of_run {initialValue : S → ℤ} {tr : List (List (Effect T S L C))}
    (hrun : Run step anyStep (boot main initialValue) tr k) : Lives main tr.flatten k := by
  refine hrun.invariant_with (I := fun tr k => Lives main tr.flatten k) placed_of_run
    (.boot main initialValue) ?_
  intro tr k l k' es hplaced h _ hs
  rw [List.flatten_append, List.flatten_singleton]
  exact h.step hplaced (.of_step hs)

/-- Who goes to sleep in a queue, in this order. -/
def joined (q : Queue S L C) (log : List (Effect T S L C)) : List T :=
  log.filterMap (Effect.joins q)

/-- Who is woken out of it. -/
def left (q : Queue S L C) (log : List (Effect T S L C)) : List T :=
  log.filterMap (Effect.leaves q)

/-- **First in, first out**: who has gone to sleep in a queue has been woken in this order,
or is still there. -/
theorem joined_eq {initialValue : S → ℤ} {tr : List (List (Effect T S L C))} {q : Queue S L C}
    (hq : q ≠ .readyList) (hrun : Run step anyStep (boot main initialValue) tr k) :
    joined q tr.flatten = left q tr.flatten ++ k.queue q := by
  refine hrun.invariant
    (I := fun tr k => joined q tr.flatten = left q tr.flatten ++ k.queue q) ?_ ?_
  · cases q <;> rfl
  · intro tr k label k' es h _ hs
    have hflow := (Step.of_step hs).flow hq
    have htotal : Flow [] (joined q tr.flatten) (left q tr.flatten) (k.queue q) := h
    rw [List.flatten_append, List.flatten_singleton, joined, left, List.filterMap_append,
      List.filterMap_append]
    exact htotal.trans hflow

/-- **No thread is lost or duplicated.** A thread that has been forked and has not finished
and does not have the processor is on the ready list or in the queue of one object, once;
the thread that has the processor and threads that have finished are in none. -/
theorem never_lost {initialValue : S → ℤ} {tr : List (List (Effect T S L C))}
    (hrun : Run step anyStep (boot main initialValue) tr k) (t : T) :
    (Forked tr.flatten t → ¬ Finished tr.flatten t → t ≠ k.currentThread ∨ k.idle = true →
      k.status t = .ready ∧ k.OnlyIn t .readyList ∨
        k.status t = .blocked ∧ ∃ q, q ≠ .readyList ∧ k.OnlyIn t q) ∧
    (k.idle = false → t = k.currentThread → ∀ q, t ∉ k.queue q) ∧
    (Finished tr.flatten t → ∀ q, t ∉ k.queue q) := by
  have hplaced := placed_of_run hrun
  have hlives := lives_of_run hrun
  have honly : ∀ {q}, k.loc t = some q → k.OnlyIn t q := by
    intro q hloc q'
    rw [hplaced.located t q', hloc]
    simp only [Option.some.injEq, eq_comm]
  refine ⟨?_, ?_, ?_⟩
  · intro hforked hfin hother
    have hborn : k.pc t ≠ .unborn := fun hpc => ((hlives.unborn_iff t).mp hpc).2 hforked
    have hgoing : k.pc t ≠ .finished := fun hpc => hfin ((hlives.finished_iff t).mp hpc)
    cases hstatus : k.status t with
    | justCreated => exact absurd ((hplaced.fits t).unborn_iff.mp hstatus) hborn
    | running =>
        obtain ⟨hcur, hidle⟩ := (hplaced.running_iff t).mp hstatus
        rcases hother with hne | hne
        · exact absurd hcur hne
        · rw [hidle] at hne
          cases hne
    | ready =>
        refine .inl ⟨rfl, honly ?_⟩
        rw [Kernel.loc, hstatus]
        rfl
    | blocked =>
        obtain ⟨q, hq⟩ := ((hplaced.fits t).asleep hstatus).resolve_left hgoing
        refine .inr ⟨rfl, q, ?_, honly ?_⟩
        · rintro rfl
          cases hpc : k.pc t <;> simp [hpc, Pc.queue] at hq
        · rw [Kernel.loc, hstatus]
          exact hq
  · rintro hidle rfl q
    exact hplaced.located.not_mem (hplaced.loc_current hidle)
  · intro hfin q
    have hpc := (hlives.finished_iff t).mpr hfin
    refine hplaced.located.not_mem ?_
    rw [Kernel.loc, (hplaced.fits t).finished hpc, hpc]
    rfl

/-- A new thread gets the processor and waits for a semaphore. -/
theorem never_lost_sample : ∃ tr k,
    Run step anyStep (boot 0 fun _ => 0 : Kernel (Fin 2) Unit Unit Unit) tr k ∧
      k.currentThread = 0 ∧ (k.status 1 = .ready ∧ k.OnlyIn 1 .readyList ∨
        k.status 1 = .blocked ∧ ∃ q, q ≠ .readyList ∧ k.OnlyIn 1 q) := by
  have hp : (exec step anyStep [] (boot 0 fun _ => 0 : Kernel (Fin 2) Unit Unit Unit)
      [.call (.fork 1), .return, .call .yield, .call (.p ()), .return]).map
        (fun r => (r.1.flatten, r.2.currentThread)) =
      some ([.called 0 (.fork 1), .returned 0 (.fork 1) true, .called 0 .yield,
        .called 1 (.p ()), .appended 1 (.semaphore ()), .returned 0 .yield true], 0) := by decide
  obtain ⟨⟨tr, k⟩, hexec, hvalues⟩ := Option.map_eq_some_iff.mp hp
  obtain ⟨hlog, hcur⟩ := Prod.mk.inj hvalues
  have hlog : tr.flatten = _ := hlog
  have hcur : k.currentThread = 0 := hcur
  have hrun := Run.of_exec .start hexec
  refine ⟨tr, k, hrun, hcur, (never_lost hrun 1).1 ?_ ?_ (.inl ?_)⟩
  · rw [hlog]
    exact ⟨0, by decide⟩
  · rw [hlog]
    unfold Finished
    decide
  · rw [hcur]
    decide

/-- While the machine idles, `currentThread` is asleep in a queue. -/
theorem current_asleep : ∃ tr k,
    Run step anyStep (boot () fun _ => 0 : Kernel Unit Unit Unit Unit) tr k ∧
      ¬ ∀ q, k.currentThread ∉ k.queue q := by
  have hp : (exec step anyStep [] (boot () fun _ => 0 : Kernel Unit Unit Unit Unit)
      [.call (.p ())]).map (fun r => r.2.queue (.semaphore ())) = some [()] := by decide
  obtain ⟨⟨tr, k⟩, hexec, hqueue⟩ := Option.map_eq_some_iff.mp hp
  refine ⟨tr, k, .of_exec .start hexec, fun hnot => hnot (.semaphore ()) ?_⟩
  have hqueue : k.queue (.semaphore ()) = [()] := hqueue
  rw [hqueue]
  exact List.mem_singleton_self _

end Nachos.Threads
