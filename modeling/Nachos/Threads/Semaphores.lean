import Mathlib.Data.List.Perm.Subperm
import Nachos.Threads.Lives

/-!
# Semaphores

`V` wakes a thread and increments the value at once. The thread that wakes up tests the
value again, and may find that another thread has been faster. What is left for those
that still sleep is bounded by the number of threads that are on their way to this test.

The value is an `int`, and so all this holds as long as it does not get too large for one.
-/

namespace Nachos.Threads

open Nachos.Lib Kernel

variable {T S L C : Type*}

/-- `value++` of the semaphore: the end of a `V`. -/
def Effect.ups [DecidableEq S] (s : S) : Effect T S L C → Bool
  | .incremented s' => s' = s
  | _ => false

/-- `value--` of the semaphore: the end of a `P`. -/
def Effect.downs [DecidableEq S] (s : S) : Effect T S L C → Bool
  | .decremented _ s' => s' = s
  | _ => false

/-- The threads that are ready or have the processor. -/
def Kernel.active (k : Kernel T S L C) : List T :=
  k.readyList ++ if k.idle then [] else [k.currentThread]

variable [DecidableEq T] [DecidableEq S] [DecidableEq L] [DecidableEq C]
  {k k' : Kernel T S L C} {es : List (Effect T S L C)} {s : S} {t : T}

/-- The threads that a `V` on the semaphore has made ready and that have not tested its
value again. -/
def Kernel.woken (k : Kernel T S L C) (s : S) : List T :=
  k.active.filter fun t => k.pc t = .inP s

/-- A thread that is to test the value again does so in the next step of its own. -/
theorem Step.p_of_current (hs : Step k k' es) (hidle : k.idle = false)
    (hpc : k.pc k.currentThread = .inP s) : k' = (k.p s).1 ∧ es = (k.p s).2 := by
  have hresume := hs.resumed hidle (by rw [hpc]; nofun)
  simp only [Kernel.resume, hpc] at hresume
  rw [Option.some.inj hresume]
  exact ⟨rfl, rfl⟩

namespace Placed

variable (h : Placed k)

include h

theorem active_nodup : k.active.Nodup := by
  have hready : k.readyList.Nodup := h.located.nodup .readyList
  cases hidle : k.idle with
  | true => simpa [Kernel.active, hidle] using hready
  | false =>
      have hcur : k.currentThread ∉ k.readyList :=
        (h.located.not_mem (h.loc_current hidle) : _ ∉ k.queue .readyList)
      simp only [Kernel.active, hidle, Bool.false_eq_true, if_false]
      exact hready.append (List.nodup_singleton _) (by simpa using hcur)

/-- A thread behind `Sleep` in `P` sleeps, or has been woken. -/
theorem mem_woken : t ∈ k.woken s ↔ k.pc t = .inP s ∧ t ∉ (k.semaphores s).queue := by
  rw [Kernel.woken, List.mem_filter, decide_eq_true_iff, and_comm]
  refine and_congr_right fun hpc => ?_
  have hqueue : t ∈ (k.semaphores s).queue ↔ k.status t = .blocked := by
    rw [show (k.semaphores s).queue = k.queue (.semaphore s) from rfl, h.located.mem_iff,
      Kernel.loc, hpc]
    cases k.status t <;> simp [Pc.listed, Pc.queue]
  have hready : t ∈ k.readyList ↔ k.status t = .ready := by
    rw [show k.readyList = k.queue .readyList from rfl, h.located.mem_iff, Kernel.loc, hpc]
    cases k.status t <;> simp [Pc.listed, Pc.queue]
  have hborn : k.status t ≠ .justCreated := by
    rw [Ne, (h.fits t).unborn_iff, hpc]
    simp
  have hrunning := h.running_iff t
  rw [Kernel.active, List.mem_append, hready, hqueue]
  cases hstatus : k.status t <;> cases hidle : k.idle <;> simp_all

theorem woken_nodup : (k.woken s).Nodup := h.active_nodup.filter _

/-- Who is to test the value again still is after a step, unless it has done so. -/
theorem woken_step (hs : Step k k' es) (hqueue : t ∉ (k'.semaphores s).queue)
    (ht : t ∈ k.woken s) :
    t ∈ k'.woken s ∨ t = k.currentThread ∧ k.idle = false ∧ k' = (k.p s).1 := by
  obtain ⟨hpc, -⟩ := h.mem_woken.mp ht
  by_cases hcur : t ≠ k.currentThread ∨ k.idle = true
  · refine .inl ((h.step hs).mem_woken.mpr ⟨?_, hqueue⟩)
    rcases hs.pc hcur with heq | ⟨-, hborn, -⟩
    · rw [heq, hpc]
    · rw [hpc] at hborn
      cases hborn
  · push Not at hcur
    obtain ⟨rfl, hidle⟩ := hcur
    have hidle := Bool.eq_false_iff.mpr hidle
    exact .inr ⟨rfl, hidle, (hs.p_of_current hidle hpc).1⟩

/-- Who is woken out of the queue is to test the value again. -/
theorem mem_woken_of_woken (hs : Step k k' es) (hmem : t ∈ k.queue (.semaphore s))
    (hqueue : t ∉ (k'.semaphores s).queue) : t ∈ k'.woken s := by
  obtain ⟨hstatus, hq⟩ := h.of_mem hmem nofun
  have hpc : k.pc t = .inP s := by
    cases hpc : k.pc t <;> simp_all [Pc.queue]
  have hcur : t ≠ k.currentThread ∨ k.idle = true := by
    by_contra hn
    push Not at hn
    have hrunning := (h.running_iff t).mpr ⟨hn.1, Bool.eq_false_iff.mpr hn.2⟩
    rw [hstatus] at hrunning
    cases hrunning
  refine (h.step hs).mem_woken.mpr ⟨?_, hqueue⟩
  rcases hs.pc hcur with heq | ⟨-, hborn, -⟩
  · rw [heq, hpc]
  · rw [hpc] at hborn
    cases hborn

end Placed

/-! ## Values -/

omit [DecidableEq T] in
theorem countP_about {f : Effect T S L C → Bool}
    (hf : ∀ e : Effect T S L C, e.about (.semaphore s) = false → f e = false)
    (es : List (Effect T S L C)) :
    es.countP f = (es.filter (Effect.about (.semaphore s))).countP f := by
  rw [List.countP_filter]
  refine List.countP_congr fun e _ => ?_
  cases he : e.about (.semaphore s) with
  | true => simp
  | false => simp [hf e he]

omit [DecidableEq T] in
theorem ups_of_about (e : Effect T S L C) (h : e.about (.semaphore s) = false) :
    e.ups s = false := by
  cases e <;> simp_all [Effect.about, Effect.ups]

omit [DecidableEq T] in
theorem downs_of_about (e : Effect T S L C) (h : e.about (.semaphore s) = false) :
    e.downs s = false := by
  cases e <;> simp_all [Effect.about, Effect.downs]

/-- What `V` has added to the initial value, less what `P` has taken. -/
def units (initial : ℤ) (s : S) (log : List (Effect T S L C)) : ℤ :=
  initial + log.countP (Effect.ups s) - log.countP (Effect.downs s)

omit [DecidableEq T] in
theorem units_append (initial : ℤ) (s : S) (log es : List (Effect T S L C)) :
    units initial s (log ++ es) = units initial s log +
      (es.filter (Effect.about (.semaphore s))).countP (Effect.ups s) -
      (es.filter (Effect.about (.semaphore s))).countP (Effect.downs s) := by
  simp only [units, List.countP_append]
  rw [countP_about ups_of_about es, countP_about downs_of_about es]
  omega

omit [DecidableEq L] [DecidableEq C] in
/-- A test of the value is seen. -/
theorem p_semaphores (k : Kernel T S L C) (s : S) (hnonneg : 0 ≤ (k.semaphores s).value) :
    ((k.p s).1.semaphores s).value < (k.semaphores s).value ∨
      ((k.p s).1.semaphores s).value = (k.semaphores s).value ∧
        ((k.p s).1.semaphores s).queue ≠ (k.semaphores s).queue := by
  by_cases hzero : (k.semaphores s).value = 0
  · right
    rw [p_zero k hzero, sleep_semaphores, setSemaphore_self]
    exact ⟨rfl, by simp⟩
  · left
    rw [p_pos k hzero, leave_semaphores, setSemaphore_self]
    show decrement (k.semaphores s).value < _
    rw [decrement_of_nonneg hnonneg]
    omega

/-- A step that is no test of the value leaves everybody who is to test it where it is. -/
theorem woken_subset (hplaced : Placed k) (hs : Step k k' es)
    (hqueue : ∀ t, t ∈ (k'.semaphores s).queue → t ∈ (k.semaphores s).queue)
    (hnot : k' ≠ (k.p s).1) : k.woken s ⊆ k'.woken s := by
  intro t ht
  refine (hplaced.woken_step hs (fun hmem => ?_) ht).resolve_right fun hn => hnot hn.2.2
  exact (hplaced.mem_woken.mp ht).2 (hqueue t hmem)

/-- **No wakeup is missed.** -/
theorem claimed_step (hplaced : Placed k) (hs : Step k k' es)
    (hnonneg : 0 ≤ (k.semaphores s).value)
    (hclaimed : (k.semaphores s).queue ≠ [] → (k.semaphores s).value ≤ (k.woken s).length)
    (hsmall : .incremented s ∈ es → (k.semaphores s).value < 2147483647)
    (hne : (k'.semaphores s).queue ≠ []) : (k'.semaphores s).value ≤ (k'.woken s).length := by
  have hp := p_semaphores k s hnonneg
  have hchange := hs.semaphore s
  have hwoken := hplaced.woken_nodup (s := s)
  have hsmall : .incremented s ∈ es.filter (Effect.about (.semaphore s)) →
      (k.semaphores s).value < 2147483647 := fun hmem => hsmall (List.mem_filter.mp hmem).1
  revert hsmall
  revert hchange
  generalize hsem : k'.semaphores s = sem at hne
  generalize es.filter _ = about
  rintro (_ | hpos | hzero | hnil | @⟨waker, t, rest, hcons⟩) hsmall
  case kept =>
    have hnot : k' ≠ (k.p s).1 := by
      rintro rfl
      rw [hsem] at hp
      rcases hp with hlt | ⟨-, hqueue⟩
      · omega
      · exact hqueue rfl
    have hsub := woken_subset hplaced hs (s := s) (fun t ht => by rwa [hsem] at ht) hnot
    have hlength := (List.subperm_of_subset hwoken hsub).length_le
    have hclaimed := hclaimed hne
    omega
  case down =>
    have hsub : k.woken s ⊆ k.currentThread :: k'.woken s := by
      intro t ht
      have hout : t ∉ (k'.semaphores s).queue := by
        rw [hsem]
        exact (hplaced.mem_woken.mp ht).2
      rcases hplaced.woken_step hs hout ht with ht | ⟨rfl, -, -⟩
      · exact List.mem_cons_of_mem _ ht
      · exact List.mem_cons_self
    have hlength := (List.subperm_of_subset hwoken hsub).length_le
    have hclaimed := hclaimed hne
    rw [List.length_cons] at hlength
    show decrement (k.semaphores s).value ≤ _
    rw [decrement_of_nonneg hnonneg]
    omega
  case sleep =>
    show (k.semaphores s).value ≤ _
    omega
  case up => exact absurd rfl hne
  case wake =>
    have hincrement := increment_of_lt (hsmall (by simp))
    have hnot : k' ≠ (k.p s).1 := by
      rintro rfl
      rw [hsem] at hp
      rcases hp with hlt | ⟨heq, -⟩ <;> simp only at * <;> omega
    have hmem : t ∈ k.queue (.semaphore s) := by
      rw [show k.queue (.semaphore s) = _ from hcons]
      exact List.mem_cons_self
    have hnew := hplaced.mem_woken_of_woken hs hmem (by
      have hnodup := hplaced.located.nodup (.semaphore s)
      rw [show k.queue (.semaphore s) = _ from hcons, List.nodup_cons] at hnodup
      rw [hsem]
      exact hnodup.1)
    have hsub : t :: k.woken s ⊆ k'.woken s := by
      refine List.cons_subset.mpr ⟨hnew, woken_subset hplaced hs (fun u hu => ?_) hnot⟩
      rw [hsem] at hu
      rw [hcons]
      exact List.mem_cons_of_mem _ hu
    have hnodup : (t :: k.woken s).Nodup :=
      List.nodup_cons.mpr ⟨fun ht => (hplaced.mem_woken.mp ht).2 hmem, hwoken⟩
    have hlength := (List.subperm_of_subset hnodup hsub).length_le
    have hclaimed := hclaimed (by rw [hcons]; exact List.cons_ne_nil _ _)
    rw [List.length_cons] at hlength
    show increment (k.semaphores s).value ≤ _
    omega

/-- The units of a semaphore. -/
structure Units (initial : ℤ) (log : List (Effect T S L C)) (k : Kernel T S L C) (s : S) :
    Prop where
  nonneg : 0 ≤ (k.semaphores s).value
  total : (k.semaphores s).value = units initial s log
  claimed : (k.semaphores s).queue ≠ [] → (k.semaphores s).value ≤ (k.woken s).length

namespace Units

variable {initial : ℤ} {log : List (Effect T S L C)}

/-- `V` is not called at the greatest value. -/
theorem small (h : Units initial log k s) (hs : Step k k' es)
    (hbound : units initial s (log ++ es) < 2147483648) (hmem : .incremented s ∈ es) :
    (k.semaphores s).value < 2147483647 := by
  have htotal := h.total
  have hchange := hs.semaphore s
  have hmem : .incremented s ∈ es.filter (Effect.about (.semaphore s)) :=
    List.mem_filter.mpr ⟨hmem, by simp [Effect.about]⟩
  rw [units_append] at hbound
  generalize k'.semaphores s = sem at hchange
  generalize es.filter _ = about at hchange hmem hbound
  cases hchange with
  | kept | down _ | sleep _ => simp at hmem
  | up _ | wake _ =>
      simp [Effect.ups, Effect.downs] at hbound
      omega

theorem value_step (h : Units initial log k s) (hs : Step k k' es)
    (hsmall : .incremented s ∈ es → (k.semaphores s).value < 2147483647) :
    0 ≤ (k'.semaphores s).value ∧ (k'.semaphores s).value = units initial s (log ++ es) := by
  have hnonneg := h.nonneg
  have htotal := h.total
  have hchange := hs.semaphore s
  have hsmall : .incremented s ∈ es.filter (Effect.about (.semaphore s)) →
      (k.semaphores s).value < 2147483647 := fun hmem => hsmall (List.mem_filter.mp hmem).1
  rw [units_append]
  generalize k'.semaphores s = sem at hchange
  generalize es.filter _ = about at hchange hsmall
  cases hchange with
  | kept | sleep _ => simpa [Effect.ups, Effect.downs] using ⟨hnonneg, htotal⟩
  | down _ =>
      rw [decrement_of_nonneg hnonneg]
      simp [Effect.ups, Effect.downs]
      omega
  | up _ | wake _ =>
      rw [increment_of_lt (hsmall (by simp))]
      simp [Effect.ups, Effect.downs]
      omega

theorem step (h : Units initial log k s) (hplaced : Placed k) (hs : Step k k' es)
    (hbound : units initial s (log ++ es) < 2147483648) : Units initial (log ++ es) k' s :=
  have hsmall := h.small hs hbound
  ⟨(h.value_step hs hsmall).1, (h.value_step hs hsmall).2,
    claimed_step hplaced hs h.nonneg h.claimed hsmall⟩

end Units

variable {main : T} {initialValue : S → ℤ} {tr : List (List (Effect T S L C))}

/-- **Semaphores are safe and miss no wakeup**, if the units have always been an `int`. The value
is what the semaphore began with and what `V` has added less what `P` has taken, and is never
negative; as long as somebody sleeps it is at most the number of threads that have been woken
and are to test it again. -/
theorem semaphore_safety (hrun : Run step anyStep (boot main initialValue) tr k)
    (hinitial : 0 ≤ initialValue s)
    (hbound : ∀ tr', tr' <+: tr → units (initialValue s) s tr'.flatten < 2147483648) :
    0 ≤ (k.semaphores s).value ∧ (k.semaphores s).value = units (initialValue s) s tr.flatten ∧
    ((k.semaphores s).queue ≠ [] → (k.semaphores s).value ≤ (k.woken s).length) := by
  have hunits : Units (initialValue s) tr.flatten k s := by
    refine hrun.invariant_with (I := fun tr k =>
      (∀ tr', tr' <+: tr → units (initialValue s) s tr'.flatten < 2147483648) →
        Units (initialValue s) tr.flatten k s)
      placed_of_run (fun _ => ⟨hinitial, ?_, fun hne => absurd rfl hne⟩) ?_ hbound
    · simp [units, boot]
    · intro tr k label k' es hplaced h _ hs hbound
      have hlast := hbound (tr ++ [es]) (List.prefix_refl _)
      rw [List.flatten_append, List.flatten_singleton] at hlast ⊢
      exact (h fun tr' htr' => hbound tr' (htr'.trans (List.prefix_append ..))).step hplaced
        (.of_step hs) hlast
  exact ⟨hunits.nonneg, hunits.total, hunits.claimed⟩

/-- Another thread takes the unit before the one that has been woken for it. -/
theorem semaphore_safety_sample : ∃ tr k,
    Run step anyStep (boot 0 fun _ => 0 : Kernel (Fin 2) Unit Unit Unit) tr k ∧
      (k.woken ()).length = 1 ∧ (k.semaphores ()).value = units 0 () tr.flatten := by
  have hp : (exec step anyStep [] (boot 0 fun _ => 0 : Kernel (Fin 2) Unit Unit Unit)
      [.call (.fork 1), .return, .call (.p ()), .call (.v ()), .return, .call (.p ())]).map
        (fun r => ((r.2.woken ()).length,
          r.1.inits.all fun tr' => units 0 () tr'.flatten < 2147483648)) = some (1, true) := by
    decide
  obtain ⟨⟨tr, k⟩, hexec, hstate⟩ := Option.map_eq_some_iff.mp hp
  obtain ⟨hwoken, hbound⟩ := Prod.mk.inj hstate
  have hrun := Run.of_exec .start hexec
  refine ⟨tr, k, hrun, hwoken, (semaphore_safety hrun (s := ()) (Int.le_refl 0) ?_).2.1⟩
  intro tr' htr'
  exact of_decide_eq_true (List.all_eq_true.mp hbound tr' ((List.mem_inits ..).mpr htr'))

/-- A `V` too many: the value wraps. -/
theorem semaphore_wraps : ∃ tr k,
    Run step anyStep (boot 0 fun _ => 2147483647 : Kernel (Fin 1) Unit Unit Unit) tr k ∧
      (k.semaphores ()).value < 0 ∧
      (k.semaphores ()).value ≠ units 2147483647 () tr.flatten := by
  have hp : (exec step anyStep [] (boot 0 fun _ => 2147483647 : Kernel (Fin 1) Unit Unit Unit)
      [.call (.v ())]).map (fun r => ((r.2.semaphores ()).value, units 2147483647 () r.1.flatten)) =
        some (-2147483648, 2147483648) := by decide
  obtain ⟨⟨tr, k⟩, hexec, hstate⟩ := Option.map_eq_some_iff.mp hp
  obtain ⟨hvalue, hunits⟩ := Prod.mk.inj hstate
  exact ⟨tr, k, Run.of_exec .start hexec, by rw [hvalue]; decide, by rw [hvalue, hunits]; decide⟩

end Nachos.Threads
