import Nachos.Threads.Destruction

/-!
# Whose turn it is

`ReadyToRun` appends to the ready list, and what `Run` is called with is its head. So threads
get the processor in the order in which they have become ready, and nobody is passed over. A
turn begins when a step goes through `Run`.
-/

namespace Nachos.Threads

open Nachos.Lib Kernel

variable {T S L C : Type*}

section Turns

variable [DecidableEq T]

/-- Who gets the processor in a step from `k` to `k'`. -/
def Kernel.turn (k k' : Kernel T S L C) : List T := if k.Ran k' then [k'.currentThread] else []

/-- What a step does to the ready list. -/
structure Kernel.InTurn (k k' : Kernel T S L C) : Prop where
  /-- Only the head may go, and it goes to the processor. -/
  ready : k.readyList <+: k.turn k' ++ k'.readyList
  idle : k.idle = false → k'.idle = true → k'.readyList = []

variable {k k' : Kernel T S L C} {t : T} {rest : List T}

theorem turn_same (hcur : k'.currentThread = k.currentThread) (hidle : k'.idle = k.idle) :
    k.turn k' = [] := by
  refine if_neg ?_
  rintro ⟨hawake, hne | hasleep⟩
  · exact hne hcur
  · rw [hidle, hasleep] at hawake
    cases hawake

/-- Another thread is at the head, or nobody has had the processor. -/
theorem turn_run (hother : k.idle = true ∨ k.currentThread ≠ t) :
    k.turn (k'.run t) = [t] :=
  if_pos ⟨rfl, hother.symm.imp_left Ne.symm⟩

namespace Kernel.InTurn

/-- Nobody gets the processor. -/
theorem same (hcur : k'.currentThread = k.currentThread) (hidle : k'.idle = k.idle)
    (hready : k.readyList <+: k'.readyList) : k.InTurn k' where
  ready := by
    rw [turn_same hcur hidle]
    exact hready
  idle hawake hasleep := by
    rw [hidle, hawake] at hasleep
    cases hasleep

/-- The loop of `Sleep`, at whose beginning the state is `k'`. -/
theorem dispatch (hready : k.readyList <+: k'.readyList)
    (hother : k.idle = true ∨ k.currentThread ∉ k'.readyList) : k.InTurn k'.dispatch := by
  unfold Kernel.dispatch
  split
  · rename_i hnil
    rw [hnil] at hready
    exact ⟨by rw [List.prefix_nil.mp hready]; exact List.nil_prefix, fun _ _ => hnil⟩
  · rename_i t rest hcons
    rw [hcons] at hready hother
    constructor
    case ready =>
      rw [turn_run (hother.imp_right fun hnot => List.ne_of_not_mem_cons hnot)]
      exact hready
    case idle =>
      intro _ hasleep
      cases hasleep

theorem sleep {pc : Pc T S L C} (hready : k.readyList <+: k'.readyList)
    (hnot : k.currentThread ∉ k'.readyList) : k.InTurn (k'.sleep pc) :=
  dispatch hready (.inr hnot)

theorem yield (hready : k'.readyList = k.readyList) (hcur : k'.currentThread = k.currentThread)
    (hidle : k'.idle = k.idle) (hnot : k.currentThread ∉ k.readyList) : k.InTurn k'.yield := by
  unfold Kernel.yield
  split
  · exact .same hcur hidle (hready ▸ List.prefix_rfl)
  · rename_i t rest hcons
    have hk : k.readyList = t :: rest := hready ▸ hcons
    rw [hk] at hnot
    constructor
    case ready =>
      rw [turn_run (.inr (List.ne_of_not_mem_cons hnot)), hk]
      exact List.prefix_append (t :: rest) _
    case idle =>
      intro _ hasleep
      cases hasleep

end Kernel.InTurn

end Turns

/-! ## What a step does to the ready list -/

namespace Kernel.InTurn

variable [DecidableEq T] [DecidableEq S] [DecidableEq L] [DecidableEq C]
  {k k' : Kernel T S L C}

theorem not_ready (h : Placed k) (hidle : k.idle = false) : k.currentThread ∉ k.readyList :=
  show _ ∉ k.queue .readyList from h.located.not_mem (h.loc_current hidle)

omit [DecidableEq L] [DecidableEq C] in
theorem v_ready (k : Kernel T S L C) (waker : Option T) (s : S) :
    k.readyList <+: (k.v waker s).1.readyList := by
  simp only [v]
  split
  · exact List.prefix_rfl
  · exact List.prefix_append ..

omit [DecidableEq S] [DecidableEq C] in
theorem release_ready (k : Kernel T S L C) (l : L) :
    k.readyList <+: (k.release l).1.readyList := by
  simp only [release]
  split
  · split
    · exact List.prefix_append ..
    · exact List.prefix_rfl
  · exact List.prefix_rfl

omit [DecidableEq S] in
theorem signal_ready (k : Kernel T S L C) (c : C) (l : Option L) :
    k.readyList <+: (k.signal c l).1.readyList := by
  simp only [signal]
  split
  · exact List.prefix_rfl
  · split
    · exact List.prefix_rfl
    · exact List.prefix_append ..

theorem p (h : Placed k) (hidle : k.idle = false) (s : S) : k.InTurn (k.p s).1 := by
  have hnot := not_ready h hidle
  by_cases hzero : (k.semaphores s).value = 0
  · rw [p_zero k hzero]
    exact sleep List.prefix_rfl hnot
  · rw [p_pos k hzero]
    exact same rfl rfl List.prefix_rfl

theorem wait (h : Placed k) (hidle : k.idle = false) (c : C) (l : Option L) :
    k.InTurn (k.wait c l).1 := by
  by_cases hwaitable : k.Waitable c l
  · cases l with
    | none => exact absurd rfl hwaitable.1
    | some l =>
        rw [wait_accepted k hwaitable]
        obtain ⟨hcur, hidle', -⟩ := release_kept k l
        -- whoever gets the lock is ready before the thread sleeps
        have hnot := not_ready (h.release l) (hidle'.trans hidle)
        rw [hcur] at hnot
        exact sleep (release_ready k l) hnot
  · rw [wait_refused k hwaitable]
    exact same rfl rfl List.prefix_rfl

theorem call (h : Placed k) {op : Op T S L C} (hcan : k.CanCall op) : k.InTurn (k.call op).1 := by
  have hidle := hcan.1
  have hnot := not_ready h hidle
  cases op with
  | p s => exact p h hidle s
  | v s => exact same (v_kept k s _).1 (v_kept k s _).2.1 (v_ready k _ s)
  | acquire l =>
      cases heq : (k.acquire l).2 with
      | true =>
          rw [call_acquire_owned heq]
          exact same rfl rfl List.prefix_rfl
      | false =>
          rw [call_acquire_sleep heq]
          exact sleep List.prefix_rfl hnot
  | release l => exact same (release_kept k l).1 (release_kept k l).2.1 (release_ready k l)
  | wait c l => exact wait h hidle c l
  | signal c l => exact same (signal_kept k c l).1 (signal_kept k c l).2.1 (signal_ready k c l)
  | broadcast c l => exact same rfl rfl List.prefix_rfl
  | fork t => exact same rfl rfl (List.prefix_append ..)
  | yield => exact yield rfl rfl rfl hnot
  | finish => exact sleep List.prefix_rfl hnot

/-- **One step.** -/
theorem of_step (h : Placed k) {es : List (Effect T S L C)} (hs : Step k k' es) :
    k.InTurn k' := by
  cases hs with
  | call hcan => exact call h hcan
  | resumeP hidle _ => exact p h hidle _
  | resumeAcquire _ _ | resumeReacquire _ _ | resumeWait _ _ _ | loopEnd _ _ _ | «return» _ _ =>
      exact same rfl rfl List.prefix_rfl
  | resumeWaitSleep hidle _ _ =>
      have hnot := not_ready h hidle
      exact sleep List.prefix_rfl hnot
  | loopSignal _ _ _ =>
      exact same (signal_kept k _ _).1 (signal_kept k _ _).2.1 (signal_ready k _ _)
  | preempt hidle _ => exact yield rfl rfl rfl (not_ready h hidle)
  | interrupt _ => exact same (v_kept k _ none).1 (v_kept k _ none).2.1 (v_ready k none _)
  | dispatch hidle => exact dispatch List.prefix_rfl (.inl hidle)

end Kernel.InTurn

/-! ## Runs -/

section Runs

variable [DecidableEq T] [DecidableEq S] [DecidableEq L] [DecidableEq C]

/-- A step, and whose turn begins with it. -/
def turnStep (k : Kernel T S L C) (l : Label T S L C) : Option (Kernel T S L C × List T) :=
  (step k l).map fun r => (r.1, k.turn r.1)

/-- The thread gives up the processor, or there is none that has it. -/
def Label.GivesUp : Label T S L C → Prop
  | .preempt | .dispatch | .call .yield | .call .finish => True
  | _ => False

variable {k k' : Kernel T S L C} {l : Label T S L C} {turn : List T} {main : T}
  {initialValue : S → ℤ} {tr : List (List (Effect T S L C))} {turns : List (List T)}

theorem step_of_turnStep (hs : turnStep k l = some (k', turn)) :
    (∃ es, step k l = some (k', es)) ∧ turn = k.turn k' := by
  obtain ⟨⟨k₁, es⟩, hstep, heq⟩ := Option.map_eq_some_iff.mp hs
  obtain ⟨rfl, rfl⟩ := Prod.mk.inj heq
  exact ⟨⟨es, hstep⟩, rfl⟩

/-- Who is ready is waiting for a turn: the list is a part of the turns to come. -/
theorem ready_before (h : Placed k) (hturns : Run turnStep anyStep k turns k') :
    Placed k' ∧ k.readyList <+: turns.flatten ++ k'.readyList := by
  refine hturns.invariant (I := fun turns k' =>
    Placed k' ∧ k.readyList <+: turns.flatten ++ k'.readyList) ⟨h, List.prefix_rfl⟩ ?_
  rintro turns k₁ l k₂ turn ⟨hplaced, hbefore⟩ _ hs
  obtain ⟨⟨es, hstep⟩, rfl⟩ := step_of_turnStep hs
  have hstep := Step.of_step hstep
  refine ⟨hplaced.step hstep, hbefore.trans ?_⟩
  rw [List.flatten_append, List.flatten_singleton, List.append_assoc]
  exact (List.prefix_append_right_inj _).mpr (InTurn.of_step hplaced hstep).ready

/-- Who gives up the processor gives it to the head of the list. -/
theorem gives_up_turn (h : Placed k) (hgives : l.GivesUp) (hs : turnStep k l = some (k', turn)) :
    turn = k.readyList.take 1 := by
  obtain ⟨⟨es, hstep⟩, rfl⟩ := step_of_turnStep hs
  have hready := (InTurn.of_step h (Step.of_step hstep)).ready
  have hhead : k.Ran k' ↔ k.readyList ≠ [] := by
    cases l with
    | preempt =>
        simp only [step] at hstep
        split at hstep
        · rename_i hopen
          obtain ⟨rfl, -⟩ := Prod.mk.inj (Option.some.inj hstep)
          exact ran_yield k hopen.1 (InTurn.not_ready h hopen.1)
        · cases hstep
    | dispatch =>
        simp only [step] at hstep
        split at hstep
        · rename_i hidle
          obtain ⟨rfl, -⟩ := Prod.mk.inj (Option.some.inj hstep)
          exact ran_dispatch k hidle
        · cases hstep
    | call op =>
        simp only [step] at hstep
        split at hstep
        · rename_i hcan
          obtain ⟨rfl, -⟩ := Prod.mk.inj (Option.some.inj hstep)
          have hnot := InTurn.not_ready h hcan.1
          cases op with
          | yield => exact ran_yield (k.leave .yield true) hcan.1 hnot
          | finish => exact ran_sleep k .finished hnot
          | p _ | v _ | acquire _ | release _ | wait _ _ | signal _ _ | broadcast _ _ | fork _ =>
              cases hgives
        · cases hstep
    | resume | loop | «return» | interrupt _ => cases hgives
  rw [Kernel.turn] at hready ⊢
  by_cases hran : k.Ran k'
  · rw [if_pos hran] at hready ⊢
    cases hlist : k.readyList with
    | nil => exact absurd hlist (hhead.mp hran)
    | cons t rest =>
        rw [hlist] at hready
        rw [(List.cons_prefix_cons.mp hready).1]
        rfl
  · rw [if_neg hran, not_not.mp fun hne => hran (hhead.mpr hne)]
    rfl

/-- **Nobody is passed over.** From any state that is reached: those who are ready get the
processor next, in their order and each once, before anybody else does; whoever is preempted,
yields or finishes, and the loop of `Sleep`, give the processor to the first of them; and the
machine idles only when nobody is ready. -/
theorem turns_in_order (hrun : Run step anyStep (boot main initialValue) tr k)
    (hturns : Run turnStep anyStep k turns k') :
    k.readyList <+: turns.flatten ++ k'.readyList ∧ k.readyList.Nodup ∧
    (∀ l k'' turn, turnStep k' l = some (k'', turn) →
      (l.GivesUp → turn = k'.readyList.take 1) ∧
      (k'.idle = false → k''.idle = true → k'.readyList = [])) := by
  have hk := placed_of_run hrun
  obtain ⟨hk', hbefore⟩ := ready_before hk hturns
  refine ⟨hbefore, hk.located.nodup .readyList, ?_⟩
  intro l k'' turn hs
  refine ⟨fun hgives => gives_up_turn hk' hgives hs, fun hawake hasleep => ?_⟩
  obtain ⟨⟨es, hstep⟩, -⟩ := step_of_turnStep hs
  obtain ⟨hready, hidle⟩ := InTurn.of_step hk' (Step.of_step hstep)
  have hnobody : k'.turn k'' = [] := if_neg fun hran => by
    rw [hran.1] at hasleep
    cases hasleep
  rw [hnobody, hidle hawake hasleep] at hready
  exact List.prefix_nil.mp hready

/-- Two threads are forked, and the main thread is preempted. -/
theorem turns_in_order_sample : ∃ tr k turns k',
    Run step anyStep (boot 0 fun _ => 0 : Kernel (Fin 3) Unit Unit Unit) tr k ∧
      Run turnStep anyStep k turns k' ∧ k.readyList = [1, 2] ∧ turns.flatten = [1] ∧
      k'.readyList = [2, 0] ∧ k.readyList <+: turns.flatten ++ k'.readyList := by
  have hp : ((exec step anyStep [] (boot 0 fun _ => 0 : Kernel (Fin 3) Unit Unit Unit)
      [.call (.fork 1), .return, .call (.fork 2), .return]).bind fun r =>
        (exec turnStep anyStep [] r.2 [.preempt]).map fun r' =>
          (r.2.readyList, r'.1.flatten, r'.2.readyList)) = some ([1, 2], [1], [2, 0]) := by
    decide
  obtain ⟨⟨tr, k⟩, hexec, hp⟩ := Option.bind_eq_some_iff.mp hp
  obtain ⟨⟨turns, k'⟩, hexec', hvalues⟩ := Option.map_eq_some_iff.mp hp
  simp only [Prod.mk.injEq] at hvalues
  have hrun := Run.of_exec .start hexec
  have hturns := Run.of_exec .start hexec'
  exact ⟨tr, k, turns, k', hrun, hturns, hvalues.1, hvalues.2.1, hvalues.2.2,
    (turns_in_order hrun hturns).1⟩

end Runs

end Nachos.Threads
