import Nachos.Threads.Lives

/-!
# When Broadcast returns

`Broadcast` calls `Signal` until nobody waits. With the lock of the condition every call wakes
one thread. With another lock `Signal` refuses and leaves the queue as it is, so the loop goes
on forever. Other threads may have the processor between two rounds, and `Signal` too.

A condition may be in any state here, also in one that its operations do not leave it in.
-/

namespace Nachos.Threads

open Nachos.Lib Kernel

variable {T S L C : Type*} [DecidableEq T] [DecidableEq S] [DecidableEq L] [DecidableEq C]
  {k k' : Kernel T S L C} {c : C} {l : Option L} {t : T} {rest : List T}
  {tr tr' : List (List (Effect T S L C))} {m : ℕ}

/-- Everybody who waits is ready, in the order of the queue, and the condition is as new. -/
def Kernel.wakeAll (k : Kernel T S L C) (c : C) : Kernel T S L C :=
  { k with
    conditions := Function.update k.conditions c .create
    readyList := k.readyList ++ (k.conditions c).waitQueue
    status := fun t => if t ∈ (k.conditions c).waitQueue then .ready else k.status t }

omit [DecidableEq S] [DecidableEq L] in
/-- There is nobody to wake. -/
theorem wakeAll_nil (hq : (k.conditions c).waitQueue = [])
    (hlock : (k.conditions c).waitLock = none) : k.wakeAll c = k := by
  have hcond : Condition.create = k.conditions c := by
    rw [Condition.create, ← hlock, ← hq]
  simp [wakeAll, hq, hcond, Function.update_eq_self]

omit [DecidableEq S] [DecidableEq L] in
/-- Waking one and then the others is waking all. -/
theorem wakeAll_cons (hq : (k.conditions c).waitQueue = t :: rest) :
    ((k.setCondition c (k.conditions c).remove).readyToRun t).wakeAll c = k.wakeAll c := by
  have hrest : (((k.setCondition c (k.conditions c).remove).readyToRun t).conditions c).waitQueue =
      rest := by
    rw [readyToRun_conditions, setCondition_self, Condition.remove_waitQueue, hq]
    rfl
  have hstatus : (fun u => if u ∈ rest then ThreadStatus.ready
      else Function.update k.status t .ready u) =
      fun u => if u ∈ t :: rest then .ready else k.status u := by
    funext u
    by_cases hu : u = t
    · subst hu
      simp
    · simp [hu]
  have hready : k.readyList ++ [t] ++ rest = k.readyList ++ t :: rest := by simp
  have hconditions : Function.update (Function.update k.conditions c (k.conditions c).remove) c
      Condition.create = Function.update k.conditions c .create := Function.update_idem ..
  unfold wakeAll
  rw [hrest, hq]
  simp only [readyToRun, setCondition, hstatus, hready, hconditions]

/-! ## Rounds -/

/-- With the lock of the condition a round wakes the first. -/
theorem loop_wakes (hidle : k.idle = false) (hpc : k.pc k.currentThread = .inBroadcast c l)
    (hq : (k.conditions c).waitQueue = t :: rest) (hlock : (k.conditions c).waitLock = l) :
    step k .loop = some ((k.setCondition c (k.conditions c).remove).readyToRun t,
      [.removed k.currentThread t (.condition c)]) := by
  have hne : (k.conditions c).waitQueue ≠ [] := by rw [hq]; nofun
  simp only [step, hidle, hpc, Kernel.loop, if_neg hne, signal_cons k hq hlock.symm]

/-- With another lock it changes nothing. -/
theorem loop_refused (hidle : k.idle = false) (hpc : k.pc k.currentThread = .inBroadcast c l)
    (hq : (k.conditions c).waitQueue = t :: rest) (hlock : (k.conditions c).waitLock ≠ l) :
    step k .loop = some (k, []) := by
  have hne : (k.conditions c).waitQueue ≠ [] := by rw [hq]; nofun
  simp only [step, hidle, hpc, Kernel.loop, if_neg hne, signal_refused k hq hlock.symm]

/-- When nobody waits the loop is over. -/
theorem loop_ends (hidle : k.idle = false) (hpc : k.pc k.currentThread = .inBroadcast c l)
    (hq : (k.conditions c).waitQueue = []) :
    step k .loop = some (k.setPc k.currentThread .outside,
      [.returned k.currentThread (.broadcast c l) true]) := by
  simp only [step, hidle, hpc, Kernel.loop, if_pos hq]

variable (tr) in
/-- With the lock of the condition there is a round for everybody, and a last one. -/
theorem loop_all (hidle : k.idle = false) (hpc : k.pc k.currentThread = .inBroadcast c l)
    (hlock : if (k.conditions c).waitQueue = [] then (k.conditions c).waitLock = none
      else (k.conditions c).waitLock = l) :
    ∃ tr', exec step anyStep tr k
      (List.replicate ((k.conditions c).waitQueue.length + 1) .loop) =
        some (tr', (k.wakeAll c).setPc k.currentThread .outside) := by
  generalize hq : (k.conditions c).waitQueue = queue at hlock
  induction queue generalizing k tr with
  | nil =>
      refine ⟨tr ++ [[.returned k.currentThread (.broadcast c l) true]], ?_⟩
      simp only [List.length_nil, List.replicate, exec, anyStep, if_true, loop_ends hidle hpc hq]
      rw [wakeAll_nil hq hlock]
  | cons t rest ih =>
      have hlock : (k.conditions c).waitLock = l := hlock
      have hrest : (k.conditions c).remove.waitQueue = rest := by
        rw [Condition.remove_waitQueue, hq]
        rfl
      have hlock' : if rest = [] then (k.conditions c).remove.waitLock = none
          else (k.conditions c).remove.waitLock = l := by
        rw [Condition.remove_waitLock, hrest]
        split
        · rfl
        · exact hlock
      obtain ⟨tr', hexec⟩ := ih (k := (k.setCondition c (k.conditions c).remove).readyToRun t)
        (tr ++ [[.removed k.currentThread t (.condition c)]]) hidle hpc
        (by rwa [readyToRun_conditions, setCondition_self])
        (by rwa [readyToRun_conditions, setCondition_self])
      refine ⟨tr', ?_⟩
      rw [wakeAll_cons hq] at hexec
      simp only [List.length_cons, List.replicate_succ (n := rest.length + 1), exec, anyStep,
        if_true, loop_wakes hidle hpc hq hlock]
      exact hexec

/-! ## The call, with nobody else -/

/-- The current thread calls `Broadcast` and goes through the loop so many times. -/
def broadcastFor (m : ℕ) (k : Kernel T S L C) (c : C) (l : Option L) :
    Option (List (List (Effect T S L C)) × Kernel T S L C) :=
  exec step anyStep [] k (.call (.broadcast c l) :: List.replicate m .loop)

theorem step_broadcast (hcan : k.CanCall (.broadcast c l)) : step k (.call (.broadcast c l)) =
    some (k.setPc k.currentThread (.inBroadcast c l),
      [.called k.currentThread (.broadcast c l)]) := by
  simp only [step, if_pos hcan, Kernel.call]

theorem broadcastFor_eq (hcan : k.CanCall (.broadcast c l)) : broadcastFor m k c l =
    exec step anyStep [[.called k.currentThread (.broadcast c l)]]
      (k.setPc k.currentThread (.inBroadcast c l)) (List.replicate m .loop) := by
  simp only [broadcastFor, exec, anyStep, if_true, step_broadcast hcan, List.nil_append]

omit [DecidableEq S] [DecidableEq L] [DecidableEq C] in
/-- A thread that is back where it was has no trace of the call. -/
theorem setPc_back (hpc : k.pc k.currentThread = .outside) (pc : Pc T S L C) :
    (k.setPc k.currentThread pc).setPc k.currentThread .outside = k := by
  have hback : Function.update (Function.update k.pc k.currentThread pc) k.currentThread
      .outside = k.pc := by
    rw [Function.update_idem, ← hpc, Function.update_eq_self]
  simp only [setPc, hback]

/-- With the lock of the condition `Broadcast` wakes everybody. -/
theorem broadcastFor_all (hcan : k.CanCall (.broadcast c l))
    (hlock : if (k.conditions c).waitQueue = [] then (k.conditions c).waitLock = none
      else (k.conditions c).waitLock = l) :
    ∃ m tr, broadcastFor m k c l = some (tr, k.wakeAll c) := by
  obtain ⟨tr, hexec⟩ := loop_all (k := k.setPc k.currentThread (.inBroadcast c l))
    [[.called k.currentThread (.broadcast c l)]] hcan.1 (Function.update_self ..) hlock
  refine ⟨(k.conditions c).waitQueue.length + 1, tr, ?_⟩
  rw [broadcastFor_eq hcan, ← setPc_back (k := k.wakeAll c) hcan.2.1 (.inBroadcast c l)]
  exact hexec

/-- If nobody waits it changes nothing. -/
theorem broadcastFor_nobody (hcan : k.CanCall (.broadcast c l))
    (hq : (k.conditions c).waitQueue = []) : ∃ m tr, broadcastFor m k c l = some (tr, k) := by
  refine ⟨1, [[.called k.currentThread (.broadcast c l)],
    [.returned k.currentThread (.broadcast c l) true]], ?_⟩
  have hends := loop_ends (k := k.setPc k.currentThread (.inBroadcast c l)) hcan.1
    (Function.update_self ..) hq
  rw [broadcastFor_eq hcan, List.replicate_one]
  simp only [exec, anyStep, if_true, hends, List.singleton_append]
  exact congrArg (fun k' => some (_, k')) (setPc_back hcan.2.1 (.inBroadcast c l))

/-! ## The call, among other threads -/

/-- The kernel, and how often `broadcaster` has called `Signal` in its loop. -/
def countedStep (broadcaster : T) (c : C) (s : Kernel T S L C × ℕ) (label : Label T S L C) :
    Option ((Kernel T S L C × ℕ) × List (Effect T S L C)) :=
  (step s.1 label).map fun r =>
    ((r.1, s.2 + if label = .loop ∧ s.1.currentThread = broadcaster ∧
      (s.1.conditions c).waitQueue ≠ [] then 1 else 0), r.2)

/-- No new waiter arrives, and `broadcaster` calls nothing else. -/
def undisturbed (broadcaster : T) (c : C) (_ : List (List (Effect T S L C)))
    (s : Kernel T S L C × ℕ) (label : Label T S L C) : Prop :=
  (∀ l, label = .call (.wait c l) → ¬ s.1.Waitable c l) ∧
    ∀ op, label = .call op → s.1.currentThread ≠ broadcaster

/-- The current thread of `k` has called `Broadcast`; since then the trace has been `tr`, and it
has called `Signal` `n` times. -/
def BroadcastRun (k : Kernel T S L C) (c : C) (l : Option L) (tr : List (List (Effect T S L C)))
    (k' : Kernel T S L C) (n : ℕ) : Prop :=
  Run (countedStep k.currentThread c) (undisturbed k.currentThread c)
    (k.setPc k.currentThread (.inBroadcast c l), 0) tr (k', n)

/-- `Broadcast` returns, and does what it is for. -/
structure BroadcastDone (k : Kernel T S L C) (c : C) (l : Option L) : Prop where
  /-- Whatever others do in between, the calls of `Signal` come to an end. -/
  finite : ∃ most, ∀ tr k' n, BroadcastRun k c l tr k' n → n ≤ most
  /-- With the lock of the condition everybody is made ready, in the order of the queue, and
  afterwards the condition is as new. -/
  woken : (k.conditions c).waitLock = l → ∀ tr k' n, BroadcastRun k c l tr k' n →
    left (.condition c) tr.flatten ++ (k'.conditions c).waitQueue = (k.conditions c).waitQueue ∧
      (k'.pc k.currentThread = .outside → k'.conditions c = .create)
  /-- With another one nobody is. -/
  unchanged : (k.conditions c).waitLock ≠ l → ∀ tr k' n, BroadcastRun k c l tr k' n →
    ∀ t, .removed (some k.currentThread) t (.condition c) ∉ tr.flatten
  /-- This is all if nobody else runs. -/
  alone : ∃ m tr k', broadcastFor m k c l = some (tr, k') ∧
    k' = if (k.conditions c).waitLock = l then k.wakeAll c else k

/-- A step without a new waiter takes the first one out of the queue, or none. -/
theorem Step.queue_shrinks {es : List (Effect T S L C)} (hs : Step k k' es)
    (hquiet : ∀ l, .called k.currentThread (.wait c l) ∈ es → ¬ k.Waitable c l) :
    k'.conditions c = k.conditions c ∧ left (.condition c) es = [] ∨
      ∃ t rest, (k.conditions c).waitQueue = t :: rest ∧
        k'.conditions c = (k.conditions c).remove ∧ left (.condition c) es = [t] := by
  cases hs.condition c with
  | kept hcond hnone =>
      refine .inl ⟨hcond, ?_⟩
      rw [left, ← filterMap_about leaves_of_about es, hnone]
      rfl
  | waited _ hwaitable _ hes =>
      exact absurd hwaitable (hquiet _ (by rw [hes]; exact List.mem_cons_self))
  | signalled hq hcond _ hes =>
      refine .inr ⟨_, _, hq, hcond, ?_⟩
      rw [hes]
      simp only [left, List.filterMap_cons, Effect.leaves, if_true, List.filterMap_nil]
  | looped hq hcond _ _ hes =>
      refine .inr ⟨_, _, hq, hcond, ?_⟩
      rw [hes]
      simp only [left, List.filterMap_cons, Effect.leaves, if_true, List.filterMap_nil]

/-- Who is in the loop stays there until nobody waits. -/
theorem Step.in_loop {es : List (Effect T S L C)} {b : T} (hs : Step k k' es)
    (hcalls : k.currentThread = b → ∀ op, .called b op ∉ es)
    (hpc : k.pc b = .inBroadcast c l ∨ k.pc b = .outside) :
    k'.pc b = k.pc b ∨
      k'.pc b = .outside ∧ (k.conditions c).waitQueue = [] ∧ k'.conditions = k.conditions := by
  by_cases hcur : b ≠ k.currentThread ∨ k.idle = true
  · rcases hs.pc hcur with heq | ⟨-, hborn, -⟩
    · exact .inl heq
    · rw [hborn] at hpc
      simp at hpc
  · push Not at hcur
    obtain ⟨rfl, -⟩ := hcur
    cases hs with
    | call _ => exact absurd List.mem_cons_self (hcalls rfl _)
    | resumeP _ hin | resumeAcquire _ hin | resumeWait _ hin _ | resumeWaitSleep _ hin _
    | resumeReacquire _ hin | «return» _ hin =>
        rw [hin] at hpc
        simp at hpc
    | loopEnd _ hin hq =>
        rw [hin] at hpc
        obtain ⟨rfl, rfl⟩ : _ = c ∧ _ = l := by simpa using hpc
        exact .inr ⟨Function.update_self .., hq, rfl⟩
    | loopSignal _ _ _ => exact .inl (congrFun (signal_kept k _ _).2.2.1 _)
    | preempt _ _ => exact .inl (congrFun (yield_kept k).1 _)
    | interrupt _ => exact .inl (congrFun (v_kept k _ none).2.2.1 _)
    | dispatch _ => exact .inl (congrFun (dispatch_kept k).1 _)

/-- `Broadcast` has called `Signal` `n` times, and has not been refused. -/
structure Broadcasting (k : Kernel T S L C) (c : C) (l : Option L) (log : List (Effect T S L C))
    (k' : Kernel T S L C) (n : ℕ) : Prop where
  place : k'.pc k.currentThread = .inBroadcast c l ∨
    k'.pc k.currentThread = .outside ∧ (k'.conditions c).waitQueue = []
  order : left (.condition c) log ++ (k'.conditions c).waitQueue = (k.conditions c).waitQueue
  count : n + (k'.conditions c).waitQueue.length ≤ (k.conditions c).waitQueue.length
  waitLock : (k'.conditions c).waitQueue ≠ [] → (k'.conditions c).waitLock = l
  unbound : (k.conditions c).waitLock = l → (k'.conditions c).waitQueue = [] →
    (k'.conditions c).waitLock = none

/-- The states of a condition that `Broadcast` can cope with. -/
def Condition.Answers (cond : Condition T L) (l : Option L) : Prop :=
  cond.waitQueue = [] ∧ (cond.waitLock = none ∨ cond.waitLock ≠ l) ∨
    cond.waitQueue ≠ [] ∧ cond.waitLock = l

instance (cond : Condition T L) (l : Option L) : Decidable (cond.Answers l) :=
  inferInstanceAs (Decidable (_ ∨ _))

namespace Broadcasting

variable {k₀ : Kernel T S L C} {log es : List (Effect T S L C)} {label : Label T S L C} {n : ℕ}

theorem start (hlock : (k.conditions c).Answers l) :
    Broadcasting k c l [] (k.setPc k.currentThread (.inBroadcast c l)) 0 where
  place := .inl (Function.update_self ..)
  order := rfl
  count := by rw [Nat.zero_add]; exact Nat.le_refl _
  waitLock hne := (hlock.resolve_left fun hnil => hne hnil.1).2
  unbound hsame hnil := by
    obtain ⟨-, hnone | hne⟩ := hlock.resolve_right fun hn => hn.1 hnil
    · exact hnone
    · exact absurd hsame hne

/-- A round that is counted wakes somebody. -/
theorem counted (h : Broadcasting k₀ c l log k n) (hs : step k .loop = some (k', es))
    (hcur : k.currentThread = k₀.currentThread) (hne : (k.conditions c).waitQueue ≠ []) :
    k'.conditions c = (k.conditions c).remove := by
  obtain ⟨t, rest, hq⟩ := List.exists_cons_of_ne_nil hne
  have hpc : k.pc k.currentThread = .inBroadcast c l := by
    rw [hcur]
    exact h.place.resolve_right fun hn => hne hn.2
  have hidle : k.idle = false := by
    cases hidle : k.idle with
    | false => rfl
    | true => simp [Threads.step, hidle] at hs
  rw [loop_wakes hidle hpc hq (h.waitLock hne)] at hs
  obtain ⟨rfl, -⟩ := Prod.mk.inj (Option.some.inj hs)
  rw [readyToRun_conditions, setCondition_self]

theorem step (h : Broadcasting k₀ c l log k n)
    (hok : undisturbed k₀.currentThread c [] (k, n) label)
    (hs : Threads.step k label = some (k', es)) :
    Broadcasting k₀ c l (log ++ es) k'
      (n + if label = .loop ∧ k.currentThread = k₀.currentThread ∧
        (k.conditions c).waitQueue ≠ [] then 1 else 0) := by
  have hlabel : ∀ {t op}, .called t op ∈ es → label = .call op := Step.label_of_called hs
  have hplace := (Step.of_step hs).in_loop (c := c) (l := l)
    (fun hcur op hcalled => hok.2 op (hlabel hcalled) hcur) (h.place.imp_right And.left)
  have hcounted : label = .loop ∧ k.currentThread = k₀.currentThread ∧
      (k.conditions c).waitQueue ≠ [] → k'.conditions c = (k.conditions c).remove := by
    rintro ⟨rfl, hcur, hne⟩
    exact h.counted hs hcur hne
  have horder := h.order
  have hcount := h.count
  rcases (Step.of_step hs).queue_shrinks (c := c) fun l hcalled => hok.1 l (hlabel hcalled) with
    ⟨hcond, hleft⟩ | ⟨t, rest, hq, hcond, hleft⟩
  · -- nobody is woken, and so no round is counted
    have hnot : ¬ (label = .loop ∧ k.currentThread = k₀.currentThread ∧
        (k.conditions c).waitQueue ≠ []) := by
      intro hn
      have hqueue := congrArg (fun cond => cond.waitQueue.length) (hcond.symm.trans (hcounted hn))
      have hpos := List.length_pos_iff.mpr hn.2.2
      simp only [Condition.remove_waitQueue, List.length_tail] at hqueue
      omega
    rw [if_neg hnot, Nat.add_zero]
    refine ⟨?_, ?_, by rwa [hcond], by rw [hcond]; exact h.waitLock, by rw [hcond]; exact h.unbound⟩
    · rw [hcond]
      rcases hplace with heq | ⟨hout, hnil, -⟩
      · rw [heq]
        exact h.place
      · exact .inr ⟨hout, hnil⟩
    · rw [left, List.filterMap_append, ← left, ← left, hleft, List.append_nil, hcond]
      exact horder
  · have hrest : (k.conditions c).remove.waitQueue = rest := by
      rw [Condition.remove_waitQueue, hq]
      rfl
    have hlock := h.waitLock (by rw [hq]; exact List.cons_ne_nil t rest)
    refine ⟨?_, ?_, ?_, ?_, ?_⟩
    · rcases hplace with heq | ⟨-, hnil, -⟩
      · rw [heq]
        refine .inl (h.place.resolve_right fun hn => ?_)
        rw [hq] at hn
        cases hn.2
      · rw [hq] at hnil
        cases hnil
    · rw [left, List.filterMap_append, ← left, ← left, hleft, hcond, hrest, List.append_assoc,
        List.singleton_append, ← hq]
      exact horder
    · rw [hcond, hrest]
      rw [hq, List.length_cons] at hcount
      split <;> omega
    · intro hne
      rw [hcond] at hne ⊢
      rw [Condition.remove_waitLock, if_neg hne, hlock]
    · intro _ hnil
      rw [hcond] at hnil ⊢
      rw [Condition.remove_waitLock, if_pos hnil]

end Broadcasting

theorem broadcasting_of_run (hlock : (k.conditions c).Answers l) {n : ℕ}
    (hrun : BroadcastRun k c l tr k' n) : Broadcasting k c l tr.flatten k' n := by
  refine Run.invariant (s := (k', n))
    (I := fun tr (s : Kernel T S L C × ℕ) => Broadcasting k c l tr.flatten s.1 s.2) ?_ ?_ hrun
  · exact .start hlock
  · rintro tr ⟨k₁, n⟩ label ⟨k₂, n'⟩ es h hok hs
    rw [List.flatten_append, List.flatten_singleton]
    obtain ⟨⟨k₃, es'⟩, hstep, heq⟩ := Option.map_eq_some_iff.mp hs
    obtain ⟨hnext, rfl⟩ := Prod.mk.inj heq
    obtain ⟨rfl, rfl⟩ := Prod.mk.inj hnext
    exact h.step hok hstep

/-- With another lock than that of the condition there is no end to the calls of `Signal`. -/
theorem broadcastRun_refused (hcan : k.CanCall (.broadcast c l))
    (hq : (k.conditions c).waitQueue ≠ []) (hlock : (k.conditions c).waitLock ≠ l) (n : ℕ) :
    BroadcastRun k c l (List.replicate n []) (k.setPc k.currentThread (.inBroadcast c l)) n := by
  obtain ⟨t, rest, hcons⟩ := List.exists_cons_of_ne_nil hq
  have hstep := loop_refused (k := k.setPc k.currentThread (.inBroadcast c l)) hcan.1
    (Function.update_self ..) hcons hlock
  induction n with
  | zero => exact .start
  | succ n ih =>
      rw [List.replicate_succ']
      refine ih.snoc (l := .loop) ⟨nofun, nofun⟩ ?_
      simp only [countedStep, hstep, Option.map_some]
      rw [if_pos ⟨trivial, rfl, hq⟩]

theorem broadcastRun_endless (hcan : k.CanCall (.broadcast c l))
    (hq : (k.conditions c).waitQueue ≠ []) (hlock : (k.conditions c).waitLock ≠ l) :
    ¬ ∃ most, ∀ tr k' n, BroadcastRun k c l tr k' n → n ≤ most := by
  rintro ⟨most, hmost⟩
  exact Nat.not_succ_le_self most
    (hmost _ _ _ (broadcastRun_refused hcan hq hlock (most + 1)))

/-- **Broadcast terminates**, and has woken everybody or changed nothing, if and only if nobody
waits or the lock is the one that is waited with; and if nobody waits, the lock is not one that
the condition is still bound to. -/
theorem broadcast_done_iff (hcan : k.CanCall (.broadcast c l)) :
    BroadcastDone k c l ↔ (k.conditions c).Answers l := by
  constructor
  · intro hdone
    by_contra hnot
    by_cases hq : (k.conditions c).waitQueue = []
    · -- `Broadcast` returns at once, and leaves the condition bound
      have hlock : (k.conditions c).waitLock ≠ none ∧ (k.conditions c).waitLock = l := by
        refine ⟨fun hnone => hnot (.inl ⟨hq, .inl hnone⟩), ?_⟩
        by_contra hne
        exact hnot (.inl ⟨hq, .inr hne⟩)
      have hends := loop_ends (k := k.setPc k.currentThread (.inBroadcast c l)) hcan.1
        (Function.update_self ..) hq
      have hrun : BroadcastRun k c l [[.returned k.currentThread (.broadcast c l) true]]
          ((k.setPc k.currentThread (.inBroadcast c l)).setPc k.currentThread .outside) 0 := by
        refine Run.snoc (l := .loop) .start ⟨nofun, nofun⟩ ?_
        simp only [countedStep, hends, Option.map_some]
        rw [if_neg fun hn => hn.2.2 hq]
        rfl
      have hcreate := (hdone.woken hlock.2 _ _ _ hrun).2 (Function.update_self ..)
      exact hlock.1 (congrArg Condition.waitLock hcreate)
    · have hlock : (k.conditions c).waitLock ≠ l := fun heq => hnot (.inr ⟨hq, heq⟩)
      exact broadcastRun_endless hcan hq hlock hdone.finite
  · intro hlock
    refine ⟨⟨(k.conditions c).waitQueue.length, fun tr k' n hrun => ?_⟩, fun heq tr k' n hrun => ?_,
      fun hne tr k' n hrun t hmem => ?_, ?_⟩
    · exact Nat.le_of_add_right_le (broadcasting_of_run hlock hrun).count
    · have h := broadcasting_of_run hlock hrun
      refine ⟨h.order, fun hout => ?_⟩
      have hnil : (k'.conditions c).waitQueue = [] := by
        refine (h.place.resolve_left fun hin => ?_).2
        rw [hout] at hin
        cases hin
      have hnone := h.unbound heq hnil
      rw [Condition.create, ← hnil, ← hnone]
    · -- nobody waits, and so nobody is woken
      have horder := (broadcasting_of_run hlock hrun).order
      rw [(hlock.resolve_right fun hn => hne hn.2).1] at horder
      have hmem : t ∈ left (.condition c) tr.flatten :=
        List.mem_filterMap.mpr ⟨_, hmem, if_pos rfl⟩
      rw [(List.append_eq_nil_iff.mp horder).1] at hmem
      cases hmem
    · by_cases heq : (k.conditions c).waitLock = l
      · obtain ⟨m, tr, hexec⟩ := broadcastFor_all hcan (by
          split
          · rename_i hnil
            exact ((hlock.resolve_right fun hn => hn.1 hnil).2).resolve_right fun hn => hn heq
          · exact heq)
        exact ⟨m, tr, _, hexec, (if_pos heq).symm⟩
      · obtain ⟨m, tr, hexec⟩ :=
          broadcastFor_nobody hcan (hlock.resolve_right fun hn => heq hn.2).1
        exact ⟨m, tr, _, hexec, (if_neg heq).symm⟩

/-- Thread 1 waits with lock 0, and thread 0 has the processor. -/
def oneWaits : List (Label (Fin 2) Unit (Fin 2) Unit) :=
  [.call (.fork 1), .return, .call .yield, .call (.acquire 0), .return,
    .call (.wait () (some 0)), .return]

theorem oneWaits_state : ∃ tr k,
    Run step anyStep (boot 0 fun _ => 0 : Kernel (Fin 2) Unit (Fin 2) Unit) tr k ∧
      k.currentThread = 0 ∧ k.idle = false ∧ k.pc 0 = .outside ∧
      (k.conditions ()).waitQueue = [1] ∧ (k.conditions ()).waitLock = some 0 := by
  have hexec : (exec step anyStep [] (boot 0 fun _ => 0 : Kernel (Fin 2) Unit (Fin 2) Unit)
      oneWaits).map (fun r => ((r.2.currentThread, r.2.idle, r.2.pc 0),
        (r.2.conditions ()).waitQueue, (r.2.conditions ()).waitLock)) =
      some ((0, false, .outside), [1], some 0) := by decide
  obtain ⟨⟨tr, k⟩, hexec, hstate⟩ := Option.map_eq_some_iff.mp hexec
  simp only [Prod.mk.injEq] at hstate
  obtain ⟨⟨hcur, hidle, hpc⟩, hq, hlock⟩ := hstate
  exact ⟨tr, k, Run.of_exec .start hexec, hcur, hidle, hpc, hq, hlock⟩

/-- Thread 0 broadcasts with lock 0. -/
theorem broadcast_done_iff_sample : ∃ tr k,
    Run step anyStep (boot 0 fun _ => 0 : Kernel (Fin 2) Unit (Fin 2) Unit) tr k ∧
      (k.conditions ()).waitQueue = [1] ∧ BroadcastDone k () (some 0) := by
  obtain ⟨tr, k, hrun, hcur, hidle, hpc, hq, hlock⟩ := oneWaits_state
  have hcan : k.CanCall (.broadcast () (some 0)) := ⟨hidle, by rw [hcur, hpc], nofun⟩
  have hne : (k.conditions ()).waitQueue ≠ [] := by
    rw [hq]
    exact List.cons_ne_nil 1 []
  exact ⟨tr, k, hrun, hq, (broadcast_done_iff hcan).mpr (.inr ⟨hne, hlock⟩)⟩

/-- Thread 0 broadcasts with lock 1, and never comes back. -/
theorem broadcast_stuck : ∃ tr k,
    Run step anyStep (boot 0 fun _ => 0 : Kernel (Fin 2) Unit (Fin 2) Unit) tr k ∧
      k.CanCall (.broadcast () (some 1)) ∧ ¬ BroadcastDone k () (some 1) := by
  obtain ⟨tr, k, hrun, hcur, hidle, hpc, hq, hlock⟩ := oneWaits_state
  have hcan : k.CanCall (.broadcast () (some 1)) := ⟨hidle, by rw [hcur, hpc], nofun⟩
  refine ⟨tr, k, hrun, hcan, fun hdone => ?_⟩
  exact broadcastRun_endless hcan (by rw [hq]; nofun) (by rw [hlock]; nofun) hdone.finite

end Nachos.Threads
