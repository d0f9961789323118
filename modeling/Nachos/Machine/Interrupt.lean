import Nachos.Lib.Run
import Nachos.Lib.SortedInsert
import Mathlib.Data.Int.Order.Basic

/-!
# Simulated time and interrupts

Devices schedule interrupts for a later time. The list of pending ones is sorted by
time, and time goes on in two ways: by a tick, when the kernel enables interrupts or a
user instruction is done, and by a jump to the next interrupt, when no thread is ready.
Both call `CheckIfDue` until nothing is due.

A step is one call of `Schedule`, the part of `OneTick` or `Idle` before its loop, or
one round of the loop. What a handler does is a parameter: it works on the state of its
device, may schedule interrupts and may ask for a context switch.
-/

namespace Nachos.Machine

open Nachos.Lib

/-! ## State -/

inductive IntStatus where
  | intOff
  | intOn
deriving DecidableEq, Repr

inductive MachineStatus where
  | idleMode
  | systemMode
  | userMode
deriving DecidableEq, Repr

inductive IntType where
  | timerInt
  | diskInt
  | consoleWriteInt
  | consoleReadInt
  | networkSendInt
  | networkRecvInt
deriving DecidableEq, Repr

/-- `PendingInterrupt`. The object is known by the number of the call of `Schedule`
that made it; `handler` is the procedure with its argument. -/
structure PendingInterrupt (H : Type*) where
  object : ℕ
  handler : H
  when : ℤ
  type : IntType
deriving DecidableEq, Repr

/-- The times of `Statistics`. -/
structure Statistics where
  totalTicks : ℤ
  idleTicks : ℤ
  systemTicks : ℤ
  userTicks : ℤ
deriving DecidableEq, Repr

def systemTick : ℤ := 10

def userTick : ℤ := 1

/-- Where the machine is in the code of `Interrupt`. -/
inductive Place where
  /-- Outside. -/
  | kernel
  /-- In the loop of `OneTick`. -/
  | ticking
  /-- In the loop of `Idle`. -/
  | idling
  | halted
deriving DecidableEq, Repr

/-- `Interrupt` and the clock. `world` is what the handlers work on. -/
structure Interrupt (H W : Type*) where
  world : W
  stats : Statistics
  level : IntStatus
  status : MachineStatus
  yieldOnReturn : Bool
  pending : List (PendingInterrupt H)
  /-- How often `Schedule` has been called. -/
  scheduled : ℕ
  place : Place

/-- The arguments of `Schedule`. -/
structure Request (H : Type*) where
  handler : H
  fromNow : ℤ
  type : IntType

/-- What a handler does: the new state of its device, its calls of `Schedule`, and
whether it calls `YieldOnReturn`. -/
structure Reaction (H W : Type*) where
  world : W
  requests : List (Request H)
  yields : Bool

inductive Event (H : Type*) where
  | scheduled (p : PendingInterrupt H)
  | fired (p : PendingInterrupt H) (totalTicks : ℤ)

variable {H W : Type*}

namespace Interrupt

/-! ## Scheduling -/

/-- `Schedule`, and the object it makes. -/
def schedule (s : Interrupt H W) (r : Request H) : Option (Interrupt H W × PendingInterrupt H) :=
  let toOccur : PendingInterrupt H :=
    ⟨s.scheduled, r.handler, s.stats.totalTicks + r.fromNow, r.type⟩
  -- `ASSERT(fromNow > 0)`
  if 0 < r.fromNow then
    some ({ s with
      pending := sortedInsert PendingInterrupt.when toOccur s.pending
      scheduled := s.scheduled + 1 }, toOccur)
  else none

def scheduleAll (s : Interrupt H W) :
    List (Request H) → Option (Interrupt H W × List (PendingInterrupt H))
  | [] => some (s, [])
  | r :: rs => do
      let (s, p) ← s.schedule r
      let (s, ps) ← scheduleAll s rs
      return (s, p :: ps)

/-! ## Due interrupts -/

variable (call : H → W → ℤ → Reaction H W)

/-- Calling the handler of an interrupt that has been taken off the list. -/
def invoke (s : Interrupt H W) (toOccur : PendingInterrupt H) :
    Option (Interrupt H W × List (Event H)) := do
  let old := s.status
  let now := s.stats.totalTicks
  let reaction := call toOccur.handler s.world now
  let (s, ps) ← scheduleAll { s with world := reaction.world, status := .systemMode }
    reaction.requests
  return ({ s with status := old, yieldOnReturn := s.yieldOnReturn || reaction.yields },
    .fired toOccur now :: ps.map .scheduled)

/-- The clock is moved to the time of the next interrupt. -/
def advanceTo (s : Interrupt H W) (when : ℤ) : Interrupt H W :=
  if s.stats.totalTicks < when then
    { s with stats := { s.stats with
        idleTicks := s.stats.idleTicks + (when - s.stats.totalTicks)
        totalTicks := when } }
  else s

/-- `CheckIfDue`: whether a handler was called. -/
def checkIfDue (s : Interrupt H W) (advanceClock : Bool) :
    Option (Interrupt H W × List (Event H) × Bool) :=
  -- `ASSERT(level == IntOff)`
  if s.level ≠ .intOff then none
  else match s.pending with
    | [] => some (s, [], false)
    | toOccur :: rest =>
        let putBack := sortedInsert PendingInterrupt.when toOccur rest
        if advanceClock = false ∧ s.stats.totalTicks < toOccur.when then
          some ({ s with pending := putBack }, [], false)
        else
          let s := if advanceClock then s.advanceTo toOccur.when else s
          -- nothing but the timer is left: there is no more to do
          if s.status = .idleMode ∧ toOccur.type = .timerInt ∧ rest = [] then
            some ({ s with pending := putBack }, [], false)
          else do
            let (s, events) ← invoke call { s with pending := rest } toOccur
            return (s, events, true)

/-- `OneTick` before its loop. -/
def oneTick (s : Interrupt H W) : Interrupt H W :=
  let stats := if s.status = .systemMode then
      { s.stats with
        totalTicks := s.stats.totalTicks + systemTick
        systemTicks := s.stats.systemTicks + systemTick }
    else
      { s.stats with
        totalTicks := s.stats.totalTicks + userTick
        userTicks := s.stats.userTicks + userTick }
  { s with stats, level := .intOff, place := .ticking }

/-- `OneTick` behind its loop. `Yield` gives the processor to other threads, in system
mode; the thread sets `status` back when it runs again. -/
def endTick (s : Interrupt H W) : Interrupt H W :=
  { s with
    level := .intOn
    status := if s.yieldOnReturn then .systemMode else s.status
    yieldOnReturn := false
    place := .kernel }

/-- `Idle` up to its loop. -/
def idle (s : Interrupt H W) : Option (Interrupt H W × List (Event H)) := do
  let (s, events, found) ← checkIfDue call { s with status := .idleMode } true
  return ({ s with place := if found then .idling else .halted }, events)

/-- `Idle` behind its loop. -/
def endIdle (s : Interrupt H W) : Interrupt H W :=
  { s with yieldOnReturn := false, status := .systemMode, place := .kernel }

end Interrupt

/-! ## The machine -/

inductive Label (H W : Type*) where
  | schedule (r : Request H)
  | oneTick
  | idle
  /-- One round of the loop the machine is in. -/
  | check
  /-- Other code of the kernel, which changes the state of the devices, `status`, and
  `level` without enabling interrupts. -/
  | kernel (world : W) (status : MachineStatus) (level : IntStatus)

open Interrupt in
/-- One step, with what was scheduled and what fired. -/
def step (call : H → W → ℤ → Reaction H W) (s : Interrupt H W) :
    Label H W → Option (Interrupt H W × List (Event H))
  | .schedule r =>
      if s.place = .kernel then (s.schedule r).map fun (s, p) => (s, [.scheduled p]) else none
  | .oneTick => if s.place = .kernel then some (s.oneTick, []) else none
  | .idle => if s.place = .kernel then s.idle call else none
  | .check =>
      match s.place with
      | .ticking => (s.checkIfDue call false).map fun (s, events, found) =>
          (if found then s else s.endTick, events)
      | .idling => (s.checkIfDue call false).map fun (s, events, found) =>
          (if found then s else s.endIdle, events)
      | _ => none
  | .kernel world status level =>
      if s.place = .kernel then some ({ s with world, status, level }, []) else none

/-- The constructors of `Interrupt` and `Statistics`. -/
def boot (world : W) : Interrupt H W :=
  ⟨world, ⟨0, 0, 0, 0⟩, .intOff, .systemMode, false, [], 0, .kernel⟩

/-! ## What the log tells -/

/-- The interrupts that were scheduled, in order. -/
def scheduledIn (log : List (Event H)) : List (PendingInterrupt H) :=
  log.filterMap fun
    | .scheduled p => some p
    | .fired _ _ => none

/-- The interrupts that fired, in order, and the time. -/
def firings (log : List (Event H)) : List (PendingInterrupt H × ℤ) :=
  log.filterMap fun
    | .scheduled _ => none
    | .fired p now => some (p, now)

def firedIn (log : List (Event H)) : List (PendingInterrupt H) := (firings log).map Prod.fst

section Log

variable {log log' : List (Event H)} {p : PendingInterrupt H} {now : ℤ}

theorem scheduledIn_append : scheduledIn (log ++ log') = scheduledIn log ++ scheduledIn log' :=
  List.filterMap_append

theorem firings_append : firings (log ++ log') = firings log ++ firings log' :=
  List.filterMap_append

theorem firedIn_append : firedIn (log ++ log') = firedIn log ++ firedIn log' := by
  rw [firedIn, firings_append, List.map_append, firedIn, firedIn]

@[simp] theorem scheduledIn_scheduled : scheduledIn [.scheduled p] = [p] := rfl

@[simp] theorem firedIn_scheduled : firedIn [.scheduled p] = [] := rfl

@[simp] theorem firings_scheduled : firings [.scheduled p] = [] := rfl

@[simp] theorem scheduledIn_fired : scheduledIn [.fired p now] = [] := rfl

@[simp] theorem firedIn_fired : firedIn [.fired p now] = [p] := rfl

@[simp] theorem firings_fired : firings [.fired p now] = [(p, now)] := rfl

end Log

/-- **Every interrupt has its time.** -/
structure Timely (log : List (Event H)) (s : Interrupt H W) : Prop where
  clock : s.stats.totalTicks = s.stats.systemTicks + s.stats.userTicks + s.stats.idleTicks
  sorted : s.pending.Pairwise fun p q => p.when ≤ q.when
  objects : (scheduledIn log).map PendingInterrupt.object = List.range s.scheduled
  accounted : (scheduledIn log).Perm (firedIn log ++ s.pending)
  due : ∀ f ∈ firings log, f.1.when ≤ f.2
  past : ∀ p ∈ firedIn log, p.when ≤ s.stats.totalTicks
  before : ∀ p ∈ firedIn log, ∀ q ∈ s.pending, p.when ≤ q.when
  ordered : (firedIn log).Pairwise fun p q => p.when ≤ q.when

namespace Timely

variable {log : List (Event H)} {s s' : Interrupt H W} {p : PendingInterrupt H}
  {rest : List (PendingInterrupt H)} {r : Request H} {call : H → W → ℤ → Reaction H W}
  {events : List (Event H)} {found : Bool} {when : ℤ}

theorem boot (world : W) : Timely [] (boot world : Interrupt H W) where
  clock := rfl
  sorted := .nil
  objects := rfl
  accounted := .refl _
  due := nofun
  past := nofun
  before := nofun
  ordered := .nil

/-- Only the clock, the list and the number of calls matter. -/
theorem congr (h : Timely log s) (hstats : s'.stats = s.stats) (hpending : s'.pending = s.pending)
    (hscheduled : s'.scheduled = s.scheduled) : Timely log s' where
  clock := by rw [hstats]; exact h.clock
  sorted := by rw [hpending]; exact h.sorted
  objects := by rw [hscheduled]; exact h.objects
  accounted := by rw [hpending]; exact h.accounted
  due := h.due
  past := by rw [hstats]; exact h.past
  before := by rw [hpending]; exact h.before
  ordered := h.ordered

/-- Time goes on. -/
theorem later (h : Timely log s)
    (hclock : s'.stats.totalTicks =
      s'.stats.systemTicks + s'.stats.userTicks + s'.stats.idleTicks)
    (hle : s.stats.totalTicks ≤ s'.stats.totalTicks) (hpending : s'.pending = s.pending)
    (hscheduled : s'.scheduled = s.scheduled) : Timely log s' where
  clock := hclock
  sorted := by rw [hpending]; exact h.sorted
  objects := by rw [hscheduled]; exact h.objects
  accounted := by rw [hpending]; exact h.accounted
  due := h.due
  past := fun p hp => (h.past p hp).trans hle
  before := by rw [hpending]; exact h.before
  ordered := h.ordered

/-- What is scheduled is due later than everything that has fired. -/
theorem schedule (h : Timely log s) (hs : s.schedule r = some (s', p)) :
    Timely (log ++ [.scheduled p]) s' := by
  unfold Interrupt.schedule at hs
  split at hs
  · rename_i hpos
    simp only [Option.some.injEq, Prod.mk.injEq] at hs
    obtain ⟨rfl, rfl⟩ := hs
    constructor
    case clock => exact h.clock
    case sorted => exact sorted_sortedInsert h.sorted
    case objects =>
      rw [scheduledIn_append, List.map_append, h.objects, List.range_succ]
      rfl
    case accounted =>
      rw [scheduledIn_append, firedIn_append, firedIn_scheduled, List.append_nil]
      have hinsert := @perm_sortedInsert _ _ _ PendingInterrupt.when
        ⟨s.scheduled, r.handler, s.stats.totalTicks + r.fromNow, r.type⟩ s.pending
      refine (h.accounted.append_right _).trans ?_
      rw [List.append_assoc]
      exact (List.perm_append_comm.trans hinsert.symm).append_left _
    case due =>
      rw [firings_append, firings_scheduled, List.append_nil]
      exact h.due
    case past =>
      rw [firedIn_append, firedIn_scheduled, List.append_nil]
      exact h.past
    case before =>
      rw [firedIn_append, firedIn_scheduled, List.append_nil]
      intro p hp q hq
      rcases mem_sortedInsert.mp hq with rfl | hq
      · have hpast := h.past p hp
        show p.when ≤ s.stats.totalTicks + r.fromNow
        omega
      · exact h.before p hp q hq
    case ordered =>
      rw [firedIn_append, firedIn_scheduled, List.append_nil]
      exact h.ordered
  · cases hs

theorem scheduleAll {rs : List (Request H)} {ps : List (PendingInterrupt H)} (h : Timely log s)
    (hs : s.scheduleAll rs = some (s', ps)) : Timely (log ++ ps.map .scheduled) s' := by
  induction rs generalizing log s ps with
  | nil =>
      simp only [Interrupt.scheduleAll, Option.some.injEq, Prod.mk.injEq] at hs
      obtain ⟨rfl, rfl⟩ := hs
      rw [List.map_nil, List.append_nil]
      exact h
  | cons r rs ih =>
      obtain ⟨⟨s₁, p⟩, h₁, hs⟩ := Option.bind_eq_some_iff.mp hs
      obtain ⟨⟨s₂, ps'⟩, h₂, hs⟩ := Option.bind_eq_some_iff.mp hs
      obtain ⟨rfl, rfl⟩ := Prod.mk.inj (Option.some.inj hs)
      have hrest := ih (h.schedule h₁) h₂
      rw [List.append_assoc] at hrest
      exact hrest

/-- The first of the list fires when its time has come. -/
theorem fire (h : Timely log s) (hpending : s.pending = p :: rest)
    (hdue : p.when ≤ s.stats.totalTicks) :
    Timely (log ++ [.fired p s.stats.totalTicks]) { s with pending := rest } := by
  have hsorted := h.sorted
  rw [hpending, List.pairwise_cons] at hsorted
  constructor
  case clock => exact h.clock
  case sorted => exact hsorted.2
  case objects =>
    rw [scheduledIn_append, scheduledIn_fired, List.append_nil]
    exact h.objects
  case accounted =>
    rw [scheduledIn_append, scheduledIn_fired, List.append_nil, firedIn_append, firedIn_fired,
      List.append_assoc, List.singleton_append, ← hpending]
    exact h.accounted
  case due =>
    rw [firings_append, firings_fired]
    intro f hf
    rcases List.mem_append.mp hf with hf | hf
    · exact h.due f hf
    · rw [List.mem_singleton.mp hf]
      exact hdue
  case past =>
    rw [firedIn_append, firedIn_fired]
    intro q hq
    rcases List.mem_append.mp hq with hq | hq
    · exact h.past q hq
    · rw [List.mem_singleton.mp hq]
      exact hdue
  case before =>
    rw [firedIn_append, firedIn_fired]
    intro q hq q' hq'
    rcases List.mem_append.mp hq with hq | hq
    · exact h.before q hq q' (by rw [hpending]; exact List.mem_cons_of_mem _ hq')
    · rw [List.mem_singleton.mp hq]
      exact hsorted.1 q' hq'
  case ordered =>
    rw [firedIn_append, firedIn_fired, List.pairwise_append]
    refine ⟨h.ordered, List.pairwise_singleton _ _, ?_⟩
    intro q hq q' hq'
    rw [List.mem_singleton.mp hq']
    exact h.before q hq p (by rw [hpending]; exact List.mem_cons_self)

/-- It is put back where its time puts it. -/
theorem putBack (h : Timely log s) (hpending : s.pending = p :: rest) :
    Timely log { s with pending := sortedInsert PendingInterrupt.when p rest } := by
  have hsorted := h.sorted
  rw [hpending, List.pairwise_cons] at hsorted
  have hperm : (sortedInsert PendingInterrupt.when p rest).Perm s.pending := by
    rw [hpending]
    exact perm_sortedInsert p rest
  constructor
  case clock => exact h.clock
  case sorted => exact sorted_sortedInsert hsorted.2
  case objects => exact h.objects
  case accounted => exact h.accounted.trans (hperm.symm.append_left _)
  case due => exact h.due
  case past => exact h.past
  case before =>
    intro q hq q' hq'
    exact h.before q hq q' (hperm.mem_iff.mp hq')
  case ordered => exact h.ordered

theorem le_advanceTo (s : Interrupt H W) (when : ℤ) :
    s.stats.totalTicks ≤ (s.advanceTo when).stats.totalTicks ∧
      when ≤ (s.advanceTo when).stats.totalTicks := by
  unfold Interrupt.advanceTo
  split
  · rename_i hlt
    exact ⟨hlt.le, le_refl _⟩
  · rename_i hge
    exact ⟨le_refl _, not_lt.mp hge⟩

theorem advanceTo (h : Timely log s) (when : ℤ) : Timely log (s.advanceTo when) := by
  have hclock := h.clock
  refine h.later ?_ (le_advanceTo s when).1 ?_ ?_
  · unfold Interrupt.advanceTo
    split
    · show when = s.stats.systemTicks + s.stats.userTicks +
        (s.stats.idleTicks + (when - s.stats.totalTicks))
      omega
    · exact hclock
  · unfold Interrupt.advanceTo
    split <;> rfl
  · unfold Interrupt.advanceTo
    split <;> rfl

/-- Handlers work in no time. -/
theorem stats_scheduleAll {rs : List (Request H)} {ps : List (PendingInterrupt H)}
    (hs : s.scheduleAll rs = some (s', ps)) : s'.stats = s.stats := by
  induction rs generalizing s ps with
  | nil =>
      simp only [Interrupt.scheduleAll, Option.some.injEq, Prod.mk.injEq] at hs
      rw [← hs.1]
  | cons r rs ih =>
      obtain ⟨⟨s₁, p⟩, h₁, hs⟩ := Option.bind_eq_some_iff.mp hs
      obtain ⟨⟨s₂, ps'⟩, h₂, hs⟩ := Option.bind_eq_some_iff.mp hs
      obtain ⟨rfl, -⟩ := Prod.mk.inj (Option.some.inj hs)
      rw [ih h₂]
      unfold Interrupt.schedule at h₁
      split at h₁
      · simp only [Option.some.injEq, Prod.mk.injEq] at h₁
        rw [← h₁.1]
      · cases h₁

/-- Calling a handler whose time has come. -/
theorem invoke (h : Timely log s) (hpending : s.pending = p :: rest)
    (hdue : p.when ≤ s.stats.totalTicks)
    (hs : { s with pending := rest }.invoke call p = some (s', events)) :
    Timely (log ++ events) s' ∧ s'.stats = s.stats := by
  obtain ⟨⟨s₁, ps⟩, hall, hs⟩ := Option.bind_eq_some_iff.mp hs
  obtain ⟨rfl, rfl⟩ := Prod.mk.inj (Option.some.inj hs)
  have hfired := h.fire hpending hdue
  have hcalled : Timely (log ++ [.fired p s.stats.totalTicks]) { s with
      pending := rest
      world := (call p.handler s.world s.stats.totalTicks).world
      status := .systemMode } := hfired.congr rfl rfl rfl
  have hrest := scheduleAll hcalled hall
  rw [List.append_assoc] at hrest
  have hstats := stats_scheduleAll hall
  exact ⟨hrest.congr rfl rfl rfl, hstats⟩

/-- **`CheckIfDue`** calls a handler whose time has come or leaves the list as it is. -/
theorem checkIfDue {advance : Bool} (h : Timely log s)
    (hs : s.checkIfDue call advance = some (s', events, found)) :
    Timely (log ++ events) s' ∧ s.stats.totalTicks ≤ s'.stats.totalTicks := by
  unfold Interrupt.checkIfDue at hs
  split at hs
  · cases hs
  cases hpending : s.pending with
  | nil =>
      simp only [hpending, Option.some.injEq, Prod.mk.injEq] at hs
      obtain ⟨rfl, rfl, -⟩ := hs
      rw [List.append_nil]
      exact ⟨h, le_refl _⟩
  | cons toOccur rest =>
      simp only [hpending] at hs
      split at hs
      · simp only [Option.some.injEq, Prod.mk.injEq] at hs
        obtain ⟨rfl, rfl, -⟩ := hs
        rw [List.append_nil]
        exact ⟨h.putBack hpending, le_refl _⟩
      · rename_i htime
        -- the clock shows the time of the interrupt, or a later one
        generalize hnow : (if advance = true then s.advanceTo toOccur.when else s) = now at hs
        have hall : Timely log now ∧ s.stats.totalTicks ≤ now.stats.totalTicks ∧
            toOccur.when ≤ now.stats.totalTicks ∧ now.pending = toOccur :: rest := by
          cases advance with
          | true =>
              rw [if_pos rfl] at hnow
              subst hnow
              refine ⟨h.advanceTo _, (le_advanceTo s _).1, (le_advanceTo s _).2, ?_⟩
              unfold Interrupt.advanceTo
              split <;> exact hpending
          | false =>
              rw [if_neg (by decide)] at hnow
              subst hnow
              exact ⟨h, le_refl _, not_lt.mp fun hlt => htime ⟨rfl, hlt⟩, hpending⟩
        obtain ⟨hnow, hle, hdue, hpending⟩ := hall
        split at hs
        · simp only [Option.some.injEq, Prod.mk.injEq] at hs
          obtain ⟨rfl, rfl, -⟩ := hs
          rw [List.append_nil]
          exact ⟨hnow.putBack hpending, hle⟩
        · obtain ⟨⟨s₁, events₁⟩, hinvoke, hs⟩ := Option.bind_eq_some_iff.mp hs
          simp only [Option.pure_def, Option.some.injEq, Prod.mk.injEq] at hs
          obtain ⟨rfl, rfl, -⟩ := hs
          obtain ⟨hfired, hstats⟩ := hnow.invoke hpending hdue hinvoke
          exact ⟨hfired, by rw [hstats]; exact hle⟩

theorem oneTick (h : Timely log s) :
    Timely log s.oneTick ∧ s.stats.totalTicks ≤ s.oneTick.stats.totalTicks := by
  have hclock := h.clock
  have hle : s.stats.totalTicks ≤ s.oneTick.stats.totalTicks := by
    unfold Interrupt.oneTick systemTick userTick
    split <;> simp only <;> omega
  refine ⟨h.later ?_ hle rfl rfl, hle⟩
  unfold Interrupt.oneTick systemTick userTick
  split <;> simp only <;> omega

/-- **One step.** -/
theorem step {l : Label H W} (h : Timely log s) (hs : step call s l = some (s', events)) :
    Timely (log ++ events) s' ∧ s.stats.totalTicks ≤ s'.stats.totalTicks := by
  cases l with
  | schedule r =>
      simp only [Machine.step] at hs
      split at hs
      · obtain ⟨⟨s₁, p⟩, hschedule, heq⟩ := Option.map_eq_some_iff.mp hs
        obtain ⟨rfl, rfl⟩ := Prod.mk.inj heq
        refine ⟨h.schedule hschedule, ?_⟩
        unfold Interrupt.schedule at hschedule
        split at hschedule
        · simp only [Option.some.injEq, Prod.mk.injEq] at hschedule
          rw [← hschedule.1]
        · cases hschedule
      · cases hs
  | oneTick =>
      simp only [Machine.step] at hs
      split at hs
      · obtain ⟨rfl, rfl⟩ := Prod.mk.inj (Option.some.inj hs)
        rw [List.append_nil]
        exact h.oneTick
      · cases hs
  | idle =>
      simp only [Machine.step] at hs
      split at hs
      · obtain ⟨⟨s₁, events₁, found⟩, hcheck, hs⟩ := Option.bind_eq_some_iff.mp hs
        obtain ⟨rfl, rfl⟩ := Prod.mk.inj (Option.some.inj hs)
        have hidle : Timely log { s with status := .idleMode } := h.congr rfl rfl rfl
        obtain ⟨hchecked, hle⟩ := hidle.checkIfDue hcheck
        exact ⟨hchecked.congr rfl rfl rfl, hle⟩
      · cases hs
  | check =>
      simp only [Machine.step] at hs
      cases hplace : s.place with
      | kernel | halted =>
          rw [hplace] at hs
          cases hs
      | ticking | idling =>
          simp only [hplace] at hs
          obtain ⟨⟨s₁, events₁, found⟩, hcheck, heq⟩ := Option.map_eq_some_iff.mp hs
          obtain ⟨rfl, rfl⟩ := Prod.mk.inj heq
          obtain ⟨hchecked, hle⟩ := h.checkIfDue hcheck
          cases found with
          | true => exact ⟨hchecked, hle⟩
          | false => exact ⟨hchecked.congr rfl rfl rfl, hle⟩
  | kernel world status level =>
      simp only [Machine.step] at hs
      split at hs
      · obtain ⟨rfl, rfl⟩ := Prod.mk.inj (Option.some.inj hs)
        rw [List.append_nil]
        exact ⟨h.congr rfl rfl rfl, le_refl _⟩
      · cases hs

end Timely

/-- **Interrupts fire on time**: the clock never goes back and is the sum of its three
parts; what was scheduled is pending or has fired, and either just once; nothing fires
before its time, and nothing after something that is due later. -/
theorem interrupts_on_time {call : H → W → ℤ → Reaction H W} {world : W}
    {tr : List (List (Event H))} {s : Interrupt H W}
    (h : Run (step call) anyStep (boot world) tr s) :
    s.stats.totalTicks = s.stats.systemTicks + s.stats.userTicks + s.stats.idleTicks ∧
    (∀ l s' events, step call s l = some (s', events) →
      s.stats.totalTicks ≤ s'.stats.totalTicks) ∧
    ((scheduledIn tr.flatten).Nodup ∧ (firedIn tr.flatten ++ s.pending).Nodup ∧
      ∀ p, p ∈ scheduledIn tr.flatten ↔ p ∈ firedIn tr.flatten ∨ p ∈ s.pending) ∧
    (∀ f ∈ firings tr.flatten, f.1.when ≤ f.2) ∧
    (firedIn tr.flatten).Pairwise fun p q => p.when ≤ q.when := by
  have htimely : Timely tr.flatten s := by
    refine h.invariant (I := fun tr s => Timely tr.flatten s) (.boot world) ?_
    intro tr s l s' events hi _ hs
    rw [List.flatten_append, List.flatten_singleton]
    exact (hi.step hs).1
  have hnodup : (scheduledIn tr.flatten).Nodup := by
    refine List.Nodup.of_map PendingInterrupt.object ?_
    rw [htimely.objects]
    exact List.nodup_range
  refine ⟨htimely.clock, ?_, ⟨hnodup, htimely.accounted.nodup_iff.mp hnodup, ?_⟩, htimely.due,
    htimely.ordered⟩
  · intro l s' events hs
    exact (htimely.step hs).2
  · intro p
    rw [htimely.accounted.mem_iff, List.mem_append]

/-- A device that interrupts again after the time it is given. -/
def periodic : ℤ → ℕ → ℤ → Reaction ℤ ℕ := fun period count _ =>
  ⟨count + 1, [⟨period, period, .networkRecvInt⟩], false⟩

/-- The machine idles until time 40, where two interrupts fire, the first of which
schedules another one. -/
theorem interrupts_on_time_sample : ∃ tr s,
    Run (step periodic) anyStep (boot 0) tr s ∧
      (firings tr.flatten).map (fun f => (f.1.object, f.2)) = [(1, 40), (0, 50)] ∧
      s.pending.map PendingInterrupt.object = [3, 2] ∧
      s.stats = ⟨50, 40, 10, 0⟩ ∧
      (firedIn tr.flatten).Pairwise fun p q => p.when ≤ q.when := by
  have hp : (exec (step periodic) anyStep [] (boot 0) [.schedule ⟨30, 50, .diskInt⟩,
      .schedule ⟨60, 40, .networkRecvInt⟩, .idle, .check, .oneTick, .check, .check]).map
      (fun r => ((firings r.1.flatten).map fun f => (f.1.object, f.2),
        r.2.pending.map PendingInterrupt.object, r.2.stats)) =
      some ([(1, 40), (0, 50)], [3, 2], ⟨50, 40, 10, 0⟩) := by
    decide +kernel
  obtain ⟨⟨tr, s⟩, hexec, hvalues⟩ := Option.map_eq_some_iff.mp hp
  simp only [Prod.mk.injEq] at hvalues
  have hrun := Run.of_exec .start hexec
  exact ⟨tr, s, hrun, hvalues.1, hvalues.2.1, hvalues.2.2, (interrupts_on_time hrun).2.2.2.2⟩

/-! ## The loops end -/

/-- How many interrupts are due. -/
def Interrupt.due (s : Interrupt H W) : ℕ :=
  s.pending.countP fun p => p.when ≤ s.stats.totalTicks

section Loops

variable {s s' : Interrupt H W} {call : H → W → ℤ → Reaction H W}

/-- What is scheduled is not due yet. -/
theorem schedule_due {r : Request H} (hpos : 0 < r.fromNow) : ∃ s' p,
    s.schedule r = some (s', p) ∧ s'.level = s.level ∧ s'.place = s.place ∧ s'.due = s.due := by
  refine ⟨_, _, if_pos hpos, rfl, rfl, ?_⟩
  show (sortedInsert PendingInterrupt.when _ s.pending).countP _ = _
  rw [(perm_sortedInsert _ _).countP_eq, List.countP_cons_of_neg]
  · rfl
  · show ¬ decide (s.stats.totalTicks + r.fromNow ≤ s.stats.totalTicks) = true
    rw [decide_eq_true_iff]
    omega

theorem scheduleAll_due {rs : List (Request H)} (hpos : ∀ r ∈ rs, 0 < r.fromNow) : ∃ s' ps,
    s.scheduleAll rs = some (s', ps) ∧ s'.level = s.level ∧ s'.place = s.place ∧
      s'.due = s.due := by
  induction rs generalizing s with
  | nil => exact ⟨s, [], rfl, rfl, rfl, rfl⟩
  | cons r rs ih =>
      obtain ⟨s₁, p, h₁, hlevel₁, hplace₁, hdue₁⟩ :=
        schedule_due (s := s) (hpos r List.mem_cons_self)
      obtain ⟨s₂, ps, h₂, hlevel₂, hplace₂, hdue₂⟩ :=
        ih (s := s₁) fun r hr => hpos r (List.mem_cons_of_mem _ hr)
      refine ⟨s₂, p :: ps, ?_, hlevel₂.trans hlevel₁, hplace₂.trans hplace₁, hdue₂.trans hdue₁⟩
      simp only [Interrupt.scheduleAll, h₁, h₂, Option.bind_eq_bind, Option.bind_some]
      rfl

/-- A round of a loop takes an interrupt that is due, or ends the loop. -/
theorem checkIfDue_due (hlevel : s.level = .intOff)
    (hpos : ∀ h w now, ∀ r ∈ (call h w now).requests, 0 < r.fromNow) :
    ∃ s' events found, s.checkIfDue call false = some (s', events, found) ∧
      s'.place = s.place ∧ (found = true → s'.level = .intOff ∧ s'.due < s.due) := by
  unfold Interrupt.checkIfDue
  rw [if_neg (not_not.mpr hlevel)]
  cases hpending : s.pending with
  | nil => exact ⟨s, [], false, rfl, rfl, nofun⟩
  | cons toOccur rest =>
      simp only [true_and, Bool.false_eq_true, if_false]
      split
      · exact ⟨_, _, _, rfl, rfl, nofun⟩
      split
      · exact ⟨_, _, _, rfl, rfl, nofun⟩
      · rename_i hdue _
        obtain ⟨s₁, ps, hall, hlevel₁, hplace₁, hdue₁⟩ := scheduleAll_due
          (s := { s with
            pending := rest
            world := (call toOccur.handler s.world s.stats.totalTicks).world
            status := .systemMode })
          (hpos toOccur.handler s.world s.stats.totalTicks)
        have hstats := Timely.stats_scheduleAll hall
        simp only [Interrupt.invoke, hall, Option.bind_eq_bind, Option.bind_some, Option.pure_def]
        refine ⟨_, _, _, rfl, hplace₁, fun _ => ⟨hlevel₁.trans hlevel, ?_⟩⟩
        have hrest : s₁.due = rest.countP fun p => p.when ≤ s.stats.totalTicks := hdue₁
        have htaken : s.due = rest.countP (fun p => p.when ≤ s.stats.totalTicks) + 1 := by
          rw [Interrupt.due, hpending, List.countP_cons_of_pos]
          exact decide_eq_true (not_lt.mp hdue)
        show s₁.due < s.due
        omega

/-- **The loops of `OneTick` and `Idle` end** when handlers schedule for later. -/
theorem loop_ends (hpos : ∀ h w now, ∀ r ∈ (call h w now).requests, 0 < r.fromNow)
    (hlevel : s.level = .intOff) (hplace : s.place = .ticking ∨ s.place = .idling) :
    ∃ tr s', Run (step call) anyStep s tr s' ∧ s'.place = .kernel := by
  induction hn : s.due using Nat.strong_induction_on generalizing s with
  | _ n ih =>
      obtain ⟨s₁, events, found, hcheck, hplace₁, hfound⟩ := checkIfDue_due hlevel hpos
      cases found with
      | true =>
          obtain ⟨hlevel₁, hlt⟩ := hfound rfl
          have hs : step call s .check = some (s₁, events) := by
            rcases hplace with hp | hp <;> simp [step, hp, hcheck]
          obtain ⟨tr, s', hrun, hend⟩ := ih s₁.due (by omega) hlevel₁ (by rw [hplace₁]; exact hplace) rfl
          exact ⟨events :: tr, s', hrun.cons hs, hend⟩
      | false =>
          rcases hplace with hp | hp
          · have hs : step call s .check = some (s₁.endTick, events) := by
              simp [step, hp, hcheck]
            exact ⟨_, _, .snoc .start trivial hs, rfl⟩
          · have hs : step call s .check = some (s₁.endIdle, events) := by
              simp [step, hp, hcheck]
            exact ⟨_, _, .snoc .start trivial hs, rfl⟩

end Loops

end Nachos.Machine
