import Nachos.Machine.Interrupt
import Mathlib.Data.List.Count

/-!
# Devices that poll

The timer, the console and the network call `Schedule` once when they are made, and then again
first thing whenever their interrupt comes. So each has one interrupt pending, always. `Idle` says
that with a console or a network it does not come to its end for this reason.

Handlers are known by the object they are called with. The kernel's code behind them schedules
nothing; other calls of `Schedule` are those of `ReadRequest`, `PutChar` and `Send`.
-/

namespace Nachos.Machine

open Nachos.Lib

/-! ## The devices -/

/-- The procedures that are called by interrupts. -/
inductive DeviceProc where
  | timerHandler
  | diskDone
  | consoleReadPoll
  | consoleWriteDone
  | networkReadPoll
  | networkSendDone
deriving DecidableEq, Repr

/-- The type of interrupt that each is scheduled with. -/
def DeviceProc.type : DeviceProc → IntType
  | .timerHandler => .timerInt
  | .diskDone => .diskInt
  | .consoleReadPoll => .consoleReadInt
  | .consoleWriteDone => .consoleWriteInt
  | .networkReadPoll => .networkRecvInt
  | .networkSendDone => .networkSendInt

/-- `handler` with `arg`, the device. -/
structure DeviceHandler where
  proc : DeviceProc
  arg : ℕ
deriving DecidableEq, Repr

def timerTicks : ℤ := 100

def consoleTime : ℤ := 100

def networkTime : ℤ := 100

/-- What `Random` will return, and all that the handlers work on. -/
structure DeviceWorld (W : Type*) where
  random : ℕ → ℕ
  rest : W

/-- The timers, and what is done behind the calls of `Schedule`. -/
structure DeviceCode (W : Type*) where
  /-- Whether a timer is made with `doRandom`. -/
  randomize : ℕ → Bool
  /-- The handler of a timer, and whether it calls `YieldOnReturn`. -/
  timerExpired : ℕ → W → W × Bool
  /-- What the other interrupts do. -/
  handle : DeviceHandler → W → W

namespace DeviceCode

variable {W : Type*} (d : DeviceCode W)

/-- `TimeOfNextInterrupt`. -/
def timeOfNextInterrupt (timer : ℕ) (w : DeviceWorld W) : ℤ × DeviceWorld W :=
  if d.randomize timer then
    (1 + (w.random 0 : ℤ) % (timerTicks * 2), { w with random := fun n => w.random (n + 1) })
  else (timerTicks, w)

/-- `TimerExpired`, `CheckCharAvail` and `CheckPktAvail`, which schedule themselves again, and
`HandleInterrupt`, `WriteDone` and `SendDone`. -/
def call (h : DeviceHandler) (w : DeviceWorld W) (_ : ℤ) :
    Reaction DeviceHandler (DeviceWorld W) :=
  let handled := { w with rest := d.handle h w.rest }
  match h.proc with
  | .timerHandler =>
      let next := d.timeOfNextInterrupt h.arg w
      let expired := d.timerExpired h.arg next.2.rest
      ⟨{ next.2 with rest := expired.1 }, [⟨h, next.1, .timerInt⟩], expired.2⟩
  | .consoleReadPoll => ⟨handled, [⟨h, consoleTime, .consoleReadInt⟩], false⟩
  | .networkReadPoll => ⟨handled, [⟨h, networkTime, .networkRecvInt⟩], false⟩
  | .diskDone | .consoleWriteDone | .networkSendDone => ⟨handled, [], false⟩

end DeviceCode

/-- The device schedules the interrupt again when it comes. -/
def DeviceHandler.Polls (h : DeviceHandler) : Prop :=
  h.proc = .timerHandler ∨ h.proc = .consoleReadPoll ∨ h.proc = .networkReadPoll

instance (h : DeviceHandler) : Decidable h.Polls :=
  inferInstanceAs (Decidable (_ ∨ _ ∨ _))

/-! ## What is pending -/

section Pending

variable {H W : Type*}

/-- What is scheduled, but for the time. -/
def Request.kind (r : Request H) : H × IntType := (r.handler, r.type)

def PendingInterrupt.kind (p : PendingInterrupt H) : H × IntType := (p.handler, p.type)

/-- The interrupts that are pending, but for their times. -/
def Interrupt.kinds (s : Interrupt H W) : List (H × IntType) := s.pending.map (·.kind)

/-- Nothing is left to wait for. -/
def Interrupt.Nothing (s : Interrupt H W) : Prop :=
  s.pending = [] ∨ ∃ p, s.pending = [p] ∧ p.type = .timerInt

variable {s s' : Interrupt H W} {call : H → W → ℤ → Reaction H W} {events : List (Event H)}

theorem nothing_iff : s.Nothing ↔ s.kinds = [] ∨ ∃ h, s.kinds = [(h, .timerInt)] := by
  unfold Interrupt.Nothing Interrupt.kinds
  refine or_congr List.map_eq_nil_iff.symm ?_
  constructor
  · rintro ⟨p, hp, htype⟩
    exact ⟨p.handler, by rw [hp, List.map_singleton, PendingInterrupt.kind, htype]⟩
  · rintro ⟨h, hkinds⟩
    obtain ⟨p, hp, hkind⟩ := List.map_eq_singleton_iff.mp hkinds
    exact ⟨p, hp, congrArg Prod.snd hkind⟩

theorem Interrupt.Nothing.of_perm (h : s.Nothing) (hkinds : s'.kinds.Perm s.kinds) :
    s'.Nothing := by
  rw [nothing_iff] at h ⊢
  rcases h with hnil | ⟨k, hone⟩
  · rw [hnil] at hkinds
    exact .inl hkinds.eq_nil
  · rw [hone] at hkinds
    exact .inr ⟨k, List.perm_singleton.mp hkinds⟩

theorem schedule_kinds {r : Request H} {p : PendingInterrupt H}
    (hs : s.schedule r = some (s', p)) :
    s'.kinds.Perm (r.kind :: s.kinds) ∧ p.kind = r.kind ∧
      s'.place = s.place ∧ s'.level = s.level := by
  unfold Interrupt.schedule at hs
  split at hs
  · obtain ⟨rfl, rfl⟩ := Prod.mk.inj (Option.some.inj hs)
    exact ⟨(perm_sortedInsert _ _).map _, rfl, rfl, rfl⟩
  · cases hs

theorem scheduleAll_kinds {rs : List (Request H)} {ps : List (PendingInterrupt H)}
    (hs : s.scheduleAll rs = some (s', ps)) :
    s'.kinds.Perm (rs.map (·.kind) ++ s.kinds) ∧ ps.map (·.kind) = rs.map (·.kind) ∧
      s'.place = s.place ∧ s'.level = s.level := by
  induction rs generalizing s ps with
  | nil =>
      simp only [Interrupt.scheduleAll, Option.some.injEq, Prod.mk.injEq] at hs
      obtain ⟨rfl, rfl⟩ := hs
      exact ⟨.refl _, rfl, rfl, rfl⟩
  | cons r rs ih =>
      obtain ⟨⟨s₁, p⟩, h₁, hs⟩ := Option.bind_eq_some_iff.mp hs
      obtain ⟨⟨s₂, ps'⟩, h₂, hs⟩ := Option.bind_eq_some_iff.mp hs
      obtain ⟨rfl, rfl⟩ := Prod.mk.inj (Option.some.inj hs)
      obtain ⟨hkinds₁, hp, hplace₁, hlevel₁⟩ := schedule_kinds h₁
      obtain ⟨hkinds₂, hps, hplace₂, hlevel₂⟩ := ih h₂
      refine ⟨?_, by rw [List.map_cons, List.map_cons, hp, hps], hplace₂.trans hplace₁,
        hlevel₂.trans hlevel₁⟩
      -- the first request goes behind the others
      exact hkinds₂.trans ((hkinds₁.append_left _).trans List.perm_middle)

/-- What the calls of `Schedule` in a handler are in the log. -/
theorem scheduledIn_map (ps : List (PendingInterrupt H)) :
    scheduledIn (ps.map .scheduled) = ps := by
  induction ps with
  | nil => rfl
  | cons p ps ih => exact congrArg (p :: ·) ih

/-- One call of `CheckIfDue`. The requests of a handler take the place of its interrupt. -/
inductive Checked (call : H → W → ℤ → Reaction H W) (s s' : Interrupt H W) :
    List (Event H) → Bool → Prop where
  | fired {p : PendingInterrupt H} {rest : List (PendingInterrupt H)} {w : W} {now : ℤ}
      {events : List (Event H)} : s.pending = p :: rest →
      s'.kinds.Perm ((call p.handler w now).requests.map (·.kind) ++ rest.map (·.kind)) →
      (scheduledIn events).map (·.kind) = (call p.handler w now).requests.map (·.kind) →
      Checked call s s' events true
  | quiet {events : List (Event H)} : s'.kinds.Perm s.kinds → scheduledIn events = [] →
      Checked call s s' events false

theorem invoke_checked {p : PendingInterrupt H} {rest : List (PendingInterrupt H)}
    {s₀ : Interrupt H W} (hpending : s.pending = p :: rest) (hrest : s₀.pending = rest)
    (hs : s₀.invoke call p = some (s', events)) :
    Checked call s s' events true ∧ s'.place = s₀.place ∧ s'.level = s₀.level := by
  obtain ⟨⟨s₁, ps⟩, hall, hs⟩ := Option.bind_eq_some_iff.mp hs
  obtain ⟨rfl, rfl⟩ := Prod.mk.inj (Option.some.inj hs)
  obtain ⟨hkinds, hps, hplace, hlevel⟩ := scheduleAll_kinds hall
  subst hrest
  refine ⟨.fired hpending hkinds ?_, hplace, hlevel⟩
  show (scheduledIn (ps.map .scheduled)).map (·.kind) = _
  rw [scheduledIn_map, hps]

/-- **`CheckIfDue`**, and when it finds nothing while the machine is idle. -/
theorem checkIfDue_checked {advance found : Bool}
    (hs : s.checkIfDue call advance = some (s', events, found)) :
    Checked call s s' events found ∧ s'.place = s.place ∧ s'.level = .intOff ∧
      (advance = true → s.status = .idleMode → (found = false ↔ s.Nothing)) := by
  unfold Interrupt.checkIfDue at hs
  split at hs
  · cases hs
  rename_i hlevel
  rw [not_not] at hlevel
  cases hpending : s.pending with
  | nil =>
      simp only [hpending, Option.some.injEq, Prod.mk.injEq] at hs
      obtain ⟨rfl, rfl, rfl⟩ := hs
      exact ⟨.quiet (.refl _) rfl, rfl, hlevel, fun _ _ => iff_of_true rfl (.inl hpending)⟩
  | cons toOccur rest =>
      simp only [hpending] at hs
      have hback :
          ((sortedInsert PendingInterrupt.when toOccur rest).map (·.kind)).Perm s.kinds := by
        rw [Interrupt.kinds, hpending]
        exact (perm_sortedInsert _ _).map _
      split at hs
      · rename_i hearly
        simp only [Option.some.injEq, Prod.mk.injEq] at hs
        obtain ⟨rfl, rfl, rfl⟩ := hs
        refine ⟨.quiet hback rfl, rfl, hlevel, fun hadvance => ?_⟩
        rw [hearly.1] at hadvance
        cases hadvance
      · generalize hnow : (if advance = true then s.advanceTo toOccur.when else s) = now at hs
        have hsame : now.place = s.place ∧ now.level = s.level ∧ now.status = s.status := by
          subst hnow
          unfold Interrupt.advanceTo
          split
          · split <;> exact ⟨rfl, rfl, rfl⟩
          · exact ⟨rfl, rfl, rfl⟩
        have hnothing : s.Nothing ↔ toOccur.type = .timerInt ∧ rest = [] := by
          rw [Interrupt.Nothing, hpending]
          simp only [List.cons_ne_nil, List.cons.injEq, false_or]
          constructor
          · rintro ⟨p, ⟨rfl, hrest⟩, htype⟩
            exact ⟨htype, hrest⟩
          · rintro ⟨htype, hrest⟩
            exact ⟨toOccur, ⟨rfl, hrest⟩, htype⟩
        split at hs
        · rename_i hleft
          simp only [Option.some.injEq, Prod.mk.injEq] at hs
          obtain ⟨rfl, rfl, rfl⟩ := hs
          exact ⟨.quiet hback rfl, hsame.1, hsame.2.1.trans hlevel,
            fun _ _ => iff_of_true rfl (hnothing.mpr hleft.2)⟩
        · rename_i hmore
          obtain ⟨⟨s₁, events₁⟩, hinvoke, hs⟩ := Option.bind_eq_some_iff.mp hs
          simp only [Option.pure_def, Option.some.injEq, Prod.mk.injEq] at hs
          obtain ⟨rfl, rfl, rfl⟩ := hs
          obtain ⟨hchecked, hplace, hlevel'⟩ := invoke_checked hpending rfl hinvoke
          refine ⟨hchecked, hplace.trans hsame.1, hlevel'.trans (hsame.2.1.trans hlevel),
            fun _ hidle => ?_⟩
          refine iff_of_false (by decide) fun hn => hmore ⟨?_, hnothing.mp hn⟩
          exact hsame.2.2.trans hidle

end Pending

/-! ## Every device is polled -/

/-- The handlers that have been passed to `Schedule`. -/
def created (log : List (Event DeviceHandler)) : List DeviceHandler :=
  (scheduledIn log).map (·.handler)

section Polled

variable {W : Type*} {d : DeviceCode W} {log events : List (Event DeviceHandler)}
  {s s' : Interrupt DeviceHandler (DeviceWorld W)}

theorem created_append : created (log ++ events) = created log ++ created events := by
  rw [created, scheduledIn_append, List.map_append, created, created]

theorem created_eq (events : List (Event DeviceHandler)) :
    created events = ((scheduledIn events).map (·.kind)).map Prod.fst := by
  rw [created, List.map_map]
  rfl

/-- What a handler schedules. -/
theorem call_kinds (h : DeviceHandler) (w : DeviceWorld W) (now : ℤ) :
    (d.call h w now).requests.map (·.kind) = if h.Polls then [(h, h.proc.type)] else [] := by
  obtain ⟨proc, arg⟩ := h
  cases proc <;> rfl

/-- No handler schedules for now. -/
theorem call_pos (h : DeviceHandler) (w : DeviceWorld W) (now : ℤ) :
    ∀ r ∈ (d.call h w now).requests, 0 < r.fromNow := by
  have htimer : 0 < (d.timeOfNextInterrupt h.arg w).1 := by
    unfold DeviceCode.timeOfNextInterrupt timerTicks
    split
    · show 0 < 1 + (w.random 0 : ℤ) % (100 * 2)
      omega
    · exact (by decide : (0 : ℤ) < 100)
  obtain ⟨proc, arg⟩ := h
  intro r hr
  cases proc with
  | timerHandler =>
      rw [List.mem_singleton.mp hr]
      exact htimer
  | consoleReadPoll | networkReadPoll =>
      rw [List.mem_singleton.mp hr]
      exact (by decide : (0 : ℤ) < 100)
  | diskDone | consoleWriteDone | networkSendDone => cases hr

/-- A device that polls is made once, and other code schedules interrupts of their own type. -/
def constructedOnce (tr : List (List (Event DeviceHandler)))
    (_ : Interrupt DeviceHandler (DeviceWorld W)) : Label DeviceHandler (DeviceWorld W) → Prop
  | .schedule r =>
      r.type = r.handler.proc.type ∧ (r.handler.Polls → r.handler ∉ created tr.flatten)
  | _ => True

instance (tr : List (List (Event DeviceHandler))) (s : Interrupt DeviceHandler (DeviceWorld W))
    (l : Label DeviceHandler (DeviceWorld W)) : Decidable (constructedOnce tr s l) :=
  match l with
  | .schedule _ => inferInstanceAs (Decidable (_ ∧ _))
  | .oneTick | .idle | .check | .kernel _ _ _ => .isTrue trivial

/-- Each device that polls has one interrupt pending. -/
structure Polled (log : List (Event DeviceHandler))
    (s : Interrupt DeviceHandler (DeviceWorld W)) : Prop where
  typed : ∀ k ∈ s.kinds, k.2 = k.1.proc.type
  once : ∀ h : DeviceHandler, h.Polls →
    (s.kinds.map Prod.fst).count h = if h ∈ created log then 1 else 0
  halted : s.place = .halted → s.Nothing
  off : s.place = .ticking ∨ s.place = .idling → s.level = .intOff

namespace Polled

theorem boot (world : DeviceWorld W) : Polled [] (boot world) where
  typed := by
    intro k hk
    cases hk
  once := fun _ _ => rfl
  halted := by
    intro hplace
    cases hplace
  off := fun _ => rfl

/-- Only what is pending matters. -/
theorem quiet (h : Polled log s) (hkinds : s'.kinds.Perm s.kinds) (hnone : scheduledIn events = [])
    (hhalted : s'.place = .halted → s'.Nothing)
    (hoff : s'.place = .ticking ∨ s'.place = .idling → s'.level = .intOff) :
    Polled (log ++ events) s' where
  typed := fun k hk => h.typed k (hkinds.mem_iff.mp hk)
  once := by
    intro h' hpolls
    rw [(hkinds.map _).count_eq, h.once h' hpolls, created_append, created_eq events,
      hnone]
    simp
  halted := hhalted
  off := hoff

/-- A constructor, or a request of other code. -/
theorem schedule {r : Request DeviceHandler} {p : PendingInterrupt DeviceHandler}
    (h : Polled log s) (htype : r.type = r.handler.proc.type)
    (hnew : r.handler.Polls → r.handler ∉ created log) (hplace : s.place = .kernel)
    (hs : s.schedule r = some (s', p)) : Polled (log ++ [.scheduled p]) s' := by
  obtain ⟨hkinds, hp, hplace', -⟩ := schedule_kinds hs
  rw [hplace] at hplace'
  have hcreated : created [.scheduled p] = [r.handler] := by
    rw [created_eq, scheduledIn_scheduled, List.map_singleton, hp]
    rfl
  constructor
  case typed =>
    intro k hk
    rcases List.mem_cons.mp (hkinds.mem_iff.mp hk) with rfl | hk
    · exact htype
    · exact h.typed k hk
  case once =>
    intro h' hpolls
    rw [(hkinds.map _).count_eq, List.map_cons, created_append, hcreated]
    have honce := h.once h' hpolls
    by_cases heq : h' = r.handler
    · subst heq
      rw [if_neg (hnew hpolls)] at honce
      simp [Request.kind, honce]
    · have hne : r.kind.1 ≠ h' := fun hk => heq hk.symm
      rw [List.count_cons_of_ne hne, honce]
      simp [heq]
  case halted =>
    intro hhalted
    cases hplace'.symm.trans hhalted
  case off =>
    rintro (hticking | hidling)
    · cases hplace'.symm.trans hticking
    · cases hplace'.symm.trans hidling

/-- What a handler schedules takes the place of the interrupt that has called it. -/
theorem fired {p : PendingInterrupt DeviceHandler} {rest : List (PendingInterrupt DeviceHandler)}
    {w : DeviceWorld W} {now : ℤ} (h : Polled log s) (hpending : s.pending = p :: rest)
    (hkinds : s'.kinds.Perm
      ((d.call p.handler w now).requests.map (·.kind) ++ rest.map (·.kind)))
    (hscheduled : (scheduledIn events).map (·.kind) =
      (d.call p.handler w now).requests.map (·.kind))
    (hplace : s'.place ≠ .halted)
    (hoff : s'.place = .ticking ∨ s'.place = .idling → s'.level = .intOff) :
    Polled (log ++ events) s' := by
  rw [call_kinds] at hkinds hscheduled
  have hs : s.kinds = p.kind :: rest.map (·.kind) := by rw [Interrupt.kinds, hpending]; rfl
  constructor
  case typed =>
    intro k hk
    rcases List.mem_append.mp (hkinds.mem_iff.mp hk) with hk | hk
    · split at hk
      · rw [List.mem_singleton.mp hk]
      · cases hk
    · exact h.typed k (by rw [hs]; exact List.mem_cons_of_mem _ hk)
  case once =>
    intro h' hpolls
    have honce := h.once h' hpolls
    rw [hs, List.map_cons] at honce
    rw [(hkinds.map _).count_eq, created_append, created_eq events, hscheduled]
    by_cases heq : h' = p.handler
    · -- it has been pending, and is so again
      subst heq
      rw [if_pos hpolls]
      have hold : p.handler ∈ created log := by
        by_contra hnone
        rw [if_neg hnone] at honce
        simp [PendingInterrupt.kind] at honce
      rw [if_pos hold] at honce
      rw [if_pos (List.mem_append_left _ hold), ← honce]
      rfl
    · have hne : p.handler ≠ h' := fun hk => heq hk.symm
      rw [List.count_cons_of_ne (show p.kind.1 ≠ h' from hne)] at honce
      split
      · show (p.handler :: (rest.map (·.kind)).map Prod.fst).count h' =
          if h' ∈ created log ++ [p.handler] then 1 else 0
        rw [List.count_cons_of_ne hne, honce]
        simp [heq]
      · rw [List.nil_append, honce]
        simp
  case halted => exact fun hhalted => absurd hhalted hplace
  case off => exact hoff

/-- One call of `CheckIfDue`; `s₁` is how it leaves the list. -/
theorem checked {s₁ : Interrupt DeviceHandler (DeviceWorld W)} {found : Bool} (h : Polled log s)
    (hc : Checked d.call s s₁ events found) (hpending : s'.pending = s₁.pending)
    (hhalted : s'.place = .halted → found = false ∧ s.Nothing) (hoff : s'.level = .intOff ∨
      s'.place = .kernel) : Polled (log ++ events) s' := by
  have hsame : s'.kinds = s₁.kinds := by rw [Interrupt.kinds, hpending, Interrupt.kinds]
  have hlevel : s'.place = .ticking ∨ s'.place = .idling → s'.level = .intOff := by
    intro hplace
    refine hoff.resolve_right fun hkernel => ?_
    rw [hkernel] at hplace
    rcases hplace with hplace | hplace <;> cases hplace
  cases hc with
  | fired hfirst hkinds hscheduled =>
      rw [← hsame] at hkinds
      refine h.fired hfirst hkinds hscheduled (fun hplace => ?_) hlevel
      cases (hhalted hplace).1
  | quiet hkinds hnone =>
      rw [← hsame] at hkinds
      exact h.quiet hkinds hnone (fun hplace => (hhalted hplace).2.of_perm hkinds) hlevel

/-- **One step.** -/
theorem step {tr : List (List (Event DeviceHandler))} {l : Label DeviceHandler (DeviceWorld W)}
    (h : Polled tr.flatten s) (hok : constructedOnce tr s l)
    (hs : step d.call s l = some (s', events)) : Polled (tr.flatten ++ events) s' := by
  cases l with
  | schedule r =>
      simp only [Machine.step] at hs
      split at hs
      · rename_i hplace
        obtain ⟨⟨s₁, p⟩, hschedule, heq⟩ := Option.map_eq_some_iff.mp hs
        obtain ⟨rfl, rfl⟩ := Prod.mk.inj heq
        exact h.schedule hok.1 hok.2 hplace hschedule
      · cases hs
  | oneTick =>
      simp only [Machine.step] at hs
      split at hs
      · obtain ⟨rfl, rfl⟩ := Prod.mk.inj (Option.some.inj hs)
        refine h.quiet (.refl _) rfl (fun hplace => ?_) fun _ => rfl
        cases hplace
      · cases hs
  | idle =>
      simp only [Machine.step] at hs
      split at hs
      · obtain ⟨⟨s₁, events₁, found⟩, hcheck, hs⟩ := Option.bind_eq_some_iff.mp hs
        obtain ⟨rfl, rfl⟩ := Prod.mk.inj (Option.some.inj hs)
        have hidle : Polled tr.flatten { s with status := .idleMode } :=
          ⟨h.typed, h.once, h.halted, h.off⟩
        obtain ⟨hchecked, -, hlevel, hnothing⟩ := checkIfDue_checked hcheck
        refine hidle.checked hchecked rfl (fun hplace => ?_) (.inl hlevel)
        cases found with
        | true => cases hplace
        | false => exact ⟨rfl, (hnothing rfl rfl).mp rfl⟩
      · cases hs
  | check =>
      simp only [Machine.step] at hs
      cases hplace : s.place with
      | kernel | halted =>
          rw [hplace] at hs
          cases hs
      | ticking | idling =>
          simp only [hplace] at hs
          obtain ⟨⟨s₁, events₁, found⟩, hcheck, heq⟩ := Option.map_eq_some_iff.mp hs
          obtain ⟨rfl, rfl⟩ := Prod.mk.inj heq
          obtain ⟨hchecked, hsame, hlevel, -⟩ := checkIfDue_checked hcheck
          cases found with
          | true =>
              refine h.checked hchecked rfl (fun hhalted => ?_) (.inl hlevel)
              have hs₁ : s₁.place = .halted := hhalted
              rw [hsame, hplace] at hs₁
              cases hs₁
          | false =>
              refine h.checked hchecked rfl (fun hhalted => ?_) (.inr rfl)
              cases hhalted
  | kernel world status level =>
      simp only [Machine.step] at hs
      split at hs
      · rename_i hplace
        obtain ⟨rfl, rfl⟩ := Prod.mk.inj (Option.some.inj hs)
        refine h.quiet (.refl _) rfl (fun hhalted => ?_) fun hloop => ?_
        · cases hplace.symm.trans hhalted
        · rcases hloop with hticking | hidling
          · cases hplace.symm.trans hticking
          · cases hplace.symm.trans hidling
      · cases hs

/-- Every run. -/
theorem of_run {tr : List (List (Event DeviceHandler))} {world : DeviceWorld W}
    (hrun : Run (Machine.step d.call) constructedOnce (Machine.boot world) tr s) :
    Polled tr.flatten s := by
  refine hrun.invariant (I := fun tr s => Polled tr.flatten s) (.boot world) ?_
  intro tr s l s' events h hok hs
  rw [List.flatten_append, List.flatten_singleton]
  exact h.step hok hs

theorem handlers_eq : s.kinds.map Prod.fst = s.pending.map (·.handler) := by
  rw [Interrupt.kinds, List.map_map]
  rfl

/-- The type of an interrupt tells whose it is. -/
theorem nothing_iff (h : Polled log s) : s.Nothing ↔
    s.pending = [] ∨ ∃ p, s.pending = [p] ∧ p.handler.proc = .timerHandler := by
  have htimer : ∀ p ∈ s.pending, p.type = .timerInt ↔ p.handler.proc = .timerHandler := by
    intro p hp
    have htype : p.type = p.handler.proc.type := h.typed p.kind (List.mem_map_of_mem hp)
    rw [htype]
    cases p.handler.proc <;> decide
  refine or_congr_right (exists_congr fun p => and_congr_right fun hp => htimer p ?_)
  rw [hp]
  exact List.mem_singleton_self p

end Polled

theorem idle_halts_iff {call : DeviceHandler → DeviceWorld W → ℤ →
    Reaction DeviceHandler (DeviceWorld W)} (hs : step call s .idle = some (s', events)) :
    s'.place = .halted ↔ s.Nothing := by
  simp only [step] at hs
  split at hs
  · obtain ⟨⟨s₁, events₁, found⟩, hcheck, hs⟩ := Option.bind_eq_some_iff.mp hs
    obtain ⟨rfl, rfl⟩ := Prod.mk.inj (Option.some.inj hs)
    have hnothing := (checkIfDue_checked hcheck).2.2.2 rfl rfl
    cases found with
    | true => exact iff_of_false (by simp) fun hn => by cases hnothing.mpr hn
    | false => exact iff_of_true rfl (hnothing.mp rfl)
  · cases hs

/-- **Devices are polled for ever.** Whatever the kernel does and whenever it idles: a timer, a
console or a network that has been made has one interrupt pending; the machine idles to its end
just when nothing is pending but one interrupt of a timer; so it never does with a console, a
network or two timers. The loops of `OneTick` and `Idle` end all the same. -/
theorem polls_go_on {tr : List (List (Event DeviceHandler))} {world : DeviceWorld W}
    (hrun : Run (step d.call) constructedOnce (boot world) tr s) :
    (∀ h : DeviceHandler, h.Polls →
      (s.pending.map (·.handler)).count h = if h ∈ created tr.flatten then 1 else 0) ∧
    (∀ s' events, step d.call s .idle = some (s', events) → (s'.place = .halted ↔
      s.pending = [] ∨ ∃ p, s.pending = [p] ∧ p.handler.proc = .timerHandler)) ∧
    (s.place = .halted → ∀ h ∈ created tr.flatten, h.Polls →
      h.proc = .timerHandler ∧ ∀ h' ∈ created tr.flatten, h'.Polls → h' = h) ∧
    (s.place = .ticking ∨ s.place = .idling →
      ∃ tr' s', Run (step d.call) anyStep s tr' s' ∧ s'.place = .kernel) := by
  have hpolled := Polled.of_run hrun
  have honce : ∀ h : DeviceHandler, h.Polls →
      (s.pending.map (·.handler)).count h = if h ∈ created tr.flatten then 1 else 0 := by
    intro h hpolls
    rw [← Polled.handlers_eq]
    exact hpolled.once h hpolls
  refine ⟨honce, fun s' events hs => (idle_halts_iff hs).trans hpolled.nothing_iff, ?_,
    fun hloop => loop_ends call_pos (hpolled.off hloop) hloop⟩
  intro hhalted h hcreated hpolls
  -- what has been made is pending, and only one interrupt is left
  have hpending : ∀ h' ∈ created tr.flatten, h'.Polls → h' ∈ s.pending.map (·.handler) := by
    intro h' hcreated' hpolls'
    have hcount := honce h' hpolls'
    rw [if_pos hcreated'] at hcount
    exact List.count_pos_iff.mp (by omega)
  rcases hpolled.nothing_iff.mp (hpolled.halted hhalted) with hnil | ⟨p, hone, htimer⟩
  · have hmem := hpending h hcreated hpolls
    rw [hnil] at hmem
    cases hmem
  · rw [hone] at hpending
    have hp : ∀ h' ∈ created tr.flatten, h'.Polls → h' = p.handler := fun h' hcreated' hpolls' =>
      List.mem_singleton.mp (hpending h' hcreated' hpolls')
    rw [hp h hcreated hpolls]
    exact ⟨htimer, hp⟩

/-- A timer with a fixed period; nothing else is of interest. -/
def plainDevices : DeviceCode Unit :=
  ⟨fun _ => false, fun _ w => (w, true), fun _ w => w⟩

/-- A timer and a console are made, and a character is written; then the machine idles. -/
theorem polls_go_on_sample : ∃ tr s,
    Run (step plainDevices.call) constructedOnce (boot ⟨fun _ => 0, ()⟩) tr s ∧
      (firings tr.flatten).map (fun f => (f.1.handler, f.2)) =
        [(⟨.timerHandler, 0⟩, 100), (⟨.consoleReadPoll, 1⟩, 100), (⟨.consoleWriteDone, 1⟩, 130)] ∧
      s.pending.map (·.handler) = [⟨.consoleReadPoll, 1⟩, ⟨.timerHandler, 0⟩] ∧
      ∀ s' events, step plainDevices.call s .idle = some (s', events) → s'.place ≠ .halted := by
  have hp : (exec (step plainDevices.call) constructedOnce [] (boot ⟨fun _ => 0, ()⟩)
      [.schedule ⟨⟨.timerHandler, 0⟩, 100, .timerInt⟩,
        .schedule ⟨⟨.consoleReadPoll, 1⟩, 100, .consoleReadInt⟩,
        .schedule ⟨⟨.consoleWriteDone, 1⟩, 130, .consoleWriteInt⟩, .idle, .check, .check,
        .idle, .check]).map
      (fun r => ((firings r.1.flatten).map fun f => (f.1.handler, f.2),
        r.2.pending.map (·.handler))) =
      some ([(⟨.timerHandler, 0⟩, 100), (⟨.consoleReadPoll, 1⟩, 100),
        (⟨.consoleWriteDone, 1⟩, 130)], [⟨.consoleReadPoll, 1⟩, ⟨.timerHandler, 0⟩]) := by
    decide +kernel
  obtain ⟨⟨tr, s⟩, hexec, hvalues⟩ := Option.map_eq_some_iff.mp hp
  simp only [Prod.mk.injEq] at hvalues
  have hrun := Run.of_exec .start hexec
  refine ⟨tr, s, hrun, hvalues.1, hvalues.2, ?_⟩
  intro s' events hs hhalted
  have hlength := congrArg List.length hvalues.2
  rw [List.length_map] at hlength
  rcases ((polls_go_on hrun).2.1 s' events hs).mp hhalted with hnil | ⟨p, hone, -⟩
  · rw [hnil] at hlength
    cases hlength
  · rw [hone] at hlength
    cases hlength

end Polled

end Nachos.Machine
