import Nachos.Userprog.SynchConsole

/-!
# The console test

`ConsoleTest` of `userprog/progtest.cc`, which the main thread runs. Each character is taken,
echoed, and awaited before the next one is looked at, up to a `q`. There are no locks here: the
semaphores balance because nobody else uses the console.

Other threads call what they like, but for the two semaphores.
-/

namespace Nachos.Userprog

open Nachos.Lib Nachos.Machine Nachos.Threads Nachos.Threads.Kernel

/-! ## The code -/

inductive EchoSemaphore (S : Type*) where
  | readAvail
  | writeDone
  | other (s : S)
deriving DecidableEq, Repr

variable {T S L C : Type*}

abbrev EchoOp (T S L C : Type*) := Op T (EchoSemaphore S) L C

def EchoSemaphore.foreign : EchoSemaphore S → Bool
  | .other _ => true
  | _ => false

/-- A call that the test has nothing to do with. -/
def echoForeign : EchoOp T S L C → Bool
  | .p s | .v s => s.foreign
  | _ => true

/-- `'q'`. -/
def quit : UInt8 := 113

/-- Where the main thread is in `ConsoleTest`. -/
inductive EchoPoint where
  | looping
  /-- Behind `readAvail->P`. -/
  | getting
  | putting (ch : UInt8)
  /-- Behind `PutChar`. -/
  | written (ch : UInt8)
  /-- Behind `writeDone->P`. -/
  | testing (ch : UInt8)
  | returned
  /-- An assertion has failed. -/
  | aborted
deriving DecidableEq, Repr

inductive EchoEvent (T : Type*) where
  | device (e : ConsoleEvent T)
  | returned
deriving DecidableEq, Repr

abbrev EchoAction (T S L C : Type*) :=
  Action T (EchoSemaphore S) L C EchoPoint Console (EchoEvent T)

/-- `ConsoleTest` from its loop on. -/
def EchoPoint.goOn (t : T) (d : Console) : EchoPoint → Option (EchoAction T S L C)
  | .looping => some (.call (.p .readAvail) .getting)
  | .getting => some (.go (.putting d.getChar.1) d.getChar.2 [.device (.got t d.getChar.1)])
  | .putting ch =>
      match d.putChar with
      | some d' => some (.go (.written ch) d' [.device (.put t ch)])
      | none => some (.go .aborted d [.device (.busy t)])
  | .written ch => some (.call (.p .writeDone) (.testing ch))
  | .testing ch =>
      if ch = quit then some (.go .returned d [.returned]) else some (.go .looping d [])
  | .returned | .aborted => none

/-- `ReadAvail` and `WriteDone`, behind the interrupts of the console. -/
def echoHandler (d : Console) :
    LineInterrupt S → Option (Console × List (EchoEvent T) × Option (EchoSemaphore S))
  | .console i =>
      (d.handler .readAvail .writeDone i).map fun r => (r.1, r.2.1.map .device, r.2.2)
  | .other s => some (d, [], some (.other s))

/-- `ConsoleTest` in the thread `tester`. A choice is a call of another thread. -/
def consoleTest [DecidableEq T] (tester : T) : Program T (EchoSemaphore S) L C EchoPoint Console
    (EchoEvent T) (Option (EchoOp T S L C)) (LineInterrupt S) where
  start := .looping
  act t point d
    | none => if t = tester then point.goOn t d else none
    | some op => if t ≠ tester ∧ echoForeign op = true then some (.call op point) else none
  handler i d := echoHandler d i

/-- The semaphores are created with 0. -/
def echoInitial (initial : S → ℤ) : EchoSemaphore S → ℤ
  | .readAvail | .writeDone => 0
  | .other s => initial s

/-! ## What it does where -/

inductive EchoCalls : EchoPoint → EchoOp T S L C → EchoPoint → Prop where
  | await : EchoCalls .looping (.p .readAvail) .getting
  | finish (ch : UInt8) : EchoCalls (.written ch) (.p .writeDone) (.testing ch)

inductive EchoGoes (t : T) (d : Console) :
    EchoPoint → EchoPoint → Console → List (EchoEvent T) → Prop where
  | take : EchoGoes t d .getting (.putting d.incoming) d.getChar.2 [.device (.got t d.incoming)]
  | put (ch : UInt8) (d' : Console) : d.putChar = some d' →
      EchoGoes t d (.putting ch) (.written ch) d' [.device (.put t ch)]
  | busy (ch : UInt8) : d.putChar = none →
      EchoGoes t d (.putting ch) .aborted d [.device (.busy t)]
  | quit : EchoGoes t d (.testing quit) .returned d [.returned]
  | again (ch : UInt8) : ch ≠ Userprog.quit → EchoGoes t d (.testing ch) .looping d []

inductive EchoHandles (d : Console) :
    LineInterrupt S → Console → List (EchoEvent T) → Option (EchoSemaphore S) → Prop where
  | typed (c : UInt8) : d.incoming = endOfFile →
      EchoHandles d (.console (.readPoll (some c))) { d with incoming := c } [.device (.typed c)]
        (some .readAvail)
  | quiet (typed : Option UInt8) : EchoHandles d (.console (.readPoll typed)) d [] none
  | done : 0 < d.scheduled →
      EchoHandles d (.console .writeDone) d.writeDone [.device .done] (some .writeDone)
  | other (s : S) : EchoHandles d (.other s) d [] (some (.other s))

section Code

variable [DecidableEq T] {t tester : T} {d d' : Console} {point next : EchoPoint}
  {choice : Option (EchoOp T S L C)} {op : EchoOp T S L C} {events : List (EchoEvent T)}

omit [DecidableEq T] in
theorem echo_cases {action : EchoAction T S L C} (h : point.goOn t d = some action) :
    (∃ op next, action = .call op next ∧ EchoCalls point op next) ∨
      ∃ next d' events, action = .go next d' events ∧ EchoGoes t d point next d' events := by
  cases point with
  | looping => exact .inl ⟨_, _, (Option.some.inj h).symm, .await⟩
  | getting => exact .inr ⟨_, _, _, (Option.some.inj h).symm, .take⟩
  | putting ch =>
      simp only [EchoPoint.goOn] at h
      cases hput : d.putChar with
      | none =>
          rw [hput] at h
          exact .inr ⟨_, _, _, (Option.some.inj h).symm, .busy ch hput⟩
      | some d' =>
          rw [hput] at h
          exact .inr ⟨_, _, _, (Option.some.inj h).symm, .put ch d' hput⟩
  | written ch => exact .inl ⟨_, _, (Option.some.inj h).symm, .finish ch⟩
  | testing ch =>
      simp only [EchoPoint.goOn] at h
      split at h
      · rename_i hquit
        subst hquit
        exact .inr ⟨_, _, _, (Option.some.inj h).symm, .quit⟩
      · rename_i hquit
        exact .inr ⟨_, _, _, (Option.some.inj h).symm, .again ch hquit⟩
  | returned | aborted => cases h

/-- The thread of the test calls what its code says, and the others what they like. -/
theorem consoleTest_call
    (h : (consoleTest tester : Program T (EchoSemaphore S) L C _ _ _ _ _).act t point d choice =
      some (.call op next)) :
    t = tester ∧ EchoCalls point op next ∨
      t ≠ tester ∧ echoForeign op = true ∧ next = point := by
  cases choice with
  | none =>
      simp only [consoleTest] at h
      split at h
      · rename_i htester
        rcases echo_cases h with ⟨_, _, heq, hcalls⟩ | ⟨_, _, _, heq, -⟩
        · obtain ⟨rfl, rfl⟩ := Action.call.inj heq
          exact .inl ⟨htester, hcalls⟩
        · cases heq
      · cases h
  | some op' =>
      simp only [consoleTest] at h
      split at h
      · rename_i hother
        obtain ⟨rfl, rfl⟩ := Action.call.inj (Option.some.inj h)
        exact .inr ⟨hother.1, hother.2, rfl⟩
      · cases h

theorem consoleTest_go
    (h : (consoleTest tester : Program T (EchoSemaphore S) L C _ _ _ _ _).act t point d choice =
      some (.go next d' events)) : t = tester ∧ EchoGoes t d point next d' events := by
  cases choice with
  | none =>
      simp only [consoleTest] at h
      split at h
      · rename_i htester
        rcases echo_cases h with ⟨_, _, heq, -⟩ | ⟨_, _, _, heq, hgoes⟩
        · cases heq
        · obtain ⟨rfl, rfl, rfl⟩ := Action.go.inj heq
          exact ⟨htester, hgoes⟩
      · cases h
  | some op' =>
      simp only [consoleTest] at h
      split at h <;> cases h

omit [DecidableEq T] in
theorem echo_handles {i : LineInterrupt S} {sem : Option (EchoSemaphore S)}
    (h : echoHandler d i = some (d', events, sem)) : EchoHandles d i d' events sem := by
  cases i with
  | other s =>
      obtain ⟨rfl, hrest⟩ := Prod.mk.inj (Option.some.inj h)
      obtain ⟨rfl, rfl⟩ := Prod.mk.inj hrest
      exact .other s
  | console i =>
      obtain ⟨r, hr, heq⟩ := Option.map_eq_some_iff.mp h
      obtain ⟨rfl, hrest⟩ := Prod.mk.inj heq
      obtain ⟨rfl, rfl⟩ := Prod.mk.inj hrest
      cases i with
      | writeDone =>
          simp only [Console.handler] at hr
          split at hr
          · rename_i hscheduled
            obtain rfl := Option.some.inj hr
            exact .done hscheduled
          · cases hr
      | readPoll typed =>
          simp only [Console.handler] at hr
          cases hd : d.checkCharAvail typed with
          | none =>
              rw [hd] at hr
              obtain rfl := Option.some.inj hr
              exact .quiet typed
          | some d₁ =>
              rw [hd] at hr
              obtain rfl := Option.some.inj hr
              obtain ⟨hempty, c, rfl, rfl⟩ := Console.checkCharAvail_eq hd
              exact .typed c hempty

end Code

/-! ## The semaphores -/

/-- Behind `readAvail->P` there is a character to take. -/
def gettingWeight : EchoPoint → Bool → ℤ
  | .getting, false => -1
  | _, _ => 0

/-- A character that has been put is awaited. -/
def puttingWeight : EchoPoint → Bool → ℤ
  | .written _, _ | .testing _, true => 1
  | _, _ => 0

/-- The code of the threads. -/
abbrev echoProgram (T S L C : Type*) [DecidableEq T] (main : T) : Program T (EchoSemaphore S) L C
    EchoPoint Console (EchoEvent T) (Option (EchoOp T S L C)) (LineInterrupt S) := consoleTest main

abbrev EchoSystem (T S L C : Type*) := System T (EchoSemaphore S) L C EchoPoint Console

section Semaphores

variable [DecidableEq T] [DecidableEq S] {main : T}

theorem readAvailTokens : Program.Tokens (echoProgram T S L C main) .readAvail
    LineInterrupt.Regular available gettingWeight where
  start inP := by cases inP <;> rfl
  most d p inP := by
    have hcase := available_nonneg d
    have hweight : gettingWeight p inP ≤ 0 := by cases p <;> cases inP <;> simp [gettingWeight]
    omega
  never hact := by
    rcases consoleTest_call hact with ⟨-, hcalls⟩ | ⟨-, hforeign, -⟩
    · cases hcalls
    · cases hforeign
  pass hact := by
    rcases consoleTest_call hact with ⟨-, hcalls⟩ | ⟨-, hforeign, -⟩
    · cases hcalls with
      | await => exact ⟨rfl, rfl⟩
    · cases hforeign
  call hact hop := by
    rcases consoleTest_call hact with ⟨-, hcalls⟩ | ⟨-, -, rfl⟩
    · cases hcalls with
      | await => exact absurd rfl hop
      | finish ch => rfl
    · rfl
  go {t p d a next d' events} hact hfit := by
    cases (consoleTest_go hact).2 with
    | take =>
        have hfull := hfit (show (-1 : ℤ) ≠ 0 by decide)
        have hcase := available_nonneg d
        simp only [gettingWeight, available_getChar] at hfull ⊢
        omega
    | put ch d' hput =>
        obtain rfl := putChar_eq hput
        rfl
    | _ => rfl
  handler {i d d' events s} hregular hhandler := by
    cases echo_handles hhandler with
    | typed c hempty =>
        have hc : c ≠ endOfFile := fun heq => hregular (congrArg some heq)
        simp only [available, if_pos, Console.buffered_empty hempty,
          Console.buffered_full (d := { d with incoming := c }) hc]
        rfl
    | quiet typed => exact (Int.add_zero _).symm
    | done _ | other _ => exact (Int.add_zero _).symm

theorem writeDoneTokens : Program.Tokens (echoProgram T S L C main) .writeDone
    LineInterrupt.Regular outstanding puttingWeight where
  start inP := by cases inP <;> rfl
  most d p inP := by
    have hweight : puttingWeight p inP ≤ 1 := by cases p <;> cases inP <;> simp [puttingWeight]
    unfold outstanding
    omega
  never hact := by
    rcases consoleTest_call hact with ⟨-, hcalls⟩ | ⟨-, hforeign, -⟩
    · cases hcalls
    · cases hforeign
  pass hact := by
    rcases consoleTest_call hact with ⟨-, hcalls⟩ | ⟨-, hforeign, -⟩
    · cases hcalls with
      | finish ch => exact ⟨rfl, rfl⟩
    · cases hforeign
  call hact hop := by
    rcases consoleTest_call hact with ⟨-, hcalls⟩ | ⟨-, -, rfl⟩
    · cases hcalls with
      | await => rfl
      | finish ch => exact absurd rfl hop
    · rfl
  go hact hfit := by
    cases (consoleTest_go hact).2 with
    | put ch d' hput =>
        obtain rfl := putChar_eq hput
        simp only [puttingWeight, outstanding]
        omega
    | _ => rfl
  handler {i d d' events s} _ hhandler := by
    cases echo_handles hhandler with
    | done hscheduled =>
        simp only [outstanding, Console.writeDone, if_pos]
        omega
    | typed _ _ | quiet _ | other _ => exact (Int.add_zero _).symm

end Semaphores

/-! ## The echo -/

section Log

/-- What the console itself has done. -/
def echoDevices (log : List (EchoEvent T)) : List (ConsoleEvent T) :=
  log.filterMap fun
    | .device e => some e
    | .returned => none

/-- The characters that `GetChar` has returned. -/
def taken (log : List (EchoEvent T)) : List UInt8 := (gotIn (echoDevices log)).map Prod.snd

/-- The characters that `PutChar` has written. -/
def echoed (log : List (EchoEvent T)) : List UInt8 := (putIn (echoDevices log)).map Prod.snd

/-- What holds when something happens, after `log`. -/
def EchoContract (log : List (EchoEvent T)) : EchoEvent T → Prop
  | .device (.typed _) => typedIn (echoDevices log) = taken log
  | .device (.got _ c) => typedIn (echoDevices log) = taken log ++ [c] ∧ echoed log = taken log
  -- the character that has been taken last is echoed, and no `q` has been before
  | .device (.put _ c) => taken log = echoed log ++ [c] ∧ quit ∉ echoed log ∧
      (echoed log).length = dones (echoDevices log)
  | .device .done => (echoed log).length = dones (echoDevices log) + 1
  | .device (.busy _) => False
  | .returned => echoed log = taken log ∧
      (∃ before, echoed log = before ++ [quit] ∧ quit ∉ before) ∧
      (echoed log).length = dones (echoDevices log)

variable {log : List (EchoEvent T)} {e : ConsoleEvent T}

theorem echoDevices_snoc (log : List (EchoEvent T)) (e : EchoEvent T) :
    echoDevices (log ++ [e]) = echoDevices log ++ echoDevices [e] := List.filterMap_append

theorem taken_device : taken (log ++ [EchoEvent.device e]) = taken log ++ (gotIn [e]).map Prod.snd := by
  rw [taken, echoDevices_snoc, show echoDevices [_] = [_] from rfl, gotIn_snoc, List.map_append,
    taken]

theorem echoed_device : echoed (log ++ [EchoEvent.device e]) = echoed log ++ (putIn [e]).map Prod.snd := by
  rw [echoed, echoDevices_snoc, show echoDevices [_] = [_] from rfl, putIn_snoc, List.map_append,
    echoed]

theorem length_echoed (log : List (EchoEvent T)) :
    (echoed log).length = (putIn (echoDevices log)).length := List.length_map ..

/-- Something that moves no character on. -/
theorem echo_same (hgot : gotIn [e] = []) (hput : putIn [e] = []) :
    taken (log ++ [EchoEvent.device e]) = taken log ∧ echoed (log ++ [EchoEvent.device e]) = echoed log := by
  rw [taken_device, echoed_device, hgot, hput]
  exact ⟨List.append_nil _, List.append_nil _⟩

theorem echoDevices_returned (log : List (EchoEvent T)) :
    echoDevices (log ++ [EchoEvent.returned]) = echoDevices log := by
  rw [echoDevices_snoc]
  exact List.append_nil _

end Log

/-- What has been taken and not yet echoed. -/
def EchoPoint.inHand : EchoPoint → List UInt8
  | .putting ch => [ch]
  | _ => []

/-- How far the echo has got. -/
def EchoPoint.Fits (chars : List UInt8) : EchoPoint → Prop
  | .looping | .getting | .putting _ => quit ∉ chars
  | .written ch | .testing ch => ∃ before, chars = before ++ [ch] ∧ quit ∉ before
  | .returned => True
  | .aborted => False

/-- What has happened, and what there is. -/
structure Echoes (main : T) (log : List (EchoEvent T)) (s : EchoSystem T S L C) : Prop where
  tracks : s.data.Tracks (echoDevices log)
  hand : taken log = echoed log ++ (s.point main).inHand
  fits : (s.point main).Fits (echoed log)
  contract : Always EchoContract log

/-- No interrupts come but regular ones. -/
def regularEcho (_ : List (List (Event T (EchoSemaphore S) L C (EchoEvent T))))
    (_ : EchoSystem T S L C) :
    Move T (EchoSemaphore S) L C (Option (EchoOp T S L C)) (LineInterrupt S) → Prop
  | .interrupt i => i.Regular
  | _ => True

instance (tr : List (List (Event T (EchoSemaphore S) L C (EchoEvent T))))
    (s : EchoSystem T S L C)
    (m : Move T (EchoSemaphore S) L C (Option (EchoOp T S L C)) (LineInterrupt S)) :
    Decidable (regularEcho tr s m) :=
  match m with
  | .interrupt i => inferInstanceAs (Decidable i.Regular)
  | .act _ | .kernel _ => inferInstanceAs (Decidable True)

section Runs

variable {main : T} {log : List (EchoEvent T)} {s s' : EchoSystem T S L C} {next : EchoPoint}
  {d : Console} {op : EchoOp T S L C} {events : List (EchoEvent T)}
  {k : Kernel T (EchoSemaphore S) L C}

/-- Calls move no characters. -/
theorem Echoes.call {point : T → EchoPoint} (h : Echoes main log s)
    (hcalls : EchoCalls (s.point main) op next ∨ s.point main = next) (hnext : point main = next) :
    Echoes main log (⟨k, point, s.data⟩ : EchoSystem T S L C) := by
  have hhand := h.hand
  have hfits := h.fits
  refine ⟨h.tracks, ?_, ?_, h.contract⟩ <;> simp only [hnext]
  · rcases hcalls with hcalls | heq
    · generalize s.point main = p at hcalls hhand
      cases hcalls <;> exact hhand
    · rwa [← heq]
  · rcases hcalls with hcalls | heq
    · generalize s.point main = p at hcalls hfits
      cases hcalls <;> exact hfits
    · rwa [← heq]

/-- What the test does to the console. -/
theorem Echoes.go {point : T → EchoPoint} (h : Echoes main log s)
    (hgoes : EchoGoes main s.data (s.point main) next d events) (hnext : point main = next)
    (hinput : s.point main = .getting → s.data.incoming ≠ endOfFile)
    (houtput : ∀ ch, s.point main = .putting ch ∨ s.point main = .testing ch →
      s.data.scheduled = 0) :
    Echoes main (log ++ events) (⟨k, point, d⟩ : EchoSystem T S L C) := by
  have hhand := h.hand
  have hfits := h.fits
  have hlength := length_echoed log
  generalize s.point main = p at hgoes hhand hfits hinput houtput
  cases hgoes with
  | take =>
      obtain ⟨htyped, htracks⟩ := h.tracks.getChar (hinput rfl) main
      have hsame : taken log = echoed log := hhand.trans (List.append_nil _)
      refine ⟨?_, ?_, ?_, always_snoc.mpr ⟨h.contract, htyped.symm, hsame.symm⟩⟩
      · rw [echoDevices_snoc]
        exact htracks
      · show taken _ = echoed _ ++ (point main).inHand
        rw [hnext, taken_device, echoed_device, hsame]
        exact congrArg (· ++ _) (List.append_nil _).symm
      · show (point main).Fits _
        rw [hnext, echoed_device, show putIn [_] = [] from rfl, List.map_nil, List.append_nil]
        exact hfits
  | put ch d' hput =>
      obtain ⟨hdone, heq, htracks⟩ := h.tracks.putChar (houtput ch (.inl rfl)) main ch
      obtain rfl := Option.some.inj (heq.symm.trans hput)
      refine ⟨?_, ?_, ?_, always_snoc.mpr ⟨h.contract, hhand, hfits, hlength.trans hdone⟩⟩
      · rw [echoDevices_snoc]
        exact htracks
      · show taken _ = echoed _ ++ (point main).inHand
        rw [hnext, taken_device, echoed_device, hhand]
        rfl
      · show (point main).Fits _
        rw [hnext, echoed_device]
        exact ⟨_, rfl, hfits⟩
  | busy ch hput =>
      obtain ⟨-, heq, -⟩ := h.tracks.putChar (houtput ch (.inl rfl)) main ch
      cases heq.symm.trans hput
  | quit =>
      have hdone := h.tracks.written
      rw [houtput _ (.inr rfl), Nat.add_zero, ← hlength] at hdone
      have hsame : taken log = echoed log := hhand.trans (List.append_nil _)
      refine ⟨?_, ?_, ?_, always_snoc.mpr ⟨h.contract, hsame.symm, hfits, hdone⟩⟩
      · rw [echoDevices_returned]
        exact h.tracks
      · show taken _ = echoed _ ++ (point main).inHand
        rw [hnext, taken, echoed, echoDevices_returned]
        exact hhand
      · show (point main).Fits _
        rw [hnext]
        trivial
  | again ch hch =>
      rw [List.append_nil]
      refine ⟨h.tracks, ?_, ?_, h.contract⟩
      · show taken _ = echoed _ ++ (point main).inHand
        rw [hnext]
        exact hhand
      · show (point main).Fits _
        rw [hnext]
        obtain ⟨before, hchars, hbefore⟩ := hfits
        show quit ∉ echoed log
        rw [hchars, List.mem_append, List.mem_singleton, not_or]
        exact ⟨hbefore, Ne.symm hch⟩

/-- The handlers move no character on. -/
theorem Echoes.handler (h : Echoes main log s) {i : LineInterrupt S}
    {sem : Option (EchoSemaphore S)} (hregular : i.Regular)
    (hhandles : EchoHandles s.data i d events sem) :
    Echoes main (log ++ events) (⟨k, s.point, d⟩ : EchoSystem T S L C) := by
  have hlength := length_echoed log
  cases hhandles with
  | quiet typed | other s =>
      rw [List.append_nil]
      exact ⟨h.tracks, h.hand, h.fits, h.contract⟩
  | typed c hempty =>
      have hd : s.data.checkCharAvail (some c) = some { s.data with incoming := c } :=
        if_neg (not_not.mpr hempty)
      have hc : c ≠ endOfFile := fun heq => hregular (congrArg some heq)
      obtain ⟨htyped, htracks⟩ := h.tracks.checkCharAvail hc hd
      obtain ⟨htaken, hechoed⟩ : taken (log ++ [EchoEvent.device (.typed c)]) = taken log ∧
          echoed (log ++ [EchoEvent.device (.typed c)]) = echoed log := echo_same rfl rfl
      refine ⟨?_, ?_, ?_, always_snoc.mpr ⟨h.contract, htyped⟩⟩
      · rw [echoDevices_snoc]
        exact htracks
      · rw [htaken, hechoed]
        exact h.hand
      · rw [hechoed]
        exact h.fits
  | done hscheduled =>
      obtain ⟨hdone, htracks⟩ := h.tracks.writeDone hscheduled
      obtain ⟨htaken, hechoed⟩ : taken (log ++ [EchoEvent.device .done]) = taken log ∧
          echoed (log ++ [EchoEvent.device .done]) = echoed log := echo_same rfl rfl
      refine ⟨?_, ?_, ?_, always_snoc.mpr ⟨h.contract, hlength.trans hdone⟩⟩
      · rw [echoDevices_snoc]
        exact htracks
      · rw [htaken, hechoed]
        exact h.hand
      · rw [hechoed]
        exact h.fits

variable [DecidableEq T] [DecidableEq S] [DecidableEq L] [DecidableEq C]
  {es : List (Event T (EchoSemaphore S) L C (EchoEvent T))}
  {m : Move T (EchoSemaphore S) L C (Option (EchoOp T S L C)) (LineInterrupt S)}
  {initial : S → ℤ} {tr : List (List (Event T (EchoSemaphore S) L C (EchoEvent T)))}

/-- Only the main thread is in the test. -/
theorem others_looping (hrun : Run (echoProgram T S L C main).step regularEcho
    ((echoProgram T S L C main).boot main (echoInitial initial) .create) tr s) :
    ∀ t, t ≠ main → s.point t = .looping := by
  refine hrun.invariant (I := fun _ s => ∀ t, t ≠ main → s.point t = .looping)
    (fun _ _ => rfl) ?_
  intro tr s m s' es h _ hs t ht
  have hupdate : ∀ next, (s.kernel.currentThread ≠ main →
      next = s.point s.kernel.currentThread) →
      Function.update s.point s.kernel.currentThread next t = .looping := by
    intro next hnext
    by_cases hcur : t = s.kernel.currentThread
    · rw [hcur, Function.update_self, hnext (hcur ▸ ht), ← hcur]
      exact h t ht
    · rw [Function.update_of_ne hcur]
      exact h t ht
  cases Program.Steps.of_step hs with
  | call hact _ =>
      refine hupdate _ fun hcur => ?_
      rcases consoleTest_call hact with ⟨hmain, -⟩ | ⟨-, -, heq⟩
      · exact absurd hmain hcur
      · exact heq
  | go _ _ hact => exact hupdate _ fun hcur => absurd (consoleTest_go hact).1 hcur
  | kernel _ _ | interrupt _ _ | device _ => exact h t ht

/-- **Each character and its interrupt**, when the main thread goes on. -/
theorem echo_ready (hrun : Run (echoProgram T S L C main).step regularEcho
    ((echoProgram T S L C main).boot main (echoInitial initial) .create) tr s)
    (hpc : s.kernel.pc main = .outside) :
    (s.point main = .getting → s.data.incoming ≠ endOfFile) ∧
      ∀ ch, s.point main = .putting ch ∨ s.point main = .testing ch → s.data.scheduled = 0 := by
  have hnobody : ∀ {tr s}, Run (echoProgram T S L C main).step regularEcho
      ((echoProgram T S L C main).boot main (echoInitial initial) .create) tr s →
      ∀ t, t ≠ main → Program.share .readAvail gettingWeight s t = 0 ∧
        Program.share .writeDone puttingWeight s t = 0 := by
    intro tr s hrun t ht
    unfold Program.share
    rw [others_looping hrun t ht]
    constructor
    · cases decide (s.kernel.pc t = .inP .readAvail) <;> rfl
    · cases decide (s.kernel.pc t = .inP .writeDone) <;> rfl
  have hin := readAvailTokens.of_run (fun hrun t u ht hu => by
      rw [by_contra fun hne => ht (hnobody hrun t hne).1,
        by_contra fun hne => hu (hnobody hrun u hne).1])
    id rfl (Int.le_refl 0) hrun
  have hout := writeDoneTokens.of_run (fun hrun t u ht hu => by
      rw [by_contra fun hne => ht (hnobody hrun t hne).2,
        by_contra fun hne => hu (hnobody hrun u hne).2])
    id rfl (Int.le_refl 0) hrun
  refine ⟨fun hp hempty => ?_, fun ch hp => ?_⟩
  · have hshare : Program.share .readAvail gettingWeight s main = -1 := by
      rw [Program.share_awake (by simp [hpc]), hp]
      rfl
    have htotal := hin.total.eq_of_ne (by rw [hshare]; decide)
    have hnonneg := hin.nonneg
    rw [hshare, available, Console.buffered_empty hempty, List.length_nil] at htotal
    omega
  · have hshare : Program.share .writeDone puttingWeight s main = 0 := by
      rw [Program.share_awake (by simp [hpc])]
      rcases hp with hp | hp <;> rw [hp] <;> rfl
    have htotal := hout.total.eq_of_only (t := main) fun u hu => (hnobody hrun u hu).2
    have hnonneg := hout.nonneg
    rw [hshare, outstanding] at htotal
    omega

/-- What one step preserves. -/
theorem Echoes.step (h : Echoes main log s)
    (hready : s.kernel.pc main = .outside →
      (s.point main = .getting → s.data.incoming ≠ endOfFile) ∧
        ∀ ch, s.point main = .putting ch ∨ s.point main = .testing ch → s.data.scheduled = 0)
    (hregular : ∀ i, m = .interrupt i → i.Regular)
    (hs : Program.Steps (echoProgram T S L C main) s m s' es) :
    Echoes main (log ++ Program.ownLog es) s' := by
  cases hs with
  | @call a op next k' effects hact _ =>
      rw [Program.ownLog_map, List.append_nil]
      rcases consoleTest_call hact with ⟨hmain, hcalls⟩ | ⟨hother, -, rfl⟩
      · rw [hmain] at hcalls ⊢
        exact h.call (.inl hcalls) (Function.update_self ..)
      · rw [Function.update_eq_self]
        exact ⟨h.tracks, h.hand, h.fits, h.contract⟩
  | go _ hpc hact =>
      obtain ⟨hmain, hgoes⟩ := consoleTest_go hact
      rw [hmain] at hpc hgoes ⊢
      rw [Program.ownLog_own]
      exact h.go hgoes (Function.update_self ..) (hready hpc).1 (hready hpc).2
  | kernel _ _ =>
      rw [Program.ownLog_map, List.append_nil]
      exact ⟨h.tracks, h.hand, h.fits, h.contract⟩
  | @interrupt i _ _ _ _ _ hhandler _ =>
      rw [Program.ownLog_append, Program.ownLog_own, Program.ownLog_map, List.append_nil]
      exact h.handler (hregular i rfl) (echo_handles hhandler)
  | @device i _ _ hhandler =>
      rw [Program.ownLog_own]
      exact h.handler (hregular i rfl) (echo_handles hhandler)

/-- **The console test echoes.** Whatever other threads and interrupts do, and as long as no
character is typed that looks like `EOF`: each character that is typed is taken and echoed before
the next one is taken, `PutChar` never finds the console busy, and the test returns behind the
first `q`, when that has been written. -/
theorem console_test_echoes (hrun : Run (echoProgram T S L C main).step regularEcho
    ((echoProgram T S L C main).boot main (echoInitial initial) .create) tr s) :
    Always EchoContract (Program.ownLog tr.flatten) := by
  suffices h : Echoes main (Program.ownLog tr.flatten) s from h.contract
  refine hrun.invariant_with (I := fun tr s => Echoes main (Program.ownLog tr.flatten) s)
    (fun hrun => echo_ready hrun) ?_ ?_
  · exact ⟨.create, rfl, List.not_mem_nil, always_nil⟩
  · intro tr s m s' es hready h hok hs
    rw [List.flatten_append, List.flatten_singleton, Program.ownLog_append]
    refine h.step hready ?_ (.of_step hs)
    rintro i rfl
    exact hok

end Runs

/-- A round of the loop, in which `c` is typed while the main thread waits. -/
def echoMoves (c : UInt8) : List (Move (Fin 2) (EchoSemaphore Unit) Unit Unit
    (Option (EchoOp (Fin 2) Unit Unit Unit)) (LineInterrupt Unit)) :=
  [.act none, .interrupt (.console (.readPoll (some c))), .kernel .dispatch, .kernel .resume,
    .kernel .return, .act none, .act none, .act none, .interrupt (.console .writeDone),
    .kernel .dispatch, .kernel .resume, .kernel .return, .act none]

theorem console_test_echoes_sample : ∃ tr s,
    Run (echoProgram (Fin 2) Unit Unit Unit 0).step regularEcho
        ((echoProgram (Fin 2) Unit Unit Unit 0).boot (0 : Fin 2) (echoInitial fun _ => 0)
          .create) tr s ∧
      Program.ownLog tr.flatten =
        [.device (.typed 97), .device (.got 0 97), .device (.put 0 97), .device .done,
          .device (.typed quit), .device (.got 0 quit), .device (.put 0 quit), .device .done,
          .returned] ∧
      Always EchoContract (Program.ownLog tr.flatten) := by
  have hp : (exec (echoProgram (Fin 2) Unit Unit Unit 0).step regularEcho []
        ((echoProgram (Fin 2) Unit Unit Unit 0).boot (0 : Fin 2) (echoInitial fun _ => 0)
          .create) (echoMoves 97 ++ echoMoves quit)).map (fun r => Program.ownLog r.1.flatten) =
      some [.device (.typed 97), .device (.got 0 97), .device (.put 0 97), .device .done,
        .device (.typed quit), .device (.got 0 quit), .device (.put 0 quit), .device .done,
        .returned] := by
    decide +kernel
  obtain ⟨⟨tr, s⟩, hexec, hlog⟩ := Option.map_eq_some_iff.mp hp
  have hrun := Run.of_exec .start hexec
  exact ⟨tr, s, hrun, hlog, console_test_echoes hrun⟩

end Nachos.Userprog
