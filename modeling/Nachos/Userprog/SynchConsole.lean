import Nachos.Machine.Console
import Nachos.Threads.Tokens

/-!
# The synchronous console

`SynchConsole` of `userprog/synchconsole.cc` over `Console`. `ReadLine` and `WriteLine` hold a
lock each for a whole line, and wait in `P` for the interrupt that goes with each character.

What is owed to the two semaphores is different. A thread that has put a character awaits the
interrupt to come; a thread that has passed `P` of the other semaphore takes the character for
which the interrupt has come.

Other code calls what it likes, but for the locks and the semaphores of the console. A line to
be written is as long as the caller says.
-/

namespace Nachos.Userprog

open Nachos.Lib Nachos.Machine Nachos.Threads Nachos.Threads.Kernel

/-! ## The console and its callers -/

inductive ConsoleSemaphore (S : Type*) where
  | inputAvailable
  | outputDone
  | other (s : S)
deriving DecidableEq, Repr

inductive ConsoleLock (L : Type*) where
  | inputMutex
  | outputMutex
  | other (l : L)
deriving DecidableEq, Repr

variable {T S L C : Type*}

/-- Calls of other code. -/
abbrev ConsoleOp (T S L C : Type*) := Op T (ConsoleSemaphore S) (ConsoleLock L) C

def ConsoleSemaphore.foreign : ConsoleSemaphore S → Bool
  | .other _ => true
  | _ => false

def ConsoleLock.foreign : ConsoleLock L → Bool
  | .other _ => true
  | _ => false

/-- A call that the console has nothing to do with. -/
def consoleForeign : ConsoleOp T S L C → Bool
  | .p s | .v s => s.foreign
  | .acquire l | .release l => l.foreign
  | .wait _ l | .signal _ l | .broadcast _ l => l.all ConsoleLock.foreign
  | .fork _ | .yield | .finish => true

/-- `'\n'`. -/
def newline : UInt8 := 10

/-- Where a thread is in `ReadLine` and `WriteLine`. -/
inductive LinePoint where
  | elsewhere
  /-- At the test of the loop, with what has been read. -/
  | reading (size : ℤ) (line : List UInt8)
  /-- Behind `inputAvailable->P`. -/
  | taking (size : ℤ) (line : List UInt8)
  /-- Behind the loop. -/
  | hasRead (line : List UInt8)
  /-- At the test of the loop, with the number of characters written. -/
  | writing (line : List UInt8) (n : ℕ)
  /-- Behind `PutChar` and `line++`. -/
  | putting (line : List UInt8) (n : ℕ)
  /-- Behind the loop. -/
  | hasWritten
  /-- An assertion has failed. -/
  | aborted
deriving DecidableEq, Repr

inductive LineEvent (T : Type*) where
  | device (e : ConsoleEvent T)
  /-- The loop of `ReadLine` is done. -/
  | read (t : T) (size : ℤ) (line : List UInt8)
  /-- The loop of `WriteLine` is done. -/
  | wrote (t : T) (line : List UInt8)
deriving DecidableEq, Repr

inductive LineChoice (T S L C : Type*) where
  | goOn
  | readLine (size : ℤ)
  | writeLine (line : List UInt8)
  /-- Something else. -/
  | other (op : ConsoleOp T S L C)

inductive LineInterrupt (S : Type*) where
  | console (i : ConsoleInterrupt)
  | other (s : S)

abbrev LineAction (T S L C : Type*) :=
  Action T (ConsoleSemaphore S) (ConsoleLock L) C LinePoint Console (LineEvent T)

/-- `ReadLine` and `WriteLine` behind the first line. -/
def LinePoint.goOn (t : T) (d : Console) : LinePoint → Option (LineAction T S L C)
  | .reading size line =>
      -- `c` is the last character, and 0 before the first
      if line.getLastD 0 ≠ newline ∧ (line.length : ℤ) < size then
        some (.call (.p .inputAvailable) (.taking size line))
      else some (.go (.hasRead line) d [.read t size line])
  | .taking size line =>
      some (.go (.reading size (line ++ [d.getChar.1])) d.getChar.2
        [.device (.got t d.getChar.1)])
  | .hasRead _ => some (.call (.release .inputMutex) .elsewhere)
  | .writing text n =>
      match text[n]? with
      | some c =>
          match d.putChar with
          | some d' => some (.go (.putting text (n + 1)) d' [.device (.put t c)])
          | none => some (.go .aborted d [.device (.busy t)])
      | none => some (.go .hasWritten d [.wrote t text])
  | .putting line n => some (.call (.p .outputDone) (.writing line n))
  | .hasWritten => some (.call (.release .outputMutex) .elsewhere)
  | .elsewhere | .aborted => none

/-- Their first line, and what else can be called. -/
def LineChoice.action : LineChoice T S L C → Option (LineAction T S L C)
  | .readLine size => some (.call (.acquire .inputMutex) (.reading size []))
  | .writeLine line => some (.call (.acquire .outputMutex) (.writing line 0))
  | .other op => if consoleForeign op then some (.call op .elsewhere) else none
  | .goOn => none

def LineInterrupt.handler (d : Console) :
    LineInterrupt S → Option (Console × List (LineEvent T) × Option (ConsoleSemaphore S))
  | .console i =>
      (d.handler .inputAvailable .outputDone i).map fun r => (r.1, r.2.1.map .device, r.2.2)
  | .other s => some (d, [], some (.other s))

def synchConsole : Program T (ConsoleSemaphore S) (ConsoleLock L) C LinePoint Console (LineEvent T)
    (LineChoice T S L C) (LineInterrupt S) where
  start := .elsewhere
  act t point d
    | .goOn => point.goOn t d
    | choice =>
        match point with
        | .elsewhere => choice.action
        | _ => none
  handler i d := i.handler d

/-- The semaphores are created with 0. -/
def consoleInitial (initial : S → ℤ) : ConsoleSemaphore S → ℤ
  | .inputAvailable | .outputDone => 0
  | .other s => initial s

/-! ## What a thread does where -/

inductive LineCalls : LinePoint → ConsoleOp T S L C → LinePoint → Prop where
  | lockInput (size : ℤ) : LineCalls .elsewhere (.acquire .inputMutex) (.reading size [])
  | lockOutput (line : List UInt8) : LineCalls .elsewhere (.acquire .outputMutex) (.writing line 0)
  | await (size : ℤ) (line : List UInt8) : line.getLastD 0 ≠ newline → (line.length : ℤ) < size →
      LineCalls (.reading size line) (.p .inputAvailable) (.taking size line)
  | finish (line : List UInt8) (n : ℕ) :
      LineCalls (.putting line n) (.p .outputDone) (.writing line n)
  | unlockInput (line : List UInt8) : LineCalls (.hasRead line) (.release .inputMutex) .elsewhere
  | unlockOutput : LineCalls .hasWritten (.release .outputMutex) .elsewhere
  | other {op : ConsoleOp T S L C} : consoleForeign op = true → LineCalls .elsewhere op .elsewhere

inductive LineGoes (t : T) (d : Console) :
    LinePoint → LinePoint → Console → List (LineEvent T) → Prop where
  | read (size : ℤ) (line : List UInt8) : line.getLastD 0 = newline ∨ size ≤ line.length →
      LineGoes t d (.reading size line) (.hasRead line) d [.read t size line]
  | take (size : ℤ) (line : List UInt8) :
      LineGoes t d (.taking size line) (.reading size (line ++ [d.incoming])) d.getChar.2
        [.device (.got t d.incoming)]
  | put (text : List UInt8) (n : ℕ) (c : UInt8) (d' : Console) : text[n]? = some c →
      d.putChar = some d' →
      LineGoes t d (.writing text n) (.putting text (n + 1)) d' [.device (.put t c)]
  | busy (line : List UInt8) (n : ℕ) : d.putChar = none →
      LineGoes t d (.writing line n) .aborted d [.device (.busy t)]
  | wrote (text : List UInt8) (n : ℕ) : text[n]? = none →
      LineGoes t d (.writing text n) .hasWritten d [.wrote t text]

/-- What the handlers do. -/
inductive LineHandles (d : Console) :
    LineInterrupt S → Console → List (LineEvent T) → Option (ConsoleSemaphore S) → Prop where
  | typed (c : UInt8) : d.incoming = endOfFile →
      LineHandles d (.console (.readPoll (some c))) { d with incoming := c } [.device (.typed c)]
        (some .inputAvailable)
  | quiet (typed : Option UInt8) : LineHandles d (.console (.readPoll typed)) d [] none
  | done : 0 < d.scheduled →
      LineHandles d (.console .writeDone) d.writeDone [.device .done] (some .outputDone)
  | other (s : S) : LineHandles d (.other s) d [] (some (.other s))

section Code

variable {t : T} {d d' : Console} {point next : LinePoint} {choice : LineChoice T S L C}
  {op : ConsoleOp T S L C} {events : List (LineEvent T)}

/-- What the code does behind the first line. -/
theorem goOn_cases {action : LineAction T S L C} (h : point.goOn t d = some action) :
    (∃ op next, action = .call op next ∧ LineCalls point op next) ∨
      ∃ next d' events, action = .go next d' events ∧ LineGoes t d point next d' events := by
  cases point with
  | reading size line =>
      simp only [LinePoint.goOn] at h
      split at h
      · rename_i hgo
        exact .inl ⟨_, _, (Option.some.inj h).symm, .await size line hgo.1 hgo.2⟩
      · rename_i hend
        rw [not_and_or, not_not, Int.not_lt] at hend
        exact .inr ⟨_, _, _, (Option.some.inj h).symm, .read size line hend⟩
  | taking size line => exact .inr ⟨_, _, _, (Option.some.inj h).symm, .take size line⟩
  | hasRead line => exact .inl ⟨_, _, (Option.some.inj h).symm, .unlockInput line⟩
  | writing text n =>
      simp only [LinePoint.goOn] at h
      cases hc : text[n]? with
      | none =>
          rw [hc] at h
          exact .inr ⟨_, _, _, (Option.some.inj h).symm, .wrote text n hc⟩
      | some c =>
          rw [hc] at h
          cases hput : d.putChar with
          | none =>
              rw [hput] at h
              exact .inr ⟨_, _, _, (Option.some.inj h).symm, .busy text n hput⟩
          | some d' =>
              rw [hput] at h
              exact .inr ⟨_, _, _, (Option.some.inj h).symm, .put text n c d' hc hput⟩
  | putting line n => exact .inl ⟨_, _, (Option.some.inj h).symm, .finish line n⟩
  | hasWritten => exact .inl ⟨_, _, (Option.some.inj h).symm, .unlockOutput⟩
  | elsewhere | aborted => cases h

theorem choice_calls {action : LineAction T S L C} (h : choice.action = some action) :
    ∃ op next, action = .call op next ∧ LineCalls .elsewhere op next := by
  cases choice with
  | goOn => cases h
  | readLine size => exact ⟨_, _, (Option.some.inj h).symm, .lockInput size⟩
  | writeLine line => exact ⟨_, _, (Option.some.inj h).symm, .lockOutput line⟩
  | other op =>
      simp only [LineChoice.action] at h
      split at h
      · rename_i hforeign
        exact ⟨_, _, (Option.some.inj h).symm, .other hforeign⟩
      · cases h

/-- What a thread does next. -/
theorem synchConsole_cases {action : LineAction T S L C}
    (h : (synchConsole : Program T _ _ C _ _ _ (LineChoice T S L C) (LineInterrupt S)).act t point d
      choice = some action) :
    (∃ op next, action = .call op next ∧ LineCalls point op next) ∨
      ∃ next d' events, action = .go next d' events ∧ LineGoes t d point next d' events := by
  have hchoice : ∀ {point : LinePoint}, (match point with
      | .elsewhere => choice.action
      | _ => none) = some action →
      (∃ op next, action = .call op next ∧ LineCalls point op next) ∨
        ∃ next d' events, action = .go next d' events ∧ LineGoes t d point next d' events := by
    intro point h
    cases point with
    | elsewhere => exact .inl (choice_calls h)
    | _ => cases h
  cases choice with
  | goOn => exact goOn_cases h
  | readLine size => exact hchoice h
  | writeLine line => exact hchoice h
  | other op => exact hchoice h

theorem synchConsole_call
    (h : (synchConsole : Program T _ _ C _ _ _ (LineChoice T S L C) (LineInterrupt S)).act t point d
      choice = some (.call op next)) : LineCalls point op next := by
  rcases synchConsole_cases h with ⟨_, _, heq, hcalls⟩ | ⟨_, _, _, heq, -⟩
  · obtain ⟨rfl, rfl⟩ := Action.call.inj heq
    exact hcalls
  · cases heq

theorem synchConsole_go
    (h : (synchConsole : Program T _ _ C _ _ _ (LineChoice T S L C) (LineInterrupt S)).act t point d
      choice = some (.go next d' events)) : LineGoes t d point next d' events := by
  rcases synchConsole_cases h with ⟨_, _, heq, -⟩ | ⟨_, _, _, heq, hgoes⟩
  · cases heq
  · obtain ⟨rfl, rfl, rfl⟩ := Action.go.inj heq
    exact hgoes

theorem synchConsole_handler {i : LineInterrupt S} {sem : Option (ConsoleSemaphore S)}
    (h : (synchConsole : Program T _ _ C _ _ _ (LineChoice T S L C) _).handler i d =
      some (d', events, sem)) : LineHandles d i d' events sem := by
  cases i with
  | other s =>
      obtain ⟨rfl, hrest⟩ := Prod.mk.inj (Option.some.inj h)
      obtain ⟨rfl, rfl⟩ := Prod.mk.inj hrest
      exact .other s
  | console i =>
      obtain ⟨r, hr, heq⟩ := Option.map_eq_some_iff.mp h
      obtain ⟨rfl, hrest⟩ := Prod.mk.inj heq
      obtain ⟨rfl, rfl⟩ := Prod.mk.inj hrest
      cases i with
      | writeDone =>
          simp only [Console.handler] at hr
          split at hr
          · rename_i hscheduled
            obtain rfl := Option.some.inj hr
            exact .done hscheduled
          · cases hr
      | readPoll typed =>
          simp only [Console.handler] at hr
          cases hd : d.checkCharAvail typed with
          | none =>
              rw [hd] at hr
              obtain rfl := Option.some.inj hr
              exact .quiet typed
          | some d₁ =>
              rw [hd] at hr
              obtain rfl := Option.some.inj hr
              obtain ⟨hempty, c, rfl, rfl⟩ := Console.checkCharAvail_eq hd
              exact .typed c hempty

end Code

/-! ## The sections -/

/-- The points between `inputMutex->Acquire` and `inputMutex->Release`. -/
def LinePoint.Reading : LinePoint → Prop
  | .reading _ _ | .taking _ _ | .hasRead _ => True
  | _ => False

/-- The points between `outputMutex->Acquire` and `outputMutex->Release`. -/
def LinePoint.Writing : LinePoint → Prop
  | .writing _ _ | .putting _ _ | .hasWritten | .aborted => True
  | _ => False

/-- What a call of `ReadLine` has read so far. -/
def LinePoint.lineRead : LinePoint → List UInt8
  | .reading _ line | .taking _ line => line
  | _ => []

/-- What a call of `WriteLine` has written so far. -/
def LinePoint.lineWritten : LinePoint → List UInt8
  | .writing line n | .putting line n => line.take n
  | _ => []

/-- Who has passed `P` has a character to take. -/
def inputWeight : LinePoint → Bool → ℤ
  | .taking _ _, false => -1
  | _, _ => 0

/-- Who has put a character has an interrupt to await. -/
def outputWeight : LinePoint → Bool → ℤ
  | .putting _ _, _ | .writing _ _, true => 1
  | _, _ => 0

/-- The characters for which `readHandler` has been called. -/
def available (d : Console) : ℤ := d.buffered.length

/-- What the console still owes: the interrupts that are scheduled. -/
def outstanding (d : Console) : ℤ := -d.scheduled

/-- What there is to be read. -/
def LineInterrupt.typed : LineInterrupt S → Option UInt8
  | .console (.readPoll typed) => typed
  | _ => none

/-- No character is typed that looks like `EOF`. -/
def LineInterrupt.Regular (i : LineInterrupt S) : Prop := i.typed ≠ some endOfFile

section Sections

/-- The code of the threads. -/
abbrev lineProgram (T S L C : Type*) : Program T (ConsoleSemaphore S) (ConsoleLock L) C LinePoint
    Console (LineEvent T) (LineChoice T S L C) (LineInterrupt S) := synchConsole

theorem lineProgram_guarded_input :
    (lineProgram T S L C).Guarded .inputMutex LinePoint.Reading where
  start := id
  call t point d choice op next hact hnext := by
    cases synchConsole_call hact with
    | lockInput size => exact .inl rfl
    | await size line _ _ => exact .inr ⟨trivial, by simp⟩
    | _ => exact hnext.elim
  go t point d choice next d' events hact hnext := by
    cases synchConsole_go hact with
    | read _ _ _ | take _ _ => trivial
    | _ => exact hnext.elim

theorem lineProgram_guarded_output :
    (lineProgram T S L C).Guarded .outputMutex LinePoint.Writing where
  start := id
  call t point d choice op next hact hnext := by
    cases synchConsole_call hact with
    | lockOutput line => exact .inl rfl
    | finish line n => exact .inr ⟨trivial, by simp⟩
    | _ => exact hnext.elim
  go t point d choice next d' events hact hnext := by
    cases synchConsole_go hact with
    | put _ _ _ _ _ _ | busy _ _ _ | wrote _ _ _ => trivial
    | _ => exact hnext.elim

theorem lineProgram_behind_input : Program.Behind (lineProgram T S L C) .inputMutex
    fun p => p.lineRead ≠ [] where
  acquire hact := by
    cases synchConsole_call hact with
    | lockInput size => exact not_not.mpr rfl
    | other hforeign => exact not_not.mpr rfl
  wait hact := by
    cases synchConsole_call hact with
    | other hforeign => exact not_not.mpr rfl

theorem lineProgram_behind_output : Program.Behind (lineProgram T S L C) .outputMutex
    fun p => p.lineWritten ≠ [] where
  acquire hact := by
    cases synchConsole_call hact with
    | lockOutput line => exact not_not.mpr rfl
    | other hforeign => exact not_not.mpr rfl
  wait hact := by
    cases synchConsole_call hact with
    | other hforeign => exact not_not.mpr rfl

theorem lineProgram_owed_input :
    Program.OwedInside (lineProgram T S L C) .inputMutex LinePoint.Reading inputWeight where
  inside {p inP} h := by
    cases p with
    | taking _ _ => trivial
    | _ => cases inP <;> exact absurd rfl h
  behind :=
    { acquire := fun hact => by
        cases synchConsole_call hact with
        | lockInput size => exact not_not.mpr rfl
        | other hforeign => exact not_not.mpr rfl
      wait := fun hact => by
        cases synchConsole_call hact with
        | other hforeign => exact not_not.mpr rfl }

theorem lineProgram_owed_output :
    Program.OwedInside (lineProgram T S L C) .outputMutex LinePoint.Writing outputWeight where
  inside {p inP} h := by
    cases p with
    | writing _ _ | putting _ _ => trivial
    | _ => cases inP <;> exact absurd rfl h
  behind :=
    { acquire := fun hact => by
        cases synchConsole_call hact with
        | lockOutput line => exact not_not.mpr rfl
        | other hforeign => exact not_not.mpr rfl
      wait := fun hact => by
        cases synchConsole_call hact with
        | other hforeign => exact not_not.mpr rfl }

end Sections

/-! ## The semaphores -/

section Semaphores

variable [DecidableEq S]

theorem available_getChar (d : Console) : available d.getChar.2 = 0 := rfl

theorem available_nonneg (d : Console) : available d = 0 ∨ available d = 1 := by
  unfold available Console.buffered
  split
  · exact .inl rfl
  · exact .inr rfl

theorem putChar_eq {d d' : Console} (h : d.putChar = some d') :
    d' = { d with putBusy := true, scheduled := d.scheduled + 1 } := by
  unfold Console.putChar at h
  split at h
  · cases h
  · exact (Option.some.inj h).symm

theorem inputTokens : Program.Tokens (lineProgram T S L C) .inputAvailable LineInterrupt.Regular
    available inputWeight where
  start _ := rfl
  most d p inP := by
    have hcase := available_nonneg d
    have hweight : inputWeight p inP ≤ 0 := by cases p <;> cases inP <;> simp [inputWeight]
    omega
  never hact := by
    cases synchConsole_call hact with
    | other hforeign => cases hforeign
  pass hact := by
    cases synchConsole_call hact with
    | await size line _ _ => exact ⟨rfl, rfl⟩
    | other hforeign => cases hforeign
  call hact hop := by
    cases synchConsole_call hact with
    | await size line _ _ => exact absurd rfl hop
    | _ => rfl
  go {t p d a next d' events} hact hfit := by
    cases synchConsole_go hact with
    | take size line =>
        have hfull := hfit (show (-1 : ℤ) ≠ 0 by decide)
        have hcase := available_nonneg d
        simp only [inputWeight, available_getChar] at hfull ⊢
        omega
    | put line n c d' _ hput =>
        obtain rfl := putChar_eq hput
        rfl
    | _ => rfl
  handler {i d d' events s} hregular hhandler := by
    cases synchConsole_handler hhandler with
    | typed c hempty =>
        have hc : c ≠ endOfFile := fun heq => hregular (congrArg some heq)
        simp only [available, if_pos, Console.buffered_empty hempty,
          Console.buffered_full (d := { d with incoming := c }) hc]
        rfl
    | quiet typed => exact (Int.add_zero _).symm
    | done _ | other _ => exact (Int.add_zero _).symm

theorem outputTokens : Program.Tokens (lineProgram T S L C) .outputDone LineInterrupt.Regular
    outstanding outputWeight where
  start _ := rfl
  most d p inP := by
    have hweight : outputWeight p inP ≤ 1 := by cases p <;> cases inP <;> simp [outputWeight]
    unfold outstanding
    omega
  never hact := by
    cases synchConsole_call hact with
    | other hforeign => cases hforeign
  pass hact := by
    cases synchConsole_call hact with
    | finish line n => exact ⟨rfl, rfl⟩
    | other hforeign => cases hforeign
  call hact hop := by
    cases synchConsole_call hact with
    | finish line n => exact absurd rfl hop
    | _ => rfl
  go hact hfit := by
    cases synchConsole_go hact with
    | put line n c d' _ hput =>
        obtain rfl := putChar_eq hput
        simp only [outputWeight, outstanding]
        omega
    | _ => rfl
  handler {i d d' events s} _ hhandler := by
    cases synchConsole_handler hhandler with
    | done hscheduled =>
        simp only [outstanding, Console.writeDone, if_pos]
        omega
    | typed _ _ | quiet _ | other _ => exact (Int.add_zero _).symm

end Semaphores

/-! ## Whole lines -/

section Log

/-- What the console itself has done. -/
def devices (log : List (LineEvent T)) : List (ConsoleEvent T) :=
  log.filterMap fun
    | .device e => some e
    | _ => none

/-- The lines that have been read, character by character. -/
def readIn (log : List (LineEvent T)) : List (T × UInt8) :=
  log.flatMap fun
    | .read t _ line => line.map (t, ·)
    | _ => []

/-- The lines that have been written. -/
def wroteIn (log : List (LineEvent T)) : List (T × UInt8) :=
  log.flatMap fun
    | .wrote t line => line.map (t, ·)
    | _ => []

/-- A line of at most `size` characters ends with the first newline, or is full. -/
structure IsLine (size : ℤ) (line : List UInt8) : Prop where
  first : newline ∉ line.dropLast
  fits : (line.length : ℤ) ≤ max 0 size
  ends : line.getLast? = some newline ∨ (line.length : ℤ) = max 0 size

/-- What holds when something happens, after `log`. -/
def LineContract (log : List (LineEvent T)) : LineEvent T → Prop
  -- everything typed before has been taken
  | .device (.typed _) => typedIn (devices log) = (gotIn (devices log)).map Prod.snd
  | .device (.got _ c) => typedIn (devices log) = (gotIn (devices log)).map Prod.snd ++ [c]
  | .device (.put _ _) => (putIn (devices log)).length = dones (devices log)
  | .device .done => (putIn (devices log)).length = dones (devices log) + 1
  | .device (.busy _) => False
  | .read t size line => gotIn (devices log) = readIn log ++ line.map (t, ·) ∧ IsLine size line
  | .wrote t line => putIn (devices log) = wroteIn log ++ line.map (t, ·) ∧
      (putIn (devices log)).length = dones (devices log)

variable {log : List (LineEvent T)} {e : LineEvent T}

theorem devices_snoc : devices (log ++ [e]) = devices log ++ devices [e] := List.filterMap_append

theorem readIn_snoc : readIn (log ++ [e]) = readIn log ++ readIn [e] := List.flatMap_append

theorem wroteIn_snoc : wroteIn (log ++ [e]) = wroteIn log ++ wroteIn [e] := List.flatMap_append

/-- The end of a loop is nothing to the console. -/
theorem devices_higher (log : List (LineEvent T)) (e : LineEvent T) (he : devices [e] = []) :
    devices (log ++ [e]) = devices log := by
  rw [devices_snoc, he, List.append_nil]

theorem readIn_lower (log : List (LineEvent T)) (e : LineEvent T) (he : readIn [e] = []) :
    readIn (log ++ [e]) = readIn log := by
  rw [readIn_snoc, he, List.append_nil]

theorem wroteIn_lower (log : List (LineEvent T)) (e : LineEvent T) (he : wroteIn [e] = []) :
    wroteIn (log ++ [e]) = wroteIn log := by
  rw [wroteIn_snoc, he, List.append_nil]

end Log

/-- What is known of a line that is being read. -/
def LinePoint.Sound : LinePoint → Prop
  | .reading size line => newline ∉ line.dropLast ∧ (line.length : ℤ) ≤ max 0 size
  | .taking size line => newline ∉ line ∧ (line.length : ℤ) < size
  | _ => True

theorem not_mem_of_getLastD {line : List UInt8} (hfirst : newline ∉ line.dropLast)
    (hlast : line.getLastD 0 ≠ newline) : newline ∉ line := by
  rcases List.eq_nil_or_concat line with rfl | ⟨rest, c, rfl⟩
  · exact List.not_mem_nil
  · rw [List.concat_eq_append] at *
    simp only [List.dropLast_concat, List.getLastD_concat, List.mem_append, List.mem_singleton,
      not_or] at *
    exact ⟨hfirst, Ne.symm hlast⟩

/-- The loop of `ReadLine` ends with a line. -/
theorem LinePoint.Sound.isLine {size : ℤ} {line : List UInt8}
    (h : (LinePoint.reading size line).Sound)
    (hend : line.getLastD 0 = newline ∨ size ≤ line.length) : IsLine size line := by
  refine ⟨h.1, h.2, hend.imp (fun hlast => ?_) fun hfull => ?_⟩
  · rcases List.eq_nil_or_concat line with rfl | ⟨rest, c, rfl⟩
    · cases hlast
    · rw [List.concat_eq_append, List.getLastD_concat] at hlast
      rw [List.concat_eq_append, List.getLast?_concat, hlast]
  · have hfits := h.2
    omega

abbrev LineSystem (T S L C : Type*) :=
  System T (ConsoleSemaphore S) (ConsoleLock L) C LinePoint Console

/-- What has been moved beside whole lines is in the hands of one thread. -/
def InHand (f : LinePoint → List UInt8) (point : T → LinePoint) (chars lines : List (T × UInt8)) :
    Prop :=
  ∃ rest, Total [] (fun t => (f (point t)).map (t, ·)) rest ∧ chars = lines ++ rest

section InHand

variable {f : LinePoint → List UInt8} {point point' : T → LinePoint}
  {chars lines : List (T × UInt8)} {t : T}

theorem InHand.congr (h : InHand f point chars lines) (hf : ∀ t, f (point' t) = f (point t)) :
    InHand f point' chars lines :=
  h.imp fun _ hrest => ⟨hrest.1.congr fun t => by rw [hf t], hrest.2⟩

theorem InHand.eq (h : InHand f point chars lines) (hothers : ∀ u, u ≠ t → f (point u) = []) :
    chars = lines ++ (f (point t)).map (t, ·) := by
  obtain ⟨rest, htotal, rfl⟩ := h
  rw [htotal.eq_of_only (t := t) fun u hu => by rw [hothers u hu, List.map_nil]]

theorem InHand.update [DecidableEq T] {next : LinePoint}
    (hothers : ∀ u, u ≠ t → f (point u) = []) (heq : chars = lines ++ (f next).map (t, ·)) :
    InHand f (Function.update point t next) chars lines := by
  refine ⟨_, Total.of_only (t := t) fun u hu => ?_, ?_⟩
  · rw [Function.update_of_ne hu, hothers u hu, List.map_nil]
  · rw [Function.update_self]
    exact heq

end InHand

/-- No interrupts come but regular ones. -/
def regularTyping (_ : List (List (Event T (ConsoleSemaphore S) (ConsoleLock L) C (LineEvent T))))
    (_ : LineSystem T S L C) :
    Move T (ConsoleSemaphore S) (ConsoleLock L) C (LineChoice T S L C) (LineInterrupt S) → Prop
  | .interrupt i => i.Regular
  | _ => True

instance (i : LineInterrupt S) : Decidable i.Regular :=
  inferInstanceAs (Decidable (i.typed ≠ some endOfFile))

instance (tr : List (List (Event T (ConsoleSemaphore S) (ConsoleLock L) C (LineEvent T))))
    (s : LineSystem T S L C)
    (m : Move T (ConsoleSemaphore S) (ConsoleLock L) C (LineChoice T S L C) (LineInterrupt S)) :
    Decidable (regularTyping tr s m) :=
  match m with
  | .interrupt i => inferInstanceAs (Decidable i.Regular)
  | .act _ | .kernel _ => inferInstanceAs (Decidable True)

/-- What has happened, and what there is. -/
structure Lines (log : List (LineEvent T)) (s : LineSystem T S L C) : Prop where
  tracks : s.data.Tracks (devices log)
  got : InHand LinePoint.lineRead s.point (gotIn (devices log)) (readIn log)
  put : InHand LinePoint.lineWritten s.point (putIn (devices log)) (wroteIn log)
  sound : ∀ t, (s.point t).Sound
  contract : Always LineContract log

section Runs

variable {log : List (LineEvent T)} {s : LineSystem T S L C} {next : LinePoint} {d : Console}
  {op : ConsoleOp T S L C} {events : List (LineEvent T)}
  {k : Kernel T (ConsoleSemaphore S) (ConsoleLock L) C}

variable [DecidableEq T]

/-- Calls move no characters. -/
theorem Lines.call (h : Lines log s)
    (hcalls : LineCalls (s.point s.kernel.currentThread) op next) :
    Lines log (⟨k, Function.update s.point s.kernel.currentThread next, s.data⟩ :
      LineSystem T S L C) := by
  obtain ⟨hread, hwritten, hsound⟩ : next.lineRead = (s.point s.kernel.currentThread).lineRead ∧
      next.lineWritten = (s.point s.kernel.currentThread).lineWritten ∧ next.Sound := by
    have hsound := h.sound s.kernel.currentThread
    generalize s.point s.kernel.currentThread = p at hcalls hsound
    cases hcalls with
    | await size line hlast hsize =>
        exact ⟨rfl, rfl, not_mem_of_getLastD hsound.1 hlast, hsize⟩
    | lockInput size =>
        refine ⟨rfl, rfl, List.not_mem_nil, ?_⟩
        show (0 : ℤ) ≤ max 0 size
        omega
    | lockOutput _ | finish _ _ | unlockInput _ | unlockOutput | other _ =>
        exact ⟨rfl, rfl, trivial⟩
  exact ⟨h.tracks, h.got.congr (Program.apply_update hread),
    h.put.congr (Program.apply_update hwritten),
    Program.forall_update h.sound hsound, h.contract⟩

/-- What a thread does to the console and its line. -/
theorem Lines.go (h : Lines log s)
    (hgoes : LineGoes s.kernel.currentThread s.data (s.point s.kernel.currentThread) next d events)
    (hread : (s.point s.kernel.currentThread).Reading →
      ∀ u, u ≠ s.kernel.currentThread → (s.point u).lineRead = [])
    (hwrite : (s.point s.kernel.currentThread).Writing →
      ∀ u, u ≠ s.kernel.currentThread → (s.point u).lineWritten = [])
    (hinput : ∀ size line, s.point s.kernel.currentThread = .taking size line →
      s.data.incoming ≠ endOfFile)
    (houtput : ∀ line n, s.point s.kernel.currentThread = .writing line n →
      s.data.scheduled = 0) :
    Lines (log ++ events) (⟨s.kernel, Function.update s.point s.kernel.currentThread next, d⟩ :
      LineSystem T S L C) := by
  have hsounds : next.Sound → ∀ t, (Function.update s.point s.kernel.currentThread next t).Sound :=
    fun hnext => Program.forall_update h.sound hnext
  have hsound := h.sound s.kernel.currentThread
  generalize hp : s.point s.kernel.currentThread = p at hgoes hread hwrite hinput houtput hsound
  -- the line that is not concerned
  have hreadKept : next.lineRead = p.lineRead → ∀ t,
      (Function.update s.point s.kernel.currentThread next t).lineRead = (s.point t).lineRead :=
    fun heq => Program.apply_update (heq.trans (congrArg _ hp.symm))
  have hwrittenKept : next.lineWritten = p.lineWritten → ∀ t,
      (Function.update s.point s.kernel.currentThread next t).lineWritten =
        (s.point t).lineWritten :=
    fun heq => Program.apply_update (heq.trans (congrArg _ hp.symm))
  cases hgoes with
  | read size line hend =>
      have hothers := hread trivial
      have hgot := h.got.eq hothers
      rw [hp] at hgot
      have hdevices := devices_higher log (.read s.kernel.currentThread size line) rfl
      refine ⟨?_, ?_, ?_, hsounds trivial, always_snoc.mpr ⟨h.contract, hgot, hsound.isLine hend⟩⟩
      · rw [hdevices]
        exact h.tracks
      · rw [hdevices, readIn_snoc]
        refine .update hothers ?_
        rw [hgot, show LinePoint.lineRead (.hasRead line) = [] from rfl, List.map_nil,
          List.append_nil]
        exact congrArg _ (List.append_nil _).symm
      · rw [hdevices, wroteIn_lower log _ rfl]
        exact h.put.congr (hwrittenKept rfl)
  | take size line =>
      have hothers := hread trivial
      have hgot := h.got.eq hothers
      rw [hp] at hgot
      obtain ⟨htyped, htracks⟩ := h.tracks.getChar (hinput size line rfl) s.kernel.currentThread
      refine ⟨?_, ?_, ?_, hsounds ?_, always_snoc.mpr ⟨h.contract, htyped.symm⟩⟩
      · rw [devices_snoc]
        exact htracks
      · rw [devices_snoc, show devices [_] = [_] from rfl, gotIn_snoc, readIn_lower log _ rfl]
        refine .update hothers ?_
        simp only [hgot, LinePoint.lineRead, List.map_append, List.append_assoc]
        rfl
      · rw [devices_snoc, show devices [_] = [_] from rfl, putIn_snoc, wroteIn_lower log _ rfl,
          show putIn [_] = [] from rfl, List.append_nil]
        exact h.put.congr (hwrittenKept rfl)
      · refine ⟨?_, ?_⟩
        · rw [List.dropLast_concat]
          exact hsound.1
        · have hlength : (line.length : ℤ) < size := hsound.2
          rw [List.length_append, List.length_singleton]
          omega
  | put line n c d' hc hput =>
      have hothers := hwrite trivial
      have hwritten := h.put.eq hothers
      rw [hp] at hwritten
      obtain ⟨hdone, heq, htracks⟩ := h.tracks.putChar (houtput line n rfl) s.kernel.currentThread c
      obtain rfl := Option.some.inj (heq.symm.trans hput)
      refine ⟨?_, ?_, ?_, hsounds trivial, always_snoc.mpr ⟨h.contract, hdone⟩⟩
      · rw [devices_snoc]
        exact htracks
      · rw [devices_snoc, show devices [_] = [_] from rfl, gotIn_snoc, readIn_lower log _ rfl,
          show gotIn [_] = [] from rfl, List.append_nil]
        exact h.got.congr (hreadKept rfl)
      · rw [devices_snoc, show devices [_] = [_] from rfl, putIn_snoc, wroteIn_lower log _ rfl]
        refine .update hothers ?_
        simp only [hwritten, LinePoint.lineWritten, List.take_add_one, hc, List.map_append,
          List.append_assoc]
        rfl
  | busy line n hput =>
      obtain ⟨-, heq, -⟩ := h.tracks.putChar (houtput line n rfl) s.kernel.currentThread 0
      cases heq.symm.trans hput
  | wrote line n hend =>
      have hothers := hwrite trivial
      have hwritten := h.put.eq hothers
      rw [hp, show LinePoint.lineWritten (.writing line n) = line.take n from rfl,
        List.take_of_length_le (List.getElem?_eq_none_iff.mp hend)] at hwritten
      have hdone := h.tracks.written
      rw [houtput line n rfl] at hdone
      have hdevices := devices_higher log (.wrote s.kernel.currentThread line) rfl
      refine ⟨?_, ?_, ?_, hsounds trivial, always_snoc.mpr ⟨h.contract, hwritten, hdone⟩⟩
      · rw [hdevices]
        exact h.tracks
      · rw [hdevices, readIn_lower log _ rfl]
        exact h.got.congr (hreadKept rfl)
      · rw [hdevices, wroteIn_snoc]
        refine .update hothers ?_
        rw [hwritten, show LinePoint.lineWritten .hasWritten = [] from rfl, List.map_nil,
          List.append_nil]
        exact congrArg _ (List.append_nil _).symm

omit [DecidableEq T] in
/-- The handlers move no line. -/
theorem Lines.handler (h : Lines log s) {i : LineInterrupt S} {sem : Option (ConsoleSemaphore S)}
    (hregular : i.Regular) (hhandles : LineHandles s.data i d events sem) :
    Lines (log ++ events) (⟨k, s.point, d⟩ : LineSystem T S L C) := by
  cases hhandles with
  | quiet typed | other s =>
      rw [List.append_nil]
      exact ⟨h.tracks, h.got, h.put, h.sound, h.contract⟩
  | typed c hempty =>
      have hd : s.data.checkCharAvail (some c) = some { s.data with incoming := c } :=
        if_neg (not_not.mpr hempty)
      have hc : c ≠ endOfFile := fun heq => hregular (congrArg some heq)
      obtain ⟨htyped, htracks⟩ := h.tracks.checkCharAvail hc hd
      refine ⟨?_, ?_, ?_, h.sound, always_snoc.mpr ⟨h.contract, htyped⟩⟩
      · rw [devices_snoc]
        exact htracks
      · rw [devices_snoc, show devices [_] = [_] from rfl, gotIn_snoc, readIn_lower log _ rfl,
          show gotIn [_] = [] from rfl, List.append_nil]
        exact h.got
      · rw [devices_snoc, show devices [_] = [_] from rfl, putIn_snoc, wroteIn_lower log _ rfl,
          show putIn [_] = [] from rfl, List.append_nil]
        exact h.put
  | done hscheduled =>
      obtain ⟨hdone, htracks⟩ := h.tracks.writeDone hscheduled
      refine ⟨?_, ?_, ?_, h.sound, always_snoc.mpr ⟨h.contract, hdone⟩⟩
      · rw [devices_snoc]
        exact htracks
      · rw [devices_snoc, show devices [_] = [_] from rfl, gotIn_snoc, readIn_lower log _ rfl,
          show gotIn [_] = [] from rfl, List.append_nil]
        exact h.got
      · rw [devices_snoc, show devices [_] = [_] from rfl, putIn_snoc, wroteIn_lower log _ rfl,
          show putIn [_] = [] from rfl, List.append_nil]
        exact h.put

variable [DecidableEq S] [DecidableEq L] [DecidableEq C]
  {es : List (Event T (ConsoleSemaphore S) (ConsoleLock L) C (LineEvent T))}
  {s' : LineSystem T S L C}
  {m : Move T (ConsoleSemaphore S) (ConsoleLock L) C (LineChoice T S L C) (LineInterrupt S)}
  {main : T} {initial : S → ℤ}
  {tr : List (List (Event T (ConsoleSemaphore S) (ConsoleLock L) C (LineEvent T)))}

/-- What is known of the semaphores and the locks, for the thread that runs. -/
structure Ready (s : LineSystem T S L C) : Prop where
  read : s.kernel.pc s.kernel.currentThread = .outside →
    (s.point s.kernel.currentThread).Reading →
      ∀ u, u ≠ s.kernel.currentThread → (s.point u).lineRead = []
  write : s.kernel.pc s.kernel.currentThread = .outside →
    (s.point s.kernel.currentThread).Writing →
      ∀ u, u ≠ s.kernel.currentThread → (s.point u).lineWritten = []
  input : s.kernel.pc s.kernel.currentThread = .outside →
    ∀ size line, s.point s.kernel.currentThread = .taking size line → s.data.incoming ≠ endOfFile
  output : s.kernel.pc s.kernel.currentThread = .outside →
    ∀ line n, s.point s.kernel.currentThread = .writing line n → s.data.scheduled = 0

/-- **Each character and its interrupt.** Who has passed `P` finds a character, and who is to put
one finds the console idle. -/
theorem ready_of_run (hrun : Run (lineProgram T S L C).step regularTyping
    ((lineProgram T S L C).boot main (consoleInitial initial) .create) tr s) : Ready s := by
  have hasked := Program.asked_of_run hrun
  have hreading := lineProgram_guarded_input.inLock hrun
  have hwriting := lineProgram_guarded_output.inLock hrun
  have hin := inputTokens.of_locked_run lineProgram_owed_input lineProgram_guarded_input
    id rfl (Int.le_refl 0) hrun
  have hout := outputTokens.of_locked_run lineProgram_owed_output lineProgram_guarded_output
    id rfl (Int.le_refl 0) hrun
  refine ⟨fun hpc hp u hu => ?_, fun hpc hp u hu => ?_, fun hpc size line hp hempty => ?_,
    fun hpc line n hp => ?_⟩
  · by_contra hne
    refine hu (lineProgram_behind_input.alone hasked hreading (fun p hq => ?_) hp
      (by rw [hpc]; rfl) hne)
    cases p with
    | reading _ _ | taking _ _ => trivial
    | _ => exact absurd rfl hq
  · by_contra hne
    refine hu (lineProgram_behind_output.alone hasked hwriting (fun p hq => ?_) hp
      (by rw [hpc]; rfl) hne)
    cases p with
    | writing _ _ | putting _ _ => trivial
    | _ => exact absurd rfl hq
  · have hshare : Program.share .inputAvailable inputWeight s s.kernel.currentThread = -1 := by
      rw [Program.share_awake (by simp [hpc]), hp]
      rfl
    have htotal := hin.total.eq_of_ne (by rw [hshare]; decide)
    have hnonneg := hin.nonneg
    rw [hshare, available, Console.buffered_empty hempty, List.length_nil] at htotal
    omega
  · have hshare : Program.share .outputDone outputWeight s s.kernel.currentThread = 0 := by
      rw [Program.share_awake (by simp [hpc]), hp]
      rfl
    have htotal := hout.total.eq_of_only (t := s.kernel.currentThread) fun u hu =>
      lineProgram_owed_output.alone hasked hwriting (by rw [hp]; trivial) (by rw [hpc]; rfl) hu
    have hnonneg := hout.nonneg
    rw [hshare, outstanding] at htotal
    omega

/-- What one step preserves. -/
theorem Lines.step (h : Lines log s) (hready : Ready s)
    (hregular : ∀ i, m = .interrupt i → i.Regular)
    (hs : Program.Steps (lineProgram T S L C) s m s' es) :
    Lines (log ++ Program.ownLog es) s' := by
  cases hs with
  | call hact hstep =>
      rw [Program.ownLog_map, List.append_nil]
      exact h.call (synchConsole_call hact)
  | go _ hpc hact =>
      rw [Program.ownLog_own]
      exact h.go (synchConsole_go hact) (hready.read hpc) (hready.write hpc) (hready.input hpc)
        (hready.output hpc)
  | kernel _ _ =>
      rw [Program.ownLog_map, List.append_nil]
      exact ⟨h.tracks, h.got, h.put, h.sound, h.contract⟩
  | @interrupt i _ _ _ _ _ hhandler _ =>
      rw [Program.ownLog_append, Program.ownLog_own, Program.ownLog_map, List.append_nil]
      exact h.handler (hregular i rfl) (synchConsole_handler hhandler)
  | @device i _ _ hhandler =>
      rw [Program.ownLog_own]
      exact h.handler (hregular i rfl) (synchConsole_handler hhandler)

/-- **The synchronous console.** However the calls of any number of threads and the interrupts are
interleaved, and as long as no character is typed that looks like `EOF`: no character is lost,
repeated or invented, and none is put before the one before it is done; a line that is read is
what has been typed next, up to a newline or the size, and nobody else gets any of it; and a line
that is written comes out as a whole and is done when `WriteLine` returns. -/
theorem synchronous_console (hrun : Run (lineProgram T S L C).step regularTyping
    ((lineProgram T S L C).boot main (consoleInitial initial) .create) tr s) :
    Always LineContract (Program.ownLog tr.flatten) := by
  suffices h : Lines (Program.ownLog tr.flatten) s from h.contract
  refine hrun.invariant_with (I := fun tr s => Lines (Program.ownLog tr.flatten) s)
    ready_of_run ?_ ?_
  · exact ⟨.create, ⟨[], ⟨main, fun _ _ => rfl, rfl⟩, rfl⟩, ⟨[], ⟨main, fun _ _ => rfl, rfl⟩, rfl⟩,
      fun _ => trivial, always_nil⟩
  · intro tr s m s' es hready h hok hs
    rw [List.flatten_append, List.flatten_singleton, Program.ownLog_append]
    refine h.step hready ?_ (.of_step hs)
    rintro i rfl
    exact hok

end Runs

/-! ## A line each way -/

/-- A thread writes a line, and another one, `t`, calls `ReadLine` while the first one waits. -/
def lineMoves (t : Fin 2) : List (Move (Fin 2) (ConsoleSemaphore Unit) (ConsoleLock Unit) Unit
    (LineChoice (Fin 2) Unit Unit Unit) (LineInterrupt Unit)) :=
  [.act (.other (.fork t)), .kernel .return, .act (.writeLine [104, 105]), .kernel .return,
    .act .goOn, .act .goOn, .act (.readLine 5), .kernel .return, .act .goOn]

/-- The characters come and go; each thread has the processor when its interrupt has come. -/
def characterMoves : List (Move (Fin 2) (ConsoleSemaphore Unit) (ConsoleLock Unit) Unit
    (LineChoice (Fin 2) Unit Unit Unit) (LineInterrupt Unit)) :=
  [.interrupt (.console (.readPoll (some 97))), .interrupt (.console .writeDone),
    .kernel .dispatch, .kernel .resume, .kernel .return, .act .goOn, .act .goOn, .kernel .resume,
    .kernel .return, .act .goOn, .act .goOn, .interrupt (.console (.readPoll (some newline))),
    .interrupt (.console .writeDone), .kernel .dispatch, .kernel .resume, .kernel .return,
    .act .goOn, .act .goOn, .act .goOn, .kernel .return, .act (.other .finish), .kernel .resume,
    .kernel .return, .act .goOn, .act .goOn, .kernel .return]

theorem synchronous_console_sample : ∃ tr s,
    Run (lineProgram (Fin 2) Unit Unit Unit).step regularTyping
        ((lineProgram (Fin 2) Unit Unit Unit).boot (0 : Fin 2) (consoleInitial fun _ => 0)
          .create) tr s ∧
      Program.ownLog tr.flatten =
        [.device (.put 0 104), .device (.typed 97), .device .done, .device (.got 1 97),
          .device (.put 0 105), .device (.typed newline), .device .done, .device (.got 1 newline),
          .read 1 5 [97, newline], .wrote 0 [104, 105]] ∧
      Always LineContract (Program.ownLog tr.flatten) := by
  have hp : (exec (lineProgram (Fin 2) Unit Unit Unit).step regularTyping []
        ((lineProgram (Fin 2) Unit Unit Unit).boot (0 : Fin 2) (consoleInitial fun _ => 0)
          .create) (lineMoves 1 ++ characterMoves)).map (fun r => Program.ownLog r.1.flatten) =
      some [.device (.put 0 104), .device (.typed 97), .device .done, .device (.got 1 97),
        .device (.put 0 105), .device (.typed newline), .device .done, .device (.got 1 newline),
        .read 1 5 [97, newline], .wrote 0 [104, 105]] := by
    decide +kernel
  obtain ⟨⟨tr, s⟩, hexec, hlog⟩ := Option.map_eq_some_iff.mp hp
  have hrun := Run.of_exec .start hexec
  exact ⟨tr, s, hrun, hlog, synchronous_console hrun⟩

end Nachos.Userprog
