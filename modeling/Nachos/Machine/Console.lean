import Mathlib.Data.List.Basic

/-!
# The console

`Console` of `machine/console.cc`. One character typed is buffered until `GetChar` takes it, and
`PutChar` may be called again when `ConsoleWriteDone` has come. `incoming` holds `EOF` when nothing
is buffered, so the character 255 cannot be told from an empty buffer.

The UNIX files are the order in which characters come and go.
-/

namespace Nachos.Machine

/-- `EOF` in a `char`. -/
def endOfFile : UInt8 := 255

structure Console where
  putBusy : Bool
  incoming : UInt8
  /-- Interrupts that are to call `ConsoleWriteDone`. -/
  scheduled : ℕ
deriving DecidableEq, Repr

inductive ConsoleInterrupt where
  /-- `ConsoleReadPoll`, with what there is to be read. -/
  | readPoll (typed : Option UInt8)
  | writeDone
deriving DecidableEq, Repr

/-- What the console does, and for whom. -/
inductive ConsoleEvent (T : Type*) where
  /-- `CheckCharAvail` has read a character. -/
  | typed (c : UInt8)
  | got (t : T) (c : UInt8)
  | put (t : T) (c : UInt8)
  /-- `WriteDone`. -/
  | done
  /-- `ASSERT(putBusy == FALSE)` has failed. -/
  | busy (t : T)
deriving DecidableEq, Repr

namespace Console

def create : Console := ⟨false, endOfFile, 0⟩

/-- `CheckCharAvail`, when it calls `readHandler`. -/
def checkCharAvail (d : Console) : Option UInt8 → Option Console
  | none => none
  | some c => if d.incoming ≠ endOfFile then none else some { d with incoming := c }

def writeDone (d : Console) : Console :=
  { d with putBusy := false, scheduled := d.scheduled - 1 }

def getChar (d : Console) : UInt8 × Console := (d.incoming, { d with incoming := endOfFile })

def putChar (d : Console) : Option Console :=
  if d.putBusy then none else some { d with putBusy := true, scheduled := d.scheduled + 1 }

/-- The interrupts, and the semaphore on which the handler calls `V`. -/
def handler {T S : Type*} (readAvail writeDone : S) (d : Console) :
    ConsoleInterrupt → Option (Console × List (ConsoleEvent T) × Option S)
  | .readPoll typed =>
      match d.checkCharAvail typed with
      | some d' => some (d', [.typed d'.incoming], some readAvail)
      | none => some (d, [], none)
  | .writeDone => if 0 < d.scheduled then some (d.writeDone, [.done], some writeDone) else none

/-- What is buffered. -/
def buffered (d : Console) : List UInt8 := if d.incoming = endOfFile then [] else [d.incoming]

end Console

/-! ## What the log tells -/

section Log

variable {T : Type*}

def typedIn (log : List (ConsoleEvent T)) : List UInt8 :=
  log.filterMap fun
    | .typed c => some c
    | _ => none

/-- The characters that `GetChar` has returned, and to whom. -/
def gotIn (log : List (ConsoleEvent T)) : List (T × UInt8) :=
  log.filterMap fun
    | .got t c => some (t, c)
    | _ => none

/-- The characters that `PutChar` has written, and for whom. -/
def putIn (log : List (ConsoleEvent T)) : List (T × UInt8) :=
  log.filterMap fun
    | .put t c => some (t, c)
    | _ => none

/-- How often a character has been written and the handler been called. -/
def dones (log : List (ConsoleEvent T)) : ℕ :=
  log.countP fun
    | .done => true
    | _ => false

theorem typedIn_snoc (log : List (ConsoleEvent T)) (e : ConsoleEvent T) :
    typedIn (log ++ [e]) = typedIn log ++ typedIn [e] := List.filterMap_append

theorem gotIn_snoc (log : List (ConsoleEvent T)) (e : ConsoleEvent T) :
    gotIn (log ++ [e]) = gotIn log ++ gotIn [e] := List.filterMap_append

theorem putIn_snoc (log : List (ConsoleEvent T)) (e : ConsoleEvent T) :
    putIn (log ++ [e]) = putIn log ++ putIn [e] := List.filterMap_append

theorem dones_snoc (log : List (ConsoleEvent T)) (e : ConsoleEvent T) :
    dones (log ++ [e]) = dones log + dones [e] := List.countP_append

/-- The console and its log. -/
structure Console.Tracks (d : Console) (log : List (ConsoleEvent T)) : Prop where
  typed : typedIn log = (gotIn log).map Prod.snd ++ d.buffered
  written : (putIn log).length = dones log + d.scheduled
  busy : d.putBusy = true ↔ 0 < d.scheduled
  one : d.scheduled ≤ 1

namespace Console

variable {d d' : Console} {log : List (ConsoleEvent T)} {typed : Option UInt8} {c : UInt8}

theorem checkCharAvail_eq (h : d.checkCharAvail typed = some d') :
    d.incoming = endOfFile ∧ ∃ c, typed = some c ∧ d' = { d with incoming := c } := by
  cases typed with
  | none => cases h
  | some c =>
      simp only [checkCharAvail] at h
      split at h
      · cases h
      · rename_i hempty
        exact ⟨not_not.mp hempty, c, rfl, (Option.some.inj h).symm⟩

theorem buffered_empty (h : d.incoming = endOfFile) : d.buffered = [] := if_pos h

theorem buffered_full (h : d.incoming ≠ endOfFile) : d.buffered = [d.incoming] := if_neg h

namespace Tracks

theorem create : Console.create.Tracks ([] : List (ConsoleEvent T)) where
  typed := rfl
  written := rfl
  busy := by decide
  one := by decide

/-- Nothing is read before everything has been taken. -/
theorem checkCharAvail (h : d.Tracks log) (hc : c ≠ endOfFile)
    (hd : d.checkCharAvail (some c) = some d') :
    typedIn log = (gotIn log).map Prod.snd ∧ d'.Tracks (log ++ [.typed d'.incoming]) := by
  obtain ⟨hempty, c', heq, rfl⟩ := checkCharAvail_eq hd
  obtain rfl := Option.some.inj heq
  have htyped := h.typed
  rw [buffered_empty hempty, List.append_nil] at htyped
  refine ⟨htyped, ?_, ?_, h.busy, h.one⟩
  · rw [typedIn_snoc, gotIn_snoc, htyped, buffered_full hc, show gotIn [_] = [] from rfl,
      List.append_nil]
    rfl
  · rw [putIn_snoc, dones_snoc]
    exact (congrArg List.length (List.append_nil _)).trans h.written

/-- A character is done that has been put. -/
theorem writeDone (h : d.Tracks log) (hd : 0 < d.scheduled) :
    (putIn log).length = dones log + 1 ∧ d.writeDone.Tracks (log ++ [.done]) := by
  have hone : d.scheduled = 1 := Nat.le_antisymm h.one hd
  have hwritten := h.written
  rw [hone] at hwritten
  refine ⟨hwritten, ?_, ?_, ?_, ?_⟩
  · rw [typedIn_snoc, gotIn_snoc, show typedIn [_] = [] from rfl, show gotIn [_] = [] from rfl,
      List.append_nil, List.append_nil]
    exact h.typed
  · rw [putIn_snoc, dones_snoc, show putIn [_] = [] from rfl, List.append_nil, hwritten]
    show dones log + 1 = dones log + 1 + (d.scheduled - 1)
    omega
  · show false = true ↔ 0 < d.scheduled - 1
    simp [hone]
  · show d.scheduled - 1 ≤ 1
    omega

/-- `GetChar` returns what has been typed last, if nobody has got it. -/
theorem getChar (h : d.Tracks log) (hd : d.incoming ≠ endOfFile) (t : T) :
    (gotIn log).map Prod.snd ++ [d.incoming] = typedIn log ∧
      d.getChar.2.Tracks (log ++ [.got t d.incoming]) := by
  have htyped := h.typed
  rw [buffered_full hd] at htyped
  refine ⟨htyped.symm, ?_, ?_, h.busy, h.one⟩
  · rw [typedIn_snoc, gotIn_snoc, List.map_append, htyped, show typedIn [_] = [] from rfl]
    rfl
  · rw [putIn_snoc, dones_snoc]
    exact (congrArg List.length (List.append_nil _)).trans h.written

/-- `PutChar` finds the console idle when nothing is under way. -/
theorem putChar (h : d.Tracks log) (hd : d.scheduled = 0) (t : T) (c : UInt8) :
    (putIn log).length = dones log ∧
      d.putChar = some { d with putBusy := true, scheduled := d.scheduled + 1 } ∧
      { d with putBusy := true, scheduled := d.scheduled + 1 : Console}.Tracks
        (log ++ [.put t c]) := by
  have hidle : ¬ d.putBusy = true := by
    rw [h.busy]
    omega
  have hwritten := h.written
  rw [hd] at hwritten
  refine ⟨hwritten, if_neg hidle, ?_, ?_, ?_, ?_⟩
  · rw [typedIn_snoc, gotIn_snoc, show typedIn [_] = [] from rfl, show gotIn [_] = [] from rfl,
      List.append_nil, List.append_nil]
    exact h.typed
  · rw [putIn_snoc, dones_snoc, List.length_append, hwritten, hd]
    rfl
  · exact iff_of_true rfl (Nat.succ_pos _)
  · show d.scheduled + 1 ≤ 1
    omega

end Tracks

end Console

end Log

end Nachos.Machine
