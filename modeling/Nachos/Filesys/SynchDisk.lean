import Nachos.Threads.Program

/-!
# The synchronous disk

`SynchDisk` of `filesys/synchdisk.cc` over `Disk` of `machine/disk.cc`. The disk takes one
request at a time: it moves the data at once and schedules an interrupt for the time when the
request would be done. `ReadSector` and `WriteSector` hold a lock from before the request until
the interrupt has come, which they wait for in `P` of a semaphore; the handler calls `V`.

Other code calls what it likes, but for the lock and the semaphore of the disk. What is in a
sector is a parameter.
-/

namespace Nachos.Filesys.SynchDisk

open Nachos.Lib Nachos.Threads Nachos.Threads.Kernel

/-! ## The disk and its callers -/

inductive DiskSemaphore (S : Type*) where
  | done
  | other (s : S)
deriving DecidableEq, Repr

inductive DiskLock (L : Type*) where
  | disk
  | other (l : L)
deriving DecidableEq, Repr

variable {T S L C B : Type*}

/-- Calls of other code. -/
abbrev DiskOp (T S L C : Type*) := Op T (DiskSemaphore S) (DiskLock L) C

/-- A call that the disk has nothing to do with. -/
def foreign : DiskOp T S L C → Bool
  | .p .done | .v .done | .acquire .disk | .release .disk | .wait _ (some .disk)
  | .signal _ (some .disk) | .broadcast _ (some .disk) => false
  | _ => true

/-- What is asked of the disk. -/
inductive Request (B : Type*) where
  | read (sectorNumber : ℤ)
  | write (sectorNumber : ℤ) (data : B)
deriving DecidableEq, Repr

def Request.sectorNumber : Request B → ℤ
  | .read sectorNumber | .write sectorNumber _ => sectorNumber

/-- Where a thread is in `ReadSector` and `WriteSector`; `data` is what the buffer of the caller
holds behind the request. -/
inductive DiskPoint (B : Type*) where
  | elsewhere
  /-- Behind `lock->Acquire`. -/
  | requesting (request : Request B)
  /-- Behind `ReadRequest` or `WriteRequest`. -/
  | requested (request : Request B) (data : B)
  /-- Behind `semaphore->P`. -/
  | waited (request : Request B) (data : B)
  /-- Behind `lock->Release`. -/
  | released (request : Request B) (data : B)
  /-- An assertion has failed. -/
  | aborted
deriving DecidableEq, Repr

structure DiskData (B : Type*) where
  /-- What the UNIX file holds for each sector. -/
  sectors : ℤ → B
  active : Bool
  /-- Interrupts that are to call `DiskDone`. -/
  scheduled : ℕ

inductive DiskEvent (T B : Type*) where
  /-- The disk has taken the request. -/
  | requested (t : T) (request : Request B) (data : B)
  /-- `HandleInterrupt`. -/
  | done
  /-- `ReadSector` or `WriteSector` has returned. -/
  | returned (t : T) (request : Request B) (data : B)
  /-- `ASSERT(!active)` has failed. -/
  | notIdle
  /-- The other assertion has failed. -/
  | noSector
deriving DecidableEq, Repr

inductive DiskChoice (T S L C B : Type*) where
  | goOn
  /-- `ReadSector` or `WriteSector`. -/
  | call (request : Request B)
  /-- Something else. -/
  | other (op : DiskOp T S L C)

inductive DiskInterrupt (S : Type*) where
  | diskDone
  | other (s : S)

abbrev DiskAction (T S L C B : Type*) :=
  Action T (DiskSemaphore S) (DiskLock L) C (DiskPoint B) (DiskData B) (DiskEvent T B)

/-- `ReadRequest` and `WriteRequest`. -/
def diskRequest (numSectors : ℕ) (t : T) (d : DiskData B) (request : Request B) :
    DiskAction T S L C B :=
  if d.active then .go .aborted d [.notIdle]
  else if 0 ≤ request.sectorNumber ∧ request.sectorNumber < numSectors then
    let d' := { d with active := true, scheduled := d.scheduled + 1 }
    match request with
    | .read sectorNumber =>
        let data := d.sectors sectorNumber
        .go (.requested request data) d' [.requested t request data]
    | .write sectorNumber data =>
        .go (.requested request data)
          { d' with sectors := Function.update d.sectors sectorNumber data }
          [.requested t request data]
  else .go .aborted d [.noSector]

/-- `ReadSector` and `WriteSector` behind the first line. -/
def DiskPoint.goOn (numSectors : ℕ) (t : T) (d : DiskData B) :
    DiskPoint B → Option (DiskAction T S L C B)
  | .requesting request => some (diskRequest numSectors t d request)
  | .requested request data => some (.call (.p .done) (.waited request data))
  | .waited request data => some (.call (.release .disk) (.released request data))
  | .released request data => some (.go .elsewhere d [.returned t request data])
  | .elsewhere | .aborted => none

/-- `DiskDone`, and other interrupts. -/
def DiskInterrupt.handler (d : DiskData B) :
    DiskInterrupt S → Option (DiskData B × List (DiskEvent T B) × Option (DiskSemaphore S))
  | .diskDone =>
      if 0 < d.scheduled then
        some ({ d with active := false, scheduled := d.scheduled - 1 }, [.done], some .done)
      else none
  | .other s => some (d, [], some (.other s))

def synchDisk (numSectors : ℕ) : Program T (DiskSemaphore S) (DiskLock L) C (DiskPoint B)
    (DiskData B) (DiskEvent T B) (DiskChoice T S L C B) (DiskInterrupt S) where
  start := .elsewhere
  act t point d
    | .goOn => point.goOn numSectors t d
    | .call request =>
        match point with
        | .elsewhere => some (.call (.acquire .disk) (.requesting request))
        | _ => none
    | .other op =>
        match point with
        | .elsewhere => if foreign op then some (.call op .elsewhere) else none
        | _ => none
  handler i d := i.handler d

/-- The constructors; the UNIX file holds what it holds. -/
def DiskData.create (sectors : ℤ → B) : DiskData B := ⟨sectors, false, 0⟩

/-- The semaphore is created with `0`. -/
def initialValue (initial : S → ℤ) : DiskSemaphore S → ℤ
  | .done => 0
  | .other s => initial s

/-! ## What a thread does where -/

/-- What the buffer of the caller holds behind the request. -/
def Request.answer (sectors : ℤ → B) : Request B → B
  | .read sectorNumber => sectors sectorNumber
  | .write _ data => data

/-- What the UNIX file holds behind it. -/
def Request.carryOut (sectors : ℤ → B) : Request B → ℤ → B
  | .read _ => sectors
  | .write sectorNumber data => Function.update sectors sectorNumber data

inductive DiskCalls : DiskPoint B → DiskOp T S L C → DiskPoint B → Prop where
  | lock (request : Request B) : DiskCalls .elsewhere (.acquire .disk) (.requesting request)
  | await (request : Request B) (data : B) :
      DiskCalls (.requested request data) (.p .done) (.waited request data)
  | unlock (request : Request B) (data : B) :
      DiskCalls (.waited request data) (.release .disk) (.released request data)
  | other {op : DiskOp T S L C} : foreign op = true → DiskCalls .elsewhere op .elsewhere

inductive DiskGoes (t : T) (d : DiskData B) :
    DiskPoint B → DiskPoint B → DiskData B → List (DiskEvent T B) → Prop where
  | accepted (request : Request B) : d.active = false →
      DiskGoes t d (.requesting request) (.requested request (request.answer d.sectors))
        ⟨request.carryOut d.sectors, true, d.scheduled + 1⟩
        [.requested t request (request.answer d.sectors)]
  | notIdle (request : Request B) : d.active = true →
      DiskGoes t d (.requesting request) .aborted d [.notIdle]
  | noSector (request : Request B) : DiskGoes t d (.requesting request) .aborted d [.noSector]
  | return (request : Request B) (data : B) :
      DiskGoes t d (.released request data) .elsewhere d [.returned t request data]

section Code

variable {numSectors : ℕ} {t : T} {d d' : DiskData B} {point next : DiskPoint B}
  {choice : DiskChoice T S L C B} {op : DiskOp T S L C} {events : List (DiskEvent T B)}

theorem diskRequest_goes {request : Request B} {action : DiskAction T S L C B}
    (h : diskRequest numSectors t d request = action) :
    ∃ next d' events, action = .go next d' events ∧
      DiskGoes t d (.requesting request) next d' events := by
  subst h
  unfold diskRequest
  split
  · rename_i hactive
    exact ⟨_, _, _, rfl, .notIdle request hactive⟩
  · rename_i hidle
    have hidle := Bool.eq_false_iff.mpr hidle
    split
    · cases request with
      | read sectorNumber => exact ⟨_, _, _, rfl, .accepted (.read sectorNumber) hidle⟩
      | write sectorNumber data => exact ⟨_, _, _, rfl, .accepted (.write sectorNumber data) hidle⟩
    · exact ⟨_, _, _, rfl, .noSector request⟩

theorem synchDisk_call (h : (synchDisk numSectors).act t point d choice = some (.call op next)) :
    DiskCalls point op next := by
  cases choice with
  | goOn =>
      cases point with
      | requesting request =>
          obtain ⟨_, _, _, heq, -⟩ := diskRequest_goes (Option.some.inj h)
          cases heq
      | requested request data =>
          obtain ⟨rfl, rfl⟩ := Action.call.inj (Option.some.inj h)
          exact .await request data
      | waited request data =>
          obtain ⟨rfl, rfl⟩ := Action.call.inj (Option.some.inj h)
          exact .unlock request data
      | elsewhere | released _ _ | aborted => cases h
  | call request =>
      cases point with
      | elsewhere =>
          obtain ⟨rfl, rfl⟩ := Action.call.inj (Option.some.inj h)
          exact .lock request
      | _ => cases h
  | other op' =>
      cases point with
      | elsewhere =>
          simp only [synchDisk] at h
          split at h
          · rename_i hforeign
            obtain ⟨rfl, rfl⟩ := Action.call.inj (Option.some.inj h)
            exact .other hforeign
          · cases h
      | _ => cases h

theorem synchDisk_go (h : (synchDisk numSectors : Program T (DiskSemaphore S) (DiskLock L) C _ _ _ _
      (DiskInterrupt S)).act t point d choice = some (.go next d' events)) :
    DiskGoes t d point next d' events := by
  cases choice with
  | goOn =>
      cases point with
      | requesting request =>
          obtain ⟨_, _, _, heq, hgoes⟩ := diskRequest_goes (Option.some.inj h)
          obtain ⟨rfl, rfl, rfl⟩ := Action.go.inj heq
          exact hgoes
      | released request data =>
          obtain ⟨rfl, rfl, rfl⟩ := Action.go.inj (Option.some.inj h)
          exact .return request data
      | elsewhere | requested _ _ | waited _ _ | aborted => cases h
  | call request => cases point <;> cases h
  | other op' =>
      cases point with
      | elsewhere =>
          simp only [synchDisk] at h
          split at h <;> cases h
      | _ => cases h

/-- Between `Acquire` and `Release`. -/
def DiskPoint.Locked : DiskPoint B → Prop
  | .requesting _ | .requested _ _ | .waited _ _ => True
  | _ => False

/-- **The lock guards the disk.** -/
theorem synchDisk_guarded (numSectors : ℕ) :
    (synchDisk numSectors : Program T (DiskSemaphore S) (DiskLock L) C (DiskPoint B) _ _ _
      (DiskInterrupt S)).Guarded .disk DiskPoint.Locked where
  start := id
  call t point d choice op next hact hnext := by
    cases synchDisk_call hact with
    | lock request => exact .inl rfl
    | await request data => exact .inr ⟨trivial, nofun⟩
    | unlock _ _ | other _ => exact hnext.elim
  go t point d choice next d' events hact hnext := by
    cases synchDisk_go hact with
    | accepted request _ => trivial
    | notIdle _ _ | noSector _ | «return» _ _ => exact hnext.elim

end Code

/-! ## What callers are promised -/

section History

/-- An event of the disk itself. -/
def DiskEvent.ofDisk : DiskEvent T B → Bool
  | .requested _ _ _ | .done => true
  | _ => false

/-- Whose call it is. -/
def DiskEvent.caller : DiskEvent T B → Option T
  | .requested t _ _ | .returned t _ _ => some t
  | _ => none

def requests (log : List (DiskEvent T B)) : ℕ :=
  log.countP fun
    | .requested _ _ _ => true
    | _ => false

def interrupts (log : List (DiskEvent T B)) : ℕ :=
  log.countP fun
    | .done => true
    | _ => false

/-- What the last write to the sector has written. -/
def lastWrite (sectorNumber : ℤ) (log : List (DiskEvent T B)) : Option B :=
  log.foldl (fun last e =>
    match e with
    | .requested _ (.write n data) _ => if n = sectorNumber then some data else last
    | _ => last) none

/-- The disk has taken the request, and what it has done next is to interrupt. -/
def Answered (log : List (DiskEvent T B)) (t : T) (request : Request B) (data : B) : Prop :=
  ∃ before between after, log = before ++ .requested t request data :: between ++ .done :: after ∧
    (∀ e ∈ between, e.ofDisk = false ∧ e.caller ≠ some t) ∧ ∀ e ∈ after, e.caller ≠ some t

/-- It has taken the request and has not interrupted yet. -/
def Pending (log : List (DiskEvent T B)) (t : T) (request : Request B) (data : B) : Prop :=
  ∃ before between, log = before ++ .requested t request data :: between ∧
    ∀ e ∈ between, e.ofDisk = false ∧ e.caller ≠ some t

/-- A request finds all earlier ones done, and a read gets what the last of the writes to its
sector has written; an interrupt belongs to the one request that is not done; a call returns
behind the interrupt of its own request; and `ASSERT(!active)` does not fail. -/
def DiskContract (file : ℤ → B) (log : List (DiskEvent T B)) : DiskEvent T B → Prop
  | .requested _ request data => requests log = interrupts log ∧
      ∀ n, request = .read n → data = (lastWrite n log).getD (file n)
  | .done => requests log = interrupts log + 1
  | .returned t request data => Answered log t request data
  | .notIdle => False
  | .noSector => True

variable {log : List (DiskEvent T B)} {t : T} {request : Request B} {data : B} {e : DiskEvent T B}

theorem Answered.snoc (h : Answered log t request data) (he : e.caller ≠ some t) :
    Answered (log ++ [e]) t request data := by
  obtain ⟨before, between, after, rfl, hbetween, hafter⟩ := h
  refine ⟨before, between, after ++ [e], by simp, hbetween, fun x hx => ?_⟩
  rcases List.mem_append.mp hx with hx | hx
  · exact hafter x hx
  · rwa [List.mem_singleton.mp hx]

theorem Pending.snoc (h : Pending log t request data) (hdisk : e.ofDisk = false)
    (he : e.caller ≠ some t) : Pending (log ++ [e]) t request data := by
  obtain ⟨before, between, rfl, hbetween⟩ := h
  refine ⟨before, between ++ [e], by simp, fun x hx => ?_⟩
  rcases List.mem_append.mp hx with hx | hx
  · exact hbetween x hx
  · rw [List.mem_singleton.mp hx]
    exact ⟨hdisk, he⟩

theorem Pending.done (h : Pending log t request data) :
    Answered (log ++ [DiskEvent.done]) t request data := by
  obtain ⟨before, between, rfl, hbetween⟩ := h
  exact ⟨before, between, [], by simp, hbetween, nofun⟩

theorem pending_requested (log : List (DiskEvent T B)) (t : T) (request : Request B) (data : B) :
    Pending (log ++ [DiskEvent.requested t request data]) t request data :=
  ⟨log, [], by simp, nofun⟩

theorem requests_snoc (log : List (DiskEvent T B)) (e : DiskEvent T B) :
    requests (log ++ [e]) = requests log + requests [e] := List.countP_append

theorem interrupts_snoc (log : List (DiskEvent T B)) (e : DiskEvent T B) :
    interrupts (log ++ [e]) = interrupts log + interrupts [e] := List.countP_append

/-- A request carried out is the last write to its sector. -/
theorem carryOut_eq {file sectors : ℤ → B} (h : ∀ n, sectors n = (lastWrite n log).getD (file n))
    (t : T) (request : Request B) (n : ℤ) :
    request.carryOut sectors n =
      (lastWrite n (log ++ [DiskEvent.requested t request (request.answer sectors)])).getD (file n) := by
  unfold lastWrite
  rw [List.foldl_append]
  cases request with
  | read m => exact h n
  | write m data =>
      by_cases hn : m = n
      · subst hn
        simp [Request.carryOut]
      · simp only [Request.carryOut, List.foldl_cons, List.foldl_nil, if_neg hn,
          Function.update_of_ne (Ne.symm hn)]
        exact h n

/-- Other events write nothing. -/
theorem lastWrite_snoc (n : ℤ) (he : ∀ t request data, e ≠ .requested t request data) :
    lastWrite n (log ++ [e]) = lastWrite n log := by
  unfold lastWrite
  rw [List.foldl_append]
  cases e with
  | requested t request data => exact absurd rfl (he t request data)
  | _ => rfl

end History

end Nachos.Filesys.SynchDisk
