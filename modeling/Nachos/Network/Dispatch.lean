import Nachos.Lib.Run
import Nachos.Userprog.Table

/-!
# The request switch of `network_thread`

Every network thread keeps its own copy of the lock, condition and monitor
tables and runs the same `switch` over the requests it takes out of
`ProcessableMSG`. This file embeds that switch: the tables, the request kinds
and one definition per `case`, each returning the new tables and the packets
sent, in order.

Client ids are the `ntID`s of the requests, `NULL` is `0`. A branch that follows
a null pointer returned by `Table::Get`, or indexes a name array outside its
fifty entries, ends in a `Fault`. There is no `case ACQUIRE` in the source: the
switch falls through to nothing, and `acquire` below does the same.

A reply is its kind, not its bytes: `itoa` writes into whatever literal `ack`
points to, and what a later reply with the same literal says is left out.
-/

namespace Nachos.Network

open Nachos.Userprog

/-! ## Data -/

/-- A C string without its terminator. -/
abbrev Text : Type := List Char

/-- `state` of a lock entry. -/
inductive LockStatus where
  | busy
  | free
deriving DecidableEq, Repr

/-- `ntLockEntry`. A `ReplyEntry` in the queue is its `machineId`: the other
field is never written. -/
structure NtLockEntry where
  waitQueue : List ℤ
  state : LockStatus
  owner : ℤ
  deleteCounter : ℤ
deriving DecidableEq, Repr

/-- `ntConditionEntry`. -/
structure NtConditionEntry where
  waitQueue : List ℤ
  lock : ℤ
  deleteCounter : ℤ
deriving DecidableEq, Repr

/-- `ntMonitorEntry`. -/
structure NtMonitorEntry where
  value : ℤ
deriving DecidableEq, Repr

/-- One of the three tables with the array of names beside it and the counter
that bounds the search through the names. -/
structure NamedTable (α : Type) where
  table : Table α
  name : ℕ → Text
  nameNumber : ℕ

/-- The tables of one network thread: `ntLockTable` with `lockName`,
`ntConditionTable` with `conditionName`, `ntMonitorTable` with `monitorName`. -/
structure NtTables where
  locks : NamedTable NtLockEntry
  conditions : NamedTable NtConditionEntry
  monitors : NamedTable NtMonitorEntry

/-- `Table(50)`, and the length of the name arrays. -/
def tableSize : ℕ := 50

def NamedTable.empty {α : Type} : NamedTable α := ⟨.empty tableSize, fun _ => [], 0⟩

/-- The tables before the first request. -/
def NtTables.initial : NtTables := ⟨.empty, .empty, .empty⟩

/-- A network thread: the machine it runs on and its mailbox. The post office
has a hundred boxes, and the user program owns the box before this one. -/
structure NetThread where
  netname : ℕ
  mailBox : ℕ
  mailBox_pos : 0 < mailBox
  mailBox_lt : mailBox < 100
deriving DecidableEq

/-- `netname*100+currentThread->mailBox`. -/
def NetThread.self (nt : NetThread) : ℤ := nt.netname * 100 + nt.mailBox

theorem NetThread.self_inj {a b : NetThread} (h : a.self = b.self) : a = b := by
  obtain ⟨an, am, _, _⟩ := a
  obtain ⟨bn, bm, _, _⟩ := b
  simp only [NetThread.self] at h
  simp only [NetThread.mk.injEq]
  omega

/-- The first network threads of machines 1, 2 and 3. -/
def nt101 : NetThread := ⟨1, 1, by decide, by decide⟩

@[inherit_doc nt101]
def nt201 : NetThread := ⟨2, 1, by decide, by decide⟩

@[inherit_doc nt101]
def nt301 : NetThread := ⟨3, 1, by decide, by decide⟩

/-- The request kinds, with their arguments after `atoi`. -/
inductive Op where
  | createLock (name : Text)
  | acquire (lock : ℤ)
  | release (lock : ℤ)
  | destroyLock (lock : ℤ)
  | createCV (name : Text)
  | signal (con lock : ℤ)
  | wait (con lock : ℤ)
  | broadcast (con lock : ℤ)
  | destroyCV (con : ℤ)
  | createMonitor (name : Text)
  | retrieveMonitor (mid : ℤ)
  | setMonitor (mid value : ℤ)
  | startSimulation
deriving DecidableEq, Repr

/-- A request as the switch sees it: who issued it and what it asks. -/
structure Request where
  ntID : ℤ
  op : Op
deriving DecidableEq, Repr

/-- What a reply says. `index` and `value` are formatted by `itoa`. -/
inductive Ack where
  | index (i : ℤ)
  | value (v : ℤ)
  | done
  | wakeup
  | deleted
  | notyet
  | wronglock
deriving DecidableEq, Repr

/-- A reply as handed to `postOffice->Send`: destination machine, destination
mailbox, contents. -/
structure Packet where
  pktTo : ℤ
  mailTo : ℤ
  ack : Ack
deriving DecidableEq, Repr

/-- What stops a network thread in the middle of a request. -/
inductive Fault where
  | missingEntry
  | nameIndex
deriving DecidableEq, Repr

/-! ## Entries, names and counters -/

namespace NamedTable

variable {α : Type}

/-- `Get` followed by a dereference. -/
def fetch (n : NamedTable α) (i : ℤ) : Except Fault α :=
  match n.table.get i with
  | some e => .ok e
  | none => .error .missingEntry

/-- Assignments through the pointer that `fetch` returned. -/
def store (n : NamedTable α) (i : ℤ) (e : α) : NamedTable α :=
  { n with table := n.table.store i e }

/-- The search `for(i = 0; i < nameNumber; i++)` with its `strcmp`. -/
def findName (names : ℕ → Text) (arg1 : Text) : (left i : ℕ) → Except Fault (Option ℕ)
  | 0, _ => .ok none
  | left + 1, i =>
      if tableSize ≤ i then .error .nameIndex
      else if names i = arg1 then .ok (some i)
      else findName names arg1 left (i + 1)

/-- The body shared by the three `CREATE` cases: a known name gives its index
and is handled by `found`; an unknown one gets `fresh` in the next free slot. -/
def create (found : NamedTable α → ℕ → Except Fault (NamedTable α)) (fresh : α)
    (arg1 : Text) (n : NamedTable α) : Except Fault (ℤ × NamedTable α) :=
  match findName n.name arg1 n.nameNumber 0 with
  | .error f => .error f
  | .ok (some i) =>
      match found n i with
      | .error f => .error f
      | .ok n' => .ok (i, n')
  | .ok none =>
      let (i, table) := n.table.put fresh
      -- a full table yields index -1, and the name array is written there
      if i = -1 then .error .nameIndex
      else .ok (i, ⟨table, Function.update n.name i.toNat arg1, n.nameNumber + 1⟩)

/-- The name `"/0"` left behind by a deletion. -/
def deletedName : Text := ['/', '0']

/-- The body shared by the two `DESTROY` cases; `decr` is `deleteCounter--`. -/
def destroy (decr : α → α) (deleteCounter : α → ℤ) (i : ℤ) (n : NamedTable α) :
    Except Fault (Ack × NamedTable α) :=
  match n.fetch i with
  | .error f => .error f
  | .ok e =>
      if deleteCounter (decr e) = 0 then
        -- the slot is free again; `nameNumber` is not taken back
        .ok (.deleted, { n with
          table := (n.table.remove i).2
          name := Function.update n.name i.toNat deletedName })
      else .ok (.notyet, n.store i (decr e))

end NamedTable

/-! ## The cases of the switch -/

section Cases

variable (nt : NetThread)

/-- A packet to the user program this network thread serves. -/
def toOwn (ack : Ack) : Packet := ⟨nt.netname, nt.mailBox - 1, ack⟩

/-- The origin check most cases make before they reply. -/
def replyIf (id : ℤ) (ack : Ack) : List Packet :=
  if id = nt.self then [toOwn nt ack] else []

abbrev Outcome : Type := Except Fault (NtTables × List Packet)

def createLock (r : Request) (arg1 : Text) (t : NtTables) : Outcome :=
  let found (n : NamedTable NtLockEntry) (i : ℕ) :=
    match n.fetch i with
    | .error f => .error f
    | .ok sle => .ok (n.store i { sle with deleteCounter := sle.deleteCounter + 1 })
  match t.locks.create found ⟨[], .free, r.ntID, 1⟩ arg1 with
  | .error f => .error f
  | .ok (lockIndex, locks) =>
      .ok ({ t with locks }, replyIf nt r.ntID (.index lockIndex))

/-- The switch has no `case ACQUIRE`. -/
def acquire (_r : Request) (_lockIndex : ℤ) (t : NtTables) : Outcome := .ok (t, [])

/-- `RELEASE`. The comparison of the owner with the local identity guards an
empty block, so every requester gets this far. -/
def release (r : Request) (lockIndex : ℤ) (t : NtTables) : Outcome :=
  match t.locks.fetch lockIndex with
  | .error f => .error f
  | .ok sle =>
      match sle.waitQueue with
      | w :: ws =>
          -- two replies go out when the next owner is the requester itself
          .ok ({ t with locks := t.locks.store lockIndex
                          { sle with owner := w, waitQueue := ws } },
            replyIf nt r.ntID .done ++ replyIf nt w .done)
      | [] =>
          .ok ({ t with locks := t.locks.store lockIndex
                          { sle with state := .free, owner := 0 } },
            replyIf nt r.ntID .done)

/-- `DESTROY_LOCK`: both replies go out without an origin check. -/
def destroyLock (_r : Request) (lockIndex : ℤ) (t : NtTables) : Outcome :=
  match t.locks.destroy (fun sle => { sle with deleteCounter := sle.deleteCounter - 1 })
      NtLockEntry.deleteCounter lockIndex with
  | .error f => .error f
  | .ok (ack, locks) => .ok ({ t with locks }, [toOwn nt ack])

def createCV (r : Request) (arg1 : Text) (t : NtTables) : Outcome :=
  let found (n : NamedTable NtConditionEntry) (i : ℕ) :=
    match n.fetch i with
    | .error f => .error f
    | .ok sce => .ok (n.store i { sce with deleteCounter := sce.deleteCounter + 1 })
  match t.conditions.create found ⟨[], 0, 1⟩ arg1 with
  | .error f => .error f
  | .ok (conditionIndex, conditions) =>
      .ok ({ t with conditions }, replyIf nt r.ntID (.index conditionIndex))

/-- `SIGNAL`. With the lock busy, the entry appended to its queue is built from
the local identity, not from the waiter taken off the condition. -/
def signal (r : Request) (conditionIndex lockIndex : ℤ) (t : NtTables) : Outcome :=
  match t.conditions.fetch conditionIndex with
  | .error f => .error f
  | .ok sce =>
      match sce.waitQueue with
      -- no origin check: every replica answers its own program
      | [] => .ok (t, [toOwn nt .done])
      | w :: ws =>
          let conditions := t.conditions.store conditionIndex { sce with waitQueue := ws }
          match t.locks.fetch lockIndex with
          | .error f => .error f
          | .ok sle =>
              if sle.state = .free then
                .ok ({ t with
                        conditions
                        locks := t.locks.store lockIndex
                          { sle with owner := w, state := .busy } },
                  replyIf nt r.ntID .done ++ replyIf nt w .wakeup)
              else
                .ok ({ t with
                        conditions
                        locks := t.locks.store lockIndex
                          { sle with waitQueue := sle.waitQueue ++ [nt.self] } },
                  replyIf nt r.ntID .done)

/-- `WAIT`. A wrong lock is answered but not left; the local identity is
enqueued; the next owner is `outPktHdr.to`, which is `machineId % 100`. -/
def wait (_r : Request) (conditionIndex lockIndex : ℤ) (t : NtTables) : Outcome :=
  match t.conditions.fetch conditionIndex with
  | .error f => .error f
  | .ok sce =>
      -- the first `WAIT` with a lock other than 0 binds the condition to it
      let lock := if sce.lock = 0 ∧ lockIndex ≠ 0 then lockIndex else sce.lock
      let wrong := if lock ≠ lockIndex then [toOwn nt .wronglock] else []
      let conditions := t.conditions.store conditionIndex
        { sce with lock, waitQueue := sce.waitQueue ++ [nt.self] }
      match t.locks.fetch lockIndex with
      | .error f => .error f
      | .ok sle =>
          match sle.waitQueue with
          | w :: ws =>
              .ok ({ t with
                      conditions
                      locks := t.locks.store lockIndex
                        { sle with owner := w.tmod 100, waitQueue := ws } },
                wrong ++ replyIf nt w .done)
          | [] =>
              .ok ({ t with
                      conditions
                      locks := t.locks.store lockIndex
                        { sle with state := .free, owner := 0 } }, wrong)

/-- The `while` loop of `BROADCAST` over the waiters, on the lock's entry. The
packets keep `outMailHdr.to` but go to the machine numbered by the waiter. -/
def broadcastLoop : List ℤ → NtLockEntry → NtLockEntry × List Packet
  | [], sle => (sle, [])
  | w :: ws, sle =>
      if sle.state = .free then
        let (sle', ps) := broadcastLoop ws { sle with owner := w, state := .busy }
        (sle', ⟨w, nt.mailBox - 1, .wakeup⟩ :: ps)
      else broadcastLoop ws { sle with waitQueue := sle.waitQueue ++ [w] }

/-- `BROADCAST`: the acknowledgement goes out without an origin check. -/
def broadcast (_r : Request) (conditionIndex lockIndex : ℤ) (t : NtTables) : Outcome :=
  match t.conditions.fetch conditionIndex with
  | .error f => .error f
  | .ok sce =>
      match sce.waitQueue with
      | [] => .ok (t, [toOwn nt .done])
      | w :: ws =>
          match t.locks.fetch lockIndex with
          | .error f => .error f
          | .ok sle =>
              let (sle', ps) := broadcastLoop nt (w :: ws) sle
              .ok ({ t with
                      conditions := t.conditions.store conditionIndex
                        { sce with waitQueue := [] }
                      locks := t.locks.store lockIndex sle' },
                toOwn nt .done :: ps)

/-- `DESTROY_CV`. -/
def destroyCV (_r : Request) (conditionIndex : ℤ) (t : NtTables) : Outcome :=
  match t.conditions.destroy (fun sce => { sce with deleteCounter := sce.deleteCounter - 1 })
      NtConditionEntry.deleteCounter conditionIndex with
  | .error f => .error f
  | .ok (ack, conditions) => .ok ({ t with conditions }, [toOwn nt ack])

/-- `CREATE_MONITOR`: a known name does not touch the entry. -/
def createMonitor (r : Request) (arg1 : Text) (t : NtTables) : Outcome :=
  match t.monitors.create (fun n _ => .ok n) ⟨0⟩ arg1 with
  | .error f => .error f
  | .ok (monitorIndex, monitors) =>
      .ok ({ t with monitors }, replyIf nt r.ntID (.index monitorIndex))

def retrieveMonitor (r : Request) (monitorIndex : ℤ) (t : NtTables) : Outcome :=
  match t.monitors.fetch monitorIndex with
  | .error f => .error f
  | .ok sme => .ok (t, replyIf nt r.ntID (.value sme.value))

def setMonitor (r : Request) (monitorIndex monitorValue : ℤ) (t : NtTables) : Outcome :=
  match t.monitors.fetch monitorIndex with
  | .error f => .error f
  | .ok _ => .ok ({ t with monitors := t.monitors.store monitorIndex ⟨monitorValue⟩ },
      replyIf nt r.ntID .done)

/-- `switch(*requestType)`. -/
def dispatch (r : Request) (t : NtTables) : Outcome :=
  match r.op with
  | .createLock name => createLock nt r name t
  | .acquire lock => acquire r lock t
  | .release lock => release nt r lock t
  | .destroyLock lock => destroyLock nt r lock t
  | .createCV name => createCV nt r name t
  | .signal con lock => signal nt r con lock t
  | .wait con lock => wait nt r con lock t
  | .broadcast con lock => broadcast nt r con lock t
  | .destroyCV con => destroyCV nt r con t
  | .createMonitor name => createMonitor nt r name t
  | .retrieveMonitor mid => retrieveMonitor nt r mid t
  | .setMonitor mid value => setMonitor nt r mid value t
  | .startSimulation => .ok (t, [])

end Cases

/-! ## Runs of one network thread's switch -/

/-- One dispatched request with the tables around it and the packets sent. -/
structure Dispatched where
  before : NtTables
  request : Request
  after : NtTables
  packets : List Packet

/-- The switch as a machine whose labels are the requests; a fault stops it. -/
def dispatchStep (nt : NetThread) (t : NtTables) (r : Request) :
    Option (NtTables × Dispatched) :=
  match dispatch nt r t with
  | .error _ => none
  | .ok (t', ps) => some (t', ⟨t, r, t', ps⟩)

theorem dispatchStep_some {nt : NetThread} {t t' : NtTables} {r : Request} {e : Dispatched}
    (h : dispatchStep nt t r = some (t', e)) :
    e.before = t ∧ e.request = r ∧ e.after = t' ∧ dispatch nt r t = .ok (t', e.packets) := by
  unfold dispatchStep at h
  split at h
  · cases h
  · rename_i t₁ ps hd
    simp only [Option.some.injEq, Prod.mk.injEq] at h
    obtain ⟨rfl, rfl⟩ := h
    exact ⟨rfl, rfl, rfl, hd⟩

/-- Every event of a run is a dispatch of its request. -/
theorem dispatched_of_run {nt : NetThread} {ok : List Dispatched → NtTables → Request → Prop}
    {tr : List Dispatched} {t₀ t : NtTables}
    (h : Lib.Run (dispatchStep nt) ok t₀ tr t) :
    ∀ e ∈ tr, dispatch nt e.request e.before = .ok (e.after, e.packets) := by
  refine h.invariant (I := fun tr _ => ∀ e ∈ tr,
    dispatch nt e.request e.before = .ok (e.after, e.packets)) (by simp) ?_
  intro tr s l s' e ih _ hs x hx
  rcases List.mem_append.mp hx with hx | hx
  · exact ih x hx
  · obtain rfl : x = e := by simpa using hx
    obtain ⟨rfl, rfl, rfl, hd⟩ := dispatchStep_some hs
    exact hd

end Nachos.Network
