import Mathlib.Data.List.Nodup
import Mathlib.Data.List.Flatten
import Mathlib.Data.List.Range
import Nachos.Network.Dispatch
import Nachos.Network.Queues

/-!
# User programs, network threads and the mail between them

Every registered network thread serves one user program. A syscall stamps a
request with the global clock and mails it to the network thread of its own
program; that thread forwards it to the others; a thread that receives a request
of another program answers every registered thread, itself included, with a
timestamp. This file embeds the syscalls and the loop of `network_thread` as one
machine over all of them.

Mail is kept in one first-in first-out channel for each sender and receiver, so
every message is delivered once and in order per sender and the interleaving of
different senders is free. The loop is cut where it can block: a receive, each
`Send` of the forwarding loop, and each round of the dispatch loop are steps of
their own, and a dispatch that follows a null pointer has no step. A request is
its decoded text: what the receive buffer does to queued requests is the subject
of another file. `StartSimulation` belongs to the registration before the loop.
-/

namespace Nachos.Network

open Nachos.Lib

/-! ## Registration -/

/-- The reply of the registration server: machine numbers and the number of
network threads on each. A machine is listed once, and its mailboxes fit below
a hundred. -/
structure Registry where
  machines : List (ℕ × ℕ)
  distinct : (machines.map Prod.fst).Nodup
  fits : ∀ m ∈ machines, m.2 ≤ 50

/-- `idList`: thread `k` of machine `mid` has the id `mid*100+2*(k+1)-1`. -/
def Registry.idList (reg : Registry) : List ℤ :=
  reg.machines.flatMap fun m =>
    (List.range m.2).map fun k : ℕ => (m.1 : ℤ) * 100 + (2 * ((k : ℤ) + 1) - 1)

theorem Registry.mem_idList {reg : Registry} {i : ℤ} :
    i ∈ reg.idList ↔ ∃ m ∈ reg.machines, ∃ k : ℕ, k < m.2 ∧
      (m.1 : ℤ) * 100 + (2 * ((k : ℤ) + 1) - 1) = i := by
  simp only [Registry.idList, List.mem_flatMap, List.mem_map, List.mem_range]

/-- Network threads have odd ids. -/
theorem Registry.odd_of_mem {reg : Registry} {i : ℤ} (h : i ∈ reg.idList) : i % 2 = 1 := by
  obtain ⟨m, _, k, _, rfl⟩ := Registry.mem_idList.mp h
  omega

theorem Registry.nodup_idList (reg : Registry) : reg.idList.Nodup := by
  unfold Registry.idList
  rw [List.nodup_flatMap]
  constructor
  · intro m _
    refine List.Nodup.map ?_ List.nodup_range
    intro a b hab
    simp only at hab
    omega
  · refine (List.pairwise_map.mp reg.distinct).imp_of_mem ?_
    intro a b ha hb hab
    rw [Function.onFun, List.disjoint_left]
    intro x hxa hxb
    obtain ⟨ka, hka, rfl⟩ := List.mem_map.mp hxa
    obtain ⟨kb, hkb, heq⟩ := List.mem_map.mp hxb
    have hka := List.mem_range.mp hka
    have hkb := List.mem_range.mp hkb
    have hfa := reg.fits a ha
    have hfb := reg.fits b hb
    apply hab
    omega

/-- Machines 1, 2 and 3 with one network thread each. -/
def threeMachines : Registry := ⟨[(1, 1), (2, 1), (3, 1)], by decide, by decide⟩

/-! ## Messages -/

/-- A message to a network thread: timestamp and id, and the request when it
carries one. -/
structure Msg where
  time : ℤ
  ID : ℤ
  op : Option Op
deriving DecidableEq, Repr

/-- The `MessageEntry` built from a message with a request. -/
def Msg.entry (m : Msg) : Option (MessageEntry Op) := m.op.map (MessageEntry.mk m.ID m.time)

/-- Who writes to a network thread: its own user program or a network thread. -/
inductive Sender where
  | up
  | nt (id : ℤ)
deriving DecidableEq, Repr

/-- `myID` in the syscalls; `mailBox` there is the box before the network
thread's. `BroadcastCondition_Syscall` leaves out the `+1`. -/
def myID (nt : NetThread) : Op → ℤ
  | .broadcast _ _ => (nt.netname : ℤ) * 100 + ((nt.mailBox : ℤ) - 1)
  | _ => (nt.netname : ℤ) * 100 + ((nt.mailBox : ℤ) - 1) + 1

def Op.isBroadcast : Op → Bool
  | .broadcast _ _ => true
  | _ => false

theorem myID_eq (nt : NetThread) (op : Op) :
    myID nt op = if op.isBroadcast then nt.self - 1 else nt.self := by
  cases op with
  | broadcast con lock =>
      simp only [myID, Op.isBroadcast, NetThread.self, if_true]
      omega
  | _ =>
      simp only [myID, Op.isBroadcast, NetThread.self, Bool.false_eq_true, if_false]
      omega

/-- The mailbox a syscall waits on. -/
inductive Box where
  | own
  | networkThread
deriving DecidableEq, Repr

/-- `DestroyLock_Syscall` receives on `currentThread->mailBox+1`. -/
def replyBox : Op → Box
  | .destroyLock _ => .networkThread
  | _ => .own

/-- A user program runs, or is blocked in the `Receive` of a syscall. -/
inductive UpState where
  | running
  | waiting (box : Box)
deriving DecidableEq, Repr

/-! ## States -/

/-- A network thread between two blocking calls. `sending` is what is left of
the walk `stemp` over `TimeStampList` for the message `current`. -/
structure NtState where
  queues : Queues Op
  sending : List ℤ
  current : Msg
  tables : NtTables

/-- The whole system. Network threads and their user programs are addressed by
the network thread's id, reply mailboxes by machine and box. -/
structure Net where
  clock : ℕ
  nt : ℤ → NtState
  chan : Sender × ℤ → List Msg
  up : ℤ → UpState
  upBox : ℤ → List Ack

/-- The state in which every network thread enters its loop. -/
def Net.initial (reg : Registry) (clock : ℕ) : Net where
  clock := clock
  nt := fun _ => ⟨⟨reg.idList.map (⟨·, -1⟩), [], [], .nil⟩, [], ⟨0, 0, none⟩, .initial⟩
  chan := fun _ => []
  up := fun _ => .running
  upBox := fun _ => []

namespace Net

variable (s : Net)

def push (p : Sender × ℤ) (m : Msg) : Net :=
  { s with chan := Function.update s.chan p (s.chan p ++ [m]) }

def setUp (i : ℤ) (u : UpState) : Net := { s with up := Function.update s.up i u }

/-- A syscall stamps its request, mails it and blocks. -/
def issue (nt : NetThread) (op : Op) : Net :=
  (s.push (.up, nt.self) ⟨s.clock, myID nt op, some op⟩).setUp nt.self (.waiting (replyBox op))

/-- A syscall returns with the first reply in its mailbox. -/
def answer (i : ℤ) (acks : List Ack) : Net :=
  { s.setUp i .running with upBox := Function.update s.upBox (i - 1) acks }

/-- A syscall that receives on the network thread's box returns with the first
message of some sender. -/
def steal (i : ℤ) (snd : Sender) (ms : List Msg) : Net :=
  { s.setUp i .running with chan := Function.update s.chan (snd, i) ms }

/-- The loop from its `Receive` to the forwarding loop. -/
def receive (i : ℤ) (snd : Sender) (m : Msg) (ms : List Msg) : Net :=
  { s with
    chan := Function.update s.chan (snd, i) ms
    nt := Function.update s.nt i { s.nt i with
      queues := (s.nt i).queues.receive m.ID m.time m.op
      current := m
      sending := if m.op.isSome then (s.nt i).queues.stamps.map TimeStamp.ntID else [] } }

def setSending (i : ℤ) (ds : List ℤ) : Net :=
  { s with nt := Function.update s.nt i { s.nt i with sending := ds } }

/-- What one round of the forwarding loop sends to `d`: the message itself when
it came from the own user program, else a timestamp. -/
def outgoing (i : ℤ) : Msg :=
  if (s.nt i).current.ID ≠ i then ⟨s.clock, i, none⟩ else (s.nt i).current

/-- `postOffice->Send` of the replies. -/
def post (ps : List Packet) : Net :=
  { s with upBox := ps.foldl (fun b p => Function.update b (p.pktTo * 100 + p.mailTo)
      (b (p.pktTo * 100 + p.mailTo) ++ [p.ack])) s.upBox }

/-- One round of the dispatch loop. -/
def dispatched (i : ℤ) (t : NtTables) : Net :=
  { s with nt := Function.update s.nt i { s.nt i with
      queues := (s.nt i).queues.dropProcessable, tables := t } }

section Frames

variable (p : Sender × ℤ) (m : Msg) (i : ℤ) (u : UpState) (nt : NetThread) (op : Op)
  (snd : Sender) (ms : List Msg) (acks : List Ack) (ds : List ℤ) (ps : List Packet) (t : NtTables)

@[simp] theorem push_nt : (s.push p m).nt = s.nt := rfl
@[simp] theorem issue_nt : (s.issue nt op).nt = s.nt := rfl
@[simp] theorem issue_chan :
    (s.issue nt op).chan = (s.push (.up, nt.self) ⟨s.clock, myID nt op, some op⟩).chan := rfl
@[simp] theorem issue_up :
    (s.issue nt op).up = Function.update s.up nt.self (.waiting (replyBox op)) := rfl
@[simp] theorem answer_up : (s.answer i acks).up = Function.update s.up i .running := rfl
@[simp] theorem answer_nt : (s.answer i acks).nt = s.nt := rfl
@[simp] theorem answer_chan : (s.answer i acks).chan = s.chan := rfl
@[simp] theorem steal_nt : (s.steal i snd ms).nt = s.nt := rfl
@[simp] theorem steal_chan :
    (s.steal i snd ms).chan = Function.update s.chan (snd, i) ms := rfl
@[simp] theorem receive_clock : (s.receive i snd m ms).clock = s.clock := rfl
@[simp] theorem receive_up : (s.receive i snd m ms).up = s.up := rfl
@[simp] theorem receive_chan :
    (s.receive i snd m ms).chan = Function.update s.chan (snd, i) ms := rfl
@[simp] theorem setSending_chan : (s.setSending i ds).chan = s.chan := rfl
@[simp] theorem setSending_up : (s.setSending i ds).up = s.up := rfl
@[simp] theorem post_nt : (s.post ps).nt = s.nt := rfl
@[simp] theorem post_chan : (s.post ps).chan = s.chan := rfl
@[simp] theorem post_up : (s.post ps).up = s.up := rfl
@[simp] theorem dispatched_chan : (s.dispatched i t).chan = s.chan := rfl
@[simp] theorem dispatched_up : (s.dispatched i t).up = s.up := rfl

theorem push_chan_apply (q : Sender × ℤ) :
    (s.push p m).chan q = if q = p then s.chan q ++ [m] else s.chan q := by
  simp only [push, Function.update_apply]
  split
  · rename_i h
    rw [h]
  · rfl

/-- A syscall writes only to its own network thread. -/
theorem issue_chan_nt (d : ℤ) : (s.issue nt op).chan (.nt i, d) = s.chan (.nt i, d) := by
  rw [issue_chan, push_chan_apply, if_neg (by simp)]

/-- What the receiving thread becomes; the others stay. -/
theorem receive_nt_self :
    (s.receive i snd m ms).nt i = { s.nt i with
      queues := (s.nt i).queues.receive m.ID m.time m.op
      current := m
      sending := if m.op.isSome then (s.nt i).queues.stamps.map TimeStamp.ntID else [] } :=
  Function.update_self ..

theorem receive_nt_of_ne {j : ℤ} (h : j ≠ i) : (s.receive i snd m ms).nt j = s.nt j :=
  Function.update_of_ne h ..

theorem setSending_nt_self : (s.setSending i ds).nt i = { s.nt i with sending := ds } :=
  Function.update_self ..

theorem setSending_nt_of_ne {j : ℤ} (h : j ≠ i) : (s.setSending i ds).nt j = s.nt j :=
  Function.update_of_ne h ..

theorem dispatched_nt_self :
    (s.dispatched i t).nt i =
      { s.nt i with queues := (s.nt i).queues.dropProcessable, tables := t } :=
  Function.update_self ..

theorem dispatched_nt_of_ne {j : ℤ} (h : j ≠ i) : (s.dispatched i t).nt j = s.nt j :=
  Function.update_of_ne h ..

/-- `setSending` changes no queue. -/
@[simp] theorem setSending_queues (j : ℤ) :
    ((s.setSending i ds).nt j).queues = (s.nt j).queues := by
  by_cases h : j = i
  · rw [h, setSending_nt_self]
  · rw [setSending_nt_of_ne _ _ _ h]

@[simp] theorem setSending_current (j : ℤ) :
    ((s.setSending i ds).nt j).current = (s.nt j).current := by
  by_cases h : j = i
  · rw [h, setSending_nt_self]
  · rw [setSending_nt_of_ne _ _ _ h]

@[simp] theorem setSending_tables (j : ℤ) :
    ((s.setSending i ds).nt j).tables = (s.nt j).tables := by
  by_cases h : j = i
  · rw [h, setSending_nt_self]
  · rw [setSending_nt_of_ne _ _ _ h]

/-- A receive does not touch the tables. -/
@[simp] theorem receive_tables (j : ℤ) :
    ((s.receive i snd m ms).nt j).tables = (s.nt j).tables := by
  by_cases h : j = i
  · rw [h, receive_nt_self]
  · rw [receive_nt_of_ne _ _ _ _ _ h]

/-- A dispatch only takes the first entry out of `ProcessableMSG`. -/
@[simp] theorem dispatched_queued (j : ℤ) :
    ((s.dispatched i t).nt j).queues.queued = (s.nt j).queues.queued := by
  by_cases h : j = i
  · rw [h, dispatched_nt_self]
    rfl
  · rw [dispatched_nt_of_ne _ _ _ h]

@[simp] theorem dispatched_stamps (j : ℤ) :
    ((s.dispatched i t).nt j).queues.stamps = (s.nt j).queues.stamps := by
  by_cases h : j = i
  · rw [h, dispatched_nt_self]
    rfl
  · rw [dispatched_nt_of_ne _ _ _ h]

@[simp] theorem dispatched_current (j : ℤ) :
    ((s.dispatched i t).nt j).current = (s.nt j).current := by
  by_cases h : j = i
  · rw [h, dispatched_nt_self]
  · rw [dispatched_nt_of_ne _ _ _ h]

@[simp] theorem dispatched_sending (j : ℤ) :
    ((s.dispatched i t).nt j).sending = (s.nt j).sending := by
  by_cases h : j = i
  · rw [h, dispatched_nt_self]
  · rw [dispatched_nt_of_ne _ _ _ h]

end Frames

end Net

/-! ## Steps -/

/-- What happens next. -/
inductive Label where
  | tick (d : ℕ)
  | issue (nt : NetThread) (op : Op)
  | answer (nt : NetThread)
  | steal (nt : NetThread) (snd : Sender)
  | receive (nt : NetThread) (snd : Sender)
  | send (nt : NetThread)
  | dispatch (nt : NetThread)
deriving DecidableEq

/-- What has happened. -/
inductive Event where
  | ticked
  | issued (i : ℤ) (m : Msg)
  | answered (i : ℤ) (ack : Ack)
  | stolen (i : ℤ) (snd : Sender) (m : Msg)
  | received (i : ℤ) (snd : Sender) (m : Msg)
  | sent (i d : ℤ) (m : Msg)
  | skipped (i : ℤ)
  | dispatched (i : ℤ) (e : MessageEntry Op) (ps : List Packet)
deriving DecidableEq

/-- A network thread is back at its `Receive`. -/
def NtState.Idle (n : NtState) : Prop := n.sending = [] ∧ n.queues.processable = []

instance (n : NtState) : Decidable n.Idle := inferInstanceAs (Decidable (_ ∧ _))

def step (reg : Registry) (s : Net) : Label → Option (Net × Event)
  | .tick d => some ({ s with clock := s.clock + d }, .ticked)
  | .issue nt op =>
      if nt.self ∈ reg.idList ∧ s.up nt.self = .running ∧ op ≠ .startSimulation then
        some (s.issue nt op, .issued nt.self ⟨s.clock, myID nt op, some op⟩)
      else none
  | .answer nt =>
      if nt.self ∈ reg.idList ∧ s.up nt.self = .waiting .own then
        match s.upBox (nt.self - 1) with
        | ack :: acks => some (s.answer nt.self acks, .answered nt.self ack)
        | [] => none
      else none
  -- a syscall that listens on the network thread's box takes what is first there
  | .steal nt snd =>
      if nt.self ∈ reg.idList ∧ s.up nt.self = .waiting .networkThread then
        match s.chan (snd, nt.self) with
        | m :: ms => some (s.steal nt.self snd ms, .stolen nt.self snd m)
        | [] => none
      else none
  | .receive nt snd =>
      if nt.self ∈ reg.idList ∧ (s.nt nt.self).Idle then
        match s.chan (snd, nt.self) with
        | m :: ms => some (s.receive nt.self snd m ms, .received nt.self snd m)
        | [] => none
      else none
  | .send nt =>
      if nt.self ∈ reg.idList then
        match (s.nt nt.self).sending with
        | d :: ds =>
            -- the own message is not sent back to oneself
            if (s.nt nt.self).current.ID = nt.self ∧ d = nt.self then
              some (s.setSending nt.self ds, .skipped nt.self)
            else
              some ((s.setSending nt.self ds).push (.nt nt.self, d) (s.outgoing nt.self),
                .sent nt.self d (s.outgoing nt.self))
        | [] => none
      else none
  | .dispatch nt =>
      if nt.self ∈ reg.idList ∧ (s.nt nt.self).sending = [] then
        match (s.nt nt.self).queues.processable with
        | e :: _ =>
            match dispatch nt ⟨e.ntID, e.body⟩ (s.nt nt.self).tables with
            | .ok (t, ps) => some ((s.dispatched nt.self t).post ps, .dispatched nt.self e ps)
            -- the kernel follows a null pointer
            | .error _ => none
        | [] => none
      else none

/-- Everything a step can do. -/
inductive Step (reg : Registry) (s : Net) : Label → Net → Event → Prop
  | tick (d : ℕ) : Step reg s (.tick d) { s with clock := s.clock + d } .ticked
  | issue {nt : NetThread} {op : Op} (hreg : nt.self ∈ reg.idList)
      (hup : s.up nt.self = .running) (hop : op ≠ .startSimulation) :
      Step reg s (.issue nt op) (s.issue nt op) (.issued nt.self ⟨s.clock, myID nt op, some op⟩)
  | answer {nt : NetThread} {ack : Ack} {acks : List Ack} (hreg : nt.self ∈ reg.idList)
      (hup : s.up nt.self = .waiting .own) (hbox : s.upBox (nt.self - 1) = ack :: acks) :
      Step reg s (.answer nt) (s.answer nt.self acks) (.answered nt.self ack)
  | steal {nt : NetThread} {snd : Sender} {m : Msg} {ms : List Msg} (hreg : nt.self ∈ reg.idList)
      (hup : s.up nt.self = .waiting .networkThread) (hchan : s.chan (snd, nt.self) = m :: ms) :
      Step reg s (.steal nt snd) (s.steal nt.self snd ms) (.stolen nt.self snd m)
  | receive {nt : NetThread} {snd : Sender} {m : Msg} {ms : List Msg} (hreg : nt.self ∈ reg.idList)
      (hsending : (s.nt nt.self).sending = []) (hproc : (s.nt nt.self).queues.processable = [])
      (hchan : s.chan (snd, nt.self) = m :: ms) :
      Step reg s (.receive nt snd) (s.receive nt.self snd m ms) (.received nt.self snd m)
  | skip {nt : NetThread} {ds : List ℤ} (hreg : nt.self ∈ reg.idList)
      (hown : (s.nt nt.self).current.ID = nt.self)
      (hsending : (s.nt nt.self).sending = nt.self :: ds) :
      Step reg s (.send nt) (s.setSending nt.self ds) (.skipped nt.self)
  | send {nt : NetThread} {d : ℤ} {ds : List ℤ} (hreg : nt.self ∈ reg.idList)
      (hto : ¬ ((s.nt nt.self).current.ID = nt.self ∧ d = nt.self))
      (hsending : (s.nt nt.self).sending = d :: ds) :
      Step reg s (.send nt)
        ((s.setSending nt.self ds).push (.nt nt.self, d) (s.outgoing nt.self))
        (.sent nt.self d (s.outgoing nt.self))
  | dispatch {nt : NetThread} {e : MessageEntry Op} {es : List (MessageEntry Op)} {t : NtTables}
      {ps : List Packet} (hreg : nt.self ∈ reg.idList) (hsending : (s.nt nt.self).sending = [])
      (hproc : (s.nt nt.self).queues.processable = e :: es)
      (hd : Network.dispatch nt ⟨e.ntID, e.body⟩ (s.nt nt.self).tables = .ok (t, ps)) :
      Step reg s (.dispatch nt) ((s.dispatched nt.self t).post ps) (.dispatched nt.self e ps)

theorem Step.of_step {reg : Registry} {s s' : Net} {l : Label} {e : Event}
    (h : step reg s l = some (s', e)) : Step reg s l s' e := by
  cases l with
  | tick d =>
      simp only [step, Option.some.injEq, Prod.mk.injEq] at h
      obtain ⟨rfl, rfl⟩ := h
      exact .tick d
  | issue nt op =>
      simp only [step] at h
      split at h
      · rename_i hg
        cases h
        exact .issue hg.1 hg.2.1 hg.2.2
      · cases h
  | answer nt =>
      simp only [step] at h
      split at h
      · rename_i hg
        split at h
        · rename_i hbox
          cases h
          exact .answer hg.1 hg.2 hbox
        · cases h
      · cases h
  | steal nt snd =>
      simp only [step] at h
      split at h
      · rename_i hg
        split at h
        · rename_i hchan
          cases h
          exact .steal hg.1 hg.2 hchan
        · cases h
      · cases h
  | receive nt snd =>
      simp only [step] at h
      split at h
      · rename_i hg
        split at h
        · rename_i hchan
          cases h
          exact .receive hg.1 hg.2.1 hg.2.2 hchan
        · cases h
      · cases h
  | send nt =>
      simp only [step] at h
      split at h
      · rename_i hg
        split at h
        · rename_i d ds hs
          split at h
          · rename_i hown
            obtain ⟨hown, rfl⟩ := hown
            cases h
            exact .skip hg hown hs
          · rename_i hto
            cases h
            exact .send hg hto hs
        · cases h
      · cases h
  | dispatch nt =>
      simp only [step] at h
      split at h
      · rename_i hg
        split at h
        · rename_i e es hproc
          split at h
          · rename_i t ps hd
            cases h
            exact .dispatch hg.1 hg.2 hproc hd
          · cases h
        · cases h
      · cases h

end Nachos.Network
