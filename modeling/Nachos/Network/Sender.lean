import Nachos.Lib.CString
import Nachos.Lib.Run
import Mathlib.Data.List.FinRange
import Mathlib.Tactic.IntervalCases

/-!
# Messages that are sent again until they are acknowledged

`MultiSender` sends three numbered messages to each of the other four machines
and keeps them in `sentMessagesQueue` until the acknowledgement is there;
`Resend`, a thread of its own that holds `listLock` from its first to its last
`Send`, sends what is in the queue once more. The receive loop takes the
messages of each machine in their order, acknowledges what it has, and drops the
rest.

The network keeps everything that was ever sent: a packet may be received at any
time, any number of times, or never. A step of the system is one iteration of a
machine's receive loop or one `Send` of its resending thread.
-/

namespace Nachos.Network.MultiSender

open Nachos.Lib

/-! ## The machines -/

abbrev TOTALNUM : ℕ := 5

abbrev MachineID : Type := Fin TOTALNUM

/-- `MaxMailSize`, the length of `ReceiveBuffer`. -/
def maxMailSize : ℕ := 40

/-- `SendEntry`, without the mailbox number, which is always 0. -/
structure SendEntry where
  seqNum : ℤ
  msg : List Char
  machineID : MachineID
deriving DecidableEq, Repr

/-- `ReceiveEntry`, likewise. -/
structure ReceiveEntry where
  seqNum : ℤ
  machineID : MachineID
deriving DecidableEq, Repr

/-- What is handed to `postOffice->Send`, with the `from` that it fills in. -/
structure Mail where
  pktFrom : MachineID
  pktTo : MachineID
  data : List Char
deriving DecidableEq, Repr

/-- The variables of one machine. `resending` is what the running `Resend` has
still to send; while it is there, `listLock` is held. -/
structure Machine where
  sentMessagesQueue : List SendEntry
  sizeofList : ℕ
  multiReceivedMsgQueue : MachineID → List ReceiveEntry
  ReceiveBuffer : Memory
  resending : Option (List SendEntry)

/-- `sprintf(.., "%s,%d", msgType, seqNum)`. -/
def messageText (msgType : List Char) (seqNum : ℤ) : List Char := msgType ++ ',' :: decimal seqNum

def msgType : List Char := ['m', 's', 'g']

def ackType : List Char := ['a', 'c', 'k']

/-! ## The receive loop -/

/-- The loop that looks for the acknowledged message, turning the queue round;
`left` is `sizeofList - i`. It gives the queue and whether a message was removed.
An empty queue has no first element to look at. -/
def ackLoop (seqNum : ℤ) (pktFrom : MachineID) :
    (left : ℕ) → List SendEntry → Option (List SendEntry × Bool)
  | 0, queue => some (queue, false)
  | _ + 1, [] => none
  | left + 1, tempSendEntry :: queue =>
      if tempSendEntry.seqNum = seqNum ∧ tempSendEntry.machineID = pktFrom then some (queue, true)
      else ackLoop seqNum pktFrom left (queue ++ [tempSendEntry])

/-- An acknowledgement, with `listLock` acquired. -/
def receiveAck (seqNum : ℤ) (pktFrom : MachineID) (m : Machine) : Option Machine :=
  match ackLoop seqNum pktFrom m.sizeofList m.sentMessagesQueue with
  | none => none
  | some (queue, removed) => some { m with
      sentMessagesQueue := queue
      sizeofList := if removed then m.sizeofList - 1 else m.sizeofList }

/-- `multiReceivedMsgQueue[inPktHdrEC.from]->Append(re)`. -/
def Machine.append (m : Machine) (re : ReceiveEntry) : Machine :=
  { m with
    multiReceivedMsgQueue := Function.update m.multiReceivedMsgQueue re.machineID
      (m.multiReceivedMsgQueue re.machineID ++ [re]) }

/-- A message: the next one is stored and acknowledged, one that is stored
already is acknowledged again, any other is dropped. -/
def receiveMsg (netname : MachineID) (seqNum : ℤ) (pktFrom : MachineID) (m : Machine) :
    Machine × List Mail :=
  let ack : Mail := ⟨netname, pktFrom, messageText ackType seqNum⟩
  match (m.multiReceivedMsgQueue pktFrom).getLast? with
  | some tempReceiveEntry =>
      if tempReceiveEntry.seqNum + 1 = seqNum then (m.append ⟨seqNum, pktFrom⟩, [ack])
      else if (m.multiReceivedMsgQueue pktFrom).any (·.seqNum = seqNum) then (m, [ack])
      else (m, [])
  | none =>
      if seqNum = 0 then (m.append ⟨seqNum, pktFrom⟩, [ack])
      else (m, [])

/-- One iteration of the receive loop: the machine and what it sends. It does not
end while an acknowledgement waits for `listLock`, nor when a null pointer or an
empty queue is followed. -/
def receive (netname : MachineID) (mail : Mail) (m : Machine) : Option (Machine × List Mail) :=
  match strtok maxMailSize ',' (writeString m.ReceiveBuffer 0 mail.data) 0 with
  | (none, _, _) => none
  | (some type, buffer, save) =>
      let (seqNumChar, buffer, _) := strtok maxMailSize ',' buffer save
      let m := { m with ReceiveBuffer := buffer }
      if readString buffer maxMailSize type = ackType then
        if m.resending.isSome then none
        else
          match seqNumChar with
          | none => none
          | some p =>
              match receiveAck (atoi (readString buffer maxMailSize p)) mail.pktFrom m with
              | none => none
              | some m => some (m, [])
      else if readString buffer maxMailSize type = msgType then
        match seqNumChar with
        | none => none
        | some p => some (receiveMsg netname (atoi (readString buffer maxMailSize p)) mail.pktFrom m)
      else some (m, [])

/-! ## The system -/

/-- The machines, and all that was ever sent. -/
structure Net where
  machine : MachineID → Machine
  sent : List Mail

/-- What can happen next. -/
inductive NetAct where
  | receive (mail : Mail)
  | resend (i : MachineID)
  | resendNext (i : MachineID)
  | resendEnd (i : MachineID)
deriving DecidableEq, Repr

/-- `postOffice->Send` of an entry's message. -/
def SendEntry.mail (e : SendEntry) (netname : MachineID) : Mail := ⟨netname, e.machineID, e.msg⟩

def Net.set (s : Net) (i : MachineID) (m : Machine) (mails : List Mail) : Net :=
  ⟨Function.update s.machine i m, s.sent ++ mails⟩

def netStep (s : Net) (a : NetAct) : Option (Net × NetAct) :=
  match a with
  | .receive mail =>
      if mail ∈ s.sent then
        match receive mail.pktTo mail (s.machine mail.pktTo) with
        | none => none
        | some (m, mails) => some (s.set mail.pktTo m mails, a)
      else none
  | .resend i =>
      if (s.machine i).resending.isSome then none
      else some (s.set i { s.machine i with
        resending := some (s.machine i).sentMessagesQueue } [], a)
  | .resendNext i =>
      match (s.machine i).resending with
      | some (e :: es) =>
          some (s.set i { s.machine i with resending := some es } [e.mail i], a)
      | _ => none
  | .resendEnd i =>
      match (s.machine i).resending with
      | some [] => some (s.set i { s.machine i with resending := none } [], a)
      | _ => none

/-- The entries that the loops of `MultiSender` append, in order. -/
def initialEntries (netname : MachineID) : List SendEntry :=
  ((List.finRange TOTALNUM).filter (· ≠ netname)).flatMap fun m =>
    (List.range 3).map fun i : ℕ => ⟨i, messageText msgType i, m⟩

/-- The initial sends are queued; the buffers hold anything. -/
def Net.initial (buffers : MachineID → Memory) : Net where
  machine i :=
    { sentMessagesQueue := initialEntries i
      sizeofList := (initialEntries i).length
      multiReceivedMsgQueue := fun _ => []
      ReceiveBuffer := buffers i
      resending := none }
  sent := (List.finRange TOTALNUM).flatMap fun i => (initialEntries i).map (·.mail i)

/-! ## One iteration -/

/-- The sequence numbers in use. -/
def InUse (q : ℤ) : Prop := 0 ≤ q ∧ q < 3

theorem splitOn_message {u : List Char} (hu : ',' ∉ u) (q : ℤ) :
    (messageText u q).splitOn ',' = [u, decimal q] := by
  have hq : ',' ∉ decimal q := not_mem_decimal (by decide) (by decide)
  rw [messageText, List.splitOn_append_cons_self_of_not_mem hu, List.splitOn_eq_singleton hq]

/-- A message fits into the buffer. -/
theorem pending_message {u : List Char} {q : ℤ} (hnul : nul ∉ u) (hlen : u.length = 3)
    (hq : InUse q) (b : Memory) :
    Pending maxMailSize (writeString b 0 (messageText u q)) 0 (messageText u q) := by
  refine ⟨spells_writeString _ _ _, ?_, ?_⟩
  · have hd : nul ∉ decimal q := not_mem_decimal (by decide) (by decide)
    simp only [messageText, List.mem_append, List.mem_cons, not_or]
    exact ⟨hnul, by decide, hd⟩
  · have hone : (decimal q).length = 1 := by
      obtain ⟨h₀, h₃⟩ := hq
      interval_cases q <;> decide
    simp only [messageText, List.length_append, List.length_cons, hlen, hone]
    decide

/-- The two calls of `strtok` find the type and the number. -/
theorem strtok_message {u : List Char} {q : ℤ} (hu : ',' ∉ u) (hnul : nul ∉ u)
    (hlen : u.length = 3) (hq : InUse q) (b : Memory) :
    ∃ b₁ save p b₂ save', strtok maxMailSize ',' (writeString b 0 (messageText u q)) 0 =
        (some 0, b₁, save) ∧
      strtok maxMailSize ',' b₁ save = (some p, b₂, save') ∧
      readString b₂ maxMailSize 0 = u ∧ readString b₂ maxMailSize p = decimal q := by
  have hpend := pending_message hnul hlen hq b
  have hne : u ≠ [] := by
    rintro rfl
    cases hlen
  obtain ⟨b₁, save, rest, h₁, adv, hspell, hle, hcase⟩ :=
    hpend.strtok_token (by decide) (splitOn_message hu q) hne
  obtain ⟨hrest, rfl⟩ : rest.splitOn ',' = [decimal q] ∧ save = 0 + u.length + 1 := by
    rcases hcase with ⟨hnil, -⟩ | hcase
    · cases hnil
    · exact hcase
  obtain ⟨b₂, save', rest', h₂, adv', hspell', -, -⟩ :=
    adv.pending.strtok_token (by decide) hrest (decimal_ne_nil q)
  have hd : nul ∉ decimal q := not_mem_decimal (by decide) (by decide)
  have hlt := hpend.length_lt
  have hlong : (messageText u q).length = u.length + (decimal q).length + 1 := by
    simp only [messageText, List.length_append, List.length_cons]
    omega
  refine ⟨b₁, _, _, b₂, save', h₁, h₂, ?_, ?_⟩
  · exact readString_of_spells (hspell.cutIn adv'.cut hle) hnul (by omega)
  · exact readString_of_spells hspell' hd (by omega)

variable {i j : MachineID} {mail : Mail} {m : Machine} {q : ℤ}

theorem receive_ack (netname : MachineID) (m : Machine) (hdata : mail.data = messageText ackType q)
    (hq : InUse q) :
    ∃ buffer, receive netname mail m =
      if m.resending.isSome then none
      else (receiveAck q mail.pktFrom { m with ReceiveBuffer := buffer }).map (·, []) := by
  obtain ⟨b₁, save, p, b₂, save', h₁, h₂, htype, hnum⟩ :=
    strtok_message (u := ackType) (by decide) (by decide) rfl hq m.ReceiveBuffer
  refine ⟨b₂, ?_⟩
  simp only [receive, hdata, h₁, h₂, htype, hnum, if_true, atoi_decimal]
  cases receiveAck q mail.pktFrom { m with ReceiveBuffer := b₂ } <;> rfl

theorem receive_msg (netname : MachineID) (m : Machine) (hdata : mail.data = messageText msgType q)
    (hq : InUse q) :
    ∃ buffer, receive netname mail m =
      some (receiveMsg netname q mail.pktFrom { m with ReceiveBuffer := buffer }) := by
  obtain ⟨b₁, save, p, b₂, save', h₁, h₂, htype, hnum⟩ :=
    strtok_message (u := msgType) (by decide) (by decide) rfl hq m.ReceiveBuffer
  have hne : msgType ≠ ackType := by decide
  refine ⟨b₂, ?_⟩
  simp only [receive, hdata, h₁, h₂, htype, hnum, hne, if_true, if_false, atoi_decimal]

/-- **The acknowledged entry is removed**, if there is one; the others stay. -/
theorem ackLoop_spec (q : ℤ) (j : MachineID) : ∀ (left : ℕ) (queue : List SendEntry),
    left ≤ queue.length → ∃ queue' removed, ackLoop q j left queue = some (queue', removed) ∧
      ((removed = false ∧ queue'.Perm queue) ∨
       (removed = true ∧ ∃ e, e.seqNum = q ∧ e.machineID = j ∧ queue.Perm (e :: queue')))
  | 0, queue, _ => ⟨queue, false, rfl, .inl ⟨rfl, .refl _⟩⟩
  | left + 1, [], h => by cases h
  | left + 1, e :: queue, h => by
      unfold ackLoop
      by_cases he : e.seqNum = q ∧ e.machineID = j
      · rw [if_pos he]
        exact ⟨queue, true, rfl, .inr ⟨rfl, e, he.1, he.2, .refl _⟩⟩
      · rw [if_neg he]
        have hturn : (queue ++ [e]).Perm (e :: queue) := List.perm_append_singleton e queue
        have hle : left ≤ (queue ++ [e]).length := by
          rw [hturn.length_eq]
          exact Nat.le_of_succ_le h
        obtain ⟨queue', removed, hloop, hcase⟩ := ackLoop_spec q j left (queue ++ [e]) hle
        refine ⟨queue', removed, hloop, ?_⟩
        rcases hcase with ⟨hr, hperm⟩ | ⟨hr, x, hx, hxj, hperm⟩
        · exact .inl ⟨hr, hperm.trans hturn⟩
        · exact .inr ⟨hr, x, hx, hxj, hturn.symm.trans hperm⟩

/-! ## The invariant -/

/-- How many messages of `i` a machine has stored. -/
def Machine.count (m : Machine) (i : MachineID) : ℕ := (m.multiReceivedMsgQueue i).length

/-- What holds of each machine. -/
structure Machine.Sound (m : Machine) (i : MachineID) : Prop where
  size : m.sizeofList = m.sentMessagesQueue.length
  queued : ∀ e ∈ m.sentMessagesQueue, e ∈ initialEntries i
  walked : ∀ es, m.resending = some es → ∀ e ∈ es, e ∈ initialEntries i
  inOrder : ∀ j, (m.multiReceivedMsgQueue j).map ReceiveEntry.seqNum =
    (List.range (m.count j)).map fun q : ℕ => (q : ℤ)

/-- What is in the network: one of the initial messages, or an acknowledgement of
a message that has been stored. -/
def Net.Sent (s : Net) (mail : Mail) : Prop :=
  (∃ e ∈ initialEntries mail.pktFrom, mail = e.mail mail.pktFrom) ∨
  ∃ q, InUse q ∧ mail.data = messageText ackType q ∧
    q < (s.machine mail.pktFrom).count mail.pktTo

structure Net.Reliable (s : Net) : Prop where
  machines : ∀ i, (s.machine i).Sound i
  mails : ∀ mail ∈ s.sent, s.Sent mail
  /-- An initial message that is no longer queued has been stored. -/
  stored : ∀ i, ∀ e ∈ initialEntries i,
    e.seqNum < (s.machine e.machineID).count i ∨ e ∈ (s.machine i).sentMessagesQueue

theorem mem_initialEntries {e : SendEntry} (h : e ∈ initialEntries i) :
    InUse e.seqNum ∧ e.msg = messageText msgType e.seqNum := by
  simp only [initialEntries, List.mem_flatMap, List.mem_map, List.mem_range] at h
  obtain ⟨k, -, n, hn, rfl⟩ := h
  exact ⟨⟨by simp, by simp only; omega⟩, rfl⟩

@[simp] theorem Net.set_machine_self (s : Net) (i : MachineID) (m : Machine) (mails : List Mail) :
    (s.set i m mails).machine i = m := Function.update_self ..

theorem Net.set_machine_of_ne (s : Net) {i j : MachineID} (m : Machine) (mails : List Mail)
    (h : j ≠ i) : (s.set i m mails).machine j = s.machine j := Function.update_of_ne h ..

/-- The counts of a machine that has stored at least what it had. -/
theorem Net.count_le_set {s : Net} (mails : List Mail)
    (hcount : ∀ k, (s.machine i).count k ≤ m.count k) (j k : MachineID) :
    (s.machine j).count k ≤ ((s.set i m mails).machine j).count k := by
  by_cases hj : j = i
  · subst hj
    rw [Net.set_machine_self]
    exact hcount k
  · rw [Net.set_machine_of_ne _ _ _ hj]

/-- **One machine moves**: it stays sound, it forgets nothing that it has stored,
it keeps the messages that are not stored, and what it sends is all right. -/
theorem Net.Reliable.set {s : Net} (h : s.Reliable) {mails : List Mail} (hm : m.Sound i)
    (hcount : ∀ k, (s.machine i).count k ≤ m.count k)
    (hkeep : ∀ e ∈ (s.machine i).sentMessagesQueue,
      e.seqNum < (s.machine e.machineID).count i ∨ e ∈ m.sentMessagesQueue)
    (hmails : ∀ mail ∈ mails, (s.set i m mails).Sent mail) : (s.set i m mails).Reliable := by
  have hmono := Net.count_le_set mails hcount
  refine ⟨?_, ?_, ?_⟩
  · intro j
    by_cases hj : j = i
    · subst hj
      rw [Net.set_machine_self]
      exact hm
    · rw [Net.set_machine_of_ne _ _ _ hj]
      exact h.machines j
  · intro mail hmail
    rcases List.mem_append.mp hmail with hold | hnew
    · rcases h.mails mail hold with hentry | ⟨q, hq, hdata, hlt⟩
      · exact .inl hentry
      · have := hmono mail.pktFrom mail.pktTo
        exact .inr ⟨q, hq, hdata, by omega⟩
    · exact hmails mail hnew
  · intro j e he
    have hle := hmono e.machineID j
    rcases h.stored j e he with hlt | hmem
    · exact .inl (by omega)
    · by_cases hj : j = i
      · subst hj
        rw [Net.set_machine_self]
        rcases hkeep e hmem with hlt | hmem
        · exact .inl (by omega)
        · exact .inr hmem
      · rw [Net.set_machine_of_ne _ _ _ hj]
        exact .inr hmem

/-! ## The steps -/

theorem Machine.Sound.buffer (h : m.Sound i) (buffer : Memory) :
    { m with ReceiveBuffer := buffer }.Sound i := ⟨h.size, h.queued, h.walked, h.inOrder⟩

/-- The stored messages are `0, 1, ..`, so one look at the last tells what is next. -/
theorem receiveMsg_eq (h : m.Sound i) (hq : 0 ≤ q) :
    receiveMsg i q j m =
      if q = m.count j then (m.append ⟨q, j⟩, [⟨i, j, messageText ackType q⟩])
      else if q < m.count j then (m, [⟨i, j, messageText ackType q⟩])
      else (m, []) := by
  have horder := h.inOrder j
  have hany : (m.multiReceivedMsgQueue j).any (·.seqNum = q) = true ↔ q < m.count j := by
    have hmem : q ∈ (m.multiReceivedMsgQueue j).map ReceiveEntry.seqNum ↔ q < m.count j := by
      rw [horder, List.mem_map]
      constructor
      · rintro ⟨n, hn, rfl⟩
        have := List.mem_range.mp hn
        omega
      · intro hlt
        exact ⟨q.toNat, List.mem_range.mpr (by omega), Int.toNat_of_nonneg hq⟩
    rw [← hmem, List.any_eq_true, List.mem_map]
    simp only [decide_eq_true_eq]
  unfold receiveMsg
  rcases List.eq_nil_or_concat (m.multiReceivedMsgQueue j) with hnil | ⟨front, last, hlast⟩
  · have hzero : m.count j = 0 := by rw [Machine.count, hnil, List.length_nil]
    simp only [hnil, List.getLast?_nil, hzero, Nat.cast_zero]
    rw [if_neg (show ¬ q < 0 by omega)]
  · have hcount : m.count j = front.length + 1 := by
      rw [Machine.count, hlast, List.concat_eq_append, List.length_append, List.length_singleton]
    have hnum : last.seqNum + 1 = m.count j := by
      rw [hcount, hlast, List.concat_eq_append, List.map_append, List.range_succ, List.map_append] at horder
      have hlen : (front.map ReceiveEntry.seqNum).length =
          ((List.range front.length).map fun q : ℕ => (q : ℤ)).length := by simp
      have := List.append_inj_right horder hlen
      simp only [List.map_cons, List.map_nil, List.cons.injEq, and_true] at this
      rw [this, hcount]
      push_cast
      rfl
    have hget : (m.multiReceivedMsgQueue j).getLast? = some last := by
      rw [hlast, List.concat_eq_append, List.getLast?_concat]
    simp only [hget, hnum]
    by_cases heq : q = m.count j
    · rw [if_pos heq, if_pos heq.symm]
    · rw [if_neg heq, if_neg (Ne.symm heq)]
      simp only [hany]

theorem append_queue (m : Machine) (re : ReceiveEntry) (k : MachineID) :
    (m.append re).multiReceivedMsgQueue k =
      m.multiReceivedMsgQueue k ++ if k = re.machineID then [re] else [] := by
  show Function.update m.multiReceivedMsgQueue re.machineID _ k = _
  by_cases hk : k = re.machineID
  · rw [if_pos hk, hk, Function.update_self]
  · rw [if_neg hk, Function.update_of_ne hk, List.append_nil]

theorem count_append (m : Machine) (re : ReceiveEntry) (k : MachineID) :
    (m.append re).count k = m.count k + if k = re.machineID then 1 else 0 := by
  rw [Machine.count, append_queue, List.length_append, Machine.count]
  split <;> rfl

theorem Machine.Sound.append (h : m.Sound i) (j : MachineID) :
    (m.append ⟨m.count j, j⟩).Sound i := by
  refine ⟨h.size, h.queued, h.walked, ?_⟩
  intro k
  rw [count_append, append_queue, List.map_append, h.inOrder k]
  by_cases hk : k = j
  · subst hk
    rw [if_pos rfl, if_pos rfl, List.range_succ, List.map_append]
    rfl
  · rw [if_neg hk, if_neg hk, Nat.add_zero, List.map_nil, List.append_nil]

variable {s s' : Net} {a : NetAct}

/-- **A message is received.** -/
theorem Net.Reliable.receiveMsg (h : s.Reliable) (hq : InUse q) (hm : m.Sound j)
    (hcount : ∀ k, m.count k = (s.machine j).count k)
    (hqueue : m.sentMessagesQueue = (s.machine j).sentMessagesQueue) :
    (s.set j (receiveMsg j q i m).1 (receiveMsg j q i m).2).Reliable := by
  rw [receiveMsg_eq hm hq.1]
  by_cases hnext : q = m.count i
  · rw [if_pos hnext]
    subst hnext
    refine h.set (hm.append i) ?_ ?_ ?_
    · intro k
      rw [count_append, hcount]
      exact Nat.le_add_right _ _
    · intro e he
      exact .inr (by simpa only [Machine.append, hqueue] using he)
    · intro mail hmail
      obtain rfl := List.mem_singleton.mp hmail
      refine .inr ⟨_, hq, rfl, ?_⟩
      simp only [Net.set_machine_self, count_append, if_true]
      omega
  · rw [if_neg hnext]
    have hle : ∀ k, (s.machine j).count k ≤ m.count k := fun k => (hcount k).ge
    have hkeep : ∀ e ∈ (s.machine j).sentMessagesQueue,
        e.seqNum < (s.machine e.machineID).count j ∨ e ∈ m.sentMessagesQueue := by
      intro e he
      exact .inr (by rwa [hqueue])
    by_cases hold : q < m.count i
    · rw [if_pos hold]
      refine h.set hm hle hkeep ?_
      intro mail hmail
      obtain rfl := List.mem_singleton.mp hmail
      refine .inr ⟨q, hq, rfl, ?_⟩
      simp only [Net.set_machine_self]
      exact hold
    · rw [if_neg hold]
      exact h.set hm hle hkeep (by simp)

/-- **An acknowledgement is received**: only a stored message leaves the queue. -/
theorem Net.Reliable.receiveAck (h : s.Reliable) (hm : m.Sound i)
    (hcount : ∀ k, m.count k = (s.machine i).count k)
    (hqueue : m.sentMessagesQueue = (s.machine i).sentMessagesQueue)
    (hstored : q < (s.machine j).count i) :
    ∃ m', receiveAck q j m = some m' ∧ (s.set i m' []).Reliable := by
  obtain ⟨queue, removed, hloop, hcase⟩ :=
    ackLoop_spec q j m.sizeofList m.sentMessagesQueue hm.size.le
  refine ⟨_, by simp only [MultiSender.receiveAck, hloop]; rfl, ?_⟩
  have hle : ∀ k, (s.machine i).count k ≤ m.count k := fun k => (hcount k).ge
  rcases hcase with ⟨rfl, hperm⟩ | ⟨rfl, x, hx, hxj, hperm⟩
  · refine h.set ⟨?_, ?_, hm.walked, hm.inOrder⟩ hle ?_ (by simp)
    · simp [hperm.length_eq, hm.size]
    · exact fun e he => hm.queued e (hperm.mem_iff.mp he)
    · intro e he
      exact .inr (hperm.mem_iff.mpr (by rwa [hqueue]))
  · refine h.set ⟨?_, ?_, hm.walked, hm.inOrder⟩ hle ?_ (by simp)
    · simp [hm.size, hperm.length_eq]
    · exact fun e he => hm.queued e (hperm.mem_iff.mpr (List.mem_cons_of_mem _ he))
    · intro e he
      rw [← hqueue, hperm.mem_iff, List.mem_cons] at he
      rcases he with rfl | he
      · rw [hx, hxj]
        exact .inl hstored
      · exact .inr he

/-- **A packet is received.** The iteration ends unless an acknowledgement waits
for the lock: `sizeofList` is the length of the queue, so the loop over it does
not run into its end. -/
theorem Net.Reliable.receive (h : s.Reliable) (hmail : mail ∈ s.sent) :
    (∃ m mails, receive mail.pktTo mail (s.machine mail.pktTo) = some (m, mails) ∧
      (s.set mail.pktTo m mails).Reliable) ∨
    (receive mail.pktTo mail (s.machine mail.pktTo) = none ∧
      (s.machine mail.pktTo).resending.isSome = true) := by
  have hsound := h.machines mail.pktTo
  rcases h.mails mail hmail with ⟨e, he, hmsg⟩ | ⟨q, hq, hdata, hlt⟩
  · obtain ⟨hq, htext⟩ := mem_initialEntries he
    have hdata : mail.data = messageText msgType e.seqNum := by
      rw [hmsg, ← htext]
      rfl
    obtain ⟨buffer, hrec⟩ := receive_msg mail.pktTo (s.machine mail.pktTo) hdata hq
    exact .inl ⟨_, _, hrec, h.receiveMsg hq (hsound.buffer buffer) (fun _ => rfl) rfl⟩
  · obtain ⟨buffer, hrec⟩ := receive_ack mail.pktTo (s.machine mail.pktTo) hdata hq
    cases hlock : (s.machine mail.pktTo).resending.isSome with
    | true =>
        rw [hlock, if_pos rfl] at hrec
        exact .inr ⟨hrec, rfl⟩
    | false =>
        obtain ⟨m, hack, hrel⟩ :=
          h.receiveAck (hsound.buffer buffer) (fun _ => rfl) rfl hlt
        rw [hlock, if_neg Bool.false_ne_true, hack] at hrec
        exact .inl ⟨m, [], hrec, hrel⟩

/-- `Resend` changes what it has still to send, and sends initial messages. -/
theorem Net.Reliable.resend (h : s.Reliable) {es : Option (List SendEntry)} {mails : List Mail}
    (hes : ∀ l, es = some l → ∀ e ∈ l, e ∈ initialEntries i)
    (hmails : ∀ mail ∈ mails, ∃ e ∈ initialEntries i, mail = e.mail i) :
    (s.set i { s.machine i with resending := es } mails).Reliable := by
  have hi := h.machines i
  refine h.set ⟨hi.size, hi.queued, hes, hi.inOrder⟩ (fun _ => le_rfl) (fun _ he => .inr he) ?_
  intro mail hmail
  obtain ⟨e, he, rfl⟩ := hmails mail hmail
  exact .inl ⟨e, he, rfl⟩

/-- **One step of the system.** -/
theorem Net.Reliable.step {e : NetAct} (h : s.Reliable) (hs : netStep s a = some (s', e)) :
    s'.Reliable := by
  cases a with
  | receive mail =>
      simp only [netStep] at hs
      split at hs
      · rename_i hmail
        rcases h.receive hmail with ⟨m, mails, hrec, hrel⟩ | ⟨hrec, -⟩
        · rw [hrec] at hs
          obtain ⟨rfl, -⟩ := Prod.mk.inj (Option.some.inj hs)
          exact hrel
        · rw [hrec] at hs
          cases hs
      · cases hs
  | resend i =>
      simp only [netStep] at hs
      split at hs
      · cases hs
      · obtain ⟨rfl, -⟩ := Prod.mk.inj (Option.some.inj hs)
        refine h.resend ?_ (by simp)
        intro l hl
        obtain rfl := Option.some.inj hl
        exact (h.machines i).queued
  | resendNext i =>
      simp only [netStep] at hs
      split at hs
      · rename_i x es hwalk
        obtain ⟨rfl, -⟩ := Prod.mk.inj (Option.some.inj hs)
        have hwalked := (h.machines i).walked _ hwalk
        refine h.resend ?_ ?_
        · intro l hl
          obtain rfl := Option.some.inj hl
          exact fun e he => hwalked e (List.mem_cons_of_mem x he)
        · intro mail hmail
          exact ⟨x, hwalked x List.mem_cons_self, List.mem_singleton.mp hmail⟩
      · cases hs
  | resendEnd i =>
      simp only [netStep] at hs
      split at hs
      · obtain ⟨rfl, -⟩ := Prod.mk.inj (Option.some.inj hs)
        exact h.resend (by simp) (by simp)
      · cases hs

theorem Net.Reliable.initial (buffers : MachineID → Memory) : (Net.initial buffers).Reliable := by
  refine ⟨?_, ?_, fun _ _ he => .inr he⟩
  · intro i
    exact ⟨rfl, fun _ he => he, by simp [Net.initial], fun _ => rfl⟩
  · intro mail hmail
    simp only [Net.initial, List.mem_flatMap, List.mem_map] at hmail
    obtain ⟨i, -, e, he, rfl⟩ := hmail
    exact .inl ⟨e, he, rfl⟩

/-! ## Runs -/

/-- **Reliable delivery.** In every state reached, whatever the network has done
to the packets: machine `j` has stored the messages `0, .., k-1` of machine `i`
in this order, and every message that `i` has sent to `j` is among them or is
still in `i`'s queue. -/
theorem reliable_delivery {buffers : MachineID → Memory} {tr : List NetAct} {s : Net}
    (h : Run netStep anyStep (Net.initial buffers) tr s) (i j : MachineID) :
    ∃ k : ℕ, ((s.machine j).multiReceivedMsgQueue i).map ReceiveEntry.seqNum =
        (List.range k).map (fun q : ℕ => (q : ℤ)) ∧
      ∀ q : ℤ, ⟨i, j, messageText msgType q⟩ ∈ s.sent →
        q < k ∨ ∃ e ∈ (s.machine i).sentMessagesQueue, e.seqNum = q ∧ e.machineID = j := by
  have hrel : s.Reliable := by
    refine h.invariant (I := fun _ s => s.Reliable) (.initial buffers) ?_
    intro tr s a s' e ih _ hs
    exact ih.step hs
  refine ⟨(s.machine j).count i, (hrel.machines j).inOrder i, ?_⟩
  intro q hq
  rcases hrel.mails _ hq with ⟨e, he, hmail⟩ | ⟨n, -, hdata, -⟩
  · obtain ⟨-, htext⟩ := mem_initialEntries he
    obtain ⟨-, hto, hdata⟩ := Mail.mk.inj hmail
    have hnum : e.seqNum = q := by
      have hdec := (List.append_cancel_left (hdata.trans htext)).symm
      have hatoi := congrArg atoi (List.cons.inj hdec).2
      rwa [atoi_decimal, atoi_decimal] at hatoi
    rcases hrel.stored i e he with hlt | hmem
    · rw [hnum, ← hto] at hlt
      exact .inl hlt
    · exact .inr ⟨e, hmem, hnum, hto.symm⟩
  · have hhead := congrArg List.head? hdata
    simp [messageText, ackType, msgType] at hhead

/-- Machine 1 gets message 1 of machine 0 too early, then message 0 twice; its
acknowledgement is received twice, and machine 0 sends the rest again. -/
def lossyActs : List NetAct :=
  [.receive ⟨0, 1, messageText msgType 1⟩, .receive ⟨0, 1, messageText msgType 0⟩,
    .receive ⟨0, 1, messageText msgType 0⟩, .receive ⟨1, 0, messageText ackType 0⟩,
    .receive ⟨1, 0, messageText ackType 0⟩, .resend 0, .resendNext 0,
    .receive ⟨0, 1, messageText msgType 1⟩]

theorem reliable_delivery_lossy :
    ∃ s, Run netStep anyStep (Net.initial fun _ _ => nul) lossyActs s ∧
      ((s.machine 1).multiReceivedMsgQueue 0).map ReceiveEntry.seqNum = [0, 1] ∧
      ∃ k : ℕ, ((s.machine 1).multiReceivedMsgQueue 0).map ReceiveEntry.seqNum =
          (List.range k).map (fun q : ℕ => (q : ℤ)) ∧
        ∀ q : ℤ, ⟨0, 1, messageText msgType q⟩ ∈ s.sent →
          q < k ∨ ∃ e ∈ (s.machine 0).sentMessagesQueue, e.seqNum = q ∧ e.machineID = 1 := by
  have hx : (exec netStep anyStep [] (Net.initial fun _ _ => nul) lossyActs).isSome ∧
      ∀ p ∈ exec netStep anyStep [] (Net.initial fun _ _ => nul) lossyActs,
        p.1 = lossyActs ∧
        ((p.2.machine 1).multiReceivedMsgQueue 0).map ReceiveEntry.seqNum = [0, 1] := by
    decide +kernel
  obtain ⟨⟨tr, s⟩, hp⟩ := Option.isSome_iff_exists.mp hx.1
  have hrun := Run.of_exec .start hp
  obtain ⟨htr, hnums⟩ := hx.2 _ hp
  subst htr
  exact ⟨s, hrun, hnums, reliable_delivery hrun 0 1⟩

end Nachos.Network.MultiSender
