import Nachos.Network.Sender

/-!
# Removing an acknowledged message

On an acknowledgement the receive loop of `MultiSender` turns `sentMessagesQueue` round: the
first entry is removed and, unless it is the acknowledged one, appended at the end. The bound of
the loop is `sizeofList`, a counter beside the list that the loop itself takes back when it
removes an entry. Here machine numbers are any integers, and the loop carries `i` and the counter
as the source does; `receiveAck` of the system of senders is an instance of it.
-/

namespace Nachos.Network.AckRemoval

/-! ## The list and the loop -/

/-- `SendEntry`. -/
structure SendEntry where
  seqNum : ℤ
  msg : List Char
  machineID : ℤ
  mailboxNum : ℤ
deriving DecidableEq, Repr

/-- The list of sent messages and the counter beside it. -/
structure Sent where
  sentMessagesQueue : List SendEntry
  sizeofList : ℤ
deriving DecidableEq, Repr

/-- `List::Append`. -/
def Append (item : SendEntry) (list : List SendEntry) : List SendEntry := list ++ [item]

/-- `List::Remove`: the item, or `NULL`, and the list without it. -/
def Remove : List SendEntry → Option SendEntry × List SendEntry
  | [] => (none, [])
  | thing :: list => (some thing, list)

/-- The test of the loop: the entry was sent to the machine that acknowledges its number. -/
def Acknowledged (seqNum pktFrom : ℤ) (e : SendEntry) : Prop :=
  e.seqNum = seqNum ∧ e.machineID = pktFrom

instance (seqNum pktFrom : ℤ) (e : SendEntry) : Decidable (Acknowledged seqNum pktFrom e) :=
  inferInstanceAs (Decidable (_ ∧ _))

/-- `for(int i=0;i<sizeofList;i++)`. There is no result when the fuel runs out, and none when the
head of an empty list is read. -/
def ackLoop (seqNum pktFrom : ℤ) : (fuel : ℕ) → (i : ℤ) → Sent → Option Sent
  | 0, _, _ => none
  | fuel + 1, i, s =>
      if i < s.sizeofList then
        match Remove s.sentMessagesQueue with
        | (none, _) => none
        | (some tempSendEntry, list) =>
            if Acknowledged seqNum pktFrom tempSendEntry then
              some { sentMessagesQueue := list, sizeofList := s.sizeofList - 1 }
            else ackLoop seqNum pktFrom fuel (i + 1)
              { s with sentMessagesQueue := Append tempSendEntry list }
      else some s

/-! ## What it removes -/

/-- The first acknowledged entry is gone and the others keep their cyclic order; without such an
entry the list is what it was. The counter is the length in both cases. -/
structure AckRemoved (seqNum pktFrom : ℤ) (s s' : Sent) : Prop where
  queue :
    (∃ pre e post, s.sentMessagesQueue = pre ++ e :: post ∧ Acknowledged seqNum pktFrom e ∧
      (∀ x ∈ pre, ¬ Acknowledged seqNum pktFrom x) ∧ s'.sentMessagesQueue = post ++ pre) ∨
    (∀ x ∈ s.sentMessagesQueue, ¬ Acknowledged seqNum pktFrom x) ∧
      s'.sentMessagesQueue = s.sentMessagesQueue
  size : s'.sizeofList = s'.sentMessagesQueue.length

variable {seqNum pktFrom : ℤ}

/-- The loop in the middle of its turn: `turned` has been looked at and is at the end of the list,
`left` is still to come. -/
theorem ackLoop_turned : ∀ (left : List SendEntry) {turned : List SendEntry},
    (∀ x ∈ turned, ¬ Acknowledged seqNum pktFrom x) →
    ∃ s', (∀ fuel, left.length < fuel → ackLoop seqNum pktFrom fuel turned.length
        ⟨left ++ turned, ((turned ++ left).length : ℕ)⟩ = some s') ∧
      AckRemoved seqNum pktFrom ⟨turned ++ left, ((turned ++ left).length : ℕ)⟩ s'
  | [], turned, hturned => by
      refine ⟨⟨turned, turned.length⟩, ?_, .inr (by simpa using hturned), rfl⟩
      rintro (_ | fuel) hfuel
      · cases hfuel
      · simp [ackLoop]
  | e :: left, turned, hturned => by
      have hlt : (turned.length : ℤ) < ((turned ++ e :: left).length : ℕ) := by
        rw [List.length_append, List.length_cons]
        omega
      by_cases he : Acknowledged seqNum pktFrom e
      · refine ⟨⟨left ++ turned, ((turned ++ e :: left).length : ℕ) - 1⟩, ?_,
          .inl ⟨turned, e, left, rfl, he, hturned, rfl⟩, ?_⟩
        · rintro (_ | fuel) hfuel
          · cases hfuel
          · rw [ackLoop, if_pos hlt]
            simp only [List.cons_append, Remove, if_pos he]
        · simp only [List.length_append, List.length_cons]
          omega
      · -- the entry joins those that were turned, and the loop goes on behind it
        have hassoc : turned ++ e :: left = (turned ++ [e]) ++ left := by simp
        have hnext : ∀ x ∈ turned ++ [e], ¬ Acknowledged seqNum pktFrom x := by
          intro x hx
          rcases List.mem_append.mp hx with hx | hx
          · exact hturned x hx
          · rwa [List.mem_singleton.mp hx]
        obtain ⟨s', hloop, hs'⟩ := ackLoop_turned left hnext
        refine ⟨s', ?_, hassoc ▸ hs'⟩
        rintro (_ | fuel) hfuel
        · cases hfuel
        · rw [ackLoop, if_pos hlt]
          simp only [List.cons_append, Remove, if_neg he]
          rw [← hloop fuel (Nat.lt_of_succ_lt_succ hfuel), hassoc]
          simp [Append]

/-- **An acknowledgement removes one entry.** With the counter equal to the length of the list,
the loop ends within one turn and never reads the head of an empty list. It removes the first
entry with the acknowledged number and machine if there is one, and leaves the others in their
cyclic order and the counter equal to the length. -/
theorem ack_removal {s : Sent} (hsize : s.sizeofList = s.sentMessagesQueue.length)
    (seqNum pktFrom : ℤ) :
    ∃ s', (∀ fuel, s.sentMessagesQueue.length < fuel →
        ackLoop seqNum pktFrom fuel 0 s = some s') ∧
      AckRemoved seqNum pktFrom s s' := by
  obtain ⟨queue, sizeofList⟩ := s
  obtain rfl : sizeofList = queue.length := hsize
  have hnone : ∀ x ∈ ([] : List SendEntry), ¬ Acknowledged seqNum pktFrom x := nofun
  obtain ⟨s', hloop, hs'⟩ := ackLoop_turned queue hnone
  refine ⟨s', ?_, hs'⟩
  intro fuel hfuel
  simpa using hloop fuel hfuel

/-- Two messages to machine 1 with a message to machine 2 between them. -/
def threeSent : Sent :=
  ⟨[⟨0, ['m', 's', 'g', ',', '0'], 1, 0⟩, ⟨0, ['m', 's', 'g', ',', '0'], 2, 0⟩,
    ⟨1, ['m', 's', 'g', ',', '1'], 1, 0⟩], 3⟩

theorem ack_removal_second :
    threeSent.sizeofList = threeSent.sentMessagesQueue.length ∧
      ∃ s', (∀ fuel, 3 < fuel → ackLoop 0 2 fuel 0 threeSent = some s') ∧
        AckRemoved 0 2 threeSent s' :=
  ⟨rfl, ack_removal (s := threeSent) rfl 0 2⟩

/-! ## The senders of the system -/

/-- An entry of a machine of the system; its mailbox is 0. -/
def ofEntry (e : MultiSender.SendEntry) : SendEntry := ⟨e.seqNum, e.msg, e.machineID.val, 0⟩

/-- The list and the counter of a machine. -/
def sentOf (m : MultiSender.Machine) : Sent := ⟨m.sentMessagesQueue.map ofEntry, m.sizeofList⟩

theorem acknowledged_ofEntry {q : ℤ} {j : MultiSender.MachineID} {e : MultiSender.SendEntry} :
    Acknowledged q j.val (ofEntry e) ↔ e.seqNum = q ∧ e.machineID = j := by
  simp [Acknowledged, ofEntry, Fin.ext_iff]

/-- The loop of the system counts down what is left of the turn. -/
theorem ackLoop_of_system (q : ℤ) (j : MultiSender.MachineID) {size : ℤ} :
    ∀ {left fuel : ℕ} {i : ℤ} {queue queue' : List MultiSender.SendEntry} {removed : Bool},
    i + left = size → left < fuel →
    MultiSender.ackLoop q j left queue = some (queue', removed) →
    ackLoop q j.val fuel i ⟨queue.map ofEntry, size⟩ =
      some ⟨queue'.map ofEntry, if removed then size - 1 else size⟩
  | 0, fuel + 1, i, queue, queue', removed, hi, _, h => by
      simp only [MultiSender.ackLoop, Option.some.injEq, Prod.mk.injEq] at h
      obtain ⟨rfl, rfl⟩ := h
      have hend : ¬ i < size := by omega
      simp [ackLoop, hend]
  | left + 1, fuel + 1, i, [], queue', removed, hi, _, h => by cases h
  | left + 1, fuel + 1, i, e :: queue, queue', removed, hi, hfuel, h => by
      have hlt : i < size := by omega
      rw [ackLoop, if_pos hlt]
      simp only [List.map_cons, Remove, acknowledged_ofEntry]
      rw [MultiSender.ackLoop] at h
      by_cases he : e.seqNum = q ∧ e.machineID = j
      · rw [if_pos he] at h ⊢
        simp only [Option.some.injEq, Prod.mk.injEq] at h
        obtain ⟨rfl, rfl⟩ := h
        rfl
      · rw [if_neg he] at h ⊢
        have hi' : i + 1 + (left : ℤ) = size := by
          push_cast at hi
          omega
        have hloop := ackLoop_of_system q j hi' (Nat.lt_of_succ_lt_succ hfuel) h
        simpa [Append] using hloop

/-- **Every machine of the system removes its acknowledged entries so.** -/
theorem receiveAck_removes {m : MultiSender.Machine} {i : MultiSender.MachineID}
    (hm : m.Sound i) (q : ℤ) (j : MultiSender.MachineID) :
    ∃ m', MultiSender.receiveAck q j m = some m' ∧
      AckRemoved q j.val (sentOf m) (sentOf m') := by
  obtain ⟨queue', removed, hloop, hcase⟩ :=
    MultiSender.ackLoop_spec q j m.sizeofList m.sentMessagesQueue hm.size.le
  have hsize : (sentOf m).sizeofList = (sentOf m).sentMessagesQueue.length := by
    simp [sentOf, hm.size]
  obtain ⟨s', hs', hremoved⟩ := ack_removal hsize q j.val
  have heq := hs' _ (Nat.lt_succ_self _)
  rw [sentOf] at heq
  rw [ackLoop_of_system q j (by simp) (by simp [hm.size]) hloop] at heq
  obtain rfl := Option.some.inj heq
  have hpos : removed = true → 0 < m.sizeofList := by
    intro hr
    rcases hcase with ⟨hf, -⟩ | ⟨-, e, -, -, hperm⟩
    · cases hr.symm.trans hf
    · rw [hm.size, hperm.length_eq]
      exact Nat.succ_pos _
  have hafter : sentOf { m with
      sentMessagesQueue := queue'
      sizeofList := if removed then m.sizeofList - 1 else m.sizeofList } =
      ⟨queue'.map ofEntry, if removed then (m.sizeofList : ℤ) - 1 else m.sizeofList⟩ := by
    cases removed
    · rfl
    · simp [sentOf, Nat.cast_sub (hpos rfl)]
  refine ⟨_, by simp only [MultiSender.receiveAck, hloop]; rfl, ?_⟩
  rwa [hafter]

end Nachos.Network.AckRemoval
