import Mathlib.Tactic.Linarith
import Nachos.Lib.SortedInsert

/-!
# The queues of `network_thread`

Between a receive and the dispatch loop, a network thread works on three lists:
`TimeStampList`, the last timestamp seen of every registered thread;
`QueuedMessages`, sorted by timestamp; and `ProcessableMSG`, sorted by
`time*10+ntID`. One message updates its sender's timestamp, is queued when it
carries a request, and then everything stamped no later than the smallest entry
of `TimeStampList` moves to `ProcessableMSG`. The rest of an entry (the text and
the pointers into the receive buffer, or the decoded request) is a parameter.
-/

namespace Nachos.Network

open Nachos.Lib

/-- `MessageEntry`, with `body` for what the queues do not look at. -/
structure MessageEntry (β : Type) where
  ntID : ℤ
  time : ℤ
  body : β
deriving DecidableEq, Repr

/-- `TimeStamp`. -/
structure TimeStamp where
  ntID : ℤ
  time : ℤ
deriving DecidableEq, Repr

/-! ## `TimeStampList` -/

/-- The update loop, which breaks at the first match. -/
def updateStamp (ID timeStamp : ℤ) : List TimeStamp → List TimeStamp
  | [] => []
  | s :: l =>
      if s.ntID = ID then ⟨s.ntID, timeStamp⟩ :: l else s :: updateStamp ID timeStamp l

/-- The loop that looks for a smaller entry. -/
def smallestLoop : ℤ → List TimeStamp → ℤ
  | m, [] => m
  | m, s :: l => smallestLoop (if s.time < m then s.time else m) l

/-- `smallestTS`: the first entry, then the loop from the first entry on. The
list of a registered thread is not empty. -/
def smallestTS : List TimeStamp → ℤ
  | [] => 0
  | s :: l => smallestLoop s.time (s :: l)

theorem updateStamp_eq_map {ID timeStamp : ℤ} {l : List TimeStamp}
    (h : (l.map TimeStamp.ntID).Nodup) :
    updateStamp ID timeStamp l = l.map (fun s => if s.ntID = ID then ⟨ID, timeStamp⟩ else s) := by
  induction l with
  | nil => rfl
  | cons s l ih =>
      rw [List.map_cons, List.nodup_cons] at h
      simp only [updateStamp, List.map_cons]
      split
      · rename_i hs
        subst hs
        have hne : ∀ x ∈ l, x.ntID ≠ s.ntID := by
          intro x hx hxs
          exact h.1 (hxs ▸ List.mem_map_of_mem hx)
        congr 1
        conv_lhs => rw [← List.map_id l]
        refine List.map_congr_left ?_
        intro x hx
        simp [hne x hx]
      · rw [ih h.2]

theorem map_ntID_updateStamp (ID timeStamp : ℤ) (l : List TimeStamp) :
    (updateStamp ID timeStamp l).map TimeStamp.ntID = l.map TimeStamp.ntID := by
  induction l with
  | nil => rfl
  | cons s l ih =>
      unfold updateStamp
      split
      · rfl
      · rw [List.map_cons, List.map_cons, ih]

/-- What an entry is after the update. -/
theorem mem_updateStamp {ID timeStamp : ℤ} {l : List TimeStamp} {s : TimeStamp}
    (h : (l.map TimeStamp.ntID).Nodup) (hs : s ∈ updateStamp ID timeStamp l) :
    (s.ntID = ID ∧ s.time = timeStamp) ∨ (s.ntID ≠ ID ∧ s ∈ l) := by
  rw [updateStamp_eq_map h] at hs
  obtain ⟨x, hx, rfl⟩ := List.mem_map.mp hs
  split
  · exact .inl ⟨rfl, rfl⟩
  · rename_i hne
    exact .inr ⟨hne, hx⟩

theorem smallestLoop_le (l : List TimeStamp) (m : ℤ) :
    smallestLoop m l ≤ m ∧ ∀ s ∈ l, smallestLoop m l ≤ s.time := by
  induction l generalizing m with
  | nil => exact ⟨le_refl m, by simp⟩
  | cons x l ih =>
      obtain ⟨hm, hl⟩ := ih (if x.time < m then x.time else m)
      have hx : smallestLoop m (x :: l) ≤ x.time ∧ smallestLoop m (x :: l) ≤ m := by
        rw [smallestLoop]
        split at hm <;> constructor <;> split <;> omega
      refine ⟨hx.2, ?_⟩
      intro s hs
      rcases List.mem_cons.mp hs with rfl | hs
      · exact hx.1
      · exact hl s hs

theorem smallestLoop_mem (l : List TimeStamp) (m : ℤ) :
    smallestLoop m l = m ∨ ∃ s ∈ l, smallestLoop m l = s.time := by
  induction l generalizing m with
  | nil => exact .inl rfl
  | cons x l ih =>
      rw [smallestLoop]
      rcases ih (if x.time < m then x.time else m) with h | ⟨s, hs, h⟩
      · rw [h]
        split
        · exact .inr ⟨x, List.mem_cons_self, rfl⟩
        · exact .inl rfl
      · exact .inr ⟨s, List.mem_cons_of_mem _ hs, h⟩

theorem smallestTS_le {l : List TimeStamp} {s : TimeStamp} (hs : s ∈ l) :
    smallestTS l ≤ s.time := by
  cases l with
  | nil => cases hs
  | cons x l => exact (smallestLoop_le (x :: l) x.time).2 s hs

theorem smallestTS_mem {l : List TimeStamp} (h : l ≠ []) :
    ∃ s ∈ l, smallestTS l = s.time := by
  cases l with
  | nil => exact absurd rfl h
  | cons x l =>
      rcases smallestLoop_mem (x :: l) x.time with h | h
      · exact ⟨x, List.mem_cons_self, h⟩
      · exact h

/-! ## `QueuedMessages` and `ProcessableMSG` -/

variable {β : Type}

/-- The sort key of `ProcessableMSG`. -/
def MessageEntry.key (e : MessageEntry β) : ℤ := e.time * 10 + e.ntID

/-- The loop from `QueuedMessages` to `ProcessableMSG`: `temp4` walks over the
queue; every hit is inserted and the queue loses its first element. -/
def transferLoop (smallest : ℤ) :
    (temp4 queue processable : List (MessageEntry β)) →
    List (MessageEntry β) × List (MessageEntry β)
  | [], queue, processable => (queue, processable)
  | e :: temp4, queue, processable =>
      if e.time ≤ smallest then
        transferLoop smallest temp4 queue.tail (sortedInsert MessageEntry.key e processable)
      else transferLoop smallest temp4 queue processable

/-- Sorted by timestamp. -/
def TimeSorted (q : List (MessageEntry β)) : Prop :=
  q.Pairwise (fun a b => a.time ≤ b.time)

theorem transferLoop_none {smallest : ℤ} {temp4 : List (MessageEntry β)}
    (h : ∀ e ∈ temp4, smallest < e.time) (queue processable : List (MessageEntry β)) :
    transferLoop smallest temp4 queue processable = (queue, processable) := by
  induction temp4 with
  | nil => rfl
  | cons e temp4 ih =>
      have he : ¬ e.time ≤ smallest := not_le.mpr (h e List.mem_cons_self)
      rw [transferLoop, if_neg he]
      exact ih (fun x hx => h x (List.mem_cons_of_mem _ hx))

/-- **The loop splits the queue at the smallest timestamp.** The hits of a sorted
queue are its first elements, so removing the head removes the hit. -/
theorem transferLoop_spec {smallest : ℤ} {queue : List (MessageEntry β)}
    (h : TimeSorted queue) (processable : List (MessageEntry β)) :
    transferLoop smallest queue queue processable =
      (queue.filter (fun e => smallest < e.time),
        insertAll MessageEntry.key (queue.filter (fun e => e.time ≤ smallest)) processable) := by
  induction queue generalizing processable with
  | nil => rfl
  | cons e queue ih =>
      rw [TimeSorted, List.pairwise_cons] at h
      by_cases he : e.time ≤ smallest
      · rw [transferLoop, if_pos he, List.tail_cons, ih h.2,
          List.filter_cons_of_neg (by simpa using he), List.filter_cons_of_pos (by simpa using he),
          insertAll_cons]
      · have hlate : ∀ x ∈ e :: queue, smallest < x.time := by
          intro x hx
          rcases List.mem_cons.mp hx with rfl | hx
          · exact not_le.mp he
          · exact lt_of_lt_of_le (not_le.mp he) (h.1 x hx)
        rw [transferLoop_none hlate, List.filter_eq_self.mpr (by simpa using hlate),
          List.filter_eq_nil_iff.mpr (by simpa using hlate), insertAll_nil]

/-- The three lists of one network thread. -/
structure Queues (β : Type) where
  stamps : List TimeStamp
  queued : List (MessageEntry β)
  processable : List (MessageEntry β)
  sorted : TimeSorted queued

/-- `QueuedMessages->SortedInsert`, for a message that carries a request. -/
def enqueue (ID timeStamp : ℤ) (request : Option β) (queue : List (MessageEntry β)) :
    List (MessageEntry β) :=
  match request with
  | none => queue
  | some body => sortedInsert MessageEntry.time ⟨ID, timeStamp, body⟩ queue

theorem enqueue_sorted {ID timeStamp : ℤ} {request : Option β} {queue : List (MessageEntry β)}
    (h : TimeSorted queue) : TimeSorted (enqueue ID timeStamp request queue) := by
  cases request with
  | none => exact h
  | some body => exact sorted_sortedInsert h

theorem mem_enqueue {ID timeStamp : ℤ} {request : Option β} {queue : List (MessageEntry β)}
    {e : MessageEntry β} :
    e ∈ enqueue ID timeStamp request queue ↔
      (∃ body, request = some body ∧ e = ⟨ID, timeStamp, body⟩) ∨ e ∈ queue := by
  cases request with
  | none => simp [enqueue]
  | some body => simp [enqueue]

/-- One iteration up to the dispatch loop: the timestamp update, the queueing
and the transfer. -/
def Queues.receive (q : Queues β) (ID timeStamp : ℤ) (request : Option β) : Queues β where
  stamps := updateStamp ID timeStamp q.stamps
  queued := (transferLoop (smallestTS (updateStamp ID timeStamp q.stamps))
    (enqueue ID timeStamp request q.queued) (enqueue ID timeStamp request q.queued)
    q.processable).1
  processable := (transferLoop (smallestTS (updateStamp ID timeStamp q.stamps))
    (enqueue ID timeStamp request q.queued) (enqueue ID timeStamp request q.queued)
    q.processable).2
  sorted := by
    rw [transferLoop_spec (enqueue_sorted q.sorted)]
    exact (enqueue_sorted q.sorted).sublist List.filter_sublist

/-- `ProcessableMSG->Remove()` at the end of one dispatch. -/
def Queues.dropProcessable (q : Queues β) : Queues β := { q with processable := q.processable.tail }

section Receive

variable (q : Queues β) (ID timeStamp : ℤ) (request : Option β)

@[simp] theorem Queues.receive_stamps :
    (q.receive ID timeStamp request).stamps = updateStamp ID timeStamp q.stamps := rfl

theorem Queues.receive_queued :
    (q.receive ID timeStamp request).queued =
      (enqueue ID timeStamp request q.queued).filter
        (fun e => smallestTS (updateStamp ID timeStamp q.stamps) < e.time) :=
  congrArg Prod.fst (transferLoop_spec (enqueue_sorted q.sorted) q.processable)

theorem Queues.receive_processable :
    (q.receive ID timeStamp request).processable =
      insertAll MessageEntry.key ((enqueue ID timeStamp request q.queued).filter
        (fun e => e.time ≤ smallestTS (updateStamp ID timeStamp q.stamps))) q.processable :=
  congrArg Prod.snd (transferLoop_spec (enqueue_sorted q.sorted) q.processable)

/-- **Nothing is lost between the queues**: an iteration adds the request it
received and only moves the others. -/
theorem Queues.receive_perm :
    ((q.receive ID timeStamp request).processable ++ (q.receive ID timeStamp request).queued).Perm
      ((request.map (MessageEntry.mk ID timeStamp)).toList ++ (q.processable ++ q.queued)) := by
  have hsplit : ((enqueue ID timeStamp request q.queued).filter
        (fun e => e.time ≤ smallestTS (updateStamp ID timeStamp q.stamps)) ++
      (enqueue ID timeStamp request q.queued).filter
        (fun e => smallestTS (updateStamp ID timeStamp q.stamps) < e.time)).Perm
      (enqueue ID timeStamp request q.queued) := by
    have := List.filter_append_perm
      (fun e : MessageEntry β => decide (e.time ≤ smallestTS (updateStamp ID timeStamp q.stamps)))
      (enqueue ID timeStamp request q.queued)
    simpa only [← decide_not, not_le] using this
  have henq : (enqueue ID timeStamp request q.queued).Perm
      ((request.map (MessageEntry.mk ID timeStamp)).toList ++ q.queued) := by
    cases request with
    | none => exact .refl _
    | some body => exact perm_sortedInsert ..
  rw [Queues.receive_processable, Queues.receive_queued]
  refine ((perm_insertAll _ _).append_right _).trans ?_
  rw [List.append_assoc]
  refine (List.perm_append_comm.append_left _).trans ?_
  rw [← List.append_assoc]
  refine ((hsplit.trans henq).append_right _).trans ?_
  rw [List.append_assoc]
  exact List.perm_append_comm.append_left _

end Receive

end Nachos.Network
