import Nachos.Network.Mail

/-!
# The order of dispatches at different network threads

A network thread dispatches a request once every registered thread has been
heard of at or after the request's timestamp, in the hope that nothing earlier
can still arrive. Whether all threads then dispatch in one order rests on two
things the code does not secure.

* A request is stamped by its user program before it waits in the mailbox of its
  network thread, and that thread stamps its answers in the meantime. A request
  can therefore reach the others after a later timestamp of the same thread, or
  with the same one.
* A batch that becomes processable at once is sorted by `time*10+ntID`, so an id
  from 11 up can outweigh an earlier timestamp.

When neither happens, every thread dispatches in the order of timestamps, with
ties resolved by the ids, and any two threads agree.
-/

namespace Nachos.Network

open Nachos.Lib

/-! ## The condition on receives -/

/-- The timestamps under which `i` has been heard of: what it sent to another
thread, and what it received itself under its own id. -/
def Event.stamp (i : ℤ) : Event → Option ℤ
  | .sent j d m => if j = i ∧ d ≠ i then some m.time else none
  | .received j _ m => if j = i ∧ m.ID = i then some m.time else none
  | _ => none

def stampsOf (i : ℤ) (tr : List Event) : List ℤ := tr.filterMap (Event.stamp i)

theorem stampsOf_snoc (i : ℤ) (tr : List Event) (e : Event) :
    stampsOf i (tr ++ [e]) = stampsOf i tr ++ (e.stamp i).toList :=
  filterMap_snoc ..

/-- An own request is later than every timestamp its thread has put out. -/
def FreshRequest (tr : List Event) (i : ℤ) (m : Msg) : Prop :=
  m.op.isSome → m.ID = i → ∀ t ∈ stampsOf i tr, t < m.time

/-- No two requests of registered threads become processable together with the
earlier one behind the later one in the order of the keys. -/
def BatchAgrees (reg : Registry) (q : Queues Op) (m : Msg) : Prop :=
  ∀ x ∈ enqueue m.ID m.time m.op q.queued, ∀ y ∈ enqueue m.ID m.time m.op q.queued,
    x.ntID ∈ reg.idList → y.ntID ∈ reg.idList → x.time < y.time →
    y.time ≤ smallestTS (updateStamp m.ID m.time q.stamps) → x.key ≤ y.key

/-- The receives after which threads agree; the other steps are free. -/
def InOrder (reg : Registry) (tr : List Event) (s : Net) : Label → Prop
  | .receive nt snd => ∀ m ∈ (s.chan (snd, nt.self)).head?,
      FreshRequest tr nt.self m ∧ BatchAgrees reg (s.nt nt.self).queues m
  | _ => True

instance (tr : List Event) (i : ℤ) (m : Msg) : Decidable (FreshRequest tr i m) :=
  inferInstanceAs (Decidable (_ → _ → _))

instance (reg : Registry) (q : Queues Op) (m : Msg) : Decidable (BatchAgrees reg q m) :=
  inferInstanceAs (Decidable (∀ x ∈ _, ∀ y ∈ _, _))

instance (reg : Registry) (tr : List Event) (s : Net) (l : Label) :
    Decidable (InOrder reg tr s l) :=
  match l with
  | .receive nt snd => inferInstanceAs (Decidable (∀ m ∈ (s.chan (snd, nt.self)).head?, _))
  | .tick _ | .issue _ _ | .answer _ | .steal _ _ | .send _ | .dispatch _ => .isTrue trivial

/-! ## The invariant -/

/-- The requests `d` has dispatched or is about to. -/
def doneBy (d : ℤ) (tr : List Event) (s : Net) : List (MessageEntry Op) :=
  dispatchedBy d tr ++ (s.nt d).queues.processable

/-- Timestamps first, ids on ties. -/
def Earlier (a b : MessageEntry Op) : Prop :=
  a.time < b.time ∨ (a.time = b.time ∧ a.ntID < b.ntID)

/-- `t` is later than every registered request `d` is done with and than
everything `d` has heard of `i`. -/
structure LaterThan (reg : Registry) (tr : List Event) (s : Net) (i d t : ℤ) : Prop where
  done : ∀ y ∈ doneBy d tr s, y.ntID ∈ reg.idList → y.time < t
  queued : ∀ x ∈ (s.nt d).queues.queued, x.ntID = i → x.time < t
  stamp : ∀ st ∈ (s.nt d).queues.stamps, st.ntID = i → st.time < t

/-- What a thread knows of others has been put out by them. -/
structure Known (reg : Registry) (tr : List Event) (s : Net) : Prop where
  chan : ∀ i d, d ≠ i → ∀ x ∈ s.chan (.nt i, d), x.time ∈ stampsOf i tr
  stamp : ∀ d, ∀ st ∈ (s.nt d).queues.stamps, st.time = -1 ∨ st.time ∈ stampsOf st.ntID tr
  queued : ∀ d, ∀ x ∈ (s.nt d).queues.queued, x.ntID ∈ reg.idList →
    x.time ∈ stampsOf x.ntID tr
  done : ∀ d, ∀ y ∈ doneBy d tr s, y.ntID ∈ reg.idList → ∀ i ∈ reg.idList,
    ∃ t ∈ stampsOf i tr, y.time ≤ t

/-- The requests on their way to `d` are later than everything before them. -/
structure Ahead (reg : Registry) (tr : List Event) (s : Net) : Prop where
  inFlight : ∀ i d, ∀ m ∈ s.chan (.nt i, d), m.op.isSome → LaterThan reg tr s i d m.time
  chan : ∀ i d, (s.chan (.nt i, d)).Pairwise (fun a b => b.op.isSome → a.time < b.time)
  forwarding : ∀ i, (s.nt i).current.ID = i → ∀ d ∈ (s.nt i).sending, d ≠ i →
    LaterThan reg tr s i d (s.nt i).current.time ∧
      ∀ x ∈ s.chan (.nt i, d), x.time < (s.nt i).current.time

/-- The order inside one thread. -/
structure SortedAt (reg : Registry) (tr : List Event) (s : Net) (d : ℤ) : Prop where
  distinct : (s.nt d).queues.queued.Pairwise (fun a b => a.ntID ∈ reg.idList →
    a.ntID = b.ntID → a.time ≠ b.time)
  below : ∀ y ∈ doneBy d tr s, y.ntID ∈ reg.idList →
    ∀ x ∈ (s.nt d).queues.queued, x.ntID ∈ reg.idList → y.time < x.time
  sorted : (doneBy d tr s).Pairwise (fun a b => a.ntID ∈ reg.idList → b.ntID ∈ reg.idList →
    Earlier a b)

structure Ordered (reg : Registry) (tr : List Event) (s : Net) : Prop where
  known : Known reg tr s
  ahead : Ahead reg tr s
  sortedAt : ∀ d, SortedAt reg tr s d

section Invariant

variable {reg : Registry} {tr tr' : List Event} {s s' : Net}

theorem LaterThan.congr {i d t : ℤ} (h : LaterThan reg tr s i d t)
    (hdone : doneBy d tr' s' = doneBy d tr s)
    (hqueues : (s'.nt d).queues.queued = (s.nt d).queues.queued ∧
      (s'.nt d).queues.stamps = (s.nt d).queues.stamps) : LaterThan reg tr' s' i d t where
  done := by
    rw [hdone]
    exact h.done
  queued := by
    rw [hqueues.1]
    exact h.queued
  stamp := by
    rw [hqueues.2]
    exact h.stamp

/-- Steps that move no message into a queue keep the invariant. -/
theorem Ordered.frame (h : Ordered reg tr s)
    (hchan : ∀ i d, (s'.chan (.nt i, d)).Sublist (s.chan (.nt i, d)))
    (hdone : ∀ d, doneBy d tr' s' = doneBy d tr s)
    (hqueues : ∀ d, (s'.nt d).queues.queued = (s.nt d).queues.queued ∧
      (s'.nt d).queues.stamps = (s.nt d).queues.stamps)
    (hcurrent : ∀ i, (s'.nt i).current = (s.nt i).current)
    (hsending : ∀ i, (s'.nt i).sending ⊆ (s.nt i).sending)
    (hstamps : ∀ i, stampsOf i tr ⊆ stampsOf i tr') : Ordered reg tr' s' where
  known :=
    { chan := fun i d hd x hx => hstamps i (h.known.chan i d hd x ((hchan i d).subset hx))
      stamp := by
        intro d st hst
        rw [(hqueues d).2] at hst
        exact (h.known.stamp d st hst).imp_right fun ht => hstamps _ ht
      queued := by
        intro d x hx hreg
        rw [(hqueues d).1] at hx
        exact hstamps _ (h.known.queued d x hx hreg)
      done := by
        intro d y hy hreg i hi
        rw [hdone d] at hy
        obtain ⟨t, ht, hle⟩ := h.known.done d y hy hreg i hi
        exact ⟨t, hstamps i ht, hle⟩ }
  ahead :=
    { inFlight := fun i d m hm hop =>
        (h.ahead.inFlight i d m ((hchan i d).subset hm) hop).congr (hdone d) (hqueues d)
      chan := fun i d => (h.ahead.chan i d).sublist (hchan i d)
      forwarding := by
        intro i hi d hd hne
        rw [hcurrent i] at hi ⊢
        obtain ⟨hlater, hlt⟩ := h.ahead.forwarding i hi d (hsending i hd) hne
        exact ⟨hlater.congr (hdone d) (hqueues d), fun x hx => hlt x ((hchan i d).subset hx)⟩ }
  sortedAt := fun d =>
    { distinct := by
        rw [(hqueues d).1]
        exact (h.sortedAt d).distinct
      below := by
        rw [hdone d, (hqueues d).1]
        exact (h.sortedAt d).below
      sorted := by
        rw [hdone d]
        exact (h.sortedAt d).sorted }

theorem stampsOf_subset (i : ℤ) (tr : List Event) (e : Event) :
    stampsOf i tr ⊆ stampsOf i (tr ++ [e]) := by
  rw [stampsOf_snoc]
  exact List.subset_append_left ..

theorem doneBy_snoc {d : ℤ} {e : Event} (he : e.dispatchedEntry d = none) :
    doneBy d (tr ++ [e]) s = doneBy d tr s := by
  rw [doneBy, dispatchedBy_snoc, he]
  simp [doneBy]

/-! ## Sending -/

theorem Ordered.send (h : Ordered reg tr s) (hshape : Shape reg s) {i d : ℤ} {ds : List ℤ}
    (hs : (s.nt i).sending = d :: ds) (hto : ¬ ((s.nt i).current.ID = i ∧ d = i)) :
    Ordered reg (tr ++ [Event.sent i d (s.outgoing i)])
      ((s.setSending i ds).push (.nt i, d) (s.outgoing i)) := by
  have hmid : Ordered reg (tr ++ [Event.sent i d (s.outgoing i)]) (s.setSending i ds) := by
    refine h.frame (fun _ _ => .refl _) ?_ (fun _ => by simp) (fun _ => by simp) ?_
      (fun j => stampsOf_subset ..)
    · intro j
      rw [doneBy_snoc rfl]
      simp [doneBy]
    · intro j
      by_cases hj : j = i
      · rw [hj, Net.setSending_nt_self, hs]
        exact List.subset_cons_self ..
      · rw [Net.setSending_nt_of_ne _ _ _ hj]
        exact List.Subset.refl _
  -- a request that leaves is the own one, and it is later than all before it
  have hlater : (s.outgoing i).op.isSome → LaterThan reg tr s i d (s.outgoing i).time ∧
      ∀ x ∈ s.chan (.nt i, d), x.time < (s.outgoing i).time := by
    unfold Net.outgoing
    split
    · intro hop
      cases hop
    · rename_i hown
      rw [not_not] at hown
      intro _
      exact h.ahead.forwarding i hown d (hs ▸ List.mem_cons_self) fun hd => hto ⟨hown, hd⟩
  refine ⟨⟨?_, hmid.known.stamp, hmid.known.queued, hmid.known.done⟩, ⟨?_, ?_, ?_⟩, fun j =>
    ⟨(hmid.sortedAt j).distinct, (hmid.sortedAt j).below, (hmid.sortedAt j).sorted⟩⟩
  · intro j e hne x hx
    rcases mem_chan_push hx with hx | ⟨hq, rfl⟩
    · exact hmid.known.chan j e hne x hx
    · obtain ⟨rfl, rfl⟩ : j = i ∧ e = d := by simpa using hq
      rw [stampsOf_snoc]
      exact List.mem_append_right _ (by simp [Event.stamp, hne])
  · intro j e m hm hop
    rcases mem_chan_push hm with hm | ⟨hq, rfl⟩
    · exact (hmid.ahead.inFlight j e m hm hop).congr rfl ⟨rfl, rfl⟩
    · obtain ⟨rfl, rfl⟩ : j = i ∧ e = d := by simpa using hq
      refine (hlater hop).1.congr ?_ (by simp)
      rw [doneBy_snoc rfl]
      simp [doneBy]
  · intro j e
    rw [Net.push_chan_apply]
    split
    · rename_i hq
      obtain ⟨rfl, rfl⟩ : j = i ∧ e = d := by simpa using hq
      rw [List.pairwise_append]
      refine ⟨hmid.ahead.chan j e, List.pairwise_singleton .., ?_⟩
      intro a ha b hb hop
      obtain rfl := List.mem_singleton.mp hb
      exact (hlater hop).2 a ha
    · exact hmid.ahead.chan j e
  · intro j hj e he hne
    obtain ⟨hl, hlt⟩ := hmid.ahead.forwarding j hj e he hne
    refine ⟨hl.congr rfl ⟨rfl, rfl⟩, ?_⟩
    intro x hx
    rcases mem_chan_push hx with hx | ⟨hq, rfl⟩
    · exact hlt x hx
    · -- the destination just served is not served again
      obtain ⟨rfl, rfl⟩ : j = i ∧ e = d := by simpa using hq
      rw [Net.push_nt, Net.setSending_nt_self] at he
      exact absurd he (hshape.sending_notMem hs)

/-! ## Receiving -/

/-- A timestamp later than all that `i` has put out is later than all that any
thread has heard of `i`, and than all it has dispatched. -/
theorem Known.laterThan (h : Known reg tr s) {i t : ℤ} (hi : i ∈ reg.idList) (h0 : 0 ≤ t)
    (ht : ∀ u ∈ stampsOf i tr, u < t) (d : ℤ) : LaterThan reg tr s i d t where
  done := by
    intro y hy hreg
    obtain ⟨u, hu, hle⟩ := h.done d y hy hreg i hi
    exact lt_of_le_of_lt hle (ht u hu)
  queued := by
    rintro x hx rfl
    exact ht _ (h.queued d x hx hi)
  stamp := by
    rintro st hst rfl
    rcases h.stamp d st hst with hst | hst
    · omega
    · exact ht _ hst

/-- The smallest timestamp of `d` after it received `m`. -/
def smallestAfter (s : Net) (d : ℤ) (m : Msg) : ℤ :=
  smallestTS (updateStamp m.ID m.time (s.nt d).queues.stamps)

/-- `QueuedMessages` of `d` with `m` in it. -/
def queueWith (s : Net) (d : ℤ) (m : Msg) : List (MessageEntry Op) :=
  enqueue m.ID m.time m.op (s.nt d).queues.queued

theorem mem_queueWith {d : ℤ} {m : Msg} {x : MessageEntry Op} (hx : x ∈ queueWith s d m) :
    (m.op.isSome ∧ x.ntID = m.ID ∧ x.time = m.time) ∨ x ∈ (s.nt d).queues.queued := by
  rcases mem_enqueue.mp hx with ⟨body, hop, rfl⟩ | hx
  · exact .inl ⟨by rw [hop]; rfl, rfl, rfl⟩
  · exact .inr hx

section Receive

variable {d : ℤ} {snd : Sender} {m : Msg} {ms : List Msg}

theorem receive_queued_eq :
    ((s.receive d snd m ms).nt d).queues.queued =
      (queueWith s d m).filter (fun e => smallestAfter s d m < e.time) := by
  rw [Net.receive_nt_self]
  exact Queues.receive_queued ..

theorem doneBy_receive (hproc : (s.nt d).queues.processable = []) :
    doneBy d (tr ++ [Event.received d snd m]) (s.receive d snd m ms) =
      doneBy d tr s ++ insertAll MessageEntry.key
        ((queueWith s d m).filter (fun e => e.time ≤ smallestAfter s d m)) [] := by
  rw [doneBy_snoc rfl, doneBy, doneBy, hproc, List.append_nil, Net.receive_nt_self]
  congr 1
  rw [← hproc]
  exact Queues.receive_processable ..

theorem mem_doneBy_receive (hproc : (s.nt d).queues.processable = []) {y : MessageEntry Op}
    (hy : y ∈ doneBy d (tr ++ [Event.received d snd m]) (s.receive d snd m ms)) :
    y ∈ doneBy d tr s ∨ (y ∈ queueWith s d m ∧ y.time ≤ smallestAfter s d m) := by
  rw [doneBy_receive hproc] at hy
  rcases List.mem_append.mp hy with hy | hy
  · exact .inl hy
  · rcases mem_insertAll.mp hy with hy | hy
    · exact .inr (by simpa using hy)
    · cases hy

/-- The receiver's table has an entry for `i`, and nothing processable is later. -/
theorem Shape.exists_stamp (hshape : Shape reg s) {i : ℤ} (hi : i ∈ reg.idList) (d : ℤ) (m : Msg) :
    ∃ st ∈ updateStamp m.ID m.time (s.nt d).queues.stamps,
      st.ntID = i ∧ smallestAfter s d m ≤ st.time := by
  have hmem : i ∈ (updateStamp m.ID m.time (s.nt d).queues.stamps).map TimeStamp.ntID := by
    rw [map_ntID_updateStamp, (hshape.nt d).stampIds]
    exact hi
  obtain ⟨st, hst, rfl⟩ := List.mem_map.mp hmem
  exact ⟨st, hst, rfl, smallestTS_le hst⟩

/-- What comes after the received message of `i` stays later than all that the
receiver is done with. -/
theorem LaterThan.receive (hshape : Shape reg s) (hproc : (s.nt d).queues.processable = [])
    {i t : ℤ} (h : LaterThan reg tr s i d t) (hi : i ∈ reg.idList) (hm : m.ID = i → m.time < t) :
    LaterThan reg (tr ++ [Event.received d snd m]) (s.receive d snd m ms) i d t := by
  have hstamp : ∀ st ∈ updateStamp m.ID m.time (s.nt d).queues.stamps, st.ntID = i →
      st.time < t := by
    intro st hst hID
    rcases hshape.stamp_cases hst with ⟨_, h1, h2⟩ | h2
    · rw [h2]
      exact hm (h1 ▸ hID)
    · exact h.stamp st h2 hID
  constructor
  · intro y hy hreg
    rcases mem_doneBy_receive hproc hy with hy | ⟨_, hle⟩
    · exact h.done y hy hreg
    · obtain ⟨st, hst, hID, hsm⟩ := hshape.exists_stamp hi d m
      exact lt_of_le_of_lt (hle.trans hsm) (hstamp st hst hID)
  · intro x hx hID
    rw [receive_queued_eq] at hx
    rcases mem_queueWith (List.mem_of_mem_filter hx) with ⟨_, h1, h2⟩ | hx
    · rw [h2]
      exact hm (h1 ▸ hID)
    · exact h.queued x hx hID
  · intro st hst hID
    rw [Net.receive_nt_self] at hst
    exact hstamp st hst hID

/-- The message received has been put out by its sender. -/
theorem Known.received (h : Known reg tr s) (hshape : Shape reg s)
    (hchan : s.chan (snd, d) = m :: ms) (hm : m.ID ∈ reg.idList) :
    m.time ∈ stampsOf m.ID (tr ++ [Event.received d snd m]) := by
  by_cases hown : m.ID = d
  · rw [stampsOf_snoc]
    exact List.mem_append_right _ (by simp [Event.stamp, hown])
  have hmem : m ∈ s.chan (snd, d) := hchan ▸ List.mem_cons_self
  cases snd with
  | up =>
      exact absurd (hshape.fromUp_own hmem hm) hown
  | nt k =>
      obtain ⟨_, rfl, _⟩ := hshape.fromNt k d m hmem
      exact stampsOf_subset _ _ _ (h.chan _ d (Ne.symm hown) m hmem)

theorem Known.receive (h : Known reg tr s) (hshape : Shape reg s)
    (hproc : (s.nt d).queues.processable = []) (hchan : s.chan (snd, d) = m :: ms) :
    Known reg (tr ++ [Event.received d snd m]) (s.receive d snd m ms) := by
  have hstamps : ∀ i, stampsOf i tr ⊆ stampsOf i (tr ++ [Event.received d snd m]) :=
    fun i => stampsOf_subset ..
  have hstamp : ∀ st ∈ updateStamp m.ID m.time (s.nt d).queues.stamps,
      st.time = -1 ∨ st.time ∈ stampsOf st.ntID (tr ++ [Event.received d snd m]) := by
    intro st hst
    rcases hshape.stamp_cases hst with ⟨hreg, h1, h2⟩ | h2
    · rw [h1, h2]
      exact .inr (h.received hshape hchan hreg)
    · exact (h.stamp d st h2).imp_right fun ht => hstamps _ ht
  have hqueue : ∀ x ∈ queueWith s d m, x.ntID ∈ reg.idList →
      x.time ∈ stampsOf x.ntID (tr ++ [Event.received d snd m]) := by
    intro x hx hreg
    rcases mem_queueWith hx with ⟨_, h1, h2⟩ | hx
    · rw [h1] at hreg ⊢
      rw [h2]
      exact h.received hshape hchan hreg
    · exact hstamps _ (h.queued d x hx hreg)
  refine ⟨?_, ?_, ?_, ?_⟩
  · intro i e hne x hx
    exact hstamps i (h.chan i e hne x (mem_chan_pop hchan hx))
  · intro j
    by_cases hj : j = d
    · rw [hj, Net.receive_nt_self]
      exact hstamp
    · rw [Net.receive_nt_of_ne _ _ _ _ _ hj]
      exact fun st hst => (h.stamp j st hst).imp_right fun ht => hstamps _ ht
  · intro j
    by_cases hj : j = d
    · rw [hj, receive_queued_eq]
      exact fun x hx => hqueue x (List.mem_of_mem_filter hx)
    · rw [Net.receive_nt_of_ne _ _ _ _ _ hj]
      exact fun x hx hreg => hstamps _ (h.queued j x hx hreg)
  · intro j y hy hreg i hi
    by_cases hj : j = d
    · rw [hj] at hy
      rcases mem_doneBy_receive hproc hy with hy | ⟨hq, hle⟩
      · obtain ⟨t, ht, hle⟩ := h.done d y hy hreg i hi
        exact ⟨t, hstamps i ht, hle⟩
      · -- a processable request waits for every thread's timestamp
        obtain ⟨st, hst, rfl, hsm⟩ := hshape.exists_stamp hi d m
        have h0 : 0 ≤ y.time := by
          rcases mem_queueWith hq with ⟨_, _, h2⟩ | hq
          · rw [h2]
            exact (hshape.of_head hchan).1
          · exact ((hshape.nt d).entries y (List.mem_append_right _ hq)).1
        rcases hstamp st hst with hneg | ht
        · omega
        · exact ⟨st.time, ht, hle.trans hsm⟩
    · rw [doneBy_snoc rfl, doneBy, Net.receive_nt_of_ne _ _ _ _ _ hj] at hy
      obtain ⟨t, ht, hle⟩ := h.done j y hy hreg i hi
      exact ⟨t, hstamps i ht, hle⟩

/-- The received request is later than all the receiver is done with. -/
theorem Ordered.received_later (h : Ordered reg tr s) (hshape : Shape reg s)
    (hd : d ∈ reg.idList) (hchan : s.chan (snd, d) = m :: ms) (hfresh : FreshRequest tr d m)
    (hop : m.op.isSome) (hm : m.ID ∈ reg.idList) : LaterThan reg tr s m.ID d m.time := by
  have hmem : m ∈ s.chan (snd, d) := hchan ▸ List.mem_cons_self
  cases snd with
  | nt k =>
      obtain ⟨_, rfl, _⟩ := hshape.fromNt k d m hmem
      exact h.ahead.inFlight _ d m hmem hop
  | up =>
      obtain ⟨_, _, h0, _⟩ := hshape.fromUp d m hmem
      have hown := hshape.fromUp_own hmem hm
      rw [hown]
      exact h.known.laterThan hd h0 (hfresh hop hown) d

theorem Ahead.receive (h : Ordered reg tr s) (hshape : Shape reg s) (hd : d ∈ reg.idList)
    (hproc : (s.nt d).queues.processable = []) (hchan : s.chan (snd, d) = m :: ms)
    (hfresh : FreshRequest tr d m) :
    Ahead reg (tr ++ [Event.received d snd m]) (s.receive d snd m ms) := by
  have hmem : m ∈ s.chan (snd, d) := hchan ▸ List.mem_cons_self
  have hother : ∀ {i e t}, e ≠ d → LaterThan reg tr s i e t →
      LaterThan reg (tr ++ [Event.received d snd m]) (s.receive d snd m ms) i e t := by
    intro i e t he hl
    refine hl.congr ?_ ?_
    · rw [doneBy_snoc rfl, doneBy, doneBy, Net.receive_nt_of_ne _ _ _ _ _ he]
    · rw [Net.receive_nt_of_ne _ _ _ _ _ he]
      exact ⟨rfl, rfl⟩
  refine ⟨?_, ?_, ?_⟩
  · intro i e x hx hop
    have hold := h.ahead.inFlight i e x (mem_chan_pop hchan hx) hop
    by_cases he : e = d
    · subst he
      obtain ⟨hi, _, _, hto⟩ := hshape.fromNt i e x (mem_chan_pop hchan hx)
      refine hold.receive hshape hproc hi ?_
      intro hID
      cases snd with
      | up =>
          -- no thread mails a request to itself
          have hown := hshape.fromUp_own hmem (hID ▸ hi)
          exact absurd (hown.symm.trans hID) (hto hop)
      | nt k =>
          obtain rfl : k = i := (hshape.fromNt k e m hmem).2.1.symm.trans hID
          have hpair := h.ahead.chan k e
          rw [hchan, List.pairwise_cons] at hpair
          rw [Net.receive_chan, Function.update_self] at hx
          exact hpair.1 x hx hop
    · exact hother he hold
  · intro i e
    exact (h.ahead.chan i e).sublist (chan_pop_suffix hchan _).sublist
  · intro i
    by_cases hi : i = d
    · subst hi
      rw [Net.receive_nt_self]
      intro hID e he hne
      -- the own request: everything heard of this thread is earlier
      have hop : m.op.isSome := by
        by_contra hop
        rw [if_neg hop] at he
        cases he
      have hlater := h.known.laterThan hd (hshape.of_head hchan).1 (hfresh hop hID)
      refine ⟨hother hne (hlater e), ?_⟩
      intro x hx
      exact hfresh hop hID _ (h.known.chan i e hne x (mem_chan_pop hchan hx))
    · rw [Net.receive_nt_of_ne _ _ _ _ _ hi]
      intro hID e he hne
      obtain ⟨hl, hlt⟩ := h.ahead.forwarding i hID e he hne
      refine ⟨?_, fun x hx => hlt x (mem_chan_pop hchan hx)⟩
      by_cases hed : e = d
      · subst hed
        have hireg : i ∈ reg.idList := ((hshape.nt i).current (List.ne_nil_of_mem he)).1
        refine hl.receive hshape hproc hireg ?_
        intro hmi
        cases snd with
        | up =>
            have hown := hshape.fromUp_own hmem (hmi ▸ hireg)
            exact absurd (hown.symm.trans hmi) hne
        | nt k =>
            obtain rfl : k = i := (hshape.fromNt k e m hmem).2.1.symm.trans hmi
            exact hlt m hmem
      · exact hother hed hl

theorem queueWith_distinct
    (h : (s.nt d).queues.queued.Pairwise (fun a b => a.ntID ∈ reg.idList →
      a.ntID = b.ntID → a.time ≠ b.time))
    (hlater : m.op.isSome → m.ID ∈ reg.idList →
      ∀ x ∈ (s.nt d).queues.queued, x.ntID = m.ID → x.time < m.time) :
    (queueWith s d m).Pairwise (fun a b => a.ntID ∈ reg.idList →
      a.ntID = b.ntID → a.time ≠ b.time) := by
  unfold queueWith
  cases hop : m.op with
  | none => exact h
  | some body =>
      refine pairwise_sortedInsert (s.nt d).queues.sorted h ?_ ?_
      · intro y hy _ hreg hID
        rw [show y.ntID = m.ID from hID] at hreg
        exact (hlater (by rw [hop]; rfl) hreg y hy hID).ne
      · intro y _ hlt _ _
        exact hlt.ne

/-- **A batch comes out in the order of timestamps**, unless the keys of two
registered requests in it say otherwise. -/
theorem batch_sorted
    (hdistinct : (queueWith s d m).Pairwise (fun a b => a.ntID ∈ reg.idList →
      a.ntID = b.ntID → a.time ≠ b.time))
    (hbatch : BatchAgrees reg (s.nt d).queues m) :
    (insertAll MessageEntry.key ((queueWith s d m).filter
      (fun e => e.time ≤ smallestAfter s d m)) []).Pairwise
      (fun a b => a.ntID ∈ reg.idList → b.ntID ∈ reg.idList → Earlier a b) := by
  have hsorted : TimeSorted (queueWith s d m) := enqueue_sorted (s.nt d).queues.sorted
  refine pairwise_insertAll .nil .nil ?_ (fun a ha => by cases ha)
  refine ((hsorted.and hdistinct).sublist List.filter_sublist).imp_of_mem ?_
  rintro a b ha hb ⟨hle, hne⟩
  obtain ⟨ha, -⟩ := List.mem_filter.mp ha
  obtain ⟨hb, hbs⟩ := List.mem_filter.mp hb
  have hkeys : a.ntID ∈ reg.idList → b.ntID ∈ reg.idList → a.time < b.time → a.key ≤ b.key :=
    fun hra hrb hlt => hbatch a ha b hb hra hrb hlt (of_decide_eq_true hbs)
  constructor
  · intro hk hra hrb
    rcases lt_or_eq_of_le hle with hlt | heq
    · exact .inl hlt
    · have hID : a.ntID ≠ b.ntID := fun hID => hne hra hID heq
      simp only [MessageEntry.key] at hk
      exact .inr ⟨heq, by omega⟩
  · intro hk hrb hra
    rcases lt_or_eq_of_le hle with hlt | heq
    · exact absurd (hkeys hra hrb hlt) (not_le.mpr hk)
    · simp only [MessageEntry.key] at hk
      exact .inr ⟨heq.symm, by omega⟩

theorem SortedAt.receive (h : Ordered reg tr s) (hshape : Shape reg s) (hd : d ∈ reg.idList)
    (hproc : (s.nt d).queues.processable = []) (hchan : s.chan (snd, d) = m :: ms)
    (hfresh : FreshRequest tr d m) (hbatch : BatchAgrees reg (s.nt d).queues m) :
    SortedAt reg (tr ++ [Event.received d snd m]) (s.receive d snd m ms) d := by
  have hlater : m.op.isSome → m.ID ∈ reg.idList → LaterThan reg tr s m.ID d m.time :=
    h.received_later hshape hd hchan hfresh
  have hdistinct : (queueWith s d m).Pairwise (fun a b => a.ntID ∈ reg.idList →
      a.ntID = b.ntID → a.time ≠ b.time) :=
    queueWith_distinct (h.sortedAt d).distinct fun hop hreg => (hlater hop hreg).queued
  have hbelow : ∀ y ∈ doneBy d tr s, y.ntID ∈ reg.idList → ∀ x ∈ queueWith s d m,
      x.ntID ∈ reg.idList → y.time < x.time := by
    intro y hy hyreg x hx hxreg
    rcases mem_queueWith hx with ⟨hop, h1, h2⟩ | hx
    · rw [h2]
      exact (hlater hop (h1 ▸ hxreg)).done y hy hyreg
    · exact (h.sortedAt d).below y hy hyreg x hx hxreg
  refine ⟨?_, ?_, ?_⟩
  · rw [receive_queued_eq]
    exact hdistinct.sublist List.filter_sublist
  · intro y hy hyreg x hx hxreg
    rw [receive_queued_eq] at hx
    obtain ⟨hx, hlt⟩ := List.mem_filter.mp hx
    rcases mem_doneBy_receive hproc hy with hy | ⟨_, hle⟩
    · exact hbelow y hy hyreg x hx hxreg
    · exact lt_of_le_of_lt hle (by simpa using hlt)
  · rw [doneBy_receive hproc, List.pairwise_append]
    refine ⟨(h.sortedAt d).sorted, batch_sorted hdistinct hbatch, ?_⟩
    · intro y hy x hx hyreg hxreg
      rcases mem_insertAll.mp hx with hx | hx
      · exact .inl (hbelow y hy hyreg x (List.mem_of_mem_filter hx) hxreg)
      · cases hx

theorem Ordered.receive (h : Ordered reg tr s) (hshape : Shape reg s) (hd : d ∈ reg.idList)
    (hproc : (s.nt d).queues.processable = []) (hchan : s.chan (snd, d) = m :: ms)
    (hfresh : FreshRequest tr d m) (hbatch : BatchAgrees reg (s.nt d).queues m) :
    Ordered reg (tr ++ [Event.received d snd m]) (s.receive d snd m ms) where
  known := h.known.receive hshape hproc hchan
  ahead := .receive h hshape hd hproc hchan hfresh
  sortedAt j := by
    by_cases hj : j = d
    · rw [hj]
      exact .receive h hshape hd hproc hchan hfresh hbatch
    · have hold := h.sortedAt j
      refine ⟨?_, ?_, ?_⟩
      · rw [Net.receive_nt_of_ne _ _ _ _ _ hj]
        exact hold.distinct
      · rw [doneBy_snoc rfl, doneBy, Net.receive_nt_of_ne _ _ _ _ _ hj]
        exact hold.below
      · rw [doneBy_snoc rfl, doneBy, Net.receive_nt_of_ne _ _ _ _ _ hj]
        exact hold.sorted

end Receive

/-! ## Runs -/

theorem Ordered.initial (clock : ℕ) : Ordered reg [] (.initial reg clock) where
  known :=
    { chan := fun i d _ x hx => by cases hx
      stamp := by
        intro d st hst
        obtain ⟨i, _, rfl⟩ := List.mem_map.mp hst
        exact .inl rfl
      queued := fun d x hx => by cases hx
      done := fun d y hy => by cases hy }
  ahead :=
    { inFlight := fun i d m hm => by cases hm
      chan := fun i d => .nil
      forwarding := fun i _ d hd => by cases hd }
  sortedAt := fun d =>
    { distinct := .nil
      below := fun y hy => by cases hy
      sorted := .nil }

theorem Ordered.step {l : Label} {e : Event} (h : Ordered reg tr s) (hshape : Shape reg s)
    (hok : InOrder reg tr s l) (hs : Network.step reg s l = some (s', e)) :
    Ordered reg (tr ++ [e]) s' := by
  cases Step.of_step hs with
  | tick d =>
      exact h.frame (fun _ _ => .refl _) (fun _ => doneBy_snoc rfl) (fun _ => ⟨rfl, rfl⟩)
        (fun _ => rfl) (fun _ => List.Subset.refl _) (fun _ => stampsOf_subset ..)
  | answer _ _ _ =>
      exact h.frame (fun _ _ => .refl _) (fun _ => doneBy_snoc rfl) (fun _ => ⟨rfl, rfl⟩)
        (fun _ => rfl) (fun _ => List.Subset.refl _) (fun _ => stampsOf_subset ..)
  | @issue nt op _ _ _ =>
      refine h.frame (fun i d => ?_) (fun _ => doneBy_snoc rfl) (fun _ => ⟨rfl, rfl⟩)
        (fun _ => rfl) (fun _ => List.Subset.refl _) (fun _ => stampsOf_subset ..)
      exact Net.issue_chan_nt s i nt op d ▸ .refl _
  | @steal nt snd m ms _ _ hchan =>
      refine h.frame (fun i d => ?_) (fun _ => doneBy_snoc rfl) (fun _ => ⟨rfl, rfl⟩)
        (fun _ => rfl) (fun _ => List.Subset.refl _) (fun _ => stampsOf_subset ..)
      exact (chan_pop_suffix hchan _).sublist
  | @skip nt ds _ _ hsending =>
      refine h.frame (fun _ _ => .refl _) (fun d => ?_) (fun _ => by simp) (fun _ => by simp)
        (fun i => ?_) (fun _ => stampsOf_subset ..)
      · rw [doneBy_snoc rfl]
        simp [doneBy]
      · by_cases hi : i = nt.self
        · rw [hi, Net.setSending_nt_self, hsending]
          exact List.subset_cons_self ..
        · rw [Net.setSending_nt_of_ne _ _ _ hi]
          exact List.Subset.refl _
  | send _ hto hsending => exact h.send hshape hsending hto
  | receive hreg _ hproc hchan =>
      obtain ⟨hfresh, hbatch⟩ := hok _ (by rw [hchan]; rfl)
      exact h.receive hshape hreg hproc hchan hfresh hbatch
  | @dispatch nt e es t ps _ _ hproc _ =>
      refine h.frame (fun _ _ => .refl _) (fun d => ?_) (fun _ => by simp) (fun _ => by simp)
        (fun _ => by simp) (fun _ => stampsOf_subset ..)
      by_cases hd : d = nt.self
      · subst hd
        rw [doneBy, doneBy, dispatchedBy_snoc, Net.post_nt, Net.dispatched_nt_self]
        simp [Event.dispatchedEntry, Queues.dropProcessable, hproc]
      · rw [doneBy_snoc (by simp [Event.dispatchedEntry, Ne.symm hd]), doneBy, doneBy, Net.post_nt,
          Net.dispatched_nt_of_ne _ _ _ hd]

theorem Ordered.of_run {clock : ℕ}
    (h : Run (Network.step reg) (InOrder reg) (.initial reg clock) tr s) : Ordered reg tr s :=
  h.invariant_with (J := fun _ s => Shape reg s) (I := fun tr s => Ordered reg tr s)
    Shape.of_run (.initial clock) fun hshape h hok hs => h.step hshape hok hs

/-- No two registered threads dispatch two requests in opposite orders. -/
def OrdersAgree (reg : Registry) (tr : List Event) : Prop :=
  ∀ i ∈ reg.idList, ∀ j ∈ reg.idList, i ≠ j → ∀ r₁ r₂, r₁ ≠ r₂ →
    [r₁, r₂].Sublist (dispatchedBy i tr) → ¬ [r₂, r₁].Sublist (dispatchedBy j tr)

/-- **Total order.** In a run whose receives are in order, any two network threads
dispatch in compatible orders. -/
theorem dispatch_orders_agree {clock : ℕ}
    (h : Run (Network.step reg) (InOrder reg) (.initial reg clock) tr s) : OrdersAgree reg tr := by
  intro i _ j _ hij r₁ r₂ _ h₁ h₂
  have hsorted := (Ordered.of_run h).sortedAt
  -- what both threads dispatch is not a broadcast, which only one of them sees
  have hreg : ∀ r ∈ [r₁, r₂], r.ntID ∈ reg.idList := by
    intro r hr
    have hi := dispatchedBy_ids h i r (h₁.subset hr)
    have hj := dispatchedBy_ids h j r (h₂.subset (by simpa [or_comm] using hr))
    rcases hi with hi | hi
    · exact hi
    · exact hj.resolve_right (by omega)
  have hr₁ := hreg r₁ (by simp)
  have hr₂ := hreg r₂ (by simp)
  have e₁ : Earlier r₁ r₂ := by
    have := (hsorted i).sorted.sublist (h₁.trans (List.sublist_append_left ..))
    exact (List.pairwise_pair.mp this) hr₁ hr₂
  have e₂ : Earlier r₂ r₁ := by
    have := (hsorted j).sorted.sublist (h₂.trans (List.sublist_append_left ..))
    exact (List.pairwise_pair.mp this) hr₂ hr₁
  unfold Earlier at e₁ e₂
  omega

end Invariant

/-! ## Three machines -/

/-- Thread 201 stamps a request at 5, thread 101 one at 10. Thread 101 hears the
timestamps 11 of 201 and 12 of 301 before it can dispatch anything, and then
dispatches both requests in one batch, the later one first: its key is 201, the
other's 251. Thread 201 hears 301 before its own answer and dispatches the
earlier request alone. -/
def oppositeOrders : List Label :=
  [.tick 5, .issue nt201 (.createLock ['A']), .tick 5, .issue nt101 (.createLock ['B']),
    .receive nt201 .up, .send nt201, .send nt201, .send nt201,
    .receive nt101 .up, .send nt101, .send nt101, .send nt101,
    .receive nt101 (.nt 201), .send nt101, .send nt101, .send nt101,
    .receive nt201 (.nt 101), .tick 1, .send nt201, .send nt201, .send nt201,
    .receive nt301 (.nt 201), .tick 1, .send nt301, .send nt301, .send nt301,
    .receive nt101 (.nt 201), .receive nt101 (.nt 301), .dispatch nt101, .dispatch nt101,
    .receive nt201 (.nt 301), .dispatch nt201, .receive nt201 (.nt 201), .dispatch nt201]

theorem dispatch_orders_differ :
    ¬ ∀ reg clock tr s, Run (step reg) anyStep (.initial reg clock) tr s → OrdersAgree reg tr := by
  intro h
  have hexec : (exec (step threeMachines) anyStep [] (.initial threeMachines 0)
      oppositeOrders).map (fun p => (dispatchedBy 101 p.1, dispatchedBy 201 p.1)) =
      some ([⟨101, 10, .createLock ['B']⟩, ⟨201, 5, .createLock ['A']⟩],
        [⟨201, 5, .createLock ['A']⟩, ⟨101, 10, .createLock ['B']⟩]) := by
    decide +kernel
  obtain ⟨⟨tr, s⟩, hp, heq⟩ := Option.map_eq_some_iff.mp hexec
  obtain ⟨h101, h201⟩ := Prod.mk.inj heq
  have hagree := h _ _ _ _ (Run.of_exec .start hp) 101 (by decide) 201 (by decide) (by decide)
    ⟨101, 10, .createLock ['B']⟩ ⟨201, 5, .createLock ['A']⟩ (by decide)
  rw [h101, h201] at hagree
  exact hagree (.refl _) (.refl _)

/-- Thread 101 stamps at 5 and thread 201 at 40; all threads answer in between
and afterwards. -/
def agreeingOrders : List Label :=
  [.tick 5, .issue nt101 (.createLock ['A']),
    .receive nt101 .up, .send nt101, .send nt101, .send nt101,
    .receive nt201 (.nt 101), .tick 1, .send nt201, .send nt201, .send nt201,
    .receive nt301 (.nt 101), .send nt301, .send nt301, .send nt301,
    .receive nt101 (.nt 201), .receive nt101 (.nt 301), .dispatch nt101,
    .receive nt201 (.nt 201), .receive nt201 (.nt 301), .dispatch nt201,
    .tick 34, .issue nt201 (.createLock ['B']),
    .receive nt201 .up, .send nt201, .send nt201, .send nt201,
    .receive nt101 (.nt 201), .tick 1, .send nt101, .send nt101, .send nt101,
    .receive nt301 (.nt 201), .receive nt301 (.nt 201), .send nt301, .send nt301, .send nt301,
    .receive nt201 (.nt 101), .receive nt201 (.nt 301), .dispatch nt201,
    .receive nt101 (.nt 101), .receive nt101 (.nt 301), .dispatch nt101]

/-- Both threads dispatch the earlier request first. -/
theorem dispatch_orders_agree_run :
    ∃ tr s, Run (step threeMachines) (InOrder threeMachines) (.initial threeMachines 0) tr s ∧
      dispatchedBy 101 tr = [⟨101, 5, .createLock ['A']⟩, ⟨201, 40, .createLock ['B']⟩] ∧
      dispatchedBy 201 tr = [⟨101, 5, .createLock ['A']⟩, ⟨201, 40, .createLock ['B']⟩] ∧
      OrdersAgree threeMachines tr := by
  have hexec : (exec (step threeMachines) (InOrder threeMachines) [] (.initial threeMachines 0)
      agreeingOrders).map (fun p => (dispatchedBy 101 p.1, dispatchedBy 201 p.1)) =
      some ([⟨101, 5, .createLock ['A']⟩, ⟨201, 40, .createLock ['B']⟩],
        [⟨101, 5, .createLock ['A']⟩, ⟨201, 40, .createLock ['B']⟩]) := by
    decide +kernel
  obtain ⟨⟨tr, s⟩, hp, heq⟩ := Option.map_eq_some_iff.mp hexec
  obtain ⟨h101, h201⟩ := Prod.mk.inj heq
  have hrun := Run.of_exec .start hp
  exact ⟨tr, s, hrun, h101, h201, dispatch_orders_agree hrun⟩

end Nachos.Network
