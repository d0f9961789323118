import Nachos.Network.System

/-!
# What the mail between network threads looks like

The observations a trace allows (which messages were issued, sent, received and
dispatched, and by whom) and the facts about messages, queues and forwarding
loops that hold in every state the system can reach, whatever the interleaving.
-/

namespace Nachos.Network

open Nachos.Lib

/-! ## Observations -/

def Event.issuedMsg (i : ℤ) : Event → Option Msg
  | .issued j m => if j = i then some m else none
  | _ => none

def Event.receivedMsg (snd : Sender) (i : ℤ) : Event → Option Msg
  | .received j p m => if j = i ∧ p = snd then some m else none
  | _ => none

def Event.enqueued (i : ℤ) : Event → Option (MessageEntry Op)
  | .received j _ m => if j = i then m.entry else none
  | _ => none

def Event.sentMsg (i d : ℤ) : Event → Option Msg
  | .sent j e m => if j = i ∧ e = d then some m else none
  | _ => none

def Event.dispatchedEntry (i : ℤ) : Event → Option (MessageEntry Op)
  | .dispatched j e _ => if j = i then some e else none
  | _ => none

/-- The requests of the user program of `i`, in the order of its syscalls. -/
def issuedBy (i : ℤ) (tr : List Event) : List Msg := tr.filterMap (Event.issuedMsg i)

/-- The messages of `snd` that `i` received. -/
def receivedFrom (snd : Sender) (i : ℤ) (tr : List Event) : List Msg :=
  tr.filterMap (Event.receivedMsg snd i)

/-- The requests that `i` put into `QueuedMessages`. -/
def enqueuedBy (i : ℤ) (tr : List Event) : List (MessageEntry Op) :=
  tr.filterMap (Event.enqueued i)

/-- The messages `i` sent to `d`. -/
def sentTo (i d : ℤ) (tr : List Event) : List Msg := tr.filterMap (Event.sentMsg i d)

/-- The requests `i` took out of `ProcessableMSG`, in order. -/
def dispatchedBy (i : ℤ) (tr : List Event) : List (MessageEntry Op) :=
  tr.filterMap (Event.dispatchedEntry i)

section Snoc

variable (i d : ℤ) (snd : Sender) (tr : List Event) (e : Event)

theorem issuedBy_snoc : issuedBy i (tr ++ [e]) = issuedBy i tr ++ (e.issuedMsg i).toList :=
  filterMap_snoc ..

theorem receivedFrom_snoc :
    receivedFrom snd i (tr ++ [e]) = receivedFrom snd i tr ++ (e.receivedMsg snd i).toList :=
  filterMap_snoc ..

theorem enqueuedBy_snoc :
    enqueuedBy i (tr ++ [e]) = enqueuedBy i tr ++ (e.enqueued i).toList :=
  filterMap_snoc ..

theorem sentTo_snoc : sentTo i d (tr ++ [e]) = sentTo i d tr ++ (e.sentMsg i d).toList :=
  filterMap_snoc ..

theorem dispatchedBy_snoc :
    dispatchedBy i (tr ++ [e]) = dispatchedBy i tr ++ (e.dispatchedEntry i).toList :=
  filterMap_snoc ..

end Snoc

/-! ## The shape of reachable states -/

/-- What holds of network thread `j` in every reachable state. -/
structure NtShape (reg : Registry) (j : ℤ) (n : NtState) : Prop where
  /-- The timestamp table always lists the registered threads. -/
  stampIds : n.queues.stamps.map TimeStamp.ntID = reg.idList
  sending : n.sending <:+ reg.idList
  current : n.sending ≠ [] → j ∈ reg.idList ∧ n.current.op.isSome ∧ 0 ≤ n.current.time
  entries : ∀ e ∈ n.queues.processable ++ n.queues.queued,
    0 ≤ e.time ∧ (e.ntID ∈ reg.idList ∨ e.ntID = j - 1)

/-- What holds of the mail and of the loops in every reachable state. -/
structure Shape (reg : Registry) (s : Net) : Prop where
  nt : ∀ j, NtShape reg j (s.nt j)
  /-- A network thread writes under its own id, and no request to itself. -/
  fromNt : ∀ i d, ∀ m ∈ s.chan (.nt i, d),
    i ∈ reg.idList ∧ m.ID = i ∧ 0 ≤ m.time ∧ (m.op.isSome → d ≠ i)
  /-- A user program writes requests, under the id of its network thread or,
  for a broadcast, under the id before it. -/
  fromUp : ∀ j, ∀ m ∈ s.chan (.up, j),
    j ∈ reg.idList ∧ (m.ID = j ∨ m.ID = j - 1) ∧ 0 ≤ m.time ∧ m.op.isSome

section Shape

variable {reg : Registry} {s : Net}

theorem mem_chan_push {p q : Sender × ℤ} {x m : Msg} (h : m ∈ (s.push p x).chan q) :
    m ∈ s.chan q ∨ (q = p ∧ m = x) := by
  rw [Net.push_chan_apply] at h
  split at h
  · rename_i hq
    rcases List.mem_append.mp h with h | h
    · exact .inl h
    · exact .inr ⟨hq, by simpa using h⟩
  · exact .inl h

/-- Taking the first message leaves the rest of every mailbox. -/
theorem chan_pop_suffix {p : Sender × ℤ} {x : Msg} {xs : List Msg} (hp : s.chan p = x :: xs)
    (q : Sender × ℤ) : Function.update s.chan p xs q <:+ s.chan q := by
  rw [Function.update_apply]
  split
  · rename_i hq
    rw [hq, hp]
    exact List.suffix_cons ..
  · exact List.suffix_rfl

theorem mem_chan_pop {p q : Sender × ℤ} {x m : Msg} {xs : List Msg} (hp : s.chan p = x :: xs)
    (h : m ∈ Function.update s.chan p xs q) : m ∈ s.chan q :=
  (chan_pop_suffix hp q).subset h

/-- A request of the user program under a registered id is under that of its own
network thread. -/
theorem Shape.fromUp_own (h : Shape reg s) {d : ℤ} {m : Msg} (hm : m ∈ s.chan (.up, d))
    (hreg : m.ID ∈ reg.idList) : m.ID = d := by
  obtain ⟨hd, hcase, -⟩ := h.fromUp d m hm
  have h1 := Registry.odd_of_mem hreg
  have h2 := Registry.odd_of_mem hd
  omega

/-- A property of every thread survives the update of one of them. -/
theorem forall_nt {P : ℤ → NtState → Prop} {i : ℤ} {n : NtState}
    (h : ∀ j, P j (s.nt j)) (hi : P i n) (j : ℤ) : P j (Function.update s.nt i n j) :=
  (Function.forall_update_iff s.nt P).mpr ⟨hi, fun j _ => h j⟩ j

theorem Shape.initial (clock : ℕ) : Shape reg (.initial reg clock) where
  nt j :=
    { stampIds := by
        simp only [Net.initial, List.map_map]
        exact List.map_id _
      sending := List.nil_suffix
      current := fun h => absurd rfl h
      entries := fun e he => by cases he }
  fromNt i d m hm := by cases hm
  fromUp j m hm := by cases hm

/-- The message a network thread receives, whoever sent it. -/
theorem Shape.of_head (h : Shape reg s) {i : ℤ} {snd : Sender} {m : Msg} {ms : List Msg}
    (hchan : s.chan (snd, i) = m :: ms) :
    0 ≤ m.time ∧ (m.ID ∈ reg.idList ∨ m.ID = i - 1) := by
  have hm : m ∈ s.chan (snd, i) := by
    rw [hchan]
    exact List.mem_cons_self
  cases snd with
  | up =>
      obtain ⟨hj, hID, ht, -⟩ := h.fromUp i m hm
      refine ⟨ht, ?_⟩
      rcases hID with hID | hID
      · exact .inl (hID ▸ hj)
      · exact .inr hID
  | nt k =>
      obtain ⟨hk, hID, ht, -⟩ := h.fromNt k i m hm
      exact ⟨ht, .inl (hID ▸ hk)⟩

/-- A forwarding loop serves nobody twice. -/
theorem Shape.sending_notMem (h : Shape reg s) {i d : ℤ} {ds : List ℤ}
    (hs : (s.nt i).sending = d :: ds) : d ∉ ds := by
  have hnodup := (h.nt i).sending.sublist.nodup reg.nodup_idList
  rw [hs] at hnodup
  exact (List.nodup_cons.mp hnodup).1

/-- What a forwarding loop sends is under its own id, and no request to itself. -/
theorem Shape.outgoing (h : Shape reg s) {i d : ℤ} {ds : List ℤ}
    (hs : (s.nt i).sending = d :: ds) (hto : ¬ ((s.nt i).current.ID = i ∧ d = i)) :
    (s.outgoing i).ID = i ∧ 0 ≤ (s.outgoing i).time ∧ ((s.outgoing i).op.isSome → d ≠ i) := by
  have hcur := (h.nt i).current (by rw [hs]; exact List.cons_ne_nil d ds)
  unfold Net.outgoing
  split
  · exact ⟨rfl, Int.natCast_nonneg _, by simp⟩
  · rename_i hown
    rw [not_not] at hown
    exact ⟨hown, hcur.2.2, fun _ hd => hto ⟨hown, hd⟩⟩

theorem NtShape.receive {j : ℤ} {n : NtState} (h : NtShape reg j n) (hj : j ∈ reg.idList) {m : Msg}
    (hm : 0 ≤ m.time ∧ (m.ID ∈ reg.idList ∨ m.ID = j - 1)) :
    NtShape reg j { n with
      queues := n.queues.receive m.ID m.time m.op
      current := m
      sending := if m.op.isSome then n.queues.stamps.map TimeStamp.ntID else [] } where
  stampIds := (map_ntID_updateStamp ..).trans h.stampIds
  sending := by
    dsimp only
    split
    · exact h.stampIds ▸ List.suffix_rfl
    · exact List.nil_suffix
  current := by
    intro hne
    refine ⟨hj, ?_, hm.1⟩
    by_contra hop
    exact hne (if_neg hop)
  entries := by
    intro e he
    rcases List.mem_append.mp ((Queues.receive_perm ..).mem_iff.mp he) with he | he
    · obtain ⟨b, _, rfl⟩ := Option.map_eq_some_iff.mp (Option.mem_toList.mp he)
      exact hm
    · exact h.entries e he

theorem NtShape.setSending {j d : ℤ} {ds : List ℤ} {n : NtState} (h : NtShape reg j n)
    (hs : n.sending = d :: ds) : NtShape reg j { n with sending := ds } where
  stampIds := h.stampIds
  sending := (List.suffix_cons d ds).trans (hs ▸ h.sending)
  current _ := h.current (by rw [hs]; exact List.cons_ne_nil d ds)
  entries := h.entries

theorem NtShape.dispatched {j : ℤ} {n : NtState} (h : NtShape reg j n) (t : NtTables) :
    NtShape reg j { n with queues := n.queues.dropProcessable, tables := t } where
  stampIds := h.stampIds
  sending := h.sending
  current := h.current
  entries := by
    intro e he
    refine h.entries e ?_
    rcases List.mem_append.mp he with he | he
    · exact List.mem_append_left _ (List.mem_of_mem_tail he)
    · exact List.mem_append_right _ he

theorem Shape.step {s' : Net} {l : Label} {e : Event} (h : Shape reg s)
    (hs : Network.step reg s l = some (s', e)) : Shape reg s' := by
  cases Step.of_step hs with
  | tick d => exact ⟨h.nt, h.fromNt, h.fromUp⟩
  | answer _ _ _ => exact ⟨h.nt, h.fromNt, h.fromUp⟩
  | @issue nt op hreg hup hop =>
      refine ⟨h.nt, ?_, ?_⟩
      · intro i d m hm
        rw [Net.issue_chan] at hm
        rcases mem_chan_push hm with hm | ⟨hq, _⟩
        · exact h.fromNt i d m hm
        · cases hq
      · intro j m hm
        rw [Net.issue_chan] at hm
        rcases mem_chan_push hm with hm | ⟨hq, rfl⟩
        · exact h.fromUp j m hm
        · obtain rfl : j = nt.self := by simpa using hq
          refine ⟨hreg, ?_, Int.natCast_nonneg _, rfl⟩
          rw [myID_eq]
          split
          · exact .inr rfl
          · exact .inl rfl
  | steal _ _ hchan =>
      exact ⟨h.nt, fun i d m hm => h.fromNt i d m (mem_chan_pop hchan hm),
        fun j m hm => h.fromUp j m (mem_chan_pop hchan hm)⟩
  | receive hreg _ _ hchan =>
      exact ⟨forall_nt h.nt ((h.nt _).receive hreg (h.of_head hchan)),
        fun i d m hm => h.fromNt i d m (mem_chan_pop hchan hm),
        fun j m hm => h.fromUp j m (mem_chan_pop hchan hm)⟩
  | skip _ _ hsending =>
      exact ⟨forall_nt h.nt ((h.nt _).setSending hsending), h.fromNt, h.fromUp⟩
  | send hreg hto hsending =>
      refine ⟨forall_nt h.nt ((h.nt _).setSending hsending), ?_, ?_⟩
      · intro i d m hm
        rcases mem_chan_push hm with hm | ⟨hq, rfl⟩
        · exact h.fromNt i d m hm
        · obtain ⟨rfl, rfl⟩ : i = _ ∧ d = _ := by simpa using hq
          exact ⟨hreg, h.outgoing hsending hto⟩
      · intro j m hm
        rcases mem_chan_push hm with hm | ⟨hq, _⟩
        · exact h.fromUp j m hm
        · cases hq
  | dispatch _ _ _ _ => exact ⟨forall_nt h.nt ((h.nt _).dispatched _), h.fromNt, h.fromUp⟩

/-- **Every reachable state has this shape**, under any condition on the steps. -/
theorem Shape.of_run {ok : List Event → Net → Label → Prop} {clock : ℕ} {tr : List Event}
    (h : Run (Network.step reg) ok (.initial reg clock) tr s) : Shape reg s :=
  h.invariant (I := fun _ s => Shape reg s) (.initial clock) fun h _ hs => h.step hs

theorem Shape.stamps_nodup (h : Shape reg s) (j : ℤ) :
    ((s.nt j).queues.stamps.map TimeStamp.ntID).Nodup := by
  rw [(h.nt j).stampIds]
  exact reg.nodup_idList

/-- An entry of the table after a message: the sender's, if it is registered, or
one that was there before. -/
theorem Shape.stamp_cases (h : Shape reg s) {j ID timeStamp : ℤ} {st : TimeStamp}
    (hst : st ∈ updateStamp ID timeStamp (s.nt j).queues.stamps) :
    (ID ∈ reg.idList ∧ st.ntID = ID ∧ st.time = timeStamp) ∨ st ∈ (s.nt j).queues.stamps := by
  have hreg : st.ntID ∈ reg.idList := by
    rw [← (h.nt j).stampIds, ← map_ntID_updateStamp ID timeStamp]
    exact List.mem_map_of_mem hst
  rcases mem_updateStamp (h.stamps_nodup j) hst with ⟨h1, h2⟩ | ⟨_, h2⟩
  · exact .inl ⟨h1 ▸ hreg, h1, h2⟩
  · exact .inr h2

theorem Shape.mem_receive_stamps (h : Shape reg s) {j d : ℤ} {snd : Sender} {m : Msg}
    {ms : List Msg} {st : TimeStamp} (hst : st ∈ ((s.receive d snd m ms).nt j).queues.stamps) :
    (j = d ∧ m.ID ∈ reg.idList ∧ st.ntID = m.ID ∧ st.time = m.time) ∨
      st ∈ (s.nt j).queues.stamps := by
  by_cases hj : j = d
  · subst hj
    rw [Net.receive_nt_self] at hst
    exact (h.stamp_cases hst).imp_left fun hnew => ⟨rfl, hnew⟩
  · rw [Net.receive_nt_of_ne _ _ _ _ _ hj] at hst
    exact .inr hst

end Shape

/-! ## Requests between receive and dispatch -/

/-- **No request is lost or duplicated inside a network thread**: what it has
enqueued is what it has dispatched and what it still holds. -/
theorem enqueuedBy_perm {reg : Registry} {ok : List Event → Net → Label → Prop} {clock : ℕ}
    {tr : List Event} {s : Net} (h : Run (step reg) ok (.initial reg clock) tr s) (j : ℤ) :
    (dispatchedBy j tr ++ ((s.nt j).queues.processable ++ (s.nt j).queues.queued)).Perm
      (enqueuedBy j tr) := by
  refine h.invariant (I := fun tr s => (dispatchedBy j tr ++
    ((s.nt j).queues.processable ++ (s.nt j).queues.queued)).Perm (enqueuedBy j tr))
    (.refl _) ?_
  intro tr s l s' e ih _ hs
  rw [dispatchedBy_snoc, enqueuedBy_snoc]
  cases Step.of_step hs with
  | tick d => simpa [Event.dispatchedEntry, Event.enqueued] using ih
  | issue _ _ _ => simpa [Event.dispatchedEntry, Event.enqueued] using ih
  | answer _ _ _ => simpa [Event.dispatchedEntry, Event.enqueued] using ih
  | steal _ _ _ => simpa [Event.dispatchedEntry, Event.enqueued] using ih
  | skip _ _ _ => simpa [Event.dispatchedEntry, Event.enqueued] using ih
  | send _ _ _ => simpa [Event.dispatchedEntry, Event.enqueued] using ih
  | @receive nt snd m ms _ _ _ _ =>
      by_cases hj : nt.self = j
      · subst hj
        rw [Net.receive_nt_self]
        simp only [Event.dispatchedEntry, Event.enqueued, Option.toList_none, List.append_nil,
          if_true]
        refine ((Queues.receive_perm ..).append_left _).trans ?_
        refine (List.perm_append_comm_assoc ..).trans ?_
        exact List.perm_append_comm.trans (ih.append_right _)
      · rw [Net.receive_nt_of_ne _ _ _ _ _ (Ne.symm hj)]
        simpa [Event.dispatchedEntry, Event.enqueued, hj] using ih
  | @dispatch nt e es t ps _ _ hproc _ =>
      by_cases hj : nt.self = j
      · subst hj
        rw [Net.post_nt, Net.dispatched_nt_self]
        simpa [Event.dispatchedEntry, Event.enqueued, Queues.dropProcessable, hproc] using ih
      · rw [Net.post_nt, Net.dispatched_nt_of_ne _ _ _ (Ne.symm hj)]
        simpa [Event.dispatchedEntry, Event.enqueued, hj] using ih

/-- A thread enqueues requests under registered ids, and the broadcasts of its
own user program. -/
theorem enqueuedBy_ids {reg : Registry} {ok : List Event → Net → Label → Prop} {clock : ℕ}
    {tr : List Event} {s : Net} (h : Run (step reg) ok (.initial reg clock) tr s) (j : ℤ) :
    ∀ e ∈ enqueuedBy j tr, e.ntID ∈ reg.idList ∨ e.ntID = j - 1 := by
  refine h.invariant_with (J := fun _ s => Shape reg s)
    (I := fun tr _ => ∀ e ∈ enqueuedBy j tr, e.ntID ∈ reg.idList ∨ e.ntID = j - 1)
    Shape.of_run (fun e he => by cases he) ?_
  intro tr s l s' e hshape ih _ hs x hx
  rw [enqueuedBy_snoc] at hx
  rcases List.mem_append.mp hx with hx | hx
  · exact ih x hx
  cases Step.of_step hs with
  | @receive nt snd m ms _ _ _ hchan =>
      simp only [Event.enqueued] at hx
      split at hx
      · rename_i hj
        obtain ⟨b, _, rfl⟩ := Option.map_eq_some_iff.mp (Option.mem_toList.mp hx)
        exact hj ▸ (hshape.of_head hchan).2
      · cases hx
  | _ => cases hx

theorem dispatchedBy_ids {reg : Registry} {ok : List Event → Net → Label → Prop} {clock : ℕ}
    {tr : List Event} {s : Net} (h : Run (step reg) ok (.initial reg clock) tr s) (j : ℤ) :
    ∀ e ∈ dispatchedBy j tr, e.ntID ∈ reg.idList ∨ e.ntID = j - 1 := fun e he =>
  enqueuedBy_ids h j e ((enqueuedBy_perm h j).mem_iff.mp (List.mem_append_left _ he))

end Nachos.Network
