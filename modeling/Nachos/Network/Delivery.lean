import Nachos.Network.Mail

/-!
# Every request reaches every replica

A request has to end up in `QueuedMessages` of every registered thread exactly
once: its own network thread takes it from the user program and forwards the
text to every other thread, and the others answer with timestamps. Whether a
thread forwards or answers is decided by the id in the message, so the argument
rests on the id each syscall writes; and a message must not be taken out of the
network thread's mailbox by somebody else.
-/

namespace Nachos.Network

open Nachos.Lib

/-- The messages that carry a request. -/
def requests (l : List Msg) : List Msg := l.filter (fun m => m.op.isSome)

/-- The messages that carry only a timestamp. -/
def timestamps (l : List Msg) : List Msg := l.filter (fun m => m.op.isNone)

/-- A request of the user program of `i`, by the id it carries. -/
def ofProgram (i : ℤ) (e : MessageEntry Op) : Bool := decide (e.ntID = i ∨ e.ntID = i - 1)

/-- All mail is delivered and all forwarding loops have ended. -/
def Quiet (reg : Registry) (s : Net) : Prop :=
  ∀ i ∈ reg.idList, s.chan (.up, i) = [] ∧ (s.nt i).sending = [] ∧
    ∀ j ∈ reg.idList, s.chan (.nt i, j) = []

instance (reg : Registry) (s : Net) : Decidable (Quiet reg s) :=
  inferInstanceAs (Decidable (∀ i ∈ reg.idList, _))

/-- A broadcast is issued only where there is nobody to forward it to, and no
request is taken out of a network thread's mailbox by a syscall. -/
def NothingMissed (reg : Registry) (_tr : List Event) (s : Net) : Label → Prop
  | .issue nt op => op.isBroadcast → reg.idList = [nt.self]
  | .steal nt snd => ∀ m ∈ (s.chan (snd, nt.self)).head?, m.op.isNone
  | _ => True

instance (reg : Registry) (tr : List Event) (s : Net) (l : Label) :
    Decidable (NothingMissed reg tr s l) :=
  match l with
  | .issue nt op => inferInstanceAs (Decidable (op.isBroadcast → reg.idList = [nt.self]))
  | .steal nt snd => inferInstanceAs (Decidable (∀ m ∈ (s.chan (snd, nt.self)).head?, _))
  | .tick _ | .answer _ | .receive _ _ | .send _ | .dispatch _ => .isTrue trivial

/-- What "exactly once" means for the requests of a run. -/
structure ExactlyOnce (reg : Registry) (tr : List Event) (s : Net) : Prop where
  /-- A thread forwards to another one only requests of its own user program,
  each at most once and in order. -/
  forwards : ∀ i ∈ reg.idList, ∀ j ∈ reg.idList, i ≠ j →
    requests (sentTo i j tr) <+: issuedBy i tr
  toSelf : ∀ i ∈ reg.idList, requests (sentTo i i tr) = []
  /-- After all deliveries every request has been forwarded to every other thread. -/
  forwarded : Quiet reg s → ∀ i ∈ reg.idList, ∀ j ∈ reg.idList, i ≠ j →
    requests (sentTo i j tr) = issuedBy i tr
  /-- Every request under another id is answered with one timestamp to every thread. -/
  answered : Quiet reg s → ∀ i ∈ reg.idList, ∀ j ∈ reg.idList,
    (timestamps (sentTo i j tr)).length =
      ((enqueuedBy i tr).filter (fun e => decide (e.ntID ≠ i))).length
  /-- Every thread has put every request into its queue exactly once. -/
  enqueued : Quiet reg s → ∀ i ∈ reg.idList, ∀ j ∈ reg.idList,
    ((dispatchedBy j tr ++ ((s.nt j).queues.processable ++ (s.nt j).queues.queued)).filter
      (ofProgram i)).Perm ((issuedBy i tr).filterMap Msg.entry)

/-! ## Mail from user programs -/

section Mail

variable {reg : Registry} {ok : List Event → Net → Label → Prop} {clock : ℕ}
  {tr : List Event} {s : Net}

theorem requests_append (l l' : List Msg) : requests (l ++ l') = requests l ++ requests l' :=
  List.filter_append ..

theorem timestamps_append (l l' : List Msg) :
    timestamps (l ++ l') = timestamps l ++ timestamps l' :=
  List.filter_append ..

/-- Whatever leaves a mailbox other than by a receive carries no request. -/
def NoRequestStolen (_tr : List Event) (s : Net) : Label → Prop
  | .steal nt snd => ∀ m ∈ (s.chan (snd, nt.self)).head?, m.op.isNone
  | _ => True

theorem NothingMissed.noRequestStolen {l : Label} (h : NothingMissed reg tr s l) :
    NoRequestStolen tr s l := by
  cases l with
  | steal nt snd => exact h
  | _ => trivial

theorem up_mail (h : Run (step reg) NoRequestStolen (.initial reg clock) tr s) (i : ℤ) :
    receivedFrom .up i tr ++ s.chan (.up, i) = issuedBy i tr := by
  refine h.invariant_with (J := fun _ s => Shape reg s)
    (I := fun tr s => receivedFrom .up i tr ++ s.chan (.up, i) = issuedBy i tr)
    Shape.of_run rfl ?_
  intro tr s l s' e hshape ih hok hs
  rw [receivedFrom_snoc, issuedBy_snoc]
  cases Step.of_step hs with
  | tick d => simpa [Event.receivedMsg, Event.issuedMsg] using ih
  | answer _ _ _ => simpa [Event.receivedMsg, Event.issuedMsg] using ih
  | skip _ _ _ => simpa [Event.receivedMsg, Event.issuedMsg] using ih
  | dispatch _ _ _ _ => simpa [Event.receivedMsg, Event.issuedMsg] using ih
  | send _ _ _ => simpa [Event.receivedMsg, Event.issuedMsg, Net.push_chan_apply] using ih
  | @issue nt op _ _ _ =>
      by_cases hi : nt.self = i
      · subst hi
        simp [Event.receivedMsg, Event.issuedMsg, Net.push_chan_apply, ← ih]
      · simpa [Event.receivedMsg, Event.issuedMsg, Net.push_chan_apply, hi, Ne.symm hi] using ih
  | @steal nt snd m ms _ _ hchan =>
      have hne : (Sender.up, i) ≠ (snd, nt.self) := by
        intro hq
        have hnone := hok m (by rw [hchan]; rfl)
        have hmem : m ∈ s.chan (.up, i) := by
          rw [hq, hchan]
          exact List.mem_cons_self
        have hsome := (hshape.fromUp i m hmem).2.2.2
        rw [Option.isNone_iff_eq_none.mp hnone] at hsome
        cases hsome
      simpa [Event.receivedMsg, Event.issuedMsg, Function.update_of_ne hne] using ih
  | @receive nt snd m ms _ _ _ hchan =>
      by_cases hq : nt.self = i ∧ snd = .up
      · obtain ⟨rfl, rfl⟩ := hq
        rw [hchan] at ih
        simpa [Event.receivedMsg, Event.issuedMsg] using ih
      · have hne : (Sender.up, i) ≠ (snd, nt.self) := by
          intro heq
          obtain ⟨rfl, rfl⟩ := Prod.mk.inj heq
          exact hq ⟨rfl, rfl⟩
        simpa [Event.receivedMsg, Event.issuedMsg, Function.update_of_ne hne, hq] using ih

/-- Requests between network threads are delivered once and in order. -/
theorem nt_mail (h : Run (step reg) NoRequestStolen (.initial reg clock) tr s) (i j : ℤ) :
    requests (receivedFrom (.nt i) j tr) ++ requests (s.chan (.nt i, j)) =
      requests (sentTo i j tr) := by
  refine h.invariant (I := fun tr s => requests (receivedFrom (.nt i) j tr) ++
    requests (s.chan (.nt i, j)) = requests (sentTo i j tr)) rfl ?_
  intro tr s l s' e ih hok hs
  rw [receivedFrom_snoc, sentTo_snoc, requests_append, requests_append]
  cases Step.of_step hs with
  | tick d => simpa [Event.receivedMsg, Event.sentMsg, requests] using ih
  | answer _ _ _ => simpa [Event.receivedMsg, Event.sentMsg, requests] using ih
  | skip _ _ _ => simpa [Event.receivedMsg, Event.sentMsg, requests] using ih
  | dispatch _ _ _ _ => simpa [Event.receivedMsg, Event.sentMsg, requests] using ih
  | issue _ _ _ =>
      simpa [Event.receivedMsg, Event.sentMsg, Net.push_chan_apply, requests] using ih
  | @send nt d ds _ _ _ =>
      by_cases hq : nt.self = i ∧ d = j
      · obtain ⟨rfl, rfl⟩ := hq
        rw [Net.push_chan_apply, if_pos rfl, Net.setSending_chan, requests_append, ← ih]
        simp [Event.receivedMsg, Event.sentMsg, requests]
      · have hne : (Sender.nt i, j) ≠ (.nt nt.self, d) := by
          intro heq
          simp only [Prod.mk.injEq, Sender.nt.injEq] at heq
          exact hq ⟨heq.1.symm, heq.2.symm⟩
        rw [Net.push_chan_apply, if_neg hne, Net.setSending_chan, ← ih]
        simp [Event.receivedMsg, Event.sentMsg, requests, hq]
  | @steal nt snd m ms _ _ hchan =>
      by_cases hq : (Sender.nt i, j) = (snd, nt.self)
      · have hnone := hok m (by rw [hchan]; rfl)
        rw [hq, hchan] at ih
        rw [Net.steal_chan, hq, Function.update_self, ← ih]
        simp [Event.receivedMsg, Event.sentMsg, requests, Option.isNone_iff_eq_none.mp hnone]
      · rw [Net.steal_chan, Function.update_of_ne hq, ← ih]
        simp [Event.receivedMsg, Event.sentMsg, requests]
  | @receive nt snd m ms _ _ _ hchan =>
      by_cases hq : nt.self = j ∧ snd = .nt i
      · obtain ⟨rfl, rfl⟩ := hq
        rw [hchan] at ih
        rw [Net.receive_chan, Function.update_self, ← ih]
        simp [Event.receivedMsg, Event.sentMsg, requests, List.filter_cons]
        split <;> simp
      · have hne : (Sender.nt i, j) ≠ (snd, nt.self) := by
          intro heq
          obtain ⟨rfl, rfl⟩ := Prod.mk.inj heq
          exact hq ⟨rfl, rfl⟩
        rw [Net.receive_chan, Function.update_of_ne hne, ← ih]
        simp [Event.receivedMsg, Event.sentMsg, requests, hq]

end Mail

/-! ## Forwarding and answering -/

section Loops

variable {reg : Registry} {clock : ℕ} {tr : List Event} {s : Net}

/-- Messages that wait for their network thread carry its id, unless it is alone. -/
theorem waiting_ids (h : Run (step reg) (NothingMissed reg) (.initial reg clock) tr s) (i : ℤ) :
    ∀ m ∈ s.chan (.up, i), m.ID = i ∨ reg.idList = [i] := by
  refine h.invariant (I := fun _ s => ∀ m ∈ s.chan (.up, i), m.ID = i ∨ reg.idList = [i])
    (fun m hm => by cases hm) ?_
  intro tr s l s' e ih hok hs
  cases Step.of_step hs with
  | tick d => exact ih
  | answer _ _ _ => exact ih
  | skip _ _ _ => exact ih
  | dispatch _ _ _ _ => exact ih
  | steal _ _ hchan => exact fun m hm => ih m (mem_chan_pop hchan hm)
  | receive _ _ _ hchan => exact fun m hm => ih m (mem_chan_pop hchan hm)
  | send _ _ _ =>
      intro m hm
      rcases mem_chan_push hm with hm | ⟨hq, _⟩
      · exact ih m hm
      · cases hq
  | @issue nt op _ _ _ =>
      intro m hm
      rw [Net.issue_chan] at hm
      rcases mem_chan_push hm with hm | ⟨hq, rfl⟩
      · exact ih m hm
      · obtain rfl : i = nt.self := by simpa using hq
        by_cases hb : op.isBroadcast
        · exact .inr (hok hb)
        · exact .inl ((myID_eq nt op).trans (if_neg hb))

/-- What the thread `i` still has to forward to `j`. -/
def NtState.toForward (n : NtState) (i j : ℤ) : List Msg :=
  if j ∈ n.sending ∧ n.current.ID = i then [n.current] else []

/-- The number of timestamps the thread `i` still has to send to `j`. -/
def NtState.toAnswer (n : NtState) (i j : ℤ) : ℕ :=
  if j ∈ n.sending ∧ n.current.ID ≠ i then 1 else 0

/-- Both depend only on where the forwarding loop is. -/
theorem NtState.toForward_congr {n n' : NtState} (hsending : n'.sending = n.sending)
    (hcurrent : n'.current = n.current) (i j : ℤ) :
    n'.toForward i j = n.toForward i j ∧ n'.toAnswer i j = n.toAnswer i j := by
  rw [NtState.toForward, NtState.toForward, NtState.toAnswer, NtState.toAnswer, hsending, hcurrent]
  exact ⟨rfl, rfl⟩

@[simp] theorem toForward_dispatched (k : ℤ) (t : NtTables) (i j : ℤ) :
    ((s.dispatched k t).nt i).toForward i j = (s.nt i).toForward i j :=
  (NtState.toForward_congr (by simp) (by simp) i j).1

@[simp] theorem toAnswer_dispatched (k : ℤ) (t : NtTables) (i j : ℤ) :
    ((s.dispatched k t).nt i).toAnswer i j = (s.nt i).toAnswer i j :=
  (NtState.toForward_congr (by simp) (by simp) i j).2

/-- **A thread forwards what it takes from its user program**, and nothing else. -/
theorem forwards_own (h : Run (step reg) (NothingMissed reg) (.initial reg clock) tr s) {i j : ℤ}
    (hi : i ∈ reg.idList) (hj : j ∈ reg.idList) (hij : i ≠ j) :
    requests (sentTo i j tr) ++ (s.nt i).toForward i j = receivedFrom .up i tr := by
  refine h.invariant_with
    (J := fun _ s => Shape reg s ∧ ∀ m ∈ s.chan (.up, i), m.ID = i ∨ reg.idList = [i])
    (I := fun tr s => requests (sentTo i j tr) ++ (s.nt i).toForward i j = receivedFrom .up i tr)
    (fun hr => ⟨.of_run hr, waiting_ids hr i⟩) rfl ?_
  rintro tr s l s' e ⟨hshape, hids⟩ ih _ hs
  rw [sentTo_snoc, receivedFrom_snoc, requests_append]
  cases Step.of_step hs with
  | tick d => simpa [Event.sentMsg, Event.receivedMsg, requests] using ih
  | issue _ _ _ => simpa [Event.sentMsg, Event.receivedMsg, requests] using ih
  | answer _ _ _ => simpa [Event.sentMsg, Event.receivedMsg, requests] using ih
  | steal _ _ _ => simpa [Event.sentMsg, Event.receivedMsg, requests] using ih
  | dispatch _ _ _ _ => simpa [Event.sentMsg, Event.receivedMsg, requests] using ih
  | @skip nt ds _ hown hsending =>
      -- the entry passed over is the thread itself, not `j`
      by_cases hnt : nt.self = i
      · subst hnt
        rw [Net.setSending_nt_self, ← ih]
        simp [Event.sentMsg, Event.receivedMsg, requests, NtState.toForward, hsending,
          Ne.symm hij]
      · rw [Net.setSending_nt_of_ne _ _ _ (Ne.symm hnt)]
        simpa [Event.sentMsg, Event.receivedMsg, requests] using ih
  | @send nt d ds _ hto hsending =>
      by_cases hnt : nt.self = i
      · subst hnt
        have hdds := hshape.sending_notMem hsending
        rw [Net.push_nt, Net.setSending_nt_self, ← ih]
        simp only [NtState.toForward, hsending]
        by_cases hown : (s.nt nt.self).current.ID = nt.self
        · have hcur := ((hshape.nt nt.self).current (by rw [hsending]; simp)).2.1
          by_cases hd : d = j
          · subst hd
            simp [Event.sentMsg, Event.receivedMsg, requests, Net.outgoing, hown, hdds, hcur]
          · simp [Event.sentMsg, Event.receivedMsg, requests, hown, hd, Ne.symm hd]
        · -- an answer carries no request
          simp [Event.sentMsg, Event.receivedMsg, requests, Net.outgoing, hown]
      · rw [Net.push_nt, Net.setSending_nt_of_ne _ _ _ (Ne.symm hnt)]
        simpa [Event.sentMsg, Event.receivedMsg, requests, hnt] using ih
  | @receive nt snd m ms _ hsending _ hchan =>
      by_cases hnt : nt.self = i
      · subst hnt
        have hmem : m ∈ s.chan (snd, nt.self) := hchan ▸ List.mem_cons_self
        rw [Net.receive_nt_self, ← ih]
        simp only [NtState.toForward, hsending]
        cases snd with
        | up =>
            -- the program's own id, since there is another thread to forward to
            have hID : m.ID = nt.self := by
              refine (hids m hmem).resolve_right ?_
              intro halone
              rw [halone, List.mem_singleton] at hj
              exact hij hj.symm
            have hop := (hshape.fromUp nt.self m hmem).2.2.2
            simp [Event.sentMsg, Event.receivedMsg, requests, hop, hID, (hshape.nt nt.self).stampIds,
              hj]
        | nt k =>
            obtain ⟨_, hID, _, hto⟩ := hshape.fromNt k nt.self m hmem
            by_cases hop : m.op.isSome = true
            · have hown : m.ID ≠ nt.self := fun hown => hto hop (hown.symm.trans hID)
              simp [Event.sentMsg, Event.receivedMsg, requests, hop, hown]
            · simp [Event.sentMsg, Event.receivedMsg, requests, hop]
      · rw [Net.receive_nt_of_ne _ _ _ _ _ (Ne.symm hnt)]
        simpa [Event.sentMsg, Event.receivedMsg, requests, hnt] using ih

/-- **A thread answers every request under another id** with one timestamp to
every registered thread. -/
theorem answers_foreign {ok : List Event → Net → Label → Prop}
    (h : Run (step reg) ok (.initial reg clock) tr s) {i j : ℤ} (hj : j ∈ reg.idList) :
    (timestamps (sentTo i j tr)).length + (s.nt i).toAnswer i j =
      ((enqueuedBy i tr).filter (fun e => decide (e.ntID ≠ i))).length := by
  refine h.invariant_with (J := fun _ s => Shape reg s)
    (I := fun tr s => (timestamps (sentTo i j tr)).length + (s.nt i).toAnswer i j =
      ((enqueuedBy i tr).filter (fun e => decide (e.ntID ≠ i))).length)
    Shape.of_run rfl ?_
  intro tr s l s' e hshape ih _ hs
  rw [sentTo_snoc, enqueuedBy_snoc, timestamps_append, List.filter_append, List.length_append,
    List.length_append, ← ih]
  cases Step.of_step hs with
  | tick d => simp [Event.sentMsg, Event.enqueued, timestamps]
  | issue _ _ _ => simp [Event.sentMsg, Event.enqueued, timestamps]
  | answer _ _ _ => simp [Event.sentMsg, Event.enqueued, timestamps]
  | steal _ _ _ => simp [Event.sentMsg, Event.enqueued, timestamps]
  | dispatch _ _ _ _ => simp [Event.sentMsg, Event.enqueued, timestamps]
  | @skip nt ds _ hown hsending =>
      by_cases hnt : nt.self = i
      · subst hnt
        rw [Net.setSending_nt_self]
        simp [Event.sentMsg, Event.enqueued, timestamps, NtState.toAnswer, hown]
      · rw [Net.setSending_nt_of_ne _ _ _ (Ne.symm hnt)]
        simp [Event.sentMsg, Event.enqueued, timestamps]
  | @send nt d ds _ hto hsending =>
      by_cases hnt : nt.self = i
      · subst hnt
        have hdds := hshape.sending_notMem hsending
        rw [Net.push_nt, Net.setSending_nt_self]
        simp only [NtState.toAnswer, hsending]
        by_cases hown : (s.nt nt.self).current.ID = nt.self
        · have hcur : (s.nt nt.self).current.op ≠ none := Option.isSome_iff_ne_none.mp
            ((hshape.nt nt.self).current (by rw [hsending]; simp)).2.1
          by_cases hd : d = j
          · simp [Event.sentMsg, Event.enqueued, timestamps, Net.outgoing, hown, hd, hcur]
          · simp [Event.sentMsg, Event.enqueued, timestamps, hown, hd]
        · by_cases hd : d = j
          · subst hd
            simp [Event.sentMsg, Event.enqueued, timestamps, Net.outgoing, hown, hdds]
          · simp [Event.sentMsg, Event.enqueued, timestamps, hown, hd, Ne.symm hd]
      · rw [Net.push_nt, Net.setSending_nt_of_ne _ _ _ (Ne.symm hnt)]
        simp [Event.sentMsg, Event.enqueued, timestamps, hnt]
  | @receive nt snd m ms _ hsending _ hchan =>
      by_cases hnt : nt.self = i
      · subst hnt
        rw [Net.receive_nt_self]
        simp only [NtState.toAnswer, hsending]
        cases hop : m.op with
        | none => simp [Event.sentMsg, Event.enqueued, timestamps, Msg.entry, hop]
        | some op =>
            by_cases hown : m.ID = nt.self <;>
              simp [Event.sentMsg, Event.enqueued, timestamps, Msg.entry, hop, hown,
                (hshape.nt nt.self).stampIds, hj]
      · rw [Net.receive_nt_of_ne _ _ _ _ _ (Ne.symm hnt)]
        simp [Event.sentMsg, Event.enqueued, timestamps, hnt]

end Loops

/-! ## Queues -/

section Queues

variable {reg : Registry} {clock : ℕ} {tr : List Event} {s : Net}

/-- Where `j` gets the requests of the user program of `i` from. -/
def source (i j : ℤ) : Sender := if i = j then .up else .nt i

theorem filterMap_entry_requests (l : List Msg) :
    (requests l).filterMap Msg.entry = l.filterMap Msg.entry := by
  induction l with
  | nil => rfl
  | cons m l ih =>
      unfold requests at ih ⊢
      cases hop : m.op with
      | none => simpa [Msg.entry, hop] using ih
      | some op => simpa [Msg.entry, hop] using ih

/-- The id of a request in the mail tells the user program it comes from. -/
theorem ofProgram_eq_source (hshape : Shape reg s) {i j : ℤ} (hi : i ∈ reg.idList)
    (hj : j ∈ reg.idList) {snd : Sender} {m : Msg} {op : Op} (hmem : m ∈ s.chan (snd, j))
    (hop : m.op = some op) : ofProgram i ⟨m.ID, m.time, op⟩ = decide (snd = source i j) := by
  -- registered ids are odd, so the id before one belongs to nobody else
  have hodd := Registry.odd_of_mem hi
  have hodd' := Registry.odd_of_mem hj
  unfold ofProgram source
  rw [decide_eq_decide]
  cases snd with
  | up =>
      have hcase := (hshape.fromUp _ m hmem).2.1
      by_cases hij : i = j
      · simp only [hij, if_true, iff_true]
        omega
      · simp only [hij, if_false, reduceCtorEq, iff_false]
        omega
  | nt k =>
      obtain ⟨hk, hID, _, hto⟩ := hshape.fromNt k _ m hmem
      have hoddk := Registry.odd_of_mem hk
      have hne : j ≠ k := hto (by rw [hop]; rfl)
      by_cases hij : i = j
      · simp only [hij, if_true, reduceCtorEq, iff_false]
        omega
      · simp only [hij, if_false, Sender.nt.injEq]
        omega

/-- **A thread queues every request it is sent once**, under the id of the user
program it comes from. -/
theorem enqueued_from {ok : List Event → Net → Label → Prop}
    (h : Run (step reg) ok (.initial reg clock) tr s) {i j : ℤ}
    (hi : i ∈ reg.idList) (hj : j ∈ reg.idList) :
    (enqueuedBy j tr).filter (ofProgram i) =
      (receivedFrom (source i j) j tr).filterMap Msg.entry := by
  refine h.invariant_with (J := fun _ s => Shape reg s)
    (I := fun tr _ => (enqueuedBy j tr).filter (ofProgram i) =
      (receivedFrom (source i j) j tr).filterMap Msg.entry)
    Shape.of_run rfl ?_
  intro tr s l s' e hshape ih _ hs
  rw [enqueuedBy_snoc, receivedFrom_snoc, List.filter_append, List.filterMap_append, ih]
  congr 1
  cases Step.of_step hs with
  | @receive nt snd m ms _ _ _ hchan =>
      by_cases hnt : nt.self = j
      · subst hnt
        have hmem : m ∈ s.chan (snd, nt.self) := hchan ▸ List.mem_cons_self
        cases hop : m.op with
        | none =>
            simp only [Event.enqueued, Event.receivedMsg, Msg.entry, hop]
            split <;> simp [Msg.entry, hop]
        | some op =>
            have hprog := ofProgram_eq_source hshape hi hj hmem hop
            by_cases hsnd : snd = source i nt.self
            · simp [Event.enqueued, Event.receivedMsg, Msg.entry, hop, hprog, hsnd]
            · simp [Event.enqueued, Event.receivedMsg, Msg.entry, hop, hprog, hsnd]
      · simp [Event.enqueued, Event.receivedMsg, hnt]
  | _ => rfl

end Queues

/-! ## Runs -/

section Runs

variable {reg : Registry} {clock : ℕ} {tr : List Event} {s : Net}

theorem requests_toSelf {ok : List Event → Net → Label → Prop}
    (h : Run (step reg) ok (.initial reg clock) tr s) (i : ℤ) : requests (sentTo i i tr) = [] := by
  refine h.invariant_with (J := fun _ s => Shape reg s)
    (I := fun tr _ => requests (sentTo i i tr) = []) Shape.of_run rfl ?_
  intro tr s l s' e hshape ih _ hs
  rw [sentTo_snoc, requests_append, ih, List.nil_append]
  cases Step.of_step hs with
  | @send nt d ds _ hto hsending =>
      by_cases hq : nt.self = i ∧ d = i
      · obtain ⟨rfl, rfl⟩ := hq
        have hnone : ¬ (s.outgoing nt.self).op.isSome := fun hop =>
          (hshape.outgoing hsending hto).2.2 hop rfl
        simp [Event.sentMsg, requests, hnone]
      · simp [Event.sentMsg, requests, hq]
  | _ => rfl

/-- **Every request reaches every replica exactly once** in runs where nothing is
missed. -/
theorem delivered_exactly_once
    (h : Run (step reg) (NothingMissed reg) (.initial reg clock) tr s) :
    ExactlyOnce reg tr s := by
  have hrun : Run (step reg) NoRequestStolen (.initial reg clock) tr s :=
    h.weaken NothingMissed.noRequestStolen
  have hforwarded : Quiet reg s → ∀ i ∈ reg.idList, ∀ j ∈ reg.idList, i ≠ j →
      requests (sentTo i j tr) = issuedBy i tr := by
    intro hq i hi j hj hij
    have hup := up_mail hrun i
    have hfwd := forwards_own h hi hj hij
    simp only [NtState.toForward, (hq i hi).2.1, List.not_mem_nil, false_and, if_false,
      List.append_nil] at hfwd
    rwa [(hq i hi).1, List.append_nil, ← hfwd] at hup
  refine ⟨?_, fun i _ => requests_toSelf h i, hforwarded, ?_, ?_⟩
  · intro i hi j hj hij
    rw [← up_mail hrun i, ← forwards_own h hi hj hij, List.append_assoc]
    exact List.prefix_append ..
  · intro hq i hi j hj
    have hans := answers_foreign h (i := i) hj
    simpa [NtState.toAnswer, (hq i hi).2.1] using hans
  · intro hq i hi j hj
    refine ((enqueuedBy_perm h j).filter (ofProgram i)).trans ?_
    rw [enqueued_from h hi hj, source]
    split
    · rename_i hij
      subst hij
      have hup := up_mail hrun i
      rw [(hq i hi).1, List.append_nil] at hup
      rw [hup]
    · rename_i hij
      have hmail := nt_mail hrun i j
      rw [(hq i hi).2.2 j hj, hforwarded hq i hi j hj hij, show requests [] = [] from rfl,
        List.append_nil] at hmail
      rw [← hmail, filterMap_entry_requests]

end Runs

/-! ## A broadcast, and a lock -/

/-- Thread 101 takes a broadcast for a request of another program and answers it. -/
def unforwardedBroadcast : List Label :=
  [.issue nt101 (.broadcast 0 0), .receive nt101 .up, .send nt101, .send nt101, .send nt101,
    .receive nt101 (.nt 101), .receive nt201 (.nt 101), .receive nt301 (.nt 101)]

theorem broadcast_not_delivered :
    ¬ ∀ reg clock tr s, Run (step reg) anyStep (.initial reg clock) tr s →
      ExactlyOnce reg tr s := by
  intro h
  have hexec : (exec (step threeMachines) anyStep [] (.initial threeMachines 0)
      unforwardedBroadcast).map (fun p => (decide (Quiet threeMachines p.2),
        requests (sentTo 101 201 p.1), issuedBy 101 p.1)) =
      some (true, [], [⟨0, 100, some (.broadcast 0 0)⟩]) := by
    decide +kernel
  obtain ⟨⟨tr, s⟩, hp, heq⟩ := Option.map_eq_some_iff.mp hexec
  obtain ⟨hquiet, hrest⟩ := Prod.mk.inj heq
  obtain ⟨hsent, hissued⟩ := Prod.mk.inj hrest
  have hfwd := (h _ _ _ _ (Run.of_exec .start hp)).forwarded (of_decide_eq_true hquiet)
    101 (by decide) 201 (by decide) (by decide)
  rw [hsent, hissued] at hfwd
  cases hfwd

/-- One `CREATE_LOCK`, forwarded, answered and dispatched everywhere. -/
def deliveredLock : List Label :=
  [.tick 5, .issue nt101 (.createLock ['A']), .receive nt101 .up,
    .send nt101, .send nt101, .send nt101,
    .receive nt201 (.nt 101), .send nt201, .send nt201, .send nt201,
    .receive nt301 (.nt 101), .send nt301, .send nt301, .send nt301,
    .receive nt101 (.nt 201), .receive nt101 (.nt 301), .dispatch nt101,
    .receive nt201 (.nt 201), .receive nt201 (.nt 301), .dispatch nt201,
    .receive nt301 (.nt 201), .receive nt301 (.nt 301), .dispatch nt301]

theorem lock_delivered :
    ∃ tr s, Run (step threeMachines) (NothingMissed threeMachines) (.initial threeMachines 0) tr s ∧
      Quiet threeMachines s ∧ issuedBy 101 tr = [⟨5, 101, some (.createLock ['A'])⟩] ∧
      ExactlyOnce threeMachines tr s := by
  have hexec : (exec (step threeMachines) (NothingMissed threeMachines) []
      (.initial threeMachines 0) deliveredLock).map (fun p =>
        (decide (Quiet threeMachines p.2), issuedBy 101 p.1)) =
      some (true, [⟨5, 101, some (.createLock ['A'])⟩]) := by
    decide +kernel
  obtain ⟨⟨tr, s⟩, hp, heq⟩ := Option.map_eq_some_iff.mp hexec
  obtain ⟨hquiet, hissued⟩ := Prod.mk.inj heq
  have hrun := Run.of_exec .start hp
  exact ⟨tr, s, hrun, of_decide_eq_true hquiet, hissued, delivered_exactly_once hrun⟩

end Nachos.Network
