import Mathlib.Algebra.Order.BigOperators.Group.List
import Mathlib.Algebra.Order.Group.Nat
import Mathlib.Algebra.Ring.Nat
import Mathlib.Data.List.Count
import Mathlib.Data.List.Nodup
import Nachos.Lib.CString
import Nachos.Lib.Run
import Nachos.Threads.Synch

/-!
# The first messages and the resend timer

Before `MultiSender` receives anything it sends three messages to each of the
other machines and appends what it sent to `sentMessagesQueue`. Every so often the
timer forks a `Resend` thread, which sends what is in the queue once more. Both
write the destination to `outPktHdrEC` and `outMailHdrEC`, which are global, and
control can pass from one thread to another inside `postOffice->Send`, after it has
copied its arguments, and where `listLock` is acquired or released.

A step of the loop, or of a `Resend` thread, is what it does from one such place to
the next.
-/

namespace Nachos.Network.InitialSends

open Nachos.Lib Nachos.Threads

/-! ## The variables -/

def TOTALNUM : ℕ := 5

/-- `PacketHeader`, with the one field that is set here. -/
structure PacketHeader where
  pktTo : ℕ
deriving DecidableEq, Repr

/-- `MailHeader`. -/
structure MailHeader where
  mailTo : ℕ
  mailFrom : ℕ
  length : ℕ
deriving DecidableEq, Repr

structure SendEntry where
  seqNum : ℕ
  msg : List Char
  machineID : ℕ
  mailboxNum : ℕ
deriving DecidableEq, Repr

/-- Where the sending loop is: at the start of an iteration, behind a `Send`, or behind
`listLock->Acquire()`. -/
inductive LoopPc where
  | make
  | acquire (newEntry : SendEntry)
  | append (newEntry : SendEntry)
deriving DecidableEq, Repr

/-- Where a `Resend` thread is: before `Acquire`, before the test, or at an element of
the queue. -/
inductive ResendPc where
  | acquire
  | test
  | walk (index : ℕ)
  | done
deriving DecidableEq, Repr

structure Sending where
  outPktHdrEC : PacketHeader
  outMailHdrEC : MailHeader
  sentMessagesQueue : List SendEntry
  sizeofList : ℕ
  listLock : Lock ℕ
  loop : LoopPc
  /-- The iterations the loop has still to make, as machine and number. -/
  todo : List (ℕ × ℕ)
  /-- The `Resend` threads in the order they were forked; the loop is thread 0. -/
  resends : List ResendPc

/-- What is handed to `postOffice->Send`. -/
structure Packet where
  pktHdr : PacketHeader
  mailHdr : MailHeader
  data : List Char
deriving DecidableEq, Repr

/-- What a step sends: nothing, the first message of an iteration, or a message again;
with the entry it is sent for. -/
inductive Event where
  | silent
  | initial (m i : ℕ) (e : SendEntry) (p : Packet)
  | resent (e : SendEntry) (p : Packet)
deriving DecidableEq, Repr

/-! ## The threads -/

/-- The iterations of the two loops. -/
def iterations (netname : ℕ) : List (ℕ × ℕ) :=
  ((List.range TOTALNUM).filter (· ≠ netname)).flatMap fun m => (List.range 3).map fun i => (m, i)

/-- `MultiSender` before its loop; `pktTo` and `length` are whatever they were. -/
def create (netname pktTo length : ℕ) : Sending where
  outPktHdrEC := ⟨pktTo⟩
  outMailHdrEC := ⟨0, 0, length⟩
  sentMessagesQueue := []
  sizeofList := 0
  listLock := .create
  loop := .make
  todo := iterations netname
  resends := []

/-- `sprintf(sentMsg, "%s,%d", "msg", i)`. -/
def sentMsg (i : ℕ) : List Char := ['m', 's', 'g', ','] ++ decimal i

/-- The loop from the start of an iteration into its `Send`. The destination is set for
the first message of a machine only. -/
def make (s : Sending) (m i : ℕ) (todo : List (ℕ × ℕ)) : Sending × Event :=
  let pktTo := if i = 0 then m else s.outPktHdrEC.pktTo
  let e : SendEntry := ⟨i, sentMsg i, pktTo, s.outMailHdrEC.mailTo⟩
  let mailHdr := { s.outMailHdrEC with length := (sentMsg i).length + 1 }
  ({ s with
    outPktHdrEC := ⟨pktTo⟩
    outMailHdrEC := mailHdr
    loop := .acquire e
    todo := todo }, .initial m i e ⟨⟨pktTo⟩, mailHdr, sentMsg i⟩)

/-- `Append` and what follows it, to the end of the iteration. -/
def append (s : Sending) (e : SendEntry) : Sending :=
  { s with
    sentMessagesQueue := s.sentMessagesQueue ++ [e]
    sizeofList := s.sizeofList + 1
    listLock := s.listLock.release 0
    loop := .make }

/-- `Resend` at an element of the queue: the headers are written and handed to `Send`. -/
def resend (s : Sending) (k index : ℕ) (e : SendEntry) : Sending × Event :=
  let mailHdr : MailHeader := ⟨e.mailboxNum, s.outMailHdrEC.mailFrom, e.msg.length + 1⟩
  ({ s with
    outPktHdrEC := ⟨e.machineID⟩
    outMailHdrEC := mailHdr
    resends := s.resends.set k (.walk (index + 1)) }, .resent e ⟨⟨e.machineID⟩, mailHdr, e.msg⟩)

/-- A step of the loop. -/
def loopStep (s : Sending) : Option (Sending × Event) :=
  match s.loop with
  | .make =>
      match s.todo with
      | (m, i) :: todo => some (make s m i todo)
      | [] => none
  | .acquire e =>
      some ({ s with listLock := s.listLock.acquire 0, loop := .append e }, .silent)
  | .append e => some (append s e, .silent)

/-- A step of the `Resend` thread `k`, which is thread `k + 1`. -/
def resendStep (s : Sending) (k : ℕ) : Option (Sending × Event) :=
  match s.resends[k]? with
  | some .acquire =>
      some ({ s with
        listLock := s.listLock.acquire (k + 1)
        resends := s.resends.set k .test }, .silent)
  | some .test => some ({ s with resends := s.resends.set k (.walk 0) }, .silent)
  | some (.walk index) =>
      match s.sentMessagesQueue[index]? with
      | some e => some (resend s k index e)
      | none =>
          some ({ s with
            listLock := s.listLock.release (k + 1)
            resends := s.resends.set k .done }, .silent)
  | some .done => none
  | none => none

inductive Label where
  | loop
  | resend (k : ℕ)
  /-- `TimerFucntion` forks a thread. -/
  | timer
deriving DecidableEq, Repr

/-- A step of a thread that is not asleep, or of the timer. -/
def step (s : Sending) : Label → Option (Sending × Event)
  | .loop => if 0 ∈ s.listLock.waitQueue then none else loopStep s
  | .resend k => if k + 1 ∈ s.listLock.waitQueue then none else resendStep s k
  | .timer => some ({ s with resends := s.resends ++ [.acquire] }, .silent)

/-! ## What is to hold -/

/-- The sending loop has ended. -/
def Sending.Ended (s : Sending) : Prop := s.loop = .make ∧ s.todo = []

/-- **The queue is complete**: one entry for each other machine and each number, and
no other entry. -/
def Complete (netname : ℕ) (s : Sending) : Prop :=
  ∀ m i, (s.sentMessagesQueue.countP fun e => e.machineID = m ∧ e.seqNum = i) =
    if m < TOTALNUM ∧ m ≠ netname ∧ i < 3 then 1 else 0

/-- The packet of an event goes to the machine of the entry it is sent for. -/
def Event.Addressed : Event → Prop
  | .silent => True
  | .initial _ _ e p => p.pktHdr.pktTo = e.machineID
  | .resent e p => p.pktHdr.pktTo = e.machineID

/-- The destination of a packet. -/
def Event.pktTo : Event → Option ℕ
  | .silent => none
  | .initial _ _ _ p => some p.pktHdr.pktTo
  | .resent _ p => some p.pktHdr.pktTo

/-- The destination of the last packet sent. -/
def lastTo (tr : List Event) : Option ℕ := (tr.filterMap Event.pktTo).getLast?

/-- Between two messages of the loop to one machine nothing is sent again to another,
unless the last of it goes to the machine. -/
def Undisturbed (tr : List Event) : Prop :=
  ∀ pre m i e p post, tr = pre ++ .initial m i e p :: post → i ≠ 0 → lastTo pre = some m

/-! ## What a step does -/

/-- The entry made in an iteration that is not over. -/
def LoopPc.pending : LoopPc → List SendEntry
  | .make => []
  | .acquire e => [e]
  | .append e => [e]

/-- The entries made so far. -/
def Sending.entries (s : Sending) : List SendEntry := s.sentMessagesQueue ++ s.loop.pending

/-- **The three kinds of steps**: nothing is sent and no header written; an iteration
starts; an entry of the queue is sent again. -/
inductive Step (s t : Sending) : Event → Prop
  | silent (entries : t.entries = s.entries) (todo : t.todo = s.todo)
      (header : t.outPktHdrEC = s.outPktHdrEC) : Step s t .silent
  | initial {m i : ℕ} {e : SendEntry} {p : Packet} (start : s.todo = (m, i) :: t.todo)
      (entries : t.entries = s.entries ++ [e]) (seqNum : e.seqNum = i)
      (machineID : e.machineID = if i = 0 then m else s.outPktHdrEC.pktTo)
      (header : t.outPktHdrEC.pktTo = e.machineID) (packet : p.pktHdr.pktTo = e.machineID) :
      Step s t (.initial m i e p)
  | resent {e : SendEntry} {p : Packet} (queued : e ∈ s.entries) (entries : t.entries = s.entries)
      (todo : t.todo = s.todo) (header : t.outPktHdrEC.pktTo = e.machineID)
      (packet : p.pktHdr.pktTo = e.machineID) : Step s t (.resent e p)

variable {netname : ℕ} {s t : Sending} {ev : Event} {tr : List Event}

theorem Step.of_loopStep (h : loopStep s = some (t, ev)) : Step s t ev := by
  unfold loopStep at h
  split at h
  · rename_i hmake
    split at h
    · rename_i m i todo htodo
      cases h
      refine .initial htodo ?_ rfl rfl rfl rfl
      simp [Sending.entries, hmake, LoopPc.pending]
    · cases h
  · rename_i e hacquire
    cases h
    refine .silent ?_ rfl rfl
    simp [Sending.entries, hacquire, LoopPc.pending]
  · rename_i e happend
    cases h
    refine .silent ?_ rfl rfl
    simp [Sending.entries, append, happend, LoopPc.pending]

theorem Step.of_resendStep {k : ℕ} (h : resendStep s k = some (t, ev)) : Step s t ev := by
  unfold resendStep at h
  split at h
  · cases h
    exact .silent rfl rfl rfl
  · cases h
    exact .silent rfl rfl rfl
  · split at h
    · rename_i e he
      cases h
      exact .resent (List.mem_append_left _ (List.mem_of_getElem? he)) rfl rfl rfl rfl
    · cases h
      exact .silent rfl rfl rfl
  · cases h
  · cases h

theorem Step.of_step {l : Label} (h : step s l = some (t, ev)) : Step s t ev := by
  cases l with
  | loop =>
      simp only [step] at h
      split at h
      · cases h
      · exact .of_loopStep h
  | resend k =>
      simp only [step] at h
      split at h
      · cases h
      · exact .of_resendStep h
  | timer =>
      cases h
      exact .silent rfl rfl rfl

/-! ## The invariant -/

/-- The iteration an event starts, with the entry made in it. -/
def Event.first : Event → Option ((ℕ × ℕ) × SendEntry)
  | .initial m i e _ => some ((m, i), e)
  | _ => none

def firsts (tr : List Event) : List ((ℕ × ℕ) × SendEntry) := tr.filterMap Event.first

theorem iterations_sorted (netname : ℕ) :
    (iterations netname).Pairwise fun a b => a.1 ≤ b.1 := by
  unfold iterations
  rw [List.pairwise_flatMap]
  constructor
  · intro m _
    rw [List.pairwise_map]
    exact List.pairwise_of_forall fun _ _ => le_rfl
  · refine List.Pairwise.imp ?_ (List.pairwise_lt_range.filter _)
    intro m m' hlt x hx y hy
    obtain ⟨i, -, rfl⟩ := List.mem_map.mp hx
    obtain ⟨i', -, rfl⟩ := List.mem_map.mp hy
    exact hlt.le

theorem iterations_head {m i : ℕ} {rest : List (ℕ × ℕ)} (h : iterations netname = (m, i) :: rest) :
    i = 0 := by
  unfold iterations at h
  cases hm : (List.range TOTALNUM).filter (· ≠ netname) with
  | nil =>
      rw [hm] at h
      cases h
  | cons m' ms =>
      rw [hm] at h
      cases h
      rfl

theorem count_iterations (netname m i : ℕ) :
    (iterations netname).count (m, i) = if m < TOTALNUM ∧ m ≠ netname ∧ i < 3 then 1 else 0 := by
  have hnodup : (iterations netname).Nodup := by
    unfold iterations
    rw [List.nodup_flatMap]
    constructor
    · intro m _
      exact List.nodup_range.map fun i i' heq => (Prod.mk.inj heq).2
    · refine List.Pairwise.imp ?_ (List.nodup_range.filter _)
      rintro m m' hne x hx hx'
      obtain ⟨i, -, rfl⟩ := List.mem_map.mp hx
      obtain ⟨i', -, heq⟩ := List.mem_map.mp hx'
      exact hne (Prod.mk.inj heq).1.symm
  have hmem : (m, i) ∈ iterations netname ↔ m < TOTALNUM ∧ m ≠ netname ∧ i < 3 := by
    simp [iterations, and_assoc]
  rw [hnodup.count]
  exact if_congr hmem rfl rfl

/-- What is known while the loop runs. -/
structure Tracked (netname : ℕ) (tr : List Event) (s : Sending) : Prop where
  progress : (firsts tr).map Prod.fst ++ s.todo = iterations netname
  entries : (firsts tr).map Prod.snd = s.entries
  /-- The shared header is that of the last packet. -/
  header : lastTo tr = if firsts tr = [] then none else some s.outPktHdrEC.pktTo
  seqNum : ∀ x ∈ firsts tr, x.2.seqNum = x.1.2
  /-- Only machines that had their turn can be the destination. -/
  earlier : ∀ x ∈ firsts tr, x.2.machineID ≤ x.1.1
  header_le : firsts tr ≠ [] → ∃ x ∈ firsts tr, s.outPktHdrEC.pktTo ≤ x.1.1
  undisturbed : Undisturbed tr ↔ ∀ x ∈ firsts tr, x.2.machineID = x.1.1

/-! ### Longer traces -/

theorem firsts_snoc (tr : List Event) (ev : Event) :
    firsts (tr ++ [ev]) = firsts tr ++ ev.first.toList := filterMap_snoc _ _ _

theorem lastTo_snoc_silent (tr : List Event) : lastTo (tr ++ [.silent]) = lastTo tr := by
  rw [lastTo, filterMap_snoc, Event.pktTo, Option.toList_none, List.append_nil, lastTo]

theorem lastTo_snoc {d : ℕ} (h : ev.pktTo = some d) : lastTo (tr ++ [ev]) = some d := by
  rw [lastTo, filterMap_snoc, h, Option.toList_some, List.getLast?_concat]

/-- An event that starts no iteration disturbs nothing by itself. -/
theorem undisturbed_snoc (h : ev.first = none) : Undisturbed (tr ++ [ev]) ↔ Undisturbed tr := by
  constructor
  · intro hu pre m i e p post heq
    refine hu pre m i e p (post ++ [ev]) ?_
    rw [heq, List.append_assoc, List.cons_append]
  · intro hu pre m i e p post heq
    rcases snoc_eq_append_cons heq with ⟨-, hev⟩ | ⟨post', heq'⟩
    · rw [← hev] at h
      cases h
    · exact hu pre m i e p post' heq'

theorem undisturbed_snoc_initial {m i : ℕ} {e : SendEntry} {p : Packet} :
    Undisturbed (tr ++ [.initial m i e p]) ↔ Undisturbed tr ∧ (i ≠ 0 → lastTo tr = some m) := by
  constructor
  · intro hu
    refine ⟨?_, fun hi => hu tr m i e p [] rfl hi⟩
    intro pre m' i' e' p' post heq
    refine hu pre m' i' e' p' (post ++ [.initial m i e p]) ?_
    rw [heq, List.append_assoc, List.cons_append]
  · rintro ⟨hu, hlast⟩ pre m' i' e' p' post heq hi
    rcases snoc_eq_append_cons heq with ⟨rfl, hev⟩ | ⟨post', heq'⟩
    · cases hev
      exact hlast hi
    · exact hu pre m' i' e' p' post' heq' hi

/-! ### One step -/

theorem Tracked.create (netname pktTo length : ℕ) :
    Tracked netname [] (create netname pktTo length) := by
  constructor
  case progress => rfl
  case entries => rfl
  case header => rfl
  case seqNum => exact fun x hx => nomatch hx
  case earlier => exact fun x hx => nomatch hx
  case header_le => exact fun hne => absurd rfl hne
  case undisturbed =>
    refine iff_of_true ?_ fun x hx => nomatch hx
    intro pre m i e p post heq
    exact absurd heq.symm (List.append_ne_nil_of_right_ne_nil _ (List.cons_ne_nil _ _))

section Steps

/-- A step that sends nothing. -/
theorem Tracked.silent (h : Tracked netname tr s) (hentries : t.entries = s.entries)
    (htodo : t.todo = s.todo) (hheader : t.outPktHdrEC = s.outPktHdrEC) :
    Tracked netname (tr ++ [.silent]) t := by
  have hfirsts : firsts (tr ++ [.silent]) = firsts tr := by
    rw [firsts_snoc]
    exact List.append_nil _
  constructor
  case progress => rw [hfirsts, htodo, h.progress]
  case entries => rw [hfirsts, hentries, h.entries]
  case header => rw [hfirsts, lastTo_snoc_silent, hheader, h.header]
  case seqNum => rw [hfirsts]; exact h.seqNum
  case earlier => rw [hfirsts]; exact h.earlier
  case header_le => rw [hfirsts, hheader]; exact h.header_le
  case undisturbed => rw [hfirsts, undisturbed_snoc rfl, h.undisturbed]

/-- An entry is sent again. -/
theorem Tracked.resent (h : Tracked netname tr s) {e : SendEntry} {p : Packet}
    (hqueued : e ∈ s.entries) (hentries : t.entries = s.entries) (htodo : t.todo = s.todo)
    (hheader : t.outPktHdrEC.pktTo = e.machineID) (hpacket : p.pktHdr.pktTo = e.machineID) :
    Tracked netname (tr ++ [.resent e p]) t := by
  have hfirsts : firsts (tr ++ [.resent e p]) = firsts tr := by
    rw [firsts_snoc]
    exact List.append_nil _
  rw [← h.entries] at hqueued
  obtain ⟨x, hx, rfl⟩ := List.mem_map.mp hqueued
  have hne : firsts tr ≠ [] := List.ne_nil_of_mem hx
  constructor
  case progress => rw [hfirsts, htodo, h.progress]
  case entries => rw [hfirsts, hentries, h.entries]
  case header =>
    rw [hfirsts, if_neg hne, hheader]
    exact lastTo_snoc (congrArg some hpacket)
  case seqNum => rw [hfirsts]; exact h.seqNum
  case earlier => rw [hfirsts]; exact h.earlier
  case header_le =>
    intro _
    rw [hfirsts, hheader]
    exact ⟨x, hx, h.earlier x hx⟩
  case undisturbed => rw [hfirsts, undisturbed_snoc rfl, h.undisturbed]

/-- Machines come in ascending order. -/
theorem Tracked.le_next (h : Tracked netname tr s) {m i : ℕ} {todo : List (ℕ × ℕ)}
    (hstart : s.todo = (m, i) :: todo) {x : (ℕ × ℕ) × SendEntry} (hx : x ∈ firsts tr) :
    x.1.1 ≤ m := by
  have hsorted := iterations_sorted netname
  rw [← h.progress, hstart] at hsorted
  exact (List.pairwise_append.mp hsorted).2.2 x.1 (List.mem_map_of_mem hx) (m, i) List.mem_cons_self

/-- An iteration starts. -/
theorem Tracked.initial (h : Tracked netname tr s) {m i : ℕ} {e : SendEntry} {p : Packet}
    (hstart : s.todo = (m, i) :: t.todo) (hentries : t.entries = s.entries ++ [e])
    (hseq : e.seqNum = i) (hmachine : e.machineID = if i = 0 then m else s.outPktHdrEC.pktTo)
    (hheader : t.outPktHdrEC.pktTo = e.machineID) (hpacket : p.pktHdr.pktTo = e.machineID) :
    Tracked netname (tr ++ [.initial m i e p]) t := by
  have hfirsts : firsts (tr ++ [.initial m i e p]) = firsts tr ++ [((m, i), e)] := by
    rw [firsts_snoc]
    rfl
  -- the first iteration of all is the first one of its machine
  have hstarted : i ≠ 0 → firsts tr ≠ [] := by
    intro hi hnil
    have heq := h.progress
    rw [hnil, hstart] at heq
    exact hi (iterations_head heq.symm)
  have hle : e.machineID ≤ m := by
    rw [hmachine]
    split
    · exact le_rfl
    · rename_i hi
      obtain ⟨x, hx, hxle⟩ := h.header_le (hstarted hi)
      exact hxle.trans (h.le_next hstart hx)
  have hall : ∀ {P : (ℕ × ℕ) × SendEntry → Prop}, (∀ x ∈ firsts tr, P x) → P ((m, i), e) →
      ∀ x ∈ firsts (tr ++ [.initial m i e p]), P x := by
    intro P hold hnew x hx
    rw [hfirsts] at hx
    rcases List.mem_append.mp hx with hx | hx
    · exact hold x hx
    · rw [List.mem_singleton.mp hx]
      exact hnew
  constructor
  case progress =>
    rw [hfirsts, List.map_append, List.append_assoc]
    show _ ++ (m, i) :: t.todo = _
    rw [← hstart, h.progress]
  case entries =>
    rw [hfirsts, List.map_append, h.entries, hentries]
    rfl
  case header =>
    rw [hfirsts, if_neg (by simp), hheader]
    exact lastTo_snoc (congrArg some hpacket)
  case seqNum => exact hall h.seqNum hseq
  case earlier => exact hall h.earlier hle
  case header_le =>
    intro _
    refine ⟨((m, i), e), ?_, ?_⟩
    · rw [hfirsts]
      exact List.mem_append_right _ (List.mem_singleton_self _)
    · rw [hheader]
      exact hle
  case undisturbed =>
    rw [undisturbed_snoc_initial, h.undisturbed, hfirsts, List.forall_mem_append,
      List.forall_mem_singleton]
    refine and_congr_right fun _ => ?_
    by_cases hi : i = 0
    · rw [if_pos hi] at hmachine
      exact iff_of_true (fun hne => absurd hi hne) hmachine
    · rw [if_neg hi] at hmachine
      rw [h.header, if_neg (hstarted hi), hmachine]
      exact ⟨fun hlast => Option.some.inj (hlast hi), fun heq _ => congrArg some heq⟩

theorem Tracked.step (h : Tracked netname tr s) {l : Label} (hs : step s l = some (t, ev)) :
    Tracked netname (tr ++ [ev]) t := by
  cases Step.of_step hs with
  | silent hentries htodo hheader => exact h.silent hentries htodo hheader
  | initial hstart hentries hseq hmachine hheader hpacket =>
      exact h.initial hstart hentries hseq hmachine hheader hpacket
  | resent hqueued hentries htodo hheader hpacket =>
      exact h.resent hqueued hentries htodo hheader hpacket

end Steps

/-! ## The queue at the end -/

/-- What is at most as large, and as much in all, is the same. -/
theorem eq_of_sum_eq {α : Type*} {f g : α → ℕ} {l : List α} (hle : ∀ x ∈ l, f x ≤ g x)
    (hsum : (l.map f).sum = (l.map g).sum) : ∀ x ∈ l, f x = g x := by
  induction l with
  | nil => exact fun x hx => nomatch hx
  | cons a l ih =>
      have hrest : ∀ x ∈ l, f x ≤ g x := fun x hx => hle x (List.mem_cons_of_mem _ hx)
      have hhead := hle a List.mem_cons_self
      have hsums : (l.map f).sum ≤ (l.map g).sum := List.sum_le_sum hrest
      rw [List.map_cons, List.map_cons, List.sum_cons, List.sum_cons] at hsum
      intro x hx
      rcases List.mem_cons.mp hx with rfl | hx
      · omega
      · exact ih hrest (by omega) x hx

/-- The machine and the number of an entry. -/
def SendEntry.key (e : SendEntry) : ℕ × ℕ := (e.machineID, e.seqNum)

theorem complete_iff_perm (netname : ℕ) (s : Sending) :
    Complete netname s ↔ (s.sentMessagesQueue.map SendEntry.key).Perm (iterations netname) := by
  rw [List.perm_iff_count]
  have hcount : ∀ m i, (s.sentMessagesQueue.map SendEntry.key).count (m, i) =
      s.sentMessagesQueue.countP fun e => e.machineID = m ∧ e.seqNum = i := by
    intro m i
    rw [List.count, List.countP_map]
    refine List.countP_congr ?_
    intro e _
    simp [SendEntry.key]
  constructor
  · rintro hc ⟨m, i⟩
    rw [hcount, hc m i, count_iterations]
  · intro hp m i
    rw [← hcount, hp (m, i), count_iterations]

/-- The queue is complete exactly when every entry is for the machine of its iteration. -/
theorem Tracked.complete_iff (h : Tracked netname tr s) (hend : s.Ended) :
    Complete netname s ↔ ∀ x ∈ firsts tr, x.2.machineID = x.1.1 := by
  obtain ⟨hloop, htodo⟩ := hend
  have hqueue : s.sentMessagesQueue = (firsts tr).map Prod.snd := by
    rw [h.entries, Sending.entries, hloop]
    exact (List.append_nil _).symm
  have hiter : (firsts tr).map Prod.fst = iterations netname := by
    rw [← h.progress, htodo, List.append_nil]
  rw [complete_iff_perm, hqueue, ← hiter, List.map_map]
  constructor
  · intro hp
    refine eq_of_sum_eq h.earlier ?_
    have hsum := (hp.map Prod.fst).sum_eq
    rwa [List.map_map, List.map_map] at hsum
  · intro hright
    have hmap : (firsts tr).map (SendEntry.key ∘ Prod.snd) = (firsts tr).map Prod.fst := by
      refine List.map_congr_left ?_
      intro x hx
      exact Prod.ext (hright x hx) (h.seqNum x hx)
    rw [hmap]

/-- Every packet goes to the machine of the entry it is sent for. -/
theorem Step.addressed (h : Step s t ev) : ev.Addressed := by
  cases h with
  | silent => trivial
  | initial _ _ _ _ _ hpacket => exact hpacket
  | resent _ _ _ _ hpacket => exact hpacket

/-- **The first messages.** In every interleaving of the loop with any number of
`Resend` threads, every packet goes to the machine of its entry; and when the loop
ends, the queue is complete exactly when no `Resend` came between two messages to one
machine with a last packet to another. -/
theorem queue_complete_iff_undisturbed {netname pktTo length : ℕ} {tr : List Event} {s : Sending}
    (h : Run step anyStep (create netname pktTo length) tr s) :
    (∀ ev ∈ tr, ev.Addressed) ∧ (s.Ended → (Complete netname s ↔ Undisturbed tr)) := by
  have htracked : Tracked netname tr s := by
    refine h.invariant (I := fun tr s => Tracked netname tr s) (.create netname pktTo length) ?_
    intro tr s l t ev hi _ hs
    exact hi.step hs
  constructor
  · refine h.invariant (I := fun tr _ => ∀ ev ∈ tr, ev.Addressed) (fun ev hev => nomatch hev) ?_
    intro tr s l t ev hi _ hs
    rw [List.forall_mem_append, List.forall_mem_singleton]
    exact ⟨hi, (Step.of_step hs).addressed⟩
  · intro hend
    rw [htracked.complete_iff hend, htracked.undisturbed]

/-- A run to the end of the loop on machine 0, with a `Resend` after `before` steps of
the loop, six of its own for three entries. -/
def resendAfter (before : ℕ) : List Label :=
  List.replicate before .loop ++ [.timer] ++ List.replicate 6 (.resend 0) ++
    List.replicate (36 - before) .loop

/-- A `Resend` behind the last message to machine 1 does no harm. -/
theorem queue_complete_iff_undisturbed_sample :
    ∃ tr s, Run step anyStep (create 0 0 0) tr s ∧ s.Ended ∧ Undisturbed tr := by
  have hp : (exec step anyStep [] (create 0 0 0) (resendAfter 9)).map (fun r =>
      (r.2.loop, r.2.todo, r.2.sentMessagesQueue.map SendEntry.key)) =
        some (.make, [], iterations 0) := by
    decide +kernel
  obtain ⟨⟨tr, s⟩, hexec, hstate⟩ := Option.map_eq_some_iff.mp hp
  simp only [Prod.mk.injEq] at hstate
  obtain ⟨hloop, htodo, hqueue⟩ := hstate
  have hrun := Run.of_exec .start hexec
  have hcomplete : Complete 0 s := (complete_iff_perm 0 s).mpr (by rw [hqueue])
  exact ⟨tr, s, hrun, ⟨hloop, htodo⟩,
    ((queue_complete_iff_undisturbed hrun).2 ⟨hloop, htodo⟩).mp hcomplete⟩

/-- A `Resend` behind the first message to machine 2 leaves 1 in the header: the queue
has a second and third message to machine 1 twice, and none of them to machine 2. -/
theorem entries_lost_by_resend :
    ∃ tr s, Run step anyStep (create 0 0 0) tr s ∧ s.Ended ∧
      s.sentMessagesQueue.map SendEntry.key = [(1, 0), (1, 1), (1, 2), (2, 0), (1, 1), (1, 2),
        (3, 0), (3, 1), (3, 2), (4, 0), (4, 1), (4, 2)] ∧ ¬ Complete 0 s := by
  have hp : (exec step anyStep [] (create 0 0 0) (resendAfter 10)).map (fun r =>
      (r.2.loop, r.2.todo, r.2.sentMessagesQueue.map SendEntry.key)) =
        some (.make, [], [(1, 0), (1, 1), (1, 2), (2, 0), (1, 1), (1, 2), (3, 0), (3, 1), (3, 2),
          (4, 0), (4, 1), (4, 2)]) := by
    decide +kernel
  obtain ⟨⟨tr, s⟩, hexec, hstate⟩ := Option.map_eq_some_iff.mp hp
  simp only [Prod.mk.injEq] at hstate
  obtain ⟨hloop, htodo, hqueue⟩ := hstate
  refine ⟨tr, s, .of_exec .start hexec, ⟨hloop, htodo⟩, hqueue, ?_⟩
  rw [complete_iff_perm, hqueue]
  decide +kernel

end Nachos.Network.InitialSends
