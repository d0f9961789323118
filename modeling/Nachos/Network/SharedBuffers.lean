import Nachos.Network.Wire

/-!
# The buffers that the request system calls share

The system calls of all user threads of a machine format their requests in one array
`data`, set the same two headers, and receive into one `buffer`. No lock protects them.
What does is that a thread keeps the processor from `requestType = …` until `Send` has
copied headers and text, and again from the end of `messages->Remove()` to the end of
the system call; control passes to another thread only in `copyin`, inside `Send`
behind the copies, and inside `Remove`.

A step is what a thread does from one such place to the next. Between two of them
anything may have happened to the variables and the mailboxes: the network threads and
`StartSimulation` use them too.
-/

namespace Nachos.Network.SharedBuffers

open Nachos.Lib

/-! ## The variables -/

/-- `PacketHeader`. -/
structure PacketHeader where
  pktTo : ℤ
  pktFrom : ℤ
  length : ℕ
deriving DecidableEq, Repr

/-- `MailHeader`. -/
structure MailHeader where
  mailTo : ℤ
  mailFrom : ℤ
  length : ℕ
deriving DecidableEq, Repr

/-- `sizeof(MailHeader)`. -/
def sizeofMailHeader : ℕ := 12

/-- The global variables. `requestType` points to a literal with one character. -/
structure Globals where
  data : Memory
  requestType : Char
  myTimeStamp : ℤ
  myID : ℤ
  outPktHdr : PacketHeader
  inPktHdr : PacketHeader
  outMailHdr : MailHeader
  inMailHdr : MailHeader
  buffer : Memory

/-- A machine and the `mailBox` of each of its threads. -/
structure Machine where
  netname : ℕ
  mailBox : ℕ → ℤ

/-- A message in a mailbox; the constructor of `Mail` asserts the bound. -/
structure Mail where
  pktHdr : PacketHeader
  mailHdr : MailHeader
  contents : List Char
  length_eq : contents.length = mailHdr.length
  length_le : mailHdr.length ≤ bufferSize
deriving DecidableEq, Repr

/-- What `PostOffice::Send` hands to the network. -/
structure Packet where
  pktHdr : PacketHeader
  mailHdr : MailHeader
  contents : List Char
deriving DecidableEq, Repr

/-- The mailboxes. Whoever sends to the mailbox of a user thread sends a string with
its terminator. -/
structure Boxes (m : Machine) where
  messages : ℤ → List Mail
  text : ∀ tid, ∀ mail ∈ messages (m.mailBox tid), nul ∈ mail.contents

/-! ## The system calls -/

/-- `myID=netname*100+currentThread->mailBox+1`, where `BroadcastCondition_Syscall` has
no `+1`. -/
def myID (m : Machine) (tid : ℕ) : Syscall → ℤ
  | .broadcastCondition _ _ => m.netname * 100 + m.mailBox tid
  | _ => m.netname * 100 + m.mailBox tid + 1

/-- The mailbox of the `Receive`. -/
def replyBox (m : Machine) (tid : ℕ) : Syscall → ℤ
  | .destroyLock _ => m.mailBox tid + 1
  | _ => m.mailBox tid

/-- `rv`: the calls that return a value read it from `buffer`, the others leave `rv`
at 0. -/
def rv (buffer : Memory) : Syscall → ℤ
  | .createLock _ | .createCondition _ | .createMonitor _ | .retrieveMonitor _ =>
      atoi (readString buffer bufferSize 0)
  | _ => 0

/-- The end of a system call: all but the monitor calls have `buffer[0] = '\0'`. -/
def clear (buffer : Memory) : Syscall → Memory
  | .createMonitor _ | .retrieveMonitor _ | .setMonitor _ _ => buffer
  | _ => Function.update buffer 0 nul

/-- From `requestType = …` to `sprintf(data, …)`. -/
def format (m : Machine) (tid : ℕ) (c : Syscall) (now : ℤ) (g : Globals) : Globals :=
  let g := { g with requestType := c.letter, myTimeStamp := now, myID := myID m tid c }
  { g with
    data := writeString g.data 0 (requestText g.requestType c.printed g.myTimeStamp g.myID) }

/-- `strlen`, which for the assertion in `Send` need not look beyond the array. -/
def strlen (b : Memory) : ℕ := (readString b bufferSize 0).length

/-- The assignments of `sendPacket`. -/
def sendPacket (m : Machine) (tid : ℕ) (g : Globals) : Globals :=
  { g with
    outPktHdr := { g.outPktHdr with pktTo := m.netname }
    outMailHdr := ⟨m.mailBox tid + 1, m.mailBox tid, strlen g.data + 1⟩ }

/-- `PostOffice::Send` up to `sendLock->Acquire()`: the assertions, which end the
program where they fail, and the copies. -/
def send (m : Machine) (g : Globals) : Option Packet :=
  if g.outMailHdr.length ≤ bufferSize ∧ 0 ≤ g.outMailHdr.mailTo ∧
      g.outMailHdr.mailTo < numBoxes then
    some {
      pktHdr := { g.outPktHdr with
        pktFrom := m.netname
        length := g.outMailHdr.length + sizeofMailHeader }
      mailHdr := g.outMailHdr
      contents := (List.range g.outMailHdr.length).map g.data }
  else none

/-- `MailBox::Get` behind `messages->Remove()`. -/
def get (mail : Mail) (g : Globals) : Globals :=
  { g with
    inPktHdr := mail.pktHdr
    inMailHdr := mail.mailHdr
    buffer := bcopy mail.contents g.buffer }

/-- `copyin` appends to the name. -/
def addName (cs : Text) : Syscall → Syscall
  | .createLock name => .createLock (name ++ cs)
  | .createCondition name => .createCondition (name ++ cs)
  | .createMonitor name => .createMonitor (name ++ cs)
  | c => c

/-! ## The machine -/

/-- Where a thread is: in its program, in `copyin` with some characters left, before
`sendLock->Acquire()` with the copies made by `Send`, before or behind
`messages->Remove()`. -/
inductive Pc where
  | user
  | copyin (c : Syscall) (left : ℕ)
  | sendLock (c : Syscall) (p : Packet)
  | remove (c : Syscall)
  | removed (c : Syscall) (mail : Mail)

structure State (m : Machine) where
  globals : Globals
  boxes : Boxes m
  threads : ℕ → Pc

/-- What a step shows: a thread calls, copies a part of its name, formats its request
at some time, sends a packet, is given a message, or returns. -/
inductive Event where
  | called (tid : ℕ) (c : Syscall)
  | copied (tid : ℕ) (cs : Text)
  | formatted (tid : ℕ) (now : ℤ)
  | sent (tid : ℕ) (p : Packet)
  | removed (tid : ℕ) (mail : Mail)
  | returned (tid : ℕ) (rv : ℤ)
  | others
deriving DecidableEq, Repr

inductive Label (m : Machine) where
  /-- A call; a name of `len` characters is still to be copied. -/
  | call (tid : ℕ) (c : Syscall) (len : ℕ)
  | copyin (tid : ℕ) (cs : Text)
  | request (tid : ℕ) (now : ℤ)
  | send (tid : ℕ)
  | remove (tid : ℕ)
  | finish (tid : ℕ)
  /-- Other threads set the variables, put messages into the mailboxes and take some. -/
  | others (g : Globals) (boxes : Boxes m)

variable {m : Machine}

def boot (g : Globals) (boxes : Boxes m) : State m := ⟨g, boxes, fun _ => .user⟩

/-- A mailbox with its first message taken out. -/
def Boxes.tail (b : Boxes m) (box : ℤ) : Boxes m where
  messages := Function.update b.messages box (b.messages box).tail
  text := by
    intro tid mail hmail
    by_cases hbox : m.mailBox tid = box
    · rw [hbox, Function.update_self] at hmail
      exact b.text tid mail (hbox ▸ List.mem_of_mem_tail hmail)
    · rw [Function.update_of_ne hbox] at hmail
      exact b.text tid mail hmail

/-- The thread `tid` goes to `pc`. -/
def State.goes (s : State m) (tid : ℕ) (pc : Pc) : State m :=
  { s with threads := Function.update s.threads tid pc }

/-- The block of a system call from the end of `copyin` into `Send`. -/
def request (s : State m) (tid : ℕ) (c : Syscall) (now : ℤ) : Option (State m × Event) :=
  let g := sendPacket m tid (format m tid c now s.globals)
  (send m g).map fun p => ({ s with globals := g }.goes tid (.sendLock c p), .formatted tid now)

/-- `Receive` from the mailbox of the call, up to the end of `Remove`. -/
def remove (s : State m) (tid : ℕ) (c : Syscall) : Option (State m × Event) :=
  let box := replyBox m tid c
  if 0 ≤ box ∧ box < numBoxes then
    match s.boxes.messages box with
    | mail :: _ =>
        some ({ s with boxes := s.boxes.tail box }.goes tid (.removed c mail), .removed tid mail)
    | [] => none
  else none

/-- The block behind `Remove`, to the end of the system call. -/
def finish (s : State m) (tid : ℕ) (c : Syscall) (mail : Mail) : State m × Event :=
  let g := get mail s.globals
  ({ s with globals := { g with buffer := clear g.buffer c } }.goes tid .user,
    .returned tid (rv g.buffer c))

def step (s : State m) : Label m → Option (State m × Event)
  | .call tid c len =>
      match s.threads tid with
      | .user =>
          if c.name?.getD [] = [] ∧ (c.name? = none → len = 0) then
            some (s.goes tid (.copyin c len), .called tid c)
          else none
      | _ => none
  | .copyin tid cs =>
      match s.threads tid with
      | .copyin c left =>
          if cs.length ≤ left then
            some (s.goes tid (.copyin (addName cs c) (left - cs.length)), .copied tid cs)
          else none
      | _ => none
  | .request tid now =>
      match s.threads tid with
      | .copyin c 0 => request s tid c now
      | _ => none
  | .send tid =>
      match s.threads tid with
      | .sendLock c p => some (s.goes tid (.remove c), .sent tid p)
      | _ => none
  | .remove tid =>
      match s.threads tid with
      | .remove c => remove s tid c
      | _ => none
  | .finish tid =>
      match s.threads tid with
      | .removed c mail => some (finish s tid c mail)
      | _ => none
  | .others g boxes => some ({ s with globals := g, boxes := boxes }, .others)

/-! ## What is to hold -/

/-- What a thread itself has done in its last system call. -/
structure Own where
  call : Option Syscall
  now : Option ℤ
  mail : Option Mail

def Own.note (tid : ℕ) (o : Own) : Event → Own
  | .called t c => if t = tid then ⟨some c, none, none⟩ else o
  | .copied t cs => if t = tid then { o with call := o.call.map (addName cs) } else o
  | .formatted t now => if t = tid then { o with now := some now } else o
  | .removed t mail => if t = tid then { o with mail := some mail } else o
  | _ => o

def own (tid : ℕ) (tr : List Event) : Own := tr.foldl (Own.note tid) ⟨none, none, none⟩

/-- The packet for a request: type and arguments of the call, the time, an id, and the
mailboxes of the thread. -/
def packet (m : Machine) (tid : ℕ) (c : Syscall) (now ID : ℤ) : Packet :=
  let text := c.text now ID
  { pktHdr := ⟨m.netname, m.netname, text.length + 1 + sizeofMailHeader⟩
    mailHdr := ⟨m.mailBox tid + 1, m.mailBox tid, text.length + 1⟩
    contents := text ++ [nul] }

/-- The id of a thread. -/
def ownID (m : Machine) (tid : ℕ) : ℤ := m.netname * 100 + m.mailBox tid + 1

/-- The value of a message for a system call. -/
def value (mail : Mail) : Syscall → ℤ
  | .createLock _ | .createCondition _ | .createMonitor _ | .retrieveMonitor _ =>
      atoi (cText mail.contents)
  | _ => 0

/-- **An event has nothing of another thread in it**, given what each thread has done
before: a packet is that of the thread's own call, with the id `ID` of the thread, and a
value is that of the message the thread itself was given. -/
def Event.Isolated (m : Machine) (ID : ℕ → Syscall → ℤ) (own : ℕ → Own) : Event → Prop
  | .sent tid p => ∃ c now, (own tid).call = some c ∧ (own tid).now = some now ∧
      p = packet m tid c now (ID tid c)
  | .returned tid rv => ∃ c mail, (own tid).call = some c ∧ (own tid).mail = some mail ∧
      rv = value mail c
  | _ => True

/-- The packet of a `BroadcastCondition`. -/
def Event.OfBroadcast (own : ℕ → Own) : Event → Prop
  | .sent tid _ => ∃ ConID LockID, (own tid).call = some (.broadcastCondition ConID LockID)
  | _ => False

/-- Every event of a trace has a property, given what each thread has done before it. -/
def Throughout (P : (ℕ → Own) → Event → Prop) (tr : List Event) : Prop :=
  ∀ pre ev, pre ++ [ev] <+: tr → P (fun tid => own tid pre) ev

/-! ## The blocks -/

theorem nul_not_mem_text (c : Syscall) (now ID : ℤ) : nul ∉ c.text now ID := by
  rw [Syscall.text_eq]
  apply nul_not_mem_requestText c.letter_ne.2
  cases c with
  | createLock name | createCondition name | createMonitor name =>
      simpa only [Syscall.printed, List.forall_mem_singleton] using nul_not_mem_cText name
  | _ =>
      simp only [Syscall.printed, List.forall_mem_cons, List.not_mem_nil, false_implies,
        implies_true, (printable_decimal _).no_nul, not_false_eq_true, and_self]

/-- `strlen` of a text that fits, which is when the assertion of `Send` passes. -/
theorem strlen_of_spells {b : Memory} {u : Text} (h : Spells b 0 u) (hnul : nul ∉ u)
    (hlen : strlen b + 1 ≤ bufferSize) : strlen b = u.length := by
  rw [strlen, readString_eq_take h hnul, List.length_take] at hlen ⊢
  omega

/-- **What `Send` copies is the request of the thread**, whatever the variables were
before. -/
theorem packet_of_send {tid : ℕ} {c : Syscall} {now : ℤ} {g : Globals} {p : Packet}
    (h : send m (sendPacket m tid (format m tid c now g)) = some p) :
    p = packet m tid c now (myID m tid c) := by
  have hdata : (format m tid c now g).data = writeString g.data 0 (c.text now (myID m tid c)) := by
    rw [Syscall.text_eq]
    rfl
  have hspell := spells_writeString g.data 0 (c.text now (myID m tid c))
  unfold send at h
  split at h
  · rename_i hassert
    have hlen : strlen (format m tid c now g).data + 1 ≤ bufferSize := hassert.1
    rw [hdata] at hlen
    have hstrlen := strlen_of_spells hspell (nul_not_mem_text _ _ _) hlen
    have hcopy := spells_iff_map_range'.mp hspell
    rw [← List.range_eq_range'] at hcopy
    rw [← Option.some.inj h]
    simp only [sendPacket, hdata, hstrlen, hcopy]
    rfl
  · cases h

theorem rv_of_get {mail : Mail} {c : Syscall} (g : Globals) (h : nul ∈ mail.contents) :
    rv (get mail g).buffer c = value mail c := by
  have hread : readString (get mail g).buffer bufferSize 0 = cText mail.contents :=
    readString_bcopy g.buffer h (mail.length_eq ▸ mail.length_le)
  cases c <;> simp only [rv, value, hread]

/-- `DestroyLock` alone receives elsewhere than in the mailbox of its thread, and it
returns no value. -/
theorem returned_of_get {tid : ℕ} {mail : Mail} {c : Syscall} (g : Globals)
    (h : replyBox m tid c = m.mailBox tid → nul ∈ mail.contents) :
    rv (get mail g).buffer c = value mail c := by
  cases c with
  | destroyLock LockID => rfl
  | _ => exact rv_of_get g (h rfl)

/-! ## The invariant -/

section Own

variable {tid : ℕ} {tr : List Event} {ev : Event}

theorem own_snoc (tid : ℕ) (tr : List Event) (ev : Event) :
    own tid (tr ++ [ev]) = (own tid tr).note tid ev := by
  rw [own, own, List.foldl_append, List.foldl_cons, List.foldl_nil]

/-- The thread of an event. -/
def Event.thread : Event → Option ℕ
  | .called tid _ | .copied tid _ | .formatted tid _ | .sent tid _ | .removed tid _
  | .returned tid _ => some tid
  | .others => none

theorem Own.note_of_ne (o : Own) (h : ev.thread ≠ some tid) : o.note tid ev = o := by
  cases ev with
  | sent | returned | others => rfl
  | _ => exact if_neg fun heq => h (congrArg some heq)

theorem throughout_nil (P : (ℕ → Own) → Event → Prop) : Throughout P [] := by
  intro pre ev h
  simp at h

theorem Throughout.snoc {P : (ℕ → Own) → Event → Prop} (h : Throughout P tr)
    (hev : P (fun tid => own tid tr) ev) : Throughout P (tr ++ [ev]) := by
  intro pre e hpre
  rcases List.prefix_concat_iff.mp hpre with heq | hpre
  · obtain ⟨rfl, he⟩ := List.append_inj' heq rfl
    obtain rfl := List.singleton_inj.mp he
    exact hev
  · exact h pre e hpre

end Own

/-- A thread holds what it did itself. -/
def Pc.Holds (m : Machine) (tid : ℕ) (o : Own) : Pc → Prop
  | .user => True
  | .copyin c _ => o.call = some c
  | .sendLock c p => o.call = some c ∧
      ∃ now, o.now = some now ∧ p = packet m tid c now (myID m tid c)
  | .remove c => o.call = some c
  | .removed c mail => o.call = some c ∧ o.mail = some mail ∧
      (replyBox m tid c = m.mailBox tid → nul ∈ mail.contents)

structure Tracked (tr : List Event) (s : State m) : Prop where
  isolated : Throughout (fun own ev => ev.Isolated m (myID m) own) tr
  holds : ∀ tid, (s.threads tid).Holds m tid (own tid tr)

namespace Tracked

variable {tr : List Event} {s : State m} {tid : ℕ} {ev : Event} {pc : Pc}

theorem boot (g : Globals) (boxes : Boxes m) : Tracked [] (boot g boxes) :=
  ⟨throughout_nil _, fun _ => trivial⟩

/-- One thread goes on; it finds its own variables as it left them, and the others
keep theirs. -/
theorem goes (h : Tracked tr s) (g : Globals) (boxes : Boxes m) (hthread : ev.thread = some tid)
    (hev : ev.Isolated m (myID m) fun tid => own tid tr)
    (hpc : pc.Holds m tid ((own tid tr).note tid ev)) :
    Tracked (tr ++ [ev]) (State.goes { s with globals := g, boxes := boxes } tid pc) where
  isolated := h.isolated.snoc hev
  holds := by
    intro t
    rw [own_snoc]
    by_cases ht : t = tid
    · subst ht
      simpa only [State.goes, Function.update_self] using hpc
    · have hne : ev.thread ≠ some t := by
        rw [hthread]
        exact fun heq => ht (Option.some.inj heq).symm
      simpa only [State.goes, Function.update_of_ne ht, Own.note_of_ne _ hne] using h.holds t

theorem step {l : Label m} {t : State m} (h : Tracked tr s)
    (hs : SharedBuffers.step s l = some (t, ev)) : Tracked (tr ++ [ev]) t := by
  have hnote : ∀ {tid : ℕ} {o o' : Own}, (if tid = tid then o else o') = o := if_pos rfl
  cases l with
  | others g boxes =>
      obtain ⟨rfl, rfl⟩ := Prod.mk.inj (Option.some.inj hs)
      exact ⟨h.isolated.snoc trivial, fun tid => by rw [own_snoc]; exact h.holds tid⟩
  | call tid c len =>
      simp only [SharedBuffers.step] at hs
      split at hs
      · split at hs
        · obtain ⟨rfl, rfl⟩ := Prod.mk.inj (Option.some.inj hs)
          exact h.goes s.globals s.boxes rfl trivial (congrArg Own.call hnote)
        · cases hs
      · cases hs
  | copyin tid cs =>
      have hholds := h.holds tid
      simp only [SharedBuffers.step] at hs
      split at hs
      · rename_i c left hat
        rw [hat] at hholds
        split at hs
        · obtain ⟨rfl, rfl⟩ := Prod.mk.inj (Option.some.inj hs)
          refine h.goes s.globals s.boxes rfl trivial ((congrArg Own.call hnote).trans ?_)
          exact congrArg (Option.map (addName cs)) hholds
        · cases hs
      · cases hs
  | request tid now =>
      have hholds := h.holds tid
      simp only [SharedBuffers.step] at hs
      split at hs
      · rename_i c hat
        rw [hat] at hholds
        obtain ⟨p, hp, heq⟩ := Option.map_eq_some_iff.mp hs
        obtain ⟨rfl, rfl⟩ := Prod.mk.inj heq
        refine h.goes _ s.boxes rfl trivial ?_
        rw [Own.note, hnote]
        exact ⟨hholds, now, rfl, packet_of_send hp⟩
      · cases hs
  | send tid =>
      have hholds := h.holds tid
      simp only [SharedBuffers.step] at hs
      split at hs
      · rename_i c p hat
        rw [hat] at hholds
        obtain ⟨rfl, rfl⟩ := Prod.mk.inj (Option.some.inj hs)
        obtain ⟨hcall, now, hnow, hp⟩ := hholds
        exact h.goes s.globals s.boxes rfl ⟨c, now, hcall, hnow, hp⟩ hcall
      · cases hs
  | remove tid =>
      have hholds := h.holds tid
      simp only [SharedBuffers.step] at hs
      split at hs
      · rename_i c hat
        rw [hat] at hholds
        simp only [SharedBuffers.remove] at hs
        split at hs
        · split at hs
          · rename_i mail rest hbox
            obtain ⟨rfl, rfl⟩ := Prod.mk.inj (Option.some.inj hs)
            refine h.goes s.globals _ rfl trivial ?_
            rw [Own.note, hnote]
            refine ⟨hholds, rfl, fun heq => s.boxes.text tid mail ?_⟩
            rw [← heq, hbox]
            exact List.mem_cons_self
          · cases hs
        · cases hs
      · cases hs
  | finish tid =>
      have hholds := h.holds tid
      simp only [SharedBuffers.step] at hs
      split at hs
      · rename_i c mail hat
        rw [hat] at hholds
        obtain ⟨rfl, rfl⟩ := Prod.mk.inj (Option.some.inj hs)
        obtain ⟨hcall, hmail, htext⟩ := hholds
        exact h.goes _ s.boxes rfl ⟨c, mail, hcall, hmail, returned_of_get s.globals htext⟩ trivial
      · cases hs

end Tracked

/-! ## Every run -/

theorem ID_of_text {c : Syscall} {now ID ID' : ℤ} (h : c.text now ID = c.text now ID') :
    ID = ID' := by
  rw [Syscall.text_eq] at h
  have hfields := congrArg fields h
  rw [fields_header, fields_header] at hfields
  have hdecimal : decimal ID = decimal ID' := (List.cons.inj (List.cons.inj hfields).2).1
  rw [← atoi_decimal ID, hdecimal, atoi_decimal]

/-- Only `BroadcastCondition` does not take the id of its thread. -/
theorem myID_eq_ownID_iff (tid : ℕ) (c : Syscall) :
    myID m tid c = ownID m tid ↔ ∀ ConID LockID, c ≠ .broadcastCondition ConID LockID := by
  cases c with
  | broadcastCondition ConID LockID =>
      refine ⟨fun h => ?_, fun h => absurd rfl (h ConID LockID)⟩
      simp only [myID, ownID] at h
      omega
  | _ => simp only [myID, ownID, ne_eq, reduceCtorEq, not_false_eq_true, implies_true]

theorem Event.isolated_iff {own : ℕ → Own} {ev : Event} (h : ev.Isolated m (myID m) own) :
    ev.Isolated m (fun tid _ => ownID m tid) own ↔ ¬ ev.OfBroadcast own := by
  cases ev with
  | sent tid p =>
      obtain ⟨c, now, hcall, hnow, hp⟩ := h
      have hiff : p = packet m tid c now (ownID m tid) ↔ myID m tid c = ownID m tid := by
        rw [hp]
        constructor
        · intro heq
          exact ID_of_text (List.append_inj_left' (congrArg Packet.contents heq) rfl)
        · intro heq
          rw [heq]
      rw [myID_eq_ownID_iff] at hiff
      constructor
      · rintro ⟨c', now', hcall', hnow', hp'⟩ ⟨ConID, LockID, hb⟩
        obtain rfl : c = c' := Option.some.inj (hcall.symm.trans hcall')
        obtain rfl : now = now' := Option.some.inj (hnow.symm.trans hnow')
        exact hiff.mp hp' ConID LockID (Option.some.inj (hcall.symm.trans hb))
      · intro hb
        refine ⟨c, now, hcall, hnow, hiff.mpr ?_⟩
        rintro ConID LockID rfl
        exact hb ⟨ConID, LockID, hcall⟩
  | _ => exact ⟨fun _ hb => hb, fun _ => h⟩

/-- **No request and no value goes to another thread**: in every run, with any number
of threads, every packet is made of the call of the thread that sends it, and every value
is that of the message the thread was given. The id in the packet is that of the thread
if and only if the call is not `BroadcastCondition`. -/
theorem isolated_iff_not_broadcast {g : Globals} {boxes : Boxes m} {tr : List Event}
    {s : State m} (h : Run step anyStep (boot g boxes) tr s) :
    Throughout (fun own ev => ev.Isolated m (myID m) own) tr ∧
    Throughout (fun own ev => ev.Isolated m (fun tid _ => ownID m tid) own ↔
      ¬ ev.OfBroadcast own) tr := by
  have htracked : Tracked tr s := by
    refine h.invariant (I := Tracked) (.boot g boxes) ?_
    intro tr s l t ev hi _ hs
    exact hi.step hs
  refine ⟨htracked.isolated, ?_⟩
  intro pre ev hpre
  exact Event.isolated_iff (htracked.isolated pre ev hpre)

/-- Machine 1; thread `tid` has mailbox `2 * tid`. -/
def machine : Machine := ⟨1, fun tid => 2 * tid⟩

def blank : Globals :=
  ⟨fun _ => nul, nul, 0, 0, ⟨0, 0, 0⟩, ⟨0, 0, 0⟩, ⟨0, 0, 0⟩, ⟨0, 0, 0⟩, fun _ => nul⟩

def noMail : Boxes machine := ⟨fun _ => [], fun _ _ h => nomatch h⟩

/-- The answer 7 for thread 0, and one for thread 1. -/
def answers : Boxes machine where
  messages box := if box = 0 then [⟨⟨1, 1, 14⟩, ⟨0, 1, 2⟩, ['7', nul], rfl, by decide⟩]
    else [⟨⟨1, 1, 14⟩, ⟨2, 3, 2⟩, ['0', nul], rfl, by decide⟩]
  text := by
    intro tid mail hmail
    split at hmail <;> (obtain rfl := List.mem_singleton.mp hmail; decide)

/-- Two threads overtake each other in `copyin`, in `Send` and in `Remove`. -/
theorem isolated_iff_not_broadcast_sample :
    ∃ tr s, Run step anyStep (boot blank noMail) tr s ∧
      (tr.filterMap fun ev => match ev with
        | .returned tid rv => some (tid, rv)
        | _ => none) = [(1, 0), (0, 7)] ∧
      Throughout (fun own ev => ev.Isolated machine (myID machine) own) tr := by
  have hp : (exec step anyStep [] (boot blank noMail) [.call 0 (.createLock []) 2,
      .copyin 0 ['a'], .call 1 (.acquireLock 5) 0, .request 1 3, .copyin 0 ['b'], .request 0 4,
      .send 1, .send 0, .others blank answers, .remove 0, .remove 1, .finish 1,
      .finish 0]).map (fun r => r.1.filterMap fun ev => match ev with
        | .returned tid rv => some (tid, rv)
        | _ => none) = some [(1, 0), (0, 7)] := by
    decide +kernel
  obtain ⟨⟨tr, s⟩, hexec, hvalues⟩ := Option.map_eq_some_iff.mp hp
  have hrun := Run.of_exec .start hexec
  exact ⟨tr, s, hrun, hvalues, (isolated_iff_not_broadcast hrun).1⟩

/-- A `BroadcastCondition` of thread 1 travels with the id 102, which is not its own. -/
theorem broadcast_without_own_id :
    ∃ tr s p, Run step anyStep (boot blank noMail) (tr ++ [.sent 1 p]) s ∧
      p.contents = "3,102,h,0,5".toList ++ [nul] ∧ ownID machine 1 = 103 ∧
      ¬ (Event.sent 1 p).Isolated machine (fun tid _ => ownID machine tid)
        fun tid => own tid tr := by
  have hp : (exec step anyStep [] (boot blank noMail) [.call 1 (.broadcastCondition 0 5) 0,
      .request 1 3, .send 1]).map Prod.fst = some ([.called 1 (.broadcastCondition 0 5),
        .formatted 1 3] ++ [.sent 1 (packet machine 1 (.broadcastCondition 0 5) 3 102)]) := by
    decide +kernel
  obtain ⟨⟨tr, s⟩, hexec, rfl⟩ := Option.map_eq_some_iff.mp hp
  refine ⟨_, s, _, .of_exec .start hexec, by decide, rfl, ?_⟩
  rintro ⟨c, now, hcall, hnow, heq⟩
  obtain rfl : Syscall.broadcastCondition 0 5 = c := Option.some.inj hcall
  obtain rfl : 3 = now := Option.some.inj hnow
  exact absurd heq (by decide)

end Nachos.Network.SharedBuffers
