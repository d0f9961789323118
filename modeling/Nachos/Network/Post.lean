import Nachos.Lib.Bytes
import Nachos.Threads.SynchList

/-!
# The post office and the network device

`PostOffice` of `network/post.cc` over `Network` of `machine/network.cc`, on every machine of
a network. The device buffers one packet. An interrupt polls the socket, reads a packet if
none is buffered, and calls `V`; the postal worker takes the packet and puts it in a
mailbox, which is a synchronized list. `Send` hands the device one packet at a time.

The wire delivers what it is given at most once and as it was given, in any order.
-/

namespace Nachos.Network.Post

open Nachos.Lib Nachos.Threads

/-! ## Headers and mail -/

abbrev NetworkAddress := BitVec 32

abbrev MailBoxAddress := BitVec 32

/-- `MaxPacketSize`, which is `MaxWireSize` less the size of a packet header. -/
def maxPacketSize : ℕ := 64 - 12

/-- `MaxMailSize`, less the size of a mail header. -/
def maxMailSize : ℕ := maxPacketSize - 12

def headerBytes (a b c : BitVec 32) : Buffer := fun o =>
  intByte (if o / 4 = 0 then a.toNat else if o / 4 = 1 then b.toNat else c.toNat) (o % 4)

def wordAt (b : Buffer) (p : ℕ) : BitVec 32 := .ofNat 32 (b.intAt p)

structure PacketHeader where
  «to» : NetworkAddress
  «from» : NetworkAddress
  length : BitVec 32
deriving DecidableEq, Repr

def PacketHeader.encode (h : PacketHeader) : Buffer := headerBytes h.to h.from h.length

def PacketHeader.decode (b : Buffer) (p : ℕ) : PacketHeader :=
  ⟨wordAt b p, wordAt b (p + 4), wordAt b (p + 8)⟩

structure MailHeader where
  «to» : MailBoxAddress
  «from» : MailBoxAddress
  length : BitVec 32
deriving DecidableEq, Repr

def MailHeader.encode (h : MailHeader) : Buffer := headerBytes h.to h.from h.length

def MailHeader.decode (b : Buffer) (p : ℕ) : MailHeader :=
  ⟨wordAt b p, wordAt b (p + 4), wordAt b (p + 8)⟩

structure Mail where
  pktHdr : PacketHeader
  mailHdr : MailHeader
  data : Buffer

/-- What `Send` and `PostalDelivery` assert of a mail header. -/
def MailHeader.Legal (numBoxes : ℕ) (h : MailHeader) : Prop :=
  h.length.toNat ≤ maxMailSize ∧ 0 ≤ h.to.toInt ∧ h.to.toInt < numBoxes

instance (numBoxes : ℕ) (h : MailHeader) : Decidable (h.Legal numBoxes) :=
  inferInstanceAs (Decidable (_ ∧ _ ∧ _))

/-! ## One machine -/

/-- `messageAvailable`, `messageSent`, and those of other code. -/
inductive PostSemaphore (S : Type*) where
  | messageAvailable
  | messageSent
  | other (s : S)
deriving DecidableEq, Repr

/-- `sendLock`, the locks of the mailboxes, and those of other code. -/
inductive PostLock (L : Type*) where
  | sendLock
  | list (box : ℕ)
  | other (l : L)
deriving DecidableEq, Repr

inductive PostCondition (C : Type*) where
  | listEmpty (box : ℕ)
  | other (c : C)
deriving DecidableEq, Repr

variable {T S L C : Type*}

abbrev PostOp (T S L C : Type*) := Op T (PostSemaphore S) (PostLock L) (PostCondition C)

/-- A call that the post office has nothing to do with. -/
def foreign : PostOp T S L C → Bool
  | .p (.other _) | .v (.other _) | .acquire (.other _) | .release (.other _)
  | .wait (.other _) none | .wait (.other _) (some (.other _))
  | .signal (.other _) none | .signal (.other _) (some (.other _))
  | .broadcast (.other _) none | .broadcast (.other _) (some (.other _))
  | .fork _ | .yield | .finish => true
  | _ => false

/-- Where a thread is in `PostalDelivery`, `Send` and `Receive`. The worker is elsewhere at
the beginning of its loop. -/
inductive PostPoint where
  | elsewhere
  | receiving
  | delivering (pktHdr : PacketHeader)
  | inList (box : ℕ) (point : ListPoint Mail)
  /-- Behind `sendLock->Acquire`, with the arguments of `Send` and the buffer. -/
  | sending (pktHdr : PacketHeader) (mailHdr : MailHeader) (data buffer : Buffer)
  | sent (success : Bool)
  | unlocking (success : Bool)
  | returning (success : Bool)
  | aborted

structure PostData where
  inHdr : PacketHeader
  inbox : Buffer
  /-- The buffer of `PostalDelivery`. -/
  buffer : Buffer
  boxes : ℕ → List Mail
  sendBusy : Bool
  /-- Interrupts that are to call `SendDone`. -/
  scheduled : ℕ

inductive Outcome where
  | lost
  | failed
  | transmitted
deriving DecidableEq, Repr

inductive PostEvent (T : Type*) where
  /-- The packet is on the wire. -/
  | sent (t : T) («to» : NetworkAddress) (mailHdr : MailHeader) (data packet : Buffer)
  /-- It is read from the socket. -/
  | read (packet : Buffer)
  /-- `network->Receive` has returned. -/
  | taken (pktHdr : PacketHeader) (buffer : Buffer)
  | box (box : ℕ) (event : ListEvent T Mail)
  | received (t : T) (box : ℕ) (pktHdr : PacketHeader) (mailHdr : MailHeader) (data : Buffer)
  | aborted

/-- What a thread chooses. Memory that is allocated in between holds anything. -/
inductive PostChoice (T S L C : Type*) where
  | goOn (fresh : Buffer) (outcome : Outcome)
  | send (pktHdr : PacketHeader) (mailHdr : MailHeader) (data fresh : Buffer)
  | receive (box : ℤ)
  | other (op : PostOp T S L C)

inductive PostInterrupt (S : Type*) where
  /-- `CheckPktAvail`, and what the socket holds for it. -/
  | checkPktAvail (arrived : Option Buffer)
  | sendDone
  | other (s : S)

abbrev PostAction (T S L C : Type*) :=
  Action T (PostSemaphore S) (PostLock L) (PostCondition C) PostPoint PostData (PostEvent T)

/-- `Get` and `Receive` behind `Remove`. -/
def get (box : ℕ) (t : T) (data : PostData) (mail : Mail) (fresh : Buffer)
    (events : List (PostEvent T)) : PostAction T S L C :=
  let text := mail.data.copy 0 fresh 0 mail.mailHdr.length.toNat
  if mail.mailHdr.length.toNat ≤ maxMailSize then
    .go .elsewhere data (events ++ [.received t box mail.pktHdr mail.mailHdr text])
  else .go .aborted data (events ++ [.aborted])

/-- A piece of code of a mailbox, and what follows it where it is the last one. -/
def inBox (box : ℕ) (t : T) (data : PostData) (fresh : Buffer) (point : ListPoint Mail) :
    Action T (PostSemaphore S) (PostLock L) (PostCondition C) (ListPoint Mail) (List Mail)
      (ListEvent T Mail) → PostAction T S L C
  | .call op next => .call op (.inList box next)
  | .go next list events =>
      let data := { data with boxes := Function.update data.boxes box list }
      match point with
      | .appended => .go .elsewhere data (events.map (.box box))
      | .returning mail => get box t data mail fresh (events.map (.box box))
      | _ => .go (.inList box next) data (events.map (.box box))

/-- `Network::Receive`, into the buffer of `PostalDelivery`. -/
def networkReceive (data : PostData) : PostAction T S L C :=
  let hdr := data.inHdr
  let buffer :=
    if hdr.length ≠ 0 then data.inbox.copy 0 data.buffer 0 hdr.length.toNat else data.buffer
  .go (.delivering hdr) { data with inHdr := { hdr with length := 0 }, buffer := buffer }
    [.taken hdr buffer]

/-- `PostalDelivery` behind it, up to the call of `Append`. -/
def deliver (numBoxes : ℕ) (data : PostData) (pktHdr : PacketHeader) (fresh : Buffer) :
    PostAction T S L C :=
  let mailHdr := MailHeader.decode data.buffer 0
  if mailHdr.Legal numBoxes then
    let mail : Mail :=
      ⟨pktHdr, mailHdr, data.buffer.copy 12 fresh 0 mailHdr.length.toNat⟩
    .call (.acquire (.list mailHdr.to.toNat)) (.inList mailHdr.to.toNat (.appending mail))
  else .go .aborted data [.aborted]

/-- `Network::Send`. -/
def networkSend (ident : NetworkAddress) (t : T) (data : PostData) (hdr : PacketHeader)
    (mailHdr : MailHeader) (text buffer fresh : Buffer) : Outcome → PostAction T S L C
  | outcome =>
      if data.sendBusy = false ∧ 0 < hdr.length.toNat ∧ hdr.length.toNat ≤ maxPacketSize ∧
          hdr.from = ident then
        let data := { data with scheduled := data.scheduled + 1 }
        match outcome with
        | .lost => .go (.sent true) data []
        | .failed => .go (.sent false) data []
        | .transmitted =>
            let packet := buffer.copy 0 (hdr.encode.copy 0 fresh 0 12) 12 hdr.length.toNat
            .go (.sent true) data [.sent t hdr.to mailHdr text packet]
      else .go .aborted data [.aborted]

/-- The code behind the first lines of `PostalDelivery`, `Send` and `Receive`. -/
def PostPoint.goOn [DecidableEq T] (numBoxes : ℕ) (ident : NetworkAddress) (worker t : T)
    (data : PostData) (fresh : Buffer) (outcome : Outcome) :
    PostPoint → Option (PostAction T S L C)
  | .elsewhere => if t = worker then some (.call (.p .messageAvailable) .receiving) else none
  | .receiving => some (networkReceive data)
  | .delivering pktHdr => some (deliver numBoxes data pktHdr fresh)
  | .inList box point =>
      (point.goOn (.list box) (.listEmpty box) t (data.boxes box)).map (inBox box t data fresh point)
  | .sending pktHdr mailHdr text buffer =>
      some (networkSend ident t data pktHdr mailHdr text buffer fresh outcome)
  | .sent success => some (.call (.p .messageSent) (.unlocking success))
  | .unlocking success => some (.call (.release .sendLock) (.returning success))
  | .returning _ => some (.go .elsewhere data [])
  | .aborted => none

/-- The first lines of `Send` and `Receive`. -/
def PostChoice.action (numBoxes : ℕ) (ident : NetworkAddress) (data : PostData) :
    PostChoice T S L C → Option (PostAction T S L C)
  | .goOn _ _ => none
  | .send pktHdr mailHdr text fresh =>
      if mailHdr.Legal numBoxes then
        let hdr : PacketHeader := ⟨pktHdr.to, ident, mailHdr.length + 12⟩
        let buffer := text.copy 0 (mailHdr.encode.copy 0 fresh 0 12) 12 mailHdr.length.toNat
        some (.call (.acquire .sendLock) (.sending hdr mailHdr text buffer))
      else some (.go .aborted data [.aborted])
  | .receive box =>
      if 0 ≤ box ∧ box < numBoxes then
        some (.call (.acquire (.list box.toNat)) (.inList box.toNat .testing))
      else some (.go .aborted data [.aborted])
  | .other op => if foreign op then some (.call op .elsewhere) else none

/-- `CheckPktAvail`, `SendDone` and other interrupts. -/
def PostInterrupt.handler (ident : NetworkAddress) (data : PostData) :
    PostInterrupt S → Option (PostData × List (PostEvent T) × Option (PostSemaphore S))
  | .checkPktAvail arrived =>
      if data.inHdr.length ≠ 0 then some (data, [], none)
      else
        match arrived with
        | none => some (data, [], none)
        | some packet =>
            let hdr := PacketHeader.decode packet 0
            if hdr.to = ident ∧ hdr.length.toNat ≤ maxPacketSize then
              let inbox := packet.copy 12 data.inbox 0 hdr.length.toNat
              some ({ data with inHdr := hdr, inbox := inbox }, [.read packet],
                some .messageAvailable)
            else some ({ data with inHdr := hdr }, [.read packet, .aborted], none)
  | .sendDone =>
      if 0 < data.scheduled then
        some ({ data with sendBusy := false, scheduled := data.scheduled - 1 }, [],
          some .messageSent)
      else none
  | .other s => some (data, [], some (.other s))

/-- A machine. One of its threads is the postal worker. -/
def machine [DecidableEq T] (numBoxes : ℕ) (worker : T) (ident : NetworkAddress) :
    Program T (PostSemaphore S) (PostLock L) (PostCondition C) PostPoint PostData (PostEvent T)
      (PostChoice T S L C) (PostInterrupt S) where
  start := .elsewhere
  act t point data
    | .goOn fresh outcome => point.goOn numBoxes ident worker t data fresh outcome
    | c =>
        match point with
        | .elsewhere => if t = worker then none else c.action numBoxes ident data
        | _ => none
  handler i data := i.handler ident data

/-- The constructors, where memory holds what it holds. -/
def PostData.create (memory : Buffer) : PostData where
  inHdr := { PacketHeader.decode memory 0 with length := 0 }
  inbox := memory
  buffer := memory
  boxes _ := []
  sendBusy := false
  scheduled := 0

def initialValue (initial : S → ℤ) : PostSemaphore S → ℤ
  | .messageAvailable | .messageSent => 0
  | .other s => initial s

/-! ## What a thread does where -/

section Code

variable [DecidableEq T] {numBoxes : ℕ} {worker t : T} {ident : NetworkAddress}
  {data data' : PostData} {point next : PostPoint} {choice : PostChoice T S L C}
  {op : PostOp T S L C} {events : List (PostEvent T)}

/-- What the code calls, and where it goes on. -/
inductive PostCalls (numBoxes : ℕ) (ident : NetworkAddress) (worker t : T) (data : PostData) :
    PostPoint → PostOp T S L C → PostPoint → Prop where
  | awaitMail : t = worker →
      PostCalls numBoxes ident worker t data .elsewhere (.p .messageAvailable) .receiving
  | put {pktHdr : PacketHeader} {m : Mail} : m.pktHdr = pktHdr →
      m.mailHdr = MailHeader.decode data.buffer 0 → m.mailHdr.Legal numBoxes →
      (∀ i < m.mailHdr.length.toNat, m.data i = data.buffer (12 + i)) →
      PostCalls numBoxes ident worker t data (.delivering pktHdr)
        (.acquire (.list m.mailHdr.to.toNat)) (.inList m.mailHdr.to.toNat (.appending m))
  | list {box : ℕ} {point next : ListPoint Mail} {op : PostOp T S L C} :
      point.goOn (.list box) (.listEmpty box) t (data.boxes box) = some (.call op next) →
      PostCalls numBoxes ident worker t data (.inList box point) op (.inList box next)
  | awaitSent (success : Bool) :
      PostCalls numBoxes ident worker t data (.sent success) (.p .messageSent)
        (.unlocking success)
  | unlock (success : Bool) :
      PostCalls numBoxes ident worker t data (.unlocking success) (.release .sendLock)
        (.returning success)
  | send {hdr : PacketHeader} {mailHdr : MailHeader} {text buffer : Buffer} : t ≠ worker →
      mailHdr.Legal numBoxes → hdr.from = ident → hdr.length = mailHdr.length + 12 →
      (∀ o < 12, buffer o = mailHdr.encode o) →
      (∀ i < mailHdr.length.toNat, buffer (12 + i) = text i) →
      PostCalls numBoxes ident worker t data .elsewhere (.acquire .sendLock)
        (.sending hdr mailHdr text buffer)
  | receive (box : ℕ) : t ≠ worker →
      PostCalls numBoxes ident worker t data .elsewhere (.acquire (.list box))
        (.inList box .testing)
  | other {op : PostOp T S L C} : t ≠ worker → foreign op = true →
      PostCalls numBoxes ident worker t data .elsewhere op .elsewhere

inductive PostGoes (numBoxes : ℕ) (ident : NetworkAddress) (worker t : T) (data : PostData) :
    PostPoint → PostPoint → PostData → List (PostEvent T) → Prop where
  | take {buffer : Buffer} :
      (∀ i < data.inHdr.length.toNat, buffer i = data.inbox i) →
      PostGoes numBoxes ident worker t data .receiving (.delivering data.inHdr)
        { data with inHdr := { data.inHdr with length := 0 }, buffer := buffer }
        [.taken data.inHdr buffer]
  | illegal {pktHdr : PacketHeader} : ¬ (MailHeader.decode data.buffer 0).Legal numBoxes →
      PostGoes numBoxes ident worker t data (.delivering pktHdr) .aborted data [.aborted]
  | list {box : ℕ} {point next : ListPoint Mail} {list : List Mail}
      {events : List (ListEvent T Mail)} : point ≠ .appended → (∀ mail, point ≠ .returning mail) →
      (point.goOn (.list box) (.listEmpty box) t (data.boxes box) : Option (Action T
        (PostSemaphore S) (PostLock L) (PostCondition C) _ _ _)) = some (.go next list events) →
      PostGoes numBoxes ident worker t data (.inList box point) (.inList box next)
        { data with boxes := Function.update data.boxes box list } (events.map (.box box))
  | appended (box : ℕ) :
      PostGoes numBoxes ident worker t data (.inList box .appended) .elsewhere data []
  | get {box : ℕ} {mail : Mail} {text : Buffer} :
      (∀ i < mail.mailHdr.length.toNat, text i = mail.data i) →
      PostGoes numBoxes ident worker t data (.inList box (.returning mail)) .elsewhere data
        [.box box (.returned t mail), .received t box mail.pktHdr mail.mailHdr text]
  | getFails {box : ℕ} {mail : Mail} : ¬ mail.mailHdr.length.toNat ≤ maxMailSize →
      PostGoes numBoxes ident worker t data (.inList box (.returning mail)) .aborted data
        [.box box (.returned t mail), .aborted]
  | lose {hdr : PacketHeader} {mailHdr : MailHeader} {text buffer : Buffer} (success : Bool) :
      PostGoes numBoxes ident worker t data (.sending hdr mailHdr text buffer) (.sent success)
        { data with scheduled := data.scheduled + 1 } []
  | transmit {hdr : PacketHeader} {mailHdr : MailHeader} {text buffer packet : Buffer} :
      (∀ o < 12, packet o = hdr.encode o) →
      (∀ i < hdr.length.toNat, packet (12 + i) = buffer i) →
      PostGoes numBoxes ident worker t data (.sending hdr mailHdr text buffer) (.sent true)
        { data with scheduled := data.scheduled + 1 } [.sent t hdr.to mailHdr text packet]
  | return (success : Bool) :
      PostGoes numBoxes ident worker t data (.returning success) .elsewhere data []
  | abort {point : PostPoint} : point = .elsewhere ∧ t ≠ worker ∨
        (∃ hdr mailHdr text buffer, point = .sending hdr mailHdr text buffer) →
      PostGoes numBoxes ident worker t data point .aborted data [.aborted]

inductive PostHandles (ident : NetworkAddress) (data : PostData) : PostInterrupt S → PostData →
    List (PostEvent T) → Option (PostSemaphore S) → Prop where
  | nothing (arrived : Option Buffer) :
      PostHandles ident data (.checkPktAvail arrived) data [] none
  | read {packet inbox : Buffer} : data.inHdr.length = 0 →
      (∀ i < (PacketHeader.decode packet 0).length.toNat, inbox i = packet (12 + i)) →
      PostHandles ident data (.checkPktAvail (some packet))
        { data with inHdr := PacketHeader.decode packet 0, inbox := inbox } [.read packet]
        (some .messageAvailable)
  | misrouted {packet : Buffer} : data.inHdr.length = 0 →
      ¬ ((PacketHeader.decode packet 0).to = ident ∧
        (PacketHeader.decode packet 0).length.toNat ≤ maxPacketSize) →
      PostHandles ident data (.checkPktAvail (some packet))
        { data with inHdr := PacketHeader.decode packet 0 } [.read packet, .aborted] none
  | sendDone : PostHandles ident data .sendDone
      { data with sendBusy := false, scheduled := data.scheduled - 1 } [] (some .messageSent)
  | other (s : S) : PostHandles ident data (.other s) data [] (some (.other s))

/-- What has been copied behind a header of twelve bytes. -/
theorem copied_behind {src dst : Buffer} {n i : ℕ} (h : i < n) :
    src.copy 0 dst 12 n (12 + i) = src i := by
  rw [Buffer.copy_of_mem ⟨by omega, by omega⟩, Nat.add_sub_cancel_left, Nat.zero_add]

theorem header_before {src hdr dst : Buffer} {n o : ℕ} (h : o < 12) :
    src.copy 0 (hdr.copy 0 dst 0 12) 12 n o = hdr o := by
  rw [Buffer.copy_of_not_mem (by omega), Buffer.copy_of_mem ⟨by omega, by omega⟩, Nat.sub_zero,
    Nat.zero_add]

theorem copied_first {src dst : Buffer} {p n i : ℕ} (h : i < n) :
    src.copy p dst 0 n i = src (p + i) := by
  rw [Buffer.copy_of_mem ⟨by omega, by omega⟩, Nat.sub_zero]

theorem machine_call
    (hact : (machine numBoxes worker ident).act t point data choice = some (.call op next)) :
    PostCalls numBoxes ident worker t data point op next := by
  cases choice with
  | goOn fresh outcome =>
      have hact : point.goOn numBoxes ident worker t data fresh outcome =
        some (.call op next) := hact
      cases point with
      | elsewhere =>
          simp only [PostPoint.goOn] at hact
          split at hact
          · rename_i ht
            cases hact
            exact .awaitMail ht
          · cases hact
      | receiving => cases hact
      | delivering pktHdr =>
          simp only [PostPoint.goOn, deliver] at hact
          split at hact
          · rename_i hlegal
            obtain ⟨rfl, rfl⟩ := Action.call.inj (Option.some.inj hact)
            exact .put (m := ⟨_, _, _⟩) rfl rfl hlegal fun i hi => copied_first hi
          · cases hact
      | inList box point =>
          obtain ⟨action, hgo, heq⟩ := Option.map_eq_some_iff.mp hact
          cases action with
          | call op' next' =>
              cases heq
              exact .list hgo
          | go _ _ _ =>
              cases point with
              | returning mail =>
                  simp only [inBox, get] at heq
                  split at heq <;> cases heq
              | _ => cases heq
      | sending hdr mailHdr text buffer =>
          simp only [PostPoint.goOn, networkSend] at hact
          split at hact
          · cases outcome <;> cases hact
          · cases hact
      | sent success =>
          cases hact
          exact .awaitSent success
      | unlocking success =>
          cases hact
          exact .unlock success
      | returning _ => cases hact
      | aborted => cases hact
  | send pktHdr mailHdr text fresh =>
      cases point with
      | elsewhere =>
          simp only [machine] at hact
          split at hact
          · cases hact
          · rename_i ht
            simp only [PostChoice.action] at hact
            split at hact
            · rename_i hlegal
              cases hact
              exact .send ht hlegal rfl rfl (fun o ho => header_before ho) fun i hi => copied_behind hi
            · cases hact
      | _ => cases hact
  | receive box =>
      cases point with
      | elsewhere =>
          simp only [machine] at hact
          split at hact
          · cases hact
          · rename_i ht
            simp only [PostChoice.action] at hact
            split at hact
            · cases hact
              exact .receive _ ht
            · cases hact
      | _ => cases hact
  | other op' =>
      cases point with
      | elsewhere =>
          simp only [machine] at hact
          split at hact
          · cases hact
          · rename_i ht
            simp only [PostChoice.action] at hact
            split at hact
            · rename_i hforeign
              cases hact
              exact .other ht hforeign
            · cases hact
      | _ => cases hact

theorem machine_go
    (hact : (machine (S := S) (L := L) (C := C) numBoxes worker ident).act t point data choice =
      some (.go next data' events)) :
    PostGoes (S := S) (L := L) (C := C) numBoxes ident worker t data point next data' events := by
  cases choice with
  | goOn fresh outcome =>
      have hact : point.goOn numBoxes ident worker t data fresh outcome =
        some (.go next data' events) := hact
      cases point with
      | elsewhere =>
          simp only [PostPoint.goOn] at hact
          split at hact <;> cases hact
      | receiving =>
          cases hact
          refine .take fun i hi => ?_
          have hne : data.inHdr.length ≠ 0 := by
            rintro h
            rw [h] at hi
            exact absurd hi (Nat.not_lt_zero _)
          rw [if_pos hne, copied_first hi, Nat.zero_add]
      | delivering pktHdr =>
          simp only [PostPoint.goOn, deliver] at hact
          split at hact
          · cases hact
          · rename_i hlegal
            cases hact
            exact .illegal hlegal
      | inList box point =>
          obtain ⟨action, hgo, heq⟩ := Option.map_eq_some_iff.mp hact
          cases action with
          | call _ _ => cases point <;> cases heq
          | go next' list' events' =>
              cases point with
              | appended =>
                  cases hgo
                  cases heq
                  rw [Function.update_eq_self]
                  exact .appended box
              | returning mail =>
                  cases hgo
                  simp only [inBox, get, Function.update_eq_self] at heq
                  split at heq
                  · cases heq
                    refine .get fun i hi => ?_
                    rw [copied_first hi, Nat.zero_add]
                  · rename_i hlong
                    cases heq
                    exact .getFails hlong
              | _ =>
                  cases heq
                  exact .list nofun nofun hgo
      | sending hdr mailHdr text buffer =>
          simp only [PostPoint.goOn, networkSend] at hact
          split at hact
          · cases outcome with
            | lost | failed =>
                cases hact
                exact .lose _
            | transmitted =>
                cases hact
                exact .transmit (fun o ho => header_before ho) fun i hi => copied_behind hi
          · cases hact
            exact .abort (.inr ⟨_, _, _, _, rfl⟩)
      | sent _ => cases hact
      | unlocking _ => cases hact
      | returning success =>
          cases hact
          exact .return success
      | aborted => cases hact
  | send pktHdr mailHdr text fresh =>
      cases point with
      | elsewhere =>
          simp only [machine] at hact
          split at hact
          · cases hact
          · rename_i ht
            simp only [PostChoice.action] at hact
            split at hact
            · cases hact
            · cases hact
              exact .abort (.inl ⟨rfl, ht⟩)
      | _ => cases hact
  | receive box =>
      cases point with
      | elsewhere =>
          simp only [machine] at hact
          split at hact
          · cases hact
          · rename_i ht
            simp only [PostChoice.action] at hact
            split at hact
            · cases hact
            · cases hact
              exact .abort (.inl ⟨rfl, ht⟩)
      | _ => cases hact
  | other op' =>
      cases point with
      | elsewhere =>
          simp only [machine] at hact
          split at hact
          · cases hact
          · simp only [PostChoice.action] at hact
            split at hact <;> cases hact
      | _ => cases hact

theorem machine_handles {i : PostInterrupt S} {sem : Option (PostSemaphore S)}
    (hhandler : (machine (L := L) (C := C) numBoxes worker ident).handler i data =
      some (data', events, sem)) : PostHandles ident data i data' events sem := by
  have hhandler : i.handler ident data = some (data', events, sem) := hhandler
  cases i with
  | checkPktAvail arrived =>
      simp only [PostInterrupt.handler] at hhandler
      split at hhandler
      · cases hhandler
        exact .nothing arrived
      · rename_i hempty
        cases arrived with
        | none =>
            cases hhandler
            exact .nothing none
        | some packet =>
            simp only at hhandler
            split at hhandler
            · cases hhandler
              exact .read (not_not.mp hempty) fun i hi => copied_first hi
            · rename_i hbad
              cases hhandler
              exact .misrouted (not_not.mp hempty) hbad
  | sendDone =>
      simp only [PostInterrupt.handler] at hhandler
      split at hhandler
      · cases hhandler
        exact .sendDone
      · cases hhandler
  | other s =>
      cases hhandler
      exact .other s

end Code

end Nachos.Network.Post
