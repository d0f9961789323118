import Nachos.Network.PostOffice

/-!
# From the socket to the mailboxes

What a packet says is a letter: the two headers and the text. A packet that has been read is
in the device, or the postal worker has it in hand, or it has been put in its mailbox; and
the value of `messageAvailable` says whether there is one in the device that the worker is not
yet to take.
-/

namespace Nachos.Network.Post

open Nachos.Lib Nachos.Threads Nachos.Threads.Kernel

/-! ## Letters -/

structure Letter where
  pktHdr : PacketHeader
  mailHdr : MailHeader
  text : List UInt8
deriving DecidableEq, Repr

/-- `n` bytes at `p`. -/
def bytesAt (b : Buffer) (p n : ℕ) : List UInt8 := (List.range n).map fun i => b (p + i)

def Mail.letter (m : Mail) : Letter :=
  ⟨m.pktHdr, m.mailHdr, bytesAt m.data 0 m.mailHdr.length.toNat⟩

/-- A mail header at `p`, and the text behind it. -/
def letterAt (pktHdr : PacketHeader) (b : Buffer) (p : ℕ) : Letter :=
  let mailHdr := MailHeader.decode b p
  ⟨pktHdr, mailHdr, bytesAt b (p + 12) mailHdr.length.toNat⟩

/-- A packet on the wire. -/
def packetLetter (packet : Buffer) : Letter :=
  letterAt (PacketHeader.decode packet 0) packet 12

/-- A letter and its mailbox. -/
def Letter.boxed (l : Letter) : ℕ × Letter := (l.mailHdr.to.toNat, l)

section Bytes

variable {a b : Buffer} {p q n : ℕ} {pktHdr : PacketHeader} {mailHdr : MailHeader}

theorem bytesAt_congr (h : ∀ i < n, a (p + i) = b (q + i)) : bytesAt a p n = bytesAt b q n :=
  List.map_congr_left fun i hi => h i (List.mem_range.mp hi)

theorem wordAt_congr (h : ∀ i < 4, a (p + i) = b (q + i)) : wordAt a p = wordAt b q := by
  have h₀ := h 0 (by decide)
  rw [Nat.add_zero, Nat.add_zero] at h₀
  rw [wordAt, wordAt, Buffer.intAt, Buffer.intAt, h₀, h 1 (by decide), h 2 (by decide),
    h 3 (by decide)]

/-- **A word is read as it has been written.** -/
theorem wordAt_eq {w : BitVec 32} (h : ∀ k < 4, b (p + k) = intByte w.toNat k) :
    wordAt b p = w := by
  rw [wordAt, Buffer.intAt_eq h w.isLt, BitVec.ofNat_toNat, BitVec.setWidth_eq]

theorem mailHeader_congr (h : ∀ i < 12, a (p + i) = b (q + i)) :
    MailHeader.decode a p = MailHeader.decode b q := by
  have hword : ∀ j ≤ 8, wordAt a (p + j) = wordAt b (q + j) := by
    intro j hj
    refine wordAt_congr fun i hi => ?_
    rw [Nat.add_assoc, Nat.add_assoc]
    exact h (j + i) (by omega)
  have h₀ := hword 0 (by decide)
  rw [Nat.add_zero, Nat.add_zero] at h₀
  rw [MailHeader.decode, MailHeader.decode, h₀, hword 4 (by decide), hword 8 (by decide)]

/-- The words of a header. -/
theorem header_words {x y z : BitVec 32} (h : ∀ o < 12, b (p + o) = headerBytes x y z o) :
    wordAt b p = x ∧ wordAt b (p + 4) = y ∧ wordAt b (p + 8) = z := by
  have hdiv : ∀ j k, k < 4 → (4 * j + k) / 4 = j ∧ (4 * j + k) % 4 = k := by omega
  refine ⟨wordAt_eq fun k hk => ?_, wordAt_eq fun k hk => ?_, wordAt_eq fun k hk => ?_⟩
  · have hbyte := h (4 * 0 + k) (by omega)
    rw [headerBytes, (hdiv 0 k hk).1, (hdiv 0 k hk).2, if_pos rfl] at hbyte
    rwa [Nat.mul_zero, Nat.zero_add] at hbyte
  · have hbyte := h (4 * 1 + k) (by omega)
    rw [headerBytes, (hdiv 1 k hk).1, (hdiv 1 k hk).2, if_neg (by decide), if_pos rfl] at hbyte
    rwa [Nat.add_assoc]
  · have hbyte := h (4 * 2 + k) (by omega)
    rw [headerBytes, (hdiv 2 k hk).1, (hdiv 2 k hk).2, if_neg (by decide),
      if_neg (by decide)] at hbyte
    rwa [Nat.add_assoc]

theorem mailHeader_encode (h : ∀ o < 12, b (p + o) = mailHdr.encode o) :
    MailHeader.decode b p = mailHdr := by
  obtain ⟨hto, hfrom, hlength⟩ := header_words h
  rw [MailHeader.decode, hto, hfrom, hlength]

theorem packetHeader_encode (h : ∀ o < 12, b (p + o) = pktHdr.encode o) :
    PacketHeader.decode b p = pktHdr := by
  obtain ⟨hto, hfrom, hlength⟩ := header_words h
  rw [PacketHeader.decode, hto, hfrom, hlength]

/-- The packet holds a mail header and the text that it announces. -/
structure Sound (numBoxes : ℕ) (pktHdr : PacketHeader) (b : Buffer) (p : ℕ) : Prop where
  legal : (MailHeader.decode b p).Legal numBoxes
  length : pktHdr.length.toNat = (MailHeader.decode b p).length.toNat + 12

variable {numBoxes : ℕ}

theorem Sound.congr (h : Sound numBoxes pktHdr a p)
    (hbytes : ∀ i < pktHdr.length.toNat, b (q + i) = a (p + i)) : Sound numBoxes pktHdr b q := by
  have hlength := h.length
  have hdecode : MailHeader.decode b q = MailHeader.decode a p :=
    mailHeader_congr fun i hi => hbytes i (by omega)
  exact ⟨by rw [hdecode]; exact h.legal, by rw [hdecode]; exact h.length⟩

/-- A letter is copied with its bytes. -/
theorem Sound.letterAt_congr (h : Sound numBoxes pktHdr a p)
    (hbytes : ∀ i < pktHdr.length.toNat, b (q + i) = a (p + i)) :
    letterAt pktHdr b q = letterAt pktHdr a p := by
  have hlength := h.length
  have hdecode : MailHeader.decode b q = MailHeader.decode a p :=
    mailHeader_congr fun i hi => hbytes i (by omega)
  rw [letterAt, letterAt, hdecode]
  congr 1
  refine bytesAt_congr fun i hi => ?_
  rw [Nat.add_assoc, Nat.add_assoc]
  exact hbytes (12 + i) (by omega)

end Bytes

/-! ## The postal worker -/

/-- Points that only the worker reaches. -/
def PostPoint.Delivering : PostPoint → Prop
  | .receiving | .delivering _ | .inList _ (.appending _) => True
  | _ => False

/-- Between `messageAvailable->P` and `network->Receive` there is a packet that is the worker's
if it does not wait for it. -/
def PostPoint.Owns {T S L C : Type*} (value buffered : ℤ) (pc : Pc T (PostSemaphore S) L C) :
    PostPoint → Prop
  | .receiving =>
      pc = .inP .messageAvailable ∧ value = buffered ∨ pc.Open ∧ value = 0 ∧ buffered = 1
  | _ => value = buffered

/-- The number of packets in the device. -/
def PostData.buffered (data : PostData) : ℤ := if data.inHdr.length = 0 then 0 else 1

variable {T S L C : Type*}

/-- The letter that is in the device. -/
def PostData.letters (data : PostData) : List Letter :=
  if data.inHdr.length = 0 then [] else [letterAt data.inHdr data.inbox 0]

/-- What the worker has in hand, and for which mailbox. -/
def PostPoint.inHand (data : PostData) : PostPoint → List (ℕ × Letter)
  | .delivering pktHdr => [(letterAt pktHdr data.buffer 0).boxed]
  | .inList box (.appending mail) => [(box, mail.letter)]
  | _ => []

/-- The letters that have been read from the socket. -/
def readLetters (log : List (PostEvent T)) : List Letter :=
  log.filterMap fun
    | .read packet => some (packetLetter packet)
    | _ => none

/-- Those that the worker has taken from the device. -/
def takenLetters (log : List (PostEvent T)) : List Letter :=
  log.filterMap fun
    | .taken pktHdr buffer => some (letterAt pktHdr buffer 0)
    | _ => none

/-- Those that have been put in a mailbox, and in which one. -/
def putLetters (log : List (PostEvent T)) : List (ℕ × Letter) :=
  log.filterMap fun
    | .box box (.appended _ mail) => some (box, mail.letter)
    | _ => none

/-- Packets from the wire are sound, and are for this machine. -/
def SoundReads (numBoxes : ℕ) (ident : NetworkAddress)
    (_ : List (List (MachineEvent T S L C))) (_ : Machine T S L C) :
    Move T (PostSemaphore S) (PostLock L) (PostCondition C) (PostChoice T S L C)
      (PostInterrupt S) → Prop
  | .interrupt (.checkPktAvail (some packet)) =>
      (PacketHeader.decode packet 0).to = ident ∧
        Sound numBoxes (PacketHeader.decode packet 0) packet 12
  | _ => True

variable [DecidableEq T] [DecidableEq S] [DecidableEq L] [DecidableEq C]

section Steps

variable {numBoxes : ℕ} {worker t : T} {ident : NetworkAddress} {s s' : Machine T S L C}
  {es : List (MachineEvent T S L C)} {tr : List (List (MachineEvent T S L C))}
  {m : Move T (PostSemaphore S) (PostLock L) (PostCondition C) (PostChoice T S L C)
    (PostInterrupt S)} {data data' : PostData} {point next : PostPoint} {op : PostOp T S L C}
  {events : List (PostEvent T)} {i : PostInterrupt S} {sem : Option (PostSemaphore S)}

omit [DecidableEq T] [DecidableEq S] in
theorem PostCalls.delivering (h : PostCalls numBoxes ident worker t data point op next)
    (hpoint : point.Delivering → t = worker) (hnext : next.Delivering) : t = worker := by
  cases h with
  | awaitMail ht => exact ht
  | put _ _ _ _ => exact hpoint trivial
  | @list box point next op hgo =>
      have hact : (synchList (.list box) (.listEmpty box) : Program T (PostSemaphore S)
        (PostLock L) (PostCondition C) _ _ _ _ _).act t point (data.boxes box) none =
          some (.call op next) := hgo
      rcases synchList_call hact with ⟨rfl, -⟩ | ⟨-, -, rfl⟩ | ⟨-, -, rfl⟩ | ⟨-, -, -, rfl⟩ |
        ⟨_, -, -, rfl⟩
      · cases hgo
      all_goals exact hnext.elim
  | awaitSent _ | unlock _ | send _ _ _ _ _ _ | receive _ _ | other _ _ => exact hnext.elim

omit [DecidableEq T] [DecidableEq S] in
theorem PostGoes.delivering
    (h : PostGoes (S := S) (L := L) (C := C) numBoxes ident worker t data point next data' events)
    (hpoint : point.Delivering → t = worker) (hnext : next.Delivering) : t = worker := by
  cases h with
  | take _ => exact hpoint trivial
  | @list box point next list events _ _ hgo =>
      have hact : (synchList (.list box) (.listEmpty box) : Program T (PostSemaphore S)
        (PostLock L) (PostCondition C) _ _ _ _ _).act t point (data.boxes box) none =
          some (.go next list events) := hgo
      rcases synchList_go hact with ⟨_, -, rfl, -⟩ | ⟨-, rfl, -⟩ | ⟨-, -, rfl, -⟩ |
        ⟨-, -, rfl, -⟩ | ⟨_, -, -, rfl, -⟩ | ⟨_, -, rfl, -⟩
      all_goals exact hnext.elim
  | illegal _ | appended _ | get _ | getFails _ | lose _ | transmit _ _ | «return» _ | abort _ =>
      exact hnext.elim

/-- Only the worker takes packets and puts them in mailboxes. -/
theorem delivering_step (h : ∀ t, (s.point t).Delivering → t = worker)
    (hs : Program.Steps (machine numBoxes worker ident) s m s' es) :
    ∀ t, (s'.point t).Delivering → t = worker := by
  intro t ht
  cases hs with
  | call hact _ =>
      rcases Program.of_update (q := PostPoint.Delivering) ht with ⟨rfl, hnext⟩ | ⟨-, hold⟩
      · exact (machine_call hact).delivering (h _) hnext
      · exact h t hold
  | go _ _ hact =>
      rcases Program.of_update (q := PostPoint.Delivering) ht with ⟨rfl, hnext⟩ | ⟨-, hold⟩
      · exact (machine_go hact).delivering (h _) hnext
      · exact h t hold
  | kernel _ _ | interrupt _ _ | device _ => exact h t ht

/-- What a thread knows between `Send` and `network->Send`. -/
def PostPoint.Sealed (numBoxes : ℕ) (ident : NetworkAddress) : PostPoint → Prop
  | .sending hdr mailHdr text buffer => mailHdr.Legal numBoxes ∧ hdr.from = ident ∧
      hdr.length = mailHdr.length + 12 ∧ (∀ o < 12, buffer o = mailHdr.encode o) ∧
      ∀ i < mailHdr.length.toNat, buffer (12 + i) = text i
  | _ => True

omit [DecidableEq T] [DecidableEq S] [DecidableEq L] [DecidableEq C] in
theorem PostCalls.sealed (h : PostCalls numBoxes ident worker t data point op next) :
    next.Sealed numBoxes ident := by
  cases h with
  | send _ hlegal hfrom hlength hheader htext => exact ⟨hlegal, hfrom, hlength, hheader, htext⟩
  | _ => trivial

omit [DecidableEq T] [DecidableEq S] [DecidableEq L] [DecidableEq C] in
theorem PostGoes.sealed (h : PostGoes (S := S) (L := L) (C := C) numBoxes ident worker t data point
    next data' events) : next.Sealed numBoxes ident := by
  cases h <;> trivial

theorem sealed_step (h : ∀ t, (s.point t).Sealed numBoxes ident)
    (hs : Program.Steps (machine numBoxes worker ident) s m s' es) :
    ∀ t, (s'.point t).Sealed numBoxes ident := by
  intro t
  have hupdate : ∀ {next : PostPoint}, next.Sealed numBoxes ident →
      (Function.update s.point s.kernel.currentThread next t).Sealed numBoxes ident := by
    intro next hnext
    rw [Function.update_apply]
    split
    · exact hnext
    · exact h t
  cases hs with
  | call hact _ => exact hupdate (machine_call hact).sealed
  | go _ _ hact => exact hupdate (machine_go hact).sealed
  | kernel _ _ | interrupt _ _ | device _ => exact h t

/-! ### The semaphore -/

/-- What `messageAvailable` has to do with the device. -/
structure Available (worker : T) (s : Machine T S L C) : Prop where
  only : ∀ t, s.kernel.pc t = .inP .messageAvailable → t = worker ∧ s.point t = .receiving
  owns : (s.point worker).Owns (s.kernel.semaphores .messageAvailable).value s.data.buffered
    (s.kernel.pc worker)

omit [DecidableEq T] [DecidableEq S] [DecidableEq L] [DecidableEq C] in
/-- Nobody but the worker calls `P` on the semaphore, and no thread calls `V`. -/
theorem PostCalls.awaits (h : PostCalls numBoxes ident worker t data point op next) :
    point ≠ .receiving ∧ op ≠ .v .messageAvailable ∧
      (op = .p .messageAvailable ∧ t = worker ∧ next = .receiving ∨
        op ≠ .p .messageAvailable ∧ next ≠ .receiving) := by
  cases h with
  | awaitMail ht => exact ⟨nofun, nofun, .inl ⟨rfl, ht, rfl⟩⟩
  | put _ _ _ _ | awaitSent _ | unlock _ | send _ _ _ _ _ _ | receive _ _ =>
      exact ⟨nofun, nofun, .inr ⟨nofun, nofun⟩⟩
  | other _ hforeign =>
      refine ⟨nofun, ?_, .inr ⟨?_, nofun⟩⟩
      all_goals
        rintro rfl
        cases hforeign
  | @list box point next op hgo =>
      refine ⟨nofun, ?_, .inr ⟨?_, nofun⟩⟩
      all_goals
        rintro rfl
        cases point with
        | testing =>
            simp only [ListPoint.goOn] at hgo
            split at hgo <;> cases hgo
        | removing =>
            simp only [ListPoint.goOn] at hgo
            split at hgo <;> cases hgo
        | _ => cases hgo

omit [DecidableEq T] [DecidableEq S] [DecidableEq L] [DecidableEq C] in
theorem PostPoint.Owns.value {value buffered : ℤ}
    {pc pc' : Pc T (PostSemaphore S) (PostLock L) (PostCondition C)}
    (h : point.Owns value buffered pc) (hpoint : point ≠ .receiving) (hnext : next ≠ .receiving) :
    next.Owns value buffered pc' := by
  cases point with
  | receiving => exact absurd rfl hpoint
  | _ =>
      cases next with
      | receiving => exact absurd rfl hnext
      | _ => exact h

omit [DecidableEq T] [DecidableEq S] [DecidableEq L] [DecidableEq C] in
/-- Nothing happens to the worker. -/
theorem PostPoint.Owns.congr {value buffered : ℤ}
    {pc pc' : Pc T (PostSemaphore S) (PostLock L) (PostCondition C)}
    (h : point.Owns value buffered pc)
    (hpc : pc = .inP .messageAvailable → pc' = .inP .messageAvailable)
    (hopen : pc.Open → pc'.Open) : point.Owns value buffered pc' := by
  cases point with
  | receiving => exact h.imp (And.imp_left hpc) (And.imp_left hopen)
  | _ => exact h

theorem PostData.buffered_range (data : PostData) : data.buffered = 0 ∨ data.buffered = 1 := by
  unfold PostData.buffered
  split
  · exact .inl rfl
  · exact .inr rfl

omit [DecidableEq L] [DecidableEq C] in
/-- The worker tests the semaphore. -/
theorem owns_p {k : Kernel T (PostSemaphore S) (PostLock L) (PostCondition C)}
    (hvalue : (k.semaphores .messageAvailable).value = data.buffered) :
    PostPoint.receiving.Owns ((k.p .messageAvailable).1.semaphores .messageAvailable).value
      data.buffered ((k.p .messageAvailable).1.pc k.currentThread) := by
  have hrange := data.buffered_range
  by_cases hzero : (k.semaphores .messageAvailable).value = 0
  · rw [p_zero _ hzero, sleep_pc, sleep_semaphores, setSemaphore_self]
    exact .inl ⟨Function.update_self .., hvalue⟩
  · rw [p_pos _ hzero, leave_pc, leave_semaphores, setSemaphore_self]
    refine .inr ⟨?_, ?_, by omega⟩
    · show (Function.update k.pc k.currentThread _ _).Open
      rw [Function.update_self]
      trivial
    · show decrement _ = 0
      rw [decrement_of_nonneg (by omega)]
      omega

namespace Available

theorem call (h : Available worker s) {k' : Kernel T (PostSemaphore S) (PostLock L)
      (PostCondition C)} {effects : List (Effect T (PostSemaphore S) (PostLock L)
      (PostCondition C))}
    (hcalls : PostCalls numBoxes ident worker s.kernel.currentThread s.data
      (s.point s.kernel.currentThread) op next)
    (hstep : Threads.step s.kernel (.call op) = some (k', effects)) :
    Available worker ⟨k', Function.update s.point s.kernel.currentThread next, s.data⟩ := by
  obtain ⟨hpoint, hv, hp⟩ := hcalls.awaits
  obtain ⟨hcan, hk', -⟩ := Step.called_of_label hstep
  have hs := Step.of_step hstep
  constructor
  · intro t ht
    rcases hs.of_inP ht with hold | hcalled
    · have hne : t ≠ s.kernel.currentThread := by
        rintro rfl
        rw [hcan.2.1] at hold
        cases hold
      show _ ∧ Function.update s.point s.kernel.currentThread next t = _
      rw [Function.update_of_ne hne]
      exact h.only t hold
    · obtain ⟨rfl, -⟩ := hs.called hcalled
      rcases hp with ⟨-, hworker, rfl⟩ | ⟨hne, -⟩
      · exact ⟨hworker, Function.update_self ..⟩
      · exact absurd (Label.call.inj (Step.label_of_called hstep hcalled)) hne
  · have howns := h.owns
    by_cases hcur : worker = s.kernel.currentThread
    · show (Function.update s.point _ next worker).Owns _ _ _
      rw [hcur, Function.update_self]
      rw [hcur] at howns
      rcases hp with ⟨rfl, -, rfl⟩ | ⟨hne, hnext⟩
      · have hvalue : PostPoint.elsewhere.Owns (s.kernel.semaphores .messageAvailable).value
            s.data.buffered (s.kernel.pc s.kernel.currentThread) := howns.value hpoint nofun
        have hvalue : (s.kernel.semaphores .messageAvailable).value = s.data.buffered := hvalue
        rw [show k' = (s.kernel.p .messageAvailable).1 from hk']
        exact owns_p hvalue
      · have hsem : k'.semaphores .messageAvailable = s.kernel.semaphores .messageAvailable := by
          rw [hk']
          exact Step.call_semaphores hne hv
        rw [hsem]
        exact howns.value hpoint hnext
    · have hne : op ≠ .p .messageAvailable := by
        rcases hp with ⟨-, hworker, -⟩ | ⟨hne, -⟩
        · exact absurd hworker.symm hcur
        · exact hne
      have hsem : k'.semaphores .messageAvailable = s.kernel.semaphores .messageAvailable := by
        rw [hk']
        exact Step.call_semaphores hne hv
      show (Function.update s.point _ next worker).Owns _ _ _
      rw [Function.update_of_ne hcur, hsem]
      refine howns.congr (fun hin => ?_) fun hopen => ?_
      · rcases hs.pc (.inl hcur) with heq | ⟨-, hborn, -⟩
        · exact heq.trans hin
        · rw [hin] at hborn
          cases hborn
      · refine hs.open_kept hopen fun op' hcalled => hcur ?_
        exact (hs.called hcalled).1

omit [DecidableEq T] [DecidableEq S] [DecidableEq L] [DecidableEq C] in
/-- Behind `P` the device holds a packet. -/
theorem buffered (h : Available worker s) (hpoint : s.point worker = .receiving)
    (hpc : s.kernel.pc worker = .outside) :
    s.data.inHdr.length ≠ 0 ∧ (s.kernel.semaphores .messageAvailable).value = 0 := by
  have howns := h.owns
  rw [hpoint, hpc] at howns
  rcases howns with ⟨hin, -⟩ | ⟨-, hvalue, hbuffered⟩
  · cases hin
  · refine ⟨fun hlength => ?_, hvalue⟩
    rw [PostData.buffered, if_pos hlength] at hbuffered
    cases hbuffered

omit [DecidableEq T] [DecidableEq S] [DecidableEq L] [DecidableEq C] in
theorem value_range (h : Available worker s) :
    0 ≤ (s.kernel.semaphores .messageAvailable).value ∧
      (s.kernel.semaphores .messageAvailable).value ≤ 1 := by
  have howns := h.owns
  have hrange := s.data.buffered_range
  generalize s.point worker = p at howns
  cases p with
  | receiving => rcases howns with ⟨-, hvalue⟩ | ⟨-, hvalue, -⟩ <;> omega
  | _ =>
      have howns : (s.kernel.semaphores .messageAvailable).value = s.data.buffered := howns
      omega

omit [DecidableEq S] [DecidableEq L] [DecidableEq C] in
theorem go (h : Available worker s) (hdelivering : ∀ t, (s.point t).Delivering → t = worker)
    (hpc : s.kernel.pc s.kernel.currentThread = .outside)
    (hgoes : PostGoes (S := S) (L := L) (C := C) numBoxes ident worker s.kernel.currentThread
      s.data (s.point s.kernel.currentThread) next data events) :
    Available worker ⟨s.kernel, Function.update s.point s.kernel.currentThread next, data⟩ := by
  constructor
  · intro t ht
    have hne : t ≠ s.kernel.currentThread := by
      rintro rfl
      have ht : s.kernel.pc s.kernel.currentThread = .inP .messageAvailable := ht
      rw [hpc] at ht
      cases ht
    show _ ∧ Function.update s.point s.kernel.currentThread next t = _
    rw [Function.update_of_ne hne]
    exact h.only t ht
  · have howns := h.owns
    -- Either the packet is taken, or the device is left alone.
    have hdata : s.point s.kernel.currentThread = .receiving ∧
          next = .delivering s.data.inHdr ∧ data.buffered = 0 ∨
        s.point s.kernel.currentThread ≠ .receiving ∧ next ≠ .receiving ∧
          data.buffered = s.data.buffered := by
      generalize s.point s.kernel.currentThread = p at hgoes
      cases hgoes with
      | take _ => exact .inl ⟨rfl, rfl, rfl⟩
      | abort hp =>
          refine .inr ⟨?_, nofun, rfl⟩
          rcases hp with ⟨rfl, -⟩ | ⟨_, _, _, _, rfl⟩ <;> nofun
      | _ => exact .inr ⟨nofun, nofun, rfl⟩
    show (Function.update s.point _ next worker).Owns _ data.buffered _
    rcases hdata with ⟨hpoint, rfl, hempty⟩ | ⟨hpoint, hnext, hsame⟩
    · obtain rfl := hdelivering s.kernel.currentThread (by rw [hpoint]; trivial)
      rw [Function.update_self, hempty]
      exact (h.buffered hpoint hpc).2
    · rw [hsame]
      by_cases hcur : worker = s.kernel.currentThread
      · rw [hcur] at howns ⊢
        rw [Function.update_self]
        exact howns.value hpoint hnext
      · rw [Function.update_of_ne hcur]
        exact howns

theorem kernel (h : Available worker s) {k' : Kernel T (PostSemaphore S) (PostLock L)
      (PostCondition C)} {effects : List (Effect T (PostSemaphore S) (PostLock L)
      (PostCondition C))} {label : Label T (PostSemaphore S) (PostLock L) (PostCondition C)}
    (hinside : label.inside = true)
    (hstep : Threads.step s.kernel label = some (k', effects)) :
    Available worker ⟨k', s.point, s.data⟩ := by
  have hs := Step.of_step hstep
  have hnot : ∀ t op, .called t op ∉ effects := by
    intro t op hcalled
    rw [Step.label_of_called hstep hcalled] at hinside
    cases hinside
  have howns := h.owns
  refine ⟨fun t ht => h.only t ((hs.of_inP ht).resolve_right (hnot t _)), ?_⟩
  show (s.point worker).Owns _ s.data.buffered _
  by_cases hresume : s.kernel.idle = false ∧ s.kernel.pc s.kernel.currentThread =
      .inP .messageAvailable
  · obtain ⟨hidle, hpc⟩ := hresume
    obtain ⟨rfl, hpoint⟩ := h.only _ hpc
    rw [hpoint, hpc] at howns
    have hvalue := (howns.resolve_right fun hn => hn.1).2
    rw [hpoint, (hs.p_of_current hidle hpc).1]
    exact owns_p hvalue
  · have hsem : k'.semaphores .messageAvailable = s.kernel.semaphores .messageAvailable := by
      refine (Step.inside_semaphores hstep ?_ ?_ _).resolve_right fun hn =>
        hresume ⟨hn.1, hn.2.1⟩
      all_goals
        rintro _ rfl
        cases hinside
    rw [hsem]
    refine howns.congr (fun hin => ?_) fun hopen => hs.open_kept hopen (hnot _)
    have hcur : worker ≠ s.kernel.currentThread ∨ s.kernel.idle = true := by
      by_contra hn
      push Not at hn
      rw [hn.1] at hin
      exact hresume ⟨Bool.eq_false_iff.mpr hn.2, hin⟩
    rcases hs.pc hcur with heq | ⟨-, hborn, -⟩
    · exact heq.trans hin
    · rw [hin] at hborn
      cases hborn

theorem interrupt (h : Available worker s) {k' : Kernel T (PostSemaphore S) (PostLock L)
      (PostCondition C)} {effects : List (Effect T (PostSemaphore S) (PostLock L)
      (PostCondition C))} {sem : PostSemaphore S} (hsound : SoundReads numBoxes ident tr s
      (.interrupt i)) (hhandles : PostHandles ident s.data i data events (some sem))
    (hstep : Threads.step s.kernel (.interrupt sem) = some (k', effects)) :
    Available worker ⟨k', s.point, data⟩ := by
  obtain rfl : k' = (s.kernel.v none sem).1 := by
    simp only [Threads.step] at hstep
    split at hstep
    · exact (Prod.mk.inj (Option.some.inj hstep)).1.symm
    · cases hstep
  have hpc : (s.kernel.v none sem).1.pc = s.kernel.pc := (v_kept _ _ _).2.2.1
  have howns := h.owns
  refine ⟨fun t ht => h.only t ((congrFun hpc t).symm.trans ht), ?_⟩
  show (s.point worker).Owns ((s.kernel.v none sem).1.semaphores _).value data.buffered
    ((s.kernel.v none sem).1.pc worker)
  rw [hpc]
  have hother : sem ≠ .messageAvailable → data.buffered = s.data.buffered →
      (s.point worker).Owns ((s.kernel.v none sem).1.semaphores .messageAvailable).value
        data.buffered (s.kernel.pc worker) := by
    intro hne hdata
    rw [v_semaphores_of_ne _ hne.symm, hdata]
    exact howns
  cases hhandles with
  | sendDone => exact hother (by simp) rfl
  | other _ => exact hother (by simp) rfl
  | @read packet inbox hempty _ =>
      have hlength := hsound.2.length
      rw [v_value]
      have hbefore : s.data.buffered = 0 := if_pos hempty
      have hafter : PostData.buffered { s.data with
          inHdr := PacketHeader.decode packet 0
          inbox := inbox } = 1 := by
        refine if_neg fun hzero => ?_
        have hzero : (PacketHeader.decode packet 0).length = 0 := hzero
        rw [hzero] at hlength
        exact absurd hlength (by simp)
      rw [hafter]
      rw [hbefore] at howns
      generalize s.point worker = p at howns
      cases p with
      | receiving =>
          rcases howns with ⟨hin, hvalue⟩ | ⟨-, -, hone⟩
          · rw [hvalue]
            exact .inl ⟨hin, rfl⟩
          · cases hone
      | _ =>
          have howns : (s.kernel.semaphores .messageAvailable).value = 0 := howns
          show increment (s.kernel.semaphores .messageAvailable).value = 1
          rw [howns]
          rfl

theorem step (h : Available worker s) (hdelivering : ∀ t, (s.point t).Delivering → t = worker)
    (hsound : SoundReads numBoxes ident tr s m)
    (hs : Program.Steps (machine numBoxes worker ident) s m s' es) : Available worker s' := by
  cases hs with
  | call hact hstep => exact h.call (machine_call hact) hstep
  | go _ hpc hact => exact h.go hdelivering hpc (machine_go hact)
  | kernel hinside hstep => exact h.kernel hinside hstep
  | interrupt hhandler hstep => exact h.interrupt hsound (machine_handles hhandler) hstep
  | @device i data events hhandler =>
      have hsame : data.buffered = s.data.buffered := by
        cases machine_handles hhandler with
        | nothing _ => rfl
        | misrouted _ hbad =>
            have hlength := hsound.2.length
            have hlegal : _ ≤ 64 - 12 - 12 := hsound.2.legal.1
            refine absurd ⟨hsound.1, ?_⟩ hbad
            show _ ≤ 64 - 12
            omega
      refine ⟨h.only, ?_⟩
      show (s.point worker).Owns _ data.buffered _
      rw [hsame]
      exact h.owns

end Available

/-! ### Letters on their way -/

/-- Where the letters are that have been read. -/
structure Delivered (numBoxes : ℕ) (worker : T) (log : List (PostEvent T))
    (s : Machine T S L C) : Prop where
  device : s.data.inHdr.length ≠ 0 → Sound numBoxes s.data.inHdr s.data.inbox 0
  hand : ∀ pktHdr, s.point worker = .delivering pktHdr → Sound numBoxes pktHdr s.data.buffer 0
  read : readLetters log = takenLetters log ++ s.data.letters
  put : (takenLetters log).map Letter.boxed =
    putLetters log ++ (s.point worker).inHand s.data
  nonempty : ∀ pktHdr buffer, .taken pktHdr buffer ∈ log → pktHdr.length ≠ 0

omit [DecidableEq T] in
theorem letters_append (log events : List (PostEvent T)) :
    readLetters (log ++ events) = readLetters log ++ readLetters events ∧
    takenLetters (log ++ events) = takenLetters log ++ takenLetters events ∧
    putLetters (log ++ events) = putLetters log ++ putLetters events :=
  ⟨List.filterMap_append, List.filterMap_append, List.filterMap_append⟩

omit [DecidableEq T] [DecidableEq S] in
/-- A call hands nothing over but the mail that has been made of a letter. -/
theorem PostCalls.inHand (h : PostCalls numBoxes ident worker t data point op next) :
    next.inHand data = point.inHand data ∧ ∀ pktHdr, next ≠ .delivering pktHdr := by
  cases h with
  | @put pktHdr m hpktHdr hmailHdr _ hdata =>
      refine ⟨?_, nofun⟩
      have hletter : m.letter = letterAt pktHdr data.buffer 0 := by
        rw [Mail.letter, letterAt, hpktHdr, ← hmailHdr]
        congr 1
        refine bytesAt_congr fun i hi => ?_
        rw [Nat.zero_add, Nat.zero_add]
        exact hdata i hi
      show [(m.mailHdr.to.toNat, m.letter)] = [(letterAt pktHdr data.buffer 0).boxed]
      rw [← hletter]
      rfl
  | @list box point next op hgo =>
      have hact : (synchList (.list box) (.listEmpty box) : Program T (PostSemaphore S)
        (PostLock L) (PostCondition C) _ _ _ _ _).act t point (data.boxes box) none =
          some (.call op next) := hgo
      rcases synchList_call hact with ⟨rfl, -⟩ | ⟨rfl, -, rfl⟩ | ⟨rfl, -, rfl⟩ |
        ⟨rfl, -, -, rfl⟩ | ⟨_, rfl, -, rfl⟩
      · cases hgo
      all_goals exact ⟨rfl, nofun⟩
  | awaitMail _ | awaitSent _ | unlock _ | send _ _ _ _ _ _ | receive _ _ | other _ _ =>
      exact ⟨rfl, nofun⟩

omit [DecidableEq T] [DecidableEq S] in
/-- What is done between calls: a packet is taken from the device, or the mail in hand is put
in its mailbox, or nothing happens to letters. -/
theorem PostGoes.letters
    (h : PostGoes (S := S) (L := L) (C := C) numBoxes ident worker t data point next data' events)
    (hlegal : ∀ pktHdr, point = .delivering pktHdr →
      (MailHeader.decode data.buffer 0).Legal numBoxes) :
    (∃ buffer, point = .receiving ∧ next = .delivering data.inHdr ∧
      events = [.taken data.inHdr buffer] ∧
      (∀ i < data.inHdr.length.toNat, buffer i = data.inbox i) ∧ data' =
        { data with inHdr := { data.inHdr with length := 0 }, buffer := buffer }) ∨
    (data'.inHdr = data.inHdr ∧ data'.inbox = data.inbox ∧ data'.buffer = data.buffer ∧
      readLetters events = [] ∧ takenLetters events = [] ∧
      (∀ pktHdr buffer, .taken pktHdr buffer ∉ events) ∧
      point.inHand data = putLetters events ++ next.inHand data' ∧
      ∀ pktHdr, next ≠ .delivering pktHdr) := by
  cases h with
  | @take buffer hbuffer => exact .inl ⟨buffer, rfl, rfl, rfl, hbuffer, rfl⟩
  | illegal hillegal => exact absurd (hlegal _ rfl) hillegal
  | abort hp =>
      refine .inr ⟨rfl, rfl, rfl, rfl, rfl, by simp, ?_, nofun⟩
      rcases hp with ⟨rfl, -⟩ | ⟨_, _, _, _, rfl⟩ <;> rfl
  | @list box point next list events _ hreturning hgo =>
      right
      have hact : (synchList (.list box) (.listEmpty box) : Program T (PostSemaphore S)
        (PostLock L) (PostCondition C) _ _ _ _ _).act t point (data.boxes box) none =
          some (.go next list events) := hgo
      rcases synchList_go hact with ⟨_, rfl, rfl, -, rfl⟩ | ⟨rfl, rfl, -, rfl⟩ |
        ⟨rfl, -, rfl, -, rfl⟩ | ⟨rfl, -, rfl, -, rfl⟩ | ⟨_, rfl, -, rfl, rfl⟩ | ⟨mail, rfl, -⟩
      case inr.inr.inr.inr.inr => exact absurd rfl (hreturning mail)
      all_goals exact ⟨rfl, rfl, rfl, rfl, rfl, by simp, rfl, nofun⟩
  | appended _ | get _ | getFails _ | lose _ | transmit _ _ | «return» _ =>
      exact .inr ⟨rfl, rfl, rfl, rfl, rfl, by simp, rfl, nofun⟩

omit [DecidableEq T] in
theorem PostPoint.inHand_congr (h : data'.buffer = data.buffer) (point : PostPoint) :
    point.inHand data' = point.inHand data := by
  unfold PostPoint.inHand
  rw [h]

namespace Delivered

variable {log : List (PostEvent T)}

omit [DecidableEq S] in
/-- The worker does something, or another thread that has no letter in hand. -/
theorem move (h : Delivered numBoxes worker log s)
    (hdelivering : ∀ t, (s.point t).Delivering → t = worker)
    (hbuffered : s.point s.kernel.currentThread = .receiving → s.data.inHdr.length ≠ 0)
    (hgoes : PostGoes (S := S) (L := L) (C := C) numBoxes ident worker s.kernel.currentThread
      s.data (s.point s.kernel.currentThread) next data events) :
    Delivered numBoxes worker (log ++ events)
      ⟨s.kernel, Function.update s.point s.kernel.currentThread next, data⟩ := by
  obtain ⟨hread, htaken, hput⟩ := letters_append log events
  have hworker : ∀ {p : PostPoint}, s.point s.kernel.currentThread = p → p.Delivering →
      s.kernel.currentThread = worker := by
    rintro _ rfl hp
    exact hdelivering _ hp
  have hlegal : ∀ pktHdr, s.point s.kernel.currentThread = .delivering pktHdr →
      (MailHeader.decode s.data.buffer 0).Legal numBoxes := by
    intro pktHdr hp
    obtain rfl := hworker hp trivial
    exact (h.hand pktHdr hp).legal
  rcases hgoes.letters hlegal with
    ⟨buffer, hpoint, rfl, rfl, hbytes, rfl⟩ |
    ⟨hinHdr, hinbox, hbuffer, hnoread, hnotaken, hnone, hhand, hnext⟩
  · obtain rfl := hworker hpoint trivial
    have hsound := h.device (hbuffered hpoint)
    have hletter : letterAt s.data.inHdr buffer 0 = letterAt s.data.inHdr s.data.inbox 0 := by
      refine hsound.letterAt_congr fun i hi => ?_
      rw [Nat.zero_add]
      exact hbytes i hi
    have hletters : s.data.letters = [letterAt s.data.inHdr buffer 0] := by
      rw [hletter]
      exact if_neg (hbuffered hpoint)
    refine ⟨fun hne => absurd rfl hne, fun pktHdr hp => ?_, ?_, ?_, fun pktHdr b hmem => ?_⟩
    · have hp : Function.update s.point s.kernel.currentThread (.delivering s.data.inHdr)
        s.kernel.currentThread = .delivering pktHdr := hp
      rw [Function.update_self] at hp
      cases hp
      refine hsound.congr fun i hi => ?_
      show buffer (0 + i) = s.data.inbox (0 + i)
      rw [Nat.zero_add]
      exact hbytes i hi
    · rw [hread, htaken, h.read, hletters]
      simp [readLetters, takenLetters, PostData.letters]
    · show _ = _ ++ PostPoint.inHand _ (Function.update s.point _ _ s.kernel.currentThread)
      rw [Function.update_self, htaken, hput, List.map_append, h.put, hpoint]
      simp [takenLetters, putLetters, PostPoint.inHand]
    · rcases List.mem_append.mp hmem with hmem | hmem
      · exact h.nonempty pktHdr b hmem
      · cases List.mem_singleton.mp hmem
        exact hbuffered hpoint
  · refine ⟨fun hne => ?_, fun pktHdr hp => ?_, ?_, ?_, fun pktHdr b hmem => ?_⟩
    · show Sound numBoxes data.inHdr data.inbox 0
      rw [hinHdr, hinbox]
      refine h.device fun hzero => hne ?_
      show data.inHdr.length = 0
      rw [hinHdr, hzero]
    · show Sound numBoxes pktHdr data.buffer 0
      rw [hbuffer]
      rcases Program.of_update (q := fun p : PostPoint => p = .delivering pktHdr) hp with
        ⟨-, hnew⟩ | ⟨-, hold⟩
      · exact absurd hnew (hnext pktHdr)
      · exact h.hand pktHdr hold
    · have hletters : data.letters = s.data.letters := by
        rw [PostData.letters, hinHdr, hinbox]
        rfl
      rw [hread, hnoread, htaken, hnotaken, List.append_nil, List.append_nil, h.read]
      show _ = _ ++ data.letters
      rw [hletters]
    · show _ = _ ++ PostPoint.inHand data (Function.update s.point _ next worker)
      rw [htaken, hnotaken, List.append_nil, h.put, hput, List.append_assoc]
      by_cases hcur : worker = s.kernel.currentThread
      · subst hcur
        rw [Function.update_self, hhand]
      · have hempty : (s.point s.kernel.currentThread).inHand s.data = [] := by
          have hnot : ¬ (s.point s.kernel.currentThread).Delivering := fun hp =>
            hcur (hdelivering _ hp).symm
          revert hnot
          generalize s.point s.kernel.currentThread = p
          intro hnot
          unfold PostPoint.inHand
          split <;> first | exact absurd trivial hnot | rfl
        rw [hempty] at hhand
        rw [Function.update_of_ne hcur, (List.append_eq_nil_iff.mp hhand.symm).1,
          List.nil_append, PostPoint.inHand_congr hbuffer]
    · rcases List.mem_append.mp hmem with hmem | hmem
      · exact h.nonempty pktHdr b hmem
      · exact absurd hmem (hnone pktHdr b)

theorem step (h : Delivered numBoxes worker log s)
    (hdelivering : ∀ t, (s.point t).Delivering → t = worker) (havailable : Available worker s)
    (hsound : SoundReads numBoxes ident tr s m)
    (hs : Program.Steps (machine numBoxes worker ident) s m s' es) :
    Delivered numBoxes worker (log ++ Program.ownLog es) s' := by
  cases hs with
  | @call choice op next k' effects hact hstep =>
      rw [Program.ownLog_map, List.append_nil]
      obtain ⟨hhand, hnext⟩ := (machine_call hact).inHand
      refine ⟨h.device, fun pktHdr hp => ?_, h.read, ?_, h.nonempty⟩
      · rcases Program.of_update (q := fun p : PostPoint => p = .delivering pktHdr) hp with
          ⟨-, hnew⟩ | ⟨-, hold⟩
        · exact absurd hnew (hnext pktHdr)
        · exact h.hand pktHdr hold
      · show _ = _ ++ PostPoint.inHand s.data (Function.update s.point _ next worker)
        rw [h.put, Function.update_apply]
        split
        · rename_i hcur
          rw [hhand, hcur]
        · rfl
  | go _ hpc hact =>
      rw [Program.ownLog_own]
      refine h.move hdelivering (fun hpoint => ?_) (machine_go hact)
      obtain rfl := hdelivering s.kernel.currentThread (by rw [hpoint]; trivial)
      exact (havailable.buffered hpoint hpc).1
  | kernel _ _ =>
      rw [Program.ownLog_map, List.append_nil]
      exact ⟨h.device, h.hand, h.read, h.put, h.nonempty⟩
  | @interrupt i data events sem k' effects hhandler hstep =>
      rw [Program.ownLog_append, Program.ownLog_own, Program.ownLog_map, List.append_nil]
      cases machine_handles hhandler with
      | sendDone | other _ =>
          rw [List.append_nil]
          exact ⟨h.device, h.hand, h.read, h.put, h.nonempty⟩
      | @read packet inbox hempty hbytes =>
          obtain ⟨hread, htaken, hput⟩ := letters_append log [.read packet]
          have hcopied : ∀ j < (PacketHeader.decode packet 0).length.toNat,
              inbox (0 + j) = packet (12 + j) := by
            intro j hj
            rw [Nat.zero_add]
            exact hbytes j hj
          have hnone : s.data.letters = [] := if_pos hempty
          have hlength := hsound.2.length
          have hne : (PacketHeader.decode packet 0).length ≠ 0 := by
            intro hzero
            rw [hzero] at hlength
            exact absurd hlength (by simp)
          have hread' := h.read
          rw [hnone, List.append_nil] at hread'
          refine ⟨fun _ => hsound.2.congr hcopied, h.hand, ?_, ?_, fun pktHdr b hmem => ?_⟩
          · rw [hread, htaken, hread']
            show _ ++ [packetLetter packet] = _ ++ [] ++ PostData.letters _
            rw [List.append_nil, PostData.letters, if_neg hne, hsound.2.letterAt_congr hcopied]
            rfl
          · rw [htaken, hput]
            show (takenLetters log ++ []).map Letter.boxed = _ ++ [] ++ PostPoint.inHand _ _
            rw [List.append_nil, List.append_nil, h.put]
            rfl
          · rcases List.mem_append.mp hmem with hmem | hmem
            · exact h.nonempty pktHdr b hmem
            · cases List.mem_singleton.mp hmem
  | @device i data events hhandler =>
      rw [Program.ownLog_own]
      cases machine_handles hhandler with
      | nothing _ =>
          rw [List.append_nil]
          exact ⟨h.device, h.hand, h.read, h.put, h.nonempty⟩
      | misrouted _ hbad =>
          have hlength := hsound.2.length
          have hlegal : _ ≤ 64 - 12 - 12 := hsound.2.legal.1
          refine absurd ⟨hsound.1, ?_⟩ hbad
          show _ ≤ 64 - 12
          omega

end Delivered

end Steps

/-! ## Runs of a machine -/

/-- What `Receive` has returned from a mailbox. -/
def receivedLetters (box : ℕ) (log : List (PostEvent T)) : List Letter :=
  log.filterMap fun
    | .received _ b pktHdr mailHdr data =>
        if b = box then some ⟨pktHdr, mailHdr, bytesAt data 0 mailHdr.length.toNat⟩ else none
    | _ => none

section Runs

variable {numBoxes : ℕ} {worker main : T} {ident : NetworkAddress} {initial : S → ℤ}
  {memory : Buffer} {s s' : Machine T S L C} {tr : List (List (MachineEvent T S L C))}
  {es : List (MachineEvent T S L C)} {m : Move T (PostSemaphore S) (PostLock L)
    (PostCondition C) (PostChoice T S L C) (PostInterrupt S)}
  {ok : List (List (MachineEvent T S L C)) → Machine T S L C →
    Move T (PostSemaphore S) (PostLock L) (PostCondition C) (PostChoice T S L C)
      (PostInterrupt S) → Prop} {box : ℕ}

theorem delivering_of_run (hrun : Run (machine numBoxes worker ident).step ok
    ((machine numBoxes worker ident).boot main (initialValue initial) (.create memory)) tr s) :
    (∀ t, (s.point t).Delivering → t = worker) ∧ ∀ t, (s.point t).Sealed numBoxes ident := by
  refine hrun.invariant (I := fun _ s => (∀ t, (s.point t).Delivering → t = worker) ∧
    ∀ t, (s.point t).Sealed numBoxes ident) ⟨nofun, fun _ => trivial⟩ fun h _ hs => ?_
  exact ⟨delivering_step h.1 (.of_step hs), sealed_step h.2 (.of_step hs)⟩

theorem delivered_of_run (hrun : Run (machine numBoxes worker ident).step
    (SoundReads numBoxes ident)
    ((machine numBoxes worker ident).boot main (initialValue initial) (.create memory)) tr s) :
    Available worker s ∧ Delivered numBoxes worker (Program.ownLog tr.flatten) s := by
  refine hrun.invariant_with (I := fun tr s => Available worker s ∧
    Delivered numBoxes worker (Program.ownLog tr.flatten) s)
    (fun hrun => (delivering_of_run hrun).1) ⟨⟨?_, rfl⟩, ?_⟩ ?_
  · intro t ht
    have ht : Function.update (fun _ => Pc.unborn) main .outside t = _ := ht
    rw [Function.update_apply] at ht
    split at ht <;> cases ht
  · exact ⟨fun hne => absurd rfl hne, nofun, rfl, rfl, nofun⟩
  · rintro tr s m s' es hdelivering ⟨havailable, h⟩ hsound hs
    rw [List.flatten_append, List.flatten_singleton, Program.ownLog_append]
    have hs := Program.Steps.of_step hs
    exact ⟨havailable.step hdelivering hsound hs, h.step hdelivering havailable hsound hs⟩

/-- No packet is missed. -/
theorem claimed_of_run (hrun : Run (machine numBoxes worker ident).step
    (SoundReads numBoxes ident)
    ((machine numBoxes worker ident).boot main (initialValue initial) (.create memory)) tr s) :
    (s.kernel.semaphores .messageAvailable).queue ≠ [] →
      (s.kernel.semaphores .messageAvailable).value ≤
        (s.kernel.woken .messageAvailable).length := by
  refine hrun.invariant_with (J := fun _ s => Placed s.kernel ∧ Available worker s)
    (I := fun _ s => (s.kernel.semaphores .messageAvailable).queue ≠ [] →
      (s.kernel.semaphores .messageAvailable).value ≤ (s.kernel.woken .messageAvailable).length)
    (fun hrun => ?_) (fun hne => absurd rfl hne) ?_
  · obtain ⟨_, hrun'⟩ := Program.kernel_run hrun
    exact ⟨placed_of_run hrun', (delivered_of_run hrun).1⟩
  · rintro tr s m s' es ⟨hplaced, havailable⟩ h _ hs
    obtain ⟨hnonneg, hle⟩ := havailable.value_range
    rcases (Program.Steps.of_step hs).kernel_step with ⟨label, hstep⟩ | ⟨heq, -⟩
    · exact claimed_step hplaced (.of_step hstep) hnonneg h fun _ => by omega
    · rwa [heq]

/-- As long as the device holds a packet, the worker does not sleep for one. -/
theorem awake_of_run (hrun : Run (machine numBoxes worker ident).step
    (SoundReads numBoxes ident)
    ((machine numBoxes worker ident).boot main (initialValue initial) (.create memory)) tr s)
    (hlength : s.data.inHdr.length ≠ 0) :
    worker ∉ (s.kernel.semaphores .messageAvailable).queue := by
  intro hmem
  obtain ⟨tr', hrun'⟩ := Program.kernel_run hrun
  have hplaced := placed_of_run hrun'
  have havailable := (delivered_of_run hrun).1
  have hq : (s.kernel.pc worker).queue = some (.semaphore .messageAvailable) :=
    (hplaced.of_mem (q := .semaphore .messageAvailable) hmem nofun).2
  have hpc : s.kernel.pc worker = .inP .messageAvailable := by
    cases hpc : s.kernel.pc worker <;> simp_all [Pc.queue]
  have hclaimed := claimed_of_run hrun (List.ne_nil_of_mem hmem)
  have hwoken : s.kernel.woken .messageAvailable = [] := by
    refine List.eq_nil_iff_forall_not_mem.mpr fun t ht => ?_
    obtain ⟨hpc', hout⟩ := hplaced.mem_woken.mp ht
    obtain ⟨rfl, -⟩ := havailable.only t hpc'
    exact hout hmem
  rw [hwoken] at hclaimed
  have howns := havailable.owns
  rw [(havailable.only worker hpc).2, hpc] at howns
  have hvalue := (howns.resolve_right fun hn => hn.1).2
  rw [show s.data.buffered = 1 from if_neg hlength] at hvalue
  have hzero : ((([] : List T).length : ℕ) : ℤ) = 0 := rfl
  omega

/-- What `Receive` returns is the mail that `Remove` has returned. -/
theorem received_sublist (hs : Program.Steps (machine numBoxes worker ident) s m s' es) :
    (receivedLetters box (Program.ownLog es)).Sublist
      ((returnedItems (boxLog box (Program.ownLog es))).map Mail.letter) := by
  have hnone : ∀ {events : List (PostEvent T)}, receivedLetters box events = [] →
      (receivedLetters box events).Sublist
        ((returnedItems (boxLog box events)).map Mail.letter) := by
    intro events hnil
    rw [hnil]
    exact List.nil_sublist _
  cases hs with
  | call _ _ | kernel _ _ =>
      rw [Program.ownLog_map]
      exact hnone rfl
  | go _ _ hact =>
      rw [Program.ownLog_own]
      generalize s.point s.kernel.currentThread = p at hact
      cases machine_go hact with
      | @get b mail text htext =>
          by_cases hb : b = box
          · have htext : bytesAt text 0 mail.mailHdr.length.toNat =
                bytesAt mail.data 0 mail.mailHdr.length.toNat := by
              refine bytesAt_congr fun i hi => ?_
              rw [Nat.zero_add]
              exact htext i hi
            simp [receivedLetters, returnedItems, boxLog, hb, htext, Mail.letter]
          · simp [receivedLetters, hb]
      | list _ _ _ =>
          refine hnone ?_
          rw [receivedLetters, List.filterMap_map]
          exact List.filterMap_none _
      | take _ | illegal _ | appended _ | getFails _ | lose _ | transmit _ _ | «return» _ | abort _ =>
          exact hnone rfl
  | interrupt hhandler _ =>
      rw [Program.ownLog_append, Program.ownLog_own, Program.ownLog_map, List.append_nil]
      cases machine_handles hhandler <;> exact hnone rfl
  | device hhandler =>
      rw [Program.ownLog_own]
      cases machine_handles hhandler <;> exact hnone rfl

omit [DecidableEq T] [DecidableEq S] [DecidableEq L] [DecidableEq C] in
/-- What has been put in a mailbox has been appended to its list. -/
theorem putLetters_box (box : ℕ) (log : List (PostEvent T)) :
    ((putLetters log).filter fun p => p.1 = box).map Prod.snd =
      (appendedItems (boxLog box log)).map Mail.letter := by
  rw [putLetters, List.filter_filterMap, List.map_filterMap, appendedItems, boxLog,
    List.filterMap_filterMap, List.map_filterMap]
  refine List.filterMap_congr fun e _ => ?_
  cases e with
  | box b e =>
      dsimp only
      by_cases hb : b = box
      · rw [if_pos hb]
        cases e with
        | appended t mail => simp [hb]
        | _ => rfl
      · rw [if_neg hb]
        cases e with
        | appended t mail => simp [hb]
        | _ => rfl
  | _ => rfl

/-- **A mailbox hands out what has been put in it**, each letter to one `Receive` at most. -/
theorem received_of_run (hrun : Run (machine numBoxes worker ident).step ok
    ((machine numBoxes worker ident).boot main (initialValue initial) (.create memory)) tr s) :
    (receivedLetters box (Program.ownLog tr.flatten)).Subperm
      (((putLetters (Program.ownLog tr.flatten)).filter fun p => p.1 = box).map Prod.snd) := by
  have hsub : (receivedLetters box (Program.ownLog tr.flatten)).Sublist
      ((returnedItems (boxLog box (Program.ownLog tr.flatten))).map Mail.letter) := by
    refine hrun.invariant (I := fun tr _ => (receivedLetters box (Program.ownLog tr.flatten)).Sublist
      ((returnedItems (boxLog box (Program.ownLog tr.flatten))).map Mail.letter))
      (List.nil_sublist _) fun h _ hs => ?_
    rw [List.flatten_append, List.flatten_singleton, Program.ownLog_append, boxLog_append,
      receivedLetters, List.filterMap_append, returnedItems, List.filterMap_append, List.map_append]
    exact h.append (received_sublist (.of_step hs))
  obtain ⟨tr', hrun', hlog⟩ := box_run box hrun
  have hfifo := (fifo_of_run hrun').returned_subperm
  rw [hlog] at hfifo
  refine hsub.subperm.trans ?_
  rw [putLetters_box]
  exact Multiset.coe_le.mp (Multiset.map_le_map (Multiset.coe_le.mpr hfifo))

end Runs

end Nachos.Network.Post
