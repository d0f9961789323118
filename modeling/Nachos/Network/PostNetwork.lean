import Mathlib
import Nachos.Network.PostDelivery

/-!
# Machines on a wire

The wire holds the packets that have been sent and not been read. A machine that polls its
socket is given one of those that are addressed to it. Whatever is sent from one machine to
another is read with the headers and the text it was sent with, so what `Receive` returns has
been sent, and the address it comes from is that of the sender.
-/

namespace Nachos.Network.Post

open Nachos.Lib Nachos.Threads

variable {T S L C : Type*}

abbrev MachineMove (T S L C : Type*) :=
  Move T (PostSemaphore S) (PostLock L) (PostCondition C) (PostChoice T S L C) (PostInterrupt S)

structure Net (T S L C : Type*) where
  machines : NetworkAddress → Machine T S L C
  /-- Packets with the address they are for. -/
  wire : List (NetworkAddress × Buffer)

inductive NetMove (T S L C : Type*) where
  /-- A step of a machine that reads nothing from the wire. -/
  | move (ident : NetworkAddress) (m : MachineMove T S L C)
  /-- `CheckPktAvail`, when the socket holds the packet with the index. -/
  | poll (ident : NetworkAddress) (k : ℕ)

/-- The move is a poll that finds a packet. -/
def arrives : MachineMove T S L C → Bool
  | .interrupt (.checkPktAvail (some _)) => true
  | _ => false

/-- The packets that a step puts on the wire. -/
def packets (events : List (PostEvent T)) : List (NetworkAddress × Buffer) :=
  events.filterMap fun
    | .sent _ dest _ _ packet => some (dest, packet)
    | _ => none

variable [DecidableEq T] [DecidableEq S] [DecidableEq L] [DecidableEq C]

def netStep (numBoxes : ℕ) (worker : T) (g : Net T S L C) :
    NetMove T S L C → Option (Net T S L C × NetworkAddress × List (MachineEvent T S L C))
  | .move ident m =>
      if arrives m then none
      else ((machine numBoxes worker ident).step (g.machines ident) m).map fun r =>
        (⟨Function.update g.machines ident r.1, g.wire ++ packets (Program.ownLog r.2)⟩, ident, r.2)
  | .poll ident k =>
      match g.wire[k]? with
      | some (dest, packet) =>
          if dest = ident then
            ((machine numBoxes worker ident).step (g.machines ident)
              (.interrupt (.checkPktAvail (some packet)))).map fun r =>
                -- The packet stays where it is if the device still holds another one.
                (⟨Function.update g.machines ident r.1,
                  if (readLetters (Program.ownLog r.2)).isEmpty then g.wire
                  else g.wire.eraseIdx k⟩, ident, r.2)
          else none
      | none => none

def netBoot (numBoxes : ℕ) (worker main : T) (initial : S → ℤ)
    (memory : NetworkAddress → Buffer) : Net T S L C :=
  ⟨fun ident => (machine numBoxes worker ident).boot main (initialValue initial)
    (.create (memory ident)), []⟩

/-- What a machine does. -/
def machineTrace (ident : NetworkAddress)
    (tr : List (NetworkAddress × List (MachineEvent T S L C))) :
    List (List (MachineEvent T S L C)) :=
  tr.filterMap fun e => if e.1 = ident then some e.2 else none

/-- What happens in its post office. -/
def machineLog (ident : NetworkAddress)
    (tr : List (NetworkAddress × List (MachineEvent T S L C))) : List (PostEvent T) :=
  Program.ownLog (machineTrace ident tr).flatten

/-- The letters to a machine that one of the machines sends. -/
def lettersTo (dest ident : NetworkAddress) (events : List (PostEvent T)) : List Letter :=
  events.filterMap fun
    | .sent _ addr mailHdr data _ =>
        if addr = dest then
          some ⟨⟨addr, ident, mailHdr.length + 12⟩, mailHdr,
            bytesAt data 0 mailHdr.length.toNat⟩
        else none
    | _ => none

/-- All letters that have been sent to the machine. -/
def sentLetters (dest : NetworkAddress)
    (tr : List (NetworkAddress × List (MachineEvent T S L C))) : List Letter :=
  tr.flatMap fun e => lettersTo dest e.1 (Program.ownLog e.2)

/-- The letters to the machine on the wire. -/
def wireLetters (dest : NetworkAddress) (wire : List (NetworkAddress × Buffer)) : List Letter :=
  (wire.filter fun p => p.1 = dest).map fun p => packetLetter p.2

/-- The packet is for the address, and holds what its headers say. -/
def SoundPacket (numBoxes : ℕ) (p : NetworkAddress × Buffer) : Prop :=
  (PacketHeader.decode p.2 0).to = p.1 ∧ Sound numBoxes (PacketHeader.decode p.2 0) p.2 12

section Steps

variable {numBoxes : ℕ} {worker : T} {ident : NetworkAddress} {s s' : Machine T S L C}
  {es : List (MachineEvent T S L C)} {m : MachineMove T S L C}

/-! ## One step of a machine -/

/-- **What is sent is what the wire is given.** -/
theorem packet_sealed {hdr : PacketHeader} {mailHdr : MailHeader} {text buffer packet : Buffer}
    (h : (PostPoint.sending hdr mailHdr text buffer).Sealed numBoxes ident)
    (hheader : ∀ o < 12, packet o = hdr.encode o)
    (hbytes : ∀ i < hdr.length.toNat, packet (12 + i) = buffer i) :
    SoundPacket numBoxes (hdr.to, packet) ∧ packetLetter packet =
      ⟨⟨hdr.to, ident, mailHdr.length + 12⟩, mailHdr, bytesAt text 0 mailHdr.length.toNat⟩ := by
  obtain ⟨hlegal, hfrom, hlength, hmail, htext⟩ := h
  have hshort : mailHdr.length.toNat ≤ 64 - 12 - 12 := hlegal.1
  have hlengths : hdr.length.toNat = mailHdr.length.toNat + 12 := by
    rw [hlength, BitVec.toNat_add]
    exact Nat.mod_eq_of_lt (by simp; omega)
  have hpacket : PacketHeader.decode packet 0 = hdr := by
    refine packetHeader_encode fun o ho => ?_
    rw [Nat.zero_add]
    exact hheader o ho
  have hdecode : MailHeader.decode packet 12 = mailHdr := by
    refine mailHeader_encode fun o ho => ?_
    rw [hbytes o (by omega)]
    exact hmail o ho
  refine ⟨⟨congrArg PacketHeader.to hpacket, ?_, ?_⟩, ?_⟩
  · rw [hdecode]
    exact hlegal
  · rw [hdecode, hpacket]
    exact hlengths
  · rw [packetLetter, letterAt, hpacket, hdecode, ← hlength, ← hfrom]
    congr 1
    refine bytesAt_congr fun i hi => ?_
    rw [Nat.zero_add, Nat.add_assoc, hbytes (12 + i) (by omega)]
    exact htext i hi

omit [DecidableEq T] in
theorem sound_of_none {events : List (PostEvent T)} (h : packets events = []) :
    ∀ p ∈ packets events, SoundPacket numBoxes p := by
  intro p hp
  rw [h] at hp
  cases hp

theorem wireLetters_singleton (dest : NetworkAddress) (p : NetworkAddress × Buffer) :
    wireLetters dest [p] = if p.1 = dest then [packetLetter p.2] else [] := by
  by_cases hdest : p.1 = dest
  · simp [wireLetters, hdest]
  · simp [wireLetters, hdest]

omit [DecidableEq T] in
theorem lettersTo_sent (dest ident : NetworkAddress) (t : T) (addr : NetworkAddress)
    (mailHdr : MailHeader) (data packet : Buffer) :
    lettersTo dest ident [.sent t addr mailHdr data packet] = if addr = dest then
      [⟨⟨addr, ident, mailHdr.length + 12⟩, mailHdr, bytesAt data 0 mailHdr.length.toNat⟩]
        else [] := by
  by_cases hdest : addr = dest
  · simp [lettersTo, hdest]
  · simp [lettersTo, hdest]

/-- A step that is no poll reads nothing, and sends the letters of its packets. -/
theorem sends_step (hsealed : ∀ t, (s.point t).Sealed numBoxes ident) (harrives : arrives m = false)
    (hs : Program.Steps (machine numBoxes worker ident) s m s' es) :
    readLetters (Program.ownLog es) = [] ∧
      (∀ p ∈ packets (Program.ownLog es), SoundPacket numBoxes p) ∧
      ∀ dest, wireLetters dest (packets (Program.ownLog es)) =
        lettersTo dest ident (Program.ownLog es) := by
  cases hs with
  | call _ _ | kernel _ _ =>
      rw [Program.ownLog_map]
      exact ⟨rfl, sound_of_none rfl, fun _ => rfl⟩
  | go _ _ hact =>
      rw [Program.ownLog_own]
      have hsealed := hsealed s.kernel.currentThread
      generalize s.point s.kernel.currentThread = p at hact hsealed
      cases machine_go hact with
      | @transmit hdr mailHdr text buffer packet hheader hbytes =>
          obtain ⟨hsound, hletter⟩ := packet_sealed hsealed hheader hbytes
          refine ⟨rfl, fun p hp => ?_, fun dest => ?_⟩
          · rw [List.mem_singleton.mp hp]
            exact hsound
          · have hwire := wireLetters_singleton dest (hdr.to, packet)
            rw [hletter] at hwire
            rw [lettersTo_sent]
            exact hwire
      | @list b _ _ _ events _ _ _ =>
          have hread : readLetters (events.map (PostEvent.box b)) = [] := by
            rw [readLetters, List.filterMap_map]
            exact List.filterMap_none _
          have hpackets : packets (events.map (PostEvent.box b)) = [] := by
            rw [packets, List.filterMap_map]
            exact List.filterMap_none _
          have hletters : ∀ dest, lettersTo dest ident (events.map (PostEvent.box b)) = [] := by
            intro dest
            rw [lettersTo, List.filterMap_map]
            exact List.filterMap_none _
          refine ⟨hread, sound_of_none hpackets, fun dest => ?_⟩
          rw [hpackets, hletters]
          rfl
      | take _ | illegal _ | appended _ | get _ | getFails _ | lose _ | «return» _ | abort _ =>
          exact ⟨rfl, sound_of_none rfl, fun _ => rfl⟩
  | interrupt hhandler _ =>
      rw [Program.ownLog_append, Program.ownLog_own, Program.ownLog_map, List.append_nil]
      cases machine_handles hhandler with
      | read _ _ => cases harrives
      | sendDone | other _ => exact ⟨rfl, sound_of_none rfl, fun _ => rfl⟩
  | device hhandler =>
      rw [Program.ownLog_own]
      cases machine_handles hhandler with
      | misrouted _ _ => cases harrives
      | nothing _ => exact ⟨rfl, sound_of_none rfl, fun _ => rfl⟩

/-- A poll that finds a packet reads it or leaves it, and sends nothing. -/
theorem polls_step {packet : Buffer} (hs : Program.Steps (machine numBoxes worker ident) s
    (.interrupt (.checkPktAvail (some packet))) s' es) :
    (readLetters (Program.ownLog es) = [] ∨
        readLetters (Program.ownLog es) = [packetLetter packet]) ∧
      ∀ dest, lettersTo dest ident (Program.ownLog es) = [] := by
  cases hs with
  | interrupt hhandler _ =>
      rw [Program.ownLog_append, Program.ownLog_own, Program.ownLog_map, List.append_nil]
      cases machine_handles hhandler with
      | read _ _ => exact ⟨.inr rfl, fun _ => rfl⟩
  | device hhandler =>
      rw [Program.ownLog_own]
      cases machine_handles hhandler with
      | nothing _ => exact ⟨.inl rfl, fun _ => rfl⟩
      | misrouted _ _ => exact ⟨.inr rfl, fun _ => rfl⟩

/-! ## One step of the network -/

/-- The step of one machine that a step of the network is. -/
inductive NetSteps (numBoxes : ℕ) (worker : T) (g : Net T S L C) :
    Net T S L C → NetworkAddress → List (MachineEvent T S L C) → Prop where
  | move {ident : NetworkAddress} {m : MachineMove T S L C} {s' : Machine T S L C}
      {es : List (MachineEvent T S L C)} : arrives m = false →
      (machine numBoxes worker ident).step (g.machines ident) m = some (s', es) →
      NetSteps numBoxes worker g ⟨Function.update g.machines ident s',
        g.wire ++ packets (Program.ownLog es)⟩ ident es
  | poll {ident : NetworkAddress} {k : ℕ} {packet : Buffer} {s' : Machine T S L C}
      {es : List (MachineEvent T S L C)} : g.wire[k]? = some (ident, packet) →
      (machine numBoxes worker ident).step (g.machines ident)
        (.interrupt (.checkPktAvail (some packet))) = some (s', es) →
      NetSteps numBoxes worker g ⟨Function.update g.machines ident s',
        if (readLetters (Program.ownLog es)).isEmpty then g.wire else g.wire.eraseIdx k⟩ ident es

theorem NetSteps.of_step {g g' : Net T S L C} {mv : NetMove T S L C}
    (hs : netStep numBoxes worker g mv = some (g', ident, es)) :
    NetSteps numBoxes worker g g' ident es := by
  cases mv with
  | move ident m =>
      simp only [netStep] at hs
      split at hs
      · cases hs
      · rename_i harrives
        obtain ⟨⟨s', es'⟩, hstep, heq⟩ := Option.map_eq_some_iff.mp hs
        cases heq
        exact .move (Bool.eq_false_iff.mpr harrives) hstep
  | poll ident k =>
      simp only [netStep] at hs
      cases hk : g.wire[k]? with
      | none =>
          rw [hk] at hs
          cases hs
      | some p =>
          obtain ⟨dest, packet⟩ := p
          simp only [hk] at hs
          split at hs
          · rename_i hdest
            subst hdest
            obtain ⟨⟨s', es'⟩, hstep, heq⟩ := Option.map_eq_some_iff.mp hs
            cases heq
            exact .poll hk hstep
          · cases hs

end Steps

/-! ## Runs -/

section Runs

variable {numBoxes : ℕ} {worker main : T} {initial : S → ℤ} {memory : NetworkAddress → Buffer}
  {ident dest : NetworkAddress} {g g' : Net T S L C} {es : List (MachineEvent T S L C)}
  {tr : List (NetworkAddress × List (MachineEvent T S L C))}

omit [DecidableEq T] [DecidableEq S] [DecidableEq L] [DecidableEq C] in
theorem machineTrace_snoc (dest ident : NetworkAddress) (es : List (MachineEvent T S L C)) :
    machineTrace dest (tr ++ [(ident, es)]) =
      machineTrace dest tr ++ if ident = dest then [es] else [] := by
  rw [machineTrace, filterMap_snoc]
  by_cases h : ident = dest
  · rw [if_pos h, if_pos h]
    rfl
  · rw [if_neg h, if_neg h]
    rfl

omit [DecidableEq T] [DecidableEq S] [DecidableEq L] [DecidableEq C] in
theorem machineLog_snoc (dest ident : NetworkAddress) (es : List (MachineEvent T S L C)) :
    machineLog dest (tr ++ [(ident, es)]) =
      machineLog dest tr ++ if ident = dest then Program.ownLog es else [] := by
  rw [machineLog, machineTrace_snoc, List.flatten_append, Program.ownLog_append]
  congr 1
  by_cases h : ident = dest
  · rw [if_pos h, if_pos h, List.flatten_singleton]
  · rw [if_neg h, if_neg h]
    rfl

/-- Where the letters are that have been sent. -/
structure Posted (numBoxes : ℕ) (tr : List (NetworkAddress × List (MachineEvent T S L C)))
    (g : Net T S L C) : Prop where
  onTheirWay : ∀ ident t, ((g.machines ident).point t).Sealed numBoxes ident
  wire : ∀ p ∈ g.wire, SoundPacket numBoxes p
  sent : ∀ dest, (sentLetters dest tr).Perm
    (readLetters (machineLog dest tr) ++ wireLetters dest g.wire)

omit [DecidableEq T] [DecidableEq S] [DecidableEq L] [DecidableEq C] in
/-- Taking a packet from the wire takes its letter, if it is one to the machine. -/
theorem wireLetters_eraseIdx {wire : List (NetworkAddress × Buffer)} {k : ℕ} {packet : Buffer}
    (hk : wire[k]? = some (ident, packet)) (dest : NetworkAddress) :
    (wireLetters dest wire).Perm
      ((if ident = dest then [packetLetter packet] else []) ++
        wireLetters dest (wire.eraseIdx k)) := by
  obtain ⟨hlt, hget⟩ := List.getElem?_eq_some_iff.mp hk
  have hperm := List.getElem_cons_eraseIdx_perm hlt
  rw [hget] at hperm
  have hletters := ((hperm.filter fun p => p.1 = dest).map fun p => packetLetter p.2).symm
  refine hletters.trans ?_
  by_cases h : ident = dest
  · rw [List.filter_cons_of_pos (by simpa using h), if_pos h]
    exact .refl _
  · rw [List.filter_cons_of_neg (by simpa using h), if_neg h]
    exact .refl _

theorem Posted.step (h : Posted numBoxes tr g) (hs : NetSteps numBoxes worker g g' ident es) :
    Posted numBoxes (tr ++ [(ident, es)]) g' := by
  have hsealed : ∀ {s' : Machine T S L C}, (∀ t, (s'.point t).Sealed numBoxes ident) →
      ∀ i t, ((Function.update g.machines ident s' i).point t).Sealed numBoxes i := by
    intro s' hs' i t
    by_cases hi : i = ident
    · subst hi
      rw [Function.update_self]
      exact hs' t
    · rw [Function.update_of_ne hi]
      exact h.onTheirWay i t
  have hsent : ∀ dest, sentLetters dest (tr ++ [(ident, es)]) =
      sentLetters dest tr ++ lettersTo dest ident (Program.ownLog es) := by
    intro dest
    exact flatMap_snoc _ _ _
  have hread : ∀ dest, readLetters (machineLog dest (tr ++ [(ident, es)])) =
      readLetters (machineLog dest tr) ++
        if ident = dest then readLetters (Program.ownLog es) else [] := by
    intro dest
    rw [machineLog_snoc, (letters_append _ _).1]
    congr 1
    split <;> rfl
  cases hs with
  | @move _ m s' _ harrives hstep =>
      have hs := Program.Steps.of_step hstep
      obtain ⟨hnone, hsound, hletters⟩ := sends_step (h.onTheirWay ident) harrives hs
      refine ⟨hsealed (sealed_step (h.onTheirWay ident) hs), fun p hp => ?_, fun dest => ?_⟩
      · rcases List.mem_append.mp hp with hp | hp
        · exact h.wire p hp
        · exact hsound p hp
      · have hwire : wireLetters dest (g.wire ++ packets (Program.ownLog es)) =
            wireLetters dest g.wire ++ lettersTo dest ident (Program.ownLog es) := by
          rw [← hletters dest, wireLetters, List.filter_append, List.map_append]
          rfl
        rw [hsent, hread, hnone, ite_self, List.append_nil, hwire, ← List.append_assoc]
        exact (h.sent dest).append_right _
  | @poll _ k packet s' _ hk hstep =>
      have hs := Program.Steps.of_step hstep
      refine ⟨hsealed (sealed_step (h.onTheirWay ident) hs), fun p hp => ?_, fun dest => ?_⟩
      · refine h.wire p ?_
        have hp : p ∈ if (readLetters (Program.ownLog es)).isEmpty then g.wire
          else g.wire.eraseIdx k := hp
        split at hp
        · exact hp
        · exact List.mem_of_mem_eraseIdx hp
      · obtain ⟨hpolled, hletters⟩ := polls_step hs
        rw [hsent, hread, hletters, List.append_nil]
        refine (h.sent dest).trans ?_
        rw [List.append_assoc]
        refine List.Perm.append_left _ ?_
        show (wireLetters dest g.wire).Perm (_ ++ wireLetters dest (if _ then _ else _))
        rcases hpolled with hnone | hone
        · rw [hnone, ite_self]
          exact .refl _
        · rw [hone]
          exact wireLetters_eraseIdx hk dest

theorem posted_of_run (hrun : Run (netStep numBoxes worker) anyStep
    (netBoot numBoxes worker main initial memory) tr g) : Posted numBoxes tr g := by
  refine hrun.invariant (I := Posted numBoxes) ⟨?_, ?_, fun _ => .refl _⟩
    fun h _ hs => h.step (.of_step hs)
  · intro ident t
    trivial
  · intro p hp
    cases hp

/-- **Every machine of the network runs by itself**, and what it reads is sound. -/
theorem machine_run (hrun : Run (netStep numBoxes worker) anyStep
    (netBoot numBoxes worker main initial memory) tr g) (dest : NetworkAddress) :
    Run (machine numBoxes worker dest).step (SoundReads numBoxes dest)
      ((machine numBoxes worker dest).boot main (initialValue initial) (.create (memory dest)))
      (machineTrace dest tr) (g.machines dest) := by
  have hsim : ∃ tr', Run (machine numBoxes worker dest).step (SoundReads numBoxes dest)
      ((machine numBoxes worker dest).boot main (initialValue initial) (.create (memory dest)))
      tr' (g.machines dest) ∧ tr' = machineTrace dest tr := by
    refine hrun.simulate (f := fun g : Net T S L C => g.machines dest)
      (R := fun tr tr' => tr' = machineTrace dest tr) posted_of_run rfl ?_
    rintro tr _ g mv g' ⟨ident, es⟩ hposted rfl - hs
    rw [machineTrace_snoc]
    by_cases hident : ident = dest
    · subst hident
      rw [if_pos rfl]
      left
      cases NetSteps.of_step hs with
      | @move _ m s' _ harrives hstep =>
          refine ⟨m, es, ?_, ?_, rfl⟩
          · unfold SoundReads
            split
            · cases harrives
            · trivial
          · show _ = some (Function.update g.machines ident s' ident, es)
            rw [Function.update_self]
            exact hstep
      | @poll _ k packet s' _ hk hstep =>
          refine ⟨.interrupt (.checkPktAvail (some packet)), es, ?_, ?_, rfl⟩
          · exact hposted.wire _ (List.mem_of_getElem? hk)
          · show _ = some (Function.update g.machines ident s' ident, es)
            rw [Function.update_self]
            exact hstep
    · rw [if_neg hident, List.append_nil]
      refine .inr ⟨?_, rfl⟩
      cases NetSteps.of_step hs <;> exact Function.update_of_ne (Ne.symm hident) ..
  obtain ⟨tr', hrun', rfl⟩ := hsim
  exact hrun'

/-- **The post office, from `Send` to `Receive`.** A packet that a machine reads is in its device
until the worker takes it, and every packet that is taken is put in its mailbox, in the order of
their arrival; no empty packet is taken, and the worker does not sleep while there is one to
take. Each letter that `Receive` returns has been sent to this mailbox, with the same headers
and text and the address of the sender, and no letter is returned more often than it has been
sent. -/
theorem post_office (hrun : Run (netStep numBoxes worker) anyStep
    (netBoot numBoxes worker main initial memory) tr g) (dest : NetworkAddress) :
    let log := machineLog dest tr
    let s := g.machines dest
    readLetters log = takenLetters log ++ s.data.letters ∧
    (takenLetters log).map Letter.boxed = putLetters log ++ (s.point worker).inHand s.data ∧
    (∀ pktHdr buffer, .taken pktHdr buffer ∈ log → pktHdr.length ≠ 0) ∧
    (s.data.inHdr.length ≠ 0 → worker ∉ (s.kernel.semaphores .messageAvailable).queue) ∧
    ∀ box, (receivedLetters box log).Subperm
      ((sentLetters dest tr).filter fun l => l.mailHdr.to.toNat = box) := by
  have hmachine := machine_run hrun dest
  have h := (delivered_of_run hmachine).2
  refine ⟨h.read, h.put, h.nonempty, awake_of_run hmachine, fun box => ?_⟩
  have hsent : (takenLetters (machineLog dest tr)).Subperm (sentLetters dest tr) := by
    have hread : (takenLetters (machineLog dest tr)).Sublist (readLetters (machineLog dest tr)) := by
      rw [show readLetters (machineLog dest tr) = _ from h.read]
      exact List.sublist_append_left _ _
    have hposted := ((posted_of_run hrun).sent dest).symm.subperm
    exact hread.subperm.trans ((List.sublist_append_left _ _).subperm.trans hposted)
  have hput : (((putLetters (machineLog dest tr)).filter fun p => p.1 = box).map Prod.snd).Sublist
      ((takenLetters (machineLog dest tr)).filter fun l => l.mailHdr.to.toNat = box) := by
    have hsub : (putLetters (machineLog dest tr)).Sublist
        ((takenLetters (machineLog dest tr)).map Letter.boxed) := by
      rw [show (takenLetters (machineLog dest tr)).map Letter.boxed = _ from h.put]
      exact List.sublist_append_left _ _
    have hboxed : ((((takenLetters (machineLog dest tr)).map Letter.boxed).filter
        fun p => p.1 = box).map Prod.snd) =
        (takenLetters (machineLog dest tr)).filter fun l => l.mailHdr.to.toNat = box := by
      rw [List.filter_map, List.map_map]
      exact List.map_id _
    rw [← hboxed]
    exact (hsub.filter _).map _
  exact (received_of_run hmachine).trans (hput.subperm.trans (hsent.filter _))

end Runs

/-! ### Two machines -/

/-- A step of the code that is sure of the wire. -/
def goOnMove : MachineMove (Fin 2) Unit Unit Unit := .act (.goOn (fun _ => 0) .transmitted)

/-- Machine 7 sends two bytes to mailbox 3 of machine 8. -/
def sendMoves : List (NetMove (Fin 2) Unit Unit Unit) :=
  [.move 7 (.act (.send ⟨8, 0, 0⟩ ⟨3, 5, 2⟩ (fun i => if i = 0 then 104 else 105) fun _ => 0)),
    .move 7 (.kernel .return), .move 7 goOnMove]

/-- There a thread waits for them, and so does the worker. -/
def awaitMoves (worker : Fin 2) : List (NetMove (Fin 2) Unit Unit Unit) :=
  [.act (.other (.fork worker)), .kernel .return, .act (.receive 3), .kernel .return, goOnMove,
    goOnMove].map (.move 8)

/-- The packet is read, and put in the mailbox, and received. -/
def deliverMoves : List (NetMove (Fin 2) Unit Unit Unit) :=
  .poll 8 0 :: [.kernel .dispatch, .kernel .resume, .kernel .return, goOnMove, goOnMove,
    .kernel .return, goOnMove, goOnMove, .kernel .return, goOnMove, .kernel .return, goOnMove,
    goOnMove, .kernel .resume, .kernel .return, goOnMove, goOnMove, goOnMove, .kernel .return,
    goOnMove].map (.move 8)

/-- The packet that has been sent is received with its text and the address of the sender. -/
theorem post_office_sample : ∃ tr g,
    Run (netStep 100 (1 : Fin 2)) anyStep
      (netBoot 100 1 0 (fun _ : Unit => 0) fun _ _ => 0 : Net (Fin 2) Unit Unit Unit) tr g ∧
      receivedLetters 3 (machineLog 8 tr) = [⟨⟨8, 7, 14⟩, ⟨3, 5, 2⟩, [104, 105]⟩] ∧
      (receivedLetters 3 (machineLog 8 tr)).Subperm
        ((sentLetters 8 tr).filter fun l => l.mailHdr.to.toNat = 3) := by
  have hp : (exec (netStep 100 (1 : Fin 2)) anyStep []
      (netBoot 100 1 0 (fun _ : Unit => 0) fun _ _ => 0 : Net (Fin 2) Unit Unit Unit)
      (sendMoves ++ awaitMoves 1 ++ deliverMoves)).map
        (fun r => receivedLetters 3 (machineLog 8 r.1)) =
      some [⟨⟨8, 7, 14⟩, ⟨3, 5, 2⟩, [104, 105]⟩] := by
    decide +kernel
  obtain ⟨⟨tr, g⟩, hexec, hletters⟩ := Option.map_eq_some_iff.mp hp
  have hrun := Run.of_exec .start hexec
  exact ⟨tr, g, hrun, hletters, (post_office hrun 8).2.2.2.2 3⟩

end Nachos.Network.Post
