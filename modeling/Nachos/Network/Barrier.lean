import Nachos.Lib.Run
import Nachos.Network.Registration
import Mathlib.Algebra.BigOperators.Fin

/-!
# The registration barrier

`MailTest` runs on the registration machine. `INIT_SUM` tells it how many user
programs there will be, and every network thread registers with an `INIT`. The
server counts the registrations of each machine, and when the announced number
is reached it answers all of them: the mailboxes are not stored but recomputed
as `1, 3, 5, …` for each machine. Then it halts.

`PostOffice::Send` asserts that the mailbox is below the number of boxes, one
hundred. A machine that registers more than fifty times makes that assertion
fail in the middle of the answers; `sendThreads` stops there as the server does.
-/

namespace Nachos.Network

open Nachos.Lib

/-! ## The server -/

/-- A message in mailbox 0 of the server, with the machine and the mailbox it
came from. `INIT_SUM` carries a number; the arguments of `INIT` are not used. -/
inductive Arrival where
  | initSum (machine : ℕ) (n : ℤ)
  | init (machine mailBox : ℕ)
deriving DecidableEq, Repr

/-- One `postOffice->Send` of the answer loop. -/
structure Answer where
  pktTo : ℤ
  mailTo : ℤ
  length : ℕ
  data : Memory

/-- What became of the server: it waits for the next message, it has halted, an
assertion has failed, or it wrote behind its two arrays. -/
inductive Status where
  | running
  | halted
  | aborted
  | overrun
deriving DecidableEq, Repr

/-- The variables of `MailTest`. -/
structure Server where
  mIDCounter : ℕ
  tIDCounter : ℕ
  sumThread : ℤ
  ThreadTable : ℕ → ℤ
  machineID : ℕ → ℤ
  status : Status

def Server.initial : Server := ⟨0, 0, 0, fun _ => 0, fun _ => -1, .running⟩

/-- The search of a machine among the first `mIDCounter` entries. -/
def findMachine (machineID : ℕ → ℤ) (machine : ℤ) : (left i : ℕ) → Option ℕ
  | 0, _ => none
  | left + 1, i => if machine = machineID i then some i else findMachine machineID machine left (i + 1)

/-- The assertions of `Send`. -/
def sendable (a : Answer) : Prop := a.length ≤ bufferSize ∧ 0 ≤ a.mailTo ∧ a.mailTo < numBoxes

instance (a : Answer) : Decidable (sendable a) := inferInstanceAs (Decidable (_ ∧ _ ∧ _))

/-- The answer to the `j`-th registration of the machine at `i`. -/
def answer (s : Server) (i j : ℕ) : Answer :=
  ⟨s.machineID i, (j + 1) * 2 - 1, packetLength s.mIDCounter,
    packetData s.mIDCounter s.machineID s.ThreadTable⟩

/-- The inner loop over `j < ThreadTable[i]`: the packets sent, and whether the
loop came to its end. -/
def sendThreads (s : Server) (i : ℕ) : (left j : ℕ) → List Answer × Bool
  | 0, _ => ([], true)
  | left + 1, j =>
      if sendable (answer s i j) then
        let (sent, done) := sendThreads s i left (j + 1)
        (answer s i j :: sent, done)
      else ([], false)

/-- The outer loop over the machines, up to the first `-1`. -/
def sendMachines (s : Server) : (left i : ℕ) → List Answer × Bool
  | 0, _ => ([], true)
  | left + 1, i =>
      if s.machineID i = -1 then ([], true)
      else
        match sendThreads s i (s.ThreadTable i).toNat 0 with
        | (sent, false) => (sent, false)
        | (sent, true) =>
            let (rest, done) := sendMachines s left (i + 1)
            (sent ++ rest, done)

/-- The bookkeeping of `INIT`; `none` is a write behind the arrays. -/
def Server.register (s : Server) (machine : ℕ) : Option Server :=
  match findMachine s.machineID machine s.mIDCounter 0 with
  | none =>
      if s.mIDCounter < 10 then
        some { s with
          machineID := Function.update s.machineID s.mIDCounter machine
          ThreadTable := Function.update s.ThreadTable s.mIDCounter
            (s.ThreadTable s.mIDCounter + 1)
          mIDCounter := s.mIDCounter + 1
          tIDCounter := s.tIDCounter + 1 }
      else none
  | some i =>
      some { s with
        ThreadTable := Function.update s.ThreadTable i (s.ThreadTable i + 1)
        tIDCounter := s.tIDCounter + 1 }

/-- One round of the `while` loop: the state after it and the answers sent. -/
def Server.handle (s : Server) : Arrival → Server × List Answer
  | .initSum _ n => (if s.sumThread ≠ 0 then s else { s with sumThread := n }, [])
  | .init machine _ =>
      if s.sumThread = 0 then ({ s with status := .halted }, [])
      else
        match s.register machine with
        | none => ({ s with status := .overrun }, [])
        | some s =>
            if s.tIDCounter = s.sumThread then
              let (sent, done) := sendMachines s 10 0
              ({ s with status := if done then .halted else .aborted }, sent)
            else (s, [])

/-- One message and what was sent in answer to it. -/
structure Handled where
  arrival : Arrival
  sent : List Answer

/-- The server as a machine whose labels are the arrivals. -/
def serverStep (s : Server) (a : Arrival) : Option (Server × Handled) :=
  if s.status = .running then
    let (s', sent) := s.handle a
    some (s', ⟨a, sent⟩)
  else none

/-! ## What is meant -/

/-- The registration in a message: machine and mailbox. -/
def Arrival.registration : Arrival → Option (ℕ × ℕ)
  | .init machine mailBox => some (machine, mailBox)
  | .initSum _ _ => none

/-- The registrations received, in order. -/
def registrations (tr : List Handled) : List (ℕ × ℕ) :=
  tr.filterMap fun e => e.arrival.registration

/-- How many registrations came from a machine. -/
def registered (tr : List Handled) (machine : ℕ) : ℕ :=
  ((registrations tr).map Prod.fst).count machine

/-- The sum that an `INIT_SUM` announces; zero announces nothing. -/
def Arrival.sum : Arrival → Option ℤ
  | .initSum _ n => if n = 0 then none else some n
  | .init _ _ => none

/-- The first sum announced. -/
def announced (tr : List Handled) : Option ℤ := (tr.filterMap fun e => e.arrival.sum).head?

/-- What arrives: no negative number is announced first, an `INIT` arrives after
a sum has been announced, and at most ten machines register. -/
def Expected (tr : List Handled) (_ : Server) : Arrival → Prop
  | .initSum _ n => announced tr = none → 0 ≤ n
  | .init machine _ =>
      announced tr ≠ none ∧ (machine :: (registrations tr).map Prod.fst).toFinset.card ≤ 10

/-- The mailboxes that a machine registered. -/
def mailboxes (tr : List Handled) (machine : ℕ) : List ℕ :=
  ((registrations tr).filter fun r => r.1 = machine).map Prod.snd

/-- `1, 3, …, 2n-1`. -/
def oddBoxes (n : ℕ) : List ℕ := (List.range n).map fun k => 2 * k + 1

/-- The mailboxes that an event's packets went to. -/
def Handled.destinations (e : Handled) : List (ℤ × ℤ) := e.sent.map fun a => (a.pktTo, a.mailTo)

/-- The barrier after the messages in `tr`. -/
structure Barrier (tr : List Handled) (s : Server) : Prop where
  /-- The first `mIDCounter` machines are distinct and are those that registered. -/
  distinct : ∀ i j, i < s.mIDCounter → j < s.mIDCounter → s.machineID i = s.machineID j → i = j
  heard : ∀ m : ℤ, (∃ i < s.mIDCounter, s.machineID i = m) ↔
    ∃ r ∈ registrations tr, (r.1 : ℤ) = m
  threads : ∀ i < s.mIDCounter, ∃ m : ℕ, s.machineID i = m ∧ s.ThreadTable i = registered tr m
  total : ∑ i ∈ Finset.range 10, s.ThreadTable i = s.tIDCounter
  counted : s.tIDCounter = (registrations tr).length
  /-- Before the announced number of registrations nothing is sent. -/
  silent : (∀ N, announced tr = some N → (registrations tr).length < N) →
    s.status = .running ∧ ∀ e ∈ tr, e.sent = []
  /-- At the announced number everybody is answered, if the mailboxes exist. -/
  answered : ∀ N, announced tr = some N → (registrations tr).length = N →
    (∀ m, registered tr m ≤ 50) →
    s.status = .halted ∧ ∃ tr' e, tr = tr' ++ [e] ∧ (∀ x ∈ tr', x.sent = []) ∧
      e.sent.length = N ∧
      ((∀ m, ∃ n, (mailboxes tr m).Perm (oddBoxes n)) →
        e.destinations.Nodup ∧
        ∀ m b, (m, b) ∈ e.destinations ↔ ∃ r ∈ registrations tr, ((r.1 : ℤ), (r.2 : ℤ)) = (m, b))

/-! ## The tables -/

/-- The server's arrays hold the machines `hs` in the order of their first
registration, with the number of their registrations. -/
structure Booked (regs : List (ℕ × ℕ)) (hs : List ℕ) (s : Server) : Prop where
  nodup : hs.Nodup
  heard : ∀ m, m ∈ hs ↔ m ∈ regs.map Prod.fst
  length : s.mIDCounter = hs.length
  machineID : ∀ i, s.machineID i = (hs[i]?).elim (-1) fun m => (m : ℤ)
  ThreadTable : ∀ i, s.ThreadTable i =
    (hs[i]?).elim 0 fun m => ((regs.map Prod.fst).count m : ℤ)
  counted : s.tIDCounter = regs.length

section FindMachine

variable {machineID : ℕ → ℤ} {machine : ℤ}

theorem findMachine_some : ∀ {left i k : ℕ}, findMachine machineID machine left i = some k →
    i ≤ k ∧ k < i + left ∧ machineID k = machine
  | 0, _, _, h => by cases h
  | left + 1, i, k, h => by
      unfold findMachine at h
      split at h
      · rename_i heq
        obtain rfl : i = k := Option.some.inj h
        exact ⟨le_rfl, by omega, heq.symm⟩
      · obtain ⟨h₁, h₂, h₃⟩ := findMachine_some h
        exact ⟨by omega, by omega, h₃⟩

theorem findMachine_none : ∀ {left i : ℕ}, findMachine machineID machine left i = none →
    ∀ k, i ≤ k → k < i + left → machineID k ≠ machine
  | 0, _, _, k, h₁, h₂ => by omega
  | left + 1, i, h, k, h₁, h₂ => by
      unfold findMachine at h
      split at h
      · cases h
      · rename_i hne
        rcases Nat.eq_or_lt_of_le h₁ with rfl | hlt
        · exact fun heq => hne heq.symm
        · exact findMachine_none h k hlt (by omega)

end FindMachine

namespace Booked

variable {regs : List (ℕ × ℕ)} {hs : List ℕ} {s : Server}

theorem initial : Booked [] [] .initial := by
  constructor <;> simp [Server.initial]

theorem get (h : Booked regs hs s) {i : ℕ} (hi : i < hs.length) :
    s.machineID i = hs[i] ∧ s.ThreadTable i = (regs.map Prod.fst).count hs[i] := by
  rw [h.machineID, h.ThreadTable, List.getElem?_eq_getElem hi]
  exact ⟨rfl, rfl⟩

/-- The machines heard from are as many as there are different ones. -/
theorem card (h : Booked regs hs s) : (regs.map Prod.fst).toFinset.card = hs.length := by
  rw [← List.toFinset_card_of_nodup h.nodup]
  congr 1
  ext m
  rw [List.mem_toFinset, List.mem_toFinset, h.heard]

/-- A machine that has registered before. -/
theorem register_old (h : Booked regs hs s) {i machine : ℕ} (mailBox : ℕ) (hi : i < hs.length)
    (hm : hs[i] = machine) :
    Booked (regs ++ [(machine, mailBox)]) hs { s with
      ThreadTable := Function.update s.ThreadTable i (s.ThreadTable i + 1)
      tIDCounter := s.tIDCounter + 1 } := by
  refine ⟨h.nodup, ?_, h.length, h.machineID, ?_, ?_⟩
  · intro m
    rw [h.heard, List.map_append, List.mem_append]
    constructor
    · exact .inl
    · rintro (hmem | hmem)
      · exact hmem
      · obtain rfl : m = machine := by simpa using hmem
        exact (h.heard m).mp (hm ▸ List.getElem_mem hi)
  · intro k
    simp only [List.map_append, List.map_cons, List.map_nil, List.count_append]
    by_cases hk : k = i
    · subst hk
      rw [Function.update_self, (h.get hi).2, List.getElem?_eq_getElem hi]
      simp [hm]
    · rw [Function.update_of_ne hk, h.ThreadTable]
      cases hget : hs[k]? with
      | none => rfl
      | some m =>
          have hne : machine ≠ m := by
            rintro rfl
            obtain ⟨hk', hkm⟩ := List.getElem?_eq_some_iff.mp hget
            exact hk ((h.nodup.getElem_inj_iff).mp (hkm.trans hm.symm))
          simp [List.count_singleton, hne]
  · simp [h.counted]

/-- A machine that registers for the first time. -/
theorem register_new (h : Booked regs hs s) {machine : ℕ} (mailBox : ℕ) (hm : machine ∉ hs) :
    Booked (regs ++ [(machine, mailBox)]) (hs ++ [machine]) { s with
      machineID := Function.update s.machineID s.mIDCounter machine
      ThreadTable := Function.update s.ThreadTable s.mIDCounter (s.ThreadTable s.mIDCounter + 1)
      mIDCounter := s.mIDCounter + 1
      tIDCounter := s.tIDCounter + 1 } := by
  have hzero : (regs.map Prod.fst).count machine = 0 := by
    rw [List.count_eq_zero, ← h.heard]
    exact hm
  have hlast : s.ThreadTable s.mIDCounter = 0 := by
    rw [h.ThreadTable, h.length, List.getElem?_eq_none (le_refl _)]
    rfl
  refine ⟨?_, ?_, by simp [h.length], ?_, ?_, by simp [h.counted]⟩
  · exact List.nodup_append.mpr ⟨h.nodup, List.nodup_singleton _, by
      intro a ha b hb
      obtain rfl : b = machine := by simpa using hb
      rintro rfl
      exact hm ha⟩
  · intro m
    simp only [List.map_append, List.mem_append, h.heard, List.map_cons, List.map_nil]
  · intro k
    show Function.update s.machineID s.mIDCounter (machine : ℤ) k = _
    by_cases hk : k = s.mIDCounter
    · subst hk
      rw [Function.update_self, h.length]
      simp
    · rw [Function.update_of_ne hk, h.machineID]
      rw [h.length] at hk
      rcases Nat.lt_or_gt_of_ne hk with hlt | hgt
      · rw [List.getElem?_append_left hlt]
      · rw [List.getElem?_eq_none (by omega), List.getElem?_eq_none (by simp; omega)]
  · intro k
    simp only [List.map_append, List.map_cons, List.map_nil, List.count_append]
    by_cases hk : k = s.mIDCounter
    · subst hk
      rw [Function.update_self, hlast, h.length]
      simp [hzero]
    · rw [Function.update_of_ne hk, h.ThreadTable]
      rw [h.length] at hk
      rcases Nat.lt_or_gt_of_ne hk with hlt | hgt
      · rw [List.getElem?_append_left hlt, List.getElem?_eq_getElem hlt]
        have hne : machine ≠ hs[k] := by
          rintro rfl
          exact hm (List.getElem_mem hlt)
        simp [List.count_singleton, hne]
      · rw [List.getElem?_eq_none (by omega), List.getElem?_eq_none (by simp; omega)]
        rfl

/-- An `INIT` from one of at most ten machines is booked. -/
theorem register (h : Booked regs hs s) (machine mailBox : ℕ)
    (hten : (machine :: regs.map Prod.fst).toFinset.card ≤ 10) :
    ∃ s' hs', s.register machine = some s' ∧ Booked (regs ++ [(machine, mailBox)]) hs' s' ∧
      s'.sumThread = s.sumThread ∧ s'.status = s.status := by
  unfold Server.register
  cases hfind : findMachine s.machineID machine s.mIDCounter 0 with
  | some i =>
      obtain ⟨-, hlt, hid⟩ := findMachine_some hfind
      rw [Nat.zero_add, h.length] at hlt
      have hm : hs[i] = machine := by
        have hget := (h.get hlt).1
        rw [hid] at hget
        exact_mod_cast hget.symm
      exact ⟨_, hs, rfl, h.register_old mailBox hlt hm, rfl, rfl⟩
  | none =>
      have hm : machine ∉ hs := by
        intro hmem
        obtain ⟨i, hi, hget⟩ := List.getElem_of_mem hmem
        refine findMachine_none hfind i (Nat.zero_le i) (by rw [h.length]; omega) ?_
        rw [(h.get hi).1, hget]
      have hlt : s.mIDCounter < 10 := by
        rw [List.toFinset_cons, Finset.card_insert_of_notMem, h.card] at hten
        · rw [h.length]
          omega
        · rw [List.mem_toFinset, ← h.heard]
          exact hm
      simp only [hlt, if_true]
      exact ⟨_, _, rfl, h.register_new mailBox hm, rfl, rfl⟩

/-- Counting the registrations machine by machine counts all of them. -/
theorem sum_counts (h : Booked regs hs s) :
    (hs.map fun m => (regs.map Prod.fst).count m).sum = regs.length := by
  have hset : hs.toFinset = (regs.map Prod.fst).toFinset := by
    ext m
    rw [List.mem_toFinset, List.mem_toFinset, h.heard]
  rw [← List.sum_toFinset _ h.nodup, hset, List.sum_toFinset_count_eq_length, List.length_map]

/-- The entries of `ThreadTable` add up to the number of registrations. -/
theorem sum_threads (h : Booked regs hs s) (hten : hs.length ≤ 10) :
    ∑ i ∈ Finset.range 10, s.ThreadTable i = s.tIDCounter := by
  have hzero : ∀ i ∈ Finset.range 10, i ∉ Finset.range hs.length → s.ThreadTable i = 0 := by
    intro i _ hi
    rw [Finset.mem_range, not_lt] at hi
    rw [h.ThreadTable, List.getElem?_eq_none hi]
    rfl
  have hsub : Finset.range hs.length ⊆ Finset.range 10 :=
    Finset.range_subset_range.mpr hten
  have hcount : ∀ i : Fin hs.length,
      s.ThreadTable i = (((regs.map Prod.fst).count hs[i] : ℕ) : ℤ) := fun i => (h.get i.2).2
  rw [← Finset.sum_subset hsub hzero, h.counted, Finset.sum_range,
    Finset.sum_congr rfl fun i _ => hcount i, ← Nat.cast_sum, ← h.sum_counts]
  exact congrArg Nat.cast (Fin.sum_univ_fun_getElem hs fun m => (regs.map Prod.fst).count m)

end Booked

/-! ## The answers -/

/-- As long as the mailboxes exist the inner loop sends one packet each round. -/
theorem sendThreads_eq {s : Server} {i : ℕ} : ∀ (left j : ℕ),
    (∀ k < left, sendable (answer s i (j + k))) →
    sendThreads s i left j = ((List.range left).map fun k => answer s i (j + k), true)
  | 0, _, _ => rfl
  | left + 1, j, h => by
      have hrest : ∀ k < left, sendable (answer s i (j + 1 + k)) := by
        intro k hk
        rw [Nat.add_assoc, Nat.add_comm 1 k]
        exact h (k + 1) (by omega)
      have hfirst : sendable (answer s i j) := h 0 (by omega)
      rw [sendThreads, if_pos hfirst, sendThreads_eq left (j + 1) hrest, List.range_succ_eq_map,
        List.map_cons, List.map_map]
      simp only [Nat.add_zero, Prod.mk.injEq, and_true, List.cons.injEq, true_and]
      refine List.map_congr_left ?_
      intro k _
      simp only [Function.comp_apply, Nat.succ_eq_add_one]
      rw [Nat.add_assoc, Nat.add_comm 1 k]

/-- The mailboxes that the registrations of `machine` are answered to. -/
def answerBoxes (regs : List (ℕ × ℕ)) (machine : ℕ) : List (ℤ × ℤ) :=
  (oddBoxes ((regs.map Prod.fst).count machine)).map fun b : ℕ => ((machine : ℤ), (b : ℤ))

namespace Booked

variable {regs : List (ℕ × ℕ)} {hs : List ℕ} {s : Server}

theorem sendable_answer (h : Booked regs hs s) (hten : hs.length ≤ 10) (i : ℕ) {j : ℕ}
    (hj : j < 50) : sendable (answer s i j) := by
  refine ⟨?_, ?_, ?_⟩
  · show 3 + s.mIDCounter * 3 ≤ 40
    rw [h.length]
    omega
  · show (0 : ℤ) ≤ (j + 1) * 2 - 1
    omega
  · show ((j : ℤ) + 1) * 2 - 1 < 100
    omega

/-- The loop over the machines, from the machine at `i` on. -/
theorem sendMachines_drop (h : Booked regs hs s) (hten : hs.length ≤ 10)
    (hfifty : ∀ m, (regs.map Prod.fst).count m ≤ 50) : ∀ (left i : ℕ), hs.length ≤ i + left →
    (sendMachines s left i).2 = true ∧
      (sendMachines s left i).1.map (fun a => (a.pktTo, a.mailTo)) =
        (hs.drop i).flatMap (answerBoxes regs)
  | 0, i, hle => by
      have hnil : hs.drop i = [] := List.drop_eq_nil_of_le hle
      rw [hnil]
      exact ⟨rfl, rfl⟩
  | left + 1, i, hle => by
      unfold sendMachines
      by_cases hi : i < hs.length
      · obtain ⟨hid, hcount⟩ := h.get hi
        have hne : s.machineID i ≠ -1 := by
          rw [hid]
          omega
        have hloop := sendThreads_eq (s := s) (i := i) (s.ThreadTable i).toNat 0
          (by
            intro k hk
            rw [hcount, Int.toNat_natCast] at hk
            have := hfifty hs[i]
            exact h.sendable_answer hten i (by omega))
        obtain ⟨hdone, hrest⟩ := h.sendMachines_drop hten hfifty left (i + 1) (by omega)
        rw [if_neg hne, hloop]
        refine ⟨hdone, ?_⟩
        rw [List.map_append, hrest, List.drop_eq_getElem_cons hi, List.flatMap_cons, hcount,
          Int.toNat_natCast, answerBoxes, oddBoxes, List.map_map, List.map_map]
        congr 1
        refine List.map_congr_left ?_
        intro k _
        simp only [Function.comp_apply, answer, hid, Prod.mk.injEq, true_and]
        push_cast
        omega
      · have hnone : hs[i]? = none := List.getElem?_eq_none (by omega)
        rw [if_pos (by rw [h.machineID, hnone]; rfl), List.drop_eq_nil_of_le (by omega)]
        exact ⟨rfl, rfl⟩

/-- The answers are as many as the registrations. -/
theorem length_answers (h : Booked regs hs s) :
    (hs.flatMap (answerBoxes regs)).length = regs.length := by
  rw [List.length_flatMap, ← h.sum_counts]
  congr 1
  refine List.map_congr_left ?_
  intro m _
  simp [answerBoxes, oddBoxes]

theorem mem_answerBoxes {machine : ℕ} {p : ℤ × ℤ} : p ∈ answerBoxes regs machine ↔
    ∃ b ∈ oddBoxes ((regs.map Prod.fst).count machine), ((machine : ℤ), (b : ℤ)) = p := by
  rw [answerBoxes, List.mem_map]

theorem nodup_answers (h : Booked regs hs s) : (hs.flatMap (answerBoxes regs)).Nodup := by
  rw [List.nodup_flatMap]
  constructor
  · intro m _
    refine List.Nodup.map ?_ (List.Nodup.map ?_ List.nodup_range)
    · intro a b hab
      simpa using hab
    · intro a b hab
      simp only at hab
      omega
  · refine h.nodup.imp ?_
    intro a b hne p hpa hpb
    obtain ⟨x, -, rfl⟩ := mem_answerBoxes.mp hpa
    obtain ⟨y, -, heq⟩ := mem_answerBoxes.mp hpb
    simp only [Prod.mk.injEq] at heq
    omega

end Booked

/-! ## Every run -/

theorem registrations_snoc (tr : List Handled) (e : Handled) :
    registrations (tr ++ [e]) = registrations tr ++ e.arrival.registration.toList :=
  filterMap_snoc _ tr e

theorem announced_snoc (tr : List Handled) (e : Handled) :
    announced (tr ++ [e]) = (announced tr).or e.arrival.sum := by
  rw [announced, announced, filterMap_snoc, List.head?_append]
  cases e.arrival.sum <;> rfl

/-- Registrations are missing, and nothing has been sent. -/
structure Waiting (tr : List Handled) (s : Server) : Prop where
  running : s.status = .running
  missing : ∀ N, announced tr = some N → (registrations tr).length < N
  silent : ∀ e ∈ tr, e.sent = []

/-- The last message completed the registrations and was answered from the
tables of `s₀`. -/
structure Completed (tr' : List Handled) (e : Handled) (s₀ s : Server) : Prop where
  complete : ∃ N, announced (tr' ++ [e]) = some N ∧ (registrations (tr' ++ [e])).length = N
  silent : ∀ x ∈ tr', x.sent = []
  sent : e.sent = (sendMachines s₀ 10 0).1
  after : s = { s₀ with status := if (sendMachines s₀ 10 0).2 then .halted else .aborted }

/-- What every message preserves. -/
structure Kept (tr : List Handled) (s : Server) : Prop where
  booked : ∃ hs : List ℕ, hs.length ≤ 10 ∧ Booked (registrations tr) hs s
  sum : s.sumThread = (announced tr).getD 0
  positive : ∀ N, announced tr = some N → 1 ≤ N
  early : announced tr = none → registrations tr = []
  phase : Waiting tr s ∨ ∃ tr' e s₀, tr = tr' ++ [e] ∧ Completed tr' e s₀ s

theorem Kept.initial : Kept [] .initial := by
  refine ⟨⟨[], by simp, .initial⟩, rfl, by simp [announced], fun _ => rfl, .inl ?_⟩
  exact ⟨rfl, by simp [announced], by simp⟩

/-- `INIT_SUM`: the first sum is kept, the tables are not touched. -/
theorem Kept.initSum {tr : List Handled} {s : Server} (h : Kept tr s) (hw : Waiting tr s)
    {machine : ℕ} {n : ℤ} (hok : announced tr = none → 0 ≤ n) :
    Kept (tr ++ [⟨.initSum machine n, []⟩])
      (if s.sumThread ≠ 0 then s else { s with sumThread := n }) := by
  have hregs : registrations (tr ++ [⟨.initSum machine n, []⟩]) = registrations tr := by
    rw [registrations_snoc]
    exact List.append_nil _
  have hsilent : ∀ e ∈ tr ++ [⟨.initSum machine n, []⟩], e.sent = [] := by
    intro e he
    rcases List.mem_append.mp he with he | he
    · exact hw.silent e he
    · rw [List.mem_singleton.mp he]
  obtain ⟨hs, hten, hbooked⟩ := h.booked
  cases hann : announced tr with
  | some N =>
      -- a sum is known: the message changes nothing
      have hsum : s.sumThread = N := by rw [h.sum, hann]; rfl
      have hann' : announced (tr ++ [⟨.initSum machine n, []⟩]) = some N := by
        rw [announced_snoc, hann]
        rfl
      have hpos := h.positive N hann
      rw [if_pos (by rw [hsum]; omega)]
      refine ⟨⟨hs, hten, by rwa [hregs]⟩, by rw [hann', hsum]; rfl, ?_, ?_, .inl ⟨hw.running, ?_, hsilent⟩⟩
      · rw [hann', ← hann]
        exact h.positive
      · rw [hann']
        intro hnone
        cases hnone
      · rw [hann', hregs, ← hann]
        exact hw.missing
  | none =>
      have hsum : s.sumThread = 0 := by rw [h.sum, hann]; rfl
      have hempty := h.early hann
      have hann' : announced (tr ++ [⟨.initSum machine n, []⟩]) = if n = 0 then none else some n := by
        rw [announced_snoc, hann]
        rfl
      have hn := hok hann
      rw [if_neg (by rw [hsum]; simp)]
      refine ⟨⟨hs, hten, ?_⟩, ?_, ?_, ?_, .inl ⟨hw.running, ?_, hsilent⟩⟩
      · rw [hregs]
        exact ⟨hbooked.nodup, hbooked.heard, hbooked.length, hbooked.machineID,
          hbooked.ThreadTable, hbooked.counted⟩
      · show n = _
        rw [hann']
        split
        · assumption
        · rfl
      · intro N hN
        rw [hann'] at hN
        split at hN
        · cases hN
        · obtain rfl : n = N := Option.some.inj hN
          omega
      · intro _
        rw [hregs, hempty]
      · intro N hN
        rw [hann'] at hN
        split at hN
        · cases hN
        · obtain rfl : n = N := Option.some.inj hN
          rw [hregs, hempty, List.length_nil]
          omega

/-- `INIT`: the registration is booked, and answered with all others if it is
the last one. -/
theorem Kept.init {tr : List Handled} {s : Server} (h : Kept tr s) (hw : Waiting tr s)
    {machine mailBox : ℕ} (hann : announced tr ≠ none)
    (hten : (machine :: (registrations tr).map Prod.fst).toFinset.card ≤ 10) :
    Kept (tr ++ [⟨.init machine mailBox, (s.handle (.init machine mailBox)).2⟩])
      (s.handle (.init machine mailBox)).1 := by
  obtain ⟨N, hN⟩ := Option.ne_none_iff_exists'.mp hann
  obtain ⟨hs, -, hbooked⟩ := h.booked
  obtain ⟨s', hs', hreg, hbooked', hsum', hstatus'⟩ := hbooked.register machine mailBox hten
  have hsum : s.sumThread = N := by rw [h.sum, hN]; rfl
  have hpos := h.positive N hN
  have hmissing := hw.missing N hN
  have hregs : ∀ sent, registrations (tr ++ [⟨.init machine mailBox, sent⟩]) =
      registrations tr ++ [(machine, mailBox)] := fun sent => registrations_snoc ..
  have hann' : ∀ sent, announced (tr ++ [⟨.init machine mailBox, sent⟩]) = some N := by
    intro sent
    rw [announced_snoc, hN]
    rfl
  have hten' : hs'.length ≤ 10 := by
    have hcard := hbooked'.card
    rw [← hcard]
    refine le_trans (Finset.card_le_card ?_) hten
    intro m hm
    simpa [or_comm] using hm
  have hhandle : s.handle (.init machine mailBox) =
      if s'.tIDCounter = s'.sumThread then
        ({ s' with status := if (sendMachines s' 10 0).2 then .halted else .aborted },
          (sendMachines s' 10 0).1)
      else (s', []) := by
    simp only [Server.handle, hreg, hsum, if_neg (show N ≠ 0 by omega)]
  rw [hhandle]
  by_cases hlast : (s'.tIDCounter : ℤ) = s'.sumThread
  · rw [if_pos hlast]
    refine ⟨⟨hs', hten', ?_⟩, ?_, ?_, ?_, .inr ⟨tr, _, s', rfl, ?_⟩⟩
    · rw [hregs]
      exact ⟨hbooked'.nodup, hbooked'.heard, hbooked'.length, hbooked'.machineID,
        hbooked'.ThreadTable, hbooked'.counted⟩
    · rw [hann']
      exact hsum'.trans hsum
    · rw [hann']
      intro M hM
      exact Option.some.inj hM ▸ hpos
    · rw [hann']
      intro hnone
      cases hnone
    · refine ⟨⟨N, hann' _, ?_⟩, hw.silent, rfl, rfl⟩
      rw [hregs, ← hbooked'.counted, hlast, hsum', hsum]
  · rw [if_neg hlast]
    refine ⟨⟨hs', hten', by rwa [hregs]⟩, ?_, ?_, ?_, .inl ⟨hstatus'.trans hw.running, ?_, ?_⟩⟩
    · rw [hann']
      exact hsum'.trans hsum
    · rw [hann']
      intro M hM
      exact Option.some.inj hM ▸ hpos
    · rw [hann']
      intro hnone
      cases hnone
    · intro M hM
      obtain rfl : N = M := Option.some.inj ((hann' []).symm.trans hM)
      have hcounted := hbooked'.counted
      rw [hsum', hsum, hcounted] at hlast
      rw [hregs]
      rw [List.length_append, List.length_singleton] at hlast ⊢
      push_cast at hlast ⊢
      omega
    · intro e he
      rcases List.mem_append.mp he with he | he
      · exact hw.silent e he
      · rw [List.mem_singleton.mp he]

theorem Kept.step {tr : List Handled} {s s' : Server} {a : Arrival} {e : Handled} (h : Kept tr s)
    (hok : Expected tr s a) (hs : serverStep s a = some (s', e)) : Kept (tr ++ [e]) s' := by
  unfold serverStep at hs
  split at hs
  · rename_i hrun
    simp only [Option.some.injEq, Prod.mk.injEq] at hs
    obtain ⟨rfl, rfl⟩ := hs
    have hw : Waiting tr s := by
      rcases h.phase with hw | ⟨tr', e, s₀, rfl, hc⟩
      · exact hw
      · -- a server that has answered does not run any more
        rw [hc.after] at hrun
        revert hrun
        show (if (sendMachines s₀ 10 0).2 then Status.halted else Status.aborted) = .running → _
        split <;> intro hrun <;> cases hrun
    cases a with
    | initSum machine n => exact h.initSum hw hok
    | init machine mailBox => exact h.init hw hok.1 hok.2
  · cases hs

theorem kept_of_run {tr : List Handled} {s : Server}
    (h : Run serverStep Expected .initial tr s) : Kept tr s := by
  refine h.invariant .initial ?_
  intro tr s a s' e ih hok hs
  exact ih.step hok hs

theorem length_mailboxes (tr : List Handled) (m : ℕ) :
    (mailboxes tr m).length = registered tr m := by
  rw [mailboxes, registered, List.length_map, List.count, List.countP_map,
    List.countP_eq_length_filter]
  congr 1

theorem mem_mailboxes {tr : List Handled} {m b : ℕ} :
    b ∈ mailboxes tr m ↔ (m, b) ∈ registrations tr := by
  rw [mailboxes, List.mem_map]
  constructor
  · rintro ⟨⟨m', b'⟩, hmem, rfl⟩
    obtain ⟨hreg, heq⟩ := List.mem_filter.mp hmem
    obtain rfl : m' = m := by simpa using heq
    exact hreg
  · intro hmem
    exact ⟨(m, b), List.mem_filter.mpr ⟨hmem, by simp⟩, rfl⟩

/-- If every machine registered `1, 3, …, 2n-1`, the recomputed mailboxes are
the registered ones. -/
theorem Booked.mem_answers {tr : List Handled} {hs : List ℕ} {s : Server}
    (h : Booked (registrations tr) hs s) (hodd : ∀ m, ∃ n, (mailboxes tr m).Perm (oddBoxes n))
    (m b : ℤ) : (m, b) ∈ hs.flatMap (answerBoxes (registrations tr)) ↔
      ∃ r ∈ registrations tr, ((r.1 : ℤ), (r.2 : ℤ)) = (m, b) := by
  have hboxes : ∀ m, (mailboxes tr m).Perm
      (oddBoxes (((registrations tr).map Prod.fst).count m)) := by
    intro m
    obtain ⟨n, hperm⟩ := hodd m
    have hlen := hperm.length_eq
    rw [length_mailboxes, oddBoxes, List.length_map, List.length_range] at hlen
    rw [← hlen] at hperm
    exact hperm
  rw [List.mem_flatMap]
  constructor
  · rintro ⟨machine, -, hmem⟩
    obtain ⟨box, hbox, heq⟩ := Booked.mem_answerBoxes.mp hmem
    exact ⟨(machine, box), mem_mailboxes.mp ((hboxes machine).mem_iff.mpr hbox), heq⟩
  · rintro ⟨⟨machine, box⟩, hr, heq⟩
    refine ⟨machine, (h.heard machine).mpr (List.mem_map_of_mem hr), ?_⟩
    exact Booked.mem_answerBoxes.mpr
      ⟨box, (hboxes machine).mem_iff.mp (mem_mailboxes.mpr hr), heq⟩

/-- **The registration barrier.** For every order of arrival of `INIT_SUM` and
`INIT` messages from at most ten machines, with a sum announced before the first
`INIT`: the tables list the machines that registered and count their
registrations, nothing is sent before the announced number of registrations, and
then everybody is answered once, provided that no machine registered more than
fifty times. -/
theorem registration_barrier {tr : List Handled} {s : Server}
    (h : Run serverStep Expected .initial tr s) : Barrier tr s := by
  have hk := kept_of_run h
  obtain ⟨hs, hten, hb⟩ := hk.booked
  constructor
  case distinct =>
    intro i j hi hj heq
    rw [hb.length] at hi hj
    rw [(hb.get hi).1, (hb.get hj).1] at heq
    exact hb.nodup.getElem_inj_iff.mp (by exact_mod_cast heq)
  case heard =>
    intro m
    constructor
    · rintro ⟨i, hi, rfl⟩
      rw [hb.length] at hi
      obtain ⟨r, hr, heq⟩ := List.mem_map.mp ((hb.heard _).mp (List.getElem_mem hi))
      exact ⟨r, hr, by rw [(hb.get hi).1, heq]⟩
    · rintro ⟨r, hr, rfl⟩
      obtain ⟨i, hi, heq⟩ := List.getElem_of_mem ((hb.heard _).mpr (List.mem_map_of_mem hr))
      exact ⟨i, by rwa [hb.length], by rw [(hb.get hi).1, heq]⟩
  case threads =>
    intro i hi
    rw [hb.length] at hi
    exact ⟨hs[i], hb.get hi⟩
  case total => exact hb.sum_threads hten
  case counted => exact hb.counted
  case silent =>
    intro hmissing
    rcases hk.phase with hw | ⟨tr', e, s₀, rfl, hc⟩
    · exact ⟨hw.running, hw.silent⟩
    · obtain ⟨N, hN, hlen⟩ := hc.complete
      have := hmissing N hN
      omega
  case answered =>
    intro N hN hlen hfifty
    rcases hk.phase with hw | ⟨tr', e, s₀, rfl, hc⟩
    · have := hw.missing N hN
      omega
    · have hb₀ : Booked (registrations (tr' ++ [e])) hs s₀ := by
        rw [hc.after] at hb
        exact ⟨hb.nodup, hb.heard, hb.length, hb.machineID, hb.ThreadTable, hb.counted⟩
      obtain ⟨hdone, hdest⟩ := hb₀.sendMachines_drop hten hfifty 10 0 (by omega)
      rw [List.drop_zero, ← hc.sent] at hdest
      refine ⟨?_, tr', e, rfl, hc.silent, ?_, ?_⟩
      · rw [hc.after, hdone]
        rfl
      · rw [← hlen, ← hb.length_answers, ← hdest, List.length_map]
      · intro hodd
        rw [Handled.destinations, hdest]
        exact ⟨hb.nodup_answers, hb.mem_answers hodd⟩

instance (tr : List Handled) (s : Server) (a : Arrival) : Decidable (Expected tr s a) :=
  match a with
  | .initSum _ _ => inferInstanceAs (Decidable (_ → _))
  | .init _ _ => inferInstanceAs (Decidable (_ ∧ _))

/-- Two machines, three user programs. -/
theorem registration_barrier_three : ∃ tr s, Run serverStep Expected .initial tr s ∧
    Barrier tr s ∧ announced tr = some 3 ∧ registrations tr = [(1, 3), (2, 1), (1, 1)] := by
  have hx : (exec serverStep Expected [] .initial
        [.initSum 1 3, .init 1 3, .initSum 2 5, .init 2 1, .init 1 1]).isSome ∧
      ∀ p ∈ exec serverStep Expected [] .initial
        [.initSum 1 3, .init 1 3, .initSum 2 5, .init 2 1, .init 1 1],
        announced p.1 = some 3 ∧ registrations p.1 = [(1, 3), (2, 1), (1, 1)] := by
    decide +kernel
  obtain ⟨⟨tr, s⟩, hp⟩ := Option.isSome_iff_exists.mp hx.1
  have hrun := Run.of_exec .start hp
  exact ⟨tr, s, hrun, registration_barrier hrun, hx.2 _ hp⟩

/-- One machine that registers `n` times, from the mailboxes `1, 3, …`. -/
def oneMachine (n : ℕ) : List Arrival :=
  .initSum 1 n :: (oddBoxes n).map fun b => .init 1 b

/-- With 51 registrations of one machine the last answer has no mailbox: an
assertion fails after fifty of them. -/
theorem registration_unanswered :
    ¬ ∀ tr s, Run serverStep Expected .initial tr s →
      ∀ N, announced tr = some N → (registrations tr).length = N →
        ∃ tr' e, tr = tr' ++ [e] ∧ e.sent.length = N := by
  intro hall
  have hx : (exec serverStep Expected [] .initial (oneMachine 51)).isSome ∧
      ∀ p ∈ exec serverStep Expected [] .initial (oneMachine 51),
        announced p.1 = some 51 ∧ (registrations p.1).length = 51 ∧
        p.1.getLast?.map (fun e => e.sent.length) = some 50 := by
    decide +kernel
  obtain ⟨⟨tr, s⟩, hp⟩ := Option.isSome_iff_exists.mp hx.1
  obtain ⟨hann, hregs, hlast⟩ := hx.2 _ hp
  obtain ⟨tr', e, rfl, hsent⟩ := hall tr s (Run.of_exec .start hp) 51 hann (by rw [hregs]; rfl)
  simp only [List.getLast?_append, List.getLast?_singleton, Option.some_or, Option.map_some,
    Option.some.injEq] at hlast
  rw [hlast] at hsent
  cases hsent

end Nachos.Network
