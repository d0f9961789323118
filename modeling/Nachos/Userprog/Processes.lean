import Nachos.Lib.Run
import Nachos.Userprog.Table

/-!
# Processes and threads on record

The kernel keeps four records of what is running: the table of processes, the
number of processes, in every process the number of its threads, and the threads
themselves. `StartProcess` and `Exec` create a process with one thread, `Fork`
adds a thread to a process, `Exit` takes the running thread away and with the
last thread the process. Each call is one step here.

`Thread::Finish` and `Interrupt::Halt` do not return, so what stands behind them
in a call is not reached.
-/

namespace Nachos.Userprog

open Nachos.Lib

/-! ## The calls -/

/-- `Process`; a thread refers to it by its place in the order of creation. -/
structure ProcessRecord where
  pid : ℤ
  childThreadCounter : ℤ
deriving DecidableEq, Repr

/-- A user thread, live until its `Finish`. -/
structure UserThread where
  parentProcess : ℕ
  live : Bool
deriving DecidableEq, Repr

structure Kernel where
  processTable : Table ℕ
  processCounter : ℤ
  processes : List ProcessRecord
  threads : List UserThread

namespace Kernel

/-- What a call does after it has updated the records. -/
inductive Action where
  | releasePLock
  | finish
  | halt
  | finishPostOffice
deriving DecidableEq, Repr

/-- The actions that thread `tid` comes to, and what they leave. -/
def perform (s : Kernel) (tid : ℕ) : List Action → Kernel × List Action
  | [] => (s, [])
  | .finish :: _ =>
      ({ s with threads := s.threads.modify tid fun th => { th with live := false } }, [.finish])
  | .halt :: _ => (s, [.halt])
  | a :: as => ((perform s tid as).1, a :: (perform s tid as).2)

/-- The common part of `StartProcess` and `Exec_Syscall`, behind the check that the
file can be opened. The slot is `-1` when the table is full. -/
def createProcess (s : Kernel) : Kernel :=
  { processTable := (s.processTable.put s.processes.length).2
    processCounter := s.processCounter + 1
    processes := s.processes ++ [⟨(s.processTable.put s.processes.length).1, 0 + 1⟩]
    threads := s.threads ++ [⟨s.processes.length, true⟩] }

/-- `StartProcess`: the calling thread becomes the thread of the process. -/
def startProcess (s : Kernel) (opens : Bool) : Kernel × List Action :=
  if opens then (s.createProcess, [.releasePLock]) else (s, [.releasePLock])

/-- `Exec_Syscall`. -/
def execSyscall (s : Kernel) (opens : Bool) : Kernel × List Action :=
  if opens then (s.createProcess, [.releasePLock]) else (s, [.releasePLock])

/-- `Fork_Syscall`. It ends with a second `PLock->Acquire()`. -/
def forkSyscall (s : Kernel) (p : ℕ) : Kernel × List Action :=
  ({ s with
    processes := s.processes.modify p (fun r => ⟨r.pid, r.childThreadCounter + 1⟩)
    threads := s.threads ++ [⟨p, true⟩] }, [])

/-- `Exit_Syscall` of thread `tid` of process `p`. -/
def exitSyscall (s : Kernel) (tid p : ℕ) (r : ProcessRecord) : Kernel × List Action :=
  let s := { s with processes := s.processes.set p ⟨r.pid, r.childThreadCounter - 1⟩ }
  if r.childThreadCounter - 1 = 0 then
    let s := { s with
      processTable := (s.processTable.remove r.pid).2
      processCounter := s.processCounter - 1 }
    if s.processCounter = 0 then
      s.perform tid [.finish, .releasePLock, .halt, .finishPostOffice, .releasePLock, .finish]
    else s.perform tid [.releasePLock, .finish]
  else s.perform tid [.releasePLock, .finish]

inductive Label where
  | startProcess (opens : Bool)
  | exec (tid : ℕ) (opens : Bool)
  | fork (tid : ℕ)
  | exit (tid : ℕ)
deriving DecidableEq, Repr

/-- One call. `StartProcess` is called by a thread of the kernel, the others by a
live user thread. -/
def step (s : Kernel) (l : Label) : Option (Kernel × List Action) :=
  match l with
  | .startProcess opens => some (s.startProcess opens)
  | .exec tid opens =>
      match s.threads[tid]? with
      | some ⟨_, true⟩ => some (s.execSyscall opens)
      | _ => none
  | .fork tid =>
      match s.threads[tid]? with
      | some ⟨p, true⟩ => some (s.forkSyscall p)
      | _ => none
  | .exit tid =>
      match s.threads[tid]? with
      | some ⟨p, true⟩ => s.processes[p]?.map (s.exitSyscall tid p)
      | _ => none

def boot : Kernel := ⟨Table.empty 100, 0, [], []⟩

/-! ## The accounts -/

def liveThreads (s : Kernel) (p : ℕ) : ℕ :=
  s.threads.countP fun th => th.live && th.parentProcess == p

/-- The processes that still have a live thread. -/
def liveProcesses (s : Kernel) : Finset ℕ :=
  (Finset.range s.processes.length).filter fun p => 0 < s.liveThreads p

/-- **The records agree** with the threads that are live. -/
structure Accounted (s : Kernel) : Prop where
  /-- `processCounter` counts the slots in use and the live processes. -/
  counter_slots : s.processCounter = s.processTable.occupied
  counter_live : s.processCounter = s.liveProcesses.card
  children : ∀ p (r : ProcessRecord), s.processes[p]? = some r →
    r.childThreadCounter = s.liveThreads p
  /-- A process has its slot exactly as long as it has a live thread. -/
  slots : ∀ i p, s.processTable.get i = some p ↔
    ∃ r, s.processes[p]? = some r ∧ r.pid = i ∧ 0 < s.liveThreads p

/-- The exit that brings the number of processes to zero halts the machine. -/
def HaltsAtEnd (s : Kernel) (l : Label) (t : Kernel) (done : List Action) : Prop :=
  (∃ tid, l = .exit tid) → s.processCounter ≠ 0 → t.processCounter = 0 → Action.halt ∈ done

/-- There is a slot for every process that is created, and an exit is not that of
the last thread of the last process. -/
def soundCall : List (List Action) → Kernel → Label → Prop := fun _ s l =>
  match l with
  | .startProcess opens | .exec _ opens =>
      opens = true → ∃ i < s.processTable.size, s.processTable.get i = none
  | .fork _ => True
  | .exit tid => ∀ th ∈ s.threads[tid]?, ¬ (s.processCounter = 1 ∧ s.liveThreads th.parentProcess = 1)

instance (tr : List (List Action)) (s : Kernel) : (l : Label) → Decidable (soundCall tr s l)
  | .startProcess _ | .exec .. => inferInstanceAs (Decidable (_ → ∃ i < s.processTable.size, _))
  | .fork _ => inferInstanceAs (Decidable True)
  | .exit tid => inferInstanceAs (Decidable (∀ th ∈ s.threads[tid]?, _))

/-! ## Counting threads -/

/-- What every run keeps: threads belong to processes on record, and the counts of
threads and of processes are right. -/
structure Counted (s : Kernel) : Prop where
  parents : ∀ th ∈ s.threads, th.parentProcess < s.processes.length
  children : ∀ p (r : ProcessRecord), s.processes[p]? = some r →
    r.childThreadCounter = s.liveThreads p
  counter_live : s.processCounter = s.liveProcesses.card

/-- The slots are those of the live processes. -/
structure Slotted (s : Kernel) : Prop extends Counted s where
  counter_slots : s.processCounter = s.processTable.occupied
  slots : ∀ i p, s.processTable.get i = some p ↔
    ∃ r, s.processes[p]? = some r ∧ r.pid = i ∧ 0 < s.liveThreads p

theorem Slotted.accounted {s : Kernel} (h : Slotted s) : Accounted s :=
  ⟨h.counter_slots, h.counter_live, h.children, h.slots⟩

section Counting

variable {s t : Kernel} {p : ℕ} {r : ProcessRecord}

/-- A process that is not on record has no thread. -/
theorem Counted.liveThreads_eq_zero (h : Counted s) (hp : s.processes.length ≤ p) :
    s.liveThreads p = 0 := by
  refine List.countP_eq_zero.mpr ?_
  intro th hth
  have hlt := h.parents th hth
  simp only [Bool.and_eq_true, beq_iff_eq, not_and]
  rintro - rfl
  omega

theorem mem_liveProcesses (h : Counted s) : p ∈ s.liveProcesses ↔ 0 < s.liveThreads p := by
  rw [liveProcesses, Finset.mem_filter, Finset.mem_range, and_iff_right_iff_imp]
  intro hpos
  by_contra hge
  rw [h.liveThreads_eq_zero (Nat.not_lt.mp hge)] at hpos
  exact Nat.lt_irrefl 0 hpos

/-- One more live thread, of process `q`. -/
theorem liveThreads_add (hth : t.threads = s.threads ++ [⟨p, true⟩]) (q : ℕ) :
    t.liveThreads q = s.liveThreads q + if q = p then 1 else 0 := by
  rw [liveThreads, hth, List.countP_append, List.countP_singleton]
  by_cases hq : q = p
  · subst hq
    simp [liveThreads]
  · have hne : (p == q) = false := beq_false_of_ne fun h => hq h.symm
    simp [liveThreads, hq, hne]

/-- A live thread finishes. -/
theorem liveThreads_finish {tid : ℕ} (htid : s.threads[tid]? = some ⟨p, true⟩)
    (hth : t.threads = s.threads.modify tid fun th => { th with live := false }) (q : ℕ) :
    s.liveThreads q = t.liveThreads q + if q = p then 1 else 0 := by
  obtain ⟨hlt, hget⟩ := List.getElem?_eq_some_iff.mp htid
  have hset : t.threads = s.threads.set tid ⟨p, false⟩ := by
    rw [hth, List.modify_eq_set_getElem?, htid]
    rfl
  rw [liveThreads, liveThreads, hset, List.countP_set hlt, hget]
  by_cases hq : q = p
  · subst hq
    have hpos : 0 < s.threads.countP fun th => th.live && th.parentProcess == q := by
      refine List.countP_pos_iff.mpr ⟨_, List.mem_of_getElem? htid, ?_⟩
      simp
    simp only [Bool.true_and, beq_self_eq_true, if_true, Bool.false_and, Bool.false_eq_true,
      if_false]
    omega
  · have hne : (p == q) = false := beq_false_of_ne fun h => hq h.symm
    simp [hq, hne]

/-- The process of a live thread is on record, and live. -/
theorem Counted.parent (h : Counted s) {tid : ℕ} (htid : s.threads[tid]? = some ⟨p, true⟩) :
    p < s.processes.length ∧ 0 < s.liveThreads p := by
  have hmem := List.mem_of_getElem? htid
  refine ⟨h.parents _ hmem, List.countP_pos_iff.mpr ⟨_, hmem, ?_⟩⟩
  simp

end Counting

/-! ## The calls one by one -/

section Calls

variable {s : Kernel} {p tid : ℕ} {r : ProcessRecord}

/-- A new process: its number of threads is one, the others keep theirs. -/
theorem Counted.liveThreads_create (h : Counted s) (q : ℕ) :
    s.createProcess.liveThreads q = if q = s.processes.length then 1 else s.liveThreads q := by
  rw [liveThreads_add (s := s) (p := s.processes.length) rfl]
  split
  · rename_i hq
    rw [hq, h.liveThreads_eq_zero (Nat.le_refl _)]
  · rfl

theorem getElem?_create (q : ℕ) : s.createProcess.processes[q]? =
    if q = s.processes.length then some ⟨(s.processTable.put s.processes.length).1, 1⟩
    else s.processes[q]? := by
  show (s.processes ++ [_])[q]? = _
  rcases Nat.lt_trichotomy q s.processes.length with hlt | rfl | hgt
  · rw [List.getElem?_append_left hlt, if_neg (by omega)]
  · rw [List.getElem?_append_right (Nat.le_refl _), if_pos rfl, Nat.sub_self]
    rfl
  · rw [List.getElem?_eq_none (by simp; omega), if_neg (by omega),
      List.getElem?_eq_none (by omega)]

theorem Counted.create (h : Counted s) : Counted s.createProcess := by
  have hlen : s.createProcess.processes.length = s.processes.length + 1 := by
    simp [createProcess]
  have hparents : ∀ th ∈ s.createProcess.threads,
      th.parentProcess < s.createProcess.processes.length := by
    intro th hth
    rw [hlen]
    rcases List.mem_append.mp hth with hth | hth
    · exact Nat.lt_succ_of_lt (h.parents th hth)
    · obtain rfl := List.mem_singleton.mp hth
      exact Nat.lt_succ_self _
  refine ⟨hparents, ?_, ?_⟩
  · intro q r hr
    rw [getElem?_create] at hr
    rw [h.liveThreads_create]
    split
    · rename_i hq
      rw [if_pos hq] at hr
      rw [← Option.some.inj hr]
      rfl
    · rename_i hq
      rw [if_neg hq] at hr
      exact h.children q r hr
  · have hinsert : s.createProcess.liveProcesses = insert s.processes.length s.liveProcesses := by
      ext q
      rw [Finset.mem_insert, mem_liveProcesses h, liveProcesses, Finset.mem_filter,
        Finset.mem_range, h.liveThreads_create, hlen]
      split
      · rename_i hq
        simp [hq]
      · rename_i hq
        simp only [hq, false_or, and_iff_right_iff_imp]
        intro hpos
        have hmem := (mem_liveProcesses h).mpr hpos
        have hlt := Finset.mem_range.mp (Finset.mem_filter.mp hmem).1
        omega
    show s.processCounter + 1 = _
    rw [hinsert, Finset.card_insert_of_notMem, h.counter_live]
    · push_cast
      rfl
    · rw [mem_liveProcesses h, h.liveThreads_eq_zero (Nat.le_refl _)]
      exact Nat.lt_irrefl 0

theorem Counted.fork (h : Counted s) (htid : s.threads[tid]? = some ⟨p, true⟩) :
    Counted (s.forkSyscall p).1 := by
  obtain ⟨hlt, hpos⟩ := h.parent htid
  have hlive : ∀ q, (s.forkSyscall p).1.liveThreads q = s.liveThreads q + if q = p then 1 else 0 :=
    liveThreads_add rfl
  refine ⟨?_, ?_, ?_⟩
  · intro th hth
    show th.parentProcess < (s.processes.modify p _).length
    rw [List.length_modify]
    rcases List.mem_append.mp hth with hth | hth
    · exact h.parents th hth
    · obtain rfl := List.mem_singleton.mp hth
      exact hlt
  · intro q r hr
    replace hr : (s.processes.modify p _)[q]? = some r := hr
    rw [List.getElem?_modify] at hr
    obtain ⟨r', hr', heq⟩ := Option.map_eq_some_iff.mp hr
    rw [hlive, ← heq]
    by_cases hq : p = q
    · subst hq
      simp only [if_true, h.children p r' hr']
      push_cast
      rfl
    · simp only [if_neg hq, if_neg (Ne.symm hq)]
      exact h.children q r' hr'
  · have hsame : (s.forkSyscall p).1.liveProcesses = s.liveProcesses := by
      ext q
      simp only [liveProcesses, Finset.mem_filter, hlive]
      have hlen : (s.forkSyscall p).1.processes.length = s.processes.length :=
        List.length_modify ..
      rw [hlen]
      refine and_congr_right fun _ => ?_
      split
      · rename_i hq
        subst hq
        exact iff_of_true (Nat.succ_pos _) hpos
      · rfl
    rw [hsame]
    exact h.counter_live

/-- What an exit leaves: the thread has finished and its process has one thread
less; with the last thread go the slot and the process. -/
structure Exited (s : Kernel) (tid p : ℕ) (r : ProcessRecord) (t : Kernel) : Prop where
  threads : t.threads = s.threads.modify tid fun th => { th with live := false }
  processes : t.processes =
    s.processes.set p ⟨r.pid, r.childThreadCounter - 1⟩
  last : r.childThreadCounter - 1 = 0 → t.processCounter = s.processCounter - 1 ∧
    t.processTable = (s.processTable.remove r.pid).2
  other : r.childThreadCounter - 1 ≠ 0 → t.processCounter = s.processCounter ∧
    t.processTable = s.processTable

/-- **An exit never halts the machine**: the call to `Finish` comes first. -/
theorem exited_exitSyscall {t : Kernel} {done : List Action}
    (h : s.exitSyscall tid p r = (t, done)) : Exited s tid p r t ∧ Action.halt ∉ done := by
  unfold exitSyscall at h
  by_cases hlast : r.childThreadCounter - 1 = 0
  · by_cases hzero : s.processCounter - 1 = 0
    · simp only [hlast, hzero, if_true, perform, Prod.mk.injEq] at h
      obtain ⟨rfl, rfl⟩ := h
      refine ⟨⟨rfl, by rw [hlast], fun _ => ⟨hzero.symm, rfl⟩, fun hne => absurd hlast hne⟩, ?_⟩
      simp
    · simp only [hlast, hzero, if_true, if_false, perform, Prod.mk.injEq] at h
      obtain ⟨rfl, rfl⟩ := h
      refine ⟨⟨rfl, by rw [hlast], fun _ => ⟨rfl, rfl⟩, fun hne => absurd hlast hne⟩, ?_⟩
      simp
  · simp only [hlast, if_false, perform, Prod.mk.injEq] at h
    obtain ⟨rfl, rfl⟩ := h
    refine ⟨⟨rfl, rfl, fun heq => absurd heq hlast, fun _ => ⟨rfl, rfl⟩⟩, ?_⟩
    simp

variable {t : Kernel}

theorem Exited.getElem? (he : Exited s tid p r t) (hr : s.processes[p]? = some r) (q : ℕ) :
    t.processes[q]? =
      if q = p then some ⟨r.pid, r.childThreadCounter - 1⟩
      else s.processes[q]? := by
  rw [he.processes]
  by_cases hq : q = p
  · subst hq
    rw [if_pos rfl, List.getElem?_set_self (List.getElem?_eq_some_iff.mp hr).1]
  · rw [if_neg hq, List.getElem?_set_ne (Ne.symm hq)]

/-- The last thread is the one that leaves no live thread. -/
theorem Exited.last_iff (he : Exited s tid p r t) (h : Counted s)
    (htid : s.threads[tid]? = some ⟨p, true⟩) (hr : s.processes[p]? = some r) :
    r.childThreadCounter - 1 = 0 ↔ t.liveThreads p = 0 := by
  have hcount := liveThreads_finish htid he.threads p
  rw [if_pos rfl] at hcount
  rw [h.children p r hr, hcount]
  push_cast
  omega

theorem Counted.exit (h : Counted s) (he : Exited s tid p r t)
    (htid : s.threads[tid]? = some ⟨p, true⟩) (hr : s.processes[p]? = some r) : Counted t := by
  have hlive := liveThreads_finish htid he.threads
  have hlast := he.last_iff h htid hr
  have hparents : ∀ th ∈ t.threads, th.parentProcess < t.processes.length := by
    intro th hth
    rw [he.processes, List.length_set]
    rw [he.threads] at hth
    obtain ⟨i, hi⟩ := List.getElem?_of_mem hth
    rw [List.getElem?_modify] at hi
    obtain ⟨th', hth', heq⟩ := Option.map_eq_some_iff.mp hi
    have hlt := h.parents th' (List.mem_of_getElem? hth')
    rw [← heq]
    split <;> exact hlt
  refine ⟨hparents, ?_, ?_⟩
  · intro q r' hr'
    rw [he.getElem? hr] at hr'
    have hq := hlive q
    split at hr'
    · rename_i heq
      subst heq
      rw [if_pos rfl] at hq
      rw [← Option.some.inj hr']
      show r.childThreadCounter - 1 = _
      rw [h.children q r hr, hq]
      push_cast
      omega
    · rename_i hne
      rw [if_neg hne] at hq
      rw [h.children q r' hr', hq]
      rfl
  · by_cases hctc : r.childThreadCounter - 1 = 0
    · have herase : t.liveProcesses = s.liveProcesses.erase p := by
        ext q
        rw [Finset.mem_erase, mem_liveProcesses h, liveProcesses, Finset.mem_filter,
          Finset.mem_range, he.processes, List.length_set]
        have hq := hlive q
        by_cases hqp : q = p
        · subst hqp
          simp [hlast.mp hctc]
        · rw [if_neg hqp, Nat.add_zero] at hq
          simp only [ne_eq, hqp, not_false_eq_true, true_and, hq, and_iff_right_iff_imp]
          rw [← hq]
          intro hpos
          exact Finset.mem_range.mp (Finset.mem_filter.mp ((mem_liveProcesses h).mpr hpos)).1
      have hmem : p ∈ s.liveProcesses := (mem_liveProcesses h).mpr (h.parent htid).2
      rw [(he.last hctc).1, herase, h.counter_live, ← Finset.card_erase_add_one hmem]
      push_cast
      omega
    · have hsame : t.liveProcesses = s.liveProcesses := by
        ext q
        simp only [liveProcesses, Finset.mem_filter, he.processes, List.length_set]
        refine and_congr_right fun _ => ?_
        have hq := hlive q
        by_cases hqp : q = p
        · subst hqp
          have hleft : t.liveThreads q ≠ 0 := fun h0 => hctc (hlast.mpr h0)
          omega
        · rw [if_neg hqp] at hq
          omega
      rw [(he.other hctc).1, hsame]
      exact h.counter_live

end Calls

/-! ## Slots -/

section Slots

variable {s t : Kernel} {p tid : ℕ} {r : ProcessRecord}

/-- **A new process** gets a slot, if there is one. -/
theorem Slotted.create (h : Slotted s)
    (hroom : ∃ i < s.processTable.size, s.processTable.get i = none) :
    Slotted s.createProcess := by
  obtain ⟨i, hi, hnone⟩ := hroom
  obtain ⟨hnonneg, -⟩ := Table.put_le s.processes.length hi hnone
  obtain ⟨hfree, htaken, hsize, hrest⟩ := Table.put_spec
    (t := s.processTable) (x := s.processes.length) Prod.mk.eta.symm (by omega)
  refine ⟨h.toCounted.create, ?_, ?_⟩
  · show s.processCounter + 1 = ((s.processTable.put s.processes.length).2.occupied : ℤ)
    rw [Table.occupied_of_filled hsize hfree (by rw [htaken]; rfl) hrest, h.counter_slots]
    push_cast
    rfl
  · intro j q
    show (s.processTable.put s.processes.length).2.get j = some q ↔ _
    rw [getElem?_create, h.liveThreads_create]
    by_cases hj : j = (s.processTable.put s.processes.length).1
    · subst hj
      rw [htaken]
      by_cases hq : q = s.processes.length
      · subst hq
        simp
      · -- no other live process has this slot, since it was free
        simp only [Option.some.injEq, Ne.symm hq, false_iff, if_neg hq]
        rintro ⟨r, hr, hpid, hpos⟩
        have htaken' := (h.slots _ q).mpr ⟨r, hr, hpid, hpos⟩
        rw [hfree] at htaken'
        cases htaken'
    · rw [hrest j hj, h.slots]
      by_cases hq : q = s.processes.length
      · subst hq
        simp only [if_true, h.liveThreads_eq_zero (Nat.le_refl _), Nat.lt_irrefl, and_false,
          exists_false, Option.some.injEq, exists_eq_left', false_iff]
        exact fun hc => hj hc.1.symm
      · simp only [if_neg hq]

/-- A full table has a process more than it has slots afterwards. -/
theorem Slotted.create_full (h : Slotted s)
    (hfull : ¬ ∃ i < s.processTable.size, s.processTable.get i = none) :
    ¬ Accounted s.createProcess := by
  intro ht
  have hput : s.processTable.put s.processes.length = (-1, s.processTable) := by
    unfold Table.put
    split
    · rename_i i hi
      obtain ⟨hlt, hclear, -⟩ := BitMap.find_some hi
      refine absurd ⟨i, hlt, ?_⟩ hfull
      simpa [Table.get, hlt] using hclear
    · rfl
  have hslots := ht.counter_slots
  rw [show s.createProcess.processTable = s.processTable from congrArg Prod.snd hput,
    show s.createProcess.processCounter = s.processCounter + 1 from rfl, h.counter_slots] at hslots
  omega

theorem Slotted.fork (h : Slotted s) (htid : s.threads[tid]? = some ⟨p, true⟩) :
    Slotted (s.forkSyscall p).1 := by
  refine ⟨h.toCounted.fork htid, h.counter_slots, ?_⟩
  intro i q
  have hlive : (s.forkSyscall p).1.liveThreads q = s.liveThreads q + if q = p then 1 else 0 :=
    liveThreads_add rfl q
  have hpos : 0 < (s.forkSyscall p).1.liveThreads q ↔ 0 < s.liveThreads q := by
    rw [hlive]
    split
    · rename_i hq
      rw [hq]
      exact iff_of_true (Nat.succ_pos _) (h.parent htid).2
    · rfl
  rw [hpos]
  show s.processTable.get i = some q ↔ ∃ r, (s.processes.modify p _)[q]? = some r ∧ _
  rw [h.slots, List.getElem?_modify]
  constructor
  · rintro ⟨r, hr, hpid, hl⟩
    refine ⟨_, by rw [hr]; rfl, ?_, hl⟩
    split <;> exact hpid
  · rintro ⟨r, hr, hpid, hl⟩
    obtain ⟨r', hr', heq⟩ := Option.map_eq_some_iff.mp hr
    refine ⟨r', hr', ?_, hl⟩
    rw [← hpid, ← heq]
    split <;> rfl

/-- **An exit** frees the slot with the last thread and not before. -/
theorem Slotted.exit (h : Slotted s) (he : Exited s tid p r t)
    (htid : s.threads[tid]? = some ⟨p, true⟩) (hr : s.processes[p]? = some r) : Slotted t := by
  have hlive := liveThreads_finish htid he.threads
  have hlast := he.last_iff h.toCounted htid hr
  have hslot : s.processTable.get r.pid = some p :=
    (h.slots r.pid p).mpr ⟨r, hr, rfl, (h.parent htid).2⟩
  refine ⟨h.toCounted.exit he htid hr, ?_, ?_⟩
  · by_cases hctc : r.childThreadCounter - 1 = 0
    · obtain ⟨hcounter, htable⟩ := he.last hctc
      have hfilled : s.processTable.occupied = t.processTable.occupied + 1 := by
        refine Table.occupied_of_filled (i := r.pid) ?_ ?_ ?_ ?_
        · rw [htable, Table.remove_size]
        · rw [htable, Table.get_remove, if_pos rfl]
        · rw [hslot]
          rfl
        · intro j hj
          rw [htable, Table.get_remove, if_neg hj]
      rw [hcounter, h.counter_slots, hfilled]
      push_cast
      omega
    · obtain ⟨hcounter, htable⟩ := he.other hctc
      rw [hcounter, htable]
      exact h.counter_slots
  · intro i q
    have hq := hlive q
    rw [he.getElem? hr]
    by_cases hqp : q = p
    · subst hqp
      simp only [if_true, Option.some.injEq, exists_eq_left']
      by_cases hctc : r.childThreadCounter - 1 = 0
      · -- the slot of the process is empty now, and it had no other
        rw [(he.last hctc).2, Table.get_remove, hlast.mp hctc]
        simp only [Nat.lt_irrefl, and_false, iff_false]
        split
        · simp
        · rename_i hne
          intro hget
          obtain ⟨r', hr', hpid, -⟩ := (h.slots i q).mp hget
          rw [hr] at hr'
          exact hne (hpid ▸ Option.some.inj hr' ▸ rfl)
      · have hpos : 0 < t.liveThreads q := Nat.pos_of_ne_zero fun h0 => hctc (hlast.mpr h0)
        rw [(he.other hctc).2, h.slots]
        simp [hr, (h.parent htid).2, hpos]
    · rw [if_neg hqp, Nat.add_zero] at hq
      simp only [if_neg hqp, ← hq]
      by_cases hctc : r.childThreadCounter - 1 = 0
      · rw [(he.last hctc).2, Table.get_remove]
        split
        · rename_i hi
          subst hi
          simp only [reduceCtorEq, false_iff]
          intro hother
          have hget := (h.slots r.pid q).mpr hother
          rw [hslot] at hget
          exact hqp (Option.some.inj hget).symm
        · exact h.slots i q
      · rw [(he.other hctc).2]
        exact h.slots i q

end Slots

/-! ## Runs -/

section Steps

variable {s t : Kernel} {l : Label} {done : List Action}

/-- The steps by kind. -/
theorem step_cases (h : s.step l = some (t, done)) :
    (∃ opens, (l = .startProcess opens ∨ ∃ tid, l = .exec tid opens) ∧
        t = if opens then s.createProcess else s) ∨
      (∃ tid p, l = .fork tid ∧ s.threads[tid]? = some ⟨p, true⟩ ∧ t = (s.forkSyscall p).1) ∨
      ∃ tid p r, l = .exit tid ∧ s.threads[tid]? = some ⟨p, true⟩ ∧ s.processes[p]? = some r ∧
        Exited s tid p r t ∧ Action.halt ∉ done := by
  unfold step at h
  split at h
  · rename_i opens
    refine .inl ⟨opens, .inl rfl, ?_⟩
    cases opens <;> exact (congrArg Prod.fst (Option.some.inj h)).symm
  · rename_i tid opens
    split at h
    · refine .inl ⟨opens, .inr ⟨tid, rfl⟩, ?_⟩
      cases opens <;> exact (congrArg Prod.fst (Option.some.inj h)).symm
    · cases h
  · rename_i tid
    split at h
    · rename_i p hp
      exact .inr (.inl ⟨tid, p, rfl, hp, (congrArg Prod.fst (Option.some.inj h)).symm⟩)
    · cases h
  · rename_i tid
    split at h
    · rename_i p hp
      obtain ⟨r, hr, heq⟩ := Option.map_eq_some_iff.mp h
      obtain ⟨he, hhalt⟩ := exited_exitSyscall heq
      exact .inr (.inr ⟨tid, p, r, rfl, hp, hr, he, hhalt⟩)
    · cases h

theorem Slotted.step {tr : List (List Action)} (h : Slotted s) (hok : soundCall tr s l)
    (hs : s.step l = some (t, done)) : Slotted t := by
  obtain ⟨opens, hl, rfl⟩ | ⟨tid, p, -, htid, rfl⟩ | ⟨tid, p, r, -, htid, hr, he, -⟩ :=
    step_cases hs
  · cases opens with
    | false => exact h
    | true =>
        refine h.create ?_
        obtain rfl | ⟨tid, rfl⟩ := hl
        · exact hok rfl
        · exact hok rfl
  · exact h.fork htid
  · exact h.exit he htid hr

/-- A call that is not sound breaks the accounts or ends without `Halt`. -/
theorem soundCall_of_accounted {tr : List (List Action)} (h : Slotted s)
    (hs : s.step l = some (t, done)) (ht : Accounted t) (hhalt : HaltsAtEnd s l t done) :
    soundCall tr s l := by
  obtain ⟨opens, hl, rfl⟩ | ⟨tid, p, rfl, -⟩ | ⟨tid, p, r, rfl, htid, hr, he, hnot⟩ :=
    step_cases hs
  · have hroom : opens = true → ∃ i < s.processTable.size, s.processTable.get i = none := by
      rintro rfl
      by_contra hfull
      exact h.create_full hfull ht
    obtain rfl | ⟨tid, rfl⟩ := hl
    · exact hroom
    · exact hroom
  · trivial
  · rintro th hth ⟨hone, hlive⟩
    obtain rfl := Option.some.inj (htid.symm.trans hth)
    have hctc : r.childThreadCounter - 1 = 0 := by
      rw [h.children p r hr, hlive]
      rfl
    have hzero : t.processCounter = 0 := by
      rw [(he.last hctc).1, hone]
      rfl
    exact hnot (hhalt ⟨tid, rfl⟩ (by rw [hone]; exact one_ne_zero) hzero)

/-- A sound call brings the number of processes to zero with no exit. -/
theorem haltsAtEnd_of_soundCall {tr : List (List Action)} (h : Slotted s)
    (hs : s.step l = some (t, done)) (hok : soundCall tr s l) : HaltsAtEnd s l t done := by
  rintro ⟨tid, rfl⟩ hne hzero
  exfalso
  obtain ⟨opens, hl, -⟩ | ⟨tid', p, hl, -⟩ | ⟨tid', p, r, hl, htid, hr, he, -⟩ := step_cases hs
  · obtain hl | ⟨tid', hl⟩ := hl <;> cases hl
  · cases hl
  · obtain rfl := Label.exit.inj hl
    by_cases hctc : r.childThreadCounter - 1 = 0
    · rw [(he.last hctc).1] at hzero
      refine hok _ htid ⟨by omega, ?_⟩
      have hcount := h.children p r hr
      show s.liveThreads p = 1
      omega
    · rw [(he.other hctc).1] at hzero
      exact hne hzero

end Steps

theorem Slotted.boot : Slotted boot := by
  refine ⟨⟨?_, ?_, rfl⟩, ?_, ?_⟩
  · rintro th ⟨⟩
  · rintro p r ⟨⟩
  · show (0 : ℤ) = ((Table.empty 100 : Table ℕ).occupied : ℤ)
    rw [Table.occupied_empty]
    rfl
  · intro i p
    refine iff_of_false ?_ ?_
    · show (Table.empty 100 : Table ℕ).get i ≠ some p
      rw [Table.get_empty]
      simp
    · rintro ⟨r, ⟨⟩, -⟩

/-- **Process and thread accounting.** After every run of sound calls the records
agree with the live threads. The next call keeps them so, and halts the machine
if it ends the last process, exactly when it is sound. -/
theorem accounted_iff_sound_call {tr : List (List Action)} {s : Kernel}
    (h : Run step soundCall boot tr s) :
    Accounted s ∧ ∀ l t done, step s l = some (t, done) →
      (Accounted t ∧ HaltsAtEnd s l t done ↔ soundCall tr s l) := by
  have hall : Slotted s := by
    refine h.invariant (I := fun _ s => Slotted s) .boot ?_
    intro tr s l t done hi hok hs
    exact hi.step hok hs
  refine ⟨hall.accounted, ?_⟩
  intro l t done hs
  constructor
  · rintro ⟨ht, hhalt⟩
    exact soundCall_of_accounted hall hs ht hhalt
  · intro hok
    exact ⟨(hall.step hok hs).accounted, haltsAtEnd_of_soundCall hall hs hok⟩

/-- A process starts another one and forks; both threads of it exit. -/
theorem accounted_iff_sound_call_sample :
    ∃ s, Run step soundCall boot [[.releasePLock], [.releasePLock], [],
      [.releasePLock, .finish], [.releasePLock, .finish]] s ∧ s.processCounter = 1 ∧ Accounted s := by
  have hp : (exec step soundCall [] boot [.startProcess true, .exec 0 true, .fork 1, .exit 2,
      .exit 1]).map (fun r => (r.1, r.2.processCounter)) = some ([[.releasePLock], [.releasePLock], [],
        [.releasePLock, .finish], [.releasePLock, .finish]], 1) := by
    decide +kernel
  obtain ⟨⟨tr, s⟩, hexec, heq⟩ := Option.map_eq_some_iff.mp hp
  obtain ⟨rfl, hcounter⟩ := Prod.mk.inj heq
  have hrun := Run.of_exec .start hexec
  exact ⟨s, hrun, hcounter, (accounted_iff_sound_call hrun).1⟩

/-- The only thread of the only process exits: no process is left, and the machine
is not halted. -/
theorem last_exit_never_halts :
    ∃ s t, Run step anyStep boot [[.releasePLock]] s ∧ step s (.exit 0) = some (t, [.finish]) ∧
      ¬ HaltsAtEnd s (.exit 0) t [.finish] := by
  have hp : (exec step anyStep [] boot [.startProcess true]).map (fun r => (r.1,
      r.2.processCounter, (step r.2 (.exit 0)).map fun q => (q.1.processCounter, q.2))) =
        some ([[.releasePLock]], 1, some (0, [.finish])) := by
    decide +kernel
  obtain ⟨⟨tr, s⟩, hexec, heq⟩ := Option.map_eq_some_iff.mp hp
  simp only [Prod.mk.injEq] at heq
  obtain ⟨rfl, hone, hstep⟩ := heq
  obtain ⟨⟨t, done⟩, hs, hdone⟩ := Option.map_eq_some_iff.mp hstep
  obtain ⟨hzero, rfl⟩ := Prod.mk.inj hdone
  refine ⟨s, t, .of_exec .start hexec, hs, ?_⟩
  intro hhalt
  have hmem := hhalt ⟨0, rfl⟩ (by rw [hone]; exact one_ne_zero) hzero
  simp at hmem

end Kernel

end Nachos.Userprog
