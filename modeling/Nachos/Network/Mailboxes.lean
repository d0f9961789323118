import Nachos.Lib.Run
import Nachos.Network.Barrier

/-!
# Who gets a mailbox

A user thread talks to its network thread through two mailboxes of the post
office: its own, `mailBox`, and the next one. User threads come into being on
three paths. `Exec_Syscall` takes two numbers from `threadCounter`, forks a
network thread with the odd one and a user thread with the even one, and
`exec_thread` stores the even one in `mailBox`. `StartProcess` turns the main
thread into a user thread and `Fork_Syscall` forks one with `kernel_thread`;
neither assigns `mailBox`, which keeps what the heap held, and neither forks a
network thread.

The kernel is modelled at the level of these calls, in any order. A forked
thread starts in a step of its own, so that every order of the ready list and
every preemption is covered. `network_thread` begins with a `Receive`, which
asserts that the mailbox exists; if it does not, all of Nachos stops.
-/

namespace Nachos.Network

open Nachos.Lib

/-- The path on which a user thread came into being; `exec n` is the `Exec` that
`n` others came before. -/
inductive Origin where
  | startProcess
  | exec (n : ℕ)
  | fork
deriving DecidableEq, Repr

/-- A live user thread. `tid` is the argument of `exec_thread`; `running` says
that the thread has reached `machine->Run()`. -/
structure UserThread where
  id : ℕ
  origin : Origin
  tid : ℕ
  mailBox : ℤ
  running : Bool
deriving DecidableEq, Repr

/-- A network thread: the argument of `network_thread`, and the user thread that
the same `Exec` forked. -/
structure NetworkThread where
  box : ℕ
  serves : ℕ
deriving DecidableEq, Repr

/-- The kernel. `nextId` and `execs` number the threads and the `Exec`s. -/
structure Kernel where
  threadCounter : ℕ
  users : List UserThread
  nets : List NetworkThread
  nextId : ℕ
  execs : ℕ
deriving DecidableEq, Repr

def Kernel.initial : Kernel := ⟨0, [], [], 0, 0⟩

/-- What happens next. `opens` says whether the executable can be opened, `heap`
is what a new `Thread` object holds in `mailBox`. -/
inductive Call where
  | startProcess (opens : Bool) (heap : ℤ)
  | exec (caller : ℕ) (opens : Bool) (heap : ℤ)
  | fork (caller : ℕ) (heap : ℤ)
  | start (thread : ℕ)
  | startNetwork (box : ℕ)
  | exit (caller : ℕ)
deriving DecidableEq, Repr

/-- The thread runs user code and can make system calls. -/
def Kernel.Runs (s : Kernel) (id : ℕ) : Prop := ∃ t ∈ s.users, t.id = id ∧ t.running = true

instance (s : Kernel) (id : ℕ) : Decidable (s.Runs id) :=
  inferInstanceAs (Decidable (∃ t ∈ s.users, t.id = id ∧ t.running = true))

/-- A forked thread reaches user code. `exec_thread` stores its argument first,
`kernel_thread` does not touch `mailBox`. -/
def UserThread.start (t : UserThread) : UserThread :=
  match t.origin with
  | .exec _ => { t with mailBox := t.tid, running := true }
  | _ => { t with running := true }

/-- Add a user thread. -/
def Kernel.add (s : Kernel) (origin : Origin) (tid : ℕ) (heap : ℤ) (running : Bool) : Kernel :=
  { s with
    users := s.users ++ [⟨s.nextId, origin, tid, heap, running⟩]
    nextId := s.nextId + 1 }

/-- `Exec_Syscall` after the executable has been opened. -/
def Kernel.execute (s : Kernel) (heap : ℤ) : Kernel :=
  let nwThreadID := s.threadCounter + 1
  let upThreadID := s.threadCounter
  { s.add (.exec s.execs) upThreadID heap false with
    threadCounter := s.threadCounter + 2
    nets := s.nets ++ [⟨nwThreadID, s.nextId⟩]
    execs := s.execs + 1 }

def Kernel.call (s : Kernel) : Call → Option Kernel
  | .startProcess opens heap => some (if opens then s.add .startProcess 0 heap true else s)
  | .exec caller opens heap =>
      if s.Runs caller then some (if opens then s.execute heap else s) else none
  | .fork caller heap => if s.Runs caller then some (s.add .fork 0 heap false) else none
  | .start thread =>
      some { s with users := s.users.map fun t =>
        if t.id = thread ∧ t.running = false then t.start else t }
  | .startNetwork box =>
      if box ∈ s.nets.map NetworkThread.box then
        -- the assertion of `Receive` ends every thread
        some (if (box : ℤ) < numBoxes then s else { s with users := [], nets := [] })
      else none
  | .exit caller =>
      if s.Runs caller then some { s with users := s.users.filter fun t => t.id ≠ caller } else none

/-- The kernel as a machine whose labels are the calls. -/
def kernelStep (s : Kernel) (c : Call) : Option (Kernel × Call) := (s.call c).map fun s' => (s', c)

/-! ## What is meant -/

/-- The mailbox of `t` can be used for its requests. -/
structure Addressed (s : Kernel) (t : UserThread) : Prop where
  even : t.mailBox % 2 = 0
  below : 0 ≤ t.mailBox ∧ t.mailBox < numBoxes - 1
  own : ∀ u ∈ s.users, u.running = true → u.id ≠ t.id → u.mailBox ≠ t.mailBox
  ownNet : ∀ n ∈ s.nets, (n.box : ℤ) ≠ t.mailBox
  served : ∃ n ∈ s.nets, (n.box : ℤ) = t.mailBox + 1 ∧ n.serves = t.id ∧
    ∀ m ∈ s.nets, m.box = n.box → m = n

/-- Every live user thread that can make system calls has a usable mailbox. -/
def MailboxesUsable (s : Kernel) : Prop := ∀ t ∈ s.users, t.running = true → Addressed s t

/-! ## The numbering -/

/-- What every call preserves: ids are unique, the `n`-th `Exec` has used the
numbers `2n` and `2n+1`, and every network thread serves the user thread of its
own `Exec`. -/
structure Numbered (s : Kernel) : Prop where
  ids : ∀ t ∈ s.users, t.id < s.nextId
  unique : ∀ t ∈ s.users, ∀ u ∈ s.users, t.id = u.id → t = u
  counter : s.threadCounter = 2 * s.execs
  tids : ∀ t ∈ s.users, ∀ n, t.origin = .exec n →
    n < s.execs ∧ t.tid = 2 * n ∧ (t.running = true → t.mailBox = 2 * n)
  execOnce : ∀ t ∈ s.users, ∀ u ∈ s.users, ∀ n, t.origin = .exec n → u.origin = .exec n →
    t.id = u.id
  served : ∀ t ∈ s.users, ∀ n, t.origin = .exec n → ⟨2 * n + 1, t.id⟩ ∈ s.nets
  serves : ∀ x ∈ s.nets, x.serves < s.nextId ∧
    ∃ n < s.execs, x.box = 2 * n + 1 ∧ ∀ t ∈ s.users, t.id = x.serves → t.origin = .exec n
  boxOnce : ∀ x ∈ s.nets, ∀ y ∈ s.nets, x.box = y.box → x = y

namespace Numbered

variable {s : Kernel}

theorem initial : Numbered .initial := by
  constructor <;> simp [Kernel.initial]

@[simp] theorem start_id (t : UserThread) : t.start.id = t.id := by
  unfold UserThread.start
  split <;> rfl

@[simp] theorem start_origin (t : UserThread) : t.start.origin = t.origin := by
  unfold UserThread.start
  split <;> rfl

@[simp] theorem start_tid (t : UserThread) : t.start.tid = t.tid := by
  unfold UserThread.start
  split <;> rfl

theorem start_mailBox {t : UserThread} {n : ℕ} (h : t.origin = .exec n) :
    t.start.mailBox = t.tid := by
  unfold UserThread.start
  rw [h]

/-- The members after a thread has been added. -/
theorem mem_add {origin : Origin} {tid : ℕ} {heap : ℤ} {running : Bool} {t : UserThread} :
    t ∈ (s.add origin tid heap running).users ↔
      t ∈ s.users ∨ t = ⟨s.nextId, origin, tid, heap, running⟩ := by
  simp [Kernel.add]

/-- The new thread has an id of its own. -/
theorem unique_add (h : Numbered s) {origin : Origin} {tid : ℕ} {heap : ℤ} {running : Bool} :
    ∀ t ∈ (s.add origin tid heap running).users, ∀ u ∈ (s.add origin tid heap running).users,
      t.id = u.id → t = u := by
  intro t ht u hu heq
  rcases mem_add.mp ht with ht | rfl <;> rcases mem_add.mp hu with hu | rfl
  · exact h.unique t ht u hu heq
  · exact absurd heq (Nat.ne_of_lt (h.ids t ht))
  · exact absurd heq.symm (Nat.ne_of_lt (h.ids u hu))
  · rfl

theorem ids_add (h : Numbered s) {origin : Origin} {tid : ℕ} {heap : ℤ} {running : Bool} :
    ∀ t ∈ (s.add origin tid heap running).users, t.id < s.nextId + 1 := by
  intro t ht
  rcases mem_add.mp ht with ht | rfl
  · exact Nat.lt_succ_of_lt (h.ids t ht)
  · exact Nat.lt_succ_self _

/-- A thread that no `Exec` forked. -/
theorem add (h : Numbered s) {origin : Origin} (ho : ∀ n, origin ≠ .exec n) (heap : ℤ)
    (running : Bool) : Numbered (s.add origin 0 heap running) := by
  -- what is said about threads of an `Exec` is said about the old ones
  have hold : ∀ t ∈ (s.add origin 0 heap running).users, ∀ n, t.origin = .exec n → t ∈ s.users := by
    intro t ht n hn
    rcases mem_add.mp ht with ht | rfl
    · exact ht
    · exact absurd hn (ho n)
  refine ⟨h.ids_add, h.unique_add, h.counter, ?_, ?_, ?_, ?_, h.boxOnce⟩
  · intro t ht n hn
    exact h.tids t (hold t ht n hn) n hn
  · intro t ht u hu n htn hun
    exact h.execOnce t (hold t ht n htn) u (hold u hu n hun) n htn hun
  · intro t ht n hn
    exact h.served t (hold t ht n hn) n hn
  · intro x hx
    obtain ⟨hlt, n, hn, hbox, hserves⟩ := h.serves x hx
    refine ⟨Nat.lt_succ_of_lt hlt, n, hn, hbox, ?_⟩
    intro t ht hid
    rcases mem_add.mp ht with ht | rfl
    · exact hserves t ht hid
    · exact absurd hid.symm (Nat.ne_of_lt hlt)

/-- The two threads of an `Exec`. -/
theorem execute (h : Numbered s) (heap : ℤ) : Numbered (s.execute heap) := by
  have hcounter := h.counter
  have hlast : ∀ t ∈ s.users, ∀ n, t.origin = .exec n → n ≠ s.execs := by
    intro t ht n hn
    exact Nat.ne_of_lt (h.tids t ht n hn).1
  have hnets : ∀ x, x ∈ (s.execute heap).nets ↔
      x ∈ s.nets ∨ x = ⟨2 * s.execs + 1, s.nextId⟩ := by
    intro x
    rw [← hcounter]
    simp [Kernel.execute]
  refine ⟨h.ids_add, h.unique_add, ?_, ?_, ?_, ?_, ?_, ?_⟩
  · show s.threadCounter + 2 = 2 * (s.execs + 1)
    omega
  · intro t ht n hn
    show n < s.execs + 1 ∧ _
    rcases mem_add.mp ht with ht | rfl
    · obtain ⟨hlt, hrest⟩ := h.tids t ht n hn
      exact ⟨Nat.lt_succ_of_lt hlt, hrest⟩
    · obtain rfl : s.execs = n := by simpa using hn
      exact ⟨Nat.lt_succ_self _, hcounter, by simp⟩
  · intro t ht u hu n htn hun
    rcases mem_add.mp ht with ht | rfl <;> rcases mem_add.mp hu with hu | rfl
    · exact h.execOnce t ht u hu n htn hun
    · exact absurd (by simpa using hun : s.execs = n).symm (hlast t ht n htn)
    · exact absurd (by simpa using htn : s.execs = n).symm (hlast u hu n hun)
    · rfl
  · intro t ht n hn
    rw [hnets]
    rcases mem_add.mp ht with ht | rfl
    · exact .inl (h.served t ht n hn)
    · obtain rfl : s.execs = n := by simpa using hn
      exact .inr rfl
  · intro x hx
    show x.serves < s.nextId + 1 ∧ ∃ n < s.execs + 1, _
    rcases (hnets x).mp hx with hx | rfl
    · obtain ⟨hlt, n, hn, hbox, hserves⟩ := h.serves x hx
      refine ⟨Nat.lt_succ_of_lt hlt, n, Nat.lt_succ_of_lt hn, hbox, ?_⟩
      intro t ht hid
      rcases mem_add.mp ht with ht | rfl
      · exact hserves t ht hid
      · exact absurd hid.symm (Nat.ne_of_lt hlt)
    · refine ⟨Nat.lt_succ_self _, s.execs, Nat.lt_succ_self _, rfl, ?_⟩
      intro t ht hid
      rcases mem_add.mp ht with ht | rfl
      · exact absurd hid (Nat.ne_of_lt (h.ids t ht))
      · rfl
  · -- the new odd number is above all the others
    have hfresh : ∀ x ∈ s.nets, x.box ≠ 2 * s.execs + 1 := by
      intro x hx
      obtain ⟨-, n, hn, hbox, -⟩ := h.serves x hx
      omega
    intro x hx y hy hxy
    rcases (hnets x).mp hx with hx | rfl <;> rcases (hnets y).mp hy with hy | rfl
    · exact h.boxOnce x hx y hy hxy
    · exact absurd hxy (hfresh x hx)
    · exact absurd hxy.symm (hfresh y hy)
    · rfl

/-- Threads start or go away. -/
theorem users (h : Numbered s) {users : List UserThread}
    (hu : ∀ t ∈ users, ∃ u ∈ s.users, t = u ∨ (t = u.start ∧ u.running = false))
    (huniq : ∀ t ∈ users, ∀ u ∈ users, t.id = u.id → t = u) : Numbered { s with users } := by
  -- a thread keeps its id, its origin and its number
  have hkeep : ∀ t ∈ users, ∃ u ∈ s.users, t.id = u.id ∧ t.origin = u.origin ∧ t.tid = u.tid := by
    intro t ht
    obtain ⟨u, hmem, rfl | ⟨rfl, -⟩⟩ := hu t ht
    · exact ⟨t, hmem, rfl, rfl, rfl⟩
    · exact ⟨u, hmem, start_id u, start_origin u, start_tid u⟩
  refine ⟨?_, huniq, h.counter, ?_, ?_, ?_, ?_, h.boxOnce⟩
  · intro t ht
    obtain ⟨u, hmem, hid, -⟩ := hkeep t ht
    exact hid ▸ h.ids u hmem
  · intro t ht n hn
    obtain ⟨u, hmem, hcase⟩ := hu t ht
    rcases hcase with rfl | ⟨rfl, -⟩
    · exact h.tids t hmem n hn
    · rw [start_origin] at hn
      obtain ⟨hlt, htid, -⟩ := h.tids u hmem n hn
      refine ⟨hlt, by rw [start_tid, htid], ?_⟩
      intro _
      rw [start_mailBox hn, htid]
      push_cast
      rfl
  · intro t ht u hu' n htn hun
    obtain ⟨t', ht', hid, horigin, -⟩ := hkeep t ht
    obtain ⟨u', hu'', hid', horigin', -⟩ := hkeep u hu'
    rw [hid, hid']
    exact h.execOnce t' ht' u' hu'' n (horigin ▸ htn) (horigin' ▸ hun)
  · intro t ht n hn
    obtain ⟨u, hmem, hid, horigin, -⟩ := hkeep t ht
    rw [hid]
    exact h.served u hmem n (horigin ▸ hn)
  · intro x hx
    obtain ⟨hlt, n, hn, hbox, hserves⟩ := h.serves x hx
    refine ⟨hlt, n, hn, hbox, ?_⟩
    intro t ht hid
    obtain ⟨u, hmem, hid', horigin, -⟩ := hkeep t ht
    rw [horigin]
    exact hserves u hmem (hid' ▸ hid)

/-- **Every call keeps the numbering.** -/
theorem call (h : Numbered s) {s' : Kernel} {c : Call} (hc : s.call c = some s') :
    Numbered s' := by
  cases c with
  | startProcess opens heap =>
      obtain rfl := Option.some.inj hc
      split
      · exact h.add (by simp) heap true
      · exact h
  | exec caller opens heap =>
      simp only [Kernel.call] at hc
      split at hc
      · obtain rfl := Option.some.inj hc
        split
        · exact h.execute heap
        · exact h
      · cases hc
  | fork caller heap =>
      simp only [Kernel.call] at hc
      split at hc
      · obtain rfl := Option.some.inj hc
        exact h.add (by simp) heap false
      · cases hc
  | start thread =>
      obtain rfl := Option.some.inj hc
      have hmem : ∀ t ∈ s.users.map fun t =>
          if t.id = thread ∧ t.running = false then t.start else t,
          ∃ u ∈ s.users, t = (if u.id = thread ∧ u.running = false then u.start else u) := by
        intro t ht
        obtain ⟨u, hu, rfl⟩ := List.mem_map.mp ht
        exact ⟨u, hu, rfl⟩
      have hid : ∀ u : UserThread,
          (if u.id = thread ∧ u.running = false then u.start else u).id = u.id := by
        intro u
        split
        · exact start_id u
        · rfl
      refine h.users ?_ ?_
      · intro t ht
        obtain ⟨u, hu, rfl⟩ := hmem t ht
        refine ⟨u, hu, ?_⟩
        split
        · rename_i hcond
          exact .inr ⟨rfl, hcond.2⟩
        · exact .inl rfl
      · intro t ht u hu heq
        obtain ⟨t', ht', rfl⟩ := hmem t ht
        obtain ⟨u', hu', rfl⟩ := hmem u hu
        rw [hid, hid] at heq
        rw [h.unique t' ht' u' hu' heq]
  | startNetwork box =>
      simp only [Kernel.call] at hc
      split at hc
      · obtain rfl := Option.some.inj hc
        split
        · exact h
        · exact ⟨by simp, by simp, h.counter, by simp, by simp, by simp, by simp, by simp⟩
      · cases hc
  | exit caller =>
      simp only [Kernel.call] at hc
      split at hc
      · obtain rfl := Option.some.inj hc
        refine h.users ?_ ?_
        · intro t ht
          exact ⟨t, (List.mem_filter.mp ht).1, .inl rfl⟩
        · intro t ht u hu heq
          exact h.unique t (List.mem_filter.mp ht).1 u (List.mem_filter.mp hu).1 heq
      · cases hc

end Numbered

theorem numbered_of_run {tr : List Call} {s : Kernel}
    (h : Run kernelStep anyStep .initial tr s) : Numbered s := by
  refine h.invariant (I := fun _ s => Numbered s) .initial ?_
  intro tr s c s' e ih _ hs
  obtain ⟨s'', hs'', heq⟩ := Option.map_eq_some_iff.mp hs
  obtain ⟨rfl, rfl⟩ := Prod.mk.inj heq
  exact ih.call hs''

/-! ## Exactly the threads of the first fifty `Exec`s -/

/-- A thread of the `n`-th `Exec` has a usable mailbox, if that exists. -/
theorem Numbered.addressed {s : Kernel} (h : Numbered s) {t : UserThread} {n : ℕ}
    (ht : t ∈ s.users) (hrun : t.running = true) (ho : t.origin = .exec n) (hn : n < 50)
    (hall : ∀ u ∈ s.users, u.running = true → ∃ m, u.origin = .exec m) : Addressed s t := by
  have hbox : t.mailBox = 2 * n := (h.tids t ht n ho).2.2 hrun
  constructor
  · omega
  · rw [hbox, numBoxes]
    omega
  · intro u hu hurun hne heq
    obtain ⟨m, hm⟩ := hall u hu hurun
    have hubox := (h.tids u hu m hm).2.2 hurun
    obtain rfl : m = n := by omega
    exact hne (h.execOnce u hu t ht m hm ho)
  · intro x hx heq
    obtain ⟨-, m, -, hm, -⟩ := h.serves x hx
    omega
  · refine ⟨_, h.served t ht n ho, ?_, rfl, ?_⟩
    · rw [hbox]
      push_cast
      rfl
    · intro m hm heq
      exact h.boxOnce m hm _ (h.served t ht n ho) heq

/-- A thread with a usable mailbox is of one of the first fifty `Exec`s. -/
theorem Numbered.exec_of_addressed {s : Kernel} (h : Numbered s) {t : UserThread}
    (ht : t ∈ s.users) (ha : Addressed s t) : ∃ n < 50, t.origin = .exec n := by
  obtain ⟨x, hx, hbox, hserves, -⟩ := ha.served
  obtain ⟨-, n, -, hn, horigin⟩ := h.serves x hx
  refine ⟨n, ?_, horigin t ht hserves.symm⟩
  have hbelow := ha.below.2
  rw [numBoxes] at hbelow
  omega

/-- **Usable mailboxes, exactly.** In every state that any sequence of calls
reaches, all live user threads that run have usable mailboxes if and only if
each of them came into being through one of the first fifty `Exec`s. -/
theorem mailboxes_usable_iff {tr : List Call} {s : Kernel}
    (h : Run kernelStep anyStep .initial tr s) :
    MailboxesUsable s ↔
      ∀ t ∈ s.users, t.running = true → ∃ n < 50, t.origin = .exec n := by
  have hn := numbered_of_run h
  constructor
  · intro husable t ht hrun
    exact hn.exec_of_addressed ht (husable t ht hrun)
  · intro hexec t ht hrun
    obtain ⟨n, hlt, ho⟩ := hexec t ht hrun
    refine hn.addressed ht hrun ho hlt ?_
    intro u hu hurun
    obtain ⟨m, -, hm⟩ := hexec u hu hurun
    exact ⟨m, hm⟩

/-- The main program starts two others and exits. -/
theorem mailboxes_usable_two : ∃ tr s, Run kernelStep anyStep .initial tr s ∧
    s.users.length = 2 ∧ MailboxesUsable s := by
  have hx : (exec kernelStep anyStep [] .initial [.startProcess true 7, .exec 0 true 7,
        .exec 0 true 7, .startNetwork 1, .start 1, .startNetwork 3, .start 2, .exit 0]).isSome ∧
      ∀ p ∈ exec kernelStep anyStep [] .initial [.startProcess true 7, .exec 0 true 7,
        .exec 0 true 7, .startNetwork 1, .start 1, .startNetwork 3, .start 2, .exit 0],
        p.2.users.length = 2 ∧ p.2.users.map UserThread.origin = [.exec 0, .exec 1] := by
    decide
  obtain ⟨⟨tr, s⟩, hp⟩ := Option.isSome_iff_exists.mp hx.1
  have hrun := Run.of_exec .start hp
  obtain ⟨hlen, horigins⟩ := hx.2 _ hp
  refine ⟨tr, s, hrun, hlen, (mailboxes_usable_iff hrun).mpr ?_⟩
  intro t ht _
  have hmem : t.origin ∈ s.users.map UserThread.origin := List.mem_map_of_mem ht
  rw [horigins] at hmem
  simp only [List.mem_cons, List.not_mem_nil, or_false] at hmem
  rcases hmem with h | h
  · exact ⟨0, by decide, h⟩
  · exact ⟨1, by decide, h⟩

/-- The main program alone: no network thread serves it. -/
theorem mailboxes_not_usable :
    ¬ ∀ tr s, Run kernelStep anyStep .initial tr s → MailboxesUsable s := by
  intro hall
  have hx : (exec kernelStep anyStep [] .initial [.startProcess true 0]).isSome ∧
      ∀ p ∈ exec kernelStep anyStep [] .initial [.startProcess true 0],
        p.2.users = [⟨0, .startProcess, 0, 0, true⟩] ∧ p.2.nets = [] := by
    decide
  obtain ⟨⟨tr, s⟩, hp⟩ := Option.isSome_iff_exists.mp hx.1
  obtain ⟨husers, hnets⟩ := hx.2 _ hp
  have haddr := hall tr s (Run.of_exec .start hp) ⟨0, .startProcess, 0, 0, true⟩
    (by rw [husers]; simp) rfl
  obtain ⟨n, hn, -⟩ := haddr.served
  rw [hnets] at hn
  cases hn

end Nachos.Network
