import Nachos.Restaurant.Code
import Nachos.Threads.Sections

/-!
# Who holds which lock

The locks that a person of the restaurant holds, read off its code, and the lock of each
condition.
-/

namespace Nachos.Restaurant

open Nachos.Lib Nachos.Threads

variable {n : Size}

/-! ## What a person does -/

section Does

variable (d : Data n) (a : Rand)

/-- The calls of the persons. -/
inductive Calls : Person n → Point n → Call n → Point n → Prop
  | fork {t : Person n} {rest : List (Person n)} :
      Calls .main (.opening (t :: rest)) (.fork t) (.opening rest)
  | opened : Calls .main (.opening []) .finish (.opening [])
  | ordertaker {o : Fin n.ots} {p next : OrdertakerPoint n} {op : Call n} :
      simulateOrdertaker o d p = some (.call op next) →
      Calls (.ordertaker o) (.ordertaker p) op (.ordertaker next)
  | customer {c : Fin n.custs} {p next : CustomerPoint n} {op : Call n} :
      simulateCustomer c d a p = some (.call op next) →
      Calls (.customer c) (.customer p) op (.customer next)
  | cook {k : Fin n.cooks} {p next : CookPoint} {op : Call n} :
      simulateCook k d a p = some (.call op next) → Calls (.cook k) (.cook p) op (.cook next)
  | manager {p next : ManagerPoint n} {op : Call n} :
      simulateManager d a p = some (.call op next) →
      Calls .manager (.manager p) op (.manager next)
  | waiter {w : Fin n.waiters} {p next : WaiterPoint n} {op : Call n} :
      simulateWaiter w d p = some (.call op next) →
      Calls (.waiter w) (.waiter p) op (.waiter next)

/-- What they do between calls. -/
inductive Goes : Person n → Point n → Point n → Data n → List (Event n) → Prop
  | start {t : Person n} : Goes t .start (first a t) d []
  | ordertaker {o : Fin n.ots} {p next : OrdertakerPoint n} {d' : Data n}
      {events : List (Event n)} : simulateOrdertaker o d p = some (.go next d' events) →
      Goes (.ordertaker o) (.ordertaker p) (.ordertaker next) d' events
  | customer {c : Fin n.custs} {p next : CustomerPoint n} {d' : Data n}
      {events : List (Event n)} : simulateCustomer c d a p = some (.go next d' events) →
      Goes (.customer c) (.customer p) (.customer next) d' events
  | cook {k : Fin n.cooks} {p next : CookPoint} {d' : Data n} {events : List (Event n)} :
      simulateCook k d a p = some (.go next d' events) →
      Goes (.cook k) (.cook p) (.cook next) d' events
  | manager {p next : ManagerPoint n} {d' : Data n} {events : List (Event n)} :
      simulateManager d a p = some (.go next d' events) →
      Goes .manager (.manager p) (.manager next) d' events
  | waiter {w : Fin n.waiters} {p next : WaiterPoint n} {d' : Data n}
      {events : List (Event n)} : simulateWaiter w d p = some (.go next d' events) →
      Goes (.waiter w) (.waiter p) (.waiter next) d' events

variable {d a} {t : Person n} {p next : Point n} {op : Call n} {d' : Data n}
  {events : List (Event n)} {P : Type} {f : P → Point n}

theorem map_call {action : Act n P}
    (h : action.map (Action.map f) = some (Action.call op next)) :
    ∃ next', action = some (.call op next') ∧ next = f next' := by
  obtain ⟨action, rfl, heq⟩ := Option.map_eq_some_iff.mp h
  cases action with
  | call op' next' =>
      obtain ⟨rfl, rfl⟩ := Action.call.inj heq
      exact ⟨next', rfl, rfl⟩
  | go _ _ _ => cases heq

theorem map_go {action : Act n P}
    (h : action.map (Action.map f) = some (Action.go next d' events)) :
    ∃ next', action = some (.go next' d' events) ∧ next = f next' := by
  obtain ⟨action, rfl, heq⟩ := Option.map_eq_some_iff.mp h
  cases action with
  | call _ _ => cases heq
  | go next' d' events =>
      obtain ⟨rfl, rfl, rfl⟩ := Action.go.inj heq
      exact ⟨next', rfl, rfl⟩

theorem Calls.of_act (h : act t p d a = some (.call op next)) : Calls d a t p op next := by
  unfold act at h
  split at h
  · cases h
  · obtain ⟨rfl, rfl⟩ := Action.call.inj (Option.some.inj h)
    exact .fork
  · obtain ⟨rfl, rfl⟩ := Action.call.inj (Option.some.inj h)
    exact .opened
  · obtain ⟨next, hact, rfl⟩ := map_call h
    exact .ordertaker hact
  · obtain ⟨next, hact, rfl⟩ := map_call h
    exact .customer hact
  · obtain ⟨next, hact, rfl⟩ := map_call h
    exact .cook hact
  · obtain ⟨next, hact, rfl⟩ := map_call h
    exact .manager hact
  · obtain ⟨next, hact, rfl⟩ := map_call h
    exact .waiter hact
  · cases h

theorem Goes.of_act (h : act t p d a = some (.go next d' events)) :
    Goes d a t p next d' events := by
  unfold act at h
  split at h
  · obtain ⟨rfl, rfl, rfl⟩ := Action.go.inj (Option.some.inj h)
    exact .start
  · cases h
  · cases h
  · obtain ⟨next, hact, rfl⟩ := map_go h
    exact .ordertaker hact
  · obtain ⟨next, hact, rfl⟩ := map_go h
    exact .customer hact
  · obtain ⟨next, hact, rfl⟩ := map_go h
    exact .cook hact
  · obtain ⟨next, hact, rfl⟩ := map_go h
    exact .manager hact
  · obtain ⟨next, hact, rfl⟩ := map_go h
    exact .waiter hact
  · cases h

end Does

/-! ## Locks -/

def CustomerPoint.held (c : Fin n.custs) : CustomerPoint n → List (LockName n)
  | .inLine | .joining | .called | .chosen _ => [.custLine]
  | .ordering myOT | .ordered myOT _ | .signalled myOT _ | .answered myOT _ => [orderLock myOT]
  | .toGoHeld => [.toGo]
  | .seatHeld | .seatWaited => [.seatCust c]
  | .eatInHeld | .fed => [.eatIn]
  | .leaving | .left => [.seat]
  | .entering | .leftLine _ | .toGo | .wantsSeat | .announced | .hungry | .eating _ | .gone => []

def OrdertakerPoint.held (o : Fin n.ots) : OrdertakerPoint n → List (LockName n)
  | .lineHeld | .called | .taking => [.custLine]
  | .foodHeld | .foodTaken => [.foodTable, .custLine]
  | .packing | .handing _ | .packedToGo | .packed => [.foodTable]
  | .handingHeld _ | .handed | .handedOver => [.toGo, .foodTable]
  | .takingHeld => [.orderTaker o, .custLine]
  | .waiting | .woken | .answering | .answered => [.orderTaker o]
  | .accepting _ | .accepted => [.foodTable, .orderTaker o]
  | .working => []

def CookPoint.held : CookPoint → List (LockName n)
  | .requestHeld | .resting | .returned | .toCook | .stopping | .stoppingHeld => [.cookRequest]
  | .fetchingHeld | .fetched => [.inventory]
  | .serving | .served => [.foodTable]
  | .working | .fetching | .nothing | .cooking _ => []

def WaiterPoint.held : WaiterPoint n → List (LockName n)
  | .packageHeld _ | .resting _ | .returned _ | .back _ | .carrying _ => [.package]
  | .serving _ | .served _ | .announced _ | .awaiting _ | .taken _ => [.eatIn]
  | .working _ | .carried _ => []

def ManagerPoint.held : ManagerPoint n → List (LockName n)
  | .refilling | .refilled => [.inventory]
  | .searching _ => [.seat]
  | .finding i | .assigned i _ | .informed i _ | .seated i => [.seatCust i, .seat]
  | .waking | .woken _ => [.package]
  | .counting _ => [.foodTable]
  | .stopping _ _ | .choosing _ _ _ | .telling _ _ _ _ => [.cookRequest]
  | .idleHeld | .idleWoken => [.custLine]
  | .coming _ | .working | .withdrawing _ | .buying | .bought | .delivering | .stocked
  | .seating | .checking | .pausing _ _ | .requesting _ _ | .idle _ => []

/-- The locks that a person holds, or waits for or with. -/
def held : Person n → Point n → List (LockName n)
  | .ordertaker o, .ordertaker p => p.held o
  | .customer c, .customer p => p.held c
  | .cook _, .cook p => p.held
  | .manager, .manager p => p.held
  | .waiter _, .waiter p => p.held
  | _, _ => []

section Calls

variable {d d' : Data n} {a : Rand} {op : Call n} {events : List (Event n)}

/-- What `Holding` asks of a call. -/
def CallHolds (op : Call n) (before after : List (LockName n)) : Prop :=
  (∀ l, l ∈ after ↔ op = .acquire l ∨ l ∈ before ∧ op ≠ .release l) ∧
    ∀ c l, op = .wait c l → l = some c.lock ∧ c.lock ∈ before

/-- The orders of an order taker and of the manager are given alike. -/
theorem orderCV_lock (myOT : Option (Fin n.ots)) : (orderCV myOT).lock = orderLock myOT := by
  cases myOT <;> rfl

theorem customer_call {c : Fin n.custs} {p next : CustomerPoint n}
    (h : simulateCustomer c d a p = some (.call op next)) :
    CallHolds op (p.held c) (next.held c) := by
  cases p with
  | leftLine myOT | chosen myOT =>
      simp only [simulateCustomer] at h
      cases h
      simp [CallHolds, CustomerPoint.held, eq_comm]
  | ordered myOT choice | signalled myOT choice =>
      simp only [simulateCustomer] at h
      cases h
      simp [CallHolds, CustomerPoint.held, orderCV_lock]
  | answered myOT choice =>
      simp only [simulateCustomer] at h
      cases h
      have hnil : (if choice = Choice.toGo then
          if (d.orders.packages c).status = .done then CustomerPoint.gone else .toGo
        else .wantsSeat).held c = [] := by
        split
        · split <;> rfl
        · rfl
      rw [hnil]
      simp [CallHolds, CustomerPoint.held, eq_comm]
  | eating times =>
      cases times <;> simp only [simulateCustomer] at h <;> cases h <;>
        simp [CallHolds, CustomerPoint.held, eq_comm]
  | _ =>
      simp only [simulateCustomer] at h
      repeat' split at h
      all_goals cases h <;> simp [CallHolds, CustomerPoint.held, ConditionName.lock, eq_comm]

theorem ordertaker_call {o : Fin n.ots} {p next : OrdertakerPoint n}
    (h : simulateOrdertaker o d p = some (.call op next)) :
    CallHolds op (p.held o) (next.held o) := by
  cases p with
  | foodTaken | handedOver | takingHeld | accepted =>
      simp only [simulateOrdertaker] at h
      cases h
      simp only [CallHolds, OrdertakerPoint.held, List.mem_cons, List.not_mem_nil, or_false]
      grind
  | _ =>
      simp only [simulateOrdertaker] at h
      repeat' split at h
      all_goals cases h <;> simp [CallHolds, OrdertakerPoint.held, ConditionName.lock, eq_comm]

theorem cook_call {k : Fin n.cooks} {p next : CookPoint}
    (h : simulateCook k d a p = some (.call op next)) : CallHolds op p.held next.held := by
  cases p with
  | cooking times =>
      cases times <;> simp only [simulateCook] at h <;> cases h <;>
        simp [CallHolds, CookPoint.held, eq_comm]
  | _ =>
      simp only [simulateCook] at h
      repeat' split at h
      all_goals cases h <;> simp [CallHolds, CookPoint.held, ConditionName.lock, eq_comm]

theorem waiter_call {w : Fin n.waiters} {p next : WaiterPoint n}
    (h : simulateWaiter w d p = some (.call op next)) : CallHolds op p.held next.held := by
  cases p <;> simp only [simulateWaiter] at h
  all_goals repeat' split at h
  all_goals cases h <;> simp [CallHolds, WaiterPoint.held, ConditionName.lock, eq_comm]

theorem manager_call {p next : ManagerPoint n}
    (h : simulateManager d a p = some (.call op next)) : CallHolds op p.held next.held := by
  cases p with
  | coming times | withdrawing times =>
      cases times <;> simp only [simulateManager] at h <;> cases h
      simp [CallHolds, ManagerPoint.held, eq_comm]
  | pausing times pFood =>
      cases times <;> simp only [simulateManager] at h <;> cases h <;>
        simp [CallHolds, ManagerPoint.held, eq_comm]
  | seated i =>
      simp only [simulateManager] at h
      cases h
      simp only [CallHolds, ManagerPoint.held, List.mem_cons, List.not_mem_nil, or_false]
      grind
  | _ =>
      simp only [simulateManager] at h
      repeat' split at h
      all_goals cases h <;> simp [CallHolds, ManagerPoint.held, ConditionName.lock, eq_comm]

theorem customer_go {c : Fin n.custs} {p next : CustomerPoint n}
    (h : simulateCustomer c d a p = some (.go next d' events)) : next.held c = p.held c := by
  cases p with
  | eating times => cases times <;> cases h
  | _ =>
      simp only [simulateCustomer] at h
      repeat' split at h
      all_goals cases h <;> rfl

theorem ordertaker_go {o : Fin n.ots} {p next : OrdertakerPoint n}
    (h : simulateOrdertaker o d p = some (.go next d' events)) : next.held o = p.held o := by
  cases p <;> simp only [simulateOrdertaker] at h
  all_goals repeat' split at h
  all_goals cases h <;> rfl

theorem cook_go {k : Fin n.cooks} {p next : CookPoint}
    (h : simulateCook k d a p = some (.go next d' events)) :
    (next.held : List (LockName n)) = p.held := by
  cases p with
  | cooking times => cases times <;> cases h
  | _ =>
      simp only [simulateCook] at h
      repeat' split at h
      all_goals cases h <;> rfl

theorem waiter_go {w : Fin n.waiters} {p next : WaiterPoint n}
    (h : simulateWaiter w d p = some (.go next d' events)) : next.held = p.held := by
  cases p <;> simp only [simulateWaiter] at h
  all_goals repeat' split at h
  all_goals cases h <;> rfl

theorem manager_go {p next : ManagerPoint n}
    (h : simulateManager d a p = some (.go next d' events)) : next.held = p.held := by
  cases p with
  | coming times | withdrawing times =>
      cases times
      all_goals cases h
      rfl
  | pausing times pFood => cases times <;> cases h
  | _ =>
      simp only [simulateManager] at h
      repeat' split at h
      all_goals cases h <;> rfl

end Calls

/-! ## The restaurant's program -/

section Program

variable {d d' : Data n} {a : Rand} {op : Call n} {events : List (Event n)} {t : Person n}
  {p next : Point n}

theorem act_call (h : act t p d a = some (.call op next)) :
    CallHolds op (held t p) (held t next) := by
  cases Calls.of_act h with
  | fork | opened => simp [CallHolds, held]
  | ordertaker hact => exact ordertaker_call hact
  | customer hact => exact customer_call hact
  | cook hact => exact cook_call hact
  | manager hact => exact manager_call hact
  | waiter hact => exact waiter_call hact

theorem act_go (h : act t p d a = some (.go next d' events)) : held t next = held t p := by
  cases Goes.of_act h with
  | start => cases t <;> rfl
  | ordertaker hact => exact ordertaker_go hact
  | customer hact => exact customer_go hact
  | cook hact => exact cook_go hact
  | manager hact => exact manager_go hact
  | waiter hact => exact waiter_go hact

/-- **Locks are acquired and released in order.** -/
theorem restaurant_holding (n : Size) : (restaurant n).Holding held where
  start t := by cases t <;> rfl
  call h := (act_call h).1
  wait h := by
    obtain ⟨hl, hheld⟩ := (act_call h).2 _ _ rfl
    exact ⟨_, hl, hheld⟩
  go h l := by rw [act_go h]

theorem restaurant_wait {c : ConditionName n} {l : Option (LockName n)}
    (h : (restaurant n).act t p d a = some (.call (.wait c l) next)) : l = some c.lock :=
  ((act_call h).2 _ _ rfl).1

end Program

/-! ## What is known in every run -/

section Scene

variable (n)

abbrev Scene := System (Person n) Empty (LockName n) (ConditionName n) (Point n) (Data n)

abbrev Turn := Move (Person n) Empty (LockName n) (ConditionName n) Rand Empty

abbrev Trace :=
  List (List (Threads.Event (Person n) Empty (LockName n) (ConditionName n) (Event n)))

abbrev opened (cash : ℤ) (food inventory : ℕ) : Scene n :=
  (restaurant n).boot .main nofun (initRestaurant n cash food inventory)

variable {n}

instance (p : Point n) : Decidable (p = .start) :=
  match p with
  | .start => .isTrue rfl
  | .opening _ | .ordertaker _ | .customer _ | .cook _ | .manager _ | .waiter _ => .isFalse nofun

instance (tr : Trace n) (s : Scene n) (m : Turn n) :
    Decidable ((restaurant n).uninterrupted tr s m) :=
  match m with
  | .kernel .preempt => decidable_of_iff (s.kernel.pc s.kernel.currentThread = .outside →
      s.point s.kernel.currentThread = .start) ⟨fun h _ => h, fun h => h rfl⟩
  | .kernel (.call _) | .kernel .resume | .kernel .loop | .kernel .return
  | .kernel (.interrupt _) | .kernel .dispatch | .act _ | .interrupt _ =>
      .isTrue fun h => nomatch h

/-- `t` goes on, as soon as the timer takes the processor away from the others. -/
def onwardWith (t : Person n) (a : Rand) (s : Scene n) : Turn n :=
  let current := s.kernel.currentThread
  if s.kernel.idle = true ∨ current = t then Program.onward a s
  else
    match s.kernel.pc current with
    | .leaving _ _ => .kernel .preempt
    | _ => if s.point current = .start then .kernel .preempt else Program.onward a s

/-- Each goes on for a number of steps. -/
def schedule (a : Rand) (turns : List (Person n × ℕ)) : List (Scene n → Turn n) :=
  turns.flatMap fun (t, steps) => List.replicate steps (onwardWith t a)

/-- Locks and queues are what the points tell. -/
structure Sound (s : Scene n) : Prop where
  held : Program.Held held s
  asked : Program.Asked (restaurant n) s
  placed : Placed s.kernel
  locked : Locked s.kernel
  bound : ∀ c, (s.kernel.conditions c).Bound
  waitLock : ∀ c, (s.kernel.conditions c).waitLock = none ∨
    (s.kernel.conditions c).waitLock = some (ConditionName.lock c)

variable {s : Scene n} {ok : Trace n → Scene n → Turn n → Prop} {tr : Trace n} {cash : ℤ}
  {food inventory : ℕ}

theorem sound_of_run (hrun : Run (restaurant n).step ok (opened n cash food inventory) tr s) :
    Sound s := by
  obtain ⟨hplaced, hlocked⟩ := Program.placed_locked hrun
  obtain ⟨_, hrun'⟩ := Program.kernel_run hrun
  exact ⟨(restaurant_holding n).of_run hrun, Program.asked_of_run hrun, hplaced, hlocked,
    bound_of_run hrun', Program.waitLock_of_run restaurant_wait hrun⟩

/-- Who sleeps in a condition waits with the lock of the condition. -/
theorem Sound.waitLock_of_mem (h : Sound s) {c : ConditionName n} {t : Person n}
    (hmem : t ∈ (s.kernel.conditions c).waitQueue) :
    (s.kernel.conditions c).waitLock = some c.lock := by
  refine (h.waitLock c).resolve_left fun hnone => ?_
  rw [(h.bound c).mp hnone] at hmem
  cases hmem

/-- The current thread is in no queue. -/
theorem Sound.not_waiting (h : Sound s) (hidle : s.kernel.idle = false) (c : ConditionName n) :
    s.kernel.currentThread ∉ (s.kernel.conditions c).waitQueue := by
  show _ ∉ s.kernel.queue (.condition c)
  exact h.placed.located.not_mem (h.placed.loc_current hidle)

/-- The current thread owns the locks that it holds. -/
theorem Sound.owner (h : Sound s) (hpc : s.kernel.pc s.kernel.currentThread = .outside)
    {l : LockName n} (hheld : l ∈ Restaurant.held s.kernel.currentThread
      (s.point s.kernel.currentThread)) :
    (s.kernel.locks l).lockerOwner = some s.kernel.currentThread :=
  (h.held.inLock _ l hheld).owner (by rw [hpc]; rfl)

end Scene

end Nachos.Restaurant
