import Nachos.Restaurant.Line
import Nachos.Restaurant.Tables

/-!
# The line in the restaurant

Who is where in the line is read off the points and off the conditions that customers and order
takers sleep in. The manager sleeps where the customers do when it has nothing to do, so an
order taker may wake it instead; and an order taker says that it is free when it has packed an
order, before it looks at the line again. As long as neither comes up, what happens in the
restaurant is what can happen to the line.
-/

namespace Nachos.Restaurant

open Nachos.Lib Nachos.Threads

variable {n : Size}

/-! ## Where they are -/

/-- Where a customer is: `inLine` if it sleeps in the line, `atOT` at an order taker. -/
def Point.custPlace (inLine : Bool) (atOT : Fin n.ots → Bool) : Point n → CustPlace n
  | .customer .joining => .joins
  | .customer .called => if inLine then .asleep else .woken
  | .customer (.chosen myOT) | .customer (.leftLine myOT) | .customer (.ordering myOT)
  | .customer (.ordered myOT _) => .goes myOT
  | .customer (.signalled myOT _) => .asks myOT
  | .customer (.answered (some o) _) => if atOT o then .asks (some o) else .elsewhere
  | .customer (.answered none _) => .asks none
  | _ => .elsewhere

/-- Where an order taker is: `asleep` if it sleeps. -/
def Point.otPlace (asleep : Bool) : Point n → OTPlace
  | .ordertaker .called => .calls
  | .ordertaker .taking | .ordertaker .takingHeld => .comes
  | .ordertaker .waiting => .waits
  | .ordertaker .woken => if asleep then .waits else .serves
  | .ordertaker (.accepting _) | .ordertaker .accepted | .ordertaker .answering => .serves
  | _ => .elsewhere

/-- The line. -/
def front (s : Scene n) : Front n where
  cust c := (s.point (.customer c)).custPlace
    (.customer c ∈ (s.kernel.conditions .custWaiting).waitQueue)
    fun o => .customer c ∈ (s.kernel.conditions (.orderTaker o)).waitQueue
  ot o := (s.point (.ordertaker o)).otPlace
    (.ordertaker o ∈ (s.kernel.conditions (.orderTaker o)).waitQueue)
  line := s.data.line

/-- The order taker waits for an order. -/
def Point.waitsForOrder : Point n → Bool
  | .ordertaker .waiting | .ordertaker .woken => true
  | _ => false

/-- The order taker looks at the line. -/
def Point.looksAtLine : Point n → Bool
  | .ordertaker .lineHeld => true
  | _ => false

/-- The customer looks for an order taker. -/
def Point.entersLine : Point n → Bool
  | .customer .inLine => true
  | _ => false

/-- An order taker that is available. -/
def findAvailable (d : Data n) : Option (Fin n.ots) :=
  (List.finRange n.ots).find? fun i => d.line.otStatus i = .available

/-! ## What they do -/

section Persons

variable {d d' : Data n} {a : Rand} {op : Call n} {events : List (Event n)} {u : Person n}
  {p next : Point n}

/-- In the same place. -/
structure SamePlace (p next : Point n) : Prop where
  cust : ∀ inLine atOT, next.custPlace inLine atOT = p.custPlace inLine atOT
  ot : ∀ asleep, next.otPlace asleep = p.otPlace asleep

/-- What a person does to the line between two calls. -/
inductive LineGo (d d' : Data n) : Person n → Point n → Point n → Prop
  | found {c : Fin n.custs} {o : Fin n.ots} : findAvailable d = some o →
      d' = d.setOTStatus o .busy →
      LineGo d d' (.customer c) (.customer .inLine) (.customer (.chosen (some o)))
  | joins {c : Fin n.custs} :
      d' = { d with line.custLineLength := d.line.custLineLength + 1 } →
      LineGo d d' (.customer c) (.customer .inLine) (.customer .joining)
  | chose {c : Fin n.custs} {o : Fin n.ots} : d.line.otStatus o = .calling →
      d' = d.setOTStatus o .busy →
      LineGo d d' (.customer c) (.customer .called) (.customer (.chosen (some o)))
  | lost {c : Fin n.custs} : (∀ o, d.line.otStatus o ≠ .calling) →
      LineGo d d' (.customer c) (.customer .called) (.customer (.chosen none))
  | called {o : Fin n.ots} : d' = { d.setOTStatus o .calling with
        line.custLineLength := d.line.custLineLength - 1 } →
      LineGo d d' (.ordertaker o) (.ordertaker .called) (.ordertaker .taking)
  | marks {o : Fin n.ots} {p next : OrdertakerPoint n} {status : OTStatus} {place : OTPlace} :
      d'.line = (d.setOTStatus o status).line → status ≠ .calling →
      (∀ asleep, (Point.ordertaker p).otPlace asleep = .elsewhere) →
      (∀ asleep, (Point.ordertaker next).otPlace asleep = place) →
      place = .elsewhere ∨ place = .comes →
      LineGo d d' (.ordertaker o) (.ordertaker p) (.ordertaker next)
  | other {u : Person n} {p next : Point n} : d'.line = d.line → SamePlace p next →
      LineGo d d' u p next

theorem customer_go_line {c : Fin n.custs} {p next : CustomerPoint n}
    (h : simulateCustomer c d a p = some (.go next d' events)) :
    LineGo d d' (.customer c) (.customer p) (.customer next) := by
  cases p with
  | eating times => cases times <;> cases h
  | inLine =>
      simp only [simulateCustomer] at h
      split at h
      · rename_i o hfind
        cases h
        exact .found hfind rfl
      · cases h
        exact .joins rfl
  | called =>
      simp only [simulateCustomer] at h
      split at h
      · rename_i o hfind
        cases h
        have hcalling := List.find?_some hfind
        exact .chose (of_decide_eq_true hcalling) rfl
      · rename_i hfind
        cases h
        refine .lost fun o hcalling => ?_
        exact List.find?_eq_none.mp hfind o (List.mem_finRange o) (decide_eq_true hcalling)
  | ordering myOT =>
      cases h
      refine .other ?_ ⟨fun _ _ => rfl, fun _ => rfl⟩
      cases myOT <;> rfl
  | _ =>
      simp only [simulateCustomer] at h
      repeat' split at h
      all_goals cases h <;> exact .other rfl ⟨fun _ _ => rfl, fun _ => rfl⟩

theorem ordertaker_go_line {o : Fin n.ots} {p next : OrdertakerPoint n}
    (h : simulateOrdertaker o d p = some (.go next d' events)) :
    LineGo d d' (.ordertaker o) (.ordertaker p) (.ordertaker next) := by
  cases p with
  | called =>
      cases h
      exact .called rfl
  | lineHeld =>
      simp only [simulateOrdertaker] at h
      repeat' split at h
      all_goals cases h
      exact .marks rfl (by simp) (fun _ => rfl) (fun _ => rfl) (.inr rfl)
  | foodHeld | packedToGo =>
      cases h
      exact .marks rfl (by simp) (fun _ => rfl) (fun _ => rfl) (.inl rfl)
  | packing =>
      simp only [simulateOrdertaker] at h
      split at h
      · cases h
      · split at h
        · split at h
          · cases h
            exact .other rfl ⟨fun _ _ => rfl, fun _ => rfl⟩
          · cases h
            exact .marks rfl (by simp) (fun _ => rfl) (fun _ => rfl) (.inl rfl)
        · cases h
          exact .marks rfl (by simp) (fun _ => rfl) (fun _ => rfl) (.inl rfl)
  | _ =>
      simp only [simulateOrdertaker] at h
      repeat' split at h
      all_goals cases h <;> exact .other rfl ⟨fun _ _ => rfl, fun _ => rfl⟩

theorem cook_go_line {k : Fin n.cooks} {p next : CookPoint}
    (h : simulateCook k d a p = some (.go next d' events)) : d'.line = d.line := by
  cases p with
  | cooking times => cases times <;> cases h
  | _ =>
      simp only [simulateCook] at h
      repeat' split at h
      all_goals cases h <;> rfl

theorem waiter_go_line {w : Fin n.waiters} {p next : WaiterPoint n}
    (h : simulateWaiter w d p = some (.go next d' events)) : d'.line = d.line := by
  cases p <;> simp only [simulateWaiter] at h
  all_goals repeat' split at h
  all_goals cases h <;> rfl

theorem manager_go_line {p next : ManagerPoint n}
    (h : simulateManager d a p = some (.go next d' events)) : d'.line = d.line := by
  cases p with
  | coming times | withdrawing times =>
      cases times
      all_goals cases h
      rfl
  | pausing times pFood => cases times <;> cases h
  | _ =>
      simp only [simulateManager] at h
      repeat' split at h
      all_goals cases h <;> rfl

theorem goes_line (h : Goes d a u p next d' events) : LineGo d d' u p next := by
  cases h with
  | start => cases u <;> exact .other rfl ⟨fun _ _ => rfl, fun _ => rfl⟩
  | ordertaker hact => exact ordertaker_go_line hact
  | customer hact => exact customer_go_line hact
  | cook hact => exact .other (cook_go_line hact) ⟨fun _ _ => rfl, fun _ => rfl⟩
  | manager hact => exact .other (manager_go_line hact) ⟨fun _ _ => rfl, fun _ => rfl⟩
  | waiter hact => exact .other (waiter_go_line hact) ⟨fun _ _ => rfl, fun _ => rfl⟩

/-- The conditions that customers and order takers sleep in. -/
def ConditionName.ofLine : ConditionName n → Bool
  | .custWaiting | .orderTaker _ => true
  | _ => false

/-- A call that is about one of them. -/
def aboutLine : Call n → Bool
  | .wait x _ | .signal x _ | .broadcast x _ => x.ofLine
  | _ => false

/-- What a person calls. -/
inductive LineCall (d : Data n) : Person n → Point n → Call n → Point n → Prop
  | sleeps {c : Fin n.custs} : LineCall d (.customer c) (.customer .joining)
      (.wait .custWaiting (some .custLine)) (.customer .called)
  | asks {c : Fin n.custs} {myOT : Option (Fin n.ots)} {choice : Choice} :
      LineCall d (.customer c) (.customer (.ordered myOT choice))
        (.signal (orderCV myOT) (some (orderLock myOT))) (.customer (.signalled myOT choice))
  | waits {c : Fin n.custs} {myOT : Option (Fin n.ots)} {choice : Choice} :
      LineCall d (.customer c) (.customer (.signalled myOT choice))
        (.wait (orderCV myOT) (some (orderLock myOT))) (.customer (.answered myOT choice))
  | leaves {c : Fin n.custs} {myOT : Option (Fin n.ots)} {choice : Choice}
      {next : CustomerPoint n} :
      (∀ inLine atOT, (Point.customer next).custPlace inLine atOT = .elsewhere) →
      LineCall d (.customer c) (.customer (.answered myOT choice)) (.release (orderLock myOT))
        (.customer next)
  | calls {o : Fin n.ots} : 0 < d.line.custLineLength →
      LineCall d (.ordertaker o) (.ordertaker .lineHeld) (.signal .custWaiting (some .custLine))
        (.ordertaker .called)
  | stands {o : Fin n.ots} : LineCall d (.ordertaker o) (.ordertaker .takingHeld)
      (.release .custLine) (.ordertaker .waiting)
  | rests {o : Fin n.ots} : LineCall d (.ordertaker o) (.ordertaker .waiting)
      (.wait (.orderTaker o) (some (.orderTaker o))) (.ordertaker .woken)
  | serves {o : Fin n.ots} {c : Fin n.custs} : LineCall d (.ordertaker o) (.ordertaker .woken)
      (.acquire .foodTable) (.ordertaker (.accepting c))
  | answers {o : Fin n.ots} : LineCall d (.ordertaker o) (.ordertaker .answering)
      (.signal (.orderTaker o) (some (.orderTaker o))) (.ordertaker .answered)
  | idles : LineCall d .manager (.manager .idleHeld) (.wait .custWaiting (some .custLine))
      (.manager .idleWoken)
  | other {u : Person n} {p next : Point n} {op : Call n} : aboutLine op = false →
      SamePlace p next →
      LineCall d u p op next

theorem customer_call_line {c : Fin n.custs} {p next : CustomerPoint n}
    (h : simulateCustomer c d a p = some (.call op next)) :
    LineCall d (.customer c) (.customer p) op (.customer next) := by
  cases p with
  | joining =>
      cases h
      exact .sleeps
  | ordered myOT choice =>
      cases h
      exact .asks
  | signalled myOT choice =>
      cases h
      exact .waits
  | answered myOT choice =>
      cases h
      refine .leaves fun _ _ => ?_
      repeat' split
      all_goals rfl
  | eating times => cases times <;> cases h <;> exact .other rfl ⟨fun _ _ => rfl, fun _ => rfl⟩
  | _ =>
      simp only [simulateCustomer] at h
      repeat' split at h
      all_goals cases h <;> exact .other rfl ⟨fun _ _ => rfl, fun _ => rfl⟩

theorem ordertaker_call_line {o : Fin n.ots} {p next : OrdertakerPoint n}
    (h : simulateOrdertaker o d p = some (.call op next)) :
    LineCall d (.ordertaker o) (.ordertaker p) op (.ordertaker next) := by
  cases p with
  | lineHeld =>
      simp only [simulateOrdertaker] at h
      split at h
      · rename_i hlength
        cases h
        exact .calls hlength
      · split at h <;> cases h
        exact .other rfl ⟨fun _ _ => rfl, fun _ => rfl⟩
  | takingHeld =>
      cases h
      exact .stands
  | waiting =>
      cases h
      exact .rests
  | woken =>
      simp only [simulateOrdertaker] at h
      split at h <;> cases h
      exact .serves
  | answering =>
      cases h
      exact .answers
  | _ =>
      simp only [simulateOrdertaker] at h
      repeat' split at h
      all_goals cases h <;> exact .other rfl ⟨fun _ _ => rfl, fun _ => rfl⟩

theorem manager_call_line {p next : ManagerPoint n}
    (h : simulateManager d a p = some (.call op next)) :
    LineCall d .manager (.manager p) op (.manager next) := by
  cases p with
  | coming times | withdrawing times | pausing times pFood =>
      cases times <;> cases h <;> exact .other rfl ⟨fun _ _ => rfl, fun _ => rfl⟩
  | idleHeld =>
      cases h
      exact .idles
  | _ =>
      simp only [simulateManager] at h
      repeat' split at h
      all_goals cases h <;> exact .other rfl ⟨fun _ _ => rfl, fun _ => rfl⟩

theorem cook_call_line {k : Fin n.cooks} {p next : CookPoint}
    (h : simulateCook k d a p = some (.call op next)) : aboutLine op = false := by
  cases p with
  | cooking times => cases times <;> cases h <;> rfl
  | _ =>
      simp only [simulateCook] at h
      repeat' split at h
      all_goals cases h <;> rfl

theorem waiter_call_line {w : Fin n.waiters} {p next : WaiterPoint n}
    (h : simulateWaiter w d p = some (.call op next)) : aboutLine op = false := by
  cases p <;> simp only [simulateWaiter] at h
  all_goals repeat' split at h
  all_goals cases h <;> rfl

theorem calls_line (h : Calls d a u p op next) : LineCall d u p op next := by
  cases h with
  | fork | opened => exact .other rfl ⟨fun _ _ => rfl, fun _ => rfl⟩
  | ordertaker hact => exact ordertaker_call_line hact
  | customer hact => exact customer_call_line hact
  | cook hact => exact .other (cook_call_line hact) ⟨fun _ _ => rfl, fun _ => rfl⟩
  | manager hact => exact manager_call_line hact
  | waiter hact => exact .other (waiter_call_line hact) ⟨fun _ _ => rfl, fun _ => rfl⟩

theorem not_broadcast {x : ConditionName n} {l : Option (LockName n)}
    (h : LineCall d u p op next) (hx : x.ofLine = true) : op ≠ .broadcast x l := by
  intro hop
  cases h with
  | other habout _ =>
      subst hop
      exact absurd (habout.symm.trans hx) nofun
  | _ => cases hop

end Persons

/-! ## Who sleeps where -/

section Sleepers

variable {s : Scene n} {t : Person n} {c : Fin n.custs} {o : Fin n.ots}

/-- Customers that have joined sleep in the line, and the manager. -/
theorem Sound.sleeps_inLine (h : Sound s)
    (hmem : t ∈ (s.kernel.conditions .custWaiting).waitQueue) :
    t = .manager ∨ ∃ c, t = .customer c ∧ s.point t = .customer .called := by
  obtain ⟨l, -, p, d, a, hact⟩ := h.asked.waiting h.placed hmem
  have hcall := calls_line (.of_act hact)
  generalize hop : (Op.wait .custWaiting (some l) : Call n) = op at hcall
  generalize s.point t = next at hcall
  cases hcall with
  | sleeps => exact .inr ⟨_, rfl, rfl⟩
  | @waits c myOT choice => cases myOT <;> cases hop
  | idles => exact .inl rfl
  | other habout _ =>
      rw [← hop] at habout
      cases habout
  | asks | leaves _ | calls _ | stands | rests | serves | answers => cases hop

/-- An order taker sleeps at its place, and customers that have asked it. -/
theorem Sound.sleeps_atOT (h : Sound s)
    (hmem : t ∈ (s.kernel.conditions (.orderTaker o)).waitQueue) :
    t = .ordertaker o ∧ s.point t = .ordertaker .woken ∨
      ∃ c choice, t = .customer c ∧ s.point t = .customer (.answered (some o) choice) := by
  obtain ⟨l, -, p, d, a, hact⟩ := h.asked.waiting h.placed hmem
  have hcall := calls_line (.of_act hact)
  generalize hop : (Op.wait (.orderTaker o) (some l) : Call n) = op at hcall
  generalize s.point t = next at hcall
  cases hcall with
  | @waits c myOT choice =>
      cases myOT with
      | none => cases hop
      | some o' =>
          obtain rfl := ConditionName.orderTaker.inj (Op.wait.inj hop).1
          exact .inr ⟨_, _, rfl, rfl⟩
  | rests =>
      obtain rfl := ConditionName.orderTaker.inj (Op.wait.inj hop).1
      exact .inl ⟨rfl, rfl⟩
  | other habout _ =>
      rw [← hop] at habout
      cases habout
  | sleeps | idles | asks | leaves _ | calls _ | stands | serves | answers => cases hop

/-- An order taker in these places has the lock, however it has come there. -/
theorem ordertaker_call_keeps {d : Data n} {op : Call n} {p next : OrdertakerPoint n}
    (h : simulateOrdertaker o d p = some (.call op next)) :
    (next = .called ∨ next = .taking ∨ next = .takingHeld → op ≠ .acquire .custLine ∧
      ∀ x, op ≠ .wait x (some .custLine)) ∧
    (next = .waiting → op ≠ .acquire (.orderTaker o) ∧
      ∀ x, op ≠ .wait x (some (.orderTaker o))) := by
  cases p <;> simp only [simulateOrdertaker] at h
  all_goals repeat' split at h
  all_goals cases h <;> simp

section Places

variable {inLine : Bool} {atOT : Fin n.ots → Bool} {p : Point n}

theorem custPlace_asleep (h : p.custPlace inLine atOT = .asleep) :
    p = .customer .called ∧ inLine = true := by
  unfold Point.custPlace at h
  split at h
  case h_2 =>
    cases inLine
    · cases h
    · exact ⟨rfl, rfl⟩
  case h_8 => split at h <;> cases h
  all_goals cases h

theorem custPlace_joins (h : p.custPlace inLine atOT = .joins) : p = .customer .joining := by
  unfold Point.custPlace at h
  split at h
  case h_1 => rfl
  case h_2 | h_8 => split at h <;> cases h
  all_goals cases h

theorem custPlace_asks (h : p.custPlace inLine atOT = .asks (some o)) :
    ∃ choice, p = .customer (.signalled (some o) choice) ∨
      p = .customer (.answered (some o) choice) ∧ atOT o = true := by
  unfold Point.custPlace at h
  split at h
  case h_2 => split at h <;> cases h
  case h_7 choice =>
    cases h
    exact ⟨_, .inl rfl⟩
  case h_8 o' choice =>
    split at h
    · cases h
      exact ⟨_, .inr ⟨rfl, by assumption⟩⟩
    · cases h
  all_goals cases h

end Places

theorem of_otPlace {asleep : Bool} {p : Point n}
    (h : p.otPlace asleep = .calls ∨ p.otPlace asleep = .comes) :
    ∃ p', p = .ordertaker p' ∧ (p' = .called ∨ p' = .taking ∨ p' = .takingHeld) := by
  cases p with
  | ordertaker p =>
      refine ⟨p, rfl, ?_⟩
      cases p with
      | called => exact .inl rfl
      | taking => exact .inr (.inl rfl)
      | takingHeld => exact .inr (.inr rfl)
      | woken => cases asleep <;> simp [Point.otPlace] at h
      | _ => simp [Point.otPlace] at h
  | start | opening | customer | cook | manager | waiter => simp [Point.otPlace] at h

theorem otPlace_of_waitsForOrder {asleep : Bool} {p : Point n} (h : p.waitsForOrder = true) :
    p.otPlace asleep = .waits ∨ p.otPlace asleep = .serves := by
  unfold Point.waitsForOrder at h
  split at h
  · exact .inl rfl
  · cases asleep
    · exact .inr rfl
    · exact .inl rfl
  · cases h

theorem otPlace_waits {asleep : Bool} {p : Point n} (h : p.otPlace asleep = .waits) :
    p = .ordertaker .waiting ∨ p = .ordertaker .woken ∧ asleep = true := by
  unfold Point.otPlace at h
  split at h
  case h_4 => exact .inl rfl
  case h_5 =>
    cases asleep
    · cases h
    · exact .inr ⟨rfl, rfl⟩
  all_goals cases h

/-- An order taker that calls or comes has the lock of the line. -/
theorem Sound.owner_of_comes (h : Sound s)
    (hplace : (front s).ot o = .calls ∨ (front s).ot o = .comes) :
    (s.kernel.locks .custLine).lockerOwner = some (.ordertaker o) := by
  obtain ⟨p, hpoint, hp⟩ := of_otPlace hplace
  refine h.held.owner h.asked ?_ fun hact => ?_
  · rw [hpoint]
    rcases hp with rfl | rfl | rfl <;> simp [Restaurant.held, OrdertakerPoint.held]
  · have hcalls := Calls.of_act hact
    rw [hpoint] at hcalls
    cases hcalls with
    | ordertaker hcall => exact (ordertaker_call_keeps hcall).1 hp

/-- An order taker that is about to sleep has its lock. -/
theorem Sound.owner_of_waiting (h : Sound s)
    (hpoint : s.point (.ordertaker o) = .ordertaker .waiting) :
    (s.kernel.locks (.orderTaker o)).lockerOwner = some (.ordertaker o) := by
  refine h.held.owner h.asked ?_ fun hact => ?_
  · rw [hpoint]
    exact List.mem_singleton_self _
  · have hcalls := Calls.of_act hact
    rw [hpoint] at hcalls
    cases hcalls with
    | ordertaker hcall => exact (ordertaker_call_keeps hcall).2 rfl

theorem customer_call_keeps {d : Data n} {a : Rand} {op : Call n} {p next : CustomerPoint n}
    (h : simulateCustomer c d a p = some (.call op next)) :
    next ≠ .joining ∧ ∀ myOT choice, next = .signalled myOT choice →
      op = .signal (orderCV myOT) (some (orderLock myOT)) := by
  cases p with
  | eating times => cases times <;> cases h <;> simp
  | answered myOT choice =>
      cases h
      repeat' split
      all_goals simp
  | _ =>
      simp only [simulateCustomer] at h
      repeat' split at h
      all_goals cases h <;> simp

theorem Sound.owner_of_joining (h : Sound s)
    (hpoint : s.point (.customer c) = .customer .joining) :
    (s.kernel.locks .custLine).lockerOwner = some (.customer c) := by
  refine h.held.owner h.asked ?_ fun hact => ?_
  · rw [hpoint]
    exact List.mem_singleton_self _
  · have hcalls := Calls.of_act hact
    rw [hpoint] at hcalls
    cases hcalls with
    | customer hcall => exact absurd rfl (customer_call_keeps hcall).1

/-- A customer that has woken its order taker has the lock of the order taker. -/
theorem Sound.owner_of_signalled (h : Sound s) {choice : Choice}
    (hpoint : s.point (.customer c) = .customer (.signalled (some o) choice)) :
    (s.kernel.locks (.orderTaker o)).lockerOwner = some (.customer c) := by
  refine h.held.owner h.asked ?_ fun hact => ?_
  · rw [hpoint]
    exact List.mem_singleton_self _
  · have hcalls := Calls.of_act hact
    rw [hpoint] at hcalls
    cases hcalls with
    | customer hcall =>
        obtain rfl := (customer_call_keeps hcall).2 _ _ rfl
        exact ⟨nofun, nofun⟩

end Sleepers

/-! ## Steps -/

section Steps

variable {s : Scene n} {k' : Kernel (Person n) Empty (LockName n) (ConditionName n)}
  {effects : List (Effect (Person n) Empty (LockName n) (ConditionName n))} {op : Call n}
  {next : Point n} {d' : Data n} {c : Fin n.custs} {o : Fin n.ots} {t : Person n}

/-- Only `Signal` and the current thread change who is in a queue. -/
theorem mem_of_call {x : ConditionName n}
    (hs : Threads.step s.kernel (.call op) = some (k', effects))
    (hop : ∀ l, op ≠ .signal x l) (ht : t ≠ s.kernel.currentThread) :
    t ∈ (k'.conditions x).waitQueue ↔ t ∈ (s.kernel.conditions x).waitQueue := by
  constructor
  · intro hmem
    refine ((Threads.Step.of_step hs).mem_or_wait hmem).resolve_right ?_
    rintro ⟨l, hcalled⟩
    exact ht ((Threads.Step.of_step hs).called hcalled).1
  · intro hmem
    obtain ⟨hcan, -, -⟩ := Threads.Step.called_of_label hs
    rcases (Threads.Step.of_step hs).mem_or_woken hmem with hmem | ⟨l, hcalled⟩ | ⟨l, hpc⟩
    · exact hmem
    · exact absurd (Label.call.inj (Threads.Step.label_of_called hs hcalled)) (hop l)
    · rw [hcan.2.1] at hpc
      cases hpc

/-! ### Places -/

/-- Points and queues of the others are what they were. -/
structure OthersKept (k k' : Kernel (Person n) Empty (LockName n) (ConditionName n))
    (u : Person n) : Prop where
  mem : ∀ x, ConditionName.ofLine x = true → ∀ t, t ≠ u →
    (t ∈ (k'.conditions x).waitQueue ↔ t ∈ (k.conditions x).waitQueue)

theorem front_cust (d' : Data n) {point : Person n → Point n}
    (hpoint : point (.customer c) = s.point (.customer c))
    (hmem : ∀ x, ConditionName.ofLine x = true → (.customer c ∈ (k'.conditions x).waitQueue ↔
      .customer c ∈ (s.kernel.conditions x).waitQueue)) :
    (front ⟨k', point, d'⟩).cust c = (front s).cust c := by
  have hline := hmem .custWaiting rfl
  have hots := fun o => hmem (.orderTaker o) rfl
  simp only [front, hpoint, hline, hots]

theorem front_ot (d' : Data n) {point : Person n → Point n}
    (hpoint : point (.ordertaker o) = s.point (.ordertaker o))
    (hmem : .ordertaker o ∈ (k'.conditions (.orderTaker o)).waitQueue ↔
      .ordertaker o ∈ (s.kernel.conditions (.orderTaker o)).waitQueue) :
    (front ⟨k', point, d'⟩).ot o = (front s).ot o := by
  simp only [front, hpoint, hmem]

/-- A customer moves. -/
theorem front_moveCust (hothers : OthersKept s.kernel k' (.customer c)) :
    front ⟨k', Function.update s.point (.customer c) next, d'⟩ =
      { (front s).moveCust c (next.custPlace
          (.customer c ∈ (k'.conditions .custWaiting).waitQueue)
          fun o => .customer c ∈ (k'.conditions (.orderTaker o)).waitQueue) with
        line := d'.line } := by
  refine Front.ext (funext fun c' => ?_) (funext fun o => ?_) rfl
  · by_cases hc : c' = c
    · subst hc
      simp only [front, Front.moveCust, Function.update_self]
    · have hne : (Person.customer c' : Person n) ≠ .customer c :=
        fun h => hc (Person.customer.inj h)
      simp only [Front.moveCust, Function.update_of_ne hc]
      exact front_cust d' (Function.update_of_ne hne ..) fun x hx => hothers.mem x hx _ hne
  · exact front_ot d' (Function.update_of_ne (by simp) ..) (hothers.mem _ rfl _ (by simp))

/-- An order taker moves. -/
theorem front_moveOT (hothers : OthersKept s.kernel k' (.ordertaker o)) :
    front ⟨k', Function.update s.point (.ordertaker o) next, d'⟩ =
      { (front s).moveOT o (next.otPlace
          (.ordertaker o ∈ (k'.conditions (.orderTaker o)).waitQueue)) with line := d'.line } := by
  refine Front.ext (funext fun c => ?_) (funext fun o' => ?_) rfl
  · exact front_cust d' (Function.update_of_ne (by nofun) ..) fun x hx => hothers.mem x hx _ nofun
  · by_cases ho : o' = o
    · subst ho
      simp only [front, Front.moveOT, Function.update_self]
    · have hne : (Person.ordertaker o' : Person n) ≠ .ordertaker o :=
        fun h => ho (Person.ordertaker.inj h)
      simp only [Front.moveOT, Function.update_of_ne ho]
      exact front_ot d' (Function.update_of_ne hne ..) (hothers.mem _ rfl _ hne)

/-- The manager is not in the line. -/
theorem front_manager (hothers : OthersKept s.kernel k' .manager) :
    front ⟨k', Function.update s.point .manager next, d'⟩ = { front s with line := d'.line } := by
  refine Front.ext (funext fun c => ?_) (funext fun o => ?_) rfl
  · exact front_cust d' (Function.update_of_ne (by nofun) ..) fun x hx => hothers.mem x hx _ nofun
  · exact front_ot d' (Function.update_of_ne (by nofun) ..) (hothers.mem _ rfl _ nofun)

/-- Nobody moves. -/
theorem front_same {u : Person n} (hothers : OthersKept s.kernel k' u)
    (hself : ∀ x, ConditionName.ofLine x = true → (u ∈ (k'.conditions x).waitQueue ↔
      u ∈ (s.kernel.conditions x).waitQueue)) (hplace : SamePlace (s.point u) next) :
    front ⟨k', Function.update s.point u next, d'⟩ = { front s with line := d'.line } := by
  have hmem : ∀ x, ConditionName.ofLine x = true → ∀ t, (t ∈ (k'.conditions x).waitQueue ↔
      t ∈ (s.kernel.conditions x).waitQueue) := by
    intro x hx t
    by_cases ht : t = u
    · subst ht
      exact hself x hx
    · exact hothers.mem x hx t ht
  have hline := hmem .custWaiting rfl
  have hots := fun o => hmem (.orderTaker o) rfl
  refine Front.ext (funext fun c => ?_) (funext fun o => ?_) rfl
  · simp only [front, hline, hots]
    exact see_update (Point.custPlace _ _) (hplace.cust _ _) _
  · simp only [front, hots]
    exact see_update (Point.otPlace _) (hplace.ot _) _

/-! ### What happens between two calls -/

theorem OthersKept.rfl {k : Kernel (Person n) Empty (LockName n) (ConditionName n)}
    {u : Person n} : OthersKept k k u := ⟨fun _ _ _ _ => Iff.rfl⟩

/-- Nobody calls and nobody comes while a customer looks for its order taker. -/
theorem Sound.not_comes (h : Sound s) (hpc : s.kernel.pc (.customer c) = .outside)
    (hpoint : s.point (.customer c) = .customer .called) (o : Fin n.ots) :
    (front s).ot o ≠ .calls ∧ (front s).ot o ≠ .comes := by
  have howner : (s.kernel.locks .custLine).lockerOwner = some (.customer c) := by
    refine (h.held.inLock (.customer c) .custLine ?_).owner (by rw [hpc]; rfl)
    rw [hpoint]
    exact List.mem_singleton_self _
  have hnot : ∀ o', (s.kernel.locks .custLine).lockerOwner ≠ some (.ordertaker o') := by
    intro o' heq
    rw [howner] at heq
    cases heq
  exact ⟨fun hot => hnot o (h.owner_of_comes (.inl hot)),
    fun hot => hnot o (h.owner_of_comes (.inr hot))⟩

/-- **A customer that has been woken finds an order taker that calls.** -/
theorem Sound.finds (h : Sound s) (horderly : (front s).Orderly)
    (hpc : s.kernel.pc (.customer c) = .outside)
    (hpoint : s.point (.customer c) = .customer .called)
    (hout : .customer c ∉ (s.kernel.conditions .custWaiting).waitQueue) :
    ∃ o, s.data.line.otStatus o = .calling := by
  have hwoken : c ∈ (front s).woken := by
    refine Finset.mem_filter.mpr ⟨Finset.mem_univ c, ?_⟩
    simp [front, hpoint, Point.custPlace, hout]
  have hpos : 0 < (front s).calling.card := horderly.called ▸ Finset.card_pos.mpr ⟨c, hwoken⟩
  obtain ⟨o, ho⟩ := Finset.card_pos.mp hpos
  refine ⟨o, (Finset.mem_filter.mp ho).2.resolve_right ?_⟩
  exact (h.not_comes hpc hpoint o).1

theorem Sound.moves_go (h : Sound s) (horderly : (front s).Orderly)
    (hidle : s.kernel.idle = false) (hpc : s.kernel.pc s.kernel.currentThread = .outside)
    (hfound : ∀ o, s.point s.kernel.currentThread = .customer .inLine →
      findAvailable s.data = some o → (s.point (.ordertaker o)).waitsForOrder = true)
    (hgo : LineGo s.data d' s.kernel.currentThread (s.point s.kernel.currentThread) next) :
    Front.Moves (front s)
      (front ⟨s.kernel, Function.update s.point s.kernel.currentThread next, d'⟩) := by
  have hout := h.not_waiting hidle .custWaiting
  generalize hu : s.kernel.currentThread = u at hgo hpc hfound hout
  generalize hp : s.point u = p at hgo hfound
  cases hgo with
  | @found c o hfind hd =>
      subst hd
      rw [front_moveCust .rfl]
      have havailable : s.data.line.otStatus o = .available := of_decide_eq_true (by
        have := List.find?_some hfind
        exact this)
      refine .found (c := c) (o := o) ?_ havailable ?_
      · simp [front, hp, Point.custPlace]
      · refine (otPlace_of_waitsForOrder (hfound o rfl hfind)).resolve_right fun hserves => ?_
        have hbusy := horderly.serves o hserves
        rw [show (front s).line.otStatus o = .available from havailable] at hbusy
        cases hbusy
  | @joins c hd =>
      subst hd
      rw [front_moveCust .rfl]
      exact .joins (c := c) (by simp [front, hp, Point.custPlace])
  | @chose c o hcalling hd =>
      subst hd
      rw [front_moveCust .rfl]
      refine .chose (c := c) (o := o) ?_ hcalling (h.not_comes hpc hp o).2
      simp [front, hp, Point.custPlace, hout]
  | @lost c hnone =>
      obtain ⟨o, ho⟩ := h.finds horderly hpc hp hout
      exact absurd ho (hnone o)
  | @called o hd =>
      subst hd
      rw [front_moveOT .rfl]
      exact .called (o := o) (by simp [front, hp, Point.otPlace])
  | @marks o p next status place hline hstatus hp' hnext hplace =>
      rw [front_moveOT .rfl, hline, hnext]
      refine .marks (o := o) ?_ hplace hstatus
      simp only [front, hp, hp']
  | other hline hplace =>
      subst hp
      rw [front_same .rfl (fun _ _ => Iff.rfl) hplace, hline]
      exact .stays

/-! ### What happens in a call -/

/-- Whoever does not signal leaves the others where they are. -/
theorem OthersKept.of_call (hs : Threads.step s.kernel (.call op) = some (k', effects))
    (hop : ∀ x, ConditionName.ofLine x = true → ∀ l, op ≠ .signal x l) :
    OthersKept s.kernel k' s.kernel.currentThread :=
  ⟨fun x hx _ ht => mem_of_call hs (hop x hx) ht⟩

/-- Who does not wait is not asleep behind the call. -/
theorem Sound.awake_of_call (h : Sound s)
    (hs : Threads.step s.kernel (.call op) = some (k', effects)) {x : ConditionName n}
    (hop : ∀ l, op ≠ .wait x l) : s.kernel.currentThread ∉ (k'.conditions x).waitQueue := by
  obtain ⟨hcan, -, -⟩ := Threads.Step.called_of_label hs
  intro hmem
  rcases (Threads.Step.of_step hs).mem_or_wait hmem with hmem | ⟨l, hcalled⟩
  · exact h.not_waiting hcan.1 x hmem
  · exact hop _ (Label.call.inj (Threads.Step.label_of_called hs hcalled))

theorem Sound.moves_sleeps (h : Sound s)
    (hs : Threads.step s.kernel (.call (.wait .custWaiting (some .custLine))) =
      some (k', effects))
    (hu : s.kernel.currentThread = .customer c)
    (hpoint : s.point (.customer c) = .customer .joining) :
    Front.Moves (front s) (front ⟨k', Function.update s.point (.customer c) (.customer .called),
      s.data⟩) := by
  have hasleep := Threads.Step.mem_of_wait hs (h.waitLock .custWaiting)
  have hothers := OthersKept.of_call hs fun _ _ _ => nofun
  rw [hu] at hasleep hothers
  rw [front_moveCust hothers]
  simp only [Point.custPlace, hasleep, decide_true, if_true]
  exact .sleeps (c := c) (by simp [front, hpoint, Point.custPlace])

/-- A customer that has asked sleeps until it is answered. -/
theorem Sound.stays_waits (h : Sound s) {myOT : Option (Fin n.ots)} {choice : Choice}
    (hs : Threads.step s.kernel (.call (.wait (orderCV myOT) (some (orderLock myOT)))) =
      some (k', effects))
    (hu : s.kernel.currentThread = .customer c)
    (hpoint : s.point (.customer c) = .customer (.signalled myOT choice)) :
    front ⟨k', Function.update s.point (.customer c) (.customer (.answered myOT choice)),
      s.data⟩ = front s := by
  have hothers := OthersKept.of_call hs fun _ _ _ => nofun
  have hasleep := Threads.Step.mem_of_wait hs (by rw [← orderCV_lock]; exact h.waitLock _)
  rw [hu] at hothers hasleep
  rw [front_moveCust hothers]
  refine Front.ext (Function.update_eq_self_iff.mpr ?_) rfl rfl
  cases myOT with
  | none => simp [front, hpoint, Point.custPlace]
  | some o =>
      have hasleep : .customer c ∈ (k'.conditions (.orderTaker o)).waitQueue := hasleep
      simp [front, hpoint, Point.custPlace, hasleep]

/-- A customer that has been answered leaves. -/
theorem Sound.stays_leaves (h : Sound s) (horderly : (front s).Orderly)
    {myOT : Option (Fin n.ots)} {choice : Choice}
    (hs : Threads.step s.kernel (.call (.release (orderLock myOT))) = some (k', effects))
    (hu : s.kernel.currentThread = .customer c)
    (hpoint : s.point (.customer c) = .customer (.answered myOT choice))
    (hnext : ∀ inLine atOT, next.custPlace inLine atOT = .elsewhere) :
    front ⟨k', Function.update s.point (.customer c) next, s.data⟩ = front s := by
  obtain ⟨hcan, -, -⟩ := Threads.Step.called_of_label hs
  have hothers := OthersKept.of_call hs fun _ _ _ => nofun
  have hout := fun o => h.not_waiting hcan.1 (.orderTaker o)
  rw [hu] at hothers hout
  rw [front_moveCust hothers, hnext]
  refine Front.ext (Function.update_eq_self_iff.mpr ?_) rfl rfl
  cases myOT with
  | none => exact absurd (by simp [front, hpoint, Point.custPlace]) (horderly.somebody c).2
  | some o => simp [front, hpoint, Point.custPlace, hout]

theorem moves_stands (hs : Threads.step s.kernel (.call (.release .custLine)) =
      some (k', effects))
    (hu : s.kernel.currentThread = .ordertaker o)
    (hpoint : s.point (.ordertaker o) = .ordertaker .takingHeld) :
    Front.Moves (front s) (front ⟨k', Function.update s.point (.ordertaker o)
      (.ordertaker .waiting), s.data⟩) := by
  have hothers := OthersKept.of_call hs fun _ _ _ => nofun
  rw [hu] at hothers
  rw [front_moveOT hothers]
  exact .stands (o := o) (by simp [front, hpoint, Point.otPlace])

/-- An order taker sleeps until a customer has come. -/
theorem Sound.stays_rests (h : Sound s)
    (hs : Threads.step s.kernel (.call (.wait (.orderTaker o) (some (.orderTaker o)))) =
      some (k', effects))
    (hu : s.kernel.currentThread = .ordertaker o)
    (hpoint : s.point (.ordertaker o) = .ordertaker .waiting) :
    front ⟨k', Function.update s.point (.ordertaker o) (.ordertaker .woken), s.data⟩ =
      front s := by
  have hothers := OthersKept.of_call hs fun _ _ _ => nofun
  have hasleep := Threads.Step.mem_of_wait hs (h.waitLock (.orderTaker o))
  rw [hu] at hothers hasleep
  rw [front_moveOT hothers]
  refine Front.ext rfl (Function.update_eq_self_iff.mpr ?_) rfl
  simp [front, hpoint, Point.otPlace, hasleep]

theorem Sound.stays_serves (h : Sound s)
    (hs : Threads.step s.kernel (.call (.acquire .foodTable)) = some (k', effects))
    (hu : s.kernel.currentThread = .ordertaker o)
    (hpoint : s.point (.ordertaker o) = .ordertaker .woken) :
    front ⟨k', Function.update s.point (.ordertaker o) (.ordertaker (.accepting c)), s.data⟩ =
      front s := by
  obtain ⟨hcan, -, -⟩ := Threads.Step.called_of_label hs
  have hothers := OthersKept.of_call hs fun _ _ _ => nofun
  have hout := h.not_waiting hcan.1 (.orderTaker o)
  rw [hu] at hothers hout
  rw [front_moveOT hothers]
  refine Front.ext rfl (Function.update_eq_self_iff.mpr ?_) rfl
  simp [front, hpoint, Point.otPlace, hout]

/-! ### Signals -/

/-- The conditions a call of `Signal` is not about. -/
theorem conditions_of_signal {x y : ConditionName n} {l : Option (LockName n)}
    (hs : Threads.step s.kernel (.call (.signal x l)) = some (k', effects)) (hy : y ≠ x) :
    k'.conditions y = s.kernel.conditions y :=
  Threads.Step.condition_of_call hs fun _ => ⟨nofun, fun hop => hy (Op.signal.inj hop).1.symm⟩

/-- The first in a queue, woken, is not in it any more; the others are. -/
theorem Sound.signal_mem (h : Sound s) {x : ConditionName n} {rest : List (Person n)}
    (hs : Threads.step s.kernel (.call (.signal x (some x.lock))) = some (k', effects))
    (hq : (s.kernel.conditions x).waitQueue = t :: rest) :
    t ∉ (k'.conditions x).waitQueue ∧ (∀ u, u ≠ t → (u ∈ (k'.conditions x).waitQueue ↔
      u ∈ (s.kernel.conditions x).waitQueue)) ∧
      effects = [.called s.kernel.currentThread (.signal x (some x.lock)),
        .removed s.kernel.currentThread t (.condition x)] := by
  have hmem : t ∈ (s.kernel.conditions x).waitQueue := hq ▸ List.mem_cons_self
  obtain ⟨hrest, heffects⟩ := Threads.Step.signal_first hs hq (h.waitLock_of_mem hmem)
  have hnodup : (s.kernel.conditions x).waitQueue.Nodup := h.placed.located.nodup (.condition x)
  rw [hq] at hnodup
  refine ⟨hrest ▸ (List.nodup_cons.mp hnodup).1, fun u hu => ?_, heffects⟩
  rw [hrest, hq, List.mem_cons, or_iff_right hu]

/-- Who is in line when nobody has joined and nobody calls sleeps. -/
theorem Sound.somebody_asleep (h : Sound s) (horderly : (front s).Orderly)
    (howner : (s.kernel.locks .custLine).lockerOwner = some (.ordertaker o))
    (hot : (front s).ot o ≠ .calls) (hlength : 0 < s.data.line.custLineLength) :
    (s.kernel.conditions .custWaiting).waitQueue ≠ [] := by
  have huncounted : (front s).uncounted = ∅ := by
    refine Finset.filter_eq_empty_iff.mpr fun o' _ ho' => ?_
    have howner' := h.owner_of_comes (.inl ho')
    rw [howner] at howner'
    obtain rfl := Person.ordertaker.inj (Option.some.inj howner')
    exact hot ho'
  have hcard : s.data.line.custLineLength = (front s).inLine.card := by
    refine horderly.length.trans ?_
    rw [huncounted]
    exact add_zero _
  obtain ⟨c, hc⟩ := Finset.card_pos.mp (Int.natCast_pos.mp (hcard ▸ hlength))
  intro hnil
  rcases (Finset.mem_filter.mp hc).2 with hasleep | hjoins
  · obtain ⟨-, hmem⟩ := custPlace_asleep hasleep
    rw [hnil] at hmem
    simp at hmem
  · rw [h.owner_of_joining (custPlace_joins hjoins)] at howner
    cases howner

/-- **An order taker calls a customer**, if the manager does not sleep in the line. -/
theorem Sound.moves_calls (h : Sound s) (horderly : (front s).Orderly)
    (hmanager : .manager ∉ (s.kernel.conditions .custWaiting).waitQueue)
    (hs : Threads.step s.kernel (.call (.signal .custWaiting (some .custLine))) =
      some (k', effects))
    (hu : s.kernel.currentThread = .ordertaker o)
    (hpoint : s.point (.ordertaker o) = .ordertaker .lineHeld)
    (hlength : 0 < s.data.line.custLineLength) :
    Front.Moves (front s) (front ⟨k', Function.update s.point (.ordertaker o)
        (.ordertaker .called), s.data⟩) ∧
      ∃ c, effects = [.called (.ordertaker o) (.signal .custWaiting (some .custLine)),
        .removed (some (.ordertaker o)) (.customer c) (.condition .custWaiting)] := by
  obtain ⟨hcan, -, -⟩ := Threads.Step.called_of_label hs
  have helse : (front s).ot o = .elsewhere := by simp [front, hpoint, Point.otPlace]
  have howner : (s.kernel.locks .custLine).lockerOwner = some (.ordertaker o) := by
    have howner := h.owner hcan.2.1 (l := .custLine) (by
      rw [hu, hpoint]
      exact List.mem_singleton_self _)
    rwa [hu] at howner
  obtain ⟨t, rest, hq⟩ := List.exists_cons_of_ne_nil
    (h.somebody_asleep horderly howner (by simp [helse]) hlength)
  have hmem : t ∈ (s.kernel.conditions .custWaiting).waitQueue := hq ▸ List.mem_cons_self
  rcases h.sleeps_inLine hmem with rfl | ⟨c, rfl, hcalled⟩
  · exact absurd hmem hmanager
  obtain ⟨hout, hrest, heffects⟩ := h.signal_mem hs hq
  rw [hu] at heffects
  refine ⟨?_, c, heffects⟩
  have hasleep : (front s).cust c = .asleep := by simp [front, hcalled, Point.custPlace, hmem]
  have hmove := Front.Moves.calls hasleep helse
  suffices heq : front ⟨k', Function.update s.point (.ordertaker o) (.ordertaker .called),
      s.data⟩ = ((front s).moveCust c .woken).moveOT o .calls by rwa [heq]
  have hsame : ∀ o', k'.conditions (.orderTaker o') = s.kernel.conditions (.orderTaker o') :=
    fun o' => conditions_of_signal hs (by simp)
  refine Front.ext (funext fun c' => ?_) (funext fun o' => ?_) rfl
  · by_cases hc : c' = c
    · subst hc
      simp [front, Front.moveCust, Front.moveOT, hcalled, Point.custPlace, hout]
    · simp only [Front.moveCust, Front.moveOT, Function.update_of_ne hc]
      refine front_cust _ (Function.update_of_ne (by simp) ..) fun x hx => ?_
      cases x with
      | custWaiting => exact hrest _ fun heq => hc (Person.customer.inj heq)
      | orderTaker o' => rw [hsame]
      | _ => cases hx
  · by_cases ho : o' = o
    · subst ho
      simp [front, Front.moveCust, Front.moveOT, Point.otPlace]
    · simp only [Front.moveCust, Front.moveOT, Function.update_of_ne ho]
      refine front_ot _ (Function.update_of_ne ?_ ..) (by rw [hsame])
      exact fun heq => ho (Person.ordertaker.inj heq)

/-- A customer that sleeps at an order taker has asked it. -/
theorem asks_of_mem (h : Sound s)
    (hmem : .customer c ∈ (s.kernel.conditions (.orderTaker o)).waitQueue) :
    (front s).cust c = .asks (some o) := by
  rcases h.sleeps_atOT hmem with ⟨heq, -⟩ | ⟨c', choice, heq, hpoint⟩
  · cases heq
  · simp [front, hpoint, Point.custPlace, hmem]

/-- **A customer wakes its order taker.** -/
theorem Sound.moves_asks (h : Sound s) (horderly : (front s).Orderly) {choice : Choice}
    (hs : Threads.step s.kernel (.call (.signal (.orderTaker o) (some (.orderTaker o)))) =
      some (k', effects))
    (hu : s.kernel.currentThread = .customer c)
    (hpoint : s.point (.customer c) = .customer (.ordered (some o) choice)) :
    Front.Moves (front s) (front ⟨k', Function.update s.point (.customer c)
      (.customer (.signalled (some o) choice)), s.data⟩) := by
  obtain ⟨hcan, -, -⟩ := Threads.Step.called_of_label hs
  have hgoes : (front s).cust c = .goes (some o) := by simp [front, hpoint, Point.custPlace]
  obtain ⟨-, hwaits⟩ := horderly.goes c o hgoes
  have howner : (s.kernel.locks (.orderTaker o)).lockerOwner = some (.customer c) := by
    have howner := h.owner hcan.2.1 (l := .orderTaker o) (by
      rw [hu, hpoint]
      exact List.mem_singleton_self _)
    rwa [hu] at howner
  -- the customer has the lock, so the order taker sleeps
  obtain ⟨hwoken, hmem⟩ : s.point (.ordertaker o) = .ordertaker .woken ∧
      .ordertaker o ∈ (s.kernel.conditions (.orderTaker o)).waitQueue := by
    rcases otPlace_waits hwaits with hwaiting | ⟨hwoken, hmem⟩
    · rw [h.owner_of_waiting hwaiting] at howner
      cases howner
    · exact ⟨hwoken, of_decide_eq_true hmem⟩
  have hnobody : ∀ c', .customer c' ∉ (s.kernel.conditions (.orderTaker o)).waitQueue := by
    intro c' hc'
    have hserves := (horderly.asks c' o (asks_of_mem h hc')).2
    rw [hwaits] at hserves
    cases hserves
  obtain ⟨t, rest, hq⟩ := List.exists_cons_of_ne_nil (List.ne_nil_of_mem hmem)
  obtain rfl : t = .ordertaker o := by
    rcases h.sleeps_atOT (t := t) (hq ▸ List.mem_cons_self) with ⟨ht, -⟩ | ⟨c', -, rfl, -⟩
    · exact ht
    · exact absurd (hq ▸ List.mem_cons_self) (hnobody c')
  obtain ⟨hout, hrest, -⟩ := h.signal_mem hs hq
  suffices heq : front ⟨k', Function.update s.point (.customer c)
      (.customer (.signalled (some o) choice)), s.data⟩ =
        ((front s).moveCust c (.asks (some o))).moveOT o .serves by
    rw [heq]
    exact .asks hgoes
  refine Front.ext (funext fun c' => ?_) (funext fun o' => ?_) rfl
  · by_cases hc : c' = c
    · subst hc
      simp [front, Front.moveCust, Front.moveOT, Point.custPlace]
    · simp only [Front.moveCust, Front.moveOT, Function.update_of_ne hc]
      refine front_cust _ (Function.update_of_ne ?_ ..) fun x _ => ?_
      · exact fun heq => hc (Person.customer.inj heq)
      · by_cases hx : x = .orderTaker o
        · rw [hx]
          exact hrest _ (by simp)
        · rw [conditions_of_signal hs hx]
  · by_cases ho : o' = o
    · subst ho
      simp [front, Front.moveCust, Front.moveOT, hwoken, Point.otPlace, hout]
    · simp only [Front.moveCust, Front.moveOT, Function.update_of_ne ho]
      refine front_ot _ (Function.update_of_ne (by simp) ..) ?_
      rw [conditions_of_signal hs fun heq => ho (ConditionName.orderTaker.inj heq)]

/-- **An order taker answers.** -/
theorem Sound.moves_answers (h : Sound s) (horderly : (front s).Orderly)
    (hs : Threads.step s.kernel (.call (.signal (.orderTaker o) (some (.orderTaker o)))) =
      some (k', effects))
    (hu : s.kernel.currentThread = .ordertaker o)
    (hpoint : s.point (.ordertaker o) = .ordertaker .answering) :
    Front.Moves (front s) (front ⟨k', Function.update s.point (.ordertaker o)
      (.ordertaker .answered), s.data⟩) := by
  obtain ⟨hcan, -, -⟩ := Threads.Step.called_of_label hs
  have howner : (s.kernel.locks (.orderTaker o)).lockerOwner = some (.ordertaker o) := by
    have howner := h.owner hcan.2.1 (l := .orderTaker o) (by
      rw [hu, hpoint]
      exact List.mem_singleton_self _)
    rwa [hu] at howner
  have hbefore : ∀ t, t ∈ (k'.conditions (.orderTaker o)).waitQueue →
      t ∈ (s.kernel.conditions (.orderTaker o)).waitQueue := by
    intro t hmem
    refine ((Threads.Step.of_step hs).mem_or_wait hmem).resolve_right ?_
    rintro ⟨l, hcalled⟩
    cases Threads.Step.label_of_called hs hcalled
  -- one customer at most has asked, so the one that is woken is the only one
  have hnobody : ∀ c, .customer c ∉ (k'.conditions (.orderTaker o)).waitQueue := by
    intro c hc
    have hasks := asks_of_mem h (hbefore _ hc)
    obtain ⟨t, rest, hq⟩ := List.exists_cons_of_ne_nil (List.ne_nil_of_mem (hbefore _ hc))
    have hmem : t ∈ (s.kernel.conditions (.orderTaker o)).waitQueue := hq ▸ List.mem_cons_self
    rcases h.sleeps_atOT hmem with ⟨rfl, -⟩ | ⟨c', -, rfl, -⟩
    · exact h.not_waiting hcan.1 (.orderTaker o) (hu ▸ hmem)
    · obtain rfl := horderly.unique c c' o (by rw [hasks]; rfl)
        (by rw [asks_of_mem h hmem]; rfl)
      exact (h.signal_mem hs hq).1 hc
  suffices heq : front ⟨k', Function.update s.point (.ordertaker o) (.ordertaker .answered),
      s.data⟩ = (front s).answer o by
    rw [heq]
    exact .answers (by simp [front, hpoint, Point.otPlace])
  refine Front.ext (funext fun c => ?_) (funext fun o' => ?_) rfl
  · simp only [Front.answer]
    split
    · rename_i hasks
      obtain ⟨choice, hsignalled | ⟨hanswered, -⟩⟩ := custPlace_asks hasks
      · rw [h.owner_of_signalled hsignalled] at howner
        cases howner
      · simp [front, hanswered, Point.custPlace, hnobody]
    · rename_i hasks
      refine front_cust _ (Function.update_of_ne (by simp) ..) fun x _ => ?_
      by_cases hx : x = .orderTaker o
      · rw [hx]
        exact iff_of_false (hnobody c) fun hmem => hasks (asks_of_mem h hmem)
      · rw [conditions_of_signal hs hx]
  · by_cases ho : o' = o
    · subst ho
      simp [front, Front.answer, Point.otPlace]
    · simp only [Front.answer, Function.update_of_ne ho]
      refine front_ot _ (Function.update_of_ne ?_ ..) ?_
      · exact fun heq => ho (Person.ordertaker.inj heq)
      · rw [conditions_of_signal hs fun heq => ho (ConditionName.orderTaker.inj heq)]

/-! ### Every step -/

/-- The line is used as it should be: the manager does not sleep in the line when an order
taker calls, and the order taker that a customer finds waits for an order. -/
def properly (s : Scene n) : Turn n → Prop
  | .act _ =>
      ((s.point s.kernel.currentThread).looksAtLine = true → 0 < s.data.line.custLineLength →
        .manager ∉ (s.kernel.conditions .custWaiting).waitQueue) ∧
      ((s.point s.kernel.currentThread).entersLine = true → ∀ o, findAvailable s.data = some o →
        (s.point (.ordertaker o)).waitsForOrder = true)
  | .kernel _ | .interrupt _ => True

/-- A `Signal` in the line wakes a customer, and nobody else is woken there. -/
def CallsCustomer
    (es : List (Threads.Event (Person n) Empty (LockName n) (ConditionName n) (Event n))) :
    Prop :=
  (∀ t l, .kernel (.called t (.signal .custWaiting l)) ∈ es →
    ∃ c, .kernel (.removed (some t) (.customer c) (.condition .custWaiting)) ∈ es) ∧
  ∀ w t, .kernel (.removed w t (.condition .custWaiting)) ∈ es → ∃ c, t = .customer c

theorem mem_map_kernel {e : Effect (Person n) Empty (LockName n) (ConditionName n)} :
    Threads.Event.kernel e ∈ effects.map (Threads.Event.kernel (X := Event n)) ↔ e ∈ effects := by
  simp

/-- Where nobody signals in the line nobody is woken there. -/
theorem callsCustomer_of_none (hs : Threads.Step s.kernel k' effects)
    (hcalled : ∀ t l, .called t (.signal .custWaiting l) ∉ effects)
    (hpc : ∀ l, s.kernel.pc s.kernel.currentThread ≠ .inBroadcast .custWaiting l) :
    CallsCustomer (effects.map .kernel) := by
  refine ⟨fun t l hmem => absurd (mem_map_kernel.mp hmem) (hcalled t l), fun w t hmem => ?_⟩
  have hmem := mem_map_kernel.mp hmem
  rcases hs.condition .custWaiting with ⟨-, hnone⟩ | @⟨l, -, -, -, hes⟩ | ⟨-, -, -, hes⟩ |
    ⟨-, -, -, hloop, -⟩
  · exact absurd (by simp [Effect.about]) (List.filter_eq_nil_iff.mp hnone _ hmem)
  · rw [hes] at hmem
    simp only [List.mem_cons, reduceCtorEq, false_or, Kernel.release] at hmem
    repeat' split at hmem
    all_goals simp at hmem
  · exact absurd (by rw [hes]; exact List.mem_cons_self) (hcalled _ _)
  · exact absurd hloop (hpc _)

theorem Sound.moves_call (h : Sound s) (horderly : (front s).Orderly)
    (hok : (s.point s.kernel.currentThread).looksAtLine = true →
      0 < s.data.line.custLineLength →
        .manager ∉ (s.kernel.conditions .custWaiting).waitQueue)
    (hcall : LineCall s.data s.kernel.currentThread (s.point s.kernel.currentThread) op next)
    (hs : Threads.step s.kernel (.call op) = some (k', effects)) :
    Front.Moves (front s)
        (front ⟨k', Function.update s.point s.kernel.currentThread next, s.data⟩) ∧
      CallsCustomer (effects.map .kernel) := by
  obtain ⟨hcan, -, -⟩ := Threads.Step.called_of_label hs
  have hnone : (∀ l, op ≠ .signal .custWaiting l) → CallsCustomer (effects.map .kernel) := by
    intro hop
    refine callsCustomer_of_none (.of_step hs) (fun t l hcalled => ?_) fun l hpc => ?_
    · exact hop l (Label.call.inj (Threads.Step.label_of_called hs hcalled))
    · rw [hcan.2.1] at hpc
      cases hpc
  generalize hu : s.kernel.currentThread = u at hcall hok
  generalize hp : s.point u = p at hcall hok
  cases hcall with
  | sleeps => exact ⟨h.moves_sleeps hs hu hp, hnone nofun⟩
  | @asks c myOT choice =>
      cases myOT with
      | none =>
          refine absurd ?_ (horderly.somebody c).1
          simp [front, hp, Point.custPlace]
      | some o => exact ⟨h.moves_asks horderly hs hu hp, hnone nofun⟩
  | waits =>
      rw [h.stays_waits hs hu hp]
      exact ⟨.stays, hnone nofun⟩
  | leaves hnext =>
      rw [h.stays_leaves horderly hs hu hp hnext]
      exact ⟨.stays, hnone nofun⟩
  | @calls o hlength =>
      obtain ⟨hmoves, c, heffects⟩ := h.moves_calls horderly (hok rfl hlength) hs hu hp hlength
      refine ⟨hmoves, ?_⟩
      rw [heffects]
      simp [CallsCustomer]
  | stands => exact ⟨moves_stands hs hu hp, hnone nofun⟩
  | rests =>
      rw [h.stays_rests hs hu hp]
      exact ⟨.stays, hnone nofun⟩
  | serves =>
      rw [h.stays_serves hs hu hp]
      exact ⟨.stays, hnone nofun⟩
  | answers => exact ⟨h.moves_answers horderly hs hu hp, hnone nofun⟩
  | idles =>
      have hothers := OthersKept.of_call hs fun _ _ _ => nofun
      rw [hu] at hothers
      rw [front_manager hothers]
      exact ⟨.stays, hnone nofun⟩
  | other habout hplace =>
      have hnot : ∀ x, ConditionName.ofLine x = true → ∀ l, op ≠ .wait x l ∧ op ≠ .signal x l := by
        refine fun x hx l => ⟨?_, ?_⟩ <;> rintro rfl <;> exact absurd (habout.symm.trans hx) nofun
      have hothers := OthersKept.of_call hs fun x hx l => (hnot x hx l).2
      subst hp hu
      rw [front_same hothers (fun x hx => ?_) hplace]
      · exact ⟨.stays, hnone fun l => (hnot _ rfl l).2⟩
      · exact iff_of_false (h.awake_of_call hs fun l => (hnot x hx l).1)
          (h.not_waiting hcan.1 x)

variable {s' : Scene n} {m : Turn n}
  {es : List (Threads.Event (Person n) Empty (LockName n) (ConditionName n) (Event n))}
  {tr : Trace n} {cash : ℤ} {food inventory : ℕ}

/-- **What happens in the restaurant can happen to the line.** -/
theorem moves_step (h : Sound s) (horderly : (front s).Orderly) (hok : properly s m)
    (hs : Program.Steps (restaurant n) s m s' es) :
    Front.Moves (front s) (front s') ∧ CallsCustomer es := by
  cases hs with
  | call hact hstep => exact h.moves_call horderly hok.1 (calls_line (.of_act hact)) hstep
  | go hidle hpc hact =>
      refine ⟨h.moves_go horderly hidle hpc (fun o hpoint => ?_) (goes_line (.of_act hact)), ?_⟩
      · exact hok.2 (by rw [hpoint]; rfl) o
      · simp [CallsCustomer]
  | @kernel label k' effects hinside hstep =>
      have hcalled : ∀ t op, .called t op ∉ effects := by
        intro t op hcalled
        rw [Threads.Step.label_of_called hstep hcalled] at hinside
        cases hinside
      have hpc : ∀ x, ConditionName.ofLine x = true → ∀ l,
          s.kernel.pc s.kernel.currentThread ≠ .inBroadcast x l := by
        intro x hx l hpc
        obtain ⟨p, d, a, hact⟩ := h.asked s.kernel.currentThread (.broadcast x l) (by rw [hpc]; rfl)
        exact not_broadcast (calls_line (.of_act hact)) hx rfl
      refine ⟨?_, callsCustomer_of_none (.of_step hstep) (fun t l => hcalled t _) (hpc _ rfl)⟩
      have hsame : ∀ x, ConditionName.ofLine x = true →
          k'.conditions x = s.kernel.conditions x :=
        fun x hx => (Threads.Step.of_step hstep).condition_of_inside hcalled (hpc x hx)
      have heq : front ⟨k', s.point, s.data⟩ = front s := by
        refine Front.ext (funext fun c => ?_) (funext fun o => ?_) rfl
        · exact front_cust _ rfl fun x hx => by rw [hsame x hx]
        · exact front_ot _ rfl (by rw [hsame _ rfl])
      rw [heq]
      exact .stays
  | @interrupt i | @device i => exact i.elim

/-! ### Every run -/

/-- The line is in order in every run that uses it properly, and every `Signal` wakes a
customer. -/
theorem orderly_of_run (hrun : Run (restaurant n).step (fun _ => properly)
    (opened n cash food inventory) tr s) : (front s).Orderly ∧ ∀ es ∈ tr, CallsCustomer es := by
  refine hrun.invariant_with (I := fun tr s => (front s).Orderly ∧ ∀ es ∈ tr, CallsCustomer es)
    sound_of_run ⟨?_, nofun⟩ ?_
  · have hwoken : (front (opened n cash food inventory)).woken = ∅ :=
      Finset.filter_eq_empty_iff.mpr fun _ _ h => nomatch h
    have hcalling : (front (opened n cash food inventory)).calling = ∅ :=
      Finset.filter_eq_empty_iff.mpr fun _ _ h => h.elim nofun nofun
    have hinLine : (front (opened n cash food inventory)).inLine = ∅ :=
      Finset.filter_eq_empty_iff.mpr fun _ _ h => h.elim nofun nofun
    have huncounted : (front (opened n cash food inventory)).uncounted = ∅ :=
      Finset.filter_eq_empty_iff.mpr fun _ _ h => nomatch h
    refine ⟨⟨nofun, nofun, nofun, fun _ => ⟨nofun, nofun⟩, nofun, nofun⟩, ?_, ?_⟩
    · rw [hwoken, hcalling, Finset.card_empty, Finset.card_empty]
    · rw [hinLine, huncounted]
      rfl
  · rintro tr s m s' es hsound ⟨horderly, hcalls⟩ hok hs
    obtain ⟨hmoves, hthis⟩ := moves_step hsound horderly hok (.of_step hs)
    refine ⟨horderly.move hmoves, fun es' hes' => ?_⟩
    rcases List.mem_append.mp hes' with hes' | hes'
    · exact hcalls es' hes'
    · exact List.mem_singleton.mp hes' ▸ hthis

/-- The customers that sleep in the line. -/
def asleepInLine (s : Scene n) : Finset (Fin n.custs) :=
  Finset.univ.filter fun c => .customer c ∈ (s.kernel.conditions .custWaiting).waitQueue

/-- `MyOT` is -2: the customer gives its order to nobody. -/
def Point.hasNobody : Point n → Bool
  | .customer (.chosen none) | .customer (.leftLine none) | .customer (.ordering none)
  | .customer (.ordered none _) | .customer (.signalled none _)
  | .customer (.answered none _) => true
  | _ => false

/-- `CustLineLength` counts those that sleep in the line, who has been woken finds an order
taker, and everybody that gives an order gives it to an order taker. -/
structure LineKept (s : Scene n) : Prop where
  length : (s.kernel.locks .custLine).lockerOwner = none →
    s.data.line.custLineLength = (asleepInLine s).card
  finds : ∀ c, s.point (.customer c) = .customer .called →
    s.kernel.pc (.customer c) = .outside → ∃ o, s.data.line.otStatus o = .calling
  somebody : ∀ c, (s.point (.customer c)).hasNobody = false

/-- **The customer line is kept** in every run in which the manager does not sleep in the line
when an order taker calls, and customers find only order takers that wait for an order. -/
theorem line_kept (hrun : Run (restaurant n).step (fun _ => properly)
    (opened n cash food inventory) tr s) : LineKept s ∧ ∀ es ∈ tr, CallsCustomer es := by
  obtain ⟨horderly, hcalls⟩ := orderly_of_run hrun
  have hsound := sound_of_run hrun
  refine ⟨⟨fun hfree => ?_, fun c hpoint hpc => ?_, fun c => ?_⟩, hcalls⟩
  · have hnobody : ∀ {u}, (s.kernel.locks .custLine).lockerOwner ≠ some u := by
      rw [hfree]
      nofun
    have huncounted : (front s).uncounted = ∅ := Finset.filter_eq_empty_iff.mpr
      fun o _ hcalls => hnobody (hsound.owner_of_comes (.inl hcalls))
    have hinLine : (front s).inLine = asleepInLine s := by
      refine Finset.filter_congr fun c _ => ⟨fun hc => ?_, fun hmem => .inl ?_⟩
      · rcases hc with hasleep | hjoins
        · exact of_decide_eq_true (custPlace_asleep hasleep).2
        · exact absurd (hsound.owner_of_joining (custPlace_joins hjoins)) hnobody
      · rcases hsound.sleeps_inLine hmem with heq | ⟨c', -, hpoint⟩
        · cases heq
        · simp [front, hpoint, Point.custPlace, hmem]
    refine horderly.length.trans ?_
    rw [huncounted, hinLine]
    exact add_zero _
  · refine hsound.finds horderly hpc hpoint fun hmem => ?_
    obtain ⟨l, hwaits, -⟩ := hsound.asked.waiting hsound.placed hmem
    rw [hpc] at hwaits
    cases hwaits
  · obtain ⟨hgoes, hasks⟩ := horderly.somebody c
    refine Bool.eq_false_iff.mpr fun hnobody => ?_
    simp only [front] at hgoes hasks
    generalize s.point (.customer c) = p at hgoes hasks hnobody
    unfold Point.hasNobody at hnobody
    split at hnobody
    all_goals first | exact hgoes rfl | exact hasks rfl | cases hnobody

/-! ### Samples -/

instance (s : Scene n) (m : Turn n) : Decidable (properly s m) :=
  match m with
  | .act _ => inferInstanceAs (Decidable (_ ∧ _))
  | .kernel _ | .interrupt _ => .isTrue trivial

/-- One order taker and two customers. -/
abbrev twoInLine : Size := ⟨1, 2, 1, 0, 0, rfl⟩

/-- Two customers have joined the line, and one of them has been called and has found the order
taker. -/
theorem line_kept_sample : ∃ tr s,
    Run (restaurant twoInLine).step (fun _ => properly) (opened twoInLine 0 0 3) tr s ∧
      s.data.line.custLineLength = 1 ∧ (asleepInLine s).card = 1 ∧ LineKept s := by
  have hexec : (execBy (restaurant twoInLine).step (fun _ => properly) []
      (opened twoInLine 0 0 3) (schedule ⟨0, fun i => if i = 5 then 1 else 0⟩
        [(.main, 10), (.customer 0, 6), (.customer 1, 5), (.ordertaker 0, 12),
          (.customer 0, 5)])).map
      (fun r => ((r.2.kernel.locks .custLine).lockerOwner, r.2.data.line.custLineLength)) =
        some (none, 1) := by decide +kernel
  obtain ⟨⟨tr, s⟩, hexec, hstate⟩ := Option.map_eq_some_iff.mp hexec
  obtain ⟨hfree, hlength⟩ := Prod.mk.inj hstate
  have hrun := Run.of_execBy .start hexec
  have hkept := (line_kept hrun).1
  refine ⟨tr, s, hrun, hlength, ?_, hkept⟩
  have hlength' := hkept.length hfree
  rw [hlength] at hlength'
  exact (Int.natCast_inj.mp hlength').symm

/-- The manager is woken instead of a customer. -/
def wakesManager : Threads.Event (Person n) Empty (LockName n) (ConditionName n) (Event n) → Bool
  | .kernel (.removed _ .manager (.condition .custWaiting)) => true
  | _ => false

/-- The manager goes to sleep in the line, a customer joins it, and an order taker calls: it
wakes the manager, and the customer sleeps in a line of length 0. -/
theorem manager_called : ∃ tr s, Run (restaurant twoInLine).step
    (restaurant twoInLine).uninterrupted (opened twoInLine 0 0 3) tr s ∧
      tr.flatten.any wakesManager = true ∧ (s.kernel.locks .custLine).lockerOwner = none ∧
      s.data.line.custLineLength = 0 ∧ 0 ∈ asleepInLine s := by
  have hexec : (execBy (restaurant twoInLine).step (restaurant twoInLine).uninterrupted []
      (opened twoInLine 0 0 3) (schedule ⟨0, fun i => if i = 5 then 1 else 0⟩
        [(.main, 10), (.manager, 33), (.customer 0, 6), (.ordertaker 0, 12)])).map
      (fun r => ((r.1.flatten.any wakesManager, (r.2.kernel.locks .custLine).lockerOwner),
        r.2.data.line.custLineLength, decide (0 ∈ asleepInLine r.2))) =
        some ((true, none), 0, true) := by decide +kernel
  obtain ⟨⟨tr, s⟩, hexec, hstate⟩ := Option.map_eq_some_iff.mp hexec
  simp only [Prod.mk.injEq, decide_eq_true_iff] at hstate
  obtain ⟨⟨hwakes, hfree⟩, hlength, hasleep⟩ := hstate
  exact ⟨tr, s, Run.of_execBy .start hexec, hwakes, hfree, hlength, hasleep⟩

/-- Two order takers and four customers. -/
abbrev twoCalls : Size := ⟨1, 4, 2, 0, 0, rfl⟩

/-- An order taker says that it is free when it has packed an order. It calls a customer before
the one that has found it free comes, and when it has served that one it says that it is busy:
the last customer that is called finds nobody. -/
theorem nobody_found : ∃ tr s, Run (restaurant twoCalls).step
    (restaurant twoCalls).uninterrupted (opened twoCalls 0 0 3) tr s ∧
      tr.flatten.any wakesManager = false ∧
      (s.point (.customer 3)).hasNobody = true := by
  have hexec : (execBy (restaurant twoCalls).step (restaurant twoCalls).uninterrupted []
      (opened twoCalls 0 0 3) (schedule ⟨0, fun i => if i = 5 then 1 else 0⟩
        [(.main, 16), (.ordertaker 1, 10), (.customer 0, 12), (.ordertaker 1, 25), (.customer 0, 9),
          -- Customer 1 finds order taker 1 free.
          (.customer 1, 7), (.customer 2, 6), (.customer 3, 5), (.ordertaker 1, 5),
          (.ordertaker 0, 5), (.ordertaker 1, 10), (.customer 1, 7), (.ordertaker 0, 13),
          (.ordertaker 1, 12), (.customer 2, 7), (.ordertaker 1, 11), (.customer 3, 9)])).map
      (fun r => (r.1.flatten.any wakesManager, (r.2.point (.customer 3)).hasNobody)) =
        some (false, true) := by decide +kernel
  obtain ⟨⟨tr, s⟩, hexec, hstate⟩ := Option.map_eq_some_iff.mp hexec
  obtain ⟨hwakes, hnobody⟩ := Prod.mk.inj hstate
  exact ⟨tr, s, Run.of_execBy .start hexec, hwakes, hnobody⟩

end Steps

end Nachos.Restaurant
