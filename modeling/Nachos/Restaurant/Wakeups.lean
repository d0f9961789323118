import Nachos.Restaurant.Tables

/-!
# No seating wakeup is lost

A customer says that it waits for a seat before it takes the lock it waits with. Nobody takes
the processor away from it in between, so when the manager sees it waiting, it is in the lock
or sleeps already. The manager signals with this lock, and only after it has assigned a table;
a customer with a table is not asleep, except for the moment between the two.
-/

namespace Nachos.Restaurant

open Nachos.Lib Nachos.Threads

variable {n : Size}

/-! ## Where customers and the manager are -/

/-- A customer that waits for a seat, or has done so. -/
def Point.waits : Point n → Bool
  | .customer .seatHeld | .customer .seatWaited | .customer .hungry | .customer .eatInHeld
  | .customer .fed | .customer (.eating _) | .customer .leaving | .customer .left
  | .customer .gone => true
  | _ => false

/-- The customer that the manager deals with. -/
def Point.deals : Point n → Option (Fin n.custs)
  | .manager (.finding i) | .manager (.assigned i _) | .manager (.informed i _)
  | .manager (.seated i) => some i
  | _ => none

/-- Those points are reached without a call. -/
def Point.prompt : Point n → Prop
  | .customer .announced | .manager (.assigned _ _) => True
  | _ => False

section Points

variable {d d' : Data n} {a : Rand} {op : Call n} {events : List (Event n)} {u : Person n}
  {p next : Point n} {c : Fin n.custs}

theorem customer_go_waits {p next : CustomerPoint n}
    (h : simulateCustomer c d a p = some (.go next d' events)) :
    (Point.customer next).waits = (Point.customer p).waits ∧ next ≠ .seatHeld := by
  cases p with
  | eating times => cases times <;> cases h
  | _ =>
      simp only [simulateCustomer] at h
      repeat' split at h
      all_goals cases h <;> exact ⟨rfl, by simp⟩

theorem manager_go_deals {p next : ManagerPoint n}
    (h : simulateManager d a p = some (.go next d' events)) :
    (Point.manager next).deals = (Point.manager p).deals := by
  cases p with
  | coming times | withdrawing times =>
      cases times
      all_goals cases h
      rfl
  | pausing times pFood => cases times <;> cases h
  | working =>
      simp only [simulateManager] at h
      split at h
      · cases h
        split <;> rfl
      · cases h
        rfl
  | _ =>
      simp only [simulateManager] at h
      repeat' split at h
      all_goals cases h <;> rfl

/-- Nobody comes to a wait for a seat without a call. -/
theorem goes_waits (h : Goes d a u p next d' events) :
    next.waits = p.waits ∧ next.deals = p.deals ∧ next ≠ .customer .seatHeld := by
  cases h with
  | start => cases u <;> exact ⟨rfl, rfl, nofun⟩
  | customer hact =>
      obtain ⟨hwaits, hne⟩ := customer_go_waits hact
      exact ⟨hwaits, rfl, fun heq => hne (Point.customer.inj heq)⟩
  | manager hact => exact ⟨rfl, manager_go_deals hact, nofun⟩
  | ordertaker _ | cook _ | waiter _ => exact ⟨rfl, rfl, nofun⟩

/-- The seat that a call waits for. -/
def awaitedSeat : Call n → Option (Fin n.custs)
  | .wait (.seatCust c) _ => some c
  | _ => none

/-- What a call says about the wait for a seat. -/
structure WaitCall (d : Data n) (u : Person n) (p : Point n) (op : Call n) (next : Point n) :
    Prop where
  waits : p.waits = true → next.waits = true
  deals : ∀ c, next.deals = some c → p.deals = some c ∨
    u = .manager ∧ d.seating.customerStatus c = .waitingForSeat
  announced : p = .customer .announced → next.waits = true
  seatHeld : next = .customer .seatHeld →
    p = .customer .announced ∧ ∀ c, u = .customer c → op = .acquire (.seatCust c)
  wait : ∀ c l, op = .wait (.seatCust c) l → u = .customer c ∧
    (p = .customer .seatHeld ∨ d.seating.custTableNum c = none)
  signal : ∀ c t, p = .manager (.assigned c t) →
    op = .signal (.seatCust c) (some (.seatCust c))

/-- A call that is about no seat: where it is made from and where it leads is computed. -/
theorem WaitCall.other (hwaits : (!p.waits || next.waits) = true) (hdeals : next.deals = none)
    (hprompt : ¬ p.prompt) (hnext : next ≠ .customer .seatHeld) (hop : awaitedSeat op = none) :
    WaitCall d u p op next where
  waits := by simpa [← Bool.not_eq_true, imp_iff_not_or] using hwaits
  deals c hc := absurd (hdeals.symm.trans hc) (by simp)
  announced hp := absurd (hp ▸ trivial) hprompt
  seatHeld heq := absurd heq hnext
  wait c l heq := absurd (hop.symm.trans (congrArg awaitedSeat heq)) (by simp [awaitedSeat])
  signal c t hp := absurd (hp ▸ trivial) hprompt

theorem customer_call_waits {p next : CustomerPoint n}
    (h : simulateCustomer c d a p = some (.call op next)) :
    WaitCall d (.customer c) (.customer p) op (.customer next) := by
  cases p with
  | eating times => cases times <;> cases h <;> exact .other rfl rfl id (by simp) rfl
  | answered myOT choice =>
      cases h
      repeat' split
      all_goals exact .other rfl rfl id (by simp) rfl
  | announced =>
      cases h
      refine ⟨fun _ => rfl, by simp [Point.deals], fun _ => rfl, fun _ => ⟨rfl, fun c' hc => ?_⟩,
        by simp, by simp⟩
      obtain rfl := Person.customer.inj hc
      rfl
  | seatHeld =>
      cases h
      refine ⟨fun _ => rfl, by simp [Point.deals], by simp, by simp, fun c' l hop => ?_, by simp⟩
      obtain ⟨heq, -⟩ := Op.wait.inj hop
      obtain rfl := ConditionName.seatCust.inj heq
      exact ⟨rfl, .inl rfl⟩
  | seatWaited =>
      simp only [simulateCustomer] at h
      split at h
      · rename_i hnone
        cases h
        refine ⟨fun _ => rfl, by simp [Point.deals], by simp, by simp, fun c' l hop => ?_, by simp⟩
        obtain ⟨heq, -⟩ := Op.wait.inj hop
        obtain rfl := ConditionName.seatCust.inj heq
        exact ⟨rfl, .inr hnone⟩
      · cases h
        exact .other rfl rfl id (by simp) rfl
  | signalled myOT choice =>
      cases h
      cases myOT <;> exact .other rfl rfl id (by simp) rfl
  | _ =>
      simp only [simulateCustomer] at h
      repeat' split at h
      all_goals cases h <;> exact .other rfl rfl id (by simp) rfl

theorem manager_call_waits {p next : ManagerPoint n}
    (h : simulateManager d a p = some (.call op next)) :
    WaitCall d .manager (.manager p) op (.manager next) := by
  cases p with
  | coming times | withdrawing times =>
      cases times <;> cases h
      exact .other rfl rfl id (by simp) rfl
  | pausing times pFood =>
      cases times <;> cases h <;> exact .other rfl rfl id (by simp) rfl
  | searching i =>
      simp only [simulateManager] at h
      split at h
      · split at h
        · rename_i hwaiting
          cases h
          refine ⟨by simp [Point.waits], fun c hc => ?_, by simp, by simp, by simp, by simp⟩
          obtain rfl := Option.some.inj hc
          exact .inr ⟨rfl, hwaiting.1⟩
        · cases h
      · cases h
        exact .other rfl rfl id (by simp) rfl
  | assigned i t =>
      cases h
      refine ⟨by simp [Point.waits], fun c hc => .inl hc, by simp, by simp, by simp,
        fun c t' hp => ?_⟩
      obtain ⟨rfl, -⟩ := ManagerPoint.assigned.inj (Point.manager.inj hp)
      rfl
  | _ =>
      simp only [simulateManager] at h
      repeat' split at h
      all_goals cases h <;> exact .other rfl rfl id (by simp) rfl

theorem ordertaker_call_waits {o : Fin n.ots} {p next : OrdertakerPoint n}
    (h : simulateOrdertaker o d p = some (.call op next)) :
    WaitCall d (.ordertaker o) (.ordertaker p) op (.ordertaker next) := by
  cases p <;> simp only [simulateOrdertaker] at h
  all_goals repeat' split at h
  all_goals cases h <;> exact .other rfl rfl id (by simp) rfl

theorem cook_call_waits {k : Fin n.cooks} {p next : CookPoint}
    (h : simulateCook k d a p = some (.call op next)) :
    WaitCall d (.cook k) (.cook p) op (.cook next) := by
  cases p with
  | cooking times =>
      cases times <;> cases h <;> exact .other rfl rfl id (by simp) rfl
  | _ =>
      simp only [simulateCook] at h
      repeat' split at h
      all_goals cases h <;> exact .other rfl rfl id (by simp) rfl

theorem waiter_call_waits {w : Fin n.waiters} {p next : WaiterPoint n}
    (h : simulateWaiter w d p = some (.call op next)) :
    WaitCall d (.waiter w) (.waiter p) op (.waiter next) := by
  cases p <;> simp only [simulateWaiter] at h
  all_goals repeat' split at h
  all_goals cases h <;> exact .other rfl rfl id (by simp) rfl

theorem calls_waits (h : Calls d a u p op next) : WaitCall d u p op next := by
  cases h with
  | fork | opened => exact .other rfl rfl id (by simp) rfl
  | ordertaker hact => exact ordertaker_call_waits hact
  | customer hact => exact customer_call_waits hact
  | cook hact => exact cook_call_waits hact
  | manager hact => exact manager_call_waits hact
  | waiter hact => exact waiter_call_waits hact

theorem customer_call_prompt {p next : CustomerPoint n}
    (h : simulateCustomer c d a p = some (.call op next)) : ¬ (Point.customer next).prompt := by
  intro hnext
  cases p with
  | eating times => cases times <;> cases h <;> exact hnext
  | answered myOT choice =>
      cases h
      repeat' split at hnext
      all_goals exact hnext
  | _ =>
      simp only [simulateCustomer] at h
      repeat' split at h
      all_goals cases h <;> exact hnext

theorem manager_call_prompt {p next : ManagerPoint n}
    (h : simulateManager d a p = some (.call op next)) : ¬ (Point.manager next).prompt := by
  intro hnext
  cases p with
  | coming times | withdrawing times | pausing times pFood =>
      cases times <;> cases h <;> exact hnext
  | _ =>
      simp only [simulateManager] at h
      repeat' split at h
      all_goals cases h <;> exact hnext

theorem calls_prompt (h : Calls d a u p op next) : ¬ next.prompt := by
  cases h with
  | customer hact => exact customer_call_prompt hact
  | manager hact => exact manager_call_prompt hact
  | fork | opened | ordertaker _ | cook _ | waiter _ => exact id

/-- Nothing happens between an assignment and `Signal`. -/
theorem not_goes_assigned {t : Fin n.seats} (hp : p = .manager (.assigned c t)) :
    ¬ Goes d a u p next d' events := by
  intro h
  cases h with
  | manager hact =>
      obtain rfl := Point.manager.inj hp
      cases hact
  | start | ordertaker _ | customer _ | cook _ | waiter _ => cases hp

end Points

/-! ## Who has the lock of a seat -/

section Held

variable {u : Person n} {p : Point n} {c : Fin n.custs}

/-- Only the customer and the manager use it. -/
theorem of_held_seatCust (h : .seatCust c ∈ held u p) :
    u = .customer c ∧ p.waits = true ∨ u = .manager ∧ p.deals = some c := by
  unfold held at h
  split at h
  · rename_i o p
    cases p <;> simp [OrdertakerPoint.held] at h
  · rename_i c' p
    cases p with
    | ordering myOT | ordered myOT _ | signalled myOT _ | answered myOT _ =>
        cases myOT <;> simp [CustomerPoint.held, orderLock] at h
    | seatHeld | seatWaited =>
        obtain rfl := LockName.seatCust.inj (List.mem_singleton.mp h)
        exact .inl ⟨rfl, rfl⟩
    | _ => simp [CustomerPoint.held] at h
  · rename_i p
    cases p <;> simp [CookPoint.held] at h
  · rename_i p
    cases p with
    | finding i | assigned i _ | informed i _ | seated i =>
        simp only [ManagerPoint.held, List.mem_cons, LockName.seatCust.injEq, reduceCtorEq,
          List.not_mem_nil, or_self, or_false] at h
        subst h
        exact .inr ⟨rfl, rfl⟩
    | _ => simp [ManagerPoint.held] at h
  · rename_i p
    cases p <;> simp [WaiterPoint.held] at h
  · cases h

end Held

/-! ## Steps -/

section Steps

variable {s s' : Scene n} {m : Turn n}
  {es : List (Threads.Event (Person n) Empty (LockName n) (ConditionName n) (Event n))}
  {tr : Trace n} {cash : ℤ} {food inventory : ℕ}

/-- What a customer says, what the manager does and who has the lock of a seat go together. -/
structure Wakeups (s : Scene n) : Prop where
  status : ∀ c, s.data.seating.customerStatus c = .waitingForSeat →
    s.point (.customer c) = .customer .announced ∨ (s.point (.customer c)).waits = true
  deals : ∀ c, (s.point .manager).deals = some c → (s.point (.customer c)).waits = true
  table : ∀ c, s.data.seating.custTableNum c ≠ none →
    (s.point (.customer c)).waits = true ∧ s.point (.customer c) ≠ .customer .seatHeld
  owner : ∀ c, s.point (.customer c) = .customer .seatHeld →
    (s.kernel.locks (.seatCust c)).lockerOwner = some (.customer c)
  pending : ∀ c t, .customer c ∈ (s.kernel.conditions (.seatCust c)).waitQueue →
    s.data.seating.custTableNum c = some t → s.point .manager = .manager (.assigned c t)

variable {k' : Kernel (Person n) Empty (LockName n) (ConditionName n)}
  {effects : List (Effect (Person n) Empty (LockName n) (ConditionName n))} {op : Call n}
  {next : Point n} {d' : Data n} {events : List (Event n)} {a : Rand}

/-- Only the customer sleeps in the condition of its seat. -/
theorem Sound.customer_of_seatCust (h : Sound s) {c : Fin n.custs} {t : Person n}
    (hmem : t ∈ (s.kernel.conditions (.seatCust c)).waitQueue) : t = .customer c := by
  obtain ⟨l, -, p, d, a, hact⟩ := h.asked.waiting h.placed hmem
  exact ((calls_waits (.of_act hact)).wait c _ rfl).1

/-- `CustomerStatus`, `CustTableNum` and the points are what they were. -/
theorem Wakeups.kernel (h : Wakeups s) (hs : Threads.Step s.kernel k' effects)
    (hcalled : ∀ t op, .called t op ∉ effects) : Wakeups ⟨k', s.point, s.data⟩ where
  status := h.status
  deals := h.deals
  table := h.table
  owner c hc := by
    refine (hs.lockerOwner (h.owner c hc)).resolve_right ?_
    rintro ⟨-, -, -, hreleased⟩
    rcases (hs.released hreleased).2 with hcall | ⟨c, hcall, -⟩ <;> exact hcalled _ _ hcall
  pending c t hmem := by
    refine h.pending c t ((hs.mem_or_wait hmem).resolve_right ?_)
    rintro ⟨l, hcall⟩
    exact hcalled _ _ hcall

/-- Nobody has the lock of a seat when the customer comes to it. -/
theorem Wakeups.lock_free (h : Wakeups s) (hsound : Sound s) {c : Fin n.custs}
    (hpoint : s.point (.customer c) = .customer .announced) :
    (s.kernel.locks (.seatCust c)).lockerOwner = none := by
  by_contra howner
  obtain ⟨u, howner⟩ := Option.ne_none_iff_exists'.mp howner
  have hwaits : (s.point (.customer c)).waits = true := by
    rcases of_held_seatCust (hsound.held.of_owner u _ howner) with ⟨rfl, hwaits⟩ | ⟨rfl, hdeals⟩
    · exact hwaits
    · exact h.deals c hdeals
  rw [hpoint] at hwaits
  cases hwaits

theorem Wakeups.call (h : Wakeups s) (hsound : Sound s)
    (hprompt : ∀ t, (s.point t).prompt → t = s.kernel.currentThread)
    (hcall : WaitCall s.data s.kernel.currentThread (s.point s.kernel.currentThread) op next)
    (hs : Threads.step s.kernel (.call op) = some (k', effects)) :
    Wakeups ⟨k', Function.update s.point s.kernel.currentThread next, s.data⟩ := by
  obtain ⟨hcan, -, hcalled⟩ := Threads.Step.called_of_label hs
  have hwaits : ∀ c, (s.point (.customer c)).waits = true →
      (Function.update s.point s.kernel.currentThread next (.customer c)).waits = true := by
    intro c hc
    by_cases hu : .customer c = s.kernel.currentThread
    · rw [hu] at hc ⊢
      rw [Function.update_self]
      exact hcall.waits hc
    · rwa [Function.update_of_ne hu]
  refine ⟨?_, ?_, ?_, ?_, ?_⟩
  · intro c hc
    rcases h.status c hc with hannounced | hold
    · have hu := hprompt (.customer c) (by rw [hannounced]; trivial)
      refine .inr ?_
      dsimp only
      rw [hu, Function.update_self]
      exact hcall.announced (hu ▸ hannounced)
    · exact .inr (hwaits c hold)
  · intro c hc
    rcases Program.of_update (q := fun p : Point n => p.deals = some c) hc with
      ⟨hu, hnext⟩ | ⟨-, hold⟩
    · rcases hcall.deals c hnext with hold | ⟨-, hstatus⟩
      · exact hwaits c (h.deals c (hu ▸ hold))
      · rcases h.status c hstatus with hannounced | hold
        · have hcustomer := hprompt (.customer c) (by rw [hannounced]; trivial)
          rw [← hu] at hcustomer
          cases hcustomer
        · exact hwaits c hold
    · exact hwaits c (h.deals c hold)
  · intro c hc
    obtain ⟨hold, hne⟩ := h.table c hc
    refine ⟨hwaits c hold, fun hseat => ?_⟩
    rcases Program.of_update (q := fun p : Point n => p = .customer .seatHeld) hseat with
      ⟨hu, hnext⟩ | ⟨-, hseat⟩
    · rw [hu, (hcall.seatHeld hnext).1] at hold
      cases hold
    · exact hne hseat
  · intro c hc
    rcases Program.of_update (q := fun p : Point n => p = .customer .seatHeld) hc with
      ⟨hu, hnext⟩ | ⟨hne, hold⟩
    · obtain ⟨hannounced, hop⟩ := hcall.seatHeld hnext
      obtain rfl := hop c hu.symm
      rw [hu]
      exact Threads.Step.acquire_of_free hs (h.lock_free hsound (hu ▸ hannounced))
    · refine ((Threads.Step.of_step hs).lockerOwner (h.owner c hold)).resolve_right ?_
      exact fun hreleased => hne hreleased.1
  · intro c t hmem hnum
    have hold : .customer c ∈ (s.kernel.conditions (.seatCust c)).waitQueue := by
      refine ((Threads.Step.of_step hs).mem_or_wait hmem).resolve_right ?_
      rintro ⟨l, hwait⟩
      obtain ⟨hu, -⟩ := (Threads.Step.of_step hs).called hwait
      obtain rfl := Label.call.inj (Threads.Step.label_of_called hs hwait)
      rcases (hcall.wait c _ rfl).2 with hseat | hnone
      · exact (h.table c (by rw [hnum]; nofun)).2 (by rw [hu]; exact hseat)
      · rw [hnum] at hnone
        cases hnone
    have hassigned := h.pending c t hold hnum
    have hu := hprompt .manager (by rw [hassigned]; trivial)
    obtain rfl := hcall.signal c t (hu ▸ hassigned)
    obtain ⟨t', rest, hq⟩ := List.exists_cons_of_ne_nil (List.ne_nil_of_mem hold)
    obtain ⟨hrest, -⟩ := Threads.Step.signal_first hs hq (hsound.waitLock_of_mem hold)
    have honly : ∀ v ∈ (s.kernel.conditions (.seatCust c)).waitQueue, v = .customer c :=
      fun v hv => hsound.customer_of_seatCust hv
    have hnodup : (s.kernel.conditions (.seatCust c)).waitQueue.Nodup :=
      hsound.placed.located.nodup (.condition (.seatCust c))
    rw [hq] at honly hnodup
    have hmem : .customer c ∈ rest := hrest ▸ hmem
    rw [honly t' List.mem_cons_self] at hnodup
    exact absurd hmem (List.nodup_cons.mp hnodup).1

/-- Neither the announcements nor the tables of customers change. -/
theorem Wakeups.unseated (h : Wakeups s)
    (hgoes : Goes s.data a s.kernel.currentThread (s.point s.kernel.currentThread) next d' events)
    (hstatus : ∀ c, d'.seating.customerStatus c = .waitingForSeat →
      s.data.seating.customerStatus c = .waitingForSeat ∨
        s.kernel.currentThread = .customer c ∧ next = .customer .announced)
    (hnum : d'.seating.custTableNum = s.data.seating.custTableNum) :
    Wakeups ⟨s.kernel, Function.update s.point s.kernel.currentThread next, d'⟩ := by
  obtain ⟨hwaits, hdeals, hseat⟩ := goes_waits hgoes
  have hpoint : ∀ {u : Person n} {q : Point n → Prop}, ¬ q next →
      q (Function.update s.point s.kernel.currentThread next u) → q (s.point u) := by
    intro u q hnot hq
    rcases Program.of_update hq with ⟨-, hnext⟩ | ⟨-, hold⟩
    · exact absurd hnext hnot
    · exact hold
  refine ⟨?_, ?_, ?_, ?_, ?_⟩
  · intro c hc
    dsimp only
    rw [see_update Point.waits hwaits]
    rcases hstatus c hc with hold | ⟨hu, hnext⟩
    · rcases h.status c hold with hannounced | hold
      · by_cases hu : Person.customer c = s.kernel.currentThread
        · rw [hu, Function.update_self]
          rw [← hu, hannounced] at hgoes
          cases hgoes with
          | customer hact => cases hact
        · rw [Function.update_of_ne hu]
          exact .inl hannounced
      · exact .inr hold
    · rw [hu, Function.update_self]
      exact .inl hnext
  · intro c hc
    have hold : (s.point .manager).deals = some c := (see_update Point.deals hdeals _) ▸ hc
    dsimp only
    rw [see_update Point.waits hwaits]
    exact h.deals c hold
  · intro c hc
    obtain ⟨hold, hne⟩ := h.table c (by rwa [← hnum])
    refine ⟨?_, fun heq => hne (hpoint (q := fun p => p = .customer .seatHeld) hseat heq)⟩
    dsimp only
    rwa [see_update Point.waits hwaits]
  · intro c hc
    exact h.owner c (hpoint (q := fun p => p = .customer .seatHeld) hseat hc)
  · intro c t hmem hc
    have hassigned := h.pending c t hmem (by rwa [← hnum])
    have hne : Person.manager ≠ s.kernel.currentThread :=
      fun hu => not_goes_assigned (hu ▸ hassigned) hgoes
    dsimp only
    rwa [Function.update_of_ne hne]

/-- The manager assigns a table: the customer is asleep, or will find the table. -/
theorem Wakeups.assign (h : Wakeups s) (hsound : Sound s)
    (hpc : s.kernel.pc s.kernel.currentThread = .outside) {i : Fin n.custs} {t : Fin n.seats}
    (hcurrent : s.kernel.currentThread = .manager)
    (hfinding : s.point .manager = .manager (.finding i)) :
    Wakeups ⟨s.kernel, Function.update s.point .manager (.manager (.assigned i t)),
      s.data.setCustTableNum i t⟩ := by
  have hcustomer : ∀ c, Function.update s.point .manager (.manager (.assigned i t))
      (.customer c) = s.point (.customer c) := fun c => Function.update_of_ne (by nofun) ..
  have hnum : ∀ c, c ≠ i → (s.data.setCustTableNum i t).seating.custTableNum c =
      s.data.seating.custTableNum c := fun c hne => Function.update_of_ne hne ..
  have howner : (s.kernel.locks (.seatCust i)).lockerOwner = some .manager := by
    have howner := hsound.owner hpc (l := .seatCust i) (by
      rw [hcurrent, hfinding]
      exact List.mem_cons_self)
    rwa [hcurrent] at howner
  refine ⟨?_, ?_, ?_, ?_, ?_⟩
  · intro c hc
    dsimp only
    rw [hcustomer]
    exact h.status c hc
  · intro c hc
    dsimp only
    rw [hcustomer]
    refine h.deals c ?_
    rw [hfinding]
    dsimp only at hc
    rwa [Function.update_self] at hc
  · intro c hc
    dsimp only
    rw [hcustomer]
    by_cases hi : c = i
    · subst hi
      refine ⟨h.deals c (by rw [hfinding]; rfl), fun hseat => ?_⟩
      rw [h.owner c hseat] at howner
      cases howner
    · exact h.table c (by rwa [← hnum c hi])
  · intro c hc
    dsimp only at hc
    rw [hcustomer] at hc
    exact h.owner c hc
  · intro c t' hmem hc
    dsimp only
    rw [Function.update_self]
    by_cases hi : c = i
    · subst hi
      have hself : (s.data.setCustTableNum c t).seating.custTableNum c = some t :=
        Function.update_self ..
      obtain rfl := Option.some.inj (hself.symm.trans hc)
      rfl
    · rw [h.pending c t' hmem (by rwa [← hnum c hi])] at hfinding
      cases hfinding

theorem Wakeups.go (h : Wakeups s) (hsound : Sound s)
    (hpc : s.kernel.pc s.kernel.currentThread = .outside)
    (hgoes : Goes s.data a s.kernel.currentThread (s.point s.kernel.currentThread) next d' events) :
    Wakeups ⟨s.kernel, Function.update s.point s.kernel.currentThread next, d'⟩ := by
  have hgo := goes_seats hgoes
  generalize hu : s.kernel.currentThread = u at hgo
  generalize hp : s.point u = p at hgo
  cases hgo with
  | @announced c hd =>
      rw [← hu]
      refine h.unseated hgoes (fun c' hc' => ?_) (by rw [hd]; rfl)
      by_cases hc : c' = c
      · subst hc
        exact .inr ⟨hu, rfl⟩
      · have hold : d'.seating.customerStatus c' = s.data.seating.customerStatus c' := by
          rw [hd]
          exact Function.update_of_ne hc ..
        exact .inl (hold ▸ hc')
  | assigned hfree hd =>
      subst hd
      exact h.assign hsound hpc hu hp
  | marked hd | left _ hd =>
      rw [← hu]
      refine h.unseated hgoes (fun c hc => .inl ?_) (by rw [hd]; rfl)
      rw [hd] at hc
      exact hc
  | other hseating _ _ _ _ _ =>
      rw [← hu]
      exact h.unseated hgoes (fun c hc => .inl (by rwa [← hseating])) (by rw [hseating])

/-! ### Every run -/

/-- What one step preserves. -/
theorem wakeups_step (h : Wakeups s) (hsound : Sound s)
    (hprompt : ∀ t, (s.point t).prompt → t = s.kernel.currentThread)
    (hs : Program.Steps (restaurant n) s m s' es) : Wakeups s' := by
  cases hs with
  | call hact hstep =>
      exact h.call hsound hprompt (calls_waits (.of_act hact)) hstep
  | go _ hpc hact => exact h.go hsound hpc (.of_act hact)
  | kernel hinside hstep =>
      refine h.kernel (.of_step hstep) fun t op hcalled => ?_
      rw [Threads.Step.label_of_called hstep hcalled] at hinside
      cases hinside
  | @interrupt i | @device i => exact i.elim

/-- A wakeup is on its way to the customer: the next thing that happens is that the manager
calls `Signal`, and the customer is the first to be woken. -/
structure Pending (s : Scene n) (c : Fin n.custs) : Prop where
  point : ∃ t, s.point .manager = .manager (.assigned c t)
  current : s.kernel.currentThread = .manager ∧ s.kernel.idle = false ∧
    s.kernel.pc .manager = .outside
  waitQueue : (s.kernel.conditions (.seatCust c)).waitQueue = [.customer c]
  waitLock : (s.kernel.conditions (.seatCust c)).waitLock = some (.seatCust c)

/-- **No seating wakeup is lost.** A customer that is asleep while it has a table is about to
be woken. -/
theorem no_lost_seating (hrun : Run (restaurant n).step (restaurant n).uninterrupted
    (opened n cash food inventory) tr s) (c : Fin n.custs)
    (hasleep : .customer c ∈ (s.kernel.conditions (.seatCust c)).waitQueue)
    (hassigned : s.data.seating.custTableNum c ≠ none) : Pending s c := by
  have hprompt : ∀ {tr s}, Run (restaurant n).step (restaurant n).uninterrupted
      (opened n cash food inventory) tr s → ∀ t, (s.point t).prompt →
      t = s.kernel.currentThread ∧ s.kernel.idle = false ∧ s.kernel.pc t = .outside :=
    fun hrun => Program.prompt_of_run id (fun hact => calls_prompt (.of_act hact)) hrun
  have hwakeups : Wakeups s := by
    refine hrun.invariant_with (I := fun _ s => Wakeups s)
      (fun hrun => And.intro (sound_of_run hrun) (hprompt hrun)) ?_ ?_
    · exact ⟨nofun, nofun, fun c hc => absurd rfl hc, nofun, nofun⟩
    · rintro tr s m s' es ⟨hsound, hprompt⟩ h _ hs
      exact wakeups_step h hsound (fun t ht => (hprompt t ht).1) (.of_step hs)
  have hsound := sound_of_run hrun
  obtain ⟨t, hnum⟩ := Option.ne_none_iff_exists'.mp hassigned
  have hpoint := hwakeups.pending c t hasleep hnum
  obtain ⟨hcurrent, hidle, hpc⟩ := hprompt hrun .manager (by rw [hpoint]; trivial)
  refine ⟨⟨t, hpoint⟩, ⟨hcurrent.symm, hidle, hpc⟩, ?_, hsound.waitLock_of_mem hasleep⟩
  have hnodup : (s.kernel.conditions (.seatCust c)).waitQueue.Nodup :=
    hsound.placed.located.nodup (.condition (.seatCust c))
  have honly : ∀ v ∈ (s.kernel.conditions (.seatCust c)).waitQueue, v = .customer c :=
    fun v hv => hsound.customer_of_seatCust hv
  obtain ⟨v, rest, hq⟩ := List.exists_cons_of_ne_nil (List.ne_nil_of_mem hasleep)
  rw [hq] at honly hnodup ⊢
  obtain rfl := honly v List.mem_cons_self
  cases rest with
  | nil => rfl
  | cons v rest =>
      obtain rfl := honly v (List.mem_cons_of_mem _ List.mem_cons_self)
      exact absurd List.mem_cons_self (List.nodup_cons.mp hnodup).1

/-- The customer is asleep and has a table, and the manager is about to call `Signal`. -/
theorem no_lost_seating_sample : ∃ tr s, ∃ c : Fin oneSeat.custs,
    Run (restaurant oneSeat).step (restaurant oneSeat).uninterrupted (opened oneSeat 0 0 3) tr s ∧
      .customer c ∈ (s.kernel.conditions (.seatCust c)).waitQueue ∧
      s.data.seating.custTableNum c = some 0 ∧ Pending s c := by
  have hexec : (execBy (restaurant oneSeat).step (restaurant oneSeat).uninterrupted []
      (opened oneSeat 0 0 3)
      (List.replicate 82 (Program.onward ⟨4, fun i => if i = 5 then 1 else 0⟩))).map
      (fun r => ((r.2.kernel.conditions (.seatCust 0)).waitQueue,
        r.2.data.seating.custTableNum 0)) = some ([.customer 0], some 0) := by decide +kernel
  obtain ⟨⟨tr, s⟩, hexec, hstate⟩ := Option.map_eq_some_iff.mp hexec
  obtain ⟨hqueue, hnum⟩ := Prod.mk.inj hstate
  have hrun := Run.of_execBy .start hexec
  have hasleep : .customer 0 ∈ (s.kernel.conditions (.seatCust 0)).waitQueue := by
    rw [show (s.kernel.conditions (.seatCust 0)).waitQueue = [.customer 0] from hqueue]
    exact List.mem_singleton_self _
  have hnum : s.data.seating.custTableNum 0 = some 0 := hnum
  exact ⟨tr, s, 0, hrun, hasleep, hnum, no_lost_seating hrun 0 hasleep (by rw [hnum]; nofun)⟩

end Steps

end Nachos.Restaurant
