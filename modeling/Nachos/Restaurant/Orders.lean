import Nachos.Restaurant.Tables

/-!
# Orders are registered once

A customer gives its order to one order taker and wakes it, with the lock of the order taker.
So an order taker that has been woken finds an order that is not registered yet. Customers may
wake each other, and then their orders are never registered; no order is registered twice.
-/

namespace Nachos.Restaurant

open Nachos.Lib Nachos.Threads

variable {n : Size}

/-! ## What has been done to an order -/

def Event.accepts (c : Fin n.custs) : Event n → Bool
  | .accepted _ c' => c' = c
  | _ => false

def Event.packs (c : Fin n.custs) : Event n → Bool
  | .packed _ c' _ => c' = c
  | _ => false

/-- The package is not ready, again. -/
def Event.undoes (c : Fin n.custs) : Event n → Bool
  | .marked c' .notReady => c' = c
  | _ => false

/-- An order taker has registered the order. -/
def accepted (log : List (Event n)) (c : Fin n.custs) : Bool := log.any (Event.accepts c)

/-- `getFood` has been executed for the package. -/
def isPacked (log : List (Event n)) (c : Fin n.custs) : Bool := log.any (Event.packs c)

theorem accepted_append (log events : List (Event n)) (c : Fin n.custs) :
    accepted (log ++ events) c = (accepted log c || accepted events c) := List.any_append

theorem isPacked_append (log events : List (Event n)) (c : Fin n.custs) :
    isPacked (log ++ events) c = (isPacked log c || isPacked events c) := List.any_append

/-! ## Where the persons are -/

/-- The customer has given its order. -/
def Point.hasOrdered : Point n → Bool
  | .customer .entering | .customer .inLine | .customer .joining | .customer .called
  | .customer (.chosen _) | .customer (.leftLine _) | .customer (.ordering _) => false
  | .customer _ => true
  | _ => false

/-- The customer is about to wake this order taker. -/
def Point.tells : Point n → Option (Fin n.ots)
  | .customer (.ordered myOT _) => myOT
  | _ => none

/-- The order that is being registered. -/
def Point.accepts : Point n → Option (Fin n.custs)
  | .ordertaker (.accepting c) => some c
  | _ => none

/-- The order that is packed, and not marked yet. -/
def Point.hands : Point n → Option (Fin n.custs)
  | .ordertaker (.handing i) | .ordertaker (.handingHeld i) => some i
  | _ => none

section Persons

variable {d d' : Data n} {a : Rand} {op : Call n} {events : List (Event n)} {u : Person n}
  {p next : Point n}

/-- Nothing is said about orders. -/
structure Unordered (events : List (Event n)) : Prop where
  ordered : ∀ c myOT, .ordered c myOT ∉ events
  accepted : ∀ c, accepted events c = false
  isPacked : ∀ c, isPacked events c = false
  inOrder : ∀ e ∈ events, ∀ c, Event.undoes c e = false

/-- What a person does to orders between two calls. -/
inductive OrderGo (d d' : Data n) : Person n → Point n → Point n → List (Event n) → Prop
  | ordered {c : Fin n.custs} {myOT : Option (Fin n.ots)} {a : Rand} :
      d' = giveOrder c myOT d a →
      OrderGo d d' (.customer c) (.customer (.ordering myOT)) (.customer (.ordered myOT a.choice))
        [.ordered c myOT, .marked c .notReady]
  | packed {o : Fin n.ots} {i : Fin n.custs} {units : CookFood → ℤ} :
      ¬ d.orders.unpackedFood < 1 → findPack d = some i → d' = addUnpacked (pack o i d) (-1) →
      OrderGo d d' (.ordertaker o) (.ordertaker .packing) (.ordertaker (.handing i))
        [.packed o i units]
  | readied {o : Fin n.ots} {i : Fin n.custs} {units : CookFood → ℤ} :
      ¬ d.orders.unpackedFood < 1 → findPack d = some i →
      d' = (mark i .ready (addUnpacked (pack o i d) (-1))).setOTStatus o .available →
      OrderGo d d' (.ordertaker o) (.ordertaker .packing) (.ordertaker .packed)
        [.packed o i units, .marked i .ready]
  | handed {o : Fin n.ots} {i : Fin n.custs} : d' = mark i .done d →
      OrderGo d d' (.ordertaker o) (.ordertaker (.handingHeld i)) (.ordertaker .handed)
        [.marked i .done]
  | served {o : Fin n.ots} {c : Fin n.custs} {units : CookFood → ℤ} :
      d' = mark c .done (pack o c d) →
      OrderGo d d' (.ordertaker o) (.ordertaker (.accepting c)) (.ordertaker .accepted)
        [.accepted o c, .packed o c units, .marked c .done]
  | registered {o : Fin n.ots} {c : Fin n.custs} :
      d' = addUnpacked (mark c .notReady d) 1 →
      OrderGo d d' (.ordertaker o) (.ordertaker (.accepting c)) (.ordertaker .accepted)
        [.accepted o c, .marked c .notReady]
  | carried {w : Fin n.waiters} {p next : WaiterPoint n} {i : Fin n.custs}
      {status : PackageStatus} : status ≠ .notReady → d' = mark i status d →
      OrderGo d d' (.waiter w) (.waiter p) (.waiter next) [.marked i status]
  | other {u : Person n} {p next : Point n} {events : List (Event n)} : d'.orders = d.orders →
      Unordered events → next.hasOrdered = p.hasOrdered → next.tells = none →
      next.accepts = none → next.hands = p.hands → next ≠ .ordertaker .woken →
      OrderGo d d' u p next events

theorem unordered_nil : Unordered ([] : List (Event n)) :=
  ⟨nofun, fun _ => rfl, fun _ => rfl, nofun⟩

/-- What is not about orders. -/
theorem unordered_other {e : Event n} (hordered : ∀ c myOT, e ≠ .ordered c myOT)
    (hrest : ∀ c, (e.accepts c, e.packs c, e.undoes c) = (false, false, false)) :
    Unordered [e] where
  ordered c myOT hmem := hordered c myOT (List.mem_singleton.mp hmem).symm
  accepted c := (Bool.or_false _).trans (Prod.mk.inj (hrest c)).1
  isPacked c := (Bool.or_false _).trans (Prod.mk.inj (Prod.mk.inj (hrest c)).2).1
  inOrder e' he' c := by
    rw [List.mem_singleton.mp he']
    exact (Prod.mk.inj (Prod.mk.inj (hrest c)).2).2

theorem customer_go_orders {c : Fin n.custs} {p next : CustomerPoint n}
    (h : simulateCustomer c d a p = some (.go next d' events)) :
    OrderGo d d' (.customer c) (.customer p) (.customer next) events := by
  cases p with
  | eating times => cases times <;> cases h
  | ordering myOT =>
      cases h
      exact .ordered rfl
  | leaving =>
      simp only [simulateCustomer] at h
      split at h
      · cases h
        exact .other rfl (unordered_other (by simp) fun _ => rfl) rfl rfl rfl rfl (by simp)
      · cases h
  | _ =>
      simp only [simulateCustomer] at h
      repeat' split at h
      all_goals cases h <;> exact .other rfl unordered_nil rfl rfl rfl rfl (by simp)

theorem ordertaker_go_orders {o : Fin n.ots} {p next : OrdertakerPoint n}
    (h : simulateOrdertaker o d p = some (.go next d' events)) :
    OrderGo d d' (.ordertaker o) (.ordertaker p) (.ordertaker next) events := by
  cases p with
  | packing =>
      simp only [simulateOrdertaker] at h
      split at h
      · cases h
      · rename_i hfood
        split at h
        · rename_i i hfind
          split at h
          · cases h
            exact .packed hfood hfind rfl
          · cases h
            exact .readied hfood hfind rfl
        · cases h
          exact .other rfl unordered_nil rfl rfl rfl rfl (by simp)
  | accepting c =>
      simp only [simulateOrdertaker] at h
      split at h
      · cases h
        exact .served rfl
      · cases h
        exact .registered rfl
  | handingHeld i =>
      cases h
      exact .handed rfl
  | _ =>
      simp only [simulateOrdertaker] at h
      repeat' split at h
      all_goals cases h <;> exact .other rfl unordered_nil rfl rfl rfl rfl (by simp)

theorem cook_go_orders {k : Fin n.cooks} {p next : CookPoint}
    (h : simulateCook k d a p = some (.go next d' events)) :
    OrderGo d d' (.cook k) (.cook p) (.cook next) events := by
  cases p with
  | cooking times => cases times <;> cases h
  | fetchingHeld =>
      simp only [simulateCook] at h
      repeat' split at h
      all_goals cases h
      exact .other rfl (unordered_other (by simp) fun _ => rfl) rfl rfl rfl rfl (by simp)
  | serving =>
      simp only [simulateCook] at h
      split at h
      · cases h
      · cases h
        exact .other rfl (unordered_other (by simp) fun _ => rfl) rfl rfl rfl rfl (by simp)
  | _ =>
      simp only [simulateCook] at h
      repeat' split at h
      all_goals cases h <;> exact .other rfl unordered_nil rfl rfl rfl rfl (by simp)

theorem waiter_go_orders {w : Fin n.waiters} {p next : WaiterPoint n}
    (h : simulateWaiter w d p = some (.go next d' events)) :
    OrderGo d d' (.waiter w) (.waiter p) (.waiter next) events := by
  cases p with
  | packageHeld myCust =>
      simp only [simulateWaiter] at h
      split at h
      · cases h
        exact .other rfl unordered_nil rfl rfl rfl rfl (by simp)
      · split at h
        · cases h
          exact .other rfl unordered_nil rfl rfl rfl rfl (by simp)
        · cases h
          exact .carried (by simp) rfl
  | serving myCust =>
      cases h
      exact .carried (by simp) rfl
  | _ =>
      simp only [simulateWaiter] at h
      cases h <;> exact .other rfl unordered_nil rfl rfl rfl rfl (by simp)

theorem manager_go_orders {p next : ManagerPoint n}
    (h : simulateManager d a p = some (.go next d' events)) :
    OrderGo d d' .manager (.manager p) (.manager next) events := by
  cases p with
  | coming times | withdrawing times =>
      cases times
      all_goals cases h
      exact .other rfl unordered_nil rfl rfl rfl rfl (by simp)
  | pausing times pFood => cases times <;> cases h
  | refilling =>
      cases h
      exact .other rfl (unordered_other (by simp) fun _ => rfl) rfl rfl rfl rfl (by simp)
  | finding i =>
      simp only [simulateManager] at h
      split at h
      · cases h
        exact .other rfl (unordered_other (by simp) fun _ => rfl) rfl rfl rfl rfl (by simp)
      · cases h
        exact .other rfl unordered_nil rfl rfl rfl rfl (by simp)
  | _ =>
      simp only [simulateManager] at h
      repeat' split at h
      all_goals cases h <;> exact .other rfl unordered_nil rfl rfl rfl rfl (by simp)

theorem goes_orders (h : Goes d a u p next d' events) : OrderGo d d' u p next events := by
  cases h with
  | start => cases u <;> exact .other rfl unordered_nil rfl rfl rfl rfl (by simp [first])
  | ordertaker hact => exact ordertaker_go_orders hact
  | customer hact => exact customer_go_orders hact
  | cook hact => exact cook_go_orders hact
  | manager hact => exact manager_go_orders hact
  | waiter hact => exact waiter_go_orders hact

/-- The order taker whose condition a call signals. -/
def wokenOrderTaker : Call n → Option (Fin n.ots)
  | .signal (.orderTaker o) _ | .broadcast (.orderTaker o) _ => some o
  | _ => none

/-- What a call says about orders. -/
structure OrderCall (d : Data n) (u : Person n) (p : Point n) (op : Call n) (next : Point n) :
    Prop where
  hasOrdered : next.hasOrdered = p.hasOrdered
  tells : next.tells = none
  hands : next.hands = p.hands
  accepts : ∀ o c, u = .ordertaker o → next.accepts = some c →
    p = .ordertaker .woken ∧ d.orders.otService o = some c
  woken : ∀ o, u = .ordertaker o → next = .ordertaker .woken →
    op = .wait (.orderTaker o) (some (.orderTaker o))
  signal : ∀ o l, op = .signal (.orderTaker o) l → u = .ordertaker o ∨
    ∃ c, u = .customer c ∧ p.tells = some o
  broadcast : ∀ o l, op ≠ .broadcast (.orderTaker o) l

/-- A call that is about no order: where it is made from and where it leads is computed. -/
theorem OrderCall.other (hordered : next.hasOrdered = p.hasOrdered) (htells : next.tells = none)
    (hhands : next.hands = p.hands) (haccepts : next.accepts = none)
    (hwoken : next ≠ .ordertaker .woken) (hop : wokenOrderTaker op = none) :
    OrderCall d u p op next where
  hasOrdered := hordered
  tells := htells
  hands := hhands
  accepts o c _ hc := absurd (haccepts.symm.trans hc) (by simp)
  woken o _ heq := absurd heq hwoken
  signal o l heq := absurd (hop.symm.trans (congrArg wokenOrderTaker heq))
    (by simp [wokenOrderTaker])
  broadcast o l heq := absurd (hop.symm.trans (congrArg wokenOrderTaker heq))
    (by simp [wokenOrderTaker])

theorem customer_call_orders {c : Fin n.custs} {p next : CustomerPoint n}
    (h : simulateCustomer c d a p = some (.call op next)) :
    OrderCall d (.customer c) (.customer p) op (.customer next) := by
  cases p with
  | eating times => cases times <;> cases h <;> exact .other rfl rfl rfl rfl (by simp) rfl
  | ordered myOT choice =>
      cases h
      refine ⟨rfl, rfl, rfl, by simp [Point.accepts], by simp, ?_, by simp⟩
      intro o l hop
      cases myOT with
      | none => cases hop
      | some o' =>
          obtain rfl := ConditionName.orderTaker.inj (Op.signal.inj hop).1
          exact .inr ⟨c, rfl, rfl⟩
  | answered myOT choice =>
      cases h
      repeat' split
      all_goals exact .other rfl rfl rfl rfl (by simp) rfl
  | _ =>
      simp only [simulateCustomer] at h
      repeat' split at h
      all_goals cases h <;> exact .other rfl rfl rfl rfl (by simp) rfl

theorem ordertaker_call_orders {o : Fin n.ots} {p next : OrdertakerPoint n}
    (h : simulateOrdertaker o d p = some (.call op next)) :
    OrderCall d (.ordertaker o) (.ordertaker p) op (.ordertaker next) := by
  cases p with
  | waiting =>
      cases h
      refine ⟨rfl, rfl, rfl, by simp [Point.accepts], ?_, by simp, by simp⟩
      intro o' ho _
      obtain rfl := Person.ordertaker.inj ho
      rfl
  | woken =>
      simp only [simulateOrdertaker] at h
      split at h
      · rename_i c hservice
        cases h
        refine ⟨rfl, rfl, rfl, ?_, by simp, by simp, by simp⟩
        intro o' c' ho hc
        obtain rfl := Person.ordertaker.inj ho
        obtain rfl := Option.some.inj hc
        exact ⟨rfl, hservice⟩
      · cases h
  | answering =>
      cases h
      refine ⟨rfl, rfl, rfl, by simp [Point.accepts], by simp, ?_, by simp⟩
      intro o' l hop
      obtain rfl := ConditionName.orderTaker.inj (Op.signal.inj hop).1
      exact .inl rfl
  | _ =>
      simp only [simulateOrdertaker] at h
      repeat' split at h
      all_goals cases h <;> exact .other rfl rfl rfl rfl (by simp) rfl

/-- An order taker that gives away a package takes the lock of the customers that wait for it. -/
theorem ordertaker_call_hands {o : Fin n.ots} {p next : OrdertakerPoint n}
    (h : simulateOrdertaker o d p = some (.call op next))
    (hhands : (Point.ordertaker next).hands ≠ none) : op = .acquire .toGo := by
  cases p with
  | handing i =>
      cases h
      rfl
  | _ =>
      simp only [simulateOrdertaker] at h
      repeat' split at h
      all_goals cases h <;> exact absurd rfl hhands

theorem manager_call_orders {p next : ManagerPoint n}
    (h : simulateManager d a p = some (.call op next)) :
    OrderCall d .manager (.manager p) op (.manager next) := by
  cases p with
  | coming times | withdrawing times | pausing times pFood =>
      cases times <;> cases h <;> exact .other rfl rfl rfl rfl (by simp) rfl
  | _ =>
      simp only [simulateManager] at h
      repeat' split at h
      all_goals cases h <;> exact .other rfl rfl rfl rfl (by simp) rfl

theorem cook_call_orders {k : Fin n.cooks} {p next : CookPoint}
    (h : simulateCook k d a p = some (.call op next)) :
    OrderCall d (.cook k) (.cook p) op (.cook next) := by
  cases p with
  | cooking times => cases times <;> cases h <;> exact .other rfl rfl rfl rfl (by simp) rfl
  | _ =>
      simp only [simulateCook] at h
      repeat' split at h
      all_goals cases h <;> exact .other rfl rfl rfl rfl (by simp) rfl

theorem waiter_call_orders {w : Fin n.waiters} {p next : WaiterPoint n}
    (h : simulateWaiter w d p = some (.call op next)) :
    OrderCall d (.waiter w) (.waiter p) op (.waiter next) := by
  cases p <;> simp only [simulateWaiter] at h
  all_goals repeat' split at h
  all_goals cases h <;> exact .other rfl rfl rfl rfl (by simp) rfl

theorem calls_orders (h : Calls d a u p op next) : OrderCall d u p op next := by
  cases h with
  | fork | opened => exact .other rfl rfl rfl rfl (by simp) rfl
  | ordertaker hact => exact ordertaker_call_orders hact
  | customer hact => exact customer_call_orders hact
  | cook hact => exact cook_call_orders hact
  | manager hact => exact manager_call_orders hact
  | waiter hact => exact waiter_call_orders hact

end Persons

/-! ## Registration -/

section Registration

variable {s s' : Scene n} {log : List (Event n)} {a : Rand} {op : Call n} {next : Point n}
  {d' : Data n} {events : List (Event n)} {o : Fin n.ots} {c : Fin n.custs}
  {k' : Kernel (Person n) Empty (LockName n) (ConditionName n)}
  {effects : List (Effect (Person n) Empty (LockName n) (ConditionName n))}

/-- Every customer has ordered at most once, at one order taker; an order taker that has been
woken finds an order that is not registered yet, and so does one that registers it. -/
structure Registered (log : List (Event n)) (s : Scene n) : Prop where
  fresh : ∀ c, (s.point (.customer c)).hasOrdered = false → ∀ myOT, .ordered c myOT ∉ log
  once : ∀ c myOT myOT', .ordered c myOT ∈ log → .ordered c myOT' ∈ log → myOT = myOT'
  service : ∀ o c, s.data.orders.otService o = some c → .ordered c (some o) ∈ log
  accepted : ∀ c, Restaurant.accepted log c = true → ∃ o, .ordered c (some o) ∈ log
  accepting : ∀ o c, (s.point (.ordertaker o)).accepts = some c →
    .ordered c (some o) ∈ log ∧ Restaurant.accepted log c = false
  telling : ∀ c o, (s.point (.customer c)).tells = some o →
    s.data.orders.otService o = some c ∧ Restaurant.accepted log c = false
  woken : ∀ o, s.point (.ordertaker o) = .ordertaker .woken →
    .ordertaker o ∉ (s.kernel.conditions (.orderTaker o)).waitQueue →
    ∃ c, s.data.orders.otService o = some c ∧ Restaurant.accepted log c = false

/-- Only a customer wakes an order taker, and only with its order. -/
theorem Registered.wakes (h : Registered log s) (hsound : Sound s)
    (hpoint : s.point (.ordertaker o) = .ordertaker .woken) (hs : Threads.Step s.kernel k' effects)
    (hcall : ∀ l, .called s.kernel.currentThread (.signal (.orderTaker o) l) ∈ effects →
      ∃ c, (s.point (.customer c)).tells = some o)
    (hout : .ordertaker o ∉ (k'.conditions (.orderTaker o)).waitQueue) :
    ∃ c, s.data.orders.otService o = some c ∧ Restaurant.accepted log c = false := by
  by_cases hmem : .ordertaker o ∈ (s.kernel.conditions (.orderTaker o)).waitQueue
  · rcases hs.mem_or_woken hmem with hstays | ⟨l, hcalled⟩ | ⟨l, hpc⟩
    · exact absurd hstays hout
    · obtain ⟨c, htells⟩ := hcall l hcalled
      exact ⟨c, h.telling c o htells⟩
    · obtain ⟨p, d, a, hact⟩ := hsound.asked s.kernel.currentThread (.broadcast (.orderTaker o) l)
        (by rw [hpc]; rfl)
      exact absurd rfl ((calls_orders (.of_act hact)).broadcast o l)
  · exact h.woken o hpoint hmem

/-- Points, variables and what has been done are what they were. -/
theorem Registered.kernel (h : Registered log s) (hsound : Sound s)
    (hs : Threads.Step s.kernel k' effects) (hcalled : ∀ t op, .called t op ∉ effects) :
    Registered log ⟨k', s.point, s.data⟩ where
  fresh := h.fresh
  once := h.once
  service := h.service
  accepted := h.accepted
  accepting := h.accepting
  telling := h.telling
  woken _ hpoint hout := h.wakes hsound hpoint hs (fun _ hmem => absurd hmem (hcalled _ _)) hout

theorem Registered.call (h : Registered log s) (hsound : Sound s)
    (hcall : OrderCall s.data s.kernel.currentThread (s.point s.kernel.currentThread) op next)
    (hs : Threads.step s.kernel (.call op) = some (k', effects)) :
    Registered log ⟨k', Function.update s.point s.kernel.currentThread next, s.data⟩ := by
  obtain ⟨hcan, -, -⟩ := Threads.Step.called_of_label hs
  refine ⟨?_, h.once, h.service, h.accepted, ?_, ?_, ?_⟩
  · intro c hc
    refine h.fresh c ?_
    rwa [← see_update Point.hasOrdered hcall.hasOrdered]
  · intro o c hc
    rcases Program.of_update (q := fun p : Point n => p.accepts = some c) hc with
      ⟨hu, hnext⟩ | ⟨-, hold⟩
    · obtain ⟨hwoken, hservice⟩ := hcall.accepts o c hu.symm hnext
      rw [← hu] at hwoken
      refine ⟨h.service o c hservice, ?_⟩
      obtain ⟨c', hservice', hfresh⟩ := h.woken o hwoken
        (hu ▸ hsound.not_waiting hcan.1 (.orderTaker o))
      obtain rfl := Option.some.inj (hservice.symm.trans hservice')
      exact hfresh
    · exact h.accepting o c hold
  · intro c o hc
    rcases Program.of_update (q := fun p : Point n => p.tells = some o) hc with
      ⟨-, hnext⟩ | ⟨-, hold⟩
    · rw [hcall.tells] at hnext
      cases hnext
    · exact h.telling c o hold
  · intro o hpoint hout
    rcases Program.of_update (q := fun p : Point n => p = .ordertaker .woken) hpoint with
      ⟨hu, hnext⟩ | ⟨hne, hold⟩
    · obtain rfl := hcall.woken o hu.symm hnext
      refine absurd ?_ hout
      rw [hu]
      exact Threads.Step.mem_of_wait hs (hsound.waitLock (.orderTaker o))
    · refine h.wakes hsound hold (.of_step hs) (fun l hmem => ?_) hout
      obtain rfl := Label.call.inj (Threads.Step.label_of_called hs hmem)
      rcases hcall.signal o l rfl with hself | ⟨c, hu, htells⟩
      · exact absurd hself.symm hne
      · exact ⟨c, by rwa [hu] at htells⟩

/-- A customer that is about to wake its order taker has the lock. -/
theorem Sound.owner_of_tells (h : Sound s) (htells : (s.point (.customer c)).tells = some o) :
    (s.kernel.locks (.orderTaker o)).lockerOwner = some (.customer c) := by
  have hheld : .orderTaker o ∈ Restaurant.held (.customer c) (s.point (.customer c)) := by
    generalize s.point (.customer c) = p at htells
    unfold Point.tells at htells
    split at htells
    · subst htells
      exact List.mem_singleton_self _
    · cases htells
  refine h.held.owner h.asked hheld fun hact => ?_
  rw [(calls_orders (.of_act hact)).tells] at htells
  cases htells

/-- Who gives or registers an order has the lock. -/
theorem Sound.not_tells (h : Sound s) (hpc : s.kernel.pc s.kernel.currentThread = .outside)
    (hheld : .orderTaker o ∈ Restaurant.held s.kernel.currentThread
      (s.point s.kernel.currentThread))
    (hne : .customer c ≠ s.kernel.currentThread) : (s.point (.customer c)).tells ≠ some o := by
  intro htells
  have howner := h.owner hpc hheld
  rw [h.owner_of_tells htells] at howner
  exact hne (Option.some.inj howner)

/-- Nobody gives or registers an order. -/
theorem Registered.same (h : Registered log s)
    (hservice : d'.orders.otService = s.data.orders.otService)
    (hordered : ∀ c myOT, .ordered c myOT ∉ events)
    (haccepted : ∀ c, Restaurant.accepted events c = false)
    (hasOrdered : next.hasOrdered = (s.point s.kernel.currentThread).hasOrdered)
    (htells : next.tells = none) (haccepts : next.accepts = none)
    (hwoken : next ≠ .ordertaker .woken) : Registered (log ++ events)
      ⟨s.kernel, Function.update s.point s.kernel.currentThread next, d'⟩ := by
  have hmem : ∀ c myOT, .ordered c myOT ∈ log ++ events ↔ .ordered c myOT ∈ log := by
    intro c myOT
    rw [List.mem_append, or_iff_left (hordered c myOT)]
  have hsame : ∀ c, Restaurant.accepted (log ++ events) c = Restaurant.accepted log c := by
    intro c
    rw [accepted_append, haccepted, Bool.or_false]
  refine ⟨?_, ?_, ?_, ?_, ?_, ?_, ?_⟩ <;> simp only [hmem, hsame, hservice]
  · intro c hc
    refine h.fresh c ?_
    rwa [← see_update Point.hasOrdered hasOrdered]
  · exact h.once
  · exact h.service
  · exact h.accepted
  · intro o c hc
    rcases Program.of_update (q := fun p : Point n => p.accepts = some c) hc with
      ⟨-, hnext⟩ | ⟨-, hold⟩
    · rw [haccepts] at hnext
      cases hnext
    · exact h.accepting o c hold
  · intro c o hc
    rcases Program.of_update (q := fun p : Point n => p.tells = some o) hc with
      ⟨-, hnext⟩ | ⟨-, hold⟩
    · rw [htells] at hnext
      cases hnext
    · exact h.telling c o hold
  · intro o hpoint hout
    rcases Program.of_update (q := fun p : Point n => p = .ordertaker .woken) hpoint with
      ⟨-, hnext⟩ | ⟨-, hold⟩
    · exact absurd hnext hwoken
    · exact h.woken o hold hout

/-- A customer that has not ordered has no order that is registered. -/
theorem Registered.not_accepted (h : Registered log s)
    (hpoint : (s.point (.customer c)).hasOrdered = false) : Restaurant.accepted log c = false := by
  refine Bool.eq_false_iff.mpr fun hacc => ?_
  obtain ⟨o, hordered⟩ := h.accepted c hacc
  exact h.fresh c hpoint _ hordered

/-- A customer gives its order. -/
theorem Registered.order (h : Registered log s) (hsound : Sound s)
    (hpc : s.kernel.pc s.kernel.currentThread = .outside)
    (hu : s.kernel.currentThread = .customer c) {myOT : Option (Fin n.ots)} {choice : Choice}
    (hpoint : s.point (.customer c) = .customer (.ordering myOT)) :
    Registered (log ++ [Event.ordered c myOT, .marked c .notReady])
      ⟨s.kernel, Function.update s.point (.customer c) (.customer (.ordered myOT choice)),
        giveOrder c myOT s.data a⟩ := by
  have hfresh : (s.point (.customer c)).hasOrdered = false := by rw [hpoint]; rfl
  have hlate := h.not_accepted hfresh
  have hmem : ∀ c' x, Event.ordered c' x ∈ log ++ [Event.ordered c myOT, .marked c .notReady] ↔
      .ordered c' x ∈ log ∨ c' = c ∧ x = myOT := by
    intro c' x
    simp
  have hsame : ∀ c', Restaurant.accepted (log ++ [Event.ordered c myOT, .marked c .notReady]) c' =
      Restaurant.accepted log c' := by
    intro c'
    rw [accepted_append]
    exact Bool.or_false _
  have hservice : ∀ o, (giveOrder c myOT s.data a).orders.otService o =
      if myOT = some o then some c else s.data.orders.otService o := by
    intro o
    cases myOT with
    | none => rfl
    | some o' =>
        refine (Function.update_apply ..).trans (if_congr ?_ rfl rfl)
        rw [Option.some_inj, eq_comm]
  refine ⟨?_, ?_, ?_, ?_, ?_, ?_, ?_⟩ <;> simp only [hmem, hsame, hservice]
  · intro c' hc x hx
    rcases Program.of_update (q := fun p : Point n => p.hasOrdered = false) hc with
      ⟨-, hnext⟩ | ⟨hne, hold⟩
    · cases hnext
    · rcases hx with hx | ⟨rfl, -⟩
      · exact h.fresh c' hold x hx
      · exact hne rfl
  · rintro c' x y (hx | ⟨rfl, rfl⟩) (hy | ⟨heq, rfl⟩)
    · exact h.once c' x y hx hy
    · exact absurd hx (heq ▸ h.fresh c hfresh x)
    · exact absurd hy (h.fresh c' hfresh y)
    · rfl
  · intro o c' hc
    split at hc
    · rename_i heq
      exact .inr ⟨(Option.some.inj hc).symm, heq.symm⟩
    · exact .inl (h.service o c' hc)
  · intro c' hacc
    obtain ⟨o, ho⟩ := h.accepted c' hacc
    exact ⟨o, .inl ho⟩
  · intro o c' hc
    rw [Function.update_of_ne (by nofun)] at hc
    obtain ⟨hordered, hacc⟩ := h.accepting o c' hc
    exact ⟨.inl hordered, hacc⟩
  · intro c' o hc
    rcases Program.of_update (q := fun p : Point n => p.tells = some o) hc with
      ⟨hc', hnext⟩ | ⟨hne, hold⟩
    · obtain rfl := Person.customer.inj hc'
      obtain rfl : myOT = some o := hnext
      exact ⟨if_pos rfl, hlate⟩
    · have hother : myOT ≠ some o := by
        rintro rfl
        refine hsound.not_tells hpc ?_ (hu ▸ hne) hold
        rw [hu, hpoint]
        exact List.mem_singleton_self _
      rw [if_neg hother]
      exact h.telling c' o hold
  · intro o hwoken hout
    rw [Function.update_of_ne (by nofun)] at hwoken
    split
    · exact ⟨c, rfl, hlate⟩
    · exact h.woken o hwoken hout

/-- An order taker registers an order. -/
theorem Registered.register (h : Registered log s) (hsound : Sound s)
    (hpc : s.kernel.pc s.kernel.currentThread = .outside)
    (hu : s.kernel.currentThread = .ordertaker o)
    (hpoint : s.point (.ordertaker o) = .ordertaker (.accepting c))
    (hservice : d'.orders.otService = s.data.orders.otService)
    (hordered : ∀ c myOT, .ordered c myOT ∉ events)
    (haccepted : ∀ c', Restaurant.accepted events c' = decide (c = c')) :
    Registered (log ++ events)
      ⟨s.kernel, Function.update s.point (.ordertaker o) (.ordertaker .accepted), d'⟩ := by
  obtain ⟨hmine, -⟩ := h.accepting o c (by rw [hpoint]; rfl)
  have hmem : ∀ c myOT, .ordered c myOT ∈ log ++ events ↔ .ordered c myOT ∈ log := by
    intro c myOT
    rw [List.mem_append, or_iff_left (hordered c myOT)]
  -- an order given to another order taker is another one
  have hother : ∀ {o' c'}, o' ≠ o → .ordered c' (some o') ∈ log →
      Restaurant.accepted log c' = false → Restaurant.accepted (log ++ events) c' = false := by
    intro o' c' hne hgiven hacc
    rw [accepted_append, hacc, haccepted, Bool.false_or]
    refine decide_eq_false ?_
    rintro rfl
    exact hne (Option.some.inj (h.once c _ _ hgiven hmine))
  refine ⟨?_, ?_, ?_, ?_, ?_, ?_, ?_⟩ <;> simp only [hmem, hservice]
  · intro c' hc
    rw [Function.update_of_ne (by nofun)] at hc
    exact h.fresh c' hc
  · exact h.once
  · exact h.service
  · intro c' hacc
    rw [accepted_append, haccepted, Bool.or_eq_true, decide_eq_true_iff] at hacc
    rcases hacc with hacc | rfl
    · exact h.accepted c' hacc
    · exact ⟨o, hmine⟩
  · intro o' c' hc
    rcases Program.of_update (q := fun p : Point n => p.accepts = some c') hc with
      ⟨-, hnext⟩ | ⟨hne, hold⟩
    · cases hnext
    · obtain ⟨hgiven, hacc⟩ := h.accepting o' c' hold
      exact ⟨hgiven, hother (fun heq => hne (congrArg _ heq)) hgiven hacc⟩
  · intro c' o' hc
    rw [Function.update_of_ne (by nofun)] at hc
    obtain ⟨hserves, hacc⟩ := h.telling c' o' hc
    refine ⟨hserves, hother ?_ (h.service o' c' hserves) hacc⟩
    rintro rfl
    refine hsound.not_tells hpc ?_ (by rw [hu]; nofun) hc
    rw [hu, hpoint]
    exact List.mem_cons_of_mem _ (List.mem_singleton_self _)
  · intro o' hwoken hout
    rcases Program.of_update (q := fun p : Point n => p = .ordertaker .woken) hwoken with
      ⟨-, hnext⟩ | ⟨hne, hold⟩
    · cases hnext
    · obtain ⟨c', hserves, hacc⟩ := h.woken o' hold hout
      refine ⟨c', hserves, hother (fun heq => hne (congrArg _ heq)) (h.service o' c' hserves) hacc⟩

theorem Registered.go (h : Registered log s) (hsound : Sound s)
    (hpc : s.kernel.pc s.kernel.currentThread = .outside)
    (hgo : OrderGo s.data d' s.kernel.currentThread (s.point s.kernel.currentThread) next events) :
    Registered (log ++ events)
      ⟨s.kernel, Function.update s.point s.kernel.currentThread next, d'⟩ := by
  generalize hu : s.kernel.currentThread = u at hgo
  generalize hp : s.point u = p at hgo
  cases hgo with
  | ordered hd =>
      subst hd
      exact h.order hsound hpc hu hp
  | served hd =>
      subst hd
      exact h.register hsound hpc hu hp rfl (by simp) fun c' => Bool.or_false _
  | registered hd =>
      subst hd
      exact h.register hsound hpc hu hp rfl (by simp) fun c' => Bool.or_false _
  | packed _ _ hd | readied _ _ hd | handed hd | carried _ hd =>
      subst hd
      rw [← hu]
      exact h.same rfl (by simp) (fun _ => rfl) (by rw [hu, hp]; rfl) rfl rfl nofun
  | other horders hnone hasOrdered htells haccepts _ hwoken =>
      subst hp hu
      exact h.same (congrArg _ horders) hnone.ordered hnone.accepted hasOrdered htells haccepts
        hwoken

/-- What one step preserves. -/
theorem registered_step {m : Turn n}
    {es : List (Threads.Event (Person n) Empty (LockName n) (ConditionName n) (Event n))}
    (h : Registered log s) (hsound : Sound s) (hs : Program.Steps (restaurant n) s m s' es) :
    Registered (log ++ Program.ownLog es) s' := by
  cases hs with
  | call hact hstep =>
      rw [Program.ownLog_map, List.append_nil]
      exact h.call hsound (calls_orders (.of_act hact)) hstep
  | go _ hpc hact =>
      rw [Program.ownLog_own]
      exact h.go hsound hpc (goes_orders (.of_act hact))
  | kernel hinside hstep =>
      rw [Program.ownLog_map, List.append_nil]
      refine h.kernel hsound (.of_step hstep) fun t op hcalled => ?_
      rw [Threads.Step.label_of_called hstep hcalled] at hinside
      cases hinside
  | @interrupt i | @device i => exact i.elim

theorem registered_of_run {ok : Trace n → Scene n → Turn n → Prop} {tr : Trace n} {cash : ℤ}
    {food inventory : ℕ}
    (hrun : Run (restaurant n).step ok (opened n cash food inventory) tr s) :
    Registered (Program.ownLog tr.flatten) s := by
  refine hrun.invariant_with (I := fun tr s => Registered (Program.ownLog tr.flatten) s)
    sound_of_run ?_ ?_
  · exact ⟨nofun, nofun, nofun, nofun, nofun, nofun, nofun⟩
  · intro tr s m s' es hsound h _ hs
    rw [List.flatten_append, List.flatten_singleton, Program.ownLog_append]
    exact registered_step h hsound (.of_step hs)

end Registration

end Nachos.Restaurant
