import Nachos.Restaurant.Globals
import Nachos.Restaurant.Sections

/-!
# Tables are exclusive

The manager assigns a table that is free to a customer that has none, and marks it as taken
a little later. A customer frees its table when it leaves. Both do so with `SeatLock`, so
when nobody has the lock, the marks tell which tables are occupied.
-/

namespace Nachos.Restaurant

open Nachos.Lib Nachos.Threads

variable {n : Size}

/-! ## Who sits where -/

/-- The table that a customer is assigned. -/
def Event.tableOf (c : Fin n.custs) : Event n → Option (Fin n.seats)
  | .assigned c' t => if c' = c then some t else none
  | _ => none

/-- The tables that a customer has been assigned. -/
def tablesOf (log : List (Event n)) (c : Fin n.custs) : List (Fin n.seats) :=
  log.filterMap (Event.tableOf c)

/-- The customer leaves the table. -/
def Event.isLeft (c : Fin n.custs) (t : Fin n.seats) : Event n → Bool
  | .left c' t' => c' = c ∧ t' = t
  | _ => false

/-- The customer has left the table. -/
def hasLeft (log : List (Event n)) (c : Fin n.custs) (t : Fin n.seats) : Bool :=
  log.any (Event.isLeft c t)

/-- The customer has been assigned the table and has not left it. -/
def Occupies (log : List (Event n)) (c : Fin n.custs) (t : Fin n.seats) : Prop :=
  t ∈ tablesOf log c ∧ hasLeft log c t = false

theorem tablesOf_append (log events : List (Event n)) (c : Fin n.custs) :
    tablesOf (log ++ events) c = tablesOf log c ++ tablesOf events c := List.filterMap_append

theorem hasLeft_append (log events : List (Event n)) (c : Fin n.custs) (t : Fin n.seats) :
    hasLeft (log ++ events) c t = (hasLeft log c t || hasLeft events c t) := List.any_append

/-- The customer that the manager is looking for a table for. -/
def Point.finds : Point n → Option (Fin n.custs)
  | .manager (.finding i) => some i
  | _ => none

/-- A table is assigned, and not yet marked. -/
def Point.places : Point n → Option (Fin n.custs × Fin n.seats)
  | .manager (.assigned i t) | .manager (.informed i t) => some (i, t)
  | _ => none

/-- A customer with a table. -/
def Point.eats : Point n → Bool
  | .customer .hungry | .customer .eatInHeld | .customer .fed | .customer (.eating _)
  | .customer .leaving => true
  | _ => false

def Point.isAway : Point n → Bool
  | .customer .left | .customer .gone => true
  | _ => false

/-- The seating plan is right. -/
structure Seats (log : List (Event n)) (point : Person n → Point n) (d : Data n) : Prop where
  assigned : ∀ c, tablesOf log c = (d.seating.custTableNum c).toList
  finds : ∀ c, (point .manager).finds = some c → d.seating.custTableNum c = none
  places : ∀ c t, (point .manager).places = some (c, t) → d.seating.custTableNum c = some t
  seat : ∀ c t, d.seating.customerSeat c = some t ↔
    d.seating.custTableNum c = some t ∧ (point .manager).places ≠ some (c, t)
  left : ∀ c t, hasLeft log c t = true →
    d.seating.customerSeat c = some t ∧ (point (.customer c)).isAway = true
  marks : ∀ t, d.seating.tables t = 0 ∨ d.seating.tables t = 1
  marked : ∀ t, d.seating.tables t = 1 ↔
    ∃ c, d.seating.customerSeat c = some t ∧ hasLeft log c t = false
  exclusive : ∀ c c' t, Occupies log c t → Occupies log c' t → c = c'
  eats : ∀ c, (point (.customer c)).eats = true → d.seating.custTableNum c ≠ none

/-! ## What persons do to it -/

section Persons

variable {d d' : Data n} {a : Rand} {op : Call n} {events : List (Event n)} {u : Person n}
  {p next : Point n}

/-- Nothing is done to tables. -/
structure Unseated (d d' : Data n) (events : List (Event n)) : Prop where
  custTableNum : d'.seating.custTableNum = d.seating.custTableNum
  customerSeat : d'.seating.customerSeat = d.seating.customerSeat
  tables : d'.seating.tables = d.seating.tables
  assigned : ∀ c, tablesOf events c = []
  left : ∀ c t, hasLeft events c t = false

/-- A customer wants a seat, a table is assigned, marked or left, or nothing is done to the
seats. -/
inductive SeatGo (d d' : Data n) : Person n → Point n → Point n → List (Event n) → Prop
  | announced {c : Fin n.custs} : d' = d.setCustomerStatus c .waitingForSeat →
      SeatGo d d' (.customer c) (.customer .wantsSeat) (.customer .announced) []
  | assigned {i : Fin n.custs} {t : Fin n.seats} : d.seating.tables t = 0 →
      d' = d.setCustTableNum i t →
      SeatGo d d' .manager (.manager (.finding i)) (.manager (.assigned i t)) [.assigned i t]
  | marked {i : Fin n.custs} {t : Fin n.seats} : d' = (d.setCustomerSeat i t).setTable t 1 →
      SeatGo d d' .manager (.manager (.informed i t)) (.manager (.seated i)) []
  | left {c : Fin n.custs} {t : Fin n.seats} : d.seating.customerSeat c = some t →
      d' = d.setTable t 0 →
      SeatGo d d' (.customer c) (.customer .leaving) (.customer .left) [.left c t]
  | other {u : Person n} {p next : Point n} {events : List (Event n)} :
      d'.seating = d.seating → Unseated d d' events → next.finds = none →
      next.places = p.places → next.eats = false → next.isAway = p.isAway →
      SeatGo d d' u p next events

theorem customer_go_seats {c : Fin n.custs} {p next : CustomerPoint n}
    (h : simulateCustomer c d a p = some (.go next d' events)) :
    SeatGo d d' (.customer c) (.customer p) (.customer next) events := by
  cases p with
  | eating times => cases times <;> cases h
  | ordering myOT =>
      cases h
      cases myOT <;>
        exact .other rfl ⟨rfl, rfl, rfl, fun _ => rfl, fun _ _ => rfl⟩ rfl rfl rfl rfl
  | wantsSeat =>
      cases h
      exact .announced rfl
  | leaving =>
      simp only [simulateCustomer] at h
      split at h
      · rename_i t hseat
        cases h
        exact .left hseat rfl
      · cases h
  | _ =>
      simp only [simulateCustomer] at h
      repeat' split at h
      all_goals cases h <;>
        exact .other rfl ⟨rfl, rfl, rfl, fun _ => rfl, fun _ _ => rfl⟩ rfl rfl rfl rfl

theorem ordertaker_go_seats {o : Fin n.ots} {p next : OrdertakerPoint n}
    (h : simulateOrdertaker o d p = some (.go next d' events)) :
    SeatGo d d' (.ordertaker o) (.ordertaker p) (.ordertaker next) events := by
  cases p <;> simp only [simulateOrdertaker] at h
  all_goals repeat' split at h
  all_goals cases h <;>
    exact .other rfl ⟨rfl, rfl, rfl, fun _ => rfl, fun _ _ => rfl⟩ rfl rfl rfl rfl

theorem cook_go_seats {k : Fin n.cooks} {p next : CookPoint}
    (h : simulateCook k d a p = some (.go next d' events)) :
    SeatGo d d' (.cook k) (.cook p) (.cook next) events := by
  cases p with
  | cooking times => cases times <;> cases h
  | _ =>
      simp only [simulateCook] at h
      repeat' split at h
      all_goals cases h <;>
        exact .other rfl ⟨rfl, rfl, rfl, fun _ => rfl, fun _ _ => rfl⟩ rfl rfl rfl rfl

theorem waiter_go_seats {w : Fin n.waiters} {p next : WaiterPoint n}
    (h : simulateWaiter w d p = some (.go next d' events)) :
    SeatGo d d' (.waiter w) (.waiter p) (.waiter next) events := by
  cases p <;> simp only [simulateWaiter] at h
  all_goals repeat' split at h
  all_goals cases h <;>
    exact .other rfl ⟨rfl, rfl, rfl, fun _ => rfl, fun _ _ => rfl⟩ rfl rfl rfl rfl

theorem manager_go_seats {p next : ManagerPoint n}
    (h : simulateManager d a p = some (.go next d' events)) :
    SeatGo d d' .manager (.manager p) (.manager next) events := by
  cases p with
  | coming times | withdrawing times =>
      cases times
      all_goals cases h
      exact .other rfl ⟨rfl, rfl, rfl, fun _ => rfl, fun _ _ => rfl⟩ rfl rfl rfl rfl
  | pausing times pFood => cases times <;> cases h
  | finding i =>
      simp only [simulateManager] at h
      split at h
      · rename_i t hfind
        cases h
        exact .assigned (by simpa using List.find?_some hfind) rfl
      · cases h
        exact .other rfl ⟨rfl, rfl, rfl, fun _ => rfl, fun _ _ => rfl⟩ rfl rfl rfl rfl
  | informed i t =>
      cases h
      exact .marked rfl
  | working =>
      simp only [simulateManager] at h
      split at h
      · cases h
        refine .other rfl ⟨rfl, rfl, rfl, fun _ => rfl, fun _ _ => rfl⟩ ?_ ?_ rfl rfl <;> split <;> rfl
      · cases h
        exact .other rfl ⟨rfl, rfl, rfl, fun _ => rfl, fun _ _ => rfl⟩ rfl rfl rfl rfl
  | _ =>
      simp only [simulateManager] at h
      repeat' split at h
      all_goals cases h <;>
        exact .other rfl ⟨rfl, rfl, rfl, fun _ => rfl, fun _ _ => rfl⟩ rfl rfl rfl rfl

theorem goes_seats (h : Goes d a u p next d' events) : SeatGo d d' u p next events := by
  cases h with
  | start =>
      cases u <;> exact .other rfl ⟨rfl, rfl, rfl, fun _ => rfl, fun _ _ => rfl⟩ rfl rfl rfl rfl
  | ordertaker hact => exact ordertaker_go_seats hact
  | customer hact => exact customer_go_seats hact
  | cook hact => exact cook_go_seats hact
  | manager hact => exact manager_go_seats hact
  | waiter hact => exact waiter_go_seats hact

/-- What a call says about tables. -/
structure SeatCall (d : Data n) (u : Person n) (p next : Point n) : Prop where
  finds : ∀ c, next.finds = some c → d.seating.custTableNum c = none
  places : next.places = p.places
  eats : ∀ c, u = .customer c → next.eats = true →
    p.eats = true ∨ d.seating.custTableNum c ≠ none
  isAway : p.isAway = true → next.isAway = true

/-- A call that leaves the person where it is, as far as tables go. -/
theorem SeatCall.other (hfinds : next.finds = none) (hplaces : next.places = p.places)
    (heats : (!next.eats || p.eats) = true) (haway : (!p.isAway || next.isAway) = true) :
    SeatCall d u p next where
  finds c hc := absurd (hfinds.symm.trans hc) (by simp)
  places := hplaces
  eats c _ hnext := .inl (by simpa [hnext] using heats)
  isAway hp := by simpa [hp] using haway

theorem customer_call_seats {c : Fin n.custs} {p next : CustomerPoint n}
    (h : simulateCustomer c d a p = some (.call op next)) :
    SeatCall d (.customer c) (.customer p) (.customer next) := by
  cases p with
  | eating times =>
      cases times <;> cases h <;> exact .other rfl rfl rfl rfl
  | answered myOT choice =>
      cases h
      repeat' split
      all_goals exact .other rfl rfl rfl rfl
  | seatWaited =>
      simp only [simulateCustomer] at h
      split at h
      · cases h
        exact .other rfl rfl rfl rfl
      · rename_i t htable
        cases h
        refine ⟨by simp [Point.finds], rfl, ?_, by simp [Point.isAway]⟩
        intro c' hc' _
        obtain rfl := Person.customer.inj hc'
        exact .inr (by simp [htable])
  | hungry | eatInHeld | fed =>
      simp only [simulateCustomer] at h
      repeat' split at h
      all_goals cases h <;> exact .other rfl rfl rfl rfl
  | _ =>
      simp only [simulateCustomer] at h
      repeat' split at h
      all_goals cases h <;> exact .other rfl rfl rfl rfl

theorem manager_call_seats {p next : ManagerPoint n}
    (h : simulateManager d a p = some (.call op next)) :
    SeatCall d .manager (.manager p) (.manager next) := by
  cases p with
  | coming times | withdrawing times =>
      cases times <;> cases h
      exact .other rfl rfl rfl rfl
  | pausing times pFood => cases times <;> cases h <;> exact .other rfl rfl rfl rfl
  | searching i =>
      simp only [simulateManager] at h
      split at h
      · split at h
        · rename_i hwaiting
          cases h
          refine ⟨?_, rfl, by simp, by simp [Point.isAway]⟩
          rintro c hc
          obtain rfl := Option.some.inj hc
          exact hwaiting.2
        · cases h
      · cases h
        exact .other rfl rfl rfl rfl
  | _ =>
      simp only [simulateManager] at h
      repeat' split at h
      all_goals cases h <;> exact .other rfl rfl rfl rfl

/-- In the middle of an assignment the manager only calls `Signal`. -/
theorem manager_call_places {p next : ManagerPoint n}
    (h : simulateManager d a p = some (.call op next))
    (hplaces : (Point.manager next).places ≠ none) :
    op ≠ .acquire .seat ∧ ∀ c, op ≠ .wait c (some .seat) := by
  cases p with
  | coming times | withdrawing times | pausing times pFood =>
      cases times <;> cases h <;> exact absurd rfl hplaces
  | assigned i t =>
      cases h
      exact ⟨nofun, nofun⟩
  | _ =>
      simp only [simulateManager] at h
      repeat' split at h
      all_goals cases h <;> exact absurd rfl hplaces

theorem calls_seats (h : Calls d a u p op next) : SeatCall d u p next := by
  cases h with
  | customer hact => exact customer_call_seats hact
  | manager hact => exact manager_call_seats hact
  | fork | opened | ordertaker _ | cook _ | waiter _ => exact .other rfl rfl rfl rfl

end Persons

/-! ## Steps -/

section Steps

variable {log events : List (Event n)} {point : Person n → Point n} {d d' : Data n} {a : Rand}
  {u : Person n} {next : Point n} {op : Call n}

/-- What is seen of a point, where one person has gone on. -/
theorem see_update {β : Type} (f : Point n → β) (h : f next = f (point u)) (v : Person n) :
    f (Function.update point u next v) = f (point v) := by
  by_cases hv : v = u
  · subst hv
    rw [Function.update_self, h]
  · rw [Function.update_of_ne hv]

theorem Seats.occupies_iff (h : Seats log point d) {c : Fin n.custs} {t : Fin n.seats} :
    Occupies log c t ↔ d.seating.custTableNum c = some t ∧ hasLeft log c t = false := by
  rw [Occupies, h.assigned, Option.mem_toList]

theorem Seats.call (h : Seats log point d) (hcall : SeatCall d u (point u) next) :
    Seats log (Function.update point u next) d where
  assigned := h.assigned
  finds c hc := by
    rcases Program.of_update (q := fun p : Point n => p.finds = some c) hc with ⟨-, hnext⟩ | ⟨-, hold⟩
    · exact hcall.finds c hnext
    · exact h.finds c hold
  places := by
    rw [see_update Point.places hcall.places]
    exact h.places
  seat := by
    rw [see_update Point.places hcall.places]
    exact h.seat
  left c t hleft := by
    obtain ⟨hseat, haway⟩ := h.left c t hleft
    refine ⟨hseat, ?_⟩
    by_cases hu : .customer c = u
    · subst hu
      rw [Function.update_self]
      exact hcall.isAway haway
    · rwa [Function.update_of_ne hu]
  marks := h.marks
  marked := h.marked
  exclusive := h.exclusive
  eats c hc := by
    rcases Program.of_update (q := fun p : Point n => p.eats = true) hc with ⟨hu, hnext⟩ | ⟨-, hold⟩
    · rcases hcall.eats c hu.symm hnext with hold | hnum
      · exact h.eats c (by rwa [hu])
      · exact hnum
    · exact h.eats c hold

theorem Seats.other (h : Seats log point d) (hkept : Unseated d d' events)
    (hfinds : next.finds = none) (hplaces : next.places = (point u).places)
    (heats : next.eats = false) (haway : next.isAway = (point u).isAway) :
    Seats (log ++ events) (Function.update point u next) d' := by
  obtain ⟨hnum, hseat, htables, hassigned, hleft⟩ := hkept
  have hlog : ∀ c, tablesOf (log ++ events) c = tablesOf log c := fun c => by
    rw [tablesOf_append, hassigned, List.append_nil]
  have hlog' : ∀ c t, hasLeft (log ++ events) c t = hasLeft log c t := fun c t => by
    rw [hasLeft_append, hleft, Bool.or_false]
  refine ⟨?_, ?_, ?_, ?_, ?_, ?_, ?_, ?_, ?_⟩
  · simpa only [hlog, hnum] using h.assigned
  · intro c hc
    rw [hnum]
    rcases Program.of_update (q := fun p : Point n => p.finds = some c) hc with ⟨-, hnext⟩ | ⟨-, hold⟩
    · rw [hfinds] at hnext
      cases hnext
    · exact h.finds c hold
  · simpa only [see_update Point.places hplaces, hnum] using h.places
  · simpa only [see_update Point.places hplaces, hnum, hseat] using h.seat
  · simpa only [see_update Point.isAway haway, hlog', hseat] using h.left
  · simpa only [htables] using h.marks
  · simpa only [htables, hseat, hlog'] using h.marked
  · simpa only [Occupies, hlog, hlog'] using h.exclusive
  · intro c hc
    rw [hnum]
    rcases Program.of_update (q := fun p : Point n => p.eats = true) hc with ⟨-, hnext⟩ | ⟨-, hold⟩
    · rw [heats] at hnext
      cases hnext
    · exact h.eats c hold

/-- Nobody sits at a table that is free. -/
theorem Seats.not_occupies (h : Seats log point d) {t : Fin n.seats}
    (hfree : d.seating.tables t = 0) (hplaces : (point .manager).places = none)
    (c : Fin n.custs) : ¬ Occupies log c t := by
  intro hoccupies
  obtain ⟨hnum, hstays⟩ := h.occupies_iff.mp hoccupies
  have hmark := (h.marked t).mpr ⟨c, (h.seat c t).mpr ⟨hnum, by rw [hplaces]; nofun⟩, hstays⟩
  rw [hfree] at hmark
  cases hmark

/-- The manager assigns a table. -/
theorem Seats.assign (h : Seats log point d) {i : Fin n.custs} {t : Fin n.seats}
    (hpoint : point .manager = .manager (.finding i)) (hfree : d.seating.tables t = 0) :
    Seats (log ++ [Event.assigned i t])
      (Function.update point .manager (.manager (.assigned i t))) (d.setCustTableNum i t) := by
  have hplaces : (point .manager).places = none := by rw [hpoint]; rfl
  have hnone : d.seating.custTableNum i = none := h.finds i (by rw [hpoint]; rfl)
  have hcustomer : ∀ c, Function.update point .manager (.manager (.assigned i t)) (.customer c) =
      point (.customer c) := fun c => Function.update_of_ne (by nofun) ..
  have hnum : ∀ c, (d.setCustTableNum i t).seating.custTableNum c =
      if c = i then some t else d.seating.custTableNum c := fun c => Function.update_apply ..
  have hleft : ∀ c t', hasLeft (log ++ [Event.assigned i t]) c t' = hasLeft log c t' := fun c t' => by
    rw [hasLeft_append]
    exact Bool.or_false _
  have hstays : ∀ t', hasLeft log i t' = false := by
    intro t'
    by_contra hgone
    obtain ⟨hseat, -⟩ := h.left i t' (Bool.eq_true_of_not_eq_false hgone)
    rw [((h.seat i t').mp hseat).1] at hnone
    cases hnone
  have hassigned : ∀ c, tablesOf (log ++ [Event.assigned i t]) c =
      ((d.setCustTableNum i t).seating.custTableNum c).toList := by
    intro c
    rw [tablesOf_append, h.assigned, hnum]
    by_cases hc : c = i
    · subst hc
      simp [tablesOf, Event.tableOf, hnone]
    · simp [tablesOf, Event.tableOf, hc, Ne.symm hc]
  have hoccupies : ∀ {c t'}, Occupies (log ++ [Event.assigned i t]) c t' →
      c = i ∧ t' = t ∨ Occupies log c t' := by
    rintro c t' ⟨hmem, hstays'⟩
    rw [hassigned, hnum, Option.mem_toList] at hmem
    rw [hleft] at hstays'
    split at hmem
    · rename_i hc
      exact .inl ⟨hc, (Option.some.inj hmem).symm⟩
    · exact .inr (h.occupies_iff.mpr ⟨hmem, hstays'⟩)
  refine ⟨hassigned, ?_, ?_, ?_, ?_, h.marks, ?_, ?_, ?_⟩
  · intro c hc
    rw [Function.update_self] at hc
    cases hc
  · intro c t' hc
    rw [Function.update_self] at hc
    obtain ⟨rfl, rfl⟩ := Prod.mk.inj (Option.some.inj hc)
    rw [hnum, if_pos rfl]
  · intro c t'
    rw [Function.update_self, hnum]
    refine (h.seat c t').trans ?_
    rw [hplaces]
    by_cases hc : c = i
    · subst hc
      rw [hnone, if_pos rfl]
      refine iff_of_false (fun hboth => nomatch hboth.1) ?_
      rintro ⟨hsome, hne⟩
      obtain rfl := Option.some.inj hsome
      exact hne rfl
    · rw [if_neg hc]
      refine and_congr_right fun _ => iff_of_true nofun fun heq => ?_
      exact hc (Prod.mk.inj (Option.some.inj heq)).1.symm
  · intro c t' hgone
    rw [hleft] at hgone
    rw [hcustomer]
    exact h.left c t' hgone
  · intro t'
    simp only [hleft]
    exact h.marked t'
  · intro c c' t' hc hc'
    rcases hoccupies hc with ⟨rfl, rfl⟩ | hold
    · rcases hoccupies hc' with ⟨rfl, -⟩ | hold'
      · rfl
      · exact absurd hold' (h.not_occupies hfree hplaces c')
    · rcases hoccupies hc' with ⟨rfl, rfl⟩ | hold'
      · exact absurd hold (h.not_occupies hfree hplaces c)
      · exact h.exclusive c c' t' hold hold'
  · intro c hc
    rw [hcustomer] at hc
    rw [hnum]
    split
    · nofun
    · exact h.eats c hc

/-- The manager marks the table that it has assigned. -/
theorem Seats.mark (h : Seats log point d) {i : Fin n.custs} {t : Fin n.seats}
    (hpoint : point .manager = .manager (.informed i t)) :
    Seats log (Function.update point .manager (.manager (.seated i)))
      ((d.setCustomerSeat i t).setTable t 1) := by
  have hplaces : (point .manager).places = some (i, t) := by rw [hpoint]; rfl
  have hnum := h.places i t hplaces
  have hcustomer : ∀ c, Function.update point .manager (.manager (.seated i)) (.customer c) =
      point (.customer c) := fun c => Function.update_of_ne (by nofun) ..
  have hseat : ∀ c t', ((d.setCustomerSeat i t).setTable t 1).seating.customerSeat c = some t' ↔
      d.seating.custTableNum c = some t' := by
    intro c t'
    have heq : ((d.setCustomerSeat i t).setTable t 1).seating.customerSeat c =
      if c = i then some t else d.seating.customerSeat c := Function.update_apply ..
    rw [heq]
    by_cases hc : c = i
    · subst hc
      rw [if_pos rfl, hnum]
    · rw [if_neg hc, h.seat, hplaces]
      refine and_iff_left fun heq => hc ?_
      exact (Prod.mk.inj (Option.some.inj heq)).1.symm
  have htables : ∀ t', ((d.setCustomerSeat i t).setTable t 1).seating.tables t' =
      if t' = t then 1 else d.seating.tables t' := fun t' => Function.update_apply ..
  have hstays : hasLeft log i t = false := by
    by_contra hgone
    obtain ⟨hseat, -⟩ := h.left i t (Bool.eq_true_of_not_eq_false hgone)
    exact ((h.seat i t).mp hseat).2 hplaces
  refine ⟨h.assigned, ?_, ?_, ?_, ?_, ?_, ?_, h.exclusive, ?_⟩
  · intro c hc
    rw [Function.update_self] at hc
    cases hc
  · intro c t' hc
    rw [Function.update_self] at hc
    cases hc
  · intro c t'
    rw [hseat, Function.update_self]
    exact (and_iff_left (by nofun)).symm
  · intro c t' hgone
    obtain ⟨hseat', haway⟩ := h.left c t' hgone
    rw [hcustomer]
    exact ⟨(hseat c t').mpr ((h.seat c t').mp hseat').1, haway⟩
  · intro t'
    rw [htables]
    split
    · exact .inr rfl
    · exact h.marks t'
  · intro t'
    simp only [htables, hseat]
    by_cases ht : t' = t
    · subst ht
      rw [if_pos rfl]
      exact iff_of_true rfl ⟨i, hnum, hstays⟩
    · rw [if_neg ht, h.marked]
      refine exists_congr fun c => and_congr_left fun _ => ?_
      rw [h.seat, hplaces]
      refine and_iff_left fun heq => ht ?_
      exact (Prod.mk.inj (Option.some.inj heq)).2.symm
  · intro c hc
    rw [hcustomer] at hc
    exact h.eats c hc

/-- A customer leaves its table. -/
theorem Seats.leave (h : Seats log point d) {c : Fin n.custs} {t : Fin n.seats}
    (hpoint : point (.customer c) = .customer .leaving)
    (hseat : d.seating.customerSeat c = some t) :
    Seats (log ++ [Event.left c t]) (Function.update point (.customer c) (.customer .left))
      (d.setTable t 0) := by
  have hmanager : Function.update point (.customer c) (.customer .left) .manager =
      point .manager := Function.update_of_ne (by nofun) ..
  have htables : ∀ t', (d.setTable t 0).seating.tables t' =
      if t' = t then 0 else d.seating.tables t' := fun t' => Function.update_apply ..
  have hassigned : ∀ c', tablesOf (log ++ [Event.left c t]) c' = tablesOf log c' := fun c' => by
    rw [tablesOf_append]
    exact List.append_nil _
  have hleft : ∀ c' t', hasLeft (log ++ [Event.left c t]) c' t' = true ↔
      hasLeft log c' t' = true ∨ c' = c ∧ t' = t := by
    intro c' t'
    rw [hasLeft_append, Bool.or_eq_true]
    refine or_congr_right ?_
    simp only [hasLeft, Event.isLeft, List.any_cons, List.any_nil, Bool.or_false, decide_eq_true_eq]
    exact and_congr eq_comm eq_comm
  have hstays : ∀ c' t', hasLeft (log ++ [Event.left c t]) c' t' = false ↔
      hasLeft log c' t' = false ∧ ¬ (c' = c ∧ t' = t) := by
    intro c' t'
    rw [← Bool.not_eq_true, hleft, not_or, Bool.not_eq_true]
  have hnum := ((h.seat c t).mp hseat).1
  have hstay : hasLeft log c t = false := by
    by_contra hgone
    obtain ⟨-, haway⟩ := h.left c t (Bool.eq_true_of_not_eq_false hgone)
    rw [hpoint] at haway
    cases haway
  refine ⟨?_, ?_, ?_, ?_, ?_, ?_, ?_, ?_, ?_⟩
  · intro c'
    rw [hassigned]
    exact h.assigned c'
  · rw [hmanager]
    exact h.finds
  · rw [hmanager]
    exact h.places
  · rw [hmanager]
    exact h.seat
  · intro c' t' hgone
    rcases (hleft c' t').mp hgone with hold | ⟨rfl, rfl⟩
    · obtain ⟨hseat', haway⟩ := h.left c' t' hold
      refine ⟨hseat', ?_⟩
      by_cases hc : Person.customer c' = .customer c
      · rw [hc, Function.update_self]
        rfl
      · rwa [Function.update_of_ne hc]
    · rw [Function.update_self]
      exact ⟨hseat, rfl⟩
  · intro t'
    rw [htables]
    split
    · exact .inl rfl
    · exact h.marks t'
  · intro t'
    simp only [htables, hstays]
    by_cases ht : t' = t
    · subst ht
      rw [if_pos rfl]
      refine iff_of_false (by nofun) ?_
      rintro ⟨c', hseat', hstays', hne⟩
      refine hne ⟨h.exclusive c' c t' ?_ ?_, rfl⟩
      · exact h.occupies_iff.mpr ⟨((h.seat c' t').mp hseat').1, hstays'⟩
      · exact h.occupies_iff.mpr ⟨hnum, hstay⟩
    · rw [if_neg ht, h.marked]
      refine exists_congr fun c' => and_congr_right fun _ => (and_iff_left ?_).symm
      exact fun hboth => ht hboth.2
  · intro c₁ c₂ t' h₁ h₂
    refine h.exclusive c₁ c₂ t' ⟨?_, ((hstays c₁ t').mp h₁.2).1⟩ ⟨?_, ((hstays c₂ t').mp h₂.2).1⟩
    · exact hassigned c₁ ▸ h₁.1
    · exact hassigned c₂ ▸ h₂.1
  · intro c' hc'
    rcases Program.of_update (q := fun p : Point n => p.eats = true) hc' with ⟨-, hnext⟩ | ⟨-, hold⟩
    · cases hnext
    · exact h.eats c' hold

theorem Seats.goes (h : Seats log point d) (hgoes : Goes d a u (point u) next d' events) :
    Seats (log ++ events) (Function.update point u next) d' := by
  have hgo := goes_seats hgoes
  generalize hp : point u = p at hgo
  cases hgo with
  | assigned hfree hd =>
      subst hd
      exact h.assign hp hfree
  | marked hd =>
      subst hd
      rw [List.append_nil]
      exact h.mark hp
  | left hseat hd =>
      subst hd
      exact h.leave hp hseat
  | announced hd =>
      subst hd
      refine h.other ⟨rfl, rfl, rfl, fun _ => rfl, fun _ _ => rfl⟩ rfl ?_ rfl ?_ <;> rw [hp] <;> rfl
  | other _ hkept hfinds hplaces heats haway =>
      subst hp
      exact h.other hkept hfinds hplaces heats haway

/-! ### Every run -/

variable {s s' : System (Person n) Empty (LockName n) (ConditionName n) (Point n) (Data n)}
  {m : Move (Person n) Empty (LockName n) (ConditionName n) Rand Empty}
  {es : List (Threads.Event (Person n) Empty (LockName n) (ConditionName n) (Event n))}
  {ok : List (List (Threads.Event (Person n) Empty (LockName n) (ConditionName n) (Event n))) →
    System (Person n) Empty (LockName n) (ConditionName n) (Point n) (Data n) →
    Move (Person n) Empty (LockName n) (ConditionName n) Rand Empty → Prop}
  {tr : List (List (Threads.Event (Person n) Empty (LockName n) (ConditionName n) (Event n)))}
  {cash : ℤ} {food inventory : ℕ}

/-- What one step preserves. -/
theorem seats_step (h : Seats log s.point s.data)
    (hs : Program.Steps (restaurant n) s m s' es) :
    Seats (log ++ Program.ownLog es) s'.point s'.data := by
  cases hs with
  | call hact _ =>
      rw [Program.ownLog_map, List.append_nil]
      exact h.call (calls_seats (.of_act hact))
  | go _ _ hact =>
      rw [Program.ownLog_own]
      exact h.goes (.of_act hact)
  | kernel _ _ =>
      rw [Program.ownLog_map, List.append_nil]
      exact h
  | @interrupt i | @device i => exact i.elim

theorem seats_of_run (hrun : Run (restaurant n).step ok
    ((restaurant n).boot .main nofun (initRestaurant n cash food inventory)) tr s) :
    Seats (Program.ownLog tr.flatten) s.point s.data := by
  refine hrun.invariant (I := fun tr s => Seats (Program.ownLog tr.flatten) s.point s.data) ?_ ?_
  · refine ⟨fun _ => rfl, nofun, nofun, ?_, nofun, fun _ => .inl rfl, ?_, ?_, nofun⟩
    · exact fun c t => iff_of_false nofun fun hboth => nomatch hboth.1
    · exact fun t => iff_of_false nofun fun ⟨c, hseat, _⟩ => nomatch hseat
    · exact fun c c' t hc => nomatch hc.1
  · intro tr s m s' es h _ hs
    rw [List.flatten_append, List.flatten_singleton, Program.ownLog_append]
    exact seats_step h (.of_step hs)

/-- Who assigns a table owns `SeatLock`. -/
theorem owner_of_places (hrun : Run (restaurant n).step ok
    ((restaurant n).boot .main nofun (initRestaurant n cash food inventory)) tr s)
    {c : Fin n.custs} {t : Fin n.seats} (hplaces : (s.point .manager).places = some (c, t)) :
    (s.kernel.locks .seat).lockerOwner = some .manager := by
  have hpoint : s.point .manager = .manager (.assigned c t) ∨
      s.point .manager = .manager (.informed c t) := by
    generalize s.point .manager = p at hplaces
    unfold Point.places at hplaces
    split at hplaces
    all_goals cases hplaces
    · exact .inl rfl
    · exact .inr rfl
  refine ((restaurant_holding n).of_run hrun).owner (Program.asked_of_run hrun) ?_ ?_
  · rcases hpoint with hpoint | hpoint <;> rw [hpoint] <;> simp [held, ManagerPoint.held]
  · intro p d a op hact
    have hcalls := Calls.of_act hact
    generalize s.point .manager = next at hcalls hplaces
    cases hcalls with
    | manager hact => exact manager_call_places hact (by simp [hplaces])

/-- **Tables are exclusive.** When nobody has `SeatLock`, a table is marked if and only if there
is exactly one customer that has been assigned it and has not left it. No customer is assigned
a table twice, and no two customers sit at one table. -/
theorem tables_exclusive (hrun : Run (restaurant n).step anyStep
    ((restaurant n).boot .main nofun (initRestaurant n cash food inventory)) tr s) :
    ((s.kernel.locks .seat).lockerOwner = none → ∀ t, s.data.seating.tables t = 1 ↔
      ∃! c, Occupies (Program.ownLog tr.flatten) c t) ∧
    (∀ c, (tablesOf (Program.ownLog tr.flatten) c).length ≤ 1) ∧
    ∀ c c' t, Occupies (Program.ownLog tr.flatten) c t →
      Occupies (Program.ownLog tr.flatten) c' t → c = c' := by
  have hseats := seats_of_run hrun
  refine ⟨fun hfree t => ?_, fun c => ?_, hseats.exclusive⟩
  · have hplaces : ∀ c, (s.point .manager).places ≠ some (c, t) := by
      intro c hplaces
      rw [owner_of_places hrun hplaces] at hfree
      cases hfree
    rw [hseats.marked]
    constructor
    · rintro ⟨c, hseat, hstays⟩
      have hoccupies := hseats.occupies_iff.mpr ⟨((hseats.seat c t).mp hseat).1, hstays⟩
      exact ⟨c, hoccupies, fun c' hc' => hseats.exclusive c' c t hc' hoccupies⟩
    · rintro ⟨c, hoccupies, -⟩
      obtain ⟨hnum, hstays⟩ := hseats.occupies_iff.mp hoccupies
      exact ⟨c, (hseats.seat c t).mpr ⟨hnum, hplaces c⟩, hstays⟩
  · rw [hseats.assigned]
    cases s.data.seating.custTableNum c <;> simp

/-- A restaurant with one seat, one customer and one order taker. -/
abbrev oneSeat : Size := ⟨1, 1, 1, 0, 0, rfl⟩

/-- Nobody has `SeatLock`, and the table is marked for the one that sits there. -/
theorem tables_exclusive_sample : ∃ tr s,
    Run (restaurant oneSeat).step anyStep
      ((restaurant oneSeat).boot .main nofun (initRestaurant oneSeat 0 0 3)) tr s ∧
      (s.kernel.locks .seat).lockerOwner = none ∧ s.data.seating.tables 0 = 1 ∧
      ∃! c, Occupies (Program.ownLog tr.flatten) c (0 : Fin oneSeat.seats) := by
  have hexec : (execBy (restaurant oneSeat).step anyStep []
      ((restaurant oneSeat).boot .main nofun (initRestaurant oneSeat 0 0 3))
      -- The customer only orders a seat.
      (List.replicate 90 (Program.onward ⟨4, fun i => if i = 5 then 1 else 0⟩))).map
      (fun r => ((r.2.kernel.locks .seat).lockerOwner, r.2.data.seating.tables 0)) =
        some (none, 1) := by decide +kernel
  obtain ⟨⟨tr, s⟩, hexec, hstate⟩ := Option.map_eq_some_iff.mp hexec
  obtain ⟨hfree, hmarked⟩ := Prod.mk.inj hstate
  have hrun := Run.of_execBy .start hexec
  exact ⟨tr, s, hrun, hfree, hmarked, ((tables_exclusive hrun).1 hfree 0).mp hmarked⟩

end Steps

/-- With 21 seats the last table is marked in the beginning, since it is `Inventory[0]`. Nobody
has been assigned a table, and nobody has called anything. -/
theorem table_marked_for_nobody :
    20 < (Memory.init 21 1 1 0 0 0 0 1).load .numOfSeats 0 ∧
      (Memory.init 21 1 1 0 0 0 0 1).load .tables 20 = 1 ∧
      ∀ i < maxCusts, (Memory.init 21 1 1 0 0 0 0 1).load .custTableNum i = -1 ∧
        (Memory.init 21 1 1 0 0 0 0 1).load .customerSeat i = -1 := by
  decide +kernel

end Nachos.Restaurant
