import Nachos.Restaurant.Code
import Mathlib.Algebra.BigOperators.Group.Finset.Piecewise
import Mathlib.Data.Fintype.Card

/-!
# The customer line

What the line is for, without threads. A customer finds an order taker that is free, or joins
the line; an order taker calls one of the line, and the one that is called finds it. An order
taker that is free or has called somebody waits until a customer has come to it, and answers.

`CustLineLength`, the line itself and `OTStatus` agree as long as an order taker that says
that it is free waits for a customer.
-/

namespace Nachos.Restaurant

variable (n : Size)

/-- Where a customer is. -/
inductive CustPlace where
  | elsewhere
  | joins
  | asleep
  /-- It has been called and has not looked for its order taker yet. -/
  | woken
  | goes (myOT : Option (Fin n.ots))
  /-- It has given its order. -/
  | asks (myOT : Option (Fin n.ots))
deriving DecidableEq

/-- Where an order taker is. -/
inductive OTPlace where
  | elsewhere
  /-- It has woken a customer, and `OTStatus` does not say so yet. -/
  | calls
  /-- On its way to where it waits for a customer, with `CustLineLock`. -/
  | comes
  | waits
  | serves
deriving DecidableEq

/-- The line, and who is where. -/
@[ext]
structure Front where
  cust : Fin n.custs → CustPlace n
  ot : Fin n.ots → OTPlace
  line : Line n

variable {n}

/-- The order taker that a customer has. -/
def CustPlace.myOT : CustPlace n → Option (Fin n.ots)
  | .goes myOT | .asks myOT => myOT
  | .elsewhere | .joins | .asleep | .woken => none

namespace Front

variable (v : Front n)

def moveCust (c : Fin n.custs) (place : CustPlace n) : Front n :=
  { v with cust := Function.update v.cust c place }

def moveOT (o : Fin n.ots) (place : OTPlace) : Front n :=
  { v with ot := Function.update v.ot o place }

def setStatus (o : Fin n.ots) (status : OTStatus) : Front n :=
  { v with line.otStatus := Function.update v.line.otStatus o status }

def addLength (count : ℤ) : Front n :=
  { v with line.custLineLength := v.line.custLineLength + count }

theorem addLength_zero : v.addLength 0 = v := by rw [addLength, add_zero]

/-- An order taker has answered: nobody asks it any more. -/
def answer (o : Fin n.ots) : Front n :=
  { v with
    cust := fun c => if v.cust c = .asks (some o) then .elsewhere else v.cust c
    ot := Function.update v.ot o .elsewhere }

/-- What can happen. -/
inductive Moves : Front n → Front n → Prop where
  | stays {v : Front n} : Moves v v
  | joins {v : Front n} {c : Fin n.custs} : v.cust c = .elsewhere →
      Moves v ((v.moveCust c .joins).addLength 1)
  | sleeps {v : Front n} {c : Fin n.custs} : v.cust c = .joins → Moves v (v.moveCust c .asleep)
  | found {v : Front n} {c : Fin n.custs} {o : Fin n.ots} : v.cust c = .elsewhere →
      v.line.otStatus o = .available → v.ot o = .waits →
      Moves v ((v.moveCust c (.goes (some o))).setStatus o .busy)
  | chose {v : Front n} {c : Fin n.custs} {o : Fin n.ots} : v.cust c = .woken →
      v.line.otStatus o = .calling → v.ot o ≠ .comes →
      Moves v ((v.moveCust c (.goes (some o))).setStatus o .busy)
  | asks {v : Front n} {c : Fin n.custs} {o : Fin n.ots} : v.cust c = .goes (some o) →
      Moves v ((v.moveCust c (.asks (some o))).moveOT o .serves)
  | answers {v : Front n} {o : Fin n.ots} : v.ot o = .serves → Moves v (v.answer o)
  | calls {v : Front n} {c : Fin n.custs} {o : Fin n.ots} : v.cust c = .asleep →
      v.ot o = .elsewhere → Moves v ((v.moveCust c .woken).moveOT o .calls)
  | called {v : Front n} {o : Fin n.ots} : v.ot o = .calls →
      Moves v (((v.moveOT o .comes).setStatus o .calling).addLength (-1))
  | marks {v : Front n} {o : Fin n.ots} {place : OTPlace} {status : OTStatus} :
      v.ot o = .elsewhere → place = .elsewhere ∨ place = .comes → status ≠ .calling →
      Moves v ((v.moveOT o place).setStatus o status)
  | stands {v : Front n} {o : Fin n.ots} : v.ot o = .comes → Moves v (v.moveOT o .waits)

/-- Those that have been called. -/
def woken : Finset (Fin n.custs) := Finset.univ.filter fun c => v.cust c = .woken

/-- Those that have called somebody who has not come yet. -/
def calling : Finset (Fin n.ots) :=
  Finset.univ.filter fun o => v.line.otStatus o = .calling ∨ v.ot o = .calls

def inLine : Finset (Fin n.custs) :=
  Finset.univ.filter fun c => v.cust c = .asleep ∨ v.cust c = .joins

/-- Those that have called one that `CustLineLength` still counts. -/
def uncounted : Finset (Fin n.ots) := Finset.univ.filter fun o => v.ot o = .calls

/-- Customers, order takers and `OTStatus` agree. -/
structure Agrees : Prop where
  goes : ∀ c o, v.cust c = .goes (some o) → v.line.otStatus o = .busy ∧ v.ot o = .waits
  asks : ∀ c o, v.cust c = .asks (some o) → v.line.otStatus o = .busy ∧ v.ot o = .serves
  unique : ∀ c c' o, (v.cust c).myOT = some o → (v.cust c').myOT = some o → c = c'
  somebody : ∀ c, v.cust c ≠ .goes none ∧ v.cust c ≠ .asks none
  calling : ∀ o, v.line.otStatus o = .calling → v.ot o = .comes ∨ v.ot o = .waits
  serves : ∀ o, v.ot o = .serves → v.line.otStatus o = .busy

/-- **The line is in order.** -/
structure Orderly : Prop extends v.Agrees where
  called : v.woken.card = v.calling.card
  length : v.line.custLineLength = v.inLine.card + v.uncounted.card

/-! ## Counting -/

/-- How many there are changes by one that changes. -/
theorem card_change {α : Type*} [Fintype α] [DecidableEq α] {p q : α → Prop} [DecidablePred p]
    [DecidablePred q] (i : α) (h : ∀ j, j ≠ i → (q j ↔ p j)) :
    (Finset.univ.filter q).card + (if p i then 1 else 0) =
      (Finset.univ.filter p).card + if q i then 1 else 0 := by
  have hrest : ∑ j ∈ Finset.univ.erase i, (if q j then 1 else 0) =
      ∑ j ∈ Finset.univ.erase i, if p j then 1 else 0 := by
    refine Finset.sum_congr rfl fun j hj => if_congr (h j (Finset.ne_of_mem_erase hj)) rfl rfl
  rw [Finset.card_filter, Finset.card_filter, ← Finset.sum_erase_add _ _ (Finset.mem_univ i),
    ← Finset.sum_erase_add _ (fun j => if p j then 1 else 0) (Finset.mem_univ i), hrest]
  exact add_right_comm ..

section Counting

variable (c : Fin n.custs) (o : Fin n.ots)

theorem woken_moveCust (place : CustPlace n) :
    (v.moveCust c place).woken.card + (if v.cust c = .woken then 1 else 0) =
      v.woken.card + if place = .woken then 1 else 0 := by
  have h := card_change (p := fun c => v.cust c = .woken)
    (q := fun c' => (v.moveCust c place).cust c' = .woken) c
    fun c' hc => by simp only [moveCust, Function.update_of_ne hc]
  rwa [show (v.moveCust c place).cust c = place from Function.update_self ..] at h

theorem inLine_moveCust (place : CustPlace n) :
    (v.moveCust c place).inLine.card + (if v.cust c = .asleep ∨ v.cust c = .joins then 1 else 0) =
      v.inLine.card + if place = .asleep ∨ place = .joins then 1 else 0 := by
  have h := card_change (p := fun c => v.cust c = .asleep ∨ v.cust c = .joins)
    (q := fun c' => (v.moveCust c place).cust c' = .asleep ∨
      (v.moveCust c place).cust c' = .joins) c
    fun c' hc => by simp only [moveCust, Function.update_of_ne hc]
  rwa [show (v.moveCust c place).cust c = place from Function.update_self ..] at h

theorem calling_moveOT (place : OTPlace) :
    (v.moveOT o place).calling.card +
        (if v.line.otStatus o = .calling ∨ v.ot o = .calls then 1 else 0) =
      v.calling.card + if v.line.otStatus o = .calling ∨ place = .calls then 1 else 0 := by
  have h := card_change (p := fun o => v.line.otStatus o = .calling ∨ v.ot o = .calls)
    (q := fun o' => v.line.otStatus o' = .calling ∨ (v.moveOT o place).ot o' = .calls) o
    fun o' ho => by simp only [moveOT, Function.update_of_ne ho]
  rwa [show (v.moveOT o place).ot o = place from Function.update_self ..] at h

theorem uncounted_moveOT (place : OTPlace) :
    (v.moveOT o place).uncounted.card + (if v.ot o = .calls then 1 else 0) =
      v.uncounted.card + if place = .calls then 1 else 0 := by
  have h := card_change (p := fun o => v.ot o = .calls)
    (q := fun o' => (v.moveOT o place).ot o' = .calls) o
    fun o' ho => by simp only [moveOT, Function.update_of_ne ho]
  rwa [show (v.moveOT o place).ot o = place from Function.update_self ..] at h

theorem calling_setStatus (status : OTStatus) :
    (v.setStatus o status).calling.card +
        (if v.line.otStatus o = .calling ∨ v.ot o = .calls then 1 else 0) =
      v.calling.card + if status = .calling ∨ v.ot o = .calls then 1 else 0 := by
  have h := card_change (p := fun o => v.line.otStatus o = .calling ∨ v.ot o = .calls)
    (q := fun o' => (v.setStatus o status).line.otStatus o' = .calling ∨ v.ot o' = .calls) o
    fun o' ho => by simp only [setStatus, Function.update_of_ne ho]
  rwa [show (v.setStatus o status).line.otStatus o = status from Function.update_self ..] at h

end Counting

/-! ## What moves preserve -/

section Moves

variable {v} {v' : Front n} {c : Fin n.custs} {o : Fin n.ots}

/-- Customers go to an order taker that is busy. -/
theorem Agrees.not_myOT (h : v.Agrees) (hstatus : v.line.otStatus o ≠ .busy)
    (c : Fin n.custs) : (v.cust c).myOT ≠ some o := by
  intro hc
  cases hplace : v.cust c with
  | goes myOT =>
      rw [hplace] at hc
      exact hstatus (h.goes c o (by rw [hplace, ← hc]; rfl)).1
  | asks myOT =>
      rw [hplace] at hc
      exact hstatus (h.asks c o (by rw [hplace, ← hc]; rfl)).1
  | elsewhere | joins | asleep | woken =>
      rw [hplace] at hc
      cases hc

/-- A customer goes somewhere where it has no order taker. -/
theorem Agrees.moveCust (h : v.Agrees) {place : CustPlace n} (hnone : place.myOT = none)
    (hplace : place ≠ .goes none ∧ place ≠ .asks none) : (v.moveCust c place).Agrees := by
  constructor <;> simp only [Front.moveCust, Function.update_apply]
  · grind [h.goes, CustPlace.myOT]
  · grind [h.asks, CustPlace.myOT]
  · grind [h.unique]
  · grind [h.somebody]
  · exact h.calling
  · exact h.serves

/-- An order taker goes to where it waits. -/
theorem Agrees.moveOT (h : v.Agrees) {place : OTPlace} (hot : v.ot o ≠ .waits ∧ v.ot o ≠ .serves)
    (hcalling : v.line.otStatus o = .calling → place = .comes ∨ place = .waits)
    (hplace : place ≠ .serves) : (v.moveOT o place).Agrees := by
  constructor <;> simp only [Front.moveOT, Function.update_apply]
  · grind [h.goes]
  · grind [h.asks]
  · exact h.unique
  · exact h.somebody
  · grind [h.calling]
  · grind [h.serves]

theorem Agrees.setStatus (h : v.Agrees) {status : OTStatus}
    (hot : v.ot o ≠ .waits ∧ v.ot o ≠ .serves)
    (hcalling : status = .calling → v.ot o = .comes) : (v.setStatus o status).Agrees := by
  constructor <;> simp only [Front.setStatus, Function.update_apply]
  · intro c' o' hc'
    have hold := h.goes c' o' hc'
    have hne : o' ≠ o := fun ho => hot.1 (ho ▸ hold.2)
    rwa [if_neg hne]
  · intro c' o' hc'
    have hold := h.asks c' o' hc'
    have hne : o' ≠ o := fun ho => hot.2 (ho ▸ hold.2)
    rwa [if_neg hne]
  · exact h.unique
  · exact h.somebody
  · grind [h.calling]
  · grind [h.serves]

/-- A customer goes to an order taker that waits for it. -/
theorem Agrees.found (h : v.Agrees) (hstatus : v.line.otStatus o ≠ .busy)
    (hot : v.ot o = .waits) : ((v.moveCust c (.goes (some o))).setStatus o .busy).Agrees := by
  have hother := h.not_myOT hstatus
  constructor <;> simp only [Front.moveCust, Front.setStatus, Function.update_apply]
  · grind [h.goes]
  · grind [h.asks, CustPlace.myOT]
  · grind [h.unique, CustPlace.myOT]
  · grind [h.somebody]
  · grind [h.calling]
  · grind [h.serves]

theorem Agrees.asked (h : v.Agrees) (hcust : v.cust c = .goes (some o)) :
    ((v.moveCust c (.asks (some o))).moveOT o .serves).Agrees := by
  have hmine : ∀ c', (v.cust c').myOT = some o → c' = c :=
    fun c' hc' => h.unique c' c o hc' (by rw [hcust]; rfl)
  obtain ⟨hbusy, hwaits⟩ := h.goes c o hcust
  constructor <;> simp only [Front.moveCust, Front.moveOT, Function.update_apply]
  · grind [h.goes, CustPlace.myOT]
  · grind [h.asks]
  · grind [h.unique, CustPlace.myOT]
  · grind [h.somebody]
  · grind [h.calling]
  · grind [h.serves]

theorem Agrees.answer (h : v.Agrees) (hot : v.ot o = .serves) : (v.answer o).Agrees := by
  have hbusy := h.serves o hot
  constructor <;> simp only [Front.answer, Function.update_apply]
  · grind [h.goes]
  · grind [h.asks]
  · grind [h.unique, CustPlace.myOT]
  · grind [h.somebody]
  · grind [h.calling]
  · grind [h.serves]

/-- The length does not matter to them. -/
theorem Agrees.addLength (h : v.Agrees) (count : ℤ) : (v.addLength count).Agrees :=
  ⟨h.goes, h.asks, h.unique, h.somebody, h.calling, h.serves⟩

theorem Orderly.joins (h : v.Orderly) (hcust : v.cust c = .elsewhere) :
    ((v.moveCust c .joins).addLength 1).Orderly := by
  have hwoken := v.woken_moveCust c .joins
  have hinLine := v.inLine_moveCust c .joins
  simp only [hcust, reduceCtorEq, or_false, or_true, if_true, if_false, add_zero]
    at hwoken hinLine
  have hagrees : (v.moveCust c .joins).Agrees := h.toAgrees.moveCust rfl ⟨nofun, nofun⟩
  refine ⟨hagrees.addLength 1, hwoken.trans h.called, ?_⟩
  show v.line.custLineLength + 1 = ((v.moveCust c .joins).inLine.card : ℤ) + v.uncounted.card
  rw [h.length, hinLine]
  push_cast
  exact add_right_comm ..

theorem Orderly.sleeps (h : v.Orderly) (hcust : v.cust c = .joins) :
    (v.moveCust c .asleep).Orderly := by
  have hwoken := v.woken_moveCust c .asleep
  have hinLine := v.inLine_moveCust c .asleep
  simp only [hcust, reduceCtorEq, or_false, or_true, if_true, if_false, add_zero,
    Nat.add_right_cancel_iff] at hwoken hinLine
  refine ⟨h.toAgrees.moveCust rfl ⟨nofun, nofun⟩, hwoken.trans h.called, ?_⟩
  exact h.length.trans (by rw [← hinLine]; rfl)

/-- A customer that is not in line goes to its order taker. -/
theorem Orderly.finds (h : v.Orderly) (hline : v.cust c ≠ .asleep ∧ v.cust c ≠ .joins)
    (hwaits : v.ot o = .waits)
    (hstatus : v.cust c = .woken ∧ v.line.otStatus o = .calling ∨
      v.cust c ≠ .woken ∧ v.line.otStatus o = .available) :
    ((v.moveCust c (.goes (some o))).setStatus o .busy).Orderly := by
  have hwoken := v.woken_moveCust c (.goes (some o))
  have hinLine := v.inLine_moveCust c (.goes (some o))
  have hcalling := v.calling_setStatus o .busy
  simp only [hline, hwaits, reduceCtorEq, or_false, if_false, add_zero]
    at hwoken hinLine hcalling
  have hlength : v.line.custLineLength =
      ((v.moveCust c (.goes (some o))).inLine.card : ℤ) + v.uncounted.card :=
    h.length.trans (by rw [← hinLine])
  rcases hstatus with ⟨hcust, hstatus⟩ | ⟨hcust, hstatus⟩ <;>
    simp only [hcust, hstatus, reduceCtorEq, if_true, if_false, add_zero] at hwoken hcalling <;>
    refine ⟨h.toAgrees.found (by rw [hstatus]; nofun) hwaits, ?_, hlength⟩
  · exact Nat.add_right_cancel (hwoken.trans (h.called.trans hcalling.symm))
  · exact hwoken.trans (h.called.trans hcalling.symm)

theorem Orderly.asked (h : v.Orderly) (hcust : v.cust c = .goes (some o)) :
    ((v.moveCust c (.asks (some o))).moveOT o .serves).Orderly := by
  obtain ⟨hbusy, hwaits⟩ := h.goes c o hcust
  have hwoken := v.woken_moveCust c (.asks (some o))
  have hinLine := v.inLine_moveCust c (.asks (some o))
  have hcalling := v.calling_moveOT o .serves
  have huncounted := v.uncounted_moveOT o .serves
  simp only [hcust, hbusy, hwaits, reduceCtorEq, or_false, if_false, add_zero]
    at hwoken hinLine hcalling huncounted
  refine ⟨h.toAgrees.asked hcust, hwoken.trans (h.called.trans hcalling.symm), ?_⟩
  exact h.length.trans (by rw [← hinLine, ← huncounted]; rfl)

theorem Orderly.answer (h : v.Orderly) (hot : v.ot o = .serves) : (v.answer o).Orderly := by
  have hcalling := v.calling_moveOT o .elsewhere
  have huncounted := v.uncounted_moveOT o .elsewhere
  simp only [h.serves o hot, hot, reduceCtorEq, or_false, if_false, add_zero]
    at hcalling huncounted
  have hcust : ∀ (c : Fin n.custs) (place : CustPlace n), place ≠ .elsewhere →
      (∀ m, place ≠ .asks m) → ((v.answer o).cust c = place ↔ v.cust c = place) := by
    intro c place helse hasks
    simp only [Front.answer]
    split
    · rename_i hc
      rw [hc]
      exact iff_of_false (fun heq => helse heq.symm) fun heq => hasks _ heq.symm
    · rfl
  have hwoken : (v.answer o).woken = v.woken :=
    Finset.filter_congr fun c _ => hcust c .woken nofun nofun
  have hinLine : (v.answer o).inLine = v.inLine := Finset.filter_congr fun c _ =>
    or_congr (hcust c .asleep nofun nofun) (hcust c .joins nofun nofun)
  refine ⟨h.toAgrees.answer hot, ?_, ?_⟩
  · rw [hwoken]
    exact h.called.trans hcalling.symm
  · rw [hinLine]
    exact h.length.trans (by rw [← huncounted]; rfl)

/-- Who says that it has called somebody waits for a customer, or is about to. -/
theorem Agrees.not_calling (h : v.Agrees) (hot : v.ot o ≠ .comes ∧ v.ot o ≠ .waits) :
    v.line.otStatus o ≠ .calling :=
  fun hstatus => (h.calling o hstatus).elim hot.1 hot.2

theorem Orderly.calls (h : v.Orderly) (hcust : v.cust c = .asleep)
    (hot : v.ot o = .elsewhere) : ((v.moveCust c .woken).moveOT o .calls).Orderly := by
  have hnot := h.not_calling (o := o) (by rw [hot]; exact ⟨nofun, nofun⟩)
  have hwoken := v.woken_moveCust c .woken
  have hinLine := v.inLine_moveCust c .woken
  have hcalling := v.calling_moveOT o .calls
  have huncounted := v.uncounted_moveOT o .calls
  simp only [hcust, hnot, hot, reduceCtorEq, or_false, or_true, if_true, if_false,
    add_zero] at hwoken hinLine hcalling huncounted
  have hagrees : (v.moveCust c .woken).Agrees := h.toAgrees.moveCust rfl ⟨nofun, nofun⟩
  refine ⟨hagrees.moveOT ?_ (fun hstatus => absurd hstatus hnot) nofun, ?_, ?_⟩
  · show v.ot o ≠ .waits ∧ v.ot o ≠ .serves
    rw [hot]
    exact ⟨nofun, nofun⟩
  · exact hwoken.trans ((congrArg (· + 1) h.called).trans hcalling.symm)
  · show v.line.custLineLength =
      ((v.moveCust c .woken).inLine.card : ℤ) + (v.moveOT o .calls).uncounted.card
    rw [h.length, ← hinLine, huncounted]
    push_cast
    exact (add_assoc ..).trans (congrArg _ (add_comm ..))

/-- An order taker on its way says how it stands with `OTStatus`. -/
theorem Orderly.turns (h : v.Orderly) {place : OTPlace} {status : OTStatus}
    (hot : v.ot o = .calls ∨ v.ot o = .elsewhere)
    (hplace : place = .comes ∨ place = .elsewhere)
    (hstatus : v.ot o = .calls ↔ status = .calling) (hcomes : status = .calling → place = .comes) :
    (((v.moveOT o place).setStatus o status).addLength
      (if status = .calling then -1 else 0)).Orderly := by
  have hnot := h.not_calling (o := o) (by rcases hot with hot | hot <;> rw [hot] <;> simp)
  have hself : (v.moveOT o place).ot o = place := Function.update_self ..
  have hcalls : place ≠ .calls := by rcases hplace with rfl | rfl <;> nofun
  have hagrees : ((v.moveOT o place).setStatus o status).Agrees := by
    refine Agrees.setStatus (h.toAgrees.moveOT ?_ (fun heq => absurd heq hnot) ?_) ?_ ?_
    · rcases hot with hot | hot <;> rw [hot] <;> simp
    · rcases hplace with rfl | rfl <;> nofun
    · rw [hself]
      rcases hplace with rfl | rfl <;> simp
    · rwa [hself]
  have hcalling := v.calling_moveOT o place
  have hthen := (v.moveOT o place).calling_setStatus o status
  have huncounted := v.uncounted_moveOT o place
  rw [hself] at hthen
  simp only [show (v.moveOT o place).line.otStatus o = v.line.otStatus o from rfl, hnot, hcalls,
    hstatus, or_false, false_or, if_false, add_zero] at hcalling hthen huncounted
  refine ⟨hagrees.addLength _, h.called.trans (hcalling.symm.trans hthen.symm), ?_⟩
  show v.line.custLineLength + _ = (v.inLine.card : ℤ) + (v.moveOT o place).uncounted.card
  rw [h.length, ← huncounted]
  split <;> push_cast <;> omega

theorem Orderly.stands (h : v.Orderly) (hot : v.ot o = .comes) : (v.moveOT o .waits).Orderly := by
  have hcalling := v.calling_moveOT o .waits
  have huncounted := v.uncounted_moveOT o .waits
  simp only [hot, reduceCtorEq, or_false, if_false, add_zero, add_left_inj]
    at hcalling huncounted
  refine ⟨h.toAgrees.moveOT ?_ (fun _ => .inr rfl) nofun, h.called.trans hcalling.symm, ?_⟩
  · rw [hot]
    exact ⟨nofun, nofun⟩
  · exact h.length.trans (by rw [← huncounted]; rfl)

/-- **What can happen keeps the line in order.** -/
theorem Orderly.move (h : v.Orderly) (hmoves : Moves v v') : v'.Orderly := by
  cases hmoves with
  | stays => exact h
  | joins hcust => exact h.joins hcust
  | sleeps hcust => exact h.sleeps hcust
  | found hcust hstatus hot =>
      exact h.finds (by rw [hcust]; exact ⟨nofun, nofun⟩) hot (.inr ⟨by rw [hcust]; nofun, hstatus⟩)
  | chose hcust hstatus hot =>
      refine h.finds (by rw [hcust]; exact ⟨nofun, nofun⟩) ?_ (.inl ⟨hcust, hstatus⟩)
      exact (h.calling _ hstatus).resolve_left hot
  | asks hcust => exact h.asked hcust
  | answers hot => exact h.answer hot
  | calls hcust hot => exact h.calls hcust hot
  | called hot => exact h.turns (.inl hot) (.inl rfl) (iff_of_true hot rfl) fun _ => rfl
  | marks hot hplace hstatus =>
      have hturns := h.turns (.inr hot) hplace.symm (by rw [hot]; exact iff_of_false nofun hstatus)
        fun heq => absurd heq hstatus
      rwa [if_neg hstatus, addLength_zero] at hturns
  | stands hot => exact h.stands hot

end Moves

end Front

end Nachos.Restaurant
