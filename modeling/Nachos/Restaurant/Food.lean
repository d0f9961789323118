import Nachos.Restaurant.Globals
import Nachos.Restaurant.Sections
import Mathlib.Algebra.BigOperators.Fin
import Mathlib.Tactic.Ring
import Mathlib.Tactic.Linarith

/-!
# Food is conserved

A unit of food is in the inventory, in the hands of a cook, on the food table or handed out.
Cooks take from the inventory only what is there, and order takers from the table, so
neither runs below zero, as long as there is not more food than an `int` can count.
-/

namespace Nachos.Restaurant

open Nachos.Lib Nachos.Threads

variable {n : Size}

/-! ## Where the food is -/

/-- The cook has taken a unit from the inventory that is not yet on the food table. -/
def CookPoint.carries : CookPoint → Bool
  | .fetched | .cooking _ | .serving => true
  | _ => false

def Point.carries : Point n → Bool
  | .cook p => p.carries
  | _ => false

/-- The units of a food in the hands of cooks. -/
def inHands (point : Person n → Point n) (kitchen : Kitchen n) (i : CookFood) : ℤ :=
  ∑ k, if (point (.cook k)).carries = true ∧ kitchen.cookDoing k = some i then 1 else 0

/-- The units of a food that `getFood` hands out. -/
def Event.given (i : CookFood) : Event n → ℤ
  | .packed _ _ units => units i
  | _ => 0

def handedOut (i : CookFood) (log : List (Event n)) : ℤ := (log.map (Event.given i)).sum

def Event.refills : Event n → Bool
  | .refilled => true
  | _ => false

def refills (log : List (Event n)) : ℕ := log.countP Event.refills

theorem handedOut_append (i : CookFood) (log events : List (Event n)) :
    handedOut i (log ++ events) = handedOut i log + handedOut i events := by
  rw [handedOut, List.map_append, List.sum_append]
  rfl

theorem refills_append (log events : List (Event n)) :
    refills (log ++ events) = refills log + refills events := List.countP_append

/-- Nobody orders less than nothing. -/
def Ordered (d : Data n) (i : CookFood) : Prop := ∀ c, 0 ≤ (d.orders.packages c).units i

/-- The books are kept, from stocks of `initial` units. -/
structure Balanced (initial : ℤ) (log : List (Event n)) (point : Person n → Point n)
    (d : Data n) (i : CookFood) : Prop where
  inventory : 0 ≤ d.stock.inventory i
  foodCount : 0 ≤ d.stock.foodCount i
  total : d.stock.inventory i + d.stock.foodCount i + inHands point d.kitchen i +
    handedOut i log = initial + 10 * refills log
  given : 0 ≤ handedOut i log
  ordered : Ordered d i

/-! ## What persons do to it -/

section Persons

variable {d d' : Data n} {a : Rand} {op : Call n} {events : List (Event n)} {i : CookFood}

theorem Ordered.setPackage (h : Ordered d i) (c : Fin n.custs) {p : Package n}
    (hp : 0 ≤ p.units i) : Ordered (d.setPackage c p) i := by
  intro c'
  show 0 ≤ (Function.update d.orders.packages c p c').units i
  rw [Function.update_apply]
  split
  · exact hp
  · exact h c'

theorem Ordered.mark (h : Ordered d i) (c : Fin n.custs) (status : PackageStatus) :
    Ordered (mark c status d) i := h.setPackage c (h c)

theorem Ordered.pack (h : Ordered d i) (o : Fin n.ots) (c : Fin n.custs) :
    Ordered (pack o c d) i := Ordered.setPackage (d := d.setFoodCount _) h c (h c)

theorem randOrder_nonneg (a : Rand) (i : Fin 6) : 0 ≤ a.randOrder i := by
  unfold Rand.randOrder
  split
  · decide
  · exact Int.natCast_nonneg _

/-- Nothing is done to food by a person that is no cook. -/
structure Untouched (d d' : Data n) (events : List (Event n)) (i : CookFood) : Prop where
  stock : d'.stock = d.stock
  cookDoing : d'.kitchen.cookDoing = d.kitchen.cookDoing
  handedOut : handedOut i events = 0
  refills : refills events = 0
  ordered : Ordered d i → Ordered d' i

theorem customer_go_untouched {c : Fin n.custs} {p next : CustomerPoint n}
    (h : simulateCustomer c d a p = some (.go next d' events)) : Untouched d d' events i := by
  cases p with
  | eating times => cases times <;> cases h
  | ordering myOT =>
      cases h
      cases myOT
      all_goals exact ⟨rfl, rfl, rfl, rfl, fun h => h.setPackage c (randOrder_nonneg a _)⟩
  | _ =>
      simp only [simulateCustomer] at h
      repeat' split at h
      all_goals cases h <;> exact ⟨rfl, rfl, rfl, rfl, id⟩

theorem waiter_go_untouched {w : Fin n.waiters} {p next : WaiterPoint n}
    (h : simulateWaiter w d p = some (.go next d' events)) : Untouched d d' events i := by
  cases p <;> simp only [simulateWaiter] at h
  all_goals repeat' split at h
  all_goals cases h <;>
    first
    | exact ⟨rfl, rfl, rfl, rfl, id⟩
    | exact ⟨rfl, rfl, rfl, rfl, fun h => h.mark _ _⟩

theorem manager_go_food {p next : ManagerPoint n}
    (h : simulateManager d a p = some (.go next d' events)) : Untouched d d' events i ∨
      d' = d.setInventory (fun b => wrapped (d.stock.inventory b + 10)) ∧ events = [.refilled] := by
  cases p with
  | coming times | withdrawing times =>
      cases times
      all_goals cases h
      exact .inl ⟨rfl, rfl, rfl, rfl, id⟩
  | pausing times pFood => cases times <;> cases h
  | refilling =>
      cases h
      exact .inr ⟨rfl, rfl⟩
  | _ =>
      simp only [simulateManager] at h
      repeat' split at h
      all_goals cases h <;> exact .inl ⟨rfl, rfl, rfl, rfl, id⟩

theorem Package.units_le {p : Package n} {foodCount : CookFood → ℤ}
    (h : p.enoughFood foodCount = true) (i : CookFood) : p.units i ≤ foodCount i :=
  of_decide_eq_true h i

/-- An order taker packs a package only if there is enough food for it. -/
theorem ordertaker_go_food {o : Fin n.ots} {p next : OrdertakerPoint n}
    (h : simulateOrdertaker o d p = some (.go next d' events)) : Untouched d d' events i ∨
      ∃ c, (d.orders.packages c).enoughFood d.stock.foodCount = true ∧
        d'.stock = ⟨d.stock.inventory, (d.orders.packages c).getFood d.stock.foodCount⟩ ∧
        d'.kitchen = d.kitchen ∧ handedOut i events = (d.orders.packages c).units i ∧
        refills events = 0 ∧ (Ordered d i → Ordered d' i) := by
  cases p with
  | packing =>
      simp only [simulateOrdertaker] at h
      split at h
      · cases h
      · split at h
        · rename_i c hfind
          have henough := List.find?_some hfind
          simp only [decide_eq_true_eq] at henough
          split at h
          · cases h
            exact .inr ⟨c, henough.2, rfl, rfl, by simp [handedOut, Event.given], rfl,
              fun h => h.pack o c⟩
          · cases h
            exact .inr ⟨c, henough.2, rfl, rfl, by simp [handedOut, Event.given], rfl,
              fun h => Ordered.mark (d := addUnpacked (pack o c d) (-1)) (h.pack o c) c .ready⟩
        · cases h
          exact .inl ⟨rfl, rfl, rfl, rfl, id⟩
  | accepting c =>
      simp only [simulateOrdertaker] at h
      split at h
      · rename_i henough
        cases h
        exact .inr ⟨c, henough.2.1, rfl, rfl, by simp [handedOut, Event.given], rfl,
          fun h => (h.pack o c).mark c .done⟩
      · cases h
        exact .inl ⟨rfl, rfl, rfl, rfl, fun h => h.mark c .notReady⟩
  | handingHeld c =>
      cases h
      exact .inl ⟨rfl, rfl, rfl, rfl, fun h => h.mark c .done⟩
  | _ =>
      simp only [simulateOrdertaker] at h
      repeat' split at h
      all_goals cases h <;> exact .inl ⟨rfl, rfl, rfl, rfl, id⟩

/-- A cook takes a unit, puts one on the table, or is between two meals. -/
inductive CookGo (k : Fin n.cooks) (d d' : Data n) :
    CookPoint → CookPoint → List (Event n) → Prop
  | took {i : CookFood} : d.kitchen.cookDoing k = some i → 0 < d.stock.inventory i →
      d' = d.setInventory (Function.update d.stock.inventory i (d.stock.inventory i - 1)) →
      CookGo k d d' .fetchingHeld .fetched [.took k i]
  | cooked {i : CookFood} : d.kitchen.cookDoing k = some i →
      d' = d.setFoodCount (Function.update d.stock.foodCount i (increment (d.stock.foodCount i))) →
      CookGo k d d' .serving .served [.cooked k i]
  | other {p next : CookPoint} : p.carries = false → next.carries = false →
      d'.stock = d.stock → d'.orders = d.orders →
      (∀ k', k' ≠ k → d'.kitchen.cookDoing k' = d.kitchen.cookDoing k') →
      CookGo k d d' p next []

theorem cook_go_food {k : Fin n.cooks} {p next : CookPoint}
    (h : simulateCook k d a p = some (.go next d' events)) : CookGo k d d' p next events := by
  cases p with
  | cooking times => cases times <;> cases h
  | requestHeld =>
      simp only [simulateCook] at h
      split at h
      all_goals
        cases h
        exact .other rfl rfl rfl rfl fun k' hne => Function.update_of_ne hne ..
  | stopping =>
      cases h
      exact .other rfl rfl rfl rfl fun k' hne => Function.update_of_ne hne ..
  | fetchingHeld =>
      simp only [simulateCook] at h
      split at h
      · cases h
      · rename_i i hdoing
        split at h
        · rename_i hpos
          cases h
          exact .took hdoing hpos rfl
        · cases h
  | serving =>
      simp only [simulateCook] at h
      split at h
      · cases h
      · rename_i i hdoing
        cases h
        exact .cooked hdoing rfl
  | _ => cases h

/-- A call does not change what a cook carries. -/
theorem cook_call_carries {k : Fin n.cooks} {p next : CookPoint}
    (h : simulateCook k d a p = some (.call op next)) : next.carries = p.carries := by
  cases p with
  | cooking times => cases times <;> cases h <;> rfl
  | _ =>
      simp only [simulateCook] at h
      repeat' split at h
      all_goals cases h <;> rfl

end Persons

/-! ## Steps -/

section Steps

variable {point point' : Person n → Point n} {d d' : Data n} {i : CookFood} {initial : ℤ}
  {log events : List (Event n)} {t : Person n} {next : Point n} {a : Rand}

/-- A unit in the hands of one cook. -/
def inHand (point : Person n → Point n) (kitchen : Kitchen n) (i : CookFood) (k : Fin n.cooks) :
    ℤ :=
  if (point (.cook k)).carries = true ∧ kitchen.cookDoing k = some i then 1 else 0

theorem inHands_eq (point : Person n → Point n) (kitchen : Kitchen n) (i : CookFood) :
    inHands point kitchen i = ∑ k, inHand point kitchen i k := rfl

/-- One cook goes on. -/
theorem inHands_change (point point' : Person n → Point n) (kitchen kitchen' : Kitchen n)
    (k : Fin n.cooks)
    (h : ∀ k', k' ≠ k → inHand point' kitchen' i k' = inHand point kitchen i k') :
    inHands point' kitchen' i + inHand point kitchen i k =
      inHands point kitchen i + inHand point' kitchen' i k := by
  have hothers : ∑ k' ∈ Finset.univ.erase k, inHand point' kitchen' i k' =
      ∑ k' ∈ Finset.univ.erase k, inHand point kitchen i k' :=
    Finset.sum_congr rfl fun k' hk' => h k' (Finset.ne_of_mem_erase hk')
  rw [inHands_eq, inHands_eq, ← Finset.add_sum_erase _ _ (Finset.mem_univ k),
    ← Finset.add_sum_erase _ (inHand point kitchen i) (Finset.mem_univ k), hothers]
  ring

/-- Nobody takes anything up or lays it down. -/
theorem inHands_congr {kitchen kitchen' : Kitchen n}
    (hcarries : ∀ k, (point' (.cook k)).carries = (point (.cook k)).carries)
    (hdoing : kitchen'.cookDoing = kitchen.cookDoing) :
    inHands point' kitchen' i = inHands point kitchen i := by
  rw [inHands, inHands, hdoing]
  simp only [hcarries]

theorem carries_update (h : ∀ k, t = .cook k → next.carries = (point t).carries) (k : Fin n.cooks) :
    (Function.update point t next (.cook k)).carries = (point (.cook k)).carries := by
  by_cases ht : .cook k = t
  · subst ht
    rw [Function.update_self]
    exact h k rfl
  · rw [Function.update_of_ne ht]

/-- What comes to a place has been taken from another one. -/
theorem Balanced.change (h : Balanced initial log point d i) (hinventory : 0 ≤ d'.stock.inventory i)
    (hfood : 0 ≤ d'.stock.foodCount i) (hgiven : 0 ≤ handedOut i events) (hordered : Ordered d' i)
    (htotal : d'.stock.inventory i + d'.stock.foodCount i + inHands point' d'.kitchen i +
      handedOut i events =
        d.stock.inventory i + d.stock.foodCount i + inHands point d.kitchen i +
          10 * refills events) :
    Balanced initial (log ++ events) point' d' i := by
  refine ⟨hinventory, hfood, ?_, ?_, hordered⟩
  · rw [handedOut_append, refills_append]
    push_cast
    linarith [h.total]
  · rw [handedOut_append]
    linarith [h.given]

/-- What there is of a food is no more than there has been. -/
theorem Balanced.le (h : Balanced initial log point d i) :
    d.stock.inventory i + d.stock.foodCount i + inHands point d.kitchen i ≤
      initial + 10 * refills log := by
  linarith [h.total, h.given]

theorem inHand_nonneg (point : Person n → Point n) (kitchen : Kitchen n) (i : CookFood)
    (k : Fin n.cooks) : 0 ≤ inHand point kitchen i k := by
  unfold inHand
  split <;> decide

theorem inHands_nonneg (point : Person n → Point n) (kitchen : Kitchen n) (i : CookFood) :
    0 ≤ inHands point kitchen i :=
  Finset.sum_nonneg fun k _ => inHand_nonneg point kitchen i k

theorem Balanced.untouched (h : Balanced initial log point d i)
    (huntouched : Untouched d d' events i)
    (hcarries : ∀ k, (point' (.cook k)).carries = (point (.cook k)).carries) :
    Balanced initial (log ++ events) point' d' i := by
  obtain ⟨hstock, hdoing, hgiven, hrefills, hordered⟩ := huntouched
  refine h.change ?_ ?_ (by rw [hgiven]) (hordered h.ordered) ?_
  · rw [hstock]
    exact h.inventory
  · rw [hstock]
    exact h.foodCount
  · rw [hstock, hgiven, hrefills, inHands_congr hcarries hdoing]
    rfl

/-- An order is packed. -/
theorem Balanced.packed (h : Balanced initial log point d i) {c : Fin n.custs}
    (henough : (d.orders.packages c).enoughFood d.stock.foodCount = true)
    (hstock : d'.stock = ⟨d.stock.inventory, (d.orders.packages c).getFood d.stock.foodCount⟩)
    (hkitchen : d'.kitchen = d.kitchen)
    (hgiven : handedOut i events = (d.orders.packages c).units i)
    (hrefills : refills events = 0) (hordered : Ordered d i → Ordered d' i)
    (hcarries : ∀ k, (point' (.cook k)).carries = (point (.cook k)).carries) :
    Balanced initial (log ++ events) point' d' i := by
  have hle := Package.units_le henough i
  have hleft : d'.stock.foodCount i = d.stock.foodCount i - (d.orders.packages c).units i := by
    rw [hstock]
    rfl
  have hsame : d'.stock.inventory i = d.stock.inventory i := by rw [hstock]
  refine h.change ?_ ?_ (by rw [hgiven]; exact h.ordered c) (hordered h.ordered) ?_
  · rw [hsame]
    exact h.inventory
  · rw [hleft]
    omega
  · rw [hsame, hleft, hgiven, hrefills,
      inHands_congr hcarries (congrArg Kitchen.cookDoing hkitchen)]
    push_cast
    ring

/-- The inventory is refilled. -/
theorem Balanced.refilled (h : Balanced initial log point d i)
    (hbound : initial + 10 * refills (log ++ [Event.refilled]) < 2147483648)
    (hcarries : ∀ k, (point' (.cook k)).carries = (point (.cook k)).carries) :
    Balanced initial (log ++ [Event.refilled]) point'
      (d.setInventory fun b => wrapped (d.stock.inventory b + 10)) i := by
  have hinventory := h.inventory
  have hfood := h.foodCount
  have hhands : inHands point' d.kitchen i = inHands point d.kitchen i :=
    inHands_congr hcarries rfl
  have hinv : wrapped (d.stock.inventory i + 10) = d.stock.inventory i + 10 := by
    refine wrapped_of_lt ?_
    have hle := h.le
    have hhand := inHands_nonneg point d.kitchen i
    rw [refills_append, show refills [(.refilled : Event n)] = 1 from rfl] at hbound
    push_cast at hbound
    omega
  refine h.change ?_ hfood (Int.le_refl 0) h.ordered ?_
  · show 0 ≤ wrapped (d.stock.inventory i + 10)
    rw [hinv]
    omega
  · show wrapped (d.stock.inventory i + 10) + d.stock.foodCount i + inHands point' d.kitchen i + 0 =
      d.stock.inventory i + d.stock.foodCount i + inHands point d.kitchen i + 10 * ((1 : ℕ) : ℤ)
    rw [hinv, hhands]
    push_cast
    ring

/-- A cook goes on. -/
theorem Balanced.cook (h : Balanced initial log point d i) {k : Fin n.cooks}
    {p next : CookPoint} (hbound : initial + 10 * refills log < 2147483648)
    (hpoint : point (.cook k) = .cook p) (hgo : CookGo k d d' p next events) :
    Balanced initial (log ++ events) (Function.update point (.cook k) (.cook next)) d' i := by
  have hinventory := h.inventory
  have hfood := h.foodCount
  have hnext : Function.update point (.cook k) (.cook next) (.cook k) = .cook next :=
    Function.update_self ..
  have hothers : ∀ k', k' ≠ k →
      Function.update point (.cook k) (.cook next) (.cook k') = point (.cook k') :=
    fun k' hne => Function.update_of_ne (fun heq => hne (Person.cook.inj heq)) ..
  have hdoing : ∀ k', k' ≠ k → d'.kitchen.cookDoing k' = d.kitchen.cookDoing k' := by
    intro k' hne
    cases hgo with
    | took _ _ hd | cooked _ hd => rw [hd]; rfl
    | other _ _ _ _ hdoing => exact hdoing k' hne
  have hhands := inHands_change (i := i) point (Function.update point (.cook k) (.cook next))
    d.kitchen d'.kitchen k fun k' hne => by simp only [inHand, hothers k' hne, hdoing k' hne]
  simp only [inHand, hpoint, hnext, Point.carries] at hhands
  cases hgo with
  | @took j hcook hpos hd =>
      subst hd
      simp only [CookPoint.carries, Data.setInventory, hcook, Option.some.injEq, true_and,
        Bool.false_eq_true, false_and, if_false, add_zero] at hhands
      have hinv : (Function.update d.stock.inventory j (d.stock.inventory j - 1)) i =
          d.stock.inventory i - if j = i then 1 else 0 := by
        by_cases hji : j = i
        · subst hji
          rw [Function.update_self, if_pos rfl]
        · rw [Function.update_of_ne (Ne.symm hji), if_neg hji, sub_zero]
      refine h.change ?_ hfood (Int.le_refl 0) h.ordered ?_
      · show 0 ≤ Function.update d.stock.inventory j (d.stock.inventory j - 1) i
        by_cases hji : j = i
        · subst hji
          rw [Function.update_self]
          omega
        · rwa [Function.update_of_ne (Ne.symm hji)]
      · show Function.update d.stock.inventory j (d.stock.inventory j - 1) i +
          d.stock.foodCount i + inHands _ d.kitchen i + 0 = _ + 10 * ((0 : ℕ) : ℤ)
        rw [hinv, hhands]
        push_cast
        ring
  | @cooked j hcook hd =>
      subst hd
      simp only [CookPoint.carries, Data.setFoodCount, hcook, Option.some.injEq, true_and,
        Bool.false_eq_true, false_and, if_false, add_zero] at hhands
      have hcount : (Function.update d.stock.foodCount j (increment (d.stock.foodCount j))) i =
          d.stock.foodCount i + if j = i then 1 else 0 := by
        by_cases hji : j = i
        · subst hji
          -- the unit in the hands of the cook is one of those that there have been
          have hle := h.le
          have hrest := inHands_nonneg (Function.update point (.cook k) (.cook .served)) d.kitchen j
          rw [if_pos rfl] at hhands
          rw [Function.update_self, if_pos rfl, increment_of_lt (by omega)]
        · rw [Function.update_of_ne (Ne.symm hji), if_neg hji, add_zero]
      refine h.change hinventory ?_ (Int.le_refl 0) h.ordered ?_
      · show 0 ≤ Function.update d.stock.foodCount j (increment (d.stock.foodCount j)) i
        rw [hcount]
        split <;> omega
      · show d.stock.inventory i +
          Function.update d.stock.foodCount j (increment (d.stock.foodCount j)) i +
          inHands _ d.kitchen i + 0 = _ + 10 * ((0 : ℕ) : ℤ)
        rw [hcount, ← hhands]
        push_cast
        ring
  | other hcarries hcarries' hstock horders _ =>
      rw [hcarries, hcarries'] at hhands
      simp only [Bool.false_eq_true, false_and, if_false, add_zero] at hhands
      refine h.change ?_ ?_ (Int.le_refl 0) (by unfold Ordered; rw [horders]; exact h.ordered) ?_
      · rw [hstock]
        exact hinventory
      · rw [hstock]
        exact hfood
      · rw [hstock, hhands]
        rfl

/-! ### Every run -/

variable {s s' : System (Person n) Empty (LockName n) (ConditionName n) (Point n) (Data n)}
  {m : Move (Person n) Empty (LockName n) (ConditionName n) Rand Empty}
  {es : List (Threads.Event (Person n) Empty (LockName n) (ConditionName n) (Event n))}

/-- A call does not change what anybody carries. -/
theorem act_call_carries {op : Call n} {p : Point n}
    (h : act t p d a = some (.call op next)) : next.carries = p.carries := by
  cases Calls.of_act h with
  | cook hact => exact cook_call_carries hact
  | fork | opened | ordertaker _ | customer _ | manager _ | waiter _ => rfl

theorem Balanced.goes (h : Balanced initial log point d i)
    (hbound : initial + 10 * refills (log ++ events) < 2147483648)
    (hgoes : Goes d a t (point t) next d' events) :
    Balanced initial (log ++ events) (Function.update point t next) d' i := by
  generalize hp : point t = p at hgoes
  have hno : (∀ k, t ≠ .cook k) → ∀ k, (Function.update point t next (.cook k)).carries =
      (point (.cook k)).carries := fun hne => carries_update fun k ht => absurd ht (hne k)
  cases hgoes with
  | start =>
      refine h.untouched ⟨rfl, rfl, rfl, rfl, id⟩ (carries_update fun k ht => ?_)
      subst ht
      rw [hp]
      rfl
  | ordertaker hact =>
      rcases ordertaker_go_food hact with huntouched | ⟨c, henough, hstock, hkitchen, hgiven,
        hrefills, hordered⟩
      · exact h.untouched huntouched (hno nofun)
      · exact h.packed henough hstock hkitchen hgiven hrefills hordered (hno nofun)
  | customer hact => exact h.untouched (customer_go_untouched hact) (hno nofun)
  | cook hact =>
      refine h.cook ?_ hp (cook_go_food hact)
      rw [refills_append] at hbound
      push_cast at hbound
      omega
  | manager hact =>
      rcases manager_go_food hact with huntouched | ⟨rfl, rfl⟩
      · exact h.untouched huntouched (hno nofun)
      · exact h.refilled hbound (hno nofun)
  | waiter hact => exact h.untouched (waiter_go_untouched hact) (hno nofun)

/-- What one step preserves. -/
theorem balanced_step (h : Balanced initial log s.point s.data i)
    (hbound : initial + 10 * refills (log ++ Program.ownLog es) < 2147483648)
    (hs : Program.Steps (restaurant n) s m s' es) :
    Balanced initial (log ++ Program.ownLog es) s'.point s'.data i := by
  have hkept : ∀ {point' : Person n → Point n},
      (∀ k, (point' (.cook k)).carries = (s.point (.cook k)).carries) →
      Balanced initial (log ++ []) point' s.data i :=
    fun hcarries => h.untouched ⟨rfl, rfl, rfl, rfl, id⟩ hcarries
  cases hs with
  | call hact _ =>
      rw [Program.ownLog_map]
      exact hkept (carries_update fun _ _ => act_call_carries hact)
  | go _ _ hact =>
      rw [Program.ownLog_own] at hbound ⊢
      exact h.goes hbound (.of_act hact)
  | kernel _ _ =>
      rw [Program.ownLog_map]
      exact hkept fun _ => rfl
  | @interrupt i | @device i => exact i.elim

variable {tr : List (List (Threads.Event (Person n) Empty (LockName n) (ConditionName n)
    (Event n)))} {cash : ℤ} {food inventory : ℕ}

/-- A restaurant with one order taker and one cook. -/
abbrev oneCook : Size := ⟨0, 0, 1, 1, 0, rfl⟩

end Steps

/-! ## Too much food -/

section Cooking

theorem Stock.cooked_inventory (stock : Stock) (i : CookFood) :
    (stock.cooked i).inventory i = stock.inventory i - 1 := Function.update_self ..

theorem Stock.cooked_foodCount (stock : Stock) (i : CookFood) :
    (stock.cooked i).foodCount i = increment (stock.foodCount i) := Function.update_self ..

def Point.working : Point n → Bool
  | .cook .working => true
  | _ => false

theorem Point.eq_of_working {p : Point n} (h : p.working = true) : p = .cook .working := by
  unfold Point.working at h
  split at h
  · rfl
  · cases h

variable (n) in
/-- The locks that a cook needs. -/
def cookLocks : List (LockName n) := [.cookRequest, .inventory, .foodTable]

/-- A cook that has the kitchen for itself. -/
structure Cooking (s : System (Person n) Empty (LockName n) (ConditionName n) (Point n) (Data n))
    (k : Fin n.cooks) (i : CookFood) : Prop where
  current : s.kernel.currentThread = .cook k
  idle : s.kernel.idle = false
  pc : s.kernel.pc (.cook k) = .outside
  point : (s.point (.cook k)).working = true
  locks : ∀ l ∈ cookLocks n, (s.kernel.locks l).lockerOwner = none
  request : s.data.kitchen.cookRequest k = some i

variable {s s₀ : System (Person n) Empty (LockName n) (ConditionName n) (Point n) (Data n)}
  {k : Fin n.cooks} {i : CookFood} {tr : List (List (Threads.Event (Person n) Empty (LockName n)
    (ConditionName n) (Event n)))} {d d' : Data n} {a : Rand}

instance : Decidable (Cooking s k i) :=
  decidable_of_iff (s.kernel.currentThread = .cook k ∧ s.kernel.idle = false ∧
      s.kernel.pc (.cook k) = .outside ∧ (s.point (.cook k)).working = true ∧
      (∀ l ∈ cookLocks n, (s.kernel.locks l).lockerOwner = none) ∧
      s.data.kitchen.cookRequest k = some i)
    ⟨fun h => ⟨h.1, h.2.1, h.2.2.1, h.2.2.2.1, h.2.2.2.2.1, h.2.2.2.2.2⟩,
      fun h => ⟨h.current, h.idle, h.pc, h.point, h.locks, h.request⟩⟩

/-- The cook has looked what it is to make. -/
def busyWith (k : Fin n.cooks) (i : CookFood) (d : Data n) : Data n :=
  { d with
    kitchen.cookDoing := Function.update d.kitchen.cookDoing k (some i)
    kitchen.cookStatus := Function.update d.kitchen.cookStatus k .busy }

/-- It has taken a unit from the inventory. -/
def fetch (i : CookFood) (d : Data n) : Data n :=
  d.setInventory (Function.update d.stock.inventory i (d.stock.inventory i - 1))

/-- It has put it on the food table. -/
def serve (i : CookFood) (d : Data n) : Data n :=
  d.setFoodCount (Function.update d.stock.foodCount i (increment (d.stock.foodCount i)))

theorem cook_requested (h : d.kitchen.cookRequest k = some i) :
    simulateCook k d a .requestHeld = some (.go .toCook (busyWith k i d) []) := by
  simp only [simulateCook, h]
  rfl

theorem busyWith_cookDoing : (busyWith k i d).kitchen.cookDoing k = some i :=
  Function.update_self ..

theorem cook_fetches (h : d.kitchen.cookDoing k = some i) (hpos : 0 < d.stock.inventory i) :
    simulateCook k d a .fetchingHeld = some (.go .fetched (fetch i d) [.took k i]) := by
  simp only [simulateCook, h]
  rw [if_pos hpos]
  rfl

theorem cook_serves (h : d.kitchen.cookDoing k = some i) :
    simulateCook k d a .serving = some (.go .served (serve i d) [.cooked k i]) := by
  simp only [simulateCook, h]
  rfl

/-- Through a section of a cook. -/
theorem run_cook_section {kernel : Kernel (Person n) Empty (LockName n) (ConditionName n)}
    {point : Person n → Point n} {l : LockName n} {p held done next : CookPoint}
    {events : List (Event n)} (hrun : Run (restaurant n).step anyStep s₀ tr ⟨kernel, point, d⟩)
    (hcur : kernel.currentThread = .cook k) (hidle : kernel.idle = false)
    (hpc : kernel.pc (.cook k) = .outside) (hnone : (kernel.locks l).lockerOwner = none)
    (hpoint : point (.cook k) = .cook p)
    (hacquire : simulateCook k d a p = some (.call (.acquire l) held))
    (hgo : simulateCook k d a held = some (.go done d' events))
    (hrelease : simulateCook k d' a done = some (.call (.release l) next)) :
    ∃ tr', Run (restaurant n).step anyStep s₀ tr'
      ⟨kernel, Function.update point (.cook k) (.cook next), d'⟩ := by
  have hact : ∀ p d, (restaurant n).act (.cook k) (.cook p) d a =
      (simulateCook k d a p).map (.map .cook) := fun _ _ => rfl
  rw [← hcur] at hpc hpoint hact ⊢
  exact Program.run_section hrun hidle hpc hnone (by rw [hpoint, hact, hacquire]; rfl)
    (by rw [hact, hgo]; rfl) (by rw [hact, hrelease]; rfl)

/-- It makes one unit more. -/
theorem Cooking.round (h : Cooking s k i) (hrun : Run (restaurant n).step anyStep s₀ tr s)
    (hpos : 0 < s.data.stock.inventory i) : ∃ tr' s',
      Run (restaurant n).step anyStep s₀ tr' s' ∧ Cooking s' k i ∧
        s'.data.stock = s.data.stock.cooked i := by
  obtain ⟨kernel, point, d⟩ := s
  obtain ⟨hcur, hidle, hpc, hpoint, hlocks, hrequest⟩ := h
  dsimp only at hcur hidle hpc hpoint hlocks hrequest hpos
  -- `rand` returns 0, and the cook does not yield
  obtain ⟨tr₁, hrun⟩ := run_cook_section (l := .cookRequest) (a := ⟨0, fun _ => 0⟩) hrun hcur hidle
    hpc (hlocks _ (by simp [cookLocks])) (Point.eq_of_working hpoint) rfl
    (cook_requested hrequest) rfl
  obtain ⟨tr₂, hrun⟩ := run_cook_section (l := .inventory) (a := ⟨0, fun _ => 0⟩) hrun hcur hidle
    hpc (hlocks _ (by simp [cookLocks])) (Function.update_self ..) rfl
    (cook_fetches busyWith_cookDoing hpos) rfl
  obtain ⟨tr₃, hrun⟩ := run_cook_section (l := .foodTable) (a := ⟨0, fun _ => 0⟩) hrun hcur hidle
    hpc (hlocks _ (by simp [cookLocks])) (Function.update_self ..) rfl
    (cook_serves busyWith_cookDoing) rfl
  refine ⟨tr₃, _, hrun, ⟨hcur, hidle, hpc, ?_, hlocks, hrequest⟩, rfl⟩
  dsimp only
  rw [Function.update_self]
  rfl

/-- It makes unit after unit. -/
theorem Cooking.rounds (h : Cooking s k i) (hrun : Run (restaurant n).step anyStep s₀ tr s)
    (m : ℕ) (hinventory : m ≤ s.data.stock.inventory i)
    (hfood : s.data.stock.foodCount i + m < 2147483648) : ∃ tr' s',
      Run (restaurant n).step anyStep s₀ tr' s' ∧ Cooking s' k i ∧
        s'.data.stock.inventory i = s.data.stock.inventory i - m ∧
        s'.data.stock.foodCount i = s.data.stock.foodCount i + m := by
  induction m with
  | zero => exact ⟨tr, s, hrun, h, (Int.sub_zero _).symm, (Int.add_zero _).symm⟩
  | succ m ih =>
      push_cast at hinventory hfood
      obtain ⟨tr₁, s₁, hrun₁, h₁, hinventory₁, hfood₁⟩ := ih (by omega) (by omega)
      obtain ⟨tr₂, s₂, hrun₂, h₂, hstock⟩ := h₁.round hrun₁ (by omega)
      refine ⟨tr₂, s₂, hrun₂, h₂, ?_, ?_⟩
      · rw [hstock, Stock.cooked_inventory, hinventory₁]
        push_cast
        ring
      · rw [hstock, Stock.cooked_foodCount, increment_of_lt (by omega), hfood₁]
        push_cast
        ring

/-- A restaurant with 21 seats and three units of each food. When twenty tables are taken, the
cook makes three units, and then the last customer is seated. -/
def allSeated : Memory :=
  (((((List.range 20).foldl Memory.seat (.init 21 21 1 1 1 0 0 3)).cook 0).cook 0).cook 0).seat 20

end Cooking

end Nachos.Restaurant
