import Nachos.Restaurant.Code

/-!
# The memory of the restaurant

The variables of `restaurant.cc` lie in memory one behind the other, as they are declared. An
entry of an array behind its end is an entry of what is declared next. As long as the numbers
are within the arrays an entry is its own, so the memory can be seen as the separate tables
that the other modules have. With 21 seats `tables[20]` is `Inventory[0]`.
-/

namespace Nachos.Restaurant

open Nachos.Lib

/-! ## Variables -/

/-- Those of `restaurant.cc`, in the order of their declarations. -/
inductive Variable where
  | numOfOTs | numOfCusts | numOfCooks | numOfManagers | numOfWaiters | numOfSeats
  | numOfInitFood | numOfInitInven
  | restaurantSeat | seatLock | seatCV | tables | inventory | inventoryLock | foodName | cash
  | foodPrice | customerSeat | custTableNum
  | custLineLock | orderTakerLock | custWaitingCV | orderTakerCV | custLineLength | otStatus
  | unpackedFood | custStatus | otService | packages | managerStatus
  | foodTableLock | foodCount
  | custManagerLock | custManagerCV | seatCustLock | seatCustCV | customerStatus | managerCustNum
  | custWaiterCV | waiterService | toGoLock | toGoCV | eatInLock | eatInCV
  | waiterLock | packageLock | waiterStatus | waiterWakeCV | workingWaiterCount
  | cookDoing | cookRequest | cookStatus | cookRequestLock | cookWaitCV
deriving DecidableEq

namespace Variable

/-- Integers and pointers take one word, arrays one for each entry. -/
def words : Variable → ℕ
  | .tables => maxSeats
  | .inventory | .foodPrice | .foodCount => numOfCookFood
  | .customerSeat | .custTableNum | .custStatus | .customerStatus | .waiterService => maxCusts
  | .otStatus | .otService => maxOTs
  | .waiterStatus => maxWaiters
  | .cookDoing | .cookRequest | .cookStatus => maxCooks
  | _ => 1

def declared : List Variable :=
  [.numOfOTs, .numOfCusts, .numOfCooks, .numOfManagers, .numOfWaiters, .numOfSeats,
    .numOfInitFood, .numOfInitInven,
    .restaurantSeat, .seatLock, .seatCV, .tables, .inventory, .inventoryLock, .foodName, .cash,
    .foodPrice, .customerSeat, .custTableNum,
    .custLineLock, .orderTakerLock, .custWaitingCV, .orderTakerCV, .custLineLength, .otStatus,
    .unpackedFood, .custStatus, .otService, .packages, .managerStatus,
    .foodTableLock, .foodCount,
    .custManagerLock, .custManagerCV, .seatCustLock, .seatCustCV, .customerStatus,
    .managerCustNum,
    .custWaiterCV, .waiterService, .toGoLock, .toGoCV, .eatInLock, .eatInCV,
    .waiterLock, .packageLock, .waiterStatus, .waiterWakeCV, .workingWaiterCount,
    .cookDoing, .cookRequest, .cookStatus, .cookRequestLock, .cookWaitCV]

def address (v : Variable) : ℕ := ((declared.takeWhile (· ≠ v)).map words).sum

theorem mem_declared (v : Variable) : v ∈ declared := by cases v <;> decide

theorem apart (v w : Variable) :
    v = w ∨ v.address + v.words ≤ w.address ∨ w.address + w.words ≤ v.address := by
  have hall : ∀ v ∈ declared, ∀ w ∈ declared,
      v = w ∨ v.address + v.words ≤ w.address ∨ w.address + w.words ≤ v.address := by
    decide +kernel
  exact hall v v.mem_declared w w.mem_declared

/-- Within the arrays, an entry is no entry of anything else. -/
theorem address_inj {v w : Variable} {i j : ℕ} (hi : i < v.words) (hj : j < w.words)
    (h : v.address + i = w.address + j) : v = w ∧ i = j := by
  rcases apart v w with rfl | hle | hle
  · exact ⟨rfl, Nat.add_left_cancel h⟩
  · omega
  · omega

end Variable

/-! ## Memory -/

structure Memory where
  word : ℕ → ℤ

namespace Memory

def load (mem : Memory) (v : Variable) (i : ℕ) : ℤ := mem.word (v.address + i)

def store (mem : Memory) (v : Variable) (i : ℕ) (x : ℤ) : Memory :=
  ⟨Function.update mem.word (v.address + i) x⟩

/-- The loop that sets all entries. -/
def fill (mem : Memory) (v : Variable) (x : ℤ) : Memory :=
  (List.range v.words).foldl (fun mem i => mem.store v i x) mem

variable {mem : Memory} {v w : Variable} {i j : ℕ} {x : ℤ}

theorem load_store_self : (mem.store v i x).load v i = x := Function.update_self ..

/-- An entry is kept when another one is set, within the arrays. -/
theorem load_store_of_ne (hi : i < v.words) (hj : j < w.words) (hne : ¬ (w = v ∧ j = i)) :
    (mem.store v i x).load w j = mem.load w j :=
  Function.update_of_ne (fun h => hne (Variable.address_inj hj hi h)) ..

theorem load_fill (hj : j < w.words) :
    (mem.fill v x).load w j = if w = v then x else mem.load w j := by
  have hprev : ∀ m ≤ v.words,
      ((List.range m).foldl (fun mem i => mem.store v i x) mem).load w j =
        if w = v ∧ j < m then x else mem.load w j := by
    intro m hm
    induction m with
    | zero => simp
    | succ m ih =>
        rw [List.range_succ, List.foldl_append]
        show (Memory.store _ v m x).load w j = _
        by_cases heq : w = v ∧ j = m
        · obtain ⟨rfl, rfl⟩ := heq
          rw [load_store_self, if_pos ⟨rfl, Nat.lt_succ_self j⟩]
        · rw [load_store_of_ne (by omega) hj heq, ih (by omega)]
          congr 1
          apply propext
          constructor
          · rintro ⟨rfl, hlt⟩
            exact ⟨rfl, by omega⟩
          · rintro ⟨rfl, hlt⟩
            have hne : j ≠ m := fun hjm => heq ⟨rfl, hjm⟩
            exact ⟨rfl, by omega⟩
  rw [fill, hprev v.words (le_refl _)]
  by_cases hwv : w = v
  · subst hwv
    rw [if_pos ⟨rfl, hj⟩, if_pos rfl]
  · rw [if_neg fun h => hwv h.1, if_neg hwv]

end Memory

/-! ## What is in it -/

section Content

variable {n : Size} {α : Type*} {m : ℕ}

def OTStatus.code : OTStatus → ℤ
  | .available => 0
  | .busy => 1
  | .calling => 2

def CustomerStatus.code : CustomerStatus → ℤ
  | .preOrdering => -1
  | .waitingForSeat => 0
  | .seated => 1

def WorkStatus.code : WorkStatus → ℤ
  | .busy => 0
  | .free => 1

/-- -1 stands for nobody. -/
def code (x : Option (Fin m)) : ℤ := x.elim (-1) fun i => i.val

/-- Entries of nobody keep what they have been set to. -/
def entry (f : Fin m → α) (code : α → ℤ) (unused : ℤ) (i : ℕ) : Option ℤ :=
  some (if h : i < m then code (f ⟨i, h⟩) else unused)

/-- The variables, as far as they are of interest. `Packages` is on the heap. -/
def content (d : Data n) : Variable → ℕ → Option ℤ
  | .numOfOTs, _ => some n.ots
  | .numOfCusts, _ => some n.custs
  | .numOfCooks, _ => some n.cooks
  | .numOfWaiters, _ => some n.waiters
  | .numOfSeats, _ => some n.seats
  | .custLineLength, _ => some d.line.custLineLength
  | .otStatus, i => entry d.line.otStatus OTStatus.code 1 i
  | .otService, i => entry d.orders.otService code (-1) i
  | .unpackedFood, _ => some d.orders.unpackedFood
  | .inventory, i => entry d.stock.inventory id 0 i
  | .foodCount, i => entry d.stock.foodCount id 0 i
  | .cookDoing, i => entry d.kitchen.cookDoing code (-1) i
  | .cookRequest, i => entry d.kitchen.cookRequest code (-1) i
  | .cookStatus, i => entry d.kitchen.cookStatus WorkStatus.code 1 i
  | .customerStatus, i => entry d.seating.customerStatus CustomerStatus.code (-1) i
  | .custTableNum, i => entry d.seating.custTableNum code (-1) i
  | .customerSeat, i => entry d.seating.customerSeat code (-1) i
  | .tables, i => entry d.seating.tables id 0 i
  | .waiterStatus, i => entry d.service.waiterStatus WorkStatus.code 1 i
  | .waiterService, i => entry d.service.waiterService code (-1) i
  | .workingWaiterCount, _ => some d.service.workingWaiterCount
  | .cash, _ => some d.office.cash
  | .managerStatus, _ => some d.office.managerStatus
  | .managerCustNum, _ => d.office.managerCustNum.map fun c => c.val
  | _, _ => none

/-- The memory is that of the tables. -/
def Represents (mem : Memory) (d : Data n) : Prop :=
  ∀ v i, i < v.words → ∀ x, content d v i = some x → mem.load v i = x

/-- **One entry is set in the memory as in the tables.** -/
theorem Represents.store {mem : Memory} {d d' : Data n} (h : Represents mem d) {v : Variable}
    {i : ℕ} {x : ℤ} (hi : i < v.words) (hx : content d' v i = some x)
    (hsame : ∀ w j, ¬ (w = v ∧ j = i) → content d' w j = content d w j) :
    Represents (mem.store v i x) d' := by
  intro w j hj y hy
  by_cases heq : w = v ∧ j = i
  · obtain ⟨rfl, rfl⟩ := heq
    rw [Memory.load_store_self]
    rw [hx] at hy
    exact Option.some.inj hy
  · rw [Memory.load_store_of_ne hi hj heq]
    rw [hsame w j heq] at hy
    exact h w j hj y hy

theorem entry_at (f : Fin m → α) (code : α → ℤ) (unused : ℤ) (i : Fin m) :
    entry f code unused i = some (code (f i)) := by
  rw [entry, dif_pos i.isLt]

theorem entry_self (f : Fin m → α) (code : α → ℤ) (unused : ℤ) (i : Fin m) (a : α) :
    entry (Function.update f i a) code unused i = some (code a) := by
  rw [entry_at, Function.update_self]

theorem entry_of_ne (f : Fin m → α) (code : α → ℤ) (unused : ℤ) {i : Fin m} {j : ℕ} (a : α)
    (hne : j ≠ i) : entry (Function.update f i a) code unused j = entry f code unused j := by
  unfold entry
  split
  · rename_i h
    rw [Function.update_of_ne fun heq => hne (congrArg Fin.val heq)]
  · rfl

end Content

/-! ## The code -/

/-- What becomes of the stock when a cook makes a unit. -/
def Stock.cooked (stock : Stock) (i : CookFood) : Stock :=
  ⟨Function.update stock.inventory i (stock.inventory i - 1),
    Function.update stock.foodCount i (increment (stock.foodCount i))⟩

namespace Memory

/-- What `initRestaurant` sets, but for pointers. The loop over `tables` ends at
`RestaurantSeat`, which is 0 when it is reached. -/
def assignments (seat cust ot cook waiter icash food inventory : ℤ) : List (Variable × ℤ) :=
  [(.numOfOTs, ot), (.numOfCusts, cust), (.numOfCooks, cook), (.numOfManagers, 1),
    (.numOfWaiters, waiter), (.numOfSeats, seat), (.numOfInitInven, inventory),
    (.numOfInitFood, food), (.cash, icash), (.restaurantSeat, 0),
    (.inventory, inventory), (.foodCount, food), (.foodPrice, 3), (.restaurantSeat, maxSeats),
    (.custLineLength, 0), (.otStatus, 1), (.otService, -1), (.customerSeat, -1),
    (.unpackedFood, 0), (.custStatus, 0), (.waiterService, -1), (.waiterStatus, 1),
    (.workingWaiterCount, waiter), (.cookDoing, -1), (.cookRequest, -1), (.cookStatus, 1),
    (.custTableNum, -1), (.customerStatus, -1)]

/-- `initRestaurant`. Everything is 0 before. -/
def init (seat cust ot cook waiter icash food inventory : ℤ) : Memory :=
  (assignments seat cust ot cook waiter icash food inventory).foldl
    (fun mem a => mem.fill a.1 a.2) ⟨fun _ => 0⟩

theorem load_foldl {w : Variable} {j : ℕ} (hj : j < w.words) (assignments : List (Variable × ℤ))
    (mem : Memory) : (assignments.foldl (fun mem a => mem.fill a.1 a.2) mem).load w j =
      assignments.foldl (fun x a => if w = a.1 then a.2 else x) (mem.load w j) := by
  induction assignments generalizing mem with
  | nil => rfl
  | cons a rest ih => rw [List.foldl_cons, ih, load_fill hj, List.foldl_cons]

/-- The manager looks for a table. -/
def freeTable (mem : Memory) : Option ℕ :=
  (List.range (mem.load .numOfSeats 0).toNat).find? fun t => mem.load .tables t = 0

/-- The manager gives the table `t` to the customer `i`. -/
def assign (mem : Memory) (i t : ℕ) : Memory :=
  ((mem.store .custTableNum i t).store .customerSeat i t).store .tables t 1

def seat (mem : Memory) (i : ℕ) : Memory :=
  match mem.freeTable with
  | some t => mem.assign i t
  | none => mem

/-- A cook takes a unit from the inventory and puts it on the food table. -/
def cook (mem : Memory) (i : ℕ) : Memory :=
  let mem := mem.store .inventory i (mem.load .inventory i - 1)
  mem.store .foodCount i (increment (mem.load .foodCount i))

end Memory

/-! ## Within the arrays -/

section Represents

variable {n : Size} {mem : Memory} {d : Data n}

theorem Size.within (n : Size) :
    n.seats ≤ maxSeats ∧ n.custs ≤ maxCusts ∧ n.ots ≤ maxOTs := by
  have h := n.fits
  simp only [Bool.and_eq_true, decide_eq_true_eq] at h
  exact ⟨h.1.1.1.1, h.1.1.1.2, h.1.1.2⟩

/-- What is set in the beginning. -/
theorem represents_init (cash : ℤ) (food inventory : ℕ) :
    Represents (.init n.seats n.custs n.ots n.cooks n.waiters cash food inventory)
      (initRestaurant n cash food inventory) := by
  intro v i hi x hx
  rw [Memory.init, Memory.load_foldl hi]
  cases v with
  | inventory | foodCount =>
      simp only [content, entry, initRestaurant, id, dite_eq_ite, Option.some.injEq] at hx
      rw [if_pos (show i < numOfCookFood from hi)] at hx
      exact hx
  | _ =>
      simp only [content, entry, initRestaurant, Option.map_none, reduceCtorEq,
        Option.some.injEq, OTStatus.code, CustomerStatus.code, WorkStatus.code, code,
        Option.elim_none, ite_self, dite_eq_ite, id] at hx
      all_goals exact hx

theorem Represents.freeTable (h : Represents mem d) :
    mem.freeTable = (freeTable d).map Fin.val := by
  have hseats : mem.load .numOfSeats 0 = n.seats := h .numOfSeats 0 Nat.zero_lt_one _ rfl
  have htable : ∀ t : Fin n.seats, mem.load .tables t = d.seating.tables t := by
    intro t
    exact h .tables t (Nat.lt_of_lt_of_le t.isLt n.within.1) _ (entry_at _ _ _ t)
  rw [Memory.freeTable, hseats, Int.toNat_natCast, ← List.map_coe_finRange_eq_range, List.find?_map]
  congr 2
  funext t
  show decide (mem.load .tables t = 0) = _
  rw [htable]

/-- A customer looks at all entries of `OTStatus`. Those of no order taker are 1. -/
theorem Represents.find_otStatus (h : Represents mem d) {status : OTStatus} (hne : status ≠ .busy) :
    ((List.range maxOTs).find? fun i => mem.load .otStatus i = status.code) =
      ((List.finRange n.ots).find? fun i => d.line.otStatus i = status).map Fin.val := by
  have hots := n.within.2.2
  have hload : ∀ i < maxOTs, some (mem.load .otStatus i) = entry d.line.otStatus OTStatus.code 1 i :=
    fun i hi => congrArg some (h .otStatus i hi _ rfl)
  have hunused : ∀ i < maxOTs - n.ots, mem.load .otStatus (n.ots + i) ≠ status.code := by
    intro i hi
    have hentry := hload (n.ots + i) (by omega)
    rw [entry, dif_neg (by omega)] at hentry
    rw [Option.some.inj hentry]
    cases status with
    | busy => exact absurd rfl hne
    | available | calling => decide
  have hused : ∀ i : Fin n.ots, mem.load .otStatus i = (d.line.otStatus i).code := by
    intro i
    have hentry := hload i (Nat.lt_of_lt_of_le i.isLt hots)
    rw [entry_at] at hentry
    exact Option.some.inj hentry
  have hcode : ∀ s : OTStatus, s.code = status.code ↔ s = status := by
    intro s
    cases s <;> cases status <;> decide
  have hrest : ((List.range (maxOTs - n.ots)).map (n.ots + ·)).find?
      (fun i => mem.load .otStatus i = status.code) = none := by
    refine List.find?_eq_none.mpr fun i hi => ?_
    obtain ⟨j, hj, rfl⟩ := List.mem_map.mp hi
    rw [decide_eq_true_eq]
    exact hunused j (List.mem_range.mp hj)
  rw [show maxOTs = n.ots + (maxOTs - n.ots) by omega, List.range_add, List.find?_append, hrest,
    Option.or_none, ← List.map_coe_finRange_eq_range, List.find?_map]
  congr 2
  funext i
  show decide (mem.load .otStatus i = status.code) = _
  rw [hused]
  exact decide_eq_decide.mpr (hcode _)

/-- **A customer is seated in the memory as in the tables.** -/
theorem Represents.seat (h : Represents mem d) (c : Fin n.custs) :
    Represents (mem.seat c) (match Restaurant.freeTable d with
      | some t => ((d.setCustTableNum c t).setCustomerSeat c t).setTable t 1
      | none => d) := by
  unfold Memory.seat
  rw [h.freeTable]
  cases Restaurant.freeTable d with
  | none => exact h
  | some t =>
      have hc : c.val < maxCusts := Nat.lt_of_lt_of_le c.isLt n.within.2.1
      have ht : t.val < maxSeats := Nat.lt_of_lt_of_le t.isLt n.within.1
      have htableNum : Represents (mem.store .custTableNum c t) (d.setCustTableNum c t) :=
        h.store hc (entry_self _ _ _ c (some t)) fun w j hne => by
          cases w with
          | custTableNum => exact entry_of_ne _ _ _ _ fun heq => hne ⟨rfl, heq⟩
          | _ => rfl
      have hseat : Represents ((mem.store .custTableNum c t).store .customerSeat c t)
          ((d.setCustTableNum c t).setCustomerSeat c t) :=
        htableNum.store hc (entry_self _ _ _ c (some t)) fun w j hne => by
          cases w with
          | customerSeat => exact entry_of_ne _ _ _ _ fun heq => hne ⟨rfl, heq⟩
          | _ => rfl
      exact hseat.store ht (entry_self _ _ _ t 1) fun w j hne => by
        cases w with
        | tables => exact entry_of_ne _ _ _ _ fun heq => hne ⟨rfl, heq⟩
        | _ => rfl

/-- **A unit is made in the memory as in the tables.** -/
theorem Represents.cook (h : Represents mem d) (i : CookFood) :
    Represents (mem.cook i) { d with stock := d.stock.cooked i } := by
  have hi : i.val < numOfCookFood := i.isLt
  have htook : Represents (mem.store .inventory i (mem.load .inventory i - 1))
      (d.setInventory (Function.update d.stock.inventory i (d.stock.inventory i - 1))) := by
    rw [h .inventory i hi _ (entry_at _ _ _ i)]
    refine h.store hi (entry_self _ id 0 i _) fun w j hne => ?_
    cases w with
    | inventory => exact entry_of_ne _ _ _ _ fun heq => hne ⟨rfl, heq⟩
    | _ => rfl
  simp only [Memory.cook]
  rw [htook .foodCount i hi _ (entry_at _ _ _ i)]
  refine htook.store hi (entry_self _ id 0 i _) fun w j hne => ?_
  cases w with
  | foodCount => exact entry_of_ne _ _ _ _ fun heq => hne ⟨rfl, heq⟩
  | _ => rfl

end Represents

end Nachos.Restaurant
