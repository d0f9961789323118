import Nachos.Threads.Program
import Mathlib.Data.List.FinRange

/-!
# The restaurant

What the threads of the restaurant share: the global variables that `initRestaurant` sets,
grouped by what they are for, the locks and the conditions. The numbers of customers, order
takers, cooks, waiters and seats are parameters, as far as the arrays have an entry for each
of them. Nobody checks that: with larger numbers the arrays run into each other.

`CustLineLength`, `UnpackedFood` and the counts of waiters and packages are no larger than the
number of persons, and `cash` goes up only when there is little of it. The counts of food are
integers of 32 bits.
-/

namespace Nachos.Restaurant

open Nachos.Threads

def maxSeats : ℕ := 20
def maxCusts : ℕ := 30
def maxOTs : ℕ := 5
def maxCooks : ℕ := 5
def maxWaiters : ℕ := 5

/-- `NUM_OF_SEATS`, `NUM_OF_CUSTS`, `NUM_OF_OTS`, `NUM_OF_COOKS` and `NUM_OF_WAITERS`. -/
structure Size where
  seats : ℕ
  custs : ℕ
  ots : ℕ
  cooks : ℕ
  waiters : ℕ
  /-- The arrays have so many entries. -/
  fits : (seats ≤ maxSeats && custs ≤ maxCusts && ots ≤ maxOTs && cooks ≤ maxCooks &&
    waiters ≤ maxWaiters) = true

variable (n : Size)

/-- The threads. `main` opens the restaurant. -/
inductive Person where
  | main
  | ordertaker (index : Fin n.ots)
  | customer (index : Fin n.custs)
  | cook (index : Fin n.cooks)
  | manager
  | waiter (index : Fin n.waiters)
deriving DecidableEq

/-! ## Packages -/

/-- `NUM_OF_FOOD`: soda is the last. -/
abbrev numOfFood : ℕ := 5

/-- `NUM_OF_COOK_FOOD`: the food that is kept track of. -/
abbrev numOfCookFood : ℕ := 4

abbrev CookFood := Fin numOfCookFood

/-- Package status. It is -1 before there is an order. -/
inductive PackageStatus where
  | none
  | notReady
  | ready
  | done
  | serve
deriving DecidableEq, Repr

/-- Customer choices. The choice is -1 before there is an order. -/
inductive Choice where
  | none
  | toGo
  | eatIn
deriving DecidableEq, Repr

/-- `package`. `token` and `ot` are -1 as long as there is none. -/
structure Package where
  food : Fin numOfFood → ℤ
  choice : Choice
  token : Option (Fin n.custs)
  status : PackageStatus
  ot : Option (Fin n.ots)

variable {n}

namespace Package

/-- The constructor. -/
def create : Package n := ⟨fun _ => 0, .none, none, .none, none⟩

/-- `addPackage`. -/
def addPackage (food : Fin numOfFood → ℤ) (eatinTogo : Choice) (t : Fin n.custs) : Package n :=
  ⟨food, eatinTogo, some t, .notReady, none⟩

def setStatus (p : Package n) (s : PackageStatus) : Package n := { p with status := s }

def setOT (p : Package n) (packOT : Fin n.ots) : Package n := { p with ot := some packOT }

/-- What is ordered of a food that is kept track of. -/
def units (p : Package n) (i : CookFood) : ℤ := p.food (Fin.castSucc i)

/-- `enoughFood`. -/
def enoughFood (p : Package n) (foodCount : CookFood → ℤ) : Bool :=
  ∀ i, p.units i ≤ foodCount i

/-- `getFood`: what is left on the table. -/
def getFood (p : Package n) (foodCount : CookFood → ℤ) : CookFood → ℤ :=
  fun i => foodCount i - p.units i

end Package

/-! ## Variables -/

/-- `OTStatus`: 0 if a customer may come, 1 if not, and 2 if a customer has been called. -/
inductive OTStatus where
  | available
  | busy
  | calling
deriving DecidableEq, Repr

/-- `CustomerStatus`. -/
inductive CustomerStatus where
  | preOrdering
  | waitingForSeat
  | seated
deriving DecidableEq, Repr

/-- `CookStatus` and `WaiterStatus`. -/
inductive WorkStatus where
  | busy
  | free
deriving DecidableEq, Repr

variable (n)

/-- The customers' waiting line. -/
structure Line where
  custLineLength : ℤ
  otStatus : Fin n.ots → OTStatus

/-- Orders on their way to the food table. -/
structure Orders where
  otService : Fin n.ots → Option (Fin n.custs)
  packages : Fin n.custs → Package n
  unpackedFood : ℤ

structure Stock where
  inventory : CookFood → ℤ
  foodCount : CookFood → ℤ

structure Kitchen where
  cookDoing : Fin n.cooks → Option CookFood
  cookRequest : Fin n.cooks → Option CookFood
  cookStatus : Fin n.cooks → WorkStatus

structure Seating where
  customerStatus : Fin n.custs → CustomerStatus
  custTableNum : Fin n.custs → Option (Fin n.seats)
  customerSeat : Fin n.custs → Option (Fin n.seats)
  tables : Fin n.seats → ℤ

structure Service where
  waiterStatus : Fin n.waiters → WorkStatus
  waiterService : Fin n.custs → Option (Fin n.waiters)
  workingWaiterCount : ℤ

structure Office where
  cash : ℤ
  /-- `ManagerStatus` is 0 while the manager buys things. -/
  managerStatus : ℤ
  managerCustNum : Option (Fin n.custs)

structure Data where
  line : Line n
  orders : Orders n
  stock : Stock
  kitchen : Kitchen n
  seating : Seating n
  service : Service n
  office : Office n

/-- `initRestaurant`. -/
def initRestaurant (cash : ℤ) (food inventory : ℕ) : Data n where
  line := ⟨0, fun _ => .busy⟩
  orders := ⟨fun _ => none, fun _ => .create, 0⟩
  stock := ⟨fun _ => inventory, fun _ => food⟩
  kitchen := ⟨fun _ => none, fun _ => none, fun _ => .free⟩
  seating := ⟨fun _ => .preOrdering, fun _ => none, fun _ => none, fun _ => 0⟩
  service := ⟨fun _ => .free, fun _ => none, n.waiters⟩
  office := ⟨cash, 0, none⟩

/-! ## Locks and conditions -/

inductive LockName where
  | custLine
  | orderTaker (index : Fin n.ots)
  | custManager
  | foodTable
  | toGo
  | seat
  | seatCust (index : Fin n.custs)
  | inventory
  | cookRequest
  | package
  | eatIn
deriving DecidableEq

inductive ConditionName where
  | custWaiting
  | orderTaker (index : Fin n.ots)
  | custManager
  | toGo
  | seatCust (index : Fin n.custs)
  | eatIn
  | custWaiter (index : Fin n.waiters)
  | waiterWake
  | cookWait (index : Fin n.cooks)
deriving DecidableEq

variable {n}

/-- The lock that a condition is used with. -/
def ConditionName.lock : ConditionName n → LockName n
  | .custWaiting => .custLine
  | .orderTaker index => .orderTaker index
  | .custManager => .custManager
  | .toGo => .toGo
  | .seatCust index => .seatCust index
  | .eatIn | .custWaiter _ => .eatIn
  | .waiterWake => .package
  | .cookWait _ => .cookRequest

variable (n)

abbrev Call := Op (Person n) Empty (LockName n) (ConditionName n)

end Nachos.Restaurant
