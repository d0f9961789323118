import Nachos.Restaurant.State

/-!
# The code of the restaurant

`SimulateCustomer`, `SimulateOrdertaker`, `SimulateCook`, `SimulateWaiter` and
`SimulateManager`, from call to call. Nothing else can happen between two calls of a thread,
so what it does there to the variables is one step. A point stands for the next call, with
the local variables that are used later.
-/

namespace Nachos.Restaurant

open Nachos.Lib Nachos.Threads

variable (n : Size)

/-- What the threads do to the variables, as far as it is of interest. -/
inductive Event where
  /-- `addPackage`, by a customer at an order taker, or at nobody. -/
  | ordered (c : Fin n.custs) (myOT : Option (Fin n.ots))
  /-- An order taker has registered the order. -/
  | accepted (o : Fin n.ots) (c : Fin n.custs)
  /-- `getFood`. -/
  | packed (o : Fin n.ots) (c : Fin n.custs) (units : CookFood → ℤ)
  | marked (c : Fin n.custs) (status : PackageStatus)
  /-- `Inventory[i]--` by a cook. -/
  | took (k : Fin n.cooks) (i : CookFood)
  /-- `FoodCount[i]++` by a cook. -/
  | cooked (k : Fin n.cooks) (i : CookFood)
  | refilled
  /-- The manager finds a table for a customer. -/
  | assigned (c : Fin n.custs) (t : Fin n.seats)
  /-- A customer leaves its table. -/
  | left (c : Fin n.custs) (t : Fin n.seats)

/-- What `rand` returns between two calls. -/
structure Rand where
  times : ℕ
  order : Fin 6 → Fin 3

/-- What a thread with its own points does next. -/
abbrev Act (P : Type) :=
  Option (Action (Person n) Empty (LockName n) (ConditionName n) P (Data n) (Event n))

variable {n}

namespace Data

variable (d : Data n)

def setOTStatus (o : Fin n.ots) (status : OTStatus) : Data n :=
  { d with line.otStatus := Function.update d.line.otStatus o status }

def setPackage (c : Fin n.custs) (package : Package n) : Data n :=
  { d with orders.packages := Function.update d.orders.packages c package }

def setFoodCount (foodCount : CookFood → ℤ) : Data n :=
  { d with stock.foodCount := foodCount }

def setInventory (inventory : CookFood → ℤ) : Data n :=
  { d with stock.inventory := inventory }

def setCookRequest (k : Fin n.cooks) (i : CookFood) : Data n :=
  { d with kitchen.cookRequest := Function.update d.kitchen.cookRequest k (some i) }

def setCustomerStatus (c : Fin n.custs) (status : CustomerStatus) : Data n :=
  { d with seating.customerStatus := Function.update d.seating.customerStatus c status }

def setCustTableNum (c : Fin n.custs) (t : Fin n.seats) : Data n :=
  { d with seating.custTableNum := Function.update d.seating.custTableNum c (some t) }

def setCustomerSeat (c : Fin n.custs) (t : Fin n.seats) : Data n :=
  { d with seating.customerSeat := Function.update d.seating.customerSeat c (some t) }

def setTable (t : Fin n.seats) (value : ℤ) : Data n :=
  { d with seating.tables := Function.update d.seating.tables t value }

def setWaiterService (c : Fin n.custs) (w : Fin n.waiters) : Data n :=
  { d with service.waiterService := Function.update d.service.waiterService c (some w) }

end Data

/-! ## Customers -/

variable (n) in
inductive CustomerPoint where
  | entering
  | inLine
  | joining
  /-- Behind the wait in the line. -/
  | called
  /-- `MyOT` is set; -2 is `none`. -/
  | chosen (myOT : Option (Fin n.ots))
  | leftLine (myOT : Option (Fin n.ots))
  | ordering (myOT : Option (Fin n.ots))
  | ordered (myOT : Option (Fin n.ots)) (choice : Choice)
  | signalled (myOT : Option (Fin n.ots)) (choice : Choice)
  | answered (myOT : Option (Fin n.ots)) (choice : Choice)
  | toGo
  | toGoHeld
  | wantsSeat
  /-- `CustomerStatus` is set. -/
  | announced
  | seatHeld
  /-- Behind the wait for a seat. -/
  | seatWaited
  | hungry
  | eatInHeld
  | fed
  | eating (times : ℕ)
  | leaving
  | left
  | gone
deriving DecidableEq

section Customer

/-- `OrderTakerLock[MyOT]`, or `CustManagerLock`. -/
def orderLock : Option (Fin n.ots) → LockName n
  | some o => .orderTaker o
  | none => .custManager

/-- `OrderTakerCV[MyOT]`, or `CustManagerCV`. -/
def orderCV : Option (Fin n.ots) → ConditionName n
  | some o => .orderTaker o
  | none => .custManager

/-- `randOrder`. -/
def Rand.randOrder (a : Rand) (i : Fin 6) : ℤ :=
  if a.order i = 2 then 1 else (a.order i).val

def Rand.choice (a : Rand) : Choice :=
  if a.randOrder 5 = 0 then .toGo else .eatIn

/-- Giving the order. For `MyOT` -2 the first line writes in front of `OTService`, where
there is no variable of the restaurant. -/
def giveOrder (c : Fin n.custs) (myOT : Option (Fin n.ots)) (d : Data n) (a : Rand) : Data n :=
  let d := d.setPackage c (.addPackage (fun i => a.randOrder (Fin.castSucc i)) a.choice c)
  match myOT with
  | some o => { d with orders.otService := Function.update d.orders.otService o (some c) }
  | none => { d with office.managerCustNum := some c }

/-- `SimulateCustomer`. It looks at all entries of `OTStatus`; those that are of no order taker
are 1. -/
def simulateCustomer (c : Fin n.custs) (d : Data n) (a : Rand) :
    CustomerPoint n → Act n (CustomerPoint n)
  | .entering => some (.call (.acquire .custLine) .inLine)
  | .inLine =>
      match (List.finRange n.ots).find? fun i => d.line.otStatus i = .available with
      | some i => some (.go (.chosen (some i)) (d.setOTStatus i .busy) [])
      | none => some (.go .joining
          { d with line.custLineLength := d.line.custLineLength + 1 } [])
  | .joining => some (.call (.wait .custWaiting (some .custLine)) .called)
  | .called =>
      match (List.finRange n.ots).find? fun i => d.line.otStatus i = .calling with
      | some i => some (.go (.chosen (some i)) (d.setOTStatus i .busy) [])
      | none => some (.go (.chosen none) d [])
  | .chosen myOT => some (.call (.release .custLine) (.leftLine myOT))
  | .leftLine myOT => some (.call (.acquire (orderLock myOT)) (.ordering myOT))
  | .ordering myOT => some (.go (.ordered myOT a.choice) (giveOrder c myOT d a)
      [.ordered c myOT, .marked c .notReady])
  | .ordered myOT choice =>
      some (.call (.signal (orderCV myOT) (some (orderLock myOT))) (.signalled myOT choice))
  | .signalled myOT choice =>
      some (.call (.wait (orderCV myOT) (some (orderLock myOT))) (.answered myOT choice))
  | .answered myOT choice => some (.call (.release (orderLock myOT))
      (if choice = .toGo then
        if (d.orders.packages c).status = .done then .gone else .toGo
      else .wantsSeat))
  | .toGo => some (.call (.acquire .toGo) .toGoHeld)
  | .toGoHeld =>
      if (d.orders.packages c).status = .done then some (.call (.release .toGo) .gone)
      else some (.call (.wait .toGo (some .toGo)) .toGoHeld)
  | .wantsSeat => some (.go .announced (d.setCustomerStatus c .waitingForSeat) [])
  | .announced => some (.call (.acquire (.seatCust c)) .seatHeld)
  | .seatHeld => some (.call (.wait (.seatCust c) (some (.seatCust c))) .seatWaited)
  | .seatWaited =>
      match d.seating.custTableNum c with
      | none => some (.call (.wait (.seatCust c) (some (.seatCust c))) .seatWaited)
      | some _ => some (.call (.release (.seatCust c)) .hungry)
  | .hungry => some (.call (.acquire .eatIn) .eatInHeld)
  | .eatInHeld =>
      if (d.orders.packages c).status = .serve then
        match d.service.waiterService c with
        | some w => some (.call (.signal (.custWaiter w) (some .eatIn)) .fed)
        | none => none
      else some (.call (.wait .eatIn (some .eatIn)) .eatInHeld)
  | .fed => some (.call (.release .eatIn) (.eating (a.times % 5)))
  | .eating (times + 1) => some (.call .yield (.eating times))
  | .eating 0 => some (.call (.acquire .seat) .leaving)
  | .leaving =>
      match d.seating.customerSeat c with
      | some t => some (.go .left (d.setTable t 0) [.left c t])
      | none => none
  | .left => some (.call (.release .seat) .gone)
  | .gone => some (.call .finish .gone)

end Customer

/-! ## Order takers -/

variable (n) in
inductive OrdertakerPoint where
  | working
  | lineHeld
  /-- Somebody in the line has been woken. -/
  | called
  | foodHeld
  | foodTaken
  | packing
  /-- The package is to go. -/
  | handing (myPack : Fin n.custs)
  | handingHeld (myPack : Fin n.custs)
  | handed
  | handedOver
  | packedToGo
  | packed
  | taking
  | takingHeld
  | waiting
  /-- Behind the wait for an order. -/
  | woken
  | accepting (myCUST : Fin n.custs)
  | accepted
  | answering
  | answered
deriving DecidableEq

section Ordertaker

/-- The order that is packed next. -/
def findPack (d : Data n) : Option (Fin n.custs) :=
  (List.finRange n.custs).find? fun i =>
    (d.orders.packages i).status = .notReady ∧
      (d.orders.packages i).enoughFood d.stock.foodCount = true

/-- `getFood` and `setOT`. -/
def pack (o : Fin n.ots) (i : Fin n.custs) (d : Data n) : Data n :=
  let package := d.orders.packages i
  (d.setFoodCount (package.getFood d.stock.foodCount)).setPackage i (package.setOT o)

/-- `setStatus`. -/
def mark (i : Fin n.custs) (status : PackageStatus) (d : Data n) : Data n :=
  d.setPackage i ((d.orders.packages i).setStatus status)

def addUnpacked (d : Data n) (count : ℤ) : Data n :=
  { d with orders.unpackedFood := d.orders.unpackedFood + count }

/-- `SimulateOrdertaker`. -/
def simulateOrdertaker (o : Fin n.ots) (d : Data n) :
    OrdertakerPoint n → Act n (OrdertakerPoint n)
  | .working => some (.call (.acquire .custLine) .lineHeld)
  | .lineHeld =>
      if 0 < d.line.custLineLength then
        some (.call (.signal .custWaiting (some .custLine)) .called)
      else if 0 < d.orders.unpackedFood then some (.call (.acquire .foodTable) .foodHeld)
      else some (.go .taking (d.setOTStatus o .available) [])
  | .called => some (.go .taking { d.setOTStatus o .calling with
      line.custLineLength := d.line.custLineLength - 1 } [])
  | .foodHeld => some (.go .foodTaken (d.setOTStatus o .busy) [])
  | .foodTaken => some (.call (.release .custLine) .packing)
  | .packing =>
      if d.orders.unpackedFood < 1 then some (.call (.release .foodTable) .working)
      else
        match findPack d with
        | some i =>
            let units := (d.orders.packages i).units
            let d := addUnpacked (pack o i d) (-1)
            if (d.orders.packages i).choice = .toGo then
              some (.go (.handing i) d [.packed o i units])
            else some (.go .packed ((mark i .ready d).setOTStatus o .available)
              [.packed o i units, .marked i .ready])
        | none => some (.go .packed (d.setOTStatus o .available) [])
  | .handing myPack => some (.call (.acquire .toGo) (.handingHeld myPack))
  | .handingHeld myPack => some (.go .handed (mark myPack .done d) [.marked myPack .done])
  | .handed => some (.call (.broadcast .toGo (some .toGo)) .handedOver)
  | .handedOver => some (.call (.release .toGo) .packedToGo)
  | .packedToGo => some (.go .packed (d.setOTStatus o .available) [])
  | .packed => some (.call (.release .foodTable) .working)
  | .taking => some (.call (.acquire (.orderTaker o)) .takingHeld)
  | .takingHeld => some (.call (.release .custLine) .waiting)
  | .waiting => some (.call (.wait (.orderTaker o) (some (.orderTaker o))) .woken)
  | .woken =>
      match d.orders.otService o with
      | some c => some (.call (.acquire .foodTable) (.accepting c))
      | none => none
  | .accepting myCUST =>
      let package := d.orders.packages myCUST
      if package.choice ≠ .eatIn ∧ package.enoughFood d.stock.foodCount = true ∧
          package.choice = .toGo then
        some (.go .accepted (mark myCUST .done (pack o myCUST d))
          [.accepted o myCUST, .packed o myCUST package.units, .marked myCUST .done])
      else some (.go .accepted (addUnpacked (mark myCUST .notReady d) 1)
        [.accepted o myCUST, .marked myCUST .notReady])
  | .accepted => some (.call (.release .foodTable) .answering)
  | .answering => some (.call (.signal (.orderTaker o) (some (.orderTaker o))) .answered)
  | .answered => some (.call (.release (.orderTaker o)) .working)

end Ordertaker

/-! ## Cooks -/

inductive CookPoint where
  | working
  | requestHeld
  | resting
  | returned
  | toCook
  | fetching
  | fetchingHeld
  | fetched
  | nothing
  | stopping
  | stoppingHeld
  | cooking (times : ℕ)
  | serving
  | served
deriving DecidableEq

section Cook

/-- There is nothing to do. -/
def takeBreak (k : Fin n.cooks) (d : Data n) : Data n :=
  { d with
    kitchen.cookStatus := Function.update d.kitchen.cookStatus k .free
    kitchen.cookDoing := Function.update d.kitchen.cookDoing k none
    kitchen.cookRequest := Function.update d.kitchen.cookRequest k none }

/-- `SimulateCook`. -/
def simulateCook (k : Fin n.cooks) (d : Data n) (a : Rand) : CookPoint → Act n CookPoint
  | .working => some (.call (.acquire .cookRequest) .requestHeld)
  | .requestHeld =>
      match d.kitchen.cookRequest k with
      | none => some (.go .resting (takeBreak k d) [])
      | some i => some (.go .toCook { d with
          kitchen.cookDoing := Function.update d.kitchen.cookDoing k (some i)
          kitchen.cookStatus := Function.update d.kitchen.cookStatus k .busy } [])
  | .resting => some (.call (.wait (.cookWait k) (some .cookRequest)) .returned)
  | .returned => some (.call (.release .cookRequest) .working)
  | .toCook => some (.call (.release .cookRequest) .fetching)
  | .fetching => some (.call (.acquire .inventory) .fetchingHeld)
  | .fetchingHeld =>
      match d.kitchen.cookDoing k with
      | none => none
      | some i =>
          if 0 < d.stock.inventory i then
            some (.go .fetched (d.setInventory
              (Function.update d.stock.inventory i (d.stock.inventory i - 1))) [.took k i])
          else some (.call (.release .inventory) .nothing)
  | .fetched => some (.call (.release .inventory) (.cooking (a.times % 2)))
  | .nothing => some (.call (.acquire .cookRequest) .stopping)
  | .stopping => some (.go .stoppingHeld (takeBreak k d) [])
  | .stoppingHeld => some (.call (.wait (.cookWait k) (some .cookRequest)) .returned)
  | .cooking (times + 1) => some (.call .yield (.cooking times))
  | .cooking 0 => some (.call (.acquire .foodTable) .serving)
  | .serving =>
      match d.kitchen.cookDoing k with
      | none => none
      | some i => some (.go .served (d.setFoodCount
          (Function.update d.stock.foodCount i (increment (d.stock.foodCount i)))) [.cooked k i])
  | .served => some (.call (.release .foodTable) .working)

end Cook

/-! ## Waiters -/

variable (n) in
/-- `MyCust` keeps the customer that was served last. -/
inductive WaiterPoint where
  | working (myCust : Option (Fin n.custs))
  | packageHeld (myCust : Option (Fin n.custs))
  | resting (myCust : Option (Fin n.custs))
  | returned (myCust : Option (Fin n.custs))
  | back (myCust : Option (Fin n.custs))
  | carrying (myCust : Fin n.custs)
  | carried (myCust : Fin n.custs)
  | serving (myCust : Fin n.custs)
  | served (myCust : Fin n.custs)
  | announced (myCust : Fin n.custs)
  | awaiting (myCust : Fin n.custs)
  | taken (myCust : Fin n.custs)
deriving DecidableEq

section Waiter

/-- A package that is ready, of a customer that has found a place to sit. -/
def findReady (d : Data n) : Option (Fin n.custs) :=
  (List.finRange n.custs).find? fun i =>
    (d.orders.packages i).status = .ready ∧ d.seating.custTableNum i ≠ none

/-- `SimulateWaiter`. -/
def simulateWaiter (w : Fin n.waiters) (d : Data n) : WaiterPoint n → Act n (WaiterPoint n)
  | .working myCust => some (.call (.acquire .package) (.packageHeld myCust))
  | .packageHeld myCust =>
      -- `MyCust` is compared with -1, not set.
      let myCust := (findReady d).or myCust
      let onBreak := { d with
        service.waiterStatus := Function.update d.service.waiterStatus w .free
        service.workingWaiterCount := d.service.workingWaiterCount - 1 }
      match myCust with
      | none => some (.go (.resting none) onBreak [])
      | some i =>
          if (d.orders.packages i).status = .serve then
            some (.go (.resting (some i)) onBreak [])
          else some (.go (.carrying i) (mark i .done d) [.marked i .done])
  | .resting myCust => some (.call (.wait .waiterWake (some .package)) (.returned myCust))
  | .returned myCust => some (.go (.back myCust) { d with
      service.waiterStatus := Function.update d.service.waiterStatus w .busy
      service.workingWaiterCount := d.service.workingWaiterCount + 1 } [])
  | .back myCust => some (.call (.release .package) (.working myCust))
  | .carrying myCust => some (.call (.release .package) (.carried myCust))
  | .carried myCust => some (.call (.acquire .eatIn) (.serving myCust))
  | .serving myCust => some (.go (.served myCust) (mark myCust .serve d) [.marked myCust .serve])
  | .served myCust => some (.call (.broadcast .eatIn (some .eatIn)) (.announced myCust))
  | .announced myCust => some (.go (.awaiting myCust) (d.setWaiterService myCust w) [])
  | .awaiting myCust => some (.call (.wait (.custWaiter w) (some .eatIn)) (.taken myCust))
  | .taken myCust => some (.call (.release .eatIn) (.working (some myCust)))

end Waiter

/-! ## The manager -/

/-- Which food is to be cooked, and which no more. -/
inductive Request where
  | keep
  | cook
  | stop
deriving DecidableEq

/-- `request` and `one`. -/
abbrev Requests := CookFood → Request × Bool

variable (n) in
/-- `pFood` counts the packages that were ready. -/
inductive ManagerPoint where
  | coming (times : ℕ)
  | working
  | withdrawing (times : ℕ)
  | buying
  | bought
  | delivering
  | refilling
  | refilled
  | stocked
  | seating
  | searching (i : ℕ)
  | finding (i : Fin n.custs)
  | assigned (i : Fin n.custs) (t : Fin n.seats)
  | informed (i : Fin n.custs) (t : Fin n.seats)
  | seated (i : Fin n.custs)
  | checking
  | waking
  | woken (pFood : ℕ)
  | pausing (times : ℕ) (pFood : ℕ)
  | counting (pFood : ℕ)
  | requesting (request : CookFood → Request) (pFood : ℕ)
  | stopping (request : CookFood → Request) (pFood : ℕ)
  | choosing (i : ℕ) (requests : Requests) (pFood : ℕ)
  | telling (i : ℕ) (j : Fin n.cooks) (requests : Requests) (pFood : ℕ)
  | idle (pFood : ℕ)
  | idleHeld
  | idleWoken

section Manager

def orderLevel : ℤ := 2
def topLevel : ℤ := 5
def allInvenPrice : ℤ := 20

/-- `request`. -/
def countFood (foodCount : CookFood → ℤ) (i : CookFood) : Request :=
  if foodCount i < orderLevel then .cook else if foodCount i ≥ topLevel then .stop else .keep

/-- Cooks of food that is not to be cooked anymore are told to stop. -/
def stopCooks (request : CookFood → Request) (d : Data n) : Data n :=
  let stopped := fun j => (d.kitchen.cookRequest j).any fun i => request i = .stop
  { d with
    kitchen.cookRequest := fun j => if stopped j then none else d.kitchen.cookRequest j
    kitchen.cookStatus := fun j => if stopped j then .free else d.kitchen.cookStatus j }

/-- Whether there is a cook to do the requested food. -/
def findOne (request : CookFood → Request) (d : Data n) (i : CookFood) : Bool :=
  request i = .cook ∧ ∃ j, d.kitchen.cookRequest j = some i

def freeTable (d : Data n) : Option (Fin n.seats) :=
  (List.finRange n.seats).find? fun t => d.seating.tables t = 0

def freeCook (d : Data n) : Option (Fin n.cooks) :=
  (List.finRange n.cooks).find? fun j =>
    d.kitchen.cookStatus j = .free ∧ d.kitchen.cookRequest j = none

/-- `SimulateManager`. -/
def simulateManager (d : Data n) (a : Rand) : ManagerPoint n → Act n (ManagerPoint n)
  | .coming (times + 1) => some (.call .yield (.coming times))
  | .coming 0 => some (.go .working d [])
  | .working =>
      if ∃ i, d.stock.inventory i ≤ orderLevel then
        some (.go (if d.office.cash < allInvenPrice then .withdrawing 5 else .buying)
          { d with office.managerStatus := 0 } [])
      else some (.go .seating d [])
  | .withdrawing (times + 1) => some (.call .yield (.withdrawing times))
  | .withdrawing 0 =>
      some (.go .buying { d with office.cash := d.office.cash + allInvenPrice * 10 } [])
  | .buying => some (.call .yield .bought)
  | .bought => some (.go .delivering { d with office.cash := d.office.cash - allInvenPrice } [])
  | .delivering => some (.call (.acquire .inventory) .refilling)
  | .refilling => some (.go .refilled
      (d.setInventory fun b => wrapped (d.stock.inventory b + 10)) [.refilled])
  | .refilled => some (.call (.release .inventory) .stocked)
  | .stocked => some (.go .seating { d with office.managerStatus := 1 } [])
  | .seating => some (.call (.acquire .seat) (.searching 0))
  | .searching i =>
      if h : i < n.custs then
        if d.seating.customerStatus ⟨i, h⟩ = .waitingForSeat ∧
            d.seating.custTableNum ⟨i, h⟩ = none then
          some (.call (.acquire (.seatCust ⟨i, h⟩)) (.finding ⟨i, h⟩))
        else some (.go (.searching (i + 1)) d [])
      else some (.call (.release .seat) .checking)
  | .finding i =>
      match freeTable d with
      | some t => some (.go (.assigned i t) (d.setCustTableNum i t) [.assigned i t])
      | none => some (.go (.seated i) d [])
  -- `CustomerStatus` is compared with `SEATED`, not set.
  | .assigned i t =>
      some (.call (.signal (.seatCust i) (some (.seatCust i))) (.informed i t))
  | .informed i t => some (.go (.seated i) ((d.setCustomerSeat i t).setTable t 1) [])
  | .seated i => some (.call (.release (.seatCust i)) (.searching (i.val + 1)))
  | .checking => some (.call (.acquire .package) .waking)
  | .waking =>
      let pFood := (List.finRange n.custs).countP fun i =>
        (d.orders.packages i).status = .ready
      if 0 < pFood ∧ ∀ i, d.service.waiterStatus i ≠ .busy then
        some (.call (.broadcast .waiterWake (some .package)) (.woken pFood))
      else some (.go (.woken pFood) d [])
  | .woken pFood => some (.call (.release .package) (.pausing (a.times % 2) pFood))
  | .pausing (times + 1) pFood => some (.call .yield (.pausing times pFood))
  | .pausing 0 pFood => some (.call (.acquire .foodTable) (.counting pFood))
  | .counting pFood => some (.call (.release .foodTable)
      (.requesting (countFood d.stock.foodCount) pFood))
  | .requesting request pFood =>
      some (.call (.acquire .cookRequest) (.stopping request pFood))
  | .stopping request pFood => some (.go
      (.choosing 0 (fun i => (request i, findOne request d i)) pFood) (stopCooks request d) [])
  | .choosing i requests pFood =>
      if h : i < numOfCookFood then
        if requests ⟨i, h⟩ = (.cook, false) then
          match freeCook d with
          | some j => some (.go (.telling i j requests pFood) (d.setCookRequest j ⟨i, h⟩) [])
          | none => some (.go (.choosing (i + 1) requests pFood) d [])
        else some (.go (.choosing (i + 1) requests pFood) d [])
      else some (.call (.release .cookRequest) (.idle pFood))
  | .telling i j requests pFood =>
      some (.call (.signal (.cookWait j) (some .cookRequest)) (.choosing (i + 1) requests pFood))
  | .idle pFood =>
      if d.line.custLineLength = 0 ∧ d.orders.unpackedFood = 0 ∧ pFood = 0 then
        some (.call (.acquire .custLine) .idleHeld)
      else some (.go .working d [])
  | .idleHeld => some (.call (.wait .custWaiting (some .custLine)) .idleWoken)
  | .idleWoken => some (.call (.release .custLine) .working)

end Manager

/-! ## All of them -/

variable (n) in
inductive Point where
  | start
  /-- Those are still to be forked. -/
  | opening (staff : List (Person n))
  | ordertaker (p : OrdertakerPoint n)
  | customer (p : CustomerPoint n)
  | cook (p : CookPoint)
  | manager (p : ManagerPoint n)
  | waiter (p : WaiterPoint n)

variable (n) in
/-- In the order of `RunSimRestaurant`. -/
def staff : List (Person n) :=
  (List.finRange n.ots).map .ordertaker ++ (List.finRange n.custs).map .customer ++
    (List.finRange n.cooks).map .cook ++ [.manager] ++ (List.finRange n.waiters).map .waiter

/-- Where a thread begins. -/
def first (a : Rand) : Person n → Point n
  | .main => .opening (staff n)
  | .ordertaker _ => .ordertaker .working
  | .customer _ => .customer .entering
  | .cook _ => .cook .working
  | .manager => .manager (.coming (a.times % 5))
  | .waiter _ => .waiter (.working none)

def act (t : Person n) (p : Point n) (d : Data n) (a : Rand) : Act n (Point n) :=
  match t, p with
  | t, .start => some (.go (first a t) d [])
  | .main, .opening (t :: rest) => some (.call (.fork t) (.opening rest))
  | .main, .opening [] => some (.call .finish (.opening []))
  | .ordertaker o, .ordertaker p => (simulateOrdertaker o d p).map (.map .ordertaker)
  | .customer c, .customer p => (simulateCustomer c d a p).map (.map .customer)
  | .cook k, .cook p => (simulateCook k d a p).map (.map .cook)
  | .manager, .manager p => (simulateManager d a p).map (.map .manager)
  | .waiter w, .waiter p => (simulateWaiter w d p).map (.map .waiter)
  | _, _ => none

variable (n) in
/-- `RunSimRestaurant`. -/
def restaurant : Program (Person n) Empty (LockName n) (ConditionName n) (Point n) (Data n)
    (Event n) Rand Empty where
  start := .start
  act := act
  handler := nofun

end Nachos.Restaurant
