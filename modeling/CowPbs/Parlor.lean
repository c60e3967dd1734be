import Mathlib
import CowPbs.Cafe

/-!
# The ice cream parlor simulator

The threads of concurrency/2.c : main, one per machine and one per customer. A move takes
one thread over one of the stretches its loop is cut into : the stretches end at each
`sem_wait`, and also after each entry of the scan over the orders, after each loop of main
and before `order_status_checker`, so that the threads interleave there too. What a thread
does under `machine_lock` between two cuts no other thread can see in part.

Customer `c : Fin p` has the number `c + 1`. `flag == -1` is the absence of an order in
`MachinePc`, and the index `-1` of the arrays of wake-ups is `none`. `order_no_cust`,
`returned_count` and `some_ing_exh` are only printed, and are left out. `ingreadient_checker`
looks at the entry of `order_list` whose index is the number of the customer : where that
entry is not filled in, what it reads is arbitrary (`junk`).
-/

open Function Rescan

namespace CowPbs

/-- The input for `n` machines, `p` customers, `o` ice creams and `q` toppings. -/
structure Parlor (n p o q : ℕ) where
  machineStart : Fin n → ℕ
  machineEnd : Fin n → ℕ
  /-- `flavour_list` and `flavour_time`. -/
  flavours : List (String × ℕ)
  toppingList : Fin q → String
  toppingStock : Fin q → ℤ
  /-- The number of customers that fit in. -/
  k : ℕ
  /-- `cust_arrival`. -/
  arrival : Fin p → ℕ
  /-- `order_list[k].cust_no`. -/
  owner : Fin o → Fin p
  flavour : Fin o → String
  toppings : Fin o → List String
  /-- The ice creams of a customer follow the customer's own line. -/
  owner_mono : Monotone owner
  /-- A stock is a number of units, or `-1` for no limit. -/
  stock_ge : ∀ j, -1 ≤ toppingStock j
  /-- What the customers order is on the lists. -/
  flavour_listed : ∀ k, flavour k ∈ flavours.map Prod.fst
  topping_listed : ∀ k, ∀ x ∈ toppings k, ∃ j, toppingList j = x

/-- What main is about to do. -/
inductive ParlorMainPc
  /-- The test of the loop. -/
  | loop
  /-- `sem_wait(&machine_lock)` and the chain of customers. -/
  | locking
  /-- The loop over `machine_start`. -/
  | starting
  /-- The chain of free machines. -/
  | chaining
  /-- The chain of machines whose ice cream is ready. -/
  | comping
  /-- The end of `sleep(1)`. -/
  | sleeping
  /-- `close_sig = 1` and the first loop over the machines. -/
  | closing
  /-- The second loop over the machines. -/
  | closeMachines
  /-- The loop over the customers. -/
  | closeCustomers
  | done
  deriving DecidableEq

/-- Where a machine is, and its `flag`. -/
inductive MachinePc (o : ℕ)
  /-- The first `sem_wait` on `machines[i]`. -/
  | off
  /-- `machines[i]`, with no order. -/
  | idle
  /-- `machine_lock`, with no order. -/
  | lock
  /-- The loop over the orders, with `machine_lock`. -/
  | scan
  /-- After that loop, with `machine_lock` and the order `k`. -/
  | took (k : Fin o)
  /-- `machines[i]`, with the order `k`. -/
  | order (k : Fin o)
  /-- `order_comp[i]`, preparing the order `k`. -/
  | preparing (k : Fin o)
  /-- `order_status_checker`, with the order `k` done. -/
  | check (k : Fin o)
  | closed
  deriving DecidableEq

/-- Which `sem_wait` a customer is at, or how it has left. -/
inductive ParlorCustomerPc
  /-- The first `sem_wait` on `customers[c]`. -/
  | outside
  /-- `rej_customers[c]`. -/
  | waiting
  /-- The second `sem_wait` on `customers[c]`. -/
  | toCollect
  | full
  | refused
  | left
  | collected
  | closed
  deriving DecidableEq

/-- A thread. -/
inductive ParlorThread (n p : ℕ)
  | main
  | machine (i : Fin n)
  | customer (c : Fin p)
  deriving DecidableEq

/-- What a thread announces, with the second. That a machine takes an order or rejects a
customer is not printed. -/
inductive ParlorNote (n p o : ℕ)
  | takes (i : Fin n) (k : Fin o) (t : ℕ)
  | rejects (i : Fin n) (k : Fin o) (t : ℕ)
  | starts (i : Fin n) (k : Fin o) (t : ℕ)
  | completes (i : Fin n) (k : Fin o) (t : ℕ)
  | enters (c : Fin p) (t : ℕ)
  | full (c : Fin p) (t : ℕ)
  | refused (c : Fin p) (t : ℕ)
  | leaves (c : Fin p) (t : ℕ)
  | collects (c : Fin p) (t : ℕ)
  deriving DecidableEq

/-- The globals, the semaphores, and where each thread is. -/
@[ext]
structure ParlorState (n p o q : ℕ) where
  tmr : ℕ
  totalorders : ℕ
  currentCustomers : ℤ
  /-- `topping_stock`. -/
  stock : Fin q → ℤ
  ingredientOver : Bool
  closeSig : Bool
  /-- `order_list[k].order_taken_status`. -/
  taken : Fin o → Bool
  /-- `order_list[k].orderstatus`. -/
  status : Fin o → Bool
  /-- `cust[c + 1].order_completion_status`. -/
  complete : Fin p → Bool
  /-- `rejection_cust`. -/
  rejection : Fin p → Bool
  /-- `finish_time_order`. -/
  finish : Fin n → ℤ
  /-- `special_flag`. -/
  special : Fin n → Bool
  /-- `wake_up_index`. -/
  wake : Fin n → Option (Fin n)
  /-- `wake_up_order_comp`. -/
  wakeComp : Fin n → Option (Fin n)
  /-- `wake_up_index_cust`. -/
  wakeCust : Fin p → Option (Fin p)
  machineLock : ℕ
  machines : Fin n → ℕ
  orderComp : Fin n → ℕ
  customers : Fin p → ℕ
  rejCustomers : Fin p → ℕ
  main : ParlorMainPc
  pc : Fin n → MachinePc o
  cst : Fin n → ℕ
  cpc : Fin p → ParlorCustomerPc

namespace Parlor

variable {n p o q : ℕ} (parlor : Parlor n p o q)

/-- `flavour_time` of the order `k`. -/
def ftime (k : Fin o) : ℕ :=
  match giveIndex (parlor.flavours.map Prod.fst) (parlor.flavour k) with
  | some i => (parlor.flavours.map Prod.snd).getD i 0
  | none => 0

/-- `give_index` in `topping_list`. -/
def tindex (x : String) : Option (Fin q) :=
  (List.finRange q).find? fun j => parlor.toppingList j == x

/-- The toppings of the order `k`, by their index. -/
def used (k : Fin o) : List (Fin q) :=
  (parlor.toppings k).filterMap parlor.tindex

/-- The last second in which a machine works. -/
def max : ℕ :=
  Finset.univ.sup parlor.machineEnd

/-- The number of ice creams of the customer `c`. -/
def totalOrders (c : Fin p) : ℕ :=
  (Finset.univ.filter fun k => parlor.owner k = c).card

end Parlor

namespace ParlorState

variable {n p o q : ℕ} (parlor : Parlor n p o q) (s : ParlorState n p o q)

/-! ## Main -/

/-- `ingredient_exhausted_checker` : there is a limited topping, and none is left. -/
def exhausted : Bool :=
  decide ((∃ j, s.stock j ≠ -1) ∧ ∀ j, s.stock j ≠ -1 → s.stock j ≤ 0)

/-- `any_order_being_prepared` : no order is being prepared. -/
def nonePrepared : Bool :=
  decide (∀ k, s.taken k = true → s.status k = true)

/-- The test of the loop. -/
def loop : ParlorState n p o q :=
  if s.tmr ≤ parlor.max then
    { s with
      ingredientOver := s.ingredientOver || s.exhausted
      main := if s.exhausted && s.nonePrepared then .closing else .locking }
  else { s with main := .closing }

/-- `to_enter_customer` : the `no`-th customer who arrives now. -/
def toEnterCustomer : ℕ → (Fin p → Bool) → Option (Fin p) × (Fin p → Bool) :=
  Rescan.find (fun c => decide (parlor.arrival c = s.tmr)) (List.finRange p)

/-- The customers who arrive now are chained, and the first may enter. -/
def enterCustomers : ParlorState n p o q :=
  let line := (Rescan.chain (s.toEnterCustomer parlor) (p + 1) 1 fun _ => false).1
  match line.head? with
  | some c =>
    { s with
      wakeCust := Rescan.link line s.wakeCust
      customers := semPost s.customers c
      machineLock := s.machineLock - 1
      main := .starting }
  | none => { s with wakeCust := Rescan.link line s.wakeCust, main := .starting }

/-- The machines that start now are woken. -/
def startMachines : ParlorState n p o q :=
  { s with
    machines := fun i =>
      if parlor.machineStart i = s.tmr then s.machines i + 1 else s.machines i
    main := .chaining }

/-- The machine works in this second. -/
def working (i : Fin n) : Bool :=
  decide (parlor.machineStart i ≤ s.tmr ∧ s.tmr ≤ parlor.machineEnd i)

/-- The machine has no order to prepare. -/
def free (i : Fin n) : Bool :=
  decide (s.finish i < s.tmr)

/-- `free_machine` : the `no`-th machine at work that is free or was just given an order. -/
def freeMachine : ℕ → (Fin n → Bool) → Option (Fin n) × (Fin n → Bool) :=
  Rescan.find s.free ((List.finRange n).filter (s.working parlor))

/-- The free and the just assigned machines are chained, and the first is woken. -/
def wakeMachines : ParlorState n p o q :=
  let line := Rescan.chain (s.freeMachine parlor) (n + 1) 1 s.special
  match line.1.head? with
  | some i =>
    { s with
      special := line.2
      wake := Rescan.link line.1 s.wake
      machines := semPost s.machines i
      main := .comping }
  | none => { s with special := line.2, wake := Rescan.link line.1 s.wake, main := .comping }

/-- `order_comp_machine` : the `no`-th machine whose ice cream is ready now. -/
def orderCompMachine : ℕ → (Fin n → Bool) → Option (Fin n) × (Fin n → Bool) :=
  Rescan.find (fun i => decide (s.finish i = s.tmr)) (List.finRange n)

/-- The machines whose ice cream is ready are chained, and the first is woken. -/
def wakeReady : ParlorState n p o q :=
  let line := (Rescan.chain s.orderCompMachine (n + 1) 1 fun _ => false).1
  match line.head? with
  | some i =>
    { s with
      wakeComp := Rescan.link line s.wakeComp
      orderComp := semPost s.orderComp i
      main := .sleeping }
  | none => { s with wakeComp := Rescan.link line s.wakeComp, main := .sleeping }

/-- The parlor closes. -/
def close : ParlorState n p o q :=
  { s with
    ingredientOver := s.ingredientOver || s.exhausted
    closeSig := true
    machines := fun i => s.machines i + 1
    main := .closeMachines }

/-- The machines that still prepare an ice cream, or have not started, are woken. -/
def closeMachines : ParlorState n p o q :=
  { s with
    orderComp := fun i => if (s.tmr : ℤ) ≤ s.finish i then s.orderComp i + 1 else s.orderComp i
    machines := fun i =>
      if s.tmr ≤ parlor.machineStart i then s.machines i + 1 else s.machines i
    main := .closeCustomers }

/-- The customers who are in the parlor, or have not arrived, are woken. -/
def closeCustomers : ParlorState n p o q :=
  { s with
    rejCustomers := fun c => if s.complete c then s.rejCustomers c else s.rejCustomers c + 1
    customers := fun c =>
      if s.tmr ≤ parlor.arrival c then s.customers c + 1 else s.customers c
    main := .done }

/-- A move of main. -/
def mainMove : Option (ParlorState n p o q) :=
  match s.main with
  | .loop => some (s.loop parlor)
  | .locking => if 0 < s.machineLock then some (s.enterCustomers parlor) else none
  | .starting => some (s.startMachines parlor)
  | .chaining => some (s.wakeMachines parlor)
  | .comping => some s.wakeReady
  | .sleeping => some { s with tmr := s.tmr + 1, main := .loop }
  | .closing => some s.close
  | .closeMachines => some (s.closeMachines parlor)
  | .closeCustomers => some (s.closeCustomers parlor)
  | .done => none

/-! ## Machines -/

/-- The machine wakes the next one in the chain. -/
def forward (i : Fin n) : ParlorState n p o q :=
  match s.wake i with
  | some j => { s with wake := update s.wake i none, machines := semPost s.machines j }
  | none => s

/-- The machine wakes the next one whose ice cream is ready. -/
def forwardComp (i : Fin n) : ParlorState n p o q :=
  match s.wakeComp i with
  | some j =>
    { s with wakeComp := update s.wakeComp i none, orderComp := semPost s.orderComp j }
  | none => s

/-- The machine goes to `pc`. -/
def goto (i : Fin n) (pc : MachinePc o) : ParlorState n p o q :=
  { s with pc := update s.pc i pc }

/-- The entry of the orders the scan is at. -/
def entry (i : Fin n) : Option (Fin o) :=
  if h : s.cst i < o then if s.cst i < s.totalorders then some ⟨s.cst i, h⟩ else none
  else none

/-- Some topping of the order is not there. -/
def shortage (k : Fin o) : Bool :=
  (parlor.used k).any fun j => decide (s.stock j = 0 ∨ s.stock j < -1)

/-- The machine has the time to prepare the order. -/
def fits (i : Fin n) (k : Fin o) : Bool :=
  decide ((parlor.arrival (parlor.owner k) = s.tmr ∧
      (parlor.ftime k : ℤ) + 1 ≤ parlor.machineEnd i - s.tmr) ∨
    (parlor.arrival (parlor.owner k) < s.tmr ∧
      (parlor.ftime k : ℤ) ≤ parlor.machineEnd i - s.tmr))

/-- One topping is used. -/
def useTopping (stock : Fin q → ℤ) (j : Fin q) : Fin q → ℤ :=
  if stock j = -1 then stock
  else if 0 < stock j then update stock j (stock j - 1)
  else stock

/-- The machine takes the order. -/
def takeOrder (i : Fin n) (k : Fin o) : ParlorState n p o q :=
  { s with
    taken := update s.taken k true
    stock := (parlor.used k).foldl useTopping s.stock
    finish := update s.finish i
      (if parlor.arrival (parlor.owner k) = s.tmr then s.tmr + parlor.ftime k + 1
        else s.tmr + parlor.ftime k)
    special := update s.special i
      (if parlor.arrival (parlor.owner k) = s.tmr then true else s.special i)
    pc := update s.pc i (.took k)
    cst := update s.cst i (k + 1) }

/-- The machine rejects the customer. The flags it sets are those of the entry that
`order_list` points to, the first. -/
def reject (i : Fin n) (k : Fin o) : ParlorState n p o q :=
  { s with
    taken := fun l => if l.val = 0 then true else s.taken l
    status := fun l => if l.val = 0 then true else s.status l
    rejection := update s.rejection (parlor.owner k) true
    rejCustomers := semPost s.rejCustomers (parlor.owner k)
    cst := update s.cst i (k + 1) }

/-- One turn of the loop over the orders. -/
def scanEntry (i : Fin n) (k : Fin o) : ParlorState n p o q :=
  if s.complete (parlor.owner k) = false ∧ s.taken k = false then
    if s.shortage parlor k then s.reject parlor i k
    else if s.fits parlor i k then s.takeOrder parlor i k
    else { s with cst := update s.cst i (k + 1) }
  else { s with cst := update s.cst i (k + 1) }

/-- `order_status_checker`. -/
def orderStatusChecker (c : Fin p) : Bool :=
  decide (∀ k : Fin o, k < s.totalorders → parlor.owner k = c → s.status k = true)

/-- A move of machine `i`. -/
def machineMove (i : Fin n) : Option (ParlorState n p o q) :=
  let woken := { s with machines := semWait s.machines i }
  match s.pc i with
  | .off =>
    if 0 < s.machines i then some (if s.closeSig then woken.goto i .closed else woken.goto i .idle)
    else none
  | .idle =>
    if 0 < s.machines i then
      some (if s.closeSig then woken.goto i .closed
        else if s.ingredientOver then woken
        else woken.goto i .lock)
    else none
  | .lock =>
    if 0 < s.machineLock then
      some (({ s with machineLock := s.machineLock - 1 }.forward i).goto i .scan)
    else none
  | .scan =>
    match s.entry i with
    | some k => some (s.scanEntry parlor i k)
    | none => some ({ s with machineLock := s.machineLock + 1 }.goto i .idle)
  | .took k =>
    let free := { s with machineLock := s.machineLock + 1 }
    some (if parlor.arrival (parlor.owner k) = s.tmr then free.goto i (.order k)
      else (free.forward i).goto i (.preparing k))
  | .order k =>
    if 0 < s.machines i then
      some (if s.closeSig then woken.goto i .closed
        else (woken.forward i).goto i (.preparing k))
    else none
  | .preparing k =>
    if 0 < s.orderComp i then
      let done := { s with orderComp := semWait s.orderComp i }
      some (if s.closeSig then done.goto i .closed
        else ({ done with status := update s.status k true }.forwardComp i).goto i (.check k))
    else none
  | .check k =>
    let c := parlor.owner k
    some (if s.orderStatusChecker parlor c then
        { s with
          rejCustomers := semPost s.rejCustomers c
          customers := semPost s.customers c }.goto i .idle
      else s.goto i .idle)
  | .closed => none

/-! ## Customers -/

/-- The stock that `ingreadient_checker` looks at for the topping `x` of an order : that of
the topping `x` of the order whose index is the number of the customer. -/
def stockRead (junk : ℕ → ℤ) (c : Fin p) (x : ℕ) : ℤ :=
  if h : c + 1 < o then
    match (parlor.toppings ⟨c + 1, h⟩)[x]? with
    | some name => ((parlor.tindex name).map s.stock).getD (junk x)
    | none => junk x
  else junk x

/-- `ingreadient_checker` finds everything there : the customer has not left, and no stock
that it looks at is used up. -/
def ingreadientChecker (junk : ℕ → ℤ) (c : Fin p) : Bool :=
  decide (s.complete c = false ∧
    ∀ k : Fin o, k < s.totalorders → parlor.owner k = c →
      ∀ x < (parlor.toppings k).length,
        s.stockRead parlor junk c x ≠ 0 ∧ -1 ≤ s.stockRead parlor junk c x)

/-- The customer lets the next one in, or the machines. -/
def letIn (c : Fin p) : ParlorState n p o q :=
  match s.wakeCust c with
  | some d => { s with wakeCust := update s.wakeCust c none, customers := semPost s.customers d }
  | none => { s with machineLock := s.machineLock + 1 }

/-- The customer arrives. -/
def arrive (junk : ℕ → ℤ) (c : Fin p) : ParlorState n p o q :=
  let t := { s with totalorders := s.totalorders + parlor.totalOrders c }
  if s.currentCustomers = parlor.k then
    { t with complete := update s.complete c true, cpc := update s.cpc c .full }.letIn c
  else if t.ingreadientChecker parlor junk c then
    { t with
      currentCustomers := s.currentCustomers + 1
      cpc := update s.cpc c .waiting }.letIn c
  else { t with complete := update s.complete c true, cpc := update s.cpc c .refused }.letIn c

/-- The customer leaves. -/
def leave (c : Fin p) (pc : ParlorCustomerPc) : ParlorState n p o q :=
  { s with
    complete := update s.complete c true
    currentCustomers := s.currentCustomers - 1
    cpc := update s.cpc c pc }

/-- A move of customer `c`. -/
def customerMove (junk : ℕ → ℤ) (c : Fin p) : Option (ParlorState n p o q) :=
  let goto (t : ParlorState n p o q) (pc : ParlorCustomerPc) := { t with cpc := update t.cpc c pc }
  match s.cpc c with
  | .outside =>
    if 0 < s.customers c then
      let woken := { s with customers := semWait s.customers c }
      some (if s.closeSig then goto woken .closed else woken.arrive parlor junk c)
    else none
  | .waiting =>
    if 0 < s.rejCustomers c then
      let woken := { s with rejCustomers := semWait s.rejCustomers c }
      some (if s.closeSig then goto woken .closed
        else if s.rejection c then woken.leave c .left
        else goto woken .toCollect)
    else none
  | .toCollect =>
    if 0 < s.customers c then
      some ({ s with customers := semWait s.customers c }.leave c .collected)
    else none
  | .full | .refused | .left | .collected | .closed => none

/-! ## Runs -/

/-- A move of a thread. -/
def move (junk : ℕ → ℤ) : ParlorThread n p → Option (ParlorState n p o q)
  | .main => s.mainMove parlor
  | .machine i => s.machineMove parlor i
  | .customer c => s.customerMove parlor junk c

/-- What the machine announces in its move. -/
def machineNote (i : Fin n) : Option (ParlorNote n p o) :=
  match s.pc i with
  | .scan =>
    match s.entry i with
    | some k =>
      if s.complete (parlor.owner k) = false ∧ s.taken k = false then
        if s.shortage parlor k then some (.rejects i k s.tmr)
        else if s.fits parlor i k then some (.takes i k s.tmr)
        else none
      else none
    | none => none
  | .took k =>
    if parlor.arrival (parlor.owner k) = s.tmr then none else some (.starts i k s.tmr)
  | .order k => if s.closeSig then none else some (.starts i k s.tmr)
  | .preparing k => if s.closeSig then none else some (.completes i k s.tmr)
  | .off | .idle | .lock | .check _ | .closed => none

/-- What the customer announces in its move. -/
def customerNote (junk : ℕ → ℤ) (c : Fin p) : Option (ParlorNote n p o) :=
  match s.cpc c with
  | .outside =>
    if s.closeSig then none
    else if s.currentCustomers = parlor.k then some (.full c s.tmr)
    else if { s with totalorders := s.totalorders + parlor.totalOrders c }.ingreadientChecker
        parlor junk c then some (.enters c s.tmr)
    else some (.refused c s.tmr)
  | .waiting =>
    if s.closeSig then none else if s.rejection c then some (.leaves c s.tmr) else none
  | .toCollect => some (.collects c s.tmr)
  | .full | .refused | .left | .collected | .closed => none

/-- What the thread announces in its move. -/
def announce (junk : ℕ → ℤ) : ParlorThread n p → Option (ParlorNote n p o)
  | .main => none
  | .machine i => s.machineNote parlor i
  | .customer c => s.customerNote parlor junk c

end ParlorState

/-- A move with its announcement. -/
abbrev ParlorEvent (n p o : ℕ) : Type :=
  ParlorThread n p × Option (ParlorNote n p o)

namespace ParlorState

variable {n p o q : ℕ} (parlor : Parlor n p o q) (s : ParlorState n p o q)

/-- One move, with its thread and what it announces. -/
def Step (s : ParlorState n p o q) (e : ParlorEvent n p o) (t : ParlorState n p o q) : Prop :=
  ∃ junk, s.move parlor junk e.1 = some t ∧ s.announce parlor junk e.1 = e.2

/-- The state in which the threads start. -/
def boot : ParlorState n p o q where
  tmr := 0
  totalorders := 0
  currentCustomers := 0
  stock := parlor.toppingStock
  ingredientOver := false
  closeSig := false
  taken := fun _ => false
  status := fun _ => false
  complete := fun _ => false
  rejection := fun _ => false
  finish := fun _ => -1
  special := fun _ => false
  wake := fun _ => none
  wakeComp := fun _ => none
  wakeCust := fun _ => none
  machineLock := 1
  machines := fun _ => 0
  orderComp := fun _ => 0
  customers := fun _ => 0
  rejCustomers := fun _ => 0
  main := .loop
  pc := fun _ => .off
  cst := fun _ => 0
  cpc := fun _ => .outside

/-- The thread is at a `sem_wait` or at the `sleep(1)`, or has ended. -/
def waits : ParlorThread n p → Bool
  | .main =>
    match s.main with
    | .locking | .sleeping | .done => true
    | .loop | .starting | .chaining | .comping | .closing | .closeMachines | .closeCustomers =>
      false
  | .machine i =>
    match s.pc i with
    | .off | .idle | .lock | .order _ | .preparing _ | .closed => true
    | .scan | .took _ | .check _ => false
  | .customer _ => true

/-- The machine is at a `sem_wait` on a semaphore that is zero, or has ended. -/
def machineBlocked (i : Fin n) : Bool :=
  match s.pc i with
  | .off | .idle | .order _ => s.machines i == 0
  | .lock => s.machineLock == 0
  | .preparing _ => s.orderComp i == 0
  | .closed => true
  | .scan | .took _ | .check _ => false

/-- The customer is at a `sem_wait` on a semaphore that is zero, or has ended. -/
def customerBlocked (c : Fin p) : Bool :=
  match s.cpc c with
  | .outside | .toCollect => s.customers c == 0
  | .waiting => s.rejCustomers c == 0
  | .full | .refused | .left | .collected | .closed => true

/-- Every thread but main is blocked. -/
def Quiet : Prop :=
  (∀ i, s.machineBlocked i = true) ∧ ∀ c, s.customerBlocked c = true

instance : Decidable s.Quiet :=
  inferInstanceAs (Decidable (_ ∧ _))

/-- The second-synchronous moves : no thread is interrupted before its next `sem_wait`, and
main ends its `sleep(1)` when all the others are blocked. -/
def Sync (s : ParlorState n p o q) (e : ParlorEvent n p o) : Prop :=
  (e.1 ≠ .main → s.waits .main = true) ∧
  (∀ i, e.1 ≠ .machine i → s.waits (.machine i) = true) ∧
  (e.1 = .main → s.main = .sleeping → s.Quiet)

instance (s : ParlorState n p o q) (e : ParlorEvent n p o) : Decidable (Sync s e) :=
  inferInstanceAs (Decidable (_ ∧ _))

/-! ## What a move does -/

/-- The customers who arrive now. -/
def arrivals : List (Fin p) :=
  (List.finRange p).filter fun c => decide (parlor.arrival c = s.tmr)

/-- The machines at work. -/
def workers : List (Fin n) :=
  (List.finRange n).filter (s.working parlor)

/-- The machines main chains. -/
def chained : List (Fin n) :=
  Rescan.walk s.free s.special 0 0 (s.workers parlor)

/-- The machines whose ice cream is ready now. -/
def ready : List (Fin n) :=
  (List.finRange n).filter fun i => decide (s.finish i = s.tmr)

/-- The machine may take the order, or reject it. -/
def Open (k : Fin o) : Prop :=
  s.complete (parlor.owner k) = false ∧ s.taken k = false

instance (k : Fin o) : Decidable (s.Open parlor k) :=
  inferInstanceAs (Decidable (_ ∧ _))

/-- One move, thread by thread, with what it announces and the state after it. -/
inductive Moves : ParlorThread n p → Option (ParlorNote n p o) → ParlorState n p o q → Prop
  | goOn (hm : s.main = .loop) (ht : s.tmr ≤ parlor.max)
      (hx : (s.exhausted && s.nonePrepared) = false) :
    Moves .main none
      { s with ingredientOver := s.ingredientOver || s.exhausted, main := .locking }
  | stop (hm : s.main = .loop) (hx : s.tmr ≤ parlor.max → s.exhausted && s.nonePrepared) :
    Moves .main none
      { s with
        ingredientOver := s.ingredientOver || (decide (s.tmr ≤ parlor.max) && s.exhausted)
        main := .closing }
  | welcome (hm : s.main = .locking) (hl : 0 < s.machineLock) :
    Moves .main none
      { s with
        wakeCust := Rescan.link (s.arrivals parlor) s.wakeCust
        customers := semPostNext s.customers (s.arrivals parlor).head?
        machineLock := if s.arrivals parlor = [] then s.machineLock else s.machineLock - 1
        main := .starting }
  | startAll (hm : s.main = .starting) :
    Moves .main none
      { s with
        machines := fun i =>
          if parlor.machineStart i = s.tmr then s.machines i + 1 else s.machines i
        main := .chaining }
  | chain (hm : s.main = .chaining) :
    Moves .main none
      { s with
        special := fun i => s.special i && decide (i ∉ s.workers parlor)
        wake := Rescan.link (s.chained parlor) s.wake
        machines := semPostNext s.machines (s.chained parlor).head?
        main := .comping }
  | comp (hm : s.main = .comping) :
    Moves .main none
      { s with
        wakeComp := Rescan.link s.ready s.wakeComp
        orderComp := semPostNext s.orderComp s.ready.head?
        main := .sleeping }
  | tick (hm : s.main = .sleeping) :
    Moves .main none { s with tmr := s.tmr + 1, main := .loop }
  | close (hm : s.main = .closing) :
    Moves .main none
      { s with
        ingredientOver := s.ingredientOver || s.exhausted
        closeSig := true
        machines := fun i => s.machines i + 1
        main := .closeMachines }
  | closeMachines (hm : s.main = .closeMachines) :
    Moves .main none
      { s with
        orderComp := fun i =>
          if (s.tmr : ℤ) ≤ s.finish i then s.orderComp i + 1 else s.orderComp i
        machines := fun i =>
          if s.tmr ≤ parlor.machineStart i then s.machines i + 1 else s.machines i
        main := .closeCustomers }
  | closeCustomers (hm : s.main = .closeCustomers) :
    Moves .main none
      { s with
        rejCustomers := fun c => if s.complete c then s.rejCustomers c else s.rejCustomers c + 1
        customers := fun c =>
          if s.tmr ≤ parlor.arrival c then s.customers c + 1 else s.customers c
        main := .done }
  | quit (i : Fin n) (hpc : s.pc i = .off ∨ s.pc i = .idle ∨ ∃ k, s.pc i = .order k)
      (hb : 0 < s.machines i) (hc : s.closeSig = true) :
    Moves (.machine i) none
      { s with machines := semWait s.machines i, pc := update s.pc i .closed }
  | abandon (i : Fin n) (k : Fin o) (hpc : s.pc i = .preparing k) (hb : 0 < s.orderComp i)
      (hc : s.closeSig = true) :
    Moves (.machine i) none
      { s with orderComp := semWait s.orderComp i, pc := update s.pc i .closed }
  | turnOn (i : Fin n) (hpc : s.pc i = .off) (hb : 0 < s.machines i) (hc : s.closeSig = false) :
    Moves (.machine i) none
      { s with machines := semWait s.machines i, pc := update s.pc i .idle }
  | skip (i : Fin n) (hpc : s.pc i = .idle) (hb : 0 < s.machines i) (hc : s.closeSig = false)
      (ho : s.ingredientOver = true) :
    Moves (.machine i) none { s with machines := semWait s.machines i }
  | wake (i : Fin n) (hpc : s.pc i = .idle) (hb : 0 < s.machines i) (hc : s.closeSig = false)
      (ho : s.ingredientOver = false) :
    Moves (.machine i) none
      { s with machines := semWait s.machines i, pc := update s.pc i .lock }
  | acquire (i : Fin n) (hpc : s.pc i = .lock) (hl : 0 < s.machineLock) :
    Moves (.machine i) none
      { s with
        wake := update s.wake i none
        machineLock := s.machineLock - 1
        machines := semPostNext s.machines (s.wake i)
        pc := update s.pc i .scan }
  | pass (i : Fin n) (k : Fin o) (hpc : s.pc i = .scan) (hk : s.entry i = some k)
      (hp : s.Open parlor k → s.shortage parlor k = false ∧ s.fits parlor i k = false) :
    Moves (.machine i) none { s with cst := update s.cst i (k + 1) }
  | reject (i : Fin n) (k : Fin o) (hpc : s.pc i = .scan) (hk : s.entry i = some k)
      (hp : s.Open parlor k) (hsh : s.shortage parlor k = true) :
    Moves (.machine i) (some (.rejects i k s.tmr))
      { s with
        taken := fun l => if l.val = 0 then true else s.taken l
        status := fun l => if l.val = 0 then true else s.status l
        rejection := update s.rejection (parlor.owner k) true
        rejCustomers := semPost s.rejCustomers (parlor.owner k)
        cst := update s.cst i (k + 1) }
  | take (i : Fin n) (k : Fin o) (hpc : s.pc i = .scan) (hk : s.entry i = some k)
      (hp : s.Open parlor k) (hsh : s.shortage parlor k = false)
      (hf : s.fits parlor i k = true) :
    Moves (.machine i) (some (.takes i k s.tmr))
      { s with
        taken := update s.taken k true
        stock := (parlor.used k).foldl useTopping s.stock
        finish := update s.finish i
          (if parlor.arrival (parlor.owner k) = s.tmr then s.tmr + parlor.ftime k + 1
            else s.tmr + parlor.ftime k)
        special := update s.special i
          (if parlor.arrival (parlor.owner k) = s.tmr then true else s.special i)
        pc := update s.pc i (.took k)
        cst := update s.cst i (k + 1) }
  | rest (i : Fin n) (hpc : s.pc i = .scan) (hk : s.entry i = none) :
    Moves (.machine i) none
      { s with machineLock := s.machineLock + 1, pc := update s.pc i .idle }
  | hold (i : Fin n) (k : Fin o) (hpc : s.pc i = .took k)
      (ha : parlor.arrival (parlor.owner k) = s.tmr) :
    Moves (.machine i) none
      { s with machineLock := s.machineLock + 1, pc := update s.pc i (.order k) }
  | start (i : Fin n) (k : Fin o) (hpc : s.pc i = .took k)
      (ha : parlor.arrival (parlor.owner k) ≠ s.tmr) :
    Moves (.machine i) (some (.starts i k s.tmr))
      { s with
        wake := update s.wake i none
        machineLock := s.machineLock + 1
        machines := semPostNext s.machines (s.wake i)
        pc := update s.pc i (.preparing k) }
  | resume (i : Fin n) (k : Fin o) (hpc : s.pc i = .order k) (hb : 0 < s.machines i)
      (hc : s.closeSig = false) :
    Moves (.machine i) (some (.starts i k s.tmr))
      { s with
        wake := update s.wake i none
        machines := semPostNext (semWait s.machines i) (s.wake i)
        pc := update s.pc i (.preparing k) }
  | finish (i : Fin n) (k : Fin o) (hpc : s.pc i = .preparing k) (hb : 0 < s.orderComp i)
      (hc : s.closeSig = false) :
    Moves (.machine i) (some (.completes i k s.tmr))
      { s with
        status := update s.status k true
        wakeComp := update s.wakeComp i none
        orderComp := semPostNext (semWait s.orderComp i) (s.wakeComp i)
        pc := update s.pc i (.check k) }
  | serve (i : Fin n) (k : Fin o) (hpc : s.pc i = .check k)
      (hd : s.orderStatusChecker parlor (parlor.owner k) = true) :
    Moves (.machine i) none
      { s with
        rejCustomers := semPost s.rejCustomers (parlor.owner k)
        customers := semPost s.customers (parlor.owner k)
        pc := update s.pc i .idle }
  | lack (i : Fin n) (k : Fin o) (hpc : s.pc i = .check k)
      (hd : s.orderStatusChecker parlor (parlor.owner k) = false) :
    Moves (.machine i) none { s with pc := update s.pc i .idle }
  | turnAway (c : Fin p) (hpc : s.cpc c = .outside) (hb : 0 < s.customers c)
      (hc : s.closeSig = true) :
    Moves (.customer c) none
      { s with customers := semWait s.customers c, cpc := update s.cpc c .closed }
  | full (c : Fin p) (hpc : s.cpc c = .outside) (hb : 0 < s.customers c)
      (hc : s.closeSig = false) (hk : s.currentCustomers = parlor.k) :
    Moves (.customer c) (some (.full c s.tmr))
      { s with
        totalorders := s.totalorders + parlor.totalOrders c
        complete := update s.complete c true
        wakeCust := update s.wakeCust c none
        machineLock := if s.wakeCust c = none then s.machineLock + 1 else s.machineLock
        customers := semPostNext (semWait s.customers c) (s.wakeCust c)
        cpc := update s.cpc c .full }
  | refuse (c : Fin p) (hpc : s.cpc c = .outside) (hb : 0 < s.customers c)
      (hc : s.closeSig = false) (hk : s.currentCustomers ≠ parlor.k) :
    Moves (.customer c) (some (.refused c s.tmr))
      { s with
        totalorders := s.totalorders + parlor.totalOrders c
        complete := update s.complete c true
        wakeCust := update s.wakeCust c none
        machineLock := if s.wakeCust c = none then s.machineLock + 1 else s.machineLock
        customers := semPostNext (semWait s.customers c) (s.wakeCust c)
        cpc := update s.cpc c .refused }
  | enter (c : Fin p) (hpc : s.cpc c = .outside) (hb : 0 < s.customers c)
      (hc : s.closeSig = false) (hk : s.currentCustomers ≠ parlor.k)
      (hd : s.complete c = false) :
    Moves (.customer c) (some (.enters c s.tmr))
      { s with
        totalorders := s.totalorders + parlor.totalOrders c
        currentCustomers := s.currentCustomers + 1
        wakeCust := update s.wakeCust c none
        machineLock := if s.wakeCust c = none then s.machineLock + 1 else s.machineLock
        customers := semPostNext (semWait s.customers c) (s.wakeCust c)
        cpc := update s.cpc c .waiting }
  | turnOut (c : Fin p) (hpc : s.cpc c = .waiting) (hb : 0 < s.rejCustomers c)
      (hc : s.closeSig = true) :
    Moves (.customer c) none
      { s with rejCustomers := semWait s.rejCustomers c, cpc := update s.cpc c .closed }
  | leave (c : Fin p) (hpc : s.cpc c = .waiting) (hb : 0 < s.rejCustomers c)
      (hc : s.closeSig = false) (hr : s.rejection c = true) :
    Moves (.customer c) (some (.leaves c s.tmr))
      { s with
        currentCustomers := s.currentCustomers - 1
        complete := update s.complete c true
        rejCustomers := semWait s.rejCustomers c
        cpc := update s.cpc c .left }
  | call (c : Fin p) (hpc : s.cpc c = .waiting) (hb : 0 < s.rejCustomers c)
      (hc : s.closeSig = false) (hr : s.rejection c = false) :
    Moves (.customer c) none
      { s with rejCustomers := semWait s.rejCustomers c, cpc := update s.cpc c .toCollect }
  | collect (c : Fin p) (hpc : s.cpc c = .toCollect) (hb : 0 < s.customers c) :
    Moves (.customer c) (some (.collects c s.tmr))
      { s with
        currentCustomers := s.currentCustomers - 1
        complete := update s.complete c true
        customers := semWait s.customers c
        cpc := update s.cpc c .collected }

variable {parlor s} {t : ParlorState n p o q} {junk : ℕ → ℤ}

theorem forward_eq (i : Fin n) :
    s.forward i = { s with
      wake := update s.wake i none, machines := semPostNext s.machines (s.wake i) } := by
  unfold forward
  cases h : s.wake i with
  | none => simp [← h, semPostNext]
  | some j => rfl

theorem forwardComp_eq (i : Fin n) :
    s.forwardComp i = { s with
      wakeComp := update s.wakeComp i none
      orderComp := semPostNext s.orderComp (s.wakeComp i) } := by
  unfold forwardComp
  cases h : s.wakeComp i with
  | none => simp [← h, semPostNext]
  | some j => rfl

theorem letIn_eq (c : Fin p) :
    s.letIn c = { s with
      wakeCust := update s.wakeCust c none
      customers := semPostNext s.customers (s.wakeCust c)
      machineLock := if s.wakeCust c = none then s.machineLock + 1 else s.machineLock } := by
  unfold letIn
  cases h : s.wakeCust c with
  | none => simp [← h, semPostNext]
  | some d => rfl

theorem nodup_arrivals : (s.arrivals parlor).Nodup :=
  (List.nodup_finRange p).filter _

theorem nodup_workers : (s.workers parlor).Nodup :=
  (List.nodup_finRange n).filter _

theorem nodup_chained : (s.chained parlor).Nodup :=
  (nodup_workers.filter _).sublist (Rescan.walk_sublist ..)

theorem nodup_ready : s.ready.Nodup :=
  (List.nodup_finRange n).filter _

theorem enterCustomers_eq :
    s.enterCustomers parlor = { s with
      wakeCust := Rescan.link (s.arrivals parlor) s.wakeCust
      customers := semPostNext s.customers (s.arrivals parlor).head?
      machineLock := if s.arrivals parlor = [] then s.machineLock else s.machineLock - 1
      main := .starting } := by
  have hline : (Rescan.chain (s.toEnterCustomer parlor) (p + 1) 1 fun _ => false).1 =
      s.arrivals parlor := Rescan.chain_eq_filter (List.nodup_finRange p) (by simp)
  unfold enterCustomers
  simp only [hline]
  cases s.arrivals parlor with
  | nil => rfl
  | cons c line => rfl

theorem wakeMachines_eq :
    s.wakeMachines parlor = { s with
      special := fun i => s.special i && decide (i ∉ s.workers parlor)
      wake := Rescan.link (s.chained parlor) s.wake
      machines := semPostNext s.machines (s.chained parlor).head?
      main := .comping } := by
  have hlen : (s.workers parlor).length < n + 1 :=
    Nat.lt_succ_of_le ((List.length_filter_le ..).trans (by simp))
  have hline : Rescan.chain (s.freeMachine parlor) (n + 1) 1 s.special =
      (s.chained parlor, fun i => s.special i && decide (i ∉ s.workers parlor)) :=
    Rescan.chain_eq_walk nodup_workers hlen
  unfold wakeMachines
  simp only [hline]
  cases s.chained parlor with
  | nil => rfl
  | cons i line => rfl

theorem wakeReady_eq :
    s.wakeReady = { s with
      wakeComp := Rescan.link s.ready s.wakeComp
      orderComp := semPostNext s.orderComp s.ready.head?
      main := .sleeping } := by
  have hline : (Rescan.chain s.orderCompMachine (n + 1) 1 fun _ => false).1 = s.ready :=
    Rescan.chain_eq_filter (List.nodup_finRange n) (by simp)
  unfold wakeReady
  simp only [hline]
  cases s.ready with
  | nil => rfl
  | cons i line => rfl

theorem moves_of_main (h : s.mainMove parlor = some t) : s.Moves parlor .main none t := by
  unfold mainMove at h
  split at h
  case h_1 hm =>
    obtain rfl := Option.some.inj h
    unfold ParlorState.loop
    split_ifs with ht hx
    · have hov : s.exhausted = (decide (s.tmr ≤ parlor.max) && s.exhausted) := by simp [ht]
      rw [hov]
      exact .stop hm fun _ => hx
    · exact .goOn hm ht (by simpa using hx)
    · have hov : s.ingredientOver =
          (s.ingredientOver || (decide (s.tmr ≤ parlor.max) && s.exhausted)) := by simp [ht]
      have hstop : s.Moves parlor .main none { s with
          ingredientOver := s.ingredientOver || (decide (s.tmr ≤ parlor.max) && s.exhausted)
          main := .closing } := .stop hm fun h => (ht h).elim
      rwa [← hov] at hstop
  case h_2 hm =>
    split_ifs at h with hl
    rw [enterCustomers_eq] at h
    obtain rfl := Option.some.inj h
    exact .welcome hm hl
  case h_3 hm =>
    obtain rfl := Option.some.inj h
    exact .startAll hm
  case h_4 hm =>
    rw [wakeMachines_eq] at h
    obtain rfl := Option.some.inj h
    exact .chain hm
  case h_5 hm =>
    rw [wakeReady_eq] at h
    obtain rfl := Option.some.inj h
    exact .comp hm
  case h_6 hm =>
    obtain rfl := Option.some.inj h
    exact .tick hm
  case h_7 hm =>
    obtain rfl := Option.some.inj h
    exact .close hm
  case h_8 hm =>
    obtain rfl := Option.some.inj h
    exact .closeMachines hm
  case h_9 hm =>
    obtain rfl := Option.some.inj h
    exact .closeCustomers hm
  case h_10 => cases h

/-- One turn of the loop over the orders. -/
theorem moves_of_scan {i : Fin n} (hpc : s.pc i = .scan)
    (h : s.machineMove parlor i = some t) :
    s.Moves parlor (.machine i) (s.machineNote parlor i) t := by
  unfold machineMove at h
  unfold machineNote
  simp only [hpc] at h ⊢
  cases hk : s.entry i with
  | none =>
    simp only [hk] at h ⊢
    obtain rfl := Option.some.inj h
    exact .rest i hpc hk
  | some k =>
    simp only [hk] at h ⊢
    obtain rfl := Option.some.inj h
    unfold scanEntry
    by_cases hp : s.Open parlor k
    · rw [if_pos (show _ ∧ _ from hp), if_pos (show _ ∧ _ from hp)]
      split_ifs with hsh hf
      · exact .reject i k hpc hk hp hsh
      · exact .take i k hpc hk hp (by simpa using hsh) hf
      · exact .pass i k hpc hk fun _ => ⟨by simpa using hsh, by simpa using hf⟩
    · rw [if_neg (show ¬(_ ∧ _) from hp), if_neg (show ¬(_ ∧ _) from hp)]
      exact .pass i k hpc hk fun h => (hp h).elim

theorem moves_of_machine {i : Fin n} (h : s.machineMove parlor i = some t) :
    s.Moves parlor (.machine i) (s.machineNote parlor i) t := by
  cases hpc : s.pc i with
  | scan => exact moves_of_scan hpc h
  | off =>
    simp only [machineMove, machineNote, hpc] at h ⊢
    split_ifs at h with hb hc
    all_goals obtain rfl := Option.some.inj h
    · exact .quit i (.inl hpc) hb hc
    · exact .turnOn i hpc hb (by simpa using hc)
  | idle =>
    simp only [machineMove, machineNote, hpc] at h ⊢
    split_ifs at h with hb hc ho
    all_goals obtain rfl := Option.some.inj h
    · exact .quit i (.inr (.inl hpc)) hb hc
    · exact .skip i hpc hb (by simpa using hc) ho
    · exact .wake i hpc hb (by simpa using hc) (by simpa using ho)
  | lock =>
    simp only [machineMove, machineNote, hpc, forward_eq] at h ⊢
    split_ifs at h with hl
    obtain rfl := Option.some.inj h
    exact .acquire i hpc hl
  | took k =>
    simp only [machineMove, machineNote, hpc, forward_eq] at h ⊢
    obtain rfl := Option.some.inj h
    split_ifs with ha
    · exact .hold i k hpc ha
    · exact .start i k hpc ha
  | order k =>
    simp only [machineMove, machineNote, hpc, forward_eq] at h ⊢
    split_ifs at h with hb hc
    all_goals obtain rfl := Option.some.inj h
    · rw [if_pos hc]
      exact .quit i (.inr (.inr ⟨k, hpc⟩)) hb hc
    · rw [if_neg hc]
      exact .resume i k hpc hb (by simpa using hc)
  | preparing k =>
    simp only [machineMove, machineNote, hpc, forwardComp_eq] at h ⊢
    split_ifs at h with hb hc
    all_goals obtain rfl := Option.some.inj h
    · rw [if_pos hc]
      exact .abandon i k hpc hb hc
    · rw [if_neg hc]
      exact .finish i k hpc hb (by simpa using hc)
  | check k =>
    simp only [machineMove, machineNote, hpc] at h ⊢
    obtain rfl := Option.some.inj h
    split_ifs with hd
    · exact .serve i k hpc hd
    · exact .lack i k hpc (by simpa using hd)
  | closed =>
    simp only [machineMove, hpc] at h
    cases h

theorem moves_of_customer {c : Fin p} (h : s.customerMove parlor junk c = some t) :
    s.Moves parlor (.customer c) (s.customerNote parlor junk c) t := by
  cases hpc : s.cpc c with
  | outside =>
    simp only [customerMove, customerNote, hpc] at h ⊢
    split_ifs at h with hb hc
    · obtain rfl := Option.some.inj h
      rw [if_pos hc]
      exact .turnAway c hpc hb hc
    · obtain rfl := Option.some.inj h
      rw [if_neg hc]
      have hc' : s.closeSig = false := by simpa using hc
      simp only [arrive, letIn_eq]
      -- the checker does not look at the semaphores
      have hi : ingreadientChecker parlor { s with
            totalorders := s.totalorders + parlor.totalOrders c
            customers := semWait s.customers c } junk c =
          ingreadientChecker parlor { s with
            totalorders := s.totalorders + parlor.totalOrders c } junk c := rfl
      rw [hi]
      by_cases hk : s.currentCustomers = parlor.k
      · rw [if_pos hk, if_pos hk]
        exact .full c hpc hb hc' hk
      · rw [if_neg hk, if_neg hk]
        by_cases hd : ingreadientChecker parlor { s with
            totalorders := s.totalorders + parlor.totalOrders c } junk c = true
        · rw [if_pos hd, if_pos hd]
          simp only [ingreadientChecker, decide_eq_true_eq] at hd
          exact .enter c hpc hb hc' hk hd.1
        · rw [if_neg hd, if_neg hd]
          exact .refuse c hpc hb hc' hk
  | waiting =>
    simp only [customerMove, customerNote, hpc] at h ⊢
    split_ifs at h with hb hc hr
    all_goals obtain rfl := Option.some.inj h
    · rw [if_pos hc]
      exact .turnOut c hpc hb hc
    · rw [if_neg hc, if_pos hr]
      exact .leave c hpc hb (by simpa using hc) hr
    · rw [if_neg hc, if_neg hr]
      exact .call c hpc hb (by simpa using hc) (by simpa using hr)
  | toCollect =>
    simp only [customerMove, customerNote, hpc] at h ⊢
    split_ifs at h with hb
    obtain rfl := Option.some.inj h
    exact .collect c hpc hb
  | _ =>
    simp only [customerMove, hpc] at h
    cases h

theorem moves_of_step {e : ParlorEvent n p o} (h : Step parlor s e t) :
    s.Moves parlor e.1 e.2 t := by
  obtain ⟨th, note⟩ := e
  obtain ⟨junk, hm, hn⟩ := h
  simp only at hm hn
  subst hn
  cases th with
  | main => exact moves_of_main hm
  | machine i => exact moves_of_machine hm
  | customer c => exact moves_of_customer hm

/-! ## Announcements -/

/-- The announcements of a run. -/
def notes (es : List (ParlorEvent n p o)) : List (ParlorNote n p o) :=
  es.filterMap Prod.snd

theorem mem_notes_append {es : List (ParlorEvent n p o)} {e : ParlorEvent n p o}
    {x : ParlorNote n p o} : x ∈ notes (es ++ [e]) ↔ x ∈ notes es ∨ e.2 = some x := by
  obtain ⟨th, note⟩ := e
  cases note <;> simp [notes, eq_comm]

/-! ## Schedules -/

/-- The run in which the threads move in this order, if all its steps meet the condition. -/
def exec (parlor : Parlor n p o q) (C : ParlorState n p o q → ParlorEvent n p o → Prop)
    [∀ s e, Decidable (C s e)] (s : ParlorState n p o q) :
    List (ParlorThread n p) → Option (List (ParlorEvent n p o) × ParlorState n p o q)
  | [] => some ([], s)
  | th :: ths =>
    if C s (th, s.announce parlor (fun _ => 0) th) then
      (s.move parlor (fun _ => 0) th).bind fun t =>
        (exec parlor C t ths).map fun r => ((th, s.announce parlor (fun _ => 0) th) :: r.1, r.2)
    else none

theorem guarded_of_exec {C : ParlorState n p o q → ParlorEvent n p o → Prop}
    [∀ s e, Decidable (C s e)] {ths : List (ParlorThread n p)}
    {r : List (ParlorEvent n p o) × ParlorState n p o q}
    (h : exec parlor C s ths = some r) :
    Transition.Run (Transition.Guarded (Step parlor) C) s r.1 r.2 := by
  induction ths generalizing s r with
  | nil =>
    obtain rfl := Option.some.inj h
    exact .nil
  | cons th ths ih =>
    simp only [exec, Option.ite_none_right_eq_some, Option.bind_eq_some_iff,
      Option.map_eq_some_iff] at h
    obtain ⟨hc, t, ht, r', hr', rfl⟩ := h
    exact (ih hr').cons ⟨⟨_, ht, rfl⟩, hc⟩

end ParlorState

end CowPbs
