import Mathlib
import CowPbs.Lib.Rescan
import CowPbs.Lib.Transition

/-!
# The cafe simulator

The threads of concurrency/1.c : main, one per barista and one per customer. A move takes
one thread through a `sem_wait` whose semaphore is positive and on to its next `sem_wait`
(for main, its `sleep(1)`), so a thread that runs until it blocks makes one or more moves.
Main leaves its `sleep(1)` and increments `tmr` only when every other thread is blocked :
the runs are the second-synchronous ones, with the threads of a second in any order.

Customer `c : Fin n` has the number `c + 1` and the order `c`, since the input numbers the
customers `1..n` in the order of its lines. `flag == -1` is the absence of an order in
`BaristaPc`, and the index `-1` of the arrays of wake-ups is `none`. The `sem_wait` of main
on `machine_lock` and of a barista in its scan are followed by the matching `sem_post` in
the same move or in that of the last customer who enters.
-/

open Function Rescan

namespace CowPbs

/-- `array[i] == string` for the first such `i`. -/
def giveIndex (array : List String) (string : String) : Option ℕ :=
  array.findIdx? (· == string)

/-- The order, the arrival and the tolerance time of a customer. -/
structure CafeCustomer where
  cofee : String
  arrival : ℕ
  tolTime : ℕ

/-- The input for `b` baristas and `n` customers. -/
structure Cafe (b n : ℕ) where
  menu : List (String × ℕ)
  customer : Fin n → CafeCustomer
  /-- The customers come in the order of their arrivals. -/
  sorted : ∀ c d, c ≤ d → (customer c).arrival ≤ (customer d).arrival
  /-- What they order is on the menu. -/
  listed : ∀ c, (customer c).cofee ∈ menu.map Prod.fst

/-- What main is about to do. -/
inductive MainPc
  /-- `sem_wait(&machine_lock)`, in a new second. -/
  | locking
  /-- The end of `sleep(1)`. -/
  | sleeping
  /-- Nothing : the cafe is closed. -/
  | done
  deriving DecidableEq

/-- Which `sem_wait` a barista is at, and its `flag`. -/
inductive BaristaPc (n : ℕ)
  /-- `baristas[i]`, with no order. -/
  | idle
  /-- `machine_lock`, with no order. -/
  | lock
  /-- `baristas[i]`, with the order `k`. -/
  | order (k : Fin n)
  /-- `order_comp[i]`, preparing the order `k`. -/
  | preparing (k : Fin n)
  deriving DecidableEq

/-- Which `sem_wait` on its semaphore a customer is at, or how it has left. -/
inductive CustomerPc
  | outside
  | waiting
  | left
  | collected
  deriving DecidableEq

/-- A thread. -/
inductive CafeThread (b n : ℕ)
  | main
  | barista (i : Fin b)
  | customer (c : Fin n)
  deriving DecidableEq

/-- What a thread announces, with the second. Main prints the totals when it is done, and
no thread moves any more. -/
inductive CafeNote (b n : ℕ)
  | enters (c : Fin n) (t : ℕ)
  | starts (i : Fin b) (k : Fin n) (t : ℕ)
  | completes (i : Fin b) (k : Fin n) (t : ℕ)
  | leaves (c : Fin n) (t : ℕ)
  | collects (c : Fin n) (t : ℕ)
  deriving DecidableEq

/-- The globals, the semaphores, and where each thread is. -/
@[ext]
structure CafeState (b n : ℕ) where
  tmr : ℕ
  totalorders : ℕ
  /-- `order_list[k].order_taken_status`. -/
  taken : Fin n → Bool
  /-- `cust[c + 1].order_completion_status`. -/
  complete : Fin n → Bool
  /-- `finish_time_order`. -/
  finish : Fin b → ℤ
  /-- `special_flag`. -/
  special : Fin b → Bool
  /-- `wake_up_index`. -/
  wake : Fin b → Option (Fin b)
  /-- `wake_up_index_cust`. -/
  wakeCust : Fin n → Option (Fin n)
  tolTime : Fin n → ℤ
  /-- `coffee_wasted`. -/
  wasted : ℕ
  waitTime : ℤ
  machineLock : ℕ
  baristas : Fin b → ℕ
  orderComp : Fin b → ℕ
  customers : Fin n → ℕ
  main : MainPc
  pc : Fin b → BaristaPc n
  cst : Fin b → ℕ
  cpc : Fin n → CustomerPc

/-- The order in `flag`. -/
def BaristaPc.flag {n : ℕ} : BaristaPc n → Option (Fin n)
  | idle | lock => none
  | order k | preparing k => some k

namespace Cafe

variable {b n : ℕ} (cafe : Cafe b n)

/-- `cofee_time` of the order `k`. -/
def ftime (k : Fin n) : ℕ :=
  match giveIndex (cafe.menu.map Prod.fst) (cafe.customer k).cofee with
  | some i => (cafe.menu.map Prod.snd).getD i 0
  | none => 0

abbrev arrival (c : Fin n) : ℕ :=
  (cafe.customer c).arrival

end Cafe

namespace CafeState

variable {b n : ℕ} (cafe : Cafe b n) (s : CafeState b n)

/-! ## Main -/

/-- The barista is free, or its coffee is ready now. -/
def free (i : Fin b) : Bool :=
  decide (s.finish i ≤ s.tmr)

/-- `free_barista` : the `no`-th barista that is free or was just given an order. -/
def freeBarista : ℕ → (Fin b → Bool) → Option (Fin b) × (Fin b → Bool) :=
  Rescan.find s.free (List.finRange b)

/-- `to_enter_customer` : the `no`-th customer who arrives now. -/
def toEnterCustomer : ℕ → (Fin n → Bool) → Option (Fin n) × (Fin n → Bool) :=
  Rescan.find (fun c => decide (cafe.arrival c = s.tmr)) (List.finRange n)

/-- The customers who arrive now are chained, and the first may enter. -/
def enterCustomers : CafeState b n :=
  let line := (Rescan.chain (s.toEnterCustomer cafe) (n + 1) 1 fun _ => false).1
  match line.head? with
  | some c =>
    { s with
      wakeCust := Rescan.link line s.wakeCust
      customers := semPost s.customers c
      machineLock := s.machineLock - 1 }
  | none => { s with wakeCust := Rescan.link line s.wakeCust }

/-- The free and the just assigned baristas are chained, and the first is woken. -/
def wakeBaristas : CafeState b n :=
  let line := Rescan.chain s.freeBarista (b + 1) 1 s.special
  match line.1.head? with
  | some i =>
    { s with
      special := line.2
      wake := Rescan.link line.1 s.wake
      baristas := semPost s.baristas i }
  | none => { s with special := line.2, wake := Rescan.link line.1 s.wake }

/-- The baristas whose coffee is ready and the customers whose tolerance time is over are
woken. -/
def postDue : CafeState b n :=
  { s with
    orderComp := fun i => if s.finish i = s.tmr then s.orderComp i + 1 else s.orderComp i
    customers := fun c => if s.tolTime c = s.tmr then s.customers c + 1 else s.customers c }

/-- `customer_remaining`. -/
def customerRemaining : Bool :=
  decide (∃ c, s.complete c = false)

/-- The test of the loop. -/
def loop : CafeState b n :=
  { s with main := if s.customerRemaining then .locking else .done }

/-! ## Baristas -/

/-- The barista wakes the next one in the chain. -/
def forward (i : Fin b) : CafeState b n :=
  match s.wake i with
  | some j => { s with wake := update s.wake i none, baristas := semPost s.baristas j }
  | none => s

/-- The loop over the orders from `cst` on stops at this one. -/
def nextOrder (i : Fin b) : Option (Fin n) :=
  (List.finRange n).find? fun k =>
    decide (s.cst i ≤ k ∧ k < s.totalorders) && !s.complete k && !s.taken k

/-- The loop over the orders; both branches on the arrival give the same `finish`. -/
def scan (i : Fin b) : CafeState b n :=
  match s.nextOrder i with
  | some k =>
    { s with
      taken := update s.taken k true
      finish := update s.finish i (s.tmr + cafe.ftime k + 1)
      special := update s.special i true
      pc := update s.pc i (.order k)
      cst := update s.cst i (k + 1) }
  | none =>
    { s with
      pc := update s.pc i .idle
      cst := update s.cst i (max (s.cst i) s.totalorders) }

/-- The barista goes to `pc`. -/
def goto (i : Fin b) (pc : BaristaPc n) : CafeState b n :=
  { s with pc := update s.pc i pc }

/-- A barista with an order was woken. -/
def start (i : Fin b) (k : Fin n) : CafeState b n :=
  if s.complete k then { s with finish := update s.finish i (-1) }.goto i .idle
  else s.goto i (.preparing k)

/-- The coffee is ready. -/
def finishOrder (i : Fin b) (k : Fin n) : CafeState b n :=
  { s with
    wasted := if s.complete k then s.wasted + 1 else s.wasted
    complete := update s.complete k true
    customers := semPost s.customers k
    pc := update s.pc i .idle }

/-- A move of barista `i`. -/
def baristaMove (i : Fin b) : Option (CafeState b n) :=
  match s.pc i with
  | .idle =>
    if 0 < s.baristas i then some ({ s with baristas := semWait s.baristas i }.goto i .lock)
    else none
  | .lock => if 0 < s.machineLock then some ((s.forward i).scan cafe i) else none
  | .order k =>
    if 0 < s.baristas i then some (({ s with baristas := semWait s.baristas i }.forward i).start i k)
    else none
  | .preparing k =>
    if 0 < s.orderComp i then some ({ s with orderComp := semWait s.orderComp i }.finishOrder i k)
    else none

/-! ## Customers -/

/-- The customer lets the next one in, or the baristas. -/
def letIn (c : Fin n) : CafeState b n :=
  match s.wakeCust c with
  | some d => { s with wakeCust := update s.wakeCust c none, customers := semPost s.customers d }
  | none => { s with machineLock := s.machineLock + 1 }

/-- The customer enters and orders. -/
def enter (c : Fin n) : CafeState b n :=
  let t := { s with totalorders := s.totalorders + 1 }.letIn c
  { t with
    tolTime := update t.tolTime c (cafe.arrival c + (cafe.customer c).tolTime + 1)
    cpc := update t.cpc c .waiting }

/-- The customer leaves, with the coffee or without. -/
def settle (c : Fin n) : CafeState b n :=
  if s.complete c then
    { s with
      waitTime := s.waitTime + (s.tmr - cafe.arrival c - cafe.ftime c)
      cpc := update s.cpc c .collected }
  else
    { s with
      waitTime := s.waitTime + ((cafe.customer c).tolTime + 1)
      complete := update s.complete c true
      cpc := update s.cpc c .left }

/-- A move of customer `c`. -/
def customerMove (c : Fin n) : Option (CafeState b n) :=
  if 0 < s.customers c then
    match s.cpc c with
    | .outside => some ({ s with customers := semWait s.customers c }.enter cafe c)
    | .waiting => some ({ s with customers := semWait s.customers c }.settle cafe c)
    | .left | .collected => none
  else none

/-! ## Runs -/

/-- Every thread but main is blocked. -/
def Quiet : Prop :=
  (∀ i, s.baristaMove cafe i = none) ∧ ∀ c, s.customerMove cafe c = none

instance (i : Fin b) : Decidable (s.baristaMove cafe i = none) :=
  decidable_of_iff ((s.baristaMove cafe i).isNone = true) Option.isNone_iff_eq_none

instance (c : Fin n) : Decidable (s.customerMove cafe c = none) :=
  decidable_of_iff ((s.customerMove cafe c).isNone = true) Option.isNone_iff_eq_none

instance : Decidable (s.Quiet cafe) :=
  inferInstanceAs (Decidable (_ ∧ _))

/-- A move of main. -/
def mainMove : Option (CafeState b n) :=
  match s.main with
  | .locking =>
    if 0 < s.machineLock then
      some { ((s.enterCustomers cafe).wakeBaristas).postDue with main := .sleeping }
    else none
  | .sleeping => if s.Quiet cafe then some { s with tmr := s.tmr + 1 }.loop else none
  | .done => none

/-- A move of a thread. -/
def move : CafeThread b n → Option (CafeState b n)
  | .main => s.mainMove cafe
  | .barista i => s.baristaMove cafe i
  | .customer c => s.customerMove cafe c

/-- What the thread announces in its move. -/
def announce : CafeThread b n → Option (CafeNote b n)
  | .main => none
  | .barista i =>
    match s.pc i with
    | .idle | .lock => none
    | .order k => if s.complete k then none else some (.starts i k s.tmr)
    | .preparing k => some (.completes i k s.tmr)
  | .customer c =>
    match s.cpc c with
    | .outside => some (.enters c s.tmr)
    | .waiting => if s.complete c then some (.collects c s.tmr) else some (.leaves c s.tmr)
    | .left | .collected => none

/-- One move, with its thread and what it announces. -/
def Step (s : CafeState b n) (e : CafeThread b n × Option (CafeNote b n)) (t : CafeState b n) :
    Prop :=
  s.move cafe e.1 = some t ∧ s.announce e.1 = e.2

/-- The state in which the threads start. -/
def boot (b n : ℕ) : CafeState b n :=
  loop
    { tmr := 0, totalorders := 0, taken := fun _ => false, complete := fun _ => false
      finish := fun _ => -1, special := fun _ => false, wake := fun _ => none
      wakeCust := fun _ => none, tolTime := fun _ => -1, wasted := 0, waitTime := 0
      machineLock := 1, baristas := fun _ => 0, orderComp := fun _ => 0
      customers := fun _ => 0, main := .locking, pc := fun _ => .idle, cst := fun _ => 0
      cpc := fun _ => .outside }

/-! ## What a move does -/

/-- The customers who arrive now. -/
def arrivals : List (Fin n) :=
  (List.finRange n).filter fun c => decide (cafe.arrival c = s.tmr)

/-- The baristas main chains. -/
def chained : List (Fin b) :=
  Rescan.walk s.free s.special 0 0 (List.finRange b)

/-- One move, thread by thread, and the state after it. -/
inductive Moves : CafeThread b n → CafeState b n → Prop
  | second (hm : s.main = .locking) (hl : 0 < s.machineLock) :
    Moves .main
      { s with
        wakeCust := Rescan.link (s.arrivals cafe) s.wakeCust
        customers := fun c =>
          if s.tolTime c = s.tmr then semPostNext s.customers (s.arrivals cafe).head? c + 1
          else semPostNext s.customers (s.arrivals cafe).head? c
        machineLock := if s.arrivals cafe = [] then s.machineLock else s.machineLock - 1
        special := fun _ => false
        wake := Rescan.link s.chained s.wake
        baristas := semPostNext s.baristas s.chained.head?
        orderComp := fun i => if s.finish i = s.tmr then s.orderComp i + 1 else s.orderComp i
        main := .sleeping }
  | tick (hm : s.main = .sleeping) (hq : s.Quiet cafe) :
    Moves .main
      { s with tmr := s.tmr + 1, main := if s.customerRemaining then .locking else .done }
  | wake (i : Fin b) (hpc : s.pc i = .idle) (hb : 0 < s.baristas i) :
    Moves (.barista i)
      { s with baristas := semWait s.baristas i, pc := update s.pc i .lock }
  | take (i : Fin b) (k : Fin n) (hpc : s.pc i = .lock) (hl : 0 < s.machineLock)
      (hk : s.nextOrder i = some k) :
    Moves (.barista i)
      { s with
        wake := update s.wake i none
        baristas := semPostNext s.baristas (s.wake i)
        taken := update s.taken k true
        finish := update s.finish i (s.tmr + cafe.ftime k + 1)
        special := update s.special i true
        pc := update s.pc i (.order k)
        cst := update s.cst i (k + 1) }
  | rest (i : Fin b) (hpc : s.pc i = .lock) (hl : 0 < s.machineLock)
      (hk : s.nextOrder i = none) :
    Moves (.barista i)
      { s with
        wake := update s.wake i none
        baristas := semPostNext s.baristas (s.wake i)
        pc := update s.pc i .idle
        cst := update s.cst i (max (s.cst i) s.totalorders) }
  | gone (i : Fin b) (k : Fin n) (hpc : s.pc i = .order k) (hb : 0 < s.baristas i)
      (hc : s.complete k = true) :
    Moves (.barista i)
      { s with
        wake := update s.wake i none
        baristas := semPostNext (semWait s.baristas i) (s.wake i)
        finish := update s.finish i (-1)
        pc := update s.pc i .idle }
  | start (i : Fin b) (k : Fin n) (hpc : s.pc i = .order k) (hb : 0 < s.baristas i)
      (hc : s.complete k = false) :
    Moves (.barista i)
      { s with
        wake := update s.wake i none
        baristas := semPostNext (semWait s.baristas i) (s.wake i)
        pc := update s.pc i (.preparing k) }
  | finish (i : Fin b) (k : Fin n) (hpc : s.pc i = .preparing k) (ho : 0 < s.orderComp i) :
    Moves (.barista i)
      { s with
        orderComp := semWait s.orderComp i
        wasted := if s.complete k then s.wasted + 1 else s.wasted
        complete := update s.complete k true
        customers := semPost s.customers k
        pc := update s.pc i .idle }
  | enter (c : Fin n) (hpc : s.cpc c = .outside) (hc : 0 < s.customers c) :
    Moves (.customer c)
      { s with
        totalorders := s.totalorders + 1
        wakeCust := update s.wakeCust c none
        customers := semPostNext (semWait s.customers c) (s.wakeCust c)
        machineLock := if s.wakeCust c = none then s.machineLock + 1 else s.machineLock
        tolTime := update s.tolTime c (cafe.arrival c + (cafe.customer c).tolTime + 1)
        cpc := update s.cpc c .waiting }
  | collect (c : Fin n) (hpc : s.cpc c = .waiting) (hc : 0 < s.customers c)
      (hd : s.complete c = true) :
    Moves (.customer c)
      { s with
        customers := semWait s.customers c
        waitTime := s.waitTime + (s.tmr - cafe.arrival c - cafe.ftime c)
        cpc := update s.cpc c .collected }
  | leave (c : Fin n) (hpc : s.cpc c = .waiting) (hc : 0 < s.customers c)
      (hd : s.complete c = false) :
    Moves (.customer c)
      { s with
        customers := semWait s.customers c
        waitTime := s.waitTime + ((cafe.customer c).tolTime + 1)
        complete := update s.complete c true
        cpc := update s.cpc c .left }

variable {cafe s} {t : CafeState b n}

theorem forward_eq (i : Fin b) :
    s.forward i = { s with
      wake := update s.wake i none, baristas := semPostNext s.baristas (s.wake i) } := by
  unfold forward
  cases h : s.wake i with
  | none => simp [← h, semPostNext]
  | some j => rfl

theorem letIn_eq (c : Fin n) :
    s.letIn c = { s with
      wakeCust := update s.wakeCust c none
      customers := semPostNext s.customers (s.wakeCust c)
      machineLock := if s.wakeCust c = none then s.machineLock + 1 else s.machineLock } := by
  unfold letIn
  cases h : s.wakeCust c with
  | none => simp [← h, semPostNext]
  | some d => rfl

theorem nodup_arrivals : (s.arrivals cafe).Nodup :=
  (List.nodup_finRange n).filter _

theorem nodup_chained : s.chained.Nodup :=
  ((List.nodup_finRange b).filter _).sublist (Rescan.walk_sublist ..)

theorem enterCustomers_eq :
    s.enterCustomers cafe = { s with
      wakeCust := Rescan.link (s.arrivals cafe) s.wakeCust
      customers := semPostNext s.customers (s.arrivals cafe).head?
      machineLock := if s.arrivals cafe = [] then s.machineLock else s.machineLock - 1 } := by
  have hline : (Rescan.chain (s.toEnterCustomer cafe) (n + 1) 1 fun _ => false).1 =
      s.arrivals cafe := Rescan.chain_eq_filter (List.nodup_finRange n) (by simp)
  unfold enterCustomers
  simp only [hline]
  cases s.arrivals cafe with
  | nil => rfl
  | cons c line => rfl

theorem wakeBaristas_eq :
    s.wakeBaristas = { s with
      special := fun _ => false
      wake := Rescan.link s.chained s.wake
      baristas := semPostNext s.baristas s.chained.head? } := by
  have hline : Rescan.chain s.freeBarista (b + 1) 1 s.special =
      (s.chained, fun _ => false) := by
    rw [freeBarista, Rescan.chain_eq_walk (List.nodup_finRange b) (by simp)]
    simp [chained]
  unfold wakeBaristas
  simp only [hline]
  cases s.chained with
  | nil => rfl
  | cons i line => rfl

theorem moves_of_main (h : s.mainMove cafe = some t) : s.Moves cafe .main t := by
  unfold mainMove at h
  split at h
  case h_1 hm =>
    split_ifs at h with hl
    rw [enterCustomers_eq, wakeBaristas_eq] at h
    obtain rfl := Option.some.inj h
    exact .second hm hl
  case h_2 hm =>
    split_ifs at h with hq
    obtain rfl := Option.some.inj h
    exact .tick hm hq
  case h_3 => cases h

theorem moves_of_barista {i : Fin b} (h : s.baristaMove cafe i = some t) :
    s.Moves cafe (.barista i) t := by
  unfold baristaMove at h
  split at h
  case h_1 hpc =>
    split_ifs at h with hb
    obtain rfl := Option.some.inj h
    exact .wake i hpc hb
  case h_2 hpc =>
    split_ifs at h with hl
    obtain rfl := Option.some.inj h
    rw [forward_eq]
    cases hk : s.nextOrder i with
    | none =>
      have hk' : nextOrder { s with
        wake := update s.wake i none, baristas := semPostNext s.baristas (s.wake i) } i = none := hk
      rw [scan, hk']
      exact .rest i hpc hl hk
    | some k =>
      have hk' : nextOrder { s with
        wake := update s.wake i none, baristas := semPostNext s.baristas (s.wake i) } i = some k := hk
      rw [scan, hk']
      exact .take i k hpc hl hk
  case h_3 k hpc =>
    split_ifs at h with hb
    obtain rfl := Option.some.inj h
    rw [forward_eq]
    cases hc : s.complete k with
    | true =>
      rw [CafeState.start, if_pos hc]
      exact .gone i k hpc hb hc
    | false =>
      rw [CafeState.start, if_neg (by simp [hc])]
      exact .start i k hpc hb hc
  case h_4 k hpc =>
    split_ifs at h with ho
    obtain rfl := Option.some.inj h
    exact .finish i k hpc ho

theorem moves_of_customer {c : Fin n} (h : s.customerMove cafe c = some t) :
    s.Moves cafe (.customer c) t := by
  unfold customerMove at h
  split_ifs at h with hc
  split at h
  case h_1 hpc =>
    obtain rfl := Option.some.inj h
    rw [CafeState.enter, letIn_eq]
    exact .enter c hpc hc
  case h_2 hpc =>
    obtain rfl := Option.some.inj h
    cases hd : s.complete c with
    | true =>
      rw [settle, if_pos hd]
      exact .collect c hpc hc hd
    | false =>
      rw [settle, if_neg (by simp [hd])]
      exact .leave c hpc hc hd
  all_goals cases h

theorem moves_of_move {th : CafeThread b n} (h : s.move cafe th = some t) :
    s.Moves cafe th t := by
  cases th with
  | main => exact moves_of_main h
  | barista i => exact moves_of_barista h
  | customer c => exact moves_of_customer h

theorem move_of_moves {th : CafeThread b n} (h : s.Moves cafe th t) :
    s.move cafe th = some t := by
  cases h with
  | second hm hl =>
    simp only [move, mainMove, hm, hl, ↓reduceIte, enterCustomers_eq, wakeBaristas_eq]
    rfl
  | tick hm hq =>
    simp only [move, mainMove, hm, hq, ↓reduceIte]
    rfl
  | wake i hpc hb => simp [move, baristaMove, hpc, hb, goto]
  | take i k hpc hl hk =>
    have hk' : nextOrder { s with
      wake := update s.wake i none, baristas := semPostNext s.baristas (s.wake i) } i = some k := hk
    simp only [move, baristaMove, hpc, hl, ↓reduceIte, forward_eq, scan, hk']
  | rest i hpc hl hk =>
    have hk' : nextOrder { s with
      wake := update s.wake i none, baristas := semPostNext s.baristas (s.wake i) } i = none := hk
    simp only [move, baristaMove, hpc, hl, ↓reduceIte, forward_eq, scan, hk']
  | gone i k hpc hb hc =>
    simp [move, baristaMove, hpc, hb, forward_eq, CafeState.start, hc, goto]
  | start i k hpc hb hc =>
    simp [move, baristaMove, hpc, hb, forward_eq, CafeState.start, hc, goto]
  | finish i k hpc ho => simp [move, baristaMove, hpc, ho, finishOrder]
  | enter c hpc hc => simp [move, customerMove, hpc, hc, CafeState.enter, letIn_eq]
  | collect c hpc hc hd => simp [move, customerMove, hpc, hc, settle, hd]
  | leave c hpc hc hd => simp [move, customerMove, hpc, hc, settle, hd]

/-! ## Who is woken, and who is blocked -/

theorem mem_arrivals {c : Fin n} : c ∈ s.arrivals cafe ↔ cafe.arrival c = s.tmr := by
  simp [arrivals]

theorem ready_of_mem_chained {i : Fin b} (hi : i ∈ s.chained) :
    s.finish i ≤ s.tmr ∨ s.special i = true := by
  have := (Rescan.walk_sublist s.free s.special 0 0 (List.finRange b)).subset hi
  simpa [free] using this

/-- What a blocked barista waits for. -/
theorem Quiet.barista (h : s.Quiet cafe) (i : Fin b) :
    (s.pc i ≠ .lock → (∀ k, s.pc i ≠ .preparing k) → s.baristas i = 0) ∧
    (s.pc i = .lock → s.machineLock = 0) ∧
    (∀ k, s.pc i = .preparing k → s.orderComp i = 0) := by
  have hi := h.1 i
  unfold baristaMove at hi
  cases hpc : s.pc i <;> simpa [hpc] using hi

/-- A blocked customer waits for a wake-up. -/
theorem Quiet.customer (h : s.Quiet cafe) {c : Fin n}
    (hc : s.cpc c = .outside ∨ s.cpc c = .waiting) : s.customers c = 0 := by
  have hm := h.2 c
  unfold customerMove at hm
  rcases hc with hc | hc <;> simpa [hc] using hm

/-! ## Schedules -/

/-- A move with its announcement. -/
abbrev CafeEvent (b n : ℕ) : Type :=
  CafeThread b n × Option (CafeNote b n)

/-- The run in which the threads move in this order, if all its steps meet the condition. -/
def exec (cafe : Cafe b n) (C : CafeState b n → CafeEvent b n → Prop)
    [∀ s e, Decidable (C s e)] (s : CafeState b n) :
    List (CafeThread b n) → Option (List (CafeEvent b n) × CafeState b n)
  | [] => some ([], s)
  | th :: ths =>
    if C s (th, s.announce th) then
      (s.move cafe th).bind fun t =>
        (exec cafe C t ths).map fun r => ((th, s.announce th) :: r.1, r.2)
    else none

theorem guarded_of_exec {C : CafeState b n → CafeEvent b n → Prop} [∀ s e, Decidable (C s e)]
    {ths : List (CafeThread b n)} {r : List (CafeEvent b n) × CafeState b n}
    (h : exec cafe C s ths = some r) :
    Transition.Run (Transition.Guarded (Step cafe) C) s r.1 r.2 := by
  induction ths generalizing s r with
  | nil =>
    obtain rfl := Option.some.inj h
    exact .nil
  | cons th ths ih =>
    simp only [exec, Option.ite_none_right_eq_some, Option.bind_eq_some_iff,
      Option.map_eq_some_iff] at h
    obtain ⟨hc, t, ht, r', hr', rfl⟩ := h
    exact (ih hr').cons ⟨⟨ht, rfl⟩, hc⟩

theorem run_of_exec {ths : List (CafeThread b n)} {r : List (CafeEvent b n) × CafeState b n}
    (h : exec cafe (fun _ _ => True) s ths = some r) : Transition.Run (Step cafe) s r.1 r.2 :=
  (guarded_of_exec h).of_guarded

end CafeState

end CowPbs
