import Mathlib
import CowPbs.ParlorSeats

/-!
# Invariants of the parlor

What holds in the second-synchronous runs before the parlor closes : the customers of a
second arrive one by one, and then `machine_lock` is free or held by one machine (`Line`);
the machines that main chains are woken one by one (`Rota`); and so are those whose ice cream
is ready (`Comp`). A machine that is woken when the ingredients are over keeps the wake-up,
and the chain ends there.
-/

open Function Rescan

namespace CowPbs

namespace ParlorMainPc

/-- The parlor is open. -/
def isOpen : ParlorMainPc → Bool
  | loop | locking | starting | chaining | comping | sleeping => true
  | closing | closeMachines | closeCustomers | done => false

/-- The customers of this second are chained. -/
def welcomed : ParlorMainPc → Bool
  | starting | chaining | comping | sleeping => true
  | loop | locking | closing | closeMachines | closeCustomers | done => false

/-- The machines that start in this second are woken. -/
def started : ParlorMainPc → Bool
  | chaining | comping | sleeping => true
  | loop | locking | starting | closing | closeMachines | closeCustomers | done => false

end ParlorMainPc

namespace MachinePc

variable {o : ℕ}

/-- The order of a machine that has one. -/
def job : MachinePc o → Option (Fin o)
  | took k | order k | preparing k | check k => some k
  | off | idle | lock | scan | closed => none

/-- The machine has `machine_lock`. -/
def locked : MachinePc o → Bool
  | scan | took _ => true
  | off | idle | lock | order _ | preparing _ | check _ | closed => false

/-- The machine is not at the `sem_wait` of another second. -/
def active : MachinePc o → Bool
  | lock | scan | took _ | check _ => true
  | off | idle | order _ | preparing _ | closed => false

end MachinePc

namespace ParlorState

variable {n p o q : ℕ} {parlor : Parlor n p o q} {s t : ParlorState n p o q}
  {e : ParlorEvent n p o} {P R : List (Fin n)} {Q : List (Fin p)} {H : Option (Fin n)}

/-- The customers `Q` of this second who are still outside, and the machine that has
`machine_lock`. -/
structure Line (parlor : Parlor n p o q) (s : ParlorState n p o q) (Q : List (Fin p))
    (H : Option (Fin n)) : Prop where
  opened : s.closeSig = false
  notClosed : ∀ i, s.pc i ≠ .closed
  active : ∀ i, (s.pc i).active = true → s.main = .sleeping
  holder : ∀ i, (s.pc i).locked = true ↔ H = some i
  lock : s.machineLock = if Q = [] ∧ H = none then 1 else 0
  alone : Q ≠ [] → H = none
  linked : Linked s.wakeCust Q
  passed : ∀ c ∉ Q, s.wakeCust c = none
  mem : ∀ c ∈ Q, s.cpc c = .outside ∧ parlor.arrival c = s.tmr ∧ s.main.welcomed = true
  posted : ∀ c, s.cpc c = .outside → s.customers c = if Q.head? = some c then 1 else 0
  outside : ∀ c, s.cpc c = .outside →
    s.tmr ≤ parlor.arrival c ∧ (s.main.welcomed = true → parlor.arrival c = s.tmr → c ∈ Q)
  here : ∀ c, s.cpc c ≠ .outside →
    parlor.arrival c ≤ s.tmr ∧ (s.main.welcomed = false → parlor.arrival c < s.tmr)
  served : ∀ i k, (s.pc i).job = some k → s.cpc (parlor.owner k) ≠ .outside

/-- The chained machines `P` that have not been woken yet, except that the first has the
wake-up, or is at `machine_lock` with it. -/
structure Rota (parlor : Parlor n p o q) (s : ParlorState n p o q) (P : List (Fin n)) : Prop where
  linked : Linked s.wake P
  passed : ∀ i, (s.pc i).locked = true → s.wake i = none
  second : s.main ≠ .comping → s.main ≠ .sleeping → P = []
  tokens : ∀ i, s.machines i =
    (if s.pc i = .off ∧ parlor.machineStart i = s.tmr ∧ s.main.started = true then 1 else 0) +
      if P.head? = some i ∧ s.pc i ≠ .lock then 1 else 0
  lock : ∀ i, s.pc i = .lock → P.head? = some i
  member : ∀ i ∈ P, s.pc i = .off ∧ parlor.machineStart i = s.tmr ∨ s.pc i = .idle ∨
    s.pc i = .lock ∨ ∃ k, s.pc i = .order k
  cleared : ∀ i ∈ P, s.special i = false
  notYet : ∀ i, s.pc i = .off → s.tmr ≤ parlor.machineStart i
  begun : ∀ i, s.pc i ≠ .off → parlor.machineStart i ≤ s.tmr ∧
    (s.main.started = false → parlor.machineStart i < s.tmr)
  exhausted : s.ingredientOver = true →
    P.Pairwise fun i j => (∃ k, s.pc j = .order k) → ∃ k, s.pc i = .order k

/-- The machines `R` whose ice cream is ready and that have not been told so, except that the
first has been. -/
structure Comp (s : ParlorState n p o q) (P R : List (Fin n)) : Prop where
  linked : Linked s.wakeComp R
  second : s.main ≠ .sleeping → R = []
  tokens : ∀ i, s.orderComp i = if R.head? = some i then 1 else 0
  member : ∀ i ∈ R, s.finish i = s.tmr ∧
    ((∃ k, s.pc i = .preparing k) ∨ i ∈ P ∧ ∃ k, s.pc i = .order k)

/-- The machines to be woken after a move. -/
def pendingWake (parlor : Parlor n p o q) (s : ParlorState n p o q) (P : List (Fin n)) :
    ParlorThread n p → List (Fin n)
  | .main => if s.main = .chaining then s.chained parlor else P
  | .machine i =>
    match s.pc i with
    | .lock | .order _ => P.tail
    | .idle => if s.ingredientOver then [] else P
    | .off | .scan | .took _ | .preparing _ | .check _ | .closed => P
  | .customer _ => P

/-- The machines to be told that their ice cream is ready after a move. -/
def pendingComp (s : ParlorState n p o q) (R : List (Fin n)) : ParlorThread n p → List (Fin n)
  | .main => if s.main = .comping then s.ready else R
  | .machine i =>
    match s.pc i with
    | .preparing _ => R.tail
    | .off | .idle | .lock | .scan | .took _ | .order _ | .check _ | .closed => R
  | .customer _ => R

/-! ## Who can move -/

theorem Quiet.machine (h : s.Quiet) (i : Fin n) :
    (s.pc i = .off ∨ s.pc i = .idle ∨ (∃ k, s.pc i = .order k) → s.machines i = 0) ∧
    (s.pc i = .lock → s.machineLock = 0) ∧
    (∀ k, s.pc i = .preparing k → s.orderComp i = 0) ∧
    (s.pc i).locked = false ∧ ∀ k, s.pc i ≠ .check k := by
  have hi := h.1 i
  unfold machineBlocked at hi
  cases hpc : s.pc i <;> simp_all [MachinePc.locked]

theorem Quiet.outside (h : s.Quiet) {c : Fin p} (hc : s.cpc c = .outside) :
    s.customers c = 0 := by
  have hb := h.2 c
  simpa [customerBlocked, hc] using hb

theorem Rota.head_of_machines (h : Rota parlor s P) {i : Fin n} (hi : 0 < s.machines i)
    (hpc : s.pc i ≠ .off) : P.head? = some i := by
  by_contra hne
  have := h.tokens i
  simp [hne, hpc] at this
  omega

theorem Comp.head_of_orderComp (h : Comp s P R) {i : Fin n} (hi : 0 < s.orderComp i) :
    R.head? = some i := by
  by_contra hne
  have := h.tokens i
  simp [hne] at this
  omega

theorem Line.sleeping_of_locked (h : Line parlor s Q H) {i : Fin n}
    (hi : (s.pc i).locked = true) : s.main = .sleeping := by
  refine h.active i ?_
  cases hpc : s.pc i <;> simp_all [MachinePc.locked, MachinePc.active]

/-- A machine moves only after main is done with the second. -/
theorem sleeping_of_machine (hL : Line parlor s Q H) (hR : Rota parlor s P) (hC : Comp s P R)
    {i : Fin n} {note : Option (ParlorNote n p o)} (hsync : Sync s (.machine i, note))
    (hs : s.Moves parlor (.machine i) note t) : s.main = .sleeping := by
  have hw := hsync.1 (by simp)
  have hstart : 0 < s.machines i → s.main = .sleeping := by
    intro hi
    by_contra hm
    have htok := hR.tokens i
    have hP : s.main ≠ .comping := by
      intro hm'
      simp [waits, hm'] at hw
    rw [hR.second hP hm] at htok
    have hst : s.main.started = false := by
      cases hm' : s.main <;> simp_all [waits, ParlorMainPc.started]
    simp [hst] at htok
    omega
  cases hs with
  | quit _ hpc hb => exact hstart hb
  | turnOn _ hpc hb => exact hstart hb
  | skip _ hpc hb => exact hstart hb
  | wake _ hpc hb => exact hstart hb
  | resume _ k hpc hb => exact hstart hb
  | acquire _ hpc => exact hL.active i (by simp [hpc, MachinePc.active])
  | pass _ k hpc => exact hL.active i (by simp [hpc, MachinePc.active])
  | reject _ k hpc => exact hL.active i (by simp [hpc, MachinePc.active])
  | take _ k hpc => exact hL.active i (by simp [hpc, MachinePc.active])
  | rest _ hpc => exact hL.active i (by simp [hpc, MachinePc.active])
  | hold _ k hpc => exact hL.active i (by simp [hpc, MachinePc.active])
  | start _ k hpc => exact hL.active i (by simp [hpc, MachinePc.active])
  | serve _ k hpc => exact hL.active i (by simp [hpc, MachinePc.active])
  | lack _ k hpc => exact hL.active i (by simp [hpc, MachinePc.active])
  | finish _ k hpc hb | abandon _ k hpc hb =>
    by_contra hm
    have := hC.head_of_orderComp hb
    rw [hC.second hm] at this
    cases this

/-! ## The line of customers -/

namespace Line

variable {i : Fin n} {x : MachinePc o}

theorem eq_nil_of_quiet (h : Line parlor s Q H) (hq : s.Quiet) : Q = [] ∧ H = none := by
  constructor
  · cases Q with
    | nil => rfl
    | cons c Q =>
      have hc := (h.mem c List.mem_cons_self).1
      have hpost := h.posted c hc
      rw [hq.outside hc] at hpost
      simp at hpost
  · cases H with
    | none => rfl
    | some i =>
      have hl := (h.holder i).2 rfl
      rw [(hq.machine i).2.2.2.1] at hl
      cases hl

/-- No machine is in the middle of a second when all threads are blocked. -/
theorem not_active_of_quiet (h : Line parlor s Q H) (hq : s.Quiet) (i : Fin n) :
    (s.pc i).active = false := by
  obtain ⟨-, hlock, -, hlocked, hcheck⟩ := hq.machine i
  obtain ⟨rfl, rfl⟩ := h.eq_nil_of_quiet hq
  cases hpc : s.pc i with
  | lock =>
    have := h.lock
    rw [hlock hpc] at this
    simp at this
  | check k => exact (hcheck k hpc).elim
  | scan | took k =>
    rw [hpc] at hlocked
    cases hlocked
  | _ => rfl

/-- A move that leaves the line and the lock as they are, and takes no machine elsewhere. -/
theorem of_eq (h : Line parlor s Q H) (hcl : t.closeSig = s.closeSig) (hpc : t.pc = s.pc)
    (hmain : t.main = s.main) (hlock : t.machineLock = s.machineLock)
    (hwake : t.wakeCust = s.wakeCust) (htmr : t.tmr = s.tmr)
    (hcpc : ∀ c, t.cpc c = .outside ↔ s.cpc c = .outside)
    (hcus : ∀ c, s.cpc c = .outside → t.customers c = s.customers c) : Line parlor t Q H where
  opened := hcl.trans h.opened
  notClosed i := by rw [hpc]; exact h.notClosed i
  active i := by rw [hpc, hmain]; exact h.active i
  holder i := by rw [hpc]; exact h.holder i
  lock := hlock.trans h.lock
  alone := h.alone
  linked := by rw [hwake]; exact h.linked
  passed c hc := by rw [hwake]; exact h.passed c hc
  mem c hc := by rw [hcpc, htmr, hmain]; exact h.mem c hc
  posted c hc := by
    rw [hcus c ((hcpc c).1 hc)]
    exact h.posted c ((hcpc c).1 hc)
  outside c hc := by
    rw [htmr, hmain]
    exact h.outside c ((hcpc c).1 hc)
  here c hc := by
    rw [htmr, hmain]
    exact h.here c fun hc' => hc ((hcpc c).2 hc')
  served i k hk hc := by
    rw [hpc] at hk
    exact h.served i k hk ((hcpc _).1 hc)

/-- A machine goes to `x`, and has or gives back the lock. -/
theorem goto {H' : Option (Fin n)} (h : Line parlor s Q H) (hm : s.main = .sleeping)
    (hx : x ≠ .closed) (hjob : ∀ k, x.job = some k → s.cpc (parlor.owner k) ≠ .outside)
    (hH : ∀ j, (update s.pc i x j).locked = true ↔ H' = some j) (halone : Q ≠ [] → H' = none) :
    Line parlor { s with
      machineLock := if Q = [] ∧ H' = none then 1 else 0
      pc := update s.pc i x } Q H' where
  opened := h.opened
  notClosed j := by
    simp only [update_apply]
    split_ifs
    · exact hx
    · exact h.notClosed j
  active j _ := hm
  holder := hH
  lock := rfl
  alone := halone
  linked := h.linked
  passed := h.passed
  mem := h.mem
  posted := h.posted
  outside := h.outside
  here := h.here
  served j k hk := by
    simp only [update_apply] at hk
    split_ifs at hk
    · exact hjob k hk
    · exact h.served j k hk

/-- A machine goes to `x` without touching the lock. -/
theorem move (h : Line parlor s Q H) (hm : s.main = .sleeping) (hx : x ≠ .closed)
    (hjob : ∀ k, x.job = some k → s.cpc (parlor.owner k) ≠ .outside)
    (hl : x.locked = (s.pc i).locked) : Line parlor { s with pc := update s.pc i x } Q H := by
  have hH : ∀ j, (update s.pc i x j).locked = true ↔ H = some j := by
    intro j
    rw [update_apply]
    split_ifs with hji
    · rw [hl, ← hji]
      exact h.holder j
    · exact h.holder j
  have := h.goto hm hx hjob hH h.alone
  rwa [← h.lock] at this

/-- A machine gets the lock. -/
theorem acquire (h : Line parlor s Q H) (hm : s.main = .sleeping) (hl : 0 < s.machineLock) :
    Line parlor { s with
      machineLock := s.machineLock - 1, pc := update s.pc i .scan } Q (some i) := by
  have hfree : Q = [] ∧ H = none := by
    by_contra hne
    rw [h.lock, if_neg hne] at hl
    exact lt_irrefl _ hl
  have hH : ∀ j, (update s.pc i .scan j).locked = true ↔ some i = some j := by
    intro j
    rw [update_apply]
    split_ifs with hji
    · simp [hji, MachinePc.locked]
    · rw [h.holder, hfree.2]
      simp [Ne.symm hji]
  have := h.goto hm (i := i) (x := .scan) (by simp) (by simp [MachinePc.job]) hH
    fun hQ => (hQ hfree.1).elim
  have hzero : s.machineLock - 1 = if Q = [] ∧ some i = none then 1 else 0 := by
    rw [h.lock, if_pos hfree]
    simp
  rwa [hzero]

/-- A machine gives the lock back. -/
theorem release (h : Line parlor s Q H) (hi : (s.pc i).locked = true) (hx : x ≠ .closed)
    (hjob : ∀ k, x.job = some k → s.cpc (parlor.owner k) ≠ .outside) (hxl : x.locked = false) :
    Line parlor { s with
      machineLock := s.machineLock + 1, pc := update s.pc i x } Q none := by
  obtain rfl := (h.holder i).1 hi
  have hQ : Q = [] := by
    by_contra hne
    cases h.alone hne
  have hH : ∀ j, (update s.pc i x j).locked = true ↔ none = some j := by
    intro j
    rw [update_apply]
    split_ifs with hji
    · simp [hxl]
    · rw [h.holder]
      simp [Ne.symm hji]
  have := h.goto (h.sleeping_of_locked hi) hx hjob hH fun _ => rfl
  have hone : s.machineLock + 1 = if Q = [] ∧ (none : Option (Fin n)) = none then 1 else 0 := by
    rw [h.lock, if_neg (by simp)]
    simp [hQ]
  rwa [hone]

/-- The first of the line arrives, and lets the next one in. -/
theorem arrive {c : Fin p} {y : ParlorCustomerPc} (h : Line parlor s Q H)
    (hpc : s.cpc c = .outside) (hb : 0 < s.customers c) (hy : y ≠ .outside) :
    ∃ Q, Line parlor { s with
      wakeCust := update s.wakeCust c none
      machineLock := if s.wakeCust c = none then s.machineLock + 1 else s.machineLock
      customers := semPostNext (semWait s.customers c) (s.wakeCust c)
      cpc := update s.cpc c y } Q H := by
  -- `c` has the wake-up
  have hhead : Q.head? = some c := by
    by_contra hne
    rw [h.posted c hpc, if_neg hne] at hb
    exact lt_irrefl _ hb
  obtain ⟨Q, rfl⟩ := List.head?_eq_some_iff.1 hhead
  obtain ⟨-, harr, hwel⟩ := h.mem c List.mem_cons_self
  have hcQ := h.linked.notMem
  have hnext := h.linked.head
  have hH := h.alone (by simp)
  have hone : s.customers c = 1 := by simpa using h.posted c hpc
  have hout : ∀ d, update s.cpc c y d = .outside → d ≠ c ∧ s.cpc d = .outside := by
    intro d hd
    rw [update_apply] at hd
    split_ifs at hd with hdc
    · exact (hy hd).elim
    · exact ⟨hdc, hd⟩
  refine ⟨Q, h.opened, h.notClosed, h.active, h.holder, ?_, fun _ => hH, h.linked.tail,
    fun d hd => ?_, fun d hd => ?_, fun d hd => ?_, fun d hd => ?_, fun d hd => ?_,
    fun j k hk hd => ?_⟩
  · have hl : s.machineLock = 0 := by simpa using h.lock
    simp [hnext, hl, hH]
  · by_cases hdc : d = c
    · simp [hdc]
    · simpa [hdc] using h.passed d (by simp [hdc, hd])
  · have hdc : d ≠ c := by
      rintro rfl
      exact hcQ hd
    simpa [hdc] using h.mem d (List.mem_cons_of_mem _ hd)
  · obtain ⟨hdc, hd⟩ := hout d hd
    have hz : s.customers d = 0 := by simpa [Ne.symm hdc] using h.posted d hd
    simp [hnext, hdc, hz]
  · obtain ⟨hdc, hd⟩ := hout d hd
    obtain ⟨hle, hin⟩ := h.outside d hd
    exact ⟨hle, fun hw ha => by simpa [hdc] using hin hw ha⟩
  · by_cases hdc : d = c
    · rw [hdc]
      refine ⟨harr.le, fun hw => ?_⟩
      have hw : s.main.welcomed = false := hw
      rw [hwel] at hw
      cases hw
    · exact h.here d (by simpa [hdc] using hd)
  · exact h.served j k hk (hout _ hd).2

/-- Main goes on, in the same second and with the customers chained. -/
theorem advance {m : ParlorMainPc} (h : Line parlor s Q H) (hw : s.main.welcomed = true)
    (hm : s.main ≠ .sleeping) (hw' : m.welcomed = true) :
    Line parlor { s with main := m } Q H where
  opened := h.opened
  notClosed := h.notClosed
  active i hi := (hm (h.active i hi)).elim
  holder := h.holder
  lock := h.lock
  alone := h.alone
  linked := h.linked
  passed := h.passed
  mem c hc := ⟨(h.mem c hc).1, (h.mem c hc).2.1, hw'⟩
  posted := h.posted
  outside c hc := ⟨(h.outside c hc).1, fun _ => (h.outside c hc).2 hw⟩
  here c hc := by
    refine ⟨(h.here c hc).1, fun hf => ?_⟩
    have hf : m.welcomed = false := hf
    rw [hw'] at hf
    cases hf
  served := h.served

/-- Before main chains the customers nobody is in the line. -/
theorem eq_nil_of_not_welcomed (h : Line parlor s Q H) (hw : s.main.welcomed = false) :
    Q = [] := by
  cases Q with
  | nil => rfl
  | cons c Q =>
    have := (h.mem c List.mem_cons_self).2.2
    rw [hw] at this
    cases this

theorem holder_eq_none (h : Line parlor s Q H) (hm : s.main ≠ .sleeping) : H = none := by
  cases H with
  | none => rfl
  | some i => exact (hm (h.sleeping_of_locked ((h.holder i).2 rfl))).elim

/-- The customers of the second are chained. -/
theorem welcome (h : Line parlor s Q H) (hm : s.main = .locking) :
    Line parlor { s with
      wakeCust := Rescan.link (s.arrivals parlor) s.wakeCust
      customers := semPostNext s.customers (s.arrivals parlor).head?
      machineLock := if s.arrivals parlor = [] then s.machineLock else s.machineLock - 1
      main := .starting } (s.arrivals parlor) none := by
  have hw : s.main.welcomed = false := by rw [hm]; rfl
  obtain rfl := h.eq_nil_of_not_welcomed hw
  obtain rfl := h.holder_eq_none (by simp [hm])
  have hmem : ∀ c, c ∈ s.arrivals parlor ↔ parlor.arrival c = s.tmr := by simp [arrivals]
  have hone : s.machineLock = 1 := by simpa using h.lock
  refine ⟨h.opened, h.notClosed, fun i hi => ?_, h.holder, ?_, fun _ => rfl,
    linked_link nodup_arrivals _, fun c hc => ?_, fun c hc => ?_, fun c hc => ?_, fun c hc => ?_,
    fun c hc => ?_, h.served⟩
  · have := h.active i hi
    rw [hm] at this
    cases this
  · simp only [hone, and_true]
  · simp only [link_apply nodup_arrivals, if_neg hc]
    exact h.passed c (by simp)
  · have harr := (hmem c).1 hc
    refine ⟨?_, harr, rfl⟩
    by_contra hne
    have := (h.here c hne).2 hw
    omega
  · have hz : s.customers c = 0 := by simpa using h.posted c hc
    simp [hz]
  · exact ⟨(h.outside c hc).1, fun _ => (hmem c).2⟩
  · exact ⟨(h.here c hc).1, by simp [ParlorMainPc.welcomed]⟩

/-- A new second begins. -/
theorem tick (h : Line parlor s Q H) (hm : s.main = .sleeping) (hq : s.Quiet) :
    Line parlor { s with tmr := s.tmr + 1, main := .loop } [] none := by
  obtain ⟨rfl, rfl⟩ := h.eq_nil_of_quiet hq
  have hw : s.main.welcomed = true := by rw [hm]; rfl
  refine ⟨h.opened, h.notClosed, fun i hi => ?_, h.holder, h.lock, h.alone, h.linked, h.passed,
    by simp, h.posted, fun c hc => ⟨?_, by simp [ParlorMainPc.welcomed]⟩, fun c hc => ?_, h.served⟩
  · have hi : (s.pc i).active = true := hi
    rw [h.not_active_of_quiet hq i] at hi
    cases hi
  · obtain ⟨hle, hin⟩ := h.outside c hc
    have hne : parlor.arrival c ≠ s.tmr := fun ha => List.not_mem_nil (hin hw ha)
    show s.tmr + 1 ≤ _
    omega
  · have := (h.here c hc).1
    show _ ≤ s.tmr + 1 ∧ (_ → _ < s.tmr + 1)
    omega

theorem goOn {b : Bool} (h : Line parlor s Q H) (hm : s.main = .loop) :
    Line parlor { s with ingredientOver := b, main := .locking } Q H := by
  have hw : s.main.welcomed = false := by rw [hm]; rfl
  obtain rfl := h.eq_nil_of_not_welcomed hw
  refine ⟨h.opened, h.notClosed, fun i hi => ?_, h.holder, h.lock, h.alone, h.linked, h.passed,
    by simp, h.posted, fun c hc => ⟨(h.outside c hc).1, by simp [ParlorMainPc.welcomed]⟩,
    fun c hc => ⟨(h.here c hc).1, fun _ => (h.here c hc).2 hw⟩, h.served⟩
  have := h.active i hi
  rw [hm] at this
  cases this

/-- A machine with an order keeps a customer who has arrived. -/
theorem job_of_eq {k : Fin o} (h : Line parlor s Q H) (hk : (s.pc i).job = some k) :
    ∀ l, some k = some l → s.cpc (parlor.owner l) ≠ .outside := by
  intro l hl
  obtain rfl := Option.some.inj hl
  exact h.served i k hk

/-- A machine moves. -/
theorem step_machine {note : Option (ParlorNote n p o)} (h : Line parlor s Q H)
    (hm : s.main = .sleeping) (hs : s.Moves parlor (.machine i) note t) :
    ∃ Q H, Line parlor t Q H := by
  have hnone : ∀ l : Fin o, none = some l → s.cpc (parlor.owner l) ≠ .outside := by simp
  cases hs with
  | quit _ hpc hb hc | abandon _ k hpc hb hc =>
    rw [h.opened] at hc
    cases hc
  | turnOn _ hpc hb =>
    have := h.move (i := i) (x := .idle) hm (by simp) hnone (by rw [hpc]; rfl)
    exact ⟨Q, H, this.of_eq rfl rfl rfl rfl rfl rfl (fun _ => Iff.rfl) fun _ _ => rfl⟩
  | wake _ hpc hb =>
    have := h.move (i := i) (x := .lock) hm (by simp) hnone (by rw [hpc]; rfl)
    exact ⟨Q, H, this.of_eq rfl rfl rfl rfl rfl rfl (fun _ => Iff.rfl) fun _ _ => rfl⟩
  | acquire _ hpc hl =>
    have := h.acquire (i := i) hm hl
    exact ⟨Q, _, this.of_eq rfl rfl rfl rfl rfl rfl (fun _ => Iff.rfl) fun _ _ => rfl⟩
  | take _ k hpc hk hp hsh hf =>
    -- the customer has arrived, since the line is empty
    have hlk : (s.pc i).locked = true := by rw [hpc]; rfl
    obtain rfl := (h.holder i).1 hlk
    have hk : s.cpc (parlor.owner k) ≠ .outside := by
      intro hout
      obtain ⟨hle, hin⟩ := h.outside _ hout
      have hmem := hin (by rw [hm]; rfl)
      simp only [fits, decide_eq_true_eq] at hf
      have hQ := h.alone (List.ne_nil_of_mem (hmem (by omega)))
      cases hQ
    have := h.move (i := i) (x := .took k) hm (by simp) (by
      intro l hl
      obtain rfl := Option.some.inj hl
      exact hk) (by rw [hpc]; rfl)
    exact ⟨Q, _, this.of_eq rfl rfl rfl rfl rfl rfl (fun _ => Iff.rfl) fun _ _ => rfl⟩
  | rest _ hpc =>
    have := h.release (i := i) (x := .idle) (by rw [hpc]; rfl) (by simp) hnone rfl
    exact ⟨Q, _, this.of_eq rfl rfl rfl rfl rfl rfl (fun _ => Iff.rfl) fun _ _ => rfl⟩
  | hold _ k hpc =>
    have := h.release (i := i) (x := .order k) (by rw [hpc]; rfl) (by simp)
      (h.job_of_eq (i := i) (by rw [hpc]; rfl)) rfl
    exact ⟨Q, _, this.of_eq rfl rfl rfl rfl rfl rfl (fun _ => Iff.rfl) fun _ _ => rfl⟩
  | start _ k hpc =>
    have := h.release (i := i) (x := .preparing k) (by rw [hpc]; rfl) (by simp)
      (h.job_of_eq (i := i) (by rw [hpc]; rfl)) rfl
    exact ⟨Q, _, this.of_eq rfl rfl rfl rfl rfl rfl (fun _ => Iff.rfl) fun _ _ => rfl⟩
  | resume _ k hpc =>
    have := h.move (i := i) (x := .preparing k) hm (by simp)
      (h.job_of_eq (i := i) (by rw [hpc]; rfl)) (by rw [hpc]; rfl)
    exact ⟨Q, H, this.of_eq rfl rfl rfl rfl rfl rfl (fun _ => Iff.rfl) fun _ _ => rfl⟩
  | finish _ k hpc =>
    have := h.move (i := i) (x := .check k) hm (by simp)
      (h.job_of_eq (i := i) (by rw [hpc]; rfl)) (by rw [hpc]; rfl)
    exact ⟨Q, H, this.of_eq rfl rfl rfl rfl rfl rfl (fun _ => Iff.rfl) fun _ _ => rfl⟩
  | serve _ k hpc =>
    have hk : s.cpc (parlor.owner k) ≠ .outside := h.served i k (by rw [hpc]; rfl)
    have := h.move (i := i) (x := .idle) hm (by simp) hnone (by rw [hpc]; rfl)
    refine ⟨Q, H, this.of_eq rfl rfl rfl rfl rfl rfl (fun _ => Iff.rfl) fun c hc => ?_⟩
    have hck : c ≠ parlor.owner k := by
      rintro rfl
      exact hk hc
    simp [hck]
  | lack _ k hpc =>
    have := h.move (i := i) (x := .idle) hm (by simp) hnone (by rw [hpc]; rfl)
    exact ⟨Q, H, this.of_eq rfl rfl rfl rfl rfl rfl (fun _ => Iff.rfl) fun _ _ => rfl⟩
  | skip | pass | reject =>
    exact ⟨Q, H, h.of_eq rfl rfl rfl rfl rfl rfl (fun _ => Iff.rfl) fun _ _ => rfl⟩

/-- A customer moves. -/
theorem step_customer {c : Fin p} {note : Option (ParlorNote n p o)} (h : Line parlor s Q H)
    (hs : s.Moves parlor (.customer c) note t) : ∃ Q H, Line parlor t Q H := by
  -- a customer who is in the parlor does not touch the line
  have hinside : ∀ {y : ParlorCustomerPc}, s.cpc c ≠ .outside → y ≠ .outside →
      ∀ d, update s.cpc c y d = .outside ↔ s.cpc d = .outside := by
    intro y hc hy d
    by_cases hdc : d = c
    · simp [hdc, hc, hy]
    · simp [hdc]
  have hother : ∀ {d}, s.cpc c ≠ .outside → s.cpc d = .outside → d ≠ c := by
    rintro d hc hd rfl
    exact hc hd
  cases hs with
  | turnAway _ hpc hb hc | turnOut _ hpc hb hc =>
    rw [h.opened] at hc
    cases hc
  | full _ hpc hb =>
    obtain ⟨Q, hQ⟩ := h.arrive (y := .full) hpc hb (by simp)
    exact ⟨Q, H, hQ.of_eq rfl rfl rfl rfl rfl rfl (fun _ => Iff.rfl) fun _ _ => rfl⟩
  | refuse _ hpc hb =>
    obtain ⟨Q, hQ⟩ := h.arrive (y := .refused) hpc hb (by simp)
    exact ⟨Q, H, hQ.of_eq rfl rfl rfl rfl rfl rfl (fun _ => Iff.rfl) fun _ _ => rfl⟩
  | enter _ hpc hb =>
    obtain ⟨Q, hQ⟩ := h.arrive (y := .waiting) hpc hb (by simp)
    exact ⟨Q, H, hQ.of_eq rfl rfl rfl rfl rfl rfl (fun _ => Iff.rfl) fun _ _ => rfl⟩
  | leave _ hpc | call _ hpc =>
    have hc : s.cpc c ≠ .outside := by simp [hpc]
    exact ⟨Q, H, h.of_eq rfl rfl rfl rfl rfl rfl (hinside hc (by simp)) fun _ _ => rfl⟩
  | collect _ hpc =>
    have hc : s.cpc c ≠ .outside := by simp [hpc]
    refine ⟨Q, H, h.of_eq rfl rfl rfl rfl rfl rfl (hinside hc (by simp)) fun d hd => ?_⟩
    simp [hother hc hd]

theorem step (h : Line parlor s Q H) (hsleep : ∀ i, e.1 = .machine i → s.main = .sleeping)
    (hsync : Sync s e) (hs : s.Moves parlor e.1 e.2 t) (ht : t.main.isOpen = true) :
    ∃ Q H, Line parlor t Q H := by
  obtain ⟨th, note⟩ := e
  cases th with
  | machine i => exact h.step_machine (hsleep i rfl) hs
  | customer c => exact h.step_customer hs
  | main =>
    simp only at hs
    cases hs with
    | goOn hm => exact ⟨Q, H, h.goOn hm⟩
    | welcome hm hl => exact ⟨_, _, h.welcome hm⟩
    | startAll hm =>
      have := h.advance (m := .chaining) (by rw [hm]; rfl) (by simp [hm]) rfl
      exact ⟨Q, H, this.of_eq rfl rfl rfl rfl rfl rfl (fun _ => Iff.rfl) fun _ _ => rfl⟩
    | chain hm =>
      have := h.advance (m := .comping) (by rw [hm]; rfl) (by simp [hm]) rfl
      exact ⟨Q, H, this.of_eq rfl rfl rfl rfl rfl rfl (fun _ => Iff.rfl) fun _ _ => rfl⟩
    | comp hm =>
      have := h.advance (m := .sleeping) (by rw [hm]; rfl) (by simp [hm]) rfl
      exact ⟨Q, H, this.of_eq rfl rfl rfl rfl rfl rfl (fun _ => Iff.rfl) fun _ _ => rfl⟩
    | tick hm => exact ⟨_, _, h.tick hm (hsync.2.2 rfl hm)⟩
    | stop | close | closeMachines | closeCustomers => cases ht

theorem boot : Line parlor (boot parlor) [] none := by
  refine ⟨rfl, ?_, ?_, ?_, rfl, ?_, linked_nil _, ?_, ?_, ?_, ?_, ?_, ?_⟩ <;>
    simp [ParlorState.boot, MachinePc.active, MachinePc.locked, MachinePc.job,
      ParlorMainPc.welcomed]

end Line

end ParlorState

end CowPbs
