import Mathlib
import CowPbs.ParlorInv

/-!
# The baton of the parlor

`machine_lock` goes from main to the first customer of the second, from customer to customer,
and from the last of them back to the semaphore, where a machine takes it for its scan. This
module follows it through all interleavings, until the parlor closes : `Baton` says who has
it. A machine that holds it finds every customer arrived whom main has chained
(`Baton.arrived`), so with customers in the order of their arrivals there is always exactly
one owner (`one_owner`). If they come in another order, a machine can still be scanning when
a new second begins, and take an order of a customer whom main has not chained yet
(`taken_after_arrival`).
-/

open Function Rescan Transition

namespace CowPbs

namespace ParlorState

variable {n p o q : ℕ} {parlor : Parlor n p o q} {s t : ParlorState n p o q}
  {es : List (ParlorEvent n p o)} {e : ParlorEvent n p o} {Q : List (Fin p)}
  {H : Option (Fin n)} {c : Fin p} {i : Fin n}

/-- Main has chained the customer in this second or an earlier one. -/
def Called (parlor : Parlor n p o q) (s : ParlorState n p o q) (c : Fin p) : Prop :=
  parlor.arrival c < s.tmr ∨ parlor.arrival c = s.tmr ∧ s.main.welcomed = true

/-- The customers `Q` who were called and are still outside have the baton; if there is none,
the machine `H` or the semaphore has it. -/
structure Baton (parlor : Parlor n p o q) (s : ParlorState n p o q) (Q : List (Fin p))
    (H : Option (Fin n)) : Prop where
  opened : s.closeSig = false
  notClosed : ∀ c, s.cpc c ≠ .closed
  holder : ∀ i, (s.pc i).locked = true ↔ H = some i
  lock : s.machineLock = if Q = [] ∧ H = none then 1 else 0
  alone : Q ≠ [] → H = none
  sorted : Q.Pairwise (· < ·)
  linked : Linked s.wakeCust Q
  passed : ∀ c ∉ Q, s.wakeCust c = none
  mem : ∀ c, c ∈ Q ↔ s.cpc c = .outside ∧ Called parlor s c
  posted : ∀ c, s.cpc c = .outside → s.customers c = if Q.head? = some c then 1 else 0
  here : ∀ c, s.cpc c ≠ .outside → Called parlor s c
  served : ∀ i k, (s.pc i).job = some k → s.cpc (parlor.owner k) ≠ .outside

namespace Baton

theorem boot : Baton parlor (boot parlor) [] none := by
  refine ⟨rfl, ?_, ?_, rfl, ?_, .nil, linked_nil _, ?_, ?_, ?_, ?_, ?_⟩ <;>
    simp [ParlorState.boot, MachinePc.locked, MachinePc.job, ParlorMainPc.welcomed, Called]

/-- When a machine or the semaphore has the baton, whoever was called has arrived. -/
theorem arrived (h : Baton parlor s Q H)
    (hfree : 0 < s.machineLock ∨ ∃ i, (s.pc i).locked = true) (hc : Called parlor s c) :
    s.cpc c ≠ .outside := by
  have hQ : Q = [] := by
    rcases hfree with hl | ⟨i, hl⟩
    · by_contra hne
      rw [h.lock, if_neg fun hh => hne hh.1] at hl
      exact lt_irrefl _ hl
    · by_contra hne
      have := (h.holder i).1 hl
      rw [h.alone hne] at this
      cases this
  intro hout
  have := (h.mem c).2 ⟨hout, hc⟩
  rw [hQ] at this
  cases this

/-- A move that leaves the baton where it is. -/
theorem of_eq (h : Baton parlor s Q H) (hcl : t.closeSig = s.closeSig) (hpc : t.pc = s.pc)
    (hlock : t.machineLock = s.machineLock) (hwake : t.wakeCust = s.wakeCust)
    (hcall : ∀ c, Called parlor t c ↔ Called parlor s c)
    (hcpc : ∀ c, t.cpc c = .outside ↔ s.cpc c = .outside) (hnc : ∀ c, t.cpc c ≠ .closed)
    (hcus : ∀ c, s.cpc c = .outside → t.customers c = s.customers c) : Baton parlor t Q H where
  opened := hcl.trans h.opened
  notClosed := hnc
  holder i := by rw [hpc]; exact h.holder i
  lock := hlock.trans h.lock
  alone := h.alone
  sorted := h.sorted
  linked := by rw [hwake]; exact h.linked
  passed c hc := by rw [hwake]; exact h.passed c hc
  mem c := by rw [hcpc, hcall]; exact h.mem c
  posted c hc := by
    rw [hcus c ((hcpc c).1 hc)]
    exact h.posted c ((hcpc c).1 hc)
  here c hc := by
    rw [hcall]
    exact h.here c fun hc' => hc ((hcpc c).2 hc')
  served i k hk hc := by
    rw [hpc] at hk
    exact h.served i k hk ((hcpc _).1 hc)

/-- A machine goes to `x`, and has or gives back the baton. -/
theorem goto {x : MachinePc o} {H' : Option (Fin n)} (h : Baton parlor s Q H)
    (hjob : ∀ k, x.job = some k → s.cpc (parlor.owner k) ≠ .outside)
    (hH : ∀ j, (update s.pc i x j).locked = true ↔ H' = some j) (halone : Q ≠ [] → H' = none) :
    Baton parlor { s with
      machineLock := if Q = [] ∧ H' = none then 1 else 0
      pc := update s.pc i x } Q H' where
  opened := h.opened
  notClosed := h.notClosed
  holder := hH
  lock := rfl
  alone := halone
  sorted := h.sorted
  linked := h.linked
  passed := h.passed
  mem := h.mem
  posted := h.posted
  here := h.here
  served j k hk := by
    simp only [update_apply] at hk
    split_ifs at hk
    · exact hjob k hk
    · exact h.served j k hk

/-- A machine goes to `x` without touching the baton. -/
theorem move {x : MachinePc o} (h : Baton parlor s Q H)
    (hjob : ∀ k, x.job = some k → s.cpc (parlor.owner k) ≠ .outside)
    (hl : x.locked = (s.pc i).locked) : Baton parlor { s with pc := update s.pc i x } Q H := by
  have hH : ∀ j, (update s.pc i x j).locked = true ↔ H = some j := by
    intro j
    rw [update_apply]
    split_ifs with hji
    · rw [hl, ← hji]
      exact h.holder j
    · exact h.holder j
  have := h.goto hjob hH h.alone
  rwa [← h.lock] at this

/-- A machine gets the baton. -/
theorem acquire (h : Baton parlor s Q H) (hl : 0 < s.machineLock) :
    Baton parlor { s with
      machineLock := s.machineLock - 1, pc := update s.pc i .scan } Q (some i) := by
  have hfree : Q = [] ∧ H = none := by
    by_contra hne
    rw [h.lock, if_neg hne] at hl
    exact lt_irrefl _ hl
  have hH : ∀ j, (update s.pc i .scan j).locked = true ↔ some i = some j := by
    intro j
    rw [update_apply]
    split_ifs with hji
    · simp [hji, MachinePc.locked]
    · rw [h.holder, hfree.2]
      simp [Ne.symm hji]
  have := h.goto (i := i) (x := .scan) (by simp [MachinePc.job]) hH fun hQ => (hQ hfree.1).elim
  have hzero : s.machineLock - 1 = if Q = [] ∧ some i = none then 1 else 0 := by
    rw [h.lock, if_pos hfree]
    simp
  rwa [hzero]

/-- A machine gives the baton back. -/
theorem release {x : MachinePc o} (h : Baton parlor s Q H) (hi : (s.pc i).locked = true)
    (hjob : ∀ k, x.job = some k → s.cpc (parlor.owner k) ≠ .outside) (hxl : x.locked = false) :
    Baton parlor { s with
      machineLock := s.machineLock + 1, pc := update s.pc i x } Q none := by
  obtain rfl := (h.holder i).1 hi
  have hQ : Q = [] := by
    by_contra hne
    cases h.alone hne
  have hH : ∀ j, (update s.pc i x j).locked = true ↔ none = some j := by
    intro j
    rw [update_apply]
    split_ifs with hji
    · simp [hxl]
    · rw [h.holder]
      simp [Ne.symm hji]
  have := h.goto hjob hH fun _ => rfl
  have hone : s.machineLock + 1 = if Q = [] ∧ (none : Option (Fin n)) = none then 1 else 0 := by
    rw [h.lock, if_neg (by simp)]
    simp [hQ]
  rwa [hone]

/-- A customer who moves from outside has the baton. -/
theorem head_of_customers (h : Baton parlor s Q H) (hpc : s.cpc c = .outside)
    (hb : 0 < s.customers c) : Q.head? = some c := by
  by_contra hne
  rw [h.posted c hpc, if_neg hne] at hb
  exact lt_irrefl _ hb

/-- The first of those called arrives, and passes the baton on. -/
theorem arrive {y : ParlorCustomerPc} (h : Baton parlor s (c :: Q) H)
    (hpc : s.cpc c = .outside) (hy : y ≠ .outside) (hy' : y ≠ .closed) :
    Baton parlor { s with
      wakeCust := update s.wakeCust c none
      machineLock := if s.wakeCust c = none then s.machineLock + 1 else s.machineLock
      customers := semPostNext (semWait s.customers c) (s.wakeCust c)
      cpc := update s.cpc c y } Q H := by
  have hcQ := h.linked.notMem
  have hnext := h.linked.head
  have hH := h.alone (by simp)
  have hone : s.customers c = 1 := by simpa using h.posted c hpc
  have hout : ∀ d, update s.cpc c y d = .outside ↔ d ≠ c ∧ s.cpc d = .outside := by
    intro d
    by_cases hdc : d = c
    · simp [hdc, hy]
    · simp [hdc]
  refine ⟨h.opened, fun d => ?_, h.holder, ?_, fun _ => hH, (List.pairwise_cons.1 h.sorted).2,
    h.linked.tail, fun d hd => ?_, fun d => ?_, fun d hd => ?_, fun d hd => ?_,
    fun j k hk hd => ?_⟩
  · by_cases hdc : d = c
    · simpa [hdc] using hy'
    · simpa [hdc] using h.notClosed d
  · have hl : s.machineLock = 0 := by simpa using h.lock
    simp [hnext, hl, hH]
  · by_cases hdc : d = c
    · simp [hdc]
    · simpa [hdc] using h.passed d (by simp [hdc, hd])
  · show _ ↔ update s.cpc c y d = .outside ∧ Called parlor s d
    rw [hout d, and_assoc, ← h.mem d]
    by_cases hdc : d = c
    · simp [hdc, hcQ]
    · simp [hdc]
  · obtain ⟨hdc, hd⟩ := (hout d).1 hd
    have hz : s.customers d = 0 := by simpa [Ne.symm hdc] using h.posted d hd
    simp [hnext, hdc, hz]
  · by_cases hdc : d = c
    · rw [hdc]
      exact ((h.mem c).1 List.mem_cons_self).2
    · exact h.here d (by simpa [hdc] using hd)
  · exact h.served j k hk ((hout _).1 hd).2

/-- The customers of the second are called. -/
theorem welcome (h : Baton parlor s Q H) (hm : s.main = .locking) (hl : 0 < s.machineLock) :
    Baton parlor { s with
      wakeCust := Rescan.link (s.arrivals parlor) s.wakeCust
      customers := semPostNext s.customers (s.arrivals parlor).head?
      machineLock := if s.arrivals parlor = [] then s.machineLock else s.machineLock - 1
      main := .starting } (s.arrivals parlor) none := by
  obtain ⟨rfl, rfl⟩ : Q = [] ∧ H = none := by
    by_contra hne
    rw [h.lock, if_neg hne] at hl
    exact lt_irrefl _ hl
  have hw : s.main.welcomed = false := by rw [hm]; rfl
  have hmem : ∀ c, c ∈ s.arrivals parlor ↔ parlor.arrival c = s.tmr := by simp [arrivals]
  have hone : s.machineLock = 1 := by simpa using h.lock
  -- so far those were called who came before this second, and they have arrived
  have hout : ∀ c, s.cpc c = .outside → s.tmr ≤ parlor.arrival c := by
    intro c hc
    by_contra hlt
    have := (h.mem c).2 ⟨hc, .inl (not_le.1 hlt)⟩
    cases this
  have hin : ∀ c, s.cpc c ≠ .outside → parlor.arrival c < s.tmr := by
    intro c hc
    rcases h.here c hc with hlt | ⟨-, hw'⟩
    · exact hlt
    · rw [hw] at hw'
      cases hw'
  refine ⟨h.opened, h.notClosed, h.holder, ?_, fun _ => rfl,
    (List.pairwise_lt_finRange p).filter _, linked_link nodup_arrivals _, fun c hc => ?_,
    fun c => ?_, fun c hc => ?_, fun c hc => .inl (hin c hc), h.served⟩
  · simp only [hone, and_true]
  · simp only [link_apply nodup_arrivals, if_neg hc]
    exact h.passed c (by simp)
  · rw [hmem]
    constructor
    · intro ha
      refine ⟨?_, .inr ⟨ha, rfl⟩⟩
      by_contra hc
      have := hin c hc
      omega
    · rintro ⟨hc, hlt | ⟨ha, -⟩⟩
      · have hlt : parlor.arrival c < s.tmr := hlt
        have := hout c hc
        omega
      · exact ha
  · have hz : s.customers c = 0 := by simpa using h.posted c hc
    simp [hz]

/-- Main goes on without calling anybody. -/
theorem step_main {note : Option (ParlorNote n p o)} (h : Baton parlor s Q H)
    (hcl : s.main = .closeMachines ∨ s.main = .closeCustomers → s.closeSig = true)
    (hs : s.Moves parlor .main note t) (ht : t.closeSig = false) :
    ∃ Q H, Baton parlor t Q H := by
  have hkeep : t.closeSig = s.closeSig → t.pc = s.pc → t.machineLock = s.machineLock →
      t.wakeCust = s.wakeCust → t.cpc = s.cpc → t.customers = s.customers →
      (∀ c, Called parlor t c ↔ Called parlor s c) → ∃ Q H, Baton parlor t Q H := by
    intro hcl hpc hlock hwake hcpc hcus hcall
    refine ⟨Q, H, h.of_eq hcl hpc hlock hwake hcall (fun c => by rw [hcpc]) (fun c => ?_)
      fun c _ => by rw [hcus]⟩
    rw [hcpc]
    exact h.notClosed c
  cases hs with
  | goOn hm | stop hm | startAll hm | chain hm | comp hm =>
    exact hkeep rfl rfl rfl rfl rfl rfl fun c => by simp [Called, hm, ParlorMainPc.welcomed]
  | welcome hm hl => exact ⟨_, _, h.welcome hm hl⟩
  | tick hm =>
    refine hkeep rfl rfl rfl rfl rfl rfl fun c => ?_
    simp [Called, hm, ParlorMainPc.welcomed]
    omega
  | close => cases ht
  | closeMachines hm =>
    rw [h.opened] at hcl
    cases hcl (.inl hm)
  | closeCustomers hm =>
    rw [h.opened] at hcl
    cases hcl (.inr hm)

/-- A machine moves. -/
theorem step_machine {note : Option (ParlorNote n p o)} (h : Baton parlor s Q H)
    (htake : ∀ k, note = some (.takes i k s.tmr) → s.cpc (parlor.owner k) ≠ .outside)
    (hs : s.Moves parlor (.machine i) note t) : ∃ Q H, Baton parlor t Q H := by
  have hnone : ∀ l : Fin o, none = some l → s.cpc (parlor.owner l) ≠ .outside := by simp
  have hjob : ∀ {x : MachinePc o} {k}, s.pc i = x → x.job = some k →
      ∀ l, some k = some l → s.cpc (parlor.owner l) ≠ .outside := by
    rintro x k rfl hk l hl
    obtain rfl := Option.some.inj hl
    exact h.served i k hk
  cases hs with
  | quit _ hpc hb hc | abandon _ k hpc hb hc =>
    rw [h.opened] at hc
    cases hc
  | turnOn _ hpc =>
    have := h.move (i := i) (x := .idle) hnone (by rw [hpc]; rfl)
    exact ⟨Q, H, this.of_eq rfl rfl rfl rfl (fun _ => Iff.rfl) (fun _ => Iff.rfl) h.notClosed
      fun _ _ => rfl⟩
  | wake _ hpc =>
    have := h.move (i := i) (x := .lock) hnone (by rw [hpc]; rfl)
    exact ⟨Q, H, this.of_eq rfl rfl rfl rfl (fun _ => Iff.rfl) (fun _ => Iff.rfl) h.notClosed
      fun _ _ => rfl⟩
  | acquire _ hpc hl =>
    exact ⟨Q, _, (h.acquire (i := i) hl).of_eq rfl rfl rfl rfl (fun _ => Iff.rfl)
      (fun _ => Iff.rfl) h.notClosed fun _ _ => rfl⟩
  | take _ k hpc =>
    have := h.move (i := i) (x := .took k) (by
      intro l hl
      obtain rfl := Option.some.inj hl
      exact htake k rfl) (by rw [hpc]; rfl)
    exact ⟨Q, H, this.of_eq rfl rfl rfl rfl (fun _ => Iff.rfl) (fun _ => Iff.rfl) h.notClosed
      fun _ _ => rfl⟩
  | rest _ hpc =>
    have := h.release (i := i) (x := .idle) (by rw [hpc]; rfl) hnone rfl
    exact ⟨Q, _, this.of_eq rfl rfl rfl rfl (fun _ => Iff.rfl) (fun _ => Iff.rfl) h.notClosed
      fun _ _ => rfl⟩
  | hold _ k hpc =>
    have := h.release (i := i) (x := .order k) (by rw [hpc]; rfl) (hjob hpc rfl) rfl
    exact ⟨Q, _, this.of_eq rfl rfl rfl rfl (fun _ => Iff.rfl) (fun _ => Iff.rfl) h.notClosed
      fun _ _ => rfl⟩
  | start _ k hpc =>
    have := h.release (i := i) (x := .preparing k) (by rw [hpc]; rfl) (hjob hpc rfl) rfl
    exact ⟨Q, _, this.of_eq rfl rfl rfl rfl (fun _ => Iff.rfl) (fun _ => Iff.rfl) h.notClosed
      fun _ _ => rfl⟩
  | resume _ k hpc =>
    have := h.move (i := i) (x := .preparing k) (hjob hpc rfl) (by rw [hpc]; rfl)
    exact ⟨Q, H, this.of_eq rfl rfl rfl rfl (fun _ => Iff.rfl) (fun _ => Iff.rfl) h.notClosed
      fun _ _ => rfl⟩
  | finish _ k hpc =>
    have := h.move (i := i) (x := .check k) (hjob hpc rfl) (by rw [hpc]; rfl)
    exact ⟨Q, H, this.of_eq rfl rfl rfl rfl (fun _ => Iff.rfl) (fun _ => Iff.rfl) h.notClosed
      fun _ _ => rfl⟩
  | serve _ k hpc =>
    -- the customer is not outside, so its wake-up is no baton
    have hk : s.cpc (parlor.owner k) ≠ .outside := h.served i k (by rw [hpc]; rfl)
    have := h.move (i := i) (x := .idle) hnone (by rw [hpc]; rfl)
    refine ⟨Q, H, this.of_eq rfl rfl rfl rfl (fun _ => Iff.rfl) (fun _ => Iff.rfl) h.notClosed
      fun c hc => ?_⟩
    have hck : c ≠ parlor.owner k := by
      rintro rfl
      exact hk hc
    simp [hck]
  | lack _ k hpc =>
    have := h.move (i := i) (x := .idle) hnone (by rw [hpc]; rfl)
    exact ⟨Q, H, this.of_eq rfl rfl rfl rfl (fun _ => Iff.rfl) (fun _ => Iff.rfl) h.notClosed
      fun _ _ => rfl⟩
  | skip | pass | reject =>
    exact ⟨Q, H, h.of_eq rfl rfl rfl rfl (fun _ => Iff.rfl) (fun _ => Iff.rfl) h.notClosed
      fun _ _ => rfl⟩

/-- A customer moves. -/
theorem step_customer {note : Option (ParlorNote n p o)} (h : Baton parlor s Q H)
    (hs : s.Moves parlor (.customer c) note t) : ∃ Q H, Baton parlor t Q H := by
  -- a customer who is in the parlor does not have the baton
  have hinside : ∀ {y : ParlorCustomerPc}, s.cpc c ≠ .outside → y ≠ .outside →
      ∀ d, update s.cpc c y d = .outside ↔ s.cpc d = .outside := by
    intro y hc hy d
    by_cases hdc : d = c
    · simp [hdc, hc, hy]
    · simp [hdc]
  have hncl : ∀ {y : ParlorCustomerPc}, y ≠ .closed → ∀ d, update s.cpc c y d ≠ .closed := by
    intro y hy d
    by_cases hdc : d = c
    · simpa [hdc] using hy
    · simpa [hdc] using h.notClosed d
  have hother : ∀ {d}, s.cpc c ≠ .outside → s.cpc d = .outside → d ≠ c := by
    rintro d hc hd rfl
    exact hc hd
  have hfirst : s.cpc c = .outside → 0 < s.customers c → ∃ Q', Q = c :: Q' := by
    intro hpc hb
    exact List.head?_eq_some_iff.1 (h.head_of_customers hpc hb)
  cases hs with
  | turnAway _ hpc hb hc | turnOut _ hpc hb hc =>
    rw [h.opened] at hc
    cases hc
  | full _ hpc hb =>
    obtain ⟨Q, rfl⟩ := hfirst hpc hb
    have := h.arrive (y := .full) hpc (by simp) (by simp)
    exact ⟨Q, H, this.of_eq rfl rfl rfl rfl (fun _ => Iff.rfl) (fun _ => Iff.rfl) this.notClosed
      fun _ _ => rfl⟩
  | refuse _ hpc hb =>
    obtain ⟨Q, rfl⟩ := hfirst hpc hb
    have := h.arrive (y := .refused) hpc (by simp) (by simp)
    exact ⟨Q, H, this.of_eq rfl rfl rfl rfl (fun _ => Iff.rfl) (fun _ => Iff.rfl) this.notClosed
      fun _ _ => rfl⟩
  | enter _ hpc hb =>
    obtain ⟨Q, rfl⟩ := hfirst hpc hb
    have := h.arrive (y := .waiting) hpc (by simp) (by simp)
    exact ⟨Q, H, this.of_eq rfl rfl rfl rfl (fun _ => Iff.rfl) (fun _ => Iff.rfl) this.notClosed
      fun _ _ => rfl⟩
  | leave _ hpc | call _ hpc =>
    have hc : s.cpc c ≠ .outside := by simp [hpc]
    exact ⟨Q, H, h.of_eq rfl rfl rfl rfl (fun _ => Iff.rfl) (hinside hc (by simp))
      (hncl (by simp)) fun _ _ => rfl⟩
  | collect _ hpc =>
    have hc : s.cpc c ≠ .outside := by simp [hpc]
    refine ⟨Q, H, h.of_eq rfl rfl rfl rfl (fun _ => Iff.rfl) (hinside hc (by simp))
      (hncl (by simp)) fun d hd => ?_⟩
    simp [hother hc hd]

theorem step (h : Baton parlor s Q H)
    (hcl : s.main = .closeMachines ∨ s.main = .closeCustomers → s.closeSig = true)
    (htake : ∀ i k, e.2 = some (.takes i k s.tmr) → s.cpc (parlor.owner k) ≠ .outside)
    (hs : s.Moves parlor e.1 e.2 t) (ht : t.closeSig = false) : ∃ Q H, Baton parlor t Q H := by
  obtain ⟨th, note⟩ := e
  cases th with
  | main => exact h.step_main hcl hs ht
  | machine i => exact h.step_machine (htake i) hs
  | customer c => exact h.step_customer hs

end Baton

/-! ## Customers in the order of their arrivals -/

/-- The first `m` customers have arrived, and their orders are those that machines look at. -/
structure Prefix (parlor : Parlor n p o q) (s : ParlorState n p o q) (m : ℕ) : Prop where
  outside : ∀ c : Fin p, s.cpc c = .outside ↔ m ≤ c
  total : s.totalorders = (Finset.univ.filter fun k => (parlor.owner k : ℕ) < m).card

namespace Prefix

variable {m : ℕ}

theorem boot : Prefix parlor (boot parlor) 0 := by
  constructor <;> simp [ParlorState.boot]

/-- An order that a machine looks at is that of a customer who has arrived. -/
theorem arrived_of_entry {k : Fin o} (h : Prefix parlor s m) (hk : s.entry i = some k) :
    s.cpc (parlor.owner k) ≠ .outside := by
  have hlt : (k : ℕ) < s.totalorders := by
    unfold entry at hk
    split_ifs at hk with h1 h2
    rw [← Option.some.inj hk]
    exact h2
  rw [Ne, h.outside, not_le]
  by_contra hge
  -- all orders of those who have arrived come before this one
  have hsub : (Finset.univ.filter fun l => (parlor.owner l : ℕ) < m) ⊆ Finset.Iio k := by
    intro l hl
    rw [Finset.mem_filter] at hl
    rw [Finset.mem_Iio]
    by_contra hkl
    have := parlor.owner_mono (not_lt.1 hkl)
    have : (parlor.owner k : ℕ) ≤ parlor.owner l := this
    omega
  have := Finset.card_le_card hsub
  rw [← h.total, Fin.card_Iio] at this
  omega

/-- The next customer to arrive is the first who is outside. -/
theorem head_eq (h : Prefix parlor s m) (hB : Baton parlor s (c :: Q) H)
    (hsorted : Monotone parlor.arrival) : (c : ℕ) = m := by
  obtain ⟨hout, hcall⟩ := (hB.mem c).1 List.mem_cons_self
  have hle : m ≤ c := (h.outside c).1 hout
  by_contra hne
  have hlt : m < c := lt_of_le_of_ne hle (Ne.symm hne)
  let d : Fin p := ⟨m, hlt.trans c.isLt⟩
  have hdc : d < c := hlt
  have hle : parlor.arrival d ≤ parlor.arrival c := hsorted hdc.le
  have hd : Called parlor s d := by
    unfold Called at hcall ⊢
    rcases hcall with hlt | ⟨heq, hw⟩
    · exact .inl (hle.trans_lt hlt)
    · rcases (hle.trans_eq heq).lt_or_eq with hlt | heq
      · exact .inl hlt
      · exact .inr ⟨heq, hw⟩
  have hmem := (hB.mem d).2 ⟨(h.outside d).2 le_rfl, hd⟩
  rcases List.mem_cons.1 hmem with heq | hmem
  · exact hdc.ne heq
  · exact lt_asymm hdc ((List.pairwise_cons.1 hB.sorted).1 d hmem)

/-- The first who is outside arrives. -/
theorem arrive {y : ParlorCustomerPc} (h : Prefix parlor s m) (hc : (c : ℕ) = m)
    (hy : y ≠ .outside) (hcpc : t.cpc = update s.cpc c y)
    (htot : t.totalorders = s.totalorders + parlor.totalOrders c) : Prefix parlor t (m + 1) := by
  refine ⟨fun d => ?_, ?_⟩
  · rw [hcpc, update_apply]
    split_ifs with hdc
    · simp [hy, hdc, hc]
    · have hne : (d : ℕ) ≠ m := fun hd => hdc (Fin.ext (hd.trans hc.symm))
      rw [h.outside]
      omega
  · have hcard : (Finset.univ.filter fun k => (parlor.owner k : ℕ) < m + 1) =
        (Finset.univ.filter fun k => (parlor.owner k : ℕ) < m) ∪
          Finset.univ.filter fun k => parlor.owner k = c := by
      ext k
      simp only [Finset.mem_filter, Finset.mem_univ, true_and, Finset.mem_union, Fin.ext_iff]
      omega
    rw [htot, h.total, hcard, Finset.card_union_of_disjoint, Parlor.totalOrders]
    rw [Finset.disjoint_filter]
    intro k _ hlt heq
    rw [heq] at hlt
    omega

theorem step (h : Prefix parlor s m) (hB : Baton parlor s Q H)
    (hsorted : Monotone parlor.arrival) (hs : s.Moves parlor e.1 e.2 t) :
    ∃ m, Prefix parlor t m := by
  have hfirst : ∀ c : Fin p, s.cpc c = .outside → 0 < s.customers c → (c : ℕ) = m := by
    intro c hpc hb
    obtain ⟨Q', rfl⟩ := List.head?_eq_some_iff.1 (hB.head_of_customers hpc hb)
    exact h.head_eq hB hsorted
  -- a customer who is in the parlor
  have hinside : ∀ {c : Fin p} {y : ParlorCustomerPc}, s.cpc c ≠ .outside → y ≠ .outside →
      ∀ d, update s.cpc c y d = .outside ↔ m ≤ (d : ℕ) := by
    intro c y hc hy d
    by_cases hdc : d = c
    · rw [hdc]
      simp [hy, ← h.outside c, hc]
    · simpa [hdc] using h.outside d
  obtain ⟨th, note⟩ := e
  simp only at hs
  cases hs with
  | turnAway c hpc hb hc | turnOut c hpc hb hc =>
    rw [hB.opened] at hc
    cases hc
  | full c hpc hb => exact ⟨m + 1, h.arrive (hfirst c hpc hb) (by simp) rfl rfl⟩
  | refuse c hpc hb => exact ⟨m + 1, h.arrive (hfirst c hpc hb) (by simp) rfl rfl⟩
  | enter c hpc hb => exact ⟨m + 1, h.arrive (hfirst c hpc hb) (by simp) rfl rfl⟩
  | leave c hpc | call c hpc | collect c hpc =>
    exact ⟨m, hinside (by simp [hpc]) (by simp), h.total⟩
  | _ => exact ⟨m, h.outside, h.total⟩

end Prefix

/-- The wake-ups with which a customer may enter. -/
def batons (s : ParlorState n p o q) : ℕ :=
  ∑ c, if s.cpc c = .outside then s.customers c else 0

theorem Baton.batons_eq (h : Baton parlor s Q H) : s.batons = if Q = [] then 0 else 1 := by
  have hc : ∀ c, (if s.cpc c = .outside then s.customers c else 0) =
      if Q.head? = some c then 1 else 0 := by
    intro c
    split_ifs with hout hhead hhead
    · rw [h.posted c hout, if_pos hhead]
    · rw [h.posted c hout, if_neg hhead]
    · exact (hout ((h.mem c).1 (List.mem_of_head? hhead)).1).elim
    · rfl
  unfold batons
  rw [Finset.sum_congr rfl fun c _ => hc c]
  cases Q with
  | nil => simp
  | cons d Q => simp

theorem Baton.card_locked (h : Baton parlor s Q H) :
    (Finset.univ.filter fun i => (s.pc i).locked = true).card = if H = none then 0 else 1 := by
  simp only [h.holder]
  cases H with
  | none => simp
  | some i => simp [Finset.filter_eq]

/-- The semaphore, the customers and the machines have one baton together. -/
theorem Baton.total (h : Baton parlor s Q H) :
    s.machineLock + s.batons + (Finset.univ.filter fun i => (s.pc i).locked = true).card = 1 := by
  rw [h.lock, h.batons_eq, h.card_locked]
  have := h.alone
  by_cases hQ : Q = []
  · by_cases hH : H = none <;> simp [hQ, hH]
  · simp [hQ, this hQ]

/-- While the parlor is open, a machine keeps the order it has until it completes it. -/
theorem holds_step {k : Fin o} (hs : s.Moves parlor e.1 e.2 t) (hc : s.closeSig = false)
    (hk : s.Holds i k) : t.Holds i k ∨ ∃ v, e.2 = some (.completes i k v) := by
  have hother : ∀ {l : Fin n} {x : MachinePc o}, i ≠ l → t.pc = update s.pc l x → t.Holds i k := by
    intro l x hil hpc
    simpa [Holds, hpc, hil] using hk
  obtain ⟨th, note⟩ := e
  simp only at hs
  cases hs with
  | quit l hpc hb hc' | abandon l m hpc hb hc' =>
    rw [hc] at hc'
    cases hc'
  | turnOn l hpc | wake l hpc | acquire l hpc | take l m hpc | rest l hpc | serve l m hpc
  | lack l m hpc =>
    have hil : i ≠ l := by
      rintro rfl
      simp [Holds, hpc] at hk
    exact .inl (hother hil rfl)
  | hold l m hpc | start l m hpc | resume l m hpc =>
    by_cases hil : i = l
    · subst hil
      obtain rfl : m = k := by simpa [Holds, hpc] using hk
      exact .inl (by simp [Holds])
    · exact .inl (hother hil rfl)
  | finish l m hpc =>
    by_cases hil : i = l
    · subst hil
      obtain rfl : m = k := by simpa [Holds, hpc] using hk
      exact .inr ⟨s.tmr, rfl⟩
    · exact .inl (hother hil rfl)
  | _ => exact .inl hk

theorem holds_of_takes (h : Run (Step parlor) (ParlorState.boot parlor) es s)
    (hc : s.closeSig = false) {k : Fin o} {u : ℕ} (hu : .takes i k u ∈ notes es) :
    s.Holds i k ∨ ∃ v, .completes i k v ∈ notes es := by
  induction h with
  | nil => simp [notes] at hu
  | @snoc es s t e _ hs ih =>
    have hm := moves_of_step hs
    have hc' : s.closeSig = false := closeSig_before hm hc
    rcases mem_notes_append.1 hu with hu | hu
    · rcases ih hc' hu with hk | ⟨v, hv⟩
      · rcases holds_step hm hc' hk with hk | ⟨v, hv⟩
        · exact .inl hk
        · exact .inr ⟨v, mem_notes_append.2 (.inr hv)⟩
      · exact .inr ⟨v, mem_notes_append.2 (.inl hv)⟩
    · exact .inl (.inl (entry_of_takes hm hu).2.2.2)

/-- Before the parlor closes, with customers in the order of their arrivals, the baton is
somewhere. -/
theorem baton_of_run (hsorted : Monotone parlor.arrival)
    (h : Run (Step parlor) (ParlorState.boot parlor) es s) (hc : s.closeSig = false) :
    ∃ Q H m, Baton parlor s Q H ∧ Prefix parlor s m := by
  induction h with
  | nil => exact ⟨[], none, 0, .boot, .boot⟩
  | @snoc es s t e hr hs ih =>
    have hm := moves_of_step hs
    obtain ⟨Q, H, m, hB, hP⟩ := ih (closeSig_before hm hc)
    have htake : ∀ i k, e.2 = some (.takes i k s.tmr) → s.cpc (parlor.owner k) ≠ .outside :=
      fun i k he => hP.arrived_of_entry (entry_of_takes hm he).2.1
    obtain ⟨Q', H', hB'⟩ := hB.step (closing_of_run hr) htake hm hc
    obtain ⟨m', hP'⟩ := hP.step hB hsorted hm
    exact ⟨Q', H', m', hB', hP'⟩

/-- Until the parlor closes there is exactly one owner of the baton, whatever the order in
which the threads move : the semaphore, a customer who may enter, or a machine in its scan
(main has it only within its own move). So no two machines scan together, each ice cream is
taken once, and no machine has two. -/
theorem one_owner (hsorted : Monotone parlor.arrival)
    (h : Run (Step parlor) (ParlorState.boot parlor) es s) (hc : s.closeSig = false) :
    s.machineLock + s.batons + (Finset.univ.filter fun i => (s.pc i).locked = true).card = 1 ∧
    (∀ i j, (s.pc i).locked = true → (s.pc j).locked = true → i = j) ∧
    (∀ i j k u v, .takes i k u ∈ notes es → .takes j k v ∈ notes es → i = j ∧ u = v) ∧
    ∀ i k l u v, .takes i k u ∈ notes es → .takes i l v ∈ notes es →
      (∀ w, .completes i k w ∉ notes es) → (∀ w, .completes i l w ∉ notes es) → k = l := by
  obtain ⟨Q, H, m, hB, -⟩ := baton_of_run hsorted h hc
  refine ⟨hB.total, fun i j hi hj => ?_, fun i j k u v => takes_unique h, ?_⟩
  · have hi := (hB.holder i).1 hi
    rw [(hB.holder j).1 hj] at hi
    exact (Option.some.inj hi).symm
  · intro i k l u v hu hv hk hl
    have hold : ∀ {k u}, .takes i k u ∈ notes es → (∀ w, .completes i k w ∉ notes es) →
        s.Holds i k := by
      intro k u hu hk
      rcases holds_of_takes h hc hu with hold | ⟨w, hw⟩
      · exact hold
      · exact (hk w hw).elim
    exact (hold hu hk).unique (hold hv hl)

/-- Two customers with a vanilla each, who arrive in the seconds `a` and `b`, and one machine. -/
def pair (a b : ℕ) : Parlor 1 2 2 2 :=
  sundaes 1 1 (fun c => if c.val = 0 then a else b) (fun k => k) (fun _ _ h => h)
    (fun _ => false) fun _ => []

/-- Both customers have arrived in second 1, and the machine has taken the first ice cream. -/
theorem one_owner_pair : ∃ es s, Run (Step (pair 1 1)) (ParlorState.boot (pair 1 1)) es s ∧
    (s.pc 0).locked = true ∧ .takes 0 0 1 ∈ notes es ∧ s.machineLock + s.batons + 1 = 1 := by
  have h : ∃ r ∈ exec (pair 1 1) Sync (ParlorState.boot (pair 1 1))
      [.main, .main, .main, .main, .main, .main,
      .main, .main, .main, .main, .main, .customer 0, .customer 1, .machine 0, .machine 0,
      .machine 0, .machine 0],
      r.2.closeSig = false ∧ (r.2.pc 0).locked = true ∧ .takes 0 0 1 ∈ notes r.1 ∧
      (Finset.univ.filter fun i => (r.2.pc i).locked = true).card = 1 := by decide +kernel
  obtain ⟨r, hr, hc, hl, ht, hcard⟩ := h
  have hrun := (guarded_of_exec hr).of_guarded
  have hsorted : Monotone (pair 1 1).arrival := by decide
  have := (one_owner hsorted hrun hc).1
  rw [hcard] at this
  exact ⟨r.1, r.2, hrun, hl, ht, this⟩

/-! ## Customers in another order -/

/-- The customer was at the door. -/
def Came (es : List (ParlorEvent n p o)) (c : Fin p) : Prop :=
  ∃ v, .enters c v ∈ notes es ∨ .full c v ∈ notes es ∨ .refused c v ∈ notes es

/-- If a machine takes an order of a customer of this second, main has chained the customers
of this second. -/
def Welcomed (parlor : Parlor n p o q) (s : ParlorState n p o q) (e : ParlorEvent n p o) : Prop :=
  ∀ i k, e.2 = some (.takes i k s.tmr) → parlor.arrival (parlor.owner k) = s.tmr →
    s.main.welcomed = true

instance (s : ParlorState n p o q) (e : ParlorEvent n p o) : Decidable (Welcomed parlor s e) :=
  inferInstanceAs (Decidable (∀ _, _))

/-- Whoever was called has come when a machine or the semaphore has the baton. -/
structure Admission (parlor : Parlor n p o q) (es : List (ParlorEvent n p o))
    (s : ParlorState n p o q) : Prop where
  baton : s.closeSig = false → ∃ Q H, Baton parlor s Q H
  came : s.closeSig = false → ∀ c, s.cpc c ≠ .outside → Came es c
  called : ∀ c, Came es c → Called parlor s c
  turned : ∀ c v, .full c v ∈ notes es ∨ .refused c v ∈ notes es → s.complete c = true
  ready : 0 < s.machineLock ∨ (∃ i, (s.pc i).locked = true) →
    ∀ c, Called parlor s c → Came es c
  shut : s.closeSig = true →
    s.main = .closeMachines ∨ s.main = .closeCustomers ∨ s.main = .done

theorem Came.append (h : Came es c) : Came (es ++ [e]) c := by
  obtain ⟨v, hv⟩ := h
  exact ⟨v, hv.imp (fun h => mem_notes_append.2 (.inl h))
    (Or.imp (fun h => mem_notes_append.2 (.inl h)) fun h => mem_notes_append.2 (.inl h))⟩

theorem Called.step (h : Called parlor s c) (hs : s.Moves parlor e.1 e.2 t) :
    Called parlor t c := by
  obtain ⟨th, note⟩ := e
  simp only at hs
  cases hs with
  | tick hm =>
    rcases h with h | ⟨h, -⟩
    · exact .inl (h.trans (Nat.lt_succ_self _))
    · exact .inl (by simp [h])
  | goOn hm | stop hm | close hm | closeMachines hm | closeCustomers hm =>
    rcases h with h | ⟨-, h⟩
    · exact .inl h
    · rw [hm] at h
      cases h
  | welcome | startAll | chain | comp =>
    rcases h with h | ⟨h, -⟩
    · exact .inl h
    · exact .inr ⟨h, rfl⟩
  | _ => exact h

namespace Admission

theorem boot : Admission parlor [] (ParlorState.boot parlor) := by
  refine ⟨fun _ => ⟨[], none, .boot⟩, ?_, ?_, ?_, ?_, ?_⟩ <;>
    simp [ParlorState.boot, Came, Called, notes, ParlorMainPc.welcomed]

/-- A customer who moves from outside comes. -/
theorem came_step (h : Admission parlor es s) (hs : s.Moves parlor e.1 e.2 t)
    (hc : t.closeSig = false) (hout : t.cpc c ≠ .outside) : Came (es ++ [e]) c := by
  have hc' := closeSig_before hs hc
  have hold : s.cpc c ≠ .outside → Came (es ++ [e]) c := fun h' => (h.came hc' c h').append
  obtain ⟨th, note⟩ := e
  simp only at hs
  cases hs with
  | turnAway d hpc hb hcl | turnOut d hpc hb hcl =>
    rw [hc'] at hcl
    cases hcl
  | full d =>
    by_cases hcd : c = d
    · subst hcd
      exact ⟨s.tmr, .inr (.inl (mem_notes_append.2 (.inr rfl)))⟩
    · exact hold (by simpa [hcd] using hout)
  | refuse d =>
    by_cases hcd : c = d
    · subst hcd
      exact ⟨s.tmr, .inr (.inr (mem_notes_append.2 (.inr rfl)))⟩
    · exact hold (by simpa [hcd] using hout)
  | enter d =>
    by_cases hcd : c = d
    · subst hcd
      exact ⟨s.tmr, .inl (mem_notes_append.2 (.inr rfl))⟩
    · exact hold (by simpa [hcd] using hout)
  | leave d hpc | call d hpc | collect d hpc =>
    by_cases hcd : c = d
    · subst hcd
      exact hold (by simp [hpc])
    · exact hold (by simpa [hcd] using hout)
  | _ => exact hold hout

/-- Only who was called comes. -/
theorem called_step (h : Admission parlor es s) (hs : s.Moves parlor e.1 e.2 t)
    (hc : Came (es ++ [e]) c) : Called parlor t c := by
  have hnew : s.cpc c = .outside → 0 < s.customers c → s.closeSig = false →
      Called parlor s c := by
    intro hpc hb hcl
    obtain ⟨Q, H, hB⟩ := h.baton hcl
    exact ((hB.mem c).1 (List.mem_of_head? (hB.head_of_customers hpc hb))).2
  refine Called.step ?_ hs
  obtain ⟨v, hv⟩ := hc
  simp only [mem_notes_append] at hv
  by_cases hold : Came es c
  · exact h.called c hold
  have hnote : e.2 = some (.enters c v) ∨ e.2 = some (.full c v) ∨ e.2 = some (.refused c v) := by
    rcases hv with (hv | hv) | (hv | hv) | (hv | hv)
    · exact (hold ⟨v, .inl hv⟩).elim
    · exact .inl hv
    · exact (hold ⟨v, .inr (.inl hv)⟩).elim
    · exact .inr (.inl hv)
    · exact (hold ⟨v, .inr (.inr hv)⟩).elim
    · exact .inr (.inr hv)
  obtain ⟨th, note⟩ := e
  simp only at hs hnote
  rcases hnote with rfl | rfl | rfl
  · cases hs with
    | enter _ hpc hb hcl => exact hnew hpc hb hcl
  · cases hs with
    | full _ hpc hb hcl => exact hnew hpc hb hcl
  · cases hs with
    | refuse _ hpc hb hcl => exact hnew hpc hb hcl

/-- Who did not get in is done with. -/
theorem turned_step {v : ℕ} (h : Admission parlor es s) (hs : s.Moves parlor e.1 e.2 t)
    (hc : .full c v ∈ notes (es ++ [e]) ∨ .refused c v ∈ notes (es ++ [e])) :
    t.complete c = true := by
  simp only [mem_notes_append] at hc
  rcases hc with (hc | hc) | (hc | hc)
  · exact complete_mono hs (h.turned c v (.inl hc))
  · obtain ⟨th, note⟩ := e
    simp only at hs hc
    subst hc
    cases hs with
    | full => simp
  · exact complete_mono hs (h.turned c v (.inr hc))
  · obtain ⟨th, note⟩ := e
    simp only at hs hc
    subst hc
    cases hs with
    | refuse => simp

theorem shut_step (h : Admission parlor es s) (hs : s.Moves parlor e.1 e.2 t)
    (hc : t.closeSig = true) :
    t.main = .closeMachines ∨ t.main = .closeCustomers ∨ t.main = .done := by
  obtain ⟨th, note⟩ := e
  simp only at hs
  cases hs with
  | close => exact .inl rfl
  | closeMachines => exact .inr (.inl rfl)
  | closeCustomers => exact .inr (.inr rfl)
  | goOn hm | stop hm | welcome hm | startAll hm | chain hm | comp hm | tick hm =>
    have := h.shut hc
    simp [hm] at this
  | _ => exact h.shut hc

/-- When the parlor is closed nobody is called, and no customer gives the baton back. -/
theorem shut_baton (h : Admission parlor es s) (hs : s.Moves parlor e.1 e.2 t)
    (hc : t.closeSig = true)
    (hl : 0 < t.machineLock ∨ ∃ i, (t.pc i).locked = true) :
    (0 < s.machineLock ∨ ∃ i, (s.pc i).locked = true) ∧
      (Called parlor t c → Called parlor s c) := by
  have hkeep : ∀ {i : Fin n} {x : MachinePc o}, t.machineLock = s.machineLock →
      t.pc = update s.pc i x → (x.locked = true → (s.pc i).locked = true) →
      0 < s.machineLock ∨ ∃ i, (s.pc i).locked = true := by
    intro i x hlock hpc hx
    rcases hl with hl | ⟨j, hj⟩
    · exact .inl (hlock ▸ hl)
    · rw [hpc, update_apply] at hj
      split_ifs at hj with hji
      · exact .inr ⟨i, hx hj⟩
      · exact .inr ⟨j, hj⟩
  obtain ⟨th, note⟩ := e
  simp only at hs
  cases hs with
  | close hm | closeMachines hm | closeCustomers hm =>
    refine ⟨hl, fun hcall => ?_⟩
    simpa [Called, hm, ParlorMainPc.welcomed] using hcall
  | goOn hm | stop hm | welcome hm | startAll hm | chain hm | comp hm | tick hm =>
    have := h.shut hc
    simp [hm] at this
  | full c hpc hb hcl | refuse c hpc hb hcl | enter c hpc hb hcl | leave c hpc hb hcl
  | call c hpc hb hcl | turnOn c hpc hb hcl | wake c hpc hb hcl | resume c k hpc hb hcl
  | finish c k hpc hb hcl =>
    rw [show s.closeSig = true from hc] at hcl
    cases hcl
  | acquire i hpc hlock => exact ⟨.inl hlock, id⟩
  | rest i hpc | hold i k hpc | start i k hpc => exact ⟨.inr ⟨i, by rw [hpc]; rfl⟩, id⟩
  | take i k hpc => exact ⟨hkeep rfl rfl fun _ => (by rw [hpc]; rfl), id⟩
  | quit i | abandon i | serve i | lack i => exact ⟨hkeep rfl rfl (by simp [MachinePc.locked]), id⟩
  | _ => exact ⟨hl, id⟩

/-- In which case a machine takes an order of a customer who was called. -/
theorem called_of_takes {k : Fin o} {u : ℕ} (hs : s.Moves parlor e.1 e.2 t)
    (he : e.2 = some (.takes i k u)) : Called parlor s (parlor.owner k) ↔
      (parlor.arrival (parlor.owner k) = s.tmr → s.main.welcomed = true) := by
  obtain ⟨-, -, hf, -⟩ := entry_of_takes hs he
  simp only [fits, decide_eq_true_eq] at hf
  unfold Called
  constructor
  · rintro (hlt | ⟨-, hw⟩) heq
    · exact (hlt.ne heq).elim
    · exact hw
  · intro hw
    rcases hf with ⟨heq, -⟩ | ⟨hlt, -⟩
    · exact .inr ⟨heq, hw heq⟩
    · exact .inl hlt

theorem step (h : Admission parlor es s) (hs : s.Moves parlor e.1 e.2 t)
    (hw : Welcomed parlor s e)
    (hcl : s.main = .closeMachines ∨ s.main = .closeCustomers → s.closeSig = true) :
    Admission parlor (es ++ [e]) t := by
  have hbaton : t.closeSig = false → ∃ Q H, Baton parlor t Q H := by
    intro hc
    obtain ⟨Q, H, hB⟩ := h.baton (closeSig_before hs hc)
    refine hB.step hcl (fun i k he => ?_) hs hc
    have hpc := (entry_of_takes hs he).1
    have hl : (s.pc i).locked = true := by rw [hpc]; rfl
    exact hB.arrived (.inr ⟨i, hl⟩) ((called_of_takes hs he).2 (hw i k he))
  refine ⟨hbaton, fun hc c => h.came_step hs hc, fun c => h.called_step hs,
    fun c v => h.turned_step hs, fun hl c hcall => ?_, h.shut_step hs⟩
  cases hc : t.closeSig with
  | false =>
    obtain ⟨Q, H, hB⟩ := hbaton hc
    exact h.came_step hs hc (hB.arrived hl hcall)
  | true =>
    obtain ⟨hl, hcall'⟩ := h.shut_baton (c := c) hs hc hl
    exact (h.ready hl c (hcall' hcall)).append

theorem run (h : Run (Guarded (Step parlor) (Welcomed parlor)) (ParlorState.boot parlor) es s) :
    Admission parlor es s := by
  induction h with
  | nil => exact .boot
  | snoc hr hs ih => exact ih.step (moves_of_step hs.1) hs.2 (closing_of_run hr.of_guarded)

/-- A machine takes an order of a customer who was admitted, if the customer was called. -/
theorem enters_iff {k : Fin o} {u : ℕ} (h : Admission parlor es s)
    (hs : s.Moves parlor e.1 e.2 t) (he : e.2 = some (.takes i k u)) :
    (∃ v, .enters (parlor.owner k) v ∈ notes es) ↔ Called parlor s (parlor.owner k) := by
  constructor
  · rintro ⟨v, hv⟩
    exact h.called _ ⟨v, .inl hv⟩
  · intro hcall
    have hl : (s.pc i).locked = true := by rw [(entry_of_takes hs he).1]; rfl
    obtain ⟨v, hv | hv⟩ := h.ready (.inr ⟨i, hl⟩) _ hcall
    · exact ⟨v, hv⟩
    · have hdone := h.turned _ v hv
      rw [(take_step hs he).1.1] at hdone
      cases hdone

end Admission

/-- A machine takes an ice cream in the second in which its customer arrives or later, and
after the customer was admitted, if and only if main has chained the customers of this second
when the order is one of theirs. So it is in every run in which that is so for each order
that is taken. -/
theorem taken_after_arrival
    (h : Run (Guarded (Step parlor) (Welcomed parlor)) (ParlorState.boot parlor) es s) :
    Along (fun pre e => ∀ i k u, e.2 = some (.takes i k u) →
      parlor.arrival (parlor.owner k) ≤ u ∧ ∃ v, .enters (parlor.owner k) v ∈ notes pre) es ∧
    ∀ e t i k u, Step parlor s e t → e.2 = some (.takes i k u) →
      ((parlor.arrival (parlor.owner k) ≤ u ∧ ∃ v, .enters (parlor.owner k) v ∈ notes es) ↔
        (parlor.arrival (parlor.owner k) = s.tmr → s.main.welcomed = true)) := by
  have hlast : ∀ {es s e t i k u}, Run (Guarded (Step parlor) (Welcomed parlor))
      (ParlorState.boot parlor) es s → Step parlor s e t → e.2 = some (.takes i k u) →
      ((parlor.arrival (parlor.owner k) ≤ u ∧ ∃ v, .enters (parlor.owner k) v ∈ notes es) ↔
        (parlor.arrival (parlor.owner k) = s.tmr → s.main.welcomed = true)) := by
    intro es s e t i k u hr hs he
    have hm := moves_of_step hs
    rw [(Admission.run hr).enters_iff hm he, Admission.called_of_takes hm he]
    refine and_iff_right ?_
    obtain ⟨-, -, hf, -⟩ := entry_of_takes hm he
    obtain ⟨-, -, rfl⟩ := take_step hm he
    simp only [fits, decide_eq_true_eq] at hf
    omega
  refine ⟨?_, fun e t i k u => hlast h⟩
  induction h with
  | nil => exact along_nil
  | snoc hr hs ih =>
    refine along_append.2 ⟨ih, fun i k u he => (hlast hr hs.1 he).2 ?_⟩
    obtain ⟨-, -, rfl⟩ := take_step (moves_of_step hs.1) he
    exact hs.2 i k he

/-- The second customer arrives first, and the machine takes that customer's ice cream when
the first one has arrived too. -/
theorem taken_after_arrival_pair : ∃ es s,
    Run (Guarded (Step (pair 2 1)) (Welcomed (pair 2 1))) (ParlorState.boot (pair 2 1)) es s ∧
    .takes 0 1 2 ∈ notes es ∧
    Along (fun pre e => ∀ i k u, e.2 = some (.takes i k u) →
      (pair 2 1).arrival ((pair 2 1).owner k) ≤ u ∧
        ∃ v, .enters ((pair 2 1).owner k) v ∈ notes pre) es := by
  have h : ∃ r ∈ exec (pair 2 1) (Welcomed (pair 2 1)) (ParlorState.boot (pair 2 1))
      [.main, .main, .main, .main, .main, .main,
      .main, .main, .main, .main, .main, .customer 1, .machine 0, .machine 0, .machine 0,
      .machine 0, .machine 0, .main,
      .main, .main, .main, .main, .main, .customer 0, .machine 0, .machine 0, .machine 0],
      .takes 0 1 2 ∈ notes r.1 := by decide +kernel
  obtain ⟨r, hr, ht⟩ := h
  exact ⟨r.1, r.2, guarded_of_exec hr, ht, (taken_after_arrival (guarded_of_exec hr)).1⟩

/-- The second customer arrives in second 1 and lets the machine look at one order, which is
that of the first customer. When second 2 begins the machine takes it, and the first customer
has not been called. -/
theorem taken_before_arrival : ∃ es s,
    Run (Step (pair 2 1)) (ParlorState.boot (pair 2 1)) es s ∧ .takes 0 0 2 ∈ notes es ∧
    (pair 2 1).owner 0 = 0 ∧ s.cpc 0 = .outside ∧ ∀ v, .enters 0 v ∉ notes es := by
  have h : ∃ r ∈ exec (pair 2 1) (fun _ _ => True) (ParlorState.boot (pair 2 1))
      [.main, .main, .main, .main, .main, .main,
      .main, .main, .main, .main, .main, .customer 1, .machine 0, .machine 0, .machine 0,
      .main, .machine 0],
      notes r.1 = [.enters 1 1, .takes 0 0 2] ∧ r.2.cpc 0 = .outside := by decide +kernel
  obtain ⟨r, hr, hn, hout⟩ := h
  exact ⟨r.1, r.2, (guarded_of_exec hr).of_guarded, by simp [hn], rfl, hout, by simp [hn]⟩

end ParlorState

end CowPbs
