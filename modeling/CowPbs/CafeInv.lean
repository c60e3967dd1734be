import Mathlib
import CowPbs.Cafe

/-!
# Invariants of the cafe

What holds in every run : the customers of a second enter one by one (`Line`), the baristas
that main chains are woken one by one (`Chain`), an order is held by at most one barista
(`Orders`), and a customer who has not left is served or in time (`Customers`).
-/

open Function Rescan

namespace CowPbs

namespace CafeState

variable {b n : ℕ} {cafe : Cafe b n} {s t : CafeState b n} {th : CafeThread b n}

/-- The customers of this second who are still outside. The first of them may enter; when
there is none, `machine_lock` is free. -/
structure Line (cafe : Cafe b n) (s : CafeState b n) (Q : List (Fin n)) : Prop where
  sorted : Q.Pairwise (· < ·)
  wake : s.wakeCust = succ Q
  mem : ∀ c, c ∈ Q ↔ s.main = .sleeping ∧ s.cpc c = .outside ∧ cafe.arrival c = s.tmr
  lock : s.machineLock = if Q = [] then 1 else 0
  posted : ∀ c, s.cpc c = .outside → s.customers c = if Q.head? = some c then 1 else 0
  ordered : ∀ c, s.cpc c = .outside ↔ s.totalorders ≤ c
  arrived : ∀ c, s.cpc c = .outside → s.tmr ≤ cafe.arrival c
  here : ∀ c, s.cpc c ≠ .outside →
    cafe.arrival c ≤ s.tmr ∧ (s.main ≠ .sleeping → cafe.arrival c < s.tmr)

/-- The chained baristas who have not been woken yet, except that the first has the
wake-up, or is at `machine_lock` with it. -/
structure Chain (s : CafeState b n) (P : List (Fin b)) : Prop where
  nodup : P.Nodup
  wake : s.wake = succ P
  first : ∀ i, P.head? = some i →
    s.pc i = .lock ∧ s.baristas i = 0 ∨ s.pc i ≠ .lock ∧ s.baristas i = 1
  others : ∀ i, P.head? ≠ some i → s.pc i ≠ .lock ∧ s.baristas i = 0
  ready : ∀ i ∈ P, ∀ k, s.pc i = .preparing k → 0 < s.orderComp i
  cleared : ∀ i ∈ P, s.special i = false
  second : s.main ≠ .sleeping → P = []

/-- The baristas and their orders. -/
structure Orders (s : CafeState b n) : Prop where
  held : ∀ i k, (s.pc i).flag = some k → s.taken k = true
  unique : ∀ i j k, (s.pc i).flag = some k → (s.pc j).flag = some k → i = j
  taken : ∀ k, s.taken k = true → s.cpc k ≠ .outside
  due : ∀ i k, (s.pc i).flag = some k →
    0 < s.orderComp i ∨ s.tmr < s.finish i ∨ s.main ≠ .sleeping ∧ s.tmr = s.finish i
  special : ∀ i, s.special i = true → ∃ k, s.pc i = .order k
  scanned : ∀ i (k : Fin n), k < s.cst i → s.complete k = true ∨ s.taken k = true

/-- The customers. -/
structure Customers (cafe : Cafe b n) (s : CafeState b n) : Prop where
  outside : ∀ c, s.cpc c = .outside → s.complete c = false ∧ s.tolTime c = -1
  tol : ∀ c, s.cpc c ≠ .outside →
    s.tolTime c = cafe.arrival c + (cafe.customer c).tolTime + 1
  gone : ∀ c, s.cpc c = .left ∨ s.cpc c = .collected → s.complete c = true
  served : ∀ c, s.cpc c ≠ .left → s.complete c = true →
    s.taken c = true ∧ ∀ i, (s.pc i).flag ≠ some c
  woken : ∀ c, s.cpc c = .waiting → s.complete c = true → 0 < s.customers c
  expired : ∀ c, s.cpc c = .waiting → 0 < s.customers c → s.complete c = false →
    s.main = .sleeping ∧ s.tolTime c = s.tmr
  left : ∀ c, s.cpc c = .left → s.tolTime c ≤ s.tmr

/-- The baristas to be woken after a move. -/
def pending (s : CafeState b n) (P : List (Fin b)) : CafeThread b n → List (Fin b)
  | .main => if s.main = .locking then s.chained else []
  | .barista i =>
    match s.pc i with
    | .lock | .order _ => P.tail
    | .idle | .preparing _ => P
  | .customer _ => P

/-! ## The line of customers -/

namespace Line

variable {Q : List (Fin n)}

theorem nodup (h : Line cafe s Q) : Q.Nodup :=
  h.sorted.imp fun h => h.ne

theorem eq_nil_of_quiet (h : Line cafe s Q) (hq : s.Quiet cafe) : Q = [] := by
  cases Q with
  | nil => rfl
  | cons c Q =>
    have hc := ((h.mem c).1 List.mem_cons_self).2.1
    have hpost := h.posted c hc
    rw [hq.customer (.inl hc)] at hpost
    simp at hpost

/-- The first of the line is the next customer. -/
theorem head_eq {c : Fin n} {Q : List (Fin n)} (h : Line cafe s (c :: Q)) :
    s.totalorders = c := by
  obtain ⟨hm, hc, hac⟩ := (h.mem c).1 List.mem_cons_self
  have hle : s.totalorders ≤ c := (h.ordered c).1 hc
  by_contra hne
  have hlt : s.totalorders < c := lt_of_le_of_ne hle hne
  -- the customer before it would be in the line as well
  let d : Fin n := ⟨s.totalorders, hlt.trans c.isLt⟩
  have hd : s.cpc d = .outside := (h.ordered d).2 le_rfl
  have had : cafe.arrival d = s.tmr := by
    have h1 := h.arrived d hd
    have h2 : cafe.arrival d ≤ cafe.arrival c := cafe.sorted d c (Fin.le_def.2 hle)
    omega
  have hmem := (h.mem d).2 ⟨hm, hd, had⟩
  rcases List.mem_cons.1 hmem with hdc | hdQ
  · exact hne (by simpa [d] using congrArg Fin.val hdc)
  · have := (List.pairwise_cons.1 h.sorted).1 d hdQ
    exact absurd hlt (not_lt_of_gt this)

/-- A move that does not touch the line. -/
theorem of_eq (h : Line cafe s Q) (hwake : t.wakeCust = s.wakeCust)
    (hlock : t.machineLock = s.machineLock) (htot : t.totalorders = s.totalorders)
    (htmr : t.tmr = s.tmr) (hmain : t.main = s.main)
    (hcpc : ∀ c, t.cpc c = .outside ↔ s.cpc c = .outside)
    (hcus : ∀ c, s.cpc c = .outside → t.customers c = s.customers c) : Line cafe t Q where
  sorted := h.sorted
  wake := hwake.trans h.wake
  mem c := by rw [hmain, hcpc, htmr, h.mem]
  lock := hlock.trans h.lock
  posted c hc := by
    rw [hcus c ((hcpc c).1 hc)]
    exact h.posted c ((hcpc c).1 hc)
  ordered c := by rw [hcpc, htot, h.ordered]
  arrived c hc := by
    rw [htmr]
    exact h.arrived c ((hcpc c).1 hc)
  here c hc := by
    rw [htmr, hmain]
    exact h.here c fun hc' => hc ((hcpc c).2 hc')

theorem step (h : Line cafe s Q) (ho : Orders s) (hc : Customers cafe s)
    (hs : s.Moves cafe th t) : ∃ Q, Line cafe t Q := by
  cases hs with
  | second hm hl =>
    have hQ : Q = [] := List.eq_nil_iff_forall_not_mem.2 fun c hcQ => by
      have := ((h.mem c).1 hcQ).1
      rw [hm] at this
      cases this
    subst hQ
    have hout : ∀ c, cafe.arrival c = s.tmr → s.cpc c = .outside := by
      intro c ha
      by_contra hpc
      have := (h.here c hpc).2 (by simp [hm])
      omega
    refine ⟨s.arrivals cafe, ⟨?_, ?_, fun c => ?_, ?_, fun c hpc => ?_, h.ordered, h.arrived,
      fun c hpc => ⟨(h.here c hpc).1, fun hm' => (hm' rfl).elim⟩⟩⟩
    · exact (List.pairwise_lt_finRange n).filter _
    · show link _ s.wakeCust = _
      rw [h.wake]
      exact link_none nodup_arrivals
    · simp only [mem_arrivals]
      exact ⟨fun hc => ⟨trivial, hout c hc, hc⟩, fun hc => hc.2.2⟩
    · simp only [h.lock]
      split_ifs <;> rfl
    · have htol : s.tolTime c ≠ s.tmr := by
        rw [(hc.outside c hpc).2]
        omega
      have hzero := h.posted c hpc
      simp only [htol, ↓reduceIte, semPostNext_apply, hzero]
      simp
  | tick hm hq =>
    obtain rfl := h.eq_nil_of_quiet hq
    have hout : ∀ c, s.cpc c = .outside → cafe.arrival c ≠ s.tmr := by
      intro c hpc ha
      exact List.not_mem_nil ((h.mem c).2 ⟨hm, hpc, ha⟩)
    refine ⟨[], ⟨.nil, h.wake, fun c => ?_, h.lock, h.posted, h.ordered, fun c hpc => ?_,
      fun c hpc => ?_⟩⟩
    · simp only [List.not_mem_nil, false_iff]
      rintro ⟨hm', -⟩
      split_ifs at hm'
    · have h1 := h.arrived c hpc
      have h2 := hout c hpc
      show s.tmr + 1 ≤ _
      omega
    · have h1 := (h.here c hpc).1
      show _ ≤ s.tmr + 1 ∧ (_ → _ < s.tmr + 1)
      omega
  | enter c hpc hcus =>
    -- `c` has the wake-up, so it is the first of the line
    have hpost := h.posted c hpc
    cases Q with
    | nil => simp at hpost; omega
    | cons d Q =>
      have hdc : d = c := by
        by_contra hdc
        simp [hdc] at hpost
        omega
      subst hdc
      obtain ⟨hd, hsorted⟩ := List.pairwise_cons.1 h.sorted
      have hdQ : d ∉ Q := (List.nodup_cons.1 h.nodup).1
      have htot := h.head_eq
      have hnext : s.wakeCust d = Q.head? := by rw [h.wake, succ_head]
      have hone : s.customers d = 1 := by simpa using hpost
      refine ⟨Q, ⟨hsorted, ?_, fun e => ?_, ?_, fun e he => ?_, fun e => ?_, fun e he => ?_,
        fun e he => ?_⟩⟩
      · show update s.wakeCust d none = succ Q
        rw [h.wake, update_succ hdQ]
      · by_cases hed : e = d
        · simp [hed, hdQ]
        · have := h.mem e
          simpa [hed] using this
      · have hl : s.machineLock = 0 := by simpa using h.lock
        simp only [hnext, hl, List.head?_eq_none_iff]
      · have hed : e ≠ d := by
          rintro rfl
          simp at he
        have he' : s.cpc e = .outside := by simpa [hed] using he
        have hz := h.posted e he'
        have hde : ¬d = e := fun h => hed h.symm
        simp [hde] at hz
        simp [hed, hnext, hz]
      · by_cases hed : e = d
        · simp [hed, htot]
        · have := h.ordered e
          have hne : (e : ℕ) ≠ d := fun h => hed (Fin.ext h)
          simp only [hed, ne_eq, not_false_eq_true, update_of_ne, this, htot]
          omega
      · have hed : e ≠ d := by
          rintro rfl
          simp at he
        exact h.arrived e (by simpa [hed] using he)
      · by_cases hed : e = d
        · subst hed
          obtain ⟨hm, -, ha⟩ := (h.mem e).1 List.mem_cons_self
          exact ⟨ha.le, fun hm' => (hm' hm).elim⟩
        · exact h.here e (by simpa [hed] using he)
  | collect c hpc hcus hd =>
    refine ⟨Q, h.of_eq rfl rfl rfl rfl rfl (fun d => ?_) fun d hout => ?_⟩
    · by_cases hdc : d = c <;> simp [hdc, hpc]
    · have hdc : d ≠ c := by
        rintro rfl
        rw [hpc] at hout
        cases hout
      simp [hdc]
  | leave c hpc hcus hd =>
    refine ⟨Q, h.of_eq rfl rfl rfl rfl rfl (fun d => ?_) fun d hout => ?_⟩
    · by_cases hdc : d = c <;> simp [hdc, hpc]
    · have hdc : d ≠ c := by
        rintro rfl
        rw [hpc] at hout
        cases hout
      simp [hdc]
  | finish i k hpc hoc =>
    refine ⟨Q, h.of_eq rfl rfl rfl rfl rfl (fun d => Iff.rfl) fun d hd => ?_⟩
    have hdk : d ≠ k := by
      rintro rfl
      exact ho.taken d (ho.held i d (by simp [hpc, BaristaPc.flag])) hd
    simp [hdk]
  | _ => exact ⟨Q, h.of_eq rfl rfl rfl rfl rfl (fun d => Iff.rfl) fun d hd => rfl⟩

end Line

/-! ## The chain of baristas -/

namespace Chain

variable {P : List (Fin b)} {i : Fin b}

/-- A barista with a wake-up, or at `machine_lock`, is the first of the chain. -/
theorem head_of_baristas (h : Chain s P) (hi : 0 < s.baristas i) : P.head? = some i := by
  by_contra hne
  have := (h.others i hne).2
  omega

theorem head_of_lock (h : Chain s P) (hi : s.pc i = .lock) : P.head? = some i := by
  by_contra hne
  exact (h.others i hne).1 hi

theorem eq_nil_of_quiet {Q : List (Fin n)} (h : Chain s P) (hQ : Line cafe s Q)
    (hq : s.Quiet cafe) : P = [] := by
  cases P with
  | nil => rfl
  | cons i P =>
    obtain ⟨hidle, hlock, hprep⟩ := hq.barista i
    rcases h.first i rfl with ⟨hpc, -⟩ | ⟨hpc, hone⟩
    · have hl := hQ.lock
      rw [hQ.eq_nil_of_quiet hq, hlock hpc] at hl
      simp at hl
    · by_cases hp : ∃ k, s.pc i = .preparing k
      · obtain ⟨k, hk⟩ := hp
        have := h.ready i List.mem_cons_self k hk
        rw [hprep k hk] at this
        exact (lt_irrefl _ this).elim
      · rw [hidle hpc fun k hk => hp ⟨k, hk⟩] at hone
        cases hone

/-- A move that leaves the chain as it is. -/
theorem of_eq (h : Chain s P) (hwake : t.wake = s.wake) (hbar : t.baristas = s.baristas)
    (hmain : t.main = s.main) (hlock : ∀ i, t.pc i = .lock ↔ s.pc i = .lock)
    (hready : ∀ i ∈ P, ∀ k, t.pc i = .preparing k → 0 < t.orderComp i)
    (hspecial : t.special = s.special) : Chain t P where
  nodup := h.nodup
  wake := hwake.trans h.wake
  first i hi := by
    rw [hbar, Ne, hlock]
    exact h.first i hi
  others i hi := by
    rw [hbar, Ne, hlock]
    exact h.others i hi
  ready := hready
  cleared i hi := by
    rw [hspecial]
    exact h.cleared i hi
  second hm := h.second (by rwa [hmain] at hm)

/-- The first of the chain passes the wake-up on. -/
theorem pass (h : Chain s (i :: P)) (hwake : t.wake = update s.wake i none)
    (hbar : ∀ j, t.baristas j =
      (if j = i then 0 else s.baristas j) + if s.wake i = some j then 1 else 0)
    (hmain : t.main = s.main) (hpc : ∀ j, j ≠ i → t.pc j = s.pc j) (hpci : t.pc i ≠ .lock)
    (hcomp : t.orderComp = s.orderComp) (hspecial : ∀ j, j ≠ i → t.special j = s.special j) :
    Chain t P := by
  obtain ⟨hiP, hnd⟩ := List.nodup_cons.1 h.nodup
  have hnext : s.wake i = P.head? := by rw [h.wake, succ_head]
  have hne : ∀ j ∈ P, j ≠ i := by
    rintro j hj rfl
    exact hiP hj
  have hzero : ∀ j, j ≠ i → s.pc j ≠ .lock ∧ s.baristas j = 0 := fun j hj =>
    h.others j (by simpa using Ne.symm hj)
  refine ⟨hnd, ?_, fun j hj => ?_, fun j hj => ?_, fun j hj k hk => ?_, fun j hj => ?_,
    fun hm => ?_⟩
  · rw [hwake, h.wake, update_succ hiP]
  · have hji : j ≠ i := hne j (List.mem_of_mem_head? (by simp [hj]))
    refine .inr ⟨by rw [hpc j hji]; exact (hzero j hji).1, ?_⟩
    rw [hbar, hnext, hj]
    simp [hji, (hzero j hji).2]
  · refine ⟨?_, ?_⟩
    · by_cases hji : j = i
      · rwa [hji]
      · rw [hpc j hji]
        exact (hzero j hji).1
    · rw [hbar, hnext, if_neg hj]
      by_cases hji : j = i
      · simp [hji]
      · simp [hji, (hzero j hji).2]
  · rw [hpc j (hne j hj)] at hk
    rw [hcomp]
    exact h.ready j (by simp [hj]) k hk
  · rw [hspecial j (hne j hj)]
    exact h.cleared j (by simp [hj])
  · have := h.second (by rwa [hmain] at hm)
    cases this

theorem baristas_of_lock (h : Chain s (i :: P)) (hpc : s.pc i = .lock) (j : Fin b) :
    semPostNext s.baristas (s.wake i) j =
      (if j = i then 0 else s.baristas j) + if s.wake i = some j then 1 else 0 := by
  rcases h.first i rfl with ⟨-, hz⟩ | ⟨hne, -⟩
  · by_cases hj : j = i <;> simp [hj, hz]
  · exact (hne hpc).elim

theorem baristas_of_order {k : Fin n} (h : Chain s (i :: P)) (hpc : s.pc i = .order k)
    (j : Fin b) : semPostNext (semWait s.baristas i) (s.wake i) j =
      (if j = i then 0 else s.baristas j) + if s.wake i = some j then 1 else 0 := by
  rcases h.first i rfl with ⟨hpc', -⟩ | ⟨-, hone⟩
  · rw [hpc] at hpc'
    cases hpc'
  · by_cases hj : j = i <;> simp [hj, hone]

theorem step {Q : List (Fin n)} (h : Chain s P) (hQ : Line cafe s Q) (ho : Orders s)
    (hs : s.Moves cafe th t) : Chain t (s.pending P th) := by
  cases hs with
  | second hm hl =>
    have hP : P = [] := h.second (by simp [hm])
    subst hP
    have hzero : ∀ i, s.pc i ≠ .lock ∧ s.baristas i = 0 := fun i => h.others i (by simp)
    rw [pending, if_pos hm]
    refine ⟨nodup_chained, ?_, fun i hi => ?_, fun i hi => ?_, fun i hi k hk => ?_,
      fun i hi => rfl, fun hm' => (hm' rfl).elim⟩
    · show link _ s.wake = _
      rw [h.wake]
      exact link_none nodup_chained
    · refine .inr ⟨(hzero i).1, ?_⟩
      simp [(hzero i).2, hi]
    · refine ⟨(hzero i).1, ?_⟩
      simp [(hzero i).2, hi]
    · -- a barista that is preparing is chained only when its coffee is ready
      have hfin : s.finish i ≤ s.tmr := by
        rcases ready_of_mem_chained hi with hfin | hsp
        · exact hfin
        · obtain ⟨k', hk'⟩ := ho.special i hsp
          have hk : s.pc i = .preparing k := hk
          rw [hk] at hk'
          cases hk'
      show 0 < if s.finish i = s.tmr then s.orderComp i + 1 else s.orderComp i
      rcases ho.due i k (by simpa [BaristaPc.flag] using congrArg BaristaPc.flag hk) with
        hpos | hlt | ⟨-, heq⟩
      · split_ifs <;> omega
      · omega
      · rw [if_pos heq.symm]
        omega
  | tick hm hq =>
    obtain rfl := h.eq_nil_of_quiet hQ hq
    have hnil : s.pending [] .main = [] := by simp [pending, hm]
    rw [hnil]
    exact ⟨.nil, h.wake, h.first, h.others, by simp, by simp, fun _ => rfl⟩
  | wake i hpc hb =>
    have hi := h.head_of_baristas hb
    have hone : s.baristas i = 1 := by
      rcases h.first i hi with ⟨hpc', -⟩ | ⟨-, hone⟩
      · rw [hpc] at hpc'
        cases hpc'
      · exact hone
    simp only [pending, hpc]
    refine ⟨h.nodup, h.wake, fun j hj => ?_, fun j hj => ?_, fun j hj k hk => ?_, h.cleared,
      h.second⟩
    · obtain rfl : i = j := Option.some.inj (hi.symm.trans hj)
      exact .inl ⟨by simp, by simp [hone]⟩
    · have hji : j ≠ i := by
        rintro rfl
        exact hj hi
      simpa [hji] using h.others j hj
    · have hji : j ≠ i := by
        rintro rfl
        simp at hk
      exact h.ready j hj k (by simpa [hji] using hk)
  | take i k hpc hl hk =>
    obtain ⟨P, rfl⟩ := List.head?_eq_some_iff.1 (h.head_of_lock hpc)
    simp only [pending, hpc, List.tail_cons]
    exact h.pass rfl (h.baristas_of_lock hpc) rfl (fun j hj => by simp [hj]) (by simp) rfl
      fun j hj => by simp [hj]
  | rest i hpc hl hk =>
    obtain ⟨P, rfl⟩ := List.head?_eq_some_iff.1 (h.head_of_lock hpc)
    simp only [pending, hpc, List.tail_cons]
    exact h.pass rfl (h.baristas_of_lock hpc) rfl (fun j hj => by simp [hj]) (by simp) rfl
      fun j hj => rfl
  | gone i k hpc hb hc =>
    obtain ⟨P, rfl⟩ := List.head?_eq_some_iff.1 (h.head_of_baristas hb)
    simp only [pending, hpc, List.tail_cons]
    exact h.pass rfl (h.baristas_of_order hpc) rfl (fun j hj => by simp [hj]) (by simp) rfl
      fun j hj => rfl
  | start i k hpc hb hc =>
    obtain ⟨P, rfl⟩ := List.head?_eq_some_iff.1 (h.head_of_baristas hb)
    simp only [pending, hpc, List.tail_cons]
    exact h.pass rfl (h.baristas_of_order hpc) rfl (fun j hj => by simp [hj]) (by simp) rfl
      fun j hj => rfl
  | finish i k hpc hoc =>
    simp only [pending, hpc]
    refine h.of_eq rfl rfl rfl (fun j => ?_) (fun j hj k' hk' => ?_) rfl
    · by_cases hji : j = i <;> simp [hji, hpc]
    · have hji : j ≠ i := by
        rintro rfl
        simp at hk'
      simpa [hji] using h.ready j hj k' (by simpa [hji] using hk')
  | enter c hpc hcus => exact h.of_eq rfl rfl rfl (fun i => Iff.rfl) h.ready rfl
  | collect c hpc hcus hd => exact h.of_eq rfl rfl rfl (fun i => Iff.rfl) h.ready rfl
  | leave c hpc hcus hd => exact h.of_eq rfl rfl rfl (fun i => Iff.rfl) h.ready rfl

end Chain

/-! ## Orders and customers -/

theorem nextOrder_eq_some {i : Fin b} {k : Fin n} (h : s.nextOrder i = some k) :
    s.cst i ≤ k ∧ k < s.totalorders ∧ s.complete k = false ∧ s.taken k = false := by
  have := List.find?_some h
  simp only [Bool.and_eq_true, decide_eq_true_eq, Bool.not_eq_eq_eq_not, Bool.not_true] at this
  exact ⟨this.1.1.1, this.1.1.2, this.1.2, this.2⟩

/-- The orders before the one that is taken, from `cst` on, are taken or settled. -/
theorem nextOrder_min {i : Fin b} {k : Fin n} (h : s.nextOrder i = some k) {j : Fin n}
    (hi : s.cst i ≤ j) (hj : j < k) : s.complete j = true ∨ s.taken j = true := by
  have hk := (nextOrder_eq_some h).2.1
  obtain ⟨-, m, hm, hget, hmin⟩ := List.find?_eq_some_iff_getElem.1 h
  have hmk : m = k := by simpa [Fin.ext_iff] using hget
  have := hmin j (by simpa [hmk] using hj)
  have hjt : (j : ℕ) < s.totalorders := lt_trans (Fin.lt_def.1 hj) hk
  cases hc : s.complete j with
  | true => exact .inl rfl
  | false => exact .inr (by simpa [hi, hjt, hc] using this)

theorem nextOrder_eq_none {i : Fin b} (h : s.nextOrder i = none) {j : Fin n}
    (hi : s.cst i ≤ j) (hj : j < s.totalorders) : s.complete j = true ∨ s.taken j = true := by
  have := List.find?_eq_none.1 h j (List.mem_finRange j)
  simp only [hi, hj, and_self, decide_true, Bool.true_and, Bool.and_eq_true,
    Bool.not_eq_eq_eq_not, Bool.not_true, not_and, Bool.not_eq_false] at this
  cases hc : s.complete j with
  | true => exact .inl rfl
  | false => exact .inr (this hc)

namespace Orders

variable {Q : List (Fin n)} {i : Fin b} {k : Fin n}

theorem held_step (h : Orders s) (hs : s.Moves cafe th t) (hi : (t.pc i).flag = some k) :
    t.taken k = true := by
  have hold := h.held i
  cases hs <;> grind [BaristaPc.flag, update_apply]

theorem unique_step {j : Fin b} (h : Orders s) (hs : s.Moves cafe th t)
    (hi : (t.pc i).flag = some k) (hj : (t.pc j).flag = some k) : i = j := by
  have hold := h.unique i j k
  have hi' := h.held i k
  have hj' := h.held j k
  cases hs with
  | take l m hpc hl hm =>
    have := (nextOrder_eq_some hm).2.2.2
    grind [BaristaPc.flag, update_apply]
  | _ => grind [BaristaPc.flag, update_apply]

theorem taken_step (h : Orders s) (hQ : Line cafe s Q) (hs : s.Moves cafe th t)
    (hk : t.taken k = true) : t.cpc k ≠ .outside := by
  have hold := h.taken k
  cases hs with
  | take l m hpc hl hm =>
    have hlt := (nextOrder_eq_some hm).2.1
    have := hQ.ordered m
    grind [update_apply]
  | _ => grind [update_apply]

theorem due_step (h : Orders s) (hs : s.Moves cafe th t) (hi : (t.pc i).flag = some k) :
    0 < t.orderComp i ∨ t.tmr < t.finish i ∨ t.main ≠ .sleeping ∧ t.tmr = t.finish i := by
  have hold := h.due i k
  cases hs with
  | tick hm hq =>
    have hm' : (if s.customerRemaining then MainPc.locking else .done) ≠ .sleeping := by
      split_ifs <;> simp
    rcases hold hi with hpos | hlt | ⟨hne, -⟩
    · exact .inl hpos
    · refine .inr ?_
      show ((s.tmr + 1 : ℕ) : ℤ) < s.finish i ∨ _ ∧ ((s.tmr + 1 : ℕ) : ℤ) = s.finish i
      rcases (Int.add_one_le_of_lt hlt).eq_or_lt with heq | hlt
      · exact .inr ⟨hm', by push_cast; exact heq⟩
      · exact .inl (by push_cast; exact hlt)
    · exact (hne hm).elim
  | _ => grind [BaristaPc.flag, update_apply]

theorem special_step {P : List (Fin b)} (h : Orders s) (hP : Chain s P) (hs : s.Moves cafe th t)
    (hi : t.special i = true) : ∃ k, t.pc i = .order k := by
  have hold := h.special i
  have hcl := hP.cleared i
  cases hs with
  | gone l m hpc hb hc =>
    have hmem := List.mem_of_mem_head? (hP.head_of_baristas hb)
    grind [update_apply]
  | start l m hpc hb hc =>
    have hmem := List.mem_of_mem_head? (hP.head_of_baristas hb)
    grind [update_apply]
  | take l m hpc hl hm =>
    by_cases hil : i = l
    · exact ⟨m, by simp [hil]⟩
    · simpa [hil] using hold (by simpa [hil] using hi)
  | second hm hl => cases hi
  | _ => grind [update_apply]

theorem scanned_step (h : Orders s) (hs : s.Moves cafe th t) (hk : k < t.cst i) :
    t.complete k = true ∨ t.taken k = true := by
  have hold := h.scanned i k
  cases hs with
  | take l m hpc hl hm =>
    have hmin := fun h => nextOrder_min (j := k) hm h
    grind [update_apply]
  | rest l hpc hl hm =>
    have hnone := fun h => nextOrder_eq_none (j := k) hm h
    grind [update_apply]
  | _ => grind [update_apply]

theorem step {P : List (Fin b)} (h : Orders s) (hQ : Line cafe s Q) (hP : Chain s P)
    (hs : s.Moves cafe th t) : Orders t where
  held _ _ := h.held_step hs
  unique _ _ _ := h.unique_step hs
  taken _ := h.taken_step hQ hs
  due _ _ := h.due_step hs
  special _ := h.special_step hP hs
  scanned _ _ := h.scanned_step hs

end Orders

namespace Customers

variable {Q : List (Fin n)} {c : Fin n}

theorem outside_step (h : Customers cafe s) (ho : Orders s) (hs : s.Moves cafe th t)
    (hc : t.cpc c = .outside) : t.complete c = false ∧ t.tolTime c = -1 := by
  have hold := h.outside c
  cases hs with
  | finish i k hpc hoc =>
    have := ho.taken k (ho.held i k (by simp [hpc, BaristaPc.flag]))
    grind [update_apply]
  | _ => grind [update_apply]

theorem tol_step (h : Customers cafe s) (hs : s.Moves cafe th t) (hc : t.cpc c ≠ .outside) :
    t.tolTime c = cafe.arrival c + (cafe.customer c).tolTime + 1 := by
  have hold := h.tol c
  cases hs <;> grind [update_apply]

theorem gone_step (h : Customers cafe s) (hs : s.Moves cafe th t)
    (hc : t.cpc c = .left ∨ t.cpc c = .collected) : t.complete c = true := by
  have hold := h.gone c
  cases hs <;> grind [update_apply]

theorem served_step (h : Customers cafe s) (ho : Orders s) (hs : s.Moves cafe th t)
    (hc : t.cpc c ≠ .left) (hd : t.complete c = true) :
    t.taken c = true ∧ ∀ i, (t.pc i).flag ≠ some c := by
  have hold := h.served c
  have huniq := fun i j => ho.unique i j c
  cases hs with
  | finish i k hpc hoc =>
    have hik : (s.pc i).flag = some k := by simp [hpc, BaristaPc.flag]
    have hheld := ho.held i k hik
    grind [update_apply, BaristaPc.flag]
  | take i k hpc hl hk =>
    have hk := (nextOrder_eq_some hk).2.2
    grind [update_apply, BaristaPc.flag]
  | _ => grind [update_apply, BaristaPc.flag]

theorem woken_step (h : Customers cafe s) (hs : s.Moves cafe th t)
    (hc : t.cpc c = .waiting) (hd : t.complete c = true) : 0 < t.customers c := by
  have hold := h.woken c
  have hout := h.outside c
  cases hs <;> grind [update_apply]

theorem expired_step (h : Customers cafe s) (hQ : Line cafe s Q) (hs : s.Moves cafe th t)
    (hc : t.cpc c = .waiting) (hcus : 0 < t.customers c) (hd : t.complete c = false) :
    t.main = .sleeping ∧ t.tolTime c = t.tmr := by
  have hold := h.expired c
  cases hs with
  | second hm hl =>
    have hlt : cafe.arrival c < s.tmr := (hQ.here c (by simp [show s.cpc c = .waiting from hc])).2
      (by simp [hm])
    have hhead : (s.arrivals cafe).head? ≠ some c := by
      intro hh
      have := mem_arrivals.1 (List.mem_of_mem_head? hh)
      omega
    grind
  | tick hm hq =>
    have hz : s.customers c = 0 := hq.customer (.inr hc)
    have hcus : 0 < s.customers c := hcus
    omega
  | enter d hpc hpos =>
    have hne : s.wakeCust d ≠ some c := by
      intro hw
      rw [hQ.wake] at hw
      have hout := ((hQ.mem c).1 (mem_of_succ hw)).2.1
      have hcd := ne_of_succ hQ.nodup hw
      simp [hcd, hout] at hc
    have hone := hQ.posted d hpc
    grind [update_apply]
  | _ => grind [update_apply]

theorem left_step (h : Customers cafe s) (hs : s.Moves cafe th t) (hc : t.cpc c = .left) :
    t.tolTime c ≤ t.tmr := by
  have hold := h.left c
  have hexp := h.expired c
  cases hs <;> grind [update_apply]

theorem step (h : Customers cafe s) (hQ : Line cafe s Q) (ho : Orders s)
    (hs : s.Moves cafe th t) : Customers cafe t where
  outside _ := h.outside_step ho hs
  tol _ := h.tol_step hs
  gone _ := h.gone_step hs
  served _ := h.served_step ho hs
  woken _ := h.woken_step hs
  expired _ := h.expired_step hQ hs
  left _ := h.left_step hs

end Customers

/-! ## The invariant -/

/-- What holds in every run. -/
structure Inv (cafe : Cafe b n) (s : CafeState b n) (P : List (Fin b)) : Prop where
  line : ∃ Q, Line cafe s Q
  chain : Chain s P
  orders : Orders s
  customers : Customers cafe s
  quiet : s.main ≠ .sleeping → s.Quiet cafe

/-- Whether the threads are blocked does not depend on the clock. -/
theorem Quiet.of_eq (h : s.Quiet cafe) (hpc : t.pc = s.pc) (hcpc : t.cpc = s.cpc)
    (hlock : t.machineLock = s.machineLock) (hbar : t.baristas = s.baristas)
    (hcomp : t.orderComp = s.orderComp) (hcus : t.customers = s.customers) : t.Quiet cafe := by
  refine ⟨fun i => ?_, fun c => ?_⟩
  · have hi := h.1 i
    unfold baristaMove at hi ⊢
    rw [hpc, hlock, hbar, hcomp]
    cases hp : s.pc i <;> simp_all
  · have hc := h.2 c
    unfold customerMove at hc ⊢
    rw [hcpc, hcus]
    cases hp : s.cpc c <;> simp_all

namespace Inv

variable {P : List (Fin b)}

theorem quiet_step (h : Inv cafe s P) (hs : s.Moves cafe th t) (hm : t.main ≠ .sleeping) :
    t.Quiet cafe := by
  have hmove := move_of_moves hs
  cases th with
  | main =>
    cases hs with
    | tick hm' hq => exact hq.of_eq rfl rfl rfl rfl rfl rfl
    | second hm' hl => exact (hm rfl).elim
  | barista i =>
    have hq := h.quiet (by cases hs <;> exact hm)
    rw [move, hq.1 i] at hmove
    cases hmove
  | customer c =>
    have hq := h.quiet (by cases hs <;> exact hm)
    rw [move, hq.2 c] at hmove
    cases hmove

theorem step (h : Inv cafe s P) (hs : s.Moves cafe th t) : Inv cafe t (s.pending P th) := by
  obtain ⟨Q, hQ⟩ := h.line
  exact ⟨hQ.step h.orders h.customers hs, h.chain.step hQ h.orders hs,
    h.orders.step hQ h.chain hs, h.customers.step hQ h.orders hs, h.quiet_step hs⟩

theorem boot (cafe : Cafe b n) : Inv cafe (boot b n) [] := by
  have hm : (CafeState.boot b n).main ≠ .sleeping := by
    simp only [CafeState.boot, loop]
    split_ifs <;> simp
  refine ⟨⟨[], ?_⟩, ?_, ?_, ?_, fun _ => ?_⟩
  · exact ⟨.nil, rfl, fun c => by simp [hm], rfl, fun c _ => rfl, fun c => by simp [CafeState.boot, loop],
      fun c _ => Nat.zero_le _, fun c hc => (hc rfl).elim⟩
  · exact ⟨.nil, rfl, by simp, fun i _ => by simp [CafeState.boot, loop], by simp, by simp,
      fun _ => rfl⟩
  · constructor <;> simp [CafeState.boot, loop, BaristaPc.flag]
  · constructor <;> simp [CafeState.boot, loop]
  · exact ⟨fun i => by simp [CafeState.boot, loop, baristaMove],
      fun c => by simp [CafeState.boot, loop, customerMove]⟩

/-- The invariant along a run. -/
theorem run {es : List (CafeThread b n × Option (CafeNote b n))}
    (h : Transition.Run (Step cafe) (CafeState.boot b n) es s) : ∃ P, Inv cafe s P := by
  induction h with
  | nil => exact ⟨[], boot cafe⟩
  | snoc _ hs ih =>
    obtain ⟨P, hP⟩ := ih
    exact ⟨_, hP.step (moves_of_move hs.1)⟩

end Inv

end CafeState

end CowPbs
