import Mathlib
import CowPbs.CafeTiming
import CowPbs.Lib.Confluence

/-!
# The cafe under different schedules

Within a second the threads run in any order. The order matters for one thing : a barista
that reads the status of a customer whose tolerance time ends in this second, before or
after the customer leaves. If no step of a run does that (`Calm`), every other run from the
same input ends in the same state, so it serves the same customers and prints the same
totals (`schedule_independent`).
-/

open Function Rescan Transition

namespace CowPbs

namespace CafeState

variable {b n : ℕ} {cafe : Cafe b n} {s t u : CafeState b n} {P : List (Fin b)}
  {f e : CafeThread b n}

/-- The tolerance time of customer `c` ends now, and it was not served before. -/
def Expiring (s : CafeState b n) (c : Fin n) : Prop :=
  s.tolTime c = s.tmr ∧ s.cpc c ≠ .collected

/-- The loop of barista `i` over the orders comes to the order `k`, which is not taken. -/
def Reads (s : CafeState b n) (i : Fin b) (k : Fin n) : Prop :=
  s.cst i ≤ k ∧ k < s.totalorders ∧ s.taken k = false ∧
    ∀ j : Fin n, s.cst i ≤ j → j < k → s.complete j = true ∨ s.taken j = true

/-- The next move of barista `i` depends on the status of customer `k`. -/
def Looks (s : CafeState b n) (i : Fin b) (k : Fin n) : Prop :=
  s.pc i = .lock ∧ s.Reads i k ∨ (s.pc i).flag = some k

/-- The next move of the thread does not depend on the status of a customer whose tolerance
time ends now. -/
def Calm (s : CafeState b n) (th : CafeThread b n) : Prop :=
  ∀ i k, th = .barista i → s.Looks i k → ¬s.Expiring k

instance (s : CafeState b n) (c : Fin n) : Decidable (s.Expiring c) :=
  inferInstanceAs (Decidable (_ ∧ _))

instance (s : CafeState b n) (i : Fin b) (k : Fin n) : Decidable (s.Reads i k) :=
  inferInstanceAs (Decidable (_ ∧ _ ∧ _ ∧ _))

instance (s : CafeState b n) (i : Fin b) (k : Fin n) : Decidable (s.Looks i k) :=
  inferInstanceAs (Decidable (_ ∨ _))

instance (s : CafeState b n) : DecidablePred s.Calm :=
  fun _ => inferInstanceAs (Decidable (∀ _ _, _))

theorem nextOrder_eq_some_iff {i : Fin b} {k : Fin n} :
    s.nextOrder i = some k ↔ s.Reads i k ∧ s.complete k = false := by
  constructor
  · intro h
    obtain ⟨h1, h2, h3, h4⟩ := nextOrder_eq_some h
    exact ⟨⟨h1, h2, h4, fun j hj hjk => nextOrder_min h hj hjk⟩, h3⟩
  · rintro ⟨⟨h1, h2, h3, h4⟩, h5⟩
    cases hk : s.nextOrder i with
    | none =>
      rcases nextOrder_eq_none hk h1 h2 with h | h
      · rw [h5] at h
        cases h
      · rw [h3] at h
        cases h
    | some j =>
      obtain ⟨hj1, hj2, hj3, hj4⟩ := nextOrder_eq_some hk
      rcases lt_trichotomy j k with hjk | rfl | hkj
      · rcases h4 j hj1 hjk with h | h
        · rw [hj3] at h
          cases h
        · rw [hj4] at h
          cases h
      · rfl
      · rcases nextOrder_min hk h1 hkj with h | h
        · rw [h5] at h
          cases h
        · rw [h3] at h
          cases h

theorem nextOrder_eq_none_iff {i : Fin b} :
    s.nextOrder i = none ↔ ∀ k : Fin n, s.cst i ≤ k → k < s.totalorders →
      s.complete k = true ∨ s.taken k = true := by
  refine ⟨fun h k => nextOrder_eq_none h, fun h => ?_⟩
  cases hk : s.nextOrder i with
  | none => rfl
  | some j =>
    obtain ⟨hj1, hj2, hj3, hj4⟩ := nextOrder_eq_some hk
    rcases h j hj1 hj2 with h | h
    · rw [hj3] at h
      cases h
    · rw [hj4] at h
      cases h

/-! ## Moves that commute -/

/-- The loop over the orders does not see the status of an order that is taken. -/
theorem nextOrder_of_complete {j : Fin b} (hcst : t.cst j = s.cst j)
    (htot : t.totalorders = s.totalorders) (htk : t.taken = s.taken)
    (hc : ∀ l, s.taken l = false → t.complete l = s.complete l) :
    t.nextOrder j = s.nextOrder j := by
  unfold nextOrder
  congr 1
  funext l
  rw [hcst, htot, htk]
  cases htl : s.taken l with
  | true => simp
  | false => rw [hc l htl]

/-- A completion commutes with the moves of the other baristas. -/
theorem commute_finish {i j : Fin b} {k : Fin n} (hI : Inv cafe s P) (hij : i ≠ j)
    (hpc : s.pc i = .preparing k) (hf : s.Moves cafe (.barista i) t)
    (he : s.Moves cafe (.barista j) u) :
    ∃ v, t.Moves cafe (.barista j) v ∧ u.Moves cafe (.barista i) v := by
  have hflag : (s.pc i).flag = some k := by simp [hpc, BaristaPc.flag]
  have hheld := hI.orders.held i k hflag
  have huniq : ∀ m, (s.pc j).flag = some m → m ≠ k := by
    rintro m hm rfl
    exact hij (hI.orders.unique i j m hflag hm)
  have hnext : ∀ l, s.taken l = false → update s.complete k true l = s.complete l := by
    intro l hl
    refine update_of_ne ?_ ..
    rintro rfl
    rw [hheld] at hl
    cases hl
  cases hf with
  | finish _ k' hpc' ho =>
    obtain rfl : k' = k := by simpa [hpc] using hpc'.symm
    cases he with
    | wake _ hpcj hb =>
      refine ⟨_, .wake j (by simpa [hij.symm] using hpcj) hb, ?_⟩
      convert @Moves.finish _ _ cafe _ i k' ?_ ?_ using 1
      · simp [update_comm hij]
      · simpa [hij] using hpc
      · exact ho
    | take _ m hpcj hl hm =>
      refine ⟨_, .take j m (by simpa [hij.symm] using hpcj) hl ?_, ?_⟩
      · rw [← hm]
        exact nextOrder_of_complete rfl rfl rfl hnext
      · convert @Moves.finish _ _ cafe _ i k' ?_ ?_ using 1
        · simp [update_comm hij]
        · simpa [hij] using hpc
        · exact ho
    | rest _ hpcj hl hm =>
      refine ⟨_, .rest j (by simpa [hij.symm] using hpcj) hl ?_, ?_⟩
      · rw [← hm]
        exact nextOrder_of_complete rfl rfl rfl hnext
      · convert @Moves.finish _ _ cafe _ i k' ?_ ?_ using 1
        · simp [update_comm hij]
        · simpa [hij] using hpc
        · exact ho
    | gone _ m hpcj hb hc =>
      refine ⟨_, .gone j m (by simpa [hij.symm] using hpcj) hb ?_, ?_⟩
      · by_cases hmk : m = k' <;> simp [hmk, hc]
      · convert @Moves.finish _ _ cafe _ i k' ?_ ?_ using 1
        · simp [update_comm hij]
        · simpa [hij] using hpc
        · exact ho
    | start _ m hpcj hb hc =>
      have hmk := huniq m (by simp [hpcj, BaristaPc.flag])
      refine ⟨_, .start j m (by simpa [hij.symm] using hpcj) hb (by simpa [hmk] using hc), ?_⟩
      convert @Moves.finish _ _ cafe _ i k' ?_ ?_ using 1
      · simp [update_comm hij]
      · simpa [hij] using hpc
      · exact ho
    | finish _ m hpcj hoj =>
      have hmk := huniq m (by simp [hpcj, BaristaPc.flag])
      refine ⟨_, .finish j m (by simpa [hij.symm] using hpcj) (by simpa [hij.symm] using hoj), ?_⟩
      convert @Moves.finish _ _ cafe _ i k' ?_ ?_ using 1
      · simp [update_comm hij, semWait_comm s.orderComp i j, semPost_comm s.customers k' m, hmk,
          hmk.symm, update_comm hmk]
        split_ifs <;> rfl
      · simpa [hij] using hpc
      · simpa [hij] using ho
  | _ => simp_all

/-- Moves of two baristas commute : only one of them has the wake-up of the chain. -/
theorem commute_baristas {i j : Fin b} (hI : Inv cafe s P) (hij : i ≠ j)
    (hf : s.Moves cafe (.barista i) t) (he : s.Moves cafe (.barista j) u) :
    ∃ v, t.Moves cafe (.barista j) v ∧ u.Moves cafe (.barista i) v := by
  by_cases hi : ∃ k, s.pc i = .preparing k
  · obtain ⟨k, hk⟩ := hi
    exact commute_finish hI hij hk hf he
  · by_cases hj : ∃ k, s.pc j = .preparing k
    · obtain ⟨k, hk⟩ := hj
      obtain ⟨v, hv, hv'⟩ := commute_finish hI hij.symm hk he hf
      exact ⟨v, hv', hv⟩
    · have hhead : ∀ (l : Fin b) (v : CafeState b n), s.Moves cafe (.barista l) v →
          (¬∃ k, s.pc l = .preparing k) → P.head? = some l := by
        intro l v hm hl
        cases hm with
        | wake _ hpc hb => exact hI.chain.head_of_baristas hb
        | take _ m hpc hl' hm => exact hI.chain.head_of_lock hpc
        | rest _ hpc hl' hm => exact hI.chain.head_of_lock hpc
        | gone _ m hpc hb hc => exact hI.chain.head_of_baristas hb
        | start _ m hpc hb hc => exact hI.chain.head_of_baristas hb
        | finish _ m hpc ho => exact (hl ⟨m, hpc⟩).elim
      exact (hij (Option.some.inj ((hhead i t hf hi).symm.trans (hhead j u he hj)))).elim

/-- Only the first of the line enters. -/
theorem head_of_enter {Q : List (Fin n)} {c : Fin n} (hQ : Line cafe s Q)
    (hpc : s.cpc c = .outside) (hc : 0 < s.customers c) : Q.head? = some c := by
  by_contra hne
  have := hQ.posted c hpc
  rw [if_neg hne] at this
  omega

/-- A customer who enters commutes with one who leaves or collects. -/
theorem commute_enter {c d : Fin n} (hcd : c ≠ d) (hpc : s.cpc c = .outside)
    (hd : s.cpc d ≠ .outside) (hf : s.Moves cafe (.customer c) t)
    (he : s.Moves cafe (.customer d) u) :
    ∃ v, t.Moves cafe (.customer d) v ∧ u.Moves cafe (.customer c) v := by
  cases hf with
  | enter _ _ hc =>
    have hsem : ∀ o, 0 < s.customers d →
        semWait (semPostNext (semWait s.customers c) o) d =
          semPostNext (semWait (semWait s.customers d) c) o := by
      intro o hpos
      rw [semWait_comm s.customers d c]
      exact (semPostNext_semWait _ (by simpa [hcd.symm] using hpos) o).symm
    cases he with
    | enter _ hpcd hpos => exact (hd hpcd).elim
    | collect _ hpcd hpos hdd =>
      refine ⟨_, .collect d (by simpa [hcd.symm] using hpcd) ?_ hdd, ?_⟩
      · simp [hcd.symm]
        omega
      · convert @Moves.enter _ _ cafe _ c ?_ ?_ using 1
        · simp [update_comm hcd, hsem _ hpos]
        · simpa [hcd] using hpc
        · simpa [hcd] using hc
    | leave _ hpcd hpos hdd =>
      refine ⟨_, .leave d (by simpa [hcd.symm] using hpcd) ?_ hdd, ?_⟩
      · simp [hcd.symm]
        omega
      · convert @Moves.enter _ _ cafe _ c ?_ ?_ using 1
        · simp [update_comm hcd, hsem _ hpos]
        · simpa [hcd] using hpc
        · simpa [hcd] using hc
  | collect _ hpc' => simp_all
  | leave _ hpc' => simp_all

theorem commute_customers {c d : Fin n} (hI : Inv cafe s P) (hcd : c ≠ d)
    (hf : s.Moves cafe (.customer c) t) (he : s.Moves cafe (.customer d) u) :
    ∃ v, t.Moves cafe (.customer d) v ∧ u.Moves cafe (.customer c) v := by
  obtain ⟨Q, hQ⟩ := hI.line
  by_cases hc : s.cpc c = .outside
  · by_cases hd : s.cpc d = .outside
    · have hpos : ∀ (l : Fin n) (v : CafeState b n), s.Moves cafe (.customer l) v →
          0 < s.customers l := by
        intro l v hm
        cases hm <;> assumption
      have h1 := head_of_enter hQ hc (hpos c t hf)
      have h2 := head_of_enter hQ hd (hpos d u he)
      exact (hcd (Option.some.inj (h1.symm.trans h2))).elim
    · exact commute_enter hcd hc hd hf he
  · by_cases hd : s.cpc d = .outside
    · obtain ⟨v, hv, hv'⟩ := commute_enter hcd.symm hd hc he hf
      exact ⟨v, hv', hv⟩
    · cases hf with
      | enter _ hpc _ => exact (hc hpc).elim
      | collect _ hpc hpos hcc =>
        cases he with
        | enter _ hpcd _ => exact (hd hpcd).elim
        | collect _ hpcd hposd hdd =>
          refine ⟨_, .collect d (by simpa [hcd.symm] using hpcd) (by simpa [hcd.symm] using hposd)
            hdd, ?_⟩
          convert @Moves.collect _ _ cafe _ c ?_ ?_ ?_ using 1
          · simp [update_comm hcd, semWait_comm s.customers c d, add_right_comm]
          · simpa [hcd] using hpc
          · simpa [hcd] using hpos
          · exact hcc
        | leave _ hpcd hposd hdd =>
          refine ⟨_, .leave d (by simpa [hcd.symm] using hpcd) (by simpa [hcd.symm] using hposd)
            hdd, ?_⟩
          convert @Moves.collect _ _ cafe _ c ?_ ?_ ?_ using 1
          · simp [update_comm hcd, semWait_comm s.customers c d, add_right_comm]
          · simpa [hcd] using hpc
          · simpa [hcd] using hpos
          · simpa [hcd] using hcc
      | leave _ hpc hpos hcc =>
        cases he with
        | enter _ hpcd _ => exact (hd hpcd).elim
        | collect _ hpcd hposd hdd =>
          refine ⟨_, .collect d (by simpa [hcd.symm] using hpcd) (by simpa [hcd.symm] using hposd)
            (by simpa [hcd.symm] using hdd), ?_⟩
          convert @Moves.leave _ _ cafe _ c ?_ ?_ ?_ using 1
          · simp [update_comm hcd, semWait_comm s.customers c d, add_right_comm]
          · simpa [hcd] using hpc
          · simpa [hcd] using hpos
          · exact hcc
        | leave _ hpcd hposd hdd =>
          refine ⟨_, .leave d (by simpa [hcd.symm] using hpcd) (by simpa [hcd.symm] using hposd)
            (by simpa [hcd.symm] using hdd), ?_⟩
          convert @Moves.leave _ _ cafe _ c ?_ ?_ ?_ using 1
          · simp [update_comm hcd, semWait_comm s.customers c d, add_right_comm]
          · simpa [hcd] using hpc
          · simpa [hcd] using hpos
          · simpa [hcd] using hcc

/-- A customer who leaves is one whose tolerance time ends now. -/
theorem expiring_of_leave {c : Fin n} (hI : Inv cafe s P) (hpc : s.cpc c = .waiting)
    (hc : 0 < s.customers c) (hd : s.complete c = false) : s.Expiring c :=
  ⟨(hI.customers.expired c hpc hc hd).2, by simp [hpc]⟩

/-- A barista commutes with a customer who enters. -/
theorem commute_barista_enter {i : Fin b} {c : Fin n} (hI : Inv cafe s P)
    (hpc : s.cpc c = .outside) (hf : s.Moves cafe (.barista i) t)
    (he : s.Moves cafe (.customer c) u) :
    ∃ v, t.Moves cafe (.customer c) v ∧ u.Moves cafe (.barista i) v := by
  obtain ⟨Q, hQ⟩ := hI.line
  cases he with
  | enter _ _ hc =>
    -- the line is not empty, so no barista has `machine_lock`
    have hlock : ¬0 < s.machineLock := by
      have hhead := head_of_enter hQ hpc hc
      have := hQ.lock
      rw [if_neg (by rintro rfl; cases hhead)] at this
      omega
    cases hf with
    | wake _ hpci hb =>
      exact ⟨_, .enter c hpc hc, .wake i hpci hb⟩
    | take _ m hpci hl hm => exact (hlock hl).elim
    | rest _ hpci hl hm => exact (hlock hl).elim
    | gone _ m hpci hb hcm => exact ⟨_, .enter c hpc hc, .gone i m hpci hb hcm⟩
    | start _ m hpci hb hcm => exact ⟨_, .enter c hpc hc, .start i m hpci hb hcm⟩
    | finish _ m hpci ho =>
      have hcm : c ≠ m := by
        rintro rfl
        exact hI.orders.taken c (hI.orders.held i c (by simp [hpci, BaristaPc.flag])) hpc
      have hsem : ∀ o, semPostNext (semWait (semPost s.customers m) c) o =
          semPost (semPostNext (semWait s.customers c) o) m := by
        intro o
        rw [← semPost_semWait _ hc m]
        cases o with
        | none => rfl
        | some d => exact semPost_comm _ m d
      refine ⟨_, .enter c hpc (by simpa [hcm] using hc), ?_⟩
      convert @Moves.finish _ _ cafe _ i m ?_ ?_ using 1
      · simp [hsem]
      · exact hpci
      · exact ho
  | collect _ hpc' => simp_all
  | leave _ hpc' => simp_all

/-- A barista commutes with a customer who collects. -/
theorem commute_barista_collect {i : Fin b} {c : Fin n} (hpc : s.cpc c = .waiting)
    (hd : s.complete c = true) (hf : s.Moves cafe (.barista i) t)
    (he : s.Moves cafe (.customer c) u) :
    ∃ v, t.Moves cafe (.customer c) v ∧ u.Moves cafe (.barista i) v := by
  cases he with
  | collect _ _ hc _ =>
    cases hf with
    | wake _ hpci hb => exact ⟨_, .collect c hpc hc hd, .wake i hpci hb⟩
    | take _ m hpci hl hm => exact ⟨_, .collect c hpc hc hd, .take i m hpci hl hm⟩
    | rest _ hpci hl hm => exact ⟨_, .collect c hpc hc hd, .rest i hpci hl hm⟩
    | gone _ m hpci hb hcm => exact ⟨_, .collect c hpc hc hd, .gone i m hpci hb hcm⟩
    | start _ m hpci hb hcm => exact ⟨_, .collect c hpc hc hd, .start i m hpci hb hcm⟩
    | finish _ m hpci ho =>
      refine ⟨_, .collect c hpc ?_ ?_, ?_⟩
      · simp only [semPost_apply]
        split_ifs <;> omega
      · by_cases hcm : c = m <;> simp [hcm, hd]
      · convert @Moves.finish _ _ cafe _ i m ?_ ?_ using 1
        · simp [semPost_semWait _ hc m]
        · exact hpci
        · exact ho
  | enter _ hpc' => simp_all
  | leave _ hpc' => simp_all

/-- A barista that does not look at a customer who leaves commutes with it. -/
theorem commute_barista_leave {i : Fin b} {c : Fin n} (hI : Inv cafe s P)
    (hcalm : s.Calm (.barista i)) (hpc : s.cpc c = .waiting) (hd : s.complete c = false)
    (hf : s.Moves cafe (.barista i) t) (he : s.Moves cafe (.customer c) u) :
    ∃ v, t.Moves cafe (.customer c) v ∧ u.Moves cafe (.barista i) v := by
  cases he with
  | leave _ _ hc _ =>
    have hne : ∀ k, s.Looks i k → k ≠ c := by
      rintro k hk rfl
      exact hcalm i k rfl hk (expiring_of_leave hI hpc hc hd)
    cases hf with
    | wake _ hpci hb => exact ⟨_, .leave c hpc hc hd, .wake i hpci hb⟩
    | take _ m hpci hl hm =>
      obtain ⟨hreads, hcm⟩ := nextOrder_eq_some_iff.1 hm
      have hmc := hne m (.inl ⟨hpci, hreads⟩)
      refine ⟨_, .leave c hpc hc hd, .take i m hpci hl ?_⟩
      refine nextOrder_eq_some_iff.2 ⟨⟨hreads.1, hreads.2.1, hreads.2.2.1, fun j hj hjm => ?_⟩, ?_⟩
      · by_cases hjc : j = c
        · exact .inl (by simp [hjc])
        · simpa [hjc] using hreads.2.2.2 j hj hjm
      · simpa [hmc] using hcm
    | rest _ hpci hl hm =>
      refine ⟨_, .leave c hpc hc hd, .rest i hpci hl ?_⟩
      refine nextOrder_eq_none_iff.2 fun k hk hkt => ?_
      by_cases hkc : k = c
      · exact .inl (by simp [hkc])
      · simpa [hkc] using nextOrder_eq_none_iff.1 hm k hk hkt
    | gone _ m hpci hb hcm =>
      refine ⟨_, .leave c hpc hc hd, .gone i m hpci hb ?_⟩
      by_cases hmc : m = c <;> simp [hmc, hcm]
    | start _ m hpci hb hcm =>
      have hmc := hne m (.inr (by simp [hpci, BaristaPc.flag]))
      exact ⟨_, .leave c hpc hc hd, .start i m hpci hb (by simpa [hmc] using hcm)⟩
    | finish _ m hpci ho =>
      have hmc := hne m (.inr (by simp [hpci, BaristaPc.flag]))
      refine ⟨_, .leave c hpc ?_ (by simpa [hmc.symm] using hd), ?_⟩
      · simpa [hmc.symm] using hc
      · convert @Moves.finish _ _ cafe _ i m ?_ ?_ using 1
        · simp [semPost_semWait _ hc m, hmc, update_comm hmc]
        · exact hpci
        · exact ho
  | enter _ hpc' => simp_all
  | collect _ hpc' => simp_all

theorem commute_barista_customer {i : Fin b} {c : Fin n} (hI : Inv cafe s P)
    (hcalm : s.Calm (.barista i)) (hf : s.Moves cafe (.barista i) t)
    (he : s.Moves cafe (.customer c) u) :
    ∃ v, t.Moves cafe (.customer c) v ∧ u.Moves cafe (.barista i) v := by
  have he' := he
  cases he' with
  | enter _ hpc _ => exact commute_barista_enter hI hpc hf he
  | collect _ hpc _ hd => exact commute_barista_collect hpc hd hf he
  | leave _ hpc _ hd => exact commute_barista_leave hI hcalm hpc hd hf he

/-- Calm moves of different threads commute. -/
theorem commute (hI : Inv cafe s P) (hfe : f ≠ e) (hfm : f ≠ .main) (hem : e ≠ .main)
    (hcf : s.Calm f) (hce : s.Calm e) (hf : s.Moves cafe f t) (he : s.Moves cafe e u) :
    ∃ v, t.Moves cafe e v ∧ u.Moves cafe f v := by
  cases f with
  | main => exact (hfm rfl).elim
  | barista i =>
    cases e with
    | main => exact (hem rfl).elim
    | barista j => exact commute_baristas hI (by rintro rfl; exact hfe rfl) hf he
    | customer c => exact commute_barista_customer hI hcf hf he
  | customer c =>
    cases e with
    | main => exact (hem rfl).elim
    | barista i =>
      obtain ⟨v, hv, hv'⟩ := commute_barista_customer hI hce he hf
      exact ⟨v, hv', hv⟩
    | customer d => exact commute_customers hI (by rintro rfl; exact hfe rfl) hf he

/-! ## What a move of another thread leaves alone -/

/-- A barista can move when its semaphore is positive. -/
theorem exists_barista_move {i : Fin b} : (∃ v, s.Moves cafe (.barista i) v) ↔
    (s.pc i = .idle → 0 < s.baristas i) ∧ (s.pc i = .lock → 0 < s.machineLock) ∧
    (∀ k, s.pc i = .order k → 0 < s.baristas i) ∧
    (∀ k, s.pc i = .preparing k → 0 < s.orderComp i) := by
  constructor
  · rintro ⟨v, hv⟩
    cases hv <;> simp_all
  · rintro ⟨h1, h2, h3, h4⟩
    cases hpc : s.pc i with
    | idle => exact ⟨_, .wake i hpc (h1 hpc)⟩
    | lock =>
      cases hk : s.nextOrder i with
      | none => exact ⟨_, .rest i hpc (h2 hpc) hk⟩
      | some k => exact ⟨_, .take i k hpc (h2 hpc) hk⟩
    | order k =>
      cases hc : s.complete k with
      | true => exact ⟨_, .gone i k hpc (h3 k hpc) hc⟩
      | false => exact ⟨_, .start i k hpc (h3 k hpc) hc⟩
    | preparing k => exact ⟨_, .finish i k hpc (h4 k hpc)⟩

/-- A customer can move when its semaphore is positive. -/
theorem exists_customer_move {c : Fin n} : (∃ v, s.Moves cafe (.customer c) v) ↔
    (s.cpc c = .outside ∨ s.cpc c = .waiting) ∧ 0 < s.customers c := by
  constructor
  · rintro ⟨v, hv⟩
    cases hv <;> simp_all
  · rintro ⟨hpc | hpc, hc⟩
    · exact ⟨_, .enter c hpc hc⟩
    · cases hd : s.complete c with
      | true => exact ⟨_, .collect c hpc hc hd⟩
      | false => exact ⟨_, .leave c hpc hc hd⟩

/-- A move of another thread leaves a barista where it is, and takes no post away. -/
theorem frame_barista {i : Fin b} (hf : s.Moves cafe f t) (hfm : f ≠ .main)
    (hfi : f ≠ .barista i) : t.pc i = s.pc i ∧ t.cst i = s.cst i ∧
      s.baristas i ≤ t.baristas i ∧ s.machineLock ≤ t.machineLock ∧
      t.orderComp i = s.orderComp i ∧ t.tmr = s.tmr := by
  cases hf with
  | second => exact (hfm rfl).elim
  | tick => exact (hfm rfl).elim
  | enter c hpc hc =>
    refine ⟨rfl, rfl, le_rfl, ?_, rfl, rfl⟩
    dsimp only
    split_ifs <;> omega
  | collect | leave => exact ⟨rfl, rfl, le_rfl, le_rfl, rfl, rfl⟩
  | wake j | take j | rest j | gone j | start j | finish j =>
    have hij : i ≠ j := by
      rintro rfl
      exact hfi rfl
    simp [hij]

/-- The same for a customer. -/
theorem frame_customer {c : Fin n} (hf : s.Moves cafe f t) (hfm : f ≠ .main)
    (hfc : f ≠ .customer c) : t.cpc c = s.cpc c ∧ s.customers c ≤ t.customers c := by
  cases hf with
  | second => exact (hfm rfl).elim
  | tick => exact (hfm rfl).elim
  | enter d | collect d | leave d =>
    have hcd : c ≠ d := by
      rintro rfl
      exact hfc rfl
    simp [hcd]
  | finish j k =>
    refine ⟨rfl, ?_⟩
    simp only [semPost_apply]
    split_ifs with hck
    · subst hck
      omega
    · exact le_rfl
  | wake | take | rest | gone | start => exact ⟨rfl, le_rfl⟩

/-- A thread that can move still can after a move of another one. -/
theorem persist (hfe : f ≠ e) (hfm : f ≠ .main) (hem : e ≠ .main) (hf : s.Moves cafe f t)
    (he : s.Moves cafe e u) : ∃ v, t.Moves cafe e v := by
  cases e with
  | main => exact (hem rfl).elim
  | barista i =>
    obtain ⟨hpc, -, hb, hl, ho, -⟩ := frame_barista hf hfm hfe
    obtain ⟨h1, h2, h3, h4⟩ := exists_barista_move.1 ⟨u, he⟩
    refine exists_barista_move.2 ⟨?_, ?_, ?_, ?_⟩ <;> rw [hpc]
    · exact fun h => (h1 h).trans_le hb
    · exact fun h => (h2 h).trans_le hl
    · exact fun k h => (h3 k h).trans_le hb
    · exact fun k h => (h4 k h).trans_eq ho.symm
  | customer c =>
    obtain ⟨hpc, hc⟩ := frame_customer hf hfm hfe
    obtain ⟨h1, h2⟩ := exists_customer_move.1 ⟨u, he⟩
    exact exists_customer_move.2 ⟨by rwa [hpc], h2.trans_le hc⟩

/-- Main moves only when no other thread can. -/
theorem not_moves_of_main (hI : Inv cafe s P) (hf : s.Moves cafe .main t) (hem : e ≠ .main)
    (he : s.Moves cafe e u) : False := by
  have hq : s.Quiet cafe := by
    cases hf with
    | second hm hl => exact hI.quiet (by simp [hm])
    | tick hm hq => exact hq
  have hmove := move_of_moves he
  cases e with
  | main => exact hem rfl
  | barista i =>
    rw [move, hq.1 i] at hmove
    cases hmove
  | customer c =>
    rw [move, hq.2 c] at hmove
    cases hmove

/-! ## Calm moves stay calm -/

/-- A customer whose tolerance time ends now still is one after a move, unless it was served
and collects. -/
theorem expiring_next {k : Fin n} (hI : Inv cafe s P) (hf : s.Moves cafe f t) (hfm : f ≠ .main)
    (hk : s.Expiring k) :
    t.Expiring k ∨ s.taken k = true ∧ ∀ i, (s.pc i).flag ≠ some k := by
  obtain ⟨htol, hpc⟩ := hk
  cases hf with
  | second => exact (hfm rfl).elim
  | tick => exact (hfm rfl).elim
  | enter c hpcc hc =>
    have hkc : k ≠ c := by
      rintro rfl
      rw [(hI.customers.outside k hpcc).2] at htol
      omega
    exact .inl ⟨by simpa [hkc] using htol, by simpa [hkc] using hpc⟩
  | collect c hpcc hc hd =>
    by_cases hkc : k = c
    · subst hkc
      exact .inr (hI.customers.served k (by simp [hpcc]) hd)
    · exact .inl ⟨htol, by simpa [hkc] using hpc⟩
  | leave c hpcc hc hd =>
    refine .inl ⟨htol, ?_⟩
    by_cases hkc : k = c
    · simp [hkc]
    · simpa [hkc] using hpc
  | _ => exact .inl ⟨htol, hpc⟩

/-- And it was one before the move, if it was in the cafe. -/
theorem expiring_prev {k : Fin n} (hf : s.Moves cafe f t) (hfm : f ≠ .main)
    (hout : s.cpc k ≠ .outside) (hk : t.Expiring k) : s.Expiring k := by
  obtain ⟨htol, hpc⟩ := hk
  cases hf with
  | second => exact (hfm rfl).elim
  | tick => exact (hfm rfl).elim
  | enter c hpcc hc =>
    have hkc : k ≠ c := by
      rintro rfl
      exact hout hpcc
    exact ⟨by simpa [hkc] using htol, by simpa [hkc] using hpc⟩
  | collect c hpcc hc hd =>
    have hkc : k ≠ c := by
      rintro rfl
      simp at hpc
    exact ⟨htol, by simpa [hkc] using hpc⟩
  | leave c hpcc hc hd =>
    refine ⟨htol, ?_⟩
    by_cases hkc : k = c
    · simp [hkc, hpcc]
    · simpa [hkc] using hpc
  | _ => exact ⟨htol, hpc⟩

/-- While a barista is about to look at the orders, the others take none, nobody enters, and
only the status of a taken order or of a customer whose tolerance time ends now changes. -/
theorem frame_orders {i : Fin b} (hI : Inv cafe s P) (hpc : s.pc i = .lock)
    (hl : 0 < s.machineLock) (hf : s.Moves cafe f t) (hfm : f ≠ .main) (hfi : f ≠ .barista i) :
    t.totalorders = s.totalorders ∧ t.taken = s.taken ∧
      (∀ k, s.complete k = true → t.complete k = true) ∧
      ∀ k, t.complete k = true → s.complete k = true ∨ s.taken k = true ∨ s.Expiring k := by
  obtain ⟨Q, hQ⟩ := hI.line
  cases hf with
  | second => exact (hfm rfl).elim
  | tick => exact (hfm rfl).elim
  | enter c hpcc hc =>
    have hhead := head_of_enter hQ hpcc hc
    have := hQ.lock
    rw [if_neg (by rintro rfl; cases hhead)] at this
    omega
  | leave c hpcc hc hd =>
    refine ⟨rfl, rfl, fun k hk => ?_, fun k hk => ?_⟩
    · by_cases hkc : k = c <;> simp [hkc, hk]
    · by_cases hkc : k = c
      · exact .inr (.inr (hkc ▸ expiring_of_leave hI hpcc hc hd))
      · exact .inl (by simpa [hkc] using hk)
  | finish j m hpcj ho =>
    refine ⟨rfl, rfl, fun k hk => ?_, fun k hk => ?_⟩
    · by_cases hkm : k = m <;> simp [hkm, hk]
    · by_cases hkm : k = m
      · exact .inr (.inl (hkm ▸ hI.orders.held j m (by simp [hpcj, BaristaPc.flag])))
      · exact .inl (by simpa [hkm] using hk)
  | take j m hpcj hlj hm =>
    have h1 := hI.chain.head_of_lock hpc
    have h2 := hI.chain.head_of_lock hpcj
    obtain rfl := Option.some.inj (h1.symm.trans h2)
    exact (hfi rfl).elim
  | collect | wake | rest | gone | start => exact ⟨rfl, rfl, fun k hk => hk, fun k hk => .inl hk⟩

/-- A move that is calm after another one was calm before it. -/
theorem calm_back (hI : Inv cafe s P) (hfe : f ≠ e) (hfm : f ≠ .main) (hf : s.Moves cafe f t)
    (he : s.Moves cafe e u) (hce : t.Calm e) : s.Calm e := by
  rintro i k rfl hlook hexp
  obtain ⟨hpci, hcst, -⟩ := frame_barista hf hfm hfe
  have hlook' : t.Looks i k := by
    rcases hlook with ⟨hpc, hcst', htot', htk', hmin⟩ | hflag
    · have hl := (exists_barista_move.1 ⟨u, he⟩).2.1 hpc
      obtain ⟨htot, htk, hgrow, -⟩ := frame_orders hI hpc hl hf hfm hfe
      refine .inl ⟨hpci.trans hpc, by rwa [hcst], by rwa [htot], by rwa [htk],
        fun j hj hjk => ?_⟩
      rw [htk]
      exact (hmin j (by rwa [hcst] at hj) hjk).imp_left (hgrow j)
    · exact .inr (by rwa [hpci])
  rcases expiring_next hI hf hfm hexp with hexp' | ⟨htk, hnh⟩
  · exact hce i k rfl hlook' hexp'
  · rcases hlook with ⟨-, -, -, htk', -⟩ | hflag
    · rw [htk] at htk'
      cases htk'
    · exact hnh i hflag

/-- A calm move is calm after another one. -/
theorem calm_next (hI : Inv cafe s P) (hfe : f ≠ e) (hem : e ≠ .main) (hcf : s.Calm f)
    (hf : s.Moves cafe f t) (he : s.Moves cafe e u) : u.Calm f := by
  obtain ⟨Q, hQ⟩ := hI.line
  rintro i k rfl hlook hexp
  obtain ⟨hpci, hcst, -⟩ := frame_barista he hem hfe.symm
  have hor : s.Looks i k ∧ s.cpc k ≠ .outside := by
    rcases hlook with ⟨hpc, hcst', htot', htk', hmin⟩ | hflag
    · rw [hpci] at hpc
      have hl := (exists_barista_move.1 ⟨t, hf⟩).2.1 hpc
      obtain ⟨htot, htk, -, hprev⟩ := frame_orders hI hpc hl he hem hfe.symm
      rw [hcst] at hcst' hmin
      rw [htot] at htot'
      rw [htk] at htk' hmin
      -- an order whose status has just changed is one the loop comes to
      have hset : ∀ m : ℕ, ∀ j : Fin n, (j : ℕ) = m → s.cst i ≤ j → j < k →
          s.complete j = true ∨ s.taken j = true := by
        intro m
        induction m using Nat.strong_induction_on with
        | _ m ih =>
          rintro j rfl hj hjk
          rcases hmin j hj hjk with hc | ht
          · rcases hprev j hc with hc | ht | hx
            · exact .inl hc
            · exact .inr ht
            · by_contra hns
              simp only [not_or, Bool.not_eq_true] at hns
              have hread : s.Reads i j := ⟨hj, (Fin.lt_def.1 hjk).trans htot', hns.2,
                fun l hl hlj => ih l (Fin.lt_def.1 hlj) l rfl hl (hlj.trans hjk)⟩
              exact hcf i j rfl (.inl ⟨hpc, hread⟩) hx
          · exact .inr ht
      refine ⟨.inl ⟨hpc, hcst', htot', htk', fun j hj hjk => hset j j rfl hj hjk⟩, fun hout => ?_⟩
      have := (hQ.ordered k).1 hout
      omega
    · rw [hpci] at hflag
      exact ⟨.inr hflag, hI.orders.taken k (hI.orders.held i k hflag)⟩
  exact hcf i k rfl hor.1 (expiring_prev he hem hor.2 hexp)

/-! ## Runs -/

/-- A calm move commutes with the moves of the other threads. -/
theorem confluent (cafe : Cafe b n) :
    Confluence.Confluent (Step cafe) (fun s e => s.Calm e.1) Prod.fst
      (fun s => ∃ P, Inv cafe s P) where
  inv := by
    rintro s e t ⟨P, hI⟩ hs
    exact ⟨_, hI.step (moves_of_move hs.1)⟩
  det := by
    rintro s ⟨th, a⟩ ⟨th', a'⟩ t u ⟨ht, ha⟩ ⟨hu, ha'⟩ hth
    obtain rfl : th = th' := hth
    obtain rfl : t = u := Option.some.inj (ht.symm.trans hu)
    obtain rfl : a = a' := ha.symm.trans ha'
    exact ⟨rfl, rfl⟩
  comm := by
    rintro s e f t u ⟨P, hI⟩ hft hcf heu hth
    have hf := moves_of_move hft.1
    have he := moves_of_move heu.1
    have hne : f.1 ≠ e.1 := Ne.symm hth
    have hfm : f.1 ≠ .main := by
      intro hfm
      exact not_moves_of_main hI (hfm ▸ hf) (fun hem => hne (hfm.trans hem.symm)) he
    have hem : e.1 ≠ .main := by
      intro hem
      exact not_moves_of_main hI (hem ▸ he) hfm hf
    obtain ⟨v, hv⟩ := persist hne hfm hem hf he
    refine ⟨(e.1, t.announce e.1), v, ⟨move_of_moves hv, rfl⟩, fun hct => ?_⟩
    have hce : s.Calm e.1 := calm_back hI hne hfm hf he hct
    obtain ⟨v', hv', hf'⟩ := commute hI hne hfm hem hcf hce hf he
    obtain rfl : v = v' := Option.some.inj ((move_of_moves hv).symm.trans (move_of_moves hv'))
    exact ⟨hce, (f.1, u.announce f.1), ⟨move_of_moves hf', rfl⟩, calm_next hI hne hem hcf hf he⟩

/-- When main is done, no thread moves any more. -/
theorem not_step_of_done {ev : CafeEvent b n} (hI : Inv cafe s P) (hd : s.main = .done) :
    ¬s.Step cafe ev t := by
  rintro ⟨hm, -⟩
  have hq := hI.quiet (by simp [hd])
  obtain ⟨th, a⟩ := ev
  cases th with
  | main => simp [move, mainMove, hd] at hm
  | barista i => simp [move, hq.1 i] at hm
  | customer c => simp [move, hq.2 c] at hm

/-- If no step of a run depends on the status of a customer whose tolerance time ends in that
second, then every other run from the same input serves the same customers, and prints the
same number of wasted coffees and the same total of waiting times. -/
theorem schedule_independent {es es' : List (CafeEvent b n)}
    (h : Run (Guarded (Step cafe) fun s e => s.Calm e.1) (boot b n) es s) (hd : s.main = .done)
    (h' : Run (Step cafe) (boot b n) es' t) (hd' : t.main = .done) :
    (∀ c, t.cpc c = .collected ↔ s.cpc c = .collected) ∧ t.wasted = s.wasted ∧
      t.waitTime = s.waitTime := by
  obtain ⟨P, hI⟩ := Inv.run h.of_guarded
  obtain ⟨P', hI'⟩ := Inv.run h'
  have heq : t = s := (confluent cafe).end_unique ⟨[], Inv.boot cafe⟩ h
    (fun _ _ => not_step_of_done hI hd) h' fun _ _ => not_step_of_done hI' hd'
  subst heq
  exact ⟨fun c => Iff.rfl, rfl, rfl⟩

/-- One customer, who is patient : whether the barista is woken before or after the customer
enters makes no difference. -/
theorem schedule_independent_tea : ∃ es es' s t,
    Run (Guarded (Step (oneTea 1 9)) fun s e => s.Calm e.1) (boot 1 1) es s ∧ s.main = .done ∧
    Run (Step (oneTea 1 9)) (boot 1 1) es' t ∧ t.main = .done ∧ es ≠ es' ∧
    s.cpc 0 = .collected ∧ t.cpc 0 = .collected ∧ t.wasted = s.wasted ∧
    t.waitTime = s.waitTime := by
  have h : ∃ r ∈ exec (oneTea 1 9) (fun s e => s.Calm e.1) (boot 1 1)
      [.main, .customer 0, .barista 0, .barista 0, .main, .main, .barista 0, .main,
      .main, .barista 0, .barista 0, .barista 0, .customer 0, .main],
      ∃ r' ∈ exec (oneTea 1 9) (fun _ _ => True) (boot 1 1)
      [.main, .barista 0, .customer 0, .barista 0, .main, .main, .barista 0, .main,
      .main, .barista 0, .barista 0, .barista 0, .customer 0, .main],
      r.2.main = .done ∧ r'.2.main = .done ∧ r.1 ≠ r'.1 ∧ r.2.cpc 0 = .collected := by decide
  obtain ⟨r, hr, r', hr', hd, hd', hne, hc⟩ := h
  obtain ⟨h1, h2, h3⟩ := schedule_independent (guarded_of_exec hr) hd (run_of_exec hr') hd'
  exact ⟨r.1, r'.1, r.2, r'.2, guarded_of_exec hr, hd, run_of_exec hr', hd', hne, hc,
    (h1 0).2 hc, h2, h3⟩

/-- The coffee is ready in the second in which the tolerance time ends : the customer gets it
if the barista runs first, and leaves without it otherwise. -/
theorem schedule_matters : ∃ es es' s t,
    Run (Step (oneTea 2 2)) (boot 1 1) es s ∧ s.main = .done ∧
    Run (Step (oneTea 2 2)) (boot 1 1) es' t ∧ t.main = .done ∧
    s.cpc 0 = .collected ∧ t.cpc 0 = .left ∧ s.wasted = 0 ∧ t.wasted = 1 ∧
    s.waitTime = 1 ∧ t.waitTime = 3 := by
  have h : ∃ r ∈ exec (oneTea 2 2) (fun _ _ => True) (boot 1 1)
      [.main, .customer 0, .barista 0, .barista 0, .main, .main, .barista 0, .main, .main, .main,
      .main, .barista 0, .barista 0, .barista 0, .customer 0, .main],
      ∃ r' ∈ exec (oneTea 2 2) (fun _ _ => True) (boot 1 1)
      [.main, .customer 0, .barista 0, .barista 0, .main, .main, .barista 0, .main, .main, .main,
      .main, .customer 0, .barista 0, .barista 0, .barista 0, .main],
      r.2.main = .done ∧ r'.2.main = .done ∧ r.2.cpc 0 = .collected ∧ r'.2.cpc 0 = .left ∧
      r.2.wasted = 0 ∧ r'.2.wasted = 1 ∧ r.2.waitTime = 1 ∧ r'.2.waitTime = 3 := by decide
  obtain ⟨r, hr, r', hr', hd, hd', h⟩ := h
  exact ⟨r.1, r'.1, r.2, r'.2, run_of_exec hr, hd, run_of_exec hr', hd', h⟩

end CafeState

end CowPbs
