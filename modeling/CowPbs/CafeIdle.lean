import Mathlib
import CowPbs.CafeTiming

/-!
# Idle baristas and waiting orders

Main wakes the free baristas of a second through a chain that its rescan may cut short. It
does not if only the last barista that is ready was just given an order. A barista that is
woken with an order uses up the wake-up of its second : if it drops the order, or completes
it in the same second, it is idle and does not look for another one. In every run without
these steps (`Attentive`) no barista is idle at the end of a second while an order waits, and
with a barista for every customer each order is taken in the second of the arrival
(`no_idle_barista`).
-/

open Function Rescan Transition

namespace CowPbs

namespace CafeState

variable {b n : ℕ} {cafe : Cafe b n} {s t : CafeState b n} {es : List (CafeEvent b n)}
  {e : CafeEvent b n} {P : List (Fin b)}

/-- When main chains the baristas, nobody is ready after one that was just given an order;
and a barista that is woken with an order prepares it, beyond this second. -/
def Attentive (s : CafeState b n) (e : CafeEvent b n) : Prop :=
  (e.1 = .main → s.main = .locking → LastFlagged s.free s.special (List.finRange b)) ∧
  ∀ i k, e.1 = .barista i → s.pc i = .order k → s.complete k = false ∧ s.tmr < s.finish i

instance (s : CafeState b n) (e : CafeEvent b n) : Decidable (Attentive s e) :=
  inferInstanceAs (Decidable (_ ∧ _))

theorem Attentive.inTime (h : Attentive s e) : InTime s e := by
  refine ⟨fun he hm i hi j hj hfi hfj hij => ?_, fun i k he hpc _ => (h.2 i k he hpc).2⟩
  have := (h.1 he hm i hi hfi j hj hij).2
  rw [hfj.2] at this
  cases this

/-- In the course of a second, a barista without an order will be woken or has looked at all
the orders, and one whose coffee is ready now will be woken. -/
structure Busy (s : CafeState b n) (P : List (Fin b)) : Prop where
  idle : s.main = .sleeping → ∀ i, (s.pc i).flag = none →
    i ∈ P ∨ 0 < s.machineLock ∧ s.totalorders ≤ s.cst i
  ready : s.main = .sleeping → ∀ i k, s.pc i = .preparing k → s.finish i ≤ s.tmr → i ∈ P
  exact : ∀ i k, s.pc i = .preparing k → 0 < s.orderComp i → s.finish i = s.tmr

namespace Busy

variable {i : Fin b} {k : Fin n}

theorem mem_pending_of_ne {j : Fin b} (hj : P.head? = some j) (hij : i ≠ j) (hi : i ∈ P) :
    i ∈ P.tail := by
  obtain ⟨P', rfl⟩ := List.head?_eq_some_iff.1 hj
  simpa [hij] using hi

theorem mem_chained (hl : LastFlagged s.free s.special (List.finRange b))
    (hi : s.finish i ≤ s.tmr) : i ∈ s.chained := by
  rw [chained, walk_eq_filter (List.pairwise_lt_finRange b) hl]
  simp [free, hi]

theorem idle_step (h : Busy s P) (hI : Inv cafe s P) (hT : Timed cafe es s P)
    (hg : Attentive s e) (hs : s.Moves cafe e.1 t) (hm : t.main = .sleeping)
    (hi : (t.pc i).flag = none) :
    i ∈ s.pending P e.1 ∨ 0 < t.machineLock ∧ t.totalorders ≤ t.cst i := by
  have hold := h.idle
  obtain ⟨Q, hQ⟩ := hI.line
  obtain ⟨th, note⟩ := e
  simp only at hs
  cases hs with
  | second hm' hl =>
    have hpend : s.pending P .main = s.chained := by simp [pending, hm']
    refine .inl ?_
    rw [hpend]
    exact mem_chained (hg.1 rfl hm') (hT.idle i hi).2.1
  | tick hm' hq =>
    have hm : (if s.customerRemaining then MainPc.locking else .done) = .sleeping := hm
    split_ifs at hm
  | wake l hpc hb =>
    simp only [pending, hpc]
    by_cases hil : i = l
    · subst hil
      exact .inl (List.mem_of_mem_head? (hI.chain.head_of_baristas hb))
    · exact hold hm i (by simpa [hil] using hi)
  | take l m hpc hl hk =>
    simp only [pending, hpc]
    have hil : i ≠ l := by
      rintro rfl
      simp [BaristaPc.flag] at hi
    rcases hold hm i (by simpa [hil] using hi) with hiP | hcst
    · exact .inl (mem_pending_of_ne (hI.chain.head_of_lock hpc) hil hiP)
    · exact .inr (by simpa [hil] using hcst)
  | rest l hpc hl hk =>
    simp only [pending, hpc]
    by_cases hil : i = l
    · subst hil
      exact .inr ⟨hl, by simp⟩
    · rcases hold hm i (by simpa [hil] using hi) with hiP | hcst
      · exact .inl (mem_pending_of_ne (hI.chain.head_of_lock hpc) hil hiP)
      · exact .inr (by simpa [hil] using hcst)
  | gone l m hpc hb hc =>
    rw [(hg.2 l m rfl hpc).1] at hc
    cases hc
  | start l m hpc hb hc =>
    simp only [pending, hpc]
    have hil : i ≠ l := by
      rintro rfl
      simp [BaristaPc.flag] at hi
    rcases hold hm i (by simpa [hil] using hi) with hiP | hcst
    · exact .inl (mem_pending_of_ne (hI.chain.head_of_baristas hb) hil hiP)
    · exact .inr hcst
  | finish l m hpc ho =>
    simp only [pending, hpc]
    by_cases hil : i = l
    · subst hil
      exact .inl (h.ready hm i m hpc (h.exact i m hpc ho).le)
    · exact hold hm i (by simpa [hil] using hi)
  | enter c hpc hc =>
    rcases hold hm i hi with hiP | ⟨hl, -⟩
    · exact .inl hiP
    · -- somebody is in the line, so `machine_lock` is not free
      have hpost := hQ.posted c hpc
      cases Q with
      | nil => simp at hpost; omega
      | cons d Q =>
        have := hQ.lock
        simp at this
        omega
  | collect c hpc hc hd => exact hold hm i hi
  | leave c hpc hc hd => exact hold hm i hi

theorem ready_step (h : Busy s P) (hI : Inv cafe s P) (hg : Attentive s e)
    (hs : s.Moves cafe e.1 t) (hm : t.main = .sleeping) (hi : t.pc i = .preparing k)
    (hf : t.finish i ≤ t.tmr) : i ∈ s.pending P e.1 := by
  have hold := h.ready
  obtain ⟨th, note⟩ := e
  simp only at hs
  cases hs with
  | second hm' hl =>
    have hpend : s.pending P .main = s.chained := by simp [pending, hm']
    rw [hpend]
    exact mem_chained (hg.1 rfl hm') hf
  | tick hm' hq =>
    have hm : (if s.customerRemaining then MainPc.locking else .done) = .sleeping := hm
    split_ifs at hm
  | wake l hpc hb =>
    simp only [pending, hpc]
    have hil : i ≠ l := by
      rintro rfl
      simp at hi
    exact hold hm i k (by simpa [hil] using hi) hf
  | take l m hpc hl hk =>
    simp only [pending, hpc]
    have hil : i ≠ l := by
      rintro rfl
      simp at hi
    exact mem_pending_of_ne (hI.chain.head_of_lock hpc) hil
      (hold hm i k (by simpa [hil] using hi) (by simpa [hil] using hf))
  | rest l hpc hl hk =>
    simp only [pending, hpc]
    have hil : i ≠ l := by
      rintro rfl
      simp at hi
    exact mem_pending_of_ne (hI.chain.head_of_lock hpc) hil
      (hold hm i k (by simpa [hil] using hi) hf)
  | gone l m hpc hb hc =>
    rw [(hg.2 l m rfl hpc).1] at hc
    cases hc
  | start l m hpc hb hc =>
    simp only [pending, hpc]
    by_cases hil : i = l
    · subst hil
      exact absurd (hg.2 i m rfl hpc).2 (not_lt.2 hf)
    · exact mem_pending_of_ne (hI.chain.head_of_baristas hb) hil
        (hold hm i k (by simpa [hil] using hi) hf)
  | finish l m hpc ho =>
    simp only [pending, hpc]
    have hil : i ≠ l := by
      rintro rfl
      simp at hi
    exact hold hm i k (by simpa [hil] using hi) hf
  | enter c hpc hc => exact hold hm i k hi hf
  | collect c hpc hc hd => exact hold hm i k hi hf
  | leave c hpc hc hd => exact hold hm i k hi hf

theorem exact_step (h : Busy s P) (hI : Inv cafe s P) (hT : Timed cafe es s P)
    (hg : Attentive s e) (hs : s.Moves cafe e.1 t) (hi : t.pc i = .preparing k)
    (ho : 0 < t.orderComp i) : t.finish i = t.tmr := by
  have hold := h.exact i k
  obtain ⟨th, note⟩ := e
  simp only at hs
  cases hs with
  | tick hm hq =>
    have := (hq.barista i).2.2 k hi
    have ho : 0 < s.orderComp i := ho
    omega
  | start l m hpc hb hc =>
    by_cases hil : i = l
    · subst hil
      have hlt := (hg.2 i m rfl hpc).2
      obtain ⟨-, ⟨hz, -⟩ | ⟨-, -, hle⟩⟩ := hT.order_woken hI hpc hb
      · have ho : 0 < s.orderComp i := ho
        omega
      · omega
    · exact hold (by simpa [hil] using hi) ho
  | _ => grind [update_apply]

theorem step (h : Busy s P) (hI : Inv cafe s P) (hT : Timed cafe es s P) (hg : Attentive s e)
    (hs : s.Moves cafe e.1 t) : Busy t (s.pending P e.1) where
  idle hm _ := h.idle_step hI hT hg hs hm
  ready hm _ _ := h.ready_step hI hg hs hm
  exact _ _ := h.exact_step hI hT hg hs

theorem boot : Busy (boot b n) [] := by
  have hm : (CafeState.boot b n).main ≠ .sleeping := by
    simp only [CafeState.boot, loop]
    split_ifs <;> simp
  refine ⟨fun h => (hm h).elim, fun h => (hm h).elim, fun i k hi => ?_⟩
  simp [CafeState.boot, loop] at hi

/-- At the end of a second a barista without an order has looked at all of them. -/
theorem taken_of_idle (h : Busy s P) (hI : Inv cafe s P) (hm : s.main = .sleeping)
    (hq : s.Quiet cafe) (hi : (s.pc i).flag = none) (hk : s.cpc k ≠ .outside)
    (hc : s.complete k = false) : s.taken k = true := by
  obtain ⟨Q, hQ⟩ := hI.line
  rcases h.idle hm i hi with hiP | ⟨-, hcst⟩
  · rw [hI.chain.eq_nil_of_quiet hQ hq] at hiP
    cases hiP
  · have hlt : (k : ℕ) < s.cst i := by
      have := (hQ.ordered k).not.1 hk
      omega
    rcases hI.orders.scanned i k hlt with hc' | ht
    · rw [hc] at hc'
      cases hc'
    · exact ht

/-- With a barista for every customer, an order is taken by the end of the second in which
the customer arrives. -/
theorem taken_of_arrival (h : Busy s P) (hI : Inv cafe s P) (hnb : n ≤ b)
    (hm : s.main = .sleeping) (hq : s.Quiet cafe) (hk : cafe.arrival k = s.tmr) :
    s.taken k = true := by
  obtain ⟨Q, hQ⟩ := hI.line
  have hout : s.cpc k ≠ .outside := by
    intro hout
    have := (hQ.mem k).2 ⟨hm, hout, hk⟩
    rw [hQ.eq_nil_of_quiet hq] at this
    cases this
  have hleft : s.cpc k ≠ .left := by
    intro hleft
    have h1 := hI.customers.left k hleft
    have h2 := hI.customers.tol k (by simp [hleft])
    omega
  by_cases hc : s.complete k = true
  · exact (hI.customers.served k hleft hc).1
  · by_contra ht
    -- every barista has an order, no two of them the same, and none has this one
    have hflag : ∀ i, ∃ j, (s.pc i).flag = some j := by
      intro i
      rw [← Option.ne_none_iff_exists']
      exact fun hi => ht (h.taken_of_idle hI hm hq hi hout (by simpa using hc))
    choose f hf using hflag
    have hinj : Injective f := fun i j hij =>
      hI.orders.unique i j (f j) (hij ▸ hf i) (hf j)
    have hne : ∀ i, f i ≠ k := by
      rintro i rfl
      exact ht (hI.orders.held i _ (hf i))
    have hcard : (Finset.univ.image f).card = b := by
      rw [Finset.card_image_of_injective _ hinj, Finset.card_fin]
    have hlt : (Finset.univ.image f).card < (Finset.univ : Finset (Fin n)).card :=
      Finset.card_lt_card ⟨Finset.subset_univ _, fun hsub => by
        obtain ⟨i, -, hi⟩ := Finset.mem_image.1 (hsub (Finset.mem_univ k))
        exact hne i hi⟩
    rw [hcard, Finset.card_fin] at hlt
    omega

end Busy

/-- With a barista for every customer : the orders are taken when the customers arrive, so
who is served waits one second. -/
structure Prompt (cafe : Cafe b n) (es : List (CafeEvent b n)) (s : CafeState b n) : Prop where
  taken : ∀ k, cafe.arrival k < s.tmr → s.taken k = true
  finish : ∀ i k, (s.pc i).flag = some k → s.finish i = cafe.arrival k + cafe.ftime k + 1
  served : ∀ k, s.cpc k = .waiting → s.complete k = true →
    s.tmr = cafe.arrival k + cafe.ftime k + 1
  collected : ∀ k u, .collects k u ∈ notes es → u = cafe.arrival k + cafe.ftime k + 1

namespace Prompt

variable {i : Fin b} {k : Fin n}

theorem taken_step (h : Prompt cafe es s) (hB : Busy s P) (hI : Inv cafe s P) (hnb : n ≤ b)
    (hs : s.Moves cafe e.1 t) (hk : cafe.arrival k < t.tmr) : t.taken k = true := by
  have hold := h.taken k
  obtain ⟨th, note⟩ := e
  simp only at hs
  cases hs with
  | tick hm hq =>
    rcases (Nat.le_of_lt_succ hk).eq_or_lt with heq | hlt
    · exact hB.taken_of_arrival hI hnb hm hq heq
    · exact hold hlt
  | take l m hpc hl hm =>
    by_cases hkm : k = m
    · simp [hkm]
    · simpa [hkm] using hold hk
  | _ => exact hold hk

theorem finish_step (h : Prompt cafe es s) (hI : Inv cafe s P) (hs : s.Moves cafe e.1 t)
    (hi : (t.pc i).flag = some k) : t.finish i = cafe.arrival k + cafe.ftime k + 1 := by
  have hold := h.finish i k
  obtain ⟨Q, hQ⟩ := hI.line
  obtain ⟨th, note⟩ := e
  simp only at hs
  cases hs with
  | take l m hpc hl hm =>
    by_cases hil : i = l
    · subst hil
      obtain rfl : m = k := by simpa [BaristaPc.flag] using hi
      obtain ⟨-, hlt, -, hnt⟩ := nextOrder_eq_some hm
      have hout : s.cpc m ≠ .outside := fun hout => absurd ((hQ.ordered m).1 hout) (not_le.2 hlt)
      have hle := (hQ.here m hout).1
      have hge : ¬cafe.arrival m < s.tmr := by
        intro hlt
        rw [h.taken m hlt] at hnt
        cases hnt
      have heq : cafe.arrival m = s.tmr := by omega
      simp [heq]
    · simpa [hil] using hold (by simpa [hil] using hi)
  | _ => grind [update_apply, BaristaPc.flag]

theorem served_step (h : Prompt cafe es s) (hB : Busy s P) (hI : Inv cafe s P)
    (hs : s.Moves cafe e.1 t) (hk : t.cpc k = .waiting) (hc : t.complete k = true) :
    t.tmr = cafe.arrival k + cafe.ftime k + 1 := by
  have hold := h.served k
  obtain ⟨th, note⟩ := e
  simp only at hs
  cases hs with
  | tick hm hq =>
    have hpos := hI.customers.woken k hk hc
    have hz := hq.customer (.inr hk)
    omega
  | enter c hpc hpos =>
    have := (hI.customers.outside c hpc).1
    grind [update_apply]
  | finish i m hpc ho =>
    by_cases hkm : k = m
    · subst hkm
      have h1 := h.finish i k (by simp [hpc, BaristaPc.flag])
      have h2 := hB.exact i k hpc ho
      show s.tmr = _
      omega
    · exact hold hk (by simpa [hkm] using hc)
  | _ => grind [update_apply]

theorem collected_step {u : ℕ} (h : Prompt cafe es s) (ha : s.announce e.1 = e.2)
    (hu : .collects k u ∈ notes (es ++ [e])) : u = cafe.arrival k + cafe.ftime k + 1 := by
  rcases mem_notes_append.1 hu with hu | he
  · exact h.collected k u hu
  · have hann := ha.trans he
    have hwait : s.cpc k = .waiting ∧ s.complete k = true ∧ u = s.tmr := by
      cases hth : e.1 with
      | main => simp [hth, announce] at hann
      | barista i => cases hpc : s.pc i <;> grind [announce]
      | customer c => cases hpc : s.cpc c <;> grind [announce]
    rw [hwait.2.2]
    exact h.served k hwait.1 hwait.2.1

theorem step (h : Prompt cafe es s) (hB : Busy s P) (hI : Inv cafe s P) (hnb : n ≤ b)
    (hs : s.Moves cafe e.1 t) (ha : s.announce e.1 = e.2) : Prompt cafe (es ++ [e]) t where
  taken _ := h.taken_step hB hI hnb hs
  finish _ _ := h.finish_step hI hs
  served _ := h.served_step hB hI hs
  collected _ _ := h.collected_step ha

theorem boot : Prompt cafe [] (boot b n) := by
  constructor <;> simp [notes, CafeState.boot, loop, BaristaPc.flag]

end Prompt

/-- The invariants along a run of attentive steps. -/
theorem Busy.run (h : Run (Guarded (Step cafe) Attentive) (CafeState.boot b n) es s) :
    ∃ P, Inv cafe s P ∧ Timed cafe es s P ∧ Busy s P ∧ (n ≤ b → Prompt cafe es s) := by
  induction h with
  | nil => exact ⟨[], Inv.boot cafe, Timed.boot, Busy.boot, fun _ => Prompt.boot⟩
  | snoc _ hs ih =>
    obtain ⟨P, hI, hT, hB, hP⟩ := ih
    have hm := moves_of_move hs.1.1
    exact ⟨_, hI.step hm, hT.step hI hs.2.inTime hm hs.1.2, hB.step hI hT hs.2 hm,
      fun hnb => (hP hnb).step hB hI hnb hm hs.1.2⟩

/-- In every run whose steps are attentive, at the end of each second : no barista is without
an order while the order of a customer who has arrived, and has neither left nor been served,
is not taken. With at least as many baristas as customers, every order is taken in the second
in which its customer arrives, and a customer who collects the coffee does so one second
after its preparation time. -/
theorem no_idle_barista (h : Run (Guarded (Step cafe) Attentive) (boot b n) es s) :
    (s.main = .sleeping → s.Quiet cafe →
      (¬∃ i k, (s.pc i).flag = none ∧ s.cpc k = .waiting ∧ s.complete k = false ∧
        s.taken k = false) ∧
      (n ≤ b → ∀ k, cafe.arrival k = s.tmr → s.taken k = true)) ∧
    (n ≤ b → ∀ k u, .collects k u ∈ notes es → u - cafe.arrival k - cafe.ftime k = 1) := by
  obtain ⟨P, hI, -, hB, hP⟩ := Busy.run h
  refine ⟨fun hm hq => ⟨?_, fun hnb k hk => hB.taken_of_arrival hI hnb hm hq hk⟩,
    fun hnb k u hu => ?_⟩
  · rintro ⟨i, k, hi, hk, hc, ht⟩
    rw [hB.taken_of_idle hI hm hq hi (by simp [hk]) hc] at ht
    cases ht
  · rw [(hP hnb).collected k u hu]
    omega

/-- One barista and one customer, who is served after one second of waiting. -/
theorem no_idle_barista_tea : ∃ es s,
    Run (Guarded (Step (oneTea 3 9)) Attentive) (boot 1 1) es s ∧ s.main = .sleeping ∧
    s.Quiet (oneTea 3 9) ∧ .collects 0 4 ∈ notes es ∧
    4 - (oneTea 3 9).arrival 0 - (oneTea 3 9).ftime 0 = 1 ∧
    ¬∃ i k, (s.pc i).flag = none ∧ s.cpc k = .waiting ∧ s.complete k = false ∧
      s.taken k = false := by
  have h : ∃ r ∈ exec (oneTea 3 9) Attentive (boot 1 1)
      [.main, .customer 0, .barista 0, .barista 0, .main,
      .main, .barista 0, .main, .main, .main, .main, .main,
      .main, .barista 0, .barista 0, .barista 0, .customer 0],
      .collects 0 4 ∈ notes r.1 ∧ r.2.main = .sleeping ∧ r.2.Quiet (oneTea 3 9) := by decide
  obtain ⟨r, hr, hc, hm, hq⟩ := h
  have hno := no_idle_barista (guarded_of_exec hr)
  exact ⟨r.1, r.2, guarded_of_exec hr, hm, hq, hc, hno.2 le_rfl 0 4 hc, (hno.1 hm hq).1⟩

/-- Two baristas and two customers, who arrive one second apart : in the second second main
wakes only the barista that has the first order, and the other one is idle while the second
order waits. -/
theorem idle_barista_passed_over : ∃ es s, Run (Step (twoTeas 2 3 1)) (boot 2 2) es s ∧
    s.main = .sleeping ∧ s.Quiet (twoTeas 2 3 1) ∧ s.tmr = 1 ∧ (s.pc 1).flag = none ∧
    s.cpc 1 = .waiting ∧ s.complete 1 = false ∧ s.taken 1 = false := by
  have h : ∃ r ∈ exec (twoTeas 2 3 1) (fun _ _ => True) (boot 2 2)
      [.main, .customer 0, .barista 0, .barista 0, .barista 1, .barista 1, .main,
      .main, .customer 1, .barista 0],
      r.2.main = .sleeping ∧ r.2.Quiet (twoTeas 2 3 1) ∧ r.2.tmr = 1 ∧ (r.2.pc 1).flag = none ∧
      r.2.cpc 1 = .waiting ∧ r.2.complete 1 = false ∧ r.2.taken 1 = false := by decide
  obtain ⟨r, hr, h⟩ := h
  exact ⟨r.1, r.2, run_of_exec hr, h⟩

end CafeState

end CowPbs
