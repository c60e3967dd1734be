import Mathlib
import CowPbs.CafeWasted

/-!
# The preparation time of a coffee

A barista that takes an order in second `t` has its coffee ready in second
`t + ftime + 1`, and should be woken in second `t + 1` to start it. Main's rescan can pass
over it, and it then starts late. And a barista that drops an order whose completion was
already posted completes its next coffee at once. In every run without these two steps
(`InTime`) each coffee takes its preparation time (`prep_time_exact`).
-/

open Function Rescan Transition

namespace CowPbs

namespace CafeState

variable {b n : ℕ} {cafe : Cafe b n} {s t : CafeState b n} {es : List (CafeEvent b n)}
  {e : CafeEvent b n} {P : List (Fin b)}

/-- The announcements of a run. -/
def notes (es : List (CafeEvent b n)) : List (CafeNote b n) :=
  es.filterMap Prod.snd

/-- When main chains the baristas, between any two that were just given an order there is a
free one; and a barista that finds its customer gone does so before the second in which its
coffee would be ready. -/
def InTime (s : CafeState b n) (e : CafeEvent b n) : Prop :=
  (e.1 = .main → s.main = .locking → Spaced s.free s.special (List.finRange b)) ∧
  ∀ i k, e.1 = .barista i → s.pc i = .order k → s.complete k = true → s.tmr < s.finish i

instance (s : CafeState b n) (e : CafeEvent b n) : Decidable (InTime s e) :=
  inferInstanceAs (Decidable (_ ∧ _))

/-- A barista with the order `k`, before it is woken : the order is new, or the barista will
be woken in this second, or the coffee takes no time and is due. -/
def OrderTimed (cafe : Cafe b n) (s : CafeState b n) (P : List (Fin b)) (i : Fin b)
    (k : Fin n) : Prop :=
  (s.special i = true ∧ s.orderComp i = 0 ∧
    s.finish i = s.tmr + cafe.ftime k + if s.main = .sleeping then 1 else 0) ∨
  (i ∈ P ∧ s.orderComp i = 0 ∧ 0 < cafe.ftime k ∧ s.finish i = s.tmr + cafe.ftime k) ∨
  (s.special i = false ∧ cafe.ftime k = 0 ∧ s.orderComp i = 1 ∧ s.finish i ≤ s.tmr ∧
    (s.main ≠ .sleeping → s.finish i < s.tmr))

/-- A barista that started the coffee `k` in second `t`. -/
def PrepTimed (cafe : Cafe b n) (s : CafeState b n) (i : Fin b) (k : Fin n) (t : ℕ) : Prop :=
  (s.orderComp i = 0 ∧ s.finish i = t + cafe.ftime k ∧
    (s.tmr < t + cafe.ftime k ∨ s.main ≠ .sleeping ∧ s.tmr = t + cafe.ftime k)) ∨
  (s.orderComp i = 1 ∧ s.main = .sleeping ∧ s.finish i ≤ s.tmr ∧ s.tmr = t + cafe.ftime k)

/-- The baristas are in time, and what they announced. -/
structure Timed (cafe : Cafe b n) (es : List (CafeEvent b n)) (s : CafeState b n)
    (P : List (Fin b)) : Prop where
  idle : ∀ i, (s.pc i).flag = none → s.orderComp i = 0 ∧ s.finish i ≤ s.tmr ∧
    (s.main ≠ .sleeping → s.finish i < s.tmr)
  order : ∀ i k, s.pc i = .order k → OrderTimed cafe s P i k
  preparing : ∀ i k, s.pc i = .preparing k →
    ∃ t, .starts i k t ∈ notes es ∧ PrepTimed cafe s i k t
  fresh : ∀ k, s.taken k = false ∨ (∃ i, s.pc i = .order k) → ∀ j t, .starts j k t ∉ notes es
  unique : ∀ i j k t t', .starts i k t ∈ notes es → .starts j k t' ∈ notes es → i = j ∧ t = t'
  started : ∀ i k t, .starts i k t ∈ notes es →
    s.pc i = .preparing k ∨ .completes i k (t + cafe.ftime k) ∈ notes es
  completed : ∀ i k t, .completes i k t ∈ notes es →
    ∃ t', .starts i k t' ∈ notes es ∧ t = t' + cafe.ftime k

theorem mem_notes_append {x : CafeNote b n} :
    x ∈ notes (es ++ [e]) ↔ x ∈ notes es ∨ e.2 = some x := by
  obtain ⟨th, note⟩ := e
  cases note <;> simp [notes, eq_comm]

/-- Who announces a start. -/
theorem announce_starts {i : Fin b} {k : Fin n} {t : ℕ} {th : CafeThread b n}
    (h : s.announce th = some (.starts i k t)) :
    th = .barista i ∧ s.pc i = .order k ∧ s.complete k = false ∧ t = s.tmr := by
  cases th with
  | main => cases h
  | barista j => cases hpc : s.pc j <;> grind [announce]
  | customer c => cases hpc : s.cpc c <;> grind [announce]

/-- Who announces a completion. -/
theorem announce_completes {i : Fin b} {k : Fin n} {t : ℕ} {th : CafeThread b n}
    (h : s.announce th = some (.completes i k t)) :
    th = .barista i ∧ s.pc i = .preparing k ∧ t = s.tmr := by
  cases th with
  | main => cases h
  | barista j => cases hpc : s.pc j <;> grind [announce]
  | customer c => cases hpc : s.cpc c <;> grind [announce]

namespace Timed

variable {i : Fin b} {k : Fin n}

/-- A barista that is woken with an order : its coffee is started in time, or takes no time
and is due. -/
theorem order_woken (h : Timed cafe es s P) (hI : Inv cafe s P) (hpc : s.pc i = .order k)
    (hb : 0 < s.baristas i) : s.main = .sleeping ∧
      (s.orderComp i = 0 ∧ 0 < cafe.ftime k ∧ s.finish i = s.tmr + cafe.ftime k ∨
        cafe.ftime k = 0 ∧ s.orderComp i = 1 ∧ s.finish i ≤ s.tmr) := by
  have hmem : i ∈ P := List.mem_of_mem_head? (hI.chain.head_of_baristas hb)
  have hm : s.main = .sleeping := by
    by_contra hm
    rw [hI.chain.second hm] at hmem
    cases hmem
  refine ⟨hm, ?_⟩
  rcases h.order i k hpc with ⟨hsp, -⟩ | ⟨-, hrest⟩ | ⟨-, hz, hc, hf, -⟩
  · rw [hI.chain.cleared i hmem] at hsp
    cases hsp
  · exact .inl hrest
  · exact .inr ⟨hz, hc, hf⟩

theorem idle_step (h : Timed cafe es s P) (hI : Inv cafe s P) (hg : InTime s e)
    (hs : s.Moves cafe e.1 t) (hi : (t.pc i).flag = none) : t.orderComp i = 0 ∧
      t.finish i ≤ t.tmr ∧ (t.main ≠ .sleeping → t.finish i < t.tmr) := by
  have hold := h.idle i
  obtain ⟨th, note⟩ := e
  simp only at hs
  cases hs with
  | gone l m hpc hb hc =>
    obtain ⟨hm, hor⟩ := h.order_woken hI hpc hb
    have hlt := hg.2 l m rfl hpc hc
    grind [update_apply, BaristaPc.flag]
  | finish l m hpc ho =>
    obtain ⟨t, -, hp⟩ := h.preparing l m hpc
    grind [update_apply, BaristaPc.flag, PrepTimed]
  | second hm hl =>
    grind
  | tick hm hq =>
    grind
  | _ => grind [update_apply, BaristaPc.flag]

/-- The order of a barista who does not move. -/
theorem orderTimed_of_eq {P' : List (Fin b)} (h : OrderTimed cafe s P i k)
    (hsp : t.special i = s.special i) (hc : t.orderComp i = s.orderComp i)
    (hf : t.finish i = s.finish i) (htmr : t.tmr = s.tmr) (hm : t.main = s.main)
    (hP : i ∈ P → i ∈ P') : OrderTimed cafe t P' i k := by
  unfold OrderTimed at h ⊢
  rw [hsp, hc, hf, htmr, hm]
  exact h.imp_right (Or.imp_left (And.imp_left hP))

theorem order_step (h : Timed cafe es s P) (hI : Inv cafe s P) (hg : InTime s e)
    (hs : s.Moves cafe e.1 t) (hi : t.pc i = .order k) :
    OrderTimed cafe t (s.pending P e.1) i k := by
  have hold := h.order i k
  obtain ⟨th, note⟩ := e
  simp only at hs
  -- the head of the chain leaves it, the others stay
  have htail : ∀ j : Fin b, i ≠ j → P.head? = some j → i ∈ P → i ∈ P.tail := by
    intro j hij hj hiP
    obtain ⟨P', rfl⟩ := List.head?_eq_some_iff.1 hj
    simpa [hij] using hiP
  cases hs with
  | second hm hl =>
    have hpend : s.pending P .main = s.chained := by simp [pending, hm]
    rw [hpend]
    have hnm : s.main ≠ .sleeping := by simp [hm]
    rcases hold hi with ⟨hsp, hc, hf⟩ | ⟨hmem, -⟩ | ⟨hsp, hz, hc, hf, hlt⟩
    · rw [if_neg hnm] at hf
      rcases Nat.eq_zero_or_pos (cafe.ftime k) with hz | hpos
      · refine .inr (.inr ⟨rfl, hz, ?_, ?_, fun h => (h rfl).elim⟩)
        · show (if s.finish i = s.tmr then s.orderComp i + 1 else s.orderComp i) = 1
          rw [if_pos (by rw [hf, hz]; simp), hc]
        · show s.finish i ≤ s.tmr
          rw [hf, hz]
          simp
      · have hfree : s.free i = false := by
          simp only [free, hf, decide_eq_false_iff_not, not_le]
          omega
        have hmem : i ∈ s.chained := mem_walk_of_spaced (List.pairwise_lt_finRange b)
          (hg.1 rfl hm) (List.mem_finRange i) ⟨hfree, hsp⟩
        refine .inr (.inl ⟨hmem, ?_, hpos, ?_⟩)
        · show (if s.finish i = s.tmr then s.orderComp i + 1 else s.orderComp i) = 0
          rw [if_neg (by rw [hf]; omega), hc]
        · show s.finish i = _
          rw [hf]
          simp
    · rw [hI.chain.second hnm] at hmem
      cases hmem
    · refine .inr (.inr ⟨rfl, hz, ?_, hf, fun h => (h rfl).elim⟩)
      show (if s.finish i = s.tmr then s.orderComp i + 1 else s.orderComp i) = 1
      rw [if_neg (ne_of_lt (hlt hnm)), hc]
  | tick hm hq =>
    obtain ⟨Q, hQ⟩ := hI.line
    have hP := hI.chain.eq_nil_of_quiet hQ hq
    have hm' : (if s.customerRemaining then MainPc.locking else .done) ≠ .sleeping := by
      split_ifs <;> simp
    rcases hold hi with ⟨hsp, hc, hf⟩ | ⟨hmem, -⟩ | ⟨hsp, hz, hc, hf, -⟩
    · refine .inl ⟨hsp, hc, ?_⟩
      rw [if_pos hm] at hf
      show s.finish i = ((s.tmr + 1 : ℕ) : ℤ) + _ + _
      rw [if_neg hm', hf]
      push_cast
      ring
    · rw [hP] at hmem
      cases hmem
    · refine .inr (.inr ⟨hsp, hz, hc, ?_, fun _ => ?_⟩)
      · show s.finish i ≤ ((s.tmr + 1 : ℕ) : ℤ)
        omega
      · show s.finish i < ((s.tmr + 1 : ℕ) : ℤ)
        omega
  | wake l hpc hb =>
    have hil : i ≠ l := by
      rintro rfl
      simp at hi
    have hi' : s.pc i = .order k := by simpa [hil] using hi
    simp only [pending, hpc]
    exact orderTimed_of_eq (hold hi') rfl rfl rfl rfl rfl id
  | take l m hpc hl hm =>
    simp only [pending, hpc]
    by_cases hil : i = l
    · subst hil
      obtain rfl : m = k := by simpa using hi
      have hz := (h.idle i (by simp [hpc, BaristaPc.flag])).1
      have hmain : s.main = .sleeping := by
        by_contra hne
        have := hI.chain.head_of_lock hpc
        rw [hI.chain.second hne] at this
        cases this
      exact .inl ⟨by simp, hz, by simp [hmain]⟩
    · have hi' : s.pc i = .order k := by simpa [hil] using hi
      exact orderTimed_of_eq (hold hi') (by simp [hil]) rfl (by simp [hil]) rfl rfl
        (htail l hil (hI.chain.head_of_lock hpc))
  | rest l hpc hl hm =>
    simp only [pending, hpc]
    have hil : i ≠ l := by
      rintro rfl
      simp at hi
    have hi' : s.pc i = .order k := by simpa [hil] using hi
    exact orderTimed_of_eq (hold hi') rfl rfl rfl rfl rfl
      (htail l hil (hI.chain.head_of_lock hpc))
  | gone l m hpc hb hc =>
    simp only [pending, hpc]
    have hil : i ≠ l := by
      rintro rfl
      simp at hi
    have hi' : s.pc i = .order k := by simpa [hil] using hi
    exact orderTimed_of_eq (hold hi') rfl rfl (by simp [hil]) rfl rfl
      (htail l hil (hI.chain.head_of_baristas hb))
  | start l m hpc hb hc =>
    simp only [pending, hpc]
    have hil : i ≠ l := by
      rintro rfl
      simp at hi
    have hi' : s.pc i = .order k := by simpa [hil] using hi
    exact orderTimed_of_eq (hold hi') rfl rfl rfl rfl rfl
      (htail l hil (hI.chain.head_of_baristas hb))
  | finish l m hpc ho =>
    simp only [pending, hpc]
    have hil : i ≠ l := by
      rintro rfl
      simp at hi
    have hi' : s.pc i = .order k := by simpa [hil] using hi
    exact orderTimed_of_eq (hold hi') rfl (by simp [hil]) rfl rfl rfl id
  | _ => exact orderTimed_of_eq (hold hi) rfl rfl rfl rfl rfl id

theorem preparing_step (h : Timed cafe es s P) (hI : Inv cafe s P) (hs : s.Moves cafe e.1 t)
    (ha : s.announce e.1 = e.2) (hi : t.pc i = .preparing k) :
    ∃ u, .starts i k u ∈ notes (es ++ [e]) ∧ PrepTimed cafe t i k u := by
  -- a barista who was preparing before
  have hkeep : s.pc i = .preparing k →
      (∀ u, PrepTimed cafe s i k u → PrepTimed cafe t i k u) →
      ∃ u, .starts i k u ∈ notes (es ++ [e]) ∧ PrepTimed cafe t i k u := by
    intro hpc himp
    obtain ⟨u, hu, hp⟩ := h.preparing i k hpc
    exact ⟨u, mem_notes_append.2 (.inl hu), himp u hp⟩
  obtain ⟨th, note⟩ := e
  simp only at hs ha
  cases hs with
  | start l m hpc hb hc =>
    by_cases hil : i = l
    · subst hil
      obtain rfl : m = k := by simpa using hi
      refine ⟨s.tmr, mem_notes_append.2 (.inr ?_), ?_⟩
      · simp [← ha, announce, hpc, hc]
      · obtain ⟨hm, ⟨hz, hpos, hf⟩ | ⟨hz, hone, hf⟩⟩ := h.order_woken hI hpc hb
        · exact .inl ⟨hz, hf, .inl (Nat.lt_add_of_pos_right hpos)⟩
        · exact .inr ⟨hone, hm, hf, by rw [hz]; rfl⟩
    · exact hkeep (by simpa [hil] using hi) fun u hp => hp
  | second hm hl =>
    refine hkeep hi fun u hp => ?_
    rcases hp with ⟨hz, hf, hor⟩ | ⟨-, hm', -⟩
    · rcases hor with hlt | ⟨-, heq⟩
      · refine .inl ⟨?_, hf, .inl hlt⟩
        show (if s.finish i = s.tmr then s.orderComp i + 1 else s.orderComp i) = 0
        rw [if_neg (by rw [hf]; omega), hz]
      · refine .inr ⟨?_, rfl, ?_, heq⟩
        · show (if s.finish i = s.tmr then s.orderComp i + 1 else s.orderComp i) = 1
          rw [if_pos (by rw [hf]; omega), hz]
        · show s.finish i ≤ s.tmr
          rw [hf]
          omega
    · rw [hm] at hm'
      cases hm'
  | tick hm hq =>
    have hz : s.orderComp i = 0 := (hq.barista i).2.2 k hi
    have hm' : (if s.customerRemaining then MainPc.locking else .done) ≠ .sleeping := by
      split_ifs <;> simp
    refine hkeep hi fun u hp => ?_
    rcases hp with ⟨-, hf, hlt | ⟨hne, -⟩⟩ | ⟨hone, -⟩
    · refine .inl ⟨hz, hf, ?_⟩
      rcases (Nat.succ_le_of_lt hlt).eq_or_lt with heq | hlt
      · exact .inr ⟨hm', heq⟩
      · exact .inl hlt
    · exact (hne hm).elim
    · rw [hz] at hone
      cases hone
  | finish l m hpc ho =>
    have hil : i ≠ l := by
      rintro rfl
      simp at hi
    refine hkeep (by simpa [hil] using hi) fun u hp => ?_
    simpa [PrepTimed, hil] using hp
  | take l m hpc hl hm =>
    have hil : i ≠ l := by
      rintro rfl
      simp at hi
    refine hkeep (by simpa [hil] using hi) fun u hp => ?_
    simpa [PrepTimed, hil] using hp
  | gone l m hpc hb hc =>
    have hil : i ≠ l := by
      rintro rfl
      simp at hi
    refine hkeep (by simpa [hil] using hi) fun u hp => ?_
    simpa [PrepTimed, hil] using hp
  | wake l hpc hb =>
    have hil : i ≠ l := by
      rintro rfl
      simp at hi
    exact hkeep (by simpa [hil] using hi) fun u hp => hp
  | rest l hpc hl hm =>
    have hil : i ≠ l := by
      rintro rfl
      simp at hi
    exact hkeep (by simpa [hil] using hi) fun u hp => hp
  | _ => exact hkeep hi fun u hp => hp

/-- A start is announced by the move that starts. -/
theorem start_of_note {j : Fin b} {u : ℕ} (hs : s.Moves cafe e.1 t) (ha : s.announce e.1 = e.2)
    (he : e.2 = some (.starts j k u)) :
    s.pc j = .order k ∧ t.pc j = .preparing k ∧ u = s.tmr ∧
      (∀ i, i ≠ j → t.pc i = s.pc i) ∧ t.taken = s.taken := by
  obtain ⟨hth, hpc, hc, hu⟩ := announce_starts (ha.trans he)
  rw [hth] at hs
  cases hs with
  | start _ m hpc' hb hc' =>
    obtain rfl : m = k := by simpa [hpc] using hpc'.symm
    exact ⟨hpc, by simp, hu, fun i hi => by simp [hi], rfl⟩
  | _ => simp_all

theorem fresh_step (h : Timed cafe es s P) (hI : Inv cafe s P) (hs : s.Moves cafe e.1 t)
    (ha : s.announce e.1 = e.2) (hk : t.taken k = false ∨ ∃ i, t.pc i = .order k) (j : Fin b)
    (u : ℕ) : .starts j k u ∉ notes (es ++ [e]) := by
  intro hmem
  rcases mem_notes_append.1 hmem with hmem | he
  · refine h.fresh k ?_ j u hmem
    obtain ⟨th, note⟩ := e
    simp only at hs
    cases hs with
    | take l m hpc hl hm =>
      have hnt := (nextOrder_eq_some hm).2.2.2
      by_cases hkm : k = m
      · exact .inl (hkm ▸ hnt)
      · rcases hk with hk | ⟨i, hi⟩
        · exact .inl (by simpa [hkm] using hk)
        · by_cases hil : i = l
          · simp [hil, Ne.symm hkm] at hi
          · exact .inr ⟨i, by simpa [hil] using hi⟩
    | _ =>
      refine hk.imp_right fun ⟨i, hi⟩ => ⟨i, ?_⟩
      grind [update_apply]
  · obtain ⟨hpc, hpc', -, hne, htk⟩ := start_of_note hs ha he
    rcases hk with hk | ⟨i, hi⟩
    · rw [htk, hI.orders.held j k (by simp [hpc, BaristaPc.flag])] at hk
      cases hk
    · have hij : i ≠ j := by
        rintro rfl
        rw [hpc'] at hi
        cases hi
      rw [hne i hij] at hi
      exact hij (hI.orders.unique i j k (by simp [hi, BaristaPc.flag])
        (by simp [hpc, BaristaPc.flag]))

theorem unique_step {i j : Fin b} {u v : ℕ} (h : Timed cafe es s P) (hs : s.Moves cafe e.1 t)
    (ha : s.announce e.1 = e.2) (hi : .starts i k u ∈ notes (es ++ [e]))
    (hj : .starts j k v ∈ notes (es ++ [e])) : i = j ∧ u = v := by
  rcases mem_notes_append.1 hi with hi | hi <;> rcases mem_notes_append.1 hj with hj | hj
  · exact h.unique i j k u v hi hj
  · exact (h.fresh k (.inr ⟨j, (start_of_note hs ha hj).1⟩) i u hi).elim
  · exact (h.fresh k (.inr ⟨i, (start_of_note hs ha hi).1⟩) j v hj).elim
  · rw [hi, Option.some.injEq, CafeNote.starts.injEq] at hj
    exact ⟨hj.1, hj.2.2⟩

/-- A barista completes its coffee when its preparation time is over. -/
theorem finish_in_time (h : Timed cafe es s P) (hpc : s.pc i = .preparing k)
    (ho : 0 < s.orderComp i) : ∃ u, .starts i k u ∈ notes es ∧ s.tmr = u + cafe.ftime k := by
  obtain ⟨u, hu, ⟨hz, -⟩ | ⟨-, -, -, heq⟩⟩ := h.preparing i k hpc
  · omega
  · exact ⟨u, hu, heq⟩

theorem started_step {u : ℕ} (h : Timed cafe es s P) (hs : s.Moves cafe e.1 t)
    (ha : s.announce e.1 = e.2) (hi : .starts i k u ∈ notes (es ++ [e])) :
    t.pc i = .preparing k ∨ .completes i k (u + cafe.ftime k) ∈ notes (es ++ [e]) := by
  rcases mem_notes_append.1 hi with hold | hi
  · rcases h.started i k u hold with hpc | hc
    · obtain ⟨th, note⟩ := e
      simp only at hs ha
      cases hs with
      | finish l m hpc' ho =>
        by_cases hil : i = l
        · subst hil
          obtain rfl : m = k := by simpa [hpc] using hpc'.symm
          obtain ⟨v, hv, heq⟩ := h.finish_in_time hpc ho
          obtain ⟨-, rfl⟩ := h.unique i i m u v hold hv
          refine .inr (mem_notes_append.2 (.inr ?_))
          simp [← ha, announce, hpc, heq]
        · exact .inl (by simpa [hil] using hpc)
      | _ => exact .inl (by grind [update_apply])
    · exact .inr (mem_notes_append.2 (.inl hc))
  · exact .inl (start_of_note hs ha hi).2.1

theorem completed_step {u : ℕ} (h : Timed cafe es s P) (hs : s.Moves cafe e.1 t)
    (ha : s.announce e.1 = e.2) (hi : .completes i k u ∈ notes (es ++ [e])) :
    ∃ v, .starts i k v ∈ notes (es ++ [e]) ∧ u = v + cafe.ftime k := by
  rcases mem_notes_append.1 hi with hi | hi
  · obtain ⟨v, hv, heq⟩ := h.completed i k u hi
    exact ⟨v, mem_notes_append.2 (.inl hv), heq⟩
  · obtain ⟨hth, hpc, rfl⟩ := announce_completes (ha.trans hi)
    rw [hth] at hs
    have ho : 0 < s.orderComp i := by
      cases hs <;> simp_all
    obtain ⟨v, hv, heq⟩ := h.finish_in_time hpc ho
    exact ⟨v, mem_notes_append.2 (.inl hv), heq⟩

theorem step (h : Timed cafe es s P) (hI : Inv cafe s P) (hg : InTime s e)
    (hs : s.Moves cafe e.1 t) (ha : s.announce e.1 = e.2) :
    Timed cafe (es ++ [e]) t (s.pending P e.1) where
  idle _ := h.idle_step hI hg hs
  order _ _ := h.order_step hI hg hs
  preparing _ _ := h.preparing_step hI hs ha
  fresh _ := h.fresh_step hI hs ha
  unique _ _ _ _ _ := h.unique_step hs ha
  started _ _ _ := h.started_step hs ha
  completed _ _ _ := h.completed_step hs ha

theorem boot : Timed cafe [] (boot b n) [] := by
  refine ⟨fun i _ => ?_, ?_, ?_, ?_, ?_, ?_, ?_⟩ <;>
    simp [notes, CafeState.boot, loop]

/-- The baristas are in time along every run of steps that are. -/
theorem run (h : Run (Guarded (Step cafe) InTime) (CafeState.boot b n) es s) :
    ∃ P, Inv cafe s P ∧ Timed cafe es s P := by
  induction h with
  | nil => exact ⟨[], Inv.boot cafe, boot⟩
  | snoc _ hs ih =>
    obtain ⟨P, hI, hT⟩ := ih
    have hm := moves_of_move hs.1.1
    exact ⟨_, hI.step hm, hT.step hI hs.2 hm hs.1.2⟩

end Timed

/-- In every run whose steps are in time, each coffee that is announced as started is
announced as completed by the same barista only, exactly its preparation time later, and that
does happen before the clock goes on. -/
theorem prep_time_exact (h : Run (Guarded (Step cafe) InTime) (boot b n) es s) :
    (∀ i j k u v, .starts i k u ∈ notes es → .completes j k v ∈ notes es →
      j = i ∧ v - u = cafe.ftime k ∧ u ≤ v) ∧
    ∀ i k u, .starts i k u ∈ notes es → u + cafe.ftime k < s.tmr →
      .completes i k (u + cafe.ftime k) ∈ notes es := by
  obtain ⟨P, -, hT⟩ := Timed.run h
  refine ⟨fun i j k u v hu hv => ?_, fun i k u hu hlt => ?_⟩
  · obtain ⟨u', hu', rfl⟩ := hT.completed j k v hv
    obtain ⟨rfl, rfl⟩ := hT.unique i j k u u' hu hu'
    exact ⟨rfl, by omega, by omega⟩
  · rcases hT.started i k u hu with hpc | hc
    · obtain ⟨v, hv, hp⟩ := hT.preparing i k hpc
      obtain ⟨-, rfl⟩ := hT.unique i i k u v hu hv
      rcases hp with ⟨-, -, h | ⟨-, h⟩⟩ | ⟨-, -, -, h⟩ <;> omega
    · exact hc

/-- `b` baristas and two customers who order tea. -/
def twoTeas (b ftime arrival : ℕ) : Cafe b 2 where
  menu := [("tea", ftime)]
  customer c := ⟨"tea", if c = 0 then 0 else arrival, 9⟩
  sorted c d h := by
    by_cases hc : c = 0
    · simp [hc]
    · have hd : d ≠ 0 := by
        rintro rfl
        exact hc (Fin.le_zero_iff.1 h)
      simp [hc, hd]
  listed _ := by simp

/-- One barista makes a tea of three seconds. -/
theorem prep_time_exact_tea : ∃ es s, Run (Guarded (Step (twoTeas 1 3 9)) InTime) (boot 1 2) es s ∧
    .starts 0 0 1 ∈ notes es ∧ 1 + (twoTeas 1 3 9).ftime 0 < s.tmr ∧
    .completes 0 0 (1 + (twoTeas 1 3 9).ftime 0) ∈ notes es := by
  have h : ∃ r ∈ exec (twoTeas 1 3 9) InTime (boot 1 2)
      [.main, .customer 0, .barista 0, .barista 0, .main,
      .main, .barista 0, .main, .main, .main, .main, .main,
      .main, .barista 0, .barista 0, .barista 0, .customer 0, .main],
      .starts 0 0 1 ∈ notes r.1 ∧ 1 + (twoTeas 1 3 9).ftime 0 < r.2.tmr := by decide
  obtain ⟨r, hr, hs, ht⟩ := h
  exact ⟨r.1, r.2, guarded_of_exec hr, hs, ht, (prep_time_exact (guarded_of_exec hr)).2 0 0 1 hs ht⟩

/-- Two baristas take an order in the same second : main passes over the second one, and its
tea of three seconds is started and completed in second 4. -/
theorem prep_time_lost : ∃ es s, Run (Step (twoTeas 2 3 0)) (boot 2 2) es s ∧
    .starts 1 1 4 ∈ notes es ∧ .completes 1 1 4 ∈ notes es ∧ (twoTeas 2 3 0).ftime 1 = 3 := by
  have h : ∃ r ∈ exec (twoTeas 2 3 0) (fun _ _ => True) (boot 2 2)
      [.main, .customer 0, .customer 1, .barista 0, .barista 0, .barista 1, .barista 1, .main,
      .main, .barista 0, .main, .main, .main, .main, .main,
      .main, .barista 0, .barista 0, .barista 0, .barista 1, .barista 1],
      .starts 1 1 4 ∈ notes r.1 ∧ .completes 1 1 4 ∈ notes r.1 := by decide
  obtain ⟨r, hr, hs, hc⟩ := h
  exact ⟨r.1, r.2, run_of_exec hr, hs, hc, by decide⟩

end CafeState

end CowPbs
