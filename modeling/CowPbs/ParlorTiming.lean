import Mathlib
import CowPbs.ParlorRota

/-!
# The preparation of an ice cream

A machine that takes an order in the second in which the customer arrives starts it one second
later, when main wakes it again; any other order it starts at once. Main's rescan can pass over
a machine that was just given an order, and a machine that is woken when the ingredients are
over does not wake the next one. An ice cream that takes no time and is started at once is
never announced as ready, since main has looked for it before. In every second-synchronous run
without these steps (`Punctual`) each ice cream is made on time (`made_on_time`).
-/

open Function Rescan Transition

namespace CowPbs

namespace Parlor

variable {n p o q : ℕ} (parlor : Parlor n p o q)

/-- The second in which the order `k` should be started, if it is taken in second `u`. -/
def startAt (k : Fin o) (u : ℕ) : ℕ :=
  Max.max u (parlor.arrival (parlor.owner k) + 1)

/-- The second in which it should be ready. -/
def dueAt (k : Fin o) (u : ℕ) : ℕ :=
  parlor.startAt k u + parlor.ftime k

end Parlor

namespace ParlorState

variable {n p o q : ℕ} {parlor : Parlor n p o q} {s t : ParlorState n p o q}
  {es : List (ParlorEvent n p o)} {e : ParlorEvent n p o} {P R : List (Fin n)}
  {Q : List (Fin p)} {H : Option (Fin n)}

/-- When main chains the machines at work, between any two that were just given an order there
is a free one; and if the ingredients are over, no free one comes before one that was just
given an order in the chain. An ice cream that is started at once takes some time. -/
def Punctual (parlor : Parlor n p o q) (s : ParlorState n p o q) (e : ParlorEvent n p o) :
    Prop :=
  (e.1 = .main → s.main = .chaining → Spaced s.free s.special (s.workers parlor) ∧
    (s.ingredientOver = true →
      (s.chained parlor).Pairwise fun i j => s.free i = true → s.free j = true)) ∧
  ∀ i k, e.2 = some (.takes i k s.tmr) →
    0 < parlor.ftime k ∨ parlor.arrival (parlor.owner k) = s.tmr

instance (s : ParlorState n p o q) (e : ParlorEvent n p o) : Decidable (Punctual parlor s e) :=
  inferInstanceAs (Decidable (_ ∧ _))

/-- A machine with the order `k`, before it is woken : the order is new, or the machine will
be woken in this second. -/
def OrderTimed (parlor : Parlor n p o q) (es : List (ParlorEvent n p o))
    (s : ParlorState n p o q) (P R : List (Fin n)) (i : Fin n) (k : Fin o) : Prop :=
  .takes i k (parlor.arrival (parlor.owner k)) ∈ notes es ∧
  s.finish i = parlor.arrival (parlor.owner k) + 1 + parlor.ftime k ∧
  ((s.special i = true ∧ s.main = .sleeping ∧ s.tmr = parlor.arrival (parlor.owner k)) ∨
  (s.special i = true ∧ s.main ≠ .comping ∧ s.main ≠ .sleeping ∧
    s.tmr = parlor.arrival (parlor.owner k) + 1) ∨
  (i ∈ P ∧ s.tmr = parlor.arrival (parlor.owner k) + 1 ∧
    (s.main = .sleeping → parlor.ftime k = 0 → i ∈ R)))

/-- A machine that started the order `k`. -/
def PrepTimed (parlor : Parlor n p o q) (es : List (ParlorEvent n p o))
    (s : ParlorState n p o q) (R : List (Fin n)) (i : Fin n) (k : Fin o) : Prop :=
  s.special i = false ∧ ∃ u, .takes i k u ∈ notes es ∧
    .starts i k (parlor.startAt k u) ∈ notes es ∧ s.finish i = parlor.dueAt k u ∧
    (s.tmr < parlor.dueAt k u ∨ s.tmr = parlor.dueAt k u ∧ (s.main = .sleeping → i ∈ R))

/-- The machine `i` is in time. -/
structure OnTime (parlor : Parlor n p o q) (es : List (ParlorEvent n p o))
    (s : ParlorState n p o q) (P R : List (Fin n)) (i : Fin n) : Prop where
  idle : (s.pc i).job = none ∨ (∃ k, s.pc i = .check k) → s.special i = false ∧
    s.finish i ≤ s.tmr ∧ (s.main ≠ .sleeping → s.finish i < s.tmr)
  took : ∀ k, s.pc i = .took k → .takes i k s.tmr ∈ notes es ∧
    s.finish i = parlor.dueAt k s.tmr ∧
    s.special i = decide (parlor.arrival (parlor.owner k) = s.tmr) ∧
    (0 < parlor.ftime k ∨ parlor.arrival (parlor.owner k) = s.tmr)
  order : ∀ k, s.pc i = .order k → OrderTimed parlor es s P R i k
  preparing : ∀ k, s.pc i = .preparing k → PrepTimed parlor es s R i k

/-- What the machines have announced. -/
structure Announced (parlor : Parlor n p o q) (es : List (ParlorEvent n p o))
    (s : ParlorState n p o q) : Prop where
  taken : ∀ i k u, .takes i k u ∈ notes es → s.taken k = true
  unique : ∀ i j k u v, .takes i k u ∈ notes es → .takes j k v ∈ notes es → i = j ∧ u = v
  bound : ∀ i k u, .takes i k u ∈ notes es →
    parlor.arrival (parlor.owner k) ≤ u ∧ parlor.dueAt k u ≤ parlor.machineEnd i
  starts : ∀ i k u, .starts i k u ∈ notes es →
    ∃ v, .takes i k v ∈ notes es ∧ u = parlor.startAt k v
  completes : ∀ i k u, .completes i k u ∈ notes es →
    ∃ v, .takes i k v ∈ notes es ∧ u = parlor.dueAt k v

/-- What follows the take of an order. -/
def Follows (parlor : Parlor n p o q) (es : List (ParlorEvent n p o))
    (s : ParlorState n p o q) : Prop :=
  ∀ i k u, .takes i k u ∈ notes es → s.pc i = .took k ∨ s.pc i = .order k ∨
    .starts i k (parlor.startAt k u) ∈ notes es ∧
      (s.pc i = .preparing k ∨ .completes i k (parlor.dueAt k u) ∈ notes es)

/-- What is announced once the seconds are over. -/
def Over (parlor : Parlor n p o q) (es : List (ParlorEvent n p o)) (now : ℕ) : Prop :=
  ∀ i k u, .takes i k u ∈ notes es →
    (parlor.startAt k u < now → .starts i k (parlor.startAt k u) ∈ notes es) ∧
    (parlor.dueAt k u < now → .completes i k (parlor.dueAt k u) ∈ notes es)

namespace OnTime

variable {i : Fin n} {k : Fin o}

theorem boot (i : Fin n) : OnTime parlor [] (boot parlor) [] [] i := by
  refine ⟨?_, ?_, ?_, ?_⟩ <;> simp [ParlorState.boot]

/-! ## What main finds -/

/-- A machine with an order is not free. -/
theorem not_free_of_order (h : OnTime parlor es s P R i) (hpc : s.pc i = .order k) :
    s.free i = false := by
  obtain ⟨-, hfin, hor⟩ := h.order k hpc
  have hle : s.tmr ≤ parlor.arrival (parlor.owner k) + 1 := by
    rcases hor with ⟨-, -, ht⟩ | ⟨-, -, -, ht⟩ | ⟨-, ht, -⟩ <;> omega
  simp only [free, hfin, decide_eq_false_iff_not, not_lt]
  omega

theorem not_free_of_preparing (h : OnTime parlor es s P R i) (hpc : s.pc i = .preparing k) :
    s.free i = false := by
  obtain ⟨-, u, -, -, hfin, hor⟩ := h.preparing k hpc
  simp only [free, hfin, decide_eq_false_iff_not, not_lt]
  rcases hor with hlt | ⟨heq, -⟩ <;> omega

/-- Before main wakes the machines of a second they are off, idle, at an order or preparing. -/
theorem pc_cases (hL : Line parlor s Q H) (hm : s.main ≠ .sleeping) (i : Fin n) :
    (s.pc i = .off ∨ s.pc i = .idle) ∨ (∃ k, s.pc i = .order k) ∨ ∃ k, s.pc i = .preparing k := by
  have hact : (s.pc i).active ≠ true := fun hact => hm (hL.active i hact)
  have hcl := hL.notClosed i
  cases hpc : s.pc i <;> simp_all [MachinePc.active]

theorem mem_chained_cases (h : OnTime parlor es s P R i) (hL : Line parlor s Q H)
    (hm : s.main = .chaining) (hi : i ∈ s.chained parlor) :
    s.pc i = .off ∨ s.pc i = .idle ∨ ∃ k, s.pc i = .order k := by
  rcases pc_cases hL (by simp [hm]) i with (hoff | hidle) | hord | ⟨k, hprep⟩
  · exact .inl hoff
  · exact .inr (.inl hidle)
  · exact .inr (.inr hord)
  · -- a machine that prepares is neither free nor just given an order
    have hmem := (List.mem_filter.1 ((Rescan.walk_sublist ..).subset hi)).2
    rw [h.not_free_of_preparing hprep, (h.preparing k hprep).1] at hmem
    cases hmem

theorem mem_ready_cases (h : OnTime parlor es s P R i) (hL : Line parlor s Q H)
    (hm : s.main = .comping) (hi : i ∈ s.ready) :
    (∃ k, s.pc i = .preparing k) ∨ i ∈ P ∧ ∃ k, s.pc i = .order k := by
  have hfin : s.finish i = s.tmr := by simpa [ParlorState.ready] using hi
  rcases pc_cases hL (by simp [hm]) i with hidle | ⟨k, hord⟩ | hprep
  · have hjob : (s.pc i).job = none := by
      rcases hidle with hpc | hpc <;> rw [hpc] <;> rfl
    have := (h.idle (.inl hjob)).2.2 (by simp [hm])
    omega
  · refine .inr ⟨?_, k, hord⟩
    rcases (h.order k hord).2.2 with ⟨-, hm', -⟩ | ⟨-, hm', -⟩ | ⟨hP, -⟩
    · rw [hm] at hm'
      cases hm'
    · exact (hm' hm).elim
    · exact hP
  · exact .inl hprep

/-- If the ingredients are over, the machines with an order come first. -/
theorem chained_pairwise (h : ∀ i, OnTime parlor es s P R i) (hL : Line parlor s Q H)
    (hm : s.main = .chaining)
    (hg : (s.chained parlor).Pairwise fun i j => s.free i = true → s.free j = true) :
    (s.chained parlor).Pairwise
      fun i j => (∃ k, s.pc j = .order k) → ∃ k, s.pc i = .order k := by
  refine hg.imp_of_mem fun {i j} hi hj hfree hord => ?_
  obtain ⟨k, hk⟩ := hord
  have hj' := (h j).not_free_of_order hk
  -- a machine that is off or idle is free
  have hidle : s.pc i = .off ∨ s.pc i = .idle → s.free i = true := by
    intro hpc
    have hjob : (s.pc i).job = none := by
      rcases hpc with hpc | hpc <;> rw [hpc] <;> rfl
    have := ((h i).idle (.inl hjob)).2.2 (by simp [hm])
    simpa [free] using this
  rcases (h i).mem_chained_cases hL hm hi with hpc | hpc | hord
  · rw [hfree (hidle (.inl hpc))] at hj'
    cases hj'
  · rw [hfree (hidle (.inr hpc))] at hj'
    cases hj'
  · exact hord

/-! ## What a move keeps -/

/-- A machine that does not move in this move. -/
theorem of_eq {P' R' : List (Fin n)} (h : OnTime parlor es s P R i) (hpc : t.pc i = s.pc i)
    (hsp : t.special i = s.special i) (hfin : t.finish i = s.finish i) (htmr : t.tmr = s.tmr)
    (hmain : t.main = s.main) (hP : ∀ k, s.pc i = .order k → i ∈ P → i ∈ P')
    (hR : i ∈ R → i ∈ R') : OnTime parlor (es ++ [e]) t P' R' i := by
  have hnote : ∀ x, x ∈ notes es → x ∈ notes (es ++ [e]) :=
    fun x hx => mem_notes_append.2 (.inl hx)
  refine ⟨fun hj => ?_, fun k hk => ?_, fun k hk => ?_, fun k hk => ?_⟩
  · rw [hpc] at hj
    rw [hsp, hfin, htmr, hmain]
    exact h.idle hj
  · rw [hpc] at hk
    rw [hsp, hfin, htmr]
    exact ⟨hnote _ (h.took k hk).1, (h.took k hk).2⟩
  · rw [hpc] at hk
    obtain ⟨hta, hf, hor⟩ := h.order k hk
    refine ⟨hnote _ hta, by rw [hfin, hf], ?_⟩
    rw [hsp, htmr, hmain]
    refine hor.imp_right (Or.imp_right fun hin => ?_)
    exact ⟨hP k hk hin.1, hin.2.1, fun hm hz => hR (hin.2.2 hm hz)⟩
  · rw [hpc] at hk
    obtain ⟨hs, u, hta, hst, hf, hor⟩ := h.preparing k hk
    refine ⟨by rw [hsp, hs], u, hnote _ hta, hnote _ hst, by rw [hfin, hf], ?_⟩
    rw [htmr, hmain]
    exact hor.imp_right fun heq => ⟨heq.1, fun hm => hR (heq.2 hm)⟩

/-- A machine that is idle after the move, as it was before. -/
theorem of_idle {P' R' : List (Fin n)} (h : OnTime parlor es s P R i)
    (hi : (s.pc i).job = none ∨ (∃ k, s.pc i = .check k)) (ht : (t.pc i).job = none)
    (hsp : t.special i = s.special i) (hfin : t.finish i = s.finish i) (htmr : t.tmr = s.tmr)
    (hmain : t.main = s.main) : OnTime parlor (es ++ [e]) t P' R' i := by
  refine ⟨fun _ => ?_, fun k hk => ?_, fun k hk => ?_, fun k hk => ?_⟩
  · rw [hsp, hfin, htmr, hmain]
    exact h.idle hi
  all_goals
    rw [hk] at ht
    cases ht

/-- The machine takes the order `k`. -/
theorem take {P' R' : List (Fin n)} (h : OnTime parlor es s P R i) (hpc : s.pc i = .scan)
    (hg : 0 < parlor.ftime k ∨ parlor.arrival (parlor.owner k) = s.tmr)
    (hle : parlor.arrival (parlor.owner k) ≤ s.tmr) (ht : t.pc i = .took k)
    (hfin : t.finish i = if parlor.arrival (parlor.owner k) = s.tmr then
      (s.tmr : ℤ) + parlor.ftime k + 1 else s.tmr + parlor.ftime k)
    (hsp : t.special i =
      if parlor.arrival (parlor.owner k) = s.tmr then true else s.special i)
    (htmr : t.tmr = s.tmr) (he : e.2 = some (.takes i k s.tmr)) :
    OnTime parlor (es ++ [e]) t P' R' i := by
  have hjob : (s.pc i).job = none := by rw [hpc]; rfl
  refine ⟨fun hj => ?_, fun l hl => ?_, fun l hl => ?_, fun l hl => ?_⟩
  · rw [ht] at hj
    rcases hj with hj | ⟨l, hj⟩ <;> cases hj
  · obtain rfl := MachinePc.took.inj (ht.symm.trans hl)
    rw [htmr]
    refine ⟨mem_notes_append.2 (.inr he), ?_, ?_, hg⟩
    · rw [hfin, Parlor.dueAt, Parlor.startAt]
      split_ifs with ha
      · rw [ha, max_eq_right (Nat.le_succ _)]
        push_cast
        ring
      · rw [max_eq_left (by omega)]
        push_cast
        ring
    · rw [hsp, (h.idle (.inl hjob)).1]
      split_ifs with ha <;> simp [ha]
  · rw [ht] at hl
    cases hl
  · rw [ht] at hl
    cases hl

/-- The machine keeps the order `k` for the next second. -/
theorem hold {P' R' : List (Fin n)} (h : OnTime parlor es s P R i) (hpc : s.pc i = .took k)
    (ha : parlor.arrival (parlor.owner k) = s.tmr) (hm : s.main = .sleeping)
    (ht : t.pc i = .order k) (hfin : t.finish i = s.finish i) (hsp : t.special i = s.special i)
    (htmr : t.tmr = s.tmr) (hmain : t.main = s.main) :
    OnTime parlor (es ++ [e]) t P' R' i := by
  obtain ⟨hta, hf, hs, -⟩ := h.took k hpc
  refine ⟨fun hj => ?_, fun l hl => ?_, fun l hl => ?_, fun l hl => ?_⟩
  · rw [ht] at hj
    rcases hj with hj | ⟨l, hj⟩ <;> cases hj
  · rw [ht] at hl
    cases hl
  · obtain rfl := MachinePc.order.inj (ht.symm.trans hl)
    refine ⟨mem_notes_append.2 (.inl (by rw [ha]; exact hta)), ?_, .inl ⟨?_, ?_, ?_⟩⟩
    · rw [hfin, hf, Parlor.dueAt, Parlor.startAt, ha, max_eq_right (Nat.le_succ _)]
      push_cast
      ring
    · rw [hsp, hs, ha]
      simp
    · rw [hmain, hm]
    · rw [htmr, ha]
  · rw [ht] at hl
    cases hl

/-- The machine starts an order it has just taken. -/
theorem start {P' R' : List (Fin n)} (h : OnTime parlor es s P R i) (hpc : s.pc i = .took k)
    (ha : parlor.arrival (parlor.owner k) ≠ s.tmr)
    (hle : parlor.arrival (parlor.owner k) ≤ s.tmr) (ht : t.pc i = .preparing k)
    (hfin : t.finish i = s.finish i) (hsp : t.special i = s.special i) (htmr : t.tmr = s.tmr)
    (he : e.2 = some (.starts i k s.tmr)) : OnTime parlor (es ++ [e]) t P' R' i := by
  obtain ⟨hta, hf, hs, hpos⟩ := h.took k hpc
  have hst : parlor.startAt k s.tmr = s.tmr := max_eq_left (by omega)
  refine ⟨fun hj => ?_, fun l hl => ?_, fun l hl => ?_, fun l hl => ?_⟩
  · rw [ht] at hj
    rcases hj with hj | ⟨l, hj⟩ <;> cases hj
  · rw [ht] at hl
    cases hl
  · rw [ht] at hl
    cases hl
  · obtain rfl := MachinePc.preparing.inj (ht.symm.trans hl)
    refine ⟨by rw [hsp, hs]; simpa using ha, s.tmr, mem_notes_append.2 (.inl hta),
      mem_notes_append.2 (.inr (by rw [hst, he])), by rw [hfin, hf], .inl ?_⟩
    have hpos := hpos.resolve_right ha
    rw [htmr, Parlor.dueAt, hst]
    omega

/-- The machine starts the order it was woken for. -/
theorem resume {P' R' : List (Fin n)} (h : OnTime parlor es s P R i) (hpc : s.pc i = .order k)
    (hs : s.special i = false) (ht : t.pc i = .preparing k) (hfin : t.finish i = s.finish i)
    (hsp : t.special i = s.special i) (htmr : t.tmr = s.tmr) (hmain : t.main = s.main)
    (hR : i ∈ R → i ∈ R') (he : e.2 = some (.starts i k s.tmr)) :
    OnTime parlor (es ++ [e]) t P' R' i := by
  obtain ⟨hta, hf, hor⟩ := h.order k hpc
  have hnow : s.tmr = parlor.arrival (parlor.owner k) + 1 ∧
      (s.main = .sleeping → parlor.ftime k = 0 → i ∈ R) := by
    rcases hor with ⟨hs', -⟩ | ⟨hs', -⟩ | ⟨-, hrest⟩
    · rw [hs] at hs'
      cases hs'
    · rw [hs] at hs'
      cases hs'
    · exact hrest
  have hst : parlor.startAt k (parlor.arrival (parlor.owner k)) = s.tmr := by
    rw [hnow.1]
    exact max_eq_right (Nat.le_succ _)
  refine ⟨fun hj => ?_, fun l hl => ?_, fun l hl => ?_, fun l hl => ?_⟩
  · rw [ht] at hj
    rcases hj with hj | ⟨l, hj⟩ <;> cases hj
  · rw [ht] at hl
    cases hl
  · rw [ht] at hl
    cases hl
  · obtain rfl := MachinePc.preparing.inj (ht.symm.trans hl)
    refine ⟨hsp.trans hs, _, mem_notes_append.2 (.inl hta),
      mem_notes_append.2 (.inr (by rw [hst, he])), ?_, ?_⟩
    · rw [hfin, hf, Parlor.dueAt, hst, hnow.1]
      push_cast
      ring
    · rw [htmr, hmain, Parlor.dueAt, hst]
      rcases Nat.eq_zero_or_pos (parlor.ftime k) with hz | hpos
      · exact .inr ⟨by omega, fun hm => hR (hnow.2 hm hz)⟩
      · exact .inl (by omega)

/-- The ice cream is ready. -/
theorem finish {P' R' : List (Fin n)} (h : OnTime parlor es s P R i) (hpc : s.pc i = .preparing k)
    (hf : s.finish i = s.tmr) (hm : s.main = .sleeping) (ht : t.pc i = .check k)
    (hfin : t.finish i = s.finish i) (hsp : t.special i = s.special i) (htmr : t.tmr = s.tmr)
    (hmain : t.main = s.main) : OnTime parlor (es ++ [e]) t P' R' i := by
  refine ⟨fun hj => ⟨hsp.trans (h.preparing k hpc).1, ?_, fun hm' => ?_⟩, fun l hl => ?_,
    fun l hl => ?_, fun l hl => ?_⟩
  · rw [hfin, hf, htmr]
  · rw [hmain] at hm'
    exact (hm' hm).elim
  all_goals
    rw [ht] at hl
    cases hl

/-- A machine moves. -/
theorem step_machine {j : Fin n} {note : Option (ParlorNote n p o)}
    (h : OnTime parlor es s P R i) (hA : Announced parlor es s) (hL : Line parlor s Q H)
    (hW : Rota parlor s P) (hC : Comp s P R) (hm : s.main = .sleeping)
    (hg : Punctual parlor s (.machine j, note)) (hs : s.Moves parlor (.machine j) note t) :
    OnTime parlor (es ++ [(.machine j, note)]) t (s.pendingWake parlor P (.machine j))
      (s.pendingComp R (.machine j)) i := by
  -- the other machines
  have hne : i ≠ j → ∀ k, s.pc i = .order k → i ∈ P →
      i ∈ s.pendingWake parlor P (.machine j) :=
    fun hij k hk hi => Comp.mem_pendingWake hW hL.opened hs hij hi hk
  have hnone : ∀ {x : MachinePc o}, s.pc j = x → x.job = none → (s.pc j).job = none := by
    rintro x rfl hx
    exact hx
  cases hs with
  | quit _ hpc hb hc | abandon _ k hpc hb hc =>
    rw [hL.opened] at hc
    cases hc
  | turnOn _ hpc | wake _ hpc | acquire _ hpc | rest _ hpc =>
    have hc : s.pendingComp R (.machine j) = R := by simp only [pendingComp, hpc]
    rw [hc]
    by_cases hij : i = j
    · subst hij
      exact h.of_idle (.inl (hnone hpc rfl)) (by simp [MachinePc.job]) rfl rfl rfl rfl
    · exact h.of_eq (by simp [hij]) rfl rfl rfl rfl (hne hij) id
  | skip _ hpc | pass _ k hpc | reject _ k hpc =>
    have hc : s.pendingComp R (.machine j) = R := by simp only [pendingComp, hpc]
    rw [hc]
    by_cases hij : i = j
    · subst hij
      exact h.of_idle (.inl (hnone hpc rfl)) (hnone hpc rfl) rfl rfl rfl rfl
    · exact h.of_eq rfl rfl rfl rfl rfl (hne hij) id
  | take _ k hpc hk hp hsh hf =>
    have hc : s.pendingComp R (.machine j) = R := by simp only [pendingComp, hpc]
    rw [hc]
    by_cases hij : i = j
    · subst hij
      simp only [fits, decide_eq_true_eq] at hf
      exact h.take hpc (hg.2 i k rfl) (by omega) (by simp) (by simp) (by simp) rfl rfl
    · exact h.of_eq (by simp [hij]) (by simp [hij]) (by simp [hij]) rfl rfl (hne hij) id
  | hold _ k hpc ha =>
    have hc : s.pendingComp R (.machine j) = R := by simp only [pendingComp, hpc]
    rw [hc]
    by_cases hij : i = j
    · subst hij
      exact h.hold hpc ha hm (by simp) rfl rfl rfl rfl
    · exact h.of_eq (by simp [hij]) rfl rfl rfl rfl (hne hij) id
  | start _ k hpc ha =>
    have hc : s.pendingComp R (.machine j) = R := by simp only [pendingComp, hpc]
    rw [hc]
    by_cases hij : i = j
    · subst hij
      have hle := (hA.bound i k s.tmr (h.took k hpc).1).1
      exact h.start hpc ha hle (by simp) rfl rfl rfl rfl
    · exact h.of_eq (by simp [hij]) rfl rfl rfl rfl (hne hij) id
  | resume _ k hpc hb =>
    have hc : s.pendingComp R (.machine j) = R := by simp only [pendingComp, hpc]
    rw [hc]
    by_cases hij : i = j
    · subst hij
      have hi := List.mem_of_mem_head? (hW.head_of_machines hb (by simp [hpc]))
      exact h.resume hpc (hW.cleared i hi) (by simp) rfl rfl rfl rfl id rfl
    · exact h.of_eq (by simp [hij]) rfl rfl rfl rfl (hne hij) id
  | finish _ k hpc hb =>
    have hc : s.pendingComp R (.machine j) = R.tail := by simp only [pendingComp, hpc]
    have hhead := hC.head_of_orderComp hb
    rw [hc]
    by_cases hij : i = j
    · subst hij
      have hf := (hC.member i (List.mem_of_mem_head? hhead)).1
      exact h.finish hpc hf hm (by simp) rfl rfl rfl rfl
    · refine h.of_eq (by simp [hij]) rfl rfl rfl rfl (hne hij) fun hi => ?_
      obtain ⟨R', rfl⟩ := List.head?_eq_some_iff.1 hhead
      simpa [hij] using hi
  | serve _ k hpc | lack _ k hpc =>
    have hc : s.pendingComp R (.machine j) = R := by simp only [pendingComp, hpc]
    rw [hc]
    by_cases hij : i = j
    · subst hij
      exact h.of_idle (.inr ⟨k, hpc⟩) (by simp [MachinePc.job]) rfl rfl rfl rfl
    · exact h.of_eq (by simp [hij]) rfl rfl rfl rfl (hne hij) id

/-- Main goes on before it wakes the machines. -/
theorem advance {P' R' : List (Fin n)} (h : OnTime parlor es s P R i) (hP : P = [])
    (hm : s.main ≠ .sleeping) (hm' : t.main ≠ .comping) (hm'' : t.main ≠ .sleeping)
    (hpc : t.pc = s.pc) (hsp : t.special = s.special) (hfin : t.finish = s.finish)
    (htmr : t.tmr = s.tmr) : OnTime parlor (es ++ [e]) t P' R' i := by
  have hnote : ∀ x, x ∈ notes es → x ∈ notes (es ++ [e]) :=
    fun x hx => mem_notes_append.2 (.inl hx)
  refine ⟨fun hj => ?_, fun k hk => ?_, fun k hk => ?_, fun k hk => ?_⟩
  · rw [hpc] at hj
    rw [hsp, hfin, htmr]
    exact ⟨(h.idle hj).1, (h.idle hj).2.1, fun _ => (h.idle hj).2.2 hm⟩
  · rw [hpc] at hk
    rw [hsp, hfin, htmr]
    exact ⟨hnote _ (h.took k hk).1, (h.took k hk).2⟩
  · rw [hpc] at hk
    obtain ⟨hta, hf, hor⟩ := h.order k hk
    refine ⟨hnote _ hta, by rw [hfin, hf], .inr (.inl ?_)⟩
    rw [hsp, htmr]
    rcases hor with ⟨-, hs, -⟩ | ⟨hs, -, -, ht⟩ | ⟨hi, -⟩
    · exact (hm hs).elim
    · exact ⟨hs, hm', hm'', ht⟩
    · rw [hP] at hi
      cases hi
  · rw [hpc] at hk
    obtain ⟨hs, u, hta, hst, hf, hor⟩ := h.preparing k hk
    refine ⟨by rw [hsp, hs], u, hnote _ hta, hnote _ hst, by rw [hfin, hf], ?_⟩
    rw [htmr]
    exact hor.imp_right fun heq => ⟨heq.1, fun hs => (hm'' hs).elim⟩

/-- Main chains the machines. -/
theorem chain (h : OnTime parlor es s P R i) (hA : Announced parlor es s)
    (hL : Line parlor s Q H) (hW : Rota parlor s P) (hm : s.main = .chaining)
    (hsp : Spaced s.free s.special (s.workers parlor)) :
    OnTime parlor (es ++ [e]) { s with
      special := fun i => s.special i && decide (i ∉ s.workers parlor)
      wake := Rescan.link (s.chained parlor) s.wake
      machines := semPostNext s.machines (s.chained parlor).head?
      main := .comping } (s.chained parlor) R i := by
  have hnote : ∀ x, x ∈ notes es → x ∈ notes (es ++ [e]) :=
    fun x hx => mem_notes_append.2 (.inl hx)
  have hnil := hW.second (by simp [hm]) (by simp [hm])
  refine ⟨fun hj => ?_, fun k hk => ?_, fun k hk => ?_, fun k hk => ?_⟩
  · obtain ⟨hs, hle, hlt⟩ := h.idle hj
    exact ⟨by simp [hs], hle, fun _ => hlt (by simp [hm])⟩
  · have hact := hL.active i (by rw [show s.pc i = .took k from hk]; rfl)
    rw [hm] at hact
    cases hact
  · have hk : s.pc i = .order k := hk
    obtain ⟨hta, hf, hor⟩ := h.order k hk
    obtain ⟨hs, ht⟩ : s.special i = true ∧ s.tmr = parlor.arrival (parlor.owner k) + 1 := by
      rcases hor with ⟨-, hs, -⟩ | ⟨hs, -, -, ht⟩ | ⟨hi, -⟩
      · rw [hm] at hs
        cases hs
      · exact ⟨hs, ht⟩
      · rw [hnil] at hi
        cases hi
    -- the machine is at work, and main does not pass over it
    have hend : s.tmr ≤ parlor.machineEnd i := by
      have hb := (hA.bound i k _ hta).2
      have hst : parlor.startAt k (parlor.arrival (parlor.owner k)) = s.tmr := by
        rw [ht]
        exact max_eq_right (Nat.le_succ _)
      rw [Parlor.dueAt, hst] at hb
      omega
    have hstart := (hW.begun i (by simp [hk])).1
    have hwork : i ∈ s.workers parlor := by
      simp [workers, working, hstart, hend]
    have hmem : i ∈ s.chained parlor := mem_walk_of_spaced
      ((List.pairwise_lt_finRange n).filter _) hsp hwork ⟨h.not_free_of_order hk, hs⟩
    exact ⟨hnote _ hta, hf, .inr (.inr ⟨hmem, ht, fun hs => by cases hs⟩)⟩
  · obtain ⟨hs, u, hta, hst, hf, hor⟩ := h.preparing k hk
    refine ⟨by simp [hs], u, hnote _ hta, hnote _ hst, hf, ?_⟩
    exact hor.imp_right fun heq => ⟨heq.1, fun hs => by cases hs⟩

/-- Main chains the machines whose ice cream is ready. -/
theorem comp (h : OnTime parlor es s P R i) (hL : Line parlor s Q H) (hm : s.main = .comping) :
    OnTime parlor (es ++ [e]) { s with
      wakeComp := Rescan.link s.ready s.wakeComp
      orderComp := semPostNext s.orderComp s.ready.head?
      main := .sleeping } P s.ready i := by
  have hnote : ∀ x, x ∈ notes es → x ∈ notes (es ++ [e]) :=
    fun x hx => mem_notes_append.2 (.inl hx)
  have hready : s.finish i = s.tmr → i ∈ s.ready := by
    intro hf
    simpa [ParlorState.ready] using hf
  refine ⟨fun hj => ?_, fun k hk => ?_, fun k hk => ?_, fun k hk => ?_⟩
  · obtain ⟨hs, hle, -⟩ := h.idle hj
    exact ⟨hs, hle, fun hm => (hm rfl).elim⟩
  · have hact := hL.active i (by rw [show s.pc i = .took k from hk]; rfl)
    rw [hm] at hact
    cases hact
  · obtain ⟨hta, hf, hor⟩ := h.order k hk
    refine ⟨hnote _ hta, hf, .inr (.inr ?_)⟩
    rcases hor with ⟨-, hs, -⟩ | ⟨-, hs, -⟩ | ⟨hi, ht, -⟩
    · rw [hm] at hs
      cases hs
    · exact (hs hm).elim
    · refine ⟨hi, ht, fun _ hz => hready ?_⟩
      rw [hf, hz, ht]
      push_cast
      ring
  · obtain ⟨hs, u, hta, hst, hf, hor⟩ := h.preparing k hk
    refine ⟨hs, u, hnote _ hta, hnote _ hst, hf, hor.imp_right fun heq => ⟨heq.1, fun _ => ?_⟩⟩
    exact hready (by rw [hf, heq.1])

/-- A new second begins. -/
theorem tick (h : OnTime parlor es s P R i) (hq : s.Quiet) (hP : P = []) (hR : R = [])
    (hm : s.main = .sleeping) :
    OnTime parlor (es ++ [e]) { s with tmr := s.tmr + 1, main := .loop } P R i := by
  have hnote : ∀ x, x ∈ notes es → x ∈ notes (es ++ [e]) :=
    fun x hx => mem_notes_append.2 (.inl hx)
  refine ⟨fun hj => ?_, fun k hk => ?_, fun k hk => ?_, fun k hk => ?_⟩
  · obtain ⟨hs, hle, -⟩ := h.idle hj
    refine ⟨hs, ?_, fun _ => ?_⟩
    · show s.finish i ≤ ((s.tmr + 1 : ℕ) : ℤ)
      omega
    · show s.finish i < ((s.tmr + 1 : ℕ) : ℤ)
      omega
  · have hl := (hq.machine i).2.2.2.1
    rw [show s.pc i = .took k from hk] at hl
    cases hl
  · obtain ⟨hta, hf, hor⟩ := h.order k hk
    refine ⟨hnote _ hta, hf, .inr (.inl ⟨?_, by simp, by simp, ?_⟩)⟩ <;>
      rcases hor with ⟨hs, -, ht⟩ | ⟨-, -, hs, -⟩ | ⟨hi, -⟩
    · exact hs
    · exact (hs hm).elim
    · rw [hP] at hi
      cases hi
    · show s.tmr + 1 = _
      rw [ht]
    · exact (hs hm).elim
    · rw [hP] at hi
      cases hi
  · obtain ⟨hs, u, hta, hst, hf, hor⟩ := h.preparing k hk
    refine ⟨hs, u, hnote _ hta, hnote _ hst, hf, ?_⟩
    rcases hor with hlt | ⟨-, hin⟩
    · show s.tmr + 1 < _ ∨ s.tmr + 1 = _ ∧ _
      rcases (Nat.succ_le_of_lt hlt).lt_or_eq with hlt | heq
      · exact .inl hlt
      · exact .inr ⟨heq, fun hs => by cases hs⟩
    · have := hin hm
      rw [hR] at this
      cases this

theorem step (h : OnTime parlor es s P R i) (hA : Announced parlor es s)
    (hL : Line parlor s Q H) (hW : Rota parlor s P) (hC : Comp s P R) (hsync : Sync s e)
    (hg : Punctual parlor s e) (hs : s.Moves parlor e.1 e.2 t) (ht : t.main.isOpen = true) :
    OnTime parlor (es ++ [e]) t (s.pendingWake parlor P e.1) (s.pendingComp R e.1) i := by
  obtain ⟨th, note⟩ := e
  simp only at hs ⊢
  cases th with
  | machine j => exact h.step_machine hA hL hW hC (sleeping_of_machine hL hW hC hsync hs) hg hs
  | customer c => cases hs <;> exact h.of_eq rfl rfl rfl rfl rfl (fun _ _ => id) id
  | main =>
    cases hs with
    | goOn hm | welcome hm | startAll hm =>
      have hnil := hW.second (by simp [hm]) (by simp [hm])
      refine h.advance hnil ?_ ?_ ?_ rfl rfl rfl rfl <;> simp [hm]
    | chain hm =>
      have hP : s.pendingWake parlor P .main = s.chained parlor := by simp [pendingWake, hm]
      have hR : s.pendingComp R (.main : ParlorThread n p) = R := by simp [pendingComp, hm]
      rw [hP, hR]
      exact h.chain hA hL hW hm (hg.1 rfl hm).1
    | comp hm =>
      have hP : s.pendingWake parlor P .main = P := by simp [pendingWake, hm]
      have hR : s.pendingComp R (.main : ParlorThread n p) = s.ready := by simp [pendingComp, hm]
      rw [hP, hR]
      exact h.comp hL hm
    | tick hm =>
      have hP : s.pendingWake parlor P .main = P := by simp [pendingWake, hm]
      have hR : s.pendingComp R (.main : ParlorThread n p) = R := by simp [pendingComp, hm]
      have hq := hsync.2.2 rfl hm
      have hnil := hW.eq_nil_of_quiet hL hq
      rw [hP, hR]
      exact h.tick hq hnil (hC.eq_nil_of_quiet hnil hq) hm
    | stop | close | closeMachines | closeCustomers => cases ht

end OnTime

/-! ## The announcements -/

namespace Announced

theorem boot : Announced parlor [] (boot parlor) := by
  refine ⟨?_, ?_, ?_, ?_, ?_⟩ <;> simp [notes]

/-- A machine takes an order in time. -/
theorem bound_of_fits {i : Fin n} {k : Fin o} (hf : s.fits parlor i k = true) :
    parlor.arrival (parlor.owner k) ≤ s.tmr ∧ parlor.dueAt k s.tmr ≤ parlor.machineEnd i := by
  simp only [fits, decide_eq_true_eq] at hf
  unfold Parlor.dueAt Parlor.startAt
  rcases hf with ⟨ha, hle⟩ | ⟨ha, hle⟩
  · rw [ha, max_eq_right (Nat.le_succ _)]
    omega
  · rw [max_eq_left ha]
    omega

theorem step_of_notes (h : Announced parlor es s) (hs : s.Moves parlor e.1 e.2 t)
    (hst : ∀ i k u, e.2 = some (.starts i k u) →
      ∃ v, .takes i k v ∈ notes es ∧ u = parlor.startAt k v)
    (hco : ∀ i k u, e.2 = some (.completes i k u) →
      ∃ v, .takes i k v ∈ notes es ∧ u = parlor.dueAt k v) :
    Announced parlor (es ++ [e]) t := by
  have htk : ∀ k, s.taken k = true → t.taken k = true := fun k hk => taken_step hs hk
  -- the order that is taken now
  have hnew : ∀ i k u, e.2 = some (.takes i k u) → s.taken k = false ∧ t.taken k = true ∧
      parlor.arrival (parlor.owner k) ≤ u ∧ parlor.dueAt k u ≤ parlor.machineEnd i := by
    intro i k u he
    obtain ⟨th, note⟩ := e
    simp only at hs he
    subst he
    cases hs with
    | take _ _ hpc hk hp hsh hf => exact ⟨hp.2, by simp, bound_of_fits hf⟩
  refine ⟨fun i k u hu => ?_, fun i j k u v hu hv => ?_, fun i k u hu => ?_, fun i k u hu => ?_,
    fun i k u hu => ?_⟩
  · rcases mem_notes_append.1 hu with hu | hu
    · exact htk k (h.taken i k u hu)
    · exact (hnew i k u hu).2.1
  · rcases mem_notes_append.1 hu with hu | hu <;> rcases mem_notes_append.1 hv with hv | hv
    · exact h.unique i j k u v hu hv
    · have := h.taken i k u hu
      rw [(hnew j k v hv).1] at this
      cases this
    · have := h.taken j k v hv
      rw [(hnew i k u hu).1] at this
      cases this
    · obtain ⟨rfl, -, rfl⟩ := ParlorNote.takes.inj (Option.some.inj (hu.symm.trans hv))
      exact ⟨rfl, rfl⟩
  · rcases mem_notes_append.1 hu with hu | hu
    · exact h.bound i k u hu
    · exact (hnew i k u hu).2.2
  · rcases mem_notes_append.1 hu with hu | hu
    · obtain ⟨v, hv, hv'⟩ := h.starts i k u hu
      exact ⟨v, mem_notes_append.2 (.inl hv), hv'⟩
    · obtain ⟨v, hv, hv'⟩ := hst i k u hu
      exact ⟨v, mem_notes_append.2 (.inl hv), hv'⟩
  · rcases mem_notes_append.1 hu with hu | hu
    · obtain ⟨v, hv, hv'⟩ := h.completes i k u hu
      exact ⟨v, mem_notes_append.2 (.inl hv), hv'⟩
    · obtain ⟨v, hv, hv'⟩ := hco i k u hu
      exact ⟨v, mem_notes_append.2 (.inl hv), hv'⟩

/-- What is started is started in time. -/
theorem start_on_time (h : Announced parlor es s) (hT : ∀ i, OnTime parlor es s P R i)
    (hW : Rota parlor s P) (hs : s.Moves parlor e.1 e.2 t) {i : Fin n} {k : Fin o} {u : ℕ}
    (he : e.2 = some (.starts i k u)) :
    ∃ v, .takes i k v ∈ notes es ∧ u = parlor.startAt k v := by
  obtain ⟨th, note⟩ := e
  simp only at hs he
  subst he
  cases hs with
  | start _ _ hpc ha =>
    have hta := ((hT i).took k hpc).1
    have hle := (h.bound i k _ hta).1
    exact ⟨s.tmr, hta, (max_eq_left (by omega)).symm⟩
  | resume _ _ hpc hb =>
    obtain ⟨hta, -, hor⟩ := (hT i).order k hpc
    have hi := List.mem_of_mem_head? (hW.head_of_machines hb (by simp [hpc]))
    have hnow : s.tmr = parlor.arrival (parlor.owner k) + 1 := by
      rcases hor with ⟨hsp, -⟩ | ⟨hsp, -⟩ | ⟨-, ht, -⟩
      · rw [hW.cleared i hi] at hsp
        cases hsp
      · rw [hW.cleared i hi] at hsp
        cases hsp
      · exact ht
    refine ⟨_, hta, ?_⟩
    rw [hnow]
    exact (max_eq_right (Nat.le_succ _)).symm

/-- What is completed is completed in time. -/
theorem complete_on_time (hT : ∀ i, OnTime parlor es s P R i) (hC : Comp s P R)
    (hs : s.Moves parlor e.1 e.2 t) {i : Fin n} {k : Fin o} {u : ℕ}
    (he : e.2 = some (.completes i k u)) :
    ∃ v, .takes i k v ∈ notes es ∧ u = parlor.dueAt k v := by
  obtain ⟨th, note⟩ := e
  simp only at hs he
  subst he
  cases hs with
  | finish _ _ hpc hb =>
    obtain ⟨-, v, hta, -, hf, -⟩ := (hT i).preparing k hpc
    have hfin := (hC.member i (List.mem_of_mem_head? (hC.head_of_orderComp hb))).1
    exact ⟨v, hta, by omega⟩

theorem step (h : Announced parlor es s) (hT : ∀ i, OnTime parlor es s P R i)
    (hW : Rota parlor s P) (hC : Comp s P R) (hs : s.Moves parlor e.1 e.2 t) :
    Announced parlor (es ++ [e]) t :=
  h.step_of_notes hs (fun _ _ _ => h.start_on_time hT hW hs)
    fun _ _ _ => complete_on_time hT hC hs

end Announced

namespace Follows

theorem step (h : Follows parlor es s) (hA : Announced parlor es s)
    (hT : ∀ i, OnTime parlor es s P R i) (hL : Line parlor s Q H) (hW : Rota parlor s P)
    (hC : Comp s P R) (hs : s.Moves parlor e.1 e.2 t) : Follows parlor (es ++ [e]) t := by
  intro i k u hu
  have hst := fun {v} => hA.start_on_time hT hW hs (i := i) (k := k) (u := v)
  have hco := fun {v} => Announced.complete_on_time hT hC hs (i := i) (k := k) (u := v)
  rcases mem_notes_append.1 hu with hold | hnew
  · have hseen := h i k u hold
    obtain ⟨th, note⟩ := e
    simp only at hs hst hco
    -- a machine that does not move now
    have hkeep : t.pc i = s.pc i → t.pc i = .took k ∨ t.pc i = .order k ∨
        .starts i k (parlor.startAt k u) ∈ notes (es ++ [(th, note)]) ∧
          (t.pc i = .preparing k ∨
            .completes i k (parlor.dueAt k u) ∈ notes (es ++ [(th, note)])) := by
      intro hpc
      rw [hpc]
      refine hseen.imp_right (Or.imp_right fun hd => ⟨mem_notes_append.2 (.inl hd.1), ?_⟩)
      exact hd.2.imp_right fun hd => mem_notes_append.2 (.inl hd)
    -- and one that had completed the order before
    have hdone : s.pc i ≠ .took k → s.pc i ≠ .order k → s.pc i ≠ .preparing k →
        t.pc i = .took k ∨ t.pc i = .order k ∨
        .starts i k (parlor.startAt k u) ∈ notes (es ++ [(th, note)]) ∧
          (t.pc i = .preparing k ∨
            .completes i k (parlor.dueAt k u) ∈ notes (es ++ [(th, note)])) := by
      intro h1 h2 h3
      rcases hseen with hpc | hpc | ⟨hs, hpc | hc⟩
      · exact (h1 hpc).elim
      · exact (h2 hpc).elim
      · exact (h3 hpc).elim
      · exact .inr (.inr ⟨mem_notes_append.2 (.inl hs), .inr (mem_notes_append.2 (.inl hc))⟩)
    cases hs with
    | quit j hpc hb hc | abandon j l hpc hb hc =>
      rw [hL.opened] at hc
      cases hc
    | turnOn j hpc | wake j hpc | acquire j hpc | rest j hpc | serve j l hpc | lack j l hpc
    | take j l hpc =>
      by_cases hij : i = j
      · subst hij
        exact hdone (by simp [hpc]) (by simp [hpc]) (by simp [hpc])
      · exact hkeep (by simp [hij])
    | hold j l hpc =>
      by_cases hij : i = j
      · subst hij
        by_cases hlk : l = k
        · exact .inr (.inl (by simp [hlk]))
        · exact hdone (by simp [hpc, hlk]) (by simp [hpc]) (by simp [hpc])
      · exact hkeep (by simp [hij])
    | start j l hpc | resume j l hpc =>
      by_cases hij : i = j
      · subst hij
        by_cases hlk : l = k
        · subst hlk
          obtain ⟨v, hv, heq⟩ := hst rfl
          obtain ⟨-, rfl⟩ := hA.unique i i l u v hold hv
          exact .inr (.inr ⟨mem_notes_append.2 (.inr (by rw [heq])), .inl (by simp)⟩)
        · exact hdone (by simp [hpc, hlk]) (by simp [hpc, hlk]) (by simp [hpc])
      · exact hkeep (by simp [hij])
    | finish j l hpc =>
      by_cases hij : i = j
      · subst hij
        by_cases hlk : l = k
        · subst hlk
          obtain ⟨v, hv, heq⟩ := hco rfl
          obtain ⟨-, rfl⟩ := hA.unique i i l u v hold hv
          rcases hseen with hpc' | hpc' | ⟨hs, -⟩
          · rw [hpc] at hpc'
            cases hpc'
          · rw [hpc] at hpc'
            cases hpc'
          · exact .inr (.inr ⟨mem_notes_append.2 (.inl hs),
              .inr (mem_notes_append.2 (.inr (by rw [heq])))⟩)
        · exact hdone (by simp [hpc]) (by simp [hpc]) (by simp [hpc, hlk])
      · exact hkeep (by simp [hij])
    | _ => exact hkeep rfl
  · obtain ⟨th, note⟩ := e
    simp only at hs hnew
    subst hnew
    cases hs with
    | take => exact .inl (by simp)

/-- Once the seconds are over, the order is started and completed. -/
theorem kept (h : Follows parlor es s) (hA : Announced parlor es s)
    (hT : ∀ i, OnTime parlor es s P R i) : Over parlor es s.tmr := by
  intro i k u hu
  have hstart : s.pc i = .took k ∨ s.pc i = .order k → s.tmr ≤ parlor.startAt k u := by
    rintro (hpc | hpc)
    · obtain ⟨-, rfl⟩ := hA.unique i i k u s.tmr hu ((hT i).took k hpc).1
      exact le_max_left _ _
    · obtain ⟨hta, -, hor⟩ := (hT i).order k hpc
      refine le_trans ?_ (le_max_right _ _)
      rcases hor with ⟨-, -, ht⟩ | ⟨-, -, -, ht⟩ | ⟨-, ht, -⟩ <;> omega
  have hle : parlor.startAt k u ≤ parlor.dueAt k u := Nat.le_add_right _ _
  rcases h i k u hu with hpc | hpc | ⟨hs, hpc | hc⟩
  · have := hstart (.inl hpc)
    exact ⟨fun hlt => by omega, fun hlt => by omega⟩
  · have := hstart (.inr hpc)
    exact ⟨fun hlt => by omega, fun hlt => by omega⟩
  · obtain ⟨-, v, hv, -, -, hor⟩ := (hT i).preparing k hpc
    obtain ⟨-, rfl⟩ := hA.unique i i k u v hu hv
    exact ⟨fun _ => hs, fun hlt => by omega⟩
  · exact ⟨fun _ => hs, fun _ => hc⟩

end Follows

/-! ## Runs -/

/-- The parlor is closed, or closes now. -/
structure Shut (s : ParlorState n p o q) : Prop where
  main : s.main.isOpen = false
  close : s.main = .closing ∨ s.closeSig = true
  waits : ∀ i, (s.pc i).active = false

/-- Nothing is taken, started or completed any more. -/
theorem Shut.step (h : Shut s) (hsync : Sync s e) (hs : s.Moves parlor e.1 e.2 t) :
    Shut t ∧ t.tmr = s.tmr ∧ ∀ i k u, e.2 ≠ some (.takes i k u) ∧
      e.2 ≠ some (.starts i k u) ∧ e.2 ≠ some (.completes i k u) := by
  obtain ⟨hmain, hclose, hwait⟩ := h
  obtain ⟨th, note⟩ := e
  -- when the parlor closes no other thread moves
  have hcl : th ≠ .main → s.closeSig = true := by
    intro hth
    refine hclose.resolve_left fun hm => ?_
    have := hsync.1 hth
    simp [ParlorState.waits, hm] at this
  simp only at hs
  cases hs with
  | goOn hm | stop hm | welcome hm | startAll hm | chain hm | comp hm | tick hm =>
    rw [hm] at hmain
    cases hmain
  | close hm => exact ⟨⟨rfl, .inr rfl, hwait⟩, rfl, by simp⟩
  | closeMachines hm | closeCustomers hm =>
    refine ⟨⟨rfl, .inr ?_, hwait⟩, rfl, by simp⟩
    exact hclose.resolve_left (by simp [hm])
  | quit i | abandon i =>
    refine ⟨⟨hmain, hclose, fun j => ?_⟩, rfl, by simp⟩
    by_cases hji : j = i
    · simp [hji, MachinePc.active]
    · simpa [hji] using hwait j
  | turnOn i hpc hb hc | skip i hpc hb hc | wake i hpc hb hc | resume i k hpc hb hc
  | finish i k hpc hb hc =>
    rw [hcl (by simp)] at hc
    cases hc
  | acquire i hpc | pass i k hpc | reject i k hpc | take i k hpc | rest i hpc | hold i k hpc
  | start i k hpc | serve i k hpc | lack i k hpc =>
    have := hwait i
    rw [hpc] at this
    cases this
  | _ => exact ⟨⟨hmain, hclose, hwait⟩, rfl, by simp⟩

/-- The state of a run whose steps are punctual, while the parlor is open. -/
def Running (parlor : Parlor n p o q) (es : List (ParlorEvent n p o))
    (s : ParlorState n p o q) : Prop :=
  s.main.isOpen = true ∧ Follows parlor es s ∧ ∃ P R Q H, Line parlor s Q H ∧
    Rota parlor s P ∧ Comp s P R ∧ ∀ i, OnTime parlor es s P R i

theorem Running.step (h : Running parlor es s) (hA : Announced parlor es s) (hsync : Sync s e)
    (hg : Punctual parlor s e) (hs : s.Moves parlor e.1 e.2 t) :
    Announced parlor (es ++ [e]) t ∧
      (Running parlor (es ++ [e]) t ∨ Shut t ∧ Over parlor (es ++ [e]) t.tmr) := by
  obtain ⟨hopen, hF, P, R, Q, H, hL, hW, hC, hT⟩ := h
  have hA' := hA.step hT hW hC hs
  refine ⟨hA', ?_⟩
  by_cases ht : t.main.isOpen = true
  · left
    have hsleep : ∀ i, e.1 = .machine i → s.main = .sleeping := by
      intro i hi
      obtain ⟨th, note⟩ := e
      simp only at hi
      subst hi
      exact sleeping_of_machine hL hW hC hsync hs
    have hmove : s.main = .chaining → e.1 = .main := by
      intro hm
      by_contra hne
      have := hsync.1 hne
      simp [waits, hm] at this
    obtain ⟨Q', H', hL'⟩ := hL.step hsleep hsync hs ht
    refine ⟨ht, hF.step hA hT hL hW hC hs, _, _, Q', H', hL', ?_, ?_,
      fun i => (hT i).step hA hL hW hC hsync hg hs ht⟩
    · exact hW.step hL hsync hs ht (fun hm i hi => (hT i).mem_chained_cases hL hm hi)
        fun hm ho => OnTime.chained_pairwise hT hL hm ((hg.1 (hmove hm) hm).2 ho)
    · exact hC.step hL hW hsync hs ht fun hm i hi => (hT i).mem_ready_cases hL hm hi
  · right
    have hov := hF.kept hA hT
    obtain ⟨th, note⟩ := e
    simp only at hs
    cases hs with
    | stop hm =>
      refine ⟨⟨rfl, .inl rfl, fun i => ?_⟩, ?_⟩
      · by_contra hne
        have := hL.active i (by simpa using hne)
        rw [hm] at this
        cases this
      · simpa [Over, notes] using hov
    | goOn | welcome | startAll | chain | comp | tick => exact (ht rfl).elim
    | close hm | closeMachines hm | closeCustomers hm =>
      rw [hm] at hopen
      cases hopen
    | _ => exact (ht hopen).elim

/-- Along every run of punctual steps. -/
theorem punctual_run (h : Run (Guarded (Step parlor) fun s e => Sync s e ∧ Punctual parlor s e)
    (boot parlor) es s) : Announced parlor es s ∧ Over parlor es s.tmr := by
  suffices hinv : Announced parlor es s ∧
      (Running parlor es s ∨ Shut s ∧ Over parlor es s.tmr) by
    refine ⟨hinv.1, ?_⟩
    rcases hinv.2 with ⟨-, hF, P, R, Q, H, -, -, -, hT⟩ | hov
    · exact hF.kept hinv.1 hT
    · exact hov.2
  induction h with
  | nil =>
    refine ⟨Announced.boot, .inl ⟨rfl, by simp [Follows, notes], [], [], [], none, Line.boot,
      Rota.boot, Comp.boot, OnTime.boot⟩⟩
  | @snoc es s t e _ hs ih =>
    obtain ⟨hA, hR | ⟨hS, hov⟩⟩ := ih
    · exact hR.step hA hs.2.1 hs.2.2 (moves_of_step hs.1)
    · have hm := moves_of_step hs.1
      obtain ⟨hS', htmr, hnone⟩ := hS.step hs.2.1 hm
      refine ⟨hA.step_of_notes hm (fun i k u he => ((hnone i k u).2.1 he).elim)
        (fun i k u he => ((hnone i k u).2.2 he).elim), .inr ⟨hS', fun i k u hu => ?_⟩⟩
      have hu := (mem_notes_append.1 hu).resolve_right (hnone i k u).1
      obtain ⟨hst, hco⟩ := hov i k u hu
      rw [htmr]
      exact ⟨fun hlt => mem_notes_append.2 (.inl (hst hlt)),
        fun hlt => mem_notes_append.2 (.inl (hco hlt))⟩

/-- In every second-synchronous run whose steps are punctual, a machine that takes an ice cream
in second `u` announces its start in second `max u (a + 1)` only, where `a` is the second in
which the customer arrived, and its completion exactly the preparation time later, not after
the machine stops; no other machine does, and both have happened once the second is over. -/
theorem made_on_time
    (h : Run (Guarded (Step parlor) fun s e => Sync s e ∧ Punctual parlor s e)
      (boot parlor) es s) {i : Fin n} {k : Fin o} {u : ℕ} (hu : .takes i k u ∈ notes es) :
    parlor.startAt k u + parlor.ftime k ≤ parlor.machineEnd i ∧
    (∀ j v, .starts j k v ∈ notes es → j = i ∧ v = parlor.startAt k u) ∧
    (∀ j v, .completes j k v ∈ notes es → j = i ∧ v = parlor.startAt k u + parlor.ftime k) ∧
    (parlor.startAt k u < s.tmr → .starts i k (parlor.startAt k u) ∈ notes es) ∧
    (parlor.startAt k u + parlor.ftime k < s.tmr →
      .completes i k (parlor.startAt k u + parlor.ftime k) ∈ notes es) := by
  obtain ⟨hA, hov⟩ := punctual_run h
  refine ⟨(hA.bound i k u hu).2, fun j v hv => ?_, fun j v hv => ?_, (hov i k u hu).1,
    (hov i k u hu).2⟩
  · obtain ⟨w, hw, rfl⟩ := hA.starts j k v hv
    obtain ⟨rfl, rfl⟩ := hA.unique i j k u w hu hw
    exact ⟨rfl, rfl⟩
  · obtain ⟨w, hw, rfl⟩ := hA.completes j k v hv
    obtain ⟨rfl, rfl⟩ := hA.unique i j k u w hu hw
    exact ⟨rfl, rfl⟩

/-- A customer who arrives in second 1 orders `o` ice creams of vanilla. -/
def vanillas (n o : ℕ) : Parlor n 1 o 2 :=
  sundaes n 1 (fun _ => 1) (fun _ => ⟨0, Nat.zero_lt_one⟩) monotone_const (fun _ => false)
    fun _ => []

/-- One machine takes the ice cream in second 1, starts it in second 2 and completes it in
second 3. -/
theorem made_on_time_vanilla : ∃ es s,
    Run (Guarded (Step (vanillas 1 1)) fun s e => Sync s e ∧ Punctual (vanillas 1 1) s e)
      (boot (vanillas 1 1)) es s ∧
    .takes 0 0 1 ∈ notes es ∧ (vanillas 1 1).startAt 0 1 = 2 ∧ .starts 0 0 2 ∈ notes es ∧
    .completes 0 0 3 ∈ notes es := by
  have h : ∃ r ∈ exec (vanillas 1 1) (fun s e => Sync s e ∧ Punctual (vanillas 1 1) s e)
      (boot (vanillas 1 1))
      [.main, .main, .main, .main, .main, .main,
      .main, .main, .main, .main, .main, .customer 0, .machine 0, .machine 0, .machine 0,
      .machine 0, .machine 0, .main,
      .main, .main, .main, .main, .main, .machine 0, .main,
      .main, .main, .main, .main, .main, .machine 0, .machine 0, .customer 0, .customer 0, .main],
      .takes 0 0 1 ∈ notes r.1 ∧ r.2.tmr = 4 := by decide +kernel
  obtain ⟨r, hr, ht, htmr⟩ := h
  obtain ⟨-, -, -, hst, hco⟩ := made_on_time (guarded_of_exec hr) ht
  exact ⟨r.1, r.2, guarded_of_exec hr, ht, by decide, hst (by rw [htmr]; decide),
    hco (by rw [htmr]; decide)⟩

/-- Two machines take an ice cream each in second 1. Main passes over the second one in second
2, and it does not start. -/
theorem not_started_on_time : ∃ es s,
    Run (Guarded (Step (vanillas 2 2)) Sync) (boot (vanillas 2 2)) es s ∧
    .takes 1 1 1 ∈ notes es ∧ (vanillas 2 2).startAt 1 1 = 2 ∧ s.tmr = 3 ∧
    s.closeSig = false ∧ .starts 1 1 2 ∉ notes es := by
  have h : ∃ r ∈ exec (vanillas 2 2) Sync (boot (vanillas 2 2))
      [.main, .main, .main, .main, .main, .main,
      .main, .main, .main, .main, .main, .customer 0, .machine 0, .machine 0, .machine 0,
      .machine 0, .machine 0, .machine 1, .machine 1, .machine 1, .machine 1, .machine 1,
      .machine 1, .main,
      .main, .main, .main, .main, .main, .machine 0, .main],
      .takes 1 1 1 ∈ notes r.1 ∧ r.2.tmr = 3 ∧ r.2.closeSig = false ∧
      .starts 1 1 2 ∉ notes r.1 := by decide +kernel
  obtain ⟨r, hr, ht, htmr, hc, hs⟩ := h
  exact ⟨r.1, r.2, guarded_of_exec hr, ht, by decide, htmr, hc, hs⟩

end ParlorState

end CowPbs
