import Mathlib
import CowPbs.ParlorInv

/-!
# The wake-ups of the machines

The steps of the two chains along which main wakes the machines : those that are free or were
just given an order (`Rota`), and those whose ice cream is ready (`Comp`). What main finds
when it chains them is left to the module on the timing.
-/

open Function Rescan

namespace CowPbs

namespace ParlorState

variable {n p o q : ℕ} {parlor : Parlor n p o q} {s t : ParlorState n p o q}
  {e : ParlorEvent n p o} {P R : List (Fin n)} {Q : List (Fin p)} {H : Option (Fin n)}

/-! ## The machines that are free or were just given an order -/

namespace Rota

variable {i : Fin n} {x : MachinePc o}

theorem eq_nil_of_quiet (h : Rota parlor s P) (hL : Line parlor s Q H) (hq : s.Quiet) :
    P = [] := by
  cases P with
  | nil => rfl
  | cons i P =>
    have hact := hL.not_active_of_quiet hq i
    have hpc : s.pc i ≠ .lock := by
      intro hpc
      rw [hpc] at hact
      cases hact
    have hzero : s.machines i = 0 := by
      refine (hq.machine i).1 ?_
      rcases h.member i List.mem_cons_self with ⟨hoff, -⟩ | hidle | hlock | hord
      · exact .inl hoff
      · exact .inr (.inl hidle)
      · exact (hpc hlock).elim
      · exact .inr (.inr hord)
    have := h.tokens i
    simp [hzero, hpc] at this

/-- The order of who has an order does not depend on the others. -/
theorem exhausted_congr (h : Rota parlor s P) (hov : t.ingredientOver = s.ingredientOver)
    (hord : ∀ j ∈ P, (∃ k, t.pc j = .order k) ↔ ∃ k, s.pc j = .order k)
    (ho : t.ingredientOver = true) :
    P.Pairwise fun i j => (∃ k, t.pc j = .order k) → ∃ k, t.pc i = .order k := by
  rw [hov] at ho
  refine (h.exhausted ho).imp_of_mem fun {a b} ha hb hab => ?_
  rw [hord a ha, hord b hb]
  exact hab

/-- A move that leaves the chain as it is. -/
theorem of_eq (h : Rota parlor s P) (hpc : t.pc = s.pc) (hwake : t.wake = s.wake)
    (hmach : t.machines = s.machines) (hmain : t.main = s.main) (htmr : t.tmr = s.tmr)
    (hov : t.ingredientOver = s.ingredientOver) (hsp : ∀ j ∈ P, t.special j = s.special j) :
    Rota parlor t P where
  linked := by rw [hwake]; exact h.linked
  passed j := by rw [hpc, hwake]; exact h.passed j
  second := by rw [hmain]; exact h.second
  tokens j := by rw [hmach, hpc, htmr, hmain]; exact h.tokens j
  lock j := by rw [hpc]; exact h.lock j
  member j hj := by rw [hpc, htmr]; exact h.member j hj
  cleared j hj := by rw [hsp j hj]; exact h.cleared j hj
  notYet j := by rw [hpc, htmr]; exact h.notYet j
  begun j := by rw [hpc, htmr, hmain]; exact h.begun j
  exhausted := h.exhausted_congr hov fun j _ => by rw [hpc]

/-- A machine outside the chain goes to `x`. -/
theorem move (h : Rota parlor s P) (hi : i ∉ P) (hoff : s.pc i ≠ .off) (hx : x ≠ .off)
    (hxl : x ≠ .lock) (hpass : x.locked = true → s.wake i = none) :
    Rota parlor { s with pc := update s.pc i x } P := by
  have hne : ∀ j ∈ P, j ≠ i := by
    rintro j hj rfl
    exact hi hj
  have hhead : P.head? ≠ some i := fun hh => hi (List.mem_of_mem_head? hh)
  refine ⟨h.linked, fun j hj => ?_, h.second, fun j => ?_, fun j hj => ?_, fun j hj => ?_,
    h.cleared, fun j hj => ?_, fun j hj => ?_, h.exhausted_congr rfl fun j hj => ?_⟩
  · by_cases hji : j = i
    · subst hji
      exact hpass (by simpa using hj)
    · exact h.passed j (by simpa [hji] using hj)
  · by_cases hji : j = i
    · subst hji
      simpa [hhead, hoff, hx] using h.tokens j
    · simpa [hji] using h.tokens j
  · by_cases hji : j = i
    · subst hji
      simp [hxl] at hj
    · exact h.lock j (by simpa [hji] using hj)
  · simpa [hne j hj] using h.member j hj
  · by_cases hji : j = i
    · subst hji
      simp [hx] at hj
    · exact h.notYet j (by simpa [hji] using hj)
  · by_cases hji : j = i
    · rw [hji]
      exact h.begun i hoff
    · exact h.begun j (by simpa [hji] using hj)
  · simp [hne j hj]

/-- The first of the chain passes the wake-up on. -/
theorem pop {m : Fin n → ℕ} (h : Rota parlor s (i :: P)) (hoff : s.pc i ≠ .off)
    (hx : x ≠ .off) (hxl : x ≠ .lock)
    (hm : ∀ j, m j = (if j = i then 0 else s.machines j) + if s.wake i = some j then 1 else 0) :
    Rota parlor { s with
      wake := update s.wake i none, machines := m, pc := update s.pc i x } P := by
  have hiP := h.linked.notMem
  have hnext := h.linked.head
  have hne : ∀ j ∈ P, j ≠ i := by
    rintro j hj rfl
    exact hiP hj
  have hlock : ∀ j, j ≠ i → s.pc j ≠ .lock := by
    intro j hji hj
    exact hji (Option.some.inj (h.lock j hj)).symm
  have hmain : s.main = .comping ∨ s.main = .sleeping := by
    by_contra hm
    rw [not_or] at hm
    cases h.second hm.1 hm.2
  refine ⟨h.linked.tail, fun j hj => ?_, ?_, fun j => ?_, fun j hj => ?_, fun j hj => ?_,
    fun j hj => h.cleared j (by simp [hj]), fun j hj => ?_, fun j hj => ?_, fun ho => ?_⟩
  · by_cases hji : j = i
    · simp [hji]
    · simpa [hji] using h.passed j (by simpa [hji] using hj)
  · intro h1 h2
    rcases hmain with hm | hm
    · exact (h1 hm).elim
    · exact (h2 hm).elim
  · have htok := h.tokens j
    by_cases hji : j = i
    · subst hji
      have hhead : P.head? ≠ some j := fun hh => hiP (List.mem_of_mem_head? hh)
      simp [hm, hnext, hhead, hx]
    · have hl := hlock j hji
      simp only [List.head?_cons, Option.some.injEq, Ne.symm hji, false_and, ↓reduceIte,
        add_zero] at htok
      simp [hm, hji, hnext, htok, hl]
  · by_cases hji : j = i
    · subst hji
      simp [hxl] at hj
    · exact (hlock j hji (by simpa [hji] using hj)).elim
  · simpa [hne j hj] using h.member j (by simp [hj])
  · by_cases hji : j = i
    · subst hji
      simp [hx] at hj
    · exact h.notYet j (by simpa [hji] using hj)
  · by_cases hji : j = i
    · rw [hji]
      exact h.begun i hoff
    · exact h.begun j (by simpa [hji] using hj)
  · refine (List.pairwise_cons.1 (h.exhausted ho)).2.imp_of_mem fun {a b} ha hb hab => ?_
    simpa [hne a ha, hne b hb] using hab

theorem started_of_mem (h : Rota parlor s P) (hi : i ∈ P) : s.main.started = true := by
  cases hm : s.main with
  | chaining | comping | sleeping => rfl
  | _ =>
    rw [h.second (by simp [hm]) (by simp [hm])] at hi
    cases hi

/-- A machine that starts uses the wake-up for its start. -/
theorem turnOn (h : Rota parlor s P) (hpc : s.pc i = .off) (hb : 0 < s.machines i) :
    Rota parlor { s with
      machines := semWait s.machines i, pc := update s.pc i .idle } P := by
  have hstart : parlor.machineStart i = s.tmr ∧ s.main.started = true := by
    by_contra hne
    have htok := h.tokens i
    rw [if_neg fun hh => hne hh.2, zero_add] at htok
    have hhead : P.head? = some i := by
      by_contra hh
      rw [if_neg fun hh' => hh hh'.1] at htok
      omega
    have hmem := List.mem_of_mem_head? hhead
    rcases h.member i hmem with ⟨-, hst⟩ | hidle | hlock | ⟨k, hord⟩
    · exact hne ⟨hst, h.started_of_mem hmem⟩
    all_goals simp_all
  refine ⟨h.linked, fun j hj => ?_, h.second, fun j => ?_, fun j hj => ?_, fun j hj => ?_,
    h.cleared, fun j hj => ?_, fun j hj => ?_, h.exhausted_congr rfl fun j hj => ?_⟩
  · by_cases hji : j = i
    · subst hji
      simp [MachinePc.locked] at hj
    · exact h.passed j (by simpa [hji] using hj)
  · have htok := h.tokens j
    by_cases hji : j = i
    · subst hji
      simp only [hpc, hstart, and_self, ↓reduceIte] at htok
      simp [htok]
    · simpa [hji] using htok
  · by_cases hji : j = i
    · subst hji
      simp at hj
    · exact h.lock j (by simpa [hji] using hj)
  · by_cases hji : j = i
    · simp [hji]
    · simpa [hji] using h.member j hj
  · by_cases hji : j = i
    · subst hji
      simp at hj
    · exact h.notYet j (by simpa [hji] using hj)
  · by_cases hji : j = i
    · rw [hji]
      refine ⟨hstart.1.le, fun hf => ?_⟩
      have hf : s.main.started = false := hf
      rw [hstart.2] at hf
      cases hf
    · exact h.begun j (by simpa [hji] using hj)
  · by_cases hji : j = i
    · simp [hji, hpc]
    · simp [hji]

/-- The first of the chain goes to the lock. -/
theorem wakeUp (h : Rota parlor s P) (hpc : s.pc i = .idle) (hb : 0 < s.machines i) :
    Rota parlor { s with
      machines := semWait s.machines i, pc := update s.pc i .lock } P := by
  have hhead := h.head_of_machines hb (by simp [hpc])
  refine ⟨h.linked, fun j hj => ?_, h.second, fun j => ?_, fun j hj => ?_, fun j hj => ?_,
    h.cleared, fun j hj => ?_, fun j hj => ?_, h.exhausted_congr rfl fun j hj => ?_⟩
  · by_cases hji : j = i
    · subst hji
      simp [MachinePc.locked] at hj
    · exact h.passed j (by simpa [hji] using hj)
  · have htok := h.tokens j
    by_cases hji : j = i
    · subst hji
      simp only [hpc, hhead, reduceCtorEq, false_and, ↓reduceIte] at htok
      simp [htok]
    · simpa [hji] using htok
  · by_cases hji : j = i
    · rw [hji]
      exact hhead
    · exact h.lock j (by simpa [hji] using hj)
  · by_cases hji : j = i
    · simp [hji]
    · simpa [hji] using h.member j hj
  · by_cases hji : j = i
    · subst hji
      simp at hj
    · exact h.notYet j (by simpa [hji] using hj)
  · by_cases hji : j = i
    · rw [hji]
      exact h.begun i (by simp [hpc])
    · exact h.begun j (by simpa [hji] using hj)
  · by_cases hji : j = i
    · simp [hji, hpc]
    · simp [hji]

/-- When the ingredients are over the chain ends at an idle machine. -/
theorem skip (h : Rota parlor s P) (hpc : s.pc i = .idle) (hb : 0 < s.machines i) :
    Rota parlor { s with machines := semWait s.machines i } [] := by
  have hhead := h.head_of_machines hb (by simp [hpc])
  refine ⟨linked_nil _, h.passed, fun _ _ => rfl, fun j => ?_, fun j hj => ?_, by simp, by simp,
    h.notYet, h.begun, fun _ => .nil⟩
  · have htok := h.tokens j
    by_cases hji : j = i
    · subst hji
      simp only [hpc, hhead, reduceCtorEq, false_and, ↓reduceIte] at htok
      simp [htok, hpc]
    · simpa [hji, hhead, Ne.symm hji] using htok
  · have := h.lock j hj
    rw [hhead] at this
    obtain rfl := Option.some.inj this
    have hj : s.pc i = .lock := hj
    rw [hpc] at hj
    cases hj

/-- The machines of this second are started. -/
theorem startAll (h : Rota parlor s P) (hm : s.main = .starting) :
    Rota parlor { s with
      machines := fun i =>
        if parlor.machineStart i = s.tmr then s.machines i + 1 else s.machines i
      main := .chaining } P := by
  obtain rfl := h.second (by simp [hm]) (by simp [hm])
  have hst : s.main.started = false := by rw [hm]; rfl
  refine ⟨h.linked, h.passed, fun _ _ => rfl, fun j => ?_, h.lock, by simp, by simp, h.notYet,
    fun j hj => ⟨(h.begun j hj).1, by simp [ParlorMainPc.started]⟩, fun _ => .nil⟩
  have hz : s.machines j = 0 := by simpa [hst] using h.tokens j
  by_cases hj : parlor.machineStart j = s.tmr
  · -- a machine that starts now has not been started before
    have hoff : s.pc j = .off := by
      by_contra hne
      have := (h.begun j hne).2 hst
      omega
    simp [hj, hz, hoff, ParlorMainPc.started]
  · simp [hj, hz]

/-- Main chains the machines. -/
theorem chain (h : Rota parlor s P) (hm : s.main = .chaining)
    (hmem : ∀ i ∈ s.chained parlor,
      s.pc i = .off ∨ s.pc i = .idle ∨ ∃ k, s.pc i = .order k)
    (hlk : ∀ i, (s.pc i).locked = false)
    (hov : s.ingredientOver = true → (s.chained parlor).Pairwise
      fun i j => (∃ k, s.pc j = .order k) → ∃ k, s.pc i = .order k) :
    Rota parlor { s with
      special := fun i => s.special i && decide (i ∉ s.workers parlor)
      wake := Rescan.link (s.chained parlor) s.wake
      machines := semPostNext s.machines (s.chained parlor).head?
      main := .comping } (s.chained parlor) := by
  obtain rfl := h.second (by simp [hm]) (by simp [hm])
  have hwork : ∀ i ∈ s.chained parlor, i ∈ s.workers parlor := by
    intro i hi
    exact List.mem_of_mem_filter ((Rescan.walk_sublist ..).subset hi)
  refine ⟨linked_link nodup_chained _, fun j hj => ?_, fun hm => (hm rfl).elim, fun j => ?_,
    fun j hj => ?_, fun j hj => ?_, fun j hj => ?_, h.notYet,
    fun j hj => ⟨(h.begun j hj).1, by simp [ParlorMainPc.started]⟩, hov⟩
  · have hj : (s.pc j).locked = true := hj
    rw [hlk j] at hj
    cases hj
  · have hl : s.pc j ≠ .lock := fun hl => by simpa using h.lock j hl
    have htok := h.tokens j
    simp only [hm, List.head?_nil, reduceCtorEq, false_and, ↓reduceIte, add_zero] at htok
    simp [htok, hl, ParlorMainPc.started]
  · have := h.lock j hj
    simp at this
  · rcases hmem j hj with hoff | hidle | hord
    · refine .inl ⟨hoff, le_antisymm ?_ (h.notYet j hoff)⟩
      have := hwork j hj
      simp only [workers, working, List.mem_filter, List.mem_finRange, true_and,
        decide_eq_true_eq] at this
      exact this.1
    · exact .inr (.inl hidle)
    · exact .inr (.inr (.inr hord))
  · simp [hwork j hj]

/-- Main goes on without touching the machines. -/
theorem advance {m : ParlorMainPc} {b : Bool} (h : Rota parlor s P)
    (hP : P = [] ∨ m = .sleeping) (hst : m.started = s.main.started)
    (hov : P = [] ∨ b = s.ingredientOver) :
    Rota parlor { s with ingredientOver := b, main := m } P where
  linked := h.linked
  passed := h.passed
  second _ hm := by
    rcases hP with hP | hP
    · exact hP
    · exact (hm hP).elim
  tokens j := by
    have := h.tokens j
    rwa [← hst] at this
  lock := h.lock
  member := h.member
  cleared := h.cleared
  notYet := h.notYet
  begun j hj := by
    have := h.begun j hj
    rwa [← hst] at this
  exhausted ho := by
    rcases hov with rfl | rfl
    · exact .nil
    · exact h.exhausted ho

/-- A new second begins. -/
theorem tick (h : Rota parlor s P) (hL : Line parlor s Q H) (hm : s.main = .sleeping)
    (hq : s.Quiet) : Rota parlor { s with tmr := s.tmr + 1, main := .loop } P := by
  obtain rfl := h.eq_nil_of_quiet hL hq
  have hst : s.main.started = true := by rw [hm]; rfl
  -- a machine that starts in this second has started
  have hoff : ∀ i, s.pc i = .off → s.tmr < parlor.machineStart i := by
    intro i hi
    refine lt_of_le_of_ne (h.notYet i hi) fun heq => ?_
    have htok := h.tokens i
    rw [(hq.machine i).1 (.inl hi)] at htok
    simp [hi, heq, hst] at htok
  refine ⟨h.linked, h.passed, fun _ _ => rfl, fun j => ?_, h.lock, by simp, by simp,
    fun j hj => hoff j hj, fun j hj => ?_, fun _ => .nil⟩
  · have htok := h.tokens j
    by_cases hj : s.pc j = .off
    · have := hoff j hj
      rw [if_neg fun hh => by omega] at htok
      simpa [ParlorMainPc.started] using htok
    · simpa [hj, ParlorMainPc.started] using htok
  · have := (h.begun j hj).1
    show _ ≤ s.tmr + 1 ∧ (_ → _ < s.tmr + 1)
    omega

/-- A machine that scans, prepares or is done is not in the chain. -/
theorem notMem (h : Rota parlor s P) (hoff : s.pc i ≠ .off) (hidle : s.pc i ≠ .idle)
    (hlock : s.pc i ≠ .lock) (hord : ∀ k, s.pc i ≠ .order k) : i ∉ P := by
  intro hi
  rcases h.member i hi with ⟨hh, -⟩ | hh | hh | ⟨k, hh⟩
  · exact hoff hh
  · exact hidle hh
  · exact hlock hh
  · exact hord k hh

/-- A machine moves. -/
theorem step_machine {note : Option (ParlorNote n p o)} (h : Rota parlor s P)
    (hL : Line parlor s Q H) (hs : s.Moves parlor (.machine i) note t) :
    Rota parlor t (s.pendingWake parlor P (.machine i)) := by
  cases hs with
  | quit _ hpc hb hc | abandon _ k hpc hb hc =>
    rw [hL.opened] at hc
    cases hc
  | turnOn _ hpc hb =>
    simp only [pendingWake, hpc]
    exact h.turnOn hpc hb
  | skip _ hpc hb hc ho =>
    have hP : s.pendingWake parlor P (.machine i) = [] := by simp [pendingWake, hpc, ho]
    rw [hP]
    exact h.skip hpc hb
  | wake _ hpc hb hc ho =>
    have hP : s.pendingWake parlor P (.machine i) = P := by simp [pendingWake, hpc, ho]
    rw [hP]
    exact h.wakeUp hpc hb
  | acquire _ hpc hl =>
    obtain ⟨P, rfl⟩ := List.head?_eq_some_iff.1 (h.lock i hpc)
    simp only [pendingWake, hpc, List.tail_cons]
    have hz : s.machines i = 0 := by simpa [hpc] using h.tokens i
    have := h.pop (x := .scan) (m := semPostNext s.machines (s.wake i)) (by simp [hpc])
      (by simp) (by simp) fun j => by
        by_cases hj : j = i <;> simp [hj, hz]
    exact this.of_eq rfl rfl rfl rfl rfl rfl fun _ _ => rfl
  | resume _ k hpc hb =>
    obtain ⟨P, rfl⟩ := List.head?_eq_some_iff.1 (h.head_of_machines hb (by simp [hpc]))
    simp only [pendingWake, hpc, List.tail_cons]
    have hone : s.machines i = 1 := by simpa [hpc] using h.tokens i
    exact h.pop (by simp [hpc]) (by simp) (by simp) fun j => by
      by_cases hj : j = i <;> simp [hj, hone]
  | take _ k hpc =>
    have hi : i ∉ P := h.notMem (by simp [hpc]) (by simp [hpc]) (by simp [hpc]) (by simp [hpc])
    simp only [pendingWake, hpc]
    have := h.move (x := .took k) hi (by simp [hpc]) (by simp) (by simp)
      fun _ => h.passed i (by rw [hpc]; rfl)
    refine this.of_eq rfl rfl rfl rfl rfl rfl fun j hj => ?_
    have hji : j ≠ i := by
      rintro rfl
      exact hi hj
    simp [hji]
  | start _ k hpc =>
    have hi : i ∉ P := h.notMem (by simp [hpc]) (by simp [hpc]) (by simp [hpc]) (by simp [hpc])
    have hw : s.wake i = none := h.passed i (by rw [hpc]; rfl)
    simp only [pendingWake, hpc]
    have := h.move (x := .preparing k) hi (by simp [hpc]) (by simp) (by simp)
      (by simp [MachinePc.locked])
    refine this.of_eq rfl ?_ ?_ rfl rfl rfl fun _ _ => rfl
    · exact update_eq_self_iff.2 hw.symm
    · simp only [hw]
      rfl
  | rest _ hpc | hold _ k hpc | finish _ k hpc | serve _ k hpc | lack _ k hpc =>
    have hi : i ∉ P := h.notMem (by simp [hpc]) (by simp [hpc]) (by simp [hpc]) (by simp [hpc])
    simp only [pendingWake, hpc]
    exact (h.move hi (by simp [hpc]) (by simp) (by simp) (by simp [MachinePc.locked])).of_eq
      rfl rfl rfl rfl rfl rfl fun _ _ => rfl
  | pass _ k hpc | reject _ k hpc =>
    simp only [pendingWake, hpc]
    exact h.of_eq rfl rfl rfl rfl rfl rfl fun _ _ => rfl

theorem step (h : Rota parlor s P) (hL : Line parlor s Q H) (hsync : Sync s e)
    (hs : s.Moves parlor e.1 e.2 t) (ht : t.main.isOpen = true)
    (hmem : s.main = .chaining → ∀ i ∈ s.chained parlor,
      s.pc i = .off ∨ s.pc i = .idle ∨ ∃ k, s.pc i = .order k)
    (hov : s.main = .chaining → s.ingredientOver = true → (s.chained parlor).Pairwise
      fun i j => (∃ k, s.pc j = .order k) → ∃ k, s.pc i = .order k) :
    Rota parlor t (s.pendingWake parlor P e.1) := by
  obtain ⟨th, note⟩ := e
  simp only at hs ⊢
  cases th with
  | machine i => exact h.step_machine hL hs
  | customer c => cases hs <;> exact h.of_eq rfl rfl rfl rfl rfl rfl fun _ _ => rfl
  | main =>
    cases hs with
    | goOn hm =>
      have hP := h.second (by simp [hm]) (by simp [hm])
      simp only [pendingWake, hm, reduceCtorEq, ↓reduceIte]
      exact h.advance (.inl hP) (by rw [hm]; rfl) (.inl hP)
    | welcome hm =>
      have hP := h.second (by simp [hm]) (by simp [hm])
      simp only [pendingWake, hm, reduceCtorEq, ↓reduceIte]
      exact (h.advance (m := .starting) (.inl hP) (by rw [hm]; rfl) (.inr rfl)).of_eq
        rfl rfl rfl rfl rfl rfl fun _ _ => rfl
    | startAll hm =>
      simp only [pendingWake, hm, reduceCtorEq, ↓reduceIte]
      exact h.startAll hm
    | chain hm =>
      have hlk : ∀ i, (s.pc i).locked = false := by
        intro i
        by_contra hne
        have := hL.sleeping_of_locked (i := i) (by simpa using hne)
        rw [hm] at this
        cases this
      simp only [pendingWake, hm, ↓reduceIte]
      exact h.chain hm (hmem hm) hlk (hov hm)
    | comp hm =>
      simp only [pendingWake, hm, reduceCtorEq, ↓reduceIte]
      exact (h.advance (m := .sleeping) (.inr rfl) (by rw [hm]; rfl) (.inr rfl)).of_eq
        rfl rfl rfl rfl rfl rfl fun _ _ => rfl
    | tick hm =>
      simp only [pendingWake, hm, reduceCtorEq, ↓reduceIte]
      exact h.tick hL hm (hsync.2.2 rfl hm)
    | stop | close | closeMachines | closeCustomers => cases ht

theorem boot : Rota parlor (boot parlor) [] := by
  refine ⟨linked_nil _, ?_, ?_, ?_, ?_, ?_, ?_, ?_, ?_, ?_⟩ <;>
    simp [ParlorState.boot, MachinePc.locked, ParlorMainPc.started]

end Rota

/-! ## The machines whose ice cream is ready -/

namespace Comp

variable {i : Fin n}

theorem eq_nil_of_quiet (h : Comp s P R) (hP : P = []) (hq : s.Quiet) : R = [] := by
  cases R with
  | nil => rfl
  | cons i R =>
    obtain ⟨-, ⟨k, hk⟩ | ⟨hi, -⟩⟩ := h.member i List.mem_cons_self
    · have := h.tokens i
      rw [(hq.machine i).2.2.1 k hk] at this
      simp at this
    · rw [hP] at hi
      cases hi

/-- A move that leaves the chain as it is. -/
theorem of_eq {P' : List (Fin n)} (h : Comp s P R) (hwake : t.wakeComp = s.wakeComp)
    (hsem : t.orderComp = s.orderComp) (hmain : t.main = s.main) (htmr : t.tmr = s.tmr)
    (hmem : ∀ i ∈ R, t.finish i = s.finish i ∧
      ((∃ k, t.pc i = .preparing k) ∨ i ∈ P' ∧ ∃ k, t.pc i = .order k)) : Comp t P' R where
  linked := by rw [hwake]; exact h.linked
  second := by rw [hmain]; exact h.second
  tokens i := by rw [hsem]; exact h.tokens i
  member i hi := by
    rw [(hmem i hi).1, htmr]
    exact ⟨(h.member i hi).1, (hmem i hi).2⟩

/-- A machine that neither prepares nor has an order is not in the chain. -/
theorem notMem (h : Comp s P R) (hprep : ∀ k, s.pc i ≠ .preparing k)
    (hord : ∀ k, s.pc i ≠ .order k) : i ∉ R := by
  intro hi
  obtain ⟨-, ⟨k, hk⟩ | ⟨-, k, hk⟩⟩ := h.member i hi
  · exact hprep k hk
  · exact hord k hk

/-- The first of the chain is told, and tells the next one. -/
theorem finish {k : Fin o} (h : Comp s P R) (hpc : s.pc i = .preparing k)
    (hb : 0 < s.orderComp i) :
    Comp { s with
      status := update s.status k true
      wakeComp := update s.wakeComp i none
      orderComp := semPostNext (semWait s.orderComp i) (s.wakeComp i)
      pc := update s.pc i (.check k) } P R.tail := by
  obtain ⟨R, rfl⟩ := List.head?_eq_some_iff.1 (h.head_of_orderComp hb)
  have hiR := h.linked.notMem
  have hnext := h.linked.head
  refine ⟨h.linked.tail, fun hm => ?_, fun j => ?_, fun j hj => ?_⟩
  · cases h.second hm
  · have htok := h.tokens j
    by_cases hji : j = i
    · have hhead : R.head? ≠ some i := fun hh => hiR (List.mem_of_mem_head? hh)
      simp [hji] at htok
      simp [hji, hnext, hhead, htok]
    · rw [if_neg (by simpa using Ne.symm hji)] at htok
      by_cases hh : R.head? = some j <;> simp [hji, hnext, htok, hh]
  · have hji : j ≠ i := by
      rintro rfl
      exact hiR hj
    simpa [hji] using h.member j (List.mem_cons_of_mem _ hj)

/-- The wake-ups of the machines pass on, and those that have an order stay in their chain. -/
theorem mem_pendingWake {j : Fin n} {k : Fin o} {note : Option (ParlorNote n p o)}
    (hR : Rota parlor s P) (hcl : s.closeSig = false)
    (hs : s.Moves parlor (.machine i) note t) (hji : j ≠ i) (hj : j ∈ P)
    (hpc : s.pc j = .order k) : j ∈ s.pendingWake parlor P (.machine i) := by
  have htail : P.head? = some i → j ∈ P.tail := by
    intro hh
    obtain ⟨P', rfl⟩ := List.head?_eq_some_iff.1 hh
    simpa [hji] using hj
  cases hs with
  | acquire _ hi =>
    simp only [pendingWake, hi]
    exact htail (hR.lock i hi)
  | resume _ l hi hb =>
    simp only [pendingWake, hi]
    exact htail (hR.head_of_machines hb (by simp [hi]))
  | skip _ hi hb hc ho =>
    -- an idle machine comes after those with an order
    obtain ⟨P', rfl⟩ := List.head?_eq_some_iff.1 (hR.head_of_machines hb (by simp [hi]))
    have hj' : j ∈ P' := by simpa [hji] using hj
    obtain ⟨l, hl⟩ := (List.pairwise_cons.1 (hR.exhausted ho)).1 j hj' ⟨k, hpc⟩
    rw [hi] at hl
    cases hl
  | wake _ hi hb hc ho =>
    simp only [pendingWake, hi, ho]
    exact hj
  | quit _ hi hb hc | abandon _ l hi hb hc =>
    rw [hcl] at hc
    cases hc
  | turnOn _ hi | rest _ hi =>
    simp only [pendingWake, hi]
    exact hj
  | pass _ l hi | reject _ l hi | take _ l hi | hold _ l hi | start _ l hi | finish _ l hi
  | serve _ l hi | lack _ l hi =>
    simp only [pendingWake, hi]
    exact hj

/-- A machine moves. -/
theorem step_machine {note : Option (ParlorNote n p o)} (h : Comp s P R)
    (hR : Rota parlor s P) (hcl : s.closeSig = false)
    (hs : s.Moves parlor (.machine i) note t) :
    Comp t (s.pendingWake parlor P (.machine i)) (s.pendingComp R (.machine i)) := by
  -- the machines that do not move stay where they are
  have hmem : ∀ j ∈ R, j ≠ i → (∃ k, s.pc j = .preparing k) ∨
      j ∈ s.pendingWake parlor P (.machine i) ∧ ∃ k, s.pc j = .order k := by
    intro j hj hji
    rcases (h.member j hj).2 with hprep | ⟨hjP, k, hk⟩
    · exact .inl hprep
    · exact .inr ⟨mem_pendingWake hR hcl hs hji hjP hk, k, hk⟩
  -- a machine that neither prepares nor has an order goes elsewhere
  have hmove : ∀ {x : MachinePc o}, i ∉ R → ∀ j ∈ R,
      (∃ k, update s.pc i x j = .preparing k) ∨
        j ∈ s.pendingWake parlor P (.machine i) ∧ ∃ k, update s.pc i x j = .order k := by
    intro x hi j hj
    have hji : j ≠ i := by
      rintro rfl
      exact hi hj
    simpa [hji] using hmem j hj hji
  cases hs with
  | quit _ hpc hb hc | abandon _ k hpc hb hc =>
    rw [hcl] at hc
    cases hc
  | finish _ k hpc hb =>
    have hw : s.pendingWake parlor P (.machine i) = P := by simp only [pendingWake, hpc]
    have hc : s.pendingComp R (.machine i) = R.tail := by simp only [pendingComp, hpc]
    rw [hw, hc]
    exact h.finish hpc hb
  | resume _ k hpc hb =>
    have hc : s.pendingComp R (.machine i) = R := by simp only [pendingComp, hpc]
    rw [hc]
    refine h.of_eq rfl rfl rfl rfl fun j hj => ⟨rfl, ?_⟩
    by_cases hji : j = i
    · exact .inl ⟨k, by simp [hji]⟩
    · simpa [hji] using hmem j hj hji
  | skip _ hpc | pass _ k hpc | reject _ k hpc =>
    have hi : i ∉ R := h.notMem (by simp [hpc]) (by simp [hpc])
    have hc : s.pendingComp R (.machine i) = R := by simp only [pendingComp, hpc]
    rw [hc]
    refine h.of_eq rfl rfl rfl rfl fun j hj => ⟨rfl, hmem j hj ?_⟩
    rintro rfl
    exact hi hj
  | take _ k hpc =>
    have hi : i ∉ R := h.notMem (by simp [hpc]) (by simp [hpc])
    have hc : s.pendingComp R (.machine i) = R := by simp only [pendingComp, hpc]
    rw [hc]
    refine h.of_eq rfl rfl rfl rfl fun j hj => ⟨?_, hmove hi j hj⟩
    have hji : j ≠ i := by
      rintro rfl
      exact hi hj
    simp [hji]
  | turnOn _ hpc | wake _ hpc | acquire _ hpc | rest _ hpc | hold _ k hpc | start _ k hpc
  | serve _ k hpc | lack _ k hpc =>
    have hi : i ∉ R := h.notMem (by simp [hpc]) (by simp [hpc])
    have hc : s.pendingComp R (.machine i) = R := by simp only [pendingComp, hpc]
    rw [hc]
    exact h.of_eq rfl rfl rfl rfl fun j hj => ⟨rfl, hmove hi j hj⟩

theorem step (h : Comp s P R) (hL : Line parlor s Q H) (hR : Rota parlor s P)
    (hsync : Sync s e) (hs : s.Moves parlor e.1 e.2 t) (ht : t.main.isOpen = true)
    (hready : s.main = .comping → ∀ i ∈ s.ready,
      (∃ k, s.pc i = .preparing k) ∨ i ∈ P ∧ ∃ k, s.pc i = .order k) :
    Comp t (s.pendingWake parlor P e.1) (s.pendingComp R e.1) := by
  obtain ⟨th, note⟩ := e
  simp only at hs ⊢
  cases th with
  | machine i => exact h.step_machine hR hL.opened hs
  | customer c =>
    have hkeep : ∀ i ∈ R, s.finish i = s.finish i ∧
        ((∃ k, s.pc i = .preparing k) ∨ i ∈ P ∧ ∃ k, s.pc i = .order k) :=
      fun i hi => ⟨rfl, (h.member i hi).2⟩
    cases hs <;> exact h.of_eq rfl rfl rfl rfl hkeep
  | main =>
    -- until main chains the machines whose ice cream is ready there is none to be told
    have hnil : s.main ≠ .sleeping → s.main ≠ .comping → t.wakeComp = s.wakeComp →
        t.orderComp = s.orderComp →
        Comp t (s.pendingWake parlor P .main) (s.pendingComp R .main) := by
      intro hm hm' hwake hsem
      obtain rfl := h.second hm
      simp only [pendingComp, hm', ↓reduceIte]
      refine ⟨linked_nil _, fun _ => rfl, fun i => ?_, by simp⟩
      rw [hsem]
      exact h.tokens i
    cases hs with
    | goOn hm | welcome hm | startAll hm | chain hm =>
      exact hnil (by simp [hm]) (by simp [hm]) rfl rfl
    | comp hm =>
      obtain rfl := h.second (by simp [hm])
      simp only [pendingWake, pendingComp, hm, reduceCtorEq, ↓reduceIte]
      refine ⟨linked_link nodup_ready _, fun hm => (hm rfl).elim, fun i => ?_, fun i hi => ?_⟩
      · have hz : s.orderComp i = 0 := by simpa using h.tokens i
        simp [hz]
      · exact ⟨by simpa [ParlorState.ready] using hi, hready hm i hi⟩
    | tick hm =>
      have hq := hsync.2.2 rfl hm
      obtain rfl := hR.eq_nil_of_quiet hL hq
      obtain rfl := h.eq_nil_of_quiet rfl hq
      simp only [pendingComp, hm, reduceCtorEq, ↓reduceIte]
      exact ⟨h.linked, fun _ => rfl, h.tokens, by simp⟩
    | stop | close | closeMachines | closeCustomers => cases ht

theorem boot : Comp (boot parlor) [] [] := by
  refine ⟨linked_nil _, fun _ => rfl, ?_, ?_⟩ <;> simp [ParlorState.boot]

end Comp

end ParlorState

end CowPbs
