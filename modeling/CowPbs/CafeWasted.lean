import Mathlib
import CowPbs.CafeInv

/-!
# The wasted coffees

A barista counts a coffee as wasted when it completes it and finds that the customer has
left. Main stops when every customer is served or has left, and does not wait for the
baristas that are still preparing. So the total it prints is the number of coffees that
were started and whose customer left, exactly when no barista is preparing then
(`wasted_exact_iff`).
-/

open Function Transition

namespace CowPbs

namespace CafeState

variable {b n : ℕ}

/-- The coffee that is announced as started. -/
def CafeNote.started : CafeNote b n → Option (Fin n)
  | .starts _ k _ => some k
  | .enters _ _ | .completes _ _ _ | .leaves _ _ | .collects _ _ => none

/-- The customer who is announced to leave without the coffee. -/
def CafeNote.left : CafeNote b n → Option (Fin n)
  | .leaves k _ => some k
  | .enters _ _ | .starts _ _ _ | .completes _ _ _ | .collects _ _ => none

/-- Some barista announced that it started the coffee of `k`. -/
def Started (es : List (CafeEvent b n)) (k : Fin n) : Prop :=
  ∃ e ∈ es, e.2.bind CafeNote.started = some k

/-- Customer `k` announced that it left without the coffee. -/
def Left (es : List (CafeEvent b n)) (k : Fin n) : Prop :=
  ∃ e ∈ es, e.2.bind CafeNote.left = some k

instance (es : List (CafeEvent b n)) : DecidablePred (Started es) :=
  fun _ => inferInstanceAs (Decidable (∃ e ∈ es, _))

instance (es : List (CafeEvent b n)) : DecidablePred (Left es) :=
  fun _ => inferInstanceAs (Decidable (∃ e ∈ es, _))

/-- The coffees that were started and whose customer left without them. -/
def wastedCoffees (es : List (CafeEvent b n)) : Finset (Fin n) :=
  Finset.univ.filter fun k => Started es k ∧ Left es k

variable {cafe : Cafe b n} {s t : CafeState b n} {es : List (CafeEvent b n)}
  {e : CafeEvent b n} {P : List (Fin b)} {k : Fin n}

theorem started_append :
    Started (es ++ [e]) k ↔ Started es k ∨ e.2.bind CafeNote.started = some k := by
  simp [Started, or_and_right, exists_or]

theorem left_append : Left (es ++ [e]) k ↔ Left es k ∨ e.2.bind CafeNote.left = some k := by
  simp [Left, or_and_right, exists_or]

/-- The coffee of `k` is being prepared. -/
def Preparing (s : CafeState b n) (k : Fin n) : Prop :=
  ∃ i, s.pc i = .preparing k

instance (s : CafeState b n) : DecidablePred s.Preparing :=
  fun k => inferInstanceAs (Decidable (∃ i, s.pc i = .preparing k))

/-- What a move does to the coffees : one is started, one is completed, a customer leaves
without it, or nothing. -/
theorem waste_cases (ho : Orders s) (hs : s.Moves cafe e.1 t) (ha : s.announce e.1 = e.2) :
    (∃ k, s.complete k = false ∧ e.2.bind CafeNote.started = some k ∧
      e.2.bind CafeNote.left = none ∧ (∀ j, t.Preparing j ↔ s.Preparing j ∨ j = k) ∧
      t.complete = s.complete ∧ t.cpc = s.cpc ∧ t.wasted = s.wasted) ∨
    (∃ k, s.Preparing k ∧ e.2.bind CafeNote.started = none ∧ e.2.bind CafeNote.left = none ∧
      (∀ j, t.Preparing j ↔ s.Preparing j ∧ j ≠ k) ∧ t.complete = update s.complete k true ∧
      t.cpc = s.cpc ∧ t.wasted = if s.complete k then s.wasted + 1 else s.wasted) ∨
    (∃ k, s.complete k = false ∧ e.2.bind CafeNote.started = none ∧
      e.2.bind CafeNote.left = some k ∧ (∀ j, t.Preparing j ↔ s.Preparing j) ∧
      t.complete = update s.complete k true ∧ t.cpc = update s.cpc k .left ∧
      t.wasted = s.wasted) ∨
    (e.2.bind CafeNote.started = none ∧ e.2.bind CafeNote.left = none ∧
      (∀ j, t.Preparing j ↔ s.Preparing j) ∧ t.complete = s.complete ∧
      (∀ j, t.cpc j = .left ↔ s.cpc j = .left) ∧ t.wasted = s.wasted) := by
  obtain ⟨th, note⟩ := e
  simp only at hs ha
  -- a barista that goes to `pc'` from a place where it prepares nothing
  have hother : ∀ (i : Fin b) (pc' : BaristaPc n), (∀ k, s.pc i ≠ .preparing k) →
      (∀ k, pc' ≠ .preparing k) → ∀ j, (∃ l, update s.pc i pc' l = .preparing j) ↔
        s.Preparing j := by
    intro i pc' hi hpc' j
    refine exists_congr fun l => ?_
    by_cases hl : l = i
    · simp [hl, hi, hpc']
    · simp [hl]
  cases hs with
  | start i k hpc hb hc =>
    refine .inl ⟨k, hc, ?_, ?_, fun j => ?_, rfl, rfl, rfl⟩
    · simp [← ha, announce, hpc, hc, CafeNote.started]
    · simp [← ha, announce, hpc, hc, CafeNote.left]
    · constructor
      · rintro ⟨l, hl⟩
        by_cases hli : l = i
        · simp [hli] at hl
          exact .inr hl.symm
        · exact .inl ⟨l, by simpa [hli] using hl⟩
      · rintro (⟨l, hl⟩ | rfl)
        · have hli : l ≠ i := by
            rintro rfl
            rw [hpc] at hl
            cases hl
          exact ⟨l, by simpa [hli] using hl⟩
        · exact ⟨i, by simp⟩
  | finish i k hpc hoc =>
    refine .inr (.inl ⟨k, ⟨i, hpc⟩, ?_, ?_, fun j => ?_, rfl, rfl, rfl⟩)
    · simp [← ha, announce, hpc, CafeNote.started]
    · simp [← ha, announce, hpc, CafeNote.left]
    · constructor
      · rintro ⟨l, hl⟩
        by_cases hli : l = i
        · simp [hli] at hl
        · have hl' : s.pc l = .preparing j := by simpa [hli] using hl
          refine ⟨⟨l, hl'⟩, ?_⟩
          rintro rfl
          exact hli (ho.unique l i j (by simp [hl', BaristaPc.flag]) (by simp [hpc, BaristaPc.flag]))
      · rintro ⟨⟨l, hl⟩, hjk⟩
        have hli : l ≠ i := by
          rintro rfl
          rw [hpc, BaristaPc.preparing.injEq] at hl
          exact hjk hl.symm
        exact ⟨l, by simpa [hli] using hl⟩
  | leave c hpc hcus hd =>
    refine .inr (.inr (.inl ⟨c, hd, ?_, ?_, fun j => Iff.rfl, rfl, rfl, rfl⟩))
    · simp [← ha, announce, hpc, hd, CafeNote.started]
    · simp [← ha, announce, hpc, hd, CafeNote.left]
  | enter c hpc hcus =>
    refine .inr (.inr (.inr ⟨?_, ?_, fun j => Iff.rfl, rfl, fun j => ?_, rfl⟩))
    · simp [← ha, announce, hpc, CafeNote.started]
    · simp [← ha, announce, hpc, CafeNote.left]
    · by_cases hjc : j = c <;> simp [hjc, hpc]
  | collect c hpc hcus hd =>
    refine .inr (.inr (.inr ⟨?_, ?_, fun j => Iff.rfl, rfl, fun j => ?_, rfl⟩))
    · simp [← ha, announce, hpc, hd, CafeNote.started]
    · simp [← ha, announce, hpc, hd, CafeNote.left]
    · by_cases hjc : j = c <;> simp [hjc, hpc]
  | gone i k hpc hb hc =>
    refine .inr (.inr (.inr ⟨?_, ?_, hother i .idle (by simp [hpc]) (by simp), rfl,
      fun j => Iff.rfl, rfl⟩))
    · simp [← ha, announce, hpc, hc]
    · simp [← ha, announce, hpc, hc]
  | wake i hpc hb =>
    refine .inr (.inr (.inr ⟨?_, ?_, hother i .lock (by simp [hpc]) (by simp), rfl,
      fun j => Iff.rfl, rfl⟩))
    · simp [← ha, announce, hpc]
    · simp [← ha, announce, hpc]
  | take i k hpc hl hk =>
    refine .inr (.inr (.inr ⟨?_, ?_, hother i (.order k) (by simp [hpc]) (by simp), rfl,
      fun j => Iff.rfl, rfl⟩))
    · simp [← ha, announce, hpc]
    · simp [← ha, announce, hpc]
  | rest i hpc hl hk =>
    refine .inr (.inr (.inr ⟨?_, ?_, hother i .idle (by simp [hpc]) (by simp), rfl,
      fun j => Iff.rfl, rfl⟩))
    · simp [← ha, announce, hpc]
    · simp [← ha, announce, hpc]
  | second hm hl =>
    exact .inr (.inr (.inr ⟨by simp [← ha, announce], by simp [← ha, announce], fun j => Iff.rfl,
      rfl, fun j => Iff.rfl, rfl⟩))
  | tick hm hq =>
    exact .inr (.inr (.inr ⟨by simp [← ha, announce], by simp [← ha, announce], fun j => Iff.rfl,
      rfl, fun j => Iff.rfl, rfl⟩))

/-- The coffees that were counted as wasted. -/
def counted (es : List (CafeEvent b n)) (s : CafeState b n) : Finset (Fin n) :=
  Finset.univ.filter fun k : Fin n => Started es k ∧ s.cpc k = .left ∧ ¬s.Preparing k

/-- What the announcements say about the state. -/
structure WasteLog (es : List (CafeEvent b n)) (s : CafeState b n) : Prop where
  left : ∀ k, Left es k ↔ s.cpc k = .left
  started : ∀ k, Started es k → s.Preparing k ∨ s.complete k = true
  preparing : ∀ k, s.Preparing k → Started es k
  wasted : s.wasted = (counted es s).card

namespace WasteLog

theorem boot : WasteLog [] (boot b n) := by
  refine ⟨fun k => ?_, fun k => ?_, fun k => ?_, ?_⟩ <;>
    simp [Left, Started, Preparing, counted, CafeState.boot, loop]

theorem left_step (h : WasteLog es s) (ho : Orders s) (hs : s.Moves cafe e.1 t)
    (ha : s.announce e.1 = e.2) : Left (es ++ [e]) k ↔ t.cpc k = .left := by
  rcases waste_cases ho hs ha with ⟨j, -, -, hl, -, -, hcpc, -⟩ | ⟨j, -, -, hl, -, -, hcpc, -⟩ |
    ⟨j, -, -, hl, -, -, hcpc, -⟩ | ⟨-, hl, -, -, hcpc, -⟩
  · simp [left_append, hl, h.left, hcpc]
  · simp [left_append, hl, h.left, hcpc]
  · rw [left_append, hl, hcpc, h.left]
    by_cases hkj : k = j
    · simp [hkj]
    · simp [hkj, Ne.symm hkj]
  · simp [left_append, hl, h.left, hcpc]

theorem started_step (h : WasteLog es s) (ho : Orders s) (hs : s.Moves cafe e.1 t)
    (ha : s.announce e.1 = e.2) (hk : Started (es ++ [e]) k) :
    t.Preparing k ∨ t.complete k = true := by
  have hold := h.started k
  rcases waste_cases ho hs ha with ⟨j, -, hst, -, hp, hc, -⟩ | ⟨j, -, hst, -, hp, hc, -⟩ |
    ⟨j, -, hst, -, hp, hc, -⟩ | ⟨hst, -, hp, hc, -⟩
  · rw [hp, hc]
    rcases started_append.1 hk with hk | hk
    · exact (hold hk).imp_left .inl
    · exact .inl (.inr (Option.some.inj (hk.symm.trans hst)))
  · rw [hp, hc]
    have hold := hold (by simpa [started_append, hst] using hk)
    by_cases hkj : k = j
    · exact .inr (by simp [hkj])
    · simpa [hkj] using hold
  · rw [hp, hc]
    have hold := hold (by simpa [started_append, hst] using hk)
    by_cases hkj : k = j
    · exact .inr (by simp [hkj])
    · simpa [hkj] using hold
  · rw [hp, hc]
    exact hold (by simpa [started_append, hst] using hk)

theorem preparing_step (h : WasteLog es s) (ho : Orders s) (hs : s.Moves cafe e.1 t)
    (ha : s.announce e.1 = e.2) (hk : t.Preparing k) : Started (es ++ [e]) k := by
  rcases waste_cases ho hs ha with ⟨j, -, hst, -, hp, -⟩ | ⟨j, -, -, -, hp, -⟩ |
    ⟨j, -, -, -, hp, -⟩ | ⟨-, -, hp, -⟩
  · rcases (hp k).1 hk with hk | rfl
    · exact started_append.2 (.inl (h.preparing k hk))
    · exact started_append.2 (.inr hst)
  · exact started_append.2 (.inl (h.preparing k ((hp k).1 hk).1))
  · exact started_append.2 (.inl (h.preparing k ((hp k).1 hk)))
  · exact started_append.2 (.inl (h.preparing k ((hp k).1 hk)))

theorem not_left (hI : Inv cafe s P) (hk : s.complete k = false) : s.cpc k ≠ .left := by
  intro hl
  rw [hI.customers.gone k (.inl hl)] at hk
  cases hk

/-- A coffee that is started, of a customer who has not left, is not counted. -/
theorem counted_start (hI : Inv cafe s P) (hk : s.complete k = false)
    (hst : e.2.bind CafeNote.started = some k)
    (hp : ∀ j, t.Preparing j ↔ s.Preparing j ∨ j = k) (hcpc : t.cpc = s.cpc) :
    counted (es ++ [e]) t = counted es s := by
  have hnl := not_left hI hk
  ext j
  simp only [counted, Finset.mem_filter, Finset.mem_univ, true_and, started_append, hst,
    Option.some.injEq, hp, hcpc, not_or]
  constructor
  · rintro ⟨hj | rfl, hleft, hnp, hne⟩
    · exact ⟨hj, hleft, hnp⟩
    · exact (hnl hleft).elim
  · rintro ⟨hj, hleft, hnp⟩
    exact ⟨.inl hj, hleft, hnp, by rintro rfl; exact hnl hleft⟩

/-- A coffee that is completed is counted if the customer has left. -/
theorem counted_finish (h : WasteLog es s) (hI : Inv cafe s P) (hk : s.Preparing k)
    (hst : e.2.bind CafeNote.started = none)
    (hp : ∀ j, t.Preparing j ↔ s.Preparing j ∧ j ≠ k) (hcpc : t.cpc = s.cpc) (j : Fin n) :
    j ∈ counted (es ++ [e]) t ↔ j ∈ counted es s ∨ (j = k ∧ s.complete k = true) := by
  have hleft : s.cpc k = .left ↔ s.complete k = true := by
    refine ⟨fun hl => hI.customers.gone k (.inl hl), fun hck => ?_⟩
    by_contra hne
    obtain ⟨i, hi⟩ := hk
    exact (hI.customers.served k hne hck).2 i (by simp [hi, BaristaPc.flag])
  simp only [counted, Finset.mem_filter, Finset.mem_univ, true_and, started_append, hst, hp,
    hcpc, reduceCtorEq, or_false, not_and, not_not]
  constructor
  · rintro ⟨hj, hjl, hnp⟩
    by_cases hpj : s.Preparing j
    · obtain rfl := hnp hpj
      exact .inr ⟨rfl, hleft.1 hjl⟩
    · exact .inl ⟨hj, hjl, hpj⟩
  · rintro (⟨hj, hjl, hnp⟩ | ⟨rfl, hck⟩)
    · exact ⟨hj, hjl, fun hpj => (hnp hpj).elim⟩
    · exact ⟨h.preparing j hk, hleft.2 hck, fun _ => rfl⟩

/-- The coffee of a customer who leaves is not started, or still being prepared. -/
theorem counted_leave (h : WasteLog es s) (hI : Inv cafe s P) (hk : s.complete k = false)
    (hst : e.2.bind CafeNote.started = none) (hp : ∀ j, t.Preparing j ↔ s.Preparing j)
    (hcpc : t.cpc = update s.cpc k .left) : counted (es ++ [e]) t = counted es s := by
  ext j
  simp only [counted, Finset.mem_filter, Finset.mem_univ, true_and, started_append, hst, hp,
    hcpc, reduceCtorEq, or_false]
  by_cases hjk : j = k
  · subst hjk
    simp only [update_self, true_and, not_left hI hk, false_and, and_false, iff_false, not_and,
      not_not]
    intro hj
    rcases h.started j hj with hpj | hc
    · exact hpj
    · rw [hk] at hc
      cases hc
  · simp [hjk]

theorem wasted_step (h : WasteLog es s) (hI : Inv cafe s P) (hs : s.Moves cafe e.1 t)
    (ha : s.announce e.1 = e.2) : t.wasted = (counted (es ++ [e]) t).card := by
  rcases waste_cases hI.orders hs ha with ⟨k, hk, hst, -, hp, -, hcpc, hw⟩ |
    ⟨k, hk, hst, -, hp, -, hcpc, hw⟩ | ⟨k, hk, hst, -, hp, -, hcpc, hw⟩ |
    ⟨hst, -, hp, -, hcpc, hw⟩
  · rw [hw, counted_start hI hk hst hp hcpc, h.wasted]
  · have hmem := h.counted_finish hI hk hst hp hcpc
    cases hck : s.complete k with
    | true =>
      have hins : counted (es ++ [e]) t = insert k (counted es s) := by
        ext j
        simp [hmem, hck, or_comm]
      have hnot : k ∉ counted es s := by simp [counted, hk]
      rw [hins, Finset.card_insert_of_notMem hnot, hw, if_pos hck, h.wasted]
    | false =>
      have hsame : counted (es ++ [e]) t = counted es s := by
        ext j
        simp [hmem, hck]
      rw [hsame, hw, if_neg (by simp [hck]), h.wasted]
  · rw [hw, h.counted_leave hI hk hst hp hcpc, h.wasted]
  · have hsame : counted (es ++ [e]) t = counted es s := by
      ext j
      simp [counted, started_append, hst, hp, hcpc]
    rw [hw, hsame, h.wasted]

theorem step (h : WasteLog es s) (hI : Inv cafe s P) (hs : s.Moves cafe e.1 t)
    (ha : s.announce e.1 = e.2) : WasteLog (es ++ [e]) t where
  left _ := h.left_step hI.orders hs ha
  started _ := h.started_step hI.orders hs ha
  preparing _ := h.preparing_step hI.orders hs ha
  wasted := h.wasted_step hI hs ha

theorem run (h : Run (Step cafe) (CafeState.boot b n) es s) :
    (∃ P, Inv cafe s P) ∧ WasteLog es s := by
  induction h with
  | nil => exact ⟨⟨[], Inv.boot cafe⟩, boot⟩
  | snoc _ hs ih =>
    obtain ⟨⟨P, hI⟩, hlog⟩ := ih
    have hm := moves_of_move hs.1
    exact ⟨⟨_, hI.step hm⟩, hlog.step hI hm hs.2⟩

end WasteLog

/-- When main is done, the customers of the coffees still being prepared have left. -/
theorem left_of_done (hI : Inv cafe s P) (hall : ∀ c, s.complete c = true) (hk : s.Preparing k) :
    s.cpc k = .left := by
  by_contra hne
  obtain ⟨i, hi⟩ := hk
  exact (hI.customers.served k hne (hall k)).2 i (by simp [hi, BaristaPc.flag])

/-- Main is done only when every customer is served or has left. -/
theorem complete_of_done (h : Run (Step cafe) (boot b n) es s) (c : Fin n) :
    s.main = .done → s.complete c = true := by
  induction h with
  | nil =>
    intro hd
    simp only [boot, loop, customerRemaining] at hd
    split_ifs at hd with hr
    exact (hr (by simpa using ⟨c⟩)).elim
  | @snoc _ _ _ e _ hs ih =>
    intro hd
    obtain ⟨th, note⟩ := e
    cases moves_of_move hs.1 with
    | second hm hl => cases hd
    | tick hm hq =>
      by_contra hc
      have hr : customerRemaining _ = true := decide_eq_true ⟨c, by simpa using hc⟩
      simp only [hr, ↓reduceIte, reduceCtorEq] at hd
    | finish i k hpc ho =>
      by_cases hck : c = k
      · simp [hck]
      · simpa [hck] using ih hd
    | leave d hpc hc hcd =>
      by_cases hcd : c = d
      · simp [hcd]
      · simpa [hcd] using ih hd
    | _ => exact ih hd

/-- In every run that comes to its end, the total of wasted coffees that main prints is the
number of coffees that were started and whose customer left without them, if and only if no
barista is preparing a coffee when main leaves its loop. -/
theorem wasted_exact_iff (h : Run (Step cafe) (boot b n) es s) (hd : s.main = .done) :
    s.wasted = (wastedCoffees es).card ↔ ∀ i k, s.pc i ≠ .preparing k := by
  obtain ⟨⟨P, hI⟩, hlog⟩ := WasteLog.run h
  have hall := fun c => complete_of_done h c hd
  have hsub : counted es s ⊆ wastedCoffees es := by
    intro k hk
    simp only [counted, Finset.mem_filter, Finset.mem_univ, true_and] at hk
    simp [wastedCoffees, hk.1, hlog.left, hk.2.1]
  rw [hlog.wasted]
  constructor
  · intro hcard i k hi
    have heq := Finset.eq_of_subset_of_card_le hsub hcard.ge
    have hk : s.Preparing k := ⟨i, hi⟩
    have hmem : k ∈ wastedCoffees es := by
      simp [wastedCoffees, hlog.left, hlog.preparing k hk, left_of_done hI hall hk]
    rw [← heq] at hmem
    simp [counted, hk] at hmem
  · intro hnone
    congr 1
    refine hsub.antisymm fun k hk => ?_
    simp only [wastedCoffees, Finset.mem_filter, Finset.mem_univ, true_and, hlog.left] at hk
    simp [counted, hk, Preparing, hnone]

/-- One barista, and one customer with the given tolerance time. -/
def oneTea (ftime tolTime : ℕ) : Cafe 1 1 where
  menu := [("tea", ftime)]
  customer _ := ⟨"tea", 0, tolTime⟩
  sorted _ _ _ := le_rfl
  listed _ := by simp

/-- The customer is served : nothing is wasted. -/
theorem wasted_exact_served : ∃ es s, Run (Step (oneTea 1 9)) (boot 1 1) es s ∧
    s.main = .done ∧ (∀ i k, s.pc i ≠ .preparing k) ∧ s.wasted = (wastedCoffees es).card := by
  have h : ∃ r ∈ exec (oneTea 1 9) (fun _ _ => True) (boot 1 1)
      [.main, .customer 0, .barista 0, .barista 0, .main,
      .main, .barista 0, .main,
      .main, .barista 0, .barista 0, .barista 0, .customer 0, .main],
      r.2.main = .done ∧ ∀ i k, r.2.pc i ≠ .preparing k := by decide
  obtain ⟨r, hr, hd, hp⟩ := h
  exact ⟨r.1, r.2, run_of_exec hr, hd, hp, (wasted_exact_iff (run_of_exec hr) hd).2 hp⟩

/-- The customer leaves while the coffee is prepared, and main stops : a coffee is wasted, and
none is counted. -/
theorem wasted_not_counted : ∃ es s, Run (Step (oneTea 5 1)) (boot 1 1) es s ∧
    s.main = .done ∧ s.wasted = 0 ∧ (wastedCoffees es).card = 1 := by
  have h : ∃ r ∈ exec (oneTea 5 1) (fun _ _ => True) (boot 1 1)
      [.main, .customer 0, .barista 0, .barista 0, .main,
      .main, .barista 0, .main,
      .main, .customer 0, .main],
      r.2.main = .done ∧ r.2.wasted = 0 ∧ (wastedCoffees r.1).card = 1 := by decide
  obtain ⟨r, hr, hd, hw, hc⟩ := h
  exact ⟨r.1, r.2, run_of_exec hr, hd, hw, hc⟩

end CafeState

end CowPbs
