import Mathlib
import CowPbs.ParlorOrders

/-!
# The seats of the parlor

`current_customers` counts who is in the parlor. It never exceeds the capacity, but a
customer who leaves gives the seat free at once : whoever arrives later in the same second
gets it, and who arrives earlier in it does not. A seat should be free from the next second
on. In a run the customers are turned away as they should be exactly when at each arrival
nobody has left in this second so far, or there is a seat also without theirs (`seats_iff`).
-/

open Function Rescan Transition

namespace CowPbs

namespace ParlorNote

variable {n p o : ℕ}

/-- The customer who arrives. -/
def arrives : ParlorNote n p o → Option (Fin p × ℕ)
  | enters c t | full c t | refused c t => some (c, t)
  | takes .. | rejects .. | starts .. | completes .. | leaves .. | collects .. => none

/-- The customer who gets a seat. -/
def seated : ParlorNote n p o → Option (Fin p)
  | enters c _ => some c
  | takes .. | rejects .. | starts .. | completes .. | full .. | refused .. | leaves .. |
    collects .. => none

/-- The customer who gives a seat free, with the second. -/
def leaver : ParlorNote n p o → Option (Fin p × ℕ)
  | leaves c t | collects c t => some (c, t)
  | takes .. | rejects .. | starts .. | completes .. | enters .. | full .. | refused .. => none

end ParlorNote

namespace ParlorState

variable {n p o q : ℕ} {parlor : Parlor n p o q} {s t : ParlorState n p o q}
  {es : List (ParlorEvent n p o)} {e : ParlorEvent n p o} {c : Fin p}

/-- The customers who entered. -/
def seatedIn (es : List (ParlorEvent n p o)) : List (Fin p) :=
  (notes es).filterMap ParlorNote.seated

/-- The customers who left, with the second. -/
def leavers (es : List (ParlorEvent n p o)) : List (Fin p × ℕ) :=
  (notes es).filterMap ParlorNote.leaver

/-- The customers who entered and did not leave in a second before `t`. -/
def seats (es : List (ParlorEvent n p o)) (t : ℕ) : Finset (Fin p) :=
  Finset.univ.filter fun c => c ∈ seatedIn es ∧ ∀ x ∈ leavers es, x.1 = c → t ≤ x.2

/-- The customers who entered and did not leave. -/
def inside (es : List (ParlorEvent n p o)) : Finset (Fin p) :=
  Finset.univ.filter fun c => c ∈ seatedIn es ∧ ∀ x ∈ leavers es, x.1 ≠ c

/-- At each arrival, the customer is turned away when all seats are taken, those included that
were given free in this second. -/
def SeatsKept (k : ℕ) (es : List (ParlorEvent n p o)) : Prop :=
  Along (fun pre e => ∀ x ∈ e.2, ∀ y ∈ x.arrives,
    (x = .full y.1 y.2 ↔ (seats pre y.2).card = k)) es

/-- At each arrival, nobody has left in this second so far, or there is a seat that was not
taken in this second. -/
def NoSeatFreed (k : ℕ) (es : List (ParlorEvent n p o)) : Prop :=
  Along (fun pre e => ∀ x ∈ e.2, ∀ y ∈ x.arrives,
    (∀ z ∈ leavers pre, z.2 ≠ y.2) ∨ (seats pre y.2).card < k) es

instance (k : ℕ) (es : List (ParlorEvent n p o)) : Decidable (SeatsKept k es) :=
  inferInstanceAs (Decidable (Along _ es))

instance (k : ℕ) (es : List (ParlorEvent n p o)) : Decidable (NoSeatFreed k es) :=
  inferInstanceAs (Decidable (Along _ es))

theorem mem_seatedIn_append :
    c ∈ seatedIn (es ++ [e]) ↔ c ∈ seatedIn es ∨ e.2.bind ParlorNote.seated = some c := by
  obtain ⟨th, note⟩ := e
  cases note with
  | none => simp [seatedIn, notes]
  | some x =>
    cases h : x.seated <;> simp [seatedIn, notes, h, eq_comm]

theorem mem_leavers_append {x : Fin p × ℕ} :
    x ∈ leavers (es ++ [e]) ↔ x ∈ leavers es ∨ e.2.bind ParlorNote.leaver = some x := by
  obtain ⟨th, note⟩ := e
  cases note with
  | none => simp [leavers, notes]
  | some y =>
    cases h : y.leaver <;> simp [leavers, notes, h, eq_comm]

theorem mem_seats {u : ℕ} :
    c ∈ seats es u ↔ c ∈ seatedIn es ∧ ∀ x ∈ leavers es, x.1 = c → u ≤ x.2 := by
  simp [seats]

theorem mem_inside : c ∈ inside es ↔ c ∈ seatedIn es ∧ ∀ x ∈ leavers es, x.1 ≠ c := by
  simp [inside]

theorem inside_subset_seats (u : ℕ) : inside es ⊆ seats es u := by
  intro c hc
  rw [mem_inside] at hc
  exact mem_seats.2 ⟨hc.1, fun x hx hxc => (hc.2 x hx hxc).elim⟩

/-- What the counter stands for. -/
structure Seats (parlor : Parlor n p o q) (es : List (ParlorEvent n p o))
    (s : ParlorState n p o q) : Prop where
  count : s.currentCustomers = (inside es).card
  le : s.currentCustomers ≤ parlor.k
  outside : ∀ c, s.cpc c = .outside → c ∉ seatedIn es
  entered : ∀ c, s.cpc c = .waiting ∨ s.cpc c = .toCollect → c ∈ inside es
  past : ∀ x ∈ leavers es, x.2 ≤ s.tmr ∧ x.1 ∈ seatedIn es
  once : ∀ x ∈ leavers es, ∀ y ∈ leavers es, x.1 = y.1 → x = y

/-- A move that gives and frees no seat. -/
structure SeatNeutral (s : ParlorState n p o q) (e : ParlorEvent n p o)
    (t : ParlorState n p o q) : Prop where
  seated : e.2.bind ParlorNote.seated = none
  leaver : e.2.bind ParlorNote.leaver = none
  count : t.currentCustomers = s.currentCustomers
  tmr : s.tmr ≤ t.tmr
  outside : ∀ c, t.cpc c = .outside → s.cpc c = .outside
  entered : ∀ c, t.cpc c = .waiting ∨ t.cpc c = .toCollect →
    s.cpc c = .waiting ∨ s.cpc c = .toCollect

/-- The customer `c` gets a seat. -/
structure SeatGiven (parlor : Parlor n p o q) (s : ParlorState n p o q) (e : ParlorEvent n p o)
    (t : ParlorState n p o q) (c : Fin p) : Prop where
  note : e.2 = some (.enters c s.tmr)
  outside : s.cpc c = .outside
  free : s.currentCustomers ≠ parlor.k
  count : t.currentCustomers = s.currentCustomers + 1
  tmr : t.tmr = s.tmr
  cpc : t.cpc = update s.cpc c .waiting

/-- The customer `c` gives its seat free. -/
structure SeatFreed (s : ParlorState n p o q) (e : ParlorEvent n p o)
    (t : ParlorState n p o q) (c : Fin p) : Prop where
  seated : e.2.bind ParlorNote.seated = none
  leaver : e.2.bind ParlorNote.leaver = some (c, s.tmr)
  entered : s.cpc c = .waiting ∨ s.cpc c = .toCollect
  count : t.currentCustomers = s.currentCustomers - 1
  tmr : t.tmr = s.tmr
  cpc : ∃ pc, t.cpc = update s.cpc c pc ∧ (pc = .left ∨ pc = .collected)

/-- What a move does to the seats. -/
theorem seat_step (hs : s.Moves parlor e.1 e.2 t) :
    SeatNeutral s e t ∨ (∃ c, SeatGiven parlor s e t c) ∨ ∃ c, SeatFreed s e t c := by
  obtain ⟨th, note⟩ := e
  simp only at hs
  cases hs with
  | enter c hpc hb hcl hk => exact .inr (.inl ⟨c, rfl, hpc, hk, rfl, rfl, rfl⟩)
  | leave c hpc =>
    exact .inr (.inr ⟨c, rfl, rfl, .inl hpc, rfl, rfl, _, rfl, .inl rfl⟩)
  | collect c hpc =>
    exact .inr (.inr ⟨c, rfl, rfl, .inr hpc, rfl, rfl, _, rfl, .inr rfl⟩)
  | tick => exact .inl ⟨rfl, rfl, rfl, Nat.le_succ _, fun _ h => h, fun _ h => h⟩
  | turnAway c hpc | full c hpc | refuse c hpc | turnOut c hpc | call c hpc =>
    exact .inl ⟨rfl, rfl, rfl, le_rfl, fun d hd => by grind [update_apply],
      fun d hd => by grind [update_apply]⟩
  | _ => exact .inl ⟨rfl, rfl, rfl, le_rfl, fun _ h => h, fun _ h => h⟩

section Neutral

variable (h : SeatNeutral s e t)

include h

theorem SeatNeutral.seatedIn_append : c ∈ seatedIn (es ++ [e]) ↔ c ∈ seatedIn es := by
  simp [mem_seatedIn_append, h.seated]

theorem SeatNeutral.leavers_append {x : Fin p × ℕ} :
    x ∈ leavers (es ++ [e]) ↔ x ∈ leavers es := by
  simp [mem_leavers_append, h.leaver]

theorem SeatNeutral.inside_append : inside (es ++ [e]) = inside es := by
  ext c
  simp only [mem_inside, h.seatedIn_append, h.leavers_append]

theorem SeatNeutral.seats_append (u : ℕ) : seats (es ++ [e]) u = seats es u := by
  ext c
  simp only [mem_seats, h.seatedIn_append, h.leavers_append]

end Neutral

theorem SeatGiven.leavers_append (h : SeatGiven parlor s e t c) {x : Fin p × ℕ} :
    x ∈ leavers (es ++ [e]) ↔ x ∈ leavers es := by
  simp [mem_leavers_append, h.note, ParlorNote.leaver]

theorem SeatGiven.seatedIn_append (h : SeatGiven parlor s e t c) {d : Fin p} :
    d ∈ seatedIn (es ++ [e]) ↔ d ∈ seatedIn es ∨ c = d := by
  simp [mem_seatedIn_append, h.note, ParlorNote.seated]

theorem SeatFreed.leavers_append (h : SeatFreed s e t c) {x : Fin p × ℕ} :
    x ∈ leavers (es ++ [e]) ↔ x ∈ leavers es ∨ x = (c, s.tmr) := by
  simp [mem_leavers_append, h.leaver, eq_comm]

theorem SeatFreed.seatedIn_append (h : SeatFreed s e t c) {d : Fin p} :
    d ∈ seatedIn (es ++ [e]) ↔ d ∈ seatedIn es := by
  simp [mem_seatedIn_append, h.seated]

namespace Seats

theorem boot : Seats parlor [] (boot parlor) := by
  refine ⟨?_, ?_, ?_, ?_, ?_, ?_⟩ <;>
    simp [ParlorState.boot, inside, seatedIn, leavers, notes]

/-- Who gets a seat is inside : a customer who is outside has not left before. -/
theorem inside_given (h : Seats parlor es s) (hg : SeatGiven parlor s e t c) :
    inside (es ++ [e]) = insert c (inside es) := by
  have hc : ∀ x ∈ leavers es, x.1 ≠ c := by
    rintro x hx rfl
    exact h.outside _ hg.outside (h.past x hx).2
  ext d
  rw [Finset.mem_insert, mem_inside, mem_inside, hg.seatedIn_append]
  simp only [hg.leavers_append]
  constructor
  · rintro ⟨hd | rfl, hl⟩
    · exact .inr ⟨hd, hl⟩
    · exact .inl rfl
  · rintro (rfl | ⟨hd, hl⟩)
    · exact ⟨.inr rfl, hc⟩
    · exact ⟨.inl hd, hl⟩

theorem inside_freed (hf : SeatFreed s e t c) : inside (es ++ [e]) = (inside es).erase c := by
  ext d
  rw [Finset.mem_erase, mem_inside, mem_inside, hf.seatedIn_append]
  simp only [hf.leavers_append]
  constructor
  · rintro ⟨hd, hl⟩
    exact ⟨fun hdc => hl _ (.inr rfl) hdc.symm, hd, fun x hx => hl x (.inl hx)⟩
  · rintro ⟨hdc, hd, hl⟩
    refine ⟨hd, ?_⟩
    rintro x (hx | rfl)
    · exact hl x hx
    · exact Ne.symm hdc

theorem step_neutral (h : Seats parlor es s) (hn : SeatNeutral s e t) :
    Seats parlor (es ++ [e]) t where
  count := by rw [hn.count, hn.inside_append, h.count]
  le := by rw [hn.count]; exact h.le
  outside d hd := by
    rw [hn.seatedIn_append]
    exact h.outside d (hn.outside d hd)
  entered d hd := by
    rw [hn.inside_append]
    exact h.entered d (hn.entered d hd)
  past x hx := by
    obtain ⟨hle, hin⟩ := h.past x (hn.leavers_append.1 hx)
    exact ⟨hle.trans hn.tmr, hn.seatedIn_append.2 hin⟩
  once x hx y hy := h.once x (hn.leavers_append.1 hx) y (hn.leavers_append.1 hy)

theorem step_given (h : Seats parlor es s) (hg : SeatGiven parlor s e t c) :
    Seats parlor (es ++ [e]) t where
  count := by
    have hc : c ∉ inside es := fun hc => h.outside c hg.outside (mem_inside.1 hc).1
    rw [hg.count, h.inside_given hg, Finset.card_insert_of_notMem hc, h.count]
    push_cast
    rfl
  le := by
    have hle := h.le
    have hne := hg.free
    rw [hg.count]
    omega
  outside d hd := by
    rw [hg.cpc, update_apply] at hd
    split_ifs at hd with hdc
    rw [hg.seatedIn_append]
    rintro (hin | rfl)
    · exact h.outside d hd hin
    · exact hdc rfl
  entered d hd := by
    rw [h.inside_given hg]
    rw [hg.cpc, update_apply] at hd
    split_ifs at hd with hdc
    · exact Finset.mem_insert.2 (.inl hdc)
    · exact Finset.mem_insert_of_mem (h.entered d hd)
  past x hx := by
    obtain ⟨hle, hin⟩ := h.past x (hg.leavers_append.1 hx)
    exact ⟨by rw [hg.tmr]; exact hle, hg.seatedIn_append.2 (.inl hin)⟩
  once x hx y hy := h.once x (hg.leavers_append.1 hx) y (hg.leavers_append.1 hy)

theorem step_freed (h : Seats parlor es s) (hf : SeatFreed s e t c) :
    Seats parlor (es ++ [e]) t := by
  have hin : c ∈ inside es := h.entered c hf.entered
  obtain ⟨pc, hcpc, hpc⟩ := hf.cpc
  have hout : pc ≠ .outside ∧ pc ≠ .waiting ∧ pc ≠ .toCollect := by
    rcases hpc with rfl | rfl <;> simp
  refine ⟨?_, ?_, fun d hd => ?_, fun d hd => ?_, fun x hx => ?_, fun x hx y hy hxy => ?_⟩
  · have hpos : 0 < (inside es).card := Finset.card_pos.2 ⟨c, hin⟩
    rw [hf.count, inside_freed hf, Finset.card_erase_of_mem hin, h.count]
    omega
  · have := h.le
    rw [hf.count]
    omega
  · rw [hcpc, update_apply] at hd
    split_ifs at hd with hdc
    · exact (hout.1 hd).elim
    · rw [hf.seatedIn_append]
      exact h.outside d hd
  · rw [hcpc, update_apply] at hd
    split_ifs at hd with hdc
    · rcases hd with hd | hd
      · exact (hout.2.1 hd).elim
      · exact (hout.2.2 hd).elim
    · rw [inside_freed hf]
      exact Finset.mem_erase.2 ⟨hdc, h.entered d hd⟩
  · rw [hf.seatedIn_append, hf.tmr]
    rcases hf.leavers_append.1 hx with hx | rfl
    · exact h.past x hx
    · exact ⟨le_rfl, (mem_inside.1 hin).1⟩
  · -- who leaves has not left before
    have hfresh : ∀ x ∈ leavers es, x.1 ≠ c := (mem_inside.1 hin).2
    rcases hf.leavers_append.1 hx with hx | rfl <;> rcases hf.leavers_append.1 hy with hy | rfl
    · exact h.once x hx y hy hxy
    · exact (hfresh x hx hxy).elim
    · exact (hfresh y hy hxy.symm).elim
    · rfl

theorem step (h : Seats parlor es s) (hs : s.Moves parlor e.1 e.2 t) :
    Seats parlor (es ++ [e]) t := by
  rcases seat_step hs with hn | ⟨c, hg⟩ | ⟨c, hf⟩
  · exact h.step_neutral hn
  · exact h.step_given hg
  · exact h.step_freed hf

theorem run (h : Run (Step parlor) (ParlorState.boot parlor) es s) : Seats parlor es s := by
  induction h with
  | nil => exact boot
  | snoc _ hs ih => exact ih.step (moves_of_step hs)

end Seats

/-- Who arrives does so now, and is turned away when the counter is at the capacity. -/
theorem arrival_step {x : ParlorNote n p o} {y : Fin p × ℕ} (hs : s.Moves parlor e.1 e.2 t)
    (hx : x ∈ e.2) (hy : y ∈ x.arrives) :
    y.2 = s.tmr ∧ (x = .full y.1 y.2 ↔ s.currentCustomers = parlor.k) := by
  obtain ⟨th, note⟩ := e
  simp only at hs hx
  obtain rfl := Option.mem_def.1 hx
  cases hs with
  | full c hpc hb hcl hk =>
    obtain rfl := Option.some.inj hy
    exact ⟨rfl, by simp [hk]⟩
  | refuse c hpc hb hcl hk =>
    obtain rfl := Option.some.inj hy
    exact ⟨rfl, by simp [hk]⟩
  | enter c hpc hb hcl hk =>
    obtain rfl := Option.some.inj hy
    exact ⟨rfl, by simp [hk]⟩
  | reject | take | start | resume | finish | leave | collect => cases hy

namespace Seats

/-- If nobody left in this second the seats are those of the customers inside. -/
theorem seats_eq_inside (h : Seats parlor es s) (hz : ∀ z ∈ leavers es, z.2 ≠ s.tmr) :
    seats es s.tmr = inside es := by
  ext c
  rw [mem_seats, mem_inside]
  refine and_congr_right fun _ => forall₂_congr fun x hx => ⟨fun hle hxc => ?_, fun hne hxc => ?_⟩
  · exact hz x hx (le_antisymm (h.past x hx).1 (hle hxc))
  · exact (hne hxc).elim

/-- If somebody did, there are more. -/
theorem card_inside_lt (h : Seats parlor es s) {z : Fin p × ℕ} (hz : z ∈ leavers es)
    (htmr : z.2 = s.tmr) : (inside es).card < (seats es s.tmr).card := by
  refine Finset.card_lt_card ⟨inside_subset_seats _, fun hsub => ?_⟩
  have hmem : z.1 ∈ seats es s.tmr := by
    refine mem_seats.2 ⟨(h.past z hz).2, fun x hx hxz => ?_⟩
    rw [h.once x hx z hz hxz, htmr]
  exact (mem_inside.1 (hsub hmem)).2 z hz rfl

/-- As long as the seats are kept they suffice. -/
theorem card_seats_le (h : Run (Step parlor) (ParlorState.boot parlor) es s)
    (hk : SeatsKept parlor.k es) : (seats es s.tmr).card ≤ parlor.k := by
  induction h with
  | nil => simp [seats, seatedIn, notes]
  | @snoc es s t e hr hs ih =>
    obtain ⟨hkept, hlast⟩ := along_append.1 hk
    have hle := ih hkept
    have hm := moves_of_step hs
    rcases seat_step hm with hn | ⟨c, hg⟩ | ⟨c, hf⟩
    · refine (Finset.card_le_card fun d hd => ?_).trans hle
      rw [hn.seats_append, mem_seats] at hd
      exact mem_seats.2 ⟨hd.1, fun x hx hxd => hn.tmr.trans (hd.2 x hx hxd)⟩
    · -- there was a seat, since the customer was not turned away
      have hlt : (seats es s.tmr).card ≠ parlor.k := by
        intro heq
        have := (hlast _ hg.note (c, s.tmr) rfl).2 heq
        cases this
      have hsub : seats (es ++ [e]) t.tmr ⊆ insert c (seats es s.tmr) := by
        intro d hd
        rw [mem_seats, hg.seatedIn_append, hg.tmr] at hd
        rcases hd.1 with hin | rfl
        · refine Finset.mem_insert_of_mem (mem_seats.2 ⟨hin, fun x hx => ?_⟩)
          exact hd.2 x (hg.leavers_append.2 hx)
        · exact Finset.mem_insert_self _ _
      have := (Finset.card_le_card hsub).trans (Finset.card_insert_le _ _)
      omega
    · refine (Finset.card_le_card fun d hd => ?_).trans hle
      rw [mem_seats, hf.seatedIn_append, hf.tmr] at hd
      exact mem_seats.2 ⟨hd.1, fun x hx => hd.2 x (hf.leavers_append.2 (.inl hx))⟩

end Seats

/-- In every run the counter is between zero and the capacity; and at each arrival the
customer is turned away exactly when all seats are taken, those included that were given free
in this second, if and only if at each arrival nobody has left in this second so far or not
all of these seats are taken. -/
theorem seats_iff (h : Run (Step parlor) (boot parlor) es s) :
    0 ≤ s.currentCustomers ∧ s.currentCustomers ≤ parlor.k ∧
    (SeatsKept parlor.k es ↔ NoSeatFreed parlor.k es) := by
  have hS := Seats.run h
  refine ⟨by rw [hS.count]; omega, hS.le, ?_⟩
  clear hS
  induction h with
  | nil => exact iff_of_true along_nil along_nil
  | @snoc es s t e hr hs ih =>
    have hS := Seats.run hr
    have hm := moves_of_step hs
    unfold SeatsKept NoSeatFreed at ih ⊢
    rw [along_append, along_append]
    refine (and_congr_left_iff.2 fun _ => ih).trans (and_congr_right fun hfreed => ?_)
    have hle := Seats.card_seats_le hr (ih.2 hfreed)
    refine forall₂_congr fun x hx => forall₂_congr fun y hy => ?_
    obtain ⟨hy2, hfull⟩ := arrival_step hm hx hy
    have hcount := hS.count
    have hcard : (inside es).card ≤ (seats es s.tmr).card :=
      Finset.card_le_card (inside_subset_seats s.tmr)
    rw [hfull, hy2]
    constructor
    · intro hkept
      by_contra hnot
      push Not at hnot
      obtain ⟨⟨z, hz, hzt⟩, hge⟩ := hnot
      have hlt := hS.card_inside_lt hz hzt
      have := hkept.2 (le_antisymm hle hge)
      omega
    · rintro (hz | hlt)
      · rw [hS.seats_eq_inside hz]
        omega
      · omega

/-- One machine and one seat, two customers who order a vanilla and arrive in the seconds 0
and 2. -/
def oneSeat : Parlor 1 2 2 2 :=
  { sundaes 1 1 (fun c => if c.val = 0 then 0 else 2) id monotone_id (fun _ => false) fun _ => [] with
    k := 1 }

/-- The machine `i` takes the vanilla of the customer `c`, up to second 2 in which it is
ready. -/
def vanillaReady (i : Fin 1) (c : Fin 2) : List (ParlorThread 1 2) :=
  [.main, .main, .main, .main, .main, .customer c, .main,
  .main, .main, .main, .main, .main, .machine i, .machine i, .machine i, .machine i,
  .machine i, .main,
  .main, .main, .main, .main, .main]

/-- The second customer runs first and is turned away. -/
theorem seats_iff_full : ∃ es s, Run (Step oneSeat) (boot oneSeat) es s ∧
    .full 1 2 ∈ notes es ∧ .collects 0 2 ∈ notes es ∧ SeatsKept 1 es := by
  have h : ∃ r ∈ exec oneSeat Sync (boot oneSeat)
      (vanillaReady 0 0 ++ [.customer 1, .machine 0, .machine 0, .customer 0, .customer 0]),
      .full 1 2 ∈ notes r.1 ∧ .collects 0 2 ∈ notes r.1 ∧ NoSeatFreed 1 r.1 := by
    decide +kernel
  obtain ⟨r, hr, hf, hc, hn⟩ := h
  have hrun := (guarded_of_exec hr).of_guarded
  exact ⟨r.1, r.2, hrun, hf, hc, (seats_iff hrun).2.2.2 hn⟩

/-- The first customer collects first, and the second one gets the seat in the same second. -/
theorem seat_reused : ∃ es s, Run (Guarded (Step oneSeat) Sync) (boot oneSeat) es s ∧
    .collects 0 2 ∈ notes es ∧ .enters 1 2 ∈ notes es ∧ ¬SeatsKept 1 es := by
  have h : ∃ r ∈ exec oneSeat Sync (boot oneSeat)
      (vanillaReady 0 0 ++ [.machine 0, .machine 0, .customer 0, .customer 0, .customer 1]),
      .collects 0 2 ∈ notes r.1 ∧ .enters 1 2 ∈ notes r.1 ∧ ¬SeatsKept 1 r.1 := by
    decide +kernel
  obtain ⟨r, hr, hc, he, hn⟩ := h
  exact ⟨r.1, r.2, guarded_of_exec hr, hc, he, hn⟩

end ParlorState

end CowPbs
