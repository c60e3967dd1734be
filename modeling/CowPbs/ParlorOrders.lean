import Mathlib
import CowPbs.Parlor

/-!
# The orders of the parlor

What a machine does to the orders and to the stock, in every interleaving of the threads.

A machine that rejects a customer sets the flags of the first order of the list, whoever
owns it, and goes on with its scan. So the first customer can collect an ice cream nobody
has prepared, and a customer who was rejected can have a later ice cream taken. A machine
that takes an order checks each topping of it against the stock as it was before the order,
so an order with a topping twice can use more than there is. In every run without these
steps what is collected was prepared (`collected_prepared`), a rejection is total and touches
nobody else (`rejection_total`), and the toppings are conserved (`toppings_conserved`).
-/

open Function Rescan Transition

namespace CowPbs

namespace ParlorState

variable {n p o q : ℕ} {parlor : Parlor n p o q} {s t : ParlorState n p o q}
  {es : List (ParlorEvent n p o)} {e : ParlorEvent n p o}

/-! ## The stock -/

/-- The units of the topping `j` in the orders taken so far. -/
def unitsTaken (parlor : Parlor n p o q) (j : Fin q) (es : List (ParlorEvent n p o)) : ℕ :=
  ((notes es).map fun x =>
    match x with
    | .takes _ k _ => (parlor.used k).count j
    | .rejects .. | .starts .. | .completes .. | .enters .. | .full .. | .refused .. |
      .leaves .. | .collects .. => 0).sum

/-- A machine takes an order only if each limited topping is there as often as the order
has it. -/
def Enough (parlor : Parlor n p o q) (s : ParlorState n p o q) (e : ParlorEvent n p o) : Prop :=
  ∀ i k, e.2 = some (.takes i k s.tmr) →
    ∀ j, s.stock j ≠ -1 → ((parlor.used k).count j : ℤ) ≤ s.stock j

instance (s : ParlorState n p o q) (e : ParlorEvent n p o) : Decidable (Enough parlor s e) :=
  inferInstanceAs (Decidable (∀ _ _, _))

theorem useTopping_apply (stock : Fin q → ℤ) (i j : Fin q) :
    useTopping stock i j = if j = i ∧ 0 < stock i then stock j - 1 else stock j := by
  unfold useTopping
  grind [update_apply]

/-- The toppings of an order are used one after the other. -/
theorem foldl_useTopping {xs : List (Fin q)} {stock : Fin q → ℤ} {j : Fin q}
    (h : stock j ≠ -1 → (xs.count j : ℤ) ≤ stock j) :
    xs.foldl useTopping stock j = if stock j = -1 then -1 else stock j - xs.count j := by
  induction xs generalizing stock with
  | nil => simp +contextual
  | cons i xs ih =>
    have hi := useTopping_apply stock i j
    by_cases hji : j = i
    · subst hji
      rw [List.count_cons_self] at h ⊢
      rw [List.foldl_cons, ih (by grind)]
      grind
    · rw [List.count_cons_of_ne (Ne.symm hji)] at h ⊢
      rw [List.foldl_cons, ih (by grind)]
      grind

/-- Nothing but a take changes the stock. -/
theorem stock_step (hs : s.Moves parlor e.1 e.2 t) :
    (t.stock = s.stock ∧ ∀ i k u, e.2 ≠ some (.takes i k u)) ∨
    ∃ i k, e = (.machine i, some (.takes i k s.tmr)) ∧
      t.stock = (parlor.used k).foldl useTopping s.stock := by
  obtain ⟨th, note⟩ := e
  simp only at hs
  cases hs with
  | take i k => exact .inr ⟨i, k, rfl, rfl⟩
  | _ => exact .inl ⟨rfl, by simp⟩

theorem unitsTaken_append (j : Fin q) :
    unitsTaken parlor j (es ++ [e]) = unitsTaken parlor j es + unitsTaken parlor j [e] := by
  simp [unitsTaken, notes]

theorem unitsTaken_none (j : Fin q) (h : ∀ i k u, e.2 ≠ some (.takes i k u)) :
    unitsTaken parlor j [e] = 0 := by
  obtain ⟨th, note⟩ := e
  cases note with
  | none => rfl
  | some x =>
    cases x with
    | takes i k u => exact (h i k u rfl).elim
    | _ => rfl

/-- In every run in which no order holds a topping more often than it is there when the order
is taken, the stock of a topping and the units in the orders taken are together the stock at
the start, and what has no limit keeps none. -/
theorem toppings_conserved (h : Run (Guarded (Step parlor) (Enough parlor)) (boot parlor) es s)
    (j : Fin q) :
    (0 ≤ parlor.toppingStock j → s.stock j + unitsTaken parlor j es = parlor.toppingStock j ∧
      (unitsTaken parlor j es : ℤ) ≤ parlor.toppingStock j ∧ s.stock j ≠ -1) ∧
    (parlor.toppingStock j = -1 → s.stock j = -1) := by
  -- the stock itself never falls below zero, and that is what the induction carries
  suffices hinv : (0 ≤ parlor.toppingStock j →
      s.stock j + unitsTaken parlor j es = parlor.toppingStock j ∧ 0 ≤ s.stock j) ∧
      (parlor.toppingStock j = -1 → s.stock j = -1) by
    refine ⟨fun hj => ?_, hinv.2⟩
    obtain ⟨hsum, hnn⟩ := hinv.1 hj
    exact ⟨hsum, by omega, by omega⟩
  induction h with
  | nil => exact ⟨fun hj => ⟨by simp [unitsTaken, notes, boot], hj⟩, fun hj => hj⟩
  | @snoc es s t e _ hs ih =>
    rw [unitsTaken_append]
    rcases stock_step (moves_of_step hs.1) with ⟨heq, hne⟩ | ⟨i, k, rfl, heq⟩
    · rw [heq, unitsTaken_none j hne]
      exact ih
    · have hen := hs.2 i k rfl j
      have hone : unitsTaken parlor j [((.machine i : ParlorThread n p),
          some (.takes i k s.tmr))] = (parlor.used k).count j := by
        simp [unitsTaken, notes]
      rw [heq, foldl_useTopping hen, hone]
      refine ⟨fun hj => ?_, fun hj => ?_⟩
      · obtain ⟨hsum, hnn⟩ := ih.1 hj
        have hne : s.stock j ≠ -1 := by omega
        have := hen hne
        rw [if_neg hne]
        push_cast
        exact ⟨by omega, by omega⟩
      · rw [if_pos (ih.2 hj)]

/-- Some ice creams : `n` machines from second 1 to 9, a limited topping and another, vanilla
in one second and chocolate in three. -/
def sundaes {p o : ℕ} (n caramel : ℕ) (arrival : Fin p → ℕ) (owner : Fin o → Fin p)
    (hm : Monotone owner) (chocolate : Fin o → Bool) (brownie : Fin o → List Bool) :
    Parlor n p o 2 where
  machineStart _ := 1
  machineEnd _ := 9
  flavours := [("vanilla", 1), ("chocolate", 3)]
  toppingList j := if j.val = 0 then "caramel" else "brownie"
  toppingStock j := if j.val = 0 then caramel else 4
  k := 3
  arrival := arrival
  owner := owner
  flavour k := if chocolate k then "chocolate" else "vanilla"
  toppings k := (brownie k).map fun x => if x then "brownie" else "caramel"
  owner_mono := hm
  stock_ge j := by split_ifs <;> omega
  flavour_listed k := by split_ifs <;> simp
  topping_listed k x hx := by
    obtain ⟨y, -, rfl⟩ := List.mem_map.1 hx
    cases y with
    | false => exact ⟨0, rfl⟩
    | true => exact ⟨1, rfl⟩

/-- One customer orders two units of caramel. -/
def twoCaramels (caramel : ℕ) : Parlor 1 1 2 2 :=
  sundaes 1 caramel (fun _ => 0) (fun _ => ⟨0, Nat.zero_lt_one⟩) monotone_const (fun _ => false)
    fun k => if k.val = 0 then [false, false] else [true, true]

/-- The machine starts in second 1 and takes the first order. -/
def takeFirst : List (ParlorThread 1 1) :=
  [.main, .main, .main, .main, .main, .customer 0, .main,
  .main, .main, .main, .main, .main, .machine 0, .machine 0, .machine 0, .machine 0]

/-- Two of three units are used. -/
theorem toppings_conserved_caramel : ∃ es s,
    Run (Guarded (Step (twoCaramels 3)) (Enough (twoCaramels 3))) (boot (twoCaramels 3)) es s ∧
    unitsTaken (twoCaramels 3) 0 es = 2 ∧ s.stock 0 + unitsTaken (twoCaramels 3) 0 es = 3 := by
  have h : ∃ r ∈ exec (twoCaramels 3) (Enough (twoCaramels 3)) (boot (twoCaramels 3)) takeFirst,
      unitsTaken (twoCaramels 3) 0 r.1 = 2 := by decide
  obtain ⟨r, hr, hu⟩ := h
  exact ⟨r.1, r.2, guarded_of_exec hr, hu, ((toppings_conserved (guarded_of_exec hr) 0).1 (by decide)).1⟩

/-- There is one unit, and the order uses two. -/
theorem topping_used_twice : ∃ es s,
    Run (Step (twoCaramels 1)) (boot (twoCaramels 1)) es s ∧
    (twoCaramels 1).toppingStock 0 = 1 ∧ s.stock 0 + unitsTaken (twoCaramels 1) 0 es = 2 := by
  have h : ∃ r ∈ exec (twoCaramels 1) Sync (boot (twoCaramels 1)) takeFirst,
      r.2.stock 0 + unitsTaken (twoCaramels 1) 0 r.1 = 2 := by decide
  obtain ⟨r, hr, hu⟩ := h
  exact ⟨r.1, r.2, (guarded_of_exec hr).of_guarded, by decide, hu⟩

/-! ## Rejections -/

theorem entry_eq {i : Fin n} {k : Fin o} (h : s.entry i = some k) : s.cst i = k := by
  unfold entry at h
  split_ifs at h
  exact congrArg Fin.val (Option.some.inj h)

/-- The first order of the list belongs to the customer who is rejected, or is done; and each
other order of this customer is taken, lacks a topping too, or is one that no machine will
look at. -/
def RejectsAll (parlor : Parlor n p o q) (s : ParlorState n p o q) (e : ParlorEvent n p o) :
    Prop :=
  ∀ i k, e.2 = some (.rejects i k s.tmr) →
    (∀ l : Fin o, l.val = 0 →
      parlor.owner l = parlor.owner k ∨ s.taken l = true ∧ s.status l = true) ∧
    ∀ l, parlor.owner l = parlor.owner k →
      s.taken l = true ∨ s.shortage parlor l = true ∨ ∀ j, l.val < s.cst j

instance (s : ParlorState n p o q) (e : ParlorEvent n p o) :
    Decidable (RejectsAll parlor s e) :=
  inferInstanceAs (Decidable (∀ _ _, _))

theorem taken_step {k : Fin o} (hs : s.Moves parlor e.1 e.2 t) (hk : s.taken k = true) :
    t.taken k = true := by
  obtain ⟨th, note⟩ := e
  simp only at hs
  cases hs with
  | reject => simp [hk]
  | take => simp [update_apply, hk]
  | _ => exact hk

theorem cst_step {i : Fin n} (hs : s.Moves parlor e.1 e.2 t) : s.cst i ≤ t.cst i := by
  obtain ⟨th, note⟩ := e
  simp only at hs
  -- the scan goes on from the entry it is at
  have hup : ∀ {l k}, s.entry l = some k → s.cst i ≤ update s.cst l (k.val + 1) i := by
    intro l k hk
    rw [← entry_eq hk, update_apply]
    split_ifs with hil
    · rw [hil]
      omega
    · exact le_rfl
  cases hs with
  | pass l k _ hk => exact hup hk
  | reject l k _ hk => exact hup hk
  | take l k _ hk => exact hup hk
  | _ => exact le_rfl

/-- What has run out stays out. -/
theorem foldl_useTopping_of_le {xs : List (Fin q)} {stock : Fin q → ℤ} {j : Fin q}
    (h : stock j ≤ 0) : xs.foldl useTopping stock j = stock j := by
  induction xs generalizing stock with
  | nil => rfl
  | cons i xs ih =>
    have hi : useTopping stock i j = stock j := by
      rw [useTopping_apply, if_neg]
      rintro ⟨rfl, hpos⟩
      omega
    rw [List.foldl_cons, ih (by rw [hi]; exact h), hi]

theorem shortage_step {k : Fin o} (hs : s.Moves parlor e.1 e.2 t)
    (hk : s.shortage parlor k = true) : t.shortage parlor k = true := by
  rcases stock_step hs with ⟨heq, -⟩ | ⟨i, l, -, heq⟩
  · unfold shortage at hk ⊢
    rwa [heq]
  · unfold shortage at hk ⊢
    obtain ⟨j, hj, hout⟩ := List.any_eq_true.1 hk
    refine List.any_eq_true.2 ⟨j, hj, ?_⟩
    have hle : s.stock j ≤ 0 := by
      rcases of_decide_eq_true hout with h | h <;> omega
    rw [heq, foldl_useTopping_of_le hle]
    exact hout

/-- Who is rejected was rejected before, or is now. -/
theorem rejection_step {c : Fin p} (hs : s.Moves parlor e.1 e.2 t) (hc : t.rejection c = true) :
    s.rejection c = true ∨
      ∃ i k, e.2 = some (.rejects i k s.tmr) ∧ parlor.owner k = c := by
  obtain ⟨th, note⟩ := e
  simp only at hs
  cases hs with
  | reject i k =>
    by_cases hk : parlor.owner k = c
    · exact .inr ⟨i, k, rfl, hk⟩
    · exact .inl (by simpa [update_of_ne (Ne.symm hk)] using hc)
  | _ => exact .inl hc

/-- No machine can take an order of a customer who was rejected. -/
theorem rejected_invariant
    (h : Run (Guarded (Step parlor) (RejectsAll parlor)) (boot parlor) es s) {k : Fin o}
    (hk : s.rejection (parlor.owner k) = true) :
    s.taken k = true ∨ s.shortage parlor k = true ∨ ∀ j, k.val < s.cst j := by
  induction h with
  | nil => cases hk
  | @snoc es s t e _ hs ih =>
    have hm := moves_of_step hs.1
    have hold : s.taken k = true ∨ s.shortage parlor k = true ∨ ∀ j, k.val < s.cst j := by
      rcases rejection_step hm hk with hr | ⟨i, l, he, hl⟩
      · exact ih hr
      · exact (hs.2 i l he).2 k hl.symm
    rcases hold with h | h | h
    · exact .inl (taken_step hm h)
    · exact .inr (.inl (shortage_step hm h))
    · exact .inr (.inr fun j => (h j).trans_le (cst_step hm))

/-- In every run in which the rejections are of this kind, no machine takes an ice cream of a
customer who was rejected, and the step that rejects a customer changes the flags of no order
of another one. -/
theorem rejection_total
    (h : Run (Guarded (Step parlor) (RejectsAll parlor)) (boot parlor) es s)
    (hs : Guarded (Step parlor) (RejectsAll parlor) s e t) :
    (∀ i k u, e.2 = some (.takes i k u) → s.rejection (parlor.owner k) = false) ∧
    ∀ i k u, e.2 = some (.rejects i k u) → t.rejection (parlor.owner k) = true ∧
      ∀ l, parlor.owner l ≠ parlor.owner k →
        t.taken l = s.taken l ∧ t.status l = s.status l := by
  have hinv := fun k => rejected_invariant h (k := k)
  have hm := moves_of_step hs.1
  have hg := hs.2
  obtain ⟨th, note⟩ := e
  simp only at hm
  cases hm with
  | take i k hpc hk hp hsh =>
    refine ⟨fun i' k' u he => ?_, by simp⟩
    obtain ⟨-, rfl, -⟩ := ParlorNote.takes.inj (Option.some.inj he)
    by_contra hr
    rcases hinv k (by simpa using hr) with h | h | h
    · rw [hp.2] at h
      cases h
    · rw [hsh] at h
      cases h
    · have := h i
      rw [entry_eq hk] at this
      exact lt_irrefl _ this
  | reject i k hpc hk hp hsh =>
    refine ⟨by simp, fun i' k' u he => ?_⟩
    obtain ⟨-, rfl, -⟩ := ParlorNote.rejects.inj (Option.some.inj he)
    refine ⟨by simp, fun l hl => ?_⟩
    by_cases hz : l.val = 0
    · rcases (hg i k rfl).1 l hz with h | ⟨htk, hst⟩
      · exact (hl h).elim
      · simp [hz, htk, hst]
    · simp [hz]
  | _ => exact ⟨by simp, by simp⟩

/-- The first customer orders an ice cream with caramel, the second the same and one with
brownie. There is one unit of caramel. -/
def oneCaramel (n : ℕ) : Parlor n 2 3 2 :=
  sundaes n 1 (fun _ => 0)
    (fun k => if k.val = 0 then ⟨0, Nat.zero_lt_two⟩ else ⟨1, Nat.one_lt_two⟩) (by decide)
    (fun _ => false) fun k => [decide (k.val = 2)]

/-- The same orders of three customers, of whom the last comes late. -/
def oneCaramelLate : Parlor 1 3 3 2 :=
  sundaes 1 1 (fun c => if c.val = 2 then 9 else 0) id monotone_id (fun _ => false)
    fun k => [decide (k.val = 2)]

/-- The second of the three customers is rejected when the first has collected. -/
theorem rejection_total_late : ∃ es s e t,
    Run (Guarded (Step oneCaramelLate) (RejectsAll oneCaramelLate)) (boot oneCaramelLate) es s ∧
    Guarded (Step oneCaramelLate) (RejectsAll oneCaramelLate) s e t ∧
    e.2 = some (.rejects 0 1 3) ∧ t.rejection 1 = true ∧
    t.taken 0 = s.taken 0 ∧ t.status 0 = s.status 0 := by
  have h : ∃ r ∈ exec oneCaramelLate (RejectsAll oneCaramelLate) (boot oneCaramelLate)
      [.main, .main, .main, .main, .main, .customer 0, .customer 1, .main,
      .main, .main, .main, .main, .main, .machine 0, .machine 0, .machine 0, .machine 0,
      .machine 0, .main,
      .main, .main, .main, .main, .main, .machine 0, .machine 0, .customer 0, .customer 0, .main,
      .main, .main, .main, .main, .main, .machine 0, .machine 0],
      ∃ r' ∈ exec oneCaramelLate (RejectsAll oneCaramelLate) r.2 [.machine 0],
        r'.1 = [(.machine 0, some (.rejects 0 1 3))] := by decide
  obtain ⟨r, hr, r', hr', he⟩ := h
  obtain ⟨hnil, -⟩ | ⟨e, t, es', hes, hs, -⟩ := (guarded_of_exec hr').cons_cases
  · rw [he] at hnil
    cases hnil
  · rw [he] at hes
    obtain ⟨rfl, -⟩ := List.cons.inj hes
    obtain ⟨hrej, hoth⟩ := (rejection_total (guarded_of_exec hr) hs).2 0 1 3 rfl
    exact ⟨r.1, r.2, _, t, guarded_of_exec hr, hs, rfl, hrej, hoth 0 (by decide)⟩

/-- The second machine rejects the second customer for the caramel : it sets the flag of the
first customer's ice cream, which is not done, and then takes the one with brownie. -/
theorem rejection_not_total : ∃ es s e t e' u,
    Run (Step (oneCaramel 2)) (boot (oneCaramel 2)) es s ∧
    Step (oneCaramel 2) s e t ∧ Step (oneCaramel 2) t e' u ∧
    e.2 = some (.rejects 1 1 1) ∧ (oneCaramel 2).owner 0 ≠ (oneCaramel 2).owner 1 ∧
    s.status 0 = false ∧ t.status 0 = true ∧
    e'.2 = some (.takes 1 2 1) ∧ t.rejection ((oneCaramel 2).owner 2) = true := by
  have h : ∃ r ∈ exec (oneCaramel 2) Sync (boot (oneCaramel 2))
      [.main, .main, .main, .main, .main, .customer 0, .customer 1, .main,
      .main, .main, .main, .main, .main, .machine 0, .machine 0, .machine 0, .machine 0,
      .machine 0, .machine 1, .machine 1, .machine 1, .machine 1],
      r.2.status 0 = false ∧
      r.2.announce (oneCaramel 2) (fun _ => 0) (.machine 1) = some (.rejects 1 1 1) ∧
      ∃ t ∈ r.2.move (oneCaramel 2) (fun _ => 0) (.machine 1), t.status 0 = true ∧
        t.announce (oneCaramel 2) (fun _ => 0) (.machine 1) = some (.takes 1 2 1) ∧
        t.rejection ((oneCaramel 2).owner 2) = true ∧
        ∃ u ∈ t.move (oneCaramel 2) (fun _ => 0) (.machine 1), u.taken 2 = true := by decide
  obtain ⟨r, hr, hst, ha, t, ht, hst', ha', hrej, u, hu, -⟩ := h
  exact ⟨r.1, r.2, (.machine 1, _), t, (.machine 1, _), u, (guarded_of_exec hr).of_guarded,
    ⟨_, ht, rfl⟩, ⟨_, hu, rfl⟩, ha, by decide, hst, hst', ha', hrej⟩

/-! ## What is taken -/

/-- An order is open when a machine takes it, and taken from then on. -/
theorem take_step {i : Fin n} {k : Fin o} {u : ℕ} (hs : s.Moves parlor e.1 e.2 t)
    (he : e.2 = some (.takes i k u)) : s.Open parlor k ∧ t.taken k = true ∧ u = s.tmr := by
  obtain ⟨th, note⟩ := e
  simp only at hs he
  subst he
  cases hs with
  | take _ _ hpc hk hp => exact ⟨hp, by simp, rfl⟩

/-- The scan has come to the order that the machine takes. -/
theorem entry_of_takes {i : Fin n} {k : Fin o} {u : ℕ} (hs : s.Moves parlor e.1 e.2 t)
    (he : e.2 = some (.takes i k u)) :
    s.pc i = .scan ∧ s.entry i = some k ∧ s.fits parlor i k = true ∧ t.pc i = .took k := by
  obtain ⟨th, note⟩ := e
  simp only at hs he
  subst he
  cases hs with
  | take _ _ hpc hk hp hsh hf => exact ⟨hpc, hk, hf, by simp⟩

theorem taken_of_takes (h : Run (Step parlor) (boot parlor) es s) {i : Fin n} {k : Fin o}
    {u : ℕ} (hu : .takes i k u ∈ notes es) : s.taken k = true := by
  induction h with
  | nil => simp [notes] at hu
  | snoc _ hs ih =>
    have hm := moves_of_step hs
    rcases mem_notes_append.1 hu with hu | hu
    · exact taken_step hm (ih hu)
    · exact (take_step hm hu).2.1

/-- Every ice cream is taken at most once. -/
theorem takes_unique (h : Run (Step parlor) (boot parlor) es s) {i j : Fin n} {k : Fin o}
    {u v : ℕ} (hu : .takes i k u ∈ notes es) (hv : .takes j k v ∈ notes es) :
    i = j ∧ u = v := by
  induction h with
  | nil => simp [notes] at hu
  | @snoc es s t e hr hs ih =>
    have hm := moves_of_step hs
    -- an order that was taken before is not open
    have hnew : ∀ {l w l' w'}, .takes l k w ∈ notes es → e.2 ≠ some (.takes l' k w') := by
      intro l w l' w' hw he
      have htk := taken_of_takes hr hw
      rw [(take_step hm he).1.2] at htk
      cases htk
    rcases mem_notes_append.1 hu with hu | hu <;> rcases mem_notes_append.1 hv with hv | hv
    · exact ih hu hv
    · exact (hnew hu hv).elim
    · exact (hnew hv hu).elim
    · obtain ⟨rfl, -, rfl⟩ := ParlorNote.takes.inj (Option.some.inj (hu.symm.trans hv))
      exact ⟨rfl, rfl⟩

/-! ## What is collected -/

/-- A machine took the order and then completed it. -/
def Prepared (es : List (ParlorEvent n p o)) (k : Fin o) : Prop :=
  ∃ i u v es₁ es₂, es = es₁ ++ es₂ ∧ .takes i k u ∈ notes es₁ ∧ .completes i k v ∈ notes es₂

/-- A rejection finds the first order of the list done, or it is that of the customer who is
rejected or of one who will not collect; and a machine that looks whether a customer's orders
are done finds all of them among the orders made so far. -/
def Genuine (parlor : Parlor n p o q) (s : ParlorState n p o q) (e : ParlorEvent n p o) :
    Prop :=
  (∀ i k, e.2 = some (.rejects i k s.tmr) → ∀ l : Fin o, l.val = 0 →
    s.status l = true ∨ parlor.owner l = parlor.owner k ∨
      s.rejection (parlor.owner l) = true ∨ s.complete (parlor.owner l) = true) ∧
  ∀ i k, e.1 = .machine i → s.pc i = .check k →
    ∀ l : Fin o, parlor.owner l = parlor.owner k → l.val < s.totalorders

instance (s : ParlorState n p o q) (e : ParlorEvent n p o) : Decidable (Genuine parlor s e) :=
  inferInstanceAs (Decidable (_ ∧ _))

/-- The machine has the order `k`, and has not completed it. -/
def Holds (s : ParlorState n p o q) (i : Fin n) (k : Fin o) : Prop :=
  s.pc i = .took k ∨ s.pc i = .order k ∨ s.pc i = .preparing k

theorem Holds.unique {i : Fin n} {k l : Fin o} (hk : s.Holds i k) (hl : s.Holds i l) : k = l := by
  rcases hk with hk | hk | hk <;> simpa [Holds, hk] using hl

/-- What the flags and the wake-ups of the customers stand for. -/
structure Flags (parlor : Parlor n p o q) (es : List (ParlorEvent n p o))
    (s : ParlorState n p o q) : Prop where
  held : ∀ i k, s.Holds i k → ∃ u, .takes i k u ∈ notes es
  done : ∀ k, s.status k = true → Prepared es k ∨
    s.rejection (parlor.owner k) = true ∨ s.complete (parlor.owner k) = true
  called : ∀ c, 0 < s.rejCustomers c → s.closeSig = true ∨ s.rejection c = true ∨
    ∀ k, parlor.owner k = c → s.status k = true
  waiting : ∀ c, s.cpc c = .waiting → s.complete c = false
  ready : ∀ c, s.cpc c = .toCollect → ∀ k, parlor.owner k = c → Prepared es k
  closing : s.main = .closeMachines ∨ s.main = .closeCustomers → s.closeSig = true

theorem Prepared.append {k : Fin o} (h : Prepared es k) : Prepared (es ++ [e]) k := by
  obtain ⟨i, u, v, es₁, es₂, rfl, ht, hc⟩ := h
  exact ⟨i, u, v, es₁, es₂ ++ [e], by simp, ht, mem_notes_append.2 (.inl hc)⟩

theorem status_step {k : Fin o} (hs : s.Moves parlor e.1 e.2 t) (hk : s.status k = true) :
    t.status k = true := by
  obtain ⟨th, note⟩ := e
  simp only at hs
  cases hs with
  | reject => simp [hk]
  | finish => simp [update_apply, hk]
  | _ => exact hk

theorem rejection_mono {c : Fin p} (hs : s.Moves parlor e.1 e.2 t) (hc : s.rejection c = true) :
    t.rejection c = true := by
  obtain ⟨th, note⟩ := e
  simp only at hs
  cases hs with
  | reject => simp [update_apply, hc]
  | _ => exact hc

theorem complete_mono {c : Fin p} (hs : s.Moves parlor e.1 e.2 t) (hc : s.complete c = true) :
    t.complete c = true := by
  obtain ⟨th, note⟩ := e
  simp only at hs
  cases hs with
  | full | refuse | leave | collect => simp [update_apply, hc]
  | _ => exact hc

theorem closeSig_mono (hs : s.Moves parlor e.1 e.2 t) (hc : s.closeSig = true) :
    t.closeSig = true := by
  obtain ⟨th, note⟩ := e
  simp only at hs
  cases hs with
  | close => rfl
  | _ => exact hc

/-- An open parlor was open before. -/
theorem closeSig_before (hs : s.Moves parlor e.1 e.2 t) (hc : t.closeSig = false) :
    s.closeSig = false := by
  by_contra hne
  have := closeSig_mono hs (by simpa using hne)
  rw [hc] at this
  cases this

/-- The parlor is closed when main wakes the threads for it. -/
theorem closing_step (h : s.main = .closeMachines ∨ s.main = .closeCustomers → s.closeSig = true)
    (hs : s.Moves parlor e.1 e.2 t) (hm : t.main = .closeMachines ∨ t.main = .closeCustomers) :
    t.closeSig = true := by
  obtain ⟨th, note⟩ := e
  simp only at hs
  cases hs with
  | close => rfl
  | closeMachines hm' => exact h (.inl hm')
  | goOn | stop | welcome | startAll | chain | comp | tick | closeCustomers => simp at hm
  | _ => exact h hm

theorem closing_of_run (h : Run (Step parlor) (boot parlor) es s)
    (hm : s.main = .closeMachines ∨ s.main = .closeCustomers) : s.closeSig = true := by
  induction h with
  | nil => simp [boot] at hm
  | snoc _ hs ih => exact closing_step ih (moves_of_step hs) hm

namespace Flags

theorem boot : Flags parlor [] (boot parlor) := by
  refine ⟨?_, ?_, ?_, ?_, ?_, ?_⟩ <;> simp [ParlorState.boot, Holds]

theorem held_step {i : Fin n} {k : Fin o} (h : Flags parlor es s)
    (hs : s.Moves parlor e.1 e.2 t) (hk : t.Holds i k) :
    ∃ u, .takes i k u ∈ notes (es ++ [e]) := by
  have hold : s.Holds i k → ∃ u, .takes i k u ∈ notes (es ++ [e]) := by
    intro hk
    obtain ⟨u, hu⟩ := h.held i k hk
    exact ⟨u, mem_notes_append.2 (.inl hu)⟩
  obtain ⟨th, note⟩ := e
  simp only at hs
  cases hs with
  | take l m =>
    by_cases hil : i = l
    · subst hil
      obtain rfl : m = k := by simpa [Holds] using hk
      exact ⟨s.tmr, mem_notes_append.2 (.inr rfl)⟩
    · exact hold (by simpa [Holds, hil] using hk)
  | hold l m hpc | start l m hpc | resume l m hpc =>
    by_cases hil : i = l
    · subst hil
      obtain rfl : m = k := by simpa [Holds] using hk
      exact hold (by simp [Holds, hpc])
    · exact hold (by simpa [Holds, hil] using hk)
  | quit l | abandon l | turnOn l | wake l | acquire l | rest l | finish l | serve l | lack l =>
    have hil : i ≠ l := by
      rintro rfl
      simp [Holds] at hk
    exact hold (by simpa [Holds, hil] using hk)
  | _ => exact hold hk

theorem done_step {k : Fin o} (h : Flags parlor es s) (hg : Genuine parlor s e)
    (hs : s.Moves parlor e.1 e.2 t) (hk : t.status k = true) : Prepared (es ++ [e]) k ∨
      t.rejection (parlor.owner k) = true ∨ t.complete (parlor.owner k) = true := by
  have hold : s.status k = true → Prepared (es ++ [e]) k ∨
      t.rejection (parlor.owner k) = true ∨ t.complete (parlor.owner k) = true := by
    intro hk
    rcases h.done k hk with h | h | h
    · exact .inl h.append
    · exact .inr (.inl (rejection_mono hs h))
    · exact .inr (.inr (complete_mono hs h))
  obtain ⟨th, note⟩ := e
  simp only at hs
  cases hs with
  | reject i l =>
    by_cases hz : k.val = 0
    · rcases hg.1 i l rfl k hz with hst | hown | hr | hc
      · exact hold hst
      · exact .inr (.inl (by simp [hown]))
      · exact .inr (.inl (by simp [update_apply, hr]))
      · exact .inr (.inr hc)
    · exact hold (by simpa [hz] using hk)
  | finish i l hpc =>
    by_cases hkl : k = l
    · subst hkl
      obtain ⟨u, hu⟩ := h.held i k (by simp [Holds, hpc])
      exact .inl ⟨i, u, s.tmr, es, _, rfl, hu, by simp [notes]⟩
    · exact hold (by simpa [hkl] using hk)
  | _ => exact hold hk

theorem called_step {c : Fin p} (h : Flags parlor es s) (hg : Genuine parlor s e)
    (hs : s.Moves parlor e.1 e.2 t) (hc : 0 < t.rejCustomers c) :
    t.closeSig = true ∨ t.rejection c = true ∨
      ∀ k, parlor.owner k = c → t.status k = true := by
  have hold : 0 < s.rejCustomers c → t.closeSig = true ∨ t.rejection c = true ∨
      ∀ k, parlor.owner k = c → t.status k = true := by
    intro hc
    rcases h.called c hc with h | h | h
    · exact .inl (closeSig_mono hs h)
    · exact .inr (.inl (rejection_mono hs h))
    · exact .inr (.inr fun k hk => status_step hs (h k hk))
  obtain ⟨th, note⟩ := e
  simp only at hs
  cases hs with
  | closeCustomers hm => exact .inl (h.closing (.inr hm))
  | reject i k =>
    by_cases hk : c = parlor.owner k
    · exact .inr (.inl (by simp [hk]))
    · exact hold (by simpa [hk] using hc)
  | serve i k hpc hd =>
    by_cases hk : c = parlor.owner k
    · -- the checker looked at every order of the customer
      subst hk
      refine .inr (.inr fun l hl => ?_)
      exact of_decide_eq_true hd l (hg.2 i k rfl hpc l hl) hl
    · exact hold (by simpa [hk] using hc)
  | turnOut d | leave d | call d =>
    refine hold ?_
    simp only [semWait_apply] at hc
    split_ifs at hc with hcd
    · rw [hcd]
      omega
    · exact hc
  | _ => exact hold hc

theorem waiting_step {c : Fin p} (h : Flags parlor es s) (hs : s.Moves parlor e.1 e.2 t)
    (hc : t.cpc c = .waiting) : t.complete c = false := by
  obtain ⟨th, note⟩ := e
  simp only at hs
  cases hs with
  | enter d hpc hb hcl hk hd =>
    by_cases hcd : c = d
    · rw [hcd]
      exact hd
    · exact h.waiting c (by simpa [hcd] using hc)
  | turnAway d | full d | refuse d | turnOut d | leave d | call d | collect d =>
    have hcd : c ≠ d := by
      rintro rfl
      simp at hc
    simpa [hcd] using h.waiting c (by simpa [hcd] using hc)
  | _ => exact h.waiting c hc

theorem ready_step {c : Fin p} {k : Fin o} (h : Flags parlor es s)
    (hs : s.Moves parlor e.1 e.2 t) (hc : t.cpc c = .toCollect) (hk : parlor.owner k = c) :
    Prepared (es ++ [e]) k := by
  obtain ⟨th, note⟩ := e
  simp only at hs
  cases hs with
  | call d hpc hb hcl hr =>
    by_cases hcd : c = d
    · subst hcd
      -- the wake-up is neither for the closing nor for a rejection
      have hst : s.status k = true := by
        rcases h.called c hb with h | h | h
        · rw [hcl] at h
          cases h
        · rw [hr] at h
          cases h
        · exact h k hk
      rcases h.done k hst with hp | hrk | hck
      · exact hp.append
      · rw [hk, hr] at hrk
        cases hrk
      · rw [hk, h.waiting c hpc] at hck
        cases hck
    · exact (h.ready c (by simpa [hcd] using hc) k hk).append
  | turnAway d | full d | refuse d | enter d | turnOut d | leave d | collect d =>
    have hcd : c ≠ d := by
      rintro rfl
      simp at hc
    exact (h.ready c (by simpa [hcd] using hc) k hk).append
  | _ => exact (h.ready c hc k hk).append

theorem step (h : Flags parlor es s) (hg : Genuine parlor s e) (hs : s.Moves parlor e.1 e.2 t) :
    Flags parlor (es ++ [e]) t where
  held _ _ := h.held_step hs
  done _ := h.done_step hg hs
  called _ := h.called_step hg hs
  waiting _ := h.waiting_step hs
  ready _ hc _ := h.ready_step hs hc
  closing := closing_step h.closing hs

theorem run (h : Run (Guarded (Step parlor) (Genuine parlor)) (ParlorState.boot parlor) es s) :
    Flags parlor es s := by
  induction h with
  | nil => exact boot
  | snoc _ hs ih => exact ih.step hs.2 (moves_of_step hs.1)

end Flags

/-- In every run whose rejections and checks are genuine, a customer who collects has had each
ice cream taken and then completed by a machine. -/
theorem collected_prepared
    (h : Run (Guarded (Step parlor) (Genuine parlor)) (boot parlor) es s)
    (hs : Step parlor s e t) {c : Fin p} {u : ℕ} (hc : e.2 = some (.collects c u)) {k : Fin o}
    (hk : parlor.owner k = c) : Prepared es k := by
  have hm := moves_of_step hs
  have hF := Flags.run h
  obtain ⟨th, note⟩ := e
  simp only at hm hc
  subst hc
  cases hm with
  | collect _ hpc => exact hF.ready c hpc k hk

/-- One customer orders a vanilla without a topping. -/
def plain : Parlor 1 1 1 2 :=
  sundaes 1 1 (fun _ => 0) (fun _ => ⟨0, Nat.zero_lt_one⟩) monotone_const (fun _ => false)
    fun _ => []

/-- The customer collects the vanilla in second 2. -/
theorem collected_prepared_plain : ∃ es s e t,
    Run (Guarded (Step plain) (Genuine plain)) (boot plain) es s ∧ Step plain s e t ∧
    e.2 = some (.collects 0 2) ∧ Prepared es (0 : Fin 1) := by
  have h : ∃ r ∈ exec plain (Genuine plain) (boot plain)
      [.main, .main, .main, .main, .main, .customer 0, .main,
      .main, .main, .main, .main, .main, .machine 0, .machine 0, .machine 0, .machine 0,
      .machine 0, .main,
      .main, .main, .main, .main, .main, .machine 0, .machine 0, .customer 0],
      r.2.announce plain (fun _ => 0) (.customer 0) = some (.collects 0 2) ∧
      ∃ t ∈ r.2.move plain (fun _ => 0) (.customer 0), t.complete 0 = true := by decide
  obtain ⟨r, hr, ha, t, ht, -⟩ := h
  have hs : Step plain r.2 (.customer 0, r.2.announce plain (fun _ => 0) (.customer 0)) t :=
    ⟨_, ht, rfl⟩
  exact ⟨r.1, r.2, _, t, guarded_of_exec hr, hs, ha,
    collected_prepared (guarded_of_exec hr) hs ha rfl⟩

/-- The first customer orders a chocolate with caramel and a vanilla with brownie, the second
a vanilla with caramel, of which there is one unit. -/
def mixed : Parlor 3 2 3 2 :=
  sundaes 3 1 (fun _ => 0)
    (fun k => if k.val = 2 then ⟨1, Nat.one_lt_two⟩ else ⟨0, Nat.zero_lt_two⟩) (by decide)
    (fun k => decide (k.val = 0)) fun k => [decide (k.val = 1)]

/-- The orders that are completed. -/
def completed (es : List (ParlorEvent n p o)) : List (Fin o) :=
  (notes es).filterMap fun x =>
    match x with
    | .completes _ k _ => some k
    | .takes .. | .rejects .. | .starts .. | .enters .. | .full .. | .refused .. |
      .leaves .. | .collects .. => none

theorem mem_completed_of_prepared {k : Fin o} (h : Prepared es k) : k ∈ completed es := by
  obtain ⟨i, u, v, es₁, es₂, rfl, -, hc⟩ := h
  refine List.mem_filterMap.2 ⟨.completes i k v, ?_, rfl⟩
  rw [notes, List.filterMap_append]
  exact List.mem_append_right _ hc

/-- The third machine rejects the second customer and so sets the flag of the chocolate. When
the vanilla is completed the first customer collects, and nobody has prepared the chocolate. -/
theorem collected_not_prepared : ∃ es s e t,
    Run (Step mixed) (boot mixed) es s ∧ Step mixed s e t ∧ e.2 = some (.collects 0 2) ∧
    mixed.owner 0 = 0 ∧ ¬Prepared es (0 : Fin 3) := by
  have h : ∃ r ∈ exec mixed Sync (boot mixed)
      [.main, .main, .main, .main, .main, .customer 0, .customer 1, .main,
      .main, .main, .main, .main, .main, .machine 0, .machine 0, .machine 0, .machine 0,
      .machine 0, .machine 1, .machine 1, .machine 1, .machine 1, .machine 1, .machine 1,
      .machine 2, .machine 2, .machine 2, .machine 2, .machine 2, .machine 2, .machine 2,
      .customer 1, .main,
      .main, .main, .main, .main, .main, .machine 1, .machine 1, .customer 0],
      r.2.announce mixed (fun _ => 0) (.customer 0) = some (.collects 0 2) ∧
      completed r.1 = [1] ∧
      ∃ t ∈ r.2.move mixed (fun _ => 0) (.customer 0), t.complete 0 = true := by
    decide +kernel
  obtain ⟨r, hr, ha, hc, t, ht, -⟩ := h
  have hs : Step mixed r.2 (.customer 0, r.2.announce mixed (fun _ => 0) (.customer 0)) t :=
    ⟨_, ht, rfl⟩
  refine ⟨r.1, r.2, _, t, (guarded_of_exec hr).of_guarded, hs, ha, rfl, fun hp => ?_⟩
  have := mem_completed_of_prepared hp
  rw [hc] at this
  simp at this

end ParlorState

end CowPbs
