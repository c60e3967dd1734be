import Mathlib

/-!
# Chains of wake-ups built by rescanning

A coordinator wakes the first of a list of waiting parties and tells each party whom to
wake next. It finds the parties by their number : `find` scans the list for the `no`-th
party that is ready, either for good (`stay`) or by a flag, and clears the flags it passes.
`chain` asks for the first, the second, the third and so on, each time from the start of
the list, until there is none, and `link` writes the successors. The wake-ups themselves
are posts on an array of semaphores.

Clearing the flags changes the numbering under the scan : a party that was ready by its
flag is not counted the next time, so the party after it is passed over. `walk` says in
one pass which parties are found (`chain_eq_walk`). No flagged party is lost if between
any two of them there is one that is ready for good (`mem_walk_of_spaced`), and nobody is
lost if only the last that is ready is flagged (`walk_eq_filter`).
-/

open Function

namespace Rescan

variable {ι : Type*} [DecidableEq ι]

/-- The `no`-th party of the list that is ready; the flags on the way are cleared. -/
def find (stay : ι → Bool) : List ι → ℕ → (ι → Bool) → Option ι × (ι → Bool)
  | [], _, flag => (none, flag)
  | i :: xs, no, flag =>
    if stay i || flag i then
      if no = 1 then (some i, update flag i false)
      else find stay xs (no - 1) (update flag i false)
    else find stay xs no flag

/-- A party that was found, and those found after it. -/
def next (rest : (ι → Bool) → List ι × (ι → Bool)) :
    Option ι × (ι → Bool) → List ι × (ι → Bool)
  | (none, flag) => ([], flag)
  | (some i, flag) => (i :: (rest flag).1, (rest flag).2)

/-- The parties found by asking for number `count`, `count + 1` and so on. -/
def chain (scan : ℕ → (ι → Bool) → Option ι × (ι → Bool)) :
    ℕ → ℕ → (ι → Bool) → List ι × (ι → Bool)
  | 0, _, flag => ([], flag)
  | fuel + 1, count, flag => next (chain scan fuel (count + 1)) (scan count flag)

/-- Each party of the list is told its successor, the last one that there is none. -/
def link : List ι → (ι → Option ι) → ι → Option ι
  | [], wake => wake
  | i :: xs, wake => link xs (update wake i xs.head?)

/-- The successor in the list. -/
def succ : List ι → ι → Option ι
  | [], _ => none
  | i :: xs, j => if j = i then xs.head? else succ xs j

/-- `sem_post` on one semaphore of an array. -/
def semPost (sem : ι → ℕ) (i : ι) : ι → ℕ :=
  update sem i (sem i + 1)

/-- `sem_wait` on one semaphore of an array, when it is positive. -/
def semWait (sem : ι → ℕ) (i : ι) : ι → ℕ :=
  update sem i (sem i - 1)

/-- `sem_post` on the semaphore of the successor, if there is one. -/
def semPostNext (sem : ι → ℕ) : Option ι → ι → ℕ
  | some i => semPost sem i
  | none => sem

/-- The chain in one pass : `d` parties are passed over before the next is found, and `c`
flags were cleared since the last was. -/
def walk (stay flag : ι → Bool) : ℕ → ℕ → List ι → List ι
  | _, _, [] => []
  | d, c, i :: xs =>
    if stay i then
      match d with
      | 0 => i :: walk stay flag c 0 xs
      | d + 1 => walk stay flag d c xs
    else if flag i then
      match d with
      | 0 => i :: walk stay flag (c + 1) 0 xs
      | d + 1 => walk stay flag d (c + 1) xs
    else walk stay flag d c xs

variable {stay flag : ι → Bool}

/-! ## The chain is the walk -/

/-- The parties before the scan are those ready for good : their flags are cleared. -/
theorem find_append (pre xs : List ι) {no : ℕ} (hf : ∀ i ∈ pre, flag i = false)
    (hno : pre.countP stay < no) :
    find stay (pre ++ xs) no flag = find stay xs (no - pre.countP stay) flag := by
  induction pre generalizing no with
  | nil => simp
  | cons i pre ih =>
    have hfi : flag i = false := hf i (by simp)
    have hfp : ∀ j ∈ pre, flag j = false := fun j hj => hf j (by simp [hj])
    by_cases hi : stay i = true
    · rw [List.countP_cons_of_pos hi] at hno ⊢
      have hup : update flag i false = flag := by rw [← hfi, update_eq_self]
      simp only [List.cons_append, find, hi, hfi, Bool.or_false, ↓reduceIte, hup]
      rw [if_neg (by omega), ih hfp (by omega)]
      congr 1
      omega
    · rw [List.countP_cons_of_neg hi] at hno ⊢
      simp only [List.cons_append, find, hi, hfi, Bool.or_false, Bool.false_eq_true, ↓reduceIte]
      exact ih hfp hno

omit [DecidableEq ι] in
theorem walk_congr {flag' : ι → Bool} (xs : List ι) (d c : ℕ) (h : ∀ i ∈ xs, flag i = flag' i) :
    walk stay flag d c xs = walk stay flag' d c xs := by
  induction xs generalizing d c with
  | nil => rfl
  | cons i xs ih =>
    have hxs : ∀ d c, walk stay flag d c xs = walk stay flag' d c xs :=
      fun d c => ih d c fun j hj => h j (by simp [hj])
    cases d <;> simp only [walk, hxs, h i (by simp)]

theorem clear_cons (i : ι) (xs : List ι) :
    (fun j => update flag i false j && decide (j ∉ xs)) =
      fun j => flag j && decide (j ∉ i :: xs) := by
  funext j
  by_cases hj : j = i <;> simp [hj, update_of_ne]

/-- A scan in progress at `xs`, in the call for number `m`, and the calls after it. The
number is that of the parties ready for good so far, of those still to be passed over and of
the flags cleared in this call. -/
theorem next_find (all : List ι) (hnd : all.Nodup) (pre xs : List ι) (hall : all = pre ++ xs)
    (fuel m d c : ℕ) (hf : ∀ i ∈ pre, flag i = false) (hfuel : xs.length ≤ fuel)
    (hm : m = pre.countP stay + d + c + 1) :
    next (chain (find stay all) fuel (m + 1)) (find stay xs (d + 1) flag) =
      (walk stay flag d c xs, fun i => flag i && decide (i ∉ xs)) := by
  induction xs generalizing pre fuel m d c flag with
  | nil => simp [find, next, walk]
  | cons i xs ih =>
    have hall' : all = (pre ++ [i]) ++ xs := by simp [hall]
    have hi : i ∉ xs := by
      rw [hall, List.nodup_append] at hnd
      exact (List.nodup_cons.1 hnd.2.1).1
    have hpre : ∀ j ∈ pre ++ [i], update flag i false j = false := by
      intro j hj
      by_cases hji : j = i
      · simp [hji]
      · rw [update_of_ne hji]
        exact hf j (by simpa [hji] using hj)
    have hxs : ∀ j ∈ xs, update flag i false j = flag j :=
      fun j hj => update_of_ne (by rintro rfl; exact hi hj) ..
    obtain ⟨fuel, rfl⟩ : ∃ f, fuel = f + 1 := ⟨fuel - 1, by simp at hfuel; omega⟩
    have hfuel' : xs.length ≤ fuel := by simpa using hfuel
    -- the call after this one, when `i` is found, starts again from the front
    have hrest : ∀ c', m = (pre ++ [i]).countP stay + c' →
        chain (find stay all) (fuel + 1) (m + 1) (update flag i false) =
          (walk stay flag c' 0 xs, fun j => flag j && decide (j ∉ i :: xs)) := by
      intro c' hc'
      rw [chain, hall', find_append _ _ hpre (by omega), ← hall']
      have hno : m + 1 - (pre ++ [i]).countP stay = c' + 1 := by omega
      rw [hno, ih _ hall' fuel (m + 1) c' 0 hpre hfuel' (by omega), walk_congr xs _ _ hxs,
        clear_cons]
    have hskip : ∀ d' c', d = d' + 1 → m = (pre ++ [i]).countP stay + d' + c' + 1 →
        next (chain (find stay all) (fuel + 1) (m + 1)) (find stay xs (d' + 1)
          (update flag i false)) =
          (walk stay flag d' c' xs, fun j => flag j && decide (j ∉ i :: xs)) := by
      intro d' c' hd hc'
      rw [ih _ hall' (fuel + 1) m d' c' hpre (by omega) hc', walk_congr xs _ _ hxs, clear_cons]
    by_cases hs : stay i = true
    · have hcount : (pre ++ [i]).countP stay = pre.countP stay + 1 := by simp [hs]
      cases d with
      | zero => simp [find, next, walk, hs, hrest c (by omega)]
      | succ d =>
        have := hskip d c rfl (by omega)
        simpa [find, walk, hs] using this
    · have hcount : (pre ++ [i]).countP stay = pre.countP stay := by simp [hs]
      by_cases hfl : flag i = true
      · cases d with
        | zero => simp [find, next, walk, hs, hfl, hrest (c + 1) (by omega)]
        | succ d =>
          have := hskip d (c + 1) rfl (by omega)
          simpa [find, walk, hs, hfl] using this
      · have hup : update flag i false = flag := by
          rw [← Bool.eq_false_of_not_eq_true hfl, update_eq_self]
        rw [hup] at hpre
        have := ih _ hall' (fuel + 1) m d c hpre (by omega) (by omega)
        rw [← clear_cons, hup]
        simpa [find, walk, hs, hfl] using this

/-- What the rescans find, and that every flag is cleared. -/
theorem chain_eq_walk {xs : List ι} (hnd : xs.Nodup) {fuel : ℕ} (hfuel : xs.length < fuel) :
    chain (find stay xs) fuel 1 flag =
      (walk stay flag 0 0 xs, fun i => flag i && decide (i ∉ xs)) := by
  obtain ⟨fuel, rfl⟩ : ∃ f, fuel = f + 1 := ⟨fuel - 1, by omega⟩
  exact next_find xs hnd [] xs rfl fuel 1 0 0 (by simp) (by omega) (by simp)

/-- With no flags the rescans find everybody who is ready. -/
theorem chain_eq_filter {xs : List ι} (hnd : xs.Nodup) {fuel : ℕ} (hfuel : xs.length < fuel) :
    (chain (find stay xs) fuel 1 fun _ => false).1 = xs.filter stay := by
  rw [chain_eq_walk hnd hfuel]
  show walk stay (fun _ => false) 0 0 xs = xs.filter stay
  induction xs with
  | nil => rfl
  | cons i xs ih =>
    have ih := ih hnd.of_cons (by simp at hfuel; omega)
    by_cases hi : stay i = true <;> simp [walk, hi, ih]

/-! ## Successors -/

theorem succ_cons (i : ι) (xs : List ι) (j : ι) :
    succ (i :: xs) j = if j = i then xs.head? else succ xs j :=
  rfl

theorem link_apply {xs : List ι} (hnd : xs.Nodup) (wake : ι → Option ι) (j : ι) :
    link xs wake j = if j ∈ xs then succ xs j else wake j := by
  induction xs generalizing wake with
  | nil => simp [link]
  | cons i xs ih =>
    rw [link, ih hnd.of_cons]
    have hi := (List.nodup_cons.1 hnd).1
    by_cases hj : j = i
    · subst hj
      simp [hi, succ_cons]
    · simp [hj, succ_cons, update_of_ne]

theorem link_none {xs : List ι} (hnd : xs.Nodup) : link xs (fun _ => none) = succ xs := by
  funext j
  rw [link_apply hnd]
  split_ifs with hj
  · rfl
  · symm
    induction xs with
    | nil => rfl
    | cons i xs ih =>
      simp only [List.mem_cons, not_or] at hj
      simp [succ_cons, hj.1, ih hnd.of_cons hj.2]

@[simp] theorem succ_head (i : ι) (xs : List ι) : succ (i :: xs) i = xs.head? := by
  simp [succ_cons]

theorem succ_eq_none {xs : List ι} {j : ι} (hj : j ∉ xs) : succ xs j = none := by
  induction xs with
  | nil => rfl
  | cons i xs ih =>
    simp only [List.mem_cons, not_or] at hj
    simp [succ_cons, hj.1, ih hj.2]

theorem mem_of_succ {xs : List ι} {i j : ι} (h : succ xs i = some j) : j ∈ xs := by
  induction xs with
  | nil => cases h
  | cons x xs ih =>
    simp only [succ_cons] at h
    split_ifs at h with hi
    · exact List.mem_cons_of_mem _ (List.mem_of_mem_head? h)
    · exact List.mem_cons_of_mem _ (ih h)

theorem ne_of_succ {xs : List ι} (hnd : xs.Nodup) {i j : ι} (h : succ xs i = some j) :
    j ≠ i := by
  induction xs with
  | nil => cases h
  | cons x xs ih =>
    obtain ⟨hx, hnd⟩ := List.nodup_cons.1 hnd
    simp only [succ_cons] at h
    split_ifs at h with hi
    · rintro rfl
      exact hx (hi ▸ List.mem_of_mem_head? h)
    · exact ih hnd h

/-- The first party has told the next one. -/
theorem update_succ {i : ι} {xs : List ι} (hi : i ∉ xs) :
    update (succ (i :: xs)) i none = succ xs := by
  funext j
  by_cases hj : j = i
  · subst hj
    rw [update_self, succ_eq_none hi]
  · rw [update_of_ne hj]
    simp [succ_cons, hj]

/-- The parties of the list know their successors. -/
def Linked (wake : ι → Option ι) (xs : List ι) : Prop :=
  xs.Nodup ∧ ∀ i ∈ xs, wake i = succ xs i

theorem linked_nil (wake : ι → Option ι) : Linked wake [] :=
  ⟨List.nodup_nil, by simp⟩

theorem linked_link {xs : List ι} (hnd : xs.Nodup) (wake : ι → Option ι) :
    Linked (link xs wake) xs :=
  ⟨hnd, fun i hi => by rw [link_apply hnd, if_pos hi]⟩

namespace Linked

variable {wake : ι → Option ι} {i : ι} {xs : List ι}

theorem notMem (h : Linked wake (i :: xs)) : i ∉ xs :=
  (List.nodup_cons.1 h.1).1

theorem head (h : Linked wake (i :: xs)) : wake i = xs.head? := by
  rw [h.2 i List.mem_cons_self, succ_head]

/-- The first party has told the next one. -/
theorem tail (h : Linked wake (i :: xs)) : Linked (update wake i none) xs := by
  refine ⟨h.1.of_cons, fun j hj => ?_⟩
  have hji : j ≠ i := by
    rintro rfl
    exact h.notMem hj
  rw [update_of_ne hji, h.2 j (List.mem_cons_of_mem _ hj)]
  simp [succ_cons, hji]

end Linked

/-! ## Semaphores -/

@[simp, grind =] theorem semPost_apply (sem : ι → ℕ) (i j : ι) :
    semPost sem i j = if j = i then sem i + 1 else sem j :=
  update_apply ..

@[simp, grind =] theorem semWait_apply (sem : ι → ℕ) (i j : ι) :
    semWait sem i j = if j = i then sem i - 1 else sem j :=
  update_apply ..

@[simp, grind =] theorem semPostNext_apply (sem : ι → ℕ) (o : Option ι) (j : ι) :
    semPostNext sem o j = sem j + if o = some j then 1 else 0 := by
  cases o with
  | none => simp [semPostNext]
  | some i =>
    by_cases hj : j = i
    · simp [semPostNext, hj]
    · simp [semPostNext, hj, Ne.symm hj]

theorem semPost_semWait (sem : ι → ℕ) {i : ι} (hi : 0 < sem i) (j : ι) :
    semPost (semWait sem i) j = semWait (semPost sem j) i := by
  funext l
  simp only [semPost_apply, semWait_apply]
  grind

theorem semPostNext_semWait (sem : ι → ℕ) {i : ι} (hi : 0 < sem i) (o : Option ι) :
    semPostNext (semWait sem i) o = semWait (semPostNext sem o) i := by
  cases o with
  | none => rfl
  | some j => exact semPost_semWait sem hi j

theorem semWait_comm (sem : ι → ℕ) (i j : ι) :
    semWait (semWait sem i) j = semWait (semWait sem j) i := by
  funext l
  simp only [semWait_apply]
  grind

theorem semPost_comm (sem : ι → ℕ) (i j : ι) :
    semPost (semPost sem i) j = semPost (semPost sem j) i := by
  funext l
  simp only [semPost_apply]
  grind

/-! ## Who is found -/

omit [DecidableEq ι] in
theorem walk_sublist (stay flag : ι → Bool) (d c : ℕ) (xs : List ι) :
    (walk stay flag d c xs).Sublist (xs.filter fun i => stay i || flag i) := by
  induction xs generalizing d c with
  | nil => exact .slnil
  | cons i xs ih =>
    by_cases hs : stay i = true
    · cases d <;> simp only [walk, hs, ↓reduceIte, Bool.true_or, List.filter_cons_of_pos]
      · exact (ih _ _).cons_cons i
      · exact (ih _ _).cons i
    · by_cases hf : flag i = true
      · cases d <;> simp only [walk, hs, hf, ↓reduceIte, Bool.or_true, List.filter_cons_of_pos,
          Bool.false_eq_true]
        · exact (ih _ _).cons_cons i
        · exact (ih _ _).cons i
      · simpa [walk, hs, hf] using ih d c

section Order

variable {ι : Type*} [Preorder ι] {stay flag : ι → Bool}

/-- Ready by its flag alone. -/
def Flagged (stay flag : ι → Bool) (i : ι) : Prop :=
  stay i = false ∧ flag i = true

/-- Between any two parties ready by their flags there is one that is ready for good. -/
def Spaced (stay flag : ι → Bool) (xs : List ι) : Prop :=
  ∀ i ∈ xs, ∀ j ∈ xs, Flagged stay flag i → Flagged stay flag j → i < j →
    ∃ k ∈ xs, i < k ∧ k < j ∧ stay k = true

instance (stay flag : ι → Bool) (i : ι) : Decidable (Flagged stay flag i) :=
  inferInstanceAs (Decidable (_ ∧ _))

instance [DecidableLT ι] (stay flag : ι → Bool) (xs : List ι) :
    Decidable (Spaced stay flag xs) :=
  inferInstanceAs (Decidable (∀ i ∈ xs, ∀ j ∈ xs, _))

/-- After a flagged party one that is ready for good is passed over, before the next
flagged one. -/
theorem mem_walk_of_spaced_aux {xs : List ι} (hxs : xs.Pairwise (· < ·))
    (hsp : Spaced stay flag xs) {d : ℕ}
    (hd : d = 0 ∨ d = 1 ∧ ∀ j ∈ xs, Flagged stay flag j → ∃ k ∈ xs, k < j ∧ stay k = true)
    {i : ι} (hi : i ∈ xs) (hfi : Flagged stay flag i) : i ∈ walk stay flag d 0 xs := by
  induction xs generalizing d with
  | nil => simp at hi
  | cons x xs ih =>
    obtain ⟨hx, hxs'⟩ := List.pairwise_cons.1 hxs
    have hback : ∀ k ∈ x :: xs, ∀ j ∈ x :: xs, k < j → k ≠ x → k ∈ xs := by
      intro k hk j hj hkj hkx
      simpa [hkx] using hk
    have hsp' : Spaced stay flag xs := by
      intro a ha b hb hfa hfb hab
      obtain ⟨k, hk, hak, hkb, hsk⟩ := hsp a (by simp [ha]) b (by simp [hb]) hfa hfb hab
      refine ⟨k, hback k hk b (by simp [hb]) hkb ?_, hak, hkb, hsk⟩
      rintro rfl
      exact lt_asymm hak (hx a ha)
    have hor : i = x ∨ i ∈ xs := List.mem_cons.1 hi
    by_cases hs : stay x = true
    · have hix : i ∈ xs := by
        rcases hor with rfl | h
        · rw [hfi.1] at hs
          cases hs
        · exact h
      rcases hd with rfl | ⟨rfl, -⟩
      · simp only [walk, hs, ↓reduceIte]
        exact List.mem_cons_of_mem _ (ih hxs' hsp' (.inl rfl) hix)
      · simp only [walk, hs, ↓reduceIte]
        exact ih hxs' hsp' (.inl rfl) hix
    · have hs' : stay x = false := by simpa using hs
      by_cases hf : flag x = true
      · rcases hd with rfl | ⟨rfl, hd⟩
        · simp only [walk, hs, hf, ↓reduceIte, Bool.false_eq_true]
          rcases hor with rfl | h
          · exact List.mem_cons_self
          · refine List.mem_cons_of_mem _ (ih hxs' hsp' (.inr ⟨rfl, fun j hj hfj => ?_⟩) h)
            obtain ⟨k, hk, hxk, hkj, hsk⟩ :=
              hsp x List.mem_cons_self j (by simp [hj]) ⟨hs', hf⟩ hfj (hx j hj)
            exact ⟨k, hback k hk j (by simp [hj]) hkj (by rintro rfl; exact lt_irrefl _ hxk),
              hkj, hsk⟩
        · obtain ⟨k, hk, hkx, -⟩ := hd x List.mem_cons_self ⟨hs', hf⟩
          rcases List.mem_cons.1 hk with rfl | hk
          · exact (lt_irrefl _ hkx).elim
          · exact (lt_asymm hkx (hx k hk)).elim
      · have hix : i ∈ xs := by
          rcases hor with rfl | h
          · exact (hf hfi.2).elim
          · exact h
        simp only [walk, hs, hf, ↓reduceIte, Bool.false_eq_true]
        refine ih hxs' hsp' (hd.imp_right fun h => ⟨h.1, fun j hj hfj => ?_⟩) hix
        obtain ⟨k, hk, hkj, hsk⟩ := h.2 j (by simp [hj]) hfj
        exact ⟨k, hback k hk j (by simp [hj]) hkj (by rintro rfl; exact hs hsk), hkj, hsk⟩

/-- Nobody who is ready by a flag is lost if the flags are spaced. -/
theorem mem_walk_of_spaced {xs : List ι} (hxs : xs.Pairwise (· < ·))
    (hsp : Spaced stay flag xs) {i : ι} (hi : i ∈ xs) (hfi : Flagged stay flag i) :
    i ∈ walk stay flag 0 0 xs :=
  mem_walk_of_spaced_aux hxs hsp (.inl rfl) hi hfi

/-- Only the last of those who are ready may be ready by a flag. -/
def LastFlagged (stay flag : ι → Bool) (xs : List ι) : Prop :=
  ∀ i ∈ xs, Flagged stay flag i → ∀ j ∈ xs, i < j → stay j = false ∧ flag j = false

instance [DecidableLT ι] (stay flag : ι → Bool) (xs : List ι) :
    Decidable (LastFlagged stay flag xs) :=
  inferInstanceAs (Decidable (∀ i ∈ xs, _))

/-- Nobody is lost if nobody is ready after one who is ready by a flag. -/
theorem walk_eq_filter {xs : List ι} (hxs : xs.Pairwise (· < ·))
    (hl : LastFlagged stay flag xs) :
    walk stay flag 0 0 xs = xs.filter fun i => stay i || flag i := by
  induction xs with
  | nil => rfl
  | cons x xs ih =>
    obtain ⟨hx, hxs'⟩ := List.pairwise_cons.1 hxs
    have ih := ih hxs' fun i hi hfi j hj => hl i (by simp [hi]) hfi j (by simp [hj])
    by_cases hs : stay x = true
    · simp [walk, hs, ih]
    · by_cases hf : flag x = true
      · -- nobody is ready after `x`
        have hnone : (xs.filter fun i => stay i || flag i) = [] := by
          rw [List.filter_eq_nil_iff]
          intro j hj
          have := hl x (by simp) ⟨by simpa using hs, hf⟩ j (by simp [hj]) (hx j hj)
          simp [this.1, this.2]
        have hw : walk stay flag 1 0 xs = [] :=
          List.eq_nil_of_sublist_nil (hnone ▸ walk_sublist stay flag 1 0 xs)
        simp [walk, hs, hf, hw, hnone]
      · simp [walk, hs, hf, ih]

omit [Preorder ι] in
/-- Somebody who is ready is passed over. -/
theorem length_walk_lt {xs : List ι} (d c : ℕ) (h : (xs.filter fun i => stay i || flag i) ≠ []) :
    (walk stay flag (d + 1) c xs).length < (xs.filter fun i => stay i || flag i).length := by
  induction xs with
  | nil => exact absurd rfl h
  | cons x xs ih =>
    have hle : ∀ c, (walk stay flag d c xs).length ≤ (xs.filter fun i => stay i || flag i).length :=
      fun c => (walk_sublist stay flag d c xs).length_le
    by_cases hs : stay x = true
    · have := hle c
      simp only [walk, hs, ↓reduceIte, Bool.true_or, List.filter_cons_of_pos, List.length_cons]
      omega
    · by_cases hf : flag x = true
      · have := hle (c + 1)
        simp only [walk, hs, hf, ↓reduceIte, Bool.or_true, List.filter_cons_of_pos,
          List.length_cons, Bool.false_eq_true]
        omega
      · have hx : ((x :: xs).filter fun i => stay i || flag i) =
            xs.filter fun i => stay i || flag i := List.filter_cons_of_neg (by simp [hs, hf])
        rw [hx] at h ⊢
        simpa [walk, hs, hf] using ih h

/-- The rescans find everybody who is ready if and only if nobody is ready after one who is
ready by a flag. -/
theorem walk_eq_filter_iff {xs : List ι} (hxs : xs.Pairwise (· < ·)) :
    walk stay flag 0 0 xs = (xs.filter fun i => stay i || flag i) ↔
      LastFlagged stay flag xs := by
  refine ⟨fun h => ?_, walk_eq_filter hxs⟩
  induction xs with
  | nil => exact fun i hi => absurd hi List.not_mem_nil
  | cons x xs ih =>
    obtain ⟨hx, hxs'⟩ := List.pairwise_cons.1 hxs
    -- the others come after `x`
    have hlast : LastFlagged stay flag xs →
        (Flagged stay flag x → ∀ j ∈ xs, stay j = false ∧ flag j = false) →
        LastFlagged stay flag (x :: xs) := by
      intro hl hfx i hi hfi j hj hij
      rcases List.mem_cons.1 hj with rfl | hj'
      · rcases List.mem_cons.1 hi with rfl | hi'
        · exact absurd hij (lt_irrefl i)
        · exact absurd hij (lt_asymm (hx i hi'))
      · rcases List.mem_cons.1 hi with rfl | hi'
        · exact hfx hfi j hj'
        · exact hl i hi' hfi j hj' hij
    by_cases hs : stay x = true
    · have htail : walk stay flag 0 0 xs = xs.filter fun i => stay i || flag i := by
        simpa [walk, hs] using h
      refine hlast (ih hxs' htail) fun hfx => ?_
      rw [hfx.1] at hs
      cases hs
    · by_cases hf : flag x = true
      · have htail : walk stay flag 1 0 xs = xs.filter fun i => stay i || flag i := by
          simpa [walk, hs, hf] using h
        have hnone : (xs.filter fun i => stay i || flag i) = [] := by
          by_contra hne
          have := length_walk_lt 0 0 hne
          rw [zero_add, htail] at this
          exact lt_irrefl _ this
        have hready : ∀ j ∈ xs, stay j = false ∧ flag j = false := by
          intro j hj
          have := List.filter_eq_nil_iff.1 hnone j hj
          simpa using this
        refine hlast (fun i hi hfi j hj _ => hready j hj) fun _ => hready
      · have htail : walk stay flag 0 0 xs = xs.filter fun i => stay i || flag i := by
          simpa [walk, hs, hf] using h
        exact hlast (ih hxs' htail) fun hfx => absurd hfx.2 hf

end Order

/-! ## Following the chain -/

section Visits

variable {ι : Type*} {wake : ι → Option ι} {o : Option ι} {l l' : List ι}

/-- Who is woken, one after the other, from the party `o` on. -/
inductive Visits (wake : ι → Option ι) : Option ι → List ι → Prop
  | stop : Visits wake none []
  | go {i : ι} {l : List ι} (h : Visits wake (wake i) l) : Visits wake (some i) (i :: l)

theorem Visits.unique (h : Visits wake o l) (h' : Visits wake o l') : l = l' := by
  induction h generalizing l' with
  | stop =>
    cases h'
    rfl
  | go _ ih =>
    cases h' with
    | go h' => rw [ih h']

theorem Visits.congr {wake' : ι → Option ι} (h : Visits wake o l)
    (hw : ∀ i ∈ l, wake' i = wake i) : Visits wake' o l := by
  induction h with
  | stop => exact .stop
  | @go i l h ih =>
    refine .go ?_
    rw [hw i List.mem_cons_self]
    exact ih fun j hj => hw j (List.mem_cons_of_mem i hj)

theorem Linked.visits [DecidableEq ι] (h : Linked wake l) : Visits wake l.head? l := by
  induction l generalizing wake with
  | nil => exact .stop
  | cons i l ih =>
    have hi := h.notMem
    refine .go ?_
    rw [h.head]
    refine (ih h.tail).congr fun j hj => ?_
    rw [update_of_ne]
    rintro rfl
    exact hi hj

end Visits

end Rescan
