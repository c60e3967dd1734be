import Mathlib
import CowPbs.Lib.Scan
import CowPbs.Proc

/-!
# The priority-based scheduler

One pass of the PBS branch of `scheduler` (proc.c) on one CPU. The scan goes through
`proc[NPROC]` with the candidate `pri_pro`, and a RUNNABLE slot takes its place if it has
a smaller dynamic priority, or the same and fewer schedulings, or both the same and an
earlier creation time. The condition calls `dp_calc`, which stores `rbi` in the slot it
is asked about, so the scan is a program over the table (`scanStep`).

`dp_calc` reads only fields that the scan does not write (`dp_erase`), so the scan is the
fold `Scan.pick` of the lexicographic key `prioKey`, up to `rbi` (`scanStep_run`), and
its result is the first minimum of that key.
-/

set_option linter.unusedSectionVars false

open Function

namespace CowPbs

/-! ## Dynamic priority -/

/-- `max` of proc.c. -/
def max (a b : Int32) : Int32 :=
  if a > b then a else b

/-- `min` of proc.c : both branches return the first argument. -/
def min (a b : Int32) : Int32 :=
  if a < b then a else a

namespace Proc

/-- The quotient of `rbi_calculator`, before it is cut off at 0. By 0, the division of the
machine gives -1 and this one 0, which the cut makes equal. -/
def rbiRaw (p : Proc) : Int32 :=
  ((3 * p.runningTime - p.sleepTime - p.waitTime) * 50) /
    (p.runningTime + p.waitTime + p.sleepTime + 1)

/-- `rbi_calculator` : the returned value, and the slot with `rbi` stored. -/
def rbiCalculator (p : Proc) : Int32 × Proc :=
  (max p.rbiRaw 0, { p with rbi := max p.rbiRaw 0 })

/-- `dp_calc` : the returned value, and the slot after `rbi_calculator`. -/
def dpCalc (p : Proc) : Int32 × Proc :=
  (min (p.stPriority + p.rbiCalculator.1) 100, p.rbiCalculator.2)

/-- The slot without `rbi`. -/
def erase (p : Proc) : Proc :=
  { p with rbi := 0 }

@[simp] theorem erase_erase (p : Proc) : p.erase.erase = p.erase :=
  rfl

@[simp] theorem dpCalc_erase (p : Proc) : p.dpCalc.2.erase = p.erase :=
  rfl

/-- What `dp_calc` reads it does not write. -/
theorem dp_erase (p : Proc) : p.erase.dpCalc.1 = p.dpCalc.1 :=
  rfl

/-- What the scheduler compares, in order : `dp_calc`, `schedule_count`, `ctime`. -/
def prioKey (p : Proc) : ℤ ×ₗ ℤ ×ₗ ℕ :=
  toLex (p.dpCalc.1.toInt, toLex (p.scheduleCount.toInt, p.ctime.toNat))

theorem prioKey_erase (p : Proc) : p.erase.prioKey = p.prioKey :=
  rfl

theorem prioKey_lt_iff (p q : Proc) : p.prioKey < q.prioKey ↔
    p.dpCalc.1 < q.dpCalc.1 ∨
      (p.dpCalc.1 = q.dpCalc.1 ∧ p.scheduleCount < q.scheduleCount) ∨
      (p.dpCalc.1 = q.dpCalc.1 ∧ p.scheduleCount = q.scheduleCount ∧ p.ctime < q.ctime) := by
  rw [prioKey, prioKey, Prod.Lex.toLex_lt_toLex, Prod.Lex.toLex_lt_toLex, Int32.toInt_inj,
    Int32.toInt_inj, ← Int32.lt_iff_toInt_lt, ← Int32.lt_iff_toInt_lt, ← UInt32.lt_iff_toNat_lt,
    and_or_left]

end Proc

/-! ## The scan -/

/-- The calls `dp_calc(p)` and `dp_calc(q)` of one comparison : the two values, and the
table with `rbi` stored in both slots. -/
def dpCalcs (p q : Slot) (T : Table) : Int32 × Int32 × Table :=
  let T₁ := update T p (T p).dpCalc.2
  ((T p).dpCalc.1, (T₁ q).dpCalc.1, update T₁ q (T₁ q).dpCalc.2)

/-- The comparison of slot `p` with the candidate `q` in the PBS loop : three
disjuncts, evaluated left to right, each calling `dp_calc` on both slots. -/
def beats (p q : Slot) (T : Table) : Bool × Table :=
  let (dp, dq, T₁) := dpCalcs p q T
  if dp < dq then (true, T₁)
  else
    let (dp, dq, T₂) := dpCalcs p q T₁
    if dp = dq ∧ (T₂ p).scheduleCount < (T₂ q).scheduleCount then (true, T₂)
    else
      let (dp, dq, T₃) := dpCalcs p q T₂
      (dp = dq ∧ (T₃ p).scheduleCount = (T₃ q).scheduleCount ∧ (T₃ p).ctime < (T₃ q).ctime, T₃)

/-- One turn of the PBS loop, at slot `p` with the candidate `priPro`. -/
def scanStep (s : Option Slot × Table) (p : Slot) : Option Slot × Table :=
  if (s.2 p).state = .runnable then
    match s.1 with
    | none => (some p, s.2)
    | some q =>
      let (b, T) := beats p q s.2
      if b then (some p, T) else (some q, T)
  else s

/-- One pass of the PBS branch of `scheduler` : the scan, and, if it found a process,
what is stored in it before `swtch`. -/
def pbsPass (T : Table) : Option Slot × Table :=
  let (priPro, T) := (List.finRange NPROC).foldl scanStep (none, T)
  match priPro with
  | none => (none, T)
  | some i => (some i, update T i (T i).dispatch)

/-! ## What the scan leaves alone -/

/-- The tables differ at most in `rbi`. -/
def Agree (T T' : Table) : Prop :=
  ∀ i, (T' i).erase = (T i).erase

namespace Agree

variable {T T' T'' : Table}

theorem refl (T : Table) : Agree T T :=
  fun _ => rfl

theorem trans (h : Agree T T') (h' : Agree T' T'') : Agree T T'' :=
  fun i => (h' i).trans (h i)

theorem dpCalc (T : Table) (i : Slot) : Agree T (update T i (T i).dpCalc.2) := by
  intro j
  by_cases hj : j = i
  · subst hj
    rw [update_self, Proc.dpCalc_erase]
  · rw [update_of_ne hj]

theorem state (h : Agree T T') (i : Slot) : (T' i).state = (T i).state := by
  simpa [Proc.erase] using congrArg Proc.state (h i)

theorem prioKey (h : Agree T T') (i : Slot) : (T' i).prioKey = (T i).prioKey := by
  rw [← Proc.prioKey_erase, h i, Proc.prioKey_erase]

theorem dp (h : Agree T T') (i : Slot) : (T' i).dpCalc.1 = (T i).dpCalc.1 := by
  rw [← Proc.dp_erase, h i, Proc.dp_erase]

theorem scheduleCount (h : Agree T T') (i : Slot) :
    (T' i).scheduleCount = (T i).scheduleCount := by
  simpa [Proc.erase] using congrArg Proc.scheduleCount (h i)

theorem ctime (h : Agree T T') (i : Slot) : (T' i).ctime = (T i).ctime := by
  simpa [Proc.erase] using congrArg Proc.ctime (h i)

end Agree

/-- The values of two calls of `dp_calc`, and a table that differs in `rbi`. -/
theorem dpCalcs_eq (p q : Slot) (T : Table) : ∃ T', Agree T T' ∧
    dpCalcs p q T = ((T p).dpCalc.1, (T q).dpCalc.1, T') := by
  have h := Agree.dpCalc T p
  refine ⟨_, h.trans (Agree.dpCalc _ q), ?_⟩
  rw [dpCalcs, h.dp q]

/-- The comparison of the PBS loop is that of the keys. -/
theorem beats_eq (p q : Slot) (T : Table) : ∃ T', Agree T T' ∧
    beats p q T = (decide ((T p).prioKey < (T q).prioKey), T') := by
  obtain ⟨T₁, h₁, e₁⟩ := dpCalcs_eq p q T
  obtain ⟨T₂, h₂, e₂⟩ := dpCalcs_eq p q T₁
  obtain ⟨T₃, h₃, e₃⟩ := dpCalcs_eq p q T₂
  have h₁₂ := h₁.trans h₂
  have h₁₃ := h₁₂.trans h₃
  have hk := Proc.prioKey_lt_iff (T p) (T q)
  simp only [beats, e₁, e₂, e₃, h₁.dp, h₁₂.dp, h₁₂.scheduleCount, h₁₃.scheduleCount, h₁₃.ctime]
  split_ifs with hlt hsc
  · exact ⟨T₁, h₁, by rw [decide_eq_true (hk.2 (.inl hlt))]⟩
  · exact ⟨T₂, h₁₂, by rw [decide_eq_true (hk.2 (.inr (.inl hsc)))]⟩
  · refine ⟨T₃, h₁₃, congrArg (·, T₃) (decide_eq_decide.2 ?_)⟩
    rw [hk, or_iff_right hlt, or_iff_right hsc]

/-- One turn of the scan picks by the key, and writes only `rbi`. -/
theorem scanStep_eq {T T' : Table} (h : Agree T T') (priPro : Option Slot) (p : Slot) :
    ∃ T'', Agree T T'' ∧ scanStep (priPro, T') p =
      (Scan.pick (fun i => (T i).state = .runnable) (fun i => (T i).prioKey) priPro p, T'') := by
  unfold scanStep Scan.pick
  rw [h.state p]
  split_ifs with hp
  · cases priPro with
    | none => exact ⟨T', h, rfl⟩
    | some q =>
      obtain ⟨T'', h', e⟩ := beats_eq p q T'
      refine ⟨T'', h.trans h', ?_⟩
      simp only [e, h.prioKey, decide_eq_true_eq]
      split_ifs <;> rfl
  · exact ⟨T', h, rfl⟩

theorem foldl_scanStep_eq {T : Table} :
    ∀ (l : List Slot) {T' : Table} (_ : Agree T T') (priPro : Option Slot),
      ∃ T'', Agree T T'' ∧ l.foldl scanStep (priPro, T') =
        (l.foldl (Scan.pick (fun i => (T i).state = .runnable) fun i => (T i).prioKey) priPro,
          T'')
  | [], T', h, _ => ⟨T', h, rfl⟩
  | p :: l, T', h, priPro => by
    obtain ⟨T₁, h₁, e₁⟩ := scanStep_eq h priPro p
    rw [List.foldl_cons, e₁, List.foldl_cons]
    exact foldl_scanStep_eq l h₁ _

/-- A slot that agrees with `p` up to `rbi` is `p` with another `rbi`. -/
theorem Proc.eq_of_erase {p p' : Proc} (h : p'.erase = p.erase) : p' = { p with rbi := p'.rbi } := by
  cases p
  cases p'
  simpa [erase] using h

/-- The pass as a whole : the scan's first minimum, dispatched. -/
theorem pbsPass_eq (T : Table) : ∃ T', Agree T T' ∧ ∃ sel,
    Scan.IsFirstMin (fun i => (T i).state = .runnable) (fun i => (T i).prioKey)
      (List.finRange NPROC) sel ∧
    pbsPass T = (sel, match sel with
      | none => T'
      | some i => update T' i (T' i).dispatch) := by
  obtain ⟨T', h, e⟩ := foldl_scanStep_eq (List.finRange NPROC) (Agree.refl T) none
  refine ⟨T', h, _, Scan.foldl_pick_isFirstMin _, ?_⟩
  unfold pbsPass
  rw [e]
  dsimp only
  split
  · next hnone => rw [hnone]
  · next i hsome => rw [hsome]

/-- One pass of the PBS loop selects a process iff one is RUNNABLE. The selected one is
RUNNABLE, least in (`dp_calc`, `schedule_count`, `ctime`) among the RUNNABLE ones, and the
first of those. Every other slot keeps every field but `rbi`, and so does the selected
one, except that it is dispatched : one more scheduling, `running_time` 0, RUNNING. -/
theorem pbsPass_selects (T : Table) :
    ((pbsPass T).1.isSome ↔ ∃ i, (T i).state = .runnable) ∧
    (∀ i, (pbsPass T).1 = some i → (T i).state = .runnable ∧
      (∀ j, (T j).state = .runnable → (T i).prioKey ≤ (T j).prioKey) ∧
      (∀ j < i, (T j).state = .runnable → (T i).prioKey < (T j).prioKey) ∧
      (pbsPass T).2 i = { T i with
        rbi := ((pbsPass T).2 i).rbi, scheduleCount := (T i).scheduleCount + 1,
        runningTime := 0, state := .running }) ∧
    ∀ j, (pbsPass T).1 ≠ some j →
      (pbsPass T).2 j = { T j with rbi := ((pbsPass T).2 j).rbi } := by
  obtain ⟨T', h, sel, hmin, e⟩ := pbsPass_eq T
  rw [e]
  refine ⟨by simpa using hmin.isSome_iff, ?_, ?_⟩
  · rintro i rfl
    refine ⟨hmin.1, fun j hj => hmin.le (List.mem_finRange j) hj, fun j hlt hj =>
      hmin.lt_of_lt (List.pairwise_lt_finRange NPROC) (List.mem_finRange j) hj hlt, ?_⟩
    simp only [update_self]
    have hi := Proc.eq_of_erase (h i)
    rw [hi]
    rfl
  · intro j hj
    cases sel with
    | none => exact Proc.eq_of_erase (h j)
    | some i =>
      have hji : j ≠ i := fun hji => hj (by rw [hji])
      simp only [update_of_ne hji]
      exact Proc.eq_of_erase (h j)

end CowPbs
