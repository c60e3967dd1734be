import Mathlib
import CowPbs.DynPriority
import CowPbs.SetPriority

/-!
# The contract of `sys_setpriority`

One call of `sys_setpriority` (sysproc.c, built with PBS) on a process table, with nothing
beside it. `Promise` is what the call is documented to do for the processes that exist : it
fails without an effect, or gives the process its new priority with `rbi` back at 25, and
yields if that is preferred now.

`change_priority` clears two of the counters and leaves `rbi` alone. The next `dp_calc`
then finds a numerator of at most 0, so the priority is the new one and not 25 more, which
is the same at 100 only. The loop moreover takes any slot with the pid, also one that is
not in use (`setPriority_promise_iff`).
-/

open Function CInt

namespace CowPbs

/-- The loop of `sys_setpriority` : the first slot with that pid, in use or not. -/
def lookup (T : Table) (pid : Int32) : Option Slot :=
  (List.finRange NPROC).find? fun i => (T i).pid == pid

/-- `change_priority` : the value returned, the table, and whether the caller yielded. -/
def changePriority (T : Table) (me : Slot) (new : Int32) (prc : Slot) : Int32 × Table × Bool :=
  let op := (T prc).stPriority
  let T := update T prc ((T prc).changePriority new)
  if new < op then (op, update T me (T me).yield, true) else (op, T, false)

/-- `sys_setpriority(pid, new)` of the process `me`. -/
def setPriority (T : Table) (me : Slot) (pid new : Int32) : Int32 × Table × Bool :=
  if checkValidNewp new ∨ checkValidPid pid then (-1, T, false)
  else
    match lookup T pid with
    | none => (-1, T, false)
    | some prc => changePriority T me new prc

/-- The slot is in use, by the process `pid`. -/
def IsProc (T : Table) (pid : Int32) (i : Slot) : Prop :=
  (T i).state ≠ .unused ∧ (T i).pid = pid

instance (T : Table) (pid : Int32) (i : Slot) : Decidable (IsProc T pid i) :=
  inferInstanceAs (Decidable (_ ∧ _))

/-- What a successful call is to do to the process in slot `i`, and to nobody else. -/
structure Promise.Done (T : Table) (new : Int32) (r : Int32) (T' : Table) (yielded : Bool)
    (i : Slot) : Prop where
  ret : r = (T i).stPriority
  priority : (T' i).stPriority = new
  rbi : (T' i).rbi = 25
  /-- The dynamic priority at the next scheduling. -/
  next : ∃ dp, (T' i).dpCalcC = some dp ∧ dp.toInt = Min.min (new.toInt + 25) 100
  others : ∀ j ≠ i, ∃ st, T' j = { T j with state := st }
  yields : yielded = true ↔ new < (T i).stPriority

/-- The contract of one call that returned `r` with the table `T'`. -/
structure Promise (T : Table) (pid new : Int32) (r : Int32) (T' : Table) (yielded : Bool) :
    Prop where
  fails : (r = -1 ∧ T' = T) ↔ ¬(0 ≤ new ∧ new ≤ 100) ∨ ∀ i, ¬IsProc T pid i
  succeeds : 0 ≤ new → new ≤ 100 → (∃ i, IsProc T pid i) →
    ∃ i, IsProc T pid i ∧ Promise.Done T new r T' yielded i

/-! ## What the call does -/

variable {T : Table} {me i : Slot} {pid new r : Int32}

theorem lookup_pid (h : lookup T pid = some i) : (T i).pid = pid := by
  simpa using List.find?_some h

theorem lookup_none (h : lookup T pid = none) (i : Slot) : ¬IsProc T pid i := by
  rintro ⟨-, hi⟩
  have := List.find?_eq_none.1 h i (List.mem_finRange i)
  simp [hi] at this

/-- Up to the state of the caller, only the slot `prc` changes. -/
theorem changePriority_spec (T : Table) (me : Slot) (new : Int32) (prc : Slot) :
    ∃ T' yielded, changePriority T me new prc = ((T prc).stPriority, T', yielded) ∧
      (yielded = true ↔ new < (T prc).stPriority) ∧
      ∀ k, ∃ st, T' k = { update T prc ((T prc).changePriority new) k with state := st } := by
  unfold changePriority
  dsimp only
  split_ifs with hlt
  · refine ⟨_, _, rfl, by simp [hlt], fun k => ?_⟩
    by_cases hk : k = me
    · subst hk
      exact ⟨.runnable, by rw [update_self]; rfl⟩
    · exact ⟨_, by rw [update_of_ne hk]⟩
  · exact ⟨_, _, rfl, by simp [hlt], fun k => ⟨_, rfl⟩⟩

/-- Once the counters are cleared, the dynamic priority is the new static one. It is defined
unless the waiting time is too large, or -1. -/
theorem dpCalcC_changePriority (p : Proc) (new : Int32) {dp : Int32} :
    (p.changePriority new).dpCalcC = some dp ↔
      (-42949672 ≤ p.waitTime.toInt ∧ p.waitTime.toInt ≤ 42949672 ∧ p.waitTime.toInt ≠ -1) ∧
        dp = new := by
  rw [Proc.dpCalcC_eq_some]
  have hnum : (p.changePriority new).rbiNum = -50 * p.waitTime.toInt := by
    show (3 * 0 - 0 - p.waitTime.toInt) * 50 = _
    ring
  have hden : (p.changePriority new).rbiDen = p.waitTime.toInt + 1 := by
    show 0 + p.waitTime.toInt + 0 + 1 = _
    ring
  have hquot : (-50 * p.waitTime.toInt).tdiv (p.waitTime.toInt + 1) ≤ 0 := by
    rcases le_or_gt 0 p.waitTime.toInt with h | h
    · rw [neg_mul, Int.neg_tdiv]
      have := Int.tdiv_nonneg (by omega : 0 ≤ 50 * p.waitTime.toInt)
        (by omega : 0 ≤ p.waitTime.toInt + 1)
      omega
    · exact Int.tdiv_nonpos_of_nonneg_of_nonpos (by omega) (by omega)
  have hval : (p.changePriority new).stPriority.toInt +
      Max.max ((p.changePriority new).rbiNum.tdiv (p.changePriority new).rbiDen) 0 =
        new.toInt := by
    rw [hnum, hden, max_eq_right hquot]
    exact add_zero _
  rw [hval, Int32.toInt_inj]
  refine and_congr_left fun _ => ⟨fun h => ?_, fun h => ?_⟩
  · have h₁ := h.num
    have h₂ := h.den_ne
    rw [hnum] at h₁
    rw [hden] at h₂
    obtain ⟨h₁, h₁'⟩ := h₁
    omega
  · have habs := Int.natAbs_tdiv_le_natAbs (-50 * p.waitTime.toInt) (p.waitTime.toInt + 1)
    have hzero : InRange 0 := by decide
    refine ⟨hzero, hzero, ?_, ?_, ?_, ?_, ?_, ?_, ?_⟩
    · show InRange (3 * 0 - 0 - p.waitTime.toInt)
      exact ⟨by omega, by omega⟩
    · rw [hnum]
      exact ⟨by omega, by omega⟩
    · show InRange (0 + p.waitTime.toInt)
      exact ⟨by omega, by omega⟩
    · show InRange (0 + p.waitTime.toInt + 0)
      exact ⟨by omega, by omega⟩
    · rw [hden]
      exact ⟨by omega, by omega⟩
    · rw [hden]
      omega
    · rw [hnum, hden]
      exact ⟨by omega, by omega⟩

/-! ## When the contract is kept -/

/-- The call on the slot `i` keeps its promise to the process in it : `rbi` is 25 already,
and the new priority is 100, where 25 more makes no difference. -/
def KeepsRbi (p : Proc) (new : Int32) : Prop :=
  p.rbi = 25 ∧ new = 100 ∧
    -42949672 ≤ p.waitTime.toInt ∧ p.waitTime.toInt ≤ 42949672 ∧ p.waitTime.toInt ≠ -1

/-- The process is already as the call is to leave it. -/
def AlreadySet (p : Proc) (new : Int32) : Prop :=
  p.stPriority = new ∧ p.rbi = 25 ∧
    ∃ dp, p.dpCalcC = some dp ∧ dp.toInt = Min.min (new.toInt + 25) 100

/-- `sys_setpriority(pid, new)` changes nothing in the slot. -/
def Unaffected (p : Proc) (new : Int32) : Prop :=
  p.stPriority = new ∧ p.runningTime = 0 ∧ p.sleepTime = 0

theorem Unaffected.changePriority_eq {p : Proc} (h : Unaffected p new) :
    p.changePriority new = p := by
  obtain ⟨rfl, hrun, hsleep⟩ := h
  cases p
  cases hrun
  cases hsleep
  rfl

/-- The calls that keep the contract. -/
def Keeps (T : Table) (pid new : Int32) : Prop :=
  (0 ≤ new ∧ new ≤ 100) →
    match (if pid < 0 then none else lookup T pid) with
    | none => ∀ i, ¬IsProc T pid i
    | some i => ((T i).state ≠ .unused ∧ KeepsRbi (T i) new) ∨
        (Unaffected (T i) new ∧ ∃ j, IsProc T pid j ∧ AlreadySet (T j) new)

/-- A call that reaches `change_priority`. -/
theorem promise_changePriority (hi : lookup T pid = some i) (h0 : 0 ≤ new) (h100 : new ≤ 100) :
    Promise T pid new (changePriority T me new i).1 (changePriority T me new i).2.1
        (changePriority T me new i).2.2 ↔
      ((T i).state ≠ .unused ∧ KeepsRbi (T i) new) ∨
        (Unaffected (T i) new ∧ ∃ j, IsProc T pid j ∧ AlreadySet (T j) new) := by
  obtain ⟨T', yielded, heq, hy, hT⟩ := changePriority_spec T me new i
  rw [heq]
  dsimp only
  obtain ⟨st, hst⟩ := hT i
  rw [update_self] at hst
  have hother : ∀ k ≠ i, ∃ st, T' k = { T k with state := st } := by
    intro k hk
    have := hT k
    rwa [update_of_ne hk] at this
  have hmin : ∀ n : ℤ, n ≤ 100 → n = Min.min (n + 25) 100 → n = 100 := by omega
  have hn0 : 0 ≤ new.toInt := Int32.le_iff_toInt_le.1 h0
  have hn100 : new.toInt ≤ 100 := Int32.le_iff_toInt_le.1 h100
  -- the call has an effect unless the priority was the new one, which is not -1
  have hfails : ¬((T i).stPriority = -1 ∧ T' = T) := by
    rintro ⟨h1, rfl⟩
    rw [hst] at h1
    rw [show new = -1 from h1] at h0
    exact absurd h0 (by decide)
  have hnext : ∀ dp, (T' i).dpCalcC = some dp → dp.toInt = Min.min (new.toInt + 25) 100 →
      new = 100 ∧ -42949672 ≤ (T i).waitTime.toInt ∧ (T i).waitTime.toInt ≤ 42949672 ∧
        (T i).waitTime.toInt ≠ -1 := by
    intro dp hdp hval
    rw [hst] at hdp
    obtain ⟨hw, rfl⟩ := (dpCalcC_changePriority (T i) new).1 hdp
    exact ⟨Int32.toInt_inj.1 (hmin _ hn100 hval), hw⟩
  constructor
  · rintro ⟨hfail, hsucc⟩
    have hex : ∃ k, IsProc T pid k := by
      by_contra hno
      exact hfails (hfail.2 (.inr fun k hk => hno ⟨k, hk⟩))
    obtain ⟨j, hj, hd⟩ := hsucc h0 h100 hex
    obtain ⟨dp, hdp, hval⟩ := hd.next
    by_cases hji : j = i
    · subst hji
      have hrbi := hd.rbi
      rw [hst] at hrbi
      exact .inl ⟨hj.1, hrbi, hnext dp hdp hval⟩
    · obtain ⟨sti, hi'⟩ := hd.others i (Ne.symm hji)
      obtain ⟨stj, hTj⟩ := hother j hji
      have hprio := hd.priority
      have hrbi := hd.rbi
      rw [hst] at hi'
      rw [hTj] at hprio hrbi hdp
      refine .inr ⟨⟨?_, ?_, ?_⟩, j, hj, hprio, hrbi, dp, hdp, hval⟩
      · exact (congrArg Proc.stPriority hi').symm
      · exact (congrArg Proc.runningTime hi').symm
      · exact (congrArg Proc.sleepTime hi').symm
  · rintro (⟨hlive, hrbi, rfl, hw⟩ | ⟨hun, j, hj, hjst, hjrbi, dp, hdp, hval⟩)
    · have hproc : IsProc T pid i := ⟨hlive, lookup_pid hi⟩
      refine ⟨iff_of_false hfails fun h => ?_, fun _ _ _ => ⟨i, hproc, rfl, ?_, ?_, ?_, ?_, hy⟩⟩
      · exact h.elim (fun h => h ⟨h0, h100⟩) fun h => h i hproc
      · rw [hst]
        rfl
      · rw [hst]
        exact hrbi
      · rw [hst]
        exact ⟨100, (dpCalcC_changePriority (T i) 100).2 ⟨hw, rfl⟩, by decide⟩
      · exact hother
    · have hsame : ∀ k, ∃ st, T' k = { T k with state := st } := by
        intro k
        by_cases hk : k = i
        · subst hk
          exact ⟨st, by rw [hst, hun.changePriority_eq]⟩
        · exact hother k hk
      obtain ⟨stj, hTj⟩ := hsame j
      refine ⟨iff_of_false hfails fun h => ?_, fun _ _ _ => ⟨j, hj, ?_, ?_, ?_, ⟨dp, ?_, hval⟩,
        fun k _ => hsame k, ?_⟩⟩
      · exact h.elim (fun h => h ⟨h0, h100⟩) fun h => h j hj
      · exact hun.1.trans hjst.symm
      · rw [hTj]
        exact hjst
      · rw [hTj]
        exact hjrbi
      · rw [hTj]
        exact hdp
      · rw [hy, hun.1, hjst]

/-- A call of `sys_setpriority` keeps the contract if and only if it has nothing to do : the
priority is not in `[0, 100]`, or no slot has the pid, or the first slot that has it is in
use, with `rbi` 25, and the new priority is 100; or the call hits a slot in which it changes
nothing while a process with the pid has the priority already. -/
theorem setPriority_promise_iff (T : Table) (me : Slot) (pid new : Int32) :
    Promise T pid new (setPriority T me pid new).1 (setPriority T me pid new).2.1
      (setPriority T me pid new).2.2 ↔ Keeps T pid new := by
  by_cases hnew : 0 ≤ new ∧ new ≤ 100
  · obtain ⟨h0, h100⟩ := hnew
    have hvalid : checkValidNewp new = false := by
      simp only [checkValidNewp, decide_eq_false_iff_not, not_or, Int32.not_lt]
      exact ⟨h0, h100⟩
    -- without a slot the call fails, which is right if there is no process
    have hnone : Promise T pid new (-1) T false ↔ ∀ i, ¬IsProc T pid i := by
      constructor
      · exact fun h => (h.fails.1 ⟨rfl, rfl⟩).resolve_left fun hn => hn ⟨h0, h100⟩
      · exact fun h => ⟨iff_of_true ⟨rfl, rfl⟩ (.inr h), fun _ _ ⟨i, hi⟩ => absurd hi (h i)⟩
    unfold setPriority Keeps
    simp only [hvalid, checkValidPid, Bool.false_eq_true, false_or, decide_eq_true_eq]
    rw [forall_prop_of_true ⟨h0, h100⟩]
    by_cases hpid : pid < 0
    · simp only [if_pos hpid]
      exact hnone
    · simp only [if_neg hpid]
      cases hl : lookup T pid with
      | none => exact hnone
      | some i => exact promise_changePriority hl h0 h100
  · have hvalid : checkValidNewp new = true := by
      by_contra h
      simp only [checkValidNewp, decide_eq_true_eq, not_or, Int32.not_lt] at h
      exact hnew h
    unfold setPriority Keeps
    simp only [hvalid, true_or, if_true]
    exact iff_of_true ⟨iff_of_true ⟨rfl, rfl⟩ (.inl hnew), fun h0 h100 => absurd ⟨h0, h100⟩ hnew⟩
      fun h => absurd h hnew

/-- The table at boot, with `init` in slot 0. -/
def initTable : Table := fun i =>
  if i = 0 then { (Proc.zero.found 1).fresh 0 with state := .running } else Proc.zero

/-- `init` asks for the priority 60 instead of 50 : its next dynamic priority is 60, not 85. -/
theorem setPriority_breaks_promise :
    (setPriority initTable 0 1 60).1 = 50 ∧
    ((setPriority initTable 0 1 60).2.1 0).dpCalcC = some 60 ∧
    ¬Promise initTable 1 60 (setPriority initTable 0 1 60).1 (setPriority initTable 0 1 60).2.1
      (setPriority initTable 0 1 60).2.2 := by
  have hproc : IsProc initTable 1 0 := by decide
  refine ⟨by decide, by decide, fun h => ?_⟩
  obtain ⟨i, ⟨-, hi⟩, hd⟩ := h.succeeds (by decide) (by decide) ⟨0, hproc⟩
  have hi0 : i = 0 := by
    by_contra hne
    rw [initTable, if_neg hne] at hi
    exact absurd hi (by decide)
  subst hi0
  obtain ⟨dp, hdp, hval⟩ := hd.next
  have hdp60 : ((setPriority initTable 0 1 60).2.1 0).dpCalcC = some 60 := by decide
  obtain rfl := Option.some.inj (hdp.symm.trans hdp60)
  exact absurd hval (by decide)

end CowPbs
