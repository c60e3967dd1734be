import Mathlib
import CowPbs.Section

/-!
# Sleep-locks

`acquiresleep` and `releasesleep` (sleeplock.c) on one sleep-lock, by any processes of the
table, interleaved at the granularity of locks with each other, with the scheduler and with
the rest of proc.c (`Section`, `kill` among it). The inner spinlock `lk->lk` has a holder.
A section under one `p->lock` is one step, except in `sleep`, where a process keeps its own
`p->lock` across the `release(lk)` and until the scheduler, to which it switches, releases
it (`SleepPc.holdsOwn`). A `wakeup` takes the `p->lock` of each slot in turn.

A process that has released the inner lock in order to sleep is `Committed`. While it is,
the sleep-lock is taken, or a `releasesleep` is in its `wakeup` and has yet to visit the
slot. So when the inner lock is free and the sleep-lock is not taken, nobody sleeps on it.
-/

open Function Transition

namespace CowPbs

/-- Where a process is. -/
inductive SleepPc
  /-- In none of the functions below, and whether it has the sleep-lock : between the
  return of `acquiresleep` and the call of `releasesleep`. -/
  | run (has : Bool)
  /-- In `sleep`, off the CPU, on another channel. -/
  | sleeping (has : Bool)
  /-- Before `acquire(&lk->lk)`, in `acquiresleep` or at the end of its `sleep`. -/
  | acquire
  /-- Before the test of `lk->locked`. -/
  | test
  /-- In `sleep(lk, &lk->lk)`, before `acquire(&p->lock)`. -/
  | sleep
  /-- The same, before `release(lk)`. -/
  | sleepLocked
  /-- The same, after `release(lk)`. -/
  | sleepUnlocked
  /-- The same, SLEEPING, before the scheduler releases `p->lock`. -/
  | sched
  /-- The same, off the CPU. -/
  | asleep
  /-- `lk->locked` is set, before `release(&lk->lk)`. -/
  | acquired
  /-- In `releasesleep`, before `acquire(&lk->lk)`. -/
  | releaseCall
  /-- The same, before `lk->locked = 0`. -/
  | releaseLocked
  /-- In its `wakeup(lk)`, before slot `j`. -/
  | wakeup (j : ℕ)
  deriving DecidableEq

namespace SleepPc

/-- The process holds `lk->lk`. -/
def holdsInner : SleepPc → Bool
  | test | sleep | sleepLocked | acquired | releaseLocked | wakeup _ => true
  | run _ | sleeping _ | acquire | sleepUnlocked | sched | asleep | releaseCall => false

/-- The process holds its own `p->lock`. -/
def holdsOwn : SleepPc → Bool
  | sleepLocked | sleepUnlocked | sched => true
  | run _ | sleeping _ | acquire | test | sleep | asleep | acquired | releaseCall | releaseLocked
  | wakeup _ => false

/-- The process is between the return of `acquiresleep` and the store in `releasesleep`. -/
def inside : SleepPc → Bool
  | run has | sleeping has => has
  | releaseCall | releaseLocked => true
  | acquire | test | sleep | sleepLocked | sleepUnlocked | sched | asleep | acquired
  | wakeup _ => false

/-- The sleep-lock is taken, by this process. -/
def owns (pc : SleepPc) : Bool :=
  pc.inside || pc = acquired

/-- The process can be preempted : it is on the CPU, with no lock. -/
def preemptible : SleepPc → Bool
  | run _ | acquire | releaseCall => true
  | sleeping _ | test | sleep | sleepLocked | sleepUnlocked | sched | asleep | acquired
  | releaseLocked | wakeup _ => false

/-- Where a process goes on when it is scheduled : `sleep` clears `p->chan`, and takes the
condition lock again. -/
def resume : SleepPc → SleepPc
  | sleeping has => run has
  | asleep => acquire
  | pc => pc

end SleepPc

/-- The section sleeps on `chan` or wakes it up. -/
def Section.uses (chan : Chan) : Section → Bool
  | sleep c | wakeup c => c = some chan
  | alloc _ _ | adopt | publish | exit _ | free | reparent | kill | wake | yield
  | changePriority _ => false

/-- Where the process is after the section. -/
def Section.pc (has : Bool) : Section → SleepPc
  | sleep _ => .sleeping has
  | alloc _ _ | adopt | publish | exit _ | free | reparent | wakeup _ | kill | wake | yield
  | changePriority _ => .run has

/-- The section is not one a process is in with the sleep-lock : it does not die with it. -/
def Section.may (has : Bool) : Section → Bool
  | exit _ => !has
  | alloc _ _ | adopt | publish | free | reparent | wakeup _ | kill | sleep _ | wake | yield
  | changePriority _ => true

/-- The table, the sleep-lock, and where each process is. -/
structure SleepSys where
  sys : ProcSys
  /-- The holder of `lk->lk`. -/
  inner : Option Slot
  /-- `lk->locked`. -/
  locked : Bool
  /-- `lk->pid`. -/
  pid : Int32
  pc : Slot → SleepPc

namespace SleepSys

/-- The state of slot `i`. -/
abbrev state (s : SleepSys) (i : Slot) : ProcState :=
  (s.sys.proc i).state

/-- The `p->lock` of slot `i` is not held. -/
def Unlocked (s : SleepSys) (i : Slot) : Prop :=
  (s.pc i).holdsOwn = false

/-- Process `p` goes to `pc`. -/
def goto (s : SleepSys) (p : Slot) (pc : SleepPc) : SleepSys :=
  { s with pc := update s.pc p pc }

/-- Slot `i` is rewritten. -/
def set (s : SleepSys) (i : Slot) (P : Proc) : SleepSys :=
  { s with sys := { s.sys with proc := update s.sys.proc i P } }

/-- Process `i` is SLEEPING on the sleep-lock at `lk`. -/
def SleepsOn (s : SleepSys) (lk : ℕ) (i : Slot) : Prop :=
  s.state i = .sleeping ∧ (s.sys.proc i).chan = some (.obj lk)

/-- One step, with the process that moves. It moves only while it is RUNNING, except that
the scheduler takes it off the CPU and puts it back. -/
inductive Step (lk : ℕ) (s : SleepSys) : Slot → SleepSys → Prop
  -- `acquiresleep`
  | call (p : Slot) (hpc : s.pc p = .run false) (hp : s.state p = .running) :
    Step lk s p (s.goto p .acquire)
  | acquire (p : Slot) (hpc : s.pc p = .acquire) (hp : s.state p = .running)
      (hl : s.inner = none) :
    Step lk s p ({ s with inner := some p }.goto p .test)
  | locked (p : Slot) (hpc : s.pc p = .test) (hp : s.state p = .running)
      (hl : s.locked = true) :
    Step lk s p (s.goto p .sleep)
  | free (p : Slot) (hpc : s.pc p = .test) (hp : s.state p = .running)
      (hl : s.locked = false) :
    Step lk s p ({ s with locked := true, pid := (s.sys.proc p).pid }.goto p .acquired)
  | acquired (p : Slot) (hpc : s.pc p = .acquired) (hp : s.state p = .running) :
    Step lk s p ({ s with inner := none }.goto p (.run true))
  -- its `sleep(lk, &lk->lk)`
  | sleep (p : Slot) (hpc : s.pc p = .sleep) (hp : s.state p = .running) :
    Step lk s p (s.goto p .sleepLocked)
  | sleepRelease (p : Slot) (hpc : s.pc p = .sleepLocked) (hp : s.state p = .running) :
    Step lk s p ({ s with inner := none }.goto p .sleepUnlocked)
  | sleepState (p : Slot) (hpc : s.pc p = .sleepUnlocked) (hp : s.state p = .running) :
    Step lk s p ((s.set p ((s.sys.proc p).sleep (some (.obj lk)))).goto p .sched)
  | sched (p : Slot) (hpc : s.pc p = .sched) : Step lk s p (s.goto p .asleep)
  -- `releasesleep`
  | releaseCall (p : Slot) (hpc : s.pc p = .run true) (hp : s.state p = .running) :
    Step lk s p (s.goto p .releaseCall)
  | releaseAcquire (p : Slot) (hpc : s.pc p = .releaseCall) (hp : s.state p = .running)
      (hl : s.inner = none) :
    Step lk s p ({ s with inner := some p }.goto p .releaseLocked)
  | release (p : Slot) (hpc : s.pc p = .releaseLocked) (hp : s.state p = .running) :
    Step lk s p ({ s with locked := false, pid := 0 }.goto p (.wakeup 0))
  | wakeup (p j : Slot) (hpc : s.pc p = .wakeup j) (hp : s.state p = .running)
      (hpj : j ≠ p) (hj : s.Unlocked j) :
    Step lk s p ((s.set j ((s.sys.proc j).wakeup (some (.obj lk)))).goto p (.wakeup (j + 1)))
  | wakeupSelf (p : Slot) (hpc : s.pc p = .wakeup p) (hp : s.state p = .running) :
    Step lk s p (s.goto p (.wakeup (p + 1)))
  | released (p : Slot) (hpc : s.pc p = .wakeup NPROC) (hp : s.state p = .running) :
    Step lk s p ({ s with inner := none }.goto p (.run false))
  -- the rest of proc.c, and the scheduler
  | work (p i : Slot) (has : Bool) (c : Section) (t : ProcSys) (hpc : s.pc p = .run has)
      (hi : c.locks = true → s.Unlocked i) (hc : c.uses (.obj lk) = false)
      (hm : c.may has = true) (ht : c.run s.sys p i = some t) :
    Step lk s p ({ s with sys := t }.goto p (c.pc has))
  | wakeupIntr (p : Slot) (chan : Chan) (hc : chan ≠ .obj lk) (hi : s.Unlocked p) :
    Step lk s p (s.set p ((s.sys.proc p).wakeup (some chan)))
  | preempt (p : Slot) (hpc : (s.pc p).preemptible = true) (hp : s.state p = .running) :
    Step lk s p (s.set p (s.sys.proc p).yield)
  | dispatch (p : Slot) (hl : s.Unlocked p) (hp : s.state p = .runnable) :
    Step lk s p
      ((s.set p { (s.sys.proc p).dispatch with
        chan := if (s.pc p).resume = s.pc p then (s.sys.proc p).chan else none }).goto p
        (s.pc p).resume)

/-- After boot and `initsleeplock`. -/
def Boot (s : SleepSys) : Prop :=
  s.sys.Boot ∧ s.inner = none ∧ s.locked = false ∧ s.pid = 0 ∧ ∀ i, s.pc i = .run false

end SleepSys

/-! ## What the other sections do to a sleeper -/

/-- A section that does not use the channel puts nobody to sleep on it. -/
theorem Section.sleeping_of_slot {s : ProcSys} {q i : Slot} {c : Section} {P : Proc} {chan : Chan}
    (hP : c.slot s q i = some P) (hc : c.uses chan = false) (hst : P.state = .sleeping)
    (hch : P.chan = some chan) :
    (s.proc i).state = .sleeping ∧ (s.proc i).chan = some chan := by
  cases c <;> simp only [slot, uses, Option.ite_none_right_eq_some, Option.ite_none_left_eq_some,
    Option.some.injEq, Option.map_eq_some_iff, Prod.exists, decide_eq_false_iff_not] at hP hc
  case alloc o uvmcopy =>
    obtain ⟨-, pid, _, -, rfl⟩ := hP
    rcases o with _ | _ | ⟨tf, pt⟩
    · cases hst
    · cases hst
    · cases uvmcopy <;> cases hst
  case wakeup c =>
    obtain ⟨-, rfl⟩ := hP
    unfold Proc.wakeup at hst hch
    split_ifs at hst hch
    exact ⟨hst, hch⟩
  case kill =>
    subst hP
    simp only [Proc.kill] at hst
    split_ifs at hst with h
    exact (h hst).elim
  case sleep c =>
    obtain ⟨-, rfl⟩ := hP
    exact (hc hch).elim
  case wake =>
    obtain ⟨-, rfl⟩ := hP
    cases hch
  case changePriority new =>
    subst hP
    exact ⟨hst, hch⟩
  case adopt | reparent =>
    obtain ⟨-, rfl⟩ := hP
    exact ⟨hst, hch⟩
  all_goals
    obtain ⟨-, rfl⟩ := hP
    cases hst

@[simp] theorem Section.pc_holdsInner (has : Bool) (c : Section) :
    (c.pc has).holdsInner = false := by
  cases c <;> rfl

@[simp] theorem Section.pc_owns (has : Bool) (c : Section) : (c.pc has).owns = has := by
  cases c <;> simp [Section.pc, SleepPc.owns, SleepPc.inside]

namespace SleepSys

variable {lk : ℕ} {s t : SleepSys} {p q : Slot}

@[simp] theorem goto_pc (pc : SleepPc) : (s.goto p pc).pc q = if q = p then pc else s.pc q :=
  update_apply ..

@[simp] theorem set_proc (P : Proc) :
    (s.set p P).sys.proc q = if q = p then P else s.sys.proc q :=
  update_apply ..

theorem resume_holdsInner (pc : SleepPc) : pc.resume.holdsInner = pc.holdsInner := by
  cases pc <;> rfl

theorem resume_owns (pc : SleepPc) : pc.resume.owns = pc.owns := by
  cases pc <;> simp [SleepPc.resume, SleepPc.owns, SleepPc.inside]

/-- A step moves one process. -/
theorem Step.pc_of_ne (hs : Step lk s p t) (hq : q ≠ p) : t.pc q = s.pc q := by
  cases hs <;> simp [goto, set, hq]

/-! ## The invariant -/

/-- Process `p` has released the inner lock in order to sleep, and no `wakeup` has reached
it yet. -/
def Committed (s : SleepSys) (lk : ℕ) (p : Slot) : Prop :=
  s.pc p = .sleepUnlocked ∨ s.pc p = .sched ∨ (s.pc p = .asleep ∧ s.SleepsOn lk p)

/-- The inner lock is held by the process whose code says so, at most one process owns the
sleep-lock, and a process that is about to sleep, or does, will not be missed. -/
structure Inv (lk : ℕ) (s : SleepSys) : Prop where
  inner : ∀ p, s.inner = some p ↔ (s.pc p).holdsInner = true
  owner : ∀ p, (s.pc p).owns = true → s.locked = true
  unique : ∀ p q, (s.pc p).owns = true → (s.pc q).owns = true → p = q
  asleep : ∀ p, s.SleepsOn lk p → s.pc p = .sched ∨ s.pc p = .asleep
  taken : ∀ p, s.pc p = .sleep ∨ s.pc p = .sleepLocked → s.locked = true
  woken : ∀ p, s.Committed lk p → s.locked = true ∨ ∃ q j, s.pc q = .wakeup j ∧ j ≤ p

namespace Inv

theorem boot (h : s.Boot) : Inv lk s := by
  obtain ⟨hsys, hin, hl, -, hpc⟩ := h
  have hns : ∀ p, ¬s.SleepsOn lk p := by
    obtain ⟨ticks, tf, pt, hs⟩ := hsys
    rintro p ⟨hst, -⟩
    rw [state, hs] at hst
    by_cases hp : p = 0
    · subst hp
      simp [ProcSys.boot] at hst
    · simp [ProcSys.boot, hp, Proc.zero] at hst
  refine ⟨fun p => ?_, fun p hp => ?_, fun p q hp => ?_, fun p hp => (hns p hp).elim,
    fun p hp => ?_, fun p hp => ?_⟩
  · simp [hin, hpc, SleepPc.holdsInner]
  · simp [hpc, SleepPc.owns, SleepPc.inside] at hp
  · simp [hpc, SleepPc.owns, SleepPc.inside] at hp
  · simp [hpc] at hp
  · rcases hp with hp | hp | ⟨hp, -⟩ <;> simp [hpc] at hp

/-- The inner lock is taken when it is free and released by its holder. -/
theorem inner_step (h : Inv lk s) (hs : Step lk s p t) (q : Slot) :
    t.inner = some q ↔ (t.pc q).holdsInner = true := by
  have hp := h.inner p
  by_cases hqp : q = p
  · subst hqp
    cases hs with
    | work i has c u hpc hi hc hm ht =>
      have hpc' : (s.pc q).holdsInner = false := by rw [hpc]; rfl
      simpa [goto, hpc'] using hp
    | dispatch hl hr =>
      simpa [goto, set, resume_holdsInner] using hp
    | wakeupIntr chan hc hi => exact hp
    | preempt hpc hr => exact hp
    | _ => simp_all [SleepPc.holdsInner, goto, set]
  · rw [hs.pc_of_ne hqp, ← h.inner q]
    cases hs <;> simp_all [SleepPc.holdsInner, goto, set, Ne.symm hqp]

/-- What a step does to the owners of the sleep-lock : none becomes one, except a process
that found it free, and then it is taken. -/
theorem owns_inv (h : Inv lk s) (hs : Step lk s p t) (hq : (t.pc q).owns = true) :
    t.locked = true ∧ ((s.pc q).owns = true ∨ (q = p ∧ s.locked = false)) := by
  by_cases hqp : q = p
  · subst hqp
    have hold := h.owner q
    cases hs with
    | work i has c u hpc hi hc hm ht =>
      have hhas : has = true := by simpa [goto] using hq
      have hown : (s.pc q).owns = true := by simp [hpc, hhas, SleepPc.owns, SleepPc.inside]
      exact ⟨hold hown, .inl hown⟩
    | dispatch hl hr =>
      have hown : (s.pc q).owns = true := by simpa [goto, set, resume_owns] using hq
      exact ⟨hold hown, .inl hown⟩
    | wakeupIntr chan hc hi => exact ⟨hold hq, .inl hq⟩
    | preempt hpc hr => exact ⟨hold hq, .inl hq⟩
    | _ => simp_all [SleepPc.owns, SleepPc.inside, goto, set]
  · rw [hs.pc_of_ne hqp] at hq
    refine ⟨?_, .inl hq⟩
    have hold := h.owner q hq
    cases hs with
    | release hpc hr =>
      have hown : (s.pc p).owns = true := by simp [hpc, SleepPc.owns, SleepPc.inside]
      exact (hqp (h.unique q p hq hown)).elim
    | _ => simp_all [goto, set]

theorem unique_step (h : Inv lk s) (hs : Step lk s p t) (i j : Slot)
    (hi : (t.pc i).owns = true) (hj : (t.pc j).owns = true) : i = j := by
  rcases (h.owns_inv hs hi).2 with hi' | ⟨rfl, hl⟩ <;>
    rcases (h.owns_inv hs hj).2 with hj' | ⟨rfl, hl'⟩
  · exact h.unique i j hi' hj'
  · rw [h.owner i hi'] at hl'
    cases hl'
  · rw [h.owner j hj'] at hl
    cases hl
  · rfl

/-- Nobody falls asleep on the sleep-lock except at the end of `sleep`, and a `wakeup` of
it leaves nobody asleep in the slot it visits. -/
theorem sleepsOn_inv (hs : Step lk s p t) (hq : t.SleepsOn lk q) :
    (q = p ∧ s.pc p = .sleepUnlocked ∧ t.pc p = .sched) ∨
    (s.SleepsOn lk q ∧ (s.pc p = .wakeup q → t.pc p = .wakeup q)) := by
  obtain ⟨hst, hch⟩ := hq
  cases hs with
  | sleepState hpc hr =>
    by_cases hqp : q = p
    · exact .inl ⟨hqp, hpc, by simp⟩
    · simp only [state, goto, set_proc, hqp, ↓reduceIte] at hst hch
      exact .inr ⟨⟨hst, hch⟩, by simp [hpc]⟩
  | wakeup j hpc hr hpj hj =>
    by_cases hqj : q = j
    · subst hqj
      simp only [state, goto, set_proc, ↓reduceIte, Proc.wakeup] at hst hch
      split_ifs at hst hch with hsl
      exact (hsl ⟨hst, hch⟩).elim
    · simp only [state, goto, set_proc, hqj, ↓reduceIte] at hst hch
      refine .inr ⟨⟨hst, hch⟩, fun hw => ?_⟩
      rw [hpc, SleepPc.wakeup.injEq] at hw
      exact (hqj (Fin.ext hw.symm)).elim
  | wakeupSelf hpc hr =>
    refine .inr ⟨⟨hst, hch⟩, fun hw => ?_⟩
    rw [hpc, SleepPc.wakeup.injEq] at hw
    obtain rfl := Fin.ext hw
    rw [show s.state p = .sleeping from hst] at hr
    cases hr
  | work i has c u hpc hi hc hm ht =>
    obtain ⟨-, P, hP, rfl⟩ := Section.run_eq_some ht
    refine .inr ⟨?_, by simp [hpc]⟩
    by_cases hqi : q = i
    · subst hqi
      simp only [state, goto, update_self] at hst hch
      exact Section.sleeping_of_slot hP hc hst hch
    · simp only [state, goto, update_of_ne hqi] at hst hch
      exact ⟨hst, hch⟩
  | wakeupIntr chan hc hi =>
    refine .inr ⟨?_, id⟩
    by_cases hqp : q = p
    · subst hqp
      simp only [state, set_proc, ↓reduceIte, Proc.wakeup] at hst hch
      split_ifs at hst hch
      exact ⟨hst, hch⟩
    · simp only [state, set_proc, hqp, ↓reduceIte] at hst hch
      exact ⟨hst, hch⟩
  | preempt hpc hr =>
    refine .inr ⟨?_, id⟩
    by_cases hqp : q = p
    · subst hqp
      simp [state, set_proc, Proc.yield] at hst
    · simp only [state, set_proc, hqp, ↓reduceIte] at hst hch
      exact ⟨hst, hch⟩
  | dispatch hl hr =>
    by_cases hqp : q = p
    · subst hqp
      simp [state, set_proc, goto, Proc.dispatch] at hst
    · simp only [state, set_proc, goto, hqp, ↓reduceIte] at hst hch
      exact .inr ⟨⟨hst, hch⟩, fun hw => by simp [hw, SleepPc.resume]⟩
  | released hpc hr =>
    refine .inr ⟨⟨hst, hch⟩, fun hw => ?_⟩
    rw [hpc, SleepPc.wakeup.injEq] at hw
    exact absurd q.isLt (by omega)
  | _ => exact .inr ⟨⟨hst, hch⟩, by simp_all⟩

theorem asleep_step (h : Inv lk s) (hs : Step lk s p t) (hq : t.SleepsOn lk q) :
    t.pc q = .sched ∨ t.pc q = .asleep := by
  rcases sleepsOn_inv hs hq with ⟨rfl, -, hpc⟩ | ⟨hold, -⟩
  · exact .inl hpc
  · by_cases hqp : q = p
    · subst hqp
      have hpc := h.asleep q hold
      have hnr : s.state q ≠ .running := by simp [hold.1]
      have hnr' : s.state q ≠ .runnable := by simp [hold.1]
      cases hs <;> simp_all [goto, set]
    · rw [hs.pc_of_ne hqp]
      exact h.asleep q hold

theorem taken_step (h : Inv lk s) (hs : Step lk s p t)
    (hq : t.pc q = .sleep ∨ t.pc q = .sleepLocked) : t.locked = true := by
  have hold := h.taken q
  by_cases hqp : q = p
  · subst hqp
    cases hs with
    | work i has c u hpc hi hc hm ht => cases c <;> simp [goto, Section.pc] at hq
    | dispatch hl hr =>
      refine hold ?_
      cases hpc : s.pc q <;> simp_all [goto, SleepPc.resume]
    | _ => simp_all [goto, set]
  · rw [hs.pc_of_ne hqp] at hq
    have hin : s.inner = some q := by
      rw [h.inner]
      rcases hq with hq | hq <;> rw [hq] <;> rfl
    have hp := h.inner p
    have hl := hold hq
    cases hs with
    | release hpc hr =>
      rw [hpc, hin] at hp
      exact (hqp (Option.some.inj (hp.2 rfl))).elim
    | _ => simp_all [goto, set]

/-- The process that moves goes to `sleepUnlocked` from `sleepLocked`, and to `sched` from
`sleepUnlocked`. -/
theorem sleepUnlocked_inv (hs : Step lk s p t) (hp : t.pc p = .sleepUnlocked ∨ t.pc p = .sched) :
    (s.pc p = .sleepUnlocked ∨ s.pc p = .sched) ∨
    (s.pc p = .sleepLocked ∧ t.locked = s.locked) := by
  cases hs with
  | work i has c u hpc hi hc hm ht => cases c <;> simp [goto, Section.pc] at hp
  | dispatch hl hr =>
    refine .inl ?_
    cases hpc : s.pc p <;> simp_all [goto, SleepPc.resume]
  | _ => simp_all [goto, set]

/-- A `wakeup` does not pass a slot whose process holds its own `p->lock`. -/
theorem wakeup_of_holdsOwn (hs : Step lk s p t) (hqp : q ≠ p) (hq : (s.pc q).holdsOwn = true)
    (hw : s.pc p = .wakeup q) : t.pc p = .wakeup q := by
  have hq' : ¬s.Unlocked q := by simp [Unlocked, hq]
  cases hs with
  | wakeup j hpc hr hpj hj =>
    rw [hpc, SleepPc.wakeup.injEq] at hw
    obtain rfl := Fin.ext hw
    exact (hq' hj).elim
  | wakeupSelf hpc hr =>
    rw [hpc, SleepPc.wakeup.injEq] at hw
    exact (hqp (Fin.ext hw.symm)).elim
  | released hpc hr =>
    rw [hpc, SleepPc.wakeup.injEq] at hw
    exact absurd q.isLt (by omega)
  | dispatch hl hr => simp [goto, hw, SleepPc.resume]
  | _ => simp_all [set]

/-- A process commits itself to sleep when it releases the inner lock, and a `wakeup` does
not pass it by. -/
theorem committed_inv (h : Inv lk s) (hs : Step lk s p t) (hq : t.Committed lk q) :
    (s.Committed lk q ∧ (s.pc p = .wakeup q → t.pc p = .wakeup q)) ∨
    (s.pc q = .sleepLocked ∧ t.locked = s.locked) := by
  -- a process that holds its own lock, and one that is asleep
  have hor : (t.pc q = .sleepUnlocked ∨ t.pc q = .sched) ∨ (t.pc q = .asleep ∧ t.SleepsOn lk q) := by
    rcases hq with hq | hq | hq
    · exact .inl (.inl hq)
    · exact .inl (.inr hq)
    · exact .inr hq
  rcases hor with hq | ⟨hq, hsl⟩
  · by_cases hqp : q = p
    · subst hqp
      refine (sleepUnlocked_inv hs hq).imp (fun hold => ?_) id
      rcases hold with hold | hold
      · exact ⟨.inl hold, by simp [hold]⟩
      · exact ⟨.inr (.inl hold), by simp [hold]⟩
    · rw [hs.pc_of_ne hqp] at hq
      rcases hq with hq | hq
      · exact .inl ⟨.inl hq, wakeup_of_holdsOwn hs hqp (by rw [hq]; rfl)⟩
      · exact .inl ⟨.inr (.inl hq), wakeup_of_holdsOwn hs hqp (by rw [hq]; rfl)⟩
  · rcases sleepsOn_inv hs hsl with ⟨rfl, -, hpc⟩ | ⟨hold, hw⟩
    · rw [hq] at hpc
      cases hpc
    · refine .inl ⟨?_, hw⟩
      rcases h.asleep q hold with hpc | hpc
      · exact .inr (.inl hpc)
      · exact .inr (.inr ⟨hpc, hold⟩)

/-- A `wakeup` goes from one slot to the next. -/
theorem wakeup_next {j : ℕ} (hs : Step lk s p t) (hw : s.pc p = .wakeup j) (hj : j < NPROC) :
    t.pc p = .wakeup j ∨ t.pc p = .wakeup (j + 1) := by
  cases hs with
  | released hpc hr =>
    rw [hpc, SleepPc.wakeup.injEq] at hw
    exact absurd hj (by omega)
  | dispatch hl hr => simp [goto, hw, SleepPc.resume]
  | _ => simp_all [goto, set]

/-- The sleep-lock is released at the start of a `wakeup`, and a `wakeup` goes on from slot
to slot. -/
theorem woken_step (h : Inv lk s) (hs : Step lk s p t) (hq : t.Committed lk q) :
    t.locked = true ∨ ∃ i j, t.pc i = .wakeup j ∧ j ≤ q := by
  rcases h.committed_inv hs hq with ⟨hold, hpass⟩ | ⟨hpc, hl⟩
  · rcases h.woken q hold with hl | ⟨i, j, hij, hjq⟩
    · cases hs with
      | release hpc hr => exact .inr ⟨p, 0, by simp, Nat.zero_le _⟩
      | _ => simp_all [goto, set]
    · by_cases hip : i = p
      · subst hip
        rcases hjq.eq_or_lt with rfl | hlt
        · exact .inr ⟨i, q, hpass hij, le_rfl⟩
        · rcases wakeup_next hs hij (hjq.trans_lt q.isLt) with hw | hw
          · exact .inr ⟨i, j, hw, hjq⟩
          · exact .inr ⟨i, j + 1, hw, hlt⟩
      · exact .inr ⟨i, j, by rw [hs.pc_of_ne hip, hij], hjq⟩
  · exact .inl (hl.trans (h.taken q (.inr hpc)))

theorem step (h : Inv lk s) (hs : Step lk s p t) : Inv lk t where
  inner := h.inner_step hs
  owner _ hq := (h.owns_inv hs hq).1
  unique := h.unique_step hs
  asleep _ hq := h.asleep_step hs hq
  taken _ hq := h.taken_step hs hq
  woken _ hq := h.woken_step hs hq

theorem reachable (h : Reachable Boot (Step lk) s) : Inv lk s :=
  h.invariant (fun _ => boot) fun _ _ _ hI hs => hI.step hs

/-- With the inner lock free and the sleep-lock not taken, nobody sleeps on it. -/
theorem not_sleepsOn (h : Inv lk s) (hin : s.inner = none) (hl : s.locked = false) (p : Slot) :
    ¬s.SleepsOn lk p := by
  intro hsl
  have hc : s.Committed lk p := by
    rcases h.asleep p hsl with hpc | hpc
    · exact .inr (.inl hpc)
    · exact .inr (.inr ⟨hpc, hsl⟩)
  rcases h.woken p hc with hl' | ⟨q, j, hq, -⟩
  · rw [hl] at hl'
    cases hl'
  · have hq' := (h.inner q).2 (by rw [hq]; rfl)
    rw [hin] at hq'
    cases hq'

end Inv

/-- For any processes that call `acquiresleep` and `releasesleep` on one sleep-lock, in
every reachable state : at most one of them is between the return of `acquiresleep` and its
`releasesleep`, and if the inner lock is free and the sleep-lock is not taken, then no
process is SLEEPING on it. -/
theorem sleeplock_safe (h : Reachable Boot (Step lk) s) :
    (∀ p q, (s.pc p).inside = true → (s.pc q).inside = true → p = q) ∧
    (s.inner = none → s.locked = false → ∀ p, ¬s.SleepsOn lk p) := by
  have hI := Inv.reachable h
  refine ⟨fun p q hp hq => hI.unique p q ?_ ?_, hI.not_sleepsOn⟩
  · simp [SleepPc.owns, hp]
  · simp [SleepPc.owns, hq]

/-- `init` finds the sleep-lock free, with nobody asleep on it, and then it alone has it. -/
theorem sleeplock_safe_init : ∃ s t : SleepSys, Reachable Boot (Step 0) s ∧
    Reachable Boot (Step 0) t ∧ s.inner = none ∧ s.locked = false ∧ (∀ p, ¬s.SleepsOn 0 p) ∧
    (t.pc 0).inside = true ∧ ∀ q, (t.pc q).inside = true → q = 0 := by
  have hb : Boot ⟨.boot 0 8192 4096, none, false, 0, fun _ => .run false⟩ :=
    ⟨⟨_, _, _, rfl⟩, rfl, rfl, rfl, fun _ => rfl⟩
  have hs : Reachable Boot (Step 0) _ := .step (.init hb) (.dispatch 0 rfl rfl)
  have ht : Reachable Boot (Step 0) _ := .step hs (.call 0 rfl rfl)
  have ht : Reachable Boot (Step 0) _ := .step ht (.acquire 0 rfl rfl rfl)
  have ht : Reachable Boot (Step 0) _ := .step ht (.free 0 rfl rfl rfl)
  have ht : Reachable Boot (Step 0) _ := .step ht (.acquired 0 rfl rfl)
  refine ⟨_, _, hs, ht, rfl, rfl, (sleeplock_safe hs).2 rfl rfl, rfl, fun q hq => ?_⟩
  exact (sleeplock_safe ht).1 q 0 hq rfl

end SleepSys

end CowPbs
