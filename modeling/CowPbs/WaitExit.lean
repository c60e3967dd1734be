import Mathlib
import CowPbs.Section

/-!
# `fork`, `exit`, `wait` and `kill` beside each other

Every process of the table is a thread that runs `fork`, `exit`, `wait`, `waitx` and `kill`
(proc.c), interleaved at the granularity of locks. `wait_lock` has a holder. A section
under one `p->lock` is one step, except for the two places where a process keeps its own
`p->lock` across a `release(&wait_lock)` : in `sleep`, up to `sched`, and in `exit`, after
it has become ZOMBIE. So between two steps the `p->lock` of a slot is held by its own
process only (`WaitPc.holdsOwn`). A process that holds no lock can be preempted.

`step_slot` says what a step can do to a slot of the table, and the invariants of the
protocol are read off it.
-/

set_option linter.unusedSectionVars false

open Function Transition

namespace CowPbs

/-- A call of `wait` or `waitx`, with or without an address for the status. -/
structure WaitArgs where
  waitx : Bool
  addr : Bool
  deriving DecidableEq

/-- Where a process is. -/
inductive WaitPc
  /-- In none of the operations below, or in no code at all : an UNUSED slot, a child that
  is not published yet, a ZOMBIE off the CPU. -/
  | user
  /-- In `sleep`, off the CPU, on a channel that is not a process. -/
  | sleeping
  /-- In `fork`, after the first `release(&np->lock)`. -/
  | forked (np : Slot)
  /-- In `fork`, after `release(&wait_lock)`. -/
  | adopted (np : Slot)
  /-- In `exit`, before `acquire(&wait_lock)`. -/
  | exitCall (status : Int32)
  /-- In `reparent`, before slot `k`. -/
  | reparent (status : Int32) (k : ℕ)
  /-- In the `wakeup(initproc)` for slot `k`, before slot `j`. -/
  | wakeInit (status : Int32) (k : Slot) (j : ℕ)
  /-- In `wakeup(p->parent)`, before slot `j`. -/
  | wakeParent (status : Int32) (j : ℕ)
  /-- ZOMBIE, before `release(&wait_lock)`. -/
  | zombie
  /-- ZOMBIE, in `sched`. -/
  | exitSched
  /-- In `wait`, before `acquire(&wait_lock)`. -/
  | waitCall (w : WaitArgs)
  /-- In the loop of `wait`, before slot `k`. -/
  | scan (w : WaitArgs) (k : ℕ) (havekids : Bool)
  /-- In `wait`, a slot has been freed, before `release(&wait_lock)`. -/
  | reaped (pid : Int32)
  /-- In `sleep(p, &wait_lock)`, before `acquire(&p->lock)`. -/
  | sleep (w : WaitArgs)
  /-- The same, before `release(lk)`. -/
  | sleepLocked (w : WaitArgs)
  /-- The same, after `release(lk)`. -/
  | sleepUnlocked (w : WaitArgs)
  /-- The same, off the CPU. -/
  | asleep (w : WaitArgs)
  /-- In `kill(pid)`, before slot `k`. -/
  | kill (pid : Int32) (k : ℕ)
  deriving DecidableEq

namespace WaitPc

/-- The process holds `wait_lock`. -/
def holdsWait : WaitPc → Bool
  | reparent _ _ | wakeInit _ _ _ | wakeParent _ _ | zombie | scan _ _ _ | reaped _ | sleep _
  | sleepLocked _ => true
  | user | sleeping | forked _ | adopted _ | exitCall _ | exitSched | waitCall _
  | sleepUnlocked _ | asleep _ | kill _ _ => false

/-- The process holds its own `p->lock`. -/
def holdsOwn : WaitPc → Bool
  | zombie | exitSched | sleepLocked _ | sleepUnlocked _ => true
  | user | sleeping | forked _ | adopted _ | exitCall _ | reparent _ _ | wakeInit _ _ _
  | wakeParent _ _ | waitCall _ | scan _ _ _ | reaped _ | sleep _ | asleep _ | kill _ _ => false

/-- The process can be preempted : it is on the CPU, with no lock. -/
def preemptible : WaitPc → Bool
  | user | forked _ | adopted _ | exitCall _ | waitCall _ | kill _ _ => true
  | sleeping | reparent _ _ | wakeInit _ _ _ | wakeParent _ _ | zombie | exitSched | scan _ _ _
  | reaped _ | sleep _ | sleepLocked _ | sleepUnlocked _ | asleep _ => false

/-- Where a process goes on when it is scheduled : `sleep` returns. -/
def resume : WaitPc → WaitPc
  | sleeping => user
  | asleep w => waitCall w
  | pc => pc

end WaitPc

/-- The table, the holder of `wait_lock`, and where each process is. -/
structure WaitSys where
  sys : ProcSys
  waitLock : Option Slot
  pc : Slot → WaitPc

/-- The events that the protocol is about, and the others, with the process that moves. -/
inductive WaitEvent
  /-- The process with this pid calls `exit(status)`. -/
  | exit (pid status : Int32)
  /-- Process `p` frees slot `k`, and copies its status out if it was asked to. -/
  | reap (p k : Slot) (pid : Int32) (status : Option Int32)
  /-- A `wait` or `waitx` of process `p` returns a pid. -/
  | ret (p : Slot) (pid : Int32)
  | move (p : Slot)
  deriving DecidableEq

namespace WaitSys

/-- The state of slot `i`. -/
abbrev state (s : WaitSys) (i : Slot) : ProcState :=
  (s.sys.proc i).state

/-- The parent of slot `i`. -/
abbrev parent (s : WaitSys) (i : Slot) : Option Slot :=
  (s.sys.proc i).parent

/-- The `p->lock` of slot `i` is not held. -/
def Unlocked (s : WaitSys) (i : Slot) : Prop :=
  (s.pc i).holdsOwn = false

/-- Process `p` goes to `pc`. -/
def goto (s : WaitSys) (p : Slot) (pc : WaitPc) : WaitSys :=
  { s with pc := update s.pc p pc }

/-- Slot `i` is rewritten. -/
def set (s : WaitSys) (i : Slot) (P : Proc) : WaitSys :=
  { s with sys := { s.sys with proc := update s.sys.proc i P } }

/-- `acquire(&wait_lock)` by `p`. -/
def acquire (s : WaitSys) (p : Slot) : WaitSys :=
  { s with waitLock := some p }

/-- `release(&wait_lock)`. -/
def release (s : WaitSys) : WaitSys :=
  { s with waitLock := none }

/-- The turn of `wakeup(chan)` at slot `j`, in process `p`. -/
def wakeAt (s : WaitSys) (p j : Slot) (chan : Option Chan) : WaitSys :=
  if j = p then s else s.set j ((s.sys.proc j).wakeup chan)

/-- One step. A process moves only while it is RUNNING, and otherwise only to leave the
CPU after it has changed its state under its own lock. -/
inductive Step (s : WaitSys) : WaitEvent → WaitSys → Prop
  -- `fork`
  | fork (p i : Slot) (o : AllocOutcome) (uvmcopy : Bool) (t : ProcSys)
      (hpc : s.pc p = .user) (hi : s.Unlocked i)
      (ht : (Section.alloc o uvmcopy).run s.sys p i = some t) :
    Step s (.move p)
      ({ s with sys := t }.goto p
        (if (t.proc i).state = ProcState.used then .forked i else .user))
  | adopt (p np : Slot) (hpc : s.pc p = .forked np) (hp : s.state p = .running)
      (hl : s.waitLock = none) :
    Step s (.move p) ((s.set np { s.sys.proc np with parent := some p }).goto p (.adopted np))
  | publish (p np : Slot) (hpc : s.pc p = .adopted np) (hp : s.state p = .running)
      (hnp : s.Unlocked np) :
    Step s (.move p) ((s.set np { s.sys.proc np with state := .runnable }).goto p .user)
  -- `exit`
  | exit (p : Slot) (status : Int32) (hpc : s.pc p = .user) (hp : s.state p = .running)
      (hinit : p ≠ s.sys.initproc) :
    Step s (.exit (s.sys.proc p).pid status) (s.goto p (.exitCall status))
  | exitAcquire (p : Slot) (status : Int32) (hpc : s.pc p = .exitCall status)
      (hp : s.state p = .running) (hl : s.waitLock = none) :
    Step s (.move p) ((s.acquire p).goto p (.reparent status 0))
  | reparentChild (p k : Slot) (status : Int32) (hpc : s.pc p = .reparent status k)
      (hk : s.parent k = some p) :
    Step s (.move p)
      ((s.set k { s.sys.proc k with parent := some s.sys.initproc }).goto p
        (.wakeInit status k 0))
  | reparentSkip (p k : Slot) (status : Int32) (hpc : s.pc p = .reparent status k)
      (hk : s.parent k ≠ some p) :
    Step s (.move p) (s.goto p (.reparent status (k + 1)))
  | wakeInit (p k j : Slot) (status : Int32) (hpc : s.pc p = .wakeInit status k j)
      (hj : s.Unlocked j) :
    Step s (.move p)
      ((s.wakeAt p j (some (.proc s.sys.initproc))).goto p (.wakeInit status k (j + 1)))
  | wakeInitEnd (p k : Slot) (status : Int32) (hpc : s.pc p = .wakeInit status k NPROC) :
    Step s (.move p) (s.goto p (.reparent status (k + 1)))
  | reparentEnd (p : Slot) (status : Int32) (hpc : s.pc p = .reparent status NPROC) :
    Step s (.move p) (s.goto p (.wakeParent status 0))
  | wakeParent (p j : Slot) (status : Int32) (hpc : s.pc p = .wakeParent status j)
      (hj : s.Unlocked j) :
    Step s (.move p)
      ((s.wakeAt p j ((s.parent p).map .proc)).goto p (.wakeParent status (j + 1)))
  | zombie (p : Slot) (status : Int32) (hpc : s.pc p = .wakeParent status NPROC) :
    Step s (.move p) ((s.set p ((s.sys.proc p).exit status s.sys.ticks)).goto p .zombie)
  | exitRelease (p : Slot) (hpc : s.pc p = .zombie) :
    Step s (.move p) (s.release.goto p .exitSched)
  | exitSched (p : Slot) (hpc : s.pc p = .exitSched) : Step s (.move p) (s.goto p .user)
  -- `wait` and `waitx`
  | wait (p : Slot) (w : WaitArgs) (hpc : s.pc p = .user) (hp : s.state p = .running) :
    Step s (.move p) (s.goto p (.waitCall w))
  | waitAcquire (p : Slot) (w : WaitArgs) (hpc : s.pc p = .waitCall w)
      (hp : s.state p = .running) (hl : s.waitLock = none) :
    Step s (.move p) ((s.acquire p).goto p (.scan w 0 false))
  | scanSkip (p k : Slot) (w : WaitArgs) (kids : Bool) (hpc : s.pc p = .scan w k kids)
      (hk : s.parent k ≠ some p) :
    Step s (.move p) (s.goto p (.scan w (k + 1) kids))
  | scanChild (p k : Slot) (w : WaitArgs) (kids : Bool) (hpc : s.pc p = .scan w k kids)
      (hk : s.parent k = some p) (hl : s.Unlocked k) (hz : s.state k ≠ .zombie) :
    Step s (.move p) (s.goto p (.scan w (k + 1) true))
  | reap (p k : Slot) (w : WaitArgs) (kids : Bool) (hpc : s.pc p = .scan w k kids)
      (hk : s.parent k = some p) (hl : s.Unlocked k) (hz : s.state k = .zombie) :
    Step s
      (.reap p k (s.sys.proc k).pid (if w.addr then some (s.sys.proc k).xstate else none))
      ((s.set k (s.sys.proc k).freeproc).goto p (.reaped (s.sys.proc k).pid))
  | copyoutFails (p k : Slot) (w : WaitArgs) (kids : Bool) (hpc : s.pc p = .scan w k kids)
      (hk : s.parent k = some p) (hl : s.Unlocked k) (hz : s.state k = .zombie)
      (hw : w.addr = true) :
    Step s (.move p) (s.release.goto p .user)
  | waitReturn (p : Slot) (pid : Int32) (hpc : s.pc p = .reaped pid) :
    Step s (.ret p pid) (s.release.goto p .user)
  | waitFails (p : Slot) (w : WaitArgs) (kids : Bool) (hpc : s.pc p = .scan w NPROC kids)
      (hk : kids = false ∨ (s.sys.proc p).killed ≠ 0) :
    Step s (.move p) (s.release.goto p .user)
  | waitSleep (p : Slot) (w : WaitArgs) (hpc : s.pc p = .scan w NPROC true)
      (hk : (s.sys.proc p).killed = 0) : Step s (.move p) (s.goto p (.sleep w))
  | sleepLock (p : Slot) (w : WaitArgs) (hpc : s.pc p = .sleep w) :
    Step s (.move p) (s.goto p (.sleepLocked w))
  | sleepUnlock (p : Slot) (w : WaitArgs) (hpc : s.pc p = .sleepLocked w) :
    Step s (.move p) (s.release.goto p (.sleepUnlocked w))
  | sleepSched (p : Slot) (w : WaitArgs) (hpc : s.pc p = .sleepUnlocked w) :
    Step s (.move p) ((s.set p ((s.sys.proc p).sleep (some (.proc p)))).goto p (.asleep w))
  -- `kill`
  | kill (p : Slot) (pid : Int32) (hpc : s.pc p = .user) (hp : s.state p = .running) :
    Step s (.move p) (s.goto p (.kill pid 0))
  | killHit (p k : Slot) (pid : Int32) (hpc : s.pc p = .kill pid k)
      (hp : s.state p = .running) (hl : s.Unlocked k) (hk : (s.sys.proc k).pid = pid) :
    Step s (.move p) ((s.set k (s.sys.proc k).kill).goto p .user)
  | killSkip (p k : Slot) (pid : Int32) (hpc : s.pc p = .kill pid k)
      (hp : s.state p = .running) (hl : s.Unlocked k) (hk : (s.sys.proc k).pid ≠ pid) :
    Step s (.move p) (s.goto p (.kill pid (k + 1)))
  | killFails (p : Slot) (pid : Int32) (hpc : s.pc p = .kill pid NPROC)
      (hp : s.state p = .running) : Step s (.move p) (s.goto p .user)
  -- the scheduler, and the rest of the kernel
  | preempt (p : Slot) (hpc : (s.pc p).preemptible = true) (hp : s.state p = .running) :
    Step s (.move p) (s.set p (s.sys.proc p).yield)
  | dispatch (p : Slot) (hl : s.Unlocked p) (hp : s.state p = .runnable) :
    Step s (.move p)
      ((s.set p { (s.sys.proc p).dispatch with
        chan := if (s.pc p).resume = s.pc p then (s.sys.proc p).chan else none }).goto p
        (s.pc p).resume)
  | sleep (p : Slot) (a : ℕ) (hpc : s.pc p = .user) (hp : s.state p = .running) :
    Step s (.move p) ((s.set p ((s.sys.proc p).sleep (some (.obj a)))).goto p .sleeping)
  | wakeup (p : Slot) (a : ℕ) (hl : s.Unlocked p) :
    Step s (.move p) (s.set p ((s.sys.proc p).wakeup (some (.obj a))))
  | setkilled (p : Slot) (hpc : s.pc p = .user) (hp : s.state p = .running) :
    Step s (.move p) (s.set p { s.sys.proc p with killed := 1 })

/-- After boot : `init` in slot 0 will start to run. -/
def Boot (s : WaitSys) : Prop :=
  s.sys.Boot ∧ s.waitLock = none ∧ ∀ i, s.pc i = .user

/-! ## Reading a state after a step -/

section Fields

variable (s : WaitSys) (p q : Slot) (pc : WaitPc) (P : Proc)

@[simp, grind =] theorem goto_pc : (s.goto p pc).pc q = if q = p then pc else s.pc q :=
  update_apply ..

@[simp, grind =] theorem goto_sys : (s.goto p pc).sys = s.sys :=
  rfl

@[simp, grind =] theorem goto_waitLock : (s.goto p pc).waitLock = s.waitLock :=
  rfl

@[simp, grind =] theorem set_proc :
    (s.set p P).sys.proc q = if q = p then P else s.sys.proc q :=
  update_apply ..

@[simp, grind =] theorem set_pc : (s.set p P).pc q = s.pc q :=
  rfl

@[simp, grind =] theorem set_waitLock : (s.set p P).waitLock = s.waitLock :=
  rfl

@[simp, grind =] theorem set_initproc : (s.set p P).sys.initproc = s.sys.initproc :=
  rfl

@[simp, grind =] theorem set_nextpid : (s.set p P).sys.nextpid = s.sys.nextpid :=
  rfl

@[simp, grind =] theorem acquire_sys : (s.acquire p).sys = s.sys :=
  rfl

@[simp, grind =] theorem acquire_pc : (s.acquire p).pc q = s.pc q :=
  rfl

@[simp, grind =] theorem acquire_waitLock : (s.acquire p).waitLock = some p :=
  rfl

@[simp, grind =] theorem release_sys : s.release.sys = s.sys :=
  rfl

@[simp, grind =] theorem release_pc : s.release.pc q = s.pc q :=
  rfl

@[simp, grind =] theorem release_waitLock : s.release.waitLock = none :=
  rfl

@[simp, grind =] theorem wakeAt_pc (j : Slot) (chan : Option Chan) :
    (s.wakeAt p j chan).pc q = s.pc q := by
  unfold wakeAt
  split_ifs <;> rfl

@[simp, grind =] theorem wakeAt_waitLock (j : Slot) (chan : Option Chan) :
    (s.wakeAt p j chan).waitLock = s.waitLock := by
  unfold wakeAt
  split_ifs <;> rfl

end Fields

end WaitSys

/-! ## What each process relies on -/

/-- RUNNABLE, RUNNING or SLEEPING. -/
def ProcState.Live (st : ProcState) : Prop :=
  st = runnable ∨ st = running ∨ st = sleeping

namespace WaitPc

/-- The states a process can have at `pc`. -/
def Allows : WaitPc → ProcState → Prop
  | user, st => st ≠ .sleeping
  | sleeping, st | asleep _, st => st = .sleeping ∨ st = .runnable
  | forked _, st | adopted _, st | exitCall _, st | waitCall _, st | kill _ _, st =>
    st = .running ∨ st = .runnable
  | zombie, st | exitSched, st => st = .zombie
  | reparent _ _, st | wakeInit _ _ _, st | wakeParent _ _, st | scan _ _ _, st | reaped _, st
  | sleep _, st | sleepLocked _, st | sleepUnlocked _, st => st = .running

/-- The slot of the child a `fork` has not published yet. -/
def child : WaitPc → Option Slot
  | forked np | adopted np => some np
  | user | sleeping | exitCall _ | reparent _ _ | wakeInit _ _ _ | wakeParent _ _ | zombie
  | exitSched | waitCall _ | scan _ _ _ | reaped _ | sleep _ | sleepLocked _ | sleepUnlocked _
  | asleep _ | kill _ _ => none

/-- The process is in `exit`. -/
def exiting : WaitPc → Bool
  | exitCall _ | reparent _ _ | wakeInit _ _ _ | wakeParent _ _ | zombie | exitSched => true
  | user | sleeping | forked _ | adopted _ | waitCall _ | scan _ _ _ | reaped _ | sleep _
  | sleepLocked _ | sleepUnlocked _ | asleep _ | kill _ _ => false

/-- The slots of the table that an exiting process has already taken its children from. -/
def disowned : WaitPc → ℕ
  | reparent _ k => k
  | wakeInit _ k _ => k + 1
  | wakeParent _ _ => NPROC
  | user | sleeping | forked _ | adopted _ | exitCall _ | zombie | exitSched | waitCall _
  | scan _ _ _ | reaped _ | sleep _ | sleepLocked _ | sleepUnlocked _ | asleep _ | kill _ _ => 0

/-- The slots in which a waiting process has seen no zombie child. -/
def scanned : WaitPc → ℕ
  | scan _ k _ => k
  | sleep _ | sleepLocked _ => NPROC
  | user | sleeping | forked _ | adopted _ | exitCall _ | reparent _ _ | wakeInit _ _ _
  | wakeParent _ _ | zombie | exitSched | waitCall _ | reaped _ | sleepUnlocked _ | asleep _
  | kill _ _ => 0

section Resume

variable (pc : WaitPc)

@[simp, grind =] theorem resume_holdsWait : pc.resume.holdsWait = pc.holdsWait := by
  cases pc <;> rfl

@[simp, grind =] theorem resume_child : pc.resume.child = pc.child := by
  cases pc <;> rfl

@[simp, grind =] theorem resume_exiting : pc.resume.exiting = pc.exiting := by
  cases pc <;> rfl

@[simp, grind =] theorem resume_disowned : pc.resume.disowned = pc.disowned := by
  cases pc <;> rfl

@[simp, grind =] theorem resume_scanned : pc.resume.scanned = pc.scanned := by
  cases pc <;> rfl

theorem resume_cases : pc.resume = pc ∨ pc = sleeping ∧ pc.resume = user ∨
    ∃ w, pc = asleep w ∧ pc.resume = waitCall w := by
  cases pc <;> simp [resume]

end Resume

namespace Allows

variable {pc : WaitPc} {st : ProcState}

/-- A process that is RUNNABLE can go on as RUNNING. -/
theorem resume (h : pc.Allows .runnable) : pc.resume.Allows .running := by
  cases pc <;> simp_all [Allows, WaitPc.resume]

theorem wake (h : pc.Allows .sleeping) : pc.Allows .runnable := by
  cases pc <;> simp_all [Allows]

theorem user_of_unused (h : pc.Allows .unused) : pc = user := by
  cases pc <;> simp_all [Allows]

theorem user_of_used (h : pc.Allows .used) : pc = user := by
  cases pc <;> simp_all [Allows]

/-- A ZOMBIE whose lock is free is off the CPU. -/
theorem user_of_zombie (h : pc.Allows .zombie) (ho : pc.holdsOwn = false) : pc = user := by
  cases pc <;> simp_all [Allows, holdsOwn]

theorem preempt (h : pc.preemptible = true) : pc.Allows .runnable := by
  cases pc <;> simp_all [Allows, preemptible]

end Allows

end WaitPc

/-- `allocproc` in an UNUSED slot : a process with the next pid, or a slot UNUSED again. -/
theorem Section.alloc_run {s t : ProcSys} {p i : Slot} {o : AllocOutcome} {uvmcopy : Bool}
    (h : (Section.alloc o uvmcopy).run s p i = some t) :
    (s.proc p).state = .running ∧ (s.proc i).state = .unused ∧ t.initproc = s.initproc ∧
    t.nextpid.toInt = s.nextpid.toInt + 1 ∧ (∀ j, j ≠ i → t.proc j = s.proc j) ∧
    ((t.proc i).state = .used ∧ (t.proc i).pid = s.nextpid ∧
        (t.proc i).parent = (s.proc i).parent ∨
      (t.proc i).state = .unused ∧ (t.proc i).parent = none) := by
  obtain ⟨hp, P, hP, rfl⟩ := run_eq_some h
  simp only [slot, Option.ite_none_right_eq_some, Option.map_eq_some_iff, Prod.exists] at hP
  obtain ⟨hi, pid, next, hpid, rfl⟩ := hP
  unfold allocpid at hpid
  split_ifs at hpid with hlt
  obtain ⟨rfl, rfl⟩ := Prod.mk.inj (Option.some.inj hpid)
  refine ⟨hp, hi, rfl, ?_, fun j hj => update_of_ne hj _ _, ?_⟩
  · show (s.nextpid + 1).toInt = _
    rw [Int32.toInt_add]
    have := s.nextpid.le_toInt
    rw [Int.bmod_eq_of_le] <;> simp <;> omega
  · simp only [update_self]
    rcases o with _ | _ | ⟨tf, pt⟩
    · exact .inr ⟨rfl, rfl⟩
    · exact .inr ⟨rfl, rfl⟩
    · cases uvmcopy
      · exact .inr ⟨rfl, rfl⟩
      · exact .inl ⟨rfl, rfl, rfl⟩

namespace WaitSys

variable {s t : WaitSys} {e : WaitEvent}

/-- `wait_lock` is held by the process whose code holds it, and every process has a state
that its code allows. -/
structure Inv (s : WaitSys) : Prop where
  lock : ∀ p, s.waitLock = some p ↔ (s.pc p).holdsWait = true
  state : ∀ p, (s.pc p).Allows (s.sys.proc p).state
  child : ∀ p np, (s.pc p).child = some np → (s.sys.proc np).state = .used
  childUnique : ∀ p q np, (s.pc p).child = some np → (s.pc q).child = some np → p = q

/-! ## What a step does to a slot -/

/-- The slot keeps its parent, its pid and its exit status. -/
structure Same (s t : WaitSys) (k : Slot) : Prop where
  parent : (t.sys.proc k).parent = (s.sys.proc k).parent
  pid : (t.sys.proc k).pid = (s.sys.proc k).pid
  xstate : (t.sys.proc k).xstate = (s.sys.proc k).xstate

/-- What a step does to slot `k`. -/
inductive SlotStep (s : WaitSys) (e : WaitEvent) (t : WaitSys) (k : Slot) : Prop
  | keep (hs : t.state k = s.state k) (h : Same s t k)
  | live (hs : (s.state k).Live) (ht : (t.state k).Live) (h : Same s t k)
  | born (p : Slot) (hp : s.pc p = .user) (hp' : t.pc p = .forked k) (hs : s.state k = .unused)
      (ht : t.state k = .used) (hpar : t.parent k = s.parent k)
      (hpid : (t.sys.proc k).pid = s.sys.nextpid)
      (hnext : t.sys.nextpid.toInt = s.sys.nextpid.toInt + 1) (hq : ∀ q ≠ p, t.pc q = s.pc q)
  | unborn (hs : s.state k = .unused) (ht : t.state k = .unused) (hpar : t.parent k = none)
  | adopt (p : Slot) (hp : s.pc p = .forked k) (hp' : t.pc p = .adopted k)
      (hrun : s.state p = .running) (hl : s.waitLock = none) (ht : t.state k = s.state k)
      (hpar : t.parent k = some p) (hpid : (t.sys.proc k).pid = (s.sys.proc k).pid)
      (hx : (t.sys.proc k).xstate = (s.sys.proc k).xstate)
  | publish (p : Slot) (hp : s.pc p = .adopted k) (hp' : t.pc p = .user)
      (hs : s.state k = .used) (ht : t.state k = .runnable) (h : Same s t k)
  | reparent (p : Slot) (status : Int32) (hp : s.pc p = .reparent status k)
      (hp' : t.pc p = .wakeInit status k 0) (hs : s.parent k = some p)
      (ht : t.parent k = some s.sys.initproc) (hst : t.state k = s.state k)
      (hpid : (t.sys.proc k).pid = (s.sys.proc k).pid)
      (hx : (t.sys.proc k).xstate = (s.sys.proc k).xstate)
  | zombie (status : Int32) (hp : s.pc k = .wakeParent status NPROC) (hp' : t.pc k = .zombie)
      (hs : s.state k = .running) (ht : t.state k = .zombie) (hpar : t.parent k = s.parent k)
      (hpid : (t.sys.proc k).pid = (s.sys.proc k).pid) (hx : (t.sys.proc k).xstate = status)
  | free (p : Slot) (pid : Int32) (status : Option Int32) (he : e = .reap p k pid status)
      (hp : ∃ w kids, s.pc p = .scan w k kids) (hs : s.state k = .zombie)
      (hpar : s.parent k = some p) (ht : t.state k = .unused) (ht' : t.parent k = none)

theorem SlotStep.of_eq {k : Slot} (h : t.sys.proc k = s.sys.proc k) : SlotStep s e t k :=
  .keep (by rw [state, h]) ⟨by rw [h], by rw [h], by rw [h]⟩

theorem SlotStep.of_wakeup {k : Slot} {chan : Option Chan}
    (h : t.sys.proc k = (s.sys.proc k).wakeup chan) : SlotStep s e t k := by
  unfold Proc.wakeup at h
  split_ifs at h with hw
  · exact .live (.inr (.inr hw.1)) (by rw [state, h]; exact .inl rfl)
      ⟨by rw [h], by rw [h], by rw [h]⟩
  · exact .of_eq h

theorem wakeAt_proc (s : WaitSys) (p j q : Slot) (chan : Option Chan) :
    (s.wakeAt p j chan).sys.proc q =
      if q = j ∧ j ≠ p then (s.sys.proc q).wakeup chan else s.sys.proc q := by
  unfold wakeAt
  split_ifs <;> grind

theorem step_slot (h : Inv s) (hs : s.Step e t) (k : Slot) : SlotStep s e t k := by
  cases hs
  case fork p i o uvmcopy u hpc hi hu =>
    obtain ⟨hp, hi, -, hnext, hj, hP⟩ := Section.alloc_run hu
    by_cases hk : k = i
    · subst hk
      rcases hP with ⟨hst, hpid, hpar⟩ | ⟨hst, hpar⟩
      · exact .born p hpc (by simp [hst]) hi hst hpar hpid hnext fun q hq => by simp [hq]
      · exact .unborn hi hst hpar
    · exact .of_eq (hj k hk)
  case adopt p np hpc hp hl =>
    by_cases hk : k = np
    · subst hk
      exact .adopt p hpc (by simp) hp hl (by simp [state]) (by simp [parent]) (by simp) (by simp)
    · exact .of_eq (by simp [hk])
  case publish p np hpc hp hnp =>
    by_cases hk : k = np
    · subst hk
      exact .publish p hpc (by simp) (h.child p k (by rw [hpc]; rfl)) (by simp [state])
        ⟨by simp, by simp, by simp⟩
    · exact .of_eq (by simp [hk])
  case reparentChild p i status hpc hpar =>
    by_cases hk : k = i
    · subst hk
      exact .reparent p status hpc (by simp) hpar (by simp [parent]) (by simp [state]) (by simp)
        (by simp)
    · exact .of_eq (by simp [hk])
  case wakeInit p i j status hpc hj =>
    by_cases hk : k = j ∧ j ≠ p
    · exact .of_wakeup (by rw [goto_sys, wakeAt_proc, if_pos hk])
    · exact .of_eq (by rw [goto_sys, wakeAt_proc, if_neg hk])
  case wakeParent p j status hpc hj =>
    by_cases hk : k = j ∧ j ≠ p
    · exact .of_wakeup (by rw [goto_sys, wakeAt_proc, if_pos hk])
    · exact .of_eq (by rw [goto_sys, wakeAt_proc, if_neg hk])
  case zombie p status hpc =>
    by_cases hk : k = p
    · subst hk
      have hrun := h.state k
      rw [hpc] at hrun
      exact .zombie status hpc (by simp) hrun (by simp [state, Proc.exit]) (by simp [parent, Proc.exit])
        (by simp [Proc.exit]) (by simp [Proc.exit])
    · exact .of_eq (by simp [hk])
  case reap p i w kids hpc hpar hl hz =>
    by_cases hk : k = i
    · subst hk
      exact .free p _ _ rfl ⟨w, kids, hpc⟩ hz hpar (by simp [state, Proc.freeproc])
        (by simp [parent, Proc.freeproc])
    · exact .of_eq (by simp [hk])
  case sleepSched p w hpc =>
    by_cases hk : k = p
    · subst hk
      have hrun := h.state k
      rw [hpc] at hrun
      exact .live (.inr (.inl hrun)) (.inr (.inr (by simp [state, Proc.sleep])))
        ⟨by simp [Proc.sleep], by simp [Proc.sleep], by simp [Proc.sleep]⟩
    · exact .of_eq (by simp [hk])
  case killHit p i pid hpc hp hl hpid =>
    by_cases hk : k = i
    · subst hk
      by_cases hsl : s.state k = .sleeping
      · exact .live (.inr (.inr hsl)) (.inl (by simp only [state] at hsl ⊢; simp [Proc.kill, hsl]))
          ⟨by simp [Proc.kill], by simp [Proc.kill], by simp [Proc.kill]⟩
      · exact .keep (by simpa [state, Proc.kill] using fun h => (hsl h).elim)
          ⟨by simp [Proc.kill], by simp [Proc.kill], by simp [Proc.kill]⟩
    · exact .of_eq (by simp [hk])
  case preempt p hpc hp =>
    by_cases hk : k = p
    · subst hk
      exact .live (.inr (.inl hp)) (.inl (by simp [state, Proc.yield]))
        ⟨by simp [Proc.yield], by simp [Proc.yield], by simp [Proc.yield]⟩
    · exact .of_eq (by simp [hk])
  case dispatch p hl hp =>
    by_cases hk : k = p
    · subst hk
      exact .live (.inl hp) (.inr (.inl (by simp [state, Proc.dispatch])))
        ⟨by simp [Proc.dispatch], by simp [Proc.dispatch], by simp [Proc.dispatch]⟩
    · exact .of_eq (by simp [hk])
  case sleep p a hpc hp =>
    by_cases hk : k = p
    · subst hk
      exact .live (.inr (.inl hp)) (.inr (.inr (by simp [state, Proc.sleep])))
        ⟨by simp [Proc.sleep], by simp [Proc.sleep], by simp [Proc.sleep]⟩
    · exact .of_eq (by simp [hk])
  case wakeup p a hl =>
    by_cases hk : k = p
    · subst hk
      exact .of_wakeup (by rw [set_proc, if_pos rfl])
    · exact .of_eq (by simp [hk])
  case setkilled p hpc hp =>
    by_cases hk : k = p
    · subst hk
      exact .keep (by simp [state]) ⟨by simp, by simp, by simp⟩
    · exact .of_eq (by simp [hk])
  all_goals exact .of_eq rfl

/-! ## Locks and states -/

theorem Inv.lock_step (h : Inv s) (hs : s.Step e t) :
    ∀ p, t.waitLock = some p ↔ (t.pc p).holdsWait = true := by
  have hlock := h.lock
  cases hs <;> grind [WaitPc.holdsWait]

theorem Inv.state_wakeup (h : Inv s) (p : Slot) (chan : Option Chan) :
    (s.pc p).Allows ((s.sys.proc p).wakeup chan).state := by
  have hp := h.state p
  unfold Proc.wakeup
  split_ifs with hw
  · rw [hw.1] at hp
    exact hp.wake
  · exact hp

theorem Inv.state_step (h : Inv s) (hs : s.Step e t) :
    ∀ p, (t.pc p).Allows (t.sys.proc p).state := by
  have hstate := h.state
  have hchild := h.child
  have hwake := h.state_wakeup
  cases hs
  case fork p i o uvmcopy u hpc hi hu =>
    obtain ⟨hp, hi, -, -, hj, hP⟩ := Section.alloc_run hu
    have := (hi ▸ hstate i).user_of_unused
    grind [WaitPc.Allows]
  case dispatch p hl hp =>
    have hp' : (s.pc p).Allows (s.state p) := hstate p
    rw [hp] at hp'
    have := hp'.resume
    grind [Proc.dispatch]
  case killHit p k pid hpc hp hl hk =>
    have := @WaitPc.Allows.wake (s.pc k)
    grind [Proc.kill, WaitPc.Allows]
  case reap p k w kids hpc hk hl hz =>
    have hk' : (s.pc k).Allows (s.state k) := hstate k
    rw [hz] at hk'
    have := hk'.user_of_zombie hl
    grind [Proc.freeproc, WaitPc.Allows]
  case publish p np hpc hp hnp =>
    have := hchild p np (by rw [hpc]; rfl)
    have := (this ▸ hstate np).user_of_used
    grind [WaitPc.Allows]
  case preempt p hpc hp =>
    have := WaitPc.Allows.preempt hpc
    grind [Proc.yield]
  all_goals grind [WaitPc.Allows, wakeAt_proc, Proc.exit, Proc.sleep]

/-- A process that has a child it did not publish has had it before, or has just made
it. -/
theorem child_inv (hs : s.Step e t) {p np : Slot} (hc : (t.pc p).child = some np) :
    (s.pc p).child = some np ∨
      s.pc p = .user ∧ s.state np = .unused ∧ t.state np = .used ∧ ∀ q ≠ p, t.pc q = s.pc q := by
  cases hs
  case fork q i o uvmcopy u hpc hi hu =>
    obtain ⟨hp, hi, -, -, hj, hP⟩ := Section.alloc_run hu
    grind [WaitPc.child]
  all_goals grind [WaitPc.child]

namespace SlotStep

variable {k : Slot}

/-- A USED slot stays USED until it is published. -/
theorem used (h : SlotStep s e t k) (hk : s.state k = .used) :
    t.state k = .used ∨ ∃ p, s.pc p = .adopted k ∧ t.pc p = .user := by
  cases h with
  | keep hs => exact .inl (hs.trans hk)
  | adopt p hp hp' hrun hl ht => exact .inl (ht.trans hk)
  | reparent p st hp hp' hs ht hst => exact .inl (hst.trans hk)
  | publish p hp hp' => exact .inr ⟨p, hp, hp'⟩
  | live hs => rw [hk] at hs; simp [ProcState.Live] at hs
  | born _ _ _ hs | unborn hs | zombie _ _ _ hs | free _ _ _ _ _ hs => rw [hk] at hs; cases hs

/-- A process lives until it becomes a ZOMBIE. -/
theorem lives (h : SlotStep s e t k) (hk : (s.state k).Live) :
    (t.state k).Live ∨ ∃ status, s.pc k = .wakeParent status NPROC := by
  cases h with
  | keep hs => exact .inl (hs ▸ hk)
  | live hs ht => exact .inl ht
  | adopt p hp hp' hrun hl ht => exact .inl (ht ▸ hk)
  | reparent p st hp hp' hs ht hst => exact .inl (hst ▸ hk)
  | publish p hp hp' hs ht => exact .inl (.inl ht)
  | zombie st hp => exact .inr ⟨st, hp⟩
  | born _ _ _ hs | unborn hs | free _ _ _ _ _ hs => rw [hs] at hk; simp [ProcState.Live] at hk

/-- A parent is kept, given by `fork` or by `reparent`, or dropped when the slot is
freed. -/
theorem parent (h : SlotStep s e t k) :
    t.parent k = s.parent k ∨
    (∃ p, s.pc p = .forked k ∧ s.state p = .running ∧ s.waitLock = none ∧
      t.parent k = some p ∧ t.state k = s.state k) ∨
    (∃ p status, s.pc p = .reparent status k ∧ t.pc p = .wakeInit status k 0 ∧
      s.parent k = some p ∧ t.parent k = some s.sys.initproc ∧ t.state k = s.state k) ∨
    t.parent k = none ∧ t.state k = .unused := by
  cases h with
  | keep hs h => exact .inl h.parent
  | live hs ht h => exact .inl h.parent
  | born p hp hp' hs ht hpar => exact .inl hpar
  | unborn hs ht hpar => exact .inr (.inr (.inr ⟨hpar, ht⟩))
  | adopt p hp hp' hrun hl ht hpar => exact .inr (.inl ⟨p, hp, hrun, hl, hpar, ht⟩)
  | publish p hp hp' hs ht h => exact .inl h.parent
  | reparent p st hp hp' hs ht hst => exact .inr (.inr (.inl ⟨p, st, hp, hp', hs, ht, hst⟩))
  | zombie st hp hp' hs ht hpar => exact .inl hpar
  | free p pid st he hp hs hpar ht ht' => exact .inr (.inr (.inr ⟨ht', ht⟩))

/-- A ZOMBIE was one before, or has just become one. -/
theorem zombie_inv (h : SlotStep s e t k) (hk : t.state k = .zombie) :
    s.state k = .zombie ∨ ∃ status, s.pc k = .wakeParent status NPROC ∧ t.pc k = .zombie ∧
      t.parent k = s.parent k := by
  cases h with
  | keep hs => exact .inl (hs ▸ hk)
  | adopt p hp hp' hrun hl ht => exact .inl (ht ▸ hk)
  | reparent p st hp hp' hs ht hst => exact .inl (hst ▸ hk)
  | zombie st hp hp' hs ht hpar => exact .inr ⟨st, hp, hp', hpar⟩
  | live hs ht => rw [hk] at ht; simp [ProcState.Live] at ht
  | born _ _ _ _ ht | unborn _ ht | publish _ _ _ _ ht | free _ _ _ _ _ _ _ ht =>
    rw [hk] at ht
    cases ht

end SlotStep

theorem Inv.child_step (h : Inv s) (hs : s.Step e t) {p np : Slot}
    (hc : (t.pc p).child = some np) : t.state np = .used := by
  rcases child_inv hs hc with hc' | ⟨-, -, hu, -⟩
  · rcases (step_slot h hs np).used (h.child p np hc') with hu | ⟨q, hq, hq'⟩
    · exact hu
    · -- the slot is published by its only parent, which leaves `fork`
      obtain rfl := h.childUnique p q np hc' (by rw [hq]; rfl)
      rw [hq'] at hc
      cases hc
  · exact hu

theorem Inv.childUnique_step (h : Inv s) (hs : s.Step e t) {p q np : Slot}
    (hp : (t.pc p).child = some np) (hq : (t.pc q).child = some np) : p = q := by
  rcases child_inv hs hp with hp' | ⟨hup, hu, -, hpq⟩ <;>
    rcases child_inv hs hq with hq' | ⟨huq, hu', -, hqp⟩
  · exact h.childUnique p q np hp' hq'
  · cases hu'.symm.trans (h.child p np hp')
  · cases hu.symm.trans (h.child q np hq')
  · by_contra hne
    rw [hpq q (Ne.symm hne), huq] at hq
    cases hq

theorem Inv.step (h : Inv s) (hs : s.Step e t) : Inv t :=
  ⟨h.lock_step hs, h.state_step hs, fun _ _ => h.child_step hs, fun _ _ _ => h.childUnique_step hs⟩

theorem Inv.boot (h : s.Boot) : Inv s := by
  obtain ⟨⟨ticks, tf, pt, hs⟩, hl, hpc⟩ := h
  refine ⟨fun p => ?_, fun p => ?_, fun p np hc => ?_, fun p q np hc => ?_⟩
  · rw [hl, hpc]
    simp [WaitPc.holdsWait]
  · rw [hpc, hs]
    by_cases h0 : p = 0
    · subst h0
      simp [WaitPc.Allows, ProcSys.boot]
    · simp [WaitPc.Allows, ProcSys.boot, h0, Proc.zero]
  · rw [hpc] at hc
    cases hc
  · rw [hpc] at hc
    cases hc

/-- Only one process holds `wait_lock`. -/
theorem Inv.holder_unique (h : Inv s) {p q : Slot} (hp : (s.pc p).holdsWait = true)
    (hq : (s.pc q).holdsWait = true) : p = q :=
  Option.some.inj (((h.lock p).2 hp).symm.trans ((h.lock q).2 hq))

theorem Inv.not_holds (h : Inv s) (hl : s.waitLock = none) (p : Slot) :
    (s.pc p).holdsWait = false := by
  have hp := h.lock p
  rw [hl] at hp
  simpa using hp

end WaitSys

end CowPbs
