import Mathlib

/-!
# The process table

`struct proc` (proc.h) and what the kernel does to one slot of `proc[NPROC]` while it
holds that slot's `p->lock`. An `int` is an `Int32` and a `uint` a `UInt32`, with the
wrap-around of the machine; `void *chan` and `struct proc *` are `Option`s with `none`
for the null pointer. The fields no modelled function reads (`name`, `context`, `ofile`,
`cwd`, `kstack`) are left out.

Each function here is the body of one lock-protected section : `found` is what
`allocproc` stores after the label `found`, `freeproc` the fields `freeproc` clears,
`wakeup`, `kill` and `updateTime` one turn of the loops of the same names. The modules
that model whole operations, alone or interleaved, are built from them.
-/

namespace CowPbs

/-- `enum procstate`. -/
inductive ProcState
  | unused
  | used
  | sleeping
  | runnable
  | running
  | zombie
  deriving DecidableEq, Repr

/-- `NPROC`, the size of the process table. -/
def NPROC : ℕ := 64

/-- A slot of `proc[NPROC]`, standing for the pointer `&proc[i]`. -/
abbrev Slot := Fin NPROC

instance : NeZero NPROC := ⟨by decide⟩

/-- What a process sleeps on : its own `struct proc` (in `wait`), or an object of the
kernel, by its address (`&ticks`, a buffer, a sleep-lock). -/
inductive Chan
  | proc (i : Slot)
  | obj (a : ℕ)
  deriving DecidableEq

/-- `struct proc`. -/
structure Proc where
  /-- Process state. -/
  state : ProcState
  /-- If not null, sleeping on `chan`. -/
  chan : Option Chan
  /-- If non-zero, have been killed. -/
  killed : Int32
  /-- Exit status to be returned to parent's wait. -/
  xstate : Int32
  /-- Process ID. -/
  pid : Int32
  /-- Parent process. -/
  parent : Option Slot
  /-- Size of process memory (bytes). -/
  sz : ℕ
  /-- Physical address of the user page table. -/
  pagetable : Option ℕ
  /-- Physical address of the trapframe page. -/
  trapframe : Option ℕ
  /-- How long the process ran for. -/
  rtime : UInt32
  /-- When was the process created. -/
  ctime : UInt32
  /-- When did the process exit. -/
  etime : UInt32
  waitTime : Int32
  runningTime : Int32
  sleepTime : Int32
  stPriority : Int32
  rbi : Int32
  scheduleCount : Int32
  deriving DecidableEq

/-- The process table. -/
abbrev Table := Slot → Proc

namespace Proc

/-- A slot of the zeroed table : `procinit` sets `state` to `UNUSED`, which is 0. -/
def zero : Proc where
  state := .unused
  chan := none
  killed := 0
  xstate := 0
  pid := 0
  parent := none
  sz := 0
  pagetable := none
  trapframe := none
  rtime := 0
  ctime := 0
  etime := 0
  waitTime := 0
  runningTime := 0
  sleepTime := 0
  stPriority := 0
  rbi := 0
  scheduleCount := 0

/-! ## `allocproc` and `freeproc` -/

/-- `allocproc` at `found` : the pid, and `USED`. -/
def found (p : Proc) (pid : Int32) : Proc :=
  { p with pid := pid, state := .used }

/-- The end of `allocproc`, once the trapframe and the page table are there : the
accounting fields of a new process. `killed`, `chan` and `xstate` are not touched. -/
def fresh (p : Proc) (ticks : UInt32) : Proc :=
  { p with
    rtime := 0, etime := 0, ctime := ticks, waitTime := 0, runningTime := 0,
    sleepTime := 0, stPriority := 50, rbi := 25, scheduleCount := 0 }

/-- The fields `freeproc` clears. The accounting fields keep their values. -/
def freeproc (p : Proc) : Proc :=
  { p with
    trapframe := none, pagetable := none, sz := 0, pid := 0, parent := none, chan := none,
    killed := 0, xstate := 0, state := .unused }

/-! ## Sleeping, waking and dying -/

/-- The turn of `wakeup(chan)` at one slot. -/
def wakeup (chan : Option Chan) (p : Proc) : Proc :=
  if p.state = .sleeping ∧ p.chan = chan then { p with state := .runnable } else p

/-- What `kill` does to the slot whose pid it is looking for. -/
def kill (p : Proc) : Proc :=
  { p with killed := 1, state := if p.state = .sleeping then .runnable else p.state }

/-- `exit` under `p->lock`. -/
def exit (status : Int32) (ticks : UInt32) (p : Proc) : Proc :=
  { p with xstate := status, state := .zombie, etime := ticks }

/-- `sleep(chan)` under `p->lock`, up to `sched`. -/
def sleep (chan : Option Chan) (p : Proc) : Proc :=
  { p with chan := chan, state := .sleeping }

/-- `yield` under `p->lock`, up to `sched`. -/
def yield (p : Proc) : Proc :=
  { p with state := .runnable }

/-- The turn of `update_time` at one slot. -/
def updateTime (p : Proc) : Proc :=
  match p.state with
  | .running => { p with
      rtime := p.rtime + 1, runningTime := p.runningTime + 1, sleepTime := 0 }
  | .runnable => { p with waitTime := p.waitTime + 1 }
  | .sleeping => { p with sleepTime := p.sleepTime + 1 }
  | _ => p

/-- What the PBS scheduler stores in the slot it selected. -/
def dispatch (p : Proc) : Proc :=
  { p with scheduleCount := p.scheduleCount + 1, runningTime := 0, state := .running }

/-- What `change_priority(new, p)` stores before it releases `p->lock`. -/
def changePriority (new : Int32) (p : Proc) : Proc :=
  { p with runningTime := 0, sleepTime := 0, stPriority := new }

@[simp] theorem wakeup_pid (chan : Option Chan) (p : Proc) : (p.wakeup chan).pid = p.pid := by
  unfold wakeup
  split_ifs <;> rfl

@[simp] theorem updateTime_state (p : Proc) : p.updateTime.state = p.state := by
  unfold updateTime
  split <;> simp_all

end Proc

end CowPbs
