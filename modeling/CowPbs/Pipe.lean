import Mathlib
import CowPbs.Lib.Bytes
import CowPbs.Lib.Ring
import CowPbs.Lib.Transition
import CowPbs.Section

/-!
# Pipes

kernel/pipe.c, on one pipe, by any processes of the table, interleaved at the granularity of
locks with each other, with the scheduler and with the rest of proc.c (`Section`, `kill` among
it). `pi->lock` has a holder. `killed` takes the `p->lock` of the process at each round of the
loop of `pipewrite`, so a round is a step of its own, and a `wakeup` takes the `p->lock` of each
slot in turn. A process in `sleep` keeps its own `p->lock` from before it releases `pi->lock`
until the scheduler, to which it switches, releases it (`PipePc.holdsOwn`).

The two ends are open files. A process that reads or writes has its file open, so `fileclose`
calls `pipeclose` for an end once, when nobody is at that end any more. What the copy from or
to user memory says is part of the event.
-/

open Bytes Function Transition

namespace CowPbs

def PIPESIZE : ℕ := 512

/-- `struct pipe`, without its lock. -/
structure Pipe where
  data : ℕ → Byte
  nread : BitVec 32
  nwrite : BitVec 32
  readopen : Bool
  writeopen : Bool

/-- A call of `pipewrite` that has copied `i` bytes, or of `piperead`. -/
inductive PipeCall
  | write (i : ℕ) (n : ℤ)
  | read (n : ℤ)
  deriving DecidableEq

/-- The call is one of `pipewrite`. -/
def PipeCall.isWrite : PipeCall → Bool
  | write _ _ => true
  | read _ => false

/-- `&pi->nread` and `&pi->nwrite`. -/
structure PipeChans where
  nread : ℕ
  nwrite : ℕ
  ne : nread ≠ nwrite

/-- What follows a `wakeup`. -/
inductive PipeNext
  | sleep (c : PipeCall)
  /-- `release(&pi->lock)`, and `r` is returned. -/
  | ret (c : PipeCall) (r : ℕ)
  /-- The end of `pipeclose`. -/
  | closed
  deriving DecidableEq

/-- The call that goes on after the `wakeup`. -/
def PipeNext.call : PipeNext → Option PipeCall
  | sleep c | ret c _ => some c
  | closed => none

/-- Where a process is. -/
inductive PipePc
  | run
  /-- Before `acquire(&pi->lock)`, at first or at the end of `sleep`. -/
  | acquire (c : PipeCall)
  /-- Before the test of the `while` loop. -/
  | test (c : PipeCall)
  /-- Before the test of the loop of `piperead` that copies. -/
  | copy (i : ℕ) (n : ℤ)
  /-- In `pipeclose`, before `acquire(&pi->lock)`. -/
  | close (writable : Bool)
  /-- In `wakeup`, before slot `j`; of `&pi->nread` or of `&pi->nwrite`. -/
  | wakeup (nread : Bool) (j : ℕ) (next : PipeNext)
  /-- In `sleep`, before `acquire(&p->lock)`. -/
  | sleep (c : PipeCall)
  /-- The same, after `release(&pi->lock)`. -/
  | sleepUnlocked (c : PipeCall)
  /-- The same, SLEEPING, before the scheduler releases `p->lock`. -/
  | sched (c : PipeCall)
  /-- The same, off the CPU. -/
  | asleep (c : PipeCall)
  deriving DecidableEq

namespace PipePc

/-- The process holds `pi->lock`. -/
def holdsPipe : PipePc → Bool
  | test _ | copy _ _ | wakeup _ _ _ | sleep _ => true
  | run | acquire _ | close _ | sleepUnlocked _ | sched _ | asleep _ => false

/-- The process holds its own `p->lock`. -/
def holdsOwn : PipePc → Bool
  | sleepUnlocked _ | sched _ => true
  | run | acquire _ | test _ | copy _ _ | close _ | wakeup _ _ _ | sleep _ | asleep _ => false

/-- The call the process is in. -/
def call : PipePc → Option PipeCall
  | acquire c | test c | sleep c | sleepUnlocked c | sched c | asleep c => some c
  | copy _ n => some (.read n)
  | wakeup _ _ next => next.call
  | run | close _ => none

/-- The process is in `pipewrite`. -/
def writes (pc : PipePc) : Bool :=
  pc.call.any PipeCall.isWrite

/-- The process is in `piperead`. -/
def reads (pc : PipePc) : Bool :=
  pc.call.any fun c => !c.isWrite

/-- The process can be preempted : it is on the CPU, with no lock. -/
def preemptible : PipePc → Bool
  | run | acquire _ | close _ => true
  | test _ | copy _ _ | wakeup _ _ _ | sleep _ | sleepUnlocked _ | sched _ | asleep _ => false

/-- Where a process goes on when it is scheduled. -/
def resume : PipePc → PipePc
  | asleep c => acquire c
  | pc => pc

end PipePc

/-- The channel a call sleeps on. -/
def PipeCall.chan (a : PipeChans) : PipeCall → Chan
  | write _ _ => .obj a.nwrite
  | read _ => .obj a.nread

/-- The channel of a `wakeup`. -/
def PipeChans.chan (a : PipeChans) (nread : Bool) : Chan :=
  if nread then .obj a.nread else .obj a.nwrite

/-- The section sleeps on a channel of the pipe or wakes it up. -/
def Section.usesPipe (a : PipeChans) : Section → Bool
  | sleep c | wakeup c => c = some (.obj a.nread) || c = some (.obj a.nwrite)
  | alloc _ _ | adopt | publish | exit _ | free | reparent | kill | wake | yield
  | changePriority _ => false

/-- The table, the pipe, and where each process is. -/
structure PipeSys where
  sys : ProcSys
  pipe : Pipe
  /-- The holder of `pi->lock`. -/
  lock : Option Slot
  pc : Slot → PipePc
  /-- The file of the read end is open. -/
  rfile : Bool
  /-- The file of the write end is open. -/
  wfile : Bool

/-- What a process does, or what is done to it. -/
inductive PipeEvent
  | write (n : ℤ)
  | read (n : ℤ)
  | fileclose (writable : Bool)
  | acquire
  /-- `return -1`. -/
  | fail
  /-- The pipe is full. -/
  | full
  /-- A byte is written. -/
  | put (b : Byte)
  /-- `copyin` fails. -/
  | badIn
  /-- The loop of `pipewrite` is over. -/
  | written
  /-- The pipe is empty, and open. -/
  | empty
  /-- The first loop of `piperead` is over. -/
  | ready
  /-- A byte is read and stored. -/
  | get (b : Byte)
  /-- A byte is read, and `copyout` fails. -/
  | badOut (b : Byte)
  /-- The second loop of `piperead` is over. -/
  | done
  /-- `pipeclose`, up to its `wakeup`. -/
  | shut
  | wakeup (j : Slot)
  | wakeupSelf
  /-- `sleep` is called. -/
  | sleep
  | ret (c : PipeCall) (r : ℕ)
  | closed
  | sleepRelease
  | sleepState
  | sched
  | work (i : Slot) (c : Section)
  | wakeupIntr (chan : Chan)
  | preempt
  | dispatch

namespace PipeSys

/-- The state of slot `i`. -/
abbrev state (s : PipeSys) (i : Slot) : ProcState :=
  (s.sys.proc i).state

/-- The `p->lock` of slot `i` is not held. -/
def Unlocked (s : PipeSys) (i : Slot) : Prop :=
  (s.pc i).holdsOwn = false

/-- Process `p` goes to `pc`. -/
def goto (s : PipeSys) (p : Slot) (pc : PipePc) : PipeSys :=
  { s with pc := update s.pc p pc }

/-- Slot `i` is rewritten. -/
def set (s : PipeSys) (i : Slot) (P : Proc) : PipeSys :=
  { s with sys := { s.sys with proc := update s.sys.proc i P } }

/-- The process has been killed. -/
def Killed (s : PipeSys) (p : Slot) : Prop :=
  (s.sys.proc p).killed ≠ 0

end PipeSys

namespace Pipe

/-- `pi->nwrite == pi->nread + PIPESIZE`. -/
def Full (pi : Pipe) : Prop :=
  pi.nwrite = pi.nread + BitVec.ofNat 32 PIPESIZE

/-- `pi->nread == pi->nwrite`. -/
def Empty (pi : Pipe) : Prop :=
  pi.nread = pi.nwrite

/-- `pi->data[pi->nwrite++ % PIPESIZE] = b`. -/
def put (pi : Pipe) (b : Byte) : Pipe :=
  { pi with
    data := update pi.data (Ring.index PIPESIZE pi.nwrite) b
    nwrite := pi.nwrite + 1 }

/-- `pi->data[pi->nread % PIPESIZE]`. -/
def head (pi : Pipe) : Byte :=
  pi.data (Ring.index PIPESIZE pi.nread)

/-- `pi->nread++`. -/
def pop (pi : Pipe) : Pipe :=
  { pi with nread := pi.nread + 1 }

/-- The end is closed. -/
def shut (pi : Pipe) (writable : Bool) : Pipe :=
  if writable then { pi with writeopen := false } else { pi with readopen := false }

instance (pi : Pipe) : Decidable pi.Full :=
  inferInstanceAs (Decidable (_ = _))

instance (pi : Pipe) : Decidable pi.Empty :=
  inferInstanceAs (Decidable (_ = _))

end Pipe

namespace PipeSys

/-- One step, with the process that moves. It moves only while it is RUNNING, except that the
scheduler takes it off the CPU and puts it back. -/
inductive Step (a : PipeChans) (s : PipeSys) : Slot × PipeEvent → PipeSys → Prop
  | write (p : Slot) (n : ℤ) (hpc : s.pc p = .run) (hp : s.state p = .running)
      (hf : s.wfile = true) :
    Step a s (p, .write n) (s.goto p (.acquire (.write 0 n)))
  | read (p : Slot) (n : ℤ) (hpc : s.pc p = .run) (hp : s.state p = .running)
      (hf : s.rfile = true) :
    Step a s (p, .read n) (s.goto p (.acquire (.read n)))
  | acquire (p : Slot) (c : PipeCall) (hpc : s.pc p = .acquire c) (hp : s.state p = .running)
      (hl : s.lock = none) :
    Step a s (p, .acquire) ({ s with lock := some p }.goto p (.test c))
  -- the loop of `pipewrite`
  | writeFail (p : Slot) (i : ℕ) (n : ℤ) (hpc : s.pc p = .test (.write i n))
      (hp : s.state p = .running) (hi : (i : ℤ) < n)
      (hk : s.pipe.readopen = false ∨ s.Killed p) :
    Step a s (p, .fail) ({ s with lock := none }.goto p .run)
  | full (p : Slot) (i : ℕ) (n : ℤ) (hpc : s.pc p = .test (.write i n))
      (hp : s.state p = .running) (hi : (i : ℤ) < n) (hr : s.pipe.readopen = true)
      (hk : ¬s.Killed p) (hfull : s.pipe.Full) :
    Step a s (p, .full) (s.goto p (.wakeup true 0 (.sleep (.write i n))))
  | put (p : Slot) (i : ℕ) (n : ℤ) (b : Byte) (hpc : s.pc p = .test (.write i n))
      (hp : s.state p = .running) (hi : (i : ℤ) < n) (hr : s.pipe.readopen = true)
      (hk : ¬s.Killed p) (hfull : ¬s.pipe.Full) :
    Step a s (p, .put b) ({ s with pipe := s.pipe.put b }.goto p (.test (.write (i + 1) n)))
  | badIn (p : Slot) (i : ℕ) (n : ℤ) (hpc : s.pc p = .test (.write i n))
      (hp : s.state p = .running) (hi : (i : ℤ) < n) (hr : s.pipe.readopen = true)
      (hk : ¬s.Killed p) (hfull : ¬s.pipe.Full) :
    Step a s (p, .badIn) (s.goto p (.wakeup true 0 (.ret (.write i n) i)))
  | written (p : Slot) (i : ℕ) (n : ℤ) (hpc : s.pc p = .test (.write i n))
      (hp : s.state p = .running) (hi : ¬(i : ℤ) < n) :
    Step a s (p, .written) (s.goto p (.wakeup true 0 (.ret (.write i n) i)))
  -- the first loop of `piperead`
  | readFail (p : Slot) (n : ℤ) (hpc : s.pc p = .test (.read n)) (hp : s.state p = .running)
      (he : s.pipe.Empty) (hw : s.pipe.writeopen = true) (hk : s.Killed p) :
    Step a s (p, .fail) ({ s with lock := none }.goto p .run)
  | empty (p : Slot) (n : ℤ) (hpc : s.pc p = .test (.read n)) (hp : s.state p = .running)
      (he : s.pipe.Empty) (hw : s.pipe.writeopen = true) (hk : ¬s.Killed p) :
    Step a s (p, .empty) (s.goto p (.sleep (.read n)))
  | ready (p : Slot) (n : ℤ) (hpc : s.pc p = .test (.read n)) (hp : s.state p = .running)
      (hw : ¬(s.pipe.Empty ∧ s.pipe.writeopen = true)) :
    Step a s (p, .ready) (s.goto p (.copy 0 n))
  -- the second
  | get (p : Slot) (i : ℕ) (n : ℤ) (hpc : s.pc p = .copy i n) (hp : s.state p = .running)
      (hi : (i : ℤ) < n) (he : ¬s.pipe.Empty) :
    Step a s (p, .get s.pipe.head) ({ s with pipe := s.pipe.pop }.goto p (.copy (i + 1) n))
  | badOut (p : Slot) (i : ℕ) (n : ℤ) (hpc : s.pc p = .copy i n) (hp : s.state p = .running)
      (hi : (i : ℤ) < n) (he : ¬s.pipe.Empty) :
    Step a s (p, .badOut s.pipe.head)
      ({ s with pipe := s.pipe.pop }.goto p (.wakeup false 0 (.ret (.read n) i)))
  | done (p : Slot) (i : ℕ) (n : ℤ) (hpc : s.pc p = .copy i n) (hp : s.state p = .running)
      (hi : ¬(i : ℤ) < n ∨ s.pipe.Empty) :
    Step a s (p, .done) (s.goto p (.wakeup false 0 (.ret (.read n) i)))
  -- `pipeclose`
  | closeWrite (p : Slot) (hpc : s.pc p = .run) (hp : s.state p = .running)
      (hf : s.wfile = true) (hno : ∀ q, (s.pc q).writes = false) :
    Step a s (p, .fileclose true) ({ s with wfile := false }.goto p (.close true))
  | closeRead (p : Slot) (hpc : s.pc p = .run) (hp : s.state p = .running)
      (hf : s.rfile = true) (hno : ∀ q, (s.pc q).reads = false) :
    Step a s (p, .fileclose false) ({ s with rfile := false }.goto p (.close false))
  | shut (p : Slot) (w : Bool) (hpc : s.pc p = .close w) (hp : s.state p = .running)
      (hl : s.lock = none) :
    Step a s (p, .shut)
      ({ s with lock := some p, pipe := s.pipe.shut w }.goto p (.wakeup w 0 .closed))
  -- `wakeup`
  | wakeup (p j : Slot) (r : Bool) (next : PipeNext) (hpc : s.pc p = .wakeup r j next)
      (hp : s.state p = .running) (hpj : j ≠ p) (hj : s.Unlocked j) :
    Step a s (p, .wakeup j)
      ((s.set j ((s.sys.proc j).wakeup (some (a.chan r)))).goto p (.wakeup r (j + 1) next))
  | wakeupSelf (p : Slot) (r : Bool) (next : PipeNext) (hpc : s.pc p = .wakeup r p next)
      (hp : s.state p = .running) :
    Step a s (p, .wakeupSelf) (s.goto p (.wakeup r (p + 1) next))
  | wokenSleep (p : Slot) (r : Bool) (c : PipeCall) (hpc : s.pc p = .wakeup r NPROC (.sleep c))
      (hp : s.state p = .running) :
    Step a s (p, .sleep) (s.goto p (.sleep c))
  | wokenRet (p : Slot) (w : Bool) (c : PipeCall) (r : ℕ)
      (hpc : s.pc p = .wakeup w NPROC (.ret c r)) (hp : s.state p = .running) :
    Step a s (p, .ret c r) ({ s with lock := none }.goto p .run)
  | wokenClosed (p : Slot) (r : Bool) (hpc : s.pc p = .wakeup r NPROC .closed)
      (hp : s.state p = .running) :
    Step a s (p, .closed) ({ s with lock := none }.goto p .run)
  -- `sleep(chan, &pi->lock)`
  | sleepRelease (p : Slot) (c : PipeCall) (hpc : s.pc p = .sleep c) (hp : s.state p = .running) :
    Step a s (p, .sleepRelease) ({ s with lock := none }.goto p (.sleepUnlocked c))
  | sleepState (p : Slot) (c : PipeCall) (hpc : s.pc p = .sleepUnlocked c)
      (hp : s.state p = .running) :
    Step a s (p, .sleepState)
      ((s.set p ((s.sys.proc p).sleep (some (c.chan a)))).goto p (.sched c))
  | sched (p : Slot) (c : PipeCall) (hpc : s.pc p = .sched c) :
    Step a s (p, .sched) (s.goto p (.asleep c))
  -- the rest of proc.c, and the scheduler
  | work (p i : Slot) (c : Section) (t : ProcSys) (hpc : s.pc p = .run)
      (hi : c.locks = true → s.Unlocked i) (hc : c.usesPipe a = false)
      (ht : c.run s.sys p i = some t) :
    Step a s (p, .work i c) { s with sys := t }
  | wakeupIntr (p : Slot) (chan : Chan) (hr : chan ≠ .obj a.nread) (hw : chan ≠ .obj a.nwrite)
      (hi : s.Unlocked p) :
    Step a s (p, .wakeupIntr chan) (s.set p ((s.sys.proc p).wakeup (some chan)))
  | preempt (p : Slot) (hpc : (s.pc p).preemptible = true) (hp : s.state p = .running) :
    Step a s (p, .preempt) (s.set p (s.sys.proc p).yield)
  | dispatch (p : Slot) (hl : s.Unlocked p) (hp : s.state p = .runnable) :
    Step a s (p, .dispatch)
      ((s.set p { (s.sys.proc p).dispatch with
        chan := if (s.pc p).resume = s.pc p then (s.sys.proc p).chan else none }).goto p
        (s.pc p).resume)

/-- `pipealloc` has made the pipe, and nobody has used it yet. -/
def Boot (a : PipeChans) (s : PipeSys) : Prop :=
  s.lock = none ∧ s.rfile = true ∧ s.wfile = true ∧ (∀ p, s.pc p = .run) ∧
    s.pipe.nread = 0 ∧ s.pipe.nwrite = 0 ∧ s.pipe.readopen = true ∧ s.pipe.writeopen = true ∧
    ∀ p, s.state p = .sleeping → (s.sys.proc p).chan ≠ some (.obj a.nread) ∧
      (s.sys.proc p).chan ≠ some (.obj a.nwrite)

/-- Process `p` is SLEEPING on the channel. -/
def SleepsOn (s : PipeSys) (chan : Chan) (p : Slot) : Prop :=
  s.state p = .sleeping ∧ (s.sys.proc p).chan = some chan

end PipeSys

end CowPbs
