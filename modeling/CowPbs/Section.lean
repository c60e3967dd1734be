import Mathlib
import CowPbs.ProcTable

/-!
# Lock-protected sections

The operations of proc.c cut into the sections between an `acquire` and the matching
`release`, for the models in which several CPUs work on the table at once. A section is
run by a RUNNING process `q` and rewrites one slot `i` : `alloc` is `fork` from the
`acquire` in `allocproc` to the first `release(&np->lock)`, `adopt` and `publish` are the
two sections after it, `free` is the turn of `wait` and `waitx` that reaps a zombie,
`reparent` one turn of the loop under `wait_lock`, `exit`, `sleep` and `yield` end in
`sched`.

The order of the sections inside one operation is not enforced : every interleaving of
the code is a sequence of sections, and what holds along all such sequences holds of the
code.
-/

open Function

namespace CowPbs

/-- A section of proc.c under `p->lock` or `wait_lock`. -/
inductive Section
  | alloc (o : AllocOutcome) (uvmcopy : Bool)
  | adopt
  | publish
  | exit (status : Int32)
  | free
  | reparent
  | wakeup (chan : Option Chan)
  | kill
  | sleep (chan : Option Chan)
  | wake
  | yield
  | changePriority (new : Int32)
  deriving DecidableEq

namespace Section

/-- `fork` up to the first `release(&np->lock)`, in the UNUSED slot `p` : the child, still
USED, or a slot freed again because memory ran out. -/
def allocSlot (p : Proc) (pid : Int32) (ticks : UInt32) (sz : ℕ) (uvmcopy : Bool) :
    AllocOutcome → Proc
  | .noTrapframe | .noPagetable => (p.found pid).freeproc
  | .ok trapframe pagetable =>
    let np := ({ p.found pid with
      trapframe := some trapframe, pagetable := some pagetable }).fresh ticks
    if uvmcopy then { np with sz := sz } else np.freeproc

/-- What the section, run by `q`, makes of slot `i`; nothing if the code does not get to
run it there. -/
def slot (s : ProcSys) (q i : Slot) : Section → Option Proc
  | alloc o uvmcopy =>
    if (s.proc i).state = .unused then
      (allocpid s.nextpid).map fun (pid, _) =>
        allocSlot (s.proc i) pid s.ticks (s.proc q).sz uvmcopy o
    else none
  | adopt =>
    if (s.proc i).state = .used ∧ (s.proc i).parent = none then
      some { s.proc i with parent := some q }
    else none
  | publish =>
    if (s.proc i).state = .used ∧ (s.proc i).parent = some q then
      some { s.proc i with state := .runnable }
    else none
  | exit status => if i = q ∧ q ≠ s.initproc then some ((s.proc i).exit status s.ticks) else none
  | free =>
    if (s.proc i).state = .zombie ∧ (s.proc i).parent = some q then some (s.proc i).freeproc
    else none
  | reparent =>
    if (s.proc i).parent = some q then some { s.proc i with parent := some s.initproc } else none
  | wakeup chan => if i = q then none else some ((s.proc i).wakeup chan)
  | kill => some (s.proc i).kill
  | sleep chan => if i = q then some ((s.proc i).sleep chan) else none
  | wake => if i = q then some { s.proc i with chan := none } else none
  | yield => if i = q then some (s.proc i).yield else none
  | changePriority new => some ((s.proc i).changePriority new)

/-- `nextpid` after the section. -/
def nextpid (s : ProcSys) : Section → Int32
  | alloc _ _ => s.nextpid + 1
  | _ => s.nextpid

/-- The section, run by `q` on slot `i`. -/
def run (s : ProcSys) (q i : Slot) (c : Section) : Option ProcSys :=
  if (s.proc q).state = .running then
    (c.slot s q i).map fun p => { s with proc := update s.proc i p, nextpid := c.nextpid s }
  else none

/-- The section runs under the `p->lock` of the slot; the others only under `wait_lock`. -/
def locks : Section → Bool
  | adopt | reparent => false
  | _ => true

/-- The section ends in `sched` : the process leaves its CPU. -/
def leaves : Section → Bool
  | exit _ | sleep _ | yield => true
  | alloc _ _ | adopt | publish | free | reparent | wakeup _ | kill | wake
  | changePriority _ => false

/-- A section rewrites slot `i` and nothing else of the table. -/
theorem run_eq_some {s t : ProcSys} {q i : Slot} {c : Section} (h : c.run s q i = some t) :
    (s.proc q).state = .running ∧ ∃ p, c.slot s q i = some p ∧
      t = { s with proc := update s.proc i p, nextpid := c.nextpid s } := by
  unfold run at h
  split_ifs at h with hq
  obtain ⟨p, hp, rfl⟩ := Option.map_eq_some_iff.1 h
  exact ⟨hq, p, hp, rfl⟩

/-- A section that ends in `sched` is about the process that runs it, and that process
does not run any more. -/
theorem slot_of_leaves {s : ProcSys} {q i : Slot} {a : Section} {p : Proc}
    (ha : a.slot s q i = some p) (hl : a.leaves = true) : i = q ∧ p.state ≠ .running := by
  cases a <;> simp only [leaves, Bool.false_eq_true] at hl <;>
    simp only [slot, Option.ite_none_right_eq_some, Option.some.injEq] at ha
  case exit status =>
    obtain ⟨⟨hi, -⟩, rfl⟩ := ha
    exact ⟨hi, by rintro ⟨⟩⟩
  case sleep | yield =>
    obtain ⟨hi, rfl⟩ := ha
    exact ⟨hi, by rintro ⟨⟩⟩

/-- The other sections leave a process RUNNING. -/
theorem slot_running {s : ProcSys} {q i : Slot} {a : Section} {p : Proc}
    (ha : a.slot s q i = some p) (hl : a.leaves = false) (hi : (s.proc i).state = .running) :
    p.state = .running := by
  cases a <;> simp only [leaves, Bool.true_eq_false] at hl <;>
    simp only [slot, hi, reduceCtorEq, false_and, ↓reduceIte, Option.ite_none_right_eq_some,
      Option.ite_none_left_eq_some, Option.some.injEq] at ha
  case wakeup chan =>
    obtain ⟨-, rfl⟩ := ha
    simp [Proc.wakeup, hi]
  case kill =>
    subst ha
    simp [Proc.kill, hi]
  case changePriority new =>
    subst ha
    exact hi
  case reparent | wake =>
    obtain ⟨-, rfl⟩ := ha
    rfl

end Section

/-- The end of a pass of the scheduler that selected slot `i`. -/
def ProcSys.dispatch (s : ProcSys) (i : Slot) : Option ProcSys :=
  if (s.proc i).state = .runnable then
    some { s with proc := update s.proc i (s.proc i).dispatch }
  else none

theorem ProcSys.dispatch_eq_some {s t : ProcSys} {i : Slot} (h : s.dispatch i = some t) :
    (s.proc i).state = .runnable ∧
      t = { s with proc := update s.proc i (s.proc i).dispatch } := by
  unfold ProcSys.dispatch at h
  split_ifs at h with hi
  exact ⟨hi, (Option.some.inj h).symm⟩

end CowPbs
