import Mathlib
import CowPbs.Lib.Transition
import CowPbs.Proc

/-!
# Process creation, exit, wait and kill

The operations of proc.c on the process table, one after the other : `fork` (through
`allocproc`), `exit`, `wait`, `kill`, and the moves of the scheduler between them. Memory
is not here. Whether `allocproc` gets its trapframe and page table, and whether the
`uvmcopy` of `fork` and the `copyout` of `wait` succeed, is part of the event. `waitx`
differs from `wait` only in what it copies out, and its event is `wait`.

`allocpid` adds one to an `int`. Signed overflow is undefined in C, so a run ends when
`nextpid` cannot grow, and until then pids are positive and never given twice.

An UNUSED slot has pid 0, and `kill` compares pids without looking at the state. So
`kill(0)` marks the first UNUSED slot as killed, and `allocproc`, which does not clear
`killed`, hands it to the next process. `kill_live_iff` says exactly when `kill` meets its
contract, and that a run without such a `kill` keeps new processes unkilled.
-/

open Function Transition

namespace CowPbs

/-- The process table with what `allocproc` and `exit` read beside it. -/
structure ProcSys where
  /-- `proc[NPROC]`. -/
  proc : Table
  /-- `nextpid`. -/
  nextpid : Int32
  /-- `ticks`. -/
  ticks : UInt32
  /-- `initproc`. -/
  initproc : Slot

/-! ## Operations -/

/-- The first slot of the table that satisfies `p`. -/
def findSlot (p : Slot → Bool) : Option Slot :=
  (List.finRange NPROC).find? p

/-- What memory allows `allocproc` : no trapframe, no page table, or both of them. -/
inductive AllocOutcome
  | noTrapframe
  | noPagetable
  | ok (trapframe pagetable : ℕ)
  deriving DecidableEq

/-- `allocpid` : the pid and the next one; nothing on signed overflow. -/
def allocpid (nextpid : Int32) : Option (Int32 × Int32) :=
  if nextpid.toInt + 1 < 2 ^ 31 then some (nextpid, nextpid + 1) else none

/-- `allocproc` : the slot it found, if it succeeds. -/
def allocproc (s : ProcSys) (o : AllocOutcome) : Option (Option Slot × ProcSys) :=
  match findSlot fun i => (s.proc i).state = .unused with
  | none => some (none, s)
  | some i => do
    let (pid, nextpid) ← allocpid s.nextpid
    let p := (s.proc i).found pid
    let s := { s with nextpid := nextpid }
    match o with
    | .noTrapframe | .noPagetable => some (none, { s with proc := update s.proc i p.freeproc })
    | .ok trapframe pagetable =>
      let p := { p with trapframe := some trapframe, pagetable := some pagetable }
      some (some i, { s with proc := update s.proc i (p.fresh s.ticks) })

/-- `fork` by process `p`; `uvmcopy` says whether the copy of its memory succeeds. -/
def fork (s : ProcSys) (p : Slot) (o : AllocOutcome) (uvmcopy : Bool) : Option ProcSys := do
  let (np, s) ← allocproc s o
  match np with
  | none => some s
  | some np =>
    if uvmcopy then
      let child := { s.proc np with sz := (s.proc p).sz, parent := some p, state := .runnable }
      some { s with proc := update s.proc np child }
    else some { s with proc := update s.proc np (s.proc np).freeproc }

/-- `wakeup(chan)`, called by process `me` : every other slot. -/
def wakeup (T : Table) (me : Slot) (chan : Option Chan) : Table :=
  fun i => if i = me then T i else (T i).wakeup chan

/-- The turn of `reparent(p)` at slot `i`. -/
def reparentStep (p init : Slot) (T : Table) (i : Slot) : Table :=
  if (T i).parent = some p then
    wakeup (update T i { T i with parent := some init }) p (some (.proc init))
  else T

/-- `reparent(p)`. -/
def reparent (T : Table) (p init : Slot) : Table :=
  (List.finRange NPROC).foldl (reparentStep p init) T

/-- `exit(status)` by process `p`, up to `sched`; `init` panics. -/
def exit (s : ProcSys) (p : Slot) (status : Int32) : Option ProcSys :=
  if p = s.initproc then none
  else
    let T := reparent s.proc p s.initproc
    let T := wakeup T p ((T p).parent.map .proc)
    some { s with proc := update T p ((T p).exit status s.ticks) }

/-- `wait` by process `p`, one turn of its loop : a zombie child is freed if the
`copyout` succeeds; without one, `p` returns, or sleeps on itself. -/
def wait (s : ProcSys) (p : Slot) (copyout : Bool) : Int32 × ProcSys :=
  match findSlot fun i => (s.proc i).parent = some p ∧ (s.proc i).state = .zombie with
  | some i =>
    if copyout then ((s.proc i).pid, { s with proc := update s.proc i (s.proc i).freeproc })
    else (-1, s)
  | none =>
    if (findSlot fun i => (s.proc i).parent = some p).isNone ∨ (s.proc p).killed ≠ 0 then (-1, s)
    else (0, { s with proc := update s.proc p ((s.proc p).sleep (some (.proc p))) })

/-- `kill(pid)` : the loop returns at the first slot with that pid. -/
def kill (T : Table) (pid : Int32) : Int32 × Table :=
  match findSlot fun i => (T i).pid = pid with
  | some i => (0, update T i (T i).kill)
  | none => (-1, T)

/-! ## Runs -/

/-- An operation. The slot is the process that calls it. -/
inductive ProcEvent
  | fork (p : Slot) (o : AllocOutcome) (uvmcopy : Bool)
  | exit (p : Slot) (status : Int32)
  | wait (p : Slot) (copyout : Bool)
  | kill (p : Slot) (pid : Int32)
  | setkilled (p : Slot)
  | sleep (p : Slot) (chan : Option Chan)
  | wakeup (p : Slot) (chan : Option Chan)
  | yield (p : Slot)
  | dispatch (p : Slot)

/-- The operation of an event, when its caller is RUNNING (or, for `dispatch`, the slot
RUNNABLE). -/
def ProcSys.exec (s : ProcSys) : ProcEvent → Option ProcSys
  | .fork p o uvmcopy =>
    if (s.proc p).state = .running then CowPbs.fork s p o uvmcopy else none
  | .exit p status => if (s.proc p).state = .running then CowPbs.exit s p status else none
  | .wait p copyout =>
    if (s.proc p).state = .running then some (CowPbs.wait s p copyout).2 else none
  | .kill p pid =>
    if (s.proc p).state = .running then some { s with proc := (CowPbs.kill s.proc pid).2 }
    else none
  | .setkilled p =>
    if (s.proc p).state = .running then
      some { s with proc := update s.proc p { s.proc p with killed := 1 } }
    else none
  | .sleep p chan =>
    if (s.proc p).state = .running then
      some { s with proc := update s.proc p ((s.proc p).sleep chan) }
    else none
  | .wakeup p chan =>
    if (s.proc p).state = .running then some { s with proc := CowPbs.wakeup s.proc p chan }
    else none
  | .yield p =>
    if (s.proc p).state = .running then some { s with proc := update s.proc p (s.proc p).yield }
    else none
  | .dispatch p =>
    if (s.proc p).state = .runnable then
      some { s with proc := update s.proc p (s.proc p).dispatch }
    else none

def ProcSys.Step (s : ProcSys) (e : ProcEvent) (t : ProcSys) : Prop :=
  s.exec e = some t

/-- After `procinit` and `userinit` : slot 0 is `init`, with pid 1. -/
def ProcSys.boot (ticks : UInt32) (trapframe pagetable : ℕ) : ProcSys where
  proc :=
    let p := { Proc.zero.found 1 with trapframe := some trapframe, pagetable := some pagetable }
    update (fun _ => Proc.zero) 0 { p.fresh ticks with sz := 4096, state := .runnable }
  nextpid := 2
  ticks := ticks
  initproc := 0

/-- The states a run of the process table starts from. -/
def ProcSys.Boot (s : ProcSys) : Prop :=
  ∃ ticks trapframe pagetable, s = ProcSys.boot ticks trapframe pagetable

/-! ## What an operation does to a slot -/

/-- The slot keeps its pid, its `killed`, and whether it is UNUSED. -/
structure Tame (p p' : Proc) : Prop where
  pid : p'.pid = p.pid
  killed : p'.killed = p.killed
  unused : p'.state = .unused ↔ p.state = .unused

namespace Tame

theorem refl (p : Proc) : Tame p p :=
  ⟨rfl, rfl, Iff.rfl⟩

theorem trans {p q r : Proc} (h : Tame p q) (h' : Tame q r) : Tame p r :=
  ⟨h'.pid.trans h.pid, h'.killed.trans h.killed, h'.unused.trans h.unused⟩

theorem wakeup (T : Table) (me : Slot) (chan : Option Chan) (i : Slot) :
    Tame (T i) (wakeup T me chan i) := by
  unfold CowPbs.wakeup Proc.wakeup
  split_ifs with _ h
  · exact refl _
  · exact ⟨rfl, rfl, by simp [h.1]⟩
  · exact refl _

theorem reparentStep (p init : Slot) (T : Table) (j i : Slot) :
    Tame (T i) (reparentStep p init T j i) := by
  unfold CowPbs.reparentStep
  split_ifs
  · refine trans ?_ (wakeup _ p _ i)
    by_cases hij : i = j
    · subst hij
      rw [update_self]
      exact ⟨rfl, rfl, Iff.rfl⟩
    · rw [update_of_ne hij]
      exact refl _
  · exact refl _

theorem reparent (p init : Slot) (T : Table) (i : Slot) :
    Tame (T i) (reparent T p init i) := by
  unfold CowPbs.reparent
  generalize List.finRange NPROC = l
  induction l generalizing T with
  | nil => exact refl _
  | cons j l ih => exact trans (reparentStep p init T j i) (ih _)

end Tame

/-- What one step does to slot `i` : it keeps its pid and whether it is UNUSED, and an
UNUSED slot is marked killed only by a `kill` that found it; or it is given the next pid;
or it is freed. -/
inductive Moves (s : ProcSys) (e : ProcEvent) (t : ProcSys) (i : Slot) : Prop
  | stays (pid : (t.proc i).pid = (s.proc i).pid)
      (unused : (t.proc i).state = .unused ↔ (s.proc i).state = .unused)
      (killed : (s.proc i).state = .unused → (t.proc i).killed = (s.proc i).killed ∨
        ∃ p pid, e = .kill p pid ∧ findSlot (fun j => (s.proc j).pid = pid) = some i)
      (next : s.nextpid.toInt ≤ t.nextpid.toInt)
  | born (was : (s.proc i).state = .unused) (pid : (t.proc i).pid = s.nextpid)
      (now : (t.proc i).state ≠ .unused) (killed : (t.proc i).killed = (s.proc i).killed)
      (next : t.nextpid.toInt = s.nextpid.toInt + 1)
  | freed (pid : (t.proc i).pid = 0) (now : (t.proc i).state = .unused)
      (killed : (t.proc i).killed = 0) (next : s.nextpid.toInt ≤ t.nextpid.toInt)

theorem Moves.of_tame {s : ProcSys} {e : ProcEvent} {t : ProcSys} {i : Slot}
    (h : Tame (s.proc i) (t.proc i)) (hn : s.nextpid.toInt ≤ t.nextpid.toInt) :
    Moves s e t i :=
  .stays h.pid h.unused (fun _ => .inl h.killed) hn

/-- A step that rewrites the slot of a live process and leaves the rest as it is. -/
theorem Moves.of_update {s t : ProcSys} {e : ProcEvent} (p : Slot) (q : Proc)
    (ht : t = { s with proc := update s.proc p q }) (hp : (s.proc p).state ≠ .unused)
    (hq : q.state ≠ .unused) (hpid : q.pid = (s.proc p).pid) (i : Slot) : Moves s e t i := by
  subst ht
  by_cases hi : i = p
  · subst hi
    refine .stays ?_ ?_ (fun h => (hp h).elim) le_rfl
    · simp [hpid]
    · simp [hp, hq]
  · refine .of_tame ?_ le_rfl
    simp only [update_of_ne hi]
    exact Tame.refl _

theorem findSlot_some {p : Slot → Bool} {i : Slot} (h : findSlot p = some i) : p i = true :=
  List.find?_some h

theorem findSlot_isSome {p : Slot → Bool} {i : Slot} (h : p i = true) :
    ∃ j, findSlot p = some j := by
  have : (findSlot p).isSome := by
    rw [findSlot, List.find?_isSome]
    exact ⟨i, List.mem_finRange i, h⟩
  exact Option.isSome_iff_exists.mp this

theorem findSlot_none {p : Slot → Bool} (h : findSlot p = none) (i : Slot) : p i = false := by
  have := List.find?_eq_none.mp h i (List.mem_finRange i)
  simpa using this

/-- `allocproc` found a slot and its allocations succeeded, or it failed. -/
theorem allocproc_cases {s t : ProcSys} {o : AllocOutcome} {r : Option Slot}
    (h : allocproc s o = some (r, t)) :
    (r = none ∧ t = s) ∨
    (∃ i, (s.proc i).state = .unused ∧ t.nextpid.toInt = s.nextpid.toInt + 1 ∧
      t.initproc = s.initproc ∧ t.ticks = s.ticks ∧
      ((r = none ∧ t.proc = update s.proc i ((s.proc i).found s.nextpid).freeproc) ∨
        ∃ tf pt, r = some i ∧ t.proc = update s.proc i
          (({ (s.proc i).found s.nextpid with trapframe := some tf, pagetable := some pt }).fresh
            s.ticks))) := by
  unfold allocproc at h
  split at h
  · simp only [Option.some.injEq, Prod.mk.injEq] at h
    exact .inl ⟨h.1.symm, h.2.symm⟩
  · next i hi =>
    have hu := findSlot_some hi
    simp only [decide_eq_true_eq] at hu
    unfold allocpid at h
    split_ifs at h with hn
    · have hnext : (s.nextpid + 1).toInt = s.nextpid.toInt + 1 := by
        rw [Int32.toInt_add]
        have := s.nextpid.le_toInt
        rw [Int.bmod_eq_of_le] <;> simp <;> omega
      refine .inr ⟨i, hu, ?_⟩
      cases o <;> simp at h
      · obtain ⟨rfl, rfl⟩ := h
        exact ⟨hnext, rfl, rfl, .inl ⟨rfl, rfl⟩⟩
      · obtain ⟨rfl, rfl⟩ := h
        exact ⟨hnext, rfl, rfl, .inl ⟨rfl, rfl⟩⟩
      · obtain ⟨rfl, rfl⟩ := h
        exact ⟨hnext, rfl, rfl, .inr ⟨_, _, rfl, rfl⟩⟩
    · simp at h

theorem fork_moves {s t : ProcSys} {p : Slot} {o : AllocOutcome} {uvmcopy : Bool}
    (h : fork s p o uvmcopy = some t) (e : ProcEvent) (i : Slot) : Moves s e t i := by
  unfold fork at h
  simp only [Option.bind_eq_bind, Option.bind_eq_some_iff, Prod.exists] at h
  obtain ⟨r, u, hu, h⟩ := h
  rcases allocproc_cases hu with ⟨rfl, rfl⟩ | ⟨j, hj, hnext, -, -, ⟨rfl, hproc⟩ | ⟨tf, pt, rfl, hproc⟩⟩
  · obtain rfl := Option.some.inj h
    exact .of_tame (Tame.refl _) le_rfl
  · obtain rfl := Option.some.inj h
    by_cases hij : i = j
    · subst hij
      exact .freed (by simp [hproc, Proc.freeproc]) (by simp [hproc, Proc.freeproc])
        (by simp [hproc, Proc.freeproc]) (by omega)
    · exact .of_tame (by simp [hproc, hij, Tame.refl]) (by omega)
  · cases uvmcopy <;> obtain rfl := Option.some.inj h <;> by_cases hij : i = j
    · subst hij
      exact .freed (by simp [Proc.freeproc]) (by simp [Proc.freeproc]) (by simp [Proc.freeproc])
        (by simp; omega)
    · exact .of_tame (by simp [hproc, hij, Tame.refl]) (by simp; omega)
    · subst hij
      exact .born hj (by simp [hproc, Proc.fresh, Proc.found]) (by simp)
        (by simp [hproc, Proc.fresh, Proc.found]) hnext
    · exact .of_tame (by simp [hproc, hij, Tame.refl]) (by simp; omega)

theorem exit_moves {s t : ProcSys} {p : Slot} {status : Int32} (hp : (s.proc p).state ≠ .unused)
    (h : exit s p status = some t) (e : ProcEvent) (i : Slot) : Moves s e t i := by
  unfold exit at h
  split_ifs at h
  obtain rfl := Option.some.inj h
  have htame := (Tame.reparent p s.initproc s.proc i).trans
    (Tame.wakeup _ p ((reparent s.proc p s.initproc p).parent.map .proc) i)
  by_cases hi : i = p
  · subst hi
    refine .stays ?_ ?_ (fun h => (hp h).elim) le_rfl
    · simpa [Proc.exit] using htame.pid
    · simp [Proc.exit, hp]
  · refine .of_tame ?_ le_rfl
    simpa [update_of_ne hi] using htame

theorem wait_moves (s : ProcSys) {p : Slot} (hp : (s.proc p).state ≠ .unused) (copyout : Bool)
    (e : ProcEvent) (i : Slot) : Moves s e (wait s p copyout).2 i := by
  unfold wait
  split
  · next j hj =>
    split_ifs
    · by_cases hij : i = j
      · subst hij
        exact .freed (by simp [Proc.freeproc]) (by simp [Proc.freeproc]) (by simp [Proc.freeproc])
          le_rfl
      · exact .of_tame (by simp [hij, Tame.refl]) le_rfl
    · exact .of_tame (Tame.refl _) le_rfl
  · split_ifs
    · exact .of_tame (Tame.refl _) le_rfl
    · exact .of_update p ((s.proc p).sleep (some (.proc p))) rfl hp (by simp [Proc.sleep]) rfl i

theorem kill_moves (s : ProcSys) (p : Slot) (pid : Int32) (i : Slot) :
    Moves s (.kill p pid) { s with proc := (kill s.proc pid).2 } i := by
  unfold kill
  split
  · next j hj =>
    by_cases hij : i = j
    · subst hij
      refine .stays (by simp [Proc.kill]) ?_ (fun _ => .inr ⟨p, pid, rfl, hj⟩) le_rfl
      simp only [update_self, Proc.kill]
      split_ifs with hs
      · simp [hs]
      · exact Iff.rfl
    · exact .of_tame (by simp [hij, Tame.refl]) le_rfl
  · exact .of_tame (Tame.refl _) le_rfl

theorem step_moves {s t : ProcSys} {e : ProcEvent} (h : s.Step e t) (i : Slot) :
    Moves s e t i := by
  cases e <;> simp only [ProcSys.Step, ProcSys.exec, Option.ite_none_right_eq_some] at h <;>
    obtain ⟨hp, h⟩ := h
  case fork p o uvmcopy => exact fork_moves h _ i
  case exit p status => exact exit_moves (by simp [hp]) h _ i
  case wait p copyout =>
    obtain rfl := Option.some.inj h
    exact wait_moves s (by simp [hp]) copyout _ i
  case kill p pid =>
    obtain rfl := Option.some.inj h
    exact kill_moves s p pid i
  case wakeup p chan =>
    obtain rfl := Option.some.inj h
    exact .of_tame (Tame.wakeup _ p chan i) le_rfl
  case setkilled p =>
    exact .of_update p _ (Option.some.inj h).symm (by simp [hp]) (by simp [hp]) rfl i
  case sleep p chan =>
    exact .of_update p _ (Option.some.inj h).symm (by simp [hp]) (by simp [Proc.sleep]) rfl i
  case yield p =>
    exact .of_update p _ (Option.some.inj h).symm (by simp [hp]) (by simp [Proc.yield]) rfl i
  case dispatch p =>
    exact .of_update p _ (Option.some.inj h).symm (by simp [hp]) (by simp [Proc.dispatch]) rfl i

/-! ## Pids -/

/-- UNUSED slots have pid 0, the others a pid already given out. -/
structure PidInv (s : ProcSys) : Prop where
  next : 0 < s.nextpid.toInt
  unused : ∀ i, (s.proc i).state = .unused → (s.proc i).pid = 0
  used : ∀ i, (s.proc i).state ≠ .unused →
    0 < (s.proc i).pid.toInt ∧ (s.proc i).pid.toInt < s.nextpid.toInt

theorem PidInv.boot {s : ProcSys} (h : s.Boot) : PidInv s := by
  obtain ⟨ticks, tf, pt, rfl⟩ := h
  refine ⟨by simp [ProcSys.boot], fun i hi => ?_, fun i hi => ?_⟩
  · by_cases h0 : i = 0
    · subst h0
      simp [ProcSys.boot] at hi
    · simp [ProcSys.boot, h0, Proc.zero]
  · by_cases h0 : i = 0
    · subst h0
      simp [ProcSys.boot, Proc.fresh, Proc.found]
    · simp [ProcSys.boot, h0, Proc.zero] at hi

theorem PidInv.step {s t : ProcSys} {e : ProcEvent} (hI : PidInv s) (h : s.Step e t) :
    PidInv t := by
  refine ⟨?_, fun i hi => ?_, fun i hi => ?_⟩
  · have := hI.next
    rcases step_moves h 0 with ⟨-, -, -, _⟩ | ⟨-, -, -, -, _⟩ | ⟨-, -, -, _⟩ <;> omega
  · rcases step_moves h i with ⟨hpid, hu, -, -⟩ | ⟨-, -, hn, -, -⟩ | ⟨hpid, -, -, -⟩
    · rw [hpid, hI.unused i (hu.1 hi)]
    · exact (hn hi).elim
    · exact hpid
  · have := hI.next
    rcases step_moves h i with ⟨hpid, hu, -, hle⟩ | ⟨-, hpid, -, -, hle⟩ | ⟨-, hn, -, -⟩
    · have := hI.used i fun hu' => hi (hu.2 hu')
      rw [hpid]
      omega
    · rw [hpid]
      omega
    · exact (hi hn).elim

theorem PidInv.reachable {s : ProcSys} (h : Reachable ProcSys.Boot ProcSys.Step s) : PidInv s :=
  h.invariant (fun _ => .boot) fun _ _ _ => .step

theorem PidInv.pid_eq_zero_iff {s : ProcSys} (h : PidInv s) (i : Slot) :
    (s.proc i).pid = 0 ↔ (s.proc i).state = .unused := by
  refine ⟨fun hp => ?_, h.unused i⟩
  by_contra hu
  have := (h.used i hu).1
  rw [hp] at this
  exact absurd this (by decide)

/-! ## The contract of `kill` -/

/-- `kill(pid)` returns 0 iff a process has that pid, and then changes only that process :
`killed` is set, and it is woken if it sleeps. Otherwise it returns -1 and changes
nothing. -/
def KillMeets (T : Table) (pid : Int32) : Prop :=
  ((kill T pid).1 = 0 ↔ ∃ i, (T i).state ≠ .unused ∧ (T i).pid = pid) ∧
  ((kill T pid).1 = 0 → ∃ i, (T i).state ≠ .unused ∧ (T i).pid = pid ∧
    (kill T pid).2 = update T i { T i with
      killed := 1, state := if (T i).state = .sleeping then .runnable else (T i).state }) ∧
  ((kill T pid).1 ≠ 0 → (kill T pid).1 = -1 ∧ (kill T pid).2 = T)

/-- `pid` is not the pid of the UNUSED slots, or there are none. -/
def KillOk (T : Table) (pid : Int32) : Prop :=
  pid ≠ 0 ∨ ∀ i, (T i).state ≠ .unused

/-- A step in which no `kill` is called with the pid of the UNUSED slots. -/
def KillGuard (s : ProcSys) : ProcEvent → Prop
  | .kill _ pid => KillOk s.proc pid
  | _ => True

theorem KillMeets.of_find {T : Table} {pid : Int32}
    (h : ∀ i, (T i).pid = pid → (T i).state ≠ .unused) : KillMeets T pid := by
  unfold KillMeets kill
  split
  · next i hi =>
    have hpid := findSlot_some hi
    simp only [decide_eq_true_eq] at hpid
    refine ⟨by simpa using ⟨i, h i hpid, hpid⟩, fun _ => ⟨i, h i hpid, hpid, rfl⟩, by simp⟩
  · next hnone =>
    have hno := findSlot_none hnone
    simp only [decide_eq_false_iff_not] at hno
    refine ⟨by simpa using fun i _ => hno i, by simp, by simp⟩

/-- On the tables of a run, `kill` meets its contract exactly if its argument is not 0 or
no slot is UNUSED. -/
theorem killMeets_iff {s : ProcSys} (hI : PidInv s) (pid : Int32) :
    KillMeets s.proc pid ↔ KillOk s.proc pid := by
  constructor
  · rintro ⟨hret, -, -⟩
    by_contra hok
    simp only [KillOk, not_or, not_not, not_forall] at hok
    obtain ⟨rfl, i, hi⟩ := hok
    obtain ⟨j, hj⟩ := findSlot_isSome (p := fun i => (s.proc i).pid = 0) (i := i)
      (by simpa using hI.unused i hi)
    obtain ⟨k, hk, hk0⟩ := hret.1 (by simp [kill, hj])
    exact hk ((hI.pid_eq_zero_iff k).1 hk0)
  · rintro (h0 | hall)
    · refine .of_find fun i hi hu => h0 ?_
      rw [← hi, hI.unused i hu]
    · exact .of_find fun i _ => hall i

/-- UNUSED slots are not marked killed. -/
def Unkilled (s : ProcSys) : Prop :=
  ∀ i, (s.proc i).state = .unused → (s.proc i).killed = 0

theorem Unkilled.boot {s : ProcSys} (h : s.Boot) : Unkilled s := by
  obtain ⟨ticks, tf, pt, rfl⟩ := h
  intro i _
  by_cases h0 : i = 0
  · subst h0
    rfl
  · simp [ProcSys.boot, h0, Proc.zero]

theorem Unkilled.step {s t : ProcSys} {e : ProcEvent} (hP : PidInv s) (hU : Unkilled s)
    (h : s.Step e t) (hg : KillGuard s e) : Unkilled t := by
  intro i hi
  rcases step_moves h i with ⟨-, hu, hk, -⟩ | ⟨-, -, hn, -, -⟩ | ⟨-, -, hk, -⟩
  · have hui := hu.1 hi
    rcases hk hui with hk | ⟨p, pid, rfl, hf⟩
    · rw [hk, hU i hui]
    · have hpid := findSlot_some hf
      simp only [decide_eq_true_eq] at hpid
      rcases hg with h0 | hall
      · exact (h0 (by rw [← hpid, hP.unused i hui])).elim
      · exact (hall i hui).elim
  · exact (hn hi).elim
  · exact hk

theorem Unkilled.allocproc {s t : ProcSys} {o : AllocOutcome} {i : Slot} (hU : Unkilled s)
    (h : allocproc s o = some (some i, t)) : (t.proc i).killed = 0 := by
  rcases allocproc_cases h with ⟨h, -⟩ | ⟨j, hj, -, -, -, ⟨h, -⟩ | ⟨tf, pt, hij, hproc⟩⟩
  · cases h
  · cases h
  · obtain rfl := Option.some.inj hij
    simpa [hproc, Proc.fresh, Proc.found] using hU i hj

/-- On every reachable table `kill(pid)` meets its contract iff `pid` is not 0 or no slot
is UNUSED, and in a run where every `kill` is such, UNUSED slots are never marked killed
and every process `allocproc` returns starts unkilled. -/
theorem kill_live_iff (s : ProcSys) (h : Reachable ProcSys.Boot ProcSys.Step s) :
    (∀ pid, KillMeets s.proc pid ↔ KillOk s.proc pid) ∧
    (Reachable ProcSys.Boot (Guarded ProcSys.Step KillGuard) s →
      (∀ i, (s.proc i).state = .unused → (s.proc i).killed = 0) ∧
      ∀ o i t, allocproc s o = some (some i, t) → (t.proc i).killed = 0) := by
  refine ⟨killMeets_iff (PidInv.reachable h), fun hg => ?_⟩
  have hU : Unkilled s := hg.invariant_of (fun _ => .boot) fun _ _ _ hr hU hs =>
    hU.step (PidInv.reachable hr.of_guarded) hs.1 hs.2
  exact ⟨hU, fun o i t => hU.allocproc⟩

/-- After boot, `init` runs and calls `kill(0)` : the call returns 0 though no process has
pid 0, slot 1 is marked killed while UNUSED, and the next process is born killed. -/
theorem kill_zero_marks_unused : ∃ s t u : ProcSys,
    Reachable ProcSys.Boot ProcSys.Step s ∧ (kill s.proc 0).1 = 0 ∧
    (¬∃ i, (s.proc i).state ≠ .unused ∧ (s.proc i).pid = 0) ∧ ¬KillMeets s.proc 0 ∧
    s.Step (.kill 0 0) t ∧ (t.proc 1).state = .unused ∧ (t.proc 1).killed = 1 ∧
    allocproc t (.ok 8192 4096) = some (some 1, u) ∧ (u.proc 1).killed = 1 := by
  have hr : Reachable ProcSys.Boot ProcSys.Step _ :=
    .step (e := .dispatch 0) (.init ⟨0, 0, 0, rfl⟩) rfl
  have hI := PidInv.reachable hr
  refine ⟨_, _, _, hr, rfl, ?_, ?_, rfl, rfl, rfl, rfl, rfl⟩
  · rintro ⟨i, hi, h0⟩
    exact hi ((hI.pid_eq_zero_iff i).1 h0)
  · rw [killMeets_iff hI]
    rintro (h | h)
    · exact h rfl
    · exact h 1 rfl

/-- A run with a guarded `kill(1)` : the call meets its contract, and the process that
`allocproc` then makes in slot 1 is not killed. -/
theorem kill_live_iff_init : ∃ s u : ProcSys,
    Reachable ProcSys.Boot (Guarded ProcSys.Step KillGuard) s ∧ KillMeets s.proc 1 ∧
    (∀ i, (s.proc i).state = .unused → (s.proc i).killed = 0) ∧
    allocproc s (.ok 8192 4096) = some (some 1, u) ∧ (u.proc 1).killed = 0 := by
  have hd : Reachable ProcSys.Boot (Guarded ProcSys.Step KillGuard) _ :=
    .step (e := .dispatch 0) (.init ⟨0, 0, 0, rfl⟩) ⟨rfl, trivial⟩
  have hr : Reachable ProcSys.Boot (Guarded ProcSys.Step KillGuard) _ :=
    .step (e := .kill 0 1) hd ⟨rfl, .inl (by decide)⟩
  obtain ⟨hiff, hrun⟩ := kill_live_iff _ hr.of_guarded
  exact ⟨_, _, hr, (hiff 1).2 (.inl (by decide)), (hrun hr).1, rfl,
    (hrun hr).2 (.ok 8192 4096) 1 _ rfl⟩

end CowPbs
