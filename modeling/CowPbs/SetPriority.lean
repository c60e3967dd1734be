import Mathlib
import CowPbs.Section

/-!
# `sys_setpriority` beside other CPUs

`sys_setpriority(pid, new)` (sysproc.c) looks for its slot by reading `p->pid` without
`p->lock`, and locks the slot it found only then. The model runs one such call, by the
process `me`, one unlocked read at a time, while the other processes run the
lock-protected sections of proc.c in any order. Between two of its own steps `me` can be
preempted, unless it holds the lock.

A slot that is freed and given to another process between the comparison and the
`acquire` still belongs to the call, which then changes the priority of a process nobody
asked about (`setpriority_hits_other`). That reuse is the only way to miss : in a run
where the matched slot is neither freed nor allocated before it is locked, the process
that is written to has the pid of the call (`setpriority_hits_target`).
-/

open Function Transition

namespace CowPbs

/-- `check_valid_newp`, of a value that is not a priority. -/
def checkValidNewp (new : Int32) : Bool :=
  new < 0 ∨ new > 100

/-- `check_valid_pid`, of a negative pid. -/
def checkValidPid (pid : Int32) : Bool :=
  pid < 0

/-- Where the call is. -/
inductive PrioPc
  /-- No call. -/
  | idle
  /-- About to read `p->pid` of slot `i`, or at the end of the loop. -/
  | scan (i : ℕ)
  /-- `p->pid == pid` was true, `p->lock` is not held yet. -/
  | matched (i : Slot)
  /-- In `change_priority`, with `prc->lock`. -/
  | locked (i : Slot)
  /-- `prc->lock` is released, `op` was the priority before. -/
  | released (op : Int32)
  /-- Returning. -/
  | ret (r : Int32)
  deriving DecidableEq

/-- The table, and one call of `sys_setpriority`. -/
structure PrioSys where
  sys : ProcSys
  /-- The calling process. -/
  me : Slot
  pid : Int32
  new : Int32
  pc : PrioPc

/-- The events : steps of the call, and of the processes beside it. -/
inductive PrioEvent
  | call (me : Slot) (pid new : Int32)
  | read
  | acquire
  | write
  | finish
  | ret
  | sect (q i : Slot) (c : Section)
  | dispatch (i : Slot)

namespace PrioSys

/-- Slot `i` is locked by the call. -/
def Locked (s : PrioSys) (i : Slot) : Prop :=
  s.pc = .locked i

/-- The read of `p->pid` in the loop. -/
def read (s : PrioSys) (i : ℕ) : PrioSys :=
  if h : i < NPROC then
    if (s.sys.proc ⟨i, h⟩).pid = s.pid then { s with pc := .matched ⟨i, h⟩ }
    else { s with pc := .scan (i + 1) }
  else { s with pc := .ret (-1) }

/-- `change_priority` up to `release(&prc->lock)`. -/
def changePriority (s : PrioSys) (i : Slot) : PrioSys :=
  { s with
    sys := { s.sys with proc := update s.sys.proc i ((s.sys.proc i).changePriority s.new) }
    pc := .released (s.sys.proc i).stPriority }

/-- The end of `change_priority`, with the `yield` of a process that is preferred now. -/
def finish (s : PrioSys) (op : Int32) : PrioSys :=
  if s.new < op then
    { s with
      sys := { s.sys with proc := update s.sys.proc s.me (s.sys.proc s.me).yield }
      pc := .ret op }
  else { s with pc := .ret op }

/-- One step. The caller moves only while it is RUNNING; besides its call it can do
nothing but be preempted. -/
inductive Step (s : PrioSys) : PrioEvent → PrioSys → Prop
  | call (me : Slot) (pid new : Int32) (hpc : s.pc = .idle)
      (hme : (s.sys.proc me).state = .running) :
    Step s (.call me pid new)
      { s with
        me := me, pid := pid, new := new
        pc := if checkValidNewp new ∨ checkValidPid pid then .ret (-1) else .scan 0 }
  | read (i : ℕ) (hpc : s.pc = .scan i) (hme : (s.sys.proc s.me).state = .running) :
    Step s .read (s.read i)
  | acquire (i : Slot) (hpc : s.pc = .matched i) (hme : (s.sys.proc s.me).state = .running) :
    Step s .acquire { s with pc := .locked i }
  | write (i : Slot) (hpc : s.pc = .locked i) : Step s .write (s.changePriority i)
  | finish (op : Int32) (hpc : s.pc = .released op)
      (hme : (s.sys.proc s.me).state = .running) : Step s .finish (s.finish op)
  | ret (r : Int32) (hpc : s.pc = .ret r) (hme : (s.sys.proc s.me).state = .running) :
    Step s .ret { s with pc := .idle }
  | sect (q i : Slot) (c : Section) (t : ProcSys) (hc : c.run s.sys q i = some t)
      (hme : q = s.me → s.pc = .idle ∨ (c = .yield ∧ ∀ j, ¬s.Locked j))
      (hl : c.locks → ¬s.Locked i) :
    Step s (.sect q i c) { s with sys := t }
  | dispatch (i : Slot) (t : ProcSys) (hd : s.sys.dispatch i = some t) (hl : ¬s.Locked i) :
    Step s (.dispatch i) { s with sys := t }

/-- After boot, with no call. -/
def Boot (s : PrioSys) : Prop :=
  s.sys.Boot ∧ s.pc = .idle

/-- The section does not give slot `i` to another process : it does not free it, and no
process is made in it. -/
def KeepsOwner : Section → Prop
  | .free | .alloc (.ok _ _) true => False
  | _ => True

/-- A step in which the slot the call matched, and has not locked yet, keeps its owner. -/
def NoReuse (s : PrioSys) : PrioEvent → Prop
  | .sect _ i c => s.pc = .matched i → KeepsOwner c
  | _ => True

/-! ## The slot that is written to -/

/-- UNUSED slots have pid 0. -/
def UnusedZero (s : ProcSys) : Prop :=
  ∀ i, (s.proc i).state = .unused → (s.proc i).pid = 0

/-- A slot that a section leaves UNUSED was UNUSED with the same pid, or has pid 0. -/
theorem slot_unused {s : ProcSys} {q i : Slot} {c : Section} {p : Proc}
    (hc : c.slot s q i = some p) (hq : (s.proc q).state = .running) (hp : p.state = .unused) :
    p.pid = 0 ∨ ((s.proc i).state = .unused ∧ p.pid = (s.proc i).pid) := by
  cases c <;> simp only [Section.slot, Option.ite_none_right_eq_some,
    Option.ite_none_left_eq_some, Option.some.injEq, Option.map_eq_some_iff, Prod.exists] at hc
  case alloc o uvmcopy =>
    obtain ⟨-, pid, _, -, rfl⟩ := hc
    rcases o with _ | _ | ⟨tf, pt⟩
    · exact .inl rfl
    · exact .inl rfl
    · cases uvmcopy
      · exact .inl rfl
      · simp [Section.allocSlot, Proc.fresh, Proc.found] at hp
  case free =>
    obtain ⟨-, rfl⟩ := hc
    exact .inl rfl
  case exit | sleep | yield | wake =>
    obtain ⟨h, rfl⟩ := hc
    simp_all [Proc.exit, Proc.sleep, Proc.yield]
  case adopt | publish | reparent =>
    obtain ⟨h, rfl⟩ := hc
    exact .inr ⟨by simp_all, rfl⟩
  case wakeup chan =>
    obtain ⟨-, rfl⟩ := hc
    refine .inr ⟨?_, Proc.wakeup_pid _ _⟩
    unfold Proc.wakeup at hp
    split_ifs at hp
    exact hp
  case kill =>
    subst hc
    refine .inr ⟨?_, rfl⟩
    simp only [Proc.kill] at hp
    split_ifs at hp
    exact hp
  case changePriority =>
    subst hc
    exact .inr ⟨hp, rfl⟩

/-- Unless it gives the slot to another process, a section keeps its pid. -/
theorem slot_pid {s : ProcSys} {q i : Slot} {c : Section} {p : Proc}
    (hc : c.slot s q i = some p) (hu : UnusedZero s) (hk : KeepsOwner c) :
    p.pid = (s.proc i).pid := by
  cases c <;> simp only [Section.slot, Option.ite_none_right_eq_some,
    Option.ite_none_left_eq_some, Option.some.injEq, Option.map_eq_some_iff, Prod.exists] at hc
  case alloc o uvmcopy =>
    obtain ⟨hi, pid, _, -, rfl⟩ := hc
    rw [hu i hi]
    rcases o with _ | _ | ⟨tf, pt⟩
    · rfl
    · rfl
    · cases uvmcopy
      · rfl
      · exact hk.elim
  case free => exact hk.elim
  case wakeup chan =>
    obtain ⟨-, rfl⟩ := hc
    exact Proc.wakeup_pid _ _
  case kill | changePriority =>
    subst hc
    rfl
  all_goals
    obtain ⟨-, rfl⟩ := hc
    rfl

/-- The call has matched, or locked, a slot with its pid, and UNUSED slots have pid 0. -/
structure Inv (s : PrioSys) : Prop where
  unused : UnusedZero s.sys
  owner : ∀ i, s.pc = .matched i ∨ s.pc = .locked i → (s.sys.proc i).pid = s.pid

theorem Inv.boot {s : PrioSys} (h : s.Boot) : Inv s := by
  refine ⟨(PidInv.boot h.1).unused, fun i hi => ?_⟩
  rw [h.2] at hi
  rcases hi with hi | hi <;> cases hi

/-- Rewriting one slot keeps the pids of the UNUSED slots. -/
theorem UnusedZero.update {s : ProcSys} (h : UnusedZero s) (i : Slot) (p : Proc) (n : Int32)
    (hp : p.state = .unused → p.pid = 0) :
    UnusedZero { s with proc := update s.proc i p, nextpid := n } := by
  intro j hj
  by_cases hji : j = i
  · subst hji
    simp only [update_self] at hj ⊢
    exact hp hj
  · simp only [update_of_ne hji] at hj ⊢
    exact h j hj

/-- A step that rewrites a slot without changing its pid, and leaves the call alone. -/
theorem Inv.update {s : PrioSys} (h : Inv s) (i : Slot) (p : Proc) (n : Int32)
    (hp : p.state = .unused → p.pid = 0)
    (hpid : s.pc = .matched i ∨ s.pc = .locked i → p.pid = (s.sys.proc i).pid) :
    Inv { s with sys := { s.sys with proc := update s.sys.proc i p, nextpid := n } } := by
  refine ⟨h.unused.update i p n hp, fun j hj => ?_⟩
  have := h.owner j hj
  by_cases hji : j = i
  · subst hji
    simp only [update_self]
    rw [hpid hj, this]
  · simpa only [update_of_ne hji] using this

/-- The call goes on without touching the table. -/
theorem Inv.goto {s : PrioSys} (h : Inv s) (pc : PrioPc)
    (hpc : ∀ i, pc = .matched i ∨ pc = .locked i → (s.sys.proc i).pid = s.pid) :
    Inv { s with pc := pc } :=
  ⟨h.unused, hpc⟩

theorem Inv.step {s t : PrioSys} {e : PrioEvent} (h : Inv s) (hs : s.Step e t)
    (hg : s.NoReuse e) : Inv t := by
  cases hs with
  | call me pid new hpc hme =>
    refine ⟨h.unused, fun i hi => ?_⟩
    split_ifs at hi <;> rcases hi with hi | hi <;> cases hi
  | read i hpc hme =>
    unfold read
    split_ifs with hi hm
    · refine h.goto _ fun j hj => ?_
      rcases hj with hj | hj <;> cases hj
      exact hm
    · exact h.goto _ fun j hj => by rcases hj with hj | hj <;> cases hj
    · exact h.goto _ fun j hj => by rcases hj with hj | hj <;> cases hj
  | acquire i hpc hme =>
    refine h.goto _ fun j hj => ?_
    rcases hj with hj | hj <;> cases hj
    exact h.owner i (.inl hpc)
  | write i hpc =>
    exact (h.update i ((s.sys.proc i).changePriority s.new) s.sys.nextpid (h.unused i)
      fun _ => rfl).goto _ fun j hj => by rcases hj with hj | hj <;> cases hj
  | finish op hpc hme =>
    unfold finish
    split_ifs
    · exact (h.update s.me (s.sys.proc s.me).yield s.sys.nextpid (by simp [Proc.yield])
        fun _ => rfl).goto _ fun j hj => by rcases hj with hj | hj <;> cases hj
    · exact h.goto _ fun j hj => by rcases hj with hj | hj <;> cases hj
  | ret r hpc hme => exact h.goto _ fun j hj => by rcases hj with hj | hj <;> cases hj
  | sect q i c t hc hme hl =>
    obtain ⟨hq, p, hp, rfl⟩ := Section.run_eq_some hc
    refine h.update i p _ (fun hu => ?_) fun hpc => ?_
    · rcases slot_unused hp hq hu with h0 | ⟨hi, h0⟩
      · exact h0
      · rw [h0, h.unused i hi]
    · rcases hpc with hpc | hpc
      · exact slot_pid hp h.unused (hg hpc)
      · -- the sections under `wait_lock` alone only move `parent`
        refine slot_pid hp h.unused ?_
        cases c <;> first | exact trivial | exact absurd hpc (hl rfl)
  | dispatch i t hd hl =>
    obtain ⟨hi, rfl⟩ := ProcSys.dispatch_eq_some hd
    exact h.update i _ s.sys.nextpid (by simp [Proc.dispatch]) fun _ => rfl

/-- In a run where the slot that the call matched keeps its owner until the call has
locked it, `sys_setpriority` writes to the process with its pid. -/
theorem setpriority_hits_target {s t : PrioSys}
    (h : Reachable Boot (Guarded Step NoReuse) s) (hw : s.Step .write t) :
    ∃ i, (s.sys.proc i).pid = s.pid ∧
      t.sys.proc = update s.sys.proc i ((s.sys.proc i).changePriority s.new) := by
  have hI : Inv s := h.invariant (fun _ => Inv.boot) fun _ _ _ hI hs => hI.step hs.1 hs.2
  cases hw with
  | write i hpc => exact ⟨i, hI.owner i (.inr hpc), rfl⟩

/-- `init` changes its own priority, and nobody else runs. -/
theorem setpriority_hits_target_init : ∃ s t : PrioSys,
    Reachable Boot (Guarded Step NoReuse) s ∧ s.Step .write t ∧ s.pid = 1 ∧
    ∃ i, (s.sys.proc i).pid = s.pid ∧
      t.sys.proc = update s.sys.proc i ((s.sys.proc i).changePriority s.new) := by
  have h₀ : Boot ⟨.boot 0 8192 4096, 0, 0, 0, .idle⟩ := ⟨⟨_, _, _, rfl⟩, rfl⟩
  have h₁ : Reachable Boot (Guarded Step NoReuse) _ :=
    .step (.init h₀) ⟨.dispatch 0 _ rfl nofun, trivial⟩
  have h₂ := h₁.step ⟨.call 0 1 60 rfl rfl, trivial⟩
  have h₃ := h₂.step ⟨.read 0 rfl rfl, trivial⟩
  have h₄ := h₃.step ⟨.acquire 0 rfl rfl, trivial⟩
  exact ⟨_, _, h₄, .write 0 rfl, rfl, setpriority_hits_target h₄ (.write 0 rfl)⟩

/-- `init` calls `setpriority(3, 80)` and has found pid 3 in slot 2, when that process
exits, its parent in slot 1 reaps it and forks again : the new process in slot 2, with
pid 4, gets the priority. -/
theorem setpriority_hits_other : ∃ s t : PrioSys,
    Reachable Boot Step s ∧ s.Step .write t ∧ s.pid = 3 ∧ s.pc = .locked 2 ∧
    (s.sys.proc 2).pid = 4 ∧ (s.sys.proc 2).stPriority = 50 ∧ (t.sys.proc 2).stPriority = 80 ∧
    ¬∃ i, (s.sys.proc i).pid = s.pid ∧
      t.sys.proc = update s.sys.proc i ((s.sys.proc i).changePriority s.new) := by
  have h₀ : Boot ⟨.boot 0 8192 4096, 0, 0, 0, .idle⟩ := ⟨⟨_, _, _, rfl⟩, rfl⟩
  have d : Reachable Boot Step _ := .step (.init h₀) (.dispatch 0 _ rfl nofun)
  -- `init` forks the process of slot 1, which forks the process of slot 2
  have d := d.step (.sect 0 1 (.alloc (.ok 8192 4096) true) _ rfl (fun _ => .inl rfl) nofun)
  have d := d.step (.sect 0 1 .adopt _ rfl (fun _ => .inl rfl) nofun)
  have d := d.step (.sect 0 1 .publish _ rfl (fun _ => .inl rfl) nofun)
  have d := d.step (.dispatch 1 _ rfl nofun)
  have d := d.step (.sect 1 2 (.alloc (.ok 8192 4096) true) _ rfl (fun _ => .inl rfl) nofun)
  have d := d.step (.sect 1 2 .adopt _ rfl (fun _ => .inl rfl) nofun)
  have d := d.step (.sect 1 2 .publish _ rfl (fun _ => .inl rfl) nofun)
  have d := d.step (.dispatch 2 _ rfl nofun)
  have d := d.step (.call 0 3 80 rfl rfl)
  have d := d.step (.read 0 rfl rfl)
  have d := d.step (.read 1 rfl rfl)
  have d := d.step (.read 2 rfl rfl)
  have d := d.step (.sect 2 2 (.exit 0) _ rfl nofun nofun)
  have d := d.step (.sect 1 2 .free _ rfl nofun nofun)
  have d := d.step (.sect 1 2 (.alloc (.ok 8192 4096) true) _ rfl nofun nofun)
  have d := d.step (.acquire 2 rfl rfl)
  refine ⟨_, _, d, .write 2 rfl, rfl, rfl, rfl, rfl, rfl, ?_⟩
  rintro ⟨i, hi, -⟩
  revert i
  decide +kernel

end PrioSys

end CowPbs
