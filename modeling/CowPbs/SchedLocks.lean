import Mathlib
import CowPbs.Lib.Locks
import CowPbs.Pbs
import CowPbs.Section

/-!
# Schedulers on several CPUs

Any number of CPUs run the PBS loop of `scheduler` and the processes they dispatch, one
`acquire` or `release` of a `p->lock` at a time. The scan keeps the lock of its candidate
while it acquires the next one, and a new candidate takes over with both locks held. The
processes take one `p->lock` at a time, for a section of proc.c (`yield`, `sleep`, `exit`,
a turn of `wakeup` or of `kill`, and so on), and so do the interrupt handlers, also those
that interrupt a scheduler that holds no lock.

The code of a CPU determines its locks (`CpuPc.held`). A candidate stays RUNNABLE while
its lock is held, so a process is dispatched by one CPU only, and since a scan takes its
locks in increasing order, the CPU with the greatest lock is never waiting
(`schedulers_safe`).
-/

set_option linter.unusedSectionVars false

open Function Transition Locks

namespace CowPbs

/-! ## The code of a CPU -/

/-- Work on one slot under its `p->lock` : a section of a process, or a turn of `wakeup`
or `update_time` in an interrupt handler. -/
inductive Work
  | sect (a : Section)
  | wakeup (chan : Option Chan)
  | updateTime

/-- The work on slot `i`, with `me` as `myproc()`; nothing if the code finds nothing to do
there. -/
def Work.run (s : ProcSys) (me : Option Slot) (i : Slot) : Work → Option ProcSys
  | sect a => me.bind fun q => a.run s q i
  | wakeup chan =>
    if me = some i then none
    else some { s with proc := update s.proc i ((s.proc i).wakeup chan) }
  | updateTime => some { s with proc := update s.proc i (s.proc i).updateTime }

/-- The work ends in `sched`. -/
def Work.leaves : Work → Bool
  | sect a => a.leaves
  | _ => false

/-- Code that takes a `p->lock` : of a process, or of an interrupt handler in a scan that
has come to slot `k` and holds no lock. -/
inductive Base
  | proc (q : Slot)
  | sched (k : ℕ)

/-- Where a CPU is. -/
inductive CpuPc
  /-- In the scan, before `acquire(&p->lock)` of slot `k`, or at its end. -/
  | scan (k : ℕ) (priPro : Option Slot)
  /-- Slot `k` is locked, before the comparison. -/
  | compare (k : Slot) (priPro : Option Slot)
  /-- Before `release(&p->lock)`. -/
  | drop (k : Slot) (priPro : Option Slot)
  /-- Slot `k` is better, before `release(&pri_pro->lock)`. -/
  | swap (k : Slot) (priPro : Slot)
  /-- In process `q`, back from `swtch`, before `release(&p->lock)`. -/
  | resume (q : Slot)
  /-- In process `q`, without a `p->lock`. -/
  | run (q : Slot)
  /-- Before `acquire(&p->lock)` of slot `i`. -/
  | want (b : Base) (i : Slot) (w : Work)
  /-- Slot `i` is locked. -/
  | work (b : Base) (i : Slot) (w : Work)
  /-- Before `release(&p->lock)` of slot `i`. -/
  | done (b : Base) (i : Slot)
  /-- In `sched`, before `swtch`. -/
  | sched (q : Slot)
  /-- In `scheduler`, back from `swtch`. -/
  | back (q : Slot)

def Base.pc : Base → CpuPc
  | proc q => .run q
  | sched k => .scan k none

/-- `myproc()`. -/
def Base.me : Base → Option Slot
  | proc q => some q
  | sched _ => none

namespace CpuPc

/-- The `p->lock`s a CPU holds. -/
def held : CpuPc → Set Slot
  | scan _ priPro => {i | priPro = some i}
  | compare k priPro | drop k priPro => insert k {i | priPro = some i}
  | swap k i => insert k {i}
  | resume q | sched q | back q => {q}
  | run _ | want _ _ _ => ∅
  | work _ i _ | done _ i => {i}

/-- The process of a CPU, from its `swtch` to the `swtch` back and `c->proc = 0`. -/
def proc : CpuPc → Option Slot
  | resume q | run q | sched q | back q => some q
  | want b _ _ | work b _ _ | done b _ => b.me
  | _ => none

/-- The process a CPU executes, up to the section that ends in `sched`. -/
def active : CpuPc → Option Slot
  | resume q | run q => some q
  | want b _ _ | work b _ _ | done b _ => b.me
  | _ => none

/-- The lock a CPU is about to acquire. -/
def wants : CpuPc → Option Slot
  | scan k _ => if h : k < NPROC then some ⟨k, h⟩ else none
  | want _ i _ => some i
  | _ => none

end CpuPc

/-! ## Steps -/

/-- The table, the holders of the `p->lock`s, and for each CPU its code and `c->proc`. -/
structure SmpSys (C : Type) where
  sys : ProcSys
  lock : Slot → Option C
  pc : C → CpuPc
  cpuProc : C → Option Slot
  /-- The process gave up its CPU in `sleep`. -/
  inSleep : Slot → Bool

namespace SmpSys

variable {C : Type} [DecidableEq C]

/-- CPU `c` goes to `pc`. -/
def goto (s : SmpSys C) (c : C) (pc : CpuPc) : SmpSys C :=
  { s with pc := update s.pc c pc }

def acquire (s : SmpSys C) (c : C) (i : Slot) : SmpSys C :=
  { s with lock := update s.lock i (some c) }

def release (s : SmpSys C) (i : Slot) : SmpSys C :=
  { s with lock := update s.lock i none }

/-- The comparison at slot `k`, with both locks held. -/
def compare (s : SmpSys C) (c : C) (k : Slot) (priPro : Option Slot) : SmpSys C :=
  let r := scanStep (priPro, s.sys.proc) k
  let s := { s with sys := { s.sys with proc := r.2 } }
  if r.1 = some k then
    match priPro with
    | none => s.goto c (.scan (k + 1) (some k))
    | some i => s.goto c (.swap k i)
  else s.goto c (.drop k priPro)

/-- What the scheduler stores in the slot it selected, up to `swtch`. -/
def dispatch (s : SmpSys C) (c : C) (i : Slot) : SmpSys C :=
  { s with
    sys := { s.sys with proc := update s.sys.proc i (s.sys.proc i).dispatch }
    cpuProc := update s.cpuProc c (some i)
    pc := update s.pc c (.resume i) }

/-- Back in `yield`, `sleep` or `forkret` : `sleep` clears `p->chan`. -/
def tidy (s : SmpSys C) (q : Slot) : SmpSys C :=
  if s.inSleep q then
    { s with
      sys := { s.sys with proc := update s.sys.proc q { s.sys.proc q with chan := none } }
      inSleep := update s.inSleep q false }
  else s

/-- The work under the lock. -/
def work (s : SmpSys C) (c : C) (b : Base) (i : Slot) (w : Work) : SmpSys C :=
  match w.run s.sys b.me i with
  | none => s.goto c (.done b i)
  | some t =>
    let s := { s with sys := t }
    if w.leaves then
      match w with
      | .sect (.sleep _) => { s with inSleep := update s.inSleep i true }.goto c (.sched i)
      | _ => s.goto c (.sched i)
    else s.goto c (.done b i)

/-- One step of a CPU. -/
inductive Step (s : SmpSys C) : C → SmpSys C → Prop
  | acquireScan (c : C) (k : Slot) (priPro : Option Slot) (hc : s.pc c = .scan k priPro)
      (hl : s.lock k = none) : Step s c ((s.acquire c k).goto c (.compare k priPro))
  | compare (c : C) (k : Slot) (priPro : Option Slot) (hc : s.pc c = .compare k priPro) :
    Step s c (s.compare c k priPro)
  | drop (c : C) (k : Slot) (priPro : Option Slot) (hc : s.pc c = .drop k priPro) :
    Step s c ((s.release k).goto c (.scan (k + 1) priPro))
  | swap (c : C) (k i : Slot) (hc : s.pc c = .swap k i) :
    Step s c ((s.release i).goto c (.scan (k + 1) (some k)))
  | rescan (c : C) (hc : s.pc c = .scan NPROC none) : Step s c (s.goto c (.scan 0 none))
  | dispatch (c : C) (i : Slot) (hc : s.pc c = .scan NPROC (some i)) :
    Step s c (s.dispatch c i)
  | resume (c : C) (q : Slot) (hc : s.pc c = .resume q) :
    Step s c (((s.tidy q).release q).goto c (.run q))
  | call (c : C) (b : Base) (i : Slot) (w : Work) (hc : s.pc c = b.pc)
      (hw : ∀ a, w = .sect a → a.locks) : Step s c (s.goto c (.want b i w))
  | parent (c : C) (q i : Slot) (a : Section) (t : ProcSys) (hc : s.pc c = .run q)
      (ha : a.locks = false) (ht : a.run s.sys q i = some t) : Step s c { s with sys := t }
  | acquire (c : C) (b : Base) (i : Slot) (w : Work) (hc : s.pc c = .want b i w)
      (hl : s.lock i = none) : Step s c ((s.acquire c i).goto c (.work b i w))
  | work (c : C) (b : Base) (i : Slot) (w : Work) (hc : s.pc c = .work b i w) :
    Step s c (s.work c b i w)
  | release (c : C) (b : Base) (i : Slot) (hc : s.pc c = .done b i) :
    Step s c ((s.release i).goto c b.pc)
  | swtch (c : C) (q : Slot) (hc : s.pc c = .sched q) : Step s c (s.goto c (.back q))
  | back (c : C) (q : Slot) (hc : s.pc c = .back q) :
    Step s c (({ s with cpuProc := update s.cpuProc c none }.release q).goto c (.scan 0 none))

/-- After boot : every CPU enters `scheduler`, and no `p->lock` is held. -/
def Boot (s : SmpSys C) : Prop :=
  s.sys.Boot ∧ (∀ i, s.lock i = none) ∧ (∀ c, s.pc c = .scan 0 none) ∧
    (∀ c, s.cpuProc c = none) ∧ ∀ i, s.inSleep i = false

end SmpSys

/-! ## What a CPU relies on -/

/-- The candidate of a scan is an earlier slot and RUNNABLE. -/
def CpuPc.WF (T : Table) : CpuPc → Prop
  | scan k priPro => ∀ i, priPro = some i → i < k ∧ k ≤ NPROC ∧ (T i).state = .runnable
  | compare k priPro | drop k priPro =>
    ∀ i : Slot, priPro = some i → i.val < k.val ∧ (T i).state = .runnable
  | swap k i => i < k ∧ (T k).state = .runnable
  | _ => True

/-- It depends only on the slots whose locks are held. -/
theorem CpuPc.WF.congr {T T' : Table} {pc : CpuPc} (h : pc.WF T)
    (hT : ∀ i ∈ pc.held, (T' i).state = (T i).state) : pc.WF T' := by
  cases pc with
  | scan k priPro =>
    intro i hi
    rw [hT i hi]
    exact h i hi
  | compare k priPro | drop k priPro =>
    intro i hi
    rw [hT i (Set.mem_insert_of_mem _ hi)]
    exact h i hi
  | swap k i =>
    refine ⟨h.1, ?_⟩
    rw [hT k (Set.mem_insert _ _)]
    exact h.2
  | _ => trivial

/-- The comparison takes slot `k`, which is RUNNABLE then, or keeps the candidate. -/
theorem scanStep_fst (priPro : Option Slot) (T : Table) (k : Slot) :
    (scanStep (priPro, T) k).1 = priPro ∨
      (scanStep (priPro, T) k).1 = some k ∧ (T k).state = .runnable := by
  unfold scanStep
  split_ifs with hk
  · cases priPro with
    | none => exact .inr ⟨rfl, hk⟩
    | some q =>
      dsimp only
      split_ifs
      · exact .inr ⟨rfl, hk⟩
      · exact .inl rfl
  · exact .inl rfl

theorem scanStep_state (priPro : Option Slot) (T : Table) (k i : Slot) :
    ((scanStep (priPro, T) k).2 i).state = (T i).state := by
  obtain ⟨T', hT, e⟩ := scanStep_eq (Agree.refl T) priPro k
  rw [e]
  exact hT.state i

/-- A section that does not end in `sched` leaves a process RUNNING, and one that does is
about the process that runs it. -/
theorem Section.run_state {s t : ProcSys} {q i : Slot} {a : Section}
    (h : a.run s q i = some t) :
    (∀ j ≠ i, t.proc j = s.proc j) ∧
    (a.leaves = false → (s.proc i).state = .running → (t.proc i).state = .running) ∧
    (a.leaves = true → i = q) := by
  obtain ⟨hq, p, hp, rfl⟩ := run_eq_some h
  refine ⟨fun j hj => update_of_ne hj _ _, fun hl hi => ?_, fun hl => (slot_of_leaves hp hl).1⟩
  simpa using slot_running hp hl hi

theorem Work.run_state {s t : ProcSys} {me : Option Slot} {i : Slot} {w : Work}
    (h : w.run s me i = some t) :
    (∀ j ≠ i, t.proc j = s.proc j) ∧
    (w.leaves = false → (s.proc i).state = .running → (t.proc i).state = .running) ∧
    (w.leaves = true → me = some i) := by
  cases w with
  | sect a =>
    obtain ⟨q, rfl, ha⟩ := Option.bind_eq_some_iff.1 h
    obtain ⟨h₁, h₂, h₃⟩ := Section.run_state ha
    exact ⟨h₁, h₂, fun hl => by rw [h₃ hl]⟩
  | wakeup chan =>
    simp only [run, Option.ite_none_left_eq_some, Option.some.injEq] at h
    obtain ⟨-, rfl⟩ := h
    refine ⟨fun j hj => update_of_ne hj _ _, fun _ hi => ?_, by rintro ⟨⟩⟩
    simp [Proc.wakeup, hi]
  | updateTime =>
    simp only [run, Option.some.injEq] at h
    subst h
    exact ⟨fun j hj => update_of_ne hj _ _, fun _ hi => by simpa using hi, by rintro ⟨⟩⟩

namespace SmpSys

variable {C : Type} [DecidableEq C]

/-- The lock table is right, candidates are RUNNABLE, `c->proc` is the process of the CPU,
which is RUNNING until it gets to `sched`, and no two CPUs have the same process. -/
structure Inv (s : SmpSys C) : Prop where
  owns : Owns s.lock fun c => (s.pc c).held
  wf : ∀ c, (s.pc c).WF s.sys.proc
  cpuProc : ∀ c, s.cpuProc c = (s.pc c).proc
  running : ∀ c q, (s.pc c).active = some q → (s.sys.proc q).state = .running
  unique : ∀ c d q, (s.pc c).proc = some q → (s.pc d).proc = some q → c = d

namespace Inv

variable {s t : SmpSys C}

theorem boot (h : s.Boot) : Inv s := by
  obtain ⟨-, hl, hpc, hcpu, -⟩ := h
  refine ⟨fun i c => ?_, fun c => ?_, fun c => ?_, fun c q hq => ?_, fun c d q hq => ?_⟩
  · simp [hl, hpc, CpuPc.held]
  · rw [hpc]
    exact nofun
  · rw [hcpu, hpc]
    rfl
  · rw [hpc] at hq
    cases hq
  · rw [hpc] at hq
    cases hq

/-! ### The lock table -/

theorem owns_goto (h : Inv s) {c : C} {pc : CpuPc} (hc : pc.held = (s.pc c).held) :
    Owns s.lock fun d => (update s.pc c pc d).held := by
  refine h.owns.congr fun d => ?_
  by_cases hd : d = c
  · rw [hd, update_self, hc]
  · rw [update_of_ne hd]

theorem owns_acquire (h : Inv s) {c : C} {i : Slot} {pc : CpuPc} (hl : s.lock i = none)
    (hc : pc.held = insert i (s.pc c).held) :
    Owns (update s.lock i (some c)) fun d => (update s.pc c pc d).held :=
  h.owns.acquire hl (by rw [update_self, hc]) fun d hd => by rw [update_of_ne hd]

theorem owns_release (h : Inv s) {c : C} {i : Slot} {pc : CpuPc} (hi : i ∈ (s.pc c).held)
    (hc : pc.held = (s.pc c).held \ {i}) :
    Owns (update s.lock i none) fun d => (update s.pc c pc d).held :=
  h.owns.release hi (by rw [update_self, hc]) fun d hd => by rw [update_of_ne hd]

/-! ### Steps -/

/-- A step of CPU `c` : what it must leave alone for the others, and what it must give
itself. -/
theorem move (h : Inv s) (c : C) (pc : CpuPc) (hpc : t.pc = update s.pc c pc)
    (hown : Owns t.lock fun d => (update s.pc c pc d).held)
    (hcpu : t.cpuProc = update s.cpuProc c pc.proc)
    (hst : ∀ d ≠ c, ∀ i ∈ (s.pc d).held, (t.sys.proc i).state = (s.sys.proc i).state)
    (hrun : ∀ d ≠ c, ∀ q, (s.pc d).active = some q → (t.sys.proc q).state = .running)
    (hwf : pc.WF t.sys.proc)
    (hact : ∀ q, pc.active = some q → (t.sys.proc q).state = .running)
    (huniq : ∀ q, pc.proc = some q → ∀ d ≠ c, (s.pc d).proc ≠ some q) : Inv t := by
  refine ⟨?_, fun d => ?_, fun d => ?_, fun d q => ?_, fun d e q => ?_⟩
  · rw [hpc]
    exact hown
  · rw [hpc]
    by_cases hd : d = c
    · rwa [hd, update_self]
    · rw [update_of_ne hd]
      exact (h.wf d).congr (hst d hd)
  · rw [hpc, hcpu]
    by_cases hd : d = c
    · rw [hd, update_self, update_self]
    · rw [update_of_ne hd, update_of_ne hd, h.cpuProc]
  · rw [hpc]
    by_cases hd : d = c
    · rw [hd, update_self]
      exact hact q
    · rw [update_of_ne hd]
      exact hrun d hd q
  · rw [hpc]
    by_cases hd : d = c <;> by_cases he : e = c
    · rw [hd, he]
      exact fun _ _ => rfl
    · rw [hd, update_self, update_of_ne he]
      exact fun hq he' => (huniq q hq e he he').elim
    · rw [he, update_self, update_of_ne hd]
      exact fun hd' hq => (huniq q hq d hd hd').elim
    · rw [update_of_ne hd, update_of_ne he]
      exact h.unique d e q

/-- A step that changes no state of a process, and after which the CPU still has its
process. -/
theorem stay (h : Inv s) (c : C) (pc : CpuPc) (hpc : t.pc = update s.pc c pc)
    (hown : Owns t.lock fun d => (update s.pc c pc d).held) (hcpu : t.cpuProc = s.cpuProc)
    (hst : ∀ i, (t.sys.proc i).state = (s.sys.proc i).state)
    (hproc : pc.proc = (s.pc c).proc)
    (hact : ∀ q, pc.active = some q → (s.pc c).active = some q) (hwf : pc.WF s.sys.proc) :
    Inv t := by
  refine h.move c pc hpc hown ?_ (fun _ _ i _ => hst i) (fun d _ q hq => ?_)
    (hwf.congr fun i _ => hst i) (fun q hq => ?_) fun q hq d hd hdq => ?_
  · rw [hcpu, hproc, ← h.cpuProc, update_eq_self]
  · rw [hst]
    exact h.running d q hq
  · rw [hst]
    exact h.running c q (hact q hq)
  · exact hd (h.unique d c q hdq (by rw [← hproc, hq]))

theorem compare (h : Inv s) {c : C} {k : Slot} {priPro : Option Slot}
    (hc : s.pc c = .compare k priPro) : Inv (s.compare c k priPro) := by
  have hwf := h.wf c
  rw [hc] at hwf
  have hst := scanStep_state priPro s.sys.proc k
  unfold SmpSys.compare
  dsimp only
  split_ifs with hr
  · have hk : (s.sys.proc k).state = .runnable := by
      rcases scanStep_fst priPro s.sys.proc k with hp | ⟨-, hk⟩
      · rw [hr] at hp
        exact absurd (hwf k hp.symm).1 (lt_irrefl _)
      · exact hk
    cases priPro with
    | none =>
      refine h.stay c (.scan (k + 1) (some k)) rfl (h.owns_goto ?_) rfl hst ?_ ?_ ?_
      · rw [hc]
        ext i
        simp [CpuPc.held, eq_comm]
      · rw [hc]
        rfl
      · exact nofun
      · rintro i ⟨⟩
        exact ⟨Nat.lt_succ_self _, k.isLt, hk⟩
    | some i =>
      refine h.stay c (.swap k i) rfl (h.owns_goto ?_) rfl hst ?_ ?_ ⟨(hwf i rfl).1, hk⟩
      · rw [hc]
        ext j
        simp [CpuPc.held, eq_comm]
      · rw [hc]
        rfl
      · exact nofun
  · refine h.stay c (.drop k priPro) rfl (h.owns_goto ?_) rfl hst ?_ ?_ hwf
    · rw [hc]
      rfl
    · rw [hc]
      rfl
    · exact nofun

/-- The scheduler dispatches its candidate : it has the lock, so no other CPU is about to
give the process up, and the process is RUNNABLE, so no other CPU executes it. -/
theorem dispatch (h : Inv s) {c : C} {k : ℕ} {i : Slot} (hc : s.pc c = .scan k (some i)) :
    Inv (s.dispatch c i) := by
  have hi : (s.sys.proc i).state = .runnable := by
    have hwf := h.wf c
    rw [hc] at hwf
    exact (hwf i rfl).2.2
  have hlock : i ∈ (s.pc c).held := by
    rw [hc]
    rfl
  have hother : ∀ d ≠ c, (s.pc d).proc ≠ some i := by
    intro d hd hdi
    have hact : (s.pc d).active ≠ some i := by
      intro ha
      rw [h.running d i ha] at hi
      cases hi
    have hheld : i ∉ (s.pc d).held := fun hh => hd (h.owns.unique hh hlock)
    cases hpc : s.pc d <;> rw [hpc] at hdi hact hheld <;>
      simp_all [CpuPc.proc, CpuPc.active, CpuPc.held]
  refine h.move c (.resume i) rfl (h.owns_goto ?_) rfl (fun d hd j hj => ?_)
    (fun d hd q hq => ?_) trivial ?_ ?_
  · rw [hc]
    ext j
    simp [CpuPc.held, eq_comm]
  · have hji : j ≠ i := fun hji => hd (h.owns.unique hj (hji ▸ hlock))
    simp [SmpSys.dispatch, hji]
  · have hrun := h.running d q hq
    have hqi : q ≠ i := by
      rintro rfl
      rw [hi] at hrun
      cases hrun
    simpa [SmpSys.dispatch, hqi] using hrun
  · rintro q ⟨⟩
    simp [SmpSys.dispatch, Proc.dispatch]
  · rintro q ⟨⟩
    exact hother

/-- Work on slot `i` of another CPU does not take the process of this one from it. -/
theorem running_of_work (h : Inv s) {c : C} {b : Base} {i : Slot} {w : Work} {u : ProcSys}
    (hc : s.pc c = .work b i w) (hw : w.run s.sys b.me i = some u) {d : C} (hd : d ≠ c) {q : Slot}
    (hq : (s.pc d).active = some q) : (u.proc q).state = .running := by
  obtain ⟨hother, hkeep, hself⟩ := Work.run_state hw
  have hrun := h.running d q hq
  by_cases hqi : q = i
  · subst hqi
    cases hl : w.leaves with
    | false => exact hkeep hl hrun
    | true =>
      -- a section that ends in `sched` is about the process of its own CPU
      have hdq : (s.pc d).proc = some q := by
        cases hpc : s.pc d <;> rw [hpc] at hq <;> simp_all [CpuPc.proc, CpuPc.active]
      have hcq : (s.pc c).proc = some q := by
        rw [hc]
        exact hself hl
      exact (hd (h.unique d c q hdq hcq)).elim
  · rw [hother q hqi]
    exact hrun

theorem work (h : Inv s) {c : C} {b : Base} {i : Slot} {w : Work} (hc : s.pc c = .work b i w) :
    Inv (s.work c b i w) := by
  have hlock : i ∈ (s.pc c).held := by
    rw [hc]
    rfl
  unfold SmpSys.work
  cases hw : w.run s.sys b.me i with
  | none =>
    refine h.stay c (.done b i) rfl (h.owns_goto ?_) rfl (fun _ => rfl) ?_ ?_ trivial <;> rw [hc]
    · rfl
    · rfl
    · exact fun _ => id
  | some u =>
    obtain ⟨hother, hkeep, hself⟩ := Work.run_state hw
    have hst : ∀ d ≠ c, ∀ j ∈ (s.pc d).held, (u.proc j).state = (s.sys.proc j).state := by
      intro d hd j hj
      have hji : j ≠ i := fun hji => hd (h.owns.unique hj (hji ▸ hlock))
      rw [hother j hji]
    have hrun := fun d (hd : d ≠ c) q hq => h.running_of_work hc hw (d := d) hd (q := q) hq
    have huniq : ∀ q, b.me = some q → ∀ d ≠ c, (s.pc d).proc ≠ some q := by
      intro q hq d hd hdq
      exact hd (h.unique d c q hdq (by rw [hc]; exact hq))
    have hcpu : s.cpuProc = update s.cpuProc c b.me := by
      rw [show b.me = s.cpuProc c by rw [h.cpuProc, hc]; rfl, update_eq_self]
    cases hl : w.leaves with
    | false =>
      refine h.move c (.done b i) rfl (h.owns_goto ?_) hcpu hst hrun trivial (fun q hq => ?_) huniq
      · rw [hc]
        rfl
      · have hq' := h.running c q (by rw [hc]; exact hq)
        by_cases hqi : q = i
        · subst hqi
          exact hkeep hl hq'
        · exact (congrArg Proc.state (hother q hqi)).trans hq'
    | true =>
      have hme := hself hl
      have key : ∀ z, Inv ({ s with sys := u, inSleep := z }.goto c (.sched i)) := by
        intro z
        refine h.move c (.sched i) rfl (h.owns_goto ?_) ?_ hst hrun trivial nofun fun q hq => ?_
        · rw [hc]
          rfl
        · exact hcpu.trans (by rw [hme]; rfl)
        · exact huniq q (hme.trans hq)
      dsimp only
      rw [if_pos rfl]
      split
      · exact key _
      · exact key _

theorem tidy_state (s : SmpSys C) (q i : Slot) :
    ((s.tidy q).sys.proc i).state = (s.sys.proc i).state := by
  unfold tidy
  split_ifs
  · by_cases hi : i = q
    · subst hi
      simp
    · simp [hi]
  · rfl

theorem resume (h : Inv s) {c : C} {q : Slot} (hc : s.pc c = .resume q) :
    Inv (((s.tidy q).release q).goto c (.run q)) := by
  have hown : Owns (update s.lock q none) fun d => (update s.pc c (.run q) d).held := by
    refine h.owns_release ?_ ?_ <;> rw [hc]
    · rfl
    · simp [CpuPc.held]
  have hpc : (s.tidy q).pc = s.pc ∧ (s.tidy q).lock = s.lock ∧ (s.tidy q).cpuProc = s.cpuProc := by
    unfold tidy
    split_ifs <;> exact ⟨rfl, rfl, rfl⟩
  refine h.stay c (.run q) ?_ ?_ hpc.2.2 (fun i => tidy_state s q i) ?_ ?_ trivial
  · rw [← hpc.1]
    rfl
  · rw [← hpc.2.1] at hown
    exact hown
  · rw [hc]
    rfl
  · rw [hc]
    exact fun _ => id

/-- `adopt` and `reparent` run without a `p->lock`, and write only `parent`. -/
theorem parent (h : Inv s) {c : C} {q i : Slot} {a : Section} {u : ProcSys}
    (hc : s.pc c = .run q) (ha : a.locks = false) (hu : a.run s.sys q i = some u) :
    Inv { s with sys := u } := by
  refine h.stay c (.run q) ?_ ?_ rfl (fun j => ?_) ?_ ?_ trivial
  · rw [← hc, update_eq_self]
  · rw [← hc, update_eq_self]
    exact h.owns
  · obtain ⟨-, p, hp, rfl⟩ := Section.run_eq_some hu
    by_cases hj : j = i
    · subst hj
      cases a <;> simp only [Section.locks, Bool.true_eq_false] at ha <;>
        simp only [Section.slot, Option.ite_none_right_eq_some, Option.some.injEq] at hp <;>
        obtain ⟨-, rfl⟩ := hp <;> simp
    · simp [hj]
  · rw [hc]
  · rw [hc]
    exact fun _ => id

theorem step {c : C} (h : Inv s) (hs : s.Step c t) : Inv t := by
  have hwf := h.wf c
  cases hs with
  | acquireScan k priPro hc hl =>
    rw [hc] at hwf
    refine h.stay c (.compare k priPro) rfl (h.owns_acquire hl ?_) rfl (fun _ => rfl) ?_ ?_
      (fun i hi => ⟨(hwf i hi).1, (hwf i hi).2.2⟩) <;> rw [hc]
    · rfl
    · rfl
    · exact fun _ => id
  | compare k priPro hc => exact h.compare hc
  | drop k priPro hc =>
    rw [hc] at hwf
    refine h.stay c (.scan (k + 1) priPro) rfl (h.owns_release ?_ ?_) rfl (fun _ => rfl) ?_ ?_
      fun i hi => ⟨(hwf i hi).1.trans (Nat.lt_succ_self _), k.isLt, (hwf i hi).2⟩
    · rw [hc]
      exact Set.mem_insert _ _
    · rw [hc]
      have hk : k ∉ {i | priPro = some i} := fun hk => lt_irrefl _ (hwf k hk).1
      exact (Set.insert_sdiff_self_of_notMem hk).symm
    · rw [hc]
      rfl
    · exact nofun
  | swap k i hc =>
    rw [hc] at hwf
    refine h.stay c (.scan (k + 1) (some k)) rfl (h.owns_release ?_ ?_) rfl (fun _ => rfl) ?_ ?_ ?_
    · rw [hc]
      exact Set.mem_insert_of_mem _ rfl
    · rw [hc]
      ext j
      have := hwf.1.ne
      simp only [CpuPc.held, Set.mem_ofPred_eq, Option.some.injEq, Set.mem_sdiff,
        Set.mem_insert_iff, Set.mem_singleton_iff]
      grind
    · rw [hc]
      rfl
    · exact nofun
    · rintro j ⟨⟩
      exact ⟨Nat.lt_succ_self _, k.isLt, hwf.2⟩
  | rescan hc =>
    refine h.stay c (.scan 0 none) rfl (h.owns_goto ?_) rfl (fun _ => rfl) ?_ ?_ nofun
    · rw [hc]
      rfl
    · rw [hc]
      rfl
    · exact nofun
  | dispatch i hc => exact h.dispatch hc
  | resume q hc => exact h.resume hc
  | call b i w hc hw =>
    refine h.stay c (.want b i w) rfl (h.owns_goto ?_) rfl (fun _ => rfl) ?_ ?_ trivial <;>
      rw [hc] <;> cases b
    · rfl
    · simp [CpuPc.held, Base.pc]
    · rfl
    · rfl
    · exact fun _ => id
    · exact fun _ => id
  | parent q i a u hc ha hu => exact h.parent hc ha hu
  | acquire b i w hc hl =>
    refine h.stay c (.work b i w) rfl (h.owns_acquire hl ?_) rfl (fun _ => rfl) ?_ ?_ trivial <;>
      rw [hc]
    · simp [CpuPc.held]
    · rfl
    · exact fun _ => id
  | work b i w hc => exact h.work hc
  | release b i hc =>
    refine h.stay c b.pc rfl (h.owns_release ?_ ?_) rfl (fun _ => rfl) ?_ ?_ ?_
    · rw [hc]
      rfl
    · rw [hc]
      cases b <;> simp [CpuPc.held, Base.pc]
    · rw [hc]
      cases b <;> rfl
    · rw [hc]
      cases b <;> exact fun _ => id
    · cases b
      · trivial
      · exact nofun
  | swtch q hc =>
    refine h.stay c (.back q) rfl (h.owns_goto ?_) rfl (fun _ => rfl) ?_ ?_ trivial
    · rw [hc]
      rfl
    · rw [hc]
      rfl
    · exact nofun
  | back q hc =>
    refine h.move c (.scan 0 none) rfl (h.owns_release ?_ ?_) rfl (fun _ _ _ _ => rfl)
      (fun d _ => h.running d) nofun nofun nofun
    · rw [hc]
      rfl
    · rw [hc]
      simp [CpuPc.held]

theorem reachable (h : Reachable Boot Step s) : Inv s :=
  h.invariant (fun _ => boot) fun _ _ _ hI hs => hI.step hs

/-! ### Progress -/

/-- A CPU that holds a lock can take a step, unless it waits for a greater lock. -/
theorem step_or_waits (h : Inv s) {c : C} {i : Slot} (hi : s.lock i = some c) :
    (∃ t, s.Step c t) ∨ ∃ k, i < k ∧ (s.lock k).isSome := by
  have hheld : i ∈ (s.pc c).held := (h.owns i c).1 hi
  have hwf := h.wf c
  cases hc : s.pc c with
  | scan k priPro =>
    rw [hc] at hheld hwf
    obtain rfl : priPro = some i := hheld
    by_cases hk : k < NPROC
    · cases hl : s.lock ⟨k, hk⟩ with
      | none => exact .inl ⟨_, .acquireScan c ⟨k, hk⟩ _ hc hl⟩
      | some d => exact .inr ⟨⟨k, hk⟩, (hwf i rfl).1, by rw [hl]; rfl⟩
    · obtain rfl : k = NPROC := le_antisymm (hwf i rfl).2.1 (not_lt.1 hk)
      exact .inl ⟨_, .dispatch c i hc⟩
  | compare k priPro => exact .inl ⟨_, .compare c k priPro hc⟩
  | drop k priPro => exact .inl ⟨_, .drop c k priPro hc⟩
  | swap k j => exact .inl ⟨_, .swap c k j hc⟩
  | resume q => exact .inl ⟨_, .resume c q hc⟩
  | run q =>
    rw [hc] at hheld
    exact hheld.elim
  | want b j w =>
    rw [hc] at hheld
    exact hheld.elim
  | work b j w => exact .inl ⟨_, .work c b j w hc⟩
  | done b j => exact .inl ⟨_, .release c b j hc⟩
  | sched q => exact .inl ⟨_, .swtch c q hc⟩
  | back q => exact .inl ⟨_, .back c q hc⟩

end Inv

/-- On any number of CPUs, in every reachable state : a CPU at the end of its scan holds
exactly the lock of the process it selected; no process is executed by, or recorded in
`c->proc` of, two CPUs; and if some CPU waits for a `p->lock`, some CPU that holds one can
take a step. -/
theorem schedulers_safe {s : SmpSys C} (h : Reachable Boot Step s) :
    (∀ c priPro, s.pc c = .scan NPROC priPro → ∀ i, s.lock i = some c ↔ priPro = some i) ∧
    (∀ c d q, s.cpuProc c = some q ∨ (s.pc c).active = some q →
      s.cpuProc d = some q ∨ (s.pc d).active = some q → c = d) ∧
    (∀ c i, (s.pc c).wants = some i → s.lock i ≠ none →
      ∃ d j t, s.lock j = some d ∧ s.Step d t) := by
  have hI := Inv.reachable h
  refine ⟨fun c priPro hc i => ?_, fun c d q hc hd => ?_, fun c i _ hl => ?_⟩
  · have hown : s.lock i = some c ↔ i ∈ (s.pc c).held := hI.owns i c
    rw [hown, hc]
    rfl
  · have hproc : ∀ c, s.cpuProc c = some q ∨ (s.pc c).active = some q → (s.pc c).proc = some q := by
      rintro c (hc | hc)
      · rw [← hI.cpuProc, hc]
      · cases hpc : s.pc c <;> rw [hpc] at hc <;> simp_all [CpuPc.proc, CpuPc.active]
    exact hI.unique c d q (hproc c hc) (hproc d hd)
  · obtain ⟨j, d, hj, hstep⟩ := exists_not_blocked (fun d => ¬∃ t, s.Step d t)
      (fun r d hr hd => (hI.step_or_waits hr).resolve_left hd) (Option.isSome_iff_ne_none.2 hl)
    obtain ⟨t, ht⟩ := not_not.1 hstep
    exact ⟨d, j, t, hj, ht⟩

/-- Two CPUs start to scan, and the first has locked slot 0 : the second waits for it. -/
theorem schedulers_safe_two : ∃ s : SmpSys (Fin 2), Reachable Boot Step s ∧
    (s.pc 1).wants = some 0 ∧ s.lock 0 = some 0 ∧ ∃ d j t, s.lock j = some d ∧ s.Step d t := by
  let s : SmpSys (Fin 2) :=
    ⟨.boot 0 8192 4096, fun _ => none, fun _ => .scan 0 none, fun _ => none, fun _ => false⟩
  have hb : Boot s :=
    ⟨⟨_, _, _, rfl⟩, fun _ => rfl, fun _ => rfl, fun _ => rfl, fun _ => rfl⟩
  have h : Reachable Boot Step ((s.acquire 0 0).goto 0 (.compare 0 none)) :=
    .step (.init hb) (.acquireScan 0 0 none rfl rfl)
  have hw : (((s.acquire 0 0).goto 0 (.compare 0 none)).pc 1).wants = some 0 := rfl
  exact ⟨_, h, hw, rfl, (schedulers_safe h).2.2 1 0 hw (by decide)⟩

end SmpSys

end CowPbs
