import Mathlib
import CowPbs.Pbs
import CowPbs.Ticks

/-!
# The kernel on one CPU

One CPU alternates between the PBS loop of `scheduler` and the process it dispatched.
What a clock interrupt does depends on where it is taken. In user mode, `usertrap` counts
the tick, lets a killed process exit and makes any other yield, all with interrupts off.
In the kernel with interrupts on, `kerneltrap` counts the tick and yields. In the
scheduler no process is RUNNING. So a RUNNING process with interrupts on has not been
charged since it was dispatched, and `running_time`, which `dispatch` resets, is 0 or 1
in every run (`runningTime_le_one`).

With `running_time` at most 1 and fewer than `2^25` ticks, the quotient of
`rbi_calculator` does not overflow and takes the four values of the README
(`rbi_values`).

A section of proc.c runs with interrupts off and is one step. A scan of the table is one
step per slot, since interrupts are on between two slots while no candidate is held.
-/

open Function Transition

namespace CowPbs

/-! ## Clock interrupts -/

/-- `clockintr`, with interrupts off, on the only CPU; `me` is `myproc()`. -/
def clockintr (s : ProcSys) (me : Option Slot) : ProcSys :=
  { s with
    ticks := s.ticks + 1
    proc := fun i =>
      if me = some i then (s.proc i).updateTime
      else (s.proc i).updateTime.wakeup (some ticksChan) }

/-- `wakeup(chan)` in a device interrupt; `me` is `myproc()`. -/
def wakeupIntr (s : ProcSys) (me : Option Slot) (chan : Option Chan) : ProcSys :=
  { s with proc := fun i => if me = some i then s.proc i else (s.proc i).wakeup chan }

/-- Where a process is. -/
inductive Ctx
  /-- In user mode. -/
  | user
  /-- In the kernel with interrupts on : a system call, or `forkret`. -/
  | kernel
  /-- In `usertrap` with interrupts off, before `if(killed(p))`. -/
  | trap
  /-- The same, and `which_dev` is 2. -/
  | timer
  /-- In `kerneltrap`, after the `clockintr` of a timer interrupt. -/
  | ktimer
  /-- In `exit(-1)`, called from `usertrap` with interrupts off. -/
  | dying
  /-- In `usertrapret`, with interrupts off. -/
  | ret
  deriving DecidableEq

/-- What the CPU does : a scan of the scheduler that has come to slot `k` with the
candidate `priPro`, or process `i`. -/
inductive Cpu
  | scan (k : ℕ) (priPro : Option Slot)
  | run (i : Slot) (c : Ctx)
  deriving DecidableEq

/-- The table, the CPU, and where each process goes on when it is scheduled again. -/
structure CpuSys where
  sys : ProcSys
  cpu : Cpu
  ctx : Slot → Ctx

inductive CpuEvent
  | scan
  | tick
  | devintr (chan : Option Chan)
  | syscall
  | fault (kills : Bool)
  | check
  | ret
  | sect (i : Slot) (a : Section)
  deriving DecidableEq

/-- The clock ticks of a trace. -/
def clockTicks (es : List CpuEvent) : ℕ :=
  es.count .tick

namespace CpuSys

/-- Process `i` leaves the CPU, to go on at `c`. -/
def leave (s : CpuSys) (i : Slot) (p : Proc) (c : Ctx) : CpuSys where
  sys := { s.sys with proc := update s.sys.proc i p }
  cpu := .scan 0 none
  ctx := update s.ctx i c

/-- The turn of the scan at slot `i`. -/
def scanAt (s : CpuSys) (i : Slot) (priPro : Option Slot) : CpuSys :=
  let r := scanStep (priPro, s.sys.proc) i
  { s with sys := { s.sys with proc := r.2 }, cpu := .scan (i + 1) r.1 }

/-- `usertrap` after a device has been served or an exception handled : a killed process
exits, a timer interrupt yields, and the others return. -/
def usertrapCheck (s : CpuSys) (i : Slot) (timer : Bool) : CpuSys :=
  if (s.sys.proc i).killed ≠ 0 then { s with cpu := .run i .dying }
  else if timer then s.leave i (s.sys.proc i).yield .ret
  else { s with cpu := .run i .ret }

/-- What `kerneltrap` does after a timer interrupt. -/
def kerneltrapYield (s : CpuSys) (i : Slot) : CpuSys :=
  if (s.sys.proc i).state = .running then s.leave i (s.sys.proc i).yield .kernel
  else { s with cpu := .run i .kernel }

/-- What a section leaves of the CPU : `exit`, `sleep` and `yield` end in the scheduler,
and a new process starts in `forkret`. -/
def afterSect (s : CpuSys) (i j : Slot) (c : Ctx) (a : Section) (t : ProcSys) : CpuSys where
  sys := t
  cpu := if a.leaves then .scan 0 none else .run i c
  ctx :=
    match a with
    | .alloc _ _ => update s.ctx j .kernel
    | _ => if a.leaves then update s.ctx i c else s.ctx

/-- One step. -/
inductive Step (s : CpuSys) : CpuEvent → CpuSys → Prop
  | scan (i : Slot) (priPro : Option Slot) (hc : s.cpu = .scan i priPro) :
    Step s .scan (s.scanAt i priPro)
  | rescan (hc : s.cpu = .scan NPROC none) : Step s .scan { s with cpu := .scan 0 none }
  | dispatch (i : Slot) (hc : s.cpu = .scan NPROC (some i)) :
    Step s .scan
      { s with
        sys := { s.sys with proc := update s.sys.proc i (s.sys.proc i).dispatch }
        cpu := .run i (s.ctx i) }
  | tickSched (k : ℕ) (hc : s.cpu = .scan k none) :
    Step s .tick { s with sys := clockintr s.sys none }
  | tickUser (i : Slot) (hc : s.cpu = .run i .user) :
    Step s .tick { s with sys := clockintr s.sys (some i), cpu := .run i .timer }
  | tickKernel (i : Slot) (hc : s.cpu = .run i .kernel) :
    Step s .tick { s with sys := clockintr s.sys (some i), cpu := .run i .ktimer }
  | devSched (k : ℕ) (chan : Option Chan) (hc : s.cpu = .scan k none) :
    Step s (.devintr chan)
      { s with sys := wakeupIntr s.sys none chan, cpu := .scan k none }
  | devUser (i : Slot) (chan : Option Chan) (hc : s.cpu = .run i .user) :
    Step s (.devintr chan)
      { s with sys := wakeupIntr s.sys (some i) chan, cpu := .run i .trap }
  | devKernel (i : Slot) (chan : Option Chan) (hc : s.cpu = .run i .kernel) :
    Step s (.devintr chan)
      { s with sys := wakeupIntr s.sys (some i) chan, cpu := .run i .kernel }
  | syscall (i : Slot) (hc : s.cpu = .run i .user) :
    Step s .syscall
      { s with cpu := .run i (if (s.sys.proc i).killed ≠ 0 then .dying else .kernel) }
  | fault (i : Slot) (kills : Bool) (hc : s.cpu = .run i .user) :
    Step s (.fault kills)
      { s with
        sys := { s.sys with
          proc := update s.sys.proc i
            (if kills then { s.sys.proc i with killed := 1 } else s.sys.proc i) }
        cpu := .run i .trap }
  | check (i : Slot) (hc : s.cpu = .run i .trap) : Step s .check (s.usertrapCheck i false)
  | checkTimer (i : Slot) (hc : s.cpu = .run i .timer) : Step s .check (s.usertrapCheck i true)
  | checkKernel (i : Slot) (hc : s.cpu = .run i .ktimer) : Step s .check (s.kerneltrapYield i)
  | usertrapret (i : Slot) (hc : s.cpu = .run i .kernel) :
    Step s .ret { s with cpu := .run i .ret }
  | userret (i : Slot) (hc : s.cpu = .run i .ret) : Step s .ret { s with cpu := .run i .user }
  | sect (i j : Slot) (c : Ctx) (a : Section) (t : ProcSys) (hc : s.cpu = .run i c)
      (hk : c = .kernel ∨ c = .dying) (ha : a.run s.sys i j = some t) :
    Step s (.sect j a) (s.afterSect i j c a t)

/-- After boot : the scheduler starts, and `init` will start in `forkret`. -/
def Boot (s : CpuSys) : Prop :=
  s.sys.Boot ∧ s.cpu = .scan 0 none ∧ s.ctx = fun _ => .kernel

end CpuSys

/-! ## `rbi_calculator` -/

namespace Proc

/-- The sleeping and waiting time of a slot. -/
def restTime (p : Proc) : ℤ :=
  p.sleepTime.toInt + p.waitTime.toInt

/-- The counters of a slot after `n` clock ticks : `running_time` is 0 or 1, and each tick
was slept or waited at most once. -/
structure Bounded (n : ℕ) (p : Proc) : Prop where
  running : p.runningTime = 0 ∨ p.runningTime = 1
  sleep : 0 ≤ p.sleepTime.toInt
  wait : 0 ≤ p.waitTime.toInt
  rest : p.restTime ≤ n

theorem toInt_zero_or_one {r : Int32} (h : r = 0 ∨ r = 1) :
    r.toInt = 0 ∨ r.toInt = 1 := by
  rcases h with rfl | rfl
  · exact .inl rfl
  · exact .inr rfl

theorem toInt_add_of_bounds {a b : Int32} (h : -2 ^ 31 ≤ a.toInt + b.toInt)
    (h' : a.toInt + b.toInt < 2 ^ 31) : (a + b).toInt = a.toInt + b.toInt := by
  rw [Int32.toInt_add, Int.bmod_eq_of_le] <;> simp <;> omega

theorem toInt_sub_of_bounds {a b : Int32} (h : -2 ^ 31 ≤ a.toInt - b.toInt)
    (h' : a.toInt - b.toInt < 2 ^ 31) : (a - b).toInt = a.toInt - b.toInt := by
  rw [Int32.toInt_sub, Int.bmod_eq_of_le] <;> simp <;> omega

theorem toInt_mul_of_bounds {a b : Int32} (h : -2 ^ 31 ≤ a.toInt * b.toInt)
    (h' : a.toInt * b.toInt < 2 ^ 31) : (a * b).toInt = a.toInt * b.toInt := by
  rw [Int32.toInt_mul, Int.bmod_eq_of_le] <;> simp <;> omega

/-- Short of `2^25` ticks, the arithmetic of `rbi_calculator` does not overflow. -/
theorem toInt_rbiRaw {n : ℕ} {p : Proc} (h : p.Bounded n) (hn : n < 2 ^ 25) :
    p.rbiRaw.toInt = ((3 * p.runningTime.toInt - p.restTime) * 50).tdiv
      (p.runningTime.toInt + p.restTime + 1) := by
  obtain ⟨hr, hs, hw, hrest⟩ := h
  have hr := toInt_zero_or_one hr
  have h3 : (3 : Int32).toInt = 3 := rfl
  have h50 : (50 : Int32).toInt = 50 := rfl
  have h1 : (1 : Int32).toInt = 1 := rfl
  unfold restTime at *
  have e₁ : (3 * p.runningTime).toInt = 3 * p.runningTime.toInt := by
    rw [toInt_mul_of_bounds] <;> rw [h3] <;> omega
  have e₂ : (3 * p.runningTime - p.sleepTime).toInt =
      3 * p.runningTime.toInt - p.sleepTime.toInt := by
    rw [toInt_sub_of_bounds] <;> omega
  have e₃ : (3 * p.runningTime - p.sleepTime - p.waitTime).toInt =
      3 * p.runningTime.toInt - (p.sleepTime.toInt + p.waitTime.toInt) := by
    rw [toInt_sub_of_bounds] <;> omega
  have e₄ : ((3 * p.runningTime - p.sleepTime - p.waitTime) * 50).toInt =
      (3 * p.runningTime.toInt - (p.sleepTime.toInt + p.waitTime.toInt)) * 50 := by
    rw [toInt_mul_of_bounds] <;> rw [e₃, h50] <;> omega
  have e₅ : (p.runningTime + p.waitTime).toInt = p.runningTime.toInt + p.waitTime.toInt := by
    rw [toInt_add_of_bounds] <;> omega
  have e₆ : (p.runningTime + p.waitTime + p.sleepTime).toInt =
      p.runningTime.toInt + (p.sleepTime.toInt + p.waitTime.toInt) := by
    rw [toInt_add_of_bounds] <;> omega
  have e₇ : (p.runningTime + p.waitTime + p.sleepTime + 1).toInt =
      p.runningTime.toInt + (p.sleepTime.toInt + p.waitTime.toInt) + 1 := by
    rw [toInt_add_of_bounds] <;> omega
  have hne : p.runningTime + p.waitTime + p.sleepTime + 1 ≠ -1 := by
    intro h
    have := congrArg Int32.toInt h
    rw [e₇, show (-1 : Int32).toInt = -1 from rfl] at this
    omega
  rw [rbiRaw, Int32.toInt_div_of_ne_right _ _ hne, e₄, e₇]

/-- `rbi_calculator` on such a slot : four values, and a positive one only for a process
that ran in its last turn and has rested at most twice. -/
theorem rbi_values {n : ℕ} {p : Proc} (h : p.Bounded n) (hn : n < 2 ^ 25) :
    p.rbiCalculator.1 ∈ [(0 : Int32), 12, 33, 75] ∧
      (0 < p.rbiCalculator.1 → p.runningTime = 1 ∧ p.restTime ≤ 2) := by
  have hraw := toInt_rbiRaw h hn
  have hrest : 0 ≤ p.restTime := Int.add_nonneg h.sleep h.wait
  unfold rbiCalculator max
  by_cases hpos : p.rbiRaw > 0
  · have hpos' : 0 < p.rbiRaw.toInt := Int32.lt_iff_toInt_lt.1 hpos
    rw [if_pos hpos]
    rcases h.running with hr | hr
    · -- a process that has not run : the numerator is not positive
      rw [hr, show (0 : Int32).toInt = 0 from rfl] at hraw
      have : 0 ≤ (p.restTime * 50).tdiv (p.restTime + 1) := Int.tdiv_nonneg (by omega) (by omega)
      rw [show (3 * 0 - p.restTime) * 50 = -(p.restTime * 50) by omega, Int.neg_tdiv,
        Int.zero_add] at hraw
      omega
    · rw [hr, show (1 : Int32).toInt = 1 from rfl] at hraw
      have hle : p.restTime ≤ 2 := by
        by_contra hgt
        have : 0 ≤ ((p.restTime - 3) * 50).tdiv (1 + p.restTime + 1) :=
          Int.tdiv_nonneg (by omega) (by omega)
        rw [show (3 * 1 - p.restTime) * 50 = -((p.restTime - 3) * 50) by omega,
          Int.neg_tdiv] at hraw
        omega
      refine ⟨?_, fun _ => ⟨hr, hle⟩⟩
      obtain h0 | h1 | h2 : p.restTime = 0 ∨ p.restTime = 1 ∨ p.restTime = 2 := by omega
      · have : p.rbiRaw = 75 := Int32.toInt_inj.1 (by rw [hraw, h0]; rfl)
        simp [this]
      · have : p.rbiRaw = 33 := Int32.toInt_inj.1 (by rw [hraw, h1]; rfl)
        simp [this]
      · have : p.rbiRaw = 12 := Int32.toInt_inj.1 (by rw [hraw, h2]; rfl)
        simp [this]
  · simp [hpos]

/-! ## One slot -/

/-- The counters are kept or reset, and the slot does not start to run. -/
structure Quiet (p p' : Proc) : Prop where
  running : p'.runningTime = p.runningTime ∨ p'.runningTime = 0
  sleep : p'.sleepTime = p.sleepTime ∨ p'.sleepTime = 0
  wait : p'.waitTime = p.waitTime ∨ p'.waitTime = 0
  state : p'.state = .running → p.state = .running

theorem Quiet.refl (p : Proc) : Quiet p p :=
  ⟨.inl rfl, .inl rfl, .inl rfl, id⟩

theorem Quiet.wakeup (p : Proc) (chan : Option Chan) : Quiet p (p.wakeup chan) := by
  unfold Proc.wakeup
  split_ifs with h
  · exact ⟨.inl rfl, .inl rfl, .inl rfl, by rintro ⟨⟩⟩
  · exact refl p

theorem Quiet.zero {p p' : Proc} (h : Quiet p p') (h0 : p.runningTime = 0) :
    p'.runningTime = 0 := by
  rcases h.running with h | h
  · rw [h, h0]
  · exact h

namespace Bounded

variable {n : ℕ} {p p' : Proc}

theorem mono {m : ℕ} (h : p.Bounded n) (hm : n ≤ m) : p.Bounded m :=
  ⟨h.running, h.sleep, h.wait, h.rest.trans (by exact_mod_cast hm)⟩

theorem quiet (h : p.Bounded n) (hq : Quiet p p') : p'.Bounded n := by
  obtain ⟨hr, hs, hw, hrest⟩ := h
  have hz : (0 : Int32).toInt = 0 := rfl
  unfold restTime at hrest
  refine ⟨?_, ?_, ?_, ?_⟩
  · rcases hq.running with h | h <;> simp [h, hr]
  · rcases hq.sleep with h | h <;> simp [h, hs]
  · rcases hq.wait with h | h <;> simp [h, hw]
  · unfold restTime
    rcases hq.sleep with h | h <;> rcases hq.wait with h' | h' <;> rw [h, h'] <;> omega

/-- One clock tick : a process that runs has not been charged since it was dispatched. -/
theorem updateTime (h : p.Bounded n) (hn : n < 2 ^ 25) (h0 : p.state = .running → p.runningTime = 0) :
    p.updateTime.Bounded (n + 1) := by
  obtain ⟨hr, hs, hw, hrest⟩ := id h
  unfold restTime at hrest
  have h1 : (1 : Int32).toInt = 1 := rfl
  unfold Proc.updateTime
  split
  · next hrun =>
    refine ⟨.inr (by rw [h0 hrun]; rfl), le_refl _, hw, ?_⟩
    show (0 : Int32).toInt + p.waitTime.toInt ≤ _
    rw [show (0 : Int32).toInt = 0 from rfl]
    push_cast
    omega
  · have e : (p.waitTime + 1).toInt = p.waitTime.toInt + 1 := by
      rw [toInt_add_of_bounds, h1] <;> omega
    refine ⟨hr, hs, ?_, ?_⟩
    · show 0 ≤ (p.waitTime + 1).toInt
      omega
    · show p.sleepTime.toInt + (p.waitTime + 1).toInt ≤ _
      push_cast
      omega
  · have e : (p.sleepTime + 1).toInt = p.sleepTime.toInt + 1 := by
      rw [toInt_add_of_bounds, h1] <;> omega
    refine ⟨hr, ?_, hw, ?_⟩
    · show 0 ≤ (p.sleepTime + 1).toInt
      omega
    · show (p.sleepTime + 1).toInt + p.waitTime.toInt ≤ _
      push_cast
      omega
  · exact h.mono (Nat.le_succ n)

end Bounded

end Proc

/-! ## Sections -/

/-- A section keeps or resets the counters. -/
theorem Section.quiet {s : ProcSys} {q i : Slot} {a : Section} {p : Proc}
    (ha : a.slot s q i = some p) : Proc.Quiet (s.proc i) p := by
  cases a <;> simp only [slot, Option.ite_none_right_eq_some, Option.ite_none_left_eq_some,
    Option.some.injEq, Option.map_eq_some_iff, Prod.exists] at ha
  case alloc o uvmcopy =>
    obtain ⟨-, pid, _, -, rfl⟩ := ha
    rcases o with _ | _ | ⟨tf, pt⟩
    · exact ⟨.inl rfl, .inl rfl, .inl rfl, by rintro ⟨⟩⟩
    · exact ⟨.inl rfl, .inl rfl, .inl rfl, by rintro ⟨⟩⟩
    · cases uvmcopy <;> exact ⟨.inr rfl, .inr rfl, .inr rfl, by rintro ⟨⟩⟩
  case wakeup chan =>
    obtain ⟨-, rfl⟩ := ha
    exact .wakeup _ chan
  case kill =>
    subst ha
    refine ⟨.inl rfl, .inl rfl, .inl rfl, fun h => ?_⟩
    simp only [Proc.kill] at h
    split_ifs at h
    exact h
  case changePriority new =>
    subst ha
    exact ⟨.inr rfl, .inr rfl, .inl rfl, id⟩
  case adopt | reparent | wake =>
    obtain ⟨-, rfl⟩ := ha
    exact ⟨.inl rfl, .inl rfl, .inl rfl, id⟩
  all_goals
    obtain ⟨-, rfl⟩ := ha
    exact ⟨.inl rfl, .inl rfl, .inl rfl, by rintro ⟨⟩⟩

/-! ## Runs -/

/-- The process may have been charged since it was dispatched. -/
def Ctx.charged : Ctx → Bool
  | timer | ktimer | dying => true
  | _ => false

namespace CpuSys

/-- After `n` clock ticks : the counters are bounded, the RUNNING process is the one on
the CPU, and unless it is on its way to yield or exit with interrupts off, it has not
been charged. -/
structure Inv (n : ℕ) (s : CpuSys) : Prop where
  bounded : ∀ i, (s.sys.proc i).Bounded n
  current : ∀ i c, s.cpu = .run i c → (s.sys.proc i).state = .running
  running : ∀ i, (s.sys.proc i).state = .running → ∃ c, s.cpu = .run i c
  fresh : ∀ i c, s.cpu = .run i c → c.charged = false → (s.sys.proc i).runningTime = 0

namespace Inv

variable {n : ℕ} {s : CpuSys}

theorem boot (h : s.Boot) : Inv 0 s := by
  obtain ⟨⟨ticks, tf, pt, hs⟩, hc, -⟩ := h
  refine ⟨fun i => ?_, fun i c hi => ?_, fun i hi => ?_, fun i c hi => ?_⟩
  · rw [hs]
    by_cases h0 : i = 0
    · subst h0
      exact ⟨.inl rfl, le_refl _, le_refl _, le_refl _⟩
    · simp only [ProcSys.boot, update_of_ne h0]
      exact ⟨.inl rfl, le_refl _, le_refl _, le_refl _⟩
  · rw [hc] at hi
    cases hi
  · rw [hs] at hi
    by_cases h0 : i = 0
    · subst h0
      simp [ProcSys.boot] at hi
    · simp [ProcSys.boot, h0, Proc.zero] at hi
  · rw [hc] at hi
    cases hi

/-- In the scheduler no process is RUNNING. -/
theorem not_running (h : Inv n s) {k : ℕ} {priPro : Option Slot} (hc : s.cpu = .scan k priPro)
    (i : Slot) : (s.sys.proc i).state ≠ .running := by
  intro hi
  obtain ⟨c, hc'⟩ := h.running i hi
  rw [hc] at hc'
  cases hc'

/-- The process on the CPU is the only one that is RUNNING. -/
theorem eq_of_running (h : Inv n s) {i j : Slot} {c : Ctx} (hc : s.cpu = .run i c)
    (hj : (s.sys.proc j).state = .running) : j = i := by
  obtain ⟨c', hc'⟩ := h.running j hj
  rw [hc] at hc'
  cases hc'
  rfl

/-- The process on the CPU goes on, and the table changes quietly. -/
theorem goto (h : Inv n s) {i : Slot} {c c' : Ctx} {ctx : Slot → Ctx} {t : ProcSys}
    (hc : s.cpu = .run i c) (ht : ∀ j, Proc.Quiet (s.sys.proc j) (t.proc j))
    (hi : (t.proc i).state = .running) (hcc : c'.charged = false → c.charged = false) :
    Inv n ⟨t, .run i c', ctx⟩ := by
  refine ⟨fun j => (h.bounded j).quiet (ht j), ?_, fun j hj => ?_, ?_⟩
  · rintro j d hd
    cases hd
    exact hi
  · rw [h.eq_of_running hc ((ht j).state hj)]
    exact ⟨c', rfl⟩
  · rintro j d hd hch
    cases hd
    exact (ht i).zero (h.fresh i c hc (hcc hch))

/-- The CPU goes to the scheduler, and no process is RUNNING. -/
theorem toSched (h : Inv n s) {k : ℕ} {priPro : Option Slot} {ctx : Slot → Ctx} {t : ProcSys}
    (ht : ∀ j, Proc.Quiet (s.sys.proc j) (t.proc j))
    (hr : ∀ j, (t.proc j).state ≠ .running) : Inv n ⟨t, .scan k priPro, ctx⟩ :=
  ⟨fun j => (h.bounded j).quiet (ht j), nofun, fun j hj => (hr j hj).elim, nofun⟩

/-- The process on the CPU gives it up. -/
theorem leave (h : Inv n s) {i : Slot} {c c' : Ctx} {p : Proc} (hc : s.cpu = .run i c)
    (hq : Proc.Quiet (s.sys.proc i) p) (hp : p.state ≠ .running) : Inv n (s.leave i p c') := by
  refine h.toSched (fun j => ?_) fun j hj => ?_
  · by_cases hji : j = i
    · subst hji
      simpa using hq
    · simpa [hji] using .refl _
  · by_cases hji : j = i
    · subst hji
      simp only [update_self] at hj
      exact hp hj
    · simp only [update_of_ne hji] at hj
      exact hji (h.eq_of_running hc hj)

/-- A clock tick. -/
theorem clockintr (h : Inv n s) (hn : n < 2 ^ 25) (me : Option Slot)
    (h0 : ∀ i, (s.sys.proc i).state = .running → (s.sys.proc i).runningTime = 0) (i : Slot) :
    ((clockintr s.sys me).proc i).Bounded (n + 1) ∧
      (((CowPbs.clockintr s.sys me).proc i).state = .running ↔
        (s.sys.proc i).state = .running) := by
  have hb := (h.bounded i).updateTime hn (h0 i)
  unfold CowPbs.clockintr
  dsimp only
  split_ifs
  · exact ⟨hb, by rw [Proc.updateTime_state]⟩
  · refine ⟨hb.quiet (.wakeup _ _), fun hi => ?_, fun hi => ?_⟩
    · simpa using (Proc.Quiet.wakeup _ _).state hi
    · simp [Proc.wakeup, hi]

/-- A clock tick in a process that has not been charged : it goes on to yield or exit. -/
theorem tick (h : Inv n s) (hn : n < 2 ^ 25) {i : Slot} {c c' : Ctx} (hc : s.cpu = .run i c)
    (hch : c.charged = false) (hch' : c'.charged = true) :
    Inv (n + 1) { s with sys := CowPbs.clockintr s.sys (some i), cpu := .run i c' } := by
  have hcl := h.clockintr hn (some i) fun j hj => by
    rw [h.eq_of_running hc hj]
    exact h.fresh i c hc hch
  refine ⟨fun j => (hcl j).1, fun j d hd => ?_, fun j hj => ⟨c', ?_⟩, fun j d hd hf => ?_⟩
  · cases hd
    exact (hcl i).2.2 (h.current i c hc)
  · rw [h.eq_of_running hc ((hcl j).2.1 hj)]
  · cases hd
    rw [hch'] at hf
    cases hf

theorem wakeupIntr (s : ProcSys) (me : Option Slot) (chan : Option Chan) (i : Slot) :
    Proc.Quiet (s.proc i) ((wakeupIntr s me chan).proc i) := by
  unfold CowPbs.wakeupIntr
  dsimp only
  split_ifs
  · exact .refl _
  · exact .wakeup _ chan

theorem scanAt (h : Inv n s) {i : Slot} {priPro : Option Slot}
    (hc : s.cpu = .scan i priPro) : Inv n (s.scanAt i priPro) := by
  obtain ⟨T, hT, e⟩ := scanStep_eq (Agree.refl s.sys.proc) priPro i
  unfold CpuSys.scanAt
  rw [e]
  refine h.toSched (fun j => ?_) fun j => ?_
  · dsimp only
    rw [Proc.eq_of_erase (hT j)]
    exact ⟨.inl rfl, .inl rfl, .inl rfl, id⟩
  · dsimp only
    rw [hT.state j]
    exact h.not_running hc j

theorem dispatch (h : Inv n s) {k : ℕ} {i : Slot} (hc : s.cpu = .scan k (some i)) :
    Inv n { s with
      sys := { s.sys with proc := update s.sys.proc i (s.sys.proc i).dispatch }
      cpu := .run i (s.ctx i) } := by
  refine ⟨fun j => ?_, fun j c hj => ?_, fun j hj => ?_, fun j c hj _ => ?_⟩
  · by_cases hji : j = i
    · subst hji
      simp only [update_self]
      have hb := h.bounded j
      exact ⟨.inl rfl, hb.sleep, hb.wait, hb.rest⟩
    · simpa only [update_of_ne hji] using h.bounded j
  · cases hj
    simp [Proc.dispatch]
  · by_cases hji : j = i
    · exact ⟨_, by rw [hji]⟩
    · simp only [update_of_ne hji] at hj
      exact (h.not_running hc j hj).elim
  · cases hj
    simp [Proc.dispatch]

theorem afterSect (h : Inv n s) {i j : Slot} {c : Ctx} {a : Section} {t : ProcSys}
    (hc : s.cpu = .run i c) (ha : a.run s.sys i j = some t) : Inv n (s.afterSect i j c a t) := by
  obtain ⟨hi, p, hp, rfl⟩ := Section.run_eq_some ha
  have hq : ∀ k, Proc.Quiet (s.sys.proc k) (update s.sys.proc j p k) := by
    intro k
    by_cases hk : k = j
    · subst hk
      simpa using Section.quiet hp
    · simpa [hk] using .refl _
  unfold CpuSys.afterSect
  cases hl : a.leaves with
  | true =>
    obtain ⟨rfl, hr⟩ := Section.slot_of_leaves hp hl
    refine h.toSched hq fun k hk => ?_
    by_cases hkj : k = j
    · subst hkj
      simp only [update_self] at hk
      exact hr hk
    · simp only [update_of_ne hkj] at hk
      exact hkj (h.eq_of_running hc hk)
  | false =>
    refine h.goto hc hq ?_ id
    by_cases hij : i = j
    · subst hij
      simpa using Section.slot_running hp hl hi
    · simpa [hij] using hi

theorem usertrapCheck (h : Inv n s) {i : Slot} {c : Ctx} (hc : s.cpu = .run i c) (timer : Bool)
    (ht : timer = false → c.charged = false) : Inv n (s.usertrapCheck i timer) := by
  unfold CpuSys.usertrapCheck
  have hi := h.current i c hc
  split_ifs with hk htm
  · exact h.goto hc (fun j => .refl _) hi nofun
  · exact h.leave hc ⟨.inl rfl, .inl rfl, .inl rfl, by rintro ⟨⟩⟩ nofun
  · exact h.goto hc (fun j => .refl _) hi fun _ => ht (by simpa using htm)

theorem step {t : CpuSys} {e : CpuEvent} (h : Inv n s) (hn : n < 2 ^ 25) (hs : s.Step e t) :
    Inv (if e = .tick then n + 1 else n) t := by
  cases hs with
  | scan i priPro hc => exact h.scanAt hc
  | rescan hc => exact h.toSched (fun j => .refl _) (h.not_running hc)
  | dispatch i hc => exact h.dispatch hc
  | tickSched k hc =>
    have hr := h.not_running hc
    have hcl := h.clockintr hn none fun i hi => (hr i hi).elim
    refine ⟨fun i => (hcl i).1, fun i c hi => ?_, fun i hi => (hr i ((hcl i).2.1 hi)).elim,
      fun i c hi => ?_⟩ <;> rw [hc] at hi <;> cases hi
  | tickUser i hc => exact h.tick hn hc rfl rfl
  | tickKernel i hc => exact h.tick hn hc rfl rfl
  | devSched k chan hc =>
    have hq := wakeupIntr s.sys none chan
    exact h.toSched hq fun j hj => h.not_running hc j ((hq j).state hj)
  | devUser i chan hc =>
    refine h.goto hc (wakeupIntr _ _ chan) ?_ fun _ => rfl
    simpa [CowPbs.wakeupIntr] using h.current i _ hc
  | devKernel i chan hc =>
    refine h.goto hc (wakeupIntr _ _ chan) ?_ fun _ => rfl
    simpa [CowPbs.wakeupIntr] using h.current i _ hc
  | syscall i hc =>
    show Inv n _
    split_ifs
    · exact h.goto hc (fun j => .refl _) (h.current i _ hc) fun _ => rfl
    · exact h.goto hc (fun j => .refl _) (h.current i _ hc) fun _ => rfl
  | fault i kills hc =>
    refine h.goto hc (fun j => ?_) ?_ fun _ => rfl
    · by_cases hj : j = i
      · subst hj
        cases kills <;> simpa using ⟨.inl rfl, .inl rfl, .inl rfl, id⟩
      · simpa [hj] using .refl _
    · cases kills <;> simpa using h.current i _ hc
  | check i hc => exact h.usertrapCheck hc false fun _ => rfl
  | checkTimer i hc => exact h.usertrapCheck hc true nofun
  | checkKernel i hc =>
    unfold kerneltrapYield
    rw [if_pos (h.current i _ hc)]
    exact h.leave hc ⟨.inl rfl, .inl rfl, .inl rfl, by rintro ⟨⟩⟩ nofun
  | usertrapret i hc => exact h.goto hc (fun j => .refl _) (h.current i _ hc) fun _ => rfl
  | userret i hc => exact h.goto hc (fun j => .refl _) (h.current i _ hc) fun _ => rfl
  | sect i j c a t hc hk ha => exact h.afterSect hc ha

theorem run {t : CpuSys} {es : List CpuEvent} (hs : s.Boot) (h : Run Step s es t)
    (hn : clockTicks es < 2 ^ 25) : Inv (clockTicks es) t := by
  refine h.invariant (I := fun es t => clockTicks es < 2 ^ 25 → Inv (clockTicks es) t)
    (fun _ => boot hs) (fun es t e u _ ih hst hn => ?_) hn
  have hc : clockTicks (es ++ [e]) = if e = .tick then clockTicks es + 1 else clockTicks es := by
    unfold clockTicks
    rw [List.count_append, List.count_singleton]
    split_ifs with h₁ h₂ h₂ <;> simp_all
  have hlt : clockTicks es < 2 ^ 25 := by
    rw [hc] at hn
    split_ifs at hn <;> omega
  rw [hc]
  exact (ih hlt).step hlt hst

end Inv

/-- In every run on one CPU with fewer than `2^25` clock ticks, the `running_time` of every
slot is 0 or 1. So `rbi_calculator` returns 0, 12, 33 or 75, and a positive value only
for a process with `running_time` 1 and `sleep_time + wait_time` at most 2. -/
theorem runningTime_le_one {s t : CpuSys} {es : List CpuEvent} (hs : s.Boot)
    (h : Run Step s es t) (hn : clockTicks es < 2 ^ 25) (i : Slot) :
    ((t.sys.proc i).runningTime = 0 ∨ (t.sys.proc i).runningTime = 1) ∧
      (t.sys.proc i).rbiCalculator.1 ∈ [(0 : Int32), 12, 33, 75] ∧
      (0 < (t.sys.proc i).rbiCalculator.1 → (t.sys.proc i).runningTime = 1 ∧
        (t.sys.proc i).sleepTime.toInt + (t.sys.proc i).waitTime.toInt ≤ 2) := by
  have hb := (Inv.run hs h hn).bounded i
  exact ⟨hb.running, Proc.rbi_values hb hn⟩

/-! ## A scan without interrupts -/

/-- The scan at slot `k`, with the candidate and the table `r`. -/
def scanned (s : CpuSys) (k : ℕ) (r : Option Slot × Table) : CpuSys :=
  { s with sys := { s.sys with proc := r.2 }, cpu := .scan k r.1 }

theorem step_scanned (s : CpuSys) (i : Slot) (r : Option Slot × Table) :
    Step (s.scanned i r) .scan (s.scanned (i + 1) (scanStep r i)) := by
  have e : (s.scanned i r).scanAt i r.1 = s.scanned (i + 1) (scanStep r i) := by
    unfold scanAt scanned
    dsimp only
  rw [← e]
  exact .scan i r.1 rfl

theorem scan_run_take (s : CpuSys) (hc : s.cpu = .scan 0 none) :
    ∀ k ≤ NPROC, Run Step s (List.replicate k .scan)
      (s.scanned k (((List.finRange NPROC).take k).foldl scanStep (none, s.sys.proc)))
  | 0, _ => by
    have : s.scanned 0 (none, s.sys.proc) = s := by
      rw [scanned, ← hc]
    rw [List.take_zero, List.foldl_nil, this]
    exact .nil
  | k + 1, hk => by
    have ih := scan_run_take s hc k (by omega)
    have hget : (List.finRange NPROC)[k]? = some ⟨k, hk⟩ := by
      rw [List.getElem?_eq_getElem (by rw [List.length_finRange]; omega), List.getElem_finRange]
      rfl
    rw [List.replicate_succ', List.take_add_one, hget, Option.toList_some, List.foldl_append,
      List.foldl_cons, List.foldl_nil]
    exact ih.snoc (step_scanned s ⟨k, hk⟩ _)

/-- A scan that no interrupt disturbs is one pass of the PBS loop. -/
theorem scan_run (s : CpuSys) (hc : s.cpu = .scan 0 none) {i : Slot}
    (hi : (pbsPass s.sys.proc).1 = some i) :
    Run Step s (List.replicate NPROC .scan ++ [.scan])
      { s with
        sys := { s.sys with proc := (pbsPass s.sys.proc).2 }
        cpu := .run i (s.ctx i) } := by
  have h := scan_run_take s hc NPROC le_rfl
  rw [List.take_of_length_le (by rw [List.length_finRange])] at h
  unfold pbsPass at hi ⊢
  generalize (List.finRange NPROC).foldl scanStep (none, s.sys.proc) = r at h hi ⊢
  obtain ⟨priPro, T⟩ := r
  cases priPro with
  | none => cases hi
  | some j =>
    cases hi
    exact h.snoc (.dispatch i rfl)

/-- `init` is dispatched, returns to user mode and is interrupted by the clock : its
`running_time` is 1. -/
theorem runningTime_le_one_init : ∃ (s t : CpuSys) (es : List CpuEvent),
    s.Boot ∧ Run Step s es t ∧ clockTicks es = 1 ∧ (t.sys.proc 0).runningTime = 1 ∧
    (t.sys.proc 0).rbiCalculator.1 ∈ [(0 : Int32), 12, 33, 75] ∧
    (0 < (t.sys.proc 0).rbiCalculator.1 → (t.sys.proc 0).runningTime = 1 ∧
      (t.sys.proc 0).sleepTime.toInt + (t.sys.proc 0).waitTime.toInt ≤ 2) := by
  have hb : Boot ⟨.boot 0 8192 4096, .scan 0 none, fun _ => .kernel⟩ :=
    ⟨⟨_, _, _, rfl⟩, rfl, rfl⟩
  have h := scan_run ⟨.boot 0 8192 4096, .scan 0 none, fun _ => .kernel⟩ rfl (i := 0)
    (by decide +kernel)
  have h := h.snoc (.usertrapret 0 rfl)
  have h := h.snoc (.userret 0 rfl)
  have h := h.snoc (.tickUser 0 rfl)
  have hr := runningTime_le_one hb h (by decide +kernel) 0
  exact ⟨_, _, _, hb, h, by decide +kernel, by decide +kernel, hr.2⟩

end CpuSys

end CowPbs
