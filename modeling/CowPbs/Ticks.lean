import Mathlib
import CowPbs.Section

/-!
# Clock ticks beside other CPUs

`clockintr` (trap.c) runs on CPU 0. It adds one to `ticks`, lets `update_time` charge the
processes slot by slot, each under its own `p->lock`, and wakes the sleepers on `&ticks`.
Meanwhile the other CPUs fork, schedule and exit : `allocproc` and `exit` read `ticks`
without `tickslock`, so a process can be created after `ticks++` and before `update_time`
gets to its slot.

Such a process, if it is RUNNING when its slot is reached, is charged a tick that is not
part of its life, and if it exits before the next tick, `waitx` reports a waiting time of
`2^32 - 1` (`waitx_wtime_wraps`). Otherwise the accounting is exact : a run in which
`update_time` charges no process created in the same tick, and in which no process lives
for `2^32` ticks, never makes the difference negative (`waitx_wtime_exact`).

The invariant is on one slot (`Charged`) : the ticks charged are at most the age of the
process, and, while the slot is still to be charged, less than it.
-/

open Function Transition

namespace CowPbs

/-- The channel `&ticks`. -/
def ticksChan : Chan :=
  .obj 0

/-- What `waitx` stores in `*wtime`. -/
def Proc.wtime (p : Proc) : UInt32 :=
  p.etime - p.ctime - p.rtime

/-- Where CPU 0 is in `clockintr`. -/
inductive TickPc
  /-- Not in `clockintr`. -/
  | idle
  /-- In `update_time`, before slot `k`. -/
  | update (k : ℕ)
  /-- In `wakeup(&ticks)`, before slot `k`. -/
  | wake (k : ℕ)
  deriving DecidableEq

/-- The table, `c->proc` of each CPU, and the clock interrupt of CPU 0. -/
structure TickSys (n : ℕ) where
  sys : ProcSys
  cpu : Fin (n + 1) → Option Slot
  tick : TickPc

inductive TickEvent (n : ℕ)
  | tick
  | update
  | wake
  | dispatch (c : Fin (n + 1)) (i : Slot)
  | sect (c : Fin (n + 1)) (i : Slot) (a : Section)

namespace TickSys

variable {n : ℕ}

/-- CPU `c` is not in the middle of a clock interrupt. -/
def Free (s : TickSys n) (c : Fin (n + 1)) : Prop :=
  c = 0 → s.tick = .idle

/-- The turn of `update_time` at slot `i`. -/
def updateTime (s : TickSys n) (i : Slot) : TickSys n :=
  { s with
    sys := { s.sys with proc := update s.sys.proc i (s.sys.proc i).updateTime }
    tick := .update (i + 1) }

/-- The turn of `wakeup(&ticks)` at slot `i`, which skips the process of CPU 0. -/
def wakeTicks (s : TickSys n) (i : Slot) : TickSys n :=
  if s.cpu 0 = some i then { s with tick := .wake (i + 1) }
  else
    { s with
      sys := { s.sys with proc := update s.sys.proc i ((s.sys.proc i).wakeup (some ticksChan)) }
      tick := .wake (i + 1) }

/-- One step. A clock interrupt is taken on CPU 0 and keeps it until `clockintr` is done. -/
inductive Step (s : TickSys n) : TickEvent n → TickSys n → Prop
  | tick (ht : s.tick = .idle) :
    Step s .tick { s with sys := { s.sys with ticks := s.sys.ticks + 1 }, tick := .update 0 }
  | update (i : Slot) (ht : s.tick = .update i) : Step s .update (s.updateTime i)
  | updated (ht : s.tick = .update NPROC) : Step s .update { s with tick := .wake 0 }
  | wake (i : Slot) (ht : s.tick = .wake i) : Step s .wake (s.wakeTicks i)
  | woken (ht : s.tick = .wake NPROC) : Step s .wake { s with tick := .idle }
  | dispatch (c : Fin (n + 1)) (i : Slot) (t : ProcSys) (hf : s.Free c) (hc : s.cpu c = none)
      (hd : s.sys.dispatch i = some t) :
    Step s (.dispatch c i) { s with sys := t, cpu := Function.update s.cpu c (some i) }
  | sect (c : Fin (n + 1)) (q i : Slot) (a : Section) (t : ProcSys) (hf : s.Free c)
      (hc : s.cpu c = some q) (ha : a.run s.sys q i = some t) :
    Step s (.sect c i a)
      { s with
        sys := t, cpu := if a.leaves then Function.update s.cpu c none else s.cpu }

/-- After boot : no CPU has a process, no clock interrupt yet. -/
def Boot (s : TickSys n) : Prop :=
  s.sys.Boot ∧ s.cpu = (fun _ => none) ∧ s.tick = .idle

end TickSys

/-- A process that is neither UNUSED nor ZOMBIE. -/
def Proc.Live (p : Proc) : Prop :=
  p.state ≠ .unused ∧ p.state ≠ .zombie

instance : DecidablePred Proc.Live :=
  fun p => inferInstanceAs (Decidable (p.state ≠ .unused ∧ p.state ≠ .zombie))

namespace TickSys

variable {n : ℕ}

/-- A step that charges no process created in the same tick, and after which no process
is `2^32` ticks old. -/
def InTime (s : TickSys n) : TickEvent n → Prop
  | .tick => ∀ i, (s.sys.proc i).Live → s.sys.ticks + 1 ≠ (s.sys.proc i).ctime
  | .update => ∀ i : Slot, s.tick = .update i → (s.sys.proc i).state = .running →
      (s.sys.proc i).ctime ≠ s.sys.ticks
  | _ => True

instance (s : TickSys n) (e : TickEvent n) : Decidable (s.InTime e) :=
  match e with
  | .tick => inferInstanceAs (Decidable (∀ _, _))
  | .update => inferInstanceAs (Decidable (∀ _, _))
  | .wake | .dispatch _ _ | .sect _ _ _ => inferInstanceAs (Decidable True)

/-! ## One slot -/

/-- The age grows by one with `ticks`, short of `2^32`. -/
theorem toNat_succ_sub {t c : UInt32} (h : t + 1 ≠ c) :
    (t + 1 - c).toNat = (t - c).toNat + 1 := by
  have h' : (t + 1).toNat ≠ c.toNat := fun h' => h (UInt32.toNat.inj h')
  have ht := t.toNat_lt
  have hc := c.toNat_lt
  simp only [UInt32.toNat_sub, UInt32.toNat_add, UInt32.toNat_one] at h' ⊢
  omega

/-- The ticks charged to a process are at most its age, and less if the current tick is
`due`, that is, counted in `ticks` and not yet charged to its slot; a process created in
the current tick is charged none. Of a ZOMBIE, they are at most the time it lived. -/
structure Charged (due : Bool) (ticks : UInt32) (p : Proc) : Prop where
  live : p.Live → p.rtime.toNat + due.toNat ≤ (ticks - p.ctime).toNat ∨
    p.ctime = ticks ∧ p.rtime = 0
  zombie : p.state = .zombie → p.rtime ≤ p.etime - p.ctime

namespace Charged

variable {due : Bool} {ticks : UInt32} {p p' : Proc}

theorem le_age (h : Charged due ticks p) (hl : p.Live) : p.rtime ≤ ticks - p.ctime := by
  rw [UInt32.le_iff_toNat_le]
  rcases h.live hl with h | ⟨-, h⟩
  · omega
  · simp [h]

/-- A slot that keeps its times, and whether it is live. -/
theorem congr (h : Charged due ticks p) (hr : p'.rtime = p.rtime) (hc : p'.ctime = p.ctime)
    (hl : p'.Live → p.Live)
    (hz : p'.state = .zombie → p.state = .zombie ∧ p'.etime = p.etime) :
    Charged due ticks p' := by
  refine ⟨fun h' => ?_, fun h' => ?_⟩
  · rw [hr, hc]
    exact h.live (hl h')
  · rw [hr, hc, (hz h').2]
    exact h.zombie (hz h').1

theorem unused (h : p.state = .unused) : Charged due ticks p :=
  ⟨fun hl => (hl.1 h).elim, fun hz => by rw [h] at hz; cases hz⟩

/-- A process that is created now. -/
theorem fresh (p : Proc) (hp : p.state = .used) : Charged due ticks (p.fresh ticks) :=
  ⟨fun _ => .inr ⟨rfl, rfl⟩, fun hz => by simp [Proc.fresh, hp] at hz⟩

theorem wakeup (h : Charged due ticks p) (chan : Option Chan) :
    Charged due ticks (p.wakeup chan) := by
  unfold Proc.wakeup
  split_ifs with hs
  · exact h.congr rfl rfl (fun _ => ⟨by simp [hs.1], by simp [hs.1]⟩) (by rintro ⟨⟩)
  · exact h

theorem exit (h : Charged due ticks p) (hl : p.Live) (status : Int32) :
    Charged due ticks (p.exit status ticks) :=
  ⟨fun hl' => (hl'.2 rfl).elim, fun _ => h.le_age hl⟩

/-- `ticks++` : the tick is due in every slot. -/
theorem tick (h : Charged false ticks p) (hw : p.Live → ticks + 1 ≠ p.ctime) :
    Charged true (ticks + 1) p := by
  refine ⟨fun hl => .inl ?_, h.zombie⟩
  have hle := UInt32.le_iff_toNat_le.1 (h.le_age hl)
  rw [toNat_succ_sub (hw hl), Bool.toNat_true]
  omega

/-- The turn of `update_time` at the slot. -/
theorem updateTime (h : Charged true ticks p) (hg : p.state = .running → p.ctime ≠ ticks) :
    Charged false ticks p.updateTime := by
  have hle := h.le_age
  unfold Proc.updateTime
  split
  · next hrun =>
    refine ⟨fun _ => .inl ?_, fun hz => ?_⟩
    · rcases h.live ⟨by simp [hrun], by simp [hrun]⟩ with h' | ⟨h', -⟩
      · have := (ticks - p.ctime).toNat_lt
        simp only [Bool.toNat_true, Bool.toNat_false, UInt32.toNat_add, UInt32.toNat_one] at h' ⊢
        omega
      · exact (hg hrun h').elim
    · simp [hrun] at hz
  all_goals
    refine ⟨fun hl => .inl ?_, h.zombie⟩
    simpa [UInt32.le_iff_toNat_le] using hle hl

/-- A section of proc.c. Only `alloc` and `exit` write the times. -/
theorem slot {s : ProcSys} {q i : Slot} {c : Section} (h : Charged due s.ticks (s.proc i))
    (hq : (s.proc q).state = .running) (hc : c.slot s q i = some p) :
    Charged due s.ticks p := by
  cases c <;> simp only [Section.slot, Option.ite_none_right_eq_some,
    Option.ite_none_left_eq_some, Option.some.injEq, Option.map_eq_some_iff, Prod.exists] at hc
  case alloc o uvmcopy =>
    obtain ⟨-, pid, _, -, rfl⟩ := hc
    rcases o with _ | _ | ⟨tf, pt⟩
    · exact unused rfl
    · exact unused rfl
    · cases uvmcopy
      · exact unused rfl
      · exact (fresh _ rfl).congr rfl rfl id fun hz => ⟨hz, rfl⟩
  case free =>
    obtain ⟨-, rfl⟩ := hc
    exact unused rfl
  case exit status =>
    obtain ⟨⟨rfl, -⟩, rfl⟩ := hc
    exact h.exit ⟨by simp [hq], by simp [hq]⟩ status
  case sleep | yield =>
    obtain ⟨rfl, rfl⟩ := hc
    exact h.congr rfl rfl (fun _ => ⟨by simp [hq], by simp [hq]⟩) (by rintro ⟨⟩)
  case publish =>
    obtain ⟨hi, rfl⟩ := hc
    exact h.congr rfl rfl (fun _ => ⟨by simp [hi.1], by simp [hi.1]⟩) (by rintro ⟨⟩)
  case adopt | reparent | wake =>
    obtain ⟨-, rfl⟩ := hc
    exact h.congr rfl rfl id fun hz => ⟨hz, rfl⟩
  case wakeup chan =>
    obtain ⟨-, rfl⟩ := hc
    exact h.wakeup chan
  case kill =>
    subst hc
    refine h.congr rfl rfl (fun hl => ?_) fun hz => ?_
    · simp only [Proc.Live, Proc.kill] at hl ⊢
      split_ifs at hl with hs
      · simp [hs]
      · exact hl
    · simp only [Proc.kill] at hz
      split_ifs at hz
      exact ⟨hz, rfl⟩
  case changePriority new =>
    subst hc
    exact h.congr rfl rfl id fun hz => ⟨hz, rfl⟩

end Charged

/-! ## The run -/

/-- The tick is counted and slot `i` is still to be charged. -/
def Due (s : TickSys n) (i : Slot) : Bool :=
  match s.tick with
  | .update k => k ≤ i
  | _ => false

/-- Every slot is charged at most its age. -/
def Exact (s : TickSys n) : Prop :=
  ∀ i, Charged (s.Due i) s.sys.ticks (s.sys.proc i)

theorem Exact.boot {s : TickSys n} (h : s.Boot) : s.Exact := by
  obtain ⟨⟨ticks, tf, pt, hs⟩, -, -⟩ := h
  rw [Exact, hs]
  intro i
  by_cases h0 : i = 0
  · subst h0
    have hf : Charged (s.Due 0) ticks (Proc.fresh (Proc.zero.found 1) ticks) := .fresh _ rfl
    exact hf.congr rfl rfl (fun _ => ⟨by rintro ⟨⟩, by rintro ⟨⟩⟩) (by rintro ⟨⟩)
  · exact .unused (by simp [ProcSys.boot, h0, Proc.zero])

/-- A step that rewrites one slot, between two charges. -/
theorem Exact.update {s : TickSys n} (h : s.Exact) (i : Slot) (p : Proc) (m : Int32)
    (cpu : Fin (n + 1) → Option Slot) (hp : Charged (s.Due i) s.sys.ticks p) :
    Exact { s with
      sys := { s.sys with proc := update s.sys.proc i p, nextpid := m }, cpu := cpu } := by
  intro j
  by_cases hj : j = i
  · subst hj
    simpa [Due] using hp
  · simpa [Due, hj] using h j

/-- Moving on in `clockintr` without charging a slot. -/
theorem Exact.goto {s : TickSys n} (h : s.Exact) (pc : TickPc)
    (hpc : ∀ i, Due { s with tick := pc } i = s.Due i) : Exact { s with tick := pc } := by
  intro i
  rw [hpc i]
  exact h i

theorem Exact.step {s t : TickSys n} {e : TickEvent n} (h : s.Exact) (hs : s.Step e t)
    (hg : s.InTime e) : t.Exact := by
  cases hs with
  | tick ht =>
    intro i
    have hi := h i
    simp only [Due, ht] at hi
    simpa [Due] using hi.tick (hg i)
  | update i ht =>
    intro j
    have hj := h j
    by_cases hji : j = i
    · subst hji
      simp only [Due, ht, le_refl, decide_true] at hj
      have hdue : (s.updateTime j).Due j = false := by
        simp [Due, updateTime]
      rw [hdue]
      simpa [updateTime] using hj.updateTime (hg j ht)
    · -- the slots after `i` are still due, those before it are not
      have hdue : (s.updateTime i).Due j = s.Due j := by
        have hne := Fin.val_ne_of_ne hji
        simp only [Due, updateTime, ht, decide_eq_decide]
        omega
      rw [hdue]
      simpa [updateTime, hji] using hj
  | updated ht =>
    refine h.goto _ fun i => ?_
    simp [Due, ht]
  | wake i ht =>
    unfold wakeTicks
    split_ifs
    · exact h.goto _ fun i => by simp [Due, ht]
    · exact (h.update i _ s.sys.nextpid s.cpu ((h i).wakeup _)).goto _ fun i => by simp [Due, ht]
  | woken ht => exact h.goto _ fun i => by simp [Due, ht]
  | dispatch c i t hf hc hd =>
    obtain ⟨hi, rfl⟩ := ProcSys.dispatch_eq_some hd
    exact h.update i _ s.sys.nextpid _
      ((h i).congr rfl rfl (fun _ => ⟨by simp [hi], by simp [hi]⟩) (by rintro ⟨⟩))
  | sect c q i a t hf hc ha =>
    obtain ⟨hq, p, hp, rfl⟩ := Section.run_eq_some ha
    exact h.update i p _ _ ((h i).slot hq hp)

/-- On any number of CPUs, in a run that charges no process created in the same tick and
in which no process lives for `2^32` ticks, the running time of every ZOMBIE is at most
its lifetime, and `waitx` reports their difference. -/
theorem waitx_wtime_exact {s : TickSys n} (h : Reachable Boot (Guarded Step InTime) s)
    {i : Slot} (hz : (s.sys.proc i).state = .zombie) :
    (s.sys.proc i).rtime ≤ (s.sys.proc i).etime - (s.sys.proc i).ctime ∧
      (s.sys.proc i).wtime.toNat =
        ((s.sys.proc i).etime - (s.sys.proc i).ctime).toNat - (s.sys.proc i).rtime.toNat := by
  have hI : s.Exact := h.invariant (fun _ => Exact.boot) fun _ _ _ hI hs => hI.step hs.1 hs.2
  have hle := (hI i).zombie hz
  exact ⟨hle, UInt32.toNat_sub_of_le _ _ hle⟩

/-- A child forked in tick 0 runs through tick 1 and exits in it : it was charged one
tick and lived for one. -/
theorem waitx_wtime_exact_child : ∃ s : TickSys 1,
    Reachable Boot (Guarded Step InTime) s ∧ (s.sys.proc 1).state = .zombie ∧
    (s.sys.proc 1).rtime = 1 ∧ (s.sys.proc 1).rtime ≤ (s.sys.proc 1).etime - (s.sys.proc 1).ctime ∧
    (s.sys.proc 1).wtime.toNat =
      ((s.sys.proc 1).etime - (s.sys.proc 1).ctime).toNat - (s.sys.proc 1).rtime.toNat := by
  have h₀ : Boot (n := 1) ⟨.boot 0 8192 4096, fun _ => none, .idle⟩ := ⟨⟨_, _, _, rfl⟩, rfl, rfl⟩
  have d : Reachable Boot (Guarded Step InTime) _ :=
    .step (.init h₀) ⟨.dispatch 1 0 _ nofun rfl rfl, trivial⟩
  have d := d.step ⟨.sect 1 0 1 (.alloc (.ok 8192 4096) true) _ nofun rfl rfl, trivial⟩
  have d := d.step ⟨.sect 1 0 1 .adopt _ nofun rfl rfl, trivial⟩
  have d := d.step ⟨.sect 1 0 1 .publish _ nofun rfl rfl, trivial⟩
  have d := d.step ⟨.sect 1 0 0 (.sleep (some (.proc 0))) _ nofun rfl rfl, trivial⟩
  have d := d.step ⟨.dispatch 1 1 _ nofun rfl rfl, trivial⟩
  have d := d.step ⟨.tick rfl, by decide +kernel⟩
  have d := d.step ⟨.update 0 rfl, by decide +kernel⟩
  have d := d.step ⟨.update 1 rfl, by decide +kernel⟩
  have d := d.step ⟨.sect 1 1 0 (.wakeup (some (.proc 0))) _ nofun rfl rfl, trivial⟩
  have d := d.step ⟨.sect 1 1 1 (.exit 0) _ nofun rfl rfl, trivial⟩
  exact ⟨_, d, rfl, rfl, waitx_wtime_exact d rfl⟩

/-- On two CPUs : CPU 0 has added one to `ticks` and charged slot 0 when `init`, on CPU 1,
forks slot 1 and waits. The child runs when `update_time` gets to it and exits at once,
charged one tick in a life of none, and its waiting time is reported as `2^32 - 1`. -/
theorem waitx_wtime_wraps : ∃ s : TickSys 1,
    Reachable Boot Step s ∧ (s.sys.proc 1).state = .zombie ∧
    ¬(s.sys.proc 1).rtime ≤ (s.sys.proc 1).etime - (s.sys.proc 1).ctime ∧
    (s.sys.proc 1).wtime.toNat = 4294967295 := by
  have h₀ : Boot (n := 1) ⟨.boot 0 8192 4096, fun _ => none, .idle⟩ := ⟨⟨_, _, _, rfl⟩, rfl, rfl⟩
  have d : Reachable Boot Step _ := .step (.init h₀) (.dispatch 1 0 _ nofun rfl rfl)
  have d := d.step (.tick rfl)
  have d := d.step (.update 0 rfl)
  have d := d.step (.sect 1 0 1 (.alloc (.ok 8192 4096) true) _ nofun rfl rfl)
  have d := d.step (.sect 1 0 1 .adopt _ nofun rfl rfl)
  have d := d.step (.sect 1 0 1 .publish _ nofun rfl rfl)
  have d := d.step (.sect 1 0 0 (.sleep (some (.proc 0))) _ nofun rfl rfl)
  have d := d.step (.dispatch 1 1 _ nofun rfl rfl)
  have d := d.step (.update 1 rfl)
  have d := d.step (.sect 1 1 0 (.wakeup (some (.proc 0))) _ nofun rfl rfl)
  have d := d.step (.sect 1 1 1 (.exit 0) _ nofun rfl rfl)
  exact ⟨_, d, rfl, by decide, rfl⟩

end TickSys

end CowPbs
