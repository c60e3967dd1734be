import Mathlib
import CowPbs.Lib.Locks
import CowPbs.Lib.Simulation

/-!
# Spinlocks

`acquire`, `release`, `push_off` and `pop_off` (spinlock.c), instruction by instruction, on any
number of CPUs and locks. A CPU may be interrupted where its interrupts are on, and the handler uses
the same functions. The calls need not be the right ones : a CPU that acquires a lock it holds, or
releases one it does not hold, panics.

For those who use them the functions are steps of a table of locks (`spin_refines_table`) : a
CPU has a lock from the swap that returned 0 to the store that clears it. `holding` is exact,
interrupts are off as long as a CPU has a lock, and then on again if they were on before
(`Safe`). The steps leave `sched` out, which moves `intena` to the next process.
-/

set_option linter.unusedSectionVars false

open Function Locks Transition

namespace CowPbs

/-- Where a CPU is. -/
inductive SpinPc (L : Type*)
  /-- In none of the functions. -/
  | code
  /-- In `acquire`, after `push_off`. -/
  | acquire (l : L)
  /-- Before `__sync_lock_test_and_set`. -/
  | spin (l : L)
  /-- Before `lk->cpu = mycpu()`. -/
  | acquired (l : L)
  /-- In `release`, after the test. -/
  | release (l : L)
  /-- Before `__sync_lock_release`. -/
  | cleared (l : L)
  /-- Before `pop_off`. -/
  | released (l : L)
  | panic
  deriving DecidableEq

namespace SpinPc

variable {L : Type*}

/-- The lock that a CPU has taken and does not count as its own, in `acquire` or `release`. -/
def inner : SpinPc L → Finset L
  | .acquired l | .cleared l => {l}
  | _ => ∅

/-- Whether the function has called `push_off`, or has yet to call `pop_off`, for a lock that is
not its own. -/
def depth : SpinPc L → ℕ
  | .acquire _ | .spin _ | .acquired _ | .cleared _ | .released _ => 1
  | _ => 0

/-- What a CPU knows at a place. -/
def knows (crit : Finset L) : SpinPc L → Prop
  | .spin l | .acquired l | .cleared l => l ∉ crit
  | .release l => l ∈ crit
  | _ => True

end SpinPc

/-- The locks, and the CPUs with their interrupts. -/
structure SpinSys (L C : Type*) where
  /-- `lk->locked`. -/
  locked : L → Bool
  /-- `lk->cpu`. -/
  cpu : L → Option C
  /-- Depth of `push_off` nesting. -/
  noff : C → ℕ
  /-- Were interrupts enabled before `push_off`? -/
  intena : C → Bool
  /-- `SSTATUS_SIE`. -/
  sie : C → Bool
  pc : C → SpinPc L
  /-- In the handler of an interrupt. -/
  trapped : C → Bool
  /-- Not in the kernel : the locks that a CPU has acquired and not released. -/
  crit : C → Finset L
  /-- Not in the kernel : its calls of `push_off` without a `pop_off`. -/
  extra : C → ℕ
  /-- Not in the kernel : whether interrupts are on outside of locks and handlers. -/
  base : C → Bool

/-- An instruction, or a call up to its first instruction that others can see. -/
inductive SpinEvent (L C : Type*)
  | acquire (c : C) (l : L)
  | check (c : C) (l : L)
  | spin (c : C) (l : L)
  /-- `__sync_lock_test_and_set` returns 0. -/
  | take (c : C) (l : L)
  | own (c : C) (l : L)
  | release (c : C) (l : L)
  | clear (c : C) (l : L)
  /-- `__sync_lock_release`. -/
  | drop (c : C) (l : L)
  | finish (c : C) (l : L)
  | pushOff (c : C)
  | popOff (c : C)
  /-- `intr_on` or `intr_off`. -/
  | intr (c : C) (b : Bool)
  | trap (c : C)
  | sret (c : C)

namespace SpinSys

variable {L C : Type*} [DecidableEq L] [DecidableEq C]

def goto (s : SpinSys L C) (c : C) (pc : SpinPc L) : SpinSys L C :=
  { s with pc := update s.pc c pc }

/-- `holding`. -/
def holding (s : SpinSys L C) (c : C) (l : L) : Bool :=
  s.locked l && s.cpu l = some c

/-- `push_off`. -/
def pushOff (s : SpinSys L C) (c : C) : SpinSys L C :=
  { s with
    intena := if s.noff c = 0 then update s.intena c (s.sie c) else s.intena
    sie := update s.sie c false
    noff := update s.noff c (s.noff c + 1) }

/-- `pop_off`. -/
def popOff (s : SpinSys L C) (c : C) : SpinSys L C :=
  if s.sie c then s.goto c .panic
  else if s.noff c < 1 then s.goto c .panic
  else
    { s with
      noff := update s.noff c (s.noff c - 1)
      sie := if s.noff c - 1 = 0 ∧ s.intena c = true then update s.sie c true else s.sie }

/-- The steps. `pop_off` is called as often as `push_off`, and interrupts are not switched on or
off in a handler or between the two. -/
inductive Step (s : SpinSys L C) : SpinEvent L C → SpinSys L C → Prop
  | acquire {c : C} {l : L} (h : s.pc c = .code) :
    Step s (.acquire c l) ((s.pushOff c).goto c (.acquire l))
  | check {c : C} {l : L} (h : s.pc c = .acquire l) :
    Step s (.check c l) (if s.holding c l then s.goto c .panic else s.goto c (.spin l))
  | spin {c : C} {l : L} (h : s.pc c = .spin l) (hl : s.locked l = true) : Step s (.spin c l) s
  | take {c : C} {l : L} (h : s.pc c = .spin l) (hl : s.locked l = false) :
    Step s (.take c l) { s with
      locked := update s.locked l true
      pc := update s.pc c (.acquired l) }
  | own {c : C} {l : L} (h : s.pc c = .acquired l) :
    Step s (.own c l) { s with
      cpu := update s.cpu l (some c)
      pc := update s.pc c .code
      crit := update s.crit c (insert l (s.crit c)) }
  | release {c : C} {l : L} (h : s.pc c = .code) :
    Step s (.release c l) (if s.holding c l then s.goto c (.release l) else s.goto c .panic)
  | clear {c : C} {l : L} (h : s.pc c = .release l) :
    Step s (.clear c l) { s with
      cpu := update s.cpu l none
      pc := update s.pc c (.cleared l)
      crit := update s.crit c ((s.crit c).erase l) }
  | drop {c : C} {l : L} (h : s.pc c = .cleared l) :
    Step s (.drop c l) { s with
      locked := update s.locked l false
      pc := update s.pc c (.released l) }
  | finish {c : C} {l : L} (h : s.pc c = .released l) :
    Step s (.finish c l) ((s.goto c .code).popOff c)
  | pushOff {c : C} (h : s.pc c = .code) :
    Step s (.pushOff c) { s.pushOff c with extra := update s.extra c (s.extra c + 1) }
  | popOff {c : C} (h : s.pc c = .code) (hx : 0 < s.extra c) :
    Step s (.popOff c) { s.popOff c with extra := update s.extra c (s.extra c - 1) }
  | intr {c : C} {b : Bool} (h : s.pc c = .code) (h0 : s.noff c = 0) (ht : s.trapped c = false) :
    Step s (.intr c b) { s with sie := update s.sie c b, base := update s.base c b }
  | trap {c : C} (h : s.pc c ≠ .panic) (hs : s.sie c = true) :
    Step s (.trap c) { s with sie := update s.sie c false, trapped := update s.trapped c true }
  | sret {c : C} (h : s.pc c = .code) (h0 : s.noff c = 0) (ht : s.trapped c = true) :
    Step s (.sret c) { s with sie := update s.sie c true, trapped := update s.trapped c false }

/-- All locks are free, and no CPU has called `push_off`. -/
structure Init (s : SpinSys L C) : Prop where
  locked : ∀ l, s.locked l = false
  cpu : ∀ l, s.cpu l = none
  noff : ∀ c, s.noff c = 0
  pc : ∀ c, s.pc c = .code
  trapped : ∀ c, s.trapped c = false
  crit : ∀ c, s.crit c = ∅
  extra : ∀ c, s.extra c = 0
  base : ∀ c, s.base c = s.sie c

/-! ## The table of locks -/

/-- A lock is taken, or given up. -/
inductive TableEvent (L C : Type*)
  | acquire (c : C) (l : L)
  | release (c : C) (l : L)

/-- Locks that are taken and given up in one step. -/
inductive TableStep (u : L → Option C) : TableEvent L C → (L → Option C) → Prop
  | acquire {c : C} {l : L} (h : u l = none) : TableStep u (.acquire c l) (update u l (some c))
  | release {c : C} {l : L} (h : u l = some c) : TableStep u (.release c l) (update u l none)

/-- The instructions that the table sees. -/
def visible : SpinEvent L C → Option (TableEvent L C)
  | .take c l => some (.acquire c l)
  | .drop c l => some (.release c l)
  | _ => none

/-! ## The invariant -/

/-- The locks that a CPU has. -/
def held (s : SpinSys L C) (c : C) : Set L :=
  ↑(s.crit c ∪ (s.pc c).inner)

/-- Whether interrupts are on where the CPU has not called `push_off`. -/
def outside (s : SpinSys L C) (c : C) : Bool :=
  s.base c && !s.trapped c

/-- The invariant of one CPU. -/
structure CpuOk (s : SpinSys L C) (c : C) : Prop where
  knows : (s.pc c).knows (s.crit c)
  depth : s.pc c ≠ .panic → s.noff c = (s.crit c).card + (s.pc c).depth + s.extra c
  least : (s.crit c).card ≤ s.noff c
  off : 0 < s.noff c → s.sie c = false ∧ s.intena c = s.outside c
  restored : s.noff c = 0 → s.sie c = s.outside c
  trapped : s.trapped c = true → s.base c = true

/-- The locks are those of the table `u`. -/
structure Ok (s : SpinSys L C) (u : L → Option C) : Prop where
  owns : Owns u s.held
  locked : ∀ l, s.locked l = (u l).isSome
  cpu : ∀ l c, s.cpu l = some c ↔ l ∈ s.crit c
  each : ∀ c, s.CpuOk c

variable {s t : SpinSys L C} {u v : L → Option C} {c d : C} {l : L} {e : SpinEvent L C}

/-- Nothing has changed for a CPU. -/
structure Same (s t : SpinSys L C) (d : C) : Prop where
  pc : t.pc d = s.pc d
  crit : t.crit d = s.crit d
  noff : t.noff d = s.noff d
  intena : t.intena d = s.intena d
  sie : t.sie d = s.sie d
  extra : t.extra d = s.extra d
  base : t.base d = s.base d
  trapped : t.trapped d = s.trapped d

theorem CpuOk.congr (hc : s.CpuOk d) (hs : Same s t d) : t.CpuOk d := by
  obtain ⟨h₁, h₂, h₃, h₄, h₅, h₆⟩ := hc
  have hout : t.outside d = s.outside d := by
    unfold outside
    rw [hs.base, hs.trapped]
  constructor
  · rwa [hs.pc, hs.crit]
  · rwa [hs.pc, hs.crit, hs.noff, hs.extra]
  · rwa [hs.crit, hs.noff]
  · rwa [hs.noff, hs.sie, hs.intena, hout]
  · rwa [hs.noff, hs.sie, hout]
  · rwa [hs.base, hs.trapped]

theorem Same.held (hs : Same s t d) : t.held d = s.held d := by
  unfold SpinSys.held
  rw [hs.pc, hs.crit]

/-- One CPU has made a step, and the table is the same. -/
theorem Ok.change (h : Ok s u) (hother : ∀ d ≠ c, Same s t d) (hc : t.CpuOk c)
    (hheld : t.held c = s.held c) (hlocked : t.locked = s.locked)
    (hcpu : ∀ l d, t.cpu l = some d ↔ l ∈ t.crit d) : Ok t u := by
  refine ⟨h.owns.congr fun d => ?_, fun l => by rw [hlocked, h.locked], hcpu, fun d => ?_⟩
  all_goals by_cases hd : d = c
  · rw [hd, hheld]
  · exact (hother d hd).held
  · exact hd ▸ hc
  · exact (h.each d).congr (hother d hd)

/-- Only the place of a CPU in the code has changed. -/
theorem Ok.goto (h : Ok s u) {p : SpinPc L} (hinner : p.inner = (s.pc c).inner)
    (hknows : p.knows (s.crit c)) (hdepth : p ≠ .panic → s.pc c ≠ .panic ∧
      p.depth = (s.pc c).depth) : Ok (s.goto c p) u := by
  have hc := h.each c
  have hpc : (s.goto c p).pc c = p := update_self ..
  refine h.change (c := c) (fun d hd => ⟨update_of_ne hd .., rfl, rfl, rfl, rfl, rfl, rfl, rfl⟩)
    ⟨?_, fun hne => ?_, hc.least, hc.off, hc.restored, hc.trapped⟩ ?_ rfl h.cpu
  · rw [hpc]
    exact hknows
  · rw [hpc] at hne ⊢
    obtain ⟨hold, heq⟩ := hdepth hne
    rw [heq]
    exact hc.depth hold
  · unfold held
    rw [hpc, hinner]
    rfl

/-- `holding` is exact. -/
theorem Ok.holding_iff (h : Ok s u) : s.holding c l = true ↔ l ∈ s.crit c := by
  unfold holding
  rw [Bool.and_eq_true, decide_eq_true_eq, h.cpu, and_iff_right_iff_imp]
  intro hl
  have hheld : l ∈ s.held c := by
    unfold held
    simp [hl]
  rw [h.locked, (h.owns l c).2 hheld]
  rfl

theorem mem_held_of_crit (hl : l ∈ s.crit c) : l ∈ s.held c := by
  show l ∈ (↑(s.crit c ∪ (s.pc c).inner) : Set L)
  simp [hl]

/-- `push_off`, on the way to a place in the code. -/
theorem Ok.pushOff (h : Ok s u) {p : SpinPc L} {k : ℕ} (hcode : s.pc c = .code)
    (hinner : p.inner = ∅) (hknows : p.knows (s.crit c)) (hdepth : p.depth + k = 1) :
    Ok { (s.pushOff c).goto c p with extra := update s.extra c (s.extra c + k) } u := by
  have hc := h.each c
  refine h.change (c := c) (fun d hd => ?_)
    ⟨?_, fun _ => ?_, ?_, fun _ => ⟨?_, ?_⟩, fun h0 => ?_, hc.trapped⟩ ?_ rfl h.cpu
  · have hint : (if s.noff c = 0 then update s.intena c (s.sie c) else s.intena) d = s.intena d := by
      split_ifs
      · exact update_of_ne hd ..
      · rfl
    exact ⟨update_of_ne hd .., rfl, update_of_ne hd .., hint, update_of_ne hd .., update_of_ne hd ..,
      rfl, rfl⟩
  · show SpinPc.knows (s.crit c) (update s.pc c p c)
    rwa [update_self]
  · have := hc.depth (by rw [hcode]; nofun)
    rw [hcode] at this
    simp only [SpinSys.goto, SpinSys.pushOff, update_self]
    have h0 : (SpinPc.code : SpinPc L).depth = 0 := rfl
    omega
  · show (s.crit c).card ≤ update s.noff c (s.noff c + 1) c
    rw [update_self]
    exact hc.least.trans (Nat.le_succ _)
  · simp [SpinSys.goto, SpinSys.pushOff]
  · show (if s.noff c = 0 then update s.intena c (s.sie c) else s.intena) c = s.outside c
    split_ifs with h0
    · rw [update_self]
      exact hc.restored h0
    · exact (hc.off (Nat.pos_of_ne_zero h0)).2
  · simp [SpinSys.goto, SpinSys.pushOff] at h0
  · show (↑(s.crit c ∪ (update s.pc c p c).inner) : Set L) = ↑(s.crit c ∪ (s.pc c).inner)
    rw [update_self, hinner, hcode]
    rfl

/-- `pop_off` where it is due. -/
theorem popOff_eq (hsie : s.sie c = false) (hpos : 0 < s.noff c) : s.popOff c = { s with
    noff := update s.noff c (s.noff c - 1)
    sie := if s.noff c - 1 = 0 ∧ s.intena c = true then update s.sie c true else s.sie } := by
  unfold popOff
  rw [if_neg (by rw [hsie]; nofun), if_neg (by omega)]

theorem popOff_extra : (s.popOff c).extra = s.extra := by
  unfold popOff
  split_ifs <;> rfl

/-- `pop_off`, with what it ends. -/
theorem Ok.popOff (h : Ok s u) {k : ℕ} (hinner : (s.pc c).inner = ∅)
    (hpc : s.pc c ≠ .panic) (hdepth : (s.pc c).depth + k = 1) (hk : k ≤ s.extra c) :
    Ok { (s.goto c .code).popOff c with extra := update s.extra c (s.extra c - k) } u := by
  have hc := h.each c
  have hnoff := hc.depth hpc
  have hpos : 0 < s.noff c := by omega
  obtain ⟨hsie, hint⟩ := hc.off hpos
  have heq : (s.goto c .code).popOff c = _ := popOff_eq hsie hpos
  rw [heq]
  have hnew : (if s.noff c - 1 = 0 ∧ s.intena c = true then update s.sie c true else s.sie) =
      update s.sie c (decide (s.noff c - 1 = 0) && s.intena c) := by
    by_cases hon : s.noff c - 1 = 0 ∧ s.intena c = true
    · simp [hon]
    · have hoff : (decide (s.noff c - 1 = 0) && s.intena c) = false := by
        rw [← Bool.not_eq_true]
        simpa using hon
      rw [hoff, ← hsie, update_eq_self]
      simp only [hon, if_false]
  refine h.change (c := c) (fun d hd => ⟨update_of_ne hd .., rfl, update_of_ne hd .., rfl,
    (congrFun hnew d).trans (update_of_ne hd ..), update_of_ne hd .., rfl, rfl⟩)
    ⟨?_, fun _ => ?_, ?_, fun h0 => ⟨(congrFun hnew c).trans ?_, hint⟩,
      fun h0 => (congrFun hnew c).trans ?_, hc.trapped⟩ ?_ rfl h.cpu
  · show SpinPc.knows (s.crit c) (update s.pc c .code c)
    rw [update_self]
    trivial
  · have h0 : (SpinPc.code : SpinPc L).depth = 0 := rfl
    simp only [SpinSys.goto, update_self]
    omega
  · show (s.crit c).card ≤ update s.noff c (s.noff c - 1) c
    rw [update_self]
    omega
  · simp only [SpinSys.goto, update_self] at h0
    have hne : s.noff c - 1 ≠ 0 := by omega
    simp [hne]
  · simp only [SpinSys.goto, update_self] at h0
    rw [update_self, h0, hint]
    rfl
  · show (↑(s.crit c ∪ (update s.pc c .code c).inner) : Set L) = ↑(s.crit c ∪ (s.pc c).inner)
    rw [update_self, hinner]
    rfl

/-- A lock passes between the code of a CPU and its own. -/
theorem Ok.pass (h : Ok s u) {p : SpinPc L} {crit : Finset L} {w : Option C}
    (hheld : crit ∪ p.inner = s.crit c ∪ (s.pc c).inner) (hknows : p.knows crit)
    (hpc : s.pc c ≠ .panic) (hdepth : crit.card + p.depth = (s.crit c).card + (s.pc c).depth)
    (hw : ∀ d, w = some d ↔ l ∈ update s.crit c crit d)
    (hrest : ∀ x, x ≠ l → (x ∈ crit ↔ x ∈ s.crit c)) :
    Ok { s with
      cpu := update s.cpu l w
      pc := update s.pc c p
      crit := update s.crit c crit } u := by
  have hc := h.each c
  have hnoff := hc.depth hpc
  refine h.change (c := c)
    (fun d hd => ⟨update_of_ne hd .., update_of_ne hd .., rfl, rfl, rfl, rfl, rfl, rfl⟩)
    ⟨?_, fun _ => ?_, ?_, hc.off, hc.restored, hc.trapped⟩ ?_ rfl fun x d => ?_
  · show SpinPc.knows (update s.crit c crit c) (update s.pc c p c)
    rwa [update_self, update_self]
  · show s.noff c = (update s.crit c crit c).card + (update s.pc c p c).depth + s.extra c
    rw [update_self, update_self, hnoff]
    omega
  · show (update s.crit c crit c).card ≤ s.noff c
    rw [update_self]
    omega
  · show (↑(update s.crit c crit c ∪ (update s.pc c p c).inner) : Set L) =
      ↑(s.crit c ∪ (s.pc c).inner)
    rw [update_self, update_self, hheld]
  · show update s.cpu l w x = some d ↔ x ∈ update s.crit c crit d
    by_cases hx : x = l
    · rw [hx, update_self, hw]
    · rw [update_of_ne hx, h.cpu]
      by_cases hd : d = c
      · rw [hd, update_self, hrest x hx]
      · rw [update_of_ne hd]

/-- The interrupts of a CPU that has no lock. -/
theorem Ok.interrupts (h : Ok s u) {b x y : Bool} (h0 : s.noff c = 0)
    (hb : b = (x && !y)) (ht : y = true → x = true) :
    Ok { s with
      sie := update s.sie c b
      base := update s.base c x
      trapped := update s.trapped c y } u := by
  have hc := h.each c
  refine h.change (c := c)
    (fun d hd => ⟨rfl, rfl, rfl, rfl, update_of_ne hd .., rfl, update_of_ne hd .., update_of_ne hd ..⟩)
    ⟨hc.knows, hc.depth, hc.least, fun hpos => absurd hpos (by simp [h0]), fun _ => ?_, fun htrap => ?_⟩
    rfl rfl h.cpu
  · show update s.sie c b c = (update s.base c x c && !update s.trapped c y c)
    rw [update_self, update_self, update_self, hb]
  · show update s.base c x c = true
    have htrap' : update s.trapped c y c = true := htrap
    rw [update_self] at htrap' ⊢
    exact ht htrap'

/-- The swaps, after which the table is another. -/
theorem Ok.swap (h : Ok s u) {p : SpinPc L} {b : Bool} {w : Option C} (hb : b = w.isSome)
    (howns : Owns (update u l w) { s with pc := update s.pc c p }.held)
    (hknows : p.knows (s.crit c)) (hpc : s.pc c ≠ .panic)
    (hdepth : p.depth = (s.pc c).depth) :
    Ok { s with
      locked := update s.locked l b
      pc := update s.pc c p } (update u l w) := by
  have hc := h.each c
  refine ⟨howns, fun x => ?_, h.cpu, fun d => ?_⟩
  · show update s.locked l b x = (update u l w x).isSome
    by_cases hx : x = l
    · rw [hx, update_self, update_self, hb]
    · rw [update_of_ne hx, update_of_ne hx, h.locked]
  · by_cases hd : d = c
    · subst hd
      refine ⟨?_, fun _ => ?_, hc.least, hc.off, hc.restored, hc.trapped⟩
      · show SpinPc.knows (s.crit d) (update s.pc d p d)
        rwa [update_self]
      · show s.noff d = (s.crit d).card + (update s.pc d p d).depth + s.extra d
        rw [update_self, hdepth, hc.depth hpc]
    · exact (h.each d).congr ⟨update_of_ne hd .., rfl, rfl, rfl, rfl, rfl, rfl, rfl⟩

/-! ## The steps -/

/-- A step is one of the table, or none. -/
theorem simulates_table : SimulatesVis visible Ok (Step (L := L) (C := C)) TableStep := by
  intro s u e t h hs
  cases hs with
  | @acquire c l hpc =>
    have hok := h.pushOff (p := .acquire l) (k := 0) hpc rfl trivial rfl
    rwa [Nat.add_zero, update_eq_self] at hok
  | @check c l hpc =>
    show Ok (if s.holding c l then s.goto c .panic else s.goto c (.spin l)) u
    split_ifs with hl
    · exact h.goto (by rw [hpc]; rfl) trivial (fun hbad => absurd rfl hbad)
    · exact h.goto (by rw [hpc]; rfl) (fun hmem => hl (h.holding_iff.2 hmem))
        fun _ => ⟨by rw [hpc]; nofun, by rw [hpc]; rfl⟩
  | @spin c l hpc hl => exact h
  | @take c l hpc hl =>
    have hfree : u l = none := by
      have := h.locked l
      rw [hl] at this
      exact Option.not_isSome_iff_eq_none.1 (by rw [← this]; nofun)
    have hknows := (h.each c).knows
    rw [hpc] at hknows
    refine ⟨_, .acquire hfree, h.swap rfl (h.owns.acquire hfree ?_ fun d hd => ?_) hknows
      (by rw [hpc]; nofun) (by rw [hpc]; rfl)⟩
    · show (↑(s.crit c ∪ (update s.pc c (.acquired l) c).inner) : Set L) =
        insert l ↑(s.crit c ∪ (s.pc c).inner)
      rw [update_self, hpc]
      simp [SpinPc.inner]
    · show (↑(s.crit d ∪ (update s.pc c (.acquired l) d).inner) : Set L) = _
      rw [update_of_ne hd]
      rfl
  | @own c l hpc =>
    have hknows := (h.each c).knows
    rw [hpc] at hknows
    have hmem : l ∈ s.held c := by
      show l ∈ (↑(s.crit c ∪ (s.pc c).inner) : Set L)
      simp [hpc, SpinPc.inner]
    refine h.pass (p := .code) ?_ trivial (by rw [hpc]; nofun) ?_ (fun d => ?_) fun x hx => ?_
    · rw [hpc]
      show insert l (s.crit c) ∪ ∅ = s.crit c ∪ {l}
      rw [Finset.union_empty, Finset.insert_eq, Finset.union_comm]
    · rw [Finset.card_insert_of_notMem hknows, hpc]
      rfl
    · by_cases hd : d = c
      · simp [hd]
      · rw [update_of_ne hd, Option.some.injEq]
        exact ⟨fun hcd => absurd hcd.symm hd, fun hl => h.owns.unique hmem (mem_held_of_crit hl)⟩
    · rw [Finset.mem_insert, or_iff_right hx]
  | @release c l hpc =>
    show Ok (if s.holding c l then s.goto c (.release l) else s.goto c .panic) u
    split_ifs with hl
    · exact h.goto (by rw [hpc]; rfl) (h.holding_iff.1 hl)
        fun _ => ⟨by rw [hpc]; nofun, by rw [hpc]; rfl⟩
    · exact h.goto (by rw [hpc]; rfl) trivial (fun hbad => absurd rfl hbad)
  | @clear c l hpc =>
    have hknows : l ∈ s.crit c := by
      have := (h.each c).knows
      rwa [hpc] at this
    refine h.pass (p := .cleared l) ?_ (Finset.notMem_erase _ _) (by rw [hpc]; nofun) ?_
      (fun d => ?_) fun x hx => ?_
    · rw [hpc]
      show (s.crit c).erase l ∪ {l} = s.crit c ∪ ∅
      rw [Finset.union_comm, ← Finset.insert_eq, Finset.insert_erase hknows, Finset.union_empty]
    · rw [hpc]
      exact Finset.card_erase_add_one hknows
    · by_cases hd : d = c
      · simp [hd]
      · rw [update_of_ne hd]
        exact ⟨nofun, fun hl =>
          absurd (h.owns.unique (mem_held_of_crit hl) (mem_held_of_crit hknows)) hd⟩
    · rw [Finset.mem_erase, and_iff_right hx]
  | @drop c l hpc =>
    have hknows := (h.each c).knows
    rw [hpc] at hknows
    have hmem : l ∈ s.held c := by
      show l ∈ (↑(s.crit c ∪ (s.pc c).inner) : Set L)
      simp [hpc, SpinPc.inner]
    refine ⟨_, .release ((h.owns l c).2 hmem), h.swap rfl (h.owns.release hmem ?_ fun d hd => ?_)
      trivial (by rw [hpc]; nofun) (by rw [hpc]; rfl)⟩
    · show (↑(s.crit c ∪ (update s.pc c (.released l) c).inner) : Set L) =
        ↑(s.crit c ∪ (s.pc c).inner) \ {l}
      rw [update_self, hpc]
      have hl : l ∉ s.crit c := hknows
      ext x
      simp only [SpinPc.inner, Finset.union_empty, Finset.mem_coe, Finset.coe_union,
        Finset.coe_singleton, Set.union_singleton, Set.mem_sdiff, Set.mem_insert_iff,
        Set.mem_singleton_iff]
      grind
    · show (↑(s.crit d ∪ (update s.pc c (.released l) d).inner) : Set L) = _
      rw [update_of_ne hd]
      rfl
  | @finish c l hpc =>
    have hok := h.popOff (c := c) (k := 0) (by rw [hpc]; rfl) (by rw [hpc]; nofun)
      (by rw [hpc]; rfl) (Nat.zero_le _)
    rw [Nat.sub_zero] at hok
    have hself : update s.extra c (s.extra c) = s.extra := update_eq_self ..
    have hextra : ((s.goto c .code).popOff c).extra = s.extra := popOff_extra
    rw [hself, ← hextra] at hok
    exact hok
  | @pushOff c hpc =>
    have hok := h.pushOff (p := .code) (k := 1) hpc rfl trivial rfl
    have hself : (s.pushOff c).goto c .code = s.pushOff c := by
      unfold goto
      rw [← hpc]
      exact congrArg (fun pc => { s.pushOff c with pc := pc }) (update_eq_self c s.pc)
    rwa [hself] at hok
  | @popOff c hpc hx =>
    have hok := h.popOff (c := c) (k := 1) (by rw [hpc]; rfl) (by rw [hpc]; nofun)
      (by rw [hpc]; rfl) hx
    have hself : s.goto c .code = s := by
      unfold goto
      rw [← hpc, update_eq_self]
    rwa [hself] at hok
  | @intr c b hpc h0 ht =>
    have hok := h.interrupts (b := b) (x := b) (y := s.trapped c) h0 (by simp [ht])
      (by simp [ht])
    rwa [update_eq_self] at hok
  | @trap c hpc hsie =>
    have hc := h.each c
    have h0 : s.noff c = 0 := by
      by_contra hne
      have hoff := (hc.off (Nat.pos_of_ne_zero hne)).1
      rw [hsie] at hoff
      nomatch hoff
    have hbase : s.base c = true := by
      have hout := hc.restored h0
      rw [hsie, outside] at hout
      exact ((Bool.and_eq_true _ _).mp hout.symm).1
    have hok := h.interrupts (b := false) (x := s.base c) (y := true) h0 (by simp)
      fun _ => hbase
    rwa [update_eq_self] at hok
  | @sret c hpc h0 ht =>
    have hbase := (h.each c).trapped ht
    have hok := h.interrupts (b := true) (x := s.base c) (y := false) h0 (by simp [hbase])
      nofun
    rwa [update_eq_self] at hok

theorem Init.ok (h : Init s) : Ok s fun _ => none := by
  refine ⟨fun l c => ?_, fun l => h.locked l, fun l c => ?_, fun c => ?_⟩
  · show none = some c ↔ l ∈ (↑(s.crit c ∪ (s.pc c).inner) : Set L)
    simp [h.crit c, h.pc c, SpinPc.inner]
  · simp [h.cpu l, h.crit c]
  · refine ⟨?_, fun _ => ?_, ?_, fun hpos => ?_, fun _ => ?_, fun htrap => ?_⟩
    · rw [h.pc c]
      trivial
    · simp [h.noff c, h.crit c, h.extra c, h.pc c, SpinPc.depth]
    · simp [h.crit c]
    · rw [h.noff c] at hpos
      exact absurd hpos (lt_irrefl 0)
    · unfold outside
      simp [h.base c, h.trapped c]
    · rw [h.trapped c] at htrap
      nomatch htrap

/-- What the locks of the table `u` are good for. -/
structure Safe (s : SpinSys L C) (u : L → Option C) : Prop where
  locked : ∀ l, s.locked l = (u l).isSome
  inside : ∀ l c, l ∈ s.crit c → u l = some c
  holding : ∀ l c, s.holding c l = true ↔ l ∈ s.crit c
  /-- No CPU waits for itself. -/
  spins : ∀ l c, s.pc c = .spin l → u l ≠ some c
  off : ∀ l c, u l = some c → s.sie c = false
  restored : ∀ c, s.pc c = .code → s.crit c = ∅ → s.extra c = 0 → s.sie c = s.outside c
  /-- Only a wrong call panics. -/
  panics : ∀ e t c, Step s e t → s.pc c ≠ .panic → t.pc c = .panic →
    ∃ l, e = .check c l ∧ l ∈ s.crit c ∨ e = .release c l ∧ l ∉ s.crit c

theorem CpuOk.noff_pos (h : s.CpuOk c) (hl : l ∈ s.held c) : 0 < s.noff c := by
  have hl' : l ∈ s.crit c ∪ (s.pc c).inner := hl
  rcases Finset.mem_union.1 hl' with hcrit | hinner
  · exact (Finset.card_pos.2 ⟨l, hcrit⟩).trans_le h.least
  · have hdepth := h.depth (by rintro hp; rw [hp] at hinner; exact absurd hinner (Finset.notMem_empty l))
    have hone : (s.pc c).depth = 1 := by
      cases hp : s.pc c
      all_goals rw [hp] at hinner
      case acquired | cleared => rfl
      all_goals exact absurd hinner (Finset.notMem_empty l)
    omega

theorem panic_of_update {pc : SpinPc L} (hpc : s.pc d ≠ .panic)
    (hp : update s.pc c pc d = .panic) : d = c ∧ pc = .panic := by
  by_cases hd : d = c
  · rw [hd, update_self] at hp
    exact ⟨hd, hp⟩
  · rw [update_of_ne hd] at hp
    exact absurd hp hpc

theorem Ok.panics (h : Ok s u) (hst : Step s e t) (hpc : s.pc c ≠ .panic)
    (hpanic : t.pc c = .panic) :
    ∃ l, e = .check c l ∧ l ∈ s.crit c ∨ e = .release c l ∧ l ∉ s.crit c := by
  -- a step to another place of the code does not panic
  have hgoto : ∀ {d : C} {pc : SpinPc L}, pc ≠ .panic → update s.pc d pc c ≠ .panic :=
    fun hne hp => hne (panic_of_update hpc hp).2
  cases hst with
  | @acquire d l hd => exact absurd hpanic (hgoto nofun)
  | @check d l hd =>
    split_ifs at hpanic with hl
    · obtain ⟨rfl, -⟩ := panic_of_update hpc hpanic
      exact ⟨l, .inl ⟨rfl, h.holding_iff.1 hl⟩⟩
    · exact absurd hpanic (hgoto nofun)
  | @spin d l hd hl => exact absurd hpanic hpc
  | @take d l hd hl => exact absurd hpanic (hgoto nofun)
  | @own d l hd => exact absurd hpanic (hgoto nofun)
  | @release d l hd =>
    split_ifs at hpanic with hl
    · exact absurd hpanic (hgoto nofun)
    · obtain ⟨rfl, -⟩ := panic_of_update hpc hpanic
      exact ⟨l, .inr ⟨rfl, fun hmem => hl (h.holding_iff.2 hmem)⟩⟩
  | @clear d l hd => exact absurd hpanic (hgoto nofun)
  | @drop d l hd => exact absurd hpanic (hgoto nofun)
  | @finish d l hd =>
    have hnoff := (h.each d).depth (by rw [hd]; nofun)
    rw [hd] at hnoff
    have hone : (SpinPc.released l).depth = 1 := rfl
    have hpos : 0 < s.noff d := by omega
    have heq : (s.goto d .code).popOff d = _ := popOff_eq ((h.each d).off hpos).1 hpos
    rw [heq] at hpanic
    exact absurd hpanic (hgoto nofun)
  | @pushOff d hd => exact absurd hpanic hpc
  | @popOff d hd hx =>
    have hnoff := (h.each d).depth (by rw [hd]; nofun)
    have hpos : 0 < s.noff d := by omega
    rw [popOff_eq ((h.each d).off hpos).1 hpos] at hpanic
    exact absurd hpanic hpc
  | @intr d b hd h0 ht => exact absurd hpanic hpc
  | @trap d hd hs => exact absurd hpanic hpc
  | @sret d hd h0 ht => exact absurd hpanic hpc

theorem Ok.safe (h : Ok s u) : Safe s u where
  locked := h.locked
  inside l c hl := (h.owns l c).2 (mem_held_of_crit hl)
  holding _ _ := h.holding_iff
  spins l c hpc hl := by
    have hknows := (h.each c).knows
    have hmem := (h.owns l c).1 hl
    rw [hpc] at hknows
    have hmem' : l ∈ s.crit c ∪ (s.pc c).inner := hmem
    rw [hpc] at hmem'
    exact hknows (by simpa [SpinPc.inner] using hmem')
  off l c hl := by
    have hc := h.each c
    exact (hc.off (hc.noff_pos ((h.owns l c).1 hl))).1
  restored c hpc hcrit hextra := by
    have hc := h.each c
    apply hc.restored
    rw [hc.depth (by rw [hpc]; nofun), hpc, hcrit, hextra]
    rfl
  panics _ _ _ := h.panics

/-- In every run, the calls of the CPUs take and give up the locks of a table, one after
another, and the locks guard what they should. -/
theorem spin_refines_table {es : List (SpinEvent L C)} (h0 : Init s) (hr : Run Step s es t) :
    ∃ u, Run TableStep (fun _ => none) (es.filterMap visible) u ∧ Safe t u := by
  obtain ⟨u, hu, hok⟩ := hr.simulate_vis simulates_table h0.ok
  exact ⟨u, hu, hok.safe⟩

/-- Two CPUs and one lock, at the start. -/
def idle : SpinSys Unit Bool where
  locked _ := false
  cpu _ := none
  noff _ := 0
  intena _ := false
  sie _ := true
  pc _ := .code
  trapped _ := false
  crit _ := ∅
  extra _ := 0
  base _ := true

theorem idle_init : idle.Init := by
  constructor
  all_goals intro _; rfl

/-- One CPU has the lock, and the other spins. -/
theorem spin_refines_table_idle : ∃ t : SpinSys Unit Bool, t.pc false = .spin () ∧
    ∃ u, Run TableStep (fun _ => none) [.acquire true ()] u ∧ Safe t u := by
  have h₀ : Run Step idle [] idle := .nil
  have h₁ := h₀.snoc (.acquire (c := true) (l := ()) rfl)
  have h₂ := h₁.snoc (.check (c := true) (l := ()) rfl)
  have h₃ := h₂.snoc (.take (c := true) (l := ()) rfl rfl)
  have h₄ := h₃.snoc (.own (c := true) (l := ()) rfl)
  have h₅ := h₄.snoc (.acquire (c := false) (l := ()) rfl)
  have hr := h₅.snoc (.check (c := false) (l := ()) rfl)
  exact ⟨_, rfl, spin_refines_table idle_init hr⟩

end SpinSys

end CowPbs
