import Mathlib
import CowPbs.WaitExit

/-!
# Parents and sleepers

Two invariants of `fork`, `exit` and `wait` beside each other. A process has a parent that
lives : whoever exits has given its children to `init`, slot by slot, before it becomes a
ZOMBIE (`Family`). And no wakeup is lost : a process that is bound to sleep in `wait` has
seen no ZOMBIE child, and an exiting child passes its parent's slot in `wakeup` before it
becomes a ZOMBIE, while `wait_lock` keeps the parent from going back to sleep (`Wakes`).
-/

set_option linter.unusedSectionVars false

open Function Transition

namespace CowPbs

namespace WaitSys

variable {s t : WaitSys} {e : WaitEvent}

/-! ## Parents -/

theorem Step.initproc (hs : s.Step e t) : t.sys.initproc = s.sys.initproc := by
  cases hs
  case fork p i o uvmcopy u hpc hi hu => exact (Section.alloc_run hu).2.2.1
  case wakeInit => unfold wakeAt; split_ifs <;> rfl
  case wakeParent => unfold wakeAt; split_ifs <;> rfl
  all_goals rfl

/-- `init` lives, a parent lives, every published process but `init` has a parent, and an
exiting process gives its children away slot by slot. -/
structure Family (s : WaitSys) : Prop where
  initLive : (s.state s.sys.initproc).Live
  initStays : (s.pc s.sys.initproc).exiting = false
  live : ∀ k q, s.parent k = some q → (s.state q).Live
  hasParent : ∀ k, k ≠ s.sys.initproc → s.state k ≠ .unused → s.state k ≠ .used →
    s.parent k ≠ none
  adopted : ∀ p np, s.pc p = .adopted np → s.parent np = some p
  disowned : ∀ p i : Slot, i.val < (s.pc p).disowned → s.parent i ≠ some p

namespace Family

theorem boot (h : s.Boot) : Family s := by
  obtain ⟨⟨ticks, tf, pt, hs⟩, hl, hpc⟩ := h
  have hpar : ∀ k, s.parent k = none := by
    intro k
    rw [parent, hs]
    by_cases h0 : k = 0
    · subst h0
      rfl
    · simp [ProcSys.boot, h0, Proc.zero]
  have hinit : s.sys.initproc = 0 := by rw [hs]; rfl
  refine ⟨?_, ?_, fun k q hk => ?_, fun k hk hu => ?_, fun p np hp => ?_, fun p i _ => ?_⟩
  · rw [hinit, state, hs]
    exact .inl rfl
  · rw [hpc]
    rfl
  · rw [hpar] at hk
    cases hk
  · rw [hinit] at hk
    refine (hu ?_).elim
    rw [state, hs]
    simp [ProcSys.boot, hk, Proc.zero]
  · rw [hpc] at hp
    cases hp
  · rw [hpar]
    rintro ⟨⟩

/-- Only the process itself starts to exit, and `init` does not. -/
theorem exiting_inv (hs : s.Step e t) {p : Slot} (hp : (t.pc p).exiting = true) :
    (s.pc p).exiting = true ∨ p ≠ s.sys.initproc := by
  cases hs
  case fork p i o uvmcopy u hpc hi hu => grind [WaitPc.exiting]
  all_goals grind [WaitPc.exiting]

theorem init_step (hI : Inv s) (h : Family s) (hs : s.Step e t) :
    (t.state t.sys.initproc).Live ∧ (t.pc t.sys.initproc).exiting = false := by
  have hne := h.initStays
  rw [hs.initproc]
  constructor
  · rcases (step_slot hI hs s.sys.initproc).lives h.initLive with hl | ⟨st, hp⟩
    · exact hl
    · rw [hp] at hne
      cases hne
  · by_contra hex
    rcases exiting_inv hs (by simpa using hex) with hex' | hne'
    · rw [hne] at hex'
      cases hex'
    · exact hne' rfl

/-- A process about to become a ZOMBIE has no children. -/
theorem childless (h : Family s) {p : Slot} {status : Int32}
    (hp : s.pc p = .wakeParent status NPROC) (k : Slot) : s.parent k ≠ some p :=
  h.disowned p k (by rw [hp]; exact k.isLt)

theorem live_step (hI : Inv s) (h : Family s) (hs : s.Step e t) {k q : Slot}
    (hk : t.parent k = some q) : (t.state q).Live := by
  have keep : ∀ {k}, s.parent k = some q → (t.state q).Live := by
    intro k hk
    rcases (step_slot hI hs q).lives (h.live k q hk) with hl | ⟨st, hq⟩
    · exact hl
    · exact (h.childless hq k hk).elim
  rcases (step_slot hI hs k).parent with hpar | ⟨p, hp, hrun, -, hpar, -⟩ |
    ⟨p, st, -, -, -, hpar, -⟩ | ⟨hpar, -⟩ <;> rw [hpar] at hk
  · exact keep hk
  · obtain rfl := Option.some.inj hk
    rcases (step_slot hI hs p).lives (.inr (.inl hrun)) with hl | ⟨st, hq⟩
    · exact hl
    · rw [hp] at hq
      cases hq
  · obtain rfl := Option.some.inj hk
    rw [← hs.initproc]
    exact (init_step hI h hs).1
  · cases hk

theorem hasParent_step (hI : Inv s) (h : Family s) (hs : s.Step e t) {k : Slot}
    (hk : k ≠ t.sys.initproc) (hu : t.state k ≠ .unused) (hu' : t.state k ≠ .used) :
    t.parent k ≠ none := by
  rw [hs.initproc] at hk
  have old : s.state k ≠ .unused → s.state k ≠ .used → s.parent k ≠ none := h.hasParent k hk
  cases step_slot hI hs k with
  | keep hst hsame =>
    rw [parent, hsame.parent]
    exact old (hst ▸ hu) (hst ▸ hu')
  | live hst ht hsame =>
    rw [parent, hsame.parent]
    refine old ?_ ?_ <;> rintro h0 <;> rw [h0] at hst <;> simp [ProcState.Live] at hst
  | publish p hp hp' hst ht hsame =>
    rw [parent, hsame.parent]
    intro h0
    cases h0.symm.trans (h.adopted p k hp)
  | zombie st hp hp' hst ht hpar =>
    rw [hpar]
    exact old (by simp [hst]) (by simp [hst])
  | adopt p hp hp' hrun hl ht hpar => simp [hpar]
  | reparent p st hp hp' hpar ht => simp [ht]
  | born p hp hp' hst ht => exact (hu' ht).elim
  | unborn hst ht => exact (hu ht).elim
  | free p pid st he hp hst hpar ht => exact (hu ht).elim

theorem adopted_inv (hs : s.Step e t) {p np : Slot} (hp : t.pc p = .adopted np) :
    s.pc p = .adopted np ∨ t.parent np = some p := by
  cases hs
  case fork q i o uvmcopy u hpc hi hu => grind
  case dispatch q hl hq => cases hpc : s.pc q <;> grind [WaitPc.resume]
  all_goals grind

theorem adopted_step (hI : Inv s) (h : Family s) (hs : s.Step e t) {p np : Slot}
    (hp : t.pc p = .adopted np) : t.parent np = some p := by
  rcases adopted_inv hs hp with hp' | hpar
  · have hpar := h.adopted p np hp'
    have hchild : (s.pc p).child = some np := by rw [hp']; rfl
    rcases (step_slot hI hs np).parent with heq | ⟨q, hq, -, -, -, -⟩ | ⟨q, st, hq, -, hq', -, -⟩ |
      ⟨-, hu⟩
    · rw [heq, hpar]
    · obtain rfl := hI.childUnique p q np hchild (by rw [hq]; rfl)
      rw [hp'] at hq
      cases hq
    · obtain rfl := Option.some.inj (hpar.symm.trans hq')
      rw [hp'] at hq
      cases hq
    · cases hu.symm.trans (hI.child_step hs (by rw [hp]; rfl))
  · exact hpar

theorem disowned_inv (hs : s.Step e t) {p i : Slot} (hi : i.val < (t.pc p).disowned) :
    i.val < (s.pc p).disowned ∨ ∃ status, s.pc p = .reparent status i ∧
      (s.parent i ≠ some p ∨ t.parent i = some s.sys.initproc) := by
  cases hs
  case fork q j o uvmcopy u hpc hj hu => grind [WaitPc.disowned]
  case reparentChild q k status hpc hk =>
    by_cases hp : p = q ∧ i = k
    · obtain ⟨rfl, rfl⟩ := hp
      exact .inr ⟨status, hpc, .inr (by simp [parent])⟩
    · grind [WaitPc.disowned]
  case reparentSkip q k status hpc hk =>
    by_cases hp : p = q ∧ i = k
    · obtain ⟨rfl, rfl⟩ := hp
      exact .inr ⟨status, hpc, .inl hk⟩
    · grind [WaitPc.disowned]
  all_goals grind [WaitPc.disowned]

theorem exiting_of_disowned {pc : WaitPc} {n : ℕ} (h : n < pc.disowned) : pc.exiting = true := by
  cases pc <;> simp_all [WaitPc.disowned, WaitPc.exiting]

theorem disowned_step (hI : Inv s) (h : Family s) (hs : s.Step e t) {p i : Slot}
    (hi : i.val < (t.pc p).disowned) : t.parent i ≠ some p := by
  intro hpar
  have hinit : p ≠ s.sys.initproc := by
    rintro rfl
    have := (init_step hI h hs).2
    rw [hs.initproc, exiting_of_disowned hi] at this
    cases this
  have old : s.parent i ≠ some p ∧ ∀ np, s.pc p ≠ .forked np := by
    rcases disowned_inv hs hi with hlt | ⟨st, hp, hne | hne⟩
    · refine ⟨h.disowned p i hlt, fun np hp => ?_⟩
      rw [hp] at hlt
      cases hlt
    · refine ⟨hne, fun np hp' => ?_⟩
      cases hp.symm.trans hp'
    · exact (hinit (Option.some.inj (hpar.symm.trans hne))).elim
  rcases (step_slot hI hs i).parent with heq | ⟨q, hq, -, -, heq, -⟩ | ⟨q, st, -, -, -, heq, -⟩ |
    ⟨heq, -⟩ <;> rw [heq] at hpar
  · exact old.1 hpar
  · obtain rfl := Option.some.inj hpar
    exact old.2 i hq
  · exact hinit (Option.some.inj hpar).symm
  · cases hpar

theorem step (hI : Inv s) (h : Family s) (hs : s.Step e t) : Family t where
  initLive := (init_step hI h hs).1
  initStays := (init_step hI h hs).2
  live _ _ := live_step hI h hs
  hasParent _ := hasParent_step hI h hs
  adopted _ _ := adopted_step hI h hs
  disowned _ _ := disowned_step hI h hs

end Family

/-! ## Sleeping parents -/

/-- The process is in `wait`, asleep or bound to be : it has given up `wait_lock`, and only
a wakeup brings it back. -/
def Committed (s : WaitSys) (p : Slot) : Prop :=
  (∃ w, s.pc p = .sleepUnlocked w) ∨ (∃ w, s.pc p = .asleep w) ∧ s.state p = .sleeping

/-- The exiting process `p` is past slot `q` in `wakeup(p->parent)`. -/
def PastParent (s : WaitSys) (p q : Slot) : Prop :=
  (∃ status j, s.pc p = .wakeParent status j ∧ q.val < j) ∨ s.pc p = .zombie

/-- A process asleep in `wait` sleeps on itself, a process that has scanned the table has
no ZOMBIE child there, a wakeup that has passed a process leaves it awake, and a process
bound to sleep has no ZOMBIE child, except for `init` while `wakeup(initproc)` is on its
way. -/
structure Wakes (s : WaitSys) : Prop where
  chan : ∀ p w, s.pc p = .asleep w → s.state p = .sleeping →
    (s.sys.proc p).chan = some (.proc p)
  scanned : ∀ p j : Slot, j.val < (s.pc p).scanned → s.parent j = some p → s.state j ≠ .zombie
  wokenInit : ∀ p status k j, s.pc p = .wakeInit status k j → s.sys.initproc.val < j →
    ¬s.Committed s.sys.initproc
  wokenParent : ∀ p q, s.PastParent p q → s.parent p = some q → ¬s.Committed q
  sleepers : ∀ p k, s.Committed p → s.parent k = some p → s.state k = .zombie →
    p = s.sys.initproc ∧ ∃ q status i j, s.pc q = .wakeInit status i j ∧ j ≤ s.sys.initproc.val

namespace Wakes

theorem chan_step (h : Wakes s) (hs : s.Step e t) {p : Slot} {w : WaitArgs}
    (hp : t.pc p = .asleep w) (hsl : t.state p = .sleeping) :
    (t.sys.proc p).chan = some (.proc p) := by
  have hchan := h.chan
  cases hs
  case fork q i o uvmcopy u hpc hi hu =>
    obtain ⟨hq, hi, -, -, hj, hP⟩ := Section.alloc_run hu
    grind
  case dispatch q hl hq => grind [Proc.dispatch]
  all_goals grind [wakeAt_proc, Proc.wakeup, Proc.sleep, Proc.freeproc, Proc.kill, Proc.exit,
    Proc.yield]

/-- A process commits itself to sleep when it gives up `wait_lock`. -/
theorem committed_inv (hs : s.Step e t) {p : Slot} (hp : t.Committed p) :
    s.Committed p ∨ ∃ w, s.pc p = .sleepLocked w := by
  unfold Committed at *
  cases hs
  case fork q i o uvmcopy u hpc hi hu =>
    obtain ⟨hq, hi, -, -, hj, hP⟩ := Section.alloc_run hu
    grind
  case dispatch q hl hq => grind [Proc.dispatch, WaitPc.resume_cases]
  all_goals grind [wakeAt_proc, Proc.wakeup, Proc.sleep, Proc.freeproc, Proc.kill, Proc.exit,
    Proc.yield]

theorem not_committed {p : Slot} (hp : (s.pc p).holdsWait = true) : ¬s.Committed p := by
  rintro (⟨w, h⟩ | ⟨⟨w, h⟩, -⟩) <;> rw [h] at hp <;> cases hp

/-- A process that is awake stays so while another one holds `wait_lock`. -/
theorem awake_step (hI : Inv s) (hs : s.Step e t) {p q : Slot} (hp : (s.pc p).holdsWait = true)
    (hpl : ∀ w, s.pc p ≠ .sleepLocked w) (hq : ¬s.Committed q) : ¬t.Committed q := by
  intro hq'
  rcases committed_inv hs hq' with h | ⟨w, h⟩
  · exact hq h
  · obtain rfl := hI.holder_unique hp (by rw [h]; rfl)
    exact hpl w h

/-- A wakeup of `j` leaves it awake. -/
theorem awake_of_wakeAt (h : Wakes s) {p j : Slot} {pc : WaitPc} (hj : s.Unlocked j)
    (hp : (s.pc p).holdsWait = true) (hpc : pc.holdsWait = true) :
    ¬((s.wakeAt p j (some (.proc j))).goto p pc).Committed j := by
  by_cases hjp : j = p
  · subst hjp
    exact not_committed (by simpa using hpc)
  · rintro (⟨w, hw⟩ | ⟨⟨w, hw⟩, hsl⟩)
    · rw [goto_pc, if_neg hjp, wakeAt_pc] at hw
      rw [Unlocked, hw] at hj
      cases hj
    · rw [goto_pc, if_neg hjp, wakeAt_pc] at hw
      have hchan := h.chan j w hw
      rw [state, goto_sys, wakeAt_proc, if_pos ⟨rfl, hjp⟩, Proc.wakeup] at hsl
      split_ifs at hsl with hw'
      exact hw' ⟨hsl, hchan hsl⟩

theorem scanned_inv (hs : s.Step e t) {p j : Slot} (hj : j.val < (t.pc p).scanned) :
    j.val < (s.pc p).scanned ∨
      (s.parent j ≠ some p ∨ s.state j ≠ .zombie) ∧ t.sys = s.sys := by
  cases hs
  case fork q i o uvmcopy u hpc hi hu => grind [WaitPc.scanned]
  case scanSkip q k w kids hpc hk =>
    by_cases hq : p = q ∧ j = k
    · obtain ⟨rfl, rfl⟩ := hq
      exact .inr ⟨.inl hk, rfl⟩
    · grind [WaitPc.scanned]
  case scanChild q k w kids hpc hk hl hz =>
    by_cases hq : p = q ∧ j = k
    · obtain ⟨rfl, rfl⟩ := hq
      exact .inr ⟨.inr hz, rfl⟩
    · grind [WaitPc.scanned]
  all_goals grind [WaitPc.scanned]

theorem holds_of_scanned {pc : WaitPc} {n : ℕ} (h : n < pc.scanned) :
    pc.holdsWait = true ∧ pc.exiting = false := by
  cases pc <;> simp_all [WaitPc.scanned, WaitPc.holdsWait, WaitPc.exiting]

/-- While a process that is not exiting holds `wait_lock`, nobody becomes its ZOMBIE
child. -/
theorem zombie_child_inv (hI : Inv s) (hs : s.Step e t) {p k : Slot}
    (hp : (s.pc p).holdsWait = true) (hx : (s.pc p).exiting = false)
    (hk : t.parent k = some p) (hz : t.state k = .zombie) :
    s.parent k = some p ∧ s.state k = .zombie := by
  constructor
  · rcases (step_slot hI hs k).parent with heq | ⟨q, -, -, hl, -⟩ | ⟨q, st, hq, -⟩ | ⟨heq, -⟩
    · rw [← heq, hk]
    · rw [hI.not_holds hl p] at hp
      cases hp
    · obtain rfl := hI.holder_unique hp (by rw [hq]; rfl)
      rw [hq] at hx
      cases hx
    · rw [heq] at hk
      cases hk
  · rcases (step_slot hI hs k).zombie_inv hz with hz' | ⟨st, hq, -⟩
    · exact hz'
    · obtain rfl := hI.holder_unique hp (by rw [hq]; rfl)
      rw [hq] at hx
      cases hx

theorem scanned_step (hI : Inv s) (h : Wakes s) (hs : s.Step e t) {p j : Slot}
    (hj : j.val < (t.pc p).scanned) (hpar : t.parent j = some p) : t.state j ≠ .zombie := by
  intro hz
  rcases scanned_inv hs hj with hlt | ⟨hne, hsys⟩
  · obtain ⟨hp, hx⟩ := holds_of_scanned hlt
    obtain ⟨hpar', hz'⟩ := zombie_child_inv hI hs hp hx hpar hz
    exact h.scanned p j hlt hpar' hz'
  · rw [parent, hsys] at hpar
    rw [state, hsys] at hz
    rcases hne with hne | hne
    · exact hne hpar
    · exact hne hz

/-- `wakeup(initproc)` comes to slot `j` from the one before it. -/
theorem wakeInit_inv (hs : s.Step e t) {p k : Slot} {status : Int32} {j : ℕ}
    (hp : t.pc p = .wakeInit status k j) :
    s.pc p = .wakeInit status k j ∨ j = 0 ∨ ∃ i : Slot, j = i + 1 ∧
      s.pc p = .wakeInit status k i ∧ s.Unlocked i ∧
      t = (s.wakeAt p i (some (.proc s.sys.initproc))).goto p (.wakeInit status k (i + 1)) := by
  cases hs
  case fork q i o uvmcopy u hpc hi hu => grind
  case dispatch q hl hq => grind [WaitPc.resume_cases]
  case wakeInit q i l st hpc hl =>
    by_cases hq : p = q
    · subst hq
      rw [goto_pc, if_pos rfl] at hp
      obtain ⟨rfl, rfl, rfl⟩ := WaitPc.wakeInit.inj hp
      exact .inr (.inr ⟨l, rfl, hpc, hl, rfl⟩)
    · grind
  all_goals grind

/-- `wakeup(p->parent)` comes to slot `j` from the one before it. -/
theorem wakeParent_inv (hs : s.Step e t) {p : Slot} {status : Int32} {j : ℕ}
    (hp : t.pc p = .wakeParent status j) :
    s.pc p = .wakeParent status j ∨ j = 0 ∨ ∃ i : Slot, j = i + 1 ∧
      s.pc p = .wakeParent status i ∧ s.Unlocked i ∧
      t = (s.wakeAt p i ((s.parent p).map .proc)).goto p (.wakeParent status (i + 1)) := by
  cases hs
  case fork q i o uvmcopy u hpc hi hu => grind
  case dispatch q hl hq => grind [WaitPc.resume_cases]
  case wakeParent q l st hpc hl =>
    by_cases hq : p = q
    · subst hq
      rw [goto_pc, if_pos rfl] at hp
      obtain ⟨rfl, rfl⟩ := WaitPc.wakeParent.inj hp
      exact .inr (.inr ⟨l, rfl, hpc, hl, rfl⟩)
    · grind
  all_goals grind

theorem zombie_pc_inv (hs : s.Step e t) {p : Slot} (hp : t.pc p = .zombie) :
    s.pc p = .zombie ∨ ∃ status, s.pc p = .wakeParent status NPROC := by
  cases hs
  case fork q i o uvmcopy u hpc hi hu => grind
  case dispatch q hl hq => grind [WaitPc.resume_cases]
  all_goals grind

/-- `wakeup(initproc)` goes on at slot `j`. -/
theorem wakeInit_next (hs : s.Step e t) {p k : Slot} {status : Int32} {j : ℕ} (hj : j < NPROC)
    (hp : s.pc p = .wakeInit status k j) :
    t.pc p = .wakeInit status k j ∨ t.pc p = .wakeInit status k (j + 1) := by
  cases hs
  case fork q i o uvmcopy u hpc hi hu => grind
  case dispatch q hl hq => grind [WaitPc.resume_cases]
  all_goals grind [WaitPc.preemptible]

theorem wokenInit_step (hI : Inv s) (h : Wakes s) (hs : s.Step e t) {p k : Slot} {status : Int32}
    {j : ℕ} (hp : t.pc p = .wakeInit status k j) (hj : t.sys.initproc.val < j) :
    ¬t.Committed t.sys.initproc := by
  rw [hs.initproc] at hj ⊢
  rcases wakeInit_inv hs hp with hp' | rfl | ⟨i, rfl, hp', hi, rfl⟩
  · exact awake_step hI hs (by rw [hp']; rfl) (by simp [hp']) (h.wokenInit p status k j hp' hj)
  · cases hj
  · by_cases hii : i = s.sys.initproc
    · subst hii
      exact h.awake_of_wakeAt hi (by rw [hp']; rfl) rfl
    · have := Fin.val_ne_of_ne hii
      exact awake_step hI hs (by rw [hp']; rfl) (by simp [hp'])
        (h.wokenInit p status k i hp' (by omega))

/-- A process that holds `wait_lock` to exit keeps its parent. -/
theorem parent_of_holder (hI : Inv s) (hs : s.Step e t) {p : Slot}
    (hp : (s.pc p).holdsWait = true) (hpr : ∀ status k, s.pc p ≠ .reparent status k)
    (hu : t.state p ≠ .unused) : t.parent p = s.parent p := by
  rcases (step_slot hI hs p).parent with heq | ⟨q, -, -, hl, -⟩ | ⟨q, st, hq, -⟩ | ⟨-, hu'⟩
  · exact heq
  · rw [hI.not_holds hl p] at hp
    cases hp
  · obtain rfl := hI.holder_unique hp (by rw [hq]; rfl)
    exact (hpr st p hq).elim
  · exact (hu hu').elim

theorem wokenParent_step (hI : Inv s) (h : Wakes s) (hs : s.Step e t) {p q : Slot}
    (hp : t.PastParent p q) (hpar : t.parent p = some q) : ¬t.Committed q := by
  have hstate := hI.state_step hs p
  rcases hp with ⟨status, j, hp, hj⟩ | hp
  · have hu : t.state p ≠ .unused := by
      rw [hp] at hstate
      rw [state, show (t.sys.proc p).state = .running from hstate]
      rintro ⟨⟩
    rcases wakeParent_inv hs hp with hp' | rfl | ⟨i, rfl, hp', hi, ht⟩
    · have hpar' := parent_of_holder hI hs (by rw [hp']; rfl) (by simp [hp']) hu
      exact awake_step hI hs (by rw [hp']; rfl) (by simp [hp'])
        (h.wokenParent p q (.inl ⟨status, j, hp', hj⟩) (hpar' ▸ hpar))
    · cases hj
    · have hpar' : s.parent p = some q :=
        parent_of_holder hI hs (by rw [hp']; rfl) (by simp [hp']) hu ▸ hpar
      by_cases hiq : i = q
      · subst hiq
        rw [ht, hpar']
        exact h.awake_of_wakeAt hi (by rw [hp']; rfl) rfl
      · have := Fin.val_ne_of_ne hiq
        exact awake_step hI hs (by rw [hp']; rfl) (by simp [hp'])
          (h.wokenParent p q (.inl ⟨status, i, hp', by omega⟩) hpar')
  · have hu : t.state p ≠ .unused := by
      rw [hp] at hstate
      rw [state, show (t.sys.proc p).state = .zombie from hstate]
      rintro ⟨⟩
    rcases zombie_pc_inv hs hp with hp' | ⟨status, hp'⟩
    · have hpar' := parent_of_holder hI hs (by rw [hp']; rfl) (by simp [hp']) hu
      exact awake_step hI hs (by rw [hp']; rfl) (by simp [hp'])
        (h.wokenParent p q (.inr hp') (hpar' ▸ hpar))
    · have hpar' := parent_of_holder hI hs (by rw [hp']; rfl) (by simp [hp']) hu
      exact awake_step hI hs (by rw [hp']; rfl) (by simp [hp'])
        (h.wokenParent p q (.inl ⟨status, NPROC, hp', q.isLt⟩) (hpar' ▸ hpar))

/-- Of a process bound to sleep before and after the step. -/
theorem sleepers_of_committed (hI : Inv s) (h : Wakes s) (hs : s.Step e t) {p k : Slot}
    (hc : s.Committed p) (hc' : t.Committed p) (hpar : t.parent k = some p)
    (hz : t.state k = .zombie) : p = s.sys.initproc ∧
      ∃ q status i j, t.pc q = .wakeInit status i j ∧ j ≤ s.sys.initproc.val := by
  rcases (step_slot hI hs k).zombie_inv hz with hz' | ⟨status, hk, -, hpar'⟩
  · rcases (step_slot hI hs k).parent with heq | ⟨q, hq, -, -, heq, -⟩ |
      ⟨q, st, -, hq', -, heq, -⟩ | ⟨heq, -⟩
    · obtain ⟨rfl, q, st, i, j, hq, hj⟩ := h.sleepers p k hc (heq ▸ hpar) hz'
      refine ⟨rfl, q, st, i, ?_⟩
      rcases wakeInit_next hs (by omega) hq with hq' | hq'
      · exact ⟨j, hq', hj⟩
      · refine ⟨j + 1, hq', ?_⟩
        -- at slot `init` itself the wakeup would have brought it back
        by_contra hlt
        have hlt' : t.sys.initproc.val < j + 1 := by rw [hs.initproc]; omega
        have := wokenInit_step hI h hs hq' hlt'
        rw [hs.initproc] at this
        exact this hc'
    · obtain rfl := Option.some.inj (heq.symm.trans hpar)
      rcases hc with ⟨w, hw⟩ | ⟨⟨w, hw⟩, -⟩ <;> rw [hq] at hw <;> cases hw
    · obtain rfl := Option.some.inj (heq.symm.trans hpar)
      exact ⟨rfl, q, st, k, 0, hq', Nat.zero_le _⟩
    · rw [heq] at hpar
      cases hpar
  · exact (h.wokenParent k p (.inl ⟨status, NPROC, hk, p.isLt⟩) (hpar' ▸ hpar) hc).elim

theorem sleepers_step (hI : Inv s) (h : Wakes s) (hs : s.Step e t) {p k : Slot}
    (hc : t.Committed p) (hpar : t.parent k = some p) (hz : t.state k = .zombie) :
    p = t.sys.initproc ∧
      ∃ q status i j, t.pc q = .wakeInit status i j ∧ j ≤ t.sys.initproc.val := by
  rw [hs.initproc]
  rcases committed_inv hs hc with hc' | ⟨w, hw⟩
  · exact sleepers_of_committed hI h hs hc' hc hpar hz
  · -- it has just released `wait_lock`, after a scan of the whole table
    obtain ⟨hpar', hz'⟩ := zombie_child_inv hI hs (by rw [hw]; rfl) (by rw [hw]; rfl) hpar hz
    exact (h.scanned p k (by rw [hw]; exact k.isLt) hpar' hz').elim

theorem step (hI : Inv s) (h : Wakes s) (hs : s.Step e t) : Wakes t where
  chan _ _ := chan_step h hs
  scanned _ _ := scanned_step hI h hs
  wokenInit _ _ _ _ := wokenInit_step hI h hs
  wokenParent _ _ := wokenParent_step hI h hs
  sleepers _ _ := sleepers_step hI h hs

theorem boot (h : s.Boot) : Wakes s := by
  obtain ⟨-, -, hpc⟩ := h
  have hc : ∀ p, ¬s.Committed p := by
    rintro p (⟨w, hw⟩ | ⟨⟨w, hw⟩, -⟩) <;> rw [hpc] at hw <;> cases hw
  refine ⟨fun p w hp => ?_, fun p j hj => ?_, fun _ _ _ _ _ _ => hc _, fun _ _ _ _ => hc _,
    fun p k hp => (hc p hp).elim⟩
  · rw [hpc] at hp
    cases hp
  · rw [hpc] at hj
    cases hj

end Wakes

end WaitSys

end CowPbs
