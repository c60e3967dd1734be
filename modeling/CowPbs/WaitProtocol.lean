import Mathlib
import CowPbs.WaitFamily

/-!
# The `exit`/`wait` protocol

What a run of `fork`, `exit`, `wait`, `waitx` and `kill` leaves in its trace : who called
`exit` with which status, who reaped whom, and what `wait` returned (`Log`). Pids are given
in increasing order, so a pid names a process. `exit_wait_protocol` puts this together
with the parents and the sleepers.
-/

set_option linter.unusedSectionVars false

open Function Transition

namespace CowPbs

/-! ## The trace -/

namespace WaitEvent

/-- The pid of a process that calls `exit`. -/
def exitPid : WaitEvent → Option Int32
  | exit pid _ => some pid
  | _ => none

/-- The pid of a process that is reaped. -/
def reapPid : WaitEvent → Option Int32
  | reap _ _ pid _ => some pid
  | _ => none

/-- The pid of a process that `p` reaps. -/
def reapPidBy (p : Slot) : WaitEvent → Option Int32
  | reap q _ pid _ => if q = p then some pid else none
  | _ => none

/-- The pid that a `wait` of `p` returns. -/
def retPidTo (p : Slot) : WaitEvent → Option Int32
  | ret q pid => if q = p then some pid else none
  | _ => none

end WaitEvent

namespace WaitPc

/-- The argument of `exit`. -/
def status : WaitPc → Option Int32
  | exitCall st | reparent st _ | wakeInit st _ _ | wakeParent st _ => some st
  | user | sleeping | forked _ | adopted _ | zombie | exitSched | waitCall _ | scan _ _ _
  | reaped _ | sleep _ | sleepLocked _ | sleepUnlocked _ | asleep _ | kill _ _ => none

/-- The pid of a slot that has been freed, before `wait` returns it. -/
def pending : WaitPc → List Int32
  | reaped pid => [pid]
  | user | sleeping | forked _ | adopted _ | exitCall _ | reparent _ _ | wakeInit _ _ _
  | wakeParent _ _ | zombie | exitSched | waitCall _ | scan _ _ _ | sleep _ | sleepLocked _
  | sleepUnlocked _ | asleep _ | kill _ _ => []

@[simp, grind =] theorem resume_status (pc : WaitPc) : pc.resume.status = pc.status := by
  cases pc <;> rfl

@[simp, grind =] theorem resume_pending (pc : WaitPc) : pc.resume.pending = pc.pending := by
  cases pc <;> rfl

end WaitPc

namespace WaitSys

variable {s t : WaitSys} {e : WaitEvent} {es : List WaitEvent}

/-- The pids of the processes that called `exit`, in order. -/
def exited (es : List WaitEvent) : List Int32 :=
  es.filterMap WaitEvent.exitPid

/-- The pids of the processes that were reaped, in order. -/
def reaped (es : List WaitEvent) : List Int32 :=
  es.filterMap WaitEvent.reapPid

/-- The pids of the processes that `p` reaped, in order. -/
def reapedBy (p : Slot) (es : List WaitEvent) : List Int32 :=
  es.filterMap (WaitEvent.reapPidBy p)

/-- The pids that the `wait`s and `waitx`s of `p` returned, in order. -/
def returnedTo (p : Slot) (es : List WaitEvent) : List Int32 :=
  es.filterMap (WaitEvent.retPidTo p)

/-- A pid is given to one slot at a time and never again, a process exits at most once,
its status is kept until it is reaped, and that happens at most once. -/
structure Log (es : List WaitEvent) (s : WaitSys) : Prop where
  next : ∀ k, s.state k ≠ .unused → (s.sys.proc k).pid.toInt < s.sys.nextpid.toInt
  inj : ∀ i j, s.state i ≠ .unused → s.state j ≠ .unused →
    (s.sys.proc i).pid = (s.sys.proc j).pid → i = j
  exitNext : ∀ pid ∈ exited es, pid.toInt < s.sys.nextpid.toInt
  alive : ∀ k, s.state k ≠ .unused → s.state k ≠ .zombie → (s.pc k).exiting = false →
    (s.sys.proc k).pid ∉ exited es
  exitOnce : (exited es).Nodup
  status : ∀ p st, (s.pc p).status = some st → .exit (s.sys.proc p).pid st ∈ es
  zombie : ∀ k, s.state k = .zombie → .exit (s.sys.proc k).pid (s.sys.proc k).xstate ∈ es
  reapExited : ∀ pid ∈ reaped es, pid ∈ exited es
  unreaped : ∀ k, s.state k ≠ .unused → (s.sys.proc k).pid ∉ reaped es
  reapOnce : (reaped es).Nodup
  returns : ∀ p, reapedBy p es = returnedTo p es ++ (s.pc p).pending

/-! ### Inversion of the events -/

theorem step_exit {pid st : Int32} (hs : s.Step (.exit pid st) t) :
    ∃ p, pid = (s.sys.proc p).pid ∧ s.pc p = .user ∧ s.state p = .running ∧
      t = s.goto p (.exitCall st) := by
  cases hs
  exact ⟨_, rfl, ‹_›, ‹_›, rfl⟩

theorem step_reap {p k : Slot} {pid : Int32} {st : Option Int32} (hs : s.Step (.reap p k pid st) t) :
    ∃ w kids, s.pc p = .scan w k kids ∧ s.parent k = some p ∧ s.state k = .zombie ∧
      pid = (s.sys.proc k).pid ∧ st = (if w.addr then some (s.sys.proc k).xstate else none) ∧
      t = (s.set k (s.sys.proc k).freeproc).goto p (.reaped pid) := by
  cases hs
  exact ⟨_, _, ‹_›, ‹_›, ‹_›, rfl, rfl, rfl⟩

theorem step_ret {p : Slot} {pid : Int32} (hs : s.Step (.ret p pid) t) :
    s.pc p = .reaped pid ∧ t = s.release.goto p .user := by
  cases hs
  exact ⟨‹_›, rfl⟩

theorem step_move {p : Slot} (hs : s.Step (.move p) t) (q : Slot) :
    (t.pc q).pending = (s.pc q).pending := by
  cases hs
  case fork i o uvmcopy u hpc hi hu => grind [WaitPc.pending]
  all_goals grind [WaitPc.pending]

theorem status_inv (hs : s.Step e t) {p : Slot} {st : Int32} (hp : (t.pc p).status = some st) :
    (s.pc p).status = some st ∨ e = .exit (s.sys.proc p).pid st ∧ t.sys = s.sys := by
  cases hs
  case fork i o uvmcopy u hpc hi hu => grind [WaitPc.status]
  all_goals grind [WaitPc.status]

theorem exiting_next (hs : s.Step e t) {p : Slot} (hp : (s.pc p).exiting = true) :
    (t.pc p).exiting = true ∨ s.pc p = .exitSched := by
  cases hs
  case fork i o uvmcopy u hpc hi hu => grind [WaitPc.exiting]
  all_goals grind [WaitPc.exiting]

theorem nextpid_le (hs : s.Step e t) : s.sys.nextpid.toInt ≤ t.sys.nextpid.toInt := by
  cases hs
  case fork p i o uvmcopy u hpc hi hu =>
    have hnext := (Section.alloc_run hu).2.2.2.1
    show s.sys.nextpid.toInt ≤ u.nextpid.toInt
    omega
  case wakeInit => unfold wakeAt; split_ifs <;> exact le_refl _
  case wakeParent => unfold wakeAt; split_ifs <;> exact le_refl _
  all_goals exact le_refl _

theorem filterMap_concat {β : Type} (f : WaitEvent → Option β) (es : List WaitEvent)
    (e : WaitEvent) : (es ++ [e]).filterMap f = es.filterMap f ++ (f e).toList := by
  rw [List.filterMap_append]
  cases h : f e <;> simp [h]

theorem mem_exited {pid : Int32} : pid ∈ exited es ↔ ∃ st, .exit pid st ∈ es := by
  simp only [exited, List.mem_filterMap]
  constructor
  · rintro ⟨e, he, hpid⟩
    cases e <;> simp only [WaitEvent.exitPid, Option.some.injEq, reduceCtorEq] at hpid
    exact ⟨_, hpid ▸ he⟩
  · rintro ⟨st, h⟩
    exact ⟨_, h, rfl⟩

/-- A process keeps its pid; a new one has the next pid and comes alone. -/
theorem pid_cases (hI : Inv s) (hs : s.Step e t) {k : Slot} (hk : t.state k ≠ .unused) :
    (s.state k ≠ .unused ∧ (t.sys.proc k).pid = (s.sys.proc k).pid) ∨
    (s.state k = .unused ∧ (t.sys.proc k).pid = s.sys.nextpid ∧
      t.sys.nextpid.toInt = s.sys.nextpid.toInt + 1 ∧
      ∃ p, s.pc p = .user ∧ t.pc p = .forked k ∧ ∀ q ≠ p, t.pc q = s.pc q) := by
  cases step_slot hI hs k with
  | keep hst hsame => exact .inl ⟨hst ▸ hk, hsame.pid⟩
  | live hst ht hsame =>
    refine .inl ⟨fun h0 => ?_, hsame.pid⟩
    rw [h0] at hst
    simp [ProcState.Live] at hst
  | born p hp hp' hst ht hpar hpid hnext hq => exact .inr ⟨hst, hpid, hnext, p, hp, hp', hq⟩
  | unborn hst ht => exact (hk ht).elim
  | adopt p hp hp' hrun hl ht hpar hpid => exact .inl ⟨ht ▸ hk, hpid⟩
  | publish p hp hp' hst ht hsame => exact .inl ⟨by simp [hst], hsame.pid⟩
  | reparent p st hp hp' hpar ht hst hpid => exact .inl ⟨hst ▸ hk, hpid⟩
  | zombie st hp hp' hst ht hpar hpid => exact .inl ⟨by simp [hst], hpid⟩
  | free p pid st he hp hst hpar ht => exact (hk ht).elim

/-- A ZOMBIE stays one until its slot is freed by its parent. -/
theorem SlotStep.zombie_next {k : Slot} (h : SlotStep s e t k) (hk : s.state k = .zombie) :
    t.state k = .zombie ∨ t.state k = .unused ∧ ∃ p pid status, e = .reap p k pid status := by
  cases h with
  | keep hs => exact .inl (hs.trans hk)
  | adopt p hp hp' hrun hl ht => exact .inl (ht.trans hk)
  | reparent p st hp hp' hs ht hst => exact .inl (hst.trans hk)
  | zombie st hp hp' hs ht => exact .inl ht
  | free p pid st he hp hs hpar ht => exact .inr ⟨ht, p, pid, st, he⟩
  | live hs => rw [hk] at hs; simp [ProcState.Live] at hs
  | born _ _ _ hs | unborn hs | publish _ _ _ hs => rw [hk] at hs; cases hs

namespace Log

theorem pid_step (hI : Inv s) (h : Log es s) (hs : s.Step e t) {k : Slot}
    (hk : t.state k ≠ .unused) : (t.sys.proc k).pid.toInt < t.sys.nextpid.toInt := by
  have hle := nextpid_le hs
  rcases pid_cases hI hs hk with ⟨hk', hpid⟩ | ⟨-, hpid, hnext, -⟩
  · have := h.next k hk'
    rw [hpid]
    omega
  · rw [hpid]
    omega

theorem inj_step (hI : Inv s) (h : Log es s) (hs : s.Step e t) {i j : Slot}
    (hi : t.state i ≠ .unused) (hj : t.state j ≠ .unused)
    (hij : (t.sys.proc i).pid = (t.sys.proc j).pid) : i = j := by
  rcases pid_cases hI hs hi with ⟨hi', hpi⟩ | ⟨-, hpi, -, p, hp, hp', hq⟩ <;>
    rcases pid_cases hI hs hj with ⟨hj', hpj⟩ | ⟨-, hpj, -, p', hp₁, hp₁', -⟩ <;>
    rw [hpi, hpj] at hij
  · exact h.inj i j hi' hj' hij
  · exact absurd (h.next i hi') (by rw [hij]; exact lt_irrefl _)
  · exact absurd (h.next j hj') (by rw [← hij]; exact lt_irrefl _)
  · by_cases hpp : p' = p
    · subst hpp
      exact WaitPc.forked.inj (hp'.symm.trans hp₁')
    · rw [hq p' hpp, hp₁] at hp₁'
      cases hp₁'

theorem exitNext_step (h : Log es s) (hs : s.Step e t) {pid : Int32}
    (hpid : pid ∈ exited (es ++ [e])) : pid.toInt < t.sys.nextpid.toInt := by
  have hle := nextpid_le hs
  rw [exited, filterMap_concat, List.mem_append] at hpid
  rcases hpid with hold | hnew
  · have := h.exitNext pid hold
    omega
  · cases e <;> simp only [WaitEvent.exitPid, Option.toList_none, Option.toList_some,
      List.not_mem_nil, List.mem_singleton] at hnew
    subst hnew
    obtain ⟨p, rfl, -, hrun, -⟩ := step_exit hs
    have := h.next p (by simp [hrun])
    omega

theorem alive_step (hI : Inv s) (h : Log es s) (hs : s.Step e t) {k : Slot}
    (hk : t.state k ≠ .unused) (hz : t.state k ≠ .zombie) (hx : (t.pc k).exiting = false) :
    (t.sys.proc k).pid ∉ exited (es ++ [e]) := by
  rw [exited, filterMap_concat, List.mem_append]
  rintro (hold | hnew)
  · rcases pid_cases hI hs hk with ⟨hk', hpid⟩ | ⟨-, hpid, -⟩ <;> rw [hpid] at hold
    · have hz' : s.state k ≠ .zombie := by
        intro hz'
        rcases (step_slot hI hs k).zombie_next hz' with h' | ⟨h', -⟩
        · exact hz h'
        · exact hk h'
      refine h.alive k hk' hz' ?_ hold
      by_contra hx'
      rcases exiting_next hs (by simpa using hx') with hx'' | hx''
      · rw [hx] at hx''
        cases hx''
      · have hst := hI.state k
        rw [hx''] at hst
        exact hz' hst
    · exact lt_irrefl _ (h.exitNext _ hold)
  · cases e <;> simp only [WaitEvent.exitPid, Option.toList_none, Option.toList_some,
      List.not_mem_nil, List.mem_singleton] at hnew
    obtain ⟨p, rfl, hp, hrun, rfl⟩ := step_exit hs
    obtain rfl := h.inj k p hk (by simp [hrun]) hnew
    rw [goto_pc, if_pos rfl] at hx
    cases hx

theorem exitOnce_step (h : Log es s) (hs : s.Step e t) : (exited (es ++ [e])).Nodup := by
  rw [exited, filterMap_concat]
  cases e <;> simp only [WaitEvent.exitPid, Option.toList_none, Option.toList_some,
    List.append_nil]
  case exit pid st =>
    obtain ⟨p, rfl, hp, hrun, rfl⟩ := step_exit hs
    refine h.exitOnce.append (List.nodup_singleton _) ?_
    rw [List.disjoint_singleton]
    exact h.alive p (by simp [hrun]) (by simp [hrun]) (by rw [hp]; rfl)
  all_goals exact h.exitOnce

/-- A process in `exit` is RUNNING or RUNNABLE until it becomes a ZOMBIE. -/
theorem ne_unused_of_status {p : Slot} {st : Int32} (hI : Inv s)
    (hp : (s.pc p).status = some st) : s.state p ≠ .unused := by
  intro hu
  have hst : (s.pc p).Allows (s.state p) := hI.state p
  rw [hu] at hst
  rw [hst.user_of_unused] at hp
  cases hp

theorem status_step (hI : Inv s) (h : Log es s) (hs : s.Step e t) {p : Slot} {st : Int32}
    (hp : (t.pc p).status = some st) : .exit (t.sys.proc p).pid st ∈ es ++ [e] := by
  rcases status_inv hs hp with hp' | ⟨rfl, hsys⟩
  · rcases pid_cases hI hs (ne_unused_of_status (hI.step hs) hp) with ⟨-, hpid⟩ | ⟨hu, -⟩
    · rw [hpid]
      exact List.mem_append_left _ (h.status p st hp')
    · exact (ne_unused_of_status hI hp' hu).elim
  · rw [hsys]
    exact List.mem_append_right _ (List.mem_singleton_self _)

theorem zombie_step (hI : Inv s) (h : Log es s) (hs : s.Step e t) {k : Slot}
    (hk : t.state k = .zombie) :
    .exit (t.sys.proc k).pid (t.sys.proc k).xstate ∈ es ++ [e] := by
  refine List.mem_append_left _ ?_
  cases step_slot hI hs k with
  | keep hst hsame =>
    rw [hsame.pid, hsame.xstate]
    exact h.zombie k (hst ▸ hk)
  | adopt p hp hp' hrun hl ht hpar hpid hx =>
    rw [hpid, hx]
    exact h.zombie k (ht ▸ hk)
  | reparent p st hp hp' hpar ht hst hpid hx =>
    rw [hpid, hx]
    exact h.zombie k (hst ▸ hk)
  | zombie st hp hp' hst ht hpar hpid hx =>
    rw [hpid, hx]
    exact h.status k st (by rw [hp]; rfl)
  | live hst ht => rw [hk] at ht; simp [ProcState.Live] at ht
  | born _ _ _ _ ht | unborn _ ht | publish _ _ _ _ ht | free _ _ _ _ _ _ _ ht =>
    rw [hk] at ht
    cases ht

theorem reapExited_step (h : Log es s) (hs : s.Step e t) {pid : Int32}
    (hpid : pid ∈ reaped (es ++ [e])) : pid ∈ exited (es ++ [e]) := by
  rw [reaped, filterMap_concat, List.mem_append] at hpid
  rw [exited, filterMap_concat]
  refine List.mem_append_left _ ?_
  rcases hpid with hold | hnew
  · exact h.reapExited pid hold
  · cases e <;> simp only [WaitEvent.reapPid, Option.toList_none, Option.toList_some,
      List.not_mem_nil, List.mem_singleton] at hnew
    subst hnew
    obtain ⟨w, kids, -, -, hz, rfl, -⟩ := step_reap hs
    exact mem_exited.2 ⟨_, h.zombie _ hz⟩

theorem unreaped_step (hI : Inv s) (h : Log es s) (hs : s.Step e t) {k : Slot}
    (hk : t.state k ≠ .unused) : (t.sys.proc k).pid ∉ reaped (es ++ [e]) := by
  rw [reaped, filterMap_concat, List.mem_append]
  rintro (hold | hnew)
  · rcases pid_cases hI hs hk with ⟨hk', hpid⟩ | ⟨-, hpid, -⟩ <;> rw [hpid] at hold
    · exact h.unreaped k hk' hold
    · exact lt_irrefl _ (h.exitNext _ (h.reapExited _ hold))
  · cases e <;> simp only [WaitEvent.reapPid, Option.toList_none, Option.toList_some,
      List.not_mem_nil, List.mem_singleton] at hnew
    case reap p i pid st =>
      obtain ⟨w, kids, -, -, hz, rfl, -, ht⟩ := step_reap hs
      have hki : k ≠ i := by
        rintro rfl
        refine hk ?_
        rw [ht]
        simp [state, Proc.freeproc]
      have hproc : t.sys.proc k = s.sys.proc k := by
        rw [ht]
        simp [hki]
      rw [state, hproc] at hk
      rw [hproc] at hnew
      exact hki (h.inj k i hk (by simp [hz]) hnew)

theorem reapOnce_step (h : Log es s) (hs : s.Step e t) : (reaped (es ++ [e])).Nodup := by
  rw [reaped, filterMap_concat]
  cases e <;> simp only [WaitEvent.reapPid, Option.toList_none, Option.toList_some,
    List.append_nil]
  case reap p k pid st =>
    obtain ⟨w, kids, -, -, hz, rfl, -⟩ := step_reap hs
    refine h.reapOnce.append (List.nodup_singleton _) ?_
    rw [List.disjoint_singleton]
    exact h.unreaped k (by simp [hz])
  all_goals exact h.reapOnce

theorem returns_step (h : Log es s) (hs : s.Step e t) (p : Slot) :
    reapedBy p (es ++ [e]) = returnedTo p (es ++ [e]) ++ (t.pc p).pending := by
  have old := h.returns p
  rw [reapedBy, returnedTo] at old ⊢
  rw [filterMap_concat, filterMap_concat]
  cases e with
  | exit pid st =>
    obtain ⟨q, -, hq, -, rfl⟩ := step_exit hs
    have hpend : ((s.goto q (.exitCall st)).pc p).pending = (s.pc p).pending := by
      grind [WaitPc.pending]
    rw [hpend]
    simp [WaitEvent.reapPidBy, WaitEvent.retPidTo, old]
  | move q => simp [WaitEvent.reapPidBy, WaitEvent.retPidTo, step_move hs p, old]
  | reap q k pid st =>
    obtain ⟨w, kids, hq, -, -, -, -, rfl⟩ := step_reap hs
    by_cases hqp : q = p
    · subst hqp
      rw [hq] at old
      simp [WaitEvent.reapPidBy, WaitEvent.retPidTo, WaitPc.pending, old]
    · simp [WaitEvent.reapPidBy, WaitEvent.retPidTo, hqp, Ne.symm hqp, old]
  | ret q pid =>
    obtain ⟨hq, rfl⟩ := step_ret hs
    by_cases hqp : q = p
    · subst hqp
      rw [hq] at old
      simp [WaitEvent.reapPidBy, WaitEvent.retPidTo, WaitPc.pending, old]
    · simp [WaitEvent.reapPidBy, WaitEvent.retPidTo, hqp, Ne.symm hqp, old]

theorem step (hI : Inv s) (h : Log es s) (hs : s.Step e t) : Log (es ++ [e]) t where
  next _ := pid_step hI h hs
  inj _ _ := inj_step hI h hs
  exitNext _ := exitNext_step h hs
  alive _ := alive_step hI h hs
  exitOnce := exitOnce_step h hs
  status _ _ := status_step hI h hs
  zombie _ := zombie_step hI h hs
  reapExited _ := reapExited_step h hs
  unreaped _ := unreaped_step hI h hs
  reapOnce := reapOnce_step h hs
  returns := returns_step h hs

theorem boot (h : s.Boot) : Log [] s := by
  obtain ⟨hsys, -, hpc⟩ := h
  have hpid := PidInv.boot hsys
  have hone : ∀ i, s.state i ≠ .unused → i = 0 := by
    obtain ⟨ticks, tf, pt, hs⟩ := hsys
    intro i hi
    by_contra h0
    refine hi ?_
    rw [state, hs]
    simp [ProcSys.boot, h0, Proc.zero]
  refine ⟨fun k hk => (hpid.used k hk).2, fun i j hi hj _ => (hone i hi).trans (hone j hj).symm,
    by simp [exited], by simp [exited], List.nodup_nil, fun p st hp => ?_, fun k hk => ?_,
    by simp [reaped], by simp [reaped], List.nodup_nil, fun p => ?_⟩
  · rw [hpc] at hp
    cases hp
  · obtain rfl := hone k (by simp [hk])
    obtain ⟨ticks, tf, pt, hs⟩ := hsys
    rw [state, hs] at hk
    simp [ProcSys.boot] at hk
  · rw [hpc]
    rfl

end Log

/-! ## The protocol -/

theorem run_inv {es : List WaitEvent} (hs : s.Boot) (h : Run Step s es t) :
    Inv t ∧ Family t ∧ Wakes t ∧ Log es t := by
  refine h.invariant (I := fun es t => Inv t ∧ Family t ∧ Wakes t ∧ Log es t)
    ⟨Inv.boot hs, Family.boot hs, Wakes.boot hs, Log.boot hs⟩ ?_
  rintro es t e u - ⟨hI, hF, hW, hL⟩ hst
  exact ⟨hI.step hst, Family.step hI hF hst, Wakes.step hI hW hst, Log.step hI hL hst⟩

/-- In every run of `fork`, `exit`, `wait`, `waitx` and `kill` :

* a slot is freed as a ZOMBIE, by its parent, who gets its pid and the status it passed to
  `exit` (if an address was given), and a ZOMBIE changes in no other way;
* the pids that the `wait`s of a process return are those it has reaped, one each, and no
  process exits or is reaped twice;
* while `wait_lock` is free, every process but `init` that is published or ZOMBIE has a
  parent that is neither UNUSED nor ZOMBIE, and no process sleeps in `wait` with a ZOMBIE
  child. -/
theorem exit_wait_protocol {es : List WaitEvent} (hs : s.Boot) (h : Run Step s es t) :
    (∀ p k pid status u, t.Step (.reap p k pid status) u →
      t.state k = .zombie ∧ t.parent k = some p ∧ (t.sys.proc k).pid = pid ∧
      u.sys.proc = update t.sys.proc k (t.sys.proc k).freeproc ∧
      ∃ w kids st, t.pc p = .scan w k kids ∧ .exit pid st ∈ es ∧
        status = if w.addr then some st else none) ∧
    (∀ e u k, t.Step e u → t.state k = .zombie → u.state k ≠ .zombie →
      ∃ p pid status, e = .reap p k pid status) ∧
    (∀ p, reapedBy p es = returnedTo p es ++ (t.pc p).pending) ∧
    (exited es).Nodup ∧ (reaped es).Nodup ∧
    (t.waitLock = none →
      (∀ k, k ≠ t.sys.initproc →
        t.state k ∈ [ProcState.runnable, .running, .sleeping, .zombie] →
        ∃ q, t.parent k = some q ∧ t.state q ≠ .unused ∧ t.state q ≠ .zombie) ∧
      ∀ p k w, t.pc p = .asleep w → t.state p = .sleeping → t.parent k = some p →
        t.state k ≠ .zombie) := by
  obtain ⟨hI, hF, hW, hL⟩ := run_inv hs h
  refine ⟨fun p k pid status u hst => ?_, fun e u k hst hz hz' => ?_, hL.returns, hL.exitOnce,
    hL.reapOnce, fun hl => ⟨fun k hk hst => ?_, fun p k w hp hsl hpar hz => ?_⟩⟩
  · obtain ⟨w, kids, hp, hpar, hz, rfl, rfl, rfl⟩ := step_reap hst
    exact ⟨hz, hpar, rfl, rfl, w, kids, _, hp, hL.zombie k hz, rfl⟩
  · rcases (step_slot hI hst k).zombie_next hz with hz'' | ⟨-, hreap⟩
    · exact (hz' hz'').elim
    · exact hreap
  · have hpar : t.parent k ≠ none := by
      refine hF.hasParent k hk ?_ ?_ <;> intro h0 <;> rw [h0] at hst <;> simp at hst
    obtain ⟨q, hq⟩ := Option.ne_none_iff_exists'.1 hpar
    refine ⟨q, hq, ?_, ?_⟩ <;> intro h0 <;> have hlive := hF.live k q hq <;> rw [h0] at hlive <;>
      simp [ProcState.Live] at hlive
  · obtain ⟨-, q, st, i, j, hq, -⟩ := hW.sleepers p k (.inr ⟨⟨w, hp⟩, hsl⟩) hpar hz
    have := hI.not_holds hl q
    rw [hq] at this
    cases this

/-- `init` has forked a child, which is published : its parent lives. -/
theorem exit_wait_protocol_child : ∃ s t : WaitSys, ∃ es, s.Boot ∧ Run Step s es t ∧
    t.waitLock = none ∧ t.state 1 = .runnable ∧
    (∃ q, t.parent 1 = some q ∧ t.state q ≠ .unused ∧ t.state q ≠ .zombie) ∧
    reapedBy 0 es = returnedTo 0 es ++ (t.pc 0).pending := by
  have hb : Boot ⟨.boot 0 8192 4096, none, fun _ => .user⟩ := ⟨⟨_, _, _, rfl⟩, rfl, fun _ => rfl⟩
  have h : Run Step ⟨.boot 0 8192 4096, none, fun _ => .user⟩ [] _ := .nil
  have h := h.snoc (.dispatch 0 rfl rfl)
  have h := h.snoc (.fork 0 1 (.ok 8192 4096) true _ rfl rfl rfl)
  have h := h.snoc (.adopt 0 1 rfl rfl rfl)
  have h := h.snoc (.publish 0 1 rfl rfl rfl)
  have hp := exit_wait_protocol hb h
  exact ⟨_, _, _, hb, h, rfl, rfl, (hp.2.2.2.2.2 rfl).1 1 (by decide) (by decide), hp.2.2.1 0⟩

end WaitSys

end CowPbs
