import Mathlib
import CowPbs.PipeFifo
import CowPbs.SleepLock

/-!
# Wakeups of a pipe

A reader sleeps while the pipe is empty and its write end open, a writer while it is full and
its read end open (`Pipe.Waits`). A process that has released `pi->lock` in order to sleep is
`Committed`. While it is, there is what it waits for, or the process that holds the lock is on
its way to a `wakeup` of its slot (`PipePc.WillWake`).

One exit of `pipewrite` has no `wakeup` : a writer that was killed after it had stored bytes
returns -1, and a reader sleeps on beside them (`pipe_wakeups_run`). In every run without that
exit nobody sleeps for nothing.
-/

open Function Transition

namespace CowPbs

/-- Readers (`nread`), or writers, have to wait. -/
def Pipe.Waits (pi : Pipe) (nread : Bool) : Prop :=
  if nread then pi.Empty ∧ pi.writeopen = true else pi.Full ∧ pi.readopen = true

/-- The process is on its way to `wakeup` slot `q`. -/
def PipePc.WillWake (nread : Bool) (q : Slot) : PipePc → Prop
  | test c => c.isWrite = true ∧ nread = true
  | copy _ _ => nread = false
  | wakeup r j _ => r = nread ∧ j ≤ q
  | run | acquire _ | close _ | sleep _ | sleepUnlocked _ | sched _ | asleep _ => False

@[simp]
theorem Pipe.waits_true {pi : Pipe} : pi.Waits true ↔ pi.Empty ∧ pi.writeopen = true :=
  Iff.rfl

@[simp]
theorem Pipe.waits_false {pi : Pipe} : pi.Waits false ↔ pi.Full ∧ pi.readopen = true :=
  Iff.rfl

theorem Section.uses_chan {a : PipeChans} {c : Section} (hc : c.usesPipe a = false) (r : Bool) :
    c.uses (a.chan r) = false := by
  cases c <;> cases r <;> simp_all [usesPipe, uses, PipeChans.chan]

theorem PipeCall.chan_eq {a : PipeChans} (c : PipeCall) : c.chan a = a.chan (!c.isWrite) := by
  cases c <;> rfl

theorem PipeChans.chan_injective {a : PipeChans} : Injective a.chan := by
  have hne := a.ne
  rintro (_ | _) (_ | _) h <;> simp_all [chan]

namespace PipeSys

variable {a : PipeChans} {s t : PipeSys} {p q : Slot} {e : PipeEvent} {r : Bool}

/-- Process `q` has released `pi->lock` in order to sleep, and no `wakeup` has reached it. -/
def Committed (a : PipeChans) (s : PipeSys) (r : Bool) (q : Slot) : Prop :=
  ∃ c, c.isWrite = (!r) ∧ (s.pc q = .sleepUnlocked c ∨ s.pc q = .sched c ∨
    (s.pc q = .asleep c ∧ s.SleepsOn (a.chan r) q))

/-- A `pipewrite` does not return -1 while there are bytes in the pipe and a reader that sleeps
or is about to. -/
def Announces (a : PipeChans) (s : PipeSys) (e : Slot × PipeEvent) : Prop :=
  e.2 = .fail → (∃ i n, s.pc e.1 = .test (.write i n)) → s.pipe.Empty ∨ ∀ q, ¬s.Committed a true q

/-- A process that is about to sleep, or does, will not be missed. -/
structure Wake (a : PipeChans) (s : PipeSys) : Prop where
  asleep : ∀ r q, s.SleepsOn (a.chan r) q →
    ∃ c, c.isWrite = (!r) ∧ (s.pc q = .sched c ∨ s.pc q = .asleep c)
  sleep : ∀ q c, s.pc q = .sleep c → s.pipe.Waits (!c.isWrite)
  full : ∀ q r j c, s.pc q = .wakeup r j (.sleep c) → c.isWrite = true ∧ s.pipe.Waits false
  woken : ∀ r q, s.Committed a r q → s.pipe.Waits r ∨ ∃ p, (s.pc p).WillWake r q

namespace Wake

theorem boot (h : Boot a s) : Wake a s := by
  obtain ⟨-, -, -, hpc, -, -, -, -, hns⟩ := h
  refine ⟨fun r q hq => ?_, fun q c hq => ?_, fun q r j c hq => ?_, fun r q hq => ?_⟩
  · cases r with
    | true => exact ((hns q hq.1).1 hq.2).elim
    | false => exact ((hns q hq.1).2 hq.2).elim
  · simp [hpc] at hq
  · simp [hpc] at hq
  · obtain ⟨c, -, hq | hq | ⟨hq, -⟩⟩ := hq <;> simp [hpc] at hq

/-! ### Falling asleep -/

/-- Nobody falls asleep on a channel of the pipe except at the end of `sleep`, and a `wakeup` of
it leaves nobody asleep in the slot it visits. -/
theorem sleepsOn_inv (hs : Step a s (p, e) t) (hq : t.SleepsOn (a.chan r) q) :
    (q = p ∧ ∃ c, c.isWrite = (!r) ∧ s.pc p = .sleepUnlocked c ∧ t.pc p = .sched c) ∨
    (s.SleepsOn (a.chan r) q ∧
      ∀ next, s.pc p = .wakeup r q next → t.pc p = .wakeup r q next) := by
  obtain ⟨hst, hch⟩ := hq
  cases hs with
  | sleepState _ c hpc hr =>
    by_cases hqp : q = p
    · subst hqp
      simp only [goto, set_proc, ↓reduceIte, Proc.sleep, PipeCall.chan_eq, Option.some.injEq] at hch
      have hw := PipeChans.chan_injective hch
      exact .inl ⟨rfl, c, by simp [← hw], hpc, by simp⟩
    · simp only [state, goto, set_proc, hqp, ↓reduceIte] at hst hch
      exact .inr ⟨⟨hst, hch⟩, by simp [hpc]⟩
  | wakeup _ j r' next hpc hr hpj hj =>
    by_cases hqj : q = j
    · subst hqj
      simp only [state, goto, set_proc, ↓reduceIte, Proc.wakeup] at hst hch
      split_ifs at hst hch with hsl
      refine .inr ⟨⟨hst, hch⟩, fun next' hw => ?_⟩
      rw [hpc, PipePc.wakeup.injEq] at hw
      obtain ⟨rfl, -⟩ := hw
      exact (hsl ⟨hst, hch⟩).elim
    · simp only [state, goto, set_proc, hqj, ↓reduceIte] at hst hch
      refine .inr ⟨⟨hst, hch⟩, fun next' hw => ?_⟩
      rw [hpc, PipePc.wakeup.injEq] at hw
      exact (hqj (Fin.ext hw.2.1.symm)).elim
  | wakeupSelf _ r' next hpc hr =>
    refine .inr ⟨⟨hst, hch⟩, fun next' hw => ?_⟩
    rw [hpc, PipePc.wakeup.injEq] at hw
    obtain rfl := Fin.ext hw.2.1
    rw [show s.state p = .sleeping from hst] at hr
    cases hr
  | work _ i c u hpc hi hc ht =>
    obtain ⟨-, P, hP, rfl⟩ := Section.run_eq_some ht
    refine .inr ⟨?_, by simp [hpc]⟩
    by_cases hqi : q = i
    · subst hqi
      simp only [state, update_self] at hst hch
      exact Section.sleeping_of_slot hP (Section.uses_chan hc r) hst hch
    · simp only [state, update_of_ne hqi] at hst hch
      exact ⟨hst, hch⟩
  | wakeupIntr _ chan hr hw hi =>
    refine .inr ⟨?_, fun _ => id⟩
    by_cases hqp : q = p
    · subst hqp
      simp only [state, set_proc, ↓reduceIte, Proc.wakeup] at hst hch
      split_ifs at hst hch
      exact ⟨hst, hch⟩
    · simp only [state, set_proc, hqp, ↓reduceIte] at hst hch
      exact ⟨hst, hch⟩
  | preempt _ hpc hr =>
    refine .inr ⟨?_, fun _ => id⟩
    by_cases hqp : q = p
    · subst hqp
      simp [state, set_proc, Proc.yield] at hst
    · simp only [state, set_proc, hqp, ↓reduceIte] at hst hch
      exact ⟨hst, hch⟩
  | dispatch _ hl hr =>
    by_cases hqp : q = p
    · subst hqp
      simp [state, set_proc, goto, Proc.dispatch] at hst
    · simp only [state, set_proc, goto, hqp, ↓reduceIte] at hst hch
      exact .inr ⟨⟨hst, hch⟩, fun next hw => by simp [hw, PipePc.resume]⟩
  | wokenSleep _ r' c hpc hr | wokenRet _ r' c n hpc hr | wokenClosed _ r' hpc hr =>
    refine .inr ⟨⟨hst, hch⟩, fun next hw => ?_⟩
    rw [hpc, PipePc.wakeup.injEq] at hw
    exact absurd q.isLt (by omega)
  | _ => exact .inr ⟨⟨hst, hch⟩, by simp_all⟩

theorem asleep_step (h : Wake a s) (hs : Step a s (p, e) t) (r : Bool) (q : Slot)
    (hq : t.SleepsOn (a.chan r) q) :
    ∃ c, c.isWrite = (!r) ∧ (t.pc q = .sched c ∨ t.pc q = .asleep c) := by
  rcases sleepsOn_inv hs hq with ⟨rfl, c, hc, -, hpc⟩ | ⟨hold, -⟩
  · exact ⟨c, hc, .inl hpc⟩
  · obtain ⟨c, hc, hpc⟩ := h.asleep r q hold
    refine ⟨c, hc, ?_⟩
    by_cases hqp : q = p
    · subst hqp
      have hnr : s.state q ≠ .running := by simp [hold.1]
      have hnr' : s.state q ≠ .runnable := by simp [hold.1]
      cases hs <;> simp_all [goto, set]
    · rwa [hs.pc_of_ne hqp]

theorem sleep_step (h : Wake a s) (hE : Ends s) (hs : Step a s (p, e) t) (q : Slot) (c : PipeCall)
    (hq : t.pc q = .sleep c) : t.pipe.Waits (!c.isWrite) := by
  by_cases hqp : q = p
  · subst hqp
    have hold := h.sleep q c
    cases hs with
    | empty _ n hpc hr he hw hk =>
      obtain rfl : PipeCall.read n = c := by simpa using hq
      exact ⟨he, hw⟩
    | wokenSleep _ r c' hpc hr =>
      obtain rfl : c' = c := by simpa using hq
      obtain ⟨hc, hw⟩ := h.full q r NPROC c' hpc
      rw [hc]
      exact hw
    | work _ i c' u hpc hi hc ht => exact hold hq
    | dispatch _ hl hr =>
      refine hold ?_
      cases hpc : s.pc q <;> simp_all [PipePc.resume]
    | wakeupIntr _ chan hr hw hi => exact hold hq
    | preempt _ hpc hr => exact hold hq
    | _ => simp at hq
  · rw [hE.pipe_step hs (by rw [← hs.pc_of_ne hqp, hq]; rfl) hqp]
    rw [hs.pc_of_ne hqp] at hq
    exact h.sleep q c hq

theorem full_step (h : Wake a s) (hE : Ends s) (hs : Step a s (p, e) t) (q : Slot) (r : Bool)
    (j : ℕ) (c : PipeCall) (hq : t.pc q = .wakeup r j (.sleep c)) :
    c.isWrite = true ∧ t.pipe.Waits false := by
  by_cases hqp : q = p
  · subst hqp
    have hold := fun r' j' => h.full q r' j' c
    cases hs with
    | full _ i n hpc hr hi hro hk hfull =>
      obtain ⟨-, -, rfl⟩ : true = r ∧ 0 = j ∧ PipeCall.write i n = c := by simpa using hq
      exact ⟨rfl, hfull, hro⟩
    | wakeup _ k r' next hpc hr hpj hj =>
      obtain ⟨-, -, rfl⟩ : r' = r ∧ (k : ℕ) + 1 = j ∧ next = .sleep c := by simpa using hq
      exact hold r' k hpc
    | wakeupSelf _ r' next hpc hr =>
      obtain ⟨-, -, rfl⟩ : r' = r ∧ (q : ℕ) + 1 = j ∧ next = .sleep c := by simpa using hq
      exact hold r' q hpc
    | work _ i c' u hpc hi hc ht => exact hold r j hq
    | dispatch _ hl hr =>
      refine hold r j ?_
      cases hpc : s.pc q <;> simp_all [PipePc.resume]
    | wakeupIntr _ chan hr hw hi => exact hold r j hq
    | preempt _ hpc hr => exact hold r j hq
    | _ => simp at hq
  · rw [hE.pipe_step hs (by rw [← hs.pc_of_ne hqp, hq]; rfl) hqp]
    rw [hs.pc_of_ne hqp] at hq
    exact h.full q r j c hq

/-! ### Being woken -/

/-- The process that moves goes to `sleepUnlocked` from `sleep`, and to `sched` from
`sleepUnlocked`. -/
theorem sleepUnlocked_inv {c : PipeCall} (hs : Step a s (p, e) t)
    (hp : t.pc p = .sleepUnlocked c ∨ t.pc p = .sched c) :
    (s.pc p = .sleepUnlocked c ∨ s.pc p = .sched c) ∨
    (s.pc p = .sleep c ∧ t.pipe = s.pipe) := by
  cases hs with
  | dispatch _ hl hr =>
    refine .inl ?_
    cases hpc : s.pc p <;> simp_all [goto, PipePc.resume]
  | _ => simp_all [goto, set]

/-- A `wakeup` does not pass a slot whose process holds its own `p->lock`. -/
theorem wakeup_of_holdsOwn {next : PipeNext} (hs : Step a s (p, e) t) (hqp : q ≠ p)
    (hq : (s.pc q).holdsOwn = true) (hw : s.pc p = .wakeup r q next) :
    t.pc p = .wakeup r q next := by
  have hq' : ¬s.Unlocked q := by simp [Unlocked, hq]
  cases hs with
  | wakeup _ j r' next' hpc hr hpj hj =>
    rw [hpc, PipePc.wakeup.injEq] at hw
    obtain rfl := Fin.ext hw.2.1
    exact (hq' hj).elim
  | wakeupSelf _ r' next' hpc hr =>
    rw [hpc, PipePc.wakeup.injEq] at hw
    exact (hqp (Fin.ext hw.2.1.symm)).elim
  | wokenSleep _ r' c hpc hr | wokenRet _ r' c n hpc hr | wokenClosed _ r' hpc hr =>
    rw [hpc, PipePc.wakeup.injEq] at hw
    exact absurd q.isLt (by omega)
  | dispatch _ hl hr => simp [goto, hw, PipePc.resume]
  | _ => simp_all [set]

/-- A process commits itself to sleep when it releases `pi->lock`, and a `wakeup` does not pass
it by. -/
theorem committed_inv (h : Wake a s) (hs : Step a s (p, e) t) (hq : t.Committed a r q) :
    (s.Committed a r q ∧ ∀ next, s.pc p = .wakeup r q next → t.pc p = .wakeup r q next) ∨
    (s.pipe.Waits r ∧ t.pipe = s.pipe) := by
  obtain ⟨c, hc, hq⟩ := hq
  have hheld : t.pc q = .sleepUnlocked c ∨ t.pc q = .sched c →
      (s.Committed a r q ∧ ∀ next, s.pc p = .wakeup r q next → t.pc p = .wakeup r q next) ∨
      (s.pipe.Waits r ∧ t.pipe = s.pipe) := by
    intro hq
    by_cases hqp : q = p
    · subst hqp
      rcases sleepUnlocked_inv hs hq with hold | ⟨hold, hpipe⟩
      · refine .inl ⟨⟨c, hc, hold.imp id .inl⟩, fun next hw => ?_⟩
        rcases hold with hold | hold <;> rw [hold] at hw <;> cases hw
      · have hw := h.sleep q c hold
        rw [hc, Bool.not_not] at hw
        exact .inr ⟨hw, hpipe⟩
    · rw [hs.pc_of_ne hqp] at hq
      have hown : (s.pc q).holdsOwn = true := by rcases hq with hq | hq <;> rw [hq] <;> rfl
      exact .inl ⟨⟨c, hc, hq.imp id .inl⟩, fun next => wakeup_of_holdsOwn hs hqp hown⟩
  rcases hq with hq | hq | ⟨hq, hsl⟩
  · exact hheld (.inl hq)
  · exact hheld (.inr hq)
  · rcases sleepsOn_inv hs hsl with ⟨rfl, c', hc', hpc, -⟩ | ⟨hold, hpass⟩
    · refine .inl ⟨⟨c', hc', .inl hpc⟩, fun next hw => ?_⟩
      rw [hpc] at hw
      cases hw
    · obtain ⟨c', hc', hpc⟩ := h.asleep r q hold
      refine .inl ⟨⟨c', hc', ?_⟩, hpass⟩
      exact hpc.elim (fun hpc => .inr (.inl hpc)) fun hpc => .inr (.inr ⟨hpc, hold⟩)

/-- What a process waits for stays, until one that is on its way to a `wakeup` changes it. -/
theorem waits_step (hs : Step a s (p, e) t) (hw : s.pipe.Waits r) :
    t.pipe.Waits r ∨ (t.pc p).WillWake r q := by
  cases hs with
  | put _ i n b hpc hr hi hro hk hfull =>
    cases r with
    | true => exact .inr (by simp [PipePc.WillWake, PipeCall.isWrite])
    | false => exact (hfull hw.1).elim
  | get _ i n hpc hr hi he =>
    cases r with
    | true => exact (he hw.1).elim
    | false => exact .inr (by simp [PipePc.WillWake])
  | badOut _ i n hpc hr hi he =>
    cases r with
    | true => exact (he hw.1).elim
    | false => exact .inr (by simp [PipePc.WillWake])
  | shut _ w hpc hr hl =>
    by_cases hwr : w = r
    · exact .inr (by simp [PipePc.WillWake, hwr])
    · refine .inl ?_
      cases w <;> cases r <;> first | exact (hwr rfl).elim | exact hw
  | _ => exact .inl hw

/-- A process on its way to a `wakeup` gets there, or leaves because there is nothing to tell. -/
theorem willWake_step (hE : Ends s) (hs : Guarded (Step a) (Announces a) s (p, e) t)
    (hq : s.Committed a r q)
    (hpass : ∀ next, s.pc p = .wakeup r q next → t.pc p = .wakeup r q next)
    (hw : (s.pc p).WillWake r q) : t.pipe.Waits r ∨ (t.pc p).WillWake r q := by
  obtain ⟨hs, hann⟩ := hs
  have hsame : t.pc p = s.pc p → t.pipe.Waits r ∨ (t.pc p).WillWake r q := fun h => .inr (h ▸ hw)
  cases hs with
  | writeFail _ i n hpc hr hi hk =>
    obtain rfl : r = true := by
      rw [hpc] at hw
      exact hw.2
    have hwopen := hE.wopen (hE.writes p (by rw [hpc]; rfl))
    exact .inl ⟨(hann rfl ⟨i, n, hpc⟩).resolve_right fun hno => hno q hq, hwopen⟩
  | wakeup _ j r' next hpc hr hpj hj =>
    obtain ⟨rfl, hjq⟩ : r' = r ∧ (j : ℕ) ≤ q := by rwa [hpc] at hw
    have hne : (j : ℕ) ≠ q := by
      intro hje
      have hpc' := hpass next (by rw [hpc, hje])
      simp [hje] at hpc'
    exact .inr (by simp only [goto_pc, ↓reduceIte, PipePc.WillWake, true_and]; omega)
  | wakeupSelf _ r' next hpc hr =>
    obtain ⟨rfl, hpq⟩ : r' = r ∧ (p : ℕ) ≤ q := by rwa [hpc] at hw
    have hne : (p : ℕ) ≠ q := by
      intro hpe
      have hpc' := hpass next (by rw [hpc, hpe])
      simp [hpe] at hpc'
    exact .inr (by simp only [goto_pc, ↓reduceIte, PipePc.WillWake, true_and]; omega)
  | wokenSleep _ r' c hpc hr | wokenRet _ r' c n hpc hr | wokenClosed _ r' hpc hr =>
    rw [hpc] at hw
    exact absurd (hw.2.trans_lt q.isLt) (lt_irrefl _)
  | work _ i c u hpc hi hc ht => exact hsame rfl
  | wakeupIntr _ chan hr hw hi => exact hsame rfl
  | preempt _ hpc hr => exact hsame rfl
  | dispatch _ hl hr => cases hpc : s.pc p <;> simp_all [PipePc.WillWake, PipePc.resume, goto]
  | readFail _ n hpc hr he hwo hk | empty _ n hpc hr he hwo hk | ready _ n hpc hr hwo =>
    rw [hpc] at hw
    cases hw.1
  | _ => exact .inr (by simp_all [PipePc.WillWake, PipeCall.isWrite])

theorem woken_step (h : Wake a s) (hE : Ends s) (hs : Guarded (Step a) (Announces a) s (p, e) t)
    (r : Bool) (q : Slot) (hq : t.Committed a r q) :
    t.pipe.Waits r ∨ ∃ p, (t.pc p).WillWake r q := by
  rcases h.committed_inv hs.1 hq with ⟨hold, hpass⟩ | ⟨hw, hpipe⟩
  · rcases h.woken r q hold with hw | ⟨i, hi⟩
    · exact (waits_step hs.1 hw).imp id fun hp => ⟨p, hp⟩
    · by_cases hip : i = p
      · subst hip
        exact (willWake_step hE hs hold hpass hi).imp id fun hp => ⟨i, hp⟩
      · exact .inr ⟨i, by rwa [hs.1.pc_of_ne hip]⟩
  · exact .inl (hpipe ▸ hw)

theorem step (h : Wake a s) (hE : Ends s) (hs : Guarded (Step a) (Announces a) s (p, e) t) :
    Wake a t where
  asleep := h.asleep_step hs.1
  sleep := h.sleep_step hE hs.1
  full := h.full_step hE hs.1
  woken := h.woken_step hE hs

/-- With `pi->lock` free, nobody sleeps for what is there. -/
theorem waits (h : Wake a s) (hE : Ends s) (hl : s.lock = none) (hq : s.SleepsOn (a.chan r) q) :
    s.pipe.Waits r := by
  obtain ⟨c, hc, hpc⟩ := h.asleep r q hq
  have hcom : s.Committed a r q :=
    ⟨c, hc, hpc.elim (fun hpc => .inr (.inl hpc)) fun hpc => .inr (.inr ⟨hpc, hq⟩)⟩
  rcases h.woken r q hcom with hw | ⟨p, hp⟩
  · exact hw
  · have hholds : (s.pc p).holdsPipe = true := by
      cases hpc : s.pc p <;> simp_all [PipePc.WillWake, PipePc.holdsPipe]
    have hlp := (hE.lock p).2 hholds
    rw [hl] at hlp
    cases hlp

end Wake

/-- In every run in which no `pipewrite` returns -1 while there are bytes in the pipe and a
reader sleeps or is about to : with `pi->lock` free, no process is SLEEPING on `&pi->nread`
unless the pipe is empty and its write end open, nor on `&pi->nwrite` unless it is full and its
read end open. -/
theorem pipe_wakeups (h : Reachable (Boot a) (Guarded (Step a) (Announces a)) s)
    (hl : s.lock = none) (p : Slot) :
    (s.SleepsOn (.obj a.nread) p → s.pipe.Empty ∧ s.pipe.writeopen = true) ∧
    (s.SleepsOn (.obj a.nwrite) p → s.pipe.Full ∧ s.pipe.readopen = true) := by
  have hI : Ends s ∧ Wake a s := by
    refine h.invariant (I := fun s => Ends s ∧ Wake a s)
      (fun s h0 => ⟨Ends.boot h0, Wake.boot h0⟩) ?_
    rintro s ⟨p, e⟩ t ⟨hE, hW⟩ hs
    exact ⟨hE.step hs.1, hW.step hE hs⟩
  exact ⟨hI.2.waits (r := true) hI.1 hl, hI.2.waits (r := false) hI.1 hl⟩

/-- A pipe that nobody has used yet, and three processes on three CPUs. -/
def three : PipeSys where
  sys := { ProcSys.boot 0 8192 4096 with
    proc := fun i => if i < 3 then { Proc.zero with state := .running } else .zero }
  pipe := ⟨fun _ => 0, 0, 0, true, true⟩
  lock := none
  pc := fun _ => .run
  rfile := true
  wfile := true

theorem three_boot (a : PipeChans) : Boot a three := by
  refine ⟨rfl, rfl, rfl, fun _ => rfl, rfl, rfl, rfl, rfl, fun p hp => ?_⟩
  have hch : (three.sys.proc p).chan = none := by
    simp only [three]
    split_ifs <;> rfl
  simp [hch]

/-- A reader is put to sleep by the empty pipe. -/
theorem pipe_wakeups_reader : ∃ s, Reachable (Boot ⟨0, 1, zero_ne_one⟩)
    (Guarded (Step ⟨0, 1, zero_ne_one⟩) (Announces ⟨0, 1, zero_ne_one⟩)) s ∧ s.lock = none ∧
    s.SleepsOn (.obj 0) 0 ∧ s.pipe.Empty ∧ s.pipe.writeopen = true := by
  have hr : Reachable (Boot ⟨0, 1, zero_ne_one⟩)
      (Guarded (Step ⟨0, 1, zero_ne_one⟩) (Announces ⟨0, 1, zero_ne_one⟩)) three :=
    .init (three_boot _)
  have hr := hr.step ⟨.read 0 1 rfl rfl rfl, by simp [Announces]⟩
  have hr := hr.step ⟨.acquire 0 _ rfl rfl rfl, by simp [Announces]⟩
  have hr := hr.step ⟨.empty 0 1 rfl rfl rfl rfl (fun hk => hk rfl), by simp [Announces]⟩
  have hr := hr.step ⟨.sleepRelease 0 _ rfl rfl, by simp [Announces]⟩
  have hr := hr.step ⟨.sleepState 0 _ rfl rfl, by simp [Announces]⟩
  refine ⟨_, hr, rfl, ⟨rfl, rfl⟩, ?_⟩
  exact (pipe_wakeups hr rfl 0).1 ⟨rfl, rfl⟩

/-- A reader sleeps. A writer stores a byte, is killed, and returns -1 without a `wakeup` : with
`pi->lock` free and a byte in the pipe, the reader sleeps. -/
theorem pipe_wakeups_run : ∃ s, Reachable (Boot ⟨0, 1, zero_ne_one⟩)
    (Step ⟨0, 1, zero_ne_one⟩) s ∧ s.lock = none ∧ s.SleepsOn (.obj 0) 0 ∧ ¬s.pipe.Empty := by
  have hr : Reachable (Boot ⟨0, 1, zero_ne_one⟩) (Step ⟨0, 1, zero_ne_one⟩) three :=
    .init (three_boot _)
  have hr := hr.step (.read 0 1 rfl rfl rfl)
  have hr := hr.step (.acquire 0 _ rfl rfl rfl)
  have hr := hr.step (.empty 0 1 rfl rfl rfl rfl fun hk => hk rfl)
  have hr := hr.step (.sleepRelease 0 _ rfl rfl)
  have hr := hr.step (.sleepState 0 _ rfl rfl)
  have hr := hr.step (.sched 0 _ rfl)
  have hr := hr.step (.write 1 2 rfl rfl rfl)
  have hr := hr.step (.acquire 1 _ rfl rfl rfl)
  have hr := hr.step (.put 1 0 2 65 rfl rfl (by decide) rfl (fun hk => hk rfl) (by decide))
  have hr := hr.step (.work 2 1 .kill _ rfl (fun _ => rfl) rfl rfl)
  have hr := hr.step (.writeFail 1 1 2 rfl rfl (by decide) (.inr (show (1 : Int32) ≠ 0 by decide)))
  exact ⟨_, hr, rfl, ⟨rfl, rfl⟩, by decide⟩

end PipeSys

end CowPbs
