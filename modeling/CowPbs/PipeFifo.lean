import Mathlib
import CowPbs.Pipe

/-!
# Pipes are lossless

The bytes that writers have put into the pipe, in the order in which they did, are those that
readers have got out of it, followed by the bytes in the ring (`Fifo`). Only the process that
holds `pi->lock` changes the pipe, so what it has tested stays true until it lets the lock go.
-/

open Bytes Function Transition

namespace CowPbs

/-- The bytes accepted from writers. -/
def acceptedBytes (es : List (Slot × PipeEvent)) : List Byte :=
  es.filterMap fun e =>
    match e.2 with
    | .put b => some b
    | _ => none

/-- The bytes delivered to readers. -/
def deliveredBytes (es : List (Slot × PipeEvent)) : List Byte :=
  es.filterMap fun e =>
    match e.2 with
    | .get b => some b
    | _ => none

/-- The bytes in the pipe. -/
def Pipe.contents (pi : Pipe) : List Byte :=
  Ring.window PIPESIZE pi.data pi.nread (pi.nwrite - pi.nread).toNat

namespace PipeSys

variable {a : PipeChans} {s t : PipeSys} {p q : Slot} {e : PipeEvent}
  {es : List (Slot × PipeEvent)}

@[simp]
theorem goto_pc (pc : PipePc) : (s.goto p pc).pc q = if q = p then pc else s.pc q :=
  update_apply ..

@[simp]
theorem set_proc (P : Proc) :
    (s.set p P).sys.proc q = if q = p then P else s.sys.proc q :=
  update_apply ..

@[simp]
theorem resume_holdsPipe (pc : PipePc) : pc.resume.holdsPipe = pc.holdsPipe := by
  cases pc <;> rfl

@[simp]
theorem resume_call (pc : PipePc) : pc.resume.call = pc.call := by
  cases pc <;> rfl

/-- A step moves one process. -/
theorem Step.pc_of_ne (hs : Step a s (p, e) t) (hq : q ≠ p) : t.pc q = s.pc q := by
  cases hs <;> simp [goto, set, hq]

/-! ## The lock and the ends -/

/-- `pi->lock` is held by the process whose code says so, and the ends that are in use are
open. -/
structure Ends (s : PipeSys) : Prop where
  lock : ∀ p, s.lock = some p ↔ (s.pc p).holdsPipe = true
  writes : ∀ p, (s.pc p).writes = true → s.wfile = true
  reads : ∀ p, (s.pc p).reads = true → s.rfile = true
  wopen : s.wfile = true → s.pipe.writeopen = true
  ropen : s.rfile = true → s.pipe.readopen = true
  close : ∀ p w, s.pc p = .close w → (if w then s.wfile else s.rfile) = false

namespace Ends

theorem boot (h : Boot a s) : Ends s := by
  obtain ⟨hl, hr, hw, hpc, -, -, hro, hwo, -⟩ := h
  refine ⟨fun p => ?_, fun p hp => hw, fun p hp => hr, fun _ => hwo, fun _ => hro,
    fun p w hp => ?_⟩
  · simp [hl, hpc, PipePc.holdsPipe]
  · simp [hpc] at hp

/-- The process that moves has the lock, or it is free, or it stays as it is. -/
theorem lock_step (h : Ends s) (hs : Step a s (p, e) t) (q : Slot) :
    t.lock = some q ↔ (t.pc q).holdsPipe = true := by
  have hp := h.lock p
  by_cases hqp : q = p
  · subst hqp
    cases hs with
    | work _ i c u hpc hi hc ht => exact hp
    | dispatch _ hl hr => simpa [goto, set] using hp
    | wakeupIntr _ chan hr hw hi => exact hp
    | preempt _ hpc hr => exact hp
    | _ => simp_all [PipePc.holdsPipe, goto, set]
  · rw [hs.pc_of_ne hqp, ← h.lock q]
    cases hs <;> simp_all [PipePc.holdsPipe, goto, set, Ne.symm hqp]

/-- A call starts with the file of the end open, and is the same until it returns. -/
theorem call_step (hs : Step a s (p, e) t) :
    (t.pc p).call.map PipeCall.isWrite = (s.pc p).call.map PipeCall.isWrite ∨
      (t.pc p).call = none ∨ ((t.pc p).writes = true ∧ (t.pc p).reads = false ∧ s.wfile = true) ∨
      ((t.pc p).writes = false ∧ (t.pc p).reads = true ∧ s.rfile = true) := by
  cases hs with
  | dispatch _ hl hr => simp [goto, set]
  | _ =>
    simp_all [PipePc.writes, PipePc.reads, PipePc.call, PipeNext.call, PipeCall.isWrite, goto, set]

theorem writes_eq (pc : PipePc) : pc.writes = true ↔ pc.call.map PipeCall.isWrite = some true := by
  cases h : pc.call <;> simp [PipePc.writes, h]

theorem reads_eq (pc : PipePc) : pc.reads = true ↔ pc.call.map PipeCall.isWrite = some false := by
  cases h : pc.call <;> simp [PipePc.reads, h]

/-- The file of the write end is closed when nobody is in `pipewrite`. -/
theorem wfile_step (hs : Step a s (p, e) t) :
    t.wfile = s.wfile ∨ ((∀ q, (s.pc q).writes = false) ∧ (t.pc p).call = none) := by
  cases hs with
  | closeWrite _ hpc hr hf hno => exact .inr ⟨hno, by simp [PipePc.call]⟩
  | _ => exact .inl rfl

theorem rfile_step (hs : Step a s (p, e) t) :
    t.rfile = s.rfile ∨ ((∀ q, (s.pc q).reads = false) ∧ (t.pc p).call = none) := by
  cases hs with
  | closeRead _ hpc hr hf hno => exact .inr ⟨hno, by simp [PipePc.call]⟩
  | _ => exact .inl rfl

theorem writes_step (h : Ends s) (hs : Step a s (p, e) t) (q : Slot)
    (hq : (t.pc q).writes = true) : t.wfile = true := by
  have hcall : (s.pc q).writes = true ∨ q = p ∧ s.wfile = true := by
    by_cases hqp : q = p
    · subst hqp
      rcases call_step hs with hc | hc | ⟨-, -, hf⟩ | ⟨hw, -, -⟩
      · rw [writes_eq, hc, ← writes_eq] at hq
        exact .inl hq
      · simp [PipePc.writes, hc] at hq
      · exact .inr ⟨rfl, hf⟩
      · rw [hq] at hw
        cases hw
    · rw [hs.pc_of_ne hqp] at hq
      exact .inl hq
  have hold : s.wfile = true := hcall.elim (h.writes q) And.right
  rcases wfile_step hs with hf | ⟨hno, hp⟩
  · rw [hf, hold]
  · rcases hcall with hc | ⟨rfl, -⟩
    · rw [hno q] at hc
      cases hc
    · simp [PipePc.writes, hp] at hq

theorem reads_step (h : Ends s) (hs : Step a s (p, e) t) (q : Slot)
    (hq : (t.pc q).reads = true) : t.rfile = true := by
  have hcall : (s.pc q).reads = true ∨ q = p ∧ s.rfile = true := by
    by_cases hqp : q = p
    · subst hqp
      rcases call_step hs with hc | hc | ⟨-, hr, -⟩ | ⟨-, -, hf⟩
      · rw [reads_eq, hc, ← reads_eq] at hq
        exact .inl hq
      · simp [PipePc.reads, hc] at hq
      · rw [hq] at hr
        cases hr
      · exact .inr ⟨rfl, hf⟩
    · rw [hs.pc_of_ne hqp] at hq
      exact .inl hq
  have hold : s.rfile = true := hcall.elim (h.reads q) And.right
  rcases rfile_step hs with hf | ⟨hno, hp⟩
  · rw [hf, hold]
  · rcases hcall with hc | ⟨rfl, -⟩
    · rw [hno q] at hc
      cases hc
    · simp [PipePc.reads, hp] at hq

theorem close_step (h : Ends s) (hs : Step a s (p, e) t) (q : Slot) (w : Bool)
    (hq : t.pc q = .close w) : (if w then t.wfile else t.rfile) = false := by
  have hold := h.close q w
  by_cases hqp : q = p
  · subst hqp
    cases hs with
    | closeWrite _ hpc hr hf hno =>
      obtain rfl : true = w := by simpa using hq
      rfl
    | closeRead _ hpc hr hf hno =>
      obtain rfl : false = w := by simpa using hq
      rfl
    | work _ i c u hpc hi hc ht => exact hold hq
    | dispatch _ hl hr =>
      refine hold ?_
      cases hpc : s.pc q <;> simp_all [PipePc.resume]
    | wakeupIntr _ chan hr hw hi => exact hold hq
    | preempt _ hpc hr => exact hold hq
    | _ => simp at hq
  · rw [hs.pc_of_ne hqp] at hq
    have hw := hold hq
    cases hs with
    | closeWrite _ hpc hr hf hno => cases w <;> simp_all [goto]
    | closeRead _ hpc hr hf hno => cases w <;> simp_all [goto]
    | _ => exact hw

theorem open_step (h : Ends s) (hs : Step a s (p, e) t) :
    (t.wfile = true → t.pipe.writeopen = true) ∧ (t.rfile = true → t.pipe.readopen = true) := by
  have hw := h.wopen
  have hr := h.ropen
  cases hs with
  | shut _ w hpc hr' hl =>
    have hcl := h.close p w hpc
    cases w with
    | true => exact ⟨fun hf => by simp_all [goto], fun hf => by simpa [goto, Pipe.shut] using hr hf⟩
    | false => exact ⟨fun hf => by simpa [goto, Pipe.shut] using hw hf, fun hf => by simp_all [goto]⟩
  | closeWrite _ hpc hr' hf hno => exact ⟨fun hf => by simp [goto] at hf, hr⟩
  | closeRead _ hpc hr' hf hno => exact ⟨hw, fun hf => by simp [goto] at hf⟩
  | _ => exact ⟨hw, hr⟩

theorem step (h : Ends s) (hs : Step a s (p, e) t) : Ends t where
  lock := h.lock_step hs
  writes := h.writes_step hs
  reads := h.reads_step hs
  wopen := (h.open_step hs).1
  ropen := (h.open_step hs).2
  close := h.close_step hs

/-- Only the process that has the lock, or takes it, changes the pipe. -/
theorem pipe_step (h : Ends s) (hs : Step a s (p, e) t) (hq : (s.pc q).holdsPipe = true)
    (hqp : q ≠ p) : t.pipe = s.pipe := by
  have hlock := (h.lock q).2 hq
  have hp := h.lock p
  cases hs with
  | shut _ w hpc hr hl =>
    rw [hl] at hlock
    cases hlock
  | put _ i n b hpc hr hi hro hk hfull =>
    have heq := hp.2 (by rw [hpc]; rfl)
    exact absurd (Option.some.inj (hlock.symm.trans heq)) hqp
  | get _ i n hpc hr hi he =>
    have heq := hp.2 (by rw [hpc]; rfl)
    exact absurd (Option.some.inj (hlock.symm.trans heq)) hqp
  | badOut _ i n hpc hr hi he =>
    have heq := hp.2 (by rw [hpc]; rfl)
    exact absurd (Option.some.inj (hlock.symm.trans heq)) hqp
  | _ => rfl

end Ends

/-! ## Bytes in and out -/

/-- The bytes accepted are those delivered and those in the ring, which is not longer than it
can be. -/
structure Fifo (es : List (Slot × PipeEvent)) (s : PipeSys) : Prop where
  len : (s.pipe.nwrite - s.pipe.nread).toNat ≤ PIPESIZE
  fifo : acceptedBytes es = deliveredBytes es ++ s.pipe.contents

theorem pipesize_dvd : PIPESIZE ∣ 2 ^ 32 := by
  decide

/-- A pipe that is not full has room for a byte. -/
theorem lt_of_not_full {pi : Pipe} (h : (pi.nwrite - pi.nread).toNat ≤ PIPESIZE)
    (hf : ¬pi.Full) : (pi.nwrite - pi.nread).toNat < PIPESIZE := by
  refine lt_of_le_of_ne h fun he => hf ?_
  have hw := Ring.at_sub (r := pi.nread) (w := pi.nwrite)
  rw [he] at hw
  exact hw.symm

theorem len_put {pi : Pipe} {b : Byte} (h : (pi.nwrite - pi.nread).toNat < PIPESIZE) :
    ((pi.put b).nwrite - (pi.put b).nread).toNat = (pi.nwrite - pi.nread).toNat + 1 := by
  have hlt : (pi.nwrite - pi.nread).toNat + 1 < 2 ^ 32 :=
    Nat.lt_of_le_of_lt h (by decide)
  exact Ring.toNat_succ_sub hlt

theorem contents_put {pi : Pipe} {b : Byte} (h : (pi.nwrite - pi.nread).toNat < PIPESIZE) :
    (pi.put b).contents = pi.contents ++ [b] := by
  rw [Pipe.contents, len_put h]
  have hw := Ring.window_push (d := pi.data) (r := pi.nread) (x := b) pipesize_dvd h
  rwa [Ring.at_sub] at hw

theorem len_ne_zero {pi : Pipe} (h : ¬pi.Empty) : (pi.nwrite - pi.nread).toNat ≠ 0 :=
  fun h0 => h (Ring.toNat_sub_eq_zero.1 h0)

theorem contents_pop {pi : Pipe} (h : ¬pi.Empty) :
    pi.contents = pi.head :: pi.pop.contents := by
  obtain ⟨k, hk⟩ := Nat.exists_eq_succ_of_ne_zero (len_ne_zero h)
  have hpop : (pi.pop.nwrite - pi.pop.nread).toNat = k := by
    have hsub := Ring.toNat_sub_succ (len_ne_zero h)
    rw [hk] at hsub
    exact hsub
  rw [Pipe.contents, hk, Ring.window_pop, Pipe.contents, hpop]
  rfl

/-- User buffers are accessible. -/
def Accessible (_ : PipeSys) (e : Slot × PipeEvent) : Prop :=
  e.2 ≠ .badIn ∧ ∀ b, e.2 ≠ .badOut b

@[simp]
theorem acceptedBytes_append (e : Slot × PipeEvent) :
    acceptedBytes (es ++ [e]) = acceptedBytes es ++ acceptedBytes [e] :=
  List.filterMap_append

@[simp]
theorem deliveredBytes_append (e : Slot × PipeEvent) :
    deliveredBytes (es ++ [e]) = deliveredBytes es ++ deliveredBytes [e] :=
  List.filterMap_append

namespace Fifo

theorem boot (h : Boot a s) : Fifo [] s := by
  obtain ⟨-, -, -, -, hr, hw, -, -, -⟩ := h
  constructor
  · simp [hr, hw]
  · simp [Pipe.contents, hr, hw, acceptedBytes, deliveredBytes]

theorem step (h : Fifo es s) (hs : Guarded (Step a) Accessible s (p, e) t) :
    Fifo (es ++ [(p, e)]) t := by
  obtain ⟨hs, hin, hout⟩ := hs
  have hlen := h.len
  have hfifo := h.fifo
  cases hs with
  | put _ i n b hpc hr hi hro hk hfull =>
    have hlt := lt_of_not_full hlen hfull
    refine ⟨(len_put hlt).trans_le hlt, ?_⟩
    calc acceptedBytes (es ++ [(p, .put b)]) = acceptedBytes es ++ [b] := acceptedBytes_append _
      _ = deliveredBytes es ++ (s.pipe.contents ++ [b]) := by rw [hfifo, List.append_assoc]
      _ = deliveredBytes (es ++ [(p, .put b)]) ++ (s.pipe.put b).contents := by
        rw [contents_put hlt, deliveredBytes_append]
        simp [deliveredBytes]
  | get _ i n hpc hr hi he =>
    refine ⟨?_, ?_⟩
    · refine (Ring.toNat_sub_succ (len_ne_zero he)).trans_le ?_
      omega
    · calc acceptedBytes (es ++ [(p, .get s.pipe.head)]) = acceptedBytes es := by
            rw [acceptedBytes_append]
            simp [acceptedBytes]
        _ = deliveredBytes es ++ s.pipe.head :: s.pipe.pop.contents := by
            rw [hfifo, contents_pop he]
        _ = deliveredBytes (es ++ [(p, .get s.pipe.head)]) ++ s.pipe.pop.contents := by
            rw [deliveredBytes_append]
            simp [deliveredBytes]
  | badIn _ i n hpc hr hi hro hk hfull => exact absurd rfl hin
  | badOut _ i n hpc hr hi he => exact absurd rfl (hout _)
  | shut _ w hpc hr hl =>
    refine ⟨?_, ?_⟩
    · cases w <;> exact hlen
    · rw [acceptedBytes_append, deliveredBytes_append, show acceptedBytes [_] = [] from rfl,
        show deliveredBytes [_] = [] from rfl, List.append_nil, List.append_nil]
      cases w <;> exact hfifo
  | _ =>
    refine ⟨hlen, ?_⟩
    rw [acceptedBytes_append, deliveredBytes_append, show acceptedBytes [_] = [] from rfl,
      show deliveredBytes [_] = [] from rfl, List.append_nil, List.append_nil]
    exact hfifo

end Fifo

/-! ## What a read of no bytes means -/

/-- A reader that has got nothing found the pipe empty and the write end closed. -/
structure Dry (s : PipeSys) : Prop where
  copy : ∀ p n, s.pc p = .copy 0 n → ¬(s.pipe.Empty ∧ s.pipe.writeopen = true)
  ret : ∀ p w j n, s.pc p = .wakeup w j (.ret (.read n) 0) → 0 < n →
    s.pipe.Empty ∧ s.pipe.writeopen = false

namespace Dry

theorem boot (h : Boot a s) : Dry s := by
  obtain ⟨-, -, -, hpc, -⟩ := h
  exact ⟨fun p n hp => by simp [hpc] at hp, fun p w j n hp => by simp [hpc] at hp⟩

theorem step (h : Dry s) (hI : Ends s) (hs : Guarded (Step a) Accessible s (p, e) t) :
    Dry t := by
  obtain ⟨hs, -, hout⟩ := hs
  -- another process that is in `piperead` with the lock sees no change
  have hother : ∀ q, q ≠ p → (t.pc q).holdsPipe = true → t.pipe = s.pipe := by
    intro q hq hl
    rw [hs.pc_of_ne hq] at hl
    exact hI.pipe_step hs hl hq
  constructor
  · intro q n hq
    by_cases hqp : q = p
    · subst hqp
      have hold := h.copy q n
      cases hs with
      | ready _ n hpc hr hw => exact hw
      | work _ i c u hpc hi hc ht => exact hold hq
      | dispatch _ hl hr =>
        refine hold ?_
        cases hpc : s.pc q <;> simp_all [PipePc.resume]
      | wakeupIntr _ chan hr hw hi => exact hold hq
      | preempt _ hpc hr => exact hold hq
      | _ => simp at hq
    · have hpipe := hother q hqp (by rw [hq]; rfl)
      rw [hs.pc_of_ne hqp] at hq
      rw [hpipe]
      exact h.copy q n hq
  · intro q w j n hq hn
    by_cases hqp : q = p
    · subst hqp
      cases hs with
      | done _ i m hpc hr hi =>
        obtain ⟨-, -, rfl, rfl⟩ : false = w ∧ 0 = j ∧ m = n ∧ i = 0 := by simpa using hq
        have he : s.pipe.Empty := hi.resolve_left (not_not.2 (by exact_mod_cast hn))
        have hcl : s.pipe.writeopen = false := by simpa [he] using h.copy q m hpc
        exact ⟨he, hcl⟩
      | badOut _ i m hpc hr hi he => exact absurd rfl (hout _)
      | wakeup _ k r next hpc hr hpj hj =>
        obtain ⟨rfl, -, rfl⟩ : r = w ∧ (k : ℕ) + 1 = j ∧ next = .ret (.read n) 0 := by
          simpa using hq
        exact h.ret q r k n hpc hn
      | wakeupSelf _ r next hpc hr =>
        obtain ⟨rfl, -, rfl⟩ : r = w ∧ (q : ℕ) + 1 = j ∧ next = .ret (.read n) 0 := by
          simpa using hq
        exact h.ret q r q n hpc hn
      | work _ i c u hpc hi hc ht => exact h.ret q w j n hq hn
      | dispatch _ hl hr =>
        refine h.ret q w j n ?_ hn
        cases hpc : s.pc q <;> simp_all [PipePc.resume]
      | wakeupIntr _ chan hr hw hi => exact h.ret q w j n hq hn
      | preempt _ hpc hr => exact h.ret q w j n hq hn
      | _ => simp at hq
    · have hpipe := hother q hqp (by rw [hq]; rfl)
      rw [hs.pc_of_ne hqp] at hq
      rw [hpipe]
      exact h.ret q w j n hq hn

end Dry

theorem pipe_run {s₀ : PipeSys} (h0 : Boot a s₀)
    (h : Run (Guarded (Step a) Accessible) s₀ es s) : Ends s ∧ Dry s ∧ Fifo es s := by
  refine h.invariant (I := fun es s => Ends s ∧ Dry s ∧ Fifo es s)
    ⟨Ends.boot h0, Dry.boot h0, Fifo.boot h0⟩ ?_
  rintro es t ⟨p, e⟩ u - ⟨hE, hD, hF⟩ hs
  exact ⟨hE.step hs.1, hD.step hE hs, hF.step hs⟩

/-- For any readers and writers with accessible buffers, the ring never holds more than
`PIPESIZE` bytes, the bytes delivered followed by those in the ring are the bytes accepted, and
a read of at least one byte returns 0 only if the pipe is empty and the write end closed. -/
theorem pipe_lossless {s₀ : PipeSys} (h0 : Boot a s₀)
    (h : Run (Guarded (Step a) Accessible) s₀ es s) :
    (s.pipe.nwrite - s.pipe.nread).toNat ≤ PIPESIZE ∧
    acceptedBytes es = deliveredBytes es ++ s.pipe.contents ∧
    ∀ p n t, Step a s (p, .ret (.read n) 0) t → 0 < n →
      s.pipe.Empty ∧ s.pipe.writeopen = false := by
  obtain ⟨-, hD, hF⟩ := pipe_run h0 h
  refine ⟨hF.len, hF.fifo, fun p n t hs hn => ?_⟩
  cases hs with
  | wokenRet _ w c r hpc hr => exact hD.ret p w NPROC n hpc hn

/-- `init` alone writes a byte : it is in the ring. -/
theorem pipe_lossless_init : ∃ s₀ s es, Boot ⟨0, 1, zero_ne_one⟩ s₀ ∧
    Run (Guarded (Step ⟨0, 1, zero_ne_one⟩) Accessible) s₀ es s ∧ acceptedBytes es = [65] ∧
    deliveredBytes es = [] ∧ s.pipe.contents = [65] := by
  have hb : Boot ⟨0, 1, zero_ne_one⟩
      ⟨.boot 0 8192 4096, ⟨fun _ => 0, 0, 0, true, true⟩, none, fun _ => .run, true, true⟩ := by
    refine ⟨rfl, rfl, rfl, fun _ => rfl, rfl, rfl, rfl, rfl, fun p hp => ?_⟩
    by_cases h0 : p = 0
    · simp [state, ProcSys.boot, h0] at hp
    · simp [state, ProcSys.boot, h0, Proc.zero] at hp
  have hnil : ∀ s₀, Run (Guarded (Step ⟨0, 1, zero_ne_one⟩) Accessible) s₀ [] s₀ := fun _ => .nil
  have hr := hnil
    ⟨.boot 0 8192 4096, ⟨fun _ => 0, 0, 0, true, true⟩, none, fun _ => .run, true, true⟩
  have hr := hr.snoc ⟨.dispatch 0 rfl rfl, by simp [Accessible]⟩
  have hr := hr.snoc ⟨.write 0 1 rfl rfl rfl, by simp [Accessible]⟩
  have hr := hr.snoc ⟨.acquire 0 _ rfl rfl rfl, by simp [Accessible]⟩
  have hr := hr.snoc ⟨.put 0 0 1 65 rfl rfl (by decide) rfl (fun hk => hk rfl) (by decide),
    by simp [Accessible]⟩
  have hfifo := (pipe_lossless hb hr).2.1
  exact ⟨_, _, _, hb, hr, rfl, rfl, hfifo.symm⟩

end PipeSys

end CowPbs
