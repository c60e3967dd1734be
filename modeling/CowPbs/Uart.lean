import Mathlib
import CowPbs.Lib.Bytes
import CowPbs.Lib.Ring
import CowPbs.Lib.Simulation

/-!
# The UART

kernel/uart.c from `uartputc` on, with the device, on any number of CPUs and processes. A process
may call `uartputc` on any CPU, where it sleeps while `uart_tx_buf` is full, and a CPU may call
`uartputc_sync` at any place where it is not in one of the other functions, and in `uartintr`
before `uartstart` (`consoleintr` echoes). `uart_tx_lock` is a lock of the table of Spinlock.lean,
and its holder is not interrupted. `kill` may wake up a process, and the kernel may panic.

The device has a FIFO of 16 bytes. `LSR_TX_IDLE` says that it is empty, and it interrupts when
it gets empty. A byte that is written to a full FIFO is lost.

What the CPUs do is a queue of bytes in front of the wire (`uart_refines_wire`) : all that
`uartputc` accepts is written to the device in this order, whatever `uartputc_sync` does
meanwhile, and nothing that is written is lost on up to 16 CPUs. While there are bytes to be sent,
the output goes on, and only then does a process sleep (`uart_goes_on`).
-/

set_option linter.unusedSectionVars false

open Bytes Function Transition

namespace CowPbs

def UART_TX_BUF_SIZE : ℕ := 32

/-- Bytes in the FIFO of the device. -/
def UART_FIFO_SIZE : ℕ := 16

/-- Where a CPU is. -/
inductive UartPc (P : Type*)
  | code
  /-- In `uartputc`, before the test of `panicked`. -/
  | enter (p : P) (b : Byte)
  /-- Before the test of the `while` loop. -/
  | test (p : P) (b : Byte)
  /-- In `uartstart`, at the start of the loop. -/
  | start
  /-- Before `wakeup(&uart_tx_r)`. -/
  | wakeup (b : Byte)
  /-- Before `WriteReg(THR, c)`. -/
  | send (b : Byte)
  /-- Before `release(&uart_tx_lock)`. -/
  | release
  /-- In `uartintr`. -/
  | intr
  /-- In `uartputc_sync`, called by `uartintr` or not, before the test of `LSR_TX_IDLE`. -/
  | sync (inIntr : Bool) (b : Byte)
  /-- Before `WriteReg(THR, c)` there. -/
  | store (inIntr : Bool) (b : Byte)
  /-- In `for(;;)`, with `uart_tx_lock` or without. -/
  | hung (locked : Bool)
  deriving DecidableEq

namespace UartPc

variable {P : Type*}

/-- The CPU holds `uart_tx_lock`. -/
def locked : UartPc P → Bool
  | enter _ _ | test _ _ | start | wakeup _ | send _ | release | hung true => true
  | _ => false

/-- The CPU has seen `LSR_TX_IDLE` and not yet written. -/
def armed : UartPc P → Bool
  | wakeup _ | send _ | store _ _ => true
  | _ => false

/-- `LSR_TX_IDLE` will be tested again. -/
def busy : UartPc P → Bool
  | start | wakeup _ | send _ | intr | sync true _ | store true _ => true
  | _ => false

/-- The byte that is out of the buffer and not in the device. -/
def hand : UartPc P → List Byte
  | wakeup b | send b => [b]
  | _ => []

/-- Where `uartputc_sync` returns. -/
def back : Bool → UartPc P
  | true => intr
  | false => code

end UartPc

/-- The buffer, the processes in `uartputc` and the device. -/
structure UartSys (C P : Type*) where
  uart_tx_buf : ℕ → Byte
  uart_tx_w : BitVec 64
  uart_tx_r : BitVec 64
  /-- `uart_tx_lock`. -/
  lock : Option C
  panicked : Bool
  pc : C → UartPc P
  /-- In `sleep`, with the byte that is to be put; `true` from the `wakeup` on. -/
  sleeper : P → Option (Byte × Bool)
  fifo : List Byte
  /-- Interrupt pending. -/
  irq : Bool

inductive UartEvent (C P : Type*)
  | acquire (c : C) (p : P) (b : Byte)
  | check (c : C) (p : P) (b : Byte)
  | put (c : C) (p : P) (b : Byte)
  | sleep (c : C) (p : P) (b : Byte)
  /-- `sleep` returns. -/
  | resume (c : C) (p : P) (b : Byte)
  | kill (p : P)
  /-- `uartstart` returns. -/
  | stop (c : C)
  | take (c : C) (b : Byte)
  | wakeup (c : C) (b : Byte)
  | send (c : C) (b : Byte)
  | release (c : C)
  /-- `uartintr` is called. -/
  | interrupt (c : C)
  | handle (c : C)
  | sync (c : C) (inIntr : Bool) (b : Byte)
  | idle (c : C) (inIntr : Bool) (b : Byte)
  | store (c : C) (inIntr : Bool) (b : Byte)
  /-- A byte leaves the device. -/
  | transmit (b : Byte)
  | panic

namespace UartSys

variable {C P : Type*} [DecidableEq C] [DecidableEq P]

def goto (s : UartSys C P) (c : C) (pc : UartPc P) : UartSys C P :=
  { s with pc := update s.pc c pc }

/-- `WriteReg(THR, b)`. -/
def thr (s : UartSys C P) (b : Byte) : UartSys C P :=
  { s with fifo := if s.fifo.length < UART_FIFO_SIZE then s.fifo ++ [b] else s.fifo }

/-- The steps of the CPUs, one access to shared memory or to the device each, and the device. -/
inductive Step (s : UartSys C P) : UartEvent C P → UartSys C P → Prop
  | acquire {c : C} {p : P} {b : Byte} (h : s.pc c = .code) (hp : s.sleeper p = none)
    (hl : s.lock = none) :
    Step s (.acquire c p b) { s.goto c (.enter p b) with lock := some c }
  | check {c : C} {p : P} {b : Byte} (h : s.pc c = .enter p b) :
    Step s (.check c p b) (s.goto c (if s.panicked then .hung true else .test p b))
  | put {c : C} {p : P} {b : Byte} (h : s.pc c = .test p b)
    (hw : s.uart_tx_w ≠ s.uart_tx_r + BitVec.ofNat 64 UART_TX_BUF_SIZE) :
    Step s (.put c p b) { s.goto c .start with
      uart_tx_buf := update s.uart_tx_buf (Ring.index UART_TX_BUF_SIZE s.uart_tx_w) b
      uart_tx_w := s.uart_tx_w + 1 }
  | sleep {c : C} {p : P} {b : Byte} (h : s.pc c = .test p b)
    (hw : s.uart_tx_w = s.uart_tx_r + BitVec.ofNat 64 UART_TX_BUF_SIZE) :
    Step s (.sleep c p b) { s.goto c .code with
      lock := none
      sleeper := update s.sleeper p (some (b, false)) }
  | resume {c : C} {p : P} {b : Byte} (h : s.pc c = .code) (hp : s.sleeper p = some (b, true))
    (hl : s.lock = none) :
    Step s (.resume c p b) { s.goto c (.test p b) with
      lock := some c
      sleeper := update s.sleeper p none }
  | kill {p : P} {b : Byte} (hp : s.sleeper p = some (b, false)) :
    Step s (.kill p) { s with sleeper := update s.sleeper p (some (b, true)) }
  | stop {c : C} (h : s.pc c = .start) (hw : s.uart_tx_w = s.uart_tx_r ∨ s.fifo ≠ []) :
    Step s (.stop c) (s.goto c .release)
  | take {c : C} (h : s.pc c = .start) (hw : s.uart_tx_w ≠ s.uart_tx_r) (hf : s.fifo = []) :
    Step s (.take c (s.uart_tx_buf (Ring.index UART_TX_BUF_SIZE s.uart_tx_r)))
      { s.goto c (.wakeup (s.uart_tx_buf (Ring.index UART_TX_BUF_SIZE s.uart_tx_r))) with
        uart_tx_r := s.uart_tx_r + 1 }
  | wakeup {c : C} {b : Byte} (h : s.pc c = .wakeup b) :
    Step s (.wakeup c b) { s.goto c (.send b) with
      sleeper := fun p => (s.sleeper p).map fun x => (x.1, true) }
  | send {c : C} {b : Byte} (h : s.pc c = .send b) : Step s (.send c b) ((s.goto c .start).thr b)
  | release {c : C} (h : s.pc c = .release) :
    Step s (.release c) { s.goto c .code with lock := none }
  | interrupt {c : C} (h : s.pc c = .code) :
    Step s (.interrupt c) { s.goto c .intr with irq := false }
  | handle {c : C} (h : s.pc c = .intr) (hl : s.lock = none) :
    Step s (.handle c) { s.goto c .start with lock := some c }
  | sync {c : C} {i : Bool} {b : Byte} (h : s.pc c = .back i) :
    Step s (.sync c i b) (s.goto c (if s.panicked then .hung false else .sync i b))
  | idle {c : C} {i : Bool} {b : Byte} (h : s.pc c = .sync i b) (hf : s.fifo = []) :
    Step s (.idle c i b) (s.goto c (.store i b))
  | store {c : C} {i : Bool} {b : Byte} (h : s.pc c = .store i b) :
    Step s (.store c i b) ((s.goto c (.back i)).thr b)
  | transmit {b : Byte} {l : List Byte} (h : s.fifo = b :: l) :
    Step s (.transmit b) { s with
      fifo := l
      irq := s.irq || l.isEmpty }
  | panic : Step s .panic { s with panicked := true }

/-- After `uartinit`. -/
structure Init (s : UartSys C P) : Prop where
  uart_tx_w : s.uart_tx_w = 0
  uart_tx_r : s.uart_tx_r = 0
  lock : s.lock = none
  pc : ∀ c, s.pc c = .code
  sleeper : ∀ p, s.sleeper p = none
  fifo : s.fifo = []

end UartSys

/-! ## The wire -/

/-- The bytes that are accepted and not yet written to the device, and those in the device. -/
structure Wire where
  queue : List Byte
  fifo : List Byte

inductive WireEvent
  | put (b : Byte)
  /-- A byte of the queue is written to the device. -/
  | send (b : Byte)
  /-- Another byte is written to the device. -/
  | echo (b : Byte)
  | transmit (b : Byte)

/-- Two queues, one behind the other. -/
inductive WireStep (u : Wire) : WireEvent → Wire → Prop
  | put {b : Byte} : WireStep u (.put b) { u with queue := u.queue ++ [b] }
  | send {b : Byte} {l : List Byte} (h : u.queue = b :: l) :
    WireStep u (.send b) ⟨l, u.fifo ++ [b]⟩
  | echo {b : Byte} : WireStep u (.echo b) { u with fifo := u.fifo ++ [b] }
  | transmit {b : Byte} {l : List Byte} (h : u.fifo = b :: l) :
    WireStep u (.transmit b) { u with fifo := l }

namespace WireEvent

def accepted : WireEvent → Option Byte
  | put b => some b
  | _ => none

def sent : WireEvent → Option Byte
  | send b => some b
  | _ => none

def written : WireEvent → Option Byte
  | send b | echo b => some b
  | _ => none

def transmitted : WireEvent → Option Byte
  | transmit b => some b
  | _ => none

end WireEvent

/-- Nothing is lost and nothing overtakes. -/
theorem WireStep.bytes {es : List WireEvent} {u : Wire} (h : Run WireStep ⟨[], []⟩ es u) :
    es.filterMap WireEvent.accepted = es.filterMap WireEvent.sent ++ u.queue ∧
      es.filterMap WireEvent.written = es.filterMap WireEvent.transmitted ++ u.fifo := by
  induction h with
  | nil => exact ⟨rfl, rfl⟩
  | @snoc es u v e _ hst ih =>
    obtain ⟨hq, hf⟩ := ih
    simp only [List.filterMap_append, hq, hf]
    cases hst with
    | put | echo =>
      simp [List.filterMap_cons, WireEvent.accepted, WireEvent.sent, WireEvent.written,
        WireEvent.transmitted]
    | send hu | transmit hu =>
      simp [List.filterMap_cons, WireEvent.accepted, WireEvent.sent, WireEvent.written,
        WireEvent.transmitted, hu]

namespace UartSys

variable {C P : Type*} [DecidableEq C] [DecidableEq P]
variable {s t : UartSys C P} {u v : Wire} {c d : C} {p : P} {b : Byte} {e : UartEvent C P}

/-- What the wire sees. -/
def visible : UartEvent C P → Option WireEvent
  | .put _ _ b => some (.put b)
  | .send _ b => some (.send b)
  | .store _ _ b => some (.echo b)
  | .transmit b => some (.transmit b)
  | _ => none

/-! ## The lock -/

/-- `uart_tx_lock` is held by the CPU whose place says so. -/
def LockOk (lock : Option C) (pc : C → UartPc P) : Prop :=
  ∀ c, lock = some c ↔ (pc c).locked = true

variable {lock : Option C} {pc : C → UartPc P} {x : UartPc P}

theorem LockOk.goto (h : LockOk lock pc) (hx : x.locked = (pc c).locked) :
    LockOk lock (update pc c x) := by
  intro d
  rw [h d]
  by_cases hd : d = c
  · rw [hd, update_self, hx]
  · rw [update_of_ne hd]

theorem LockOk.unique (h : LockOk lock pc) (hc : (pc c).locked = true)
    (hd : (pc d).locked = true) : c = d :=
  Option.some.inj (((h c).2 hc).symm.trans ((h d).2 hd))

theorem LockOk.acquire (h : LockOk none pc) (hx : x.locked = true) :
    LockOk (some c) (update pc c x) := by
  intro d
  by_cases hd : d = c
  · simp [hd, hx]
  · have hfree := h d
    rw [update_of_ne hd, ← hfree, Option.some.injEq]
    exact ⟨fun hcd => absurd hcd.symm hd, nofun⟩

theorem LockOk.release (h : LockOk lock pc) (hc : (pc c).locked = true) (hx : x.locked = false) :
    LockOk none (update pc c x) := by
  intro d
  by_cases hd : d = c
  · simp [hd, hx]
  · rw [update_of_ne hd]
    exact ⟨nofun, fun hlocked => absurd (h.unique hlocked hc) hd⟩

theorem Step.lockOk (hs : Step s e t) (h : LockOk s.lock s.pc) : LockOk t.lock t.pc := by
  cases hs with
  | acquire _ _ hl | resume _ _ hl | handle _ hl =>
    rw [hl] at h
    exact h.acquire rfl
  | sleep hc | release hc => exact h.release (by rw [hc]; rfl) rfl
  | check hc =>
    refine h.goto ?_
    rw [hc]
    split_ifs <;> rfl
  | @sync c i b hc =>
    refine h.goto ?_
    rw [hc]
    cases i <;> split_ifs <;> rfl
  | @store c i b hc =>
    refine h.goto ?_
    rw [hc]
    cases i <;> rfl
  | put hc | stop hc | take hc | wakeup hc | send hc | interrupt hc | idle hc =>
    exact h.goto (by rw [hc]; rfl)
  | kill | transmit | panic => exact h

/-! ## The FIFO of the device -/

/-- The number of CPUs that are about to write. -/
def armed [Fintype C] (pc : C → UartPc P) : ℕ :=
  ∑ c, (pc c).armed.toNat

section Room

variable [Fintype C]

theorem armed_update (pc : C → UartPc P) (c : C) (x : UartPc P) :
    armed (update pc c x) + (pc c).armed.toNat = armed pc + x.armed.toNat := by
  have hfun : (fun d => (update pc c x d).armed.toNat) =
      update (fun d => (pc d).armed.toNat) c x.armed.toNat := by
    funext d
    by_cases hd : d = c
    · rw [hd, update_self, update_self]
    · rw [update_of_ne hd, update_of_ne hd]
  have hold := Finset.add_sum_erase Finset.univ (fun d => (pc d).armed.toNat) (Finset.mem_univ c)
  unfold armed
  rw [hfun, Finset.sum_update_of_mem (Finset.mem_univ c), ← Finset.erase_eq]
  omega

theorem armed_le : armed pc ≤ Fintype.card C := by
  unfold armed
  refine (Finset.sum_le_card_nsmul _ _ 1 fun c _ => Bool.toNat_le _).trans ?_
  simp

/-- Each CPU has room for a byte. -/
def Room (s : UartSys C P) : Prop :=
  s.fifo.length + armed s.pc ≤ Fintype.card C

theorem Room.goto (h : Room s) (hx : x.armed = (s.pc c).armed) : Room (s.goto c x) := by
  have hcard := armed_update s.pc c x
  rw [hx] at hcard
  have hsame : armed (update s.pc c x) = armed s.pc := by omega
  show s.fifo.length + armed (update s.pc c x) ≤ Fintype.card C
  rw [hsame]
  exact h

/-- The FIFO is empty when a CPU gets ready to write. -/
theorem room_of_idle (hf : s.fifo = []) : Room (s.goto c x) := by
  show s.fifo.length + armed (update s.pc c x) ≤ Fintype.card C
  rw [hf]
  simpa using armed_le

theorem Room.thr (h : Room s) (hc : (s.pc c).armed = true) (hx : x.armed = false) :
    Room ((s.goto c x).thr b) := by
  have hcard := armed_update s.pc c x
  rw [hc, hx] at hcard
  have hlen : ((s.goto c x).thr b).fifo.length ≤ s.fifo.length + 1 := by
    show (if s.fifo.length < UART_FIFO_SIZE then s.fifo ++ [b] else s.fifo).length ≤ _
    split_ifs <;> simp
  show ((s.goto c x).thr b).fifo.length + armed (update s.pc c x) ≤ Fintype.card C
  have hroom : s.fifo.length + armed s.pc ≤ Fintype.card C := h
  simp only [Bool.toNat_true, Bool.toNat_false] at hcard
  omega

theorem Step.room (hs : Step s e t) (h : Room s) : Room t := by
  cases hs with
  | acquire hc | resume hc | sleep hc | put hc | stop hc | release hc | wakeup hc | interrupt hc
  | handle hc => exact h.goto (by rw [hc]; rfl)
  | check hc =>
    refine h.goto ?_
    rw [hc]
    split_ifs <;> rfl
  | @sync c i b hc =>
    refine h.goto ?_
    rw [hc]
    cases i <;> split_ifs <;> rfl
  | kill | panic => exact h
  | take _ _ hf | idle _ hf => exact room_of_idle hf
  | send hc => exact h.thr (by rw [hc]; rfl) rfl
  | @store c i b hc => exact h.thr (by rw [hc]; rfl) (by cases i <;> rfl)
  | transmit hf =>
    refine Nat.le_trans (Nat.add_le_add_right ?_ _) h
    rw [hf]
    exact Nat.le_succ _

/-- Nothing that is written is lost. -/
theorem Room.thr_fifo (h : Room s) (hC : Fintype.card C ≤ UART_FIFO_SIZE)
    (hc : (s.pc c).armed = true) : ((s.goto c x).thr b).fifo = s.fifo ++ [b] := by
  have hone : 1 ≤ armed s.pc := by
    have hle := Finset.single_le_sum (f := fun d => (s.pc d).armed.toNat)
      (fun d _ => Nat.zero_le _) (Finset.mem_univ c)
    rwa [hc] at hle
  have hroom : s.fifo.length + armed s.pc ≤ Fintype.card C := h
  exact if_pos (show s.fifo.length < UART_FIFO_SIZE by omega)

end Room

/-! ## The buffer -/

/-- The bytes in `uart_tx_buf`. -/
def contents (s : UartSys C P) : List Byte :=
  Ring.window UART_TX_BUF_SIZE s.uart_tx_buf s.uart_tx_r (s.uart_tx_w - s.uart_tx_r).toNat

/-- The byte between the buffer and the device. -/
def inHand (lock : Option C) (pc : C → UartPc P) : List Byte :=
  (lock.map fun c => (pc c).hand).getD []

theorem inHand_of_locked (h : LockOk lock pc) (hc : (pc c).locked = true) :
    inHand lock pc = (pc c).hand := by
  rw [(h c).2 hc]
  rfl

theorem inHand_acquire (hx : x.hand = []) : inHand (some c) (update pc c x) = [] := by
  show (update pc c x c).hand = []
  rw [update_self, hx]

theorem inHand_goto (hx : x.hand = (pc c).hand) : inHand lock (update pc c x) = inHand lock pc := by
  cases lock with
  | none => rfl
  | some d =>
    show (update pc c x d).hand = (pc d).hand
    by_cases hd : d = c
    · rw [hd, update_self, hx]
    · rw [update_of_ne hd]

theorem dvd_counter : UART_TX_BUF_SIZE ∣ 2 ^ 64 :=
  ⟨2 ^ 59, rfl⟩

theorem full_iff : s.uart_tx_w = s.uart_tx_r + BitVec.ofNat 64 UART_TX_BUF_SIZE ↔
    (s.uart_tx_w - s.uart_tx_r).toNat = UART_TX_BUF_SIZE := by
  constructor
  · intro h
    rw [h, add_sub_cancel_left]
    rfl
  · intro h
    have hw := Ring.at_sub (r := s.uart_tx_r) (w := s.uart_tx_w)
    rw [← hw, h]
    rfl

/-- The buffer, and the queues of the wire. -/
structure BufOk (s : UartSys C P) (u : Wire) : Prop where
  size : (s.uart_tx_w - s.uart_tx_r).toNat ≤ UART_TX_BUF_SIZE
  queue : u.queue = inHand s.lock s.pc ++ s.contents
  fifo : u.fifo = s.fifo

/-- A step without a byte. -/
theorem BufOk.of_eq (h : BufOk s u) (hbuf : t.uart_tx_buf = s.uart_tx_buf)
    (hw : t.uart_tx_w = s.uart_tx_w) (hr : t.uart_tx_r = s.uart_tx_r)
    (hhand : inHand t.lock t.pc = inHand s.lock s.pc) (hf : t.fifo = s.fifo) : BufOk t u := by
  refine ⟨?_, ?_, ?_⟩
  · rw [hw, hr]
    exact h.size
  · rw [h.queue, hhand, contents, contents, hbuf, hw, hr]
  · rw [h.fifo, hf]

theorem BufOk.put (h : BufOk s u) (hc : s.pc c = .test p b)
    (hw : s.uart_tx_w ≠ s.uart_tx_r + BitVec.ofNat 64 UART_TX_BUF_SIZE) :
    BufOk { s.goto c .start with
      uart_tx_buf := update s.uart_tx_buf (Ring.index UART_TX_BUF_SIZE s.uart_tx_w) b
      uart_tx_w := s.uart_tx_w + 1 } { u with queue := u.queue ++ [b] } := by
  have hlt : (s.uart_tx_w - s.uart_tx_r).toNat < UART_TX_BUF_SIZE :=
    Nat.lt_of_le_of_ne h.size fun heq => hw (full_iff.2 heq)
  have hlen : (s.uart_tx_w + 1 - s.uart_tx_r).toNat = (s.uart_tx_w - s.uart_tx_r).toNat + 1 := by
    refine Ring.toNat_succ_sub (lt_of_le_of_lt hlt ?_)
    decide
  refine ⟨?_, ?_, h.fifo⟩
  · show (s.uart_tx_w + 1 - s.uart_tx_r).toNat ≤ _
    rw [hlen]
    exact hlt
  · have hhand : inHand s.lock (update s.pc c .start) = inHand s.lock s.pc :=
      inHand_goto (by rw [hc]; rfl)
    have hpush := Ring.window_push (d := s.uart_tx_buf) (r := s.uart_tx_r) (x := b) dvd_counter hlt
    rw [Ring.at_sub] at hpush
    show u.queue ++ [b] = inHand s.lock (update s.pc c .start) ++ Ring.window UART_TX_BUF_SIZE
      (update s.uart_tx_buf (Ring.index UART_TX_BUF_SIZE s.uart_tx_w) b) s.uart_tx_r
      (s.uart_tx_w + 1 - s.uart_tx_r).toNat
    rw [hhand, h.queue, hlen, hpush, List.append_assoc]
    rfl

theorem BufOk.take (h : BufOk s u) (hl : LockOk s.lock s.pc) (hc : s.pc c = .start)
    (hw : s.uart_tx_w ≠ s.uart_tx_r) :
    BufOk { s.goto c (.wakeup (s.uart_tx_buf (Ring.index UART_TX_BUF_SIZE s.uart_tx_r))) with
      uart_tx_r := s.uart_tx_r + 1 } u := by
  have hpos : (s.uart_tx_w - s.uart_tx_r).toNat ≠ 0 := by
    intro h0
    exact hw (Ring.toNat_sub_eq_zero.1 h0).symm
  have hlen := Ring.toNat_sub_succ hpos
  have hsucc : (s.uart_tx_w - s.uart_tx_r).toNat = (s.uart_tx_w - s.uart_tx_r).toNat - 1 + 1 := by
    omega
  refine ⟨?_, ?_, h.fifo⟩
  · show (s.uart_tx_w - (s.uart_tx_r + 1)).toNat ≤ _
    rw [hlen]
    exact (Nat.sub_le _ _).trans h.size
  · have hold : inHand s.lock s.pc = [] := by
      rw [inHand_of_locked hl (by rw [hc]; rfl : (s.pc c).locked = true), hc]
      rfl
    have hlock : s.lock = some c := (hl c).2 (by rw [hc]; rfl)
    have hpop : s.contents = _ :=
      (congrArg (Ring.window UART_TX_BUF_SIZE s.uart_tx_buf s.uart_tx_r) hsucc).trans Ring.window_pop
    rw [h.queue, hold, hpop]
    show _ = inHand s.lock (update s.pc c _) ++ Ring.window _ _ _ (s.uart_tx_w - (s.uart_tx_r + 1)).toNat
    rw [hlen, hlock]
    show _ = (update s.pc c _ c).hand ++ _
    rw [update_self]
    rfl

theorem BufOk.send (h : BufOk s u) (hl : LockOk s.lock s.pc) (hc : s.pc c = .send b)
    (hthr : ((s.goto c .start).thr b).fifo = s.fifo ++ [b]) :
    ∃ v, WireStep u (.send b) v ∧ BufOk ((s.goto c .start).thr b) v := by
  have hlock : s.lock = some c := (hl c).2 (by rw [hc]; rfl)
  have hhand : inHand s.lock s.pc = [b] := by
    rw [hlock]
    show (s.pc c).hand = [b]
    rw [hc]
    rfl
  have hnew : inHand s.lock (update s.pc c .start) = [] := by
    rw [hlock]
    show (update s.pc c .start c).hand = []
    rw [update_self]
    rfl
  have hqueue : u.queue = b :: s.contents := by
    rw [h.queue, hhand]
    rfl
  refine ⟨_, .send hqueue, h.size, ?_, ?_⟩
  · show s.contents = inHand s.lock (update s.pc c .start) ++ s.contents
    rw [hnew]
    rfl
  · rw [hthr, h.fifo]

/-! ## Sleep -/

/-- Whoever sleeps has a reason, or is about to be woken up. -/
def Asleep (s : UartSys C P) : Prop :=
  ∀ p b, s.sleeper p = some (b, false) →
    (s.uart_tx_w - s.uart_tx_r).toNat = UART_TX_BUF_SIZE ∨ ∃ c b', s.pc c = .wakeup b'

/-- A step that wakes nobody up. -/
theorem Asleep.goto (h : Asleep s) (hc : ∀ b', s.pc c ≠ .wakeup b')
    (hsl : ∀ p b, t.sleeper p = some (b, false) → s.sleeper p = some (b, false))
    (hpc : t.pc = update s.pc c x) (hw : t.uart_tx_w = s.uart_tx_w)
    (hr : t.uart_tx_r = s.uart_tx_r) : Asleep t := by
  intro p b hp
  rcases h p b (hsl p b hp) with hfull | ⟨d, b', hd⟩
  · exact .inl (by rw [hw, hr, hfull])
  · refine .inr ⟨d, b', ?_⟩
    have hne : d ≠ c := fun hdc => hc b' (hdc ▸ hd)
    rw [hpc, update_of_ne hne, hd]

theorem Step.asleep (hs : Step s e t) (hl : LockOk s.lock s.pc) (h : Asleep s) : Asleep t := by
  cases hs with
  | acquire hc | check hc | stop hc | release hc | interrupt hc | handle hc | idle hc | send hc =>
    exact h.goto (by rw [hc]; nofun) (fun _ _ hp => hp) rfl rfl rfl
  | @sync c i b hc | @store c i b hc =>
    exact h.goto (by rw [hc]; cases i <;> nofun) (fun _ _ hp => hp) rfl rfl rfl
  | @put c p b hc hw =>
    intro q b' hq
    rcases h q b' hq with hfull | ⟨d, b', hd⟩
    · exact absurd (full_iff.2 hfull) hw
    · have hdc : d = c := hl.unique (by rw [hd]; rfl) (by rw [hc]; rfl)
      rw [hdc, hc] at hd
      nomatch hd
  | @sleep c p b hc hw => exact fun _ _ _ => .inl (full_iff.1 hw)
  | @resume c p b hc =>
    refine h.goto (by rw [hc]; nofun) (fun q b' hq => ?_) rfl rfl rfl
    have hq' : update s.sleeper p none q = some (b', false) := hq
    by_cases hqp : q = p
    · rw [hqp, update_self] at hq'
      nomatch hq'
    · rwa [update_of_ne hqp] at hq'
  | @kill p b hp =>
    intro q b' hq
    have hq' : update s.sleeper p (some (b, true)) q = some (b', false) := hq
    by_cases hqp : q = p
    · rw [hqp, update_self] at hq'
      nomatch hq'
    · rw [update_of_ne hqp] at hq'
      exact h q b' hq'
  | @take c hc => exact fun _ _ _ => .inr ⟨c, _, update_self ..⟩
  | @wakeup c b hc =>
    intro q b' hq
    obtain ⟨x, -, hx⟩ := Option.map_eq_some_iff.1 hq
    nomatch congrArg Prod.snd hx
  | transmit | panic => exact h

/-! ## Output -/

/-- The device has something to do, or it will be looked at. -/
def Going (s : UartSys C P) : Prop :=
  s.fifo ≠ [] ∨ s.irq = true ∨ s.panicked = true ∨ ∃ c, (s.pc c).busy = true

/-- While there is something in the buffer, the output goes on. -/
def GoesOn (s : UartSys C P) : Prop :=
  s.uart_tx_w ≠ s.uart_tx_r → Going s

theorem Going.goto (h : Going s) (hx : (s.pc c).busy = true → x.busy = true)
    (hpc : t.pc = update s.pc c x) (hf : s.fifo ≠ [] → t.fifo ≠ []) (hi : t.irq = s.irq)
    (hp : t.panicked = s.panicked) : Going t := by
  rcases h with h | h | h | ⟨d, hd⟩
  · exact .inl (hf h)
  · exact .inr (.inl (by rw [hi, h]))
  · exact .inr (.inr (.inl (by rw [hp, h])))
  · refine .inr (.inr (.inr ⟨d, ?_⟩))
    rw [hpc]
    by_cases hdc : d = c
    · rw [hdc, update_self]
      exact hx (hdc ▸ hd)
    · rwa [update_of_ne hdc]

theorem Going.of_busy (hpc : t.pc = update s.pc c x) (hx : x.busy = true) : Going t :=
  .inr (.inr (.inr ⟨c, by rw [hpc, update_self, hx]⟩))

theorem thr_ne_nil : (s.thr b).fifo ≠ [] := by
  show (if s.fifo.length < UART_FIFO_SIZE then s.fifo ++ [b] else s.fifo) ≠ []
  split_ifs with hlen
  · simp
  · intro h0
    rw [h0] at hlen
    exact hlen (by decide)

theorem Step.goesOn (hs : Step s e t) (h : GoesOn s) : GoesOn t := by
  intro hw
  cases hs with
  | acquire hc | release hc | resume hc | sleep hc =>
    exact (h hw).goto (by rw [hc]; nofun) rfl id rfl rfl
  | @check c p b hc => exact (h hw).goto (by rw [hc]; nofun) rfl id rfl rfl
  | put | handle | interrupt | take | wakeup => exact .of_busy (s := s) rfl rfl
  | @stop c hc hstop =>
    rcases hstop with heq | hf
    · exact absurd heq hw
    · exact .inl hf
  | send | store => exact .inl thr_ne_nil
  | @sync c i b hc =>
    by_cases hp : s.panicked = true
    · exact .inr (.inr (.inl hp))
    · refine (h hw).goto (x := if s.panicked then .hung false else .sync i b) ?_ rfl id rfl rfl
      rw [hc, if_neg hp]
      cases i
      · nofun
      · exact fun _ => rfl
  | @idle c i b hc => 
    refine (h hw).goto ?_ rfl id rfl rfl
    rw [hc]
    cases i
    · nofun
    · exact fun _ => rfl
  | kill => exact h hw
  | @transmit b l hf =>
    cases l with
    | nil => exact .inr (.inl (Bool.or_true _))
    | cons => exact .inl nofun
  | panic => exact .inr (.inr (.inl rfl))

/-! ## Runs -/

theorem Init.lockOk (h : Init s) : LockOk s.lock s.pc := by
  intro c
  rw [h.lock, h.pc c]
  exact ⟨nofun, nofun⟩

theorem Init.asleep (h : Init s) : Asleep s := by
  intro p b hp
  rw [h.sleeper p] at hp
  nomatch hp

theorem Init.goesOn (h : Init s) : GoesOn s := by
  intro hw
  rw [h.uart_tx_w, h.uart_tx_r] at hw
  exact absurd rfl hw

section Runs

variable [Fintype C]

/-- The invariant. -/
structure Ok (s : UartSys C P) (u : Wire) : Prop where
  lock : LockOk s.lock s.pc
  room : Room s
  buf : BufOk s u
  asleep : Asleep s
  goesOn : GoesOn s

theorem Init.ok (h : Init s) : Ok s ⟨[], []⟩ := by
  have hlen : (s.uart_tx_w - s.uart_tx_r).toNat = 0 := by
    rw [h.uart_tx_w, h.uart_tx_r]
    rfl
  refine ⟨h.lockOk, ?_, ⟨?_, ?_, h.fifo.symm⟩, h.asleep, h.goesOn⟩
  · show s.fifo.length + armed s.pc ≤ Fintype.card C
    rw [h.fifo]
    simpa using armed_le
  · rw [hlen]
    exact Nat.zero_le _
  · rw [h.lock, contents, hlen]
    rfl

theorem simulates_wire (hC : Fintype.card C ≤ UART_FIFO_SIZE) :
    SimulatesVis visible Ok (Step (C := C) (P := P)) WireStep := by
  intro s u e t h hs
  have hok : ∀ v, BufOk t v → Ok t v := fun v hv =>
    ⟨hs.lockOk h.lock, hs.room h.room, hv, hs.asleep h.lock h.asleep, hs.goesOn h.goesOn⟩
  have hb := h.buf
  cases hs with
  | @put c p b hc hw => exact ⟨_, .put, hok _ (hb.put hc hw)⟩
  | @send c b hc =>
    obtain ⟨v, hv, hbuf⟩ := hb.send h.lock hc (h.room.thr_fifo hC (by rw [hc]; rfl))
    exact ⟨v, hv, hok v hbuf⟩
  | @store c i b hc =>
    refine ⟨_, .echo, hok _ ⟨hb.size, ?_, ?_⟩⟩
    · show u.queue = inHand s.lock (update s.pc c (.back i)) ++ s.contents
      rw [inHand_goto (by rw [hc]; cases i <;> rfl)]
      exact hb.queue
    · rw [h.room.thr_fifo hC (by rw [hc]; rfl), hb.fifo]
  | @transmit b l hf =>
    exact ⟨_, .transmit (hb.fifo.trans hf), hok _ ⟨hb.size, hb.queue, rfl⟩⟩
  | take hc hw => exact hok u (hb.take h.lock hc hw)
  | acquire _ _ hl | resume _ _ hl | handle _ hl =>
    refine hok u (hb.of_eq rfl rfl rfl ?_ rfl)
    rw [hl]
    exact inHand_acquire rfl
  | sleep hc | release hc =>
    refine hok u (hb.of_eq rfl rfl rfl ?_ rfl)
    rw [inHand_of_locked h.lock (by rw [hc]; rfl), hc]
    rfl
  | check hc => 
    refine hok u (hb.of_eq rfl rfl rfl (inHand_goto ?_) rfl)
    rw [hc]
    split_ifs <;> rfl
  | @sync c i b hc =>
    refine hok u (hb.of_eq rfl rfl rfl (inHand_goto ?_) rfl)
    rw [hc]
    cases i <;> split_ifs <;> rfl
  | stop hc | wakeup hc | interrupt hc | idle hc =>
    exact hok u (hb.of_eq rfl rfl rfl (inHand_goto (by rw [hc]; rfl)) rfl)
  | kill | panic => exact hok u (hb.of_eq rfl rfl rfl rfl rfl)

/-- What `uartputc` accepts is written to the device in the same order, and what is written comes
out of it : the rest is in the buffer, in the hand of a CPU or in the device. -/
theorem uart_refines_wire (hC : Fintype.card C ≤ UART_FIFO_SIZE) {es : List (UartEvent C P)}
    (h0 : Init s) (hr : Run Step s es t) :
    ∃ u, Run WireStep ⟨[], []⟩ (es.filterMap visible) u ∧
      u.queue = inHand t.lock t.pc ++ t.contents ∧ u.fifo = t.fifo ∧
      t.contents.length ≤ UART_TX_BUF_SIZE ∧ t.fifo.length ≤ Fintype.card C ∧
      (es.filterMap visible).filterMap WireEvent.accepted =
        (es.filterMap visible).filterMap WireEvent.sent ++ u.queue ∧
      (es.filterMap visible).filterMap WireEvent.written =
        (es.filterMap visible).filterMap WireEvent.transmitted ++ u.fifo := by
  obtain ⟨u, hu, h⟩ := hr.simulate_vis (simulates_wire hC) h0.ok
  obtain ⟨hqueue, hfifo⟩ := WireStep.bytes hu
  refine ⟨u, hu, h.buf.queue, h.buf.fifo, ?_, (Nat.le_add_right _ _).trans h.room, hqueue, hfifo⟩
  rw [contents, Ring.length_window]
  exact h.buf.size

/-- A CPU at rest. -/
def quiet : UartSys Bool Unit where
  uart_tx_buf _ := 0
  uart_tx_w := 0
  uart_tx_r := 0
  lock := none
  panicked := false
  pc _ := .code
  sleeper _ := none
  fifo := []
  irq := false

theorem quiet_init : quiet.Init := by
  constructor
  all_goals first | rfl | intro _; rfl

/-- The echo of a byte on another CPU comes between the test and the write. -/
theorem uart_refines_wire_quiet : ∃ t : UartSys Bool Unit, t.fifo = [7, 65] ∧
    ∃ u, Run WireStep ⟨[], []⟩ [.put 65, .echo 7, .send 65] u ∧ u.fifo = t.fifo := by
  have h₀ : Run Step quiet [] quiet := .nil
  have h₁ := h₀.snoc (.acquire (c := true) (p := ()) (b := 65) rfl rfl rfl)
  have h₂ := h₁.snoc (.check (c := true) (p := ()) (b := 65) rfl)
  have h₃ := h₂.snoc (.put (c := true) (p := ()) (b := 65) rfl (by decide))
  have h₄ := h₃.snoc (.sync (c := false) (i := false) (b := 7) rfl)
  have h₅ := h₄.snoc (.idle (c := false) (i := false) (b := 7) rfl rfl)
  have h₆ := h₅.snoc (.take (c := true) rfl (by decide) rfl)
  have h₇ := h₆.snoc (.store (c := false) (i := false) (b := 7) rfl)
  have h₈ := h₇.snoc (.wakeup (c := true) (b := 65) rfl)
  have h₉ := h₈.snoc (.send (c := true) (b := 65) rfl)
  obtain ⟨u, hu, -, hfifo, -⟩ := uart_refines_wire (by decide) quiet_init h₉
  exact ⟨_, rfl, u, hu, hfifo⟩

end Runs

/-- While there is something in the buffer, the output goes on, and a process sleeps only as long
as the buffer is full or a CPU is about to wake it up. -/
theorem uart_goes_on (hr : Reachable Init Step s) :
    GoesOn s ∧ ∀ p b, s.sleeper p = some (b, false) → Going s ∧
      (s.contents.length = UART_TX_BUF_SIZE ∨ ∃ c b', s.pc c = .wakeup b') := by
  have hinv : LockOk s.lock s.pc ∧ Asleep s ∧ GoesOn s := by
    refine hr.invariant (I := fun s => LockOk s.lock s.pc ∧ Asleep s ∧ GoesOn s) ?_ ?_
    · exact fun s h => ⟨h.lockOk, h.asleep, h.goesOn⟩
    · exact fun s e t h hs => ⟨hs.lockOk h.1, hs.asleep h.1 h.2.1, hs.goesOn h.2.2⟩
  obtain ⟨-, hasleep, hgo⟩ := hinv
  refine ⟨hgo, fun p b hp => ?_⟩
  rcases hasleep p b hp with hfull | ⟨c, b', hc⟩
  · refine ⟨hgo fun heq => ?_, .inl ?_⟩
    · rw [heq, sub_self] at hfull
      nomatch hfull
    · rw [contents, Ring.length_window, hfull]
  · exact ⟨.inr (.inr (.inr ⟨c, by rw [hc]; rfl⟩)), .inr ⟨c, b', hc⟩⟩

/-- A byte has been put. -/
theorem uart_goes_on_quiet : ∃ t : UartSys Bool Unit, t.contents = [65] ∧ Going t := by
  have h₀ : Reachable Init Step quiet := .init quiet_init
  have h₁ := h₀.step (.acquire (c := true) (p := ()) (b := 65) rfl rfl rfl)
  have h₂ := h₁.step (.check (c := true) (p := ()) (b := 65) rfl)
  have h₃ := h₂.step (.put (c := true) (p := ()) (b := 65) rfl (by decide))
  exact ⟨_, rfl, (uart_goes_on h₃).1 (by decide)⟩

end UartSys

end CowPbs
