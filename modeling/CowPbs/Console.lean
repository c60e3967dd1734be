import Mathlib
import CowPbs.Lib.Bytes
import CowPbs.Lib.Ring
import CowPbs.Lib.Transition

/-!
# The console

kernel/console.c : `consoleintr` appends what is typed to the ring `cons.buf`, edits what is not
yet committed (between `cons.w` and `cons.e`) and commits it, and `consoleread`, called by any
number of processes, takes what is committed (between `cons.r` and `cons.w`). The indices are
32-bit counters that wrap.

All of `consoleintr` is one section under `cons.lock`. `consoleread` gives the lock up where it
sleeps; there it is off the CPU at once, since a `wakeup` needs the `p->lock` it keeps until
then. What the copy to the caller's buffer says is part of the event.
-/

open Bytes Function Transition

namespace CowPbs

def INPUT_BUF_SIZE : ℕ := 128

/-- `C(x)`, with `x - '@'` written out. -/
def ctrlD : Byte := 4

def ctrlH : Byte := 8

def ctrlP : Byte := 16

def ctrlU : Byte := 21

def delete : Byte := 127

def newline : Byte := 10

def carriageReturn : Byte := 13

/-- `cons`, without its lock. -/
structure Cons where
  buf : ℕ → Byte
  /-- Read index. -/
  r : BitVec 32
  /-- Write index. -/
  w : BitVec 32
  /-- Edit index. -/
  e : BitVec 32

namespace Cons

/-- The loop of `^U`, for at most `k` rounds. -/
def killLine : ℕ → Cons → Cons
  | 0, s => s
  | k + 1, s =>
    if s.e ≠ s.w ∧ s.buf (Ring.index INPUT_BUF_SIZE (s.e - 1)) ≠ newline then
      killLine k { s with e := s.e - 1 }
    else s

/-- `cons.buf[cons.e++ % INPUT_BUF_SIZE] = c`. -/
def put (s : Cons) (c : Byte) : Cons :=
  { s with buf := update s.buf (Ring.index INPUT_BUF_SIZE s.e) c, e := s.e + 1 }

/-- `cons.buf[cons.r % INPUT_BUF_SIZE]`. -/
def head (s : Cons) : Byte :=
  s.buf (Ring.index INPUT_BUF_SIZE s.r)

/-- `cons.r++`. -/
def pop (s : Cons) : Cons :=
  { s with r := s.r + 1 }

/-- `consoleintr(c)`, and whether it calls `wakeup`. -/
def consoleintr (s : Cons) (c : Byte) : Cons × Bool :=
  if c = ctrlP then (s, false)
  else if c = ctrlU then (s.killLine (s.e - s.w).toNat, false)
  else if c = ctrlH ∨ c = delete then
    if s.e ≠ s.w then ({ s with e := s.e - 1 }, false) else (s, false)
  else if c ≠ 0 ∧ (s.e - s.r).toNat < INPUT_BUF_SIZE then
    let c := if c = carriageReturn then newline else c
    let s := s.put c
    if c = newline ∨ c = ctrlD ∨ (s.e - s.r).toNat = INPUT_BUF_SIZE then
      ({ s with w := s.e }, true)
    else (s, false)
  else (s, false)

end Cons

/-- A call of `consoleread` : `target`, what is left of `n`, and what has been copied out. -/
structure ReadCall where
  target : ℤ
  n : ℤ
  out : List Byte
  deriving DecidableEq

/-- A byte is copied out. -/
def ReadCall.store (c : ReadCall) (b : Byte) : ReadCall :=
  { c with n := c.n - 1, out := c.out ++ [b] }

/-- Where a process is. -/
inductive ConsPc
  | run
  /-- Before the first `acquire(&cons.lock)`. -/
  | acquire (c : ReadCall)
  /-- Before the test `n > 0`. -/
  | loop (c : ReadCall)
  /-- Before the test `cons.r == cons.w`. -/
  | wait (c : ReadCall)
  /-- In `sleep`, SLEEPING. -/
  | asleep (c : ReadCall)
  /-- In `sleep`, before `acquire(&cons.lock)`. -/
  | woken (c : ReadCall)
  /-- After the loop. -/
  | done (c : ReadCall)
  deriving DecidableEq

namespace ConsPc

/-- The process holds `cons.lock`. -/
def holds : ConsPc → Bool
  | loop _ | wait _ | done _ => true
  | run | acquire _ | asleep _ | woken _ => false

/-- The call the process is in. -/
def call : ConsPc → Option ReadCall
  | run => none
  | acquire c | loop c | wait c | asleep c | woken c | done c => some c

/-- The effect of a `wakeup` of `&cons.r`. -/
def wakeup : ConsPc → ConsPc
  | asleep c => woken c
  | pc => pc

end ConsPc

/-- What a process does in `consoleread`. -/
inductive ReadEvent
  | call (n : ℤ)
  | acquire
  /-- `n > 0`. -/
  | more
  /-- The loop is over. -/
  | enough
  /-- `return -1`. -/
  | killed
  | sleep
  | reacquire
  /-- A byte is read and copied out. -/
  | get (b : Byte)
  /-- A byte is read, and `either_copyout` fails. -/
  | badOut (b : Byte)
  /-- `^D` is read, with nothing copied out before. -/
  | eof
  /-- `^D` is saved for next time. -/
  | save
  /-- `r` is returned to a call that asked for `n` bytes. -/
  | ret (n r : ℤ)
  deriving DecidableEq

/-- What happens : a character is typed, a process is killed, or one reads. -/
inductive ConsEvent (ι : Type)
  | intr (c : Byte)
  | kill (p : ι)
  | read (p : ι) (e : ReadEvent)
  deriving DecidableEq

/-- The console and the processes. -/
structure ConsSys (ι : Type) where
  cons : Cons
  /-- The process that holds `cons.lock`. -/
  lock : Option ι
  pc : ι → ConsPc
  killed : ι → Bool

namespace ConsSys

variable {ι : Type} [DecidableEq ι]

/-- Process `p` goes to `pc`. -/
def goto (s : ConsSys ι) (p : ι) (pc : ConsPc) : ConsSys ι :=
  { s with pc := update s.pc p pc }

/-- The console after `consoleintr`, which wakes everybody or nobody. -/
def intr (s : ConsSys ι) (c : Byte) : ConsSys ι :=
  { s with
    cons := (s.cons.consoleintr c).1
    pc := if (s.cons.consoleintr c).2 then fun p => (s.pc p).wakeup else s.pc }

/-- One step. -/
inductive Step (s : ConsSys ι) : ConsEvent ι → ConsSys ι → Prop
  | intr (c : Byte) (hl : s.lock = none) : Step s (.intr c) (s.intr c)
  | kill (p : ι) :
    Step s (.kill p) ({ s with killed := update s.killed p true }.goto p (s.pc p).wakeup)
  | call (p : ι) (n : ℤ) (hpc : s.pc p = .run) :
    Step s (.read p (.call n)) (s.goto p (.acquire ⟨n, n, []⟩))
  | acquire (p : ι) (c : ReadCall) (hpc : s.pc p = .acquire c) (hl : s.lock = none) :
    Step s (.read p .acquire) ({ s with lock := some p }.goto p (.loop c))
  | more (p : ι) (c : ReadCall) (hpc : s.pc p = .loop c) (hn : 0 < c.n) :
    Step s (.read p .more) (s.goto p (.wait c))
  | enough (p : ι) (c : ReadCall) (hpc : s.pc p = .loop c) (hn : ¬0 < c.n) :
    Step s (.read p .enough) (s.goto p (.done c))
  | killed (p : ι) (c : ReadCall) (hpc : s.pc p = .wait c) (he : s.cons.r = s.cons.w)
      (hk : s.killed p = true) :
    Step s (.read p .killed) ({ s with lock := none }.goto p .run)
  | sleep (p : ι) (c : ReadCall) (hpc : s.pc p = .wait c) (he : s.cons.r = s.cons.w)
      (hk : s.killed p = false) :
    Step s (.read p .sleep) ({ s with lock := none }.goto p (.asleep c))
  | reacquire (p : ι) (c : ReadCall) (hpc : s.pc p = .woken c) (hl : s.lock = none) :
    Step s (.read p .reacquire) ({ s with lock := some p }.goto p (.wait c))
  | eof (p : ι) (c : ReadCall) (hpc : s.pc p = .wait c) (he : s.cons.r ≠ s.cons.w)
      (hd : s.cons.head = ctrlD) (hn : ¬c.n < c.target) :
    Step s (.read p .eof) ({ s with cons := s.cons.pop }.goto p (.done c))
  | save (p : ι) (c : ReadCall) (hpc : s.pc p = .wait c) (he : s.cons.r ≠ s.cons.w)
      (hd : s.cons.head = ctrlD) (hn : c.n < c.target) :
    Step s (.read p .save)
      ({ s with cons := { s.cons.pop with r := s.cons.pop.r - 1 } }.goto p (.done c))
  | get (p : ι) (c : ReadCall) (hpc : s.pc p = .wait c) (he : s.cons.r ≠ s.cons.w)
      (hd : s.cons.head ≠ ctrlD) :
    Step s (.read p (.get s.cons.head))
      ({ s with cons := s.cons.pop }.goto p
        (if s.cons.head = newline then .done (c.store s.cons.head)
        else .loop (c.store s.cons.head)))
  | badOut (p : ι) (c : ReadCall) (hpc : s.pc p = .wait c) (he : s.cons.r ≠ s.cons.w)
      (hd : s.cons.head ≠ ctrlD) :
    Step s (.read p (.badOut s.cons.head)) ({ s with cons := s.cons.pop }.goto p (.done c))
  | ret (p : ι) (c : ReadCall) (hpc : s.pc p = .done c) :
    Step s (.read p (.ret c.target (c.target - c.n))) ({ s with lock := none }.goto p .run)

/-- After `consoleinit`. -/
def Boot (s : ConsSys ι) : Prop :=
  s.lock = none ∧ (∀ p, s.pc p = .run) ∧ s.cons.r = 0 ∧ s.cons.w = 0 ∧ s.cons.e = 0

end ConsSys

end CowPbs
