import Mathlib
import CowPbs.Lib.Transition

/-!
# The log of the file system

kernel/log.c, with the buffers and the disk under it. Any number of processes run file system
operations : each is bracketed by `begin_op` and `end_op`, and changes blocks in the buffers
it has got from `bread`, which it gives to `log_write` before `brelse`. The last operation to
end commits the group. Each write of a block to the disk is a move of its own, so that the
machine may crash between any two of them; after a crash `recover_from_log` runs, and it may
crash too.

Of a buffer we keep what the log depends on : its contents if it is valid, who holds its
sleep-lock, and how often it is pinned. A buffer that is not held and not pinned may be
recycled at any time (`evict`). What the callers have changed but not logged (`unlogged`) is
not in the source; it states their side of the protocol.

A process that `begin_op` does not let in sleeps and tries again, so that is no move. The
block numbers and the words of a block are natural numbers.
-/

set_option linter.unusedSectionVars false

open Function

namespace CowPbs

/-- `MAXOPBLOCKS`, the most blocks that an operation writes. -/
def MAXOPBLOCKS : ℕ := 10

/-- `LOGSIZE`. -/
def LOGSIZE : ℕ := MAXOPBLOCKS * 3

/-- The words of a block of `BSIZE` bytes. -/
abbrev Block : Type :=
  Fin 256 → ℕ

/-- What `initlog` takes from the superblock : the first block of the log, and the number of
its blocks. -/
structure LogArea where
  logstart : ℕ
  nlog : ℕ

/-- What a process is doing. -/
inductive LogPc
  | idle
  /-- Between `begin_op` and `end_op`. -/
  | inOp
  /-- `write_log` has written the first `tail` blocks. -/
  | writing (tail : ℕ)
  /-- `install_trans` has installed the first `tail` blocks. -/
  | installing (tail : ℕ)
  /-- After `commit`. -/
  | committed
  deriving DecidableEq

/-- Where `recover_from_log` is. -/
inductive RecoveryPc
  | readHead
  /-- `install_trans` has installed the first `tail` blocks. -/
  | installing (tail : ℕ)
  /-- The system is up. -/
  | up
  deriving DecidableEq

/-- The panics of `log_write` and `end_op`. -/
inductive LogPanic
  | tooBig
  | outside
  | committing
  deriving DecidableEq

/-- `struct log`, the buffers, the disk, and where each process is. -/
structure LogState (ι : Type) where
  disk : ℕ → Block
  /-- The contents of the valid buffers. -/
  cache : ℕ → Option Block
  /-- How often the buffer is pinned. -/
  pins : ℕ → ℕ
  /-- The buffers whose sleep-locks the process holds. -/
  held : ι → List ℕ
  /-- The buffer was changed after the last `log_write`. -/
  unlogged : ℕ → Bool
  outstanding : ℤ
  committing : Bool
  /-- `log.lh.block`, up to `log.lh.n`. -/
  lh : List ℕ
  pc : ι → LogPc
  recovery : RecoveryPc
  panic : Option LogPanic

/-- The moves. -/
inductive LogEvent (ι : Type)
  | beginOp (p : ι)
  | bread (p : ι) (b : ℕ)
  | modify (p : ι) (b : ℕ) (d : Block)
  | logWrite (p : ι) (b : ℕ) (d : Block)
  | brelse (p : ι) (b : ℕ)
  | endOp (p : ι)
  /-- `write_log` writes a block. -/
  | writeLog (p : ι)
  /-- `write_head` writes the blocks of the group : the real commit. -/
  | writeHead (p : ι)
  /-- `install_trans` writes a block. -/
  | install (p : ι)
  /-- `write_head` erases the group. -/
  | erase (p : ι)
  /-- `committing` is cleared. -/
  | finish (p : ι)
  /-- A buffer is recycled. -/
  | evict (b : ℕ)
  | crash
  /-- `recover_from_log` goes on. -/
  | recover

/-! ## The header -/

/-- The `struct logheader` in a block : `n`, and the first `n` entries of `block`. -/
def Block.head (d : Block) : List ℕ :=
  (List.range (d 0)).map fun i => if h : i + 1 < 256 then d ⟨i + 1, h⟩ else 0

/-- The header is stored in the block, and the words after it stay. -/
def Block.putHead (d : Block) (lh : List ℕ) : Block := fun w =>
  if w.val = 0 then lh.length else lh.getD (w.val - 1) (d w)

theorem Block.head_putHead {d : Block} {lh : List ℕ} (h : lh.length < 256) :
    (d.putHead lh).head = lh := by
  have hn : d.putHead lh 0 = lh.length := rfl
  refine List.ext_getElem (by simp [head, hn]) fun i h₁ h₂ => ?_
  have hi : i + 1 < 256 := by omega
  simp [head, putHead, hi, h₂]

namespace LogArea

variable (sb : LogArea)

/-- The block belongs to the log. -/
def Inside (b : ℕ) : Prop :=
  sb.logstart ≤ b ∧ b < sb.logstart + sb.nlog

instance (b : ℕ) : Decidable (sb.Inside b) :=
  inferInstanceAs (Decidable (_ ∧ _))

end LogArea

namespace LogState

variable {ι : Type} [DecidableEq ι] [Fintype ι] (sb : LogArea) (s : LogState ι)

/-! ## Buffers -/

/-- What `bread` finds in the block. -/
def read (b : ℕ) : Block :=
  (s.cache b).getD (s.disk b)

/-- `bread`, with the buffer valid after it. -/
def load (b : ℕ) : LogState ι :=
  { s with cache := update s.cache b (some (s.read b)) }

/-- `memmove` into the buffer, and `bwrite`. -/
def bwrite (b : ℕ) (d : Block) : LogState ι :=
  { s with cache := update s.cache b (some d), disk := update s.disk b d }

/-- Nobody holds the buffer. -/
def Unheld (b : ℕ) : Prop :=
  ∀ p, b ∉ s.held p

instance (b : ℕ) : Decidable (s.Unheld b) :=
  inferInstanceAs (Decidable (∀ _, _))

/-! ## Operations -/

/-- `begin_op` lets the operation in. -/
def Admits : Prop :=
  s.committing = false ∧ s.lh.length + (s.outstanding + 1) * MAXOPBLOCKS ≤ LOGSIZE

instance : Decidable s.Admits :=
  inferInstanceAs (Decidable (_ ∧ _))

/-- `begin_op`. -/
def beginOp (p : ι) : LogState ι :=
  { s with outstanding := s.outstanding + 1, pc := update s.pc p .inOp }

/-- `log_write`. -/
def logWrite (b : ℕ) : LogState ι :=
  if LOGSIZE ≤ s.lh.length ∨ (sb.nlog : ℤ) - 1 ≤ s.lh.length then
    { s with panic := some .tooBig }
  else if s.outstanding < 1 then { s with panic := some .outside }
  else if b ∈ s.lh then { s with unlogged := update s.unlogged b false }
  else
    { s with
      unlogged := update s.unlogged b false
      pins := update s.pins b (s.pins b + 1)
      lh := s.lh ++ [b] }

/-- `end_op`, up to the test of `do_commit`. -/
def endOp (p : ι) : LogState ι :=
  if s.committing then { s with outstanding := s.outstanding - 1, panic := some .committing }
  else if s.outstanding - 1 = 0 then
    { s with
      outstanding := s.outstanding - 1
      committing := true
      pc := update s.pc p (if s.lh = [] then .committed else .writing 0) }
  else { s with outstanding := s.outstanding - 1, pc := update s.pc p .idle }

/-! ## Commit -/

/-- `write_log` copies a block from the cache to the log. -/
def writeLog (p : ι) (tail b : ℕ) : LogState ι :=
  let t := (s.load (sb.logstart + tail + 1)).load b
  { t.bwrite (sb.logstart + tail + 1) (t.read b) with pc := update s.pc p (.writing (tail + 1)) }

/-- `write_head`. -/
def writeHead : LogState ι :=
  s.bwrite sb.logstart ((s.read sb.logstart).putHead s.lh)

/-- `install_trans` copies a block from the log to its home. -/
def installTrans (tail b : ℕ) : LogState ι :=
  let t := (s.load (sb.logstart + tail + 1)).load b
  t.bwrite b (t.read (sb.logstart + tail + 1))

/-- `bunpin`. -/
def bunpin (b : ℕ) : LogState ι :=
  { s with pins := update s.pins b (s.pins b - 1) }

/-- `log.lh.n = 0` and `write_head`. -/
def eraseHead : LogState ι :=
  { s with lh := [] }.writeHead sb

/-! ## Recovery -/

/-- The machine starts, with what is on the disk. -/
def boot (disk : ℕ → Block) : LogState ι where
  disk := disk
  cache := fun _ => none
  pins := fun _ => 0
  held := fun _ => []
  unlogged := fun _ => false
  outstanding := 0
  committing := false
  lh := []
  pc := fun _ => .idle
  recovery := .readHead
  panic := none

/-- A move of `recover_from_log`. -/
def recover : Option (LogState ι) :=
  match s.recovery with
  | .readHead =>
    some { s.load sb.logstart with
      lh := (s.read sb.logstart).head, recovery := .installing 0 }
  | .installing tail =>
    match s.lh[tail]? with
    | some b => some { s.installTrans sb tail b with recovery := .installing (tail + 1) }
    | none => some { s.eraseHead sb with recovery := .up }
  | .up => none

/-! ## Runs -/

/-- The process may go on : the system is up. -/
def Up : Prop :=
  s.recovery = .up ∧ s.panic = none

instance : Decidable s.Up :=
  inferInstanceAs (Decidable (_ ∧ _))

/-- `write_log` goes on. -/
def writeLogMove (p : ι) : Option (LogState ι) :=
  match s.pc p with
  | .writing tail =>
    match s.lh[tail]? with
    | some b =>
      if s.Unheld b ∧ s.Unheld (sb.logstart + tail + 1) then some (s.writeLog sb p tail b)
      else none
    | none => none
  | .idle | .inOp | .installing _ | .committed => none

/-- `install_trans(0)` goes on. -/
def installMove (p : ι) : Option (LogState ι) :=
  match s.pc p with
  | .installing tail =>
    match s.lh[tail]? with
    | some b =>
      if s.Unheld b ∧ s.Unheld (sb.logstart + tail + 1) then
        some { (s.installTrans sb tail b).bunpin b with
          pc := update s.pc p (.installing (tail + 1)) }
      else none
    | none => none
  | .idle | .inOp | .writing _ | .committed => none

/-- A move. A process that holds a buffer may change it within an operation, and logs it
before it releases it or ends the operation; the blocks of the log are not its to change. -/
def move : LogEvent ι → Option (LogState ι)
  | .beginOp p => if s.Up ∧ s.pc p = .idle ∧ s.Admits then some (s.beginOp p) else none
  | .bread p b =>
    if s.Up ∧ (s.pc p = .idle ∨ s.pc p = .inOp) ∧ s.Unheld b then
      some { s.load b with held := update s.held p (b :: s.held p) }
    else none
  | .modify p b d =>
    if s.Up ∧ s.pc p = .inOp ∧ b ∈ s.held p ∧ ¬sb.Inside b then
      some { s with
        cache := update s.cache b (some d), unlogged := update s.unlogged b true }
    else none
  | .logWrite p b d =>
    if s.Up ∧ s.pc p = .inOp ∧ b ∈ s.held p ∧ ¬sb.Inside b ∧ s.read b = d then
      some (s.logWrite sb b)
    else none
  | .brelse p b =>
    if s.Up ∧ b ∈ s.held p ∧ s.unlogged b = false then
      some { s with held := update s.held p ((s.held p).erase b) }
    else none
  | .endOp p =>
    if s.Up ∧ s.pc p = .inOp ∧ ∀ b ∈ s.held p, s.unlogged b = false then some (s.endOp p)
    else none
  | .writeLog p => if s.Up then s.writeLogMove sb p else none
  | .writeHead p =>
    if s.Up ∧ s.pc p = .writing s.lh.length ∧ s.Unheld sb.logstart then
      some { s.writeHead sb with pc := update s.pc p (.installing 0) }
    else none
  | .install p => if s.Up then s.installMove sb p else none
  | .erase p =>
    if s.Up ∧ s.pc p = .installing s.lh.length ∧ s.Unheld sb.logstart then
      some { s.eraseHead sb with pc := update s.pc p .committed }
    else none
  | .finish p =>
    if s.Up ∧ s.pc p = .committed then
      some { s with committing := false, pc := update s.pc p .idle }
    else none
  | .evict b =>
    if s.Unheld b ∧ s.pins b = 0 then some { s with cache := update s.cache b none } else none
  | .crash => some (boot s.disk)
  | .recover => s.recover sb

/-- One move. -/
def Step (s : LogState ι) (e : LogEvent ι) (t : LogState ι) : Prop :=
  s.move sb e = some t

/-! ## What a move does -/

/-- One move, with the state after it. -/
inductive Moves : LogEvent ι → LogState ι → Prop
  | beginOp (p : ι) (hu : s.Up) (hpc : s.pc p = .idle) (ha : s.Admits) :
    Moves (.beginOp p) { s with outstanding := s.outstanding + 1, pc := update s.pc p .inOp }
  | bread (p : ι) (b : ℕ) (hu : s.Up) (hpc : s.pc p = .idle ∨ s.pc p = .inOp)
      (hb : s.Unheld b) :
    Moves (.bread p b) { s.load b with held := update s.held p (b :: s.held p) }
  | modify (p : ι) (b : ℕ) (d : Block) (hu : s.Up) (hpc : s.pc p = .inOp) (hb : b ∈ s.held p)
      (hin : ¬sb.Inside b) :
    Moves (.modify p b d)
      { s with cache := update s.cache b (some d), unlogged := update s.unlogged b true }
  | tooBig (p : ι) (b : ℕ) (hu : s.Up) (hpc : s.pc p = .inOp)
      (hn : LOGSIZE ≤ s.lh.length ∨ sb.nlog ≤ s.lh.length + 1) :
    Moves (.logWrite p b (s.read b)) { s with panic := some .tooBig }
  | outside (p : ι) (b : ℕ) (hu : s.Up) (hpc : s.pc p = .inOp)
      (hn : s.lh.length < LOGSIZE ∧ s.lh.length + 1 < sb.nlog) (ho : s.outstanding < 1) :
    Moves (.logWrite p b (s.read b)) { s with panic := some .outside }
  | absorb (p : ι) (b : ℕ) (hu : s.Up) (hpc : s.pc p = .inOp) (hb : b ∈ s.held p)
      (hin : ¬sb.Inside b) (hn : s.lh.length < LOGSIZE ∧ s.lh.length + 1 < sb.nlog)
      (hlh : b ∈ s.lh) :
    Moves (.logWrite p b (s.read b)) { s with unlogged := update s.unlogged b false }
  | append (p : ι) (b : ℕ) (hu : s.Up) (hpc : s.pc p = .inOp) (hb : b ∈ s.held p)
      (hin : ¬sb.Inside b) (hn : s.lh.length < LOGSIZE ∧ s.lh.length + 1 < sb.nlog)
      (hlh : b ∉ s.lh) :
    Moves (.logWrite p b (s.read b))
      { s with
        unlogged := update s.unlogged b false
        pins := update s.pins b (s.pins b + 1)
        lh := s.lh ++ [b] }
  | brelse (p : ι) (b : ℕ) (hu : s.Up) (hb : b ∈ s.held p) (hd : s.unlogged b = false) :
    Moves (.brelse p b) { s with held := update s.held p ((s.held p).erase b) }
  | endTwice (p : ι) (hu : s.Up) (hpc : s.pc p = .inOp) (hc : s.committing = true) :
    Moves (.endOp p) { s with outstanding := s.outstanding - 1, panic := some .committing }
  | endLast (p : ι) (hu : s.Up) (hpc : s.pc p = .inOp)
      (hd : ∀ b ∈ s.held p, s.unlogged b = false) (hc : s.committing = false)
      (ho : s.outstanding = 1) :
    Moves (.endOp p)
      { s with
        outstanding := s.outstanding - 1
        committing := true
        pc := update s.pc p (if s.lh = [] then .committed else .writing 0) }
  | endOp (p : ι) (hu : s.Up) (hpc : s.pc p = .inOp)
      (hd : ∀ b ∈ s.held p, s.unlogged b = false) (hc : s.committing = false)
      (ho : s.outstanding ≠ 1) :
    Moves (.endOp p)
      { s with outstanding := s.outstanding - 1, pc := update s.pc p .idle }
  | writeLog (p : ι) (tail b : ℕ) (hu : s.Up) (hpc : s.pc p = .writing tail)
      (hb : s.lh[tail]? = some b) : Moves (.writeLog p) (s.writeLog sb p tail b)
  | writeHead (p : ι) (hu : s.Up) (hpc : s.pc p = .writing s.lh.length) :
    Moves (.writeHead p) { s.writeHead sb with pc := update s.pc p (.installing 0) }
  | install (p : ι) (tail b : ℕ) (hu : s.Up) (hpc : s.pc p = .installing tail)
      (hb : s.lh[tail]? = some b) :
    Moves (.install p)
      { (s.installTrans sb tail b).bunpin b with
        pc := update s.pc p (.installing (tail + 1)) }
  | erase (p : ι) (hu : s.Up) (hpc : s.pc p = .installing s.lh.length) :
    Moves (.erase p) { s.eraseHead sb with pc := update s.pc p .committed }
  | finish (p : ι) (hu : s.Up) (hpc : s.pc p = .committed) :
    Moves (.finish p) { s with committing := false, pc := update s.pc p .idle }
  | evict (b : ℕ) (hb : s.Unheld b) (hp : s.pins b = 0) :
    Moves (.evict b) { s with cache := update s.cache b none }
  | crash : Moves .crash (boot s.disk)
  | readHead (hr : s.recovery = .readHead) :
    Moves .recover { s.load sb.logstart with
      lh := (s.read sb.logstart).head, recovery := .installing 0 }
  | reinstall (tail b : ℕ) (hr : s.recovery = .installing tail) (hb : s.lh[tail]? = some b) :
    Moves .recover { s.installTrans sb tail b with recovery := .installing (tail + 1) }
  | reerase (tail : ℕ) (hr : s.recovery = .installing tail) (hb : s.lh[tail]? = none) :
    Moves .recover { s.eraseHead sb with recovery := .up }

variable {sb s} {t : LogState ι} {e : LogEvent ι}

@[simp] theorem read_load (b x : ℕ) : (s.load b).read x = s.read x := by
  by_cases hx : x = b <;> simp [load, read, hx]

@[simp] theorem read_bwrite (b x : ℕ) (d : Block) :
    (s.bwrite b d).read x = if x = b then d else s.read x := by
  by_cases hx : x = b <;> simp [bwrite, read, hx]

@[simp] theorem disk_bwrite (b : ℕ) (d : Block) :
    (s.bwrite b d).disk = update s.disk b d := rfl

@[simp] theorem disk_load (b : ℕ) : (s.load b).disk = s.disk := rfl

/-- Within the log only the block that is written changes. -/
theorem read_writeLog (p : ι) (tail b x : ℕ) : (s.writeLog sb p tail b).read x =
    if x = sb.logstart + tail + 1 then s.read b else s.read x := by
  show (bwrite _ _ _).read x = _
  simp

theorem disk_writeLog (p : ι) (tail b : ℕ) : (s.writeLog sb p tail b).disk =
    update s.disk (sb.logstart + tail + 1) (s.read b) := by
  simp [writeLog]

theorem read_installTrans (tail b x : ℕ) : (s.installTrans sb tail b).read x =
    if x = b then s.read (sb.logstart + tail + 1) else s.read x := by
  simp [installTrans]

theorem disk_installTrans (tail b : ℕ) : (s.installTrans sb tail b).disk =
    update s.disk b (s.read (sb.logstart + tail + 1)) := by
  simp [installTrans]

theorem read_writeHead (x : ℕ) : (s.writeHead sb).read x =
    if x = sb.logstart then (s.read sb.logstart).putHead s.lh else s.read x := by
  simp [writeHead]

theorem disk_writeHead : (s.writeHead sb).disk =
    update s.disk sb.logstart ((s.read sb.logstart).putHead s.lh) := rfl

theorem read_eraseHead (x : ℕ) : (s.eraseHead sb).read x =
    if x = sb.logstart then (s.read sb.logstart).putHead [] else s.read x :=
  read_writeHead x

theorem disk_eraseHead : (s.eraseHead sb).disk =
    update s.disk sb.logstart ((s.read sb.logstart).putHead []) := rfl

/-- What is read of a buffer that is recycled is on the disk. -/
theorem read_evict (b x : ℕ) : ({ s with cache := update s.cache b none } : LogState ι).read x =
    if x = b then s.disk b else s.read x := by
  by_cases hx : x = b <;> simp [read, hx]

theorem moves_of_recover (h : s.recover sb = some t) : s.Moves sb .recover t := by
  unfold recover at h
  split at h
  case h_1 hr =>
    obtain rfl := Option.some.inj h
    exact .readHead hr
  case h_2 tail hr =>
    split at h
    case h_1 b hb =>
      obtain rfl := Option.some.inj h
      exact .reinstall tail b hr hb
    case h_2 hb =>
      obtain rfl := Option.some.inj h
      exact .reerase tail hr hb
  case h_3 => cases h

theorem moves_of_step (h : Step sb s e t) : s.Moves sb e t := by
  unfold Step at h
  cases e with
  | beginOp p =>
    simp only [move, Option.ite_none_right_eq_some] at h
    obtain ⟨⟨hu, hpc, ha⟩, h⟩ := h
    obtain rfl := Option.some.inj h
    exact .beginOp p hu hpc ha
  | bread p b =>
    simp only [move, Option.ite_none_right_eq_some] at h
    obtain ⟨⟨hu, hpc, hb⟩, h⟩ := h
    obtain rfl := Option.some.inj h
    exact .bread p b hu hpc hb
  | modify p b d =>
    simp only [move, Option.ite_none_right_eq_some] at h
    obtain ⟨⟨hu, hpc, hb, hin⟩, h⟩ := h
    obtain rfl := Option.some.inj h
    exact .modify p b d hu hpc hb hin
  | logWrite p b d =>
    simp only [move, Option.ite_none_right_eq_some] at h
    obtain ⟨⟨hu, hpc, hb, hin, rfl⟩, h⟩ := h
    obtain rfl := Option.some.inj h
    unfold logWrite
    split_ifs with hn ho hlh
    · exact .tooBig p b hu hpc (by omega)
    · exact .outside p b hu hpc (by omega) ho
    · exact .absorb p b hu hpc hb hin (by omega) hlh
    · exact .append p b hu hpc hb hin (by omega) hlh
  | brelse p b =>
    simp only [move, Option.ite_none_right_eq_some] at h
    obtain ⟨⟨hu, hb, hd⟩, h⟩ := h
    obtain rfl := Option.some.inj h
    exact .brelse p b hu hb hd
  | endOp p =>
    simp only [move, Option.ite_none_right_eq_some] at h
    obtain ⟨⟨hu, hpc, hd⟩, h⟩ := h
    obtain rfl := Option.some.inj h
    unfold endOp
    by_cases hc : s.committing = true
    · rw [if_pos hc]
      exact .endTwice p hu hpc hc
    · rw [if_neg hc]
      have hc : s.committing = false := by simpa using hc
      by_cases ho : s.outstanding - 1 = 0
      · rw [if_pos ho]
        exact .endLast p hu hpc hd hc (by omega)
      · rw [if_neg ho]
        exact .endOp p hu hpc hd hc (by omega)
  | writeLog p =>
    simp only [move, Option.ite_none_right_eq_some, writeLogMove] at h
    obtain ⟨hu, h⟩ := h
    split at h
    case h_1 tail hpc =>
      split at h
      case h_1 b hb =>
        split_ifs at h
        obtain rfl := Option.some.inj h
        exact .writeLog p tail b hu hpc hb
      case h_2 => cases h
    all_goals cases h
  | writeHead p =>
    simp only [move, Option.ite_none_right_eq_some] at h
    obtain ⟨⟨hu, hpc, -⟩, h⟩ := h
    obtain rfl := Option.some.inj h
    exact .writeHead p hu hpc
  | install p =>
    simp only [move, Option.ite_none_right_eq_some, installMove] at h
    obtain ⟨hu, h⟩ := h
    split at h
    case h_1 tail hpc =>
      split at h
      case h_1 b hb =>
        split_ifs at h
        obtain rfl := Option.some.inj h
        exact .install p tail b hu hpc hb
      case h_2 => cases h
    all_goals cases h
  | erase p =>
    simp only [move, Option.ite_none_right_eq_some] at h
    obtain ⟨⟨hu, hpc, -⟩, h⟩ := h
    obtain rfl := Option.some.inj h
    exact .erase p hu hpc
  | finish p =>
    simp only [move, Option.ite_none_right_eq_some] at h
    obtain ⟨⟨hu, hpc⟩, h⟩ := h
    obtain rfl := Option.some.inj h
    exact .finish p hu hpc
  | evict b =>
    simp only [move, Option.ite_none_right_eq_some] at h
    obtain ⟨⟨hb, hp⟩, h⟩ := h
    obtain rfl := Option.some.inj h
    exact .evict b hb hp
  | crash =>
    obtain rfl := Option.some.inj h
    exact .crash
  | recover => exact moves_of_recover h

end LogState

end CowPbs
