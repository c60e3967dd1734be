import Mathlib
import CowPbs.Lib.RefCount
import CowPbs.Lib.Transition
import CowPbs.Proc

/-!
# Open files

The file table `ftable` (kernel/file.c), the descriptors of the processes, and the system calls
that use them : `sys_open` once it has its inode, `sys_dup`, `sys_pipe` with `pipealloc`,
`sys_close`, `fork` and `exit`. A section under `ftable.lock`, or under the lock of a pipe, is one
step. What a process does to its own descriptors, and to a file no other process can reach, goes
with the section before or after it. `kalloc` gives a page that is not in use, or none, and what
`copyout` says is part of the event. A call that fails before it takes a file changes nothing and
has no step.
-/

open Function RefCount Transition

namespace CowPbs

def NFILE : ℕ := 100

def NOFILE : ℕ := 16

/-- A pointer to `ftable.file[i]`. -/
abbrev FilePtr := Fin NFILE

instance : NeZero NFILE := ⟨by decide⟩

/-- A descriptor. -/
abbrev Fd := Fin NOFILE

inductive FdType
  | none
  | pipe
  | inode
  | device
  deriving DecidableEq

/-- `struct file`; `pipe` and `ip` are addresses. -/
structure File where
  type : FdType
  ref : ℤ
  readable : Bool
  writable : Bool
  pipe : ℕ
  ip : ℕ
  off : ℕ
  major : ℤ

/-- What `sys_open` knows once it has locked the inode. -/
structure OpenArgs where
  ip : ℕ
  /-- `ip->type == T_DEVICE`. -/
  device : Bool
  major : ℤ
  omode : BitVec 32
  deriving DecidableEq

def O_WRONLY : BitVec 32 := 1

def O_RDWR : BitVec 32 := 2

/-- The fields `sys_open` sets. -/
def File.opened (f : File) (o : OpenArgs) : File :=
  let f := if o.device then { f with type := .device, major := o.major }
    else { f with type := .inode, off := 0 }
  { f with
    ip := o.ip
    readable := o.omode &&& O_WRONLY = 0
    writable := o.omode &&& O_WRONLY ≠ 0 ∨ o.omode &&& O_RDWR ≠ 0 }

/-- The fields `pipealloc` sets for one end. -/
def File.pipeEnd (f : File) (pi : ℕ) (writable : Bool) : File :=
  { f with type := .pipe, readable := !writable, writable := writable, pipe := pi }

/-- `readopen` and `writeopen` of a `struct pipe`. -/
structure PipeEnds where
  readopen : Bool
  writeopen : Bool

/-- The end is open. -/
def PipeEnds.isOpen (e : PipeEnds) (writable : Bool) : Bool :=
  if writable then e.writeopen else e.readopen

/-- `pipeclose` up to the test whether both ends are closed. -/
def PipeEnds.shut (e : PipeEnds) (writable : Bool) : PipeEnds :=
  if writable then { e with writeopen := false } else { e with readopen := false }

/-- What follows a `fileclose`. -/
inductive FileNext
  /-- `fileclose` of each of the files, and the return. -/
  | close (fs : List FilePtr)
  /-- The loop of `exit`, at the descriptor. -/
  | exit (fd : ℕ)
  deriving DecidableEq

/-- What `fileclose` gives back after it has released `ftable.lock`. -/
inductive FileDrop
  | pipe (pi : ℕ) (writable : Bool)
  | inode (ip : ℕ)
  deriving DecidableEq

/-- Where a process is. -/
inductive FilePc
  | unused
  /-- Being made by `fork`. -/
  | used
  | run
  | zombie
  | next (n : FileNext)
  /-- At the end of `fileclose`, with `ftable.lock` released. -/
  | drop (d : FileDrop) (n : FileNext)
  /-- In `pipealloc`, with one file. -/
  | pipeOne (f0 : FilePtr)
  /-- The same, with both. -/
  | pipeTwo (f0 f1 : FilePtr)
  /-- In the loop of `fork`. -/
  | fork (np : Slot) (i : ℕ)
  deriving DecidableEq

/-- The files and the processes. -/
structure FileSys where
  file : FilePtr → File
  ofile : Slot → Fd → Option FilePtr
  /-- The pages that are pipes. -/
  pipe : ℕ → Option PipeEnds
  pc : Slot → FilePc

inductive FileEvent
  | open (o : OpenArgs)
  /-- `sys_open` finds no descriptor. -/
  | openNoFd
  | dup
  | pipe
  /-- `pipealloc` finds no second file. -/
  | pipeNoFile
  | pipeFile
  /-- `pipealloc` gets no page. -/
  | pipeNoPage
  | kalloc (pi : ℕ) (copyout : Bool)
  | close
  | fileclose (f : FilePtr)
  | ret
  | iput (ip : ℕ)
  | pipeclose (pi : ℕ)
  | kfree (pi : ℕ)
  | exit
  | exitSkip
  | exited
  | reap
  | fork (np : Slot)
  | forkDup
  | forkSkip
  | forked
  /-- `panic("filedup")` or `panic("fileclose")`. -/
  | panic
  /-- A pipe that has been freed is used. -/
  | wild
  deriving DecidableEq

namespace FileSys

/-- Process `p` goes to `pc`. -/
def goto (s : FileSys) (p : Slot) (pc : FilePc) : FileSys :=
  { s with pc := update s.pc p pc }

/-- `*f = F`. -/
def setFile (s : FileSys) (f : FilePtr) (F : File) : FileSys :=
  { s with file := update s.file f F }

/-- `p->ofile[fd] = f`. -/
def setFd (s : FileSys) (p : Slot) (fd : Fd) (f : Option FilePtr) : FileSys :=
  { s with ofile := update s.ofile p (update (s.ofile p) fd f) }

/-- The file that `filealloc` takes. -/
def filealloc (s : FileSys) : Option FilePtr :=
  (List.finRange NFILE).find? fun f => (s.file f).ref = 0

/-- `filealloc` has taken `f`. -/
def claim (s : FileSys) (f : FilePtr) : FileSys :=
  s.setFile f { s.file f with ref := 1 }

/-- The descriptor that `fdalloc` takes. -/
def fdalloc (o : Fd → Option FilePtr) : Option Fd :=
  (List.finRange NOFILE).find? fun fd => o fd = none

/-- `filedup(f)`, or a panic. -/
def filedup (s : FileSys) (f : FilePtr) : Option FileSys :=
  if (s.file f).ref < 1 then none
  else some (s.setFile f { s.file f with ref := (s.file f).ref + 1 })

/-- `fileclose(f)` up to the release of `ftable.lock`, by `p`, or a panic. -/
def fileclose (s : FileSys) (p : Slot) (f : FilePtr) (n : FileNext) : Option FileSys :=
  if (s.file f).ref < 1 then none
  else if 0 < (s.file f).ref - 1 then
    some ((s.setFile f { s.file f with ref := (s.file f).ref - 1 }).goto p (.next n))
  else
    some ((s.setFile f { s.file f with ref := 0, type := .none }).goto p
      (match (s.file f).type with
      | .pipe => .drop (.pipe (s.file f).pipe (s.file f).writable) n
      | .inode | .device => .drop (.inode (s.file f).ip) n
      | .none => .next n))

/-- The end of `sys_pipe` : the descriptors, and whether it returns 0. -/
def pipeFds (o : Fd → Option FilePtr) (rf wf : FilePtr) (copyout : Bool) :
    (Fd → Option FilePtr) × Bool :=
  match fdalloc o with
  | none => (o, false)
  | some fd0 =>
    let o := update o fd0 (some rf)
    match fdalloc o with
    | none => (update o fd0 none, false)
    | some fd1 =>
      let o := update o fd1 (some wf)
      if copyout then (o, true) else (update (update o fd0 none) fd1 none, false)

/-- The end of `pipealloc`, with the page, and the end of `sys_pipe`. -/
def pipeMade (s : FileSys) (p : Slot) (f0 f1 : FilePtr) (pi : ℕ) (copyout : Bool) : FileSys :=
  let o := pipeFds (s.ofile p) f0 f1 copyout
  ({ s with
      file := update (update s.file f0 ((s.file f0).pipeEnd pi false)) f1
        ((s.file f1).pipeEnd pi true)
      pipe := update s.pipe pi (some ⟨true, true⟩)
      ofile := update s.ofile p o.1 }).goto p
    (if o.2 then .run else .next (.close [f0, f1]))

/-- One step, with the process that moves. -/
inductive Step (s : FileSys) : Slot × FileEvent → FileSys → Prop
  -- `sys_open`
  | open (p : Slot) (o : OpenArgs) (f : FilePtr) (fd : Fd) (hpc : s.pc p = .run)
      (hf : s.filealloc = some f) (hfd : fdalloc (s.ofile p) = some fd) :
    Step s (p, .open o)
      ((s.setFile f (File.opened { s.file f with ref := 1 } o)).setFd p fd (some f))
  | openNoFd (p : Slot) (f : FilePtr) (hpc : s.pc p = .run) (hf : s.filealloc = some f)
      (hfd : fdalloc (s.ofile p) = none) :
    Step s (p, .openNoFd) ((s.claim f).goto p (.next (.close [f])))
  -- `sys_dup`
  | dup (p : Slot) (fd fd' : Fd) (f : FilePtr) (t : FileSys) (hpc : s.pc p = .run)
      (hf : s.ofile p fd = some f) (hfd : fdalloc (s.ofile p) = some fd')
      (ht : (s.setFd p fd' (some f)).filedup f = some t) :
    Step s (p, .dup) t
  | dupPanic (p : Slot) (fd fd' : Fd) (f : FilePtr) (hpc : s.pc p = .run)
      (hf : s.ofile p fd = some f) (hfd : fdalloc (s.ofile p) = some fd')
      (ht : (s.setFd p fd' (some f)).filedup f = none) :
    Step s (p, .panic) s
  -- `sys_pipe`
  | pipe (p : Slot) (f : FilePtr) (hpc : s.pc p = .run) (hf : s.filealloc = some f) :
    Step s (p, .pipe) ((s.claim f).goto p (.pipeOne f))
  | pipeNoFile (p : Slot) (f0 : FilePtr) (hpc : s.pc p = .pipeOne f0) (hf : s.filealloc = none) :
    Step s (p, .pipeNoFile) (s.goto p (.next (.close [f0])))
  | pipeFile (p : Slot) (f0 f1 : FilePtr) (hpc : s.pc p = .pipeOne f0)
      (hf : s.filealloc = some f1) :
    Step s (p, .pipeFile) ((s.claim f1).goto p (.pipeTwo f0 f1))
  | pipeNoPage (p : Slot) (f0 f1 : FilePtr) (hpc : s.pc p = .pipeTwo f0 f1) :
    Step s (p, .pipeNoPage) (s.goto p (.next (.close [f0, f1])))
  | kalloc (p : Slot) (f0 f1 : FilePtr) (pi : ℕ) (copyout : Bool)
      (hpc : s.pc p = .pipeTwo f0 f1) (hpi : s.pipe pi = none) :
    Step s (p, .kalloc pi copyout) (s.pipeMade p f0 f1 pi copyout)
  -- `sys_close`
  | close (p : Slot) (fd : Fd) (f : FilePtr) (t : FileSys) (hpc : s.pc p = .run)
      (hf : s.ofile p fd = some f)
      (ht : (s.setFd p fd none).fileclose p f (.close []) = some t) :
    Step s (p, .close) t
  | closePanic (p : Slot) (fd : Fd) (f : FilePtr) (hpc : s.pc p = .run)
      (hf : s.ofile p fd = some f)
      (ht : (s.setFd p fd none).fileclose p f (.close []) = none) :
    Step s (p, .panic) s
  -- `fileclose`, in the calls that fail, and its end
  | fileclose (p : Slot) (f : FilePtr) (fs : List FilePtr) (t : FileSys)
      (hpc : s.pc p = .next (.close (f :: fs))) (ht : s.fileclose p f (.close fs) = some t) :
    Step s (p, .fileclose f) t
  | filePanic (p : Slot) (f : FilePtr) (fs : List FilePtr)
      (hpc : s.pc p = .next (.close (f :: fs))) (ht : s.fileclose p f (.close fs) = none) :
    Step s (p, .panic) s
  | ret (p : Slot) (hpc : s.pc p = .next (.close [])) : Step s (p, .ret) (s.goto p .run)
  | iput (p : Slot) (ip : ℕ) (n : FileNext) (hpc : s.pc p = .drop (.inode ip) n) :
    Step s (p, .iput ip) (s.goto p (.next n))
  | pipeclose (p : Slot) (pi : ℕ) (w : Bool) (n : FileNext) (e : PipeEnds)
      (hpc : s.pc p = .drop (.pipe pi w) n) (he : s.pipe pi = some e)
      (ho : (e.shut w).readopen = true ∨ (e.shut w).writeopen = true) :
    Step s (p, .pipeclose pi)
      ({ s with pipe := update s.pipe pi (some (e.shut w)) }.goto p (.next n))
  | kfree (p : Slot) (pi : ℕ) (w : Bool) (n : FileNext) (e : PipeEnds)
      (hpc : s.pc p = .drop (.pipe pi w) n) (he : s.pipe pi = some e)
      (ho : ¬((e.shut w).readopen = true ∨ (e.shut w).writeopen = true)) :
    Step s (p, .kfree pi) ({ s with pipe := update s.pipe pi none }.goto p (.next n))
  | wild (p : Slot) (pi : ℕ) (w : Bool) (n : FileNext) (hpc : s.pc p = .drop (.pipe pi w) n)
      (he : s.pipe pi = none) :
    Step s (p, .wild) (s.goto p (.next n))
  -- `exit`, and the `freeproc` of `wait`
  | exit (p : Slot) (hpc : s.pc p = .run) : Step s (p, .exit) (s.goto p (.next (.exit 0)))
  | exitClose (p : Slot) (fd : Fd) (f : FilePtr) (t : FileSys)
      (hpc : s.pc p = .next (.exit fd)) (hf : s.ofile p fd = some f)
      (ht : (s.setFd p fd none).fileclose p f (.exit (fd + 1)) = some t) :
    Step s (p, .fileclose f) t
  | exitPanic (p : Slot) (fd : Fd) (f : FilePtr) (hpc : s.pc p = .next (.exit fd))
      (hf : s.ofile p fd = some f)
      (ht : (s.setFd p fd none).fileclose p f (.exit (fd + 1)) = none) :
    Step s (p, .panic) s
  | exitSkip (p : Slot) (fd : Fd) (hpc : s.pc p = .next (.exit fd)) (hf : s.ofile p fd = none) :
    Step s (p, .exitSkip) (s.goto p (.next (.exit (fd + 1))))
  | exited (p : Slot) (hpc : s.pc p = .next (.exit NOFILE)) :
    Step s (p, .exited) (s.goto p .zombie)
  | reap (p : Slot) (hpc : s.pc p = .zombie) : Step s (p, .reap) (s.goto p .unused)
  -- `fork`
  | fork (p np : Slot) (hpc : s.pc p = .run) (hnp : s.pc np = .unused) :
    Step s (p, .fork np) ((s.goto np .used).goto p (.fork np 0))
  | forkDup (p np : Slot) (i : Fd) (f : FilePtr) (t : FileSys) (hpc : s.pc p = .fork np i)
      (hf : s.ofile p i = some f) (ht : s.filedup f = some t) :
    Step s (p, .forkDup) ((t.setFd np i (some f)).goto p (.fork np (i + 1)))
  | forkPanic (p np : Slot) (i : Fd) (f : FilePtr) (hpc : s.pc p = .fork np i)
      (hf : s.ofile p i = some f) (ht : s.filedup f = none) :
    Step s (p, .panic) s
  | forkSkip (p np : Slot) (i : Fd) (hpc : s.pc p = .fork np i) (hf : s.ofile p i = none) :
    Step s (p, .forkSkip) (s.goto p (.fork np (i + 1)))
  | forked (p np : Slot) (hpc : s.pc p = .fork np NOFILE) :
    Step s (p, .forked) ((s.goto np .run).goto p .run)

/-- Processes without open files : `init` runs, the other slots are free. -/
def Boot (s : FileSys) : Prop :=
  (∀ f, (s.file f).ref = 0 ∧ (s.file f).type = .none) ∧ (∀ p fd, s.ofile p fd = none) ∧
    (∀ pi, s.pipe pi = none) ∧ ∀ p, s.pc p = if p = 0 then .run else .unused

end FileSys

end CowPbs
