import Mathlib
import CowPbs.Fs
import CowPbs.Lib.RefCount

/-!
# The inode table

`itable` (kernel/fs.c) under `ialloc`, `iget`, `idup`, `ilock`, `iunlock` and `iput`, called by
any number of processes. A section under `itable.lock`, under the lock of a buffer or under the
inner lock of a sleep-lock is one step; only `iput` keeps `itable.lock` over more than one, when it
frees the inode, and so does a process that panics with it (`tableLock`). The disk is the inodes
as the last update of each left them. With the indirect block of a file the blocks it names are
freed.

A counted pointer is in a variable : the `f->ip` of an open file, the `cwd` of a process, a local
one. Any process may use any of them, so that files can be shared. Callers balance their
references : `idup` takes a variable with a pointer, `iput` one that no process is using, between
the call of `ilock` and `iunlock` (`uses`). They change a locked inode, its type to another one
but not to none, which only `iput` does, and have called `iupdate` when they unlock it (`dirty`).
They may ask `iget` for any number.
-/

open Function RefCount Transition

namespace CowPbs

def NINODE : ℕ := 50

/-- A pointer to `itable.inode[i]`. -/
abbrev InodePtr := Fin NINODE

instance : NeZero NINODE := ⟨by decide⟩

/-- `dev` and `inum`. -/
abbrev InodeKey := ℕ × ℕ

/-- `struct inode`, without its lock. -/
structure InodeEntry where
  key : InodeKey
  ref : ℤ
  valid : Bool
  copy : Dinode

/-- `memset(dip, 0, sizeof(*dip))`. -/
def Dinode.zero : Dinode where
  type := 0
  major := 0
  minor := 0
  nlink := 0
  size := 0
  addrs := fun _ => 0

/-- Where a process is. -/
inductive InodePc (κ : Type*)
  | run
  /-- In the loop of `ialloc`. -/
  | ialloc (key : InodeKey) (type : FileType)
  /-- In `ialloc`, before the call of `iget`. -/
  | iget (key : InodeKey)
  /-- In `ilock` on a variable, before `acquiresleep`. -/
  | ilock (k : κ)
  /-- The same, with the lock. -/
  | ilockRead (k : κ)
  /-- In `iput`, before `acquiresleep`, with `itable.lock`. -/
  | iput (ip : InodePtr)
  /-- In `itrunc`, called by `iput`, before `ip->addrs[i]`. -/
  | itrunc (ip : InodePtr) (i : ℕ)
  /-- In `iput`, before `ip->type = 0`. -/
  | ifree (ip : InodePtr)
  /-- The same, before `ip->valid = 0`. -/
  | ifreed (ip : InodePtr)
  /-- The same, before the second `acquire(&itable.lock)`. -/
  | unref (ip : InodePtr)
  | panicked
  deriving DecidableEq

/-- The table, the inodes on the disk, and the processes. -/
structure Itable (ι κ : Type*) where
  inode : InodePtr → InodeEntry
  /-- The holder of `ip->lock`. -/
  lock : InodePtr → Option ι
  /-- The process that keeps `itable.lock`. -/
  tableLock : Option ι
  disk : InodeKey → Dinode
  /-- The variables with counted pointers. -/
  ptr : κ → Option InodePtr
  /-- The process is between the call of `ilock` on the variable and the return of `iunlock`. -/
  uses : ι → κ → Bool
  /-- The inode was changed under its lock since the last `iupdate`. -/
  dirty : InodePtr → Bool
  pc : ι → InodePc κ

inductive InodeEvent
  | ialloc (key : InodeKey)
  | iallocNext
  | iallocNone
  | iallocCall
  | iget (key : InodeKey)
  | idup
  | ilock
  | acquiresleep
  | read
  | modify
  | iupdate
  | iunlock
  | iput
  /-- `iput` decides to free the inode. -/
  | free (key : InodeKey)
  | freeLocked
  | bfree (b : ℕ)
  | bskip
  | itrunc
  /-- The type on the disk is 0. -/
  | freed (key : InodeKey)
  | freeUnlock
  | unref
  | panic
  deriving DecidableEq

namespace Itable

variable {ι κ : Type*} [DecidableEq ι] [DecidableEq κ]

/-- Process `p` goes to `pc`. -/
def goto (s : Itable ι κ) (p : ι) (pc : InodePc κ) : Itable ι κ :=
  { s with pc := update s.pc p pc }

/-- `*ip = x`. -/
def setInode (s : Itable ι κ) (ip : InodePtr) (x : InodeEntry) : Itable ι κ :=
  { s with inode := update s.inode ip x }

/-- The lock of `ip` gets the holder `o`. -/
def setLock (s : Itable ι κ) (ip : InodePtr) (o : Option ι) : Itable ι κ :=
  { s with lock := update s.lock ip o }

/-- The variable `k` is assigned. -/
def setPtr (s : Itable ι κ) (k : κ) (x : Option InodePtr) : Itable ι κ :=
  { s with ptr := update s.ptr k x }

/-- Process `p` begins or ends to use the variable `k`. -/
def setUse (s : Itable ι κ) (p : ι) (k : κ) (b : Bool) : Itable ι κ :=
  { s with uses := update s.uses p (update (s.uses p) k b) }

/-- `iupdate(ip)`. -/
def iupdate (s : Itable ι κ) (ip : InodePtr) : Itable ι κ :=
  { s with disk := update s.disk (s.inode ip).key (s.inode ip).copy }

/-- The entry that `iget` finds, or the one it recycles. -/
def iget (s : Itable ι κ) (key : InodeKey) : Option (InodePtr × InodeEntry) :=
  match (List.finRange NINODE).find? fun ip => 0 < (s.inode ip).ref ∧ (s.inode ip).key = key with
  | some ip => some (ip, { s.inode ip with ref := (s.inode ip).ref + 1 })
  | none =>
    match (List.finRange NINODE).find? fun ip => (s.inode ip).ref = 0 with
    | some ip => some (ip, { s.inode ip with key := key, ref := 1, valid := false })
    | none => none

/-- The test of `iput`. -/
def Frees (s : Itable ι κ) (ip : InodePtr) : Prop :=
  (s.inode ip).ref = 1 ∧ (s.inode ip).valid = true ∧ (s.inode ip).copy.nlink = 0

instance (s : Itable ι κ) (ip : InodePtr) : Decidable (s.Frees ip) :=
  inferInstanceAs (Decidable (_ ∧ _ ∧ _))

/-- One step, with the process that moves, on a device with `ninodes` inodes. -/
inductive Step (ninodes : ℕ) (s : Itable ι κ) : ι × InodeEvent → Itable ι κ → Prop
  -- `ialloc`
  | iallocCall (p : ι) (dev : ℕ) (type : FileType) (hpc : s.pc p = .run) :
    Step ninodes s (p, .iallocCall) (s.goto p (.ialloc (dev, 1) type))
  | iallocNext (p : ι) (dev inum : ℕ) (type : FileType) (hpc : s.pc p = .ialloc (dev, inum) type)
      (hi : inum < ninodes) (ht : (s.disk (dev, inum)).type ≠ 0) :
    Step ninodes s (p, .iallocNext) (s.goto p (.ialloc (dev, inum + 1) type))
  | ialloc (p : ι) (dev inum : ℕ) (type : FileType) (hpc : s.pc p = .ialloc (dev, inum) type)
      (hi : inum < ninodes) (ht : (s.disk (dev, inum)).type = 0) :
    Step ninodes s (p, .ialloc (dev, inum))
      ({ s with
        disk := update s.disk (dev, inum) { Dinode.zero with type := type.code } }.goto p
          (.iget (dev, inum)))
  | iallocNone (p : ι) (dev inum : ℕ) (type : FileType) (hpc : s.pc p = .ialloc (dev, inum) type)
      (hi : ¬inum < ninodes) :
    Step ninodes s (p, .iallocNone) (s.goto p .run)
  -- `iget`, called by `ialloc` or with a number from a directory
  | iget (p : ι) (key : InodeKey) (k : κ) (ip : InodePtr) (x : InodeEntry)
      (hpc : s.pc p = .iget key ∨ s.pc p = .run) (hk : s.ptr k = none) (hl : s.tableLock = none)
      (hg : s.iget key = some (ip, x)) :
    Step ninodes s (p, .iget key) (((s.setInode ip x).setPtr k (some ip)).goto p .run)
  | igetPanic (p : ι) (key : InodeKey) (hpc : s.pc p = .iget key ∨ s.pc p = .run)
      (hl : s.tableLock = none) (hg : s.iget key = none) :
    Step ninodes s (p, .panic) ({ s with tableLock := some p }.goto p .panicked)
  | idup (p : ι) (k j : κ) (ip : InodePtr) (hpc : s.pc p = .run) (hk : s.ptr k = some ip)
      (hj : s.ptr j = none) (hl : s.tableLock = none) :
    Step ninodes s (p, .idup)
      ((s.setInode ip { s.inode ip with ref := (s.inode ip).ref + 1 }).setPtr j (some ip))
  -- `ilock`
  | ilock (p : ι) (k : κ) (ip : InodePtr) (hpc : s.pc p = .run) (hk : s.ptr k = some ip)
      (hu : s.uses p k = false) (hr : 1 ≤ (s.inode ip).ref) :
    Step ninodes s (p, .ilock) ((s.setUse p k true).goto p (.ilock k))
  | ilockPanic (p : ι) (k : κ) (ip : InodePtr) (hpc : s.pc p = .run) (hk : s.ptr k = some ip)
      (hr : (s.inode ip).ref < 1) :
    Step ninodes s (p, .panic) (s.goto p .panicked)
  | acquiresleep (p : ι) (k : κ) (ip : InodePtr) (hpc : s.pc p = .ilock k)
      (hk : s.ptr k = some ip) (hl : s.lock ip = none) :
    Step ninodes s (p, .acquiresleep) ((s.setLock ip (some p)).goto p (.ilockRead k))
  | ilockValid (p : ι) (k : κ) (ip : InodePtr) (hpc : s.pc p = .ilockRead k)
      (hk : s.ptr k = some ip) (hv : (s.inode ip).valid = true) :
    Step ninodes s (p, .read) (s.goto p .run)
  | read (p : ι) (k : κ) (ip : InodePtr) (hpc : s.pc p = .ilockRead k) (hk : s.ptr k = some ip)
      (hv : (s.inode ip).valid = false) (ht : (s.disk (s.inode ip).key).type ≠ 0) :
    Step ninodes s (p, .read)
      ((s.setInode ip { s.inode ip with copy := s.disk (s.inode ip).key, valid := true }).goto p
        .run)
  | readPanic (p : ι) (k : κ) (ip : InodePtr) (hpc : s.pc p = .ilockRead k)
      (hk : s.ptr k = some ip) (hv : (s.inode ip).valid = false)
      (ht : (s.disk (s.inode ip).key).type = 0) :
    Step ninodes s (p, .panic)
      ((s.setInode ip { s.inode ip with copy := s.disk (s.inode ip).key, valid := true }).goto p
        .panicked)
  -- what callers do with a locked inode, and `iunlock`
  | modify (p : ι) (k : κ) (ip : InodePtr) (d : Dinode) (hpc : s.pc p = .run)
      (hk : s.ptr k = some ip) (hu : s.uses p k = true) (hd : d.type ≠ 0) :
    Step ninodes s (p, .modify)
      { s.setInode ip { s.inode ip with copy := d } with dirty := update s.dirty ip true }
  | iupdate (p : ι) (k : κ) (ip : InodePtr) (hpc : s.pc p = .run) (hk : s.ptr k = some ip)
      (hu : s.uses p k = true) :
    Step ninodes s (p, .iupdate) { s.iupdate ip with dirty := update s.dirty ip false }
  | iunlock (p : ι) (k : κ) (ip : InodePtr) (hpc : s.pc p = .run) (hk : s.ptr k = some ip)
      (hu : s.uses p k = true) (hd : s.dirty ip = false) (hl : s.lock ip = some p)
      (hr : 1 ≤ (s.inode ip).ref) :
    Step ninodes s (p, .iunlock) ((s.setLock ip none).setUse p k false)
  | iunlockPanic (p : ι) (k : κ) (ip : InodePtr) (hpc : s.pc p = .run) (hk : s.ptr k = some ip)
      (hu : s.uses p k = true) (hr : s.lock ip ≠ some p ∨ (s.inode ip).ref < 1) :
    Step ninodes s (p, .panic) (s.goto p .panicked)
  -- `iput`
  | iput (p : ι) (k : κ) (ip : InodePtr) (hpc : s.pc p = .run) (hk : s.ptr k = some ip)
      (hu : ∀ q, s.uses q k = false) (hl : s.tableLock = none) (hf : ¬s.Frees ip) :
    Step ninodes s (p, .iput)
      ((s.setInode ip { s.inode ip with ref := (s.inode ip).ref - 1 }).setPtr k none)
  | free (p : ι) (k : κ) (ip : InodePtr) (hpc : s.pc p = .run) (hk : s.ptr k = some ip)
      (hu : ∀ q, s.uses q k = false) (hl : s.tableLock = none) (hf : s.Frees ip) :
    Step ninodes s (p, .free (s.inode ip).key)
      (({ s with tableLock := some p }.setPtr k none).goto p (.iput ip))
  | freeLocked (p : ι) (ip : InodePtr) (hpc : s.pc p = .iput ip) (hl : s.lock ip = none) :
    Step ninodes s (p, .freeLocked)
      (({ s with tableLock := none }.setLock ip (some p)).goto p (.itrunc ip 0))
  | bfree (p : ι) (ip : InodePtr) (i : Fin (NDIRECT + 1)) (hpc : s.pc p = .itrunc ip i)
      (hb : (s.inode ip).copy.addrs i ≠ 0) :
    Step ninodes s (p, .bfree ((s.inode ip).copy.addrs i))
      ((s.setInode ip { s.inode ip with copy := (s.inode ip).copy.setAddr i 0 }).goto p
        (.itrunc ip (i + 1)))
  | bskip (p : ι) (ip : InodePtr) (i : Fin (NDIRECT + 1)) (hpc : s.pc p = .itrunc ip i)
      (hb : (s.inode ip).copy.addrs i = 0) :
    Step ninodes s (p, .bskip) (s.goto p (.itrunc ip (i + 1)))
  | itrunc (p : ι) (ip : InodePtr) (hpc : s.pc p = .itrunc ip (NDIRECT + 1)) :
    Step ninodes s (p, .itrunc)
      (((s.setInode ip { s.inode ip with copy := { (s.inode ip).copy with size := 0 } }).iupdate
        ip).goto p (.ifree ip))
  | freed (p : ι) (ip : InodePtr) (hpc : s.pc p = .ifree ip) :
    Step ninodes s (p, .freed (s.inode ip).key)
      (((s.setInode ip { s.inode ip with copy := { (s.inode ip).copy with type := 0 } }).iupdate
        ip).goto p (.ifreed ip))
  | freeUnlock (p : ι) (ip : InodePtr) (hpc : s.pc p = .ifreed ip) :
    Step ninodes s (p, .freeUnlock)
      (((s.setInode ip { s.inode ip with valid := false }).setLock ip none).goto p (.unref ip))
  | unref (p : ι) (ip : InodePtr) (hpc : s.pc p = .unref ip) (hl : s.tableLock = none) :
    Step ninodes s (p, .unref)
      ((s.setInode ip { s.inode ip with ref := (s.inode ip).ref - 1 }).goto p .run)

/-- After `iinit`. -/
def Boot (s : Itable ι κ) : Prop :=
  (∀ ip, (s.inode ip).ref = 0 ∧ s.lock ip = none ∧ s.dirty ip = false) ∧ s.tableLock = none ∧
    (∀ k, s.ptr k = none) ∧ (∀ p k, s.uses p k = false) ∧ ∀ p, s.pc p = .run

end Itable

end CowPbs
