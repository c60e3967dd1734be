import Mathlib
import CowPbs.Fs
import CowPbs.Lib.Ring
import CowPbs.Lib.Transition

/-!
# The disk driver

kernel/virtio_disk.c, with any number of processes in `virtio_disk_rw` on different buffers, the
interrupt handler, and the device. The processes and the handler take turns under `vdisk_lock`;
where the device can see what is stored, a section is cut. The device has no lock : it takes the
heads of chains from the available ring in order, keeps the requests it has read, and completes
each of them once, in any order, with status 0. A process in `sleep` is off the CPU at once, and
may be woken by `kill` at any time.

A descriptor number is a `ℕ`, checked against `NUM` where the code checks it, and an address is
what it is the address of. The indices of the rings have 16 bits.
-/

open Bytes Function Transition

namespace CowPbs

def NUM : ℕ := 8

def VRING_DESC_F_NEXT : BitVec 16 := 1

def VRING_DESC_F_WRITE : BitVec 16 := 2

def VIRTIO_BLK_T_IN : ℕ := 0

def VIRTIO_BLK_T_OUT : ℕ := 1

variable (β ι : Type)

/-- What a descriptor points to. -/
inductive DescAddr
  | null
  /-- `&disk.ops[i]`. -/
  | op (i : ℕ)
  /-- `b->data`. -/
  | data (b : β)
  /-- `&disk.info[i].status`. -/
  | status (i : ℕ)

/-- `struct virtq_desc`. -/
structure VirtqDesc where
  addr : DescAddr β
  len : ℕ
  flags : BitVec 16
  next : ℕ

/-- `struct virtio_blk_req`. -/
structure VirtioBlkReq where
  type : ℕ
  reserved : ℕ
  sector : ℕ

/-- The argument of `virtio_disk_rw`. -/
structure DiskReq where
  b : β
  blockno : ℕ
  write : Bool

/-- `idx[3]`. -/
structure Chain where
  i0 : ℕ
  i1 : ℕ
  i2 : ℕ
  deriving DecidableEq

/-- What the device has read of a chain. -/
structure DeviceReq where
  head : ℕ
  op : VirtioBlkReq
  data : VirtqDesc β
  status : DescAddr β

/-- `disk`, with the rings, and `b->disk` of each buffer. -/
structure Disk where
  desc : ℕ → VirtqDesc β
  free : ℕ → Bool
  ops : ℕ → VirtioBlkReq
  /-- `info[i].b`. -/
  infoB : ℕ → Option β
  /-- `info[i].status`. -/
  infoStatus : ℕ → Byte
  /-- `avail->idx`. -/
  availIdx : BitVec 16
  /-- `avail->ring`. -/
  availRing : ℕ → ℕ
  /-- `used->idx`. -/
  usedRingIdx : BitVec 16
  /-- `used->ring[i].id`. -/
  usedRing : ℕ → ℕ
  /-- `used_idx`. -/
  usedIdx : BitVec 16
  /-- `b->disk == 1`. -/
  busy : β → Bool
  /-- The index of the next entry of the available ring that the device reads. -/
  deviceIdx : BitVec 16
  /-- The requests in the device. -/
  inflight : List (DeviceReq β)

variable {β ι}

/-- The descriptor at place `k` of the chain. -/
def Chain.get (c : Chain) : Fin 3 → ℕ
  | 0 => c.i0
  | 1 => c.i1
  | 2 => c.i2

/-- `ops[idx[0]]`. -/
def DiskReq.op (r : DiskReq β) : VirtioBlkReq where
  type := if r.write then VIRTIO_BLK_T_OUT else VIRTIO_BLK_T_IN
  reserved := 0
  sector := r.blockno * (BSIZE / 512)

/-- `desc[idx[1]]`. -/
def DiskReq.dataDesc (r : DiskReq β) (c : Chain) : VirtqDesc β where
  addr := .data r.b
  len := BSIZE
  flags := (if r.write then 0 else VRING_DESC_F_WRITE) ||| VRING_DESC_F_NEXT
  next := c.i2

namespace Disk

/-- `alloc_desc`, or -1. -/
def allocDesc (d : Disk β) : Option (ℕ × Disk β) :=
  ((List.range NUM).find? d.free).map fun i => (i, { d with free := update d.free i false })

/-- `free_desc(i)`, or a panic. -/
def freeDesc (d : Disk β) (i : ℕ) : Option (Disk β) :=
  if NUM ≤ i then none
  else if d.free i then none
  else some { d with
    desc := update d.desc i ⟨.null, 0, 0, 0⟩
    free := update d.free i true }

/-- `free_chain(i)` for at most so many rounds, or a panic. -/
def freeChain : ℕ → Disk β → ℕ → Option (Disk β)
  | 0, _, _ => none
  | k + 1, d, i =>
    let flag := (d.desc i).flags
    let nxt := (d.desc i).next
    (d.freeDesc i).bind fun d =>
      if flag &&& VRING_DESC_F_NEXT ≠ 0 then freeChain k d nxt else some d

/-- `alloc3_desc`, the rounds of its loop written out : the chain or -1, or a panic. -/
def alloc3Desc (d : Disk β) : Option (Disk β × Option Chain) :=
  match d.allocDesc with
  | none => some (d, none)
  | some (i0, d) =>
    match d.allocDesc with
    | none => (d.freeDesc i0).map fun d => (d, none)
    | some (i1, d) =>
      match d.allocDesc with
      | none => ((d.freeDesc i0).bind fun d => d.freeDesc i1).map fun d => (d, none)
      | some (i2, d) => some (d, some ⟨i0, i1, i2⟩)

/-- `virtio_disk_rw` from the formatting to the entry of the available ring. -/
def format (d : Disk β) [DecidableEq β] (r : DiskReq β) (c : Chain) : Disk β :=
  { d with
    ops := update d.ops c.i0 r.op
    desc := update (update (update d.desc c.i0
      ⟨.op c.i0, 16, VRING_DESC_F_NEXT, c.i1⟩) c.i1
      (r.dataDesc c)) c.i2
      ⟨.status c.i0, 1, VRING_DESC_F_WRITE, 0⟩
    infoStatus := update d.infoStatus c.i0 0xff
    busy := update d.busy r.b true
    infoB := update d.infoB c.i0 (some r.b)
    availRing := update d.availRing (Ring.index NUM d.availIdx) c.i0 }

/-- The chain that the device reads at the descriptor `i`. -/
def read (d : Disk β) (i : ℕ) : DeviceReq β where
  head := i
  op :=
    match (d.desc i).addr with
    | .op k => d.ops k
    | .null | .data _ | .status _ => ⟨0, 0, 0⟩
  data := d.desc (d.desc i).next
  status := (d.desc (d.desc (d.desc i).next).next).addr

/-- The entry of the available ring that the device reads next. -/
def nextHead (d : Disk β) : ℕ :=
  d.availRing (Ring.index NUM d.deviceIdx)

/-- The device reads the next chain. -/
def fetch (d : Disk β) : Disk β :=
  { d with deviceIdx := d.deviceIdx + 1, inflight := d.inflight ++ [d.read d.nextHead] }

/-- The device completes the request `r`, and keeps `l`. -/
def complete (d : Disk β) (r : DeviceReq β) (l : List (DeviceReq β)) : Disk β :=
  { d with
    infoStatus :=
      match r.status with
      | .status i => update d.infoStatus i 0
      | .null | .op _ | .data _ => d.infoStatus
    usedRing := update d.usedRing (Ring.index NUM d.usedRingIdx) r.head
    usedRingIdx := d.usedRingIdx + 1
    inflight := l }

/-- `disk.used->ring[disk.used_idx % NUM].id`. -/
def nextUsed (d : Disk β) : ℕ :=
  d.usedRing (Ring.index NUM d.usedIdx)

/-- The handler is done with the next completion, that of the buffer `b`. -/
def seen (d : Disk β) [DecidableEq β] (b : β) : Disk β :=
  { d with busy := update d.busy b false, usedIdx := d.usedIdx + 1 }

end Disk

/-- Where a process is in `virtio_disk_rw`. -/
inductive DiskPc (β : Type)
  | run
  /-- Before `acquire(&disk.vdisk_lock)`. -/
  | acquire (r : DiskReq β)
  /-- Before `alloc3_desc`. -/
  | alloc (r : DiskReq β)
  /-- In `sleep(&disk.free[0], ..)`, SLEEPING. -/
  | asleepFree (r : DiskReq β)
  /-- The same, before `acquire(&disk.vdisk_lock)`. -/
  | wokenFree (r : DiskReq β)
  /-- Before `disk.avail->idx += 1`. -/
  | formatted (r : DiskReq β) (c : Chain)
  /-- Before the test of `b->disk`. -/
  | wait (r : DiskReq β) (c : Chain)
  /-- In `sleep(b, ..)`, SLEEPING. -/
  | asleepBuf (r : DiskReq β) (c : Chain)
  /-- The same, before `acquire(&disk.vdisk_lock)`. -/
  | wokenBuf (r : DiskReq β) (c : Chain)

namespace DiskPc

/-- The process holds `vdisk_lock`. -/
def holds : DiskPc β → Bool
  | alloc _ | formatted _ _ | wait _ _ => true
  | run | acquire _ | asleepFree _ | wokenFree _ | asleepBuf _ _ | wokenBuf _ _ => false

/-- The call the process is in. -/
def req : DiskPc β → Option (DiskReq β)
  | run => none
  | acquire r | alloc r | asleepFree r | wokenFree r | formatted r _ | wait r _ | asleepBuf r _
  | wokenBuf r _ => some r

/-- The request, with its chain. -/
def chain : DiskPc β → Option (DiskReq β × Chain)
  | formatted r c | wait r c | asleepBuf r c | wokenBuf r c => some (r, c)
  | run | acquire _ | alloc _ | asleepFree _ | wokenFree _ => none

/-- The same, once the device has been told. -/
def submitted : DiskPc β → Option (DiskReq β × Chain)
  | wait r c | asleepBuf r c | wokenBuf r c => some (r, c)
  | run | acquire _ | alloc _ | asleepFree _ | wokenFree _ | formatted _ _ => none

/-- Woken from a `sleep`. -/
def woken : DiskPc β → DiskPc β
  | asleepFree r => wokenFree r
  | asleepBuf r c => wokenBuf r c
  | pc => pc

/-- `wakeup(&disk.free[0])`. -/
def wakeupFree : DiskPc β → DiskPc β
  | asleepFree r => wokenFree r
  | pc => pc

/-- `wakeup(b)`. -/
def wakeupBuf [DecidableEq β] (b : β) : DiskPc β → DiskPc β
  | asleepBuf r c => if r.b = b then wokenBuf r c else asleepBuf r c
  | pc => pc

end DiskPc

/-- The holder of `vdisk_lock`. -/
inductive DiskLock (ι : Type)
  | free
  | proc (p : ι)
  /-- `virtio_disk_intr`. -/
  | intr
  deriving DecidableEq

inductive DiskEvent (β ι : Type)
  | call (p : ι) (r : DiskReq β)
  | acquire (p : ι)
  /-- A chain is allocated and formatted. -/
  | alloc (p : ι)
  /-- `alloc3_desc` fails. -/
  | allocFail (p : ι)
  /-- The device is told of the chain with this head. -/
  | submit (p : ι) (h : ℕ)
  | sleep (p : ι)
  | kill (p : ι)
  | ret (p : ι)
  /-- The handler takes the lock. -/
  | intr
  /-- The handler has seen the completion of the chain with this head. -/
  | seen (h : ℕ)
  | intrDone
  /-- The device reads a chain. -/
  | fetch (h : ℕ)
  /-- The device completes a chain. -/
  | complete (h : ℕ)
  /-- A panic of `free_desc` or of `virtio_disk_intr`. -/
  | panic
  /-- The handler finds no buffer. -/
  | wild

/-- The driver and the device. -/
structure DiskSys (β ι : Type) where
  disk : Disk β
  lock : DiskLock ι
  pc : ι → DiskPc β

namespace DiskSys

variable [DecidableEq β] [DecidableEq ι]

/-- Process `p` goes to `pc`. -/
def goto (s : DiskSys β ι) (p : ι) (pc : DiskPc β) : DiskSys β ι :=
  { s with pc := update s.pc p pc }

/-- `wakeup(&disk.free[0])`. -/
def wakeupFree (s : DiskSys β ι) : DiskSys β ι :=
  { s with pc := fun p => (s.pc p).wakeupFree }

/-- `wakeup(b)`. -/
def wakeupBuf (s : DiskSys β ι) (b : β) : DiskSys β ι :=
  { s with pc := fun p => (s.pc p).wakeupBuf b }

/-- One step. -/
inductive Step (s : DiskSys β ι) : DiskEvent β ι → DiskSys β ι → Prop
  | call (p : ι) (r : DiskReq β) (hpc : s.pc p = .run)
      (hb : ∀ q r', (s.pc q).req = some r' → r'.b ≠ r.b) :
    Step s (.call p r) (s.goto p (.acquire r))
  | acquire (p : ι) (r : DiskReq β) (hpc : s.pc p = .acquire r ∨ s.pc p = .wokenFree r)
      (hl : s.lock = .free) :
    Step s (.acquire p) ({ s with lock := .proc p }.goto p (.alloc r))
  | alloc (p : ι) (r : DiskReq β) (c : Chain) (d : Disk β) (hpc : s.pc p = .alloc r)
      (hd : s.disk.alloc3Desc = some (d, some c)) :
    Step s (.alloc p) ({ s with disk := d.format r c }.goto p (.formatted r c))
  | allocFail (p : ι) (r : DiskReq β) (d : Disk β) (hpc : s.pc p = .alloc r)
      (hd : s.disk.alloc3Desc = some (d, none)) :
    Step s (.allocFail p)
      -- what has been allocated is given back, if anything has, and that wakes
      ((if s.disk.allocDesc.isSome then { s with disk := d, lock := .free }.wakeupFree
        else { s with disk := d, lock := .free }).goto p (.asleepFree r))
  | allocPanic (p : ι) (r : DiskReq β) (hpc : s.pc p = .alloc r)
      (hd : s.disk.alloc3Desc = none) :
    Step s .panic s
  | submit (p : ι) (r : DiskReq β) (c : Chain) (hpc : s.pc p = .formatted r c) :
    Step s (.submit p c.i0)
      ({ s with disk := { s.disk with availIdx := s.disk.availIdx + 1 } }.goto p (.wait r c))
  | sleep (p : ι) (r : DiskReq β) (c : Chain) (hpc : s.pc p = .wait r c)
      (hb : s.disk.busy r.b = true) :
    Step s (.sleep p) ({ s with lock := .free }.goto p (.asleepBuf r c))
  | reacquire (p : ι) (r : DiskReq β) (c : Chain) (hpc : s.pc p = .wokenBuf r c)
      (hl : s.lock = .free) :
    Step s (.acquire p) ({ s with lock := .proc p }.goto p (.wait r c))
  | ret (p : ι) (r : DiskReq β) (c : Chain) (d : Disk β) (hpc : s.pc p = .wait r c)
      (hb : s.disk.busy r.b = false)
      (hd : Disk.freeChain (NUM + 1) { s.disk with infoB := update s.disk.infoB c.i0 none } c.i0 =
        some d) :
    Step s (.ret p) ({ s with disk := d, lock := .free }.wakeupFree.goto p .run)
  | retPanic (p : ι) (r : DiskReq β) (c : Chain) (hpc : s.pc p = .wait r c)
      (hb : s.disk.busy r.b = false)
      (hd : Disk.freeChain (NUM + 1) { s.disk with infoB := update s.disk.infoB c.i0 none } c.i0 =
        none) :
    Step s .panic s
  | kill (p : ι) : Step s (.kill p) (s.goto p (s.pc p).woken)
  -- `virtio_disk_intr`
  | intr (hl : s.lock = .free) : Step s .intr { s with lock := .intr }
  | seen (b : β) (hl : s.lock = .intr) (hu : s.disk.usedIdx ≠ s.disk.usedRingIdx)
      (hst : s.disk.infoStatus s.disk.nextUsed = 0) (hb : s.disk.infoB s.disk.nextUsed = some b) :
    Step s (.seen s.disk.nextUsed)
      ({ s with disk := s.disk.seen b }.wakeupBuf b)
  | statusPanic (hl : s.lock = .intr) (hu : s.disk.usedIdx ≠ s.disk.usedRingIdx)
      (hst : s.disk.infoStatus s.disk.nextUsed ≠ 0) :
    Step s .panic s
  | wild (hl : s.lock = .intr) (hu : s.disk.usedIdx ≠ s.disk.usedRingIdx)
      (hst : s.disk.infoStatus s.disk.nextUsed = 0) (hb : s.disk.infoB s.disk.nextUsed = none) :
    Step s .wild s
  | intrDone (hl : s.lock = .intr) (hu : s.disk.usedIdx = s.disk.usedRingIdx) :
    Step s .intrDone { s with lock := .free }
  -- the device
  | fetch (hi : s.disk.deviceIdx ≠ s.disk.availIdx) :
    Step s (.fetch s.disk.nextHead) { s with disk := s.disk.fetch }
  | complete (r : DeviceReq β) (l l' : List (DeviceReq β)) (hi : s.disk.inflight = l ++ r :: l') :
    Step s (.complete r.head) { s with disk := s.disk.complete r (l ++ l') }

/-- A zeroed disk with every descriptor free, and nobody there. -/
def zero : DiskSys β ι where
  disk :=
    { desc := fun _ => ⟨.null, 0, 0, 0⟩
      free := fun _ => true
      ops := fun _ => ⟨0, 0, 0⟩
      infoB := fun _ => none
      infoStatus := fun _ => 0
      availIdx := 0
      availRing := fun _ => 0
      usedRingIdx := 0
      usedRing := fun _ => 0
      usedIdx := 0
      busy := fun _ => false
      deviceIdx := 0
      inflight := [] }
  lock := .free
  pc := fun _ => .run

/-- After `virtio_disk_init`. -/
def Boot (s : DiskSys β ι) : Prop :=
  (∀ i < NUM, s.disk.free i = true) ∧ s.disk.availIdx = 0 ∧ s.disk.usedRingIdx = 0 ∧
    s.disk.usedIdx = 0 ∧ s.disk.deviceIdx = 0 ∧ s.disk.inflight = [] ∧ s.lock = .free ∧
    ∀ p, s.pc p = .run

end DiskSys

end CowPbs
