import Mathlib
import CowPbs.Lib.Bytes
import CowPbs.Lib.Transition

/-!
# The file system on the disk

kernel/fs.c, from the block allocator to directories, over the bytes of one disk. A block is
`BSIZE` bytes of it, and `bread` gives the bytes that the last `log_write` of the block left.
Each function takes the disk, and where it works on a locked inode the in-memory copy of it,
and returns them changed, or the panic it stops with. What is not a panic, such as a full
disk, is a value that it returns.

User memory is outside. `copyout` says of a piece of `readi` if it can be stored, and `src`
gives the bytes that `writei` copies, as far as they can be read : `copyin` stops at the first
byte that is not mapped, with the bytes before it already in the buffer.

Calls are made one after another, each on an inode that the caller has locked where the
source asks for it (`Enabled`). `iput` on a locked inode is `iunlockput`, and a caller that
changes `major`, `minor` and `nlink` calls `iupdate` before it unlocks (`setLinks`). There is
one device.
-/

set_option linter.unusedVariables false

open Bytes Function

namespace CowPbs

/-- Block size. -/
def BSIZE : ℕ := 1024

def NDIRECT : ℕ := 12

/-- `BSIZE / sizeof(uint)`. -/
def NINDIRECT : ℕ := 256

def MAXFILE : ℕ := NDIRECT + NINDIRECT

/-- Inodes per block, each of 64 bytes. -/
def IPB : ℕ := 16

/-- Bitmap bits per block. -/
def BPB : ℕ := BSIZE * 8

def DIRSIZ : ℕ := 14

/-- `sizeof(struct dirent)`. -/
def DIRENT : ℕ := 16

/-- The types `create` gives to an inode. -/
inductive FileType
  | dir
  | file
  | device
  deriving DecidableEq

/-- `T_DIR`, `T_FILE` and `T_DEVICE`. -/
def FileType.code : FileType → ℕ
  | dir => 1
  | file => 2
  | device => 3

/-- `struct superblock`, without the fields of the log. The regions lie in the order in which
mkfs puts them, and block numbers fit in an `int`. -/
structure Superblock where
  size : ℕ
  nblocks : ℕ
  ninodes : ℕ
  inodestart : ℕ
  bmapstart : ℕ
  inodes_le : inodestart + ninodes / IPB + 1 ≤ bmapstart
  bitmap_le : bmapstart + size / BPB + 1 ≤ size - nblocks
  size_le : size ≤ 2 ^ 31

/-- The number of blocks before the data blocks. -/
def Superblock.nmeta (sb : Superblock) : ℕ :=
  sb.size - sb.nblocks

/-- `struct dinode`. -/
structure Dinode where
  type : ℕ
  major : ℕ
  minor : ℕ
  nlink : ℕ
  size : ℕ
  addrs : Fin (NDIRECT + 1) → ℕ

/-- `struct inode`. -/
structure Inode where
  inum : ℕ
  ref : ℕ
  valid : Bool
  copy : Dinode

/-- The disk and `itable.inode`. -/
structure Fs (n : ℕ) where
  disk : Mem
  itable : Fin n → Inode

/-- The panics of the functions here. -/
inductive FsPanic
  | freeingFreeBlock
  | igetNoInodes
  | ilock
  | ilockNoType
  | bmapOutOfRange
  | dirlookupNotDir
  | dirlookupRead
  | dirlinkRead
  deriving DecidableEq

/-- `ip->addrs[k]` is set. -/
def Dinode.setAddr (d : Dinode) (k : Fin (NDIRECT + 1)) (b : ℕ) : Dinode :=
  { d with addrs := update d.addrs k b }

namespace Fs

variable (sb : Superblock) (m : Mem) (d : Dinode)

/-! ## Blocks -/

/-- Where the byte of the free map with the bit for `b` is. -/
def bitAddr (b : ℕ) : ℕ :=
  (b / BPB + sb.bmapstart) * BSIZE + b % BPB / 8

/-- The block is marked in the free map. -/
def inUse (b : ℕ) : Bool :=
  bit m (bitAddr sb b) (b % BPB % 8)

def mark (b : ℕ) : Mem :=
  setBit m (bitAddr sb b) (b % BPB % 8)

def bzero (b : ℕ) : Mem :=
  store m (b * BSIZE) (List.replicate BSIZE 0)

/-- The two loops go through the blocks below `size` in order. -/
def balloc : ℕ × Mem :=
  match (List.range sb.size).find? fun b => !inUse sb m b with
  | some b => (b, bzero (mark sb m b) b)
  | none => (0, m)

def bfree (b : ℕ) : Except FsPanic Mem :=
  if inUse sb m b then .ok (clearBit m (bitAddr sb b) (b % BPB % 8))
  else .error .freeingFreeBlock

/-! ## Inodes on the disk -/

/-- Where the inode `inum` is. -/
def dinodeAddr (inum : ℕ) : ℕ :=
  (inum / IPB + sb.inodestart) * BSIZE + inum % IPB * 64

/-- The inode `inum`, as `ilock` copies it. -/
def readDinode (inum : ℕ) : Dinode where
  type := get m (dinodeAddr sb inum) 2
  major := get m (dinodeAddr sb inum + 2) 2
  minor := get m (dinodeAddr sb inum + 4) 2
  nlink := get m (dinodeAddr sb inum + 6) 2
  size := get m (dinodeAddr sb inum + 8) 4
  addrs := fun k => get m (dinodeAddr sb inum + 12 + k * 4) 4

def iupdate (inum : ℕ) : Mem :=
  let a := dinodeAddr sb inum
  let m := put m a 2 d.type
  let m := put m (a + 2) 2 d.major
  let m := put m (a + 4) 2 d.minor
  let m := put m (a + 6) 2 d.nlink
  let m := put m (a + 8) 4 d.size
  putArray m (a + 12) 4 d.addrs

/-! ## Inode content -/

/-- `a[j]` of the block `b`. -/
def word (b j : ℕ) : ℕ :=
  get m (b * BSIZE + j * 4) 4

/-- `ip->addrs[k]`, allocated if there is none, and 0 if there is no free block. -/
def addrAt (k : Fin (NDIRECT + 1)) : ℕ × Dinode × Mem :=
  if d.addrs k = 0 then
    let r := balloc sb m
    if r.1 = 0 then (0, d, r.2) else (r.1, d.setAddr k r.1, r.2)
  else (d.addrs k, d, m)

/-- The part of `bmap` behind the indirect block `b`. -/
def entryAt (b j : ℕ) : ℕ × Mem :=
  if word m b j = 0 then
    let r := balloc sb m
    if r.1 = 0 then (0, r.2) else (r.1, put r.2 (b * BSIZE + j * 4) 4 r.1)
  else (word m b j, m)

def bmap (bn : ℕ) : Except FsPanic (ℕ × Dinode × Mem) :=
  if h : bn < NDIRECT then .ok (addrAt sb m d (Fin.castSucc ⟨bn, h⟩))
  else if bn - NDIRECT < NINDIRECT then
    let r := addrAt sb m d (Fin.last NDIRECT)
    if r.1 = 0 then .ok r
    else
      let e := entryAt sb r.2.2 r.1 (bn - NDIRECT)
      .ok (e.1, r.2.1, e.2)
  else .error .bmapOutOfRange

/-- The first loop of `itrunc`. -/
def freeAddrs : List (Fin (NDIRECT + 1)) → Mem → Dinode → Except FsPanic (Dinode × Mem)
  | [], m, d => .ok (d, m)
  | k :: ks, m, d =>
    if d.addrs k = 0 then freeAddrs ks m d
    else (bfree sb m (d.addrs k)).bind fun m => freeAddrs ks m (d.setAddr k 0)

/-- The second loop of `itrunc`, over the entries of the block `b`. -/
def freeEntries (b : ℕ) : List ℕ → Mem → Except FsPanic Mem
  | [], m => .ok m
  | j :: js, m =>
    if word m b j = 0 then freeEntries b js m
    else (bfree sb m (word m b j)).bind fun m => freeEntries b js m

/-- The indirect block of `itrunc`. -/
def freeIndirect : Except FsPanic (Dinode × Mem) :=
  if d.addrs (Fin.last NDIRECT) = 0 then .ok (d, m)
  else
    (freeEntries sb (d.addrs (Fin.last NDIRECT)) (List.range NINDIRECT) m).bind fun m =>
    (bfree sb m (d.addrs (Fin.last NDIRECT))).bind fun m =>
    .ok (d.setAddr (Fin.last NDIRECT) 0, m)

def itrunc (inum : ℕ) : Except FsPanic (Dinode × Mem) :=
  (freeAddrs sb ((List.finRange NDIRECT).map Fin.castSucc) m d).bind fun r =>
  (freeIndirect sb r.2 r.1).bind fun r =>
  .ok ({ r.1 with size := 0 }, iupdate sb r.2 { r.1 with size := 0 } inum)

/-- What `readi` returns and what it leaves. -/
structure Read where
  tot : ℤ
  /-- The bytes stored at `dst`. -/
  data : List Byte
  copy : Dinode
  disk : Mem

/-- The loop of `readi`; each round moves `tot`, so that `n` rounds are enough. -/
def readLoop (copyout : ℕ → Bool) (n : ℕ) :
    ℕ → ℕ → ℕ → List Byte → Mem → Dinode → Except FsPanic Read
  | 0, tot, off, data, m, d => .ok ⟨tot, data, d, m⟩
  | fuel + 1, tot, off, data, m, d =>
    if tot < n then
      (bmap sb m d (off / BSIZE)).bind fun r =>
      if r.1 = 0 then .ok ⟨tot, data, r.2.1, r.2.2⟩
      else
        let k := min (n - tot) (BSIZE - off % BSIZE)
        if copyout tot then
          readLoop copyout n fuel (tot + k) (off + k)
            (data ++ load r.2.2 (r.1 * BSIZE + off % BSIZE) k) r.2.2 r.2.1
        else .ok ⟨-1, data, r.2.1, r.2.2⟩
    else .ok ⟨tot, data, d, m⟩

def readi (copyout : ℕ → Bool) (off n : ℕ) : Except FsPanic Read :=
  if d.size < off ∨ (off + n) % 2 ^ 32 < off then .ok ⟨0, [], d, m⟩
  else
    let n := if d.size < off + n then d.size - off else n
    readLoop sb copyout n n 0 off [] m d

/-- The bytes of `src` from `p` on that `either_copyin` has copied when it returns, all `k` of
them if it succeeds. -/
def copyin (src : ℕ → Option Byte) : ℕ → ℕ → List Byte
  | p, 0 => []
  | p, k + 1 =>
    match src p with
    | some b => b :: copyin src (p + 1) k
    | none => []

/-- The loop of `writei`; it returns `tot` and `off`. -/
def writeLoop (src : ℕ → Option Byte) (n : ℕ) :
    ℕ → ℕ → ℕ → Mem → Dinode → Except FsPanic (ℕ × ℕ × Dinode × Mem)
  | 0, tot, off, m, d => .ok (tot, off, d, m)
  | fuel + 1, tot, off, m, d =>
    if tot < n then
      (bmap sb m d (off / BSIZE)).bind fun r =>
      if r.1 = 0 then .ok (tot, off, r.2.1, r.2.2)
      else
        let k := min (n - tot) (BSIZE - off % BSIZE)
        let data := copyin src tot k
        let m := store r.2.2 (r.1 * BSIZE + off % BSIZE) data
        if data.length = k then writeLoop src n fuel (tot + k) (off + k) m r.2.1
        else .ok (tot, off, r.2.1, m)
    else .ok (tot, off, d, m)

def writei (inum : ℕ) (src : ℕ → Option Byte) (off n : ℕ) :
    Except FsPanic (ℤ × Dinode × Mem) :=
  if d.size < off ∨ (off + n) % 2 ^ 32 < off then .ok (-1, d, m)
  else if MAXFILE * BSIZE < (off + n) % 2 ^ 32 then .ok (-1, d, m)
  else
    (writeLoop sb src n n 0 off m d).bind fun r =>
    let d := if r.2.2.1.size < r.2.1 then { r.2.2.1 with size := r.2.1 } else r.2.2.1
    .ok (r.1, d, iupdate sb r.2.2.2 d inum)

/-! ## Directories -/

/-- The part of a name that `namecmp` and `strncpy` see. -/
def cname (s : List Byte) : List Byte :=
  (s.take DIRSIZ).takeWhile (· ≠ 0)

/-- `struct dirent`. -/
def dirent (name : List Byte) (inum : ℕ) : List Byte :=
  toBytes 2 inum ++ cname name ++ List.replicate (DIRSIZ - (cname name).length) 0

/-- The offsets of the loops over a directory. -/
def offsets (size : ℕ) : List ℕ :=
  (List.range ((size + DIRENT - 1) / DIRENT)).map (· * DIRENT)

/-- The loop of `dirlookup`; the offset and the inode number of the entry. -/
def lookupLoop (name : List Byte) :
    List ℕ → Mem → Dinode → Except FsPanic (Option (ℕ × ℕ) × Dinode × Mem)
  | [], m, d => .ok (none, d, m)
  | off :: offs, m, d =>
    (readi sb m d (fun _ => true) off DIRENT).bind fun r =>
    if r.tot ≠ DIRENT then .error .dirlookupRead
    else if ofBytes (r.data.take 2) ≠ 0 ∧ cname name = cname (r.data.drop 2) then
      .ok (some (off, ofBytes (r.data.take 2)), r.copy, r.disk)
    else lookupLoop name offs r.disk r.copy

/-- `dirlookup`, before it calls `iget`. -/
def dirlookup (name : List Byte) : Except FsPanic (Option (ℕ × ℕ) × Dinode × Mem) :=
  if d.type ≠ FileType.dir.code then .error .dirlookupNotDir
  else lookupLoop sb name (offsets d.size) m d

/-- The loop of `dirlink` that looks for an empty entry. -/
def emptyLoop : ℕ → List ℕ → Mem → Dinode → Except FsPanic (ℕ × Dinode × Mem)
  | last, [], m, d => .ok (last, d, m)
  | last, off :: offs, m, d =>
    (readi sb m d (fun _ => true) off DIRENT).bind fun r =>
    if r.tot ≠ DIRENT then .error .dirlinkRead
    else if ofBytes (r.data.take 2) = 0 then .ok (off, r.copy, r.disk)
    else emptyLoop last offs r.disk r.copy

/-- `dirlink`, after the name was not found in it. -/
def addEntry (dinum : ℕ) (name : List Byte) (inum : ℕ) : Except FsPanic (ℤ × Dinode × Mem) :=
  (emptyLoop sb ((offsets d.size).length * DIRENT) (offsets d.size) m d).bind fun r =>
  (writei sb r.2.2 r.2.1 dinum (fun k => (dirent name inum)[k]?) r.1 DIRENT).bind fun w =>
  .ok (if w.1 ≠ DIRENT then -1 else 0, w.2)

/-! ## The inode table -/

variable {n : ℕ} (s : Fs n)

/-- The entry `ip` is changed. -/
def set (ip : Fin n) (x : Inode) : Fs n :=
  { s with itable := update s.itable ip x }

/-- The in-memory copy of `ip` and the disk are changed. -/
def setCopy (ip : Fin n) (d : Dinode) (m : Mem) : Fs n where
  disk := m
  itable := update s.itable ip { s.itable ip with copy := d }

def iget (inum : ℕ) : Except FsPanic (Fin n × Fs n) :=
  match (List.finRange n).find? fun ip => 0 < (s.itable ip).ref ∧ (s.itable ip).inum = inum with
  | some ip => .ok (ip, s.set ip { s.itable ip with ref := (s.itable ip).ref + 1 })
  | none =>
    match (List.finRange n).find? fun ip => (s.itable ip).ref = 0 with
    | some ip =>
      .ok (ip, s.set ip { s.itable ip with inum := inum, ref := 1, valid := false })
    | none => .error .igetNoInodes

def idup (ip : Fin n) : Fs n :=
  s.set ip { s.itable ip with ref := (s.itable ip).ref + 1 }

def ilock (ip : Fin n) : Except FsPanic (Fs n) :=
  if (s.itable ip).ref < 1 then .error .ilock
  else if (s.itable ip).valid then .ok s
  else
    let d := readDinode sb s.disk (s.itable ip).inum
    if d.type = 0 then .error .ilockNoType
    else .ok (s.set ip { s.itable ip with copy := d, valid := true })

/-- `ialloc`, which returns no inode if there is no free one. -/
def ialloc (type : FileType) : Except FsPanic (Option (Fin n) × Fs n) :=
  match (List.range' 1 (sb.ninodes - 1)).find?
      fun inum => (readDinode sb s.disk inum).type = 0 with
  | some inum =>
    let m := store s.disk (dinodeAddr sb inum) (List.replicate 64 0)
    let m := put m (dinodeAddr sb inum) 2 type.code
    (iget { s with disk := m } inum).bind fun r => .ok (some r.1, r.2)
  | none => .ok (none, s)

/-- The part of `iput` that frees the inode. -/
def ifree (ip : Fin n) : Except FsPanic (Fs n) :=
  (itrunc sb s.disk (s.itable ip).copy (s.itable ip).inum).bind fun r =>
  let d := { r.1 with type := 0 }
  .ok ((s.setCopy ip d (iupdate sb r.2 d (s.itable ip).inum)).set ip
    { s.itable ip with copy := d, valid := false })

/-- `ip->ref--`. -/
def unref (ip : Fin n) : Fs n :=
  s.set ip { s.itable ip with ref := (s.itable ip).ref - 1 }

def iput (ip : Fin n) : Except FsPanic (Fs n) :=
  if (s.itable ip).ref = 1 ∧ (s.itable ip).valid ∧ (s.itable ip).copy.nlink = 0 then
    (s.ifree sb ip).bind fun s => .ok (s.unref ip)
  else .ok (s.unref ip)

/-- `dirlink`. -/
def dirlink (dp : Fin n) (name : List Byte) (inum : ℕ) : Except FsPanic (ℤ × Fs n) :=
  (dirlookup sb s.disk (s.itable dp).copy name).bind fun r =>
  let s := s.setCopy dp r.2.1 r.2.2
  match r.1 with
  | some e =>
    (s.iget e.2).bind fun r =>
    (r.2.iput sb r.1).bind fun s => .ok (-1, s)
  | none =>
    (addEntry sb s.disk (s.itable dp).copy (s.itable dp).inum name inum).bind fun w =>
    .ok (w.1, s.setCopy dp w.2.1 w.2.2)

/-! ## Calls -/

end Fs

/-- The calls made on the inodes of the table. -/
inductive FsCall (n : ℕ)
  | iget (inum : ℕ)
  | idup (ip : Fin n)
  | ilock (ip : Fin n)
  | iput (ip : Fin n)
  | ialloc (type : FileType)
  /-- New `major`, `minor` and `nlink`, and `iupdate`. -/
  | setLinks (ip : Fin n) (major minor nlink : ℕ)
  | readi (ip : Fin n) (copyout : ℕ → Bool) (off n : ℕ)
  | writei (ip : Fin n) (src : ℕ → Option Byte) (off n : ℕ)
  | itrunc (ip : Fin n)
  | dirlink (dp : Fin n) (name : List Byte) (inum : ℕ)

namespace Fs

variable {n : ℕ} (sb : Superblock) (s : Fs n)

/-- What `iupdate` after an assignment to the three fields leaves. -/
def setLinks (ip : Fin n) (major minor nlink : ℕ) : Fs n :=
  let d := { (s.itable ip).copy with
    major := major % 2 ^ 16, minor := minor % 2 ^ 16, nlink := nlink % 2 ^ 16 }
  s.setCopy ip d (iupdate sb s.disk d (s.itable ip).inum)

/-- The caller has locked `ip`. -/
def Locked (ip : Fin n) : Prop :=
  0 < (s.itable ip).ref ∧ (s.itable ip).valid = true

/-- What callers see to : references are held, inodes are locked where that is asked for, only
inodes of the table on the disk are locked, and offsets and lengths are `uint`s. -/
def Enabled : FsCall n → Prop
  | .iget _ => True
  | .idup ip => 0 < (s.itable ip).ref
  | .ilock ip => 0 < (s.itable ip).ref ∧ (s.itable ip).inum < sb.ninodes
  | .iput ip => 0 < (s.itable ip).ref
  | .ialloc _ => True
  | .setLinks ip _ _ _ => s.Locked ip
  | .readi ip _ off n => s.Locked ip ∧ off < 2 ^ 32 ∧ n < 2 ^ 32
  | .writei ip _ off n => s.Locked ip ∧ off < 2 ^ 32 ∧ n < 2 ^ 32
  | .itrunc ip => s.Locked ip
  | .dirlink dp _ _ => s.Locked dp

/-- The call, without the value it returns. -/
def call : FsCall n → Except FsPanic (Fs n)
  | .iget inum => (s.iget inum).bind fun r => .ok r.2
  | .idup ip => .ok (s.idup ip)
  | .ilock ip => s.ilock sb ip
  | .iput ip => s.iput sb ip
  | .ialloc type => (s.ialloc sb type).bind fun r => .ok r.2
  | .setLinks ip major minor nlink => .ok (s.setLinks sb ip major minor nlink)
  | .readi ip copyout off n =>
    (readi sb s.disk (s.itable ip).copy copyout off n).bind fun r =>
    .ok (s.setCopy ip r.copy r.disk)
  | .writei ip src off n =>
    (writei sb s.disk (s.itable ip).copy (s.itable ip).inum src off n).bind fun r =>
    .ok (s.setCopy ip r.2.1 r.2.2)
  | .itrunc ip =>
    (itrunc sb s.disk (s.itable ip).copy (s.itable ip).inum).bind fun r =>
    .ok (s.setCopy ip r.1 r.2)
  | .dirlink dp name inum => (s.dirlink sb dp name inum).bind fun r => .ok r.2

instance (ip : Fin n) : Decidable (s.Locked ip) :=
  inferInstanceAs (Decidable (_ ∧ _))

instance (c : FsCall n) : Decidable (s.Enabled sb c) :=
  match c with
  | .iget _ => inferInstanceAs (Decidable True)
  | .idup ip => inferInstanceAs (Decidable (0 < (s.itable ip).ref))
  | .ilock ip =>
    inferInstanceAs (Decidable (0 < (s.itable ip).ref ∧ (s.itable ip).inum < sb.ninodes))
  | .iput ip => inferInstanceAs (Decidable (0 < (s.itable ip).ref))
  | .ialloc _ => inferInstanceAs (Decidable True)
  | .setLinks ip _ _ _ => inferInstanceAs (Decidable (s.Locked ip))
  | .readi ip _ off n => inferInstanceAs (Decidable (s.Locked ip ∧ off < 2 ^ 32 ∧ n < 2 ^ 32))
  | .writei ip _ off n => inferInstanceAs (Decidable (s.Locked ip ∧ off < 2 ^ 32 ∧ n < 2 ^ 32))
  | .itrunc ip => inferInstanceAs (Decidable (s.Locked ip))
  | .dirlink dp _ _ => inferInstanceAs (Decidable (s.Locked dp))

/-- The state after the call, if it may be made and returns. -/
def move (s : Fs n) (c : FsCall n) : Option (Fs n) :=
  if s.Enabled sb c then (s.call sb c).toOption else none

/-- A call that returns. -/
def Step (s : Fs n) (c : FsCall n) (t : Fs n) : Prop :=
  s.Enabled sb c ∧ s.call sb c = .ok t

/-- The states reached from a disk `m` with nothing in the inode table. -/
def Boot (m : Mem) (s : Fs n) : Prop :=
  s.disk = m ∧ ∀ ip, (s.itable ip).ref = 0

end Fs

end CowPbs
