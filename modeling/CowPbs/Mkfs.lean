import Mathlib
import CowPbs.FsTree

/-!
# mkfs

mkfs/mkfs.c, which builds the file system that the kernel starts with. It takes inodes and blocks
in order and writes the free map at the end, and `iappend` does for it what `writei` does in the
kernel. The image file ends after `FSSIZE` blocks, so `rsect` of a block behind it, the first thing
that is done to a new block, ends the program.

If one looks at the disk with the free map that is to come (`balloc`), `iappend` is `writei`
(`iappend_writei`), so what is known of `writei` is known of the image (`mkfs_image`).
-/

open Bytes Function Overlay

namespace CowPbs

namespace Mkfs

def FSSIZE : ℕ := 2000
def NINODES : ℕ := 200

/-- `LOGSIZE`. -/
def nlog : ℕ := 30

def nbitmap : ℕ := FSSIZE / (BSIZE * 8) + 1
def ninodeblocks : ℕ := NINODES / IPB + 1
def nmeta : ℕ := 2 + nlog + ninodeblocks + nbitmap
def FSMAGIC : ℕ := 0x10203040
def ROOTINO : ℕ := 1

/-- The superblock that `main` fills in. -/
def sb : Superblock where
  size := FSSIZE
  nblocks := FSSIZE - nmeta
  ninodes := NINODES
  inodestart := 2 + nlog
  bmapstart := 2 + nlog + ninodeblocks
  inodes_le := by decide
  bitmap_le := by decide
  size_le := by decide

/-- `struct superblock`, as it lies in memory. -/
def superblock : List Byte :=
  [FSMAGIC, sb.size, sb.nblocks, sb.ninodes, nlog, 2, sb.inodestart, sb.bmapstart].flatMap
    (toBytes 4)

/-- The image, and the next inode and block. -/
structure State where
  disk : Mem
  freeinode : ℕ
  freeblock : ℕ

/-- `din.addrs[k]`, which is set to a new block if it is 0. -/
def addrAt (d : Dinode) (free : ℕ) (k : Fin (NDIRECT + 1)) : ℕ × Dinode × ℕ :=
  if d.addrs k = 0 then (free, d.setAddr k free, free + 1) else (d.addrs k, d, free)

/-- `indirect[j]` of the block `b`, which is set to a new block if it is 0. -/
def entryAt (m : Mem) (free b j : ℕ) : ℕ × Mem × ℕ :=
  if Fs.word m b j = 0 then (free, put m (b * BSIZE + j * 4) 4 free, free + 1)
  else (Fs.word m b j, m, free)

/-- The block that the loop of `iappend` is at : what is `x` there. -/
def blockFor (m : Mem) (d : Dinode) (free fbn : ℕ) : Option (ℕ × Dinode × Mem × ℕ) :=
  if h : fbn < NDIRECT then
    let r := addrAt d free (Fin.castSucc ⟨fbn, h⟩)
    some (r.1, r.2.1, m, r.2.2)
  else
    let r := addrAt d free (Fin.last NDIRECT)
    if r.1 < FSSIZE then
      let e := entryAt m r.2.2 r.1 (fbn - NDIRECT)
      some (e.1, r.2.1, e.2.1, e.2.2)
    else none

/-- The loop of `iappend`, which moves on in each round. There is no result if an assertion fails
or `rsect` does. -/
def appendLoop : ℕ → List Byte → ℕ → Mem → Dinode → ℕ → Option (ℕ × Dinode × Mem × ℕ)
  | 0, _, off, m, d, free => some (off, d, m, free)
  | fuel + 1, p, off, m, d, free =>
    if p = [] then some (off, d, m, free)
    else
      let fbn := off / BSIZE
      if fbn < MAXFILE then
        (blockFor m d free fbn).bind fun r =>
        if r.1 < FSSIZE then
          let n1 := Min.min p.length ((fbn + 1) * BSIZE - off)
          let m := store r.2.2.1 (r.1 * BSIZE + (off - fbn * BSIZE)) (p.take n1)
          appendLoop fuel (p.drop n1) (off + n1) m r.2.1 r.2.2.2
        else none
      else none

def iappend (s : State) (inum : ℕ) (p : List Byte) : Option State :=
  let din := Fs.readDinode sb s.disk inum
  (appendLoop p.length p din.size s.disk din s.freeblock).map fun r =>
    { s with
      disk := Fs.iupdate sb r.2.2.1 { r.2.1 with size := r.1 } inum
      freeblock := r.2.2.2 }

/-- The inode that `ialloc` writes. -/
def newDinode (type : FileType) : Dinode where
  type := type.code
  major := 0
  minor := 0
  nlink := 1
  size := 0
  addrs := fun _ => 0

def ialloc (s : State) (type : FileType) : ℕ × State :=
  (s.freeinode, { s with
    disk := Fs.iupdate sb s.disk (newDinode type) s.freeinode
    freeinode := s.freeinode + 1 })

/-- The bit of a block is set in `buf`, which is the block of the free map. -/
def setUsed (m : Mem) (i : ℕ) : Mem :=
  setBit m (sb.bmapstart * BSIZE + i / 8) (i % 8)

/-- `balloc`. -/
def balloc (m : Mem) (used : ℕ) : Mem :=
  (List.range used).foldl setUsed (Fs.bzero m sb.bmapstart)

/-- The image with a superblock and a root directory without files. -/
def start : Option State :=
  let r := ialloc ⟨store (fun _ => 0) BSIZE superblock, 1, nmeta⟩ .dir
  (iappend r.2 r.1 (Fs.dirent [46] r.1)).bind fun s => iappend s r.1 (Fs.dirent [46, 46] r.1)

/-- The end of `main`. -/
def finish (s : State) : Option Mem :=
  let din := Fs.readDinode sb s.disk ROOTINO
  let off := (din.size / BSIZE + 1) * BSIZE
  if s.freeblock < BSIZE * 8 then
    some (balloc (Fs.iupdate sb s.disk { din with size := off } ROOTINO) s.freeblock)
  else none

variable {m m' : Mem} {d d' : Dinode} {free b c i j x : ℕ} {g : Mem → Mem}

/-- The addresses of the free map. -/
def InMap (x : ℕ) : Prop :=
  sb.bmapstart * BSIZE ≤ x ∧ x < sb.bmapstart * BSIZE + BSIZE

theorem setUsed_eq : setUsed m i = Fs.mark sb m i := by
  unfold setUsed Fs.mark
  rw [Fs.bitAddr_eq, Fs.bitAddr_index]

theorem balloc_zero : balloc m 0 = Fs.bzero m sb.bmapstart := by
  unfold balloc
  rw [List.range_zero, List.foldl_nil]

theorem balloc_succ : balloc m (free + 1) = Fs.mark sb (balloc m free) free := by
  unfold balloc
  rw [List.range_succ, List.foldl_append, List.foldl_cons, List.foldl_nil, setUsed_eq]

/-- Only the free map is written. -/
theorem balloc_of_outside (hfree : free ≤ FSSIZE) (hx : ¬InMap x) : balloc m free x = m x := by
  induction free with
  | zero =>
    rw [balloc_zero]
    refine store_of_outside ?_
    rw [List.length_replicate]
    unfold InMap at hx
    omega
  | succ free ih =>
    rw [balloc_succ, Fs.mark, setBit_of_ne, ih (Nat.le_of_succ_le hfree)]
    rw [Fs.bitAddr_eq]
    simp only [InMap, FSSIZE, BSIZE] at hx hfree ⊢
    omega

/-- The free map does not depend on what was there. -/
theorem balloc_inside (hx : InMap x) : balloc m free x = balloc m' free x := by
  induction free with
  | zero =>
    have hlt : x - sb.bmapstart * BSIZE < (List.replicate BSIZE (0 : Byte)).length := by
      simp only [InMap, List.length_replicate] at hx ⊢
      omega
    have hadd : x = sb.bmapstart * BSIZE + (x - sb.bmapstart * BSIZE) := by
      simp only [InMap] at hx
      omega
    rw [balloc_zero, balloc_zero, Fs.bzero, Fs.bzero, hadd, store_add hlt, store_add hlt]
  | succ free ih =>
    rw [balloc_succ, balloc_succ, Fs.mark, Fs.mark]
    by_cases hb : x = Fs.bitAddr sb free
    · rw [setBit, setBit, ← hb, update_self, update_self, ih]
    · rw [setBit_of_ne hb, setBit_of_ne hb, ih]

/-- What is written outside of the free map can be written before it or after it. -/
theorem balloc_comm (hfree : free ≤ FSSIZE) (hg : ∀ m m' x, m x = m' x → g m x = g m' x)
    (hout : ∀ m x, InMap x → g m x = m x) : g (balloc m free) = balloc (g m) free := by
  funext x
  by_cases hx : InMap x
  · rw [hout _ x hx]
    exact balloc_inside hx
  · rw [balloc_of_outside hfree hx]
    exact hg _ _ x (balloc_of_outside hfree hx)

theorem inUse_balloc (hc : c < FSSIZE) : Fs.inUse sb (balloc m free) c = decide (c < free) := by
  induction free with
  | zero =>
    have hzero : balloc m 0 (Fs.bitAddr sb c) = 0 := by
      have hlt : c / 8 < (List.replicate BSIZE (0 : Byte)).length := by
        simp only [List.length_replicate, BSIZE, FSSIZE] at hc ⊢
        omega
      rw [balloc_zero, Fs.bzero, Fs.bitAddr_eq, store_add hlt, List.getElem_replicate]
    rw [Fs.inUse, bit_eq (by omega), hzero]
    simp
  | succ free ih =>
    rw [balloc_succ, Fs.inUse_mark, ih]
    rw [← Bool.decide_or]
    exact decide_eq_decide.2 Nat.lt_succ_iff_lt_or_eq.symm

/-- `balloc` of the kernel takes the next block. -/
theorem kernel_balloc (hfree : free < FSSIZE) : Fs.balloc sb (balloc m free) =
    (free, Fs.bzero (balloc m (free + 1)) free) := by
  have hfind : (List.range sb.size).find? (fun b => !Fs.inUse sb (balloc m free) b) =
      some free := by
    rw [List.find?_range_eq_some]
    refine ⟨?_, List.mem_range.2 hfree, fun j hj => ?_⟩
    · rw [inUse_balloc hfree]
      simp
    · rw [inUse_balloc (hj.trans hfree)]
      simp [hj]
  rw [Fs.balloc, hfind, balloc_succ]

/-- Nothing has been written behind the blocks that are taken. -/
def Blank (m : Mem) (free : ℕ) : Prop :=
  ∀ x, free * BSIZE ≤ x → m x = 0

theorem Blank.bzero (h : Blank m free) (hle : nmeta ≤ free) (hfree : free < FSSIZE) :
    Fs.bzero (balloc m (free + 1)) free = balloc m (free + 1) := by
  funext x
  by_cases hx : free * BSIZE ≤ x ∧ x < free * BSIZE + BSIZE
  · have hlt : x - free * BSIZE < (List.replicate BSIZE (0 : Byte)).length := by
      rw [List.length_replicate]
      omega
    have hadd : x = free * BSIZE + (x - free * BSIZE) := by omega
    have hout : ¬InMap x := by
      have hmap : sb.bmapstart = 45 := rfl
      have hmeta : nmeta = 46 := rfl
      simp only [InMap, BSIZE] at hx ⊢
      omega
    rw [balloc_of_outside hfree hout, h x hx.1, Fs.bzero, hadd, store_add hlt,
      List.getElem_replicate]
  · refine store_of_outside ?_
    rw [List.length_replicate]
    omega

theorem Blank.mono (h : Blank m free) {free' : ℕ} (hle : free ≤ free') : Blank m free' :=
  fun x hx => h x ((Nat.mul_le_mul_right BSIZE hle).trans hx)

/-! ## Writing before and after the free map -/

theorem store_local {a : ℕ} {l : List Byte} (h : m x = m' x) : store m a l x = store m' a l x := by
  unfold store
  rw [h]

theorem iupdate_local (h : m x = m' x) : Fs.iupdate sb m d i x = Fs.iupdate sb m' d i x := by
  have hput : ∀ {m m' : Mem} a w v, m x = m' x → put m a w v x = put m' a w v x :=
    fun _ _ _ h => store_local h
  have harray : ∀ (ks : List (Fin (NDIRECT + 1))) {m m' : Mem} a, m x = m' x →
      ks.foldl (fun m (k : Fin (NDIRECT + 1)) => put m (a + k * 4) 4 (d.addrs k)) m x =
        ks.foldl (fun m (k : Fin (NDIRECT + 1)) => put m (a + k * 4) 4 (d.addrs k)) m' x := by
    intro ks
    induction ks with
    | nil => exact fun _ h => h
    | cons k ks ih => exact fun a h => ih a (hput _ _ _ h)
  unfold Fs.iupdate putArray
  exact harray _ _ (hput _ _ _ (hput _ _ _ (hput _ _ _ (hput _ _ _ (hput _ _ _ h)))))

theorem dinodeAddr_lt (hi : i < NINODES) :
    Fs.dinodeAddr sb i + 64 ≤ sb.bmapstart * BSIZE :=
  Fs.dinodeAddr_lt hi

theorem store_balloc {o : ℕ} {l : List Byte} (hfree : free ≤ FSSIZE) (hb : nmeta ≤ b) :
    store (balloc m free) (b * BSIZE + o) l = balloc (store m (b * BSIZE + o) l) free := by
  refine balloc_comm (g := fun m => store m (b * BSIZE + o) l) hfree (fun _ _ _ => store_local)
    fun m x hx => store_of_outside (.inl ?_)
  have hmap : sb.bmapstart = 45 := rfl
  have hmeta : nmeta = 46 := rfl
  simp only [InMap, BSIZE] at hx ⊢
  omega

theorem iupdate_balloc (hfree : free ≤ FSSIZE) (hi : i < NINODES) :
    Fs.iupdate sb (balloc m free) d i = balloc (Fs.iupdate sb m d i) free := by
  refine balloc_comm (g := fun m => Fs.iupdate sb m d i) hfree (fun _ _ _ => iupdate_local)
    fun m x hx => Fs.iupdate_of_outside (.inr ?_)
  exact (dinodeAddr_lt hi).trans hx.1

theorem readDinode_balloc (hfree : free ≤ FSSIZE) (hi : i < NINODES) :
    Fs.readDinode sb (balloc m free) i = Fs.readDinode sb m i := by
  refine Fs.readDinode_congr fun x _ hx => balloc_of_outside hfree fun hmap => ?_
  have hlt := dinodeAddr_lt hi
  have hle := hmap.1
  omega

theorem word_balloc (hfree : free ≤ FSSIZE) (hb : nmeta ≤ b) (hj : j < NINDIRECT) :
    Fs.word (balloc m free) b j = Fs.word m b j := by
  refine Fs.word_congr hj fun x hx _ => balloc_of_outside hfree fun hmap => ?_
  have hmap' : sb.bmapstart = 45 := rfl
  have hmeta : nmeta = 46 := rfl
  simp only [InMap, BSIZE] at hmap hx
  omega

theorem Blank.store (h : Blank m free) {o : ℕ} {l : List Byte} (hb : b < free)
    (ho : o + l.length ≤ BSIZE) : Blank (Bytes.store m (b * BSIZE + o) l) free := by
  intro x hx
  rw [store_of_outside, h x hx]
  have hmul : (b + 1) * BSIZE ≤ free * BSIZE := Nat.mul_le_mul_right BSIZE hb
  rw [Nat.add_mul] at hmul
  omega

theorem Blank.iupdate (h : Blank m free) (hfree : nmeta ≤ free) (hi : i < NINODES) :
    Blank (Fs.iupdate sb m d i) free := by
  intro x hx
  rw [Fs.iupdate_of_outside, h x hx]
  have hlt := dinodeAddr_lt hi
  have hmap : sb.bmapstart = 45 := rfl
  have hmeta : nmeta = 46 := rfl
  rw [hmap] at hlt
  simp only [BSIZE] at hlt hx
  omega

/-! ## Blocks -/

/-- The disk with the free map to come. -/
structure Sound (m : Mem) (free : ℕ) : Prop where
  blank : Blank m free
  nmeta_le : nmeta ≤ free
  le_size : free ≤ FSSIZE

variable {F : ℕ → Dinode}

theorem Sound.addrAt (h : Sound m free) {k : Fin (NDIRECT + 1)}
    (hx : (addrAt d free k).1 < FSSIZE) :
    Fs.addrAt sb (balloc m free) d k =
        ((addrAt d free k).1, (addrAt d free k).2.1, balloc m (addrAt d free k).2.2) ∧
      Sound m (addrAt d free k).2.2 ∧ free ≤ (addrAt d free k).2.2 ∧
      ((addrAt d free k).1 = d.addrs k ∨ (addrAt d free k).1 = free ∧
        (addrAt d free k).2.2 = free + 1) ∧ (addrAt d free k).1 ≠ 0 := by
  unfold Mkfs.addrAt at hx ⊢
  unfold Fs.addrAt
  have hmeta : nmeta = 46 := rfl
  have hnmeta := h.nmeta_le
  by_cases hk : d.addrs k = 0
  · rw [if_pos hk] at hx
    have hne : free ≠ 0 := by omega
    rw [if_pos hk, if_pos hk, kernel_balloc hx, h.blank.bzero h.nmeta_le hx]
    dsimp only
    rw [if_neg hne]
    exact ⟨rfl, ⟨h.blank.mono (Nat.le_succ _), hnmeta.trans (Nat.le_succ _), hx⟩, Nat.le_succ _,
      .inr ⟨rfl, rfl⟩, hne⟩
  · rw [if_neg hk, if_neg hk]
    exact ⟨rfl, h, le_rfl, .inl rfl, hk⟩

theorem Sound.entryAt (h : Sound m free) (hb : nmeta ≤ b) (hbf : b < free) (hj : j < NINDIRECT)
    (hx : (entryAt m free b j).1 < FSSIZE) :
    Fs.entryAt sb (balloc m free) b j =
        ((entryAt m free b j).1, balloc (entryAt m free b j).2.1 (entryAt m free b j).2.2) ∧
      Sound (entryAt m free b j).2.1 (entryAt m free b j).2.2 ∧ free ≤ (entryAt m free b j).2.2 ∧
      (entryAt m free b j).1 ≠ 0 := by
  unfold Mkfs.entryAt at hx ⊢
  unfold Fs.entryAt
  have hmeta : nmeta = 46 := rfl
  have hnmeta := h.nmeta_le
  rw [word_balloc h.le_size hb hj]
  by_cases hw : Fs.word m b j = 0
  · rw [if_pos hw] at hx
    have hne : free ≠ 0 := by omega
    have hsize : free + 1 ≤ FSSIZE := hx
    have hj' : j < 256 := hj
    rw [if_pos hw, if_pos hw, kernel_balloc hx, h.blank.bzero h.nmeta_le hx]
    dsimp only
    rw [if_neg hne]
    refine ⟨?_, ⟨(h.blank.mono (Nat.le_succ _)).store (hbf.trans (Nat.lt_succ_self _)) ?_,
      hnmeta.trans (Nat.le_succ _), hx⟩, Nat.le_succ _, hne⟩
    · rw [put, store_balloc hsize hb]
      rfl
    · rw [length_toBytes, BSIZE]
      omega
  · rw [if_neg hw, if_neg hw]
    exact ⟨rfl, h, le_rfl, hw⟩

/-- The blocks of an inode have been taken. -/
theorem block_lt {s : AddrSlot}
    (ho : Fs.Owned sb (update F i d) (balloc m free)) (hi : i < NINODES) (ht : d.type ≠ 0)
    (hs : d.slot (balloc m free) s ≠ 0) :
    nmeta ≤ d.slot (balloc m free) s ∧ d.slot (balloc m free) s < free := by
  obtain ⟨hle, hlt, huse⟩ := ho.of_place (Fs.place_self hi ht hs)
  rw [inUse_balloc hlt] at huse
  exact ⟨hle, of_decide_eq_true huse⟩

/-- `bmap` finds what `iappend` does. -/
theorem Sound.blockFor (h : Sound m free) (ho : Fs.Owned sb (update F i d) (balloc m free))
    (hi : i < NINODES) (ht : d.type ≠ 0) (hbn : b < MAXFILE) {r : ℕ × Dinode × Mem × ℕ}
    (hr : blockFor m d free b = some r) (hx : r.1 < FSSIZE) :
    Fs.bmap sb (balloc m free) d b = .ok (r.1, r.2.1, balloc r.2.2.1 r.2.2.2) ∧
      Sound r.2.2.1 r.2.2.2 ∧ free ≤ r.2.2.2 ∧ r.1 ≠ 0 := by
  unfold Mkfs.blockFor at hr
  unfold Fs.bmap
  by_cases hlt : b < NDIRECT
  · rw [dif_pos hlt] at hr
    obtain rfl := Option.some.inj hr
    obtain ⟨heq, hs, hle, -, hne⟩ := h.addrAt hx
    rw [dif_pos hlt, heq]
    exact ⟨rfl, hs, hle, hne⟩
  · have hlt' : b - NDIRECT < NINDIRECT := by
      rw [MAXFILE] at hbn
      omega
    rw [dif_neg hlt] at hr
    dsimp only at hr
    split_ifs at hr with hind
    obtain rfl := Option.some.inj hr
    obtain ⟨heq, hs, hle, hcase, hne⟩ := h.addrAt hind
    have hused : nmeta ≤ (Mkfs.addrAt d free (Fin.last NDIRECT)).1 ∧
        (Mkfs.addrAt d free (Fin.last NDIRECT)).1 <
          (Mkfs.addrAt d free (Fin.last NDIRECT)).2.2 := by
      rcases hcase with hold | ⟨hnew, hfree⟩
      · rw [hold] at hne ⊢
        obtain ⟨h₁, h₂⟩ := block_lt (s := .addr (Fin.last NDIRECT)) ho hi ht hne
        exact ⟨h₁, h₂.trans_le hle⟩
      · rw [hnew, hfree]
        exact ⟨h.nmeta_le, Nat.lt_succ_self _⟩
    obtain ⟨heq', hs', hle', hne'⟩ := hs.entryAt hused.1 hused.2 hlt' hx
    rw [dif_neg hlt, if_pos hlt', heq]
    dsimp only
    rw [if_neg hne, heq']
    exact ⟨rfl, hs', hle.trans hle', hne'⟩

theorem copyin_list {p : List Byte} {tot k : ℕ} (hk : tot + k ≤ p.length) :
    Fs.copyin (fun k => p[k]?) tot k = (p.drop tot).take k := by
  induction k generalizing tot with
  | zero => rfl
  | succ k ih =>
    have hlt : tot < p.length := by omega
    have hsome : p[tot]? = some p[tot] := List.getElem?_eq_getElem hlt
    rw [Fs.copyin, hsome, ih (by omega), List.drop_eq_getElem_cons hlt, List.take_succ_cons]

/-- One round of `iappend`, which writes the bytes `l` to the block `q.1`. -/
structure Round (F : ℕ → Dinode) (i : ℕ) (d : Dinode) (m : Mem) (free off : ℕ) (l : List Byte)
    (q : ℕ × Dinode × Mem × ℕ) : Prop where
  bn_lt : off / BSIZE < MAXFILE
  found : blockFor m d free (off / BSIZE) = some q
  lt : q.1 < FSSIZE
  nmeta_le : nmeta ≤ q.1
  ne : q.1 ≠ 0
  bmap : Fs.bmap sb (balloc m free) d (off / BSIZE) = .ok (q.1, q.2.1, balloc q.2.2.1 q.2.2.2)
  le : free ≤ q.2.2.2
  worked : Fs.Worked sb F i d (balloc m free) q.2.1 (balloc q.2.2.1 q.2.2.2)
  block : q.2.1.blockAt (balloc q.2.2.1 q.2.2.2) (off / BSIZE) = q.1
  type : q.2.1.type ≠ 0
  fit : off % BSIZE + l.length ≤ BSIZE
  before : store (balloc q.2.2.1 q.2.2.2) (q.1 * BSIZE + off % BSIZE) l =
    balloc (store q.2.2.1 (q.1 * BSIZE + off % BSIZE) l) q.2.2.2
  sound : Sound (store q.2.2.1 (q.1 * BSIZE + off % BSIZE) l) q.2.2.2
  owned : Fs.Owned sb (update F i q.2.1)
    (balloc (store q.2.2.1 (q.1 * BSIZE + off % BSIZE) l) q.2.2.2)

theorem Sound.round (h : Sound m free) (ho : Fs.Owned sb (update F i d) (balloc m free))
    (hi : i < NINODES) (ht : d.type ≠ 0) {p : List Byte} (hp : p ≠ []) {fuel off k : ℕ}
    (hk : k = Min.min p.length (BSIZE - off % BSIZE)) {r : ℕ × Dinode × Mem × ℕ}
    (hr : appendLoop (fuel + 1) p off m d free = some r) :
    ∃ q, Round F i d m free off (p.take k) q ∧
      appendLoop fuel (p.drop k) (off + k)
        (store q.2.2.1 (q.1 * BSIZE + off % BSIZE) (p.take k)) q.2.1 q.2.2.2 = some r := by
  unfold Mkfs.appendLoop at hr
  rw [if_neg hp] at hr
  dsimp only at hr
  split_ifs at hr with hbn
  obtain ⟨q, hq, hr⟩ := Option.bind_eq_some_iff.1 hr
  split_ifs at hr with hx
  obtain ⟨heq, hs, hle, hne0⟩ := h.blockFor ho hi ht hbn hq hx
  obtain ⟨hw, hblock⟩ := (Fs.bmap_spec ho hi ht (off / BSIZE)).of_ok heq
  dsimp only at hw hblock
  have hq0 := hblock hne0
  have ht' : q.2.1.type ≠ 0 := by rwa [hw.grows.type_eq]
  have hb : q.2.1.blockAt (balloc q.2.2.1 q.2.2.2) (off / BSIZE) ≠ 0 := by rwa [hq0]
  have hused : nmeta ≤ q.1 ∧ q.1 < q.2.2.2 := by
    obtain ⟨s, -, hslot⟩ := Fs.exists_slotAt hb
    rw [hq0] at hslot
    rw [hslot]
    exact block_lt hw.owned hi ht' (hslot ▸ hne0)
  have hdiv : off / BSIZE * BSIZE + off % BSIZE = off := Nat.div_add_mod' off BSIZE
  have hmod : off % BSIZE < BSIZE := Nat.mod_lt _ (by decide)
  have hoff : off - off / BSIZE * BSIZE = off % BSIZE := by omega
  have hn1 : Min.min p.length ((off / BSIZE + 1) * BSIZE - off) = k := by
    rw [hk, Nat.add_mul]
    congr 1
    omega
  have hfit : off % BSIZE + (p.take k).length ≤ BSIZE := by
    rw [List.length_take]
    omega
  have hstore := (hw.owned.store hi ht' hb hfit).owned
  rw [hq0, store_balloc hs.le_size hused.1] at hstore
  rw [hn1, hoff] at hr
  exact ⟨q, ⟨hbn, hq, hx, hused.1, hne0, heq, hle, hw, hq0, ht', hfit,
    store_balloc hs.le_size hused.1, ⟨hs.blank.store hused.2 hfit, hs.nmeta_le, hs.le_size⟩, hstore⟩, hr⟩

/-- The loop of `writei` does what that of `iappend` does. -/
theorem Sound.appendLoop (hi : i < NINODES) (data : List Byte) (fuel : ℕ) :
    ∀ {tot off : ℕ} {m : Mem} {d : Dinode} {free : ℕ} {r : ℕ × Dinode × Mem × ℕ},
      Sound m free → Fs.Owned sb (update F i d) (balloc m free) → d.type ≠ 0 → tot ≤ data.length →
      data.length - tot ≤ fuel → off ≤ MAXFILE * BSIZE →
      appendLoop fuel (data.drop tot) off m d free = some r →
      Fs.writeLoop sb (fun k => data[k]?) data.length fuel tot off (balloc m free) d =
          .ok (data.length, off + (data.length - tot), r.2.1, balloc r.2.2.1 r.2.2.2) ∧
        r.1 = off + (data.length - tot) ∧ r.1 ≤ MAXFILE * BSIZE ∧ Sound r.2.2.1 r.2.2.2 ∧
        free ≤ r.2.2.2 := by
  induction fuel with
  | zero =>
    intro tot off m d free r h ho ht htot hfuel hoff hr
    obtain rfl : tot = data.length := by omega
    obtain rfl := Option.some.inj hr
    exact ⟨by rw [Fs.writeLoop, Nat.sub_self, Nat.add_zero], by simp, hoff, h, le_rfl⟩
  | succ fuel ih =>
    intro tot off m d free r h ho ht htot hfuel hoff hr
    by_cases hend : tot = data.length
    · obtain rfl := hend
      rw [Mkfs.appendLoop, if_pos (List.drop_length ..)] at hr
      obtain rfl := Option.some.inj hr
      refine ⟨?_, by simp, hoff, h, le_rfl⟩
      rw [Fs.writeLoop, if_neg (lt_irrefl _), Nat.sub_self, Nat.add_zero]
    · have hlt : tot < data.length := Nat.lt_of_le_of_ne htot hend
      have hne : data.drop tot ≠ [] := by
        rw [ne_eq, List.drop_eq_nil_iff]
        omega
      obtain ⟨k, hk⟩ : ∃ k, k = Min.min (data.length - tot) (BSIZE - off % BSIZE) := ⟨_, rfl⟩
      obtain ⟨q, hround, hr'⟩ := h.round (k := k) ho hi ht hne (by rw [List.length_drop, hk]) hr
      have hcopy : Fs.copyin (fun k => data[k]?) tot k = (data.drop tot).take k :=
        copyin_list (by omega)
      have hlen : ((data.drop tot).take k).length = k := by
        rw [List.length_take, List.length_drop]
        omega
      have hmod : off % BSIZE < BSIZE := Nat.mod_lt _ (by decide)
      have hbound : off + k ≤ MAXFILE * BSIZE := by
        have hmul := Nat.mul_le_mul_right BSIZE hround.bn_lt
        have hdiv : off / BSIZE * BSIZE + off % BSIZE = off := Nat.div_add_mod' off BSIZE
        rw [Nat.succ_mul] at hmul
        omega
      rw [List.drop_drop] at hr'
      obtain ⟨hloop, hend', hmax, hs', hle'⟩ := ih hround.sound hround.owned hround.type (by omega)
        (by omega) hbound hr'
      refine ⟨?_, by omega, hmax, hs', hround.le.trans hle'⟩
      rw [Fs.writeLoop, if_pos hlt, hround.bmap, Except.bind]
      simp only [if_neg hround.ne, ← hk, hcopy, hlen, if_true]
      rw [hround.before, hloop]
      have hsum : off + k + (data.length - (tot + k)) = off + (data.length - tot) := by omega
      rw [hsum]

/-! ## Behind the end of a file -/

/-- There is no block behind `off`, and nothing behind it in its block. -/
structure Tail (m : Mem) (d : Dinode) (off : ℕ) : Prop where
  block : ∀ k, off ≤ k * BSIZE → d.blockAt m k = 0
  byte : ∀ x, off ≤ x → d.blockAt m (x / BSIZE) ≠ 0 → d.byteAt m x = 0

theorem not_inMap {o : ℕ} (hb : nmeta ≤ b) : ¬InMap (b * BSIZE + o) := by
  have hmap : sb.bmapstart = 45 := rfl
  have hmeta : nmeta = 46 := rfl
  simp only [InMap, BSIZE]
  omega

/-- The words of a block that is not taken. -/
theorem Sound.word_eq_zero (h : Sound m free) (hb : free ≤ b) : Fs.word m b j = 0 := by
  refine get_eq_zero fun x hx _ => h.blank x ?_
  exact (Nat.mul_le_mul_right BSIZE hb).trans ((Nat.le_add_right _ _).trans hx)

theorem addrAt_of_ne {k l : Fin (NDIRECT + 1)} (hk : l ≠ k) :
    (addrAt d free k).2.1.addrs l = d.addrs l := by
  unfold addrAt
  split_ifs
  · exact update_of_ne hk ..
  · rfl

theorem addrAt_self {k : Fin (NDIRECT + 1)} :
    (addrAt d free k).2.1.addrs k = (addrAt d free k).1 := by
  unfold addrAt
  split_ifs
  · exact update_self ..
  · rfl

theorem word_entryAt {j' : ℕ} (hj : j < NINDIRECT) (hj' : j' < NINDIRECT) (hne : j' ≠ j) :
    Fs.word (entryAt m free b j).2.1 b j' = Fs.word m b j' := by
  unfold entryAt
  split_ifs
  · exact Fs.word_setWord_of_ne hj hj' (.inr hne)
  · rfl

/-- The other places of an inode when `blockFor` has found a block. -/
theorem Sound.blockFor_slot (h : Sound m free) (ho : Fs.Owned sb (update F i d) (balloc m free))
    (hi : i < NINODES) (ht : d.type ≠ 0) (hbn : b < MAXFILE) {r : ℕ × Dinode × Mem × ℕ}
    (hr : Mkfs.blockFor m d free b = some r) (hx : r.1 < FSSIZE) {s : AddrSlot}
    (hs : slotAt b ≠ some s) (hlast : s ≠ .addr (Fin.last NDIRECT)) :
    r.2.1.slot (balloc r.2.2.1 r.2.2.2) s = d.slot (balloc m free) s := by
  have hsound := (h.blockFor ho hi ht hbn hr hx).2.1
  have hused : d.addrs (Fin.last NDIRECT) ≠ 0 → nmeta ≤ d.addrs (Fin.last NDIRECT) := fun h0 =>
    (block_lt (s := .addr (Fin.last NDIRECT)) ho hi ht h0).1
  unfold Mkfs.blockFor at hr
  by_cases hlt : b < NDIRECT
  · rw [dif_pos hlt] at hr
    obtain rfl := Option.some.inj hr
    dsimp only at hsound ⊢
    cases s with
    | addr k =>
      refine addrAt_of_ne fun hk => hs ?_
      rw [slotAt, dif_pos hlt, hk]
    | entry j =>
      unfold Dinode.slot Dinode.ind
      dsimp only
      rw [addrAt_of_ne (Fin.castSucc_lt_last _).ne']
      split_ifs with h0
      · rfl
      · rw [word_balloc hsound.le_size (hused h0) j.isLt, word_balloc h.le_size (hused h0) j.isLt]
  · have hlt' : b - NDIRECT < NINDIRECT := by
      rw [MAXFILE] at hbn
      omega
    rw [dif_neg hlt] at hr
    dsimp only at hr
    split_ifs at hr with hind
    obtain rfl := Option.some.inj hr
    dsimp only at hsound ⊢
    obtain ⟨-, -, hle, hcase, hne⟩ := h.addrAt hind
    cases s with
    | addr k => exact addrAt_of_ne fun hk => hlast (congrArg _ hk)
    | entry j =>
      have hj : (j : ℕ) ≠ b - NDIRECT := by
        intro hj
        refine hs ?_
        rw [slotAt, dif_neg hlt, dif_pos hlt']
        exact congrArg (fun j => some (AddrSlot.entry j)) (Fin.ext hj.symm)
      unfold Dinode.slot Dinode.ind
      dsimp only
      rw [addrAt_self, if_neg hne]
      rcases hcase with hold | ⟨hnew, -⟩
      · rw [hold] at hne
        rw [word_balloc hsound.le_size (hold ▸ hused hne) j.isLt, word_entryAt hlt' j.isLt hj,
          if_neg hne, word_balloc h.le_size (hused hne) j.isLt, hold]
      · have h0 : d.addrs (Fin.last NDIRECT) = 0 := by
          by_contra h0
          have hold : (Mkfs.addrAt d free (Fin.last NDIRECT)).1 = d.addrs (Fin.last NDIRECT) := by
            rw [Mkfs.addrAt, if_neg h0]
          have hlt := (block_lt (s := .addr (Fin.last NDIRECT)) ho hi ht h0).2
          exact absurd (hold.symm.trans hnew) hlt.ne
        have hge : nmeta ≤ (Mkfs.addrAt d free (Fin.last NDIRECT)).1 := by
          rw [hnew]
          exact h.nmeta_le
        rw [word_balloc hsound.le_size hge j.isLt, word_entryAt hlt' j.isLt hj, if_pos h0, hnew]
        exact h.word_eq_zero le_rfl

/-- What a block is full of that `blockFor` has taken. -/
theorem Sound.blockFor_byte (h : Sound m free) (ho : Fs.Owned sb (update F i d) (balloc m free))
    (hi : i < NINODES) (ht : d.type ≠ 0) (hbn : b < MAXFILE) {r : ℕ × Dinode × Mem × ℕ}
    (hr : Mkfs.blockFor m d free b = some r) (hx : r.1 < FSSIZE)
    (h0 : d.blockAt (balloc m free) b = 0) {o : ℕ} (hob : o < BSIZE) :
    balloc r.2.2.1 r.2.2.2 (r.1 * BSIZE + o) = 0 := by
  obtain ⟨-, hsound, -, hne⟩ := h.blockFor ho hi ht hbn hr hx
  unfold Mkfs.blockFor at hr
  by_cases hlt : b < NDIRECT
  · rw [dif_pos hlt] at hr
    obtain rfl := Option.some.inj hr
    dsimp only at hsound hne ⊢
    rw [Fs.blockAt_addr hlt] at h0
    have hnew : (Mkfs.addrAt d free (Fin.castSucc ⟨b, hlt⟩)).1 = free := by
      rw [Mkfs.addrAt, if_pos h0]
    rw [hnew, balloc_of_outside hsound.le_size (not_inMap h.nmeta_le)]
    exact h.blank _ (Nat.le_add_right _ _)
  · have hlt' : b - NDIRECT < NINDIRECT := by
      rw [MAXFILE] at hbn
      omega
    rw [dif_neg hlt] at hr
    dsimp only at hr
    split_ifs at hr with hind
    obtain rfl := Option.some.inj hr
    dsimp only at hsound hne ⊢
    obtain ⟨-, hs, hle, hcase, hne'⟩ := h.addrAt hind
    obtain ⟨a, ha⟩ : ∃ a, a = Mkfs.addrAt d free (Fin.last NDIRECT) := ⟨_, rfl⟩
    rw [← ha] at hs hle hcase hne' hsound ⊢
    have hword : Fs.word m a.1 (b - NDIRECT) = 0 := by
      by_cases hd : d.addrs (Fin.last NDIRECT) = 0
      · have hnew : a.1 = free := by rw [ha, Mkfs.addrAt, if_pos hd]
        rw [hnew]
        exact h.word_eq_zero le_rfl
      · have hold : a.1 = d.addrs (Fin.last NDIRECT) := by rw [ha, Mkfs.addrAt, if_neg hd]
        have hused : nmeta ≤ d.addrs (Fin.last NDIRECT) :=
          (block_lt (s := .addr (Fin.last NDIRECT)) ho hi ht hd).1
        rw [Fs.blockAt_entry hlt hlt', Dinode.ind, if_neg hd,
          word_balloc h.le_size hused hlt'] at h0
        rw [hold, h0]
    have hlt2 : a.1 < a.2.2 := by
      rcases hcase with hold | ⟨hnew, hfree⟩
      · rw [hold] at hne' ⊢
        exact ((block_lt (s := .addr (Fin.last NDIRECT)) ho hi ht hne').2).trans_le hle
      · omega
    have hentry : Mkfs.entryAt m a.2.2 a.1 (b - NDIRECT) =
        (a.2.2, put m (a.1 * BSIZE + (b - NDIRECT) * 4) 4 a.2.2, a.2.2 + 1) := if_pos hword
    rw [hentry] at hsound ⊢
    dsimp only at hsound ⊢
    rw [balloc_of_outside hsound.le_size (not_inMap hs.nmeta_le), put,
      Fs.store_block_of_ne ?_ hlt2.ne' (Nat.le_add_right _ _) (by omega)]
    · exact hs.blank _ (Nat.le_add_right _ _)
    · rw [length_toBytes, BSIZE]
      simp only [NINDIRECT] at hlt'
      omega

theorem Round.tail {l : List Byte} {off : ℕ} {q : ℕ × Dinode × Mem × ℕ}
    (hq : Round F i d m free off l q) (h : Sound m free)
    (ho : Fs.Owned sb (update F i d) (balloc m free)) (hi : i < NINODES) (ht : d.type ≠ 0)
    (hl : l ≠ []) (htail : Tail (balloc m free) d off) :
    Tail (balloc (store q.2.2.1 (q.1 * BSIZE + off % BSIZE) l) q.2.2.2) q.2.1 (off + l.length) := by
  have hb : q.2.1.blockAt (balloc q.2.2.1 q.2.2.2) (off / BSIZE) ≠ 0 := by
    rw [hq.block]
    exact hq.ne
  have hlen : 0 < l.length := List.length_pos_iff.2 hl
  have hdiv : off / BSIZE * BSIZE + off % BSIZE = off := Nat.div_add_mod' off BSIZE
  have hmod : off % BSIZE < BSIZE := Nat.mod_lt _ (by decide)
  have hslot : ∀ s, q.2.1.slot (store (balloc q.2.2.1 q.2.2.2) (q.1 * BSIZE + off % BSIZE) l) s =
      q.2.1.slot (balloc q.2.2.1 q.2.2.2) s := by
    intro s
    refine Fs.slot_congr fun hd j hj => Fs.word_store hq.fit ?_ hj
    rw [← hq.block]
    exact (hq.worked.owned.block_ne_ind hi hq.type hb).symm
  -- the blocks but this one are what they were
  have hother : ∀ k, k ≠ off / BSIZE →
      q.2.1.blockAt (balloc q.2.2.1 q.2.2.2) k = d.blockAt (balloc m free) k := by
    intro k hk
    unfold Dinode.blockAt
    cases hs : slotAt k with
    | none => rfl
    | some s =>
      refine h.blockFor_slot ho hi ht hq.bn_lt hq.found hq.lt (fun hs' => ?_) fun hs' => ?_
      · exact hk (Fs.slotAt_injective hs hs')
      · exact Fs.slotAt_ne_last (hs' ▸ hs)
  have hblock : ∀ k,
      q.2.1.blockAt (store (balloc q.2.2.1 q.2.2.2) (q.1 * BSIZE + off % BSIZE) l) k =
      q.2.1.blockAt (balloc q.2.2.1 q.2.2.2) k := by
    intro k
    unfold Dinode.blockAt
    rw [funext hslot]
  have hnone : ∀ k, off + l.length ≤ k * BSIZE →
      q.2.1.blockAt (balloc q.2.2.1 q.2.2.2) k = 0 := by
    intro k hk
    rw [hother k, htail.block k (by omega)]
    rintro rfl
    omega
  rw [← hq.before]
  refine ⟨fun k hk => ?_, fun x hx hxb => ?_⟩
  · rw [hblock, hnone k hk]
  · rw [hblock] at hxb
    have hxk : x / BSIZE = off / BSIZE := by
      by_contra hne
      refine hxb ?_
      rw [hother _ hne, htail.block]
      have hle : off / BSIZE ≤ x / BSIZE := Nat.div_le_div_right (by omega)
      have hlt : off / BSIZE + 1 ≤ x / BSIZE := by omega
      have hmul := Nat.mul_le_mul_right BSIZE hlt
      rw [Nat.succ_mul] at hmul
      omega
    have hbyte := Fs.byteAt_store (x := x) hq.worked.owned hi hq.type hb hq.fit hxb
    rw [hq.block] at hbyte
    rw [hbyte, if_pos (by omega), List.getElem?_eq_none (by omega), Option.getD_none]
    by_cases hold : d.blockAt (balloc m free) (off / BSIZE) = 0
    · rw [Dinode.byteAt, hxk, hq.block]
      exact h.blockFor_byte ho hi ht hq.bn_lt hq.found hq.lt hold (Nat.mod_lt _ (by decide))
    · have hsame : Fs.bmap sb (balloc m free) d (off / BSIZE) = _ := Fs.bmap_of_ne_zero hold
      rw [hq.bmap] at hsame
      obtain ⟨-, hd, hm⟩ : q.1 = d.blockAt (balloc m free) (off / BSIZE) ∧ q.2.1 = d ∧
          balloc q.2.2.1 q.2.2.2 = balloc m free := by
        simpa using hsame
      rw [hd, hm]
      exact htail.byte x (by omega) (hxk ▸ hold)

theorem Sound.appendLoop_tail (hi : i < NINODES) (fuel : ℕ) :
    ∀ {p : List Byte} {off : ℕ} {m : Mem} {d : Dinode} {free : ℕ} {r : ℕ × Dinode × Mem × ℕ},
      Sound m free → Fs.Owned sb (update F i d) (balloc m free) → d.type ≠ 0 →
      Mkfs.appendLoop fuel p off m d free = some r → Tail (balloc m free) d off →
      Tail (balloc r.2.2.1 r.2.2.2) r.2.1 r.1 := by
  induction fuel with
  | zero =>
    intro p off m d free r h ho ht hr htail
    obtain rfl := Option.some.inj hr
    exact htail
  | succ fuel ih =>
    intro p off m d free r h ho ht hr htail
    by_cases hp : p = []
    · rw [Mkfs.appendLoop, if_pos hp] at hr
      obtain rfl := Option.some.inj hr
      exact htail
    · obtain ⟨k, hk⟩ : ∃ k, k = Min.min p.length (BSIZE - off % BSIZE) := ⟨_, rfl⟩
      have hmod : off % BSIZE < BSIZE := Nat.mod_lt _ (by decide)
      have hpos : 0 < p.length := List.length_pos_iff.2 hp
      have hlen : (p.take k).length = k := by
        rw [List.length_take]
        omega
      obtain ⟨q, hround, hr'⟩ := h.round ho hi ht hp hk hr
      have hl : p.take k ≠ [] := List.length_pos_iff.1 (by omega)
      have hnext := hround.tail h ho hi ht hl htail
      rw [hlen] at hnext
      exact ih hround.sound hround.owned hround.type hr' hnext

/-! ## The blocks before the inodes -/

theorem iupdate_of_low (hx : x < sb.inodestart * BSIZE) : Fs.iupdate sb m d i x = m x := by
  refine Fs.iupdate_of_outside (.inl (hx.trans_le ?_))
  rw [Fs.dinodeAddr_eq]
  exact Nat.le_add_right _ _

theorem Sound.blockFor_low (h : Sound m free) (ho : Fs.Owned sb (update F i d) (balloc m free))
    (hi : i < NINODES) (ht : d.type ≠ 0) {r : ℕ × Dinode × Mem × ℕ}
    (hr : Mkfs.blockFor m d free b = some r) (hx : x < nmeta * BSIZE) : r.2.2.1 x = m x := by
  unfold Mkfs.blockFor at hr
  by_cases hlt : b < NDIRECT
  · rw [dif_pos hlt] at hr
    obtain rfl := Option.some.inj hr
    rfl
  · rw [dif_neg hlt] at hr
    dsimp only at hr
    split_ifs at hr with hind
    obtain rfl := Option.some.inj hr
    obtain ⟨-, -, -, hcase, hne⟩ := h.addrAt hind
    have hle : nmeta ≤ (Mkfs.addrAt d free (Fin.last NDIRECT)).1 := by
      rcases hcase with hold | ⟨hnew, -⟩
      · rw [hold] at hne ⊢
        exact (block_lt (s := .addr (Fin.last NDIRECT)) ho hi ht hne).1
      · rw [hnew]
        exact h.nmeta_le
    dsimp only
    unfold Mkfs.entryAt
    split_ifs
    · have hmul := Nat.mul_le_mul_right BSIZE hle
      exact put_of_outside (.inl (by omega))
    · rfl

theorem Sound.appendLoop_low (hi : i < NINODES) (fuel : ℕ) :
    ∀ {p : List Byte} {off : ℕ} {m : Mem} {d : Dinode} {free : ℕ} {r : ℕ × Dinode × Mem × ℕ},
      Sound m free → Fs.Owned sb (update F i d) (balloc m free) → d.type ≠ 0 →
      Mkfs.appendLoop fuel p off m d free = some r → ∀ x < nmeta * BSIZE, r.2.2.1 x = m x := by
  induction fuel with
  | zero =>
    intro p off m d free r h ho ht hr x hx
    obtain rfl := Option.some.inj hr
    rfl
  | succ fuel ih =>
    intro p off m d free r h ho ht hr x hx
    by_cases hp : p = []
    · rw [Mkfs.appendLoop, if_pos hp] at hr
      obtain rfl := Option.some.inj hr
      rfl
    · obtain ⟨q, hround, hr'⟩ := h.round ho hi ht hp rfl hr
      have hmul := Nat.mul_le_mul_right BSIZE hround.nmeta_le
      rw [ih hround.sound hround.owned hround.type hr' x hx, store_of_outside (.inl (by omega)),
        h.blockFor_low ho hi ht hround.found hx]

/-- With the free map to come, `iappend` is `writei` at the end of the file. -/
theorem iappend_writei {s t : State} {p : List Byte} (hs : Sound s.disk s.freeblock)
    (himage : Fs.Consistent sb (balloc s.disk s.freeblock)) (hi : i < NINODES)
    (hd : Fs.readDinode sb s.disk i = d) (ht : d.type ≠ 0) (h : iappend s i p = some t) :
    Sound t.disk t.freeblock ∧ t.freeinode = s.freeinode ∧ s.freeblock ≤ t.freeblock ∧
      d.size + p.length ≤ MAXFILE * BSIZE ∧ ∃ d',
        d' = { d with addrs := d'.addrs, size := d.size + p.length } ∧
        (Tail (balloc s.disk s.freeblock) d d.size →
          Tail (balloc t.disk t.freeblock) d' d'.size) ∧
        (∀ x < sb.inodestart * BSIZE, t.disk x = s.disk x) ∧
        Fs.writei sb (balloc s.disk s.freeblock) d i (fun k => p[k]?) d.size p.length =
          .ok (p.length, d', balloc t.disk t.freeblock) := by
  have hF : Fs.readDinode sb (balloc s.disk s.freeblock) i = d := by
    rw [readDinode_balloc hs.le_size hi, hd]
  have ho : Fs.Owned sb (update (Fs.readDinode sb (balloc s.disk s.freeblock)) i d)
      (balloc s.disk s.freeblock) := by
    rw [← hF, update_eq_self]
    exact himage.owned
  have hfull : Fs.Full (balloc s.disk s.freeblock) d := by
    have := himage.full i hi
    rw [hF] at this
    exact this ht
  obtain ⟨r, hr, rfl⟩ := Option.map_eq_some_iff.1 h
  rw [hd] at hr
  obtain ⟨hloop, hend, hmax, hs', hle⟩ := Sound.appendLoop hi p p.length hs ho ht
    (Nat.zero_le _) le_rfl hfull.size_le hr
  have hw := ((Fs.writeLoop_spec hi p.length 0 d.size _ d ho ht
    fun k hk => hfull k hk).of_ok hloop).1
  dsimp only at hw
  have hcopy := hw.grows.copy
  rw [Nat.sub_zero] at hloop hend
  rw [hend] at hmax
  refine ⟨⟨hs'.blank.iupdate hs'.nmeta_le hi, hs'.nmeta_le, hs'.le_size⟩, rfl, hle, hmax,
    { r.2.1 with size := r.1 }, ?_, fun htail => ?_, fun x hx => ?_, ?_⟩
  · rw [hcopy, hend]
  · obtain ⟨hblock, hbyte⟩ := Sound.appendLoop_tail hi p.length hs ho ht hr htail
    have ht' : r.2.1.type ≠ 0 := by rwa [hw.grows.type_eq]
    have hsame : ∀ k, Dinode.blockAt { r.2.1 with size := r.1 }
        (balloc (Fs.iupdate sb r.2.2.1 { r.2.1 with size := r.1 } i) r.2.2.2) k =
          r.2.1.blockAt (balloc r.2.2.1 r.2.2.2) k := by
      intro k
      rw [← iupdate_balloc hs'.le_size hi]
      exact hw.owned.blockAt_iupdate hi ht' rfl
    refine ⟨fun k hk => (hsame k).trans (hblock k hk), fun x hx hxb => ?_⟩
    have hxb' := (hsame (x / BSIZE)).symm.trans_ne hxb
    rw [← iupdate_balloc hs'.le_size hi]
    exact (Fs.byteAt_iupdate hw.owned hi ht' hxb' rfl).trans (hbyte x hx hxb')
  · have hmeta : nmeta = 46 := rfl
    have hstart : sb.inodestart = 32 := rfl
    refine (iupdate_of_low hx).trans (Sound.appendLoop_low hi p.length hs ho ht hr x ?_)
    rw [hstart] at hx
    rw [hmeta]
    simp only [BSIZE] at hx ⊢
    omega
  · have hlt : d.size + p.length < 2 ^ 32 := by
      simp only [MAXFILE, NDIRECT, NINDIRECT, BSIZE] at hmax
      omega
    have hsize : r.2.1.size = d.size := hw.grows.size_eq
    have hnew : (if r.2.1.size < d.size + p.length then { r.2.1 with size := d.size + p.length }
        else r.2.1) = { r.2.1 with size := r.1 } := by
      rw [hend]
      split_ifs with hgrow
      · rfl
      · rw [hsize] at hgrow
        have h0 : d.size + p.length = r.2.1.size := by omega
        rw [h0]
    rw [Fs.writei, if_neg (by rw [Nat.mod_eq_of_lt hlt]; omega),
      if_neg (by rw [Nat.mod_eq_of_lt hlt]; omega), hloop, Except.bind]
    dsimp only
    rw [hnew, iupdate_balloc hs'.le_size hi]

/-! ## The files -/

/-- What an inode is for : its type and its content. -/
abbrev Files := ℕ → FileType × List Byte

/-- The inode is that of the file. -/
structure IsFile (m : Mem) (i : ℕ) (f : FileType × List Byte) : Prop where
  type : (Fs.readDinode sb m i).type = f.1.code
  major : (Fs.readDinode sb m i).major = 0
  minor : (Fs.readDinode sb m i).minor = 0
  nlink : (Fs.readDinode sb m i).nlink = 1
  content : Fs.content sb m i = f.2
  tail : Tail m (Fs.readDinode sb m i) (Fs.readDinode sb m i).size

/-- What has been built. -/
structure Built (s : State) (files : Files) : Prop where
  sound : Sound s.disk s.freeblock
  image : Fs.Consistent sb (balloc s.disk s.freeblock)
  pos : 0 < s.freeinode
  low : ∀ x < sb.inodestart * BSIZE, s.disk x = store (fun _ => 0) BSIZE superblock x
  file : ∀ i, 0 < i → i < s.freeinode → i < NINODES → IsFile (balloc s.disk s.freeblock) i (files i)
  unused : ∀ i < NINODES, i = 0 ∨ s.freeinode ≤ i →
    (Fs.readDinode sb (balloc s.disk s.freeblock) i).type = 0

variable {s t : State} {files : Files} {p : List Byte} {type : FileType}

theorem type_code_ne : type.code ≠ 0 := by
  cases type <;> decide

/-- The other files stay, when one is changed. -/
theorem IsFile.other {m m' : Mem} {f : FileType × List Byte} (h : IsFile m j f)
    (himage : Fs.Consistent sb m)
    (hframe : Fs.Frame sb (Fs.readDinode sb m) i m m')
    (hapart : Fs.Apart sb (Fs.readDinode sb m) i m m') (hj : j < NINODES) (hne : j ≠ i) :
    IsFile m' j f := by
  have hd := hframe.dinode j hj hne
  have ht : (Fs.readDinode sb m j).type ≠ 0 := by
    rw [h.type]
    exact type_code_ne
  refine ⟨by rw [hd, h.type], by rw [hd, h.major], by rw [hd, h.minor], by rw [hd, h.nlink], ?_, ?_⟩
  · rw [Fs.content_of_apart hframe hapart hj hne ht rfl (himage.full j hj ht), h.content]
  · have hblock : ∀ k,
        (Fs.readDinode sb m j).blockAt m' k = (Fs.readDinode sb m j).blockAt m k := by
      intro k
      unfold Dinode.blockAt
      rw [funext fun s => hframe.slot j hj hne ht s]
    rw [hd]
    refine ⟨fun k hk => (hblock k).trans (h.tail.block k hk), fun x hx hxb => ?_⟩
    rw [hblock] at hxb
    have hold := h.tail.byte x hx hxb
    rw [Dinode.byteAt] at hold ⊢
    rw [hblock]
    obtain ⟨s, -, hs⟩ := Fs.exists_slotAt hxb
    rw [hs] at hold hxb ⊢
    rw [hapart j hj hne ht s _ (Nat.mod_lt _ (by decide)) hxb, hold]

theorem overlay_end {α : Type*} {l l' : List α} : overlay l l.length l' = l ++ l' := by
  simp [overlay]

/-- `iappend` adds bytes to a file. -/
theorem Built.iappend (h : Built s files) (hpos : 0 < i) (hi : i < s.freeinode) (hin : i < NINODES)
    (ht : iappend s i p = some t) :
    Built t (update files i ((files i).1, (files i).2 ++ p)) ∧ t.freeinode = s.freeinode := by
  have hfile := h.file i hpos hi hin
  have hd : Fs.readDinode sb (balloc s.disk s.freeblock) i = Fs.readDinode sb s.disk i :=
    readDinode_balloc h.sound.le_size hin
  have htype : (Fs.readDinode sb s.disk i).type ≠ 0 := by
    rw [← hd, hfile.type]
    exact type_code_ne
  obtain ⟨hs, hfree, -, hmax, d', hd', htail, hlow, hval⟩ :=
    iappend_writei h.sound h.image hin rfl htype ht
  have ho : Fs.Owned sb (update (Fs.readDinode sb (balloc s.disk s.freeblock)) i
      (Fs.readDinode sb s.disk i)) (balloc s.disk s.freeblock) := by
    rw [← hd, update_eq_self]
    exact h.image.owned
  have hfull : Fs.Full (balloc s.disk s.freeblock) (Fs.readDinode sb s.disk i) := by
    rw [← hd]
    exact h.image.full i hin (by rw [hd]; exact htype)
  obtain ⟨k, r, d₁, m₁, hval', hw⟩ :=
    Fs.writei_wrote (fun k => p[k]?) ho hin htype hd hfull le_rfl hmax
  rw [hval] at hval'
  obtain ⟨hk, rfl, rfl⟩ : (p.length : ℤ) = k ∧ d' = d₁ ∧ balloc t.disk t.freeblock = m₁ := by
    simpa using hval'
  have hk' : p.length = k := by exact_mod_cast hk
  have hother : ∀ j < NINODES, j ≠ i → Fs.readDinode sb (balloc t.disk t.freeblock) j =
      Fs.readDinode sb (balloc s.disk s.freeblock) j := hw.settled.frame.dinode
  refine ⟨⟨hs, hw.settled.consistent h.image, by rw [hfree]; exact h.pos,
    fun x hx => (hlow x hx).trans (h.low x hx), fun j hj hjf hjn => ?_, fun j hjn hj => ?_⟩, hfree⟩
  · by_cases hji : j = i
    · rw [hji, update_self]
      have hnew : Fs.readDinode sb (balloc t.disk t.freeblock) i = d' := hw.settled.synced
      obtain ⟨h₁, h₂, h₃, h₄, h₅, h₆⟩ := hfile
      rw [hd] at h₁ h₂ h₃ h₄ h₆
      refine ⟨by rw [hnew, hd', ← h₁], by rw [hnew, hd', ← h₂], by rw [hnew, hd', ← h₃],
        by rw [hnew, hd', ← h₄], ?_, by rw [hnew]; exact htail h₆⟩
      have hlen : (files i).2.length = (Fs.readDinode sb s.disk i).size := by
        rw [← h₅, Fs.length_content, hd]
      rw [(hw.content_eq hd le_rfl).2, h₅, ← hk', List.take_length, ← hlen, overlay_end]
    · rw [update_of_ne hji]
      exact (h.file j hj (hfree ▸ hjf) hjn).other h.image hw.settled.frame hw.apart hjn hji
  · have hji : j ≠ i := by omega
    rw [hother j hjn hji]
    exact h.unused j hjn (hfree ▸ hj)

/-- `ialloc` adds an empty file. -/
theorem Built.ialloc (h : Built s files) (hi : s.freeinode < NINODES) (type : FileType) :
    Built (ialloc s type).2 (update files s.freeinode (type, [])) := by
  obtain ⟨i, hidef⟩ : ∃ i, i = s.freeinode := ⟨_, rfl⟩
  rw [← hidef] at hi ⊢
  obtain ⟨m, hm⟩ : ∃ m, m = balloc s.disk s.freeblock := ⟨_, rfl⟩
  have hdisk : balloc (Mkfs.ialloc s type).2.disk (Mkfs.ialloc s type).2.freeblock =
      Fs.iupdate sb m (newDinode type) i := by
    rw [hm, iupdate_balloc h.sound.le_size hi, hidef]
    rfl
  have htype : (Fs.readDinode sb m i).type = 0 := by
    rw [hm]
    exact h.unused i hi (.inr hidef.ge)
  have hself : Fs.Owned sb (update (Fs.readDinode sb m) i (Fs.readDinode sb m i)) m := by
    rw [update_eq_self, hm]
    exact h.image.owned
  have hnew : Fs.Owned sb (update (Fs.readDinode sb m) i (newDinode type)) m :=
    hself.congr_empty (fun _ hne => absurd htype hne) fun s => Fs.slot_of_zero rfl s
  have hfits : (newDinode type).Fits := by
    constructor
    · cases type <;> decide
    all_goals first
      | exact Nat.one_lt_pow (by decide) (by decide)
      | exact fun _ => Nat.pow_pos (by decide)
      | exact Nat.pow_pos (by decide)
  have hset : Fs.Settled sb (Fs.readDinode sb m) i m (newDinode type)
      (Fs.iupdate sb m (newDinode type) i) :=
    Fs.settled_iupdate hnew hi .refl type_code_ne hfits fun k hk => absurd hk (Nat.not_lt_zero _)
  have himage : Fs.Consistent sb m := by
    rw [hm]
    exact h.image
  have hapart : Fs.Apart sb (Fs.readDinode sb m) i m (Fs.iupdate sb m (newDinode type) i) :=
    hself.apart_iupdate hi
  have hfree : (Mkfs.ialloc s type).2.freeinode = i + 1 := by
    rw [hidef]
    rfl
  refine ⟨?_, ?_, by rw [hfree]; exact Nat.succ_pos i,
    fun x hx => (iupdate_of_low hx).trans (h.low x hx), fun j hj hjf hjn => ?_, fun j hjn hj => ?_⟩
  · exact ⟨h.sound.blank.iupdate h.sound.nmeta_le (hidef ▸ hi), h.sound.nmeta_le, h.sound.le_size⟩
  · rw [hdisk]
    exact hset.consistent himage
  · rw [hdisk]
    rw [hfree] at hjf
    by_cases hji : j = i
    · have hsync : Fs.readDinode sb (Fs.iupdate sb m (newDinode type) i) i = newDinode type :=
        hset.synced
      rw [hji, update_self]
      refine ⟨by rw [hsync]; rfl, by rw [hsync]; rfl, by rw [hsync]; rfl, by rw [hsync]; rfl,
        ?_, ?_⟩
      · unfold Fs.content
        rw [hsync]
        rfl
      · have hnone : ∀ k, (newDinode type).blockAt (Fs.iupdate sb m (newDinode type) i) k = 0 := by
          intro k
          unfold Dinode.blockAt
          cases slotAt k with
          | none => rfl
          | some s => exact Fs.slot_of_zero rfl s
        rw [hsync]
        exact ⟨fun k _ => hnone k, fun x _ hx => absurd (hnone _) hx⟩
    · rw [update_of_ne hji]
      have hfile : IsFile m j (files j) := by
        rw [hm]
        exact h.file j hj (by omega) hjn
      exact hfile.other himage hset.frame hapart hjn hji
  · rw [hdisk]
    rw [hfree] at hj
    have hji : j ≠ i := by
      have := h.pos
      omega
    rw [hset.frame.dinode j hjn hji, hm]
    exact h.unused j hjn (hj.imp_right fun hj => by omega)

/-- A file that comes in pieces. -/
theorem Built.chunks {l : List (List Byte)} (h : Built s files) (hpos : 0 < i)
    (hi : i < s.freeinode) (hin : i < NINODES)
    (ht : l.foldlM (fun s cc => Mkfs.iappend s i cc) s = some t) :
    Built t (update files i ((files i).1, (files i).2 ++ l.flatten)) ∧
      t.freeinode = s.freeinode := by
  induction l generalizing s files with
  | nil =>
    obtain rfl := Option.some.inj ht
    rw [List.flatten_nil, List.append_nil, Prod.mk.eta, update_eq_self]
    exact ⟨h, rfl⟩
  | cons cc l ih =>
    rw [List.foldlM_cons] at ht
    obtain ⟨s', hs', ht⟩ := Option.bind_eq_some_iff.1 ht
    obtain ⟨h', hfree⟩ := h.iappend hpos hi hin hs'
    obtain ⟨h'', hfree'⟩ := ih h' (hfree ▸ hi) ht
    rw [update_self, update_idem] at h''
    refine ⟨?_, hfree'.trans hfree⟩
    rwa [List.flatten_cons, ← List.append_assoc]

/-- The file system with one more file. -/
def added (files : Files) (i : ℕ) (name : List Byte) (data : List Byte) : Files :=
  update (update files ROOTINO ((files ROOTINO).1, (files ROOTINO).2 ++ Fs.dirent name i)) i
    (.file, data)

/-- The entries for files with the inodes from `i` on. -/
def direntsFrom (i : ℕ) : List (List Byte) → List Byte
  | [] => []
  | name :: names => Fs.dirent name i ++ direntsFrom (i + 1) names

/-- The file system with more files, from the inode `i` on. -/
def addedFrom : Files → ℕ → List (List Byte × List Byte) → Files
  | files, _, [] => files
  | files, i, f :: fs => addedFrom (added files i f.1 f.2) (i + 1) fs

theorem added_root {name data : List Byte} (hi : 1 < i) : added files i name data ROOTINO =
    ((files ROOTINO).1, (files ROOTINO).2 ++ Fs.dirent name i) := by
  have hne : ROOTINO ≠ i := hi.ne
  rw [added, update_of_ne hne, update_self]

theorem addedFrom_root {fs : List (List Byte × List Byte)} (hi : 1 < i) :
    addedFrom files i fs ROOTINO =
      ((files ROOTINO).1, (files ROOTINO).2 ++ direntsFrom i (fs.map Prod.fst)) := by
  induction fs generalizing files i with
  | nil => simp [addedFrom, direntsFrom]
  | cons f fs ih =>
    rw [addedFrom, ih (Nat.lt_succ_of_lt hi), added_root hi]
    simp [direntsFrom]

theorem addedFrom_of_lt {fs : List (List Byte × List Byte)} (hi : j < i) (hj : j ≠ ROOTINO) :
    addedFrom files i fs j = files j := by
  induction fs generalizing files i with
  | nil => rfl
  | cons f fs ih =>
    rw [addedFrom, ih (Nat.lt_succ_of_lt hi), added, update_of_ne hi.ne, update_of_ne hj]

theorem addedFrom_file {fs : List (List Byte × List Byte)} (hi : 1 < i) {k : ℕ}
    {f : List Byte × List Byte} (hf : fs[k]? = some f) :
    addedFrom files i fs (i + k) = (.file, f.2) := by
  induction fs generalizing files i k with
  | nil => simp at hf
  | cons g fs ih =>
    cases k with
    | zero =>
      obtain rfl : g = f := by simpa using hf
      show addedFrom (added files i g.1 g.2) (i + 1) fs i = _
      rw [addedFrom_of_lt (Nat.lt_succ_self i) (Nat.ne_of_gt hi), added, update_self]
    | succ k =>
      have hsum : i + (k + 1) = i + 1 + k := by omega
      rw [addedFrom, hsum]
      exact ih (Nat.lt_succ_of_lt hi) (by simpa using hf)

/-! ## The start -/

/-- The image before the root directory. -/
def fresh : State :=
  ⟨store (fun _ => 0) BSIZE superblock, 1, nmeta⟩

theorem length_superblock : superblock.length = 32 := by
  decide

/-- The root directory without files. -/
def rootOnly : Files :=
  update (fun _ => (.file, [])) ROOTINO (.dir, direntsFrom 1 [[46]] ++ Fs.dirent [46, 46] ROOTINO)

/-- Names and inodes of entries, with the inodes from `i` on. -/
def listingFrom (i : ℕ) : List (List Byte) → List (List Byte × ℕ)
  | [] => []
  | name :: names => (Fs.cname name, i) :: listingFrom (i + 1) names

theorem length_direntsFrom {names : List (List Byte)} :
    (direntsFrom i names).length = names.length * DIRENT := by
  induction names generalizing i with
  | nil => simp [direntsFrom]
  | cons name names ih =>
    rw [direntsFrom, List.length_append, Fs.length_dirent, ih, List.length_cons, Nat.succ_mul,
      Nat.add_comm]

/-- An entry behind the others. -/
theorem entries_append {c e : List Byte} (hc : DIRENT ∣ c.length) (he : e.length = DIRENT) :
    Fs.entries (c ++ e) = Fs.entries c ++ [Fs.decode e] := by
  obtain ⟨k, hk⟩ := hc
  have hlen : (Fs.entries c).length = k := by
    rw [Fs.entries, List.length_map, length_records, hk]
    exact Nat.mul_div_cancel_left k (by decide)
  have hover := Fs.entries_overlay (c := c) (e := e) (k := k) ⟨k, hk⟩ (by rw [hk, Nat.mul_comm]) he
  have hend : k * DIRENT = c.length := by rw [hk, Nat.mul_comm]
  have hover' : overlay (Fs.entries c) k [Fs.decode e] = Fs.entries c ++ [Fs.decode e] := by
    rw [← hlen, overlay_end]
  rw [hend, overlay_end, hover'] at hover
  exact hover

theorem entries_direntsFrom {c : List Byte} {names : List (List Byte)} (hc : DIRENT ∣ c.length)
    (hi : 1 ≤ i) (hn : i + names.length ≤ 2 ^ 16) :
    Fs.entries (c ++ direntsFrom i names) = Fs.entries c ++ (listingFrom i names).map some := by
  induction names generalizing c i with
  | nil => simp [direntsFrom, listingFrom]
  | cons name names ih =>
    rw [List.length_cons] at hn
    have hdvd : DIRENT ∣ (c ++ Fs.dirent name i).length := by
      rw [List.length_append, Fs.length_dirent]
      exact Nat.dvd_add hc (dvd_refl _)
    rw [direntsFrom, ← List.append_assoc, ih hdvd (by omega) (by omega),
      entries_append hc Fs.length_dirent, Fs.decode_dirent hi (by omega)]
    simp [listingFrom]

theorem entries_zeros {c : List Byte} (hc : DIRENT ∣ c.length) (k : ℕ) :
    Fs.entries (c ++ List.replicate (k * DIRENT) 0) = Fs.entries c ++ List.replicate k none := by
  induction k generalizing c with
  | zero => simp
  | succ k ih =>
    have hdvd : DIRENT ∣ (c ++ List.replicate DIRENT (0 : Byte)).length := by
      rw [List.length_append, List.length_replicate]
      exact Nat.dvd_add hc (dvd_refl _)
    have hsplit : List.replicate ((k + 1) * DIRENT) (0 : Byte) =
        List.replicate DIRENT 0 ++ List.replicate (k * DIRENT) 0 := by
      rw [← List.replicate_add, Nat.succ_mul, Nat.add_comm]
    rw [hsplit, ← List.append_assoc, ih hdvd, entries_append hc (List.length_replicate ..),
      Fs.decode_zero, List.append_assoc]
    rfl

/-- The size of the root directory at the end. -/
def rootSize (size : ℕ) : ℕ :=
  (size / BSIZE + 1) * BSIZE

theorem lt_rootSize {size : ℕ} : size < rootSize size := by
  have hmod : size % BSIZE < BSIZE := Nat.mod_lt _ (by decide)
  have hdiv : size / BSIZE * BSIZE + size % BSIZE = size := Nat.div_add_mod' size BSIZE
  rw [rootSize, Nat.succ_mul]
  omega

/-- The last block of the root directory. -/
theorem div_eq_of_tail {size k : ℕ} (h₁ : size ≤ k * BSIZE) (h₂ : k * BSIZE < rootSize size) :
    k = size / BSIZE ∧ size % BSIZE = 0 := by
  have hmod : size % BSIZE < BSIZE := Nat.mod_lt _ (by decide)
  have hdiv : size / BSIZE * BSIZE + size % BSIZE = size := Nat.div_add_mod' size BSIZE
  have hk : k < size / BSIZE + 1 := Nat.lt_of_mul_lt_mul_right h₂
  have hle : size / BSIZE ≤ k := by
    rw [← Nat.mul_div_cancel k (show 0 < BSIZE by decide)]
    exact Nat.div_le_div_right h₁
  obtain rfl : k = size / BSIZE := by omega
  exact ⟨rfl, by omega⟩

/-- All blocks of the root directory are there, if it does not end with a block. -/
theorem Tail.full_iff (h : Tail m d d.size) (hfull : Fs.Full m d) :
    Fs.Full m { d with size := rootSize d.size } ↔ d.size % BSIZE ≠ 0 := by
  have hblock : ∀ k, Dinode.blockAt { d with size := rootSize d.size } m k = d.blockAt m k :=
    fun k => Fs.blockAt_addrs rfl k
  constructor
  · intro hnew h0
    have hend : d.size / BSIZE * BSIZE = d.size := Nat.div_mul_cancel (Nat.dvd_of_mod_eq_zero h0)
    refine hnew (d.size / BSIZE) ?_ ?_
    · rw [hend]
      exact lt_rootSize
    · rw [hblock]
      exact h.block _ hend.ge
  · intro hne k hk
    rw [hblock]
    by_cases hlt : k * BSIZE < d.size
    · exact hfull k hlt
    · exact absurd (div_eq_of_tail (Nat.not_lt.1 hlt) hk).2 hne

/-- Behind the end there are zeros. -/
theorem Tail.slice (h : Tail m d d.size) (hfull : Fs.Full m d) (hne : d.size % BSIZE ≠ 0) :
    d.slice m 0 (rootSize d.size) =
      d.slice m 0 d.size ++ List.replicate (rootSize d.size - d.size) 0 := by
  have hsum : rootSize d.size = d.size + (rootSize d.size - d.size) :=
    (Nat.add_sub_cancel' lt_rootSize.le).symm
  have hall := (h.full_iff hfull).2 hne
  conv_lhs => rw [hsum, Fs.slice_add]
  congr 1
  refine List.eq_replicate_iff.2 ⟨Fs.length_slice, fun b hb => ?_⟩
  obtain ⟨k, hk, rfl⟩ := List.mem_map.1 hb
  have hlt := List.mem_range.1 hk
  refine h.byte _ (by omega) ?_
  have hblock := hall ((0 + d.size + k) / BSIZE) (by
    refine (Nat.div_mul_le_self _ _).trans_lt ?_
    show _ < rootSize d.size
    omega)
  rwa [Fs.blockAt_addrs rfl] at hblock

/-- The root directory as `finish` leaves it. -/
structure RootEnd (m : Mem) (c : List Byte) (m' : Mem) : Prop where
  owned : Fs.Owned sb (Fs.readDinode sb m') m'
  frame : Fs.Frame sb (Fs.readDinode sb m) ROOTINO m m'
  apart : Fs.Apart sb (Fs.readDinode sb m) ROOTINO m m'
  synced : Fs.readDinode sb m' ROOTINO =
    { Fs.readDinode sb m ROOTINO with size := rootSize c.length }
  consistent_iff : Fs.Consistent sb m' ↔ c.length % BSIZE ≠ 0
  content : c.length % BSIZE ≠ 0 →
    Fs.content sb m' ROOTINO = c ++ List.replicate (rootSize c.length - c.length) 0

/-- `winode` of the root directory with its size at the end. -/
theorem root_end {m : Mem} (himage : Fs.Consistent sb m) {f : FileType × List Byte}
    (hfile : IsFile m ROOTINO f) :
    RootEnd m f.2 (Fs.iupdate sb m { Fs.readDinode sb m ROOTINO with size := rootSize f.2.length }
      ROOTINO) := by
  have hroot : ROOTINO < sb.ninodes := by decide
  obtain ⟨d, hd⟩ : ∃ d, d = Fs.readDinode sb m ROOTINO := ⟨_, rfl⟩
  have hlen : f.2.length = d.size := by
    rw [← hfile.content, Fs.length_content, hd]
  have htail : Tail m d d.size := by
    rw [hd]
    exact hfile.tail
  have hc : d.slice m 0 d.size = f.2 := by
    rw [hd]
    exact hfile.content
  have ht : d.type ≠ 0 := by
    rw [hd, hfile.type]
    exact type_code_ne
  have hfull : Fs.Full m d := by
    rw [hd] at ht ⊢
    exact himage.full ROOTINO hroot ht
  have hself : Fs.Owned sb (update (Fs.readDinode sb m) ROOTINO d) m := by
    rw [hd, update_eq_self]
    exact himage.owned
  have hfit : Dinode.Fits { d with size := rootSize d.size } := by
    have hfits : d.Fits := by
      rw [hd]
      exact Fs.readDinode_fits
    refine ⟨hfits.type_lt, hfits.major_lt, hfits.minor_lt, hfits.nlink_lt, ?_, hfits.addrs_lt⟩
    have hsize := hfull.size_le
    have hdiv := Nat.div_le_div_right (c := BSIZE) hsize
    rw [Nat.mul_div_cancel _ (show 0 < BSIZE by decide)] at hdiv
    refine (Nat.mul_le_mul_right BSIZE (Nat.succ_le_succ hdiv)).trans_lt ?_
    decide
  rw [← hd, hlen]
  obtain ⟨d', hd'⟩ : ∃ d', d' = { d with size := rootSize d.size } := ⟨_, rfl⟩
  rw [← hd'] at hfit ⊢
  have haddrs : d'.addrs = d.addrs := by rw [hd']
  have htype : d'.type = d.type := by rw [hd']
  have hcopy : Fs.Owned sb (update (Fs.readDinode sb m) ROOTINO d') m :=
    hself.congr_copy haddrs htype
  have hsync : Fs.readDinode sb (Fs.iupdate sb m d' ROOTINO) ROOTINO = d' :=
    Fs.readDinode_iupdate hfit
  have hframe : Fs.Frame sb (Fs.readDinode sb m) ROOTINO m (Fs.iupdate sb m d' ROOTINO) :=
    hself.frame_rest (Fs.sameRest_iupdate hroot)
  have howned : Fs.Owned sb (Fs.readDinode sb (Fs.iupdate sb m d' ROOTINO))
      (Fs.iupdate sb m d' ROOTINO) := by
    refine (hcopy.rest (Fs.sameRest_iupdate hroot)).congr_inodes fun i hi => ?_
    by_cases hii : i = ROOTINO
    · rw [hii, hsync, update_self]
    · rw [hframe.dinode i hi hii, update_of_ne hii]
  have hblock : ∀ k, d'.blockAt (Fs.iupdate sb m d' ROOTINO) k = d.blockAt m k := fun k =>
    hself.blockAt_iupdate hroot ht haddrs
  refine ⟨howned, hframe, hself.apart_iupdate hroot, by rw [hsync, hlen, ← hd, hd'], ?_,
    fun hne => ?_⟩
  · rw [hlen, ← htail.full_iff hfull, ← hd']
    constructor
    · intro hcons k hk
      have hfull' := hcons.full ROOTINO hroot (by rwa [hsync, htype])
      rw [hsync] at hfull'
      rw [Fs.blockAt_addrs haddrs, ← hblock k]
      exact hfull' k hk
    · intro hall
      exact (Fs.settled_iupdate hcopy hroot .refl (by rwa [htype]) hfit hall).consistent himage
  · rw [hlen] at hne ⊢
    have hslice : d'.slice (Fs.iupdate sb m d' ROOTINO) 0 (rootSize d.size) =
        d.slice m 0 (rootSize d.size) := by
      refine Fs.slice_congr fun x _ hx => ?_
      refine Fs.byteAt_iupdate hself hroot ht ?_ haddrs
      have hall := (htail.full_iff hfull).2 hne (x / BSIZE)
        ((Nat.div_mul_le_self _ _).trans_lt (by simpa using hx))
      rwa [Fs.blockAt_addrs rfl] at hall
    rw [Fs.content, hsync]
    have hsize : d'.size = rootSize d.size := by rw [hd']
    rw [hsize, hslice, htail.slice hfull hne, hc]

/-- The file system in an image that was built of these files, with what they contain. If the
entries of the root directory end with a block, the image lacks a block that `size` promises. -/
structure Image (m : Mem) (fs : List (List Byte × List Byte)) : Prop where
  superblock : load m BSIZE superblock.length = superblock
  owned : Fs.Owned sb (Fs.readDinode sb m) m
  consistent_iff : Fs.Consistent sb m ↔ (fs.length + 2) % 64 ≠ 0
  root : (Fs.readDinode sb m ROOTINO).type = FileType.dir.code ∧
    (Fs.readDinode sb m ROOTINO).nlink = 1
  listing : (fs.length + 2) % 64 ≠ 0 → Fs.dirEntries sb m ROOTINO =
    (([46], ROOTINO) :: ([46, 46], ROOTINO) :: listingFrom 2 (fs.map Prod.fst)).map some ++
      List.replicate (64 - (fs.length + 2) % 64) none
  file : ∀ k f, fs[k]? = some f → IsFile m (2 + k) (.file, f.2)
  unused : ∀ i < NINODES, i = 0 ∨ fs.length + 2 ≤ i → (Fs.readDinode sb m i).type = 0

/-- The entries of the root directory. -/
def rootEntries (names : List (List Byte)) : List Byte :=
  Fs.dirent [46] ROOTINO ++ Fs.dirent [46, 46] ROOTINO ++ direntsFrom 2 names

theorem length_rootEntries {names : List (List Byte)} :
    (rootEntries names).length = (names.length + 2) * DIRENT := by
  rw [rootEntries, List.length_append, List.length_append, Fs.length_dirent, Fs.length_dirent,
    length_direntsFrom, Nat.add_mul]
  omega

theorem entries_rootEntries {names : List (List Byte)} (hn : 2 + names.length ≤ 2 ^ 16) :
    Fs.entries (rootEntries names) =
      (([46], ROOTINO) :: ([46, 46], ROOTINO) :: listingFrom 2 names).map some := by
  have hdots : Fs.entries (Fs.dirent [46] ROOTINO ++ Fs.dirent [46, 46] ROOTINO) =
      [some ([46], ROOTINO), some ([46, 46], ROOTINO)] := by
    decide
  have hdvd : DIRENT ∣ (Fs.dirent [46] ROOTINO ++ Fs.dirent [46, 46] ROOTINO).length := by
    rw [List.length_append, Fs.length_dirent, Fs.length_dirent]
    exact Nat.dvd_add (dvd_refl _) (dvd_refl _)
  rw [rootEntries, entries_direntsFrom hdvd (by decide) hn, hdots]
  rfl

theorem addedFrom_rootOnly {fs : List (List Byte × List Byte)} :
    addedFrom rootOnly 2 fs ROOTINO = (.dir, rootEntries (fs.map Prod.fst)) := by
  rw [addedFrom_root (by decide), rootOnly, update_self, rootEntries, direntsFrom, direntsFrom,
    List.append_nil]
  rfl

theorem Built.finish {fs : List (List Byte × List Byte)}
    (h : Built s (addedFrom rootOnly 2 fs)) (hfree : s.freeinode = fs.length + 2)
    (hn : fs.length + 2 ≤ NINODES) {m : Mem} (hm : finish s = some m) : Image m fs := by
  have hroot : ROOTINO < NINODES := by decide
  have hrootfile := h.file ROOTINO Nat.one_pos (by rw [hfree]; unfold ROOTINO; omega) hroot
  rw [addedFrom_rootOnly] at hrootfile
  obtain ⟨m₀, hm₀⟩ : ∃ m₀, m₀ = balloc s.disk s.freeblock := ⟨_, rfl⟩
  obtain ⟨c, hc⟩ : ∃ c, c = rootEntries (fs.map Prod.fst) := ⟨_, rfl⟩
  have himage := h.image
  rw [← hm₀, ← hc] at hrootfile
  rw [← hm₀] at himage
  have hlen : c.length = (fs.length + 2) * DIRENT := by
    rw [hc, length_rootEntries, List.length_map]
  have hmod : c.length % BSIZE ≠ 0 ↔ (fs.length + 2) % 64 ≠ 0 := by
    rw [hlen]
    simp only [DIRENT, BSIZE]
    omega
  have hsize : (Fs.readDinode sb s.disk ROOTINO).size = c.length := by
    rw [← readDinode_balloc h.sound.le_size hroot, ← hm₀, ← Fs.length_content,
      hrootfile.content]
  have hdisk : m = Fs.iupdate sb m₀
      { Fs.readDinode sb m₀ ROOTINO with size := rootSize c.length } ROOTINO := by
    unfold Mkfs.finish at hm
    dsimp only at hm
    split_ifs at hm
    rw [← Option.some.inj hm, hsize, hm₀, readDinode_balloc h.sound.le_size hroot,
      iupdate_balloc h.sound.le_size hroot]
    rfl
  have hend : RootEnd m₀ c m := by
    rw [hdisk]
    exact root_end himage hrootfile
  refine ⟨?_, hend.owned, hend.consistent_iff.trans hmod, ?_, fun hne => ?_, fun k f hf => ?_,
    fun i hi hcase => ?_⟩
  · -- the blocks before the inodes are what they were
    have hlow : ∀ x, BSIZE ≤ x → x < BSIZE + superblock.length →
        m x = store (fun _ => 0) BSIZE superblock x := by
      intro x _ hx
      have hlt : x < sb.inodestart * BSIZE := by
        have hstart : sb.inodestart = 32 := rfl
        rw [length_superblock] at hx
        rw [hstart]
        simp only [BSIZE] at hx ⊢
        omega
      have hmap : ¬InMap x := by
        have hle : sb.inodestart * BSIZE ≤ sb.bmapstart * BSIZE :=
          Nat.mul_le_mul_right BSIZE (by decide)
        exact fun hin => absurd hin.1 (Nat.not_le.2 (hlt.trans_le hle))
      rw [hdisk, iupdate_of_low hlt, hm₀, balloc_of_outside h.sound.le_size hmap, h.low x hlt]
    rw [load_congr hlow, load_store]
  · rw [hend.synced]
    exact ⟨hrootfile.type, hrootfile.nlink⟩
  · have hdvd : DIRENT ∣ c.length := by
      rw [hlen]
      exact Nat.dvd_mul_left ..
    have hzeros : rootSize c.length - c.length = (64 - (fs.length + 2) % 64) * DIRENT := by
      rw [rootSize, hlen]
      simp only [DIRENT, BSIZE]
      omega
    rw [Fs.dirEntries, hend.content (hmod.2 hne), hzeros, entries_zeros hdvd, hc,
      entries_rootEntries (by
        rw [List.length_map]
        simp only [NINODES] at hn
        omega)]
  · have hk : k < fs.length := (List.getElem?_eq_some_iff.1 hf).1
    have hold := h.file (2 + k) (by omega) (by omega) (by omega)
    rw [addedFrom_file (by decide) hf, ← hm₀] at hold
    exact hold.other himage hend.frame hend.apart (by omega) (by unfold ROOTINO; omega)
  · have hne : i ≠ ROOTINO := by
      unfold ROOTINO
      omega
    rw [hend.frame.dinode i hi hne, hm₀]
    exact h.unused i hi (hcase.imp_right fun hle => by omega)

/-- The kernel's file system calls keep the invariant from this image on. -/
theorem Image.reachable_inv {n : ℕ} {m : Mem} {fs : List (List Byte × List Byte)}
    (h : Image m fs) (hn : (fs.length + 2) % 64 ≠ 0) {s : Fs n}
    (hs : Transition.Reachable (Fs.Boot m) (Fs.Step sb) s) : Fs.FsInv sb s :=
  Fs.reachable_inv (h.consistent_iff.2 hn) hs

end Mkfs

end CowPbs
