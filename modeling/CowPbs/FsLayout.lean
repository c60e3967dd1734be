import Mathlib
import CowPbs.Fs

/-!
# The regions of the disk

The inodes, the free map and the data blocks lie in regions of their own, so what `fs.c` does
to one of them is not seen in the others. We look at the disk through three functions,
`readDinode`, `inUse` and `word`, and say for each change of the disk what they read after
it. No proof about `fs.c` looks at addresses again.
-/

open Bytes Function

namespace CowPbs

/-- The fields fit in the fields of a `struct dinode`. -/
structure Dinode.Fits (d : Dinode) : Prop where
  type_lt : d.type < 256 ^ 2
  major_lt : d.major < 256 ^ 2
  minor_lt : d.minor < 256 ^ 2
  nlink_lt : d.nlink < 256 ^ 2
  size_lt : d.size < 256 ^ 4
  addrs_lt : ∀ k, d.addrs k < 256 ^ 4

namespace Fs

variable {sb : Superblock} {m m' : Mem} {b c i i' j j' x : ℕ}

/-! ## Where things are -/

theorem dinodeAddr_eq : dinodeAddr sb i = sb.inodestart * BSIZE + i * 64 := by
  simp only [dinodeAddr, IPB, BSIZE]
  omega

theorem bitAddr_eq : bitAddr sb b = sb.bmapstart * BSIZE + b / 8 := by
  simp only [bitAddr, BPB, BSIZE]
  omega

theorem bitAddr_index : b % BPB % 8 = b % 8 := by
  simp only [BPB, BSIZE]
  omega

/-- The inodes are before the free map. -/
theorem dinodeAddr_lt (hi : i < sb.ninodes) :
    dinodeAddr sb i + 64 ≤ sb.bmapstart * BSIZE := by
  have h := sb.inodes_le
  rw [dinodeAddr_eq]
  simp only [IPB, BSIZE] at h ⊢
  omega

/-- The free map is before the data blocks. -/
theorem bitAddr_lt (hb : b < sb.size) :
    sb.bmapstart * BSIZE ≤ bitAddr sb b ∧ bitAddr sb b < sb.nmeta * BSIZE := by
  have h := sb.bitmap_le
  rw [bitAddr_eq]
  simp only [Superblock.nmeta, BPB, BSIZE] at h ⊢
  omega

theorem bmapstart_lt : sb.bmapstart < sb.nmeta :=
  calc sb.bmapstart < sb.bmapstart + sb.size / BPB + 1 :=
      Nat.lt_succ_of_le (Nat.le_add_right _ _)
    _ ≤ sb.nmeta := sb.bitmap_le

theorem nmeta_pos : 0 < sb.nmeta :=
  Nat.zero_lt_of_lt bmapstart_lt

/-! ## What depends on what -/

theorem readDinode_congr
    (h : ∀ x, dinodeAddr sb i ≤ x → x < dinodeAddr sb i + 64 → m x = m' x) :
    readDinode sb m i = readDinode sb m' i := by
  have hget : ∀ o w, o + w ≤ 64 →
      get m (dinodeAddr sb i + o) w = get m' (dinodeAddr sb i + o) w := by
    intro o w how
    exact get_congr fun x h₁ h₂ => h x (by omega) (by omega)
  have haddrs : ∀ k : Fin (NDIRECT + 1), get m (dinodeAddr sb i + 12 + k * 4) 4 =
      get m' (dinodeAddr sb i + 12 + k * 4) 4 := by
    intro k
    have hk : (k : ℕ) < 13 := k.isLt
    rw [Nat.add_assoc]
    exact hget _ 4 (by omega)
  simp only [readDinode, hget 2 2 (by omega), hget 4 2 (by omega), hget 6 2 (by omega),
    hget 8 4 (by omega), haddrs]
  rw [← Nat.add_zero (dinodeAddr sb i), hget 0 2 (by omega)]

theorem inUse_congr (h : m (bitAddr sb b) = m' (bitAddr sb b)) :
    inUse sb m b = inUse sb m' b :=
  bit_congr h

theorem word_congr (hj : j < NINDIRECT)
    (h : ∀ x, b * BSIZE ≤ x → x < b * BSIZE + BSIZE → m x = m' x) :
    word m b j = word m' b j := by
  refine get_congr fun x h₁ h₂ => h x (by omega) ?_
  simp only [NINDIRECT, BSIZE] at hj h₂ ⊢
  omega

/-- A change of data blocks. -/
structure SameMeta (sb : Superblock) (m m' : Mem) : Prop where
  dinode : ∀ i < sb.ninodes, readDinode sb m' i = readDinode sb m i
  inUse : ∀ b < sb.size, inUse sb m' b = inUse sb m b

theorem SameMeta.of_data (h : ∀ x < sb.nmeta * BSIZE, m' x = m x) : SameMeta sb m m' where
  dinode := by
    intro i hi
    refine readDinode_congr fun x h₁ h₂ => h x ?_
    have h₃ := dinodeAddr_lt hi
    have h₄ : sb.bmapstart < sb.nmeta := bmapstart_lt
    simp only [BSIZE] at h₃ ⊢
    omega
  inUse := fun b hb => inUse_congr (h _ (bitAddr_lt hb).2)

/-! ## The free map -/

section FreeMap

theorem inUse_mark :
    inUse sb (mark sb m b) c = (inUse sb m c || decide (c = b)) := by
  have heq : (bitAddr sb c = bitAddr sb b ∧ c % 8 = b % 8) ↔ c = b := by
    rw [bitAddr_eq, bitAddr_eq]
    omega
  rw [inUse, inUse, mark, bitAddr_index, bitAddr_index, bit_setBit (by omega) (by omega)]
  simp only [heq]

theorem inUse_clear :
    inUse sb (clearBit m (bitAddr sb b) (b % BPB % 8)) c =
      (inUse sb m c && !decide (c = b)) := by
  have heq : (bitAddr sb c = bitAddr sb b ∧ c % 8 = b % 8) ↔ c = b := by
    rw [bitAddr_eq, bitAddr_eq]
    omega
  rw [inUse, inUse, bitAddr_index, bitAddr_index, bit_clearBit (by omega)]
  simp only [heq]

/-- Only the free map is changed. -/
structure SameBlocks (sb : Superblock) (m m' : Mem) : Prop where
  dinode : ∀ i < sb.ninodes, readDinode sb m' i = readDinode sb m i
  word : ∀ b j, sb.nmeta ≤ b → j < NINDIRECT → word m' b j = word m b j

theorem SameBlocks.of_bit (hb : b < sb.size) (h : ∀ x, x ≠ bitAddr sb b → m' x = m x) :
    SameBlocks sb m m' where
  dinode := by
    intro i hi
    refine readDinode_congr fun x h₁ h₂ => h x ?_
    have h₃ := dinodeAddr_lt hi
    have h₄ := (bitAddr_lt hb).1
    omega
  word := by
    intro c j hc hj
    refine word_congr hj fun x h₁ h₂ => h x ?_
    have h₃ := (bitAddr_lt hb).2
    have h₄ : sb.nmeta * BSIZE ≤ c * BSIZE := Nat.mul_le_mul_right BSIZE hc
    omega

theorem sameBlocks_mark (hb : b < sb.size) : SameBlocks sb m (mark sb m b) :=
  .of_bit hb fun _ hx => setBit_of_ne hx

theorem sameBlocks_clear (hb : b < sb.size) :
    SameBlocks sb m (clearBit m (bitAddr sb b) (b % BPB % 8)) :=
  .of_bit hb fun _ hx => clearBit_of_ne hx

end FreeMap

/-! ## Data blocks -/

theorem store_block_of_ne {l : List Byte} {o : ℕ} (ho : o + l.length ≤ BSIZE) (hcb : c ≠ b)
    (h₁ : c * BSIZE ≤ x) (h₂ : x < c * BSIZE + BSIZE) : store m (b * BSIZE + o) l x = m x := by
  refine store_of_outside ?_
  rcases Nat.lt_or_gt_of_ne hcb with h | h
  · simp only [BSIZE] at *
    omega
  · simp only [BSIZE] at *
    omega

theorem sameMeta_store {l : List Byte} {o : ℕ} (hb : sb.nmeta ≤ b) :
    SameMeta sb m (store m (b * BSIZE + o) l) := by
  refine .of_data fun x hx => store_of_outside (.inl ?_)
  have h : sb.nmeta * BSIZE ≤ b * BSIZE := Nat.mul_le_mul_right BSIZE hb
  omega

theorem word_store {l : List Byte} {o : ℕ} (ho : o + l.length ≤ BSIZE) (hcb : c ≠ b)
    (hj : j < NINDIRECT) : word (store m (b * BSIZE + o) l) c j = word m c j :=
  word_congr hj fun _ h₁ h₂ => store_block_of_ne ho hcb h₁ h₂

theorem bzero_eq : bzero m b = store m (b * BSIZE + 0) (List.replicate BSIZE 0) := by
  rw [bzero, Nat.add_zero]

theorem sameMeta_bzero (hb : sb.nmeta ≤ b) : SameMeta sb m (bzero m b) := by
  rw [bzero_eq]
  exact sameMeta_store hb

theorem word_bzero_of_ne (hcb : c ≠ b) (hj : j < NINDIRECT) :
    word (bzero m b) c j = word m c j := by
  rw [bzero_eq]
  refine word_store ?_ hcb hj
  rw [List.length_replicate, Nat.zero_add]

theorem word_bzero (hj : j < NINDIRECT) : word (bzero m b) b j = 0 := by
  refine get_eq_zero fun x h₁ h₂ => ?_
  obtain ⟨k, rfl⟩ := Nat.exists_eq_add_of_le (Nat.le_trans (Nat.le_add_right _ (j * 4)) h₁)
  have hk : k < (List.replicate BSIZE (0 : Byte)).length := by
    simp only [List.length_replicate, NINDIRECT, BSIZE] at *
    omega
  rw [bzero, store_add hk, List.getElem_replicate]

/-- `a[j]` of the block `b` becomes `v`. -/
def setWord (m : Mem) (b j v : ℕ) : Mem :=
  put m (b * BSIZE + j * 4) 4 v

theorem sameMeta_setWord {v : ℕ} (hb : sb.nmeta ≤ b) : SameMeta sb m (setWord m b j v) :=
  sameMeta_store hb

theorem word_setWord {v : ℕ} (hv : v < 256 ^ 4) : word (setWord m b j v) b j = v :=
  get_put_of_lt hv

theorem word_setWord_of_ne {v : ℕ} (hj : j < NINDIRECT) (hj' : j' < NINDIRECT)
    (h : c ≠ b ∨ j' ≠ j) : word (setWord m b j v) c j' = word m c j' := by
  by_cases hcb : c = b
  · subst hcb
    have hne := h.resolve_left (not_not.2 rfl)
    refine get_put_of_disjoint ?_
    omega
  · refine word_store ?_ hcb hj'
    simp only [length_toBytes, NINDIRECT, BSIZE] at *
    omega

/-! ## Inodes -/

variable {d : Dinode}

theorem iupdate_of_outside (h : x < dinodeAddr sb i ∨ dinodeAddr sb i + 64 ≤ x) :
    iupdate sb m d i x = m x := by
  have h' : x < dinodeAddr sb i + 12 ∨ dinodeAddr sb i + 12 + (NDIRECT + 1) * 4 ≤ x := by
    simp only [NDIRECT]
    omega
  rw [iupdate, putArray_of_outside h', put_of_outside (by omega), put_of_outside (by omega),
    put_of_outside (by omega), put_of_outside (by omega), put_of_outside (by omega)]

theorem readDinode_iupdate (hd : d.Fits) : readDinode sb (iupdate sb m d i) i = d := by
  have hfield : ∀ m o w, o + w ≤ 12 →
      get (putArray m (dinodeAddr sb i + 12) 4 d.addrs) (dinodeAddr sb i + o) w =
        get m (dinodeAddr sb i + o) w := by
    intro m o w how
    exact get_congr fun x h₁ h₂ => putArray_of_outside (.inl (by omega))
  have haddrs : (fun k : Fin (NDIRECT + 1) =>
      get (iupdate sb m d i) (dinodeAddr sb i + 12 + k * 4) 4) = d.addrs := by
    funext k
    exact get_putArray k (hd.addrs_lt k)
  have hsize : get (iupdate sb m d i) (dinodeAddr sb i + 8) 4 = d.size := by
    rw [iupdate, hfield _ 8 4 (by omega), get_put_of_lt hd.size_lt]
  have hnlink : get (iupdate sb m d i) (dinodeAddr sb i + 6) 2 = d.nlink := by
    rw [iupdate, hfield _ 6 2 (by omega), get_put_of_disjoint (by omega),
      get_put_of_lt hd.nlink_lt]
  have hminor : get (iupdate sb m d i) (dinodeAddr sb i + 4) 2 = d.minor := by
    rw [iupdate, hfield _ 4 2 (by omega), get_put_of_disjoint (by omega),
      get_put_of_disjoint (by omega), get_put_of_lt hd.minor_lt]
  have hmajor : get (iupdate sb m d i) (dinodeAddr sb i + 2) 2 = d.major := by
    rw [iupdate, hfield _ 2 2 (by omega), get_put_of_disjoint (by omega),
      get_put_of_disjoint (by omega), get_put_of_disjoint (by omega),
      get_put_of_lt hd.major_lt]
  have htype : get (iupdate sb m d i) (dinodeAddr sb i) 2 = d.type := by
    have h₀ := fun m => hfield m 0 2 (by omega)
    simp only [Nat.add_zero] at h₀
    rw [iupdate, h₀, get_put_of_disjoint (by omega),
      get_put_of_disjoint (by omega), get_put_of_disjoint (by omega),
      get_put_of_disjoint (by omega), get_put_of_lt hd.type_lt]
  rw [readDinode, haddrs, hsize, hnlink, hminor, hmajor, htype]

theorem readDinode_fits : (readDinode sb m i).Fits where
  type_lt := get_lt
  major_lt := get_lt
  minor_lt := get_lt
  nlink_lt := get_lt
  size_lt := get_lt
  addrs_lt := fun _ => get_lt

/-- Only the inode `i` is changed. -/
structure SameRest (sb : Superblock) (i : ℕ) (m m' : Mem) : Prop where
  dinode : ∀ i' < sb.ninodes, i' ≠ i → readDinode sb m' i' = readDinode sb m i'
  inUse : ∀ b < sb.size, inUse sb m' b = inUse sb m b
  word : ∀ b j, sb.nmeta ≤ b → j < NINDIRECT → word m' b j = word m b j

theorem SameRest.of_inode (hi : i < sb.ninodes)
    (h : ∀ x, x < dinodeAddr sb i ∨ dinodeAddr sb i + 64 ≤ x → m' x = m x) :
    SameRest sb i m m' where
  dinode := by
    intro i' hi' hne
    refine readDinode_congr fun x h₁ h₂ => h x ?_
    rw [dinodeAddr_eq] at *
    omega
  inUse := by
    intro b hb
    refine inUse_congr (h _ (.inr ?_))
    have h₁ := dinodeAddr_lt hi
    have h₂ := (bitAddr_lt hb).1
    omega
  word := by
    intro b j hb hj
    refine word_congr hj fun x h₁ h₂ => h x (.inr ?_)
    have h₃ := dinodeAddr_lt hi
    have h₄ : sb.bmapstart < sb.nmeta := bmapstart_lt
    have h₅ : sb.nmeta * BSIZE ≤ b * BSIZE := Nat.mul_le_mul_right BSIZE hb
    simp only [BSIZE] at *
    omega

theorem sameRest_iupdate (hi : i < sb.ninodes) : SameRest sb i m (iupdate sb m d i) :=
  .of_inode hi fun _ hx => iupdate_of_outside hx

/-- The inode as `ialloc` leaves it. -/
def blank (type : FileType) : Dinode where
  type := type.code
  major := 0
  minor := 0
  nlink := 0
  size := 0
  addrs := fun _ => 0

/-- The `memset` of `ialloc` and the type. -/
def allocInode (sb : Superblock) (m : Mem) (i : ℕ) (type : FileType) : Mem :=
  put (store m (dinodeAddr sb i) (List.replicate 64 0)) (dinodeAddr sb i) 2 type.code

theorem sameRest_allocInode (type : FileType) (hi : i < sb.ninodes) :
    SameRest sb i m (allocInode sb m i type) := by
  refine .of_inode hi fun x hx => ?_
  rw [allocInode, put_of_outside (by omega), store_of_outside (by simpa using hx)]

theorem readDinode_allocInode (type : FileType) :
    readDinode sb (allocInode sb m i type) i = blank type := by
  have hzero : ∀ o w, 2 ≤ o → o + w ≤ 64 →
      get (allocInode sb m i type) (dinodeAddr sb i + o) w = 0 := by
    intro o w ho how
    refine get_eq_zero fun x h₁ h₂ => ?_
    obtain ⟨k, rfl⟩ := Nat.exists_eq_add_of_le (Nat.le_trans (Nat.le_add_right _ o) h₁)
    have hk : k < (List.replicate 64 (0 : Byte)).length := by
      rw [List.length_replicate]
      omega
    rw [allocInode, put_of_outside (by omega), store_add hk, List.getElem_replicate]
  have htype : get (allocInode sb m i type) (dinodeAddr sb i) 2 = type.code :=
    get_put_of_lt (by cases type <;> decide)
  have haddrs : ∀ k : Fin (NDIRECT + 1),
      get (allocInode sb m i type) (dinodeAddr sb i + 12 + k * 4) 4 = 0 := by
    intro k
    have hk : (k : ℕ) < 13 := k.isLt
    rw [Nat.add_assoc]
    exact hzero _ 4 (by omega) (by omega)
  simp only [readDinode, blank, htype, haddrs, hzero 2 2 (by omega) (by omega),
    hzero 4 2 (by omega) (by omega), hzero 6 2 (by omega) (by omega),
    hzero 8 4 (by omega) (by omega)]

end Fs

end CowPbs
