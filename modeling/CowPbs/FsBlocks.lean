import Mathlib
import CowPbs.Lib.Outcome
import CowPbs.Lib.Ownership
import CowPbs.FsLayout

/-!
# Every disk block has one owner

The places that name a block are the addresses of an allocated inode and the entries of its
indirect block (`AddrSlot`). In a consistent file system they are the owners of the data blocks in
use (`Owned`), and the blocks below the size of an inode are all there (`Full`).

A function of `fs.c` works on the in-memory copy of one inode, and what it does to the disk
need not agree with the inode on the disk before `iupdate`. So `Owned` and `Full` are about a
family `F` of inodes, the locked one as it is in memory and the others as they are on the disk.
A function gives blocks to the places of the locked inode or takes them away, and leaves the
places of the others alone (`Frame`).
-/

open Bytes Function Outcome Ownership

namespace CowPbs

/-- The places of an inode that name a block. -/
inductive AddrSlot
  | addr (k : Fin (NDIRECT + 1))
  | entry (j : Fin NINDIRECT)
  deriving DecidableEq

/-- `ip->addrs[NDIRECT]`. -/
def Dinode.ind (d : Dinode) : ℕ :=
  d.addrs (Fin.last NDIRECT)

/-- The block named in a place, 0 if there is none. -/
def Dinode.slot (d : Dinode) (m : Mem) : AddrSlot → ℕ
  | .addr k => d.addrs k
  | .entry j => if d.ind = 0 then 0 else Fs.word m d.ind j

/-- The place of the block `bn` of the content. -/
def slotAt (bn : ℕ) : Option AddrSlot :=
  if h : bn < NDIRECT then some (.addr (Fin.castSucc ⟨bn, h⟩))
  else if h : bn - NDIRECT < NINDIRECT then some (.entry ⟨bn - NDIRECT, h⟩)
  else none

/-- The block `bn` of the content, 0 if there is none. -/
def Dinode.blockAt (d : Dinode) (m : Mem) (bn : ℕ) : ℕ :=
  ((slotAt bn).map (d.slot m)).getD 0

namespace Fs

variable {sb : Superblock} {F : ℕ → Dinode} {d d' : Dinode} {m m' m'' : Mem} {b c i j : ℕ}

/-! ## Owners -/

section Defs

variable (sb : Superblock) (F : ℕ → Dinode) (m : Mem)

/-- The block named in a place of an allocated inode. -/
def place (r : ℕ × AddrSlot) : Option ℕ :=
  if r.1 < sb.ninodes ∧ (F r.1).type ≠ 0 ∧ (F r.1).slot m r.2 ≠ 0 then
    some ((F r.1).slot m r.2)
  else none

/-- The data blocks that the free map marks. -/
def used : Set ℕ :=
  {b | sb.nmeta ≤ b ∧ b < sb.size ∧ inUse sb m b = true}

/-- The data blocks in use are those the inodes name, each in one place; the blocks before
them are marked. -/
structure Owned : Prop where
  owns : Owns (place sb F m) (used sb m)
  meta_inUse : ∀ b < sb.nmeta, inUse sb m b = true

/-- The blocks below the size of the inode are there. -/
def Full (d : Dinode) : Prop :=
  ∀ k, k * BSIZE < d.size → d.blockAt m k ≠ 0

end Defs

theorem place_of_slot {s : AddrSlot} (hi : i < sb.ninodes) (ht : (F i).type ≠ 0)
    (hs : (F i).slot m s ≠ 0) : place sb F m (i, s) = some ((F i).slot m s) :=
  if_pos ⟨hi, ht, hs⟩

theorem place_self {s : AddrSlot} (hi : i < sb.ninodes) (ht : d.type ≠ 0) (hs : d.slot m s ≠ 0) :
    place sb (update F i d) m (i, s) = some (d.slot m s) := by
  have hF : update F i d i = d := update_self _ _ _
  rw [place_of_slot hi (by rwa [hF]) (by rwa [hF]), hF]

theorem place_cases {r : ℕ × AddrSlot} (h : place sb F m r = some b) :
    r.1 < sb.ninodes ∧ (F r.1).type ≠ 0 ∧ (F r.1).slot m r.2 = b ∧ b ≠ 0 := by
  unfold place at h
  split at h
  · next hr =>
    obtain rfl := Option.some.inj h
    exact ⟨hr.1, hr.2.1, rfl, hr.2.2⟩
  · cases h

/-- A place depends on the inode and on what it names there. -/
theorem place_congr {F' : ℕ → Dinode} {r : ℕ × AddrSlot} (ht : (F' r.1).type = (F r.1).type)
    (hs : r.1 < sb.ninodes → (F r.1).type ≠ 0 → (F' r.1).slot m' r.2 = (F r.1).slot m r.2) :
    place sb F' m' r = place sb F m r := by
  by_cases hr : r.1 < sb.ninodes ∧ (F r.1).type ≠ 0
  · simp only [place, ht, hs hr.1 hr.2]
  · have hr' : ∀ p : Prop, ¬(r.1 < sb.ninodes ∧ (F r.1).type ≠ 0 ∧ p) :=
      fun p hp => hr ⟨hp.1, hp.2.1⟩
    simp only [place, ht, if_neg (hr' _)]

/-- A slot depends on the indirect block. -/
theorem slot_congr {s : AddrSlot}
    (h : d.ind ≠ 0 → ∀ j < NINDIRECT, word m' d.ind j = word m d.ind j) :
    d.slot m' s = d.slot m s := by
  cases s with
  | addr k => rfl
  | entry j =>
    by_cases hd : d.ind = 0
    · simp only [Dinode.slot, hd, if_pos]
    · simp only [Dinode.slot, if_neg hd]
      exact h hd j j.isLt

/-- The other fields of an inode name no block. -/
theorem slot_addrs (h : d'.addrs = d.addrs) (s : AddrSlot) : d'.slot m s = d.slot m s := by
  have hind : d'.ind = d.ind := congrFun h _
  cases s with
  | addr k => exact congrFun h k
  | entry j => simp only [Dinode.slot, hind]

theorem blockAt_addrs (h : d'.addrs = d.addrs) (k : ℕ) : d'.blockAt m k = d.blockAt m k := by
  have hs : d'.slot m = d.slot m := funext (slot_addrs h)
  rw [Dinode.blockAt, Dinode.blockAt, hs]

theorem blockAt_addr {bn : ℕ} (h : bn < NDIRECT) :
    d.blockAt m bn = d.addrs (Fin.castSucc ⟨bn, h⟩) := by
  simp only [Dinode.blockAt, slotAt, dif_pos h, Option.map_some, Option.getD_some, Dinode.slot]

theorem blockAt_entry {bn : ℕ} (h : ¬bn < NDIRECT) (h' : bn - NDIRECT < NINDIRECT) :
    d.blockAt m bn = if d.ind = 0 then 0 else word m d.ind (bn - NDIRECT) := by
  simp only [Dinode.blockAt, slotAt, dif_neg h, dif_pos h', Option.map_some,
    Option.getD_some, Dinode.slot]

theorem blockAt_of_le {bn : ℕ} (h : ¬bn < NDIRECT) (h' : ¬bn - NDIRECT < NINDIRECT) :
    d.blockAt m bn = 0 := by
  simp only [Dinode.blockAt, slotAt, dif_neg h, dif_neg h', Option.map_none, Option.getD_none]

theorem slotAt_ne_last {bn : ℕ} : slotAt bn ≠ some (.addr (Fin.last NDIRECT)) := by
  unfold slotAt
  split
  · intro h
    have h' := AddrSlot.addr.inj (Option.some.inj h)
    exact absurd h' (Fin.castSucc_lt_last _).ne
  · split
    · intro h
      cases Option.some.inj h
    · intro h
      cases h

namespace Owned

theorem of_place (h : Owned sb F m) {r : ℕ × AddrSlot} (hr : place sb F m r = some b) :
    sb.nmeta ≤ b ∧ b < sb.size ∧ inUse sb m b = true :=
  h.owns.mem_used r b hr

/-- The indirect block of an allocated inode is a data block in use. -/
theorem ind_used (h : Owned sb F m) (hi : i < sb.ninodes) (ht : (F i).type ≠ 0)
    (hd : (F i).ind ≠ 0) : sb.nmeta ≤ (F i).ind ∧ (F i).ind < sb.size ∧
      inUse sb m (F i).ind = true :=
  h.of_place (place_of_slot (s := .addr (Fin.last NDIRECT)) hi ht hd)

/-- Only one inode has the indirect block, and it has it as such. -/
theorem ind_unique (h : Owned sb F m) (hi : i < sb.ninodes) (ht : (F i).type ≠ 0)
    (hd : (F i).ind ≠ 0) {r : ℕ × AddrSlot} (hr : place sb F m r = some (F i).ind) :
    r = (i, .addr (Fin.last NDIRECT)) :=
  h.owns.unique _ _ _ hr (place_of_slot (s := .addr (Fin.last NDIRECT)) hi ht hd)

/-- The inodes of the table are all that matters of the family. -/
theorem congr_inodes {F' : ℕ → Dinode} (h : Owned sb F m) (hF : ∀ i < sb.ninodes, F' i = F i) :
    Owned sb F' m where
  owns := by
    refine h.owns.congr (fun r => ?_) fun b => Iff.rfl
    by_cases hr : r.1 < sb.ninodes
    · simp only [place, hF r.1 hr]
    · simp only [place, hr, false_and, if_false]
  meta_inUse := h.meta_inUse

theorem congr_copy (h : Owned sb (update F i d) m) (ha : d'.addrs = d.addrs)
    (ht : d'.type = d.type) : Owned sb (update F i d') m where
  owns := by
    refine h.owns.congr (fun r => ?_) fun b => Iff.rfl
    by_cases hr : r.1 = i
    · refine place_congr (by simp [hr, ht]) fun _ _ => ?_
      simp only [hr, update_self]
      exact slot_addrs ha r.2
    · refine place_congr (by simp [hr]) fun _ _ => ?_
      simp only [update_of_ne hr]
  meta_inUse := h.meta_inUse

end Owned

/-! ## What the others keep -/

/-- The other inodes and the places of the others are as before. -/
structure Frame (sb : Superblock) (F : ℕ → Dinode) (i : ℕ) (m m' : Mem) : Prop where
  dinode : ∀ i' < sb.ninodes, i' ≠ i → readDinode sb m' i' = readDinode sb m i'
  slot : ∀ i' < sb.ninodes, i' ≠ i → (F i').type ≠ 0 → ∀ s, (F i').slot m' s = (F i').slot m s

theorem Frame.refl : Frame sb F i m m :=
  ⟨fun _ _ _ => rfl, fun _ _ _ _ _ => rfl⟩

theorem Frame.trans (h : Frame sb F i m m') (h' : Frame sb F i m' m'') : Frame sb F i m m'' where
  dinode := fun i' hi hne => (h'.dinode i' hi hne).trans (h.dinode i' hi hne)
  slot := fun i' hi hne ht s => (h'.slot i' hi hne ht s).trans (h.slot i' hi hne ht s)

/-- The places of the others are as before. -/
theorem Frame.place (h : Frame sb F i m m') {r : ℕ × AddrSlot} (hr : r.1 ≠ i) :
    place sb (update F i d') m' r = place sb (update F i d) m r := by
  refine place_congr (by simp only [update_of_ne hr]) fun hi ht => ?_
  simp only [update_of_ne hr] at ht ⊢
  exact h.slot r.1 hi hr ht r.2

/-- The copy may have got more blocks, and is else as before. -/
structure Grows (d : Dinode) (m : Mem) (d' : Dinode) (m' : Mem) : Prop where
  copy : d' = { d with addrs := d'.addrs }
  slot : ∀ s, d.slot m s ≠ 0 → d'.slot m' s = d.slot m s

theorem Grows.refl : Grows d m d m :=
  ⟨rfl, fun _ _ => rfl⟩

theorem Grows.trans {d'' : Dinode} (h : Grows d m d' m') (h' : Grows d' m' d'' m'') :
    Grows d m d'' m'' where
  copy := by
    rw [h'.copy, h.copy]
  slot := by
    intro s hs
    have hs' := h.slot s hs
    exact (h'.slot s (hs' ▸ hs)).trans hs'

theorem Grows.type_eq (h : Grows d m d' m') : d'.type = d.type := by
  rw [h.copy]

theorem Grows.size_eq (h : Grows d m d' m') : d'.size = d.size := by
  rw [h.copy]

theorem Grows.blockAt (h : Grows d m d' m') {k : ℕ} (hk : d.blockAt m k ≠ 0) :
    d'.blockAt m' k = d.blockAt m k := by
  unfold Dinode.blockAt at *
  cases hs : slotAt k with
  | none => rfl
  | some s =>
    rw [hs] at hk
    exact h.slot s hk

/-- What work on the inode `i` comes to that frees nothing. -/
structure Worked (sb : Superblock) (F : ℕ → Dinode) (i : ℕ) (d : Dinode) (m : Mem)
    (d' : Dinode) (m' : Mem) : Prop where
  owned : Owned sb (update F i d') m'
  frame : Frame sb F i m m'
  grows : Grows d m d' m'

theorem Worked.refl (h : Owned sb (update F i d) m) : Worked sb F i d m d m :=
  ⟨h, .refl, .refl⟩

theorem Worked.trans {d'' : Dinode} (h : Worked sb F i d m d' m')
    (h' : Worked sb F i d' m' d'' m'') : Worked sb F i d m d'' m'' :=
  ⟨h'.owned, h.frame.trans h'.frame, h.grows.trans h'.grows⟩

/-! ## balloc and bfree -/

/-- The block `b` is marked and zeroed. -/
structure Allocated (sb : Superblock) (m m' : Mem) (b : ℕ) : Prop where
  dinode : ∀ i < sb.ninodes, readDinode sb m' i = readDinode sb m i
  inUse : ∀ c < sb.size, inUse sb m' c = (inUse sb m c || decide (c = b))
  zero : ∀ j < NINDIRECT, word m' b j = 0
  word : ∀ c j, sb.nmeta ≤ c → c ≠ b → j < NINDIRECT → word m' c j = word m c j

/-- The mark of the block `b` is cleared. -/
structure Freed (sb : Superblock) (m m' : Mem) (b : ℕ) : Prop where
  blocks : SameBlocks sb m m'
  inUse : ∀ c < sb.size, Fs.inUse sb m' c = (Fs.inUse sb m c && !decide (c = b))

/-- A data block that is not marked. -/
structure Free (sb : Superblock) (m : Mem) (b : ℕ) : Prop where
  nmeta_le : sb.nmeta ≤ b
  lt_size : b < sb.size
  not_inUse : inUse sb m b = false

theorem Free.ne_zero (h : Free sb m b) : b ≠ 0 :=
  Nat.ne_of_gt (Nat.lt_of_lt_of_le nmeta_pos h.nmeta_le)

theorem Free.lt_word (h : Free sb m b) : b < 256 ^ 4 := by
  have h₁ := h.lt_size
  have h₂ := sb.size_le
  omega

theorem Free.notMem (h : Free sb m b) : b ∉ used sb m := by
  rintro ⟨-, -, hb⟩
  rw [h.not_inUse] at hb
  cases hb

theorem allocated (h : Free sb m b) : Allocated sb m (bzero (mark sb m b) b) b where
  dinode := fun i hi =>
    ((sameMeta_bzero h.nmeta_le).dinode i hi).trans ((sameBlocks_mark h.lt_size).dinode i hi)
  inUse := fun c hc => by
    rw [(sameMeta_bzero h.nmeta_le).inUse c hc, inUse_mark]
  zero := fun j hj => word_bzero hj
  word := fun c j hc hcb hj =>
    (word_bzero_of_ne hcb hj).trans ((sameBlocks_mark h.lt_size).word c j hc hj)

theorem balloc_cases (hm : ∀ b < sb.nmeta, inUse sb m b = true) :
    balloc sb m = (0, m) ∨
      ∃ b, Free sb m b ∧ balloc sb m = (b, bzero (mark sb m b) b) := by
  unfold balloc
  cases hf : (List.range sb.size).find? fun b => !inUse sb m b with
  | none => exact .inl rfl
  | some b =>
    have hb : inUse sb m b = false := by simpa using List.find?_some hf
    have hlt := List.mem_range.1 (List.mem_of_find?_eq_some hf)
    refine .inr ⟨b, ⟨?_, hlt, hb⟩, rfl⟩
    by_contra hlow
    simp [hm b (Nat.lt_of_not_le hlow)] at hb

/-- A block that some place names can be freed. -/
theorem bfree_ok (h : b ∈ used sb m) : ∃ m', bfree sb m b = .ok m' ∧ Freed sb m m' b := by
  refine ⟨_, if_pos h.2.2, sameBlocks_clear h.2.1, fun c hc => inUse_clear⟩

theorem SameBlocks.refl : SameBlocks sb m m :=
  ⟨fun _ _ => rfl, fun _ _ _ _ => rfl⟩

theorem SameBlocks.trans (h : SameBlocks sb m m') (h' : SameBlocks sb m' m'') :
    SameBlocks sb m m'' where
  dinode := fun i hi => (h'.dinode i hi).trans (h.dinode i hi)
  word := fun b j hb hj => (h'.word b j hb hj).trans (h.word b j hb hj)

theorem Allocated.mem_used (h : Allocated sb m m' b) (hb : Free sb m b) :
    c ∈ used sb m' ↔ c = b ∨ c ∈ used sb m := by
  constructor
  · rintro ⟨h₁, h₂, h₃⟩
    rw [h.inUse c h₂, Bool.or_eq_true, decide_eq_true_eq] at h₃
    exact h₃.symm.imp id fun h₃ => ⟨h₁, h₂, h₃⟩
  · rintro (rfl | ⟨h₁, h₂, h₃⟩)
    · exact ⟨hb.nmeta_le, hb.lt_size, by simp [h.inUse c hb.lt_size]⟩
    · exact ⟨h₁, h₂, by simp [h.inUse c h₂, h₃]⟩

theorem Freed.mem_used (h : Freed sb m m' b) : c ∈ used sb m' ↔ c ≠ b ∧ c ∈ used sb m := by
  constructor
  · rintro ⟨h₁, h₂, h₃⟩
    rw [h.inUse c h₂] at h₃
    simp only [Bool.and_eq_true, Bool.not_eq_true', decide_eq_false_iff_not] at h₃
    exact ⟨h₃.2, h₁, h₂, h₃.1⟩
  · rintro ⟨hcb, h₁, h₂, h₃⟩
    exact ⟨h₁, h₂, by simp [h.inUse c h₂, h₃, hcb]⟩

/-- The blocks before the data blocks stay marked. -/
theorem Freed.meta_inUse (h : Freed sb m m' b) (hb : b ∈ used sb m)
    (hm : ∀ c < sb.nmeta, Fs.inUse sb m c = true) :
    ∀ c < sb.nmeta, Fs.inUse sb m' c = true := by
  intro c hc
  have hlt : c < sb.size := Nat.lt_of_lt_of_le hc (Nat.sub_le _ _)
  have hne : c ≠ b := Nat.ne_of_lt (Nat.lt_of_lt_of_le hc hb.1)
  rw [h.inUse c hlt, hm c hc, Bool.true_and, Bool.not_eq_true', decide_eq_false hne]

namespace Owned

/-- An indirect block is not a free block, so it stays as it is when one is allocated. -/
theorem frame_of_allocated (h : Owned sb F m) (hb : Free sb m b) (hm : Allocated sb m m' b)
    (hi : i < sb.ninodes) (ht : (F i).type ≠ 0) (s : AddrSlot) :
    (F i).slot m' s = (F i).slot m s := by
  refine slot_congr fun hd j hj => ?_
  have hc := h.ind_used hi ht hd
  refine hm.word _ j hc.1 ?_ hj
  rintro rfl
  exact hb.notMem hc

/-- `ip->addrs[k]` is set to a new block. -/
theorem setAddr (h : Owned sb (update F i d) m) (hi : i < sb.ninodes) (ht : d.type ≠ 0)
    {k : Fin (NDIRECT + 1)} (hk : d.addrs k = 0) (hb : Free sb m b)
    (hm : Allocated sb m m' b) :
    Worked sb F i d m (d.setAddr k b) m' := by
  have hself : ∀ s, d.slot m' s = d.slot m s := by
    intro s
    have hs := h.frame_of_allocated hb hm hi (by simpa using ht) s
    simpa using hs
  -- the entries of the new indirect block are zero
  have hslot : ∀ s, s ≠ .addr k → (d.setAddr k b).slot m' s = d.slot m s := by
    intro s hs
    cases s with
    | addr k' =>
      have hne : k' ≠ k := fun he => hs (he ▸ rfl)
      exact update_of_ne hne _ _
    | entry j =>
      by_cases hl : k = Fin.last NDIRECT
      · subst hl
        have hind : d.ind = 0 := hk
        have hind' : (d.setAddr (Fin.last NDIRECT) b).ind = b := by
          simp only [Dinode.ind, Dinode.setAddr, update_self]
        simp only [Dinode.slot, hind, hind', if_neg hb.ne_zero, if_pos, hm.zero j j.isLt]
      · have hind : (d.setAddr k b).ind = d.ind := update_of_ne (Ne.symm hl) _ _
        rw [← hself (.entry j)]
        simp only [Dinode.slot, hind]
  have hframe : Frame sb F i m m' := by
    refine ⟨fun i' hi' _ => hm.dinode i' hi', fun i' hi' hne ht' s => ?_⟩
    have hF : update F i d i' = F i' := update_of_ne hne _ _
    have hs := h.frame_of_allocated hb hm hi' (by rwa [hF]) s
    rwa [hF] at hs
  refine ⟨⟨?_, ?_⟩, hframe, ⟨rfl, ?_⟩⟩
  · refine h.owns.give (r := (i, .addr k)) hb.notMem ?_ ?_ ?_ fun c => hm.mem_used hb
    · refine if_neg fun hp => ?_
      simp [Dinode.slot, hk] at hp
    · have hs : (update F i (d.setAddr k b) i).slot m' (.addr k) = b := by
        simp [Dinode.slot, Dinode.setAddr]
      rw [place_of_slot hi (by simpa [Dinode.setAddr] using ht) (by rw [hs]; exact hb.ne_zero),
        hs]
    · rintro ⟨i', s⟩ hr
      by_cases hii : i' = i
      · subst hii
        have hs : s ≠ .addr k := fun he => hr (he ▸ rfl)
        refine place_congr (by simp [Dinode.setAddr]) fun _ _ => ?_
        simpa using hslot s hs
      · exact hframe.place hii
  · intro c hc
    have hc' : c < sb.size := by
      have := hb.nmeta_le
      have := hb.lt_size
      omega
    simp [hm.inUse c hc', h.meta_inUse c hc]
  · intro s hs
    refine hslot s ?_
    rintro rfl
    exact hs hk

/-- An entry of the indirect block is set to a new block. -/
theorem setEntry (h : Owned sb (update F i d) m) (hi : i < sb.ninodes) (ht : d.type ≠ 0)
    (hd : d.ind ≠ 0) (hj : j < NINDIRECT) (hw : word m d.ind j = 0) (hb : Free sb m b)
    (hm : Allocated sb m m' b) :
    Worked sb F i d m d (setWord m' d.ind j b) := by
  have hF : update F i d i = d := update_self _ _ _
  have hind := h.ind_used hi (by rwa [hF]) (by rwa [hF])
  rw [hF] at hind
  have hmeta := sameMeta_setWord (m := m') (j := j) (v := b) hind.1
  have hself : ∀ s, s ≠ .entry ⟨j, hj⟩ → d.slot (setWord m' d.ind j b) s = d.slot m s := by
    intro s hs
    cases s with
    | addr k => rfl
    | entry j' =>
      have hne : (j' : ℕ) ≠ j := fun he => hs (by congr 1; exact Fin.ext he)
      have hs := h.frame_of_allocated hb hm hi (by rwa [hF]) (.entry j')
      rw [hF] at hs
      rw [← hs]
      simp only [Dinode.slot, if_neg hd]
      exact word_setWord_of_ne hj j'.isLt (.inr hne)
  have hframe : Frame sb F i m (setWord m' d.ind j b) := by
    refine ⟨fun i' hi' _ => (hmeta.dinode i' hi').trans (hm.dinode i' hi'), ?_⟩
    intro i' hi' hne ht' s
    have hF' : update F i d i' = F i' := update_of_ne hne _ _
    have hs := h.frame_of_allocated hb hm hi' (by rwa [hF']) s
    rw [hF'] at hs
    rw [← hs]
    -- the indirect block of another inode is another block
    refine slot_congr fun hd' j' hj' => word_setWord_of_ne hj hj' (.inl fun he => ?_)
    have hp : place sb (update F i d) m (i', .addr (Fin.last NDIRECT)) = some d.ind := by
      have hs' : (update F i d i').slot m (.addr (Fin.last NDIRECT)) = d.ind := by
        rw [hF', ← he]
        rfl
      rw [place_of_slot hi' (by rwa [hF']) (by rwa [hs']), hs']
    have hr := h.ind_unique hi (by rwa [hF]) (by rwa [hF]) (by rwa [hF])
    exact hne (congrArg Prod.fst hr)
  refine ⟨⟨?_, ?_⟩, hframe, ⟨rfl, ?_⟩⟩
  · refine h.owns.give (r := (i, .entry ⟨j, hj⟩)) hb.notMem ?_ ?_ ?_ fun c => ?_
    · refine if_neg fun hp => ?_
      simp [Dinode.slot, hd, hw] at hp
    · have hs : (update F i d i).slot (setWord m' d.ind j b) (.entry ⟨j, hj⟩) = b := by
        simp only [hF, Dinode.slot, if_neg hd]
        exact word_setWord hb.lt_word
      rw [place_of_slot hi (by rwa [hF]) (by rw [hs]; exact hb.ne_zero), hs]
    · rintro ⟨i', s⟩ hr
      by_cases hii : i' = i
      · subst hii
        have hs : s ≠ .entry ⟨j, hj⟩ := fun he => hr (he ▸ rfl)
        refine place_congr rfl fun _ _ => ?_
        simpa using hself s hs
      · exact hframe.place hii
    · rw [← hm.mem_used hb]
      constructor
      · rintro ⟨h₁, h₂, h₃⟩
        exact ⟨h₁, h₂, (hmeta.inUse c h₂).symm.trans h₃⟩
      · rintro ⟨h₁, h₂, h₃⟩
        exact ⟨h₁, h₂, (hmeta.inUse c h₂).trans h₃⟩
  · intro c hc
    have hc' : c < sb.size := by
      have := hb.nmeta_le
      have := hb.lt_size
      omega
    rw [hmeta.inUse c hc', hm.inUse c hc', h.meta_inUse c hc, Bool.true_or]
  · intro s hs
    refine hself s ?_
    rintro rfl
    simp [Dinode.slot, hd, hw] at hs

/-- Bytes are written to a block of the content. -/
theorem store (h : Owned sb (update F i d) m) (hi : i < sb.ninodes) (ht : d.type ≠ 0) {bn : ℕ}
    (hb : d.blockAt m bn ≠ 0) {l : List Byte} {o : ℕ} (ho : o + l.length ≤ BSIZE) :
    Worked sb F i d m d (store m (d.blockAt m bn * BSIZE + o) l) := by
  have hF : update F i d i = d := update_self _ _ _
  obtain ⟨s, hs, hbs⟩ : ∃ s, slotAt bn = some s ∧ d.blockAt m bn = d.slot m s := by
    unfold Dinode.blockAt at hb ⊢
    cases hs : slotAt bn with
    | none => simp [hs] at hb
    | some s => exact ⟨s, rfl, rfl⟩
  rw [hbs] at hb ⊢
  have hp : place sb (update F i d) m (i, s) = some (d.slot m s) := place_self hi ht hb
  have hu := h.of_place hp
  have hmeta := sameMeta_store (m := m) (l := l) (o := o) hu.1
  -- it is not the indirect block of any inode
  have hslot : ∀ i' < sb.ninodes, (update F i d i').type ≠ 0 → ∀ s',
      (update F i d i').slot (Bytes.store m (d.slot m s * BSIZE + o) l) s' =
        (update F i d i').slot m s' := by
    intro i' hi' ht' s'
    refine slot_congr fun hd' j hj => word_store ho (fun he => ?_) hj
    have hr := h.ind_unique hi' ht' hd' (hp.trans (congrArg some he.symm))
    exact slotAt_ne_last (hs.trans (congrArg some (congrArg Prod.snd hr)))
  have hframe : Frame sb F i m (Bytes.store m (d.slot m s * BSIZE + o) l) := by
    refine ⟨fun i' hi' _ => hmeta.dinode i' hi', fun i' hi' hne ht' s' => ?_⟩
    have hF' : update F i d i' = F i' := update_of_ne hne _ _
    have hs' := hslot i' hi' (by rwa [hF']) s'
    rwa [hF'] at hs'
  refine ⟨⟨?_, ?_⟩, hframe, ⟨rfl, ?_⟩⟩
  · refine h.owns.congr (fun r => place_congr rfl fun hi' ht' => hslot r.1 hi' ht' r.2) ?_
    intro c
    constructor
    · rintro ⟨h₁, h₂, h₃⟩
      exact ⟨h₁, h₂, (hmeta.inUse c h₂).symm.trans h₃⟩
    · rintro ⟨h₁, h₂, h₃⟩
      exact ⟨h₁, h₂, (hmeta.inUse c h₂).trans h₃⟩
  · intro c hc
    rw [hmeta.inUse c (by omega), h.meta_inUse c hc]
  · intro s' _
    have hs' := hslot i hi (by rwa [hF]) s'
    rwa [hF] at hs'

end Owned

/-! ## bmap -/

section Bmap

variable (h : Owned sb (update F i d) m) (hi : i < sb.ninodes) (ht : d.type ≠ 0)
include h hi ht

theorem addrAt_spec (k : Fin (NDIRECT + 1)) :
    Worked sb F i d m (addrAt sb m d k).2.1 (addrAt sb m d k).2.2 ∧
      (addrAt sb m d k).2.1.addrs k = (addrAt sb m d k).1 := by
  unfold addrAt
  split
  · next hk =>
    rcases balloc_cases h.meta_inUse with hb | ⟨b, hfree, hb⟩
    · simp only [hb, if_true]
      exact ⟨.refl h, hk⟩
    · simp only [hb, if_neg hfree.ne_zero]
      exact ⟨h.setAddr hi ht hk hfree (allocated hfree), update_self _ _ _⟩
  · exact ⟨.refl h, rfl⟩

theorem entryAt_spec (hd : d.ind ≠ 0) (hj : j < NINDIRECT) :
    Worked sb F i d m d (entryAt sb m d.ind j).2 ∧
      ((entryAt sb m d.ind j).1 ≠ 0 →
        word (entryAt sb m d.ind j).2 d.ind j = (entryAt sb m d.ind j).1) := by
  unfold entryAt
  split
  · next hw =>
    rcases balloc_cases h.meta_inUse with hb | ⟨b, hfree, hb⟩
    · simp only [hb, if_true]
      exact ⟨.refl h, fun h0 => absurd rfl h0⟩
    · simp only [hb, if_neg hfree.ne_zero]
      exact ⟨h.setEntry hi ht hd hj hw hfree (allocated hfree),
        fun _ => word_setWord hfree.lt_word⟩
  · exact ⟨.refl h, fun _ => rfl⟩

/-- `bmap` returns the block of the content, or 0. -/
theorem bmap_spec (bn : ℕ) : Ends (· ≠ .freeingFreeBlock)
    (fun r => Worked sb F i d m r.2.1 r.2.2 ∧ (r.1 ≠ 0 → r.2.1.blockAt r.2.2 bn = r.1))
    (bmap sb m d bn) := by
  unfold bmap
  split
  · next hbn =>
    obtain ⟨hw, hk⟩ := addrAt_spec h hi ht (Fin.castSucc ⟨bn, hbn⟩)
    exact .ok ⟨hw, fun _ => (blockAt_addr hbn).trans hk⟩
  · next hbn =>
    split
    · next hbn' =>
      obtain ⟨hw, hk⟩ := addrAt_spec h hi ht (Fin.last NDIRECT)
      dsimp only
      generalize addrAt sb m d (Fin.last NDIRECT) = r at hw hk ⊢
      obtain ⟨a, d', m'⟩ := r
      obtain rfl : d'.ind = a := hk
      by_cases h0 : d'.ind = 0
      · simp only [h0, if_true]
        exact .ok ⟨hw, fun hne => absurd rfl hne⟩
      · simp only [if_neg h0]
        have ht' : d'.type ≠ 0 := by rwa [hw.grows.type_eq]
        obtain ⟨hw', hj⟩ := entryAt_spec hw.owned hi ht' h0 hbn'
        refine .ok ⟨hw.trans hw', fun hne => ?_⟩
        rw [blockAt_entry hbn hbn', if_neg h0]
        exact hj hne
    · exact .error (by simp)

end Bmap

/-- A block that is there is returned and nothing is changed. -/
theorem bmap_of_ne_zero {bn : ℕ} (hb : d.blockAt m bn ≠ 0) :
    bmap sb m d bn = .ok (d.blockAt m bn, d, m) := by
  unfold bmap
  split
  · next hbn =>
    rw [blockAt_addr hbn] at hb ⊢
    rw [addrAt, if_neg hb]
  · next hbn =>
    split
    · next hbn' =>
      rw [blockAt_entry hbn hbn'] at hb ⊢
      have hd : d.ind ≠ 0 := fun h0 => hb (if_pos h0)
      rw [if_neg hd] at hb ⊢
      have ha : addrAt sb m d (Fin.last NDIRECT) = (d.ind, d, m) := if_neg hd
      have he : entryAt sb m d.ind (bn - NDIRECT) = (word m d.ind (bn - NDIRECT), m) := if_neg hb
      simp only [ha, if_neg hd, he]
    · next hbn' => exact absurd (blockAt_of_le hbn hbn') hb

/-! ## readi and writei -/

/-- A byte below the size lies in a block that is there. -/
theorem Full.blockAt (h : Full m d) {off : ℕ} (ho : off < d.size) :
    d.blockAt m (off / BSIZE) ≠ 0 :=
  h _ (Nat.lt_of_le_of_lt (Nat.div_mul_le_self off BSIZE) ho)

theorem readLoop_spec (h : Full m d) (copyout : ℕ → Bool) {n : ℕ} (fuel : ℕ) :
    ∀ (tot off : ℕ) (data : List Byte), off + (n - tot) ≤ d.size →
      Ends (· ≠ .freeingFreeBlock) (fun r => r.copy = d ∧ r.disk = m)
        (readLoop sb copyout n fuel tot off data m d) := by
  induction fuel with
  | zero => exact fun _ _ _ _ => .ok ⟨rfl, rfl⟩
  | succ fuel ih =>
    intro tot off data hoff
    unfold readLoop
    split
    · next htot =>
      have hb : d.blockAt m (off / BSIZE) ≠ 0 := h.blockAt (by omega)
      rw [bmap_of_ne_zero hb, Except.bind]
      simp only [if_neg hb]
      split
      · exact ih _ _ _ (by omega)
      · exact .ok ⟨rfl, rfl⟩
    · exact .ok ⟨rfl, rfl⟩

/-- `readi` allocates nothing. -/
theorem readi_spec (h : Full m d) (copyout : ℕ → Bool) (off n : ℕ) :
    Ends (· ≠ .freeingFreeBlock) (fun r => r.copy = d ∧ r.disk = m)
      (readi sb m d copyout off n) := by
  unfold readi
  split
  · exact .ok ⟨rfl, rfl⟩
  · next hoff =>
    refine readLoop_spec h copyout _ _ _ _ ?_
    split <;> omega

theorem length_copyin {src : ℕ → Option Byte} {p k : ℕ} : (copyin src p k).length ≤ k := by
  induction k generalizing p with
  | zero => exact Nat.le_refl 0
  | succ k ih =>
    unfold copyin
    split
    · exact Nat.succ_le_succ ih
    · exact Nat.zero_le _

theorem writeLoop_spec {src : ℕ → Option Byte} {n : ℕ} (hi : i < sb.ninodes) (fuel : ℕ) :
    ∀ (tot off : ℕ) (m : Mem) (d : Dinode), Owned sb (update F i d) m → d.type ≠ 0 →
      (∀ k, k * BSIZE < off → d.blockAt m k ≠ 0) →
      Ends (· ≠ .freeingFreeBlock) (fun r => Worked sb F i d m r.2.2.1 r.2.2.2 ∧
        off ≤ r.2.1 ∧ r.2.1 ≤ off + (n - tot) ∧
        ∀ k, k * BSIZE < r.2.1 → r.2.2.1.blockAt r.2.2.2 k ≠ 0)
        (writeLoop sb src n fuel tot off m d) := by
  induction fuel with
  | zero => exact fun _ _ _ _ h _ hb => .ok ⟨.refl h, le_refl _, Nat.le_add_right _ _, hb⟩
  | succ fuel ih =>
    intro tot off m d h ht hb
    unfold writeLoop
    split
    · next htot =>
      refine (bmap_spec h hi ht (off / BSIZE)).bind ?_
      rintro ⟨a, d', m'⟩ ⟨hw, ha⟩
      dsimp only at hw ha ⊢
      have hb' : ∀ k, k * BSIZE < off → d'.blockAt m' k ≠ 0 := by
        intro k hk
        rw [hw.grows.blockAt (hb k hk)]
        exact hb k hk
      have ht' : d'.type ≠ 0 := by rwa [hw.grows.type_eq]
      split
      · exact .ok ⟨hw, le_refl _, Nat.le_add_right _ _, hb'⟩
      · next ha0 =>
        obtain rfl := ha ha0
        have hmod : off % BSIZE < BSIZE := Nat.mod_lt _ (by decide)
        have hlen : (copyin src tot (min (n - tot) (BSIZE - off % BSIZE))).length ≤
            min (n - tot) (BSIZE - off % BSIZE) := length_copyin
        have hs := hw.owned.store hi ht' ha0 (l := copyin src tot
          (min (n - tot) (BSIZE - off % BSIZE))) (o := off % BSIZE) (by omega)
        have hb'' : ∀ k, d'.blockAt m' k ≠ 0 → d'.blockAt (store m' (d'.blockAt m' (off / BSIZE) *
            BSIZE + off % BSIZE) (copyin src tot (min (n - tot) (BSIZE - off % BSIZE)))) k ≠ 0 := by
          intro k hk
          rw [hs.grows.blockAt hk]
          exact hk
        split
        · refine (ih _ _ _ _ hs.owned ht' ?_).mono ?_
          · -- the bytes up to the new offset are in the blocks before, or in this one
            intro k hk
            refine hb'' k ?_
            have hdiv := Nat.div_add_mod off BSIZE
            by_cases hko : k * BSIZE < off
            · exact hb' k hko
            · obtain rfl : k = off / BSIZE := by
                simp only [BSIZE] at *
                omega
              exact ha0
          · rintro ⟨tot', off', d'', m''⟩ ⟨hw', hle, hle', hall⟩
            exact ⟨(hw.trans hs).trans hw', by omega, by omega, hall⟩
        · exact .ok ⟨hw.trans hs, le_refl _, Nat.le_add_right _ _, fun k hk => hb'' k (hb' k hk)⟩
    · exact .ok ⟨.refl h, le_refl _, Nat.le_add_right _ _, hb⟩

/-! ## iupdate -/

namespace Owned

theorem slot_of_words (h : Owned sb F m)
    (hw : ∀ b j, sb.nmeta ≤ b → j < NINDIRECT → word m' b j = word m b j) {i : ℕ}
    (hi : i < sb.ninodes) (ht : (F i).type ≠ 0) (s : AddrSlot) : (F i).slot m' s = (F i).slot m s :=
  slot_congr fun hd j hj => hw _ j (h.ind_used hi ht hd).1 hj

/-- The inodes on the disk are not what `Owned` is about. -/
theorem rest (h : Owned sb F m) (hm : SameRest sb i m m') : Owned sb F m' where
  owns := by
    refine h.owns.congr
      (fun r => place_congr rfl fun hi ht => h.slot_of_words hm.word hi ht r.2) fun b => ?_
    constructor
    · rintro ⟨h₁, h₂, h₃⟩
      exact ⟨h₁, h₂, (hm.inUse b h₂).symm.trans h₃⟩
    · rintro ⟨h₁, h₂, h₃⟩
      exact ⟨h₁, h₂, (hm.inUse b h₂).trans h₃⟩
  meta_inUse := by
    intro b hb
    have hlt : b < sb.size := Nat.lt_of_lt_of_le hb (Nat.sub_le _ _)
    rw [hm.inUse b hlt, h.meta_inUse b hb]

theorem frame_rest (h : Owned sb (update F i d) m) (hm : SameRest sb i m m') :
    Frame sb F i m m' where
  dinode := fun i' hi' hne => hm.dinode i' hi' hne
  slot := by
    intro i' hi' hne ht s
    have hF : update F i d i' = F i' := update_of_ne hne _ _
    have hs := h.slot_of_words hm.word hi' (by rwa [hF]) s
    rwa [hF] at hs

/-- Block numbers fit in the fields for them. -/
theorem addrs_lt (h : Owned sb (update F i d) m) (hi : i < sb.ninodes) (ht : d.type ≠ 0)
    (k : Fin (NDIRECT + 1)) : d.addrs k < 256 ^ 4 := by
  by_cases hk : d.addrs k = 0
  · rw [hk]
    exact Nat.pow_pos (by decide)
  · have hp := h.of_place (place_self (s := .addr k) hi ht hk)
    have hlt : d.addrs k < sb.size := hp.2.1
    have := sb.size_le
    omega

end Owned

/-- What a call on the inode `i` leaves, with the inode on the disk as in memory. -/
structure Settled (sb : Superblock) (F : ℕ → Dinode) (i : ℕ) (m : Mem) (d' : Dinode)
    (m' : Mem) : Prop where
  owned : Owned sb (update F i d') m'
  frame : Frame sb F i m m'
  full : Full m' d'
  synced : readDinode sb m' i = d'

/-- `iupdate` of a copy with all its blocks. -/
theorem settled_iupdate (h : Owned sb (update F i d') m') (hi : i < sb.ninodes)
    (hframe : Frame sb F i m m') (ht : d'.type ≠ 0) (hfit : d'.Fits) (hfull : Full m' d') :
    Settled sb F i m d' (iupdate sb m' d' i) := by
  have hm := sameRest_iupdate (m := m') (d := d') hi
  refine ⟨h.rest hm, hframe.trans (h.frame_rest hm), ?_, readDinode_iupdate hfit⟩
  have hF : update F i d' i = d' := update_self _ _ _
  have hslot : ∀ s, d'.slot (iupdate sb m' d' i) s = d'.slot m' s := by
    intro s
    have hs := h.slot_of_words hm.word hi (by rwa [hF]) s
    rwa [hF] at hs
  intro k hk
  have heq : d'.slot (iupdate sb m' d' i) = d'.slot m' := funext hslot
  rw [Dinode.blockAt, heq]
  exact hfull k hk

theorem writei_spec {src : ℕ → Option Byte} {off n : ℕ} (h : Owned sb (update F i d) m)
    (hi : i < sb.ninodes) (ht : d.type ≠ 0) (hs : readDinode sb m i = d) (hfull : Full m d)
    (hoff : off < 2 ^ 32) (hn : n < 2 ^ 32) :
    Ends (· ≠ .freeingFreeBlock)
      (fun r => Settled sb F i m r.2.1 r.2.2 ∧ r.2.1.type = d.type)
      (writei sb m d i src off n) := by
  have hstay : Settled sb F i m d m := ⟨h, .refl, hfull, hs⟩
  unfold writei
  split
  · exact .ok ⟨hstay, rfl⟩
  · next hle =>
    split
    · exact .ok ⟨hstay, rfl⟩
    · next hmax =>
      refine (writeLoop_spec hi n 0 off m d h ht fun k hk => hfull k (by omega)).bind ?_
      rintro ⟨tot, off', d', m'⟩ ⟨hw, hle₁, hle₂, hall⟩
      dsimp only at hw hle₁ hle₂ hall ⊢
      have hfit : d.Fits := hs ▸ readDinode_fits
      have ht' : d'.type ≠ 0 := by rwa [hw.grows.type_eq]
      have hsize := hw.grows.size_eq
      have hfit' : d'.Fits := by
        have haddrs := hw.owned.addrs_lt hi ht'
        rw [hw.grows.copy] at haddrs ⊢
        exact ⟨hfit.type_lt, hfit.major_lt, hfit.minor_lt, hfit.nlink_lt, hfit.size_lt, haddrs⟩
      have hoff' : off' < 256 ^ 4 := by
        simp only [MAXFILE, NDIRECT, NINDIRECT, BSIZE] at hmax
        omega
      have hold : ∀ k, k * BSIZE < d.size → d'.blockAt m' k ≠ 0 := by
        intro k hk
        rw [hw.grows.blockAt (hfull k hk)]
        exact hfull k hk
      split
      · -- the file has grown up to `off'`
        refine .ok ⟨settled_iupdate ?_ hi hw.frame ht' ?_ ?_, hw.grows.type_eq⟩
        · exact hw.owned.congr_copy rfl rfl
        · exact ⟨hfit'.type_lt, hfit'.major_lt, hfit'.minor_lt, hfit'.nlink_lt, hoff',
            hfit'.addrs_lt⟩
        · intro k hk
          exact (blockAt_addrs rfl k).trans_ne (hall k hk)
      · refine .ok ⟨settled_iupdate hw.owned hi hw.frame ht' hfit' ?_, hw.grows.type_eq⟩
        intro k hk
        exact hold k (hsize ▸ hk)

/-! ## itrunc -/

namespace Owned

/-- The block of `ip->addrs[k]` is freed. -/
theorem clearAddr (h : Owned sb (update F i d) m) (hi : i < sb.ninodes) (ht : d.type ≠ 0)
    {k : Fin (NDIRECT + 1)} (hk : k ≠ Fin.last NDIRECT) (hd : d.addrs k ≠ 0)
    (hm : Freed sb m m' (d.addrs k)) : Owned sb (update F i (d.setAddr k 0)) m' := by
  have hF : update F i d i = d := update_self _ _ _
  have hr : place sb (update F i d) m (i, .addr k) = some (d.addrs k) := place_self hi ht hd
  have hb := h.of_place hr
  refine ⟨h.owns.take hr ?_ ?_ fun c => hm.mem_used, hm.meta_inUse hb h.meta_inUse⟩
  · refine if_neg fun hp => ?_
    simp [Dinode.slot, Dinode.setAddr] at hp
  · rintro ⟨i', s⟩ hq
    have hslot := fun ht' (hi' : i' < sb.ninodes) => h.slot_of_words hm.blocks.word hi' ht' s
    by_cases hii : i' = i
    · subst hii
      rw [hF] at hslot
      refine place_congr (by simp [Dinode.setAddr]) fun hi' ht' => ?_
      simp only [update_self] at ht' ⊢
      rw [← hslot ht' hi']
      have hind : (d.setAddr k 0).ind = d.ind := update_of_ne hk.symm 0 d.addrs
      cases s with
      | addr k' =>
        have hne : k' ≠ k := fun he => hq (he ▸ rfl)
        exact update_of_ne hne 0 d.addrs
      | entry j => simp only [Dinode.slot, hind]
    · refine place_congr (by simp [hii]) fun hi' ht' => ?_
      have hs := hslot ht' hi'
      simpa [update_of_ne hii] using hs

end Owned

theorem freeAddrs_spec (hi : i < sb.ninodes) (ks : List (Fin (NDIRECT + 1))) :
    ∀ (m : Mem) (d : Dinode), Owned sb (update F i d) m → d.type ≠ 0 →
      Fin.last NDIRECT ∉ ks →
      Ends (· ≠ .freeingFreeBlock) (fun r => Owned sb (update F i r.1) r.2 ∧
        SameBlocks sb m r.2 ∧
        r.1 = { d with addrs := fun k => if k ∈ ks then 0 else d.addrs k })
        (freeAddrs sb ks m d) := by
  induction ks with
  | nil => exact fun m d h _ _ => .ok ⟨h, .refl, by simp⟩
  | cons k ks ih =>
    intro m d h ht hl
    obtain ⟨hk, hl⟩ := not_or.1 (mt List.mem_cons.2 hl)
    unfold freeAddrs
    split
    · next hd =>
      refine (ih m d h ht hl).mono ?_
      rintro ⟨d', m'⟩ ⟨ho, hm, hd'⟩
      refine ⟨ho, hm, hd'.trans ?_⟩
      congr 1
      funext k'
      by_cases he : k' = k <;> simp [he, hd]
    · next hd =>
      have hp : place sb (update F i d) m (i, .addr k) = some (d.addrs k) :=
        place_self hi ht hd
      obtain ⟨m', hm', hfree⟩ := bfree_ok (h.of_place hp)
      rw [hm', Except.bind]
      refine (ih m' _ (h.clearAddr hi ht (Ne.symm hk) hd hfree) ht hl).mono ?_
      rintro ⟨d', m''⟩ ⟨ho, hm, hd'⟩
      refine ⟨ho, hfree.blocks.trans hm, hd'.trans ?_⟩
      simp only [Dinode.setAddr]
      congr 1
      funext k'
      by_cases he : k' = k <;> simp [he]

/-- The entries of the indirect block of `i` that are not in `js` have lost their blocks. -/
def hideEntries (sb : Superblock) (F : ℕ → Dinode) (m : Mem) (i : ℕ) (js : List ℕ)
    (r : ℕ × AddrSlot) : Option ℕ :=
  match r.2 with
  | .addr _ => place sb F m r
  | .entry j => if r.1 = i ∧ (j : ℕ) ∉ js then none else place sb F m r

theorem freeEntries_spec (hi : i < sb.ninodes) (ht : d.type ≠ 0) (hd : d.ind ≠ 0)
    (js : List ℕ) :
    ∀ m, Owns (hideEntries sb (update F i d) m i js) (used sb m) →
      (∀ b < sb.nmeta, inUse sb m b = true) →
      (∀ i' < sb.ninodes, (update F i d i').type ≠ 0 → (update F i d i').ind ≠ 0 →
        sb.nmeta ≤ (update F i d i').ind) →
      (∀ j ∈ js, j < NINDIRECT) → js.Nodup →
      Ends (· ≠ .freeingFreeBlock) (fun m' => SameBlocks sb m m' ∧
        Owns (hideEntries sb (update F i d) m' i []) (used sb m') ∧
        ∀ b < sb.nmeta, inUse sb m' b = true)
        (freeEntries sb d.ind js m) := by
  have hF : update F i d i = d := update_self _ _ _
  induction js with
  | nil => exact fun m h hm _ _ _ => .ok ⟨.refl, h, hm⟩
  | cons j js ih =>
    intro m h hmeta hind hlt hnd
    obtain ⟨hj, hnd⟩ := List.nodup_cons.1 hnd
    have hlt' : ∀ j' ∈ js, j' < NINDIRECT := fun j' hj' => hlt j' (List.mem_cons_of_mem j hj')
    have hjn : j < NINDIRECT := hlt j List.mem_cons_self
    have hslot : d.slot m (.entry ⟨j, hjn⟩) = word m d.ind j := by
      simp only [Dinode.slot, if_neg hd]
    -- hiding the entry `j` too changes only this place
    have hother : ∀ (m : Mem) (q : ℕ × AddrSlot), q ≠ (i, .entry ⟨j, hjn⟩) →
        hideEntries sb (update F i d) m i js q =
          hideEntries sb (update F i d) m i (j :: js) q := by
      rintro m ⟨i', s⟩ hq
      cases s with
      | addr k => rfl
      | entry j' =>
        have hiff : (i' = i ∧ (j' : ℕ) ∉ js) ↔ (i' = i ∧ (j' : ℕ) ∉ j :: js) := by
          refine and_congr_right fun hii => ?_
          have hne : (j' : ℕ) ≠ j := fun he => hq (by subst hii he; rfl)
          rw [List.mem_cons, or_iff_right hne]
        simp only [hideEntries, hiff]
    have hnone : ∀ m : Mem,
        hideEntries sb (update F i d) m i js (i, .entry ⟨j, hjn⟩) = none :=
      fun m => if_pos ⟨rfl, hj⟩
    have hshow : hideEntries sb (update F i d) m i (j :: js) (i, .entry ⟨j, hjn⟩) =
        place sb (update F i d) m (i, .entry ⟨j, hjn⟩) :=
      if_neg fun hp => hp.2 List.mem_cons_self
    unfold freeEntries
    split
    · next hw =>
      refine ih m (h.congr (fun q => ?_) fun b => Iff.rfl) hmeta hind hlt' hnd
      by_cases hq : q = (i, .entry ⟨j, hjn⟩)
      · rw [hq, hnone, hshow]
        refine (if_neg fun hp => hp.2.2 ?_).symm
        rw [hF]
        exact hslot.trans hw
      · exact hother m q hq
    · next hw =>
      have hp : hideEntries sb (update F i d) m i (j :: js) (i, .entry ⟨j, hjn⟩) =
          some (word m d.ind j) := by
        rw [hshow, place_self hi ht (hslot.trans_ne hw), hslot]
      have hb := h.mem_used _ _ hp
      obtain ⟨m', hm', hfree⟩ := bfree_ok hb
      have hwords : ∀ q, hideEntries sb (update F i d) m' i js q =
          hideEntries sb (update F i d) m i js q := by
        intro q
        have hpl : place sb (update F i d) m' q = place sb (update F i d) m q :=
          place_congr rfl fun hi' ht' => slot_congr fun hd' j' hj' =>
            hfree.blocks.word _ j' (hind _ hi' ht' hd') hj'
        unfold hideEntries
        rw [hpl]
      rw [hm', Except.bind]
      refine (ih m' (h.take hp ?_ ?_ fun c => hfree.mem_used) (hfree.meta_inUse hb hmeta) hind
        hlt' hnd).mono ?_
      · rw [hwords, hnone]
      · exact fun q hq => (hwords q).trans (hother m q hq)
      · rintro m'' ⟨hs, ho, hm⟩
        exact ⟨hfree.blocks.trans hs, ho, hm⟩

theorem freeIndirect_spec (h : Owned sb (update F i d) m) (hi : i < sb.ninodes)
    (ht : d.type ≠ 0) : Ends (· ≠ .freeingFreeBlock)
      (fun r => Owned sb (update F i r.1) r.2 ∧ SameBlocks sb m r.2 ∧
        r.1 = d.setAddr (Fin.last NDIRECT) 0)
      (freeIndirect sb m d) := by
  have hF : update F i d i = d := update_self _ _ _
  unfold freeIndirect
  split
  · next hd =>
    refine .ok ⟨h, .refl, ?_⟩
    rw [Dinode.setAddr, ← hd, update_eq_self]
  · next hd =>
    have hstart : Owns (hideEntries sb (update F i d) m i (List.range NINDIRECT))
        (used sb m) := by
      refine h.owns.congr (fun r => ?_) fun b => Iff.rfl
      unfold hideEntries
      split
      · rfl
      · next j _ => exact if_neg fun hp => hp.2 (List.mem_range.2 j.isLt)
    have hind : ∀ i' < sb.ninodes, (update F i d i').type ≠ 0 → (update F i d i').ind ≠ 0 →
        sb.nmeta ≤ (update F i d i').ind :=
      fun i' hi' ht' hd' => (h.ind_used hi' ht' hd').1
    refine (freeEntries_spec hi ht hd _ m hstart h.meta_inUse hind
      (fun j hj => List.mem_range.1 hj) List.nodup_range).bind ?_
    rintro m₁ ⟨hs, ho, hmeta⟩
    have hp : hideEntries sb (update F i d) m₁ i [] (i, .addr (Fin.last NDIRECT)) =
        some d.ind := place_self (s := .addr (Fin.last NDIRECT)) hi ht hd
    have hb := ho.mem_used _ _ hp
    obtain ⟨m₂, hm₂, hfree⟩ := bfree_ok hb
    rw [show d.addrs (Fin.last NDIRECT) = d.ind from rfl, hm₂, Except.bind]
    refine .ok ⟨⟨?_, hfree.meta_inUse hb hmeta⟩, hs.trans hfree.blocks, rfl⟩
    have hind0 : (d.setAddr (Fin.last NDIRECT) 0).ind = 0 := by
      simp only [Dinode.ind, Dinode.setAddr, update_self]
    refine ho.take hp ?_ ?_ fun c => hfree.mem_used
    · refine if_neg fun hq => ?_
      simp [Dinode.slot, Dinode.setAddr] at hq
    · rintro ⟨i', s⟩ hq
      by_cases hii : i' = i
      · subst hii
        cases s with
        | addr k =>
          have hne : k ≠ Fin.last NDIRECT := fun he => hq (he ▸ rfl)
          refine place_congr (by simp [Dinode.setAddr]) fun _ _ => ?_
          simp only [update_self]
          exact update_of_ne hne 0 d.addrs
        | entry j =>
          refine (if_neg fun hp' => ?_).trans (if_pos ⟨rfl, List.not_mem_nil⟩).symm
          simp [Dinode.slot, hind0] at hp'
      · -- another inode, whose indirect block is not touched
        have hshow : hideEntries sb (update F i d) m₁ i [] (i', s) =
            place sb (update F i d) m₁ (i', s) := by
          cases s with
          | addr k => rfl
          | entry j => exact if_neg fun hp' => hii hp'.1
        rw [hshow]
        refine place_congr (by simp [hii]) fun hi' ht' => ?_
        have hF' : update F i (d.setAddr (Fin.last NDIRECT) 0) i' = update F i d i' := by
          simp [hii]
        rw [hF']
        exact slot_congr fun hd' j hj => hfree.blocks.word _ j (hind i' hi' ht' hd') hj

/-- `itrunc` frees the blocks of the inode. -/
theorem itrunc_spec (h : Owned sb (update F i d) m) (hi : i < sb.ninodes) (ht : d.type ≠ 0)
    (hfit : d.Fits) : Ends (· ≠ .freeingFreeBlock)
      (fun r => Settled sb F i m r.1 r.2 ∧ r.1 = { d with size := 0, addrs := fun _ => 0 })
      (itrunc sb m d i) := by
  have hks : Fin.last NDIRECT ∉ (List.finRange NDIRECT).map Fin.castSucc := by
    intro hl
    obtain ⟨k, -, hk⟩ := List.mem_map.1 hl
    exact absurd hk (Fin.castSucc_lt_last k).ne
  refine (freeAddrs_spec hi _ m d h ht hks).bind ?_
  rintro ⟨d₁, m₁⟩ ⟨h₁, hs₁, hd₁⟩
  dsimp only at h₁ hs₁ hd₁ ⊢
  have ht₁ : d₁.type = d.type := by rw [hd₁]
  refine (freeIndirect_spec h₁ hi (by rwa [ht₁])).bind ?_
  rintro ⟨d₂, m₂⟩ ⟨h₂, hs₂, hd₂⟩
  dsimp only at h₂ hs₂ hd₂ ⊢
  have hd : { d₂ with size := 0 } = { d with size := 0, addrs := fun _ => 0 } := by
    have haddrs : d₂.addrs = fun _ => 0 := by
      funext k
      rw [hd₂, hd₁]
      by_cases hk : k = Fin.last NDIRECT
      · simp [Dinode.setAddr, hk]
      · obtain ⟨k', rfl⟩ := Fin.exists_castSucc_eq.2 hk
        simp [Dinode.setAddr]
    rw [haddrs, hd₂, hd₁]
    rfl
  have hframe : Frame sb F i m m₂ := by
    have hs := hs₁.trans hs₂
    refine ⟨fun i' hi' _ => hs.dinode i' hi', fun i' hi' hne ht' s => ?_⟩
    have hF' : update F i d i' = F i' := update_of_ne hne _ _
    have hslot := h.slot_of_words hs.word hi' (by rwa [hF']) s
    rwa [hF'] at hslot
  have ht₂ : d₂.type = d.type := by rw [hd₂, ← ht₁]; rfl
  refine .ok ⟨settled_iupdate (h₂.congr_copy rfl rfl) hi hframe ?_ ?_ ?_, hd⟩
  · exact ht₂ ▸ ht
  · rw [hd]
    exact ⟨hfit.type_lt, hfit.major_lt, hfit.minor_lt, hfit.nlink_lt, Nat.pow_pos (by decide),
      fun _ => Nat.pow_pos (by decide)⟩
  · exact fun k hk => absurd hk (Nat.not_lt_zero _)

end Fs

end CowPbs
