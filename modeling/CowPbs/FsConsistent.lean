import Mathlib
import CowPbs.FsBlocks

/-!
# The file system stays consistent

The calls of `fs.c` one after another, on a consistent disk. Between calls the inode on the
disk is the one in memory for each inode that is locked or could be (`FsInv`), and the disk is
consistent again : a data block is marked if and only if one place of one allocated inode names
it, and no file has a hole. A write that stops early may leave blocks behind the end of the
file. They are in the inode, so a later write uses them, or `itrunc` frees them.
-/

open Bytes Function Outcome Ownership Transition

namespace CowPbs

namespace Fs

variable {sb : Superblock} {n : ℕ} {s t : Fs n} {F : ℕ → Dinode} {d d' : Dinode}
  {m m' : Mem} {i : ℕ} {ip jp : Fin n}

/-! ## Directories -/

theorem Full.size_le (h : Full m d) : d.size ≤ MAXFILE * BSIZE := by
  by_contra hlt
  refine h MAXFILE (Nat.lt_of_not_le hlt) (blockAt_of_le ?_ ?_) <;>
    simp [MAXFILE, NDIRECT, NINDIRECT]

/-- `dirlookup` changes nothing. -/
theorem lookupLoop_spec (h : Full m d) (name : List Byte) (offs : List ℕ) :
    Ends (· ≠ .freeingFreeBlock) (fun r => r.2.1 = d ∧ r.2.2 = m)
      (lookupLoop sb name offs m d) := by
  induction offs with
  | nil => exact .ok ⟨rfl, rfl⟩
  | cons off offs ih =>
    unfold lookupLoop
    refine (readi_spec h _ off DIRENT).bind ?_
    rintro ⟨tot, data, d', m'⟩ ⟨hd, hm⟩
    obtain rfl : d' = d := hd
    obtain rfl : m' = m := hm
    dsimp only
    split
    · exact .error (by simp)
    · split
      · exact .ok ⟨rfl, rfl⟩
      · exact ih

theorem dirlookup_spec (h : Full m d) (name : List Byte) :
    Ends (· ≠ .freeingFreeBlock) (fun r => r.2.1 = d ∧ r.2.2 = m)
      (dirlookup sb m d name) := by
  unfold dirlookup
  split
  · exact .error (by simp)
  · exact lookupLoop_spec h name _

theorem emptyLoop_spec (h : Full m d) {last B : ℕ} (offs : List ℕ) (hlast : last ≤ B)
    (hoffs : ∀ off ∈ offs, off ≤ B) :
    Ends (· ≠ .freeingFreeBlock) (fun r => r.1 ≤ B ∧ r.2.1 = d ∧ r.2.2 = m)
      (emptyLoop sb last offs m d) := by
  induction offs with
  | nil => exact .ok ⟨hlast, rfl, rfl⟩
  | cons off offs ih =>
    unfold emptyLoop
    refine (readi_spec h _ off DIRENT).bind ?_
    rintro ⟨tot, data, d', m'⟩ ⟨hd, hm⟩
    obtain rfl : d' = d := hd
    obtain rfl : m' = m := hm
    dsimp only
    split
    · exact .error (by simp)
    · split
      · exact .ok ⟨hoffs off List.mem_cons_self, rfl, rfl⟩
      · exact ih fun o ho => hoffs o (List.mem_cons_of_mem off ho)

theorem addEntry_spec (h : Owned sb (update F i d) m) (hi : i < sb.ninodes) (ht : d.type ≠ 0)
    (hs : readDinode sb m i = d) (hfull : Full m d) (name : List Byte) (inum : ℕ) :
    Ends (· ≠ .freeingFreeBlock)
      (fun r => Settled sb F i m r.2.1 r.2.2 ∧ r.2.1.type = d.type)
      (addEntry sb m d i name inum) := by
  have hsize := hfull.size_le
  simp only [MAXFILE, NDIRECT, NINDIRECT, BSIZE] at hsize
  have hlen : (offsets d.size).length * DIRENT ≤ d.size + DIRENT := by
    simp only [offsets, List.length_map, List.length_range, DIRENT]
    omega
  have hoffs : ∀ off ∈ offsets d.size, off ≤ d.size + DIRENT := by
    intro off ho
    obtain ⟨k, hk, rfl⟩ := List.mem_map.1 ho
    have := List.mem_range.1 hk
    simp only [DIRENT] at *
    omega
  unfold addEntry
  refine (emptyLoop_spec hfull _ hlen hoffs).bind ?_
  rintro ⟨off, d', m'⟩ ⟨hoff, hd, hm⟩
  obtain rfl : d' = d := hd
  obtain rfl : m' = m := hm
  have hlt : off < 2 ^ 32 := by
    simp only [DIRENT] at hoff
    omega
  exact (writei_spec h hi ht hs hfull hlt (by decide)).bind fun r hr => .ok hr

/-! ## Between calls -/

/-- A consistent disk. -/
structure Consistent (sb : Superblock) (m : Mem) : Prop where
  owned : Owned sb (readDinode sb m) m
  full : ∀ i < sb.ninodes, (readDinode sb m i).type ≠ 0 → Full m (readDinode sb m i)

/-- The disk is consistent, and the inodes in memory are those on the disk. -/
structure FsInv (sb : Superblock) (s : Fs n) : Prop where
  image : Consistent sb s.disk
  unique : ∀ ip jp, 0 < (s.itable ip).ref → 0 < (s.itable jp).ref →
    (s.itable ip).inum = (s.itable jp).inum → ip = jp
  inum_lt : ∀ ip, s.Locked ip → (s.itable ip).inum < sb.ninodes
  synced : ∀ ip, s.Locked ip → readDinode sb s.disk (s.itable ip).inum = (s.itable ip).copy
  type_ne : ∀ ip, s.Locked ip → (s.itable ip).copy.type ≠ 0

/-- The disk after a call on one inode. -/
theorem Settled.consistent (h : Settled sb (readDinode sb m) i m d' m')
    (hm : Consistent sb m) : Consistent sb m' := by
  have hF : ∀ i' < sb.ninodes, readDinode sb m' i' = update (readDinode sb m) i d' i' := by
    intro i' hi'
    by_cases hii : i' = i
    · rw [hii, h.synced, update_self]
    · rw [h.frame.dinode i' hi' hii, update_of_ne hii]
  refine ⟨h.owned.congr_inodes hF, fun i' hi' ht => ?_⟩
  by_cases hii : i' = i
  · rw [hii, h.synced]
    exact h.full
  · rw [h.frame.dinode i' hi' hii] at ht ⊢
    have hslot := h.frame.slot i' hi' hii ht
    have hblock : ∀ k, (readDinode sb m i').blockAt m' k = (readDinode sb m i').blockAt m k := by
      intro k
      have heq : (readDinode sb m i').slot m' = (readDinode sb m i').slot m := funext hslot
      rw [Dinode.blockAt, Dinode.blockAt, heq]
    exact fun k hk => (hblock k).trans_ne (hm.full i' hi' ht k hk)

/-- An inode without blocks gets another type or goes. -/
theorem Owned.congr_empty (h : Owned sb (update F i d) m) (hd : ∀ s, d.type ≠ 0 → d.slot m s = 0)
    (hd' : ∀ s, d'.slot m s = 0) : Owned sb (update F i d') m where
  owns := by
    refine h.owns.congr (fun r => ?_) fun b => Iff.rfl
    by_cases hr : r.1 = i
    · have hp : place sb (update F i d) m r = none := by
        refine if_neg fun hp => ?_
        simp only [hr, update_self] at hp
        exact hp.2.2 (hd r.2 hp.2.1)
      have hp' : place sb (update F i d') m r = none := by
        refine if_neg fun hp' => ?_
        simp only [hr, update_self] at hp'
        exact hp'.2.2 (hd' r.2)
      rw [hp, hp']
    · exact Frame.place .refl hr
  meta_inUse := h.meta_inUse

theorem slot_of_zero (h : d.addrs = fun _ => 0) (s : AddrSlot) : d.slot m s = 0 := by
  have hind : d.ind = 0 := congrFun h _
  cases s with
  | addr k => exact congrFun h k
  | entry j => exact if_pos hind

namespace FsInv

theorem owned_self (h : FsInv sb s) (hl : s.Locked ip) :
    Owned sb (update (readDinode sb s.disk) (s.itable ip).inum (s.itable ip).copy) s.disk := by
  rw [← h.synced ip hl, update_eq_self]
  exact h.image.owned

theorem full_self (h : FsInv sb s) (hl : s.Locked ip) : Full s.disk (s.itable ip).copy := by
  have hfull := h.image.full _ (h.inum_lt ip hl)
  rw [h.synced ip hl] at hfull
  exact hfull (h.type_ne ip hl)

theorem fits (h : FsInv sb s) (hl : s.Locked ip) : (s.itable ip).copy.Fits :=
  h.synced ip hl ▸ readDinode_fits

/-- Another locked inode has another number. -/
theorem inum_ne (h : FsInv sb s) (hl : s.Locked ip) (hl' : s.Locked jp) (hne : jp ≠ ip) :
    (s.itable jp).inum ≠ (s.itable ip).inum :=
  fun he => hne (h.unique jp ip hl'.1 hl.1 he)

/-- The entry `ip` becomes `x` and the disk `m'`, which keeps the other locked inodes. -/
theorem change (h : FsInv sb s) {x : Inode} (hm : Consistent sb m')
    (hdisk : ∀ jp, jp ≠ ip → s.Locked jp →
      readDinode sb m' (s.itable jp).inum = readDinode sb s.disk (s.itable jp).inum)
    (hnum : 0 < x.ref → ∀ jp, jp ≠ ip → 0 < (s.itable jp).ref → (s.itable jp).inum ≠ x.inum)
    (hx : 0 < x.ref → x.valid = true →
      x.inum < sb.ninodes ∧ readDinode sb m' x.inum = x.copy ∧ x.copy.type ≠ 0) :
    FsInv sb ⟨m', update s.itable ip x⟩ := by
  have hself : update s.itable ip x ip = x := update_self _ _ _
  have hother : ∀ jp, jp ≠ ip → update s.itable ip x jp = s.itable jp :=
    fun jp hj => update_of_ne hj _ _
  have hlock : ∀ jp, jp ≠ ip → (⟨m', update s.itable ip x⟩ : Fs n).Locked jp → s.Locked jp :=
    fun jp hj hl => ⟨hother jp hj ▸ hl.1, hother jp hj ▸ hl.2⟩
  have hlock' : (⟨m', update s.itable ip x⟩ : Fs n).Locked ip → 0 < x.ref ∧ x.valid = true := by
    rintro ⟨h₁, h₂⟩
    exact ⟨hself ▸ h₁, hself ▸ h₂⟩
  refine ⟨hm, fun jp kp hj hk he => ?_, fun jp hl => ?_, fun jp hl => ?_, fun jp hl => ?_⟩
  · dsimp only at hj hk he
    by_cases hji : jp = ip
    · by_cases hki : kp = ip
      · rw [hji, hki]
      · rw [hji, hself] at he hj
        rw [hother kp hki] at he hk
        exact absurd he.symm (hnum hj kp hki hk)
    · by_cases hki : kp = ip
      · rw [hki, hself] at he hk
        rw [hother jp hji] at he hj
        exact absurd he (hnum hk jp hji hj)
      · rw [hother jp hji] at hj he
        rw [hother kp hki] at hk he
        exact h.unique jp kp hj hk he
  · by_cases hji : jp = ip
    · subst hji
      obtain ⟨hr, hv⟩ := hlock' hl
      simpa only [hself] using (hx hr hv).1
    · simpa only [hother jp hji] using h.inum_lt jp (hlock jp hji hl)
  · by_cases hji : jp = ip
    · subst hji
      obtain ⟨hr, hv⟩ := hlock' hl
      simpa only [hself] using (hx hr hv).2.1
    · have hlj := hlock jp hji hl
      simpa only [hother jp hji] using (hdisk jp hji hlj).trans (h.synced jp hlj)
  · by_cases hji : jp = ip
    · subst hji
      obtain ⟨hr, hv⟩ := hlock' hl
      simpa only [hself] using (hx hr hv).2.2
    · simpa only [hother jp hji] using h.type_ne jp (hlock jp hji hl)

/-- A change of reference counts, which brings no inode back. -/
theorem setRef (h : FsInv sb s) {r : ℕ} (hr : 0 < r → 0 < (s.itable ip).ref) :
    FsInv sb (s.set ip { s.itable ip with ref := r }) := by
  refine h.change h.image (fun _ _ _ => rfl) (fun hpos jp hne hj he => ?_) fun hpos hv => ?_
  · exact hne (h.unique jp ip hj (hr hpos) he)
  · have hl : s.Locked ip := ⟨hr hpos, hv⟩
    exact ⟨h.inum_lt ip hl, h.synced ip hl, h.type_ne ip hl⟩

/-- A call on the locked inode `ip` that leaves it allocated. -/
theorem setCopy (h : FsInv sb s) (hl : s.Locked ip)
    (hd : Settled sb (readDinode sb s.disk) (s.itable ip).inum s.disk d' m') (ht : d'.type ≠ 0) :
    FsInv sb (s.setCopy ip d' m') := by
  refine h.change (hd.consistent h.image) (fun jp hne hlj => ?_) (fun _ jp hne hj he => ?_)
    fun _ _ => ⟨h.inum_lt ip hl, hd.synced, ht⟩
  · exact hd.frame.dinode _ (h.inum_lt jp hlj) (h.inum_ne hl hlj hne)
  · exact hne (h.unique jp ip hj hl.1 he)

/-- An unused entry is taken for `inum`. -/
theorem takeEntry (h : FsInv sb s) {inum : ℕ}
    (hno : ∀ jp, 0 < (s.itable jp).ref → (s.itable jp).inum ≠ inum) :
    FsInv sb (s.set ip { s.itable ip with inum := inum, ref := 1, valid := false }) :=
  h.change h.image (fun _ _ _ => rfl) (fun _ jp _ hj => hno jp hj) fun _ hv => nomatch hv

theorem iget (h : FsInv sb s) (inum : ℕ) :
    Ends (· ≠ .freeingFreeBlock) (fun r => FsInv sb r.2 ∧ 0 < (r.2.itable r.1).ref)
      (s.iget inum) := by
  unfold Fs.iget
  split
  · next ip hf =>
    have hip := List.find?_some hf
    simp only [decide_eq_true_eq] at hip
    exact .ok ⟨h.setRef fun _ => hip.1, by simp [Fs.set]⟩
  · next hf =>
    split
    · refine .ok ⟨h.takeEntry fun jp hj he => ?_, by simp [Fs.set]⟩
      have hjp := List.find?_eq_none.1 hf jp (List.mem_finRange jp)
      exact hjp (by simp [hj, he])
    · exact .error (by simp)

theorem idup (h : FsInv sb s) (hr : 0 < (s.itable ip).ref) : FsInv sb (s.idup ip) :=
  h.setRef fun _ => hr

theorem unref (h : FsInv sb s) (hr : 0 < (s.itable ip).ref) : FsInv sb (s.unref ip) :=
  h.setRef fun _ => hr

theorem ilock (h : FsInv sb s) (hr : 0 < (s.itable ip).ref)
    (hlt : (s.itable ip).inum < sb.ninodes) :
    Ends (· ≠ .freeingFreeBlock) (FsInv sb) (s.ilock sb ip) := by
  unfold Fs.ilock
  split
  · exact .error (by simp)
  · split
    · exact .ok h
    · dsimp only
      split
      · exact .error (by simp)
      · next ht =>
        refine .ok (h.change h.image (fun _ _ _ => rfl) (fun _ jp hne hj he => ?_)
          fun _ _ => ⟨hlt, rfl, ht⟩)
        exact hne (h.unique jp ip hj hr he)

/-- An inode that is locked is not free. -/
theorem not_locked_free (h : FsInv sb s) (hi : (readDinode sb s.disk i).type = 0)
    (hl : s.Locked jp) : (s.itable jp).inum ≠ i := by
  rintro rfl
  rw [h.synced jp hl] at hi
  exact h.type_ne jp hl hi

/-- A change of the disk at an inode that nobody has locked. -/
theorem setDisk (h : FsInv sb s) (hd : Settled sb (readDinode sb s.disk) i s.disk d' m')
    (hno : ∀ jp, s.Locked jp → (s.itable jp).inum ≠ i) : FsInv sb { s with disk := m' } where
  image := hd.consistent h.image
  unique := h.unique
  inum_lt := h.inum_lt
  synced := fun jp hj =>
    (hd.frame.dinode _ (h.inum_lt jp hj) (hno jp hj)).trans (h.synced jp hj)
  type_ne := h.type_ne

theorem settled_ialloc (h : Consistent sb m) (type : FileType) (hi : i < sb.ninodes)
    (ht : (readDinode sb m i).type = 0) :
    Settled sb (readDinode sb m) i m (blank type) (allocInode sb m i type) := by
  have hself : Owned sb (update (readDinode sb m) i (readDinode sb m i)) m := by
    rw [update_eq_self]
    exact h.owned
  have hblank : Owned sb (update (readDinode sb m) i (blank type)) m :=
    hself.congr_empty (fun _ hne => absurd ht hne) fun s => slot_of_zero rfl s
  have hm := sameRest_allocInode (m := m) type hi
  exact ⟨hblank.rest hm, hblank.frame_rest hm, fun k hk => absurd hk (Nat.not_lt_zero _),
    readDinode_allocInode type⟩

theorem ialloc (h : FsInv sb s) (type : FileType) :
    Ends (· ≠ .freeingFreeBlock) (fun r => FsInv sb r.2) (s.ialloc sb type) := by
  unfold Fs.ialloc
  split
  · next inum hf =>
    have ht := List.find?_some hf
    simp only [decide_eq_true_eq] at ht
    have hlt : inum < sb.ninodes := by
      have := List.mem_range'.1 (List.mem_of_find?_eq_some hf)
      omega
    have hs := settled_ialloc h.image type hlt ht
    have hinv := h.setDisk hs fun jp hj => h.not_locked_free ht hj
    exact (hinv.iget inum).bind fun r hr => .ok hr.1
  · exact .ok h

/-- The disk after the part of `iput` that frees the inode. -/
theorem ifree_settled (h : FsInv sb s) (hl : s.Locked ip) :
    Ends (· ≠ .freeingFreeBlock)
      (fun t => ∃ d' m', d'.type = 0 ∧
        Settled sb (readDinode sb s.disk) (s.itable ip).inum s.disk d' m' ∧
        t = ⟨m', update s.itable ip { s.itable ip with copy := d', valid := false }⟩)
      (s.ifree sb ip) := by
  have hi := h.inum_lt ip hl
  unfold Fs.ifree
  refine (itrunc_spec (h.owned_self hl) hi (h.type_ne ip hl) (h.fits hl)).bind ?_
  rintro ⟨d₁, m₁⟩ ⟨hs, hd₁⟩
  dsimp only at hs hd₁ ⊢
  have haddrs : d₁.addrs = fun _ => 0 := by rw [hd₁]
  have hfit := h.fits hl
  have hfit' : ({ d₁ with type := 0 } : Dinode).Fits := by
    rw [hd₁]
    exact ⟨Nat.pow_pos (by decide), hfit.major_lt, hfit.minor_lt, hfit.nlink_lt,
      Nat.pow_pos (by decide), fun _ => Nat.pow_pos (by decide)⟩
  have ho : Owned sb (update (readDinode sb s.disk) (s.itable ip).inum { d₁ with type := 0 })
      m₁ := hs.owned.congr_empty (fun s _ => slot_of_zero haddrs s) fun s => slot_of_zero haddrs s
  have hm := sameRest_iupdate (m := m₁) (d := { d₁ with type := 0 }) hi
  refine .ok ⟨_, _, rfl, ⟨ho.rest hm, hs.frame.trans (ho.frame_rest hm), fun k hk => ?_,
    readDinode_iupdate hfit'⟩, ?_⟩
  · simp only [hd₁] at hk
    exact absurd hk (Nat.not_lt_zero _)
  · simp only [Fs.set, Fs.setCopy, update_idem]

theorem ifree (h : FsInv sb s) (hl : s.Locked ip) :
    Ends (· ≠ .freeingFreeBlock) (fun t => FsInv sb t ∧ (t.itable ip).ref = (s.itable ip).ref)
      (s.ifree sb ip) := by
  refine (h.ifree_settled hl).mono ?_
  rintro t ⟨d', m', -, hs, rfl⟩
  refine ⟨?_, by simp⟩
  refine h.change (hs.consistent h.image) (fun jp hne hlj => ?_)
    (fun _ jp hne hj he => hne (h.unique jp ip hj hl.1 he)) fun _ hv => nomatch hv
  exact hs.frame.dinode _ (h.inum_lt jp hlj) (h.inum_ne hl hlj hne)

theorem iput (h : FsInv sb s) (hr : 0 < (s.itable ip).ref) :
    Ends (· ≠ .freeingFreeBlock) (FsInv sb) (s.iput sb ip) := by
  unfold Fs.iput
  split
  · next hc =>
    refine (h.ifree ⟨hr, hc.2.1⟩).bind ?_
    rintro t ⟨ht, href⟩
    exact .ok (ht.unref (href ▸ hr))
  · exact .ok (h.unref hr)

end FsInv

theorem setCopy_self : s.setCopy ip (s.itable ip).copy s.disk = s := by
  simp [Fs.setCopy]

theorem FsInv.dirlink (h : FsInv sb s) (hl : s.Locked ip) (name : List Byte) (inum : ℕ) :
    Ends (· ≠ .freeingFreeBlock) (fun r => FsInv sb r.2) (s.dirlink sb ip name inum) := by
  unfold Fs.dirlink
  refine (dirlookup_spec (h.full_self hl) name).bind ?_
  rintro ⟨e, d', m'⟩ ⟨hd, hm⟩
  obtain rfl : d' = (s.itable ip).copy := hd
  obtain rfl : m' = s.disk := hm
  dsimp only
  rw [setCopy_self]
  cases e with
  | some e =>
    dsimp only
    exact (h.iget e.2).bind fun r hr => (hr.1.iput hr.2).bind fun t ht => .ok ht
  | none =>
    refine (addEntry_spec (h.owned_self hl) (h.inum_lt ip hl) (h.type_ne ip hl) (h.synced ip hl)
      (h.full_self hl) name inum).bind ?_
    rintro ⟨v, d', m'⟩ ⟨hs, ht⟩
    exact .ok (h.setCopy hl hs (ht ▸ h.type_ne ip hl))

/-! ## Calls -/

theorem FsInv.setLinks (h : FsInv sb s) (hl : s.Locked ip) (major minor nlink : ℕ) :
    FsInv sb (s.setLinks sb ip major minor nlink) := by
  have hi := h.inum_lt ip hl
  have hfit := h.fits hl
  refine h.setCopy hl (settled_iupdate ?_ hi .refl (h.type_ne ip hl) ?_ fun k hk => ?_)
    (h.type_ne ip hl)
  · exact (h.owned_self hl).congr_copy rfl rfl
  · exact ⟨hfit.type_lt, Nat.mod_lt _ (by decide), Nat.mod_lt _ (by decide),
      Nat.mod_lt _ (by decide), hfit.size_lt, hfit.addrs_lt⟩
  · exact (blockAt_addrs rfl k).trans_ne (h.full_self hl k hk)

/-- Every call keeps the invariant, and none of them frees a free block. -/
theorem FsInv.call (h : FsInv sb s) {c : FsCall n} (hc : s.Enabled sb c) :
    Ends (· ≠ .freeingFreeBlock) (FsInv sb) (s.call sb c) := by
  cases c with
  | iget inum => exact (h.iget inum).bind fun r hr => .ok hr.1
  | idup ip => exact .ok (h.idup hc)
  | ilock ip => exact h.ilock hc.1 hc.2
  | iput ip => exact h.iput hc
  | ialloc type => exact (h.ialloc type).bind fun r hr => .ok hr
  | setLinks ip major minor nlink => exact .ok (h.setLinks hc major minor nlink)
  | readi ip copyout off n =>
    refine (readi_spec (h.full_self hc.1) copyout off n).bind ?_
    rintro ⟨tot, data, d', m'⟩ ⟨hd, hm⟩
    obtain rfl : d' = (s.itable ip).copy := hd
    obtain rfl : m' = s.disk := hm
    rw [setCopy_self]
    exact .ok h
  | writei ip src off n =>
    have hl := hc.1
    exact (writei_spec (h.owned_self hl) (h.inum_lt ip hl) (h.type_ne ip hl) (h.synced ip hl)
      (h.full_self hl) hc.2.1 hc.2.2).bind fun r hr =>
        .ok (h.setCopy hl hr.1 (hr.2 ▸ h.type_ne ip hl))
  | itrunc ip =>
    refine (itrunc_spec (h.owned_self hc) (h.inum_lt ip hc) (h.type_ne ip hc) (h.fits hc)).bind ?_
    rintro r ⟨hs, hr⟩
    exact .ok (h.setCopy hc hs (hr ▸ h.type_ne ip hc))
  | dirlink dp name inum => exact (h.dirlink hc name inum).bind fun r hr => .ok hr

theorem FsInv.boot (hm : Consistent sb m) (h : Boot m s) : FsInv sb s := by
  have hno : ∀ ip, ¬s.Locked ip := fun ip hl => absurd (h.2 ip) (Nat.ne_of_gt hl.1)
  obtain rfl := h.1
  exact ⟨hm, fun ip jp hip => absurd (h.2 ip) (Nat.ne_of_gt hip), fun ip hl => absurd hl (hno ip),
    fun ip hl => absurd hl (hno ip), fun ip hl => absurd hl (hno ip)⟩

theorem reachable_inv (hm : Consistent sb m) (h : Reachable (Boot m) (Step sb) s) :
    FsInv sb s :=
  h.invariant (fun _ h0 => FsInv.boot hm h0)
    fun _ _ _ hs hst => (hs.call hst.1).of_ok hst.2

/-- Between calls, a data block is marked in the free map if and only if exactly one place of
an allocated inode names it, no inode lacks a block below its size, and no call frees a free
block. -/
theorem blocks_owned_once (hm : Consistent sb m) (h : Reachable (Boot m) (Step sb) s) :
    (∀ b, sb.nmeta ≤ b → b < sb.size → (inUse sb s.disk b = true ↔
      ∃! r : ℕ × AddrSlot, place sb (readDinode sb s.disk) s.disk r = some b)) ∧
    (∀ i < sb.ninodes, (readDinode sb s.disk i).type ≠ 0 →
      ∀ k < ((readDinode sb s.disk i).size + BSIZE - 1) / BSIZE,
        (readDinode sb s.disk i).blockAt s.disk k ≠ 0) ∧
    ∀ c, s.Enabled sb c → s.call sb c ≠ .error .freeingFreeBlock := by
  have hinv := reachable_inv hm h
  refine ⟨fun b hb hlt => ?_, fun i hi ht k hk => ?_, fun c hc => ?_⟩
  · rw [← hinv.image.owned.owns.mem_iff]
    exact ⟨fun hu => ⟨hb, hlt, hu⟩, fun hu => hu.2.2⟩
  · refine hinv.image.full i hi ht k ?_
    simp only [BSIZE] at hk ⊢
    omega
  · exact (hinv.call hc).not_error (by simp)

/-- The calls of a list, made one after another. -/
theorem reachable_of_exec {cs : List (FsCall n)} (h0 : Boot m s)
    (h : exec (move sb) s cs = some t) : Reachable (Boot m) (Step sb) t := by
  refine (run_of_exec h).reachable h0 |>.mono ?_
  intro s c t hst
  unfold move at hst
  split at hst
  · next hc =>
    refine ⟨hc, ?_⟩
    cases hcall : s.call sb c with
    | error e => simp [hcall, Except.toOption] at hst
    | ok t' => simpa [hcall, Except.toOption] using hst
  · cases hst

/-- A disk of eight blocks, two of them for data. -/
def small : Superblock :=
  ⟨8, 2, 3, 2, 4, by decide, by decide, by decide⟩

/-- Its bytes after mkfs : no inode is allocated. -/
def smallDisk : Mem := fun a => if a = 4096 then 0x3f else 0

theorem consistent_small : Consistent small smallDisk := by
  have hfree : ∀ i < 3, (readDinode small smallDisk i).type = 0 := by
    intro i hi
    refine get_eq_zero fun x h₁ h₂ => if_neg ?_
    rw [dinodeAddr_eq] at h₁ h₂
    simp only [small, BSIZE] at h₁ h₂
    omega
  refine ⟨⟨Owns.empty (fun r => ?_) fun b hb => ?_, ?_⟩, fun i hi ht => absurd (hfree i hi) ht⟩
  · exact if_neg fun hr => hr.2.1 (hfree r.1 hr.1)
  · obtain ⟨h₁, h₂, h₃⟩ := hb
    have hdata : ∀ b < 8, 6 ≤ b → inUse small smallDisk b = false := by decide
    rw [hdata b h₂ h₁] at h₃
    cases h₃
  · have hmeta : ∀ b < 6, inUse small smallDisk b = true := by decide
    exact hmeta

/-- A file is made, and a write of 3000 bytes ends at a byte that cannot be read. -/
def smallCalls (ip : Fin n) : List (FsCall n) :=
  [.ialloc .file, .ilock ip, .setLinks ip 0 0 1,
    .writei ip (fun k => if k < 1500 then some 7 else none) 0 3000]

theorem blocks_owned_once_small : ∃ t, exec (move small)
      ⟨smallDisk, fun _ => ⟨0, 0, false, readDinode small smallDisk 0⟩⟩
      (smallCalls (Fin.last 0)) = some t ∧
    (∀ b, small.nmeta ≤ b → b < small.size → (inUse small t.disk b = true ↔
      ∃! r : ℕ × AddrSlot, place small (readDinode small t.disk) t.disk r = some b)) ∧
    (∀ i < small.ninodes, (readDinode small t.disk i).type ≠ 0 →
      ∀ k < ((readDinode small t.disk i).size + BSIZE - 1) / BSIZE,
        (readDinode small t.disk i).blockAt t.disk k ≠ 0) ∧
    ∀ c, t.Enabled small c → t.call small c ≠ .error .freeingFreeBlock := by
  have hrun : (exec (move small)
      ⟨smallDisk, fun _ => ⟨0, 0, false, readDinode small smallDisk 0⟩⟩
      (smallCalls (Fin.last 0))).isSome = true := by
    decide +kernel
  obtain ⟨t, ht⟩ := Option.isSome_iff_exists.1 hrun
  exact ⟨t, ht, blocks_owned_once consistent_small (reachable_of_exec ⟨rfl, fun _ => rfl⟩ ht)⟩

end Fs

end CowPbs
