import Mathlib
import CowPbs.Lib.Overlay
import CowPbs.FsWrite

/-!
# Files are byte arrays

The content of an inode is the list of its bytes (`content`). `writei` overlays it with the bytes
it has written, which are all of them unless the disk is full, `readi` returns a part of it, and
neither changes the content of another file. So after any writes, to this file and to others, a
read returns at each position what the last write there has put into it (`files_are_byte_arrays`).
-/

open Bytes Function Outcome Ownership Transition Overlay

namespace CowPbs

namespace Fs

variable {sb : Superblock} {F : ℕ → Dinode} {d d' : Dinode} {m m' : Mem} {n i j : ℕ}
  {s t : Fs n} {ip : Fin n} {src : ℕ → Option Byte}

/-- The bytes of the file with the inode `i`. -/
def content (sb : Superblock) (m : Mem) (i : ℕ) : List Byte :=
  (readDinode sb m i).slice m 0 (readDinode sb m i).size

/-- `writei` of the bytes of a list. -/
def writeBytes (sb : Superblock) (m : Mem) (d : Dinode) (i off : ℕ) (data : List Byte) :
    Except FsPanic (ℤ × Dinode × Mem) :=
  writei sb m d i (fun k => data[k]?) off data.length

/-! ## One write -/

/-- What a call of `writei` that is not rejected leaves. -/
structure WroteInode (sb : Superblock) (F : ℕ → Dinode) (i : ℕ) (src : ℕ → Option Byte) (off n : ℕ)
    (d : Dinode) (m : Mem) (faults : Bool) (t r : ℕ) (d' : Dinode) (m' : Mem) : Prop where
  le_copied : t ≤ r
  copied_le : r ≤ n
  settled : Settled sb F i m d' m'
  type : d'.type = d.type
  size : d'.size = Max.max d.size (off + t)
  grows : ∀ k, d.blockAt m k ≠ 0 → d'.blockAt m' k = d.blockAt m k
  apart : Apart sb F i m m'
  start : t = 0 ∨ (off + t) % BSIZE = 0 ∨ t = n
  ends : faults = false → r = t ∧ (t = n ∨ freeBlocks sb m' = ∅)
  fault : faults = true → r < n ∧ src r = none ∧ (off + r) / BSIZE = (off + t) / BSIZE ∧
    d'.blockAt m' ((off + t) / BSIZE) ≠ 0
  copied : ∀ x, off ≤ x → x < off + r →
    d'.blockAt m' (x / BSIZE) ≠ 0 ∧ src (x - off) = some (d'.byteAt m' x)
  kept : ∀ x, x < off ∨ off + r ≤ x → x < d.size → d'.byteAt m' x = d.byteAt m x

theorem writei_wrote (src : ℕ → Option Byte) {off n : ℕ} (h : Owned sb (update F i d) m) (hi : i < sb.ninodes)
    (ht : d.type ≠ 0) (hs : readDinode sb m i = d) (hfull : Full m d) (hoff : off ≤ d.size)
    (hmax : off + n ≤ MAXFILE * BSIZE) :
    ∃ (t r : ℕ) (d' : Dinode) (m' : Mem), writei sb m d i src off n = .ok (t, d', m') ∧
      WroteInode sb F i src off n d m (writeFaults sb src n n 0 off m d) t r d' m' := by
  have hlt : off + n < 2 ^ 32 := by
    simp only [MAXFILE, NDIRECT, NINDIRECT, BSIZE] at hmax
    omega
  obtain ⟨t, r, d₁, m₁, heq, hw⟩ :=
    writeLoop_wrote src hi hmax n 0 m d (Nat.zero_le n) (Nat.sub_zero n ▸ le_rfl) h ht
  rw [Nat.add_zero] at heq hw
  have hsize := hw.worked.grows.size_eq
  have ht₁ : d₁.type ≠ 0 := by rwa [hw.worked.grows.type_eq]
  obtain ⟨d₂, hd₂⟩ : ∃ d₂, d₂ = if d₁.size < off + t then { d₁ with size := off + t } else d₁ :=
    ⟨_, rfl⟩
  have haddrs : d₂.addrs = d₁.addrs := by
    rw [hd₂]
    split_ifs <;> rfl
  have hval : writei sb m d i src off n = .ok (t, d₂, iupdate sb m₁ d₂ i) := by
    rw [writei, if_neg (by rw [Nat.mod_eq_of_lt hlt]; omega),
      if_neg (by rw [Nat.mod_eq_of_lt hlt]; omega), heq, Except.bind, hd₂]
  have hspec : Settled sb F i m d₂ (iupdate sb m₁ d₂ i) ∧ d₂.type = d.type :=
    (writei_spec h hi ht hs hfull (by omega) (by omega)).of_ok hval
  have hsize₂ : d₂.size = Max.max d.size (off + t) := by
    rw [hd₂]
    split_ifs with hgrow
    · simp only
      omega
    · omega
  have hbyte : ∀ x, d₁.blockAt m₁ (x / BSIZE) ≠ 0 →
      d₂.byteAt (iupdate sb m₁ d₂ i) x = d₁.byteAt m₁ x := fun x hx =>
    byteAt_iupdate hw.worked.owned hi ht₁ hx haddrs
  have hblock : ∀ k, d₂.blockAt (iupdate sb m₁ d₂ i) k = d₁.blockAt m₁ k := fun k =>
    hw.worked.owned.blockAt_iupdate hi ht₁ haddrs
  refine ⟨t, r, d₂, iupdate sb m₁ d₂ i, hval, hw.le_copied, hw.copied_le, hspec.1, hspec.2, hsize₂,
    fun k hk => (hblock k).trans (hw.worked.grows.blockAt hk),
    hw.apart.trans hw.worked.frame (hw.worked.owned.apart_iupdate hi), hw.start, fun hf => ?_,
    fun hf => ?_, fun x h₁ h₂ => ?_, fun x hx hlt => ?_⟩
  · obtain ⟨hr, hn⟩ := hw.ends hf
    refine ⟨hr, hn.imp_right fun hempty => ?_⟩
    rw [← hempty]
    exact freeBlocks_congr (sameRest_iupdate hi).inUse
  · obtain ⟨h₁, h₂, h₃, h₄⟩ := hw.fault hf
    exact ⟨h₁, h₂, h₃, (hblock _).trans_ne h₄⟩
  · obtain ⟨hb, hsrc⟩ := hw.copied x h₁ h₂
    exact ⟨(hblock _).trans_ne hb, hsrc.trans (congrArg some (hbyte x hb).symm)⟩
  · have hb := hfull.blockAt hlt
    have hb₁ : d₁.blockAt m₁ (x / BSIZE) ≠ 0 := by
      rw [hw.worked.grows.blockAt hb]
      exact hb
    rw [hbyte x hb₁, hw.kept x hx hb]

/-! ## The content -/

@[simp]
theorem length_content : (content sb m i).length = (readDinode sb m i).size :=
  length_slice

theorem getElem?_slice {n x : ℕ} :
    (d.slice m 0 n)[x]? = if x < n then some (d.byteAt m x) else none := by
  unfold Dinode.slice
  by_cases h : x < n
  · simp [h]
  · simp [h]

theorem slice_eq_drop {off n : ℕ} (h : off + n ≤ d.size) :
    d.slice m off n = ((d.slice m 0 d.size).drop off).take n := by
  refine List.ext_getElem? fun k => ?_
  rw [List.getElem?_take]
  split_ifs with hk
  · rw [List.getElem?_drop, getElem?_slice, if_pos (by omega)]
    simp [Dinode.slice, hk]
  · exact List.getElem?_eq_none (by rw [length_slice]; omega)

/-- The content after a write of bytes that can be read. -/
theorem WroteInode.content_eq {data : List Byte} {off t r : ℕ} {f : Bool}
    (hs : readDinode sb m i = d) (hoff : off ≤ d.size)
    (h : WroteInode sb F i (fun k => data[k]?) off data.length d m f t r d' m') :
    f = false ∧ content sb m' i = overlay (content sb m i) off (data.take t) := by
  have hf : f = false := by
    cases f with
    | false => rfl
    | true =>
      obtain ⟨hlt, hnone, -⟩ := h.fault rfl
      simp at hnone
      omega
  obtain ⟨rfl, -⟩ := h.ends hf
  have hle := h.copied_le
  refine ⟨hf, List.ext_getElem? fun x => ?_⟩
  have hlen : (data.take r).length = r := List.length_take_of_le hle
  have hsize : (content sb m i).length = d.size := by rw [length_content, hs]
  rw [getElem?_overlay (by rwa [hsize]), hlen]
  unfold content
  rw [getElem?_slice, getElem?_slice, h.settled.synced, hs, h.size]
  by_cases hin : off ≤ x ∧ x < off + r
  · obtain ⟨-, hsrc⟩ := h.copied x hin.1 hin.2
    rw [if_pos hin, if_pos (by omega), ← hsrc, List.getElem?_take_of_lt (by omega)]
  · rw [if_neg hin]
    by_cases hx : x < d.size
    · rw [if_pos (by omega), if_pos hx, h.kept x (by omega) hx]
    · rw [if_neg (by omega), if_neg hx]

/-- The files that were not written to. -/
theorem content_of_apart (hf : Frame sb F i m m') (h : Apart sb F i m m') (hj : j < sb.ninodes)
    (hne : j ≠ i) (ht : (F j).type ≠ 0) (hF : readDinode sb m j = F j) (hfull : Full m (F j)) :
    content sb m' j = content sb m j := by
  have hd := hf.dinode j hj hne
  unfold content
  rw [hd, hF]
  refine slice_congr fun x _ hx => ?_
  rw [Nat.zero_add] at hx
  have hb := hfull.blockAt hx
  have hslot : (F j).slot m' = (F j).slot m := funext fun s => hf.slot j hj hne ht s
  have hblock : (F j).blockAt m' (x / BSIZE) = (F j).blockAt m (x / BSIZE) := by
    rw [Dinode.blockAt, Dinode.blockAt, hslot]
  obtain ⟨s, -, hs⟩ := exists_slotAt hb
  rw [Dinode.byteAt, Dinode.byteAt, hblock, hs]
  exact h j hj hne ht s _ (Nat.mod_lt _ (by decide)) (hs ▸ hb)

/-! ## Writes and reads -/

/-- `writei` rejects the request. -/
def Rejects (size off n : ℕ) : Prop :=
  size < off ∨ 2 ^ 32 ≤ off + n ∨ MAXFILE * BSIZE < off + n

/-- The request is served with the result `ret`, as it should be for a byte array. -/
structure Served (sb : Superblock) (s : Fs n) (ip : Fin n) (off : ℕ) (data : List Byte) (ret : ℤ)
    (d' : Dinode) (m' : Mem) : Prop where
  inv : FsInv sb (s.setCopy ip d' m')
  rejected : ret = -1 ↔ Rejects (content sb s.disk (s.itable ip).inum).length off data.length
  same : ret = -1 → d' = (s.itable ip).copy ∧ m' = s.disk
  accepted : ret ≠ -1 → ∃ t ≤ data.length, ret = t ∧
    (t = data.length ∨ freeBlocks sb m' = ∅) ∧
    content sb m' (s.itable ip).inum =
      overlay (content sb s.disk (s.itable ip).inum) off (data.take t)
  others : ∀ j < sb.ninodes, j ≠ (s.itable ip).inum → (readDinode sb s.disk j).type ≠ 0 →
    readDinode sb m' j = readDinode sb s.disk j ∧ content sb m' j = content sb s.disk j

theorem writeBytes_served (h : FsInv sb s) (hl : s.Locked ip) {off : ℕ} (hoff : off < 2 ^ 32)
    {data : List Byte} (hn : data.length < 2 ^ 32) :
    ∃ ret d' m', writeBytes sb s.disk (s.itable ip).copy (s.itable ip).inum off data =
      .ok (ret, d', m') ∧ Served sb s ip off data ret d' m' := by
  have hsize : (content sb s.disk (s.itable ip).inum).length = (s.itable ip).copy.size := by
    rw [length_content, h.synced ip hl]
  have hover : 2 ^ 32 ≤ off + data.length ↔ (off + data.length) % 2 ^ 32 < off := by
    omega
  by_cases hrej : Rejects (content sb s.disk (s.itable ip).inum).length off data.length
  · have hval : writeBytes sb s.disk (s.itable ip).copy (s.itable ip).inum off data =
        .ok (-1, (s.itable ip).copy, s.disk) := by
      unfold Rejects at hrej
      rw [hsize, hover] at hrej
      unfold writeBytes writei
      by_cases h₁ : (s.itable ip).copy.size < off ∨ (off + data.length) % 2 ^ 32 < off
      · exact if_pos h₁
      · rw [if_neg h₁, if_pos]
        omega
    refine ⟨-1, _, _, hval, ?_, iff_of_true rfl hrej, fun _ => ⟨rfl, rfl⟩,
      fun hne => absurd rfl hne, fun _ _ _ _ => ⟨rfl, rfl⟩⟩
    rwa [setCopy_self]
  · have hacc := hrej
    unfold Rejects at hacc
    rw [hsize] at hacc
    have hmax : off + data.length ≤ MAXFILE * BSIZE := by omega
    obtain ⟨t, r, d', m', hval, hw⟩ := writei_wrote (fun k => data[k]?)
      (h.owned_self hl) (h.inum_lt ip hl) (h.type_ne ip hl) (h.synced ip hl) (h.full_self hl)
      (by omega) hmax
    obtain ⟨hf, hcontent⟩ := hw.content_eq (h.synced ip hl) (by omega)
    obtain ⟨hrt, hends⟩ := hw.ends hf
    have htype : d'.type ≠ 0 := hw.type.trans_ne (h.type_ne ip hl)
    have hle : t ≤ data.length := hrt ▸ hw.copied_le
    refine ⟨t, d', m', hval, h.setCopy hl hw.settled htype, iff_of_false (by omega) hrej,
      fun hret => absurd hret (by omega), fun _ => ⟨t, hle, rfl, hends, hcontent⟩,
      fun j hj hne ht => ⟨hw.settled.frame.dinode j hj hne, ?_⟩⟩
    exact content_of_apart hw.settled.frame hw.apart hj hne ht rfl (h.image.full j hj ht)

/-- `readi` gives a part of the bytes of the inode. -/
theorem readi_slice (sb : Superblock) (hfull : Full m d) {off k : ℕ} (hn : off + k < 2 ^ 32) :
    ∃ bytes, readi sb m d (fun _ => true) off k = .ok ⟨bytes.length, bytes, d, m⟩ ∧
      bytes = ((d.slice m 0 d.size).drop off).take k := by
  refine ⟨_, ?_, rfl⟩
  by_cases hoff : off ≤ d.size
  · rw [readi_content hfull hoff hn, slice_eq_drop (by omega)]
    have htake : ∀ l : List Byte, l.length = d.size - off →
        l.take (Min.min k (d.size - off)) = l.take k := by
      intro l hlen
      rw [← hlen, List.take_eq_take_iff]
      omega
    rw [htake _ (by rw [List.length_drop, length_slice])]
    congr 2
    simp
  · have hnil : (d.slice m 0 d.size).drop off = [] :=
      List.drop_eq_nil_of_le (by rw [length_slice]; omega)
    rw [hnil, readi, if_pos (by omega)]
    simp

theorem readi_bytes (h : FsInv sb s) (hl : s.Locked ip) {off k : ℕ} (hn : off + k < 2 ^ 32) :
    ∃ bytes, readi sb s.disk (s.itable ip).copy (fun _ => true) off k =
        .ok ⟨bytes.length, bytes, (s.itable ip).copy, s.disk⟩ ∧
      bytes = ((content sb s.disk (s.itable ip).inum).drop off).take k := by
  rw [content, h.synced ip hl]
  exact readi_slice sb (h.full_self hl) hn

/-- A write through a locked inode, with the inode and the bytes written. -/
inductive WriteStep (sb : Superblock) (s : Fs n) : ℕ × ℕ × List Byte → Fs n → Prop
  | mk (ip : Fin n) (off : ℕ) (data : List Byte) (ret : ℤ) (d : Dinode) (m : Mem)
      (hl : s.Locked ip) (hoff : off < 2 ^ 32) (hn : data.length < 2 ^ 32)
      (hr : writeBytes sb s.disk (s.itable ip).copy (s.itable ip).inum off data =
        .ok (ret, d, m)) :
    WriteStep sb s ((s.itable ip).inum, off, data.take ret.toNat) (s.setCopy ip d m)

/-- The writes to the file `i`. -/
def writesTo (i : ℕ) (ws : List (ℕ × ℕ × List Byte)) : List (ℕ × List Byte) :=
  ws.filterMap fun w => if w.1 = i then some w.2 else none

/-- The inodes that are locked stay so. -/
theorem locked_setCopy {d : Dinode} {jp : Fin n} :
    ((s.setCopy ip d m).Locked jp ↔ s.Locked jp) ∧
      ((s.setCopy ip d m).itable jp).inum = (s.itable jp).inum := by
  by_cases hji : jp = ip
  · subst hji
    simp [Fs.Locked, Fs.setCopy]
  · simp [Fs.Locked, Fs.setCopy, hji]

/-- A write changes the content of its file as it says, and no other. -/
theorem WriteStep.content (h : FsInv sb s) {w : ℕ × ℕ × List Byte} (hst : WriteStep sb s w t) :
    FsInv sb t ∧ (∀ jp, (t.Locked jp ↔ s.Locked jp) ∧ (t.itable jp).inum = (s.itable jp).inum) ∧
    ∀ jp, s.Locked jp → ∀ x, (content sb t.disk (s.itable jp).inum)[x]? =
      ((if w.1 = (s.itable jp).inum then written w.2 x else none) <|>
        (content sb s.disk (s.itable jp).inum)[x]?) := by
  obtain ⟨ip, off, data, ret, d, m, hl, hoff, hn, hr⟩ := hst
  obtain ⟨ret', d', m', heq, hs⟩ := writeBytes_served h hl hoff hn
  obtain ⟨rfl, rfl, rfl⟩ : ret' = ret ∧ d' = d ∧ m' = m := by
    simpa using heq.symm.trans hr
  refine ⟨hs.inv, fun _ => locked_setCopy, fun jp hj x => ?_⟩
  have hdisk : (s.setCopy ip d' m').disk = m' := rfl
  rw [hdisk]
  by_cases hji : jp = ip
  · subst hji
    rw [if_pos rfl]
    by_cases hneg : ret' = -1
    · rw [(hs.same hneg).2, hneg]
      simp [written]
    · obtain ⟨k, hk, rfl, -, hcontent⟩ := hs.accepted hneg
      have hno := mt hs.rejected.2 hneg
      unfold Rejects at hno
      rw [hcontent, Int.toNat_natCast]
      exact getElem?_overlay_written (.inr (by omega))
  · have hne := h.inum_ne hl hj hji
    rw [if_neg (Ne.symm hne)]
    have htype : (readDinode sb s.disk (s.itable jp).inum).type ≠ 0 := by
      rw [h.synced jp hj]
      exact h.type_ne jp hj
    rw [(hs.others _ (h.inum_lt jp hj) hne htype).2]
    rfl

/-- After a run of writes. -/
theorem content_of_run (h : FsInv sb s) (hl : s.Locked ip) {ws : List (ℕ × ℕ × List Byte)}
    (hr : Run (WriteStep sb) s ws t) :
    FsInv sb t ∧ t.Locked ip ∧ (t.itable ip).inum = (s.itable ip).inum ∧
    ∀ x, (content sb t.disk (s.itable ip).inum)[x]? =
      (lastWrite (writesTo (s.itable ip).inum ws) x <|>
        (content sb s.disk (s.itable ip).inum)[x]?) := by
  refine hr.invariant (I := fun ws t => FsInv sb t ∧ t.Locked ip ∧
    (t.itable ip).inum = (s.itable ip).inum ∧ ∀ x, (content sb t.disk (s.itable ip).inum)[x]? =
      (lastWrite (writesTo (s.itable ip).inum ws) x <|>
        (content sb s.disk (s.itable ip).inum)[x]?)) ⟨h, hl, rfl, fun _ => rfl⟩ ?_
  rintro ws t w u - ⟨hinv, hlt, hnum, hread⟩ hst
  obtain ⟨hinv', hsame, hcontent⟩ := hst.content hinv
  refine ⟨hinv', (hsame ip).1.2 hlt, (hsame ip).2.trans hnum, fun x => ?_⟩
  have hstep := hcontent ip hlt x
  rw [hnum] at hstep
  have happend : writesTo (s.itable ip).inum (ws ++ [w]) =
      writesTo (s.itable ip).inum ws ++ writesTo (s.itable ip).inum [w] := List.filterMap_append
  rw [hstep, hread, happend]
  by_cases hw : w.1 = (s.itable ip).inum
  · have hone : writesTo (s.itable ip).inum [w] = [w.2] := by simp [writesTo, hw]
    rw [if_pos hw, hone, lastWrite_append]
    cases written w.2 x <;> rfl
  · have hnone : writesTo (s.itable ip).inum [w] = [] := by simp [writesTo, hw]
    rw [if_neg hw, hnone, List.append_nil]
    rfl

/-- The locked inode `ip` is a byte array for calls at `off`. -/
structure IsByteArray (sb : Superblock) (s : Fs n) (ip : Fin n) (off : ℕ) : Prop where
  write : ∀ data : List Byte, data.length < 2 ^ 32 → ∃ ret d' m',
    writeBytes sb s.disk (s.itable ip).copy (s.itable ip).inum off data = .ok (ret, d', m') ∧
      Served sb s ip off data ret d' m'
  read : ∀ k, off + k < 2 ^ 32 → ∃ bytes,
    readi sb s.disk (s.itable ip).copy (fun _ => true) off k =
        .ok ⟨bytes.length, bytes, (s.itable ip).copy, s.disk⟩ ∧
      bytes = ((content sb s.disk (s.itable ip).inum).drop off).take k
  /-- A read after any writes, to this file and to others. -/
  last : ∀ ws t, Run (WriteStep sb) s ws t → ∀ k, off + k < 2 ^ 32 → ∃ bytes,
    readi sb t.disk (t.itable ip).copy (fun _ => true) off k =
        .ok ⟨bytes.length, bytes, (t.itable ip).copy, t.disk⟩ ∧
      ∀ j < k, bytes[j]? = (lastWrite (writesTo (s.itable ip).inum ws) (off + j) <|>
        (content sb s.disk (s.itable ip).inum)[off + j]?)

/-- Files are byte arrays : a write overlays the content or is rejected without an effect, a read
gives a part of it, and a read after writes gives what was written last. -/
theorem files_are_byte_arrays (h : FsInv sb s) (hl : s.Locked ip) {off : ℕ} (hoff : off < 2 ^ 32) :
    IsByteArray sb s ip off where
  write := fun data hn => writeBytes_served h hl hoff hn
  read := fun k hk => readi_bytes h hl hk
  last := by
    intro ws t hr k hk
    obtain ⟨hinv, hlt, hnum, hread⟩ := content_of_run h hl hr
    obtain ⟨bytes, hval, hbytes⟩ := readi_bytes hinv hlt hk
    refine ⟨bytes, hval, fun j hj => ?_⟩
    rw [hbytes, List.getElem?_take_of_lt hj, List.getElem?_drop, hnum, hread]

/-- The file of `smallCalls`. -/
theorem files_are_byte_arrays_small : ∃ t, exec (move small)
      ⟨smallDisk, fun _ => ⟨0, 0, false, readDinode small smallDisk 0⟩⟩
      (smallCalls (Fin.last 0)) = some t ∧ IsByteArray small t (Fin.last 0) 1000 := by
  have hrun : (exec (move small)
      ⟨smallDisk, fun _ => ⟨0, 0, false, readDinode small smallDisk 0⟩⟩
      (smallCalls (Fin.last 0))).any (fun t => decide (t.Locked (Fin.last 0))) = true := by
    decide +kernel
  obtain ⟨t, ht, hl⟩ := (Option.any_eq_true ..).1 hrun
  have hinv := reachable_inv consistent_small (reachable_of_exec ⟨rfl, fun _ => rfl⟩ ht)
  exact ⟨t, ht, files_are_byte_arrays hinv (of_decide_eq_true hl) (by norm_num)⟩

end Fs

end CowPbs
