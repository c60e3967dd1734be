import Mathlib
import CowPbs.Directory

/-!
# The entries of directories

In a file system the directories consist of whole entries, which name inodes of the table
(`Entries`). `iput` writes to the free map and to the inode it frees and to no data block
(`SameData`), so that the entries of the directories stay (`iput_entries`).
-/

open Bytes Function Outcome Ownership Overlay SlotTable

namespace CowPbs

namespace Fs

variable {n : ℕ} {sb : Superblock} {F : ℕ → Dinode} {d : Dinode} {m m' m'' : Mem} {b i j : ℕ}
  {s t : Fs n} {ip : Fin n}

/-- The directories consist of whole entries, which name inodes. -/
def Entries (sb : Superblock) (m : Mem) : Prop :=
  ∀ i < sb.ninodes, (readDinode sb m i).type = FileType.dir.code →
    IsDir sb m i ∧ ∀ e, some e ∈ dirEntries sb m i → e.2 < sb.ninodes

/-- The data blocks have the same bytes. -/
def SameData (sb : Superblock) (m m' : Mem) : Prop :=
  ∀ x, sb.nmeta * BSIZE ≤ x → m' x = m x

theorem SameData.refl : SameData sb m m :=
  fun _ _ => rfl

theorem SameData.trans (h : SameData sb m m') (h' : SameData sb m' m'') : SameData sb m m'' :=
  fun x hx => (h' x hx).trans (h x hx)

theorem SameData.word (h : SameData sb m m') (hb : sb.nmeta ≤ b) (hj : j < NINDIRECT) :
    word m' b j = word m b j :=
  word_congr hj fun x hx _ => h x ((Nat.mul_le_mul_right _ hb).trans hx)

theorem sameData_iupdate (hi : i < sb.ninodes) : SameData sb m (iupdate sb m d i) := by
  intro x hx
  have hlt := dinodeAddr_lt hi
  have hle : sb.bmapstart * BSIZE ≤ sb.nmeta * BSIZE := Nat.mul_le_mul_right BSIZE bmapstart_lt.le
  exact iupdate_of_outside (.inr (by omega))

/-! ## itrunc -/

theorem bfree_sameData (hb : b < sb.size) :
    Ends (· = .freeingFreeBlock) (SameData sb m) (bfree sb m b) := by
  unfold bfree
  split
  · refine .ok fun x hx => clearBit_of_ne ?_
    have hlt := (bitAddr_lt hb).2
    omega
  · exact .error rfl

theorem freeAddrs_sameData (ks : List (Fin (NDIRECT + 1)))
    (hd : ∀ k, d.addrs k = 0 ∨ d.addrs k < sb.size) : Ends (· = .freeingFreeBlock)
      (fun r => SameData sb m r.2 ∧ ∀ k, r.1.addrs k = 0 ∨ r.1.addrs k = d.addrs k)
      (freeAddrs sb ks m d) := by
  induction ks generalizing m d with
  | nil => exact .ok ⟨.refl, fun _ => .inr rfl⟩
  | cons k ks ih =>
    unfold freeAddrs
    split
    · exact ih hd
    · next hk =>
      refine (bfree_sameData ((hd k).resolve_left hk)).bind fun m' hm => ?_
      have haddr : ∀ j, (d.setAddr k 0).addrs j = 0 ∨ (d.setAddr k 0).addrs j = d.addrs j := by
        intro j
        by_cases hjk : j = k
        · rw [hjk]
          exact .inl (update_self _ _ _)
        · exact .inr (update_of_ne hjk _ _)
      refine (ih fun j => ?_).mono fun r hr => ⟨hm.trans hr.1, fun j => ?_⟩
      · rcases haddr j with h | h
        · exact .inl h
        · rw [h]
          exact hd j
      · rcases hr.2 j with h | h
        · exact .inl h
        · rw [h]
          exact haddr j

theorem freeEntries_sameData (hb : sb.nmeta ≤ b) (js : List ℕ)
    (hw : ∀ j ∈ js, j < NINDIRECT ∧ (word m b j = 0 ∨ word m b j < sb.size)) :
    Ends (· = .freeingFreeBlock) (SameData sb m) (freeEntries sb b js m) := by
  induction js generalizing m with
  | nil => exact .ok .refl
  | cons j js ih =>
    have hjs := fun j hj => hw j (List.mem_cons_of_mem _ hj)
    unfold freeEntries
    split
    · exact ih hjs
    · next hj =>
      refine (bfree_sameData ((hw j List.mem_cons_self).2.resolve_left hj)).bind fun m' hm => ?_
      refine (ih fun j hj => ?_).mono fun m'' hm' => hm.trans hm'
      rw [hm.word hb (hjs j hj).1]
      exact hjs j hj

theorem freeIndirect_sameData (hind : d.ind = 0 ∨ sb.nmeta ≤ d.ind ∧ d.ind < sb.size)
    (hw : d.ind ≠ 0 → ∀ j < NINDIRECT, word m d.ind j = 0 ∨ word m d.ind j < sb.size) :
    Ends (· = .freeingFreeBlock) (fun r => SameData sb m r.2) (freeIndirect sb m d) := by
  unfold freeIndirect
  split
  · exact .ok .refl
  · next h0 =>
    obtain ⟨hle, hlt⟩ := hind.resolve_left h0
    have hents : ∀ j ∈ List.range NINDIRECT,
        j < NINDIRECT ∧ (word m d.ind j = 0 ∨ word m d.ind j < sb.size) :=
      fun j hj => ⟨List.mem_range.1 hj, hw h0 j (List.mem_range.1 hj)⟩
    exact (freeEntries_sameData hle _ hents).bind fun m₁ hm₁ =>
      (bfree_sameData hlt).bind fun m₂ hm₂ => .ok (hm₁.trans hm₂)

/-- `itrunc` writes to no data block. -/
theorem itrunc_sameData (h : Owned sb (update F i d) m) (hi : i < sb.ninodes) (ht : d.type ≠ 0) :
    Ends (· = .freeingFreeBlock) (fun r => SameData sb m r.2) (itrunc sb m d i) := by
  have hslot : ∀ s, d.slot m s = 0 ∨ sb.nmeta ≤ d.slot m s ∧ d.slot m s < sb.size := by
    intro s
    by_cases hs : d.slot m s = 0
    · exact .inl hs
    · have hused := h.of_place (place_self hi ht hs)
      exact .inr ⟨hused.1, hused.2.1⟩
  have haddrs : ∀ k, d.addrs k = 0 ∨ d.addrs k < sb.size := fun k =>
    (hslot (.addr k)).imp id And.right
  have hwords : d.ind ≠ 0 → ∀ j < NINDIRECT, word m d.ind j = 0 ∨ word m d.ind j < sb.size := by
    intro hind j hj
    have hentry := hslot (.entry ⟨j, hj⟩)
    rw [Dinode.slot, if_neg hind] at hentry
    exact hentry.imp id And.right
  unfold itrunc
  refine (freeAddrs_sameData _ haddrs).bind ?_
  rintro ⟨d₁, m₁⟩ ⟨hm₁, hd₁⟩
  have hind : d₁.ind = 0 ∨ d₁.ind = d.ind := hd₁ (Fin.last NDIRECT)
  have hsize : d₁.ind = 0 ∨ sb.nmeta ≤ d₁.ind ∧ d₁.ind < sb.size := by
    rcases hind with h0 | heq
    · exact .inl h0
    · rw [heq]
      exact hslot (.addr (Fin.last NDIRECT))
  have hwords' : d₁.ind ≠ 0 → ∀ j < NINDIRECT,
      word m₁ d₁.ind j = 0 ∨ word m₁ d₁.ind j < sb.size := by
    intro h0 j hj
    rw [SameData.word hm₁ (hsize.resolve_left h0).1 hj, hind.resolve_left h0]
    rw [hind.resolve_left h0] at h0
    exact hwords h0 j hj
  refine (freeIndirect_sameData hsize hwords').bind fun r hr => .ok ?_
  exact hm₁.trans (hr.trans (sameData_iupdate hi))

/-! ## iput -/

/-- The content of an inode whose inode and blocks are as before. -/
theorem content_of_sameData (h : Consistent sb m) (hm : SameData sb m m') (hi : i < sb.ninodes)
    (ht : (readDinode sb m i).type ≠ 0) (hd : readDinode sb m' i = readDinode sb m i) :
    content sb m' i = content sb m i := by
  have hown : Owned sb (update (readDinode sb m) i (readDinode sb m i)) m := by
    rw [update_eq_self]
    exact h.owned
  unfold content
  rw [hd]
  refine slice_congr fun x _ hx => ?_
  rw [Nat.zero_add] at hx
  have hslot : (readDinode sb m i).slot m' = (readDinode sb m i).slot m := funext fun s =>
    slot_congr fun hind j hj => hm.word (h.owned.ind_used hi ht hind).1 hj
  have hblock : (readDinode sb m i).blockAt m' (x / BSIZE) =
      (readDinode sb m i).blockAt m (x / BSIZE) := by
    rw [Dinode.blockAt, Dinode.blockAt, hslot]
  have hused := hown.block_used hi ht ((h.full i hi ht).blockAt hx)
  rw [Dinode.byteAt, Dinode.byteAt, hblock]
  exact hm _ ((Nat.mul_le_mul_right BSIZE hused.1).trans (Nat.le_add_right _ _))

/-- `iput` returns, and the directories that are left are as before. -/
theorem iput_entries (h : FsInv sb s) (he : Entries sb s.disk) (hr : 0 < (s.itable ip).ref) :
    ∃ t, s.iput sb ip = .ok t ∧ FsInv sb t ∧ Entries sb t.disk := by
  have hinv := h.iput hr
  unfold Fs.iput at hinv ⊢
  split at hinv
  · next hc =>
    rw [if_pos hc]
    have hl : s.Locked ip := ⟨hr, hc.2.1⟩
    have hset := h.ifree_settled hl
    have hdata : Ends (· = .freeingFreeBlock) (fun t => SameData sb s.disk t.disk)
        (s.ifree sb ip) := by
      unfold Fs.ifree
      exact (itrunc_sameData (h.owned_self hl) (h.inum_lt ip hl) (h.type_ne ip hl)).bind
        fun r hm => .ok (hm.trans (sameData_iupdate (h.inum_lt ip hl)))
    cases hf : s.ifree sb ip with
    | error e =>
      rw [hf] at hset hdata
      exact absurd hdata hset
    | ok u =>
      rw [hf] at hset hdata hinv
      obtain ⟨d', m', ht, hs, rfl⟩ := hset
      refine ⟨_, rfl, hinv, fun i hi htype => ?_⟩
      change (readDinode sb m' i).type = _ at htype
      change IsDir sb m' i ∧ ∀ e, some e ∈ dirEntries sb m' i → _
      have hne : i ≠ (s.itable ip).inum := by
        rintro rfl
        rw [hs.synced, ht] at htype
        cases htype
      have hd := hs.frame.dinode i hi hne
      rw [hd] at htype
      have hcontent := content_of_sameData h.image hdata hi (htype.trans_ne nofun) hd
      obtain ⟨hdir, hents⟩ := he i hi htype
      rw [dirEntries, hcontent]
      exact ⟨⟨hd ▸ htype, hcontent ▸ hdir.whole⟩, hents⟩
  · next hc =>
    rw [if_neg hc]
    exact ⟨_, rfl, hinv, he⟩

end Fs

end CowPbs
