import Mathlib
import CowPbs.FsConsistent

/-!
# References to inodes

The references to an inode are counted over the inode table (`refCount`). `iget` and `idup` take
one (`Got`) and `iput` gives one back, whether it frees the inode or not; nothing else changes the
counts. An entry that is referred to stays what it is (`Keeps`).
-/

open Bytes Function Outcome

namespace CowPbs

namespace Fs

variable {n : ℕ} {sb : Superblock} {s t u : Fs n} {ip jp : Fin n} {x : Inode} {d : Dinode} {m : Mem}
  {inum i : ℕ}

/-- The references to the inode `i`. -/
def refCount (s : Fs n) (i : ℕ) : ℕ :=
  ∑ ip, if (s.itable ip).inum = i then (s.itable ip).ref else 0

/-- The entries that are referred to are still there. -/
def Keeps (s t : Fs n) : Prop :=
  ∀ jp, 0 < (s.itable jp).ref → 0 < (t.itable jp).ref ∧ (t.itable jp).inum = (s.itable jp).inum ∧
    (t.itable jp).valid = (s.itable jp).valid ∧ (t.itable jp).copy = (s.itable jp).copy

/-- There is no entry for the inode, and none that is unused. -/
def Exhausted (s : Fs n) (inum : ℕ) : Prop :=
  ∀ jp, 0 < (s.itable jp).ref ∧ (s.itable jp).inum ≠ inum

/-- A reference to `inum` was taken, which is the entry `ip`. -/
structure Got (s : Fs n) (inum : ℕ) (ip : Fin n) (t : Fs n) : Prop where
  disk : t.disk = s.disk
  others : ∀ jp, jp ≠ ip → t.itable jp = s.itable jp
  inum_eq : (t.itable ip).inum = inum
  ref : (t.itable ip).ref = (s.itable ip).ref + 1
  found : 0 < (s.itable ip).ref → t.itable ip = { s.itable ip with ref := (s.itable ip).ref + 1 }
  fresh : (s.itable ip).ref = 0 → (t.itable ip).valid = false

@[simp]
theorem set_self : (s.set ip x).itable ip = x :=
  update_self _ _ _

theorem set_of_ne (h : jp ≠ ip) : (s.set ip x).itable jp = s.itable jp :=
  update_of_ne h _ _

/-- The entry `ip` is the only one that counts differently. -/
def OnlyEntry (ip : Fin n) (s t : Fs n) : Prop :=
  ∀ jp, jp ≠ ip → (t.itable jp).inum = (s.itable jp).inum ∧
    (t.itable jp).ref = (s.itable jp).ref

theorem OnlyEntry.refCount_add (h : OnlyEntry ip s t) (i : ℕ) :
    refCount t i + (if (s.itable ip).inum = i then (s.itable ip).ref else 0) =
      refCount s i + if (t.itable ip).inum = i then (t.itable ip).ref else 0 := by
  have hrest : ∑ jp ∈ Finset.univ.erase ip,
        (if (t.itable jp).inum = i then (t.itable jp).ref else 0) =
      ∑ jp ∈ Finset.univ.erase ip, if (s.itable jp).inum = i then (s.itable jp).ref else 0 := by
    refine Finset.sum_congr rfl fun jp hjp => ?_
    obtain ⟨hnum, href⟩ := h jp (Finset.ne_of_mem_erase hjp)
    rw [hnum, href]
  unfold refCount
  rw [← Finset.add_sum_erase _ _ (Finset.mem_univ ip), hrest,
    ← Finset.add_sum_erase (Finset.univ) (fun jp => if (s.itable jp).inum = i then
      (s.itable jp).ref else 0) (Finset.mem_univ ip)]
  omega

theorem refCount_congr (h : ∀ jp, (t.itable jp).inum = (s.itable jp).inum ∧
      (t.itable jp).ref = (s.itable jp).ref) : refCount t i = refCount s i := by
  refine Finset.sum_congr rfl fun jp _ => ?_
  obtain ⟨hnum, href⟩ := h jp
  rw [hnum, href]

namespace Got

theorem same (h : Got s inum ip t) : OnlyEntry ip s t := fun jp hjp => by
  rw [h.others jp hjp]
  exact ⟨rfl, rfl⟩

theorem keeps (h : Got s inum ip t) : Keeps s t := by
  intro jp hjp
  by_cases hji : jp = ip
  · subst hji
    rw [h.found hjp]
    exact ⟨Nat.succ_pos _, rfl, rfl, rfl⟩
  · rw [h.others jp hji]
    exact ⟨hjp, rfl, rfl, rfl⟩

theorem refCount_eq (h : Got s inum ip t) :
    refCount t i = refCount s i + if inum = i then 1 else 0 := by
  have hchange := h.same.refCount_add i
  rw [h.inum_eq, h.ref] at hchange
  rcases Nat.eq_zero_or_pos (s.itable ip).ref with h0 | hpos
  · rw [h0] at hchange
    split_ifs at hchange ⊢ <;> omega
  · have hnum : (s.itable ip).inum = inum := by
      rw [← h.inum_eq, h.found hpos]
    rw [hnum] at hchange
    split_ifs at hchange ⊢ <;> omega

/-- A reference that was just taken is put back without freeing the inode. -/
theorem iput_eq (h : Got s inum ip t) : t.iput sb ip = .ok (t.unref ip) := by
  refine if_neg fun hfree => ?_
  have href := h.ref
  have h0 : (s.itable ip).ref = 0 := by
    rw [hfree.1] at href
    omega
  rw [h.fresh h0] at hfree
  exact Bool.noConfusion hfree.2.1

end Got

theorem iget_got : Ends (fun e => e = .igetNoInodes ∧ Exhausted s inum)
    (fun r => Got s inum r.1 r.2) (s.iget inum) := by
  unfold Fs.iget
  split
  · next ip hf =>
    have hip := List.find?_some hf
    simp only [decide_eq_true_eq] at hip
    refine .ok ⟨rfl, fun jp hjp => set_of_ne hjp, ?_, ?_, fun _ => set_self, fun h0 => ?_⟩
    · rw [set_self]
      exact hip.2
    · rw [set_self]
    · exact absurd h0 (Nat.ne_of_gt hip.1)
  · next hf =>
    split
    · next ip hf' =>
      have hip := List.find?_some hf'
      simp only [decide_eq_true_eq] at hip
      refine .ok ⟨rfl, fun jp hjp => set_of_ne hjp, ?_, ?_, fun h0 => ?_, fun _ => ?_⟩
      · rw [set_self]
      · rw [set_self, hip]
      · exact absurd hip (Nat.ne_of_gt h0)
      · rw [set_self]
    · next hf' =>
      refine .error ⟨rfl, fun jp => ?_⟩
      have h₁ := List.find?_eq_none.1 hf jp (List.mem_finRange jp)
      have h₂ := List.find?_eq_none.1 hf' jp (List.mem_finRange jp)
      simp only [decide_eq_true_eq] at h₁ h₂
      have hpos : 0 < (s.itable jp).ref := Nat.pos_of_ne_zero h₂
      exact ⟨hpos, fun hnum => h₁ ⟨hpos, hnum⟩⟩

theorem idup_got (h : 0 < (s.itable ip).ref) : Got s (s.itable ip).inum ip (s.idup ip) := by
  refine ⟨rfl, fun jp hjp => set_of_ne hjp, ?_, ?_, fun _ => set_self, fun h0 => ?_⟩
  · rw [idup, set_self]
  · rw [idup, set_self]
  · omega

/-- Every entry counts the same references to the same inode. -/
structure SameRefs (s t : Fs n) : Prop where
  inum_eq : ∀ jp, (t.itable jp).inum = (s.itable jp).inum
  ref : ∀ jp, (t.itable jp).ref = (s.itable jp).ref

theorem SameRefs.refl : SameRefs s s :=
  ⟨fun _ => rfl, fun _ => rfl⟩

theorem SameRefs.trans (h : SameRefs s t) (h' : SameRefs t u) : SameRefs s u :=
  ⟨fun jp => (h'.inum_eq jp).trans (h.inum_eq jp), fun jp => (h'.ref jp).trans (h.ref jp)⟩

theorem SameRefs.refCount_eq (h : SameRefs s t) : refCount t i = refCount s i :=
  refCount_congr fun jp => ⟨h.inum_eq jp, h.ref jp⟩

/-- One entry is changed, but not in these two fields. -/
theorem SameRefs.of_entry (h : ∀ jp, jp ≠ ip → t.itable jp = s.itable jp)
    (hnum : (t.itable ip).inum = (s.itable ip).inum)
    (href : (t.itable ip).ref = (s.itable ip).ref) :
    SameRefs s t := by
  refine ⟨fun jp => ?_, fun jp => ?_⟩
  · by_cases hji : jp = ip
    · rwa [hji]
    · rw [h jp hji]
  · by_cases hji : jp = ip
    · rwa [hji]
    · rw [h jp hji]

theorem sameRefs_set (hnum : x.inum = (s.itable ip).inum) (href : x.ref = (s.itable ip).ref) :
    SameRefs s (s.set ip x) :=
  .of_entry (fun _ h => set_of_ne h) (by rwa [set_self]) (by rwa [set_self])

theorem sameRefs_setCopy : SameRefs s (s.setCopy ip d m) :=
  .of_entry (fun jp (h : jp ≠ ip) => update_of_ne h _ _) (by simp [Fs.setCopy])
    (by simp [Fs.setCopy])

theorem ilock_sameRefs : Ends (fun _ => True) (SameRefs s) (s.ilock sb ip) := by
  unfold Fs.ilock
  split
  · exact .error trivial
  · split
    · exact .ok .refl
    · dsimp only
      split
      · exact .error trivial
      · exact .ok (sameRefs_set rfl rfl)

theorem ifree_sameRefs : Ends (fun _ => True) (SameRefs s) (s.ifree sb ip) := by
  unfold Fs.ifree
  cases itrunc sb s.disk (s.itable ip).copy (s.itable ip).inum with
  | error e => exact .error trivial
  | ok r =>
    exact .ok (sameRefs_setCopy.trans
      (sameRefs_set (by simp [Fs.setCopy]) (by simp [Fs.setCopy])))

/-- The entry `ip` counts one reference less. -/
structure PutBack (s : Fs n) (ip : Fin n) (t : Fs n) : Prop where
  inum_eq : ∀ jp, (t.itable jp).inum = (s.itable jp).inum
  ref : ∀ jp, jp ≠ ip → (t.itable jp).ref = (s.itable jp).ref
  ref_self : (t.itable ip).ref = (s.itable ip).ref - 1

theorem unref_putBack : PutBack s ip (s.unref ip) where
  inum_eq := by
    intro jp
    by_cases hji : jp = ip
    · rw [hji, unref, set_self]
    · rw [unref, set_of_ne hji]
  ref := fun jp hji => by rw [unref, set_of_ne hji]
  ref_self := by rw [unref, set_self]

theorem iput_putBack : Ends (fun _ => True) (PutBack s ip) (s.iput sb ip) := by
  unfold Fs.iput
  split
  · refine ifree_sameRefs.bind fun t ht => .ok ?_
    have hput : PutBack t ip (t.unref ip) := unref_putBack
    refine ⟨fun jp => (hput.inum_eq jp).trans (ht.inum_eq jp),
      fun jp hji => (hput.ref jp hji).trans (ht.ref jp), ?_⟩
    rw [hput.ref_self, ht.ref]
  · exact .ok unref_putBack

theorem PutBack.refCount_eq (h : PutBack s ip t) (hr : 0 < (s.itable ip).ref) :
    refCount t i + (if (s.itable ip).inum = i then 1 else 0) = refCount s i := by
  have hsame : OnlyEntry ip s t := fun jp hji => ⟨h.inum_eq jp, h.ref jp hji⟩
  have hchange := hsame.refCount_add i
  rw [h.inum_eq, h.ref_self] at hchange
  split_ifs at hchange ⊢ <;> omega

end Fs

end CowPbs
