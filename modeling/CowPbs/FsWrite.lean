import Mathlib
import CowPbs.FsContent

/-!
# What a write leaves

A write on an inode touches the blocks of the inode, free blocks and the free map, so the blocks
of the other inodes keep their bytes (`Apart`). How far it gets depends on the source, which may
end at a byte that cannot be read, and on the free map. `Wrote` says for the loop of `writei` what
is on the disk however it ends : the bytes that were copied are in the file, those of a block that
could not be copied to its end included, and the other bytes are as before.
-/

set_option linter.unusedVariables false

open Bytes Function Outcome Ownership

namespace CowPbs

namespace Fs

variable {sb : Superblock} {F : ℕ → Dinode} {d d' d'' : Dinode} {m m' m'' : Mem}
  {b c i j k : ℕ} {s : AddrSlot} {src : ℕ → Option Byte}

/-! ## The other files -/

/-- The blocks of the inodes other than `i` have the same bytes. -/
def Apart (sb : Superblock) (F : ℕ → Dinode) (i : ℕ) (m m' : Mem) : Prop :=
  ∀ i' < sb.ninodes, i' ≠ i → (F i').type ≠ 0 → ∀ s o, o < BSIZE → (F i').slot m s ≠ 0 →
    m' ((F i').slot m s * BSIZE + o) = m ((F i').slot m s * BSIZE + o)

theorem Apart.refl : Apart sb F i m m :=
  fun _ _ _ _ _ _ _ _ => rfl

theorem Apart.trans (hf : Frame sb F i m m') (h : Apart sb F i m m') (h' : Apart sb F i m' m'') :
    Apart sb F i m m'' := by
  intro i' hi' hne ht s o ho hs
  have hslot := hf.slot i' hi' hne ht s
  have hs' := h' i' hi' hne ht s o ho (hslot ▸ hs)
  rw [hslot] at hs'
  exact hs'.trans (h i' hi' hne ht s o ho hs)

/-- A block of another inode is in use. -/
theorem Owned.other_used (h : Owned sb (update F i d) m) (hi' : j < sb.ninodes) (hne : j ≠ i)
    (ht : (F j).type ≠ 0) (hs : (F j).slot m s ≠ 0) : (F j).slot m s ∈ used sb m := by
  have hF : update F i d j = F j := update_of_ne hne _ _
  have hp := h.of_place (place_of_slot (s := s) hi' (by rwa [hF]) (by rwa [hF]))
  rwa [hF] at hp

/-- It is not a block of the inode `i`. -/
theorem Owned.other_ne (h : Owned sb (update F i d) m) (hi : i < sb.ninodes) (ht : d.type ≠ 0)
    (hi' : j < sb.ninodes) (hne : j ≠ i) (ht' : (F j).type ≠ 0) (hs : (F j).slot m s ≠ 0)
    (r : AddrSlot) : (F j).slot m s ≠ d.slot m r := by
  intro he
  have hF : update F i d j = F j := update_of_ne hne _ _
  have hp : place sb (update F i d) m (j, s) = some ((update F i d j).slot m s) :=
    place_of_slot hi' (by rwa [hF]) (by rwa [hF])
  rw [hF] at hp
  have hp' : place sb (update F i d) m (i, r) = some (d.slot m r) := place_self hi ht (he ▸ hs)
  exact hne (congrArg Prod.fst (h.owns.unique _ _ _ hp (hp'.trans (congrArg some he.symm))))

/-- Bytes written to a block of the content of `i`. -/
theorem Owned.apart_store (h : Owned sb (update F i d) m) (hi : i < sb.ninodes) (ht : d.type ≠ 0)
    (hb : d.blockAt m k ≠ 0) {l : List Byte} {o : ℕ} (ho : o + l.length ≤ BSIZE) :
    Apart sb F i m (Bytes.store m (d.blockAt m k * BSIZE + o) l) := by
  intro i' hi' hne ht' s p hp hs
  obtain ⟨r, -, hr⟩ := exists_slotAt hb
  have hdiff := h.other_ne hi ht hi' hne ht' hs r
  rw [← hr] at hdiff
  exact store_block_of_ne ho hdiff (Nat.le_add_right _ _) (by omega)

/-- `iupdate` writes to no data block. -/
theorem Owned.apart_iupdate (h : Owned sb (update F i d) m) (hi : i < sb.ninodes) :
    Apart sb F i m (iupdate sb m d' i) := by
  intro i' hi' hne ht' s p hp hs
  have hused := (h.other_used hi' hne ht' hs).1
  have hle := Nat.mul_le_mul_right BSIZE hused
  have hlt := dinodeAddr_lt hi
  have hmap : sb.bmapstart < sb.nmeta := bmapstart_lt
  have hmul : sb.bmapstart * BSIZE ≤ sb.nmeta * BSIZE := Nat.mul_le_mul_right BSIZE hmap.le
  exact iupdate_of_outside (.inr (by omega))

/-- The blocks are where they were after `iupdate`. -/
theorem Owned.blockAt_iupdate (h : Owned sb (update F i d) m) (hi : i < sb.ninodes)
    (ht : d.type ≠ 0) (ha : d'.addrs = d.addrs) :
    d'.blockAt (iupdate sb m d'' i) k = d.blockAt m k := by
  have hm := sameRest_iupdate (m := m) (d := d'') hi
  have hF : update F i d i = d := update_self _ _ _
  have hslot : d.slot (iupdate sb m d'' i) = d.slot m := by
    funext s
    have hs := h.slot_of_words hm.word hi (by rwa [hF]) s
    rwa [hF] at hs
  rw [blockAt_addrs ha, Dinode.blockAt, hslot]
  rfl

/-! ## bmap on any disk -/

/-- `balloc` gives no block if all of them are marked. -/
theorem freeBlocks_of_balloc (hm : ∀ b < sb.nmeta, inUse sb m b = true)
    (h : (balloc sb m).1 = 0) : freeBlocks sb m = ∅ := by
  rcases balloc_cases hm with heq | ⟨b, hb, heq⟩
  · refine Finset.filter_eq_empty_iff.2 fun c hc hfree => ?_
    unfold balloc at h
    cases hf : (List.range sb.size).find? fun b => !inUse sb m b with
    | none =>
      have hno := List.find?_eq_none.1 hf c (List.mem_range.2 (Finset.mem_range.1 hc))
      simp [hfree] at hno
    | some b =>
      rw [hf] at h
      have hb : inUse sb m b = false := by simpa using List.find?_some hf
      obtain rfl : b = 0 := h
      rw [hm 0 nmeta_pos] at hb
      cases hb
  · rw [heq] at h
    exact absurd h hb.ne_zero

/-- `balloc` writes to no block in use. -/
theorem balloc_keeps (hm : ∀ b < sb.nmeta, inUse sb m b = true) (hc : c ∈ used sb m) {o : ℕ}
    (ho : o < BSIZE) : (balloc sb m).2 (c * BSIZE + o) = m (c * BSIZE + o) := by
  rcases balloc_cases hm with heq | ⟨b, hb, heq⟩
  · rw [heq]
  · rw [heq]
    refine mark_bzero hb hc.1 ?_ ho
    rintro rfl
    exact hb.notMem hc

theorem addrAt_keeps (hm : ∀ b < sb.nmeta, inUse sb m b = true) (hc : c ∈ used sb m) {o : ℕ}
    (ho : o < BSIZE) (k : Fin (NDIRECT + 1)) :
    (addrAt sb m d k).2.2 (c * BSIZE + o) = m (c * BSIZE + o) := by
  unfold addrAt
  split
  · dsimp only
    split
    · exact balloc_keeps hm hc ho
    · exact balloc_keeps hm hc ho
  · rfl

theorem entryAt_keeps (hm : ∀ b < sb.nmeta, inUse sb m b = true) (hc : c ∈ used sb m) (hne : c ≠ b)
    (hj : j < NINDIRECT) {o : ℕ} (ho : o < BSIZE) :
    (entryAt sb m b j).2 (c * BSIZE + o) = m (c * BSIZE + o) := by
  unfold entryAt
  split
  · dsimp only
    split
    · exact balloc_keeps hm hc ho
    · have hj' : j < 256 := hj
      dsimp only
      rw [put, store_block_of_ne _ hne (Nat.le_add_right _ _) (by omega)]
      · exact balloc_keeps hm hc ho
      · rw [length_toBytes, BSIZE]
        omega
  · rfl

theorem addrAt_zero (hm : ∀ b < sb.nmeta, inUse sb m b = true) {k : Fin (NDIRECT + 1)}
    (h : (addrAt sb m d k).1 = 0) : freeBlocks sb (addrAt sb m d k).2.2 = ∅ := by
  unfold addrAt at h ⊢
  split at h
  · next hk =>
    rw [if_pos hk]
    dsimp only at h ⊢
    split at h
    · next h0 =>
      rw [if_pos h0]
      rcases balloc_cases hm with heq | ⟨b, hb, heq⟩
      · rw [heq]
        exact freeBlocks_of_balloc hm h0
      · rw [heq] at h0
        exact absurd h0 hb.ne_zero
    · next h0 => exact absurd h h0
  · next hk => exact absurd h hk

theorem entryAt_zero (hm : ∀ b < sb.nmeta, inUse sb m b = true)
    (h : (entryAt sb m b j).1 = 0) : freeBlocks sb (entryAt sb m b j).2 = ∅ := by
  unfold entryAt at h ⊢
  split at h
  · next hk =>
    rw [if_pos hk]
    dsimp only at h ⊢
    split at h
    · next h0 =>
      rw [if_pos h0]
      rcases balloc_cases hm with heq | ⟨b, hb, heq⟩
      · rw [heq]
        exact freeBlocks_of_balloc hm h0
      · rw [heq] at h0
        exact absurd h0 hb.ne_zero
    · next h0 => exact absurd h h0
  · next hk => exact absurd h hk

/-- What `bmap` for a block of the inode `i` leaves. -/
structure Mapped (sb : Superblock) (F : ℕ → Dinode) (i bn : ℕ) (d : Dinode) (m : Mem)
    (b : ℕ) (d' : Dinode) (m' : Mem) : Prop where
  added : Added sb F i d m d' m'
  apart : Apart sb F i m m'
  block : b ≠ 0 → d'.blockAt m' bn = b
  full : b = 0 → freeBlocks sb m' = ∅

/-- Work that writes to no block in use but the indirect block. -/
theorem Worked.of_keeps (hw : Worked sb F i d m d' m') (h : Owned sb (update F i d) m)
    (hi : i < sb.ninodes) (ht : d.type ≠ 0)
    (hk : ∀ c ∈ used sb m, c ≠ d'.ind → ∀ o < BSIZE, m' (c * BSIZE + o) = m (c * BSIZE + o)) :
    Added sb F i d m d' m' ∧ Apart sb F i m m' := by
  have ht' : d'.type ≠ 0 := by rwa [hw.grows.type_eq]
  refine ⟨⟨hw, fun k o ho hb => ?_⟩, fun i' hi' hne ht'' s o ho hs => ?_⟩
  · refine hk _ (h.block_used hi ht hb) ?_ o ho
    have hb' := hw.grows.blockAt hb
    rw [← hb'] at hb ⊢
    exact hw.owned.block_ne_ind hi ht' hb
  · refine hk _ (h.other_used hi' hne ht'' hs) ?_ o ho
    have hslot := hw.frame.slot i' hi' hne ht'' s
    rw [← hslot] at hs ⊢
    exact hw.owned.other_ne hi ht' hi' hne ht'' hs (.addr (Fin.last NDIRECT))

theorem bmap_mapped (h : Owned sb (update F i d) m) (hi : i < sb.ninodes) (ht : d.type ≠ 0)
    {bn : ℕ} (hbn : bn < MAXFILE) :
    ∃ b d' m', bmap sb m d bn = .ok (b, d', m') ∧ Mapped sb F i bn d m b d' m' := by
  have hm := h.meta_inUse
  have hspec := bmap_spec h hi ht bn
  unfold bmap at hspec ⊢
  split
  · next hlt =>
    rw [dif_pos hlt] at hspec
    obtain ⟨hw, hb⟩ := hspec
    obtain ⟨hadd, hap⟩ := hw.of_keeps h hi ht fun c hc _ o ho => addrAt_keeps hm hc ho _
    exact ⟨_, _, _, rfl, hadd, hap, hb, addrAt_zero hm⟩
  · next hlt =>
    have hlt' : bn - NDIRECT < NINDIRECT := by
      rw [MAXFILE] at hbn
      omega
    rw [dif_neg hlt, if_pos hlt'] at hspec
    rw [if_pos hlt']
    dsimp only at hspec ⊢
    obtain ⟨hw₁, hk⟩ := addrAt_spec h hi ht (Fin.last NDIRECT)
    by_cases h0 : (addrAt sb m d (Fin.last NDIRECT)).1 = 0
    · rw [if_pos h0] at hspec ⊢
      obtain ⟨hw, hb⟩ := hspec
      obtain ⟨hadd, hap⟩ := hw.of_keeps h hi ht fun c hc _ o ho => addrAt_keeps hm hc ho _
      exact ⟨_, _, _, rfl, hadd, hap, hb, addrAt_zero hm⟩
    · rw [if_neg h0] at hspec ⊢
      obtain ⟨hw, hb⟩ := hspec
      have hind : (addrAt sb m d (Fin.last NDIRECT)).2.1.ind =
        (addrAt sb m d (Fin.last NDIRECT)).1 := hk
      have hmono : ∀ c ∈ used sb m, c ∈ used sb (addrAt sb m d (Fin.last NDIRECT)).2.2 := by
        intro c hc
        unfold addrAt
        split
        · dsimp only
          rcases balloc_cases hm with heq | ⟨b, hb, heq⟩
          · rwa [heq]
          · rw [heq]
            rw [if_neg hb.ne_zero]
            exact ((allocated hb).mem_used hb).2 (.inr hc)
        · exact hc
      obtain ⟨hadd, hap⟩ := hw.of_keeps h hi ht fun c hc hne o ho => by
        rw [entryAt_keeps hw₁.owned.meta_inUse (hmono c hc) (hind ▸ hne) hlt' ho]
        exact addrAt_keeps hm hc ho _
      exact ⟨_, _, _, rfl, hadd, hap, hb, entryAt_zero hw₁.owned.meta_inUse⟩

/-! ## The loop of `writei` -/

section Defs

variable (sb : Superblock) (src : ℕ → Option Byte) (n : ℕ)

/-- The loop of `writei` ends with a byte that cannot be read. -/
def writeFaults : ℕ → ℕ → ℕ → Mem → Dinode → Bool
  | 0, tot, off, m, d => false
  | fuel + 1, tot, off, m, d =>
    if tot < n then
      match bmap sb m d (off / BSIZE) with
      | .error _ => false
      | .ok r =>
        if r.1 = 0 then false
        else
          let k := Min.min (n - tot) (BSIZE - off % BSIZE)
          let data := copyin src tot k
          let m := store r.2.2 (r.1 * BSIZE + off % BSIZE) data
          if data.length = k then writeFaults fuel (tot + k) (off + k) m r.2.1 else true
    else false

end Defs

theorem copyin_none {p k : ℕ} (h : src p = none) : copyin src p (k + 1) = [] := by
  rw [copyin, h]

theorem copyin_some {p k : ℕ} {a : Byte} (h : src p = some a) :
    copyin src p (k + 1) = a :: copyin src (p + 1) k := by
  rw [copyin, h]

/-- The bytes that were copied could be read. -/
theorem copyin_getElem? {p k : ℕ} (hj : j < (copyin src p k).length) :
    (copyin src p k)[j]? = src (p + j) := by
  induction k generalizing p j with
  | zero => exact absurd hj (Nat.not_lt_zero j)
  | succ k ih =>
    cases hp : src p with
    | none =>
      rw [copyin_none hp] at hj
      exact absurd hj (Nat.not_lt_zero j)
    | some a =>
      rw [copyin_some hp] at hj ⊢
      cases j with
      | zero => exact hp.symm
      | succ j =>
        rw [List.getElem?_cons_succ, ih (Nat.lt_of_succ_lt_succ hj), Nat.add_right_comm,
          Nat.add_assoc]

/-- `either_copyin` stops at a byte that cannot be read. -/
theorem copyin_stop {p k : ℕ} (h : (copyin src p k).length < k) :
    src (p + (copyin src p k).length) = none := by
  induction k generalizing p with
  | zero => exact absurd h (Nat.not_lt_zero _)
  | succ k ih =>
    cases hp : src p with
    | none =>
      rw [copyin_none hp]
      exact hp
    | some a =>
      rw [copyin_some hp, List.length_cons] at h ⊢
      have hstop := ih (p := p + 1) (Nat.lt_of_succ_lt_succ h)
      rwa [Nat.add_right_comm, Nat.add_assoc] at hstop

/-- The loop of `writei` has returned `t`, with the bytes up to `r` copied. -/
structure Wrote (sb : Superblock) (F : ℕ → Dinode) (i : ℕ) (src : ℕ → Option Byte) (off n tot : ℕ)
    (d : Dinode) (m : Mem) (faults : Bool) (t r : ℕ) (d' : Dinode) (m' : Mem) : Prop where
  tot_le : tot ≤ t
  le_copied : t ≤ r
  copied_le : r ≤ n
  worked : Worked sb F i d m d' m'
  apart : Apart sb F i m m'
  /-- It stops at the beginning of a block, if not where it started. -/
  start : t = tot ∨ (off + t) % BSIZE = 0 ∨ t = n
  ends : faults = false → r = t ∧ (t = n ∨ freeBlocks sb m' = ∅)
  fault : faults = true → r < n ∧ src r = none ∧ (off + r) / BSIZE = (off + t) / BSIZE ∧
    d'.blockAt m' ((off + t) / BSIZE) ≠ 0
  copied : ∀ x, off + tot ≤ x → x < off + r →
    d'.blockAt m' (x / BSIZE) ≠ 0 ∧ src (x - off) = some (d'.byteAt m' x)
  kept : ∀ x, x < off + tot ∨ off + r ≤ x → d.blockAt m (x / BSIZE) ≠ 0 →
    d'.byteAt m' x = d.byteAt m x

theorem writeLoop_wrote (src : ℕ → Option Byte) {off n : ℕ} (hi : i < sb.ninodes) (hmax : off + n ≤ MAXFILE * BSIZE)
    (fuel : ℕ) :
    ∀ (tot : ℕ) (m : Mem) (d : Dinode), tot ≤ n → n - tot ≤ fuel →
      Owned sb (update F i d) m → d.type ≠ 0 →
      ∃ t r d' m', writeLoop sb src n fuel tot (off + tot) m d = .ok (t, off + t, d', m') ∧
        Wrote sb F i src off n tot d m (writeFaults sb src n fuel tot (off + tot) m d)
          t r d' m' := by
  induction fuel with
  | zero =>
    intro tot m d hle hfuel h ht
    obtain rfl : tot = n := by omega
    refine ⟨tot, tot, d, m, rfl, le_rfl, le_rfl, le_rfl, .refl h, .refl, .inl rfl,
      fun _ => ⟨rfl, .inl rfl⟩, fun hf => Bool.noConfusion hf, fun x h₁ h₂ => ?_, fun _ _ _ => rfl⟩
    omega
  | succ fuel ih =>
    intro tot m d hle hfuel h ht
    by_cases htot : tot < n
    · have hbn : (off + tot) / BSIZE < MAXFILE :=
        Nat.div_lt_of_lt_mul (by rw [Nat.mul_comm]; omega)
      obtain ⟨b, d₁, m₁, heq, hmap⟩ := bmap_mapped h hi ht hbn
      have hadd := hmap.added
      have ht₁ : d₁.type ≠ 0 := by rwa [hadd.worked.grows.type_eq]
      by_cases hb : b = 0
      · -- there is no block for the rest
        refine ⟨tot, tot, d₁, m₁, ?_, le_rfl, le_rfl, hle, hadd.worked, hmap.apart, .inl rfl,
          fun _ => ⟨rfl, .inr (hmap.full hb)⟩, fun hf => ?_, fun x h₁ h₂ => ?_, fun x _ hx =>
          hadd.byteAt hx⟩
        · rw [writeLoop, if_pos htot, heq, Except.bind]
          simp only [hb, if_true]
        · rw [writeFaults, if_pos htot, heq] at hf
          simp [hb] at hf
        · omega
      · have hblock := hmap.block hb
        rw [← hblock] at hb
        obtain ⟨k, hk⟩ : ∃ k, k = Min.min (n - tot) (BSIZE - (off + tot) % BSIZE) := ⟨_, rfl⟩
        have hmod : (off + tot) % BSIZE < BSIZE := Nat.mod_lt _ (by decide)
        have hdiv := Nat.div_add_mod (off + tot) BSIZE
        obtain ⟨l, hl⟩ : ∃ l, l = copyin src tot k := ⟨_, rfl⟩
        have hlen : l.length ≤ k := hl ▸ length_copyin
        have hget : ∀ j < l.length, l[j]? = src (tot + j) := by
          subst hl
          exact fun j hj => copyin_getElem? hj
        have hfit : (off + tot) % BSIZE + l.length ≤ BSIZE := by omega
        have hstore := hadd.worked.owned.store hi ht₁ hb hfit
        have hap := hadd.worked.owned.apart_store hi ht₁ hb hfit
        obtain ⟨m₂, hm₂⟩ : ∃ m₂, m₂ = store m₁
          (d₁.blockAt m₁ ((off + tot) / BSIZE) * BSIZE + (off + tot) % BSIZE) l := ⟨_, rfl⟩
        have hbyte := fun x => byteAt_store (x := x) hadd.worked.owned hi ht₁ hb hfit
        rw [← hm₂] at hstore hbyte hap
        have hw₂ := hadd.worked.trans hstore
        have hap₂ : Apart sb F i m m₂ := hmap.apart.trans hadd.worked.frame hap
        -- what is at `x` after this round
        have hin : ∀ x, off + tot ≤ x → x < off + tot + l.length →
            d₁.blockAt m₂ (x / BSIZE) ≠ 0 ∧ src (x - off) = some (d₁.byteAt m₂ x) := by
          intro x h₁ h₂
          have hxb : x / BSIZE = (off + tot) / BSIZE := by
            simp only [BSIZE] at *
            omega
          refine ⟨?_, ?_⟩
          · rw [hxb, hstore.grows.blockAt hb]
            exact hb
          · have hxl : x - (off + tot) < l.length := by omega
            have hsrc := hget _ hxl
            have hx : tot + (x - (off + tot)) = x - off := by omega
            rw [hbyte x (hxb ▸ hb), if_pos h₁, ← hx, ← hsrc, List.getElem?_eq_getElem hxl,
              Option.getD_some]
        have hout : ∀ x, x < off + tot ∨ off + tot + l.length ≤ x → d.blockAt m (x / BSIZE) ≠ 0 →
            d₁.byteAt m₂ x = d.byteAt m x := by
          intro x hx hxb
          have hne₁ : d₁.blockAt m₁ (x / BSIZE) ≠ 0 := by
            rw [hadd.worked.grows.blockAt hxb]
            exact hxb
          rw [hbyte x hne₁, ← hadd.byteAt hxb]
          split_ifs with hle'
          · rw [List.getElem?_eq_none (by omega), Option.getD_none]
          · rfl
        by_cases hfull : l.length = k
        · -- the block is copied, and the loop goes on
          have hkn : tot + k ≤ n := by omega
          have hkpos : 0 < k := by omega
          obtain ⟨t, r, d₃, m₃, heq₃, hw⟩ := ih (tot + k) m₂ d₁ hkn (by omega) hw₂.owned ht₁
          have hflt : writeFaults sb src n (fuel + 1) tot (off + tot) m d =
              writeFaults sb src n fuel (tot + k) (off + (tot + k)) m₂ d₁ := by
            rw [writeFaults, if_pos htot, heq]
            simp only [← hblock, if_neg hb, ← hk, ← hl, hfull, if_true, ← hm₂, Nat.add_assoc]
          refine ⟨t, r, d₃, m₃, ?_, ?_⟩
          · rw [writeLoop, if_pos htot, heq, Except.bind]
            simp only [← hblock, if_neg hb, ← hk, ← hl, hfull, if_true, ← hm₂]
            rw [Nat.add_assoc]
            exact heq₃
          · rw [hflt]
            refine ⟨by have := hw.tot_le; omega, hw.le_copied, hw.copied_le, hw₂.trans hw.worked,
              hap₂.trans hw₂.frame hw.apart, ?_, hw.ends, hw.fault, fun x h₁ h₂ => ?_,
              fun x hx hxb => ?_⟩
            · rcases hw.start with rfl | hstart
              · refine .inr ?_
                simp only [BSIZE] at *
                omega
              · exact .inr hstart
            · by_cases hx : off + (tot + k) ≤ x
              · exact hw.copied x hx h₂
              · obtain ⟨hne, hsrc⟩ := hin x h₁ (by omega)
                rw [← hw.kept x (.inl (by omega)) hne] at hsrc
                refine ⟨?_, hsrc⟩
                rw [hw.worked.grows.blockAt hne]
                exact hne
            · have hne : d₁.blockAt m₂ (x / BSIZE) ≠ 0 := by
                rw [hw₂.grows.blockAt hxb]
                exact hxb
              rw [hw.kept x (hx.imp_left fun hx => by omega) hne]
              refine hout x (hx.imp id fun hx => ?_) hxb
              have := hw.tot_le
              have := hw.le_copied
              omega
        · -- a byte of the block cannot be read
          have hlt : l.length < k := by omega
          have hnone : src (tot + l.length) = none := by
            subst hl
            exact copyin_stop hlt
          have hflt : writeFaults sb src n (fuel + 1) tot (off + tot) m d = true := by
            rw [writeFaults, if_pos htot, heq]
            simp only [← hblock, if_neg hb, ← hk, ← hl, if_neg hfull]
          refine ⟨tot, tot + l.length, d₁, m₂, ?_, ?_⟩
          · rw [writeLoop, if_pos htot, heq, Except.bind]
            simp only [← hblock, if_neg hb, ← hk, ← hl, if_neg hfull, ← hm₂]
          · rw [hflt]
            refine ⟨le_rfl, Nat.le_add_right _ _, by omega, hw₂, hap₂, .inl rfl,
              fun hf => Bool.noConfusion hf, fun _ => ⟨by omega, hnone, ?_, ?_⟩, ?_, ?_⟩
            · simp only [BSIZE] at *
              omega
            · rw [hstore.grows.blockAt hb]
              exact hb
            · exact fun x h₁ h₂ => hin x h₁ (by omega)
            · exact fun x hx hxb => hout x (hx.imp id fun hx => by omega) hxb
    · obtain rfl : tot = n := by omega
      refine ⟨tot, tot, d, m, ?_, le_rfl, le_rfl, le_rfl, .refl h, .refl, .inl rfl,
        fun _ => ⟨rfl, .inl rfl⟩, fun hf => ?_, fun x h₁ h₂ => ?_, fun _ _ _ => rfl⟩
      · rw [writeLoop, if_neg htot]
      · rw [writeFaults, if_neg htot] at hf
        cases hf
      · omega

end Fs

end CowPbs
