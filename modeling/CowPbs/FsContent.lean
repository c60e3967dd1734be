import Mathlib
import CowPbs.FsConsistent

/-!
# The content of a file

The bytes of a file are those of the blocks that its inode names (`Dinode.byteAt`). Work on the
inode that gives it new blocks leaves the bytes of those it had (`Added`), and needs no more free
blocks than there are empty places on the way to the blocks it is about (`Room`). So a write of
bytes that can be read goes through to its last byte, and changes the bytes in its range and no
others (`writei_content`), and a read gives the bytes of its range (`readi_content`).
-/

set_option linter.unusedSectionVars false

open Bytes Function Outcome Ownership

namespace CowPbs

/-- The byte at `x` of the content. -/
def Dinode.byteAt (d : Dinode) (m : Mem) (x : ℕ) : Byte :=
  m (d.blockAt m (x / BSIZE) * BSIZE + x % BSIZE)

/-- The bytes of the content from `off` on, `n` of them. -/
def Dinode.slice (d : Dinode) (m : Mem) (off n : ℕ) : List Byte :=
  (List.range n).map fun k => d.byteAt m (off + k)

/-- The places `bmap` looks at for the block `bn`. -/
def slotsAt (bn : ℕ) : Finset AddrSlot :=
  (slotAt bn).toFinset ∪ if bn < NDIRECT then ∅ else {.addr (Fin.last NDIRECT)}

/-- The places `bmap` looks at for `n` bytes from `off` on. -/
def slotsOf (off n : ℕ) : Finset AddrSlot :=
  ((Finset.range ((off + n + BSIZE - 1) / BSIZE)).filter fun bn => off / BSIZE ≤ bn).biUnion slotsAt

/-- The places of `S` without a block. -/
def Dinode.missing (d : Dinode) (m : Mem) (S : Finset AddrSlot) : Finset AddrSlot :=
  S.filter fun s => d.slot m s = 0

namespace Fs

/-- The blocks that the free map does not mark. -/
def freeBlocks (sb : Superblock) (m : Mem) : Finset ℕ :=
  (Finset.range sb.size).filter fun b => inUse sb m b = false

/-- There is a free block for each place of `S` without one. -/
def Room (sb : Superblock) (m : Mem) (d : Dinode) (S : Finset AddrSlot) : Prop :=
  (d.missing m S).card ≤ (freeBlocks sb m).card

variable {sb : Superblock} {F : ℕ → Dinode} {d d' d'' : Dinode} {m m' m'' : Mem}
  {b c i j k : ℕ} {S : Finset AddrSlot} {s : AddrSlot}

/-! ## Where the bytes are -/

theorem slotAt_injective (h : slotAt j = some s) (h' : slotAt k = some s) : j = k := by
  unfold slotAt at h h'
  split at h
  · split at h'
    · rw [← h'] at h
      have heq := Fin.castSucc_injective _ (AddrSlot.addr.inj (Option.some.inj h))
      exact Fin.mk.inj heq
    · split at h' <;> simp [← h'] at h
  · split at h
    · split at h'
      · simp [← h'] at h
      · split at h'
        · rw [← h'] at h
          have heq := Fin.mk.inj (AddrSlot.entry.inj (Option.some.inj h))
          omega
        · cases h'
    · cases h

theorem exists_slotAt (hb : d.blockAt m k ≠ 0) :
    ∃ s, slotAt k = some s ∧ d.blockAt m k = d.slot m s := by
  unfold Dinode.blockAt at hb ⊢
  cases hs : slotAt k with
  | none => simp [hs] at hb
  | some s => exact ⟨s, rfl, rfl⟩

namespace Owned

variable (h : Owned sb (update F i d) m) (hi : i < sb.ninodes) (ht : d.type ≠ 0)
include h hi ht

/-- A block of the content is a data block in use. -/
theorem block_used (hb : d.blockAt m k ≠ 0) :
    sb.nmeta ≤ d.blockAt m k ∧ d.blockAt m k < sb.size ∧ inUse sb m (d.blockAt m k) = true := by
  obtain ⟨s, -, hs⟩ := exists_slotAt hb
  rw [hs] at hb ⊢
  exact h.of_place (place_self hi ht hb)

/-- Two blocks of the content are two blocks. -/
theorem block_inj (hj : d.blockAt m j ≠ 0) (hjk : d.blockAt m k = d.blockAt m j) : k = j := by
  have hk : d.blockAt m k ≠ 0 := hjk ▸ hj
  obtain ⟨s, hs, hjs⟩ := exists_slotAt hj
  obtain ⟨s', hs', hks⟩ := exists_slotAt hk
  rw [hjs] at hj
  rw [hks] at hk
  have hp : place sb (update F i d) m (i, s) = some (d.slot m s) := place_self hi ht hj
  have hp' : place sb (update F i d) m (i, s') = some (d.slot m s') := place_self hi ht hk
  rw [hks, hjs] at hjk
  have heq := h.owns.unique _ _ _ hp' (hp.trans (congrArg some hjk.symm))
  exact slotAt_injective (hs'.trans (congrArg some (congrArg Prod.snd heq))) hs

/-- A block of the content is not the indirect block. -/
theorem block_ne_ind (hb : d.blockAt m k ≠ 0) : d.blockAt m k ≠ d.ind := by
  intro he
  obtain ⟨s, hs, hks⟩ := exists_slotAt hb
  have hind : d.slot m (.addr (Fin.last NDIRECT)) ≠ 0 := fun h0 => hb (he.trans h0)
  have hp : place sb (update F i d) m (i, .addr (Fin.last NDIRECT)) =
      some (d.slot m (.addr (Fin.last NDIRECT))) := place_self hi ht hind
  rw [hks] at hb he
  have hp' : place sb (update F i d) m (i, s) = some (d.slot m s) := place_self hi ht hb
  have heq := h.owns.unique _ _ _ hp' (hp.trans (congrArg some he.symm))
  exact slotAt_ne_last (hs.trans (congrArg some (congrArg Prod.snd heq)))

end Owned

/-! ## New blocks -/

/-- Work on the inode `i` that frees nothing and writes to no block of its content. -/
structure Added (sb : Superblock) (F : ℕ → Dinode) (i : ℕ) (d : Dinode) (m : Mem)
    (d' : Dinode) (m' : Mem) : Prop where
  worked : Worked sb F i d m d' m'
  keeps : ∀ k o, o < BSIZE → d.blockAt m k ≠ 0 →
    m' (d.blockAt m k * BSIZE + o) = m (d.blockAt m k * BSIZE + o)

theorem Added.refl (h : Owned sb (update F i d) m) : Added sb F i d m d m :=
  ⟨.refl h, fun _ _ _ _ => rfl⟩

theorem Added.trans (h : Added sb F i d m d' m') (h' : Added sb F i d' m' d'' m'') :
    Added sb F i d m d'' m'' where
  worked := h.worked.trans h'.worked
  keeps := by
    intro k o ho hk
    have hblock := h.worked.grows.blockAt hk
    rw [← hblock] at hk ⊢
    rw [h'.keeps k o ho hk, hblock]
    exact h.keeps k o ho (hblock ▸ hk)

theorem Added.byteAt (h : Added sb F i d m d' m') {x : ℕ} (hx : d.blockAt m (x / BSIZE) ≠ 0) :
    d'.byteAt m' x = d.byteAt m x := by
  rw [Dinode.byteAt, Dinode.byteAt, h.worked.grows.blockAt hx]
  exact h.keeps _ _ (Nat.mod_lt _ (by decide)) hx

/-- `balloc` writes to no block in use. -/
theorem mark_bzero (hb : Free sb m b) (hc : sb.nmeta ≤ c) (hne : c ≠ b) {o : ℕ} (ho : o < BSIZE) :
    bzero (mark sb m b) b (c * BSIZE + o) = m (c * BSIZE + o) := by
  have hlt := (bitAddr_lt hb.lt_size).2
  have hle : sb.nmeta * BSIZE ≤ c * BSIZE := Nat.mul_le_mul_right BSIZE hc
  rw [bzero_eq, store_block_of_ne (by simp) hne (Nat.le_add_right _ _) (by omega), mark,
    setBit_of_ne (by omega)]

/-- There is room for one place less when a block was put into one. -/
theorem Room.step (h : Room sb m d S) (hg : Grows d m d' m') (hs : s ∈ S) (h0 : d.slot m s = 0)
    (h1 : d'.slot m' s ≠ 0) (hb : b ∈ freeBlocks sb m)
    (hm : freeBlocks sb m' = (freeBlocks sb m).erase b) : Room sb m' d' S := by
  have hsub : d'.missing m' S ⊆ (d.missing m S).erase s := by
    intro r hr
    obtain ⟨hrS, hr0⟩ := Finset.mem_filter.1 hr
    refine Finset.mem_erase.2 ⟨?_, Finset.mem_filter.2 ⟨hrS, ?_⟩⟩
    · rintro rfl
      exact h1 hr0
    · by_contra hne
      rw [hg.slot r hne] at hr0
      exact hne hr0
  have hmem : s ∈ d.missing m S := Finset.mem_filter.2 ⟨hs, h0⟩
  have hcard := Finset.card_le_card hsub
  rw [Finset.card_erase_of_mem hmem] at hcard
  rw [Room, hm, Finset.card_erase_of_mem hb]
  have hroom : (d.missing m S).card ≤ (freeBlocks sb m).card := h
  omega

theorem Room.mono (h : Room sb m d S) (hg : Grows d m d' m')
    (hm : freeBlocks sb m' = freeBlocks sb m) : Room sb m' d' S := by
  rw [Room, hm]
  refine (Finset.card_le_card fun r hr => ?_).trans h
  obtain ⟨hrS, hr0⟩ := Finset.mem_filter.1 hr
  refine Finset.mem_filter.2 ⟨hrS, ?_⟩
  by_contra hne
  rw [hg.slot r hne] at hr0
  exact hne hr0

theorem freeBlocks_congr (h : ∀ b < sb.size, inUse sb m' b = inUse sb m b) :
    freeBlocks sb m' = freeBlocks sb m :=
  Finset.filter_congr fun b hb => by rw [h b (Finset.mem_range.1 hb)]

theorem Allocated.freeBlocks (h : Allocated sb m m' b) :
    freeBlocks sb m' = (freeBlocks sb m).erase b := by
  ext c
  simp only [Fs.freeBlocks, Finset.mem_filter, Finset.mem_range, Finset.mem_erase]
  constructor
  · rintro ⟨hc, hu⟩
    rw [h.inUse c hc, Bool.or_eq_false_iff, decide_eq_false_iff_not] at hu
    exact ⟨hu.2, hc, hu.1⟩
  · rintro ⟨hne, hc, hu⟩
    refine ⟨hc, ?_⟩
    rw [h.inUse c hc, hu, decide_eq_false hne, Bool.or_self]

/-- `balloc` finds a block if there is one. -/
theorem balloc_of_room (hm : ∀ b < sb.nmeta, inUse sb m b = true) (hS : Room sb m d S)
    (hs : s ∈ S) (h0 : d.slot m s = 0) :
    ∃ b, Free sb m b ∧ b ∈ freeBlocks sb m ∧ balloc sb m = (b, bzero (mark sb m b) b) := by
  have hpos : 0 < (freeBlocks sb m).card :=
    Nat.lt_of_lt_of_le (Finset.card_pos.2 ⟨s, Finset.mem_filter.2 ⟨hs, h0⟩⟩) hS
  obtain ⟨c, hc⟩ := Finset.card_pos.1 hpos
  obtain ⟨hlt, hfree⟩ := Finset.mem_filter.1 hc
  rcases balloc_cases hm with hnone | ⟨b, hb, heq⟩
  · exfalso
    unfold balloc at hnone
    split at hnone
    · next b hb =>
      have hb0 : b = 0 := (Prod.mk.inj hnone).1
      have hbf : inUse sb m b = false := by simpa using List.find?_some hb
      rw [hb0, hm 0 nmeta_pos] at hbf
      cases hbf
    · next hb =>
      have hno := List.find?_eq_none.1 hb c (List.mem_range.2 (Finset.mem_range.1 hlt))
      simp [hfree] at hno
  · exact ⟨b, hb, Finset.mem_filter.2 ⟨Finset.mem_range.2 hb.lt_size, hb.not_inUse⟩, heq⟩

section Bmap

variable (h : Owned sb (update F i d) m) (hi : i < sb.ninodes) (ht : d.type ≠ 0)
  (hroom : Room sb m d S)
include h hi ht hroom

theorem addrAt_room {k : Fin (NDIRECT + 1)} (hk : .addr k ∈ S) :
    ∃ d' m', addrAt sb m d k = (d'.addrs k, d', m') ∧ d'.addrs k ≠ 0 ∧
      Added sb F i d m d' m' ∧ Room sb m' d' S := by
  by_cases h0 : d.addrs k = 0
  · obtain ⟨b, hb, hbf, heq⟩ := balloc_of_room h.meta_inUse hroom hk h0
    have hw := h.setAddr hi ht h0 hb (allocated hb)
    have hself : (d.setAddr k b).addrs k = b := update_self _ _ _
    refine ⟨d.setAddr k b, bzero (mark sb m b) b, ?_, ?_, ⟨hw, fun j o ho hj => ?_⟩, ?_⟩
    · rw [addrAt, if_pos h0, heq, hself]
      exact if_neg hb.ne_zero
    · rw [hself]
      exact hb.ne_zero
    · have hused := h.block_used hi ht hj
      refine mark_bzero hb hused.1 ?_ ho
      rintro rfl
      exact hb.notMem hused
    · refine hroom.step hw.grows hk h0 ?_ hbf (allocated hb).freeBlocks
      rw [Dinode.slot, hself]
      exact hb.ne_zero
  · exact ⟨d, m, if_neg h0, h0, .refl h, hroom⟩

theorem entryAt_room (hd : d.ind ≠ 0) (hj : j < NINDIRECT) (hS : .entry ⟨j, hj⟩ ∈ S) :
    ∃ m', entryAt sb m d.ind j = (word m' d.ind j, m') ∧ word m' d.ind j ≠ 0 ∧
      Added sb F i d m d m' ∧ Room sb m' d S := by
  by_cases h0 : word m d.ind j = 0
  · have hslot : d.slot m (.entry ⟨j, hj⟩) = 0 := by
      rw [Dinode.slot, if_neg hd]
      exact h0
    obtain ⟨b, hb, hbf, heq⟩ := balloc_of_room h.meta_inUse hroom hS hslot
    have hw := h.setEntry hi ht hd hj h0 hb (allocated hb)
    have hword : word (setWord (bzero (mark sb m b) b) d.ind j b) d.ind j = b :=
      word_setWord hb.lt_word
    have hF : update F i d i = d := update_self _ _ _
    have hind := h.ind_used hi (by rwa [hF]) (by rwa [hF])
    rw [hF] at hind
    refine ⟨setWord (bzero (mark sb m b) b) d.ind j b, ?_, ?_, ⟨hw, fun k o ho hk => ?_⟩, ?_⟩
    · rw [entryAt, if_pos h0, heq, hword]
      exact if_neg hb.ne_zero
    · rw [hword]
      exact hb.ne_zero
    · -- a block of the content is neither the indirect block nor the new one
      have hused := h.block_used hi ht hk
      have hne : d.blockAt m k ≠ b := by
        rintro rfl
        exact hb.notMem hused
      rw [setWord, put, store_block_of_ne (c := d.blockAt m k) ?_ (h.block_ne_ind hi ht hk)
        (Nat.le_add_right _ _) (by omega)]
      · exact mark_bzero hb hused.1 hne ho
      · have hj' : j < 256 := hj
        rw [length_toBytes, BSIZE]
        omega
    · refine hroom.step hw.grows hS hslot ?_ hbf ?_
      · rw [Dinode.slot, if_neg hd, hword]
        exact hb.ne_zero
      · rw [← (allocated hb).freeBlocks]
        exact freeBlocks_congr (sameMeta_setWord hind.1).inUse
  · exact ⟨m, if_neg h0, h0, .refl h, hroom⟩

/-- `bmap` returns a block if there is room for it. -/
theorem bmap_room {bn : ℕ} (hbn : bn < MAXFILE) (hS : slotsAt bn ⊆ S) :
    ∃ d' m', bmap sb m d bn = .ok (d'.blockAt m' bn, d', m') ∧ d'.blockAt m' bn ≠ 0 ∧
      Added sb F i d m d' m' ∧ Room sb m' d' S := by
  unfold bmap
  split
  · next hlt =>
    have hk : AddrSlot.addr (Fin.castSucc ⟨bn, hlt⟩) ∈ S := hS (by simp [slotsAt, slotAt, hlt])
    obtain ⟨d', m', heq, hne, hadd, hroom'⟩ := addrAt_room h hi ht hroom hk
    refine ⟨d', m', ?_, ?_, hadd, hroom'⟩
    · rw [heq, blockAt_addr hlt]
    · rwa [blockAt_addr hlt]
  · next hlt =>
    have hlt' : bn - NDIRECT < NINDIRECT := by
      rw [MAXFILE] at hbn
      omega
    have hlast : AddrSlot.addr (Fin.last NDIRECT) ∈ S := hS (by simp [slotsAt, hlt])
    have hentry : AddrSlot.entry ⟨bn - NDIRECT, hlt'⟩ ∈ S :=
      hS (by simp [slotsAt, slotAt, hlt, hlt'])
    obtain ⟨d', m', heq, hne, hadd, hroom'⟩ := addrAt_room h hi ht hroom hlast
    have ht' : d'.type ≠ 0 := by rwa [hadd.worked.grows.type_eq]
    have hind : d'.ind ≠ 0 := hne
    obtain ⟨m'', heq', hne', hadd', hroom''⟩ :=
      entryAt_room hadd.worked.owned hi ht' hroom' hind hlt' hentry
    refine ⟨d', m'', ?_, ?_, hadd.trans hadd', hroom''⟩
    · rw [blockAt_entry hlt hlt', if_pos hlt', if_neg hind, heq]
      simp only [if_neg hne]
      change Except.ok ((entryAt sb m' d'.ind (bn - NDIRECT)).1, d',
        (entryAt sb m' d'.ind (bn - NDIRECT)).2) = _
      rw [heq']
    · rwa [blockAt_entry hlt hlt', if_neg hind]

end Bmap

/-! ## writei -/

theorem copyin_eq {src : ℕ → Option Byte} {g : ℕ → Byte} {p k : ℕ}
    (h : ∀ j < k, src (p + j) = some (g (p + j))) :
    copyin src p k = (List.range k).map fun j => g (p + j) := by
  induction k generalizing p with
  | zero => rfl
  | succ k ih =>
    have h0 : src p = some (g p) := h 0 (Nat.succ_pos k)
    have hrest : copyin src (p + 1) k = (List.range k).map fun j => g (p + 1 + j) := by
      refine ih fun j hj => ?_
      have hj' := h (j + 1) (Nat.succ_lt_succ hj)
      rwa [Nat.add_comm j 1, ← Nat.add_assoc] at hj'
    rw [copyin, h0]
    simp only [hrest, List.range_succ_eq_map, List.map_cons, List.map_map, Nat.add_zero]
    congr 1
    refine List.map_congr_left fun j _ => ?_
    rw [comp_apply, Nat.succ_eq_add_one, Nat.add_comm j 1, ← Nat.add_assoc]

/-- Bytes stored in a block of the content are in the content there, and nowhere else. -/
theorem byteAt_store (h : Owned sb (update F i d) m) (hi : i < sb.ninodes) (ht : d.type ≠ 0)
    {l : List Byte} {off x : ℕ} (hb : d.blockAt m (off / BSIZE) ≠ 0)
    (ho : off % BSIZE + l.length ≤ BSIZE) (hx : d.blockAt m (x / BSIZE) ≠ 0) :
    d.byteAt (store m (d.blockAt m (off / BSIZE) * BSIZE + off % BSIZE) l) x =
      if off ≤ x then (l[x - off]?).getD (d.byteAt m x) else d.byteAt m x := by
  have hw := h.store hi ht hb ho
  have hdiv := Nat.div_add_mod off BSIZE
  have hdivx := Nat.div_add_mod x BSIZE
  have hmod : x % BSIZE < BSIZE := Nat.mod_lt _ (by decide)
  rw [Dinode.byteAt, hw.grows.blockAt hx, Dinode.byteAt]
  by_cases hk : x / BSIZE = off / BSIZE
  · rw [hk]
    split_ifs with hle
    · obtain ⟨o, rfl⟩ := Nat.exists_eq_add_of_le hle
      have hxo : (off + o) % BSIZE = off % BSIZE + o := by
        rw [hk] at hdivx
        omega
      rw [Nat.add_sub_cancel_left, hxo, ← Nat.add_assoc]
      by_cases hol : o < l.length
      · rw [store_add hol, List.getElem?_eq_getElem hol, Option.getD_some]
      · rw [List.getElem?_eq_none (Nat.le_of_not_lt hol), Option.getD_none]
        exact store_of_outside (.inr (by omega))
    · refine store_of_outside (.inl ?_)
      rw [hk] at hdivx
      omega
  · have hne : d.blockAt m (x / BSIZE) ≠ d.blockAt m (off / BSIZE) :=
      fun he => hk (h.block_inj hi ht hb he)
    rw [store_block_of_ne ho hne (Nat.le_add_right _ _) (by omega)]
    split_ifs with hle
    · have hout : l.length ≤ x - off := by
        have hlt : off / BSIZE < x / BSIZE :=
          Nat.lt_of_le_of_ne (Nat.div_le_div_right hle) (Ne.symm hk)
        have hmul : BSIZE * (off / BSIZE + 1) ≤ BSIZE * (x / BSIZE) := Nat.mul_le_mul_left _ hlt
        rw [Nat.mul_add] at hmul
        omega
      rw [List.getElem?_eq_none hout, Option.getD_none]
    · rfl

theorem slotsAt_subset {off n k : ℕ} (hk : k < n) :
    slotsAt ((off + k) / BSIZE) ⊆ slotsOf off n := by
  refine Finset.subset_biUnion_of_mem slotsAt (Finset.mem_filter.2 ⟨Finset.mem_range.2 ?_, ?_⟩)
  · simp only [BSIZE]
    omega
  · exact Nat.div_le_div_right (Nat.le_add_right _ _)

/-- The loop of `writei` goes through to the end, and writes the bytes of its range. -/
theorem writeLoop_content {src : ℕ → Option Byte} {g : ℕ → Byte} {off n : ℕ}
    (hi : i < sb.ninodes) (hsrc : ∀ k < n, src k = some (g k))
    (hmax : off + n ≤ MAXFILE * BSIZE) (fuel : ℕ) :
    ∀ (tot : ℕ) (m : Mem) (d : Dinode), tot ≤ n → n - tot ≤ fuel →
      Owned sb (update F i d) m → d.type ≠ 0 → Room sb m d (slotsOf off n) →
      ∃ d' m', writeLoop sb src n fuel tot (off + tot) m d = .ok (n, off + n, d', m') ∧
        Worked sb F i d m d' m' ∧
        (∀ x, off + tot ≤ x → x < off + n →
          d'.blockAt m' (x / BSIZE) ≠ 0 ∧ d'.byteAt m' x = g (x - off)) ∧
        ∀ x, x < off + tot ∨ off + n ≤ x → d.blockAt m (x / BSIZE) ≠ 0 →
          d'.byteAt m' x = d.byteAt m x := by
  induction fuel with
  | zero =>
    intro tot m d hle hfuel h ht hroom
    obtain rfl : tot = n := by omega
    exact ⟨d, m, rfl, .refl h, fun x h₁ h₂ => absurd h₁ (Nat.not_le_of_lt h₂), fun _ _ _ => rfl⟩
  | succ fuel ih =>
    intro tot m d hle hfuel h ht hroom
    by_cases htot : tot < n
    · have hbn : (off + tot) / BSIZE < MAXFILE :=
        Nat.div_lt_of_lt_mul (by rw [Nat.mul_comm]; omega)
      obtain ⟨d₁, m₁, heq, hne, hadd, hroom₁⟩ :=
        bmap_room h hi ht hroom hbn (slotsAt_subset htot)
      have ht₁ : d₁.type ≠ 0 := by rwa [hadd.worked.grows.type_eq]
      obtain ⟨k, hk⟩ : ∃ k, k = min (n - tot) (BSIZE - (off + tot) % BSIZE) := ⟨_, rfl⟩
      have hmod : (off + tot) % BSIZE < BSIZE := Nat.mod_lt _ (by decide)
      have hkn : tot + k ≤ n := by omega
      obtain ⟨l, hl⟩ : ∃ l, l = (List.range k).map fun j => g (tot + j) := ⟨_, rfl⟩
      have hlen : l.length = k := by rw [hl, List.length_map, List.length_range]
      have hdata : copyin src tot k = l := by
        rw [hl]
        exact copyin_eq fun j hj => hsrc (tot + j) (by omega)
      have hfit : (off + tot) % BSIZE + l.length ≤ BSIZE := by omega
      have hstore := hadd.worked.owned.store hi ht₁ hne hfit
      obtain ⟨m₂, hm₂⟩ : ∃ m₂, m₂ = store m₁
        (d₁.blockAt m₁ ((off + tot) / BSIZE) * BSIZE + (off + tot) % BSIZE) l := ⟨_, rfl⟩
      have hbyte := fun x => byteAt_store (x := x) hadd.worked.owned hi ht₁ hne hfit
      have hmeta : SameMeta sb m₁ m₂ := by
        rw [hm₂]
        exact sameMeta_store (hadd.worked.owned.block_used hi ht₁ hne).1
      rw [← hm₂] at hstore hbyte
      have hroom₂ : Room sb m₂ d₁ (slotsOf off n) :=
        hroom₁.mono hstore.grows (freeBlocks_congr hmeta.inUse)
      obtain ⟨d₃, m₃, heq₃, hw₃, hin, hout⟩ :=
        ih (tot + k) m₂ d₁ hkn (by omega) hstore.owned ht₁ hroom₂
      refine ⟨d₃, m₃, ?_, (hadd.worked.trans hstore).trans hw₃, fun x h₁ h₂ => ?_,
        fun x hx hxb => ?_⟩
      · rw [writeLoop, if_pos htot, heq, Except.bind]
        simp only [if_neg hne, ← hk, hdata, hlen, ← hm₂, if_true]
        rw [Nat.add_assoc]
        exact heq₃
      · by_cases hx : off + (tot + k) ≤ x
        · exact hin x hx h₂
        · -- the byte is among those of this round
          have hdiv := Nat.div_add_mod (off + tot) BSIZE
          have hxb : x / BSIZE = (off + tot) / BSIZE := by
            simp only [BSIZE] at *
            omega
          have hne₂ : d₁.blockAt m₂ (x / BSIZE) ≠ 0 := by
            rw [hxb, hstore.grows.blockAt hne]
            exact hne
          refine ⟨?_, ?_⟩
          · rw [hw₃.grows.blockAt hne₂]
            exact hne₂
          · rw [hout x (.inl (by omega)) hne₂, hbyte x (hxb ▸ hne), if_pos h₁]
            have hxl : x - (off + tot) < l.length := by omega
            rw [List.getElem?_eq_getElem hxl, Option.getD_some]
            simp only [hl, List.getElem_map, List.getElem_range]
            congr 1
            omega
      · have hne₁ : d₁.blockAt m₁ (x / BSIZE) ≠ 0 := by
          rw [hadd.worked.grows.blockAt hxb]
          exact hxb
        have hne₂ : d₁.blockAt m₂ (x / BSIZE) ≠ 0 := by
          rw [hstore.grows.blockAt hne₁]
          exact hne₁
        rw [hout x (hx.imp_left fun hx => by omega) hne₂, hbyte x hne₁, ← hadd.byteAt hxb]
        split_ifs with hle'
        · rw [List.getElem?_eq_none (by omega), Option.getD_none]
        · rfl
    · obtain rfl : tot = n := by omega
      refine ⟨d, m, ?_, .refl h, fun x h₁ h₂ => absurd h₁ (Nat.not_le_of_lt h₂), fun _ _ _ => rfl⟩
      rw [writeLoop, if_neg htot]

/-- `iupdate` writes to no block of the content. -/
theorem byteAt_iupdate (h : Owned sb (update F i d) m) (hi : i < sb.ninodes) (ht : d.type ≠ 0)
    {x : ℕ} (hx : d.blockAt m (x / BSIZE) ≠ 0) (ha : d'.addrs = d.addrs) :
    d'.byteAt (iupdate sb m d'' i) x = d.byteAt m x := by
  have hm := sameRest_iupdate (m := m) (d := d'') hi
  have hF : update F i d i = d := update_self _ _ _
  have hslot : d.slot (iupdate sb m d'' i) = d.slot m := by
    funext s
    have hs := h.slot_of_words hm.word hi (by rwa [hF]) s
    rwa [hF] at hs
  have hblock : d'.blockAt (iupdate sb m d'' i) (x / BSIZE) = d.blockAt m (x / BSIZE) := by
    rw [blockAt_addrs ha, Dinode.blockAt, hslot]
    rfl
  have hle := Nat.mul_le_mul_right BSIZE (h.block_used hi ht hx).1
  have hlt := dinodeAddr_lt hi
  have hmap : sb.bmapstart < sb.nmeta := bmapstart_lt
  have hmul : sb.bmapstart * BSIZE ≤ sb.nmeta * BSIZE := Nat.mul_le_mul_right BSIZE hmap.le
  rw [Dinode.byteAt, Dinode.byteAt, hblock]
  exact iupdate_of_outside (.inr (by omega))

/-- `writei` of bytes that can be read, where there is room for them, writes them all. -/
theorem writei_content {src : ℕ → Option Byte} {g : ℕ → Byte} {off n : ℕ}
    (h : Owned sb (update F i d) m) (hi : i < sb.ninodes) (ht : d.type ≠ 0)
    (hs : readDinode sb m i = d) (hfull : Full m d) (hsrc : ∀ k < n, src k = some (g k))
    (hoff : off ≤ d.size) (hmax : off + n ≤ MAXFILE * BSIZE)
    (hroom : Room sb m d (slotsOf off n)) :
    ∃ d' m', writei sb m d i src off n = .ok (n, d', m') ∧ Settled sb F i m d' m' ∧
      d'.type = d.type ∧ d'.size = max d.size (off + n) ∧
      ∀ x < d'.size, d'.byteAt m' x =
        if off ≤ x ∧ x < off + n then g (x - off) else d.byteAt m x := by
  have hlt : off + n < 2 ^ 32 := by
    simp only [MAXFILE, NDIRECT, NINDIRECT, BSIZE] at hmax
    omega
  obtain ⟨d', m', heq, hw, hin, hout⟩ :=
    writeLoop_content hi hsrc hmax n 0 m d (Nat.zero_le n) (Nat.sub_zero n ▸ le_rfl) h ht hroom
  have hsize := hw.grows.size_eq
  obtain ⟨d'', hd''⟩ : ∃ d'', d'' = if d'.size < off + n then { d' with size := off + n }
      else d' := ⟨_, rfl⟩
  have haddrs : d''.addrs = d'.addrs := by
    rw [hd'']
    split_ifs <;> rfl
  have hval : writei sb m d i src off n = .ok (n, d'', iupdate sb m' d'' i) := by
    rw [writei, if_neg (by rw [Nat.mod_eq_of_lt hlt]; omega),
      if_neg (by rw [Nat.mod_eq_of_lt hlt]; omega)]
    rw [Nat.add_zero] at heq
    rw [heq, Except.bind, hd'']
  have hspec : Settled sb F i m d'' (iupdate sb m' d'' i) ∧ d''.type = d.type :=
    (writei_spec h hi ht hs hfull (by omega) (by omega)).of_ok hval
  refine ⟨d'', iupdate sb m' d'' i, hval, hspec.1, hspec.2, ?_, fun x hx => ?_⟩
  · rw [hd'']
    split_ifs with hgrow
    · simp only
      omega
    · omega
  · have ht' : d'.type ≠ 0 := by rwa [hw.grows.type_eq]
    have hx' : x < max d.size (off + n) := by
      refine lt_of_lt_of_le hx ?_
      rw [hd'']
      split_ifs with hgrow
      · simp only
        omega
      · omega
    by_cases hr : off ≤ x ∧ x < off + n
    · obtain ⟨hb, hbyte⟩ := hin x hr.1 hr.2
      rw [if_pos hr, byteAt_iupdate hw.owned hi ht' hb haddrs, hbyte]
    · have hb : d.blockAt m (x / BSIZE) ≠ 0 := hfull.blockAt (by omega)
      have hb' : d'.blockAt m' (x / BSIZE) ≠ 0 := by
        rw [hw.grows.blockAt hb]
        exact hb
      rw [if_neg hr, byteAt_iupdate hw.owned hi ht' hb' haddrs, hout x (by omega) hb]

/-! ## readi -/

theorem slice_add {off n n' : ℕ} :
    d.slice m off (n + n') = d.slice m off n ++ d.slice m (off + n) n' := by
  have htail : (List.range n').map ((fun k => d.byteAt m (off + k)) ∘ (n + ·)) =
      d.slice m (off + n) n' := by
    refine List.map_congr_left fun k _ => ?_
    rw [comp_apply, Nat.add_assoc]
  rw [Dinode.slice, List.range_add, List.map_append, List.map_map, htail]
  rfl

@[simp]
theorem length_slice {off n : ℕ} : (d.slice m off n).length = n := by
  rw [Dinode.slice, List.length_map, List.length_range]

theorem slice_congr {off n : ℕ} (h : ∀ x, off ≤ x → x < off + n → d'.byteAt m' x = d.byteAt m x) :
    d'.slice m' off n = d.slice m off n := by
  refine List.map_congr_left fun k hk => h _ (Nat.le_add_right _ _) ?_
  have hlt := List.mem_range.1 hk
  omega

/-- The bytes of one block. -/
theorem load_block {off k : ℕ} (hk : off % BSIZE + k ≤ BSIZE) :
    load m (d.blockAt m (off / BSIZE) * BSIZE + off % BSIZE) k = d.slice m off k := by
  refine List.map_congr_left fun j hj => ?_
  have hlt := List.mem_range.1 hj
  have hdiv := Nat.div_add_mod off BSIZE
  have hd : (off + j) / BSIZE = off / BSIZE := by
    simp only [BSIZE] at *
    omega
  have hm : (off + j) % BSIZE = off % BSIZE + j := by
    simp only [BSIZE] at *
    omega
  rw [Dinode.byteAt, hd, hm, Nat.add_assoc]

theorem readLoop_content (hfull : Full m d) {off n : ℕ} (hn : off + n ≤ d.size) (fuel : ℕ) :
    ∀ (tot : ℕ) (data : List Byte), tot ≤ n → n - tot ≤ fuel →
      readLoop sb (fun _ => true) n fuel tot (off + tot) data m d =
        .ok ⟨n, data ++ d.slice m (off + tot) (n - tot), d, m⟩ := by
  induction fuel with
  | zero =>
    intro tot data hle hfuel
    obtain rfl : tot = n := by omega
    simp [readLoop, Dinode.slice]
  | succ fuel ih =>
    intro tot data hle hfuel
    by_cases htot : tot < n
    · have hb : d.blockAt m ((off + tot) / BSIZE) ≠ 0 := hfull.blockAt (by omega)
      have hmod : (off + tot) % BSIZE < BSIZE := Nat.mod_lt _ (by decide)
      obtain ⟨k, hk⟩ : ∃ k, k = min (n - tot) (BSIZE - (off + tot) % BSIZE) := ⟨_, rfl⟩
      have hsplit : n - tot = k + (n - (tot + k)) := by omega
      rw [readLoop, if_pos htot, bmap_of_ne_zero hb, Except.bind]
      simp only [if_neg hb, ← hk, if_true]
      rw [load_block (by omega), Nat.add_assoc, ih (tot + k) _ (by omega) (by omega), hsplit,
        slice_add, List.append_assoc, Nat.add_assoc]
    · obtain rfl : tot = n := by omega
      rw [readLoop, if_neg htot]
      simp [Dinode.slice]

/-- `readi` to a buffer that can be written gives the bytes of its range, up to the end of the
file. -/
theorem readi_content (hfull : Full m d) {off n : ℕ} (hoff : off ≤ d.size)
    (hn : off + n < 2 ^ 32) :
    readi sb m d (fun _ => true) off n =
      .ok ⟨(min n (d.size - off) : ℕ), d.slice m off (min n (d.size - off)), d, m⟩ := by
  have hlen : (if d.size < off + n then d.size - off else n) = min n (d.size - off) := by
    split_ifs <;> omega
  have hle : off + min n (d.size - off) ≤ d.size := by omega
  have hloop : readLoop sb (fun _ => true) (min n (d.size - off)) (min n (d.size - off)) 0 (off + 0)
      [] m d = .ok _ :=
    readLoop_content hfull hle (min n (d.size - off)) 0 [] (Nat.zero_le _) (by omega)
  rw [readi, if_neg (by rw [Nat.mod_eq_of_lt hn]; omega)]
  simp only [hlen]
  simpa using hloop

end Fs

end CowPbs
