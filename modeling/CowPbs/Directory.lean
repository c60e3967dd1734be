import Mathlib
import CowPbs.Lib.SlotTable
import CowPbs.FsRefs
import CowPbs.FileArray

/-!
# Directories are finite maps

The content of a directory is a table of `struct dirent`s (`entries`), with holes where `inum` is
zero. `dirlookup` finds an entry by its name, `dirlink` puts a new one into the first hole or at the
end, for which the file may have to grow (`Extensible`), and `sys_unlink` makes a hole
(`clearEntry`). So after any links and clearings a lookup gives what was linked last and not cleared
since (`directory_is_map`).
-/

open Bytes Function Outcome Ownership Transition Overlay SlotTable

namespace CowPbs

namespace Fs

variable {sb : Superblock} {F : ℕ → Dinode} {d d' : Dinode} {m m' : Mem} {n i j k off : ℕ}
  {s t : Fs n} {ip jp : Fin n} {name : List Byte} {inum : ℕ}

/-! ## The table -/

/-- The name and the inode number of a `struct dirent`. -/
def decode (e : List Byte) : Option (List Byte × ℕ) :=
  if ofBytes (e.take 2) = 0 then none else some (cname (e.drop 2), ofBytes (e.take 2))

/-- The entries in the content of a directory. -/
def entries (c : List Byte) : List (Option (List Byte × ℕ)) :=
  (records DIRENT c).map decode

theorem length_cname_le : (cname name).length ≤ DIRSIZ :=
  (List.takeWhile_prefix _).length_le.trans (List.length_take_le _ _)

theorem length_dirent : (dirent name inum).length = DIRENT := by
  have h : (cname name).length ≤ DIRSIZ := length_cname_le
  simp only [dirent, List.length_append, length_toBytes, List.length_replicate, DIRSIZ, DIRENT] at *
  omega

/-- The name as it is stored. -/
theorem cname_padded : cname (cname name ++ List.replicate (DIRSIZ - (cname name).length) 0) =
    cname name := by
  have h : (cname name).length ≤ DIRSIZ := length_cname_le
  have hlen : (cname name ++ List.replicate (DIRSIZ - (cname name).length) (0 : Byte)).length =
      DIRSIZ := by
    rw [List.length_append, List.length_replicate]
    omega
  have hall : ∀ b ∈ cname name, decide (b ≠ 0) = true := by
    intro b hb
    unfold cname at hb
    have hne := List.mem_takeWhile_imp hb
    exact hne
  have hrest : (List.replicate (DIRSIZ - (cname name).length) (0 : Byte)).takeWhile (· ≠ 0) =
      [] := by
    cases DIRSIZ - (cname name).length with
    | zero => rfl
    | succ k => rw [List.replicate_succ, List.takeWhile_cons_of_neg (by simp)]
  conv_lhs => rw [cname, List.take_of_length_le hlen.le]
  rw [List.takeWhile_append_of_pos hall, hrest, List.append_nil]

theorem decode_dirent (h₁ : 1 ≤ inum) (h₂ : inum < 2 ^ 16) :
    decode (dirent name inum) = some (cname name, inum) := by
  have hlen : (toBytes 2 inum).length = 2 := length_toBytes
  have htake : (dirent name inum).take 2 = toBytes 2 inum := by
    rw [dirent, List.append_assoc, List.take_left' hlen]
  have hdrop : (dirent name inum).drop 2 =
      cname name ++ List.replicate (DIRSIZ - (cname name).length) 0 := by
    rw [dirent, List.append_assoc, List.drop_left' hlen]
  have hnum : ofBytes (toBytes 2 inum) = inum := by
    rw [ofBytes_toBytes]
    exact Nat.mod_eq_of_lt h₂
  rw [decode, htake, hdrop, hnum, cname_padded, if_neg (by omega)]

theorem decode_zero : decode (List.replicate DIRENT 0) = none := by
  decide

theorem entries_overlay {c e : List Byte} (hc : DIRENT ∣ c.length) (hk : k * DIRENT ≤ c.length)
    (he : e.length = DIRENT) :
    entries (overlay c (k * DIRENT) e) = overlay (entries c) k [decode e] := by
  rw [entries, records_overlay (by decide) hc hk he, overlay, overlay, entries]
  simp only [List.map_append, List.map_take, List.map_drop, List.map_cons, List.map_nil,
    List.length_singleton]

theorem dvd_overlay {c e : List Byte} (hc : DIRENT ∣ c.length) (hk : k * DIRENT ≤ c.length)
    (he : e.length = DIRENT) : DIRENT ∣ (overlay c (k * DIRENT) e).length := by
  rw [length_overlay hk, he]
  simp only [DIRENT] at *
  omega

/-! ## The loops -/

theorem offsets_eq (h : DIRENT ∣ d.size) :
    offsets d.size = (List.range (d.size / DIRENT)).map (· * DIRENT) := by
  have hdiv : (d.size + DIRENT - 1) / DIRENT = d.size / DIRENT := by
    simp only [DIRENT] at *
    omega
  rw [offsets, hdiv]

/-- `readi` of an entry. -/
theorem readi_entry (hfull : Full m d) (hk : k * DIRENT + DIRENT ≤ d.size) :
    readi sb m d (fun _ => true) (k * DIRENT) DIRENT =
      .ok ⟨DIRENT, ((d.slice m 0 d.size).drop (k * DIRENT)).take DIRENT, d, m⟩ := by
  have hsize := hfull.size_le
  simp only [MAXFILE, NDIRECT, NINDIRECT, BSIZE] at hsize
  have hlt : k * DIRENT + DIRENT < 2 ^ 32 := by omega
  obtain ⟨bytes, hval, hbytes⟩ := readi_slice sb hfull hlt
  have hlen : bytes.length = DIRENT := by
    rw [hbytes, List.length_take, List.length_drop, length_slice]
    omega
  rw [hval, ← hbytes, hlen]

/-- The loop of `dirlookup` over the entries `ks`. -/
theorem lookupLoop_eq (hfull : Full m d) {ks : List ℕ}
    (hks : ∀ k ∈ ks, k * DIRENT + DIRENT ≤ d.size) :
    lookupLoop sb name (ks.map (· * DIRENT)) m d =
      .ok ((find (cname name) (ks.map fun k =>
          decode (((d.slice m 0 d.size).drop (k * DIRENT)).take DIRENT))).map fun v =>
        (ks.getD (index (cname name) (ks.map fun k =>
          decode (((d.slice m 0 d.size).drop (k * DIRENT)).take DIRENT))) 0 * DIRENT, v), d, m) := by
  induction ks with
  | nil => rfl
  | cons k ks ih =>
    have ih := ih fun k hk => hks k (List.mem_cons_of_mem _ hk)
    rw [List.map_cons, lookupLoop, readi_entry hfull (hks k List.mem_cons_self), Except.bind]
    simp only [ne_eq, not_true_eq_false, if_false, List.map_cons]
    by_cases h0 : ofBytes ((((d.slice m 0 d.size).drop (k * DIRENT)).take DIRENT).take 2) = 0
    · rw [if_neg (by simp [h0]), ih]
      simp only [decode, if_pos h0, find, index, List.getD_cons_succ]
    · by_cases hname : cname name =
          cname ((((d.slice m 0 d.size).drop (k * DIRENT)).take DIRENT).drop 2)
      · rw [if_pos ⟨h0, hname⟩]
        simp only [decode, if_neg h0, find, index, if_pos hname.symm, List.getD_cons_zero,
          Option.map_some]
      · rw [if_neg (by simp [hname]), ih]
        simp only [decode, if_neg h0, find, index, if_neg (Ne.symm hname), List.getD_cons_succ]

/-- The loop of `dirlink` over the entries `ks`. -/
theorem emptyLoop_eq (hfull : Full m d) {last : ℕ} {ks : List ℕ}
    (hks : ∀ k ∈ ks, k * DIRENT + DIRENT ≤ d.size) :
    emptyLoop sb last (ks.map (· * DIRENT)) m d =
      .ok ((ks.map (· * DIRENT)).getD (hole (ks.map fun k =>
        decode (((d.slice m 0 d.size).drop (k * DIRENT)).take DIRENT))) last, d, m) := by
  induction ks with
  | nil => rfl
  | cons k ks ih =>
    have ih := ih fun k hk => hks k (List.mem_cons_of_mem _ hk)
    rw [List.map_cons, emptyLoop, readi_entry hfull (hks k List.mem_cons_self), Except.bind]
    simp only [ne_eq, not_true_eq_false, if_false, List.map_cons]
    by_cases h0 : ofBytes ((((d.slice m 0 d.size).drop (k * DIRENT)).take DIRENT).take 2) = 0
    · rw [if_pos h0]
      simp only [decode, if_pos h0, hole, List.getD_cons_zero]
    · rw [if_neg h0, ih]
      simp only [decode, if_neg h0, hole, List.getD_cons_succ]

theorem entries_slice :
    entries (d.slice m 0 d.size) = (List.range (d.size / DIRENT)).map fun k =>
      decode (((d.slice m 0 d.size).drop (k * DIRENT)).take DIRENT) := by
  rw [entries, records, List.map_map, length_slice]
  rfl

theorem range_entries (h : DIRENT ∣ d.size) :
    ∀ k ∈ List.range (d.size / DIRENT), k * DIRENT + DIRENT ≤ d.size := by
  intro k hk
  have hlt := List.mem_range.1 hk
  simp only [DIRENT] at *
  omega

/-- `dirlookup` in a directory of whole entries. -/
theorem dirlookup_eq (hfull : Full m d) (ht : d.type = FileType.dir.code) (hd : DIRENT ∣ d.size) :
    dirlookup sb m d name =
      .ok ((find (cname name) (entries (d.slice m 0 d.size))).map fun v =>
        (index (cname name) (entries (d.slice m 0 d.size)) * DIRENT, v), d, m) := by
  rw [dirlookup, if_neg (not_not_intro ht), offsets_eq hd, lookupLoop_eq hfull (range_entries hd),
    ← entries_slice]
  cases hf : find (cname name) (entries (d.slice m 0 d.size)) with
  | none => rfl
  | some v =>
    have hlt := (remove_eq (hf.trans_ne nofun)).1
    rw [entries, List.length_map, length_records, length_slice] at hlt
    have hget : (List.range (d.size / DIRENT)).getD
        (index (cname name) (entries (d.slice m 0 d.size))) 0 =
          index (cname name) (entries (d.slice m 0 d.size)) := by
      rw [List.getD_eq_getElem _ _ (by rwa [List.length_range]), List.getElem_range]
    simp only [Option.map_some, hget]

/-- The empty entry that `dirlink` finds. -/
theorem emptyLoop_hole (hfull : Full m d) (hd : DIRENT ∣ d.size) :
    emptyLoop sb ((offsets d.size).length * DIRENT) (offsets d.size) m d =
      .ok (hole (entries (d.slice m 0 d.size)) * DIRENT, d, m) := by
  have hlen : (entries (d.slice m 0 d.size)).length = d.size / DIRENT := by
    rw [entries, List.length_map, length_records, length_slice]
  have hle := hole_le (t := entries (d.slice m 0 d.size))
  rw [offsets_eq hd, emptyLoop_eq hfull (range_entries hd), ← entries_slice, List.length_map,
    List.length_range]
  by_cases hlt : hole (entries (d.slice m 0 d.size)) < d.size / DIRENT
  · rw [List.getD_eq_getElem _ _ (by simpa using hlt), List.getElem_map, List.getElem_range]
  · rw [List.getD_eq_default _ _ (by simpa using hlt)]
    have heq : hole (entries (d.slice m 0 d.size)) = d.size / DIRENT := by omega
    rw [heq]

/-! ## Room for an entry -/

/-- The places for a block of the content that has a block are filled. -/
theorem slot_ne_zero {r : AddrSlot} {bn : ℕ} (hb : d.blockAt m bn ≠ 0) (hr : r ∈ slotsAt bn) :
    d.slot m r ≠ 0 := by
  obtain ⟨r', hr', heq⟩ := exists_slotAt hb
  rw [heq] at hb
  rw [slotsAt, hr', Option.toFinset_some, Finset.mem_union, Finset.mem_singleton] at hr
  rcases hr with rfl | hr
  · exact hb
  · split_ifs at hr with hlt
    · cases hr
    · obtain rfl := Finset.mem_singleton.1 hr
      unfold slotAt at hr'
      rw [dif_neg hlt] at hr'
      split_ifs at hr' with hlt'
      obtain rfl := Option.some.inj hr'
      intro hind
      exact hb (if_pos hind)

/-- Work that ends with a block has filled its empty places with free blocks. -/
theorem Worked.room (hw : Worked sb F i d m d' m') (h : Owned sb (update F i d) m)
    (hi : i < sb.ninodes) (ht : d.type ≠ 0) {bn : ℕ} (hb : d'.blockAt m' bn ≠ 0) :
    Room sb m d (slotsAt bn) := by
  have ht' : d'.type ≠ 0 := by rwa [hw.grows.type_eq]
  have hplace : ∀ r ∈ slotsAt bn, place sb (update F i d') m' (i, r) = some (d'.slot m' r) :=
    fun r hr => place_self hi ht' (slot_ne_zero hb hr)
  refine Finset.card_le_card_of_injOn (d'.slot m') (fun r hr => ?_) fun r hr r' hr' heq => ?_
  · obtain ⟨hr, h0⟩ := Finset.mem_filter.1 hr
    have hused := hw.owned.of_place (hplace r hr)
    refine Finset.mem_coe.2 (Finset.mem_filter.2 ⟨Finset.mem_range.2 hused.2.1, ?_⟩)
    by_contra hmark
    -- the block has a place before, where it still is
    obtain ⟨q, hq⟩ := h.owns.owned _ ⟨hused.1, hused.2.1, by simpa using hmark⟩
    have hq' : place sb (update F i d') m' q = some (d'.slot m' r) := by
      by_cases hqi : q.1 = i
      · obtain ⟨-, -, hslot, hne⟩ := place_cases hq
        obtain ⟨i', q⟩ := q
        obtain rfl : i' = i := hqi
        rw [update_self] at hslot
        have hgrow := hw.grows.slot q (hslot.trans_ne hne)
        rw [place_self hi ht' (hgrow.trans_ne (hslot.trans_ne hne)), hgrow, hslot]
      · exact (hw.frame.place hqi).trans hq
    obtain rfl := hw.owned.owns.unique _ _ _ hq' (hplace r hr)
    have hne := (place_cases hq).2.2
    rw [update_self] at hne
    exact hne.2 (hne.1.symm.trans h0)
  · have hr := (Finset.mem_filter.1 hr).1
    have hr' := (Finset.mem_filter.1 hr').1
    have hsame := hw.owned.owns.unique _ _ _ (hplace r hr)
      ((hplace r' hr').trans (congrArg some heq.symm))
    exact congrArg Prod.snd hsame

theorem Full.room (hfull : Full m d) (h : Owned sb (update F i d) m) (hi : i < sb.ninodes)
    (ht : d.type ≠ 0) (hoff : off < d.size) : Room sb m d (slotsAt (off / BSIZE)) :=
  (Worked.refl h).room h hi ht (hfull.blockAt hoff)

/-- An entry at `off` fits into the file, which may have to grow for it. -/
def EntryFits (sb : Superblock) (m : Mem) (d : Dinode) (off : ℕ) : Prop :=
  off + DIRENT ≤ MAXFILE * BSIZE ∧ Room sb m d (slotsAt (off / BSIZE))

theorem slotsOf_entry (h : DIRENT ∣ off) : slotsOf off DIRENT = slotsAt (off / BSIZE) := by
  have hdiv : (off + DIRENT + BSIZE - 1) / BSIZE = off / BSIZE + 1 := by
    simp only [DIRENT, BSIZE] at *
    omega
  have hone : ((Finset.range (off / BSIZE + 1)).filter fun bn => off / BSIZE ≤ bn) =
      {off / BSIZE} := by
    ext bn
    simp only [Finset.mem_filter, Finset.mem_range, Finset.mem_singleton]
    omega
  rw [slotsOf, hdiv, hone, Finset.singleton_biUnion]

/-- `writei` has written something only if there was room for it. -/
theorem writei_room (src : ℕ → Option Byte) {size : ℕ} (h : Owned sb (update F i d) m)
    (hi : i < sb.ninodes) (ht : d.type ≠ 0) (hmax : off + size ≤ MAXFILE * BSIZE)
    (hpos : 0 < k) (hr : writei sb m d i src off size = .ok (k, d', m')) :
    Room sb m d (slotsAt (off / BSIZE)) := by
  obtain ⟨tot, r, d₁, m₁, heq, hw⟩ :=
    writeLoop_wrote src hi hmax size 0 m d (Nat.zero_le size) (Nat.sub_zero size ▸ le_rfl) h ht
  rw [Nat.add_zero] at heq hw
  have htot : tot = k := by
    unfold writei at hr
    rw [heq] at hr
    split_ifs at hr
    · have := congrArg Prod.fst (Except.ok.inj hr)
      simp only at this
      omega
    · have := congrArg Prod.fst (Except.ok.inj hr)
      simp only at this
      omega
    · exact Int.ofNat.inj (congrArg Prod.fst (Except.ok.inj hr))
  have hle := hw.le_copied
  exact hw.worked.room h hi ht (hw.copied off le_rfl (by omega)).1

/-- A write of an entry, which is written as a whole or not at all. -/
theorem writeBytes_entry (h : FsInv sb s) (hl : s.Locked ip) {e : List Byte}
    (hal : DIRENT ∣ off) (hoff : off ≤ (s.itable ip).copy.size) (he : e.length = DIRENT) :
    ∃ (ret : ℤ) (d' : Dinode) (m' : Mem),
      writeBytes sb s.disk (s.itable ip).copy (s.itable ip).inum off e = .ok (ret, d', m') ∧
      FsInv sb (s.setCopy ip d' m') ∧ d'.type = (s.itable ip).copy.type ∧
      (ret = DIRENT ↔ EntryFits sb s.disk (s.itable ip).copy off) ∧
      content sb m' (s.itable ip).inum = if ret = DIRENT then
        overlay (content sb s.disk (s.itable ip).inum) off e
      else content sb s.disk (s.itable ip).inum := by
  have hown := h.owned_self hl
  have hi := h.inum_lt ip hl
  have ht := h.type_ne ip hl
  have hs := h.synced ip hl
  have hfull := h.full_self hl
  have hsize := hfull.size_le
  by_cases hmax : off + DIRENT ≤ MAXFILE * BSIZE
  · obtain ⟨k, r, d', m', hval, hw⟩ :=
      writei_wrote (fun k => e[k]?) hown hi ht hs hfull hoff (he ▸ hmax)
    obtain ⟨hf, hcontent⟩ := hw.content_eq hs hoff
    obtain ⟨rfl, -⟩ := hw.ends hf
    have hle := hw.copied_le
    have hk : r = 0 ∨ r = DIRENT := by
      have hstart := hw.start
      rw [he] at hstart hle
      simp only [DIRENT, BSIZE] at *
      omega
    have hiff : r = DIRENT ↔ EntryFits sb s.disk (s.itable ip).copy off := by
      refine ⟨fun hr => ⟨hmax, ?_⟩, fun hfit => ?_⟩
      · exact writei_room _ hown hi ht (he ▸ hmax) (hr ▸ by decide) hval
      · have hroom := hfit.2
        rw [← slotsOf_entry hal, ← he] at hroom
        have hsrc : ∀ k < e.length, e[k]? = some ((e[k]?).getD 0) := by
          intro k hk
          rw [List.getElem?_eq_getElem hk, Option.getD_some]
        obtain ⟨d'', m'', hval', -⟩ := writei_content hown hi ht hs hfull hsrc hoff
          (he ▸ hmax) hroom
        rw [hval] at hval'
        have hr := Int.ofNat.inj (congrArg Prod.fst (Except.ok.inj hval'))
        rw [hr, he]
    refine ⟨r, d', m', hval, h.setCopy hl hw.settled (hw.type.trans_ne ht), hw.type, ?_, ?_⟩
    · rw [← hiff]
      exact Int.ofNat_inj
    · rcases hk with rfl | rfl
      · rw [hcontent, if_neg (by decide), List.take_zero, overlay_nil]
      · rw [hcontent, if_pos rfl, List.take_of_length_le he.le]
  · have hval : writeBytes sb s.disk (s.itable ip).copy (s.itable ip).inum off e =
        .ok (-1, (s.itable ip).copy, s.disk) := by
      simp only [MAXFILE, NDIRECT, NINDIRECT, BSIZE, DIRENT] at hmax hsize he
      unfold writeBytes writei
      rw [he, if_neg (by omega), if_pos]
      simp only [MAXFILE, NDIRECT, NINDIRECT, BSIZE]
      omega
    refine ⟨-1, _, _, hval, ?_, rfl, iff_of_false (by decide) fun hfit => hmax hfit.1, ?_⟩
    · rwa [setCopy_self]
    · rw [if_neg (by decide)]

/-! ## Lookups, links and clearings -/

section Defs

variable (sb : Superblock) (s : Fs n)

/-- `dirlookup`, with the `iget` at its end. -/
def lookup (dp : Fin n) (name : List Byte) : Except FsPanic (Option (ℕ × Fin n) × Fs n) :=
  (dirlookup sb s.disk (s.itable dp).copy name).bind fun r =>
  let s := s.setCopy dp r.2.1 r.2.2
  match r.1 with
  | some e => (s.iget e.2).bind fun g => .ok (some (e.1, g.1), g.2)
  | none => .ok (none, s)

/-- What `sys_unlink` does in the directory: it finds the entry and writes zeros over it. -/
def clearEntry (dp : Fin n) (name : List Byte) : Except FsPanic (Option (ℤ × Fin n) × Fs n) :=
  (s.lookup sb dp name).bind fun r =>
  match r.1 with
  | some e =>
    (writeBytes sb r.2.disk (r.2.itable dp).copy (r.2.itable dp).inum e.1
      (List.replicate DIRENT 0)).bind fun w =>
    .ok (some (w.1, e.2), r.2.setCopy dp w.2.1 w.2.2)
  | none => .ok (none, r.2)

end Defs

/-- The content of a directory is one of whole entries. -/
structure IsDir (sb : Superblock) (m : Mem) (i : ℕ) : Prop where
  type : (readDinode sb m i).type = FileType.dir.code
  whole : DIRENT ∣ (content sb m i).length

/-- The entries of the directory `i`. -/
def dirEntries (sb : Superblock) (m : Mem) (i : ℕ) : List (Option (List Byte × ℕ)) :=
  entries (content sb m i)

/-- The file of the directory can take another entry at its end. -/
def Extensible (sb : Superblock) (m : Mem) (i : ℕ) : Prop :=
  EntryFits sb m (readDinode sb m i) (readDinode sb m i).size

/-- What `dirlink` leaves of the directory `i` when it returns `ret`. -/
structure LinkDone (sb : Superblock) (s : Fs n) (i : ℕ) (name : List Byte) (inum : ℕ) (ret : ℤ)
    (t : Fs n) : Prop where
  inv : FsInv sb t
  dir : IsDir sb t.disk i
  fails_iff : ret = -1 ↔ find (cname name) (dirEntries sb s.disk i) ≠ none ∨
    none ∉ dirEntries sb s.disk i ∧ ¬Extensible sb s.disk i
  failed : ret = -1 → dirEntries sb t.disk i = dirEntries sb s.disk i
  linked : ret ≠ -1 → ret = 0 ∧
    dirEntries sb t.disk i = put (cname name) inum (dirEntries sb s.disk i)

/-- What `sys_unlink` leaves of it. -/
structure ClearDone (sb : Superblock) (s : Fs n) (i : ℕ) (name : List Byte)
    (ret : Option (ℤ × Fin n)) (t : Fs n) : Prop where
  inv : FsInv sb t
  dir : IsDir sb t.disk i
  found : ∀ w, ret = some w → w.1 = DIRENT ∧
    find (cname name) (dirEntries sb s.disk i) = some (t.itable w.2).inum
  not_found : ret = none ↔ find (cname name) (dirEntries sb s.disk i) = none
  removed : dirEntries sb t.disk i = remove (cname name) (dirEntries sb s.disk i)

section Ops

variable (h : FsInv sb s) (hl : s.Locked ip) (hdir : IsDir sb s.disk (s.itable ip).inum)
include h hl hdir

theorem dirlookup_dirEntries : dirlookup sb s.disk (s.itable ip).copy name =
    .ok ((find (cname name) (dirEntries sb s.disk (s.itable ip).inum)).map fun v =>
      (index (cname name) (dirEntries sb s.disk (s.itable ip).inum) * DIRENT, v),
      (s.itable ip).copy, s.disk) := by
  obtain ⟨ht, hd⟩ := hdir
  rw [length_content] at hd
  unfold dirEntries content
  rw [h.synced ip hl] at ht hd ⊢
  exact dirlookup_eq (h.full_self hl) ht hd

/-- A lookup returns the inode of the entry, or nothing if there is none. -/
theorem lookup_spec : Ends
    (fun e => e = .igetNoInodes ∧ ∃ inum,
      find (cname name) (dirEntries sb s.disk (s.itable ip).inum) = some inum ∧ Exhausted s inum)
    (fun r => match find (cname name) (dirEntries sb s.disk (s.itable ip).inum) with
      | none => r = (none, s)
      | some inum => ∃ jp, r.1 = some (index (cname name)
          (dirEntries sb s.disk (s.itable ip).inum) * DIRENT, jp) ∧ Got s inum jp r.2 ∧ FsInv sb r.2)
    (s.lookup sb ip name) := by
  unfold lookup
  rw [dirlookup_dirEntries h hl hdir]
  simp only [Except.bind, setCopy_self]
  cases hf : find (cname name) (dirEntries sb s.disk (s.itable ip).inum) with
  | none => exact .ok rfl
  | some inum =>
    refine Ends.bind (P := fun g => Got s inum g.1 g.2 ∧ FsInv sb g.2) ?_
      fun g hg => .ok ⟨g.1, rfl, hg.1, hg.2⟩
    exact (iget_got.and (h.iget inum)).imp (fun e he => ⟨he.1.1, inum, rfl, he.1.2⟩)
      fun g hg => ⟨hg.1, hg.2.1⟩

theorem length_dirEntries : (dirEntries sb s.disk (s.itable ip).inum).length * DIRENT =
    (s.itable ip).copy.size := by
  obtain ⟨-, hd⟩ := hdir
  rw [dirEntries, entries, List.length_map, length_records, Nat.div_mul_cancel hd, length_content,
    h.synced ip hl]

/-- A write over an entry or at the end. -/
theorem writeBytes_dirEntries {e : List Byte} (he : e.length = DIRENT)
    (hk : k ≤ (dirEntries sb s.disk (s.itable ip).inum).length) :
    ∃ (ret : ℤ) (d' : Dinode) (m' : Mem),
      writeBytes sb s.disk (s.itable ip).copy (s.itable ip).inum (k * DIRENT) e =
        .ok (ret, d', m') ∧
      FsInv sb (s.setCopy ip d' m') ∧ IsDir sb m' (s.itable ip).inum ∧
      (ret = DIRENT ↔ k < (dirEntries sb s.disk (s.itable ip).inum).length ∨
        Extensible sb s.disk (s.itable ip).inum) ∧
      dirEntries sb m' (s.itable ip).inum = if ret = DIRENT then
        overlay (dirEntries sb s.disk (s.itable ip).inum) k [decode e]
      else dirEntries sb s.disk (s.itable ip).inum := by
  have hlen := length_dirEntries h hl hdir
  have hoff : k * DIRENT ≤ (s.itable ip).copy.size := hlen ▸ Nat.mul_le_mul_right _ hk
  obtain ⟨ret, d', m', hval, hinv, htype, hiff, hcontent⟩ :=
    writeBytes_entry h hl (Nat.dvd_mul_left _ k) hoff he
  have hsize : k * DIRENT ≤ (content sb s.disk (s.itable ip).inum).length := by
    rwa [length_content, h.synced ip hl]
  have hsynced : readDinode sb m' (s.itable ip).inum = d' := by
    have hlock : (s.setCopy ip d' m').Locked ip := locked_setCopy.1.2 hl
    simpa [Fs.setCopy] using hinv.synced ip hlock
  refine ⟨ret, d', m', hval, hinv, ⟨?_, ?_⟩, ?_, ?_⟩
  · rw [hsynced, htype, ← h.synced ip hl]
    exact hdir.type
  · rw [hcontent]
    split_ifs
    · exact dvd_overlay hdir.whole hsize he
    · exact hdir.whole
  · rw [hiff]
    rcases Nat.lt_or_eq_of_le hk with hlt | heq
    · refine iff_of_true ⟨?_, ?_⟩ (.inl hlt)
      · have hmax := (h.full_self hl).size_le
        simp only [DIRENT] at *
        omega
      · refine (h.full_self hl).room (h.owned_self hl) (h.inum_lt ip hl) (h.type_ne ip hl) ?_
        simp only [DIRENT] at *
        omega
    · have hend : k * DIRENT = (s.itable ip).copy.size := by rw [heq, hlen]
      rw [hend, Extensible, h.synced ip hl]
      exact (or_iff_right (by omega)).symm
  · rw [dirEntries, hcontent]
    split_ifs
    · exact entries_overlay hdir.whole hsize he
    · rfl

theorem addEntry_eq : addEntry sb s.disk (s.itable ip).copy (s.itable ip).inum name inum =
    (writeBytes sb s.disk (s.itable ip).copy (s.itable ip).inum
      (hole (dirEntries sb s.disk (s.itable ip).inum) * DIRENT) (dirent name inum)).bind fun w =>
    .ok (if w.1 ≠ DIRENT then -1 else 0, w.2) := by
  obtain ⟨ht, hd⟩ := hdir
  rw [length_content] at hd
  have hlen : (dirent name inum).length = DIRENT := length_dirent
  rw [addEntry, dirEntries, content, writeBytes, hlen]
  rw [h.synced ip hl] at hd ⊢
  rw [emptyLoop_hole (h.full_self hl) hd]
  rfl

/-- `dirlink` puts the entry into the first hole, or else at the end. -/
theorem dirlink_done (h₁ : 1 ≤ inum) (h₂ : inum < 2 ^ 16) : Ends
    (fun e => e = .igetNoInodes ∧ ∃ inum',
      find (cname name) (dirEntries sb s.disk (s.itable ip).inum) = some inum' ∧ Exhausted s inum')
    (fun r => LinkDone sb s (s.itable ip).inum name inum r.1 r.2)
    (s.dirlink sb ip name inum) := by
  have hinv := h.dirlink hl name inum
  unfold Fs.dirlink at hinv ⊢
  rw [dirlookup_dirEntries h hl hdir] at hinv ⊢
  simp only [Except.bind, setCopy_self] at hinv ⊢
  cases hf : find (cname name) (dirEntries sb s.disk (s.itable ip).inum) with
  | some v =>
    rw [hf] at hinv
    dsimp only [Option.map_some] at hinv ⊢
    have hgot : Ends _ _ (s.iget v) := iget_got
    cases hg : s.iget v with
    | error e =>
      rw [hg] at hgot
      exact .error ⟨hgot.1, v, rfl, hgot.2⟩
    | ok g =>
      rw [hg] at hgot hinv
      dsimp only at hinv ⊢
      rw [Got.iput_eq hgot] at hinv ⊢
      have hdisk : (g.2.unref g.1).disk = s.disk := hgot.disk
      refine .ok ⟨hinv, hdisk ▸ hdir, iff_of_true rfl (.inl ?_), fun _ => ?_,
        fun hne => absurd rfl hne⟩
      · rw [hf]
        exact Option.some_ne_none v
      · rw [hdisk]
  | none =>
    dsimp only [Option.map_none]
    rw [addEntry_eq h hl hdir]
    have hlen : (dirent name inum).length = DIRENT := length_dirent
    obtain ⟨ret, d', m', hval, hset, hdir', hiff, hent⟩ :=
      writeBytes_dirEntries h hl hdir hlen hole_le
    rw [hval]
    rw [hole_lt_iff] at hiff
    by_cases hret : ret = DIRENT
    · rw [if_pos hret, decode_dirent h₁ h₂, ← put_eq] at hent
      refine .ok ⟨hset, hdir', iff_of_false ?_ ?_, fun hneg => ?_, fun _ => ⟨?_, hent⟩⟩
      · simp [hret]
      · rintro (hfound | ⟨hfull, hext⟩)
        · exact hfound hf
        · exact (hiff.1 hret).elim hfull hext
      · simp [hret] at hneg
      · simp [hret]
    · rw [if_neg hret] at hent
      obtain ⟨hfull, hext⟩ := not_or.1 (mt hiff.2 hret)
      refine .ok ⟨hset, hdir', iff_of_true ?_ (.inr ⟨hfull, hext⟩), fun _ => hent, fun hne => ?_⟩
      · simp [hret]
      · simp [hret] at hne

/-- `sys_unlink` makes a hole of the entry. -/
theorem clearEntry_done : Ends
    (fun e => e = .igetNoInodes ∧ ∃ inum',
      find (cname name) (dirEntries sb s.disk (s.itable ip).inum) = some inum' ∧ Exhausted s inum')
    (fun r => ClearDone sb s (s.itable ip).inum name r.1 r.2)
    (s.clearEntry sb ip name) := by
  unfold clearEntry
  refine (lookup_spec h hl hdir).bind ?_
  rintro ⟨e, u⟩ hlook
  cases hf : find (cname name) (dirEntries sb s.disk (s.itable ip).inum) with
  | none =>
    rw [hf] at hlook
    obtain ⟨rfl, rfl⟩ := Prod.mk.inj hlook
    refine .ok ⟨h, hdir, nofun, iff_of_true rfl hf, ?_⟩
    rw [remove_eq_self hf]
  | some inum =>
    rw [hf] at hlook
    obtain ⟨jp, he, hgot, hinv⟩ := hlook
    obtain rfl : e = some _ := he
    obtain ⟨href, hnum, hvalid, -⟩ := hgot.keeps ip hl.1
    have hl' : u.Locked ip := ⟨href, hvalid.trans hl.2⟩
    obtain ⟨hlt, hrem⟩ := remove_eq (hf.trans_ne nofun)
    have hdir' : IsDir sb u.disk (u.itable ip).inum := by rwa [hgot.disk, hnum]
    have hzero : (List.replicate DIRENT (0 : Byte)).length = DIRENT := List.length_replicate
    have hle : index (cname name) (dirEntries sb s.disk (s.itable ip).inum) ≤
        (dirEntries sb u.disk (u.itable ip).inum).length := by
      rw [hgot.disk, hnum]
      exact hlt.le
    dsimp only
    obtain ⟨ret, d', m', hval, hset, hdir'', hiff, hent⟩ :=
      writeBytes_dirEntries hinv hl' hdir' hzero hle
    rw [hgot.disk, hnum] at hiff hent
    have hret := hiff.2 (.inl hlt)
    rw [if_pos hret, decode_zero, ← hrem] at hent
    rw [hval]
    refine .ok ⟨hset, hnum ▸ hdir'', ?_, iff_of_false nofun (hf.trans_ne nofun), ?_⟩
    · rintro w hw
      obtain rfl := Option.some.inj hw
      have hsame : ((u.setCopy ip d' m').itable jp).inum = (u.itable jp).inum := locked_setCopy.2
      rw [hf]
      exact ⟨hret, congrArg some (hgot.inum_eq.symm.trans hsame.symm)⟩
    · exact hent

end Ops

/-! ## Histories -/

end Fs

/-- What happens to a directory. -/
inductive DirEvent
  | link (name : List Byte) (inum : ℕ) (ret : ℤ)
  | clear (name : List Byte)
  | other

/-- What the name is linked to after an event, if it was to `o` before it. -/
def relink (name : List Byte) (o : Option ℕ) : DirEvent → Option ℕ
  | .link name' inum ret => if ret = 0 ∧ Fs.cname name' = Fs.cname name then some inum else o
  | .clear name' => if Fs.cname name' = Fs.cname name then none else o
  | .other => o

/-- The last successful link of the name, if it was not cleared since. -/
def lastLink (name : List Byte) (es : List DirEvent) : Option ℕ :=
  es.foldl (relink name) none

theorem lastLink_append {name : List Byte} {es : List DirEvent} {e : DirEvent} :
    lastLink name (es ++ [e]) = relink name (lastLink name es) e :=
  List.foldl_append ..

namespace Fs

/-- A call on the directory `i` through an entry of the inode table that is locked, or anything
else that leaves its content and keeps the disk consistent. -/
inductive DirStep (sb : Superblock) (i : ℕ) (s : Fs n) : DirEvent → Fs n → Prop
  | link {ip : Fin n} {name : List Byte} {inum : ℕ} {ret : ℤ} {t : Fs n} (hl : s.Locked ip)
    (hi : (s.itable ip).inum = i) (h₁ : 1 ≤ inum) (h₂ : inum < 2 ^ 16)
    (hr : s.dirlink sb ip name inum = .ok (ret, t)) : DirStep sb i s (.link name inum ret) t
  | clear {ip : Fin n} {name : List Byte} {ret : Option (ℤ × Fin n)} {t : Fs n} (hl : s.Locked ip)
    (hi : (s.itable ip).inum = i) (hr : s.clearEntry sb ip name = .ok (ret, t)) :
    DirStep sb i s (.clear name) t
  | other {t : Fs n} (h : FsInv sb t)
    (ht : (readDinode sb t.disk i).type = (readDinode sb s.disk i).type)
    (hc : content sb t.disk i = content sb s.disk i) : DirStep sb i s .other t

/-- The directory is the map that its history says. -/
structure DirInv (sb : Superblock) (i : ℕ) (es : List DirEvent) (s : Fs n) : Prop where
  inv : FsInv sb s
  dir : IsDir sb s.disk i
  distinct : Distinct (dirEntries sb s.disk i)
  finds : ∀ name, find (cname name) (dirEntries sb s.disk i) = lastLink name es

theorem DirInv.step {es : List DirEvent} {e : DirEvent} (h : DirInv sb i es s)
    (hst : DirStep sb i s e t) : DirInv sb i (es ++ [e]) t := by
  cases hst with
  | @link ip name' inum ret t hl hi h₁ h₂ hr =>
    subst hi
    have hdone := (dirlink_done h.inv hl h.dir h₁ h₂).of_ok hr
    by_cases hret : ret = -1
    · have hsame := hdone.failed hret
      refine ⟨hdone.inv, hdone.dir, hsame ▸ h.distinct, fun name => ?_⟩
      rw [hsame, lastLink_append, relink, h.finds]
      simp [hret]
    · obtain ⟨rfl, hput⟩ := hdone.linked hret
      have hno : find (cname name') (dirEntries sb s.disk (s.itable ip).inum) = none := by
        by_contra hne
        exact hret (hdone.fails_iff.2 (.inl hne))
      refine ⟨hdone.inv, hdone.dir, ?_, fun name => ?_⟩
      · rw [hput]
        exact distinct_put h.distinct hno
      · rw [hput, find_put hno, lastLink_append, relink, h.finds]
        simp
  | @clear ip name' ret t hl hi hr =>
    subst hi
    have hdone := (clearEntry_done h.inv hl h.dir).of_ok hr
    refine ⟨hdone.inv, hdone.dir, ?_, fun name => ?_⟩
    · rw [hdone.removed]
      exact distinct_remove h.distinct
    · rw [hdone.removed, find_remove h.distinct, lastLink_append, relink, h.finds]
  | other hinv ht hc =>
    have hsame : dirEntries sb t.disk i = dirEntries sb s.disk i := by
      rw [dirEntries, hc, dirEntries]
    refine ⟨hinv, ⟨ht.trans h.dir.type, hc ▸ h.dir.whole⟩, hsame ▸ h.distinct, fun name => ?_⟩
    rw [hsame, lastLink_append, relink, h.finds]

theorem DirInv.run {es : List DirEvent} (h : FsInv sb s)
    (ht : (readDinode sb s.disk i).type = FileType.dir.code) (h0 : content sb s.disk i = [])
    (hr : Run (DirStep sb i) s es t) : DirInv sb i es t := by
  have hempty : dirEntries sb s.disk i = [] := by
    rw [dirEntries, h0]
    rfl
  refine hr.invariant (I := DirInv sb i) ⟨h, ⟨ht, ?_⟩, ?_, fun name => ?_⟩
    fun _ _ _ _ _ hinv hst => hinv.step hst
  · rw [h0]
    exact Nat.dvd_zero _
  · rw [hempty]
    exact .nil
  · rw [hempty]
    rfl

/-- The directory `i` is a finite map after the history `es`. -/
structure IsMap (sb : Superblock) (i : ℕ) (es : List DirEvent) (s : Fs n) : Prop where
  distinct : Distinct (dirEntries sb s.disk i)
  lookup : ∀ ip, s.Locked ip → (s.itable ip).inum = i → ∀ name, Ends
    (fun e => e = .igetNoInodes ∧ ∃ inum, lastLink name es = some inum ∧ Exhausted s inum)
    (fun r => r.1.map (fun e => (r.2.itable e.2).inum) = lastLink name es) (s.lookup sb ip name)
  link : ∀ ip, s.Locked ip → (s.itable ip).inum = i → ∀ name inum, 1 ≤ inum → inum < 2 ^ 16 → Ends
    (fun e => e = .igetNoInodes ∧ ∃ inum, lastLink name es = some inum ∧ Exhausted s inum)
    (fun r => LinkDone sb s i name inum r.1 r.2) (s.dirlink sb ip name inum)
  clear : ∀ ip, s.Locked ip → (s.itable ip).inum = i → ∀ name, Ends
    (fun e => e = .igetNoInodes ∧ ∃ inum, lastLink name es = some inum ∧ Exhausted s inum)
    (fun r => ClearDone sb s i name r.1 r.2) (s.clearEntry sb ip name)

/-- A directory that was empty is a finite map after any links and clearings. -/
theorem directory_is_map {es : List DirEvent} (h : FsInv sb s)
    (ht : (readDinode sb s.disk i).type = FileType.dir.code) (h0 : content sb s.disk i = [])
    (hr : Run (DirStep sb i) s es t) : IsMap sb i es t := by
  obtain ⟨hinv, hdir, hdis, hfind⟩ := DirInv.run h ht h0 hr
  refine ⟨hdis, ?_, ?_, ?_⟩
  · rintro ip hl rfl name
    refine (lookup_spec hinv hl hdir).imp (fun e he => by rwa [← hfind]) ?_
    rintro ⟨e, u⟩ hlook
    rw [← hfind]
    cases hf : find (cname name) (dirEntries sb t.disk (t.itable ip).inum) with
    | none =>
      rw [hf] at hlook
      rw [hlook]
      rfl
    | some inum =>
      rw [hf] at hlook
      obtain ⟨jp, he, hgot, -⟩ := hlook
      obtain rfl : e = some _ := he
      exact congrArg some hgot.inum_eq
  · rintro ip hl rfl name inum h₁ h₂
    exact (dirlink_done hinv hl hdir h₁ h₂).imp (fun e he => by rwa [← hfind]) fun _ hr => hr
  · rintro ip hl rfl name
    exact (clearEntry_done hinv hl hdir).imp (fun e he => by rwa [← hfind]) fun _ hr => hr

/-- The calls that make a directory. -/
def dirCalls (ip : Fin n) : List (FsCall n) :=
  [.ialloc .dir, .ilock ip, .setLinks ip 0 0 1]

/-- An entry is made in the directory and cleared. -/
theorem directory_is_map_small : ∃ s t : Fs 2, exec (move small)
      ⟨smallDisk, fun _ => ⟨0, 0, false, readDinode small smallDisk 0⟩⟩ (dirCalls 0) = some s ∧
    Run (DirStep small 1) s [.link [97] 2 0, .clear [97]] t ∧
    IsMap small 1 [.link [97] 2 0, .clear [97]] t := by
  have hrun : (exec (move small)
      ⟨smallDisk, fun _ => ⟨0, 0, false, readDinode small smallDisk 0⟩⟩
      (dirCalls (0 : Fin 2))).any (fun s => decide (s.Locked 0) && decide ((s.itable 0).inum = 1) &&
        decide ((readDinode small s.disk 1).type = FileType.dir.code) &&
        decide (content small s.disk 1 = []) &&
        (s.dirlink small 0 [97] 2).toOption.any fun r => decide (r.1 = 0) &&
          decide (r.2.Locked 0) && decide ((r.2.itable 0).inum = 1) &&
          (r.2.clearEntry small 0 [97]).toOption.isSome) = true := by
    decide +kernel
  obtain ⟨s, hs, hrun⟩ := (Option.any_eq_true ..).1 hrun
  simp only [Bool.and_eq_true, decide_eq_true_eq] at hrun
  obtain ⟨⟨⟨⟨hl, hi⟩, ht⟩, h0⟩, hlink⟩ := hrun
  have hinv := reachable_inv consistent_small (reachable_of_exec ⟨rfl, fun _ => rfl⟩ hs)
  obtain ⟨⟨ret, u⟩, hu, hlink⟩ := (Option.any_eq_true ..).1 hlink
  simp only [Bool.and_eq_true, decide_eq_true_eq] at hlink
  obtain ⟨⟨⟨rfl, hl'⟩, hi'⟩, hclear⟩ := hlink
  obtain ⟨⟨ret, t⟩, ht'⟩ := Option.isSome_iff_exists.1 hclear
  have hrun : Run (DirStep small 1) s ([] ++ [.link [97] 2 0] ++ [.clear [97]]) t :=
    .snoc (.snoc .nil (.link hl hi (by decide) (by decide) (Ends.ok_of_toOption hu)))
      (.clear hl' hi' (Ends.ok_of_toOption ht'))
  exact ⟨s, t, hs, hrun, directory_is_map hinv ht h0 hrun⟩

end Fs

end CowPbs
