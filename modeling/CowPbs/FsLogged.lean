import Mathlib
import CowPbs.FileArray
import CowPbs.SharedOffset

/-!
# The blocks that a write logs

`writeiLog` lists the blocks that a call of `writei` passes to `log_write`. A chunk of `filewrite`
logs at most `MAXOPBLOCKS` of them, since the first of its blocks is there if the chunk begins in
the middle of it (`chunk_fits`).

The log takes what is in the buffers of these blocks when the transaction commits. A block whose
copy from user memory fails is changed in its buffer and not logged, so a reader finds what was
copied, or what was there before, depending on whether the buffer is still in the cache
(`failed_copy_intact_iff`).
-/

set_option linter.unusedVariables false

open Bytes Function Outcome Ownership Transition

namespace CowPbs

namespace Fs

section Defs

variable (sb : Superblock) (m : Mem) (d : Dinode)

/-- The block of the free map with the bit for `b`. -/
def BBLOCK (b : ℕ) : ℕ :=
  b / BPB + sb.bmapstart

/-- The block with the inode `i`. -/
def IBLOCK (i : ℕ) : ℕ :=
  i / IPB + sb.inodestart

/-- `balloc` logs a block of the free map, and `bzero` the new block. -/
def ballocLog : List ℕ :=
  match (List.range sb.size).find? fun b => !inUse sb m b with
  | some b => [BBLOCK sb b, b]
  | none => []

def addrLog (k : Fin (NDIRECT + 1)) : List ℕ :=
  if d.addrs k = 0 then ballocLog sb m else []

def entryLog (b j : ℕ) : List ℕ :=
  if word m b j = 0 then
    if (balloc sb m).1 = 0 then ballocLog sb m else ballocLog sb m ++ [b]
  else []

def bmapLog (bn : ℕ) : List ℕ :=
  if h : bn < NDIRECT then addrLog sb m d (Fin.castSucc ⟨bn, h⟩)
  else if bn - NDIRECT < NINDIRECT then
    let r := addrAt sb m d (Fin.last NDIRECT)
    if r.1 = 0 then addrLog sb m d (Fin.last NDIRECT)
    else addrLog sb m d (Fin.last NDIRECT) ++ entryLog sb r.2.2 r.1 (bn - NDIRECT)
  else []

/-- The blocks that the loop of `writei` logs. -/
def writeLoopLog (src : ℕ → Option Byte) (n : ℕ) : ℕ → ℕ → ℕ → Mem → Dinode → List ℕ
  | 0, tot, off, m, d => []
  | fuel + 1, tot, off, m, d =>
    if tot < n then
      match bmap sb m d (off / BSIZE) with
      | .error _ => []
      | .ok r =>
        if r.1 = 0 then bmapLog sb m d (off / BSIZE)
        else
          let k := Min.min (n - tot) (BSIZE - off % BSIZE)
          let data := copyin src tot k
          let m' := store r.2.2 (r.1 * BSIZE + off % BSIZE) data
          if data.length = k then
            bmapLog sb m d (off / BSIZE) ++
              r.1 :: writeLoopLog src n fuel (tot + k) (off + k) m' r.2.1
          else bmapLog sb m d (off / BSIZE)
    else []

/-- The blocks that `writei` logs, with the one of the inode at the end. -/
def writeiLog (inum : ℕ) (src : ℕ → Option Byte) (off n : ℕ) : List ℕ :=
  if d.size < off ∨ (off + n) % 2 ^ 32 < off then []
  else if MAXFILE * BSIZE < (off + n) % 2 ^ 32 then []
  else writeLoopLog sb src n n 0 off m d ++ [IBLOCK sb inum]

end Defs

variable {sb : Superblock} {F : ℕ → Dinode} {d d' : Dinode} {m m' m'' : Mem} {n b i j k x : ℕ}
  {src : ℕ → Option Byte} {s : Fs n} {ip : Fin n}

/-! ## How many they are -/

theorem ballocLog_subset : (ballocLog sb m).toFinset ⊆ {(balloc sb m).1, BBLOCK sb (balloc sb m).1} := by
  unfold ballocLog balloc
  cases (List.range sb.size).find? fun b => !inUse sb m b with
  | none => simp
  | some b =>
    intro x hx
    simp at hx ⊢
    exact hx.symm

/-- The number that `addrAt` returns is in the inode, which keeps those it had. -/
theorem addrAt_addrs (sb : Superblock) (m : Mem) (d : Dinode) (k : Fin (NDIRECT + 1)) :
    (addrAt sb m d k).2.1.addrs k = (addrAt sb m d k).1 ∧
      ∀ j, j ≠ k ∨ d.addrs k ≠ 0 → (addrAt sb m d k).2.1.addrs j = d.addrs j := by
  unfold addrAt
  split
  · next hk =>
    dsimp only
    split
    · next h0 => exact ⟨hk, fun _ _ => rfl⟩
    · exact ⟨update_self _ _ _, fun j hj => update_of_ne (hj.resolve_right (not_not.2 hk)) _ _⟩
  · exact ⟨rfl, fun _ _ => rfl⟩

theorem addrLog_subset (sb : Superblock) (m : Mem) (d : Dinode) (k : Fin (NDIRECT + 1)) :
    (addrLog sb m d k).toFinset ⊆ {(addrAt sb m d k).1, BBLOCK sb (addrAt sb m d k).1} := by
  unfold addrLog addrAt
  split
  · dsimp only
    split
    · next h0 => exact h0 ▸ ballocLog_subset
    · exact ballocLog_subset
  · simp

theorem entryLog_subset (sb : Superblock) (m : Mem) (b j : ℕ) : (entryLog sb m b j).toFinset ⊆
    {(entryAt sb m b j).1, BBLOCK sb (entryAt sb m b j).1, b} := by
  unfold entryLog entryAt
  split
  · dsimp only
    split
    · next h0 =>
      refine ballocLog_subset.trans ?_
      rw [h0]
      simp
    · rw [List.toFinset_append]
      refine Finset.union_subset (ballocLog_subset.trans ?_) ?_ <;> simp
  · simp

/-- The blocks that go with the indirect block `e` when it is new, and when it is not. -/
def indBlocks (sb : Superblock) (d : Dinode) (e : ℕ) : Finset ℕ :=
  if d.ind = 0 then {e, BBLOCK sb e} else {e}

/-- `bmap` logs the block, its bit, and what goes with the indirect block. -/
theorem bmapLog_subset {bn : ℕ} (h : bmap sb m d bn = .ok (b, d', m')) :
    (d.ind ≠ 0 → d'.ind = d.ind) ∧ ((bmapLog sb m d bn).toFinset ⊆ {b, BBLOCK sb b} ∨
      d'.ind ≠ 0 ∧ (bmapLog sb m d bn).toFinset ⊆ {b, BBLOCK sb b} ∪ indBlocks sb d d'.ind) := by
  unfold bmap at h
  unfold bmapLog
  split
  · next hlt =>
    rw [dif_pos hlt] at h
    obtain ⟨-, hother⟩ := addrAt_addrs sb m d (Fin.castSucc ⟨bn, hlt⟩)
    have hind := hother (Fin.last NDIRECT) (.inl (Fin.castSucc_lt_last _).ne')
    have hsub := addrLog_subset sb m d (Fin.castSucc ⟨bn, hlt⟩)
    rw [Except.ok.inj h] at hsub hind
    exact ⟨fun _ => hind, .inl hsub⟩
  · next hlt =>
    rw [dif_neg hlt] at h
    split
    · next hlt' =>
      rw [if_pos hlt'] at h
      have hsub := addrLog_subset sb m d (Fin.last NDIRECT)
      obtain ⟨hself, hkeep⟩ := addrAt_addrs sb m d (Fin.last NDIRECT)
      dsimp only at h ⊢
      by_cases h0 : (addrAt sb m d (Fin.last NDIRECT)).1 = 0
      · rw [if_pos h0] at h ⊢
        rw [Except.ok.inj h] at hsub hkeep
        exact ⟨fun hne => hkeep _ (.inr hne), .inl hsub⟩
      · rw [if_neg h0] at h ⊢
        have heq := Except.ok.inj h
        have hb := congrArg Prod.fst heq
        have hd : (addrAt sb m d (Fin.last NDIRECT)).2.1 = d' := congrArg (fun r => r.2.1) heq
        have hind : d'.ind = (addrAt sb m d (Fin.last NDIRECT)).1 := hd ▸ hself
        have hentry := entryLog_subset sb (addrAt sb m d (Fin.last NDIRECT)).2.2
          (addrAt sb m d (Fin.last NDIRECT)).1 (bn - NDIRECT)
        rw [hb, ← hind] at hentry
        rw [hd] at hkeep
        refine ⟨fun hne => hkeep (Fin.last NDIRECT) (.inr hne), .inr ⟨hind.trans_ne h0, ?_⟩⟩
        rw [← hind] at hsub ⊢
        rw [List.toFinset_append]
        refine Finset.union_subset ?_ (hentry.trans ?_)
        · by_cases hne : d.ind = 0
          · rw [indBlocks, if_pos hne]
            exact hsub.trans Finset.subset_union_right
          · have hnil : addrLog sb m d (Fin.last NDIRECT) = [] := if_neg hne
            rw [hnil]
            simp
        · have hmem : d'.ind ∈ indBlocks sb d d'.ind := by
            unfold indBlocks
            split <;> simp
          intro x hx
          simp only [Finset.mem_insert, Finset.mem_singleton, Finset.mem_union] at hx ⊢
          rcases hx with rfl | rfl | rfl
          · exact .inl (.inl rfl)
          · exact .inl (.inr rfl)
          · exact .inr hmem
    · next hlt' =>
      rw [if_neg hlt'] at h
      cases h

/-- `c` blocks at most, and those that go with the indirect block of `d`. -/
def LogBound (sb : Superblock) (d : Dinode) (c : ℕ) (L : List ℕ) : Prop :=
  ∃ (X : Finset ℕ) (e : ℕ), X.card ≤ c ∧ (d.ind ≠ 0 → e = d.ind) ∧
    L.toFinset ⊆ X ∪ indBlocks sb d e

theorem LogBound.nil {c : ℕ} : LogBound sb d c [] :=
  ⟨∅, d.ind, Nat.zero_le c, fun _ => rfl, by simp⟩

theorem LogBound.mono {c c' : ℕ} {L : List ℕ} (h : LogBound sb d c L) (hc : c ≤ c') :
    LogBound sb d c' L := by
  obtain ⟨X, e, hX, he, hL⟩ := h
  exact ⟨X, e, hX.trans hc, he, hL⟩

theorem card_pair_le (a b : ℕ) : ({a, b} : Finset ℕ).card ≤ 2 :=
  (Finset.card_insert_le a {b}).trans (by simp)

theorem LogBound.card_le {c : ℕ} {L : List ℕ} (h : LogBound sb d c L) :
    L.toFinset.card ≤ c + 2 := by
  obtain ⟨X, e, hX, -, hL⟩ := h
  have hind : (indBlocks sb d e).card ≤ 2 := by
    unfold indBlocks
    split
    · exact card_pair_le _ _
    · simp
  exact (Finset.card_le_card hL).trans ((Finset.card_union_le _ _).trans (by omega))

/-- The blocks of one turn, with those of the turns after it. -/
theorem LogBound.turn {bn c : ℕ} {L : List ℕ} (h : bmap sb m d bn = .ok (b, d', m'))
    (hL : LogBound sb d' c L) : LogBound sb d (c + 2) (bmapLog sb m d bn ++ b :: L) := by
  obtain ⟨hkeep, hsub⟩ := bmapLog_subset h
  obtain ⟨X, e, hX, he, hrest⟩ := hL
  -- once there is an indirect block, it stays
  have hsame : d.ind ≠ 0 → d'.ind ≠ 0 := fun hne => hkeep hne ▸ hne
  refine ⟨{b, BBLOCK sb b} ∪ X, e, ?_, fun hne => (he (hsame hne)).trans (hkeep hne), ?_⟩
  · have := card_pair_le b (BBLOCK sb b)
    exact (Finset.card_union_le _ _).trans (by omega)
  · have hlog : (bmapLog sb m d bn).toFinset ⊆ {b, BBLOCK sb b} ∪ indBlocks sb d e := by
      rcases hsub with hsub | ⟨hne, hsub⟩
      · exact hsub.trans Finset.subset_union_left
      · rwa [he hne]
    have hind : indBlocks sb d' e ⊆ indBlocks sb d e := by
      unfold indBlocks
      by_cases h0 : d.ind = 0
      · rw [if_pos h0]
        split <;> simp
      · rw [if_neg h0, if_neg (hsame h0)]
    rw [List.toFinset_append, List.toFinset_cons]
    refine Finset.union_subset (hlog.trans ?_) (Finset.insert_subset ?_ (hrest.trans ?_))
    · exact Finset.union_subset_union_left Finset.subset_union_left
    · simp
    · exact Finset.union_subset_union Finset.subset_union_right hind

/-- A turn on a block that is there logs the block. -/
theorem LogBound.present {c : ℕ} {L : List ℕ} (hL : LogBound sb d c L) :
    LogBound sb d (c + 1) (b :: L) := by
  obtain ⟨X, e, hX, he, hrest⟩ := hL
  refine ⟨insert b X, e, (Finset.card_insert_le b X).trans (by omega), he, ?_⟩
  rw [List.toFinset_cons, Finset.insert_union]
  exact Finset.insert_subset_insert b hrest

/-- The number of blocks with bytes of `n` bytes from `off` on. -/
def spanBlocks (off n : ℕ) : ℕ :=
  if n = 0 then 0 else (off % BSIZE + n + BSIZE - 1) / BSIZE

/-- The last turn, in which not everything is copied. -/
theorem LogBound.halfway {bn c : ℕ} (h : bmap sb m d bn = .ok (b, d', m')) (hc : 2 ≤ c) :
    LogBound sb d c (bmapLog sb m d bn) := by
  obtain ⟨X, e, hX, he, hrest⟩ := LogBound.turn h (LogBound.nil (c := 0))
  refine ⟨X, e, by omega, he, Finset.Subset.trans ?_ hrest⟩
  rw [List.toFinset_append]
  exact Finset.subset_union_left

/-- The loop of `writei` logs two blocks in each turn. -/
theorem writeLoopLog_bound {n : ℕ} (fuel : ℕ) : ∀ (tot off : ℕ) (m : Mem) (d : Dinode),
    LogBound sb d (2 * spanBlocks off (n - tot)) (writeLoopLog sb src n fuel tot off m d) := by
  induction fuel with
  | zero => exact fun _ _ _ _ => .nil
  | succ fuel ih =>
    intro tot off m d
    unfold writeLoopLog
    split
    · next htot =>
      have hmod : off % BSIZE < BSIZE := Nat.mod_lt _ (by decide)
      have hspan : 0 < spanBlocks off (n - tot) := by
        rw [spanBlocks, if_neg (by omega)]
        exact Nat.div_pos (by omega) (by decide)
      cases hb : bmap sb m d (off / BSIZE) with
      | error e => exact .nil
      | ok r =>
        obtain ⟨b, d', m'⟩ := r
        dsimp only
        split
        · exact .halfway hb (by omega)
        · split
          · refine (LogBound.turn hb (ih _ _ _ _)).mono ?_
            have hnext : spanBlocks (off + Min.min (n - tot) (BSIZE - off % BSIZE))
                (n - (tot + Min.min (n - tot) (BSIZE - off % BSIZE))) + 1 ≤
                spanBlocks off (n - tot) := by
              obtain ⟨k, hk⟩ : ∃ k, k = Min.min (n - tot) (BSIZE - off % BSIZE) := ⟨_, rfl⟩
              have hdiv := Nat.div_add_mod off BSIZE
              rw [← hk, spanBlocks, spanBlocks, if_neg (c := n - tot = 0) (by omega)]
              split
              · rw [spanBlocks, if_neg (by omega)] at hspan
                exact hspan
              · -- the next turn begins with the next block
                have hnext : (off + k) % BSIZE = 0 := by
                  simp only [BSIZE] at *
                  omega
                rw [hnext]
                simp only [BSIZE] at *
                omega
            omega
          · exact .halfway hb (by omega)
    · exact .nil

/-- `bmap` logs nothing for a block that is there. -/
theorem bmapLog_of_ne_zero {bn : ℕ} (hb : d.blockAt m bn ≠ 0) : bmapLog sb m d bn = [] := by
  unfold bmapLog
  split
  · next hbn =>
    rw [blockAt_addr hbn] at hb
    exact if_neg hb
  · next hbn =>
    split
    · next hbn' =>
      rw [blockAt_entry hbn hbn'] at hb
      have hd : d.ind ≠ 0 := fun h0 => hb (if_pos h0)
      rw [if_neg hd] at hb
      have ha : addrAt sb m d (Fin.last NDIRECT) = (d.ind, d, m) := if_neg hd
      have hl : addrLog sb m d (Fin.last NDIRECT) = [] := if_neg hd
      have he : entryLog sb m d.ind (bn - NDIRECT) = [] := if_neg hb
      rw [ha, hl]
      dsimp only
      rw [if_neg hd, he]
      rfl
    · rfl

/-- A chunk of `filewrite` logs at most `MAXOPBLOCKS` blocks. -/
theorem chunk_fits (hfull : Full m d) {off n1 : ℕ} (hoff : off ≤ d.size) (h1 : 1 ≤ n1)
    (hn1 : n1 ≤ maxChunk) (inum : ℕ) (src : ℕ → Option Byte) :
    (writeiLog sb m d inum src off n1).toFinset.card ≤ MAXOPBLOCKS := by
  have hloop : LogBound sb d 7 (writeLoopLog sb src n1 n1 0 off m d) := by
    have hmax : n1 ≤ 3 * BSIZE := hn1
    by_cases halign : off % BSIZE = 0
    · -- three blocks, each of which may be new
      refine (writeLoopLog_bound n1 0 off m d).mono ?_
      rw [spanBlocks, if_neg (by omega), halign]
      simp only [BSIZE] at *
      omega
    · -- four blocks, the first of which is there
      have hdiv := Nat.div_add_mod off BSIZE
      have hmod : off % BSIZE < BSIZE := Nat.mod_lt _ (by decide)
      have hb : d.blockAt m (off / BSIZE) ≠ 0 := hfull _ (by rw [Nat.mul_comm]; omega)
      obtain ⟨fuel, rfl⟩ := Nat.exists_eq_add_of_le' h1
      unfold writeLoopLog
      rw [if_pos (by omega), bmap_of_ne_zero hb, bmapLog_of_ne_zero hb]
      dsimp only
      rw [if_neg hb]
      split
      · refine (LogBound.present (writeLoopLog_bound fuel _ _ _ d)).mono ?_
        unfold spanBlocks
        split
        · omega
        · have hnext : (off + Min.min (fuel + 1 - 0) (BSIZE - off % BSIZE)) % BSIZE = 0 := by
            simp only [BSIZE] at *
            omega
          rw [hnext]
          simp only [BSIZE] at *
          omega
      · exact .nil
  unfold writeiLog
  split
  · simp
  · split
    · simp
    · rw [List.toFinset_append]
      refine (Finset.card_union_le _ _).trans ?_
      have := hloop.card_le
      have hone : [IBLOCK sb inum].toFinset.card ≤ 1 := by simp
      simp only [MAXOPBLOCKS]
      omega

/-- The first chunk of a new file. -/
theorem chunk_fits_small :
    (writeiLog small smallDisk (blank .file) 1 (fun _ => some 7) 0 3072).toFinset.card ≤ 10 :=
  chunk_fits (fun k hk => absurd hk (Nat.not_lt_zero _)) (Nat.zero_le _) (by decide) le_rfl 1 _

/-! ## What changes without being logged -/

/-- A byte of the block `b`. -/
theorem div_block {o : ℕ} (ho : o < BSIZE) : (b * BSIZE + o) / BSIZE = b := by
  simp only [BSIZE] at *
  omega

/-- What `store` changes is in its block. -/
theorem store_changes {l : List Byte} {o : ℕ} (ho : o + l.length ≤ BSIZE)
    (hx : store m (b * BSIZE + o) l x ≠ m x) : x / BSIZE = b := by
  by_contra hne
  refine hx (store_of_outside ?_)
  simp only [BSIZE] at *
  omega

theorem balloc_changes (hx : (balloc sb m).2 x ≠ m x) : x / BSIZE ∈ ballocLog sb m := by
  unfold balloc at hx
  unfold ballocLog
  cases hf : (List.range sb.size).find? fun b => !inUse sb m b with
  | none =>
    rw [hf] at hx
    exact absurd rfl hx
  | some b =>
    rw [hf] at hx
    simp only [List.mem_cons, List.not_mem_nil, or_false]
    by_cases hz : bzero (mark sb m b) b x = mark sb m b x
    · have hbit : x = bitAddr sb b := by
        by_contra hne
        exact hx (hz.trans (setBit_of_ne hne))
      refine .inl ?_
      rw [hbit]
      refine div_block ?_
      simp only [BPB, BSIZE]
      omega
    · rw [bzero_eq] at hz
      exact .inr (store_changes (by simp) hz)

theorem addrAt_changes {k : Fin (NDIRECT + 1)} (hx : (addrAt sb m d k).2.2 x ≠ m x) :
    x / BSIZE ∈ addrLog sb m d k := by
  unfold addrAt at hx
  unfold addrLog
  split at hx
  · next hk =>
    rw [if_pos hk]
    dsimp only at hx
    split at hx
    · exact balloc_changes hx
    · exact balloc_changes hx
  · exact absurd rfl hx

theorem entryAt_changes (hj : j < NINDIRECT) (hx : (entryAt sb m b j).2 x ≠ m x) :
    x / BSIZE ∈ entryLog sb m b j := by
  unfold entryAt at hx
  unfold entryLog
  split at hx
  · next hw =>
    rw [if_pos hw]
    dsimp only at hx
    split at hx
    · next h0 =>
      rw [if_pos h0]
      exact balloc_changes hx
    · next h0 =>
      rw [if_neg h0, List.mem_append, List.mem_singleton]
      by_cases hp : put (balloc sb m).2 (b * BSIZE + j * 4) 4 (balloc sb m).1 x = (balloc sb m).2 x
      · exact .inl (balloc_changes (hp ▸ hx))
      · refine .inr (store_changes ?_ hp)
        simp only [length_toBytes, NINDIRECT, BSIZE] at *
        omega
  · exact absurd rfl hx

theorem bmap_changes {bn : ℕ} (h : bmap sb m d bn = .ok (b, d', m')) (hx : m' x ≠ m x) :
    x / BSIZE ∈ bmapLog sb m d bn := by
  unfold bmap at h
  unfold bmapLog
  split
  · next hlt =>
    rw [dif_pos hlt] at h
    have hm := congrArg (fun r => r.2.2) (Except.ok.inj h)
    exact addrAt_changes (by rwa [show _ = m' from hm])
  · next hlt =>
    rw [dif_neg hlt] at h
    split
    · next hlt' =>
      rw [if_pos hlt'] at h
      dsimp only at h ⊢
      split
      · next h0 =>
        rw [if_pos h0] at h
        have hm := congrArg (fun r => r.2.2) (Except.ok.inj h)
        exact addrAt_changes (by rwa [show _ = m' from hm])
      · next h0 =>
        rw [if_neg h0] at h
        have hm : (entryAt sb (addrAt sb m d (Fin.last NDIRECT)).2.2
            (addrAt sb m d (Fin.last NDIRECT)).1 (bn - NDIRECT)).2 = m' :=
          congrArg (fun r => r.2.2) (Except.ok.inj h)
        rw [List.mem_append]
        by_cases ha : (addrAt sb m d (Fin.last NDIRECT)).2.2 x = m x
        · rw [← hm, ← ha] at hx
          exact .inr (entryAt_changes hlt' hx)
        · exact .inl (addrAt_changes ha)
    · next hlt' =>
      rw [if_neg hlt'] at h
      cases h

theorem iupdate_changes (hx : iupdate sb m d i x ≠ m x) : x / BSIZE = IBLOCK sb i := by
  by_contra hne
  refine hx (iupdate_of_outside ?_)
  simp only [IBLOCK, dinodeAddr, IPB, BSIZE] at *
  omega

/-- What the loop of `writei` changes is logged, but for the block whose copy fails. -/
theorem writeLoop_changes {n : ℕ} (hi : i < sb.ninodes) (fuel : ℕ) :
    ∀ (tot off : ℕ) (m : Mem) (d : Dinode) (t off' : ℕ) (d' : Dinode) (m' : Mem),
      Owned sb (update F i d) m → d.type ≠ 0 →
      writeLoop sb src n fuel tot off m d = .ok (t, off', d', m') → ∀ x, m' x ≠ m x →
      x / BSIZE ∈ writeLoopLog sb src n fuel tot off m d ∨
        x / BSIZE = d'.blockAt m' (off' / BSIZE) := by
  induction fuel with
  | zero =>
    intro tot off m d t off' d' m' _ _ h x hx
    obtain ⟨-, -, -, rfl⟩ := by simpa [writeLoop] using h
    exact absurd rfl hx
  | succ fuel ih =>
    intro tot off m d t off' d' m' ho ht h x hx
    unfold writeLoop at h
    unfold writeLoopLog
    split at h
    · next htot =>
      rw [if_pos htot]
      have hspec := bmap_spec ho hi ht (off / BSIZE)
      cases hb : bmap sb m d (off / BSIZE) with
      | error e =>
        rw [hb] at h
        cases h
      | ok r =>
        obtain ⟨b, d₁, m₁⟩ := r
        obtain ⟨hw, hblock⟩ := hspec.of_ok hb
        dsimp only at hw hblock
        have ht₁ : d₁.type ≠ 0 := by rwa [hw.grows.type_eq]
        rw [hb, Except.bind] at h
        dsimp only at h ⊢
        by_cases h0 : b = 0
        · rw [if_pos h0] at h ⊢
          obtain ⟨-, -, -, rfl⟩ := by simpa using h
          exact .inl (bmap_changes hb hx)
        · rw [if_neg h0] at h ⊢
          obtain rfl := hblock h0
          obtain ⟨k, hk⟩ : ∃ k, k = Min.min (n - tot) (BSIZE - off % BSIZE) := ⟨_, rfl⟩
          obtain ⟨l, hl⟩ : ∃ l, l = copyin src tot k := ⟨_, rfl⟩
          have hlen : l.length ≤ k := hl ▸ length_copyin
          have hmod : off % BSIZE < BSIZE := Nat.mod_lt _ (by decide)
          have hfit : off % BSIZE + l.length ≤ BSIZE := by omega
          have hs := hw.owned.store hi ht₁ h0 hfit
          rw [← hk, ← hl] at h ⊢
          have hround : ∀ x, store m₁ (d₁.blockAt m₁ (off / BSIZE) * BSIZE + off % BSIZE) l x ≠ m x →
              x / BSIZE ∈ bmapLog sb m d (off / BSIZE) ∨
                x / BSIZE = d₁.blockAt m₁ (off / BSIZE) := by
            intro x hx
            by_cases h₁ : m₁ x = m x
            · rw [← h₁] at hx
              exact .inr (store_changes hfit hx)
            · exact .inl (bmap_changes hb h₁)
          split at h
          · next hfull =>
            rw [if_pos hfull, List.mem_append, List.mem_cons]
            by_cases h₂ : m' x =
              store m₁ (d₁.blockAt m₁ (off / BSIZE) * BSIZE + off % BSIZE) l x
            · rw [h₂] at hx
              exact .inl ((hround x hx).imp_right .inl)
            · rcases ih _ _ _ _ _ _ _ _ hs.owned ht₁ h x h₂ with hlog | hlast
              · exact .inl (.inr (.inr hlog))
              · exact .inr hlast
          · next hfull =>
            rw [if_neg hfull]
            obtain ⟨-, rfl, rfl, rfl⟩ := by simpa using h
            refine (hround x hx).imp_right fun hlast => ?_
            rw [hs.grows.blockAt h0]
            exact hlast
    · obtain ⟨-, -, -, rfl⟩ := by simpa using h
      exact absurd rfl hx

/-- What `writei` changes is logged, but for the block whose copy fails. -/
theorem writei_changes {off n : ℕ} (h : Owned sb (update F i d) m) (hi : i < sb.ninodes)
    (ht : d.type ≠ 0) (hoff : off + n < 2 ^ 32) (hle : off ≤ d.size)
    (hmax : off + n ≤ MAXFILE * BSIZE) {t : ℕ} (hval : writei sb m d i src off n = .ok (t, d', m'))
    (hx : m' x ≠ m x) :
    x / BSIZE ∈ writeiLog sb m d i src off n ∨ x / BSIZE = d'.blockAt m' ((off + t) / BSIZE) := by
  have hmod : (off + n) % 2 ^ 32 = off + n := Nat.mod_eq_of_lt hoff
  unfold writei at hval
  unfold writeiLog
  rw [hmod] at hval ⊢
  rw [if_neg (by omega), if_neg (by omega)] at hval ⊢
  obtain ⟨t₁, r₁, d₁, m₁, heq, hw⟩ :=
    writeLoop_wrote src hi hmax n 0 m d (Nat.zero_le n) (Nat.sub_zero n ▸ le_rfl) h ht
  rw [Nat.add_zero] at heq hw
  rw [heq, Except.bind] at hval
  obtain ⟨d₂, hd₂⟩ : ∃ d₂, d₂ = if d₁.size < off + t₁ then { d₁ with size := off + t₁ } else d₁ :=
    ⟨_, rfl⟩
  have haddrs : d₂.addrs = d₁.addrs := by
    rw [hd₂]
    split_ifs <;> rfl
  dsimp only at hval
  rw [← hd₂] at hval
  obtain ⟨rfl, rfl, rfl⟩ : t₁ = t ∧ d₂ = d' ∧ iupdate sb m₁ d₂ i = m' := by simpa using hval
  have ht₁ : d₁.type ≠ 0 := by rwa [hw.worked.grows.type_eq]
  rw [hw.worked.owned.blockAt_iupdate hi ht₁ haddrs, List.mem_append, List.mem_singleton]
  by_cases h₁ : iupdate sb m₁ d₂ i x = m₁ x
  · rw [h₁] at hx
    exact (writeLoop_changes hi n 0 off m d _ _ _ _ h ht heq x hx).imp_left .inl
  · exact .inl (.inr (iupdate_changes h₁))

/-! ## A failed copy -/

/-- What the log installs for the blocks `L` : their buffers. The others stay as they were. -/
def logged (L : List ℕ) (m m' : Mem) : Mem :=
  fun x => if x / BSIZE ∈ L then m' x else m x

/-- A block is read from its buffer in `m'`, or from the disk `c` if the buffer was recycled. -/
def Seen (m' c m'' : Mem) : Prop :=
  ∀ b, (∀ o < BSIZE, m'' (b * BSIZE + o) = m' (b * BSIZE + o)) ∨
    ∀ o < BSIZE, m'' (b * BSIZE + o) = c (b * BSIZE + o)

/-- The call ends since a byte of the source cannot be read. -/
def writeiFaults (sb : Superblock) (m : Mem) (d : Dinode) (src : ℕ → Option Byte) (off n : ℕ) :
    Bool :=
  if d.size < off ∨ (off + n) % 2 ^ 32 < off then false
  else if MAXFILE * BSIZE < (off + n) % 2 ^ 32 then false
  else writeFaults sb src n n 0 off m d

/-- After a call that returned `t`, every `readi` finds what was logged, and outside of the `t`
bytes what was there before. -/
def Intact (sb : Superblock) (d : Dinode) (m : Mem) (off t : ℕ) (L : List ℕ) (d' : Dinode)
    (m' : Mem) : Prop :=
  ∀ m'', Seen m' (logged L m m') m'' → ∀ o k, o + k < 2 ^ 32 → ∃ bytes,
    readi sb m'' d' (fun _ => true) o k = .ok ⟨bytes.length, bytes, d', m''⟩ ∧
    readi sb (logged L m m') d' (fun _ => true) o k =
      .ok ⟨bytes.length, bytes, d', logged L m m'⟩ ∧
    ∀ j < bytes.length, (o + j < off ∨ off + t ≤ o + j) →
      bytes[j]? = (d.slice m 0 d.size)[o + j]?

/-- The bytes that can be read before the first that cannot, and that go to the same block of the
file as this one, are those that the file has there, as far as it goes. -/
def Harmless (d : Dinode) (m : Mem) (src : ℕ → Option Byte) (off : ℕ) : Prop :=
  ∀ r, src r = none → (∀ k < r, src k ≠ none) → ∀ k < r, (off + k) / BSIZE = (off + r) / BSIZE →
    off + k < d.size → src k = some (d.byteAt m (off + k))

theorem Seen.self {c : Mem} : Seen m' c m' :=
  fun _ => .inl fun _ _ => rfl

theorem Seen.disk {c : Mem} : Seen m' c c :=
  fun _ => .inr fun _ _ => rfl

/-- The file after a copy that failed at the byte `r` of the source. -/
structure Torn (sb : Superblock) (F : ℕ → Dinode) (i : ℕ) (src : ℕ → Option Byte) (off n : ℕ)
    (d : Dinode) (m : Mem) (t r : ℕ) (L : List ℕ) (d' : Dinode) (m' : Mem) : Prop where
  wrote : WroteInode sb F i src off n d m true t r d' m'
  off_le : off ≤ d.size
  full : Full m d
  lt_ninodes : i < sb.ninodes
  type_ne : d'.type ≠ 0
  changes : ∀ x, m' x ≠ m x → x / BSIZE ∈ L ∨ x / BSIZE = d'.blockAt m' ((off + t) / BSIZE)

namespace Torn

variable {off n t r : ℕ} {L : List ℕ}

/-- What is read outside of the block whose copy failed. -/
theorem seen_of_ne (h : Torn sb F i src off n d m t r L d' m')
    (hs : Seen m' (logged L m m') m'') (hx : x / BSIZE ≠ d'.blockAt m' ((off + t) / BSIZE)) :
    m'' x = m' x := by
  have hdiv := Nat.div_add_mod' x BSIZE
  have hmod : x % BSIZE < BSIZE := Nat.mod_lt _ (by decide)
  rcases hs (x / BSIZE) with hb | hb
  · have hbx := hb _ hmod
    rwa [hdiv] at hbx
  · have hbx := hb _ hmod
    rw [hdiv] at hbx
    rw [hbx, logged]
    split
    · rfl
    · next hno =>
      by_contra hne
      exact hx ((h.changes x (Ne.symm hne)).resolve_left hno)

/-- The blocks of the file are the same in every view. -/
theorem blockAt_seen (h : Torn sb F i src off n d m t r L d' m')
    (hs : Seen m' (logged L m m') m'') (k : ℕ) : d'.blockAt m'' k = d'.blockAt m' k := by
  have hslot : d'.slot m'' = d'.slot m' := by
    funext s
    refine slot_congr fun hind j hj => word_congr hj fun x h₁ h₂ => h.seen_of_ne hs ?_
    have hdiv : x / BSIZE = d'.ind := by
      simp only [BSIZE] at *
      omega
    rw [hdiv]
    exact (h.wrote.settled.owned.block_ne_ind h.lt_ninodes h.type_ne (h.wrote.fault rfl).2.2.2).symm
  rw [Dinode.blockAt, Dinode.blockAt, hslot]

theorem full_seen (h : Torn sb F i src off n d m t r L d' m')
    (hs : Seen m' (logged L m m') m'') : Full m'' d' :=
  fun k hk => (h.blockAt_seen hs k).trans_ne (h.wrote.settled.full k hk)

/-- Bytes of other blocks of the file. -/
theorem byteAt_of_ne (h : Torn sb F i src off n d m t r L d' m')
    (hs : Seen m' (logged L m m') m'') (hx : x < d'.size) (hne : x / BSIZE ≠ (off + t) / BSIZE) :
    d'.byteAt m'' x = d'.byteAt m' x := by
  rw [Dinode.byteAt, Dinode.byteAt, h.blockAt_seen hs]
  refine h.seen_of_ne hs ?_
  rw [div_block (Nat.mod_lt _ (by decide))]
  intro heq
  have hbf := (h.wrote.fault rfl).2.2.2
  exact hne (h.wrote.settled.owned.block_inj h.lt_ninodes h.type_ne hbf heq)

/-- Bytes of this block are outside of what was written, and were there before. -/
theorem old_of_block (h : Torn sb F i src off n d m t r L d' m') (hx : x < d'.size)
    (hb : x / BSIZE = (off + t) / BSIZE) : (x < off ∨ off + t ≤ x) ∧ x < d.size := by
  have hsize := h.wrote.size
  have hle := h.off_le
  have hlt := (h.wrote.fault rfl).1
  have hr := h.wrote.le_copied
  rcases h.wrote.start with h0 | halign | hn
  · exact ⟨by omega, by omega⟩
  · have hdiv := Nat.div_add_mod (off + t) BSIZE
    have hdivx := Nat.div_add_mod x BSIZE
    rw [hb] at hdivx
    exact ⟨by omega, by omega⟩
  · omega

/-- A byte of this block, as it was read from the disk. -/
theorem byteAt_logged (h : Torn sb F i src off n d m t r L d' m') (hx : x < d'.size)
    (hb : x / BSIZE = (off + t) / BSIZE) : d'.byteAt (logged L m m') x = d'.byteAt m' x ∨
      d'.byteAt (logged L m m') x = d.byteAt m x := by
  have hold := h.old_of_block hx hb
  rw [Dinode.byteAt, Dinode.byteAt, h.blockAt_seen .disk, logged]
  split
  · exact .inl rfl
  · refine .inr ?_
    rw [h.wrote.grows _ (h.full.blockAt hold.2)]
    rfl

/-- A byte of this block is in one of the two places. -/
theorem byteAt_seen (h : Torn sb F i src off n d m t r L d' m')
    (hs : Seen m' (logged L m m') m'') :
    d'.byteAt m'' x = d'.byteAt m' x ∨ d'.byteAt m'' x = d'.byteAt (logged L m m') x := by
  rw [Dinode.byteAt, Dinode.byteAt, Dinode.byteAt, h.blockAt_seen hs, h.blockAt_seen .disk]
  exact (hs _).imp (fun hb => hb _ (Nat.mod_lt _ (by decide)))
    fun hb => hb _ (Nat.mod_lt _ (by decide))

/-- The bytes in the buffer of this block. -/
theorem byteAt_buffer (h : Torn sb F i src off n d m t r L d' m') (hharm : Harmless d m src off)
    (hx : x < d'.size) (hb : x / BSIZE = (off + t) / BSIZE) : d'.byteAt m' x = d.byteAt m x := by
  obtain ⟨hout, hlt⟩ := h.old_of_block hx hb
  obtain ⟨-, hnone, hblock, -⟩ := h.wrote.fault rfl
  by_cases hin : off + t ≤ x ∧ x < off + r
  · obtain ⟨-, hsrc⟩ := h.wrote.copied x (by omega) hin.2
    have hread : ∀ k < r, src k ≠ none := by
      intro k hk hnk
      obtain ⟨-, hsk⟩ := h.wrote.copied (off + k) (by omega) (by omega)
      rw [Nat.add_sub_cancel_left, hnk] at hsk
      cases hsk
    have hval := hharm r hnone hread (x - off) (by omega)
    rw [Nat.add_sub_cancel' (by omega), hsrc] at hval
    exact Option.some.inj (hval (hb.trans hblock.symm) hlt)
  · exact h.wrote.kept x (by omega) hlt

theorem intact_iff (h : Torn sb F i src off n d m t r L d' m') :
    Intact sb d m off t L d' m' ↔ Harmless d m src off := by
  have hsize := h.wrote.size
  have hle := h.off_le
  have hr := h.wrote.le_copied
  obtain ⟨hlt, hnone, hblock, -⟩ := h.wrote.fault rfl
  constructor
  · intro hint r' hnone' hread k hk hb hks
    -- the byte `r` is the first that cannot be read
    have hr' : r' = r := by
      rcases Nat.lt_trichotomy r' r with hlt' | heq | hlt'
      · obtain ⟨-, hs⟩ := h.wrote.copied (off + r') (by omega) (by omega)
        rw [Nat.add_sub_cancel_left, hnone'] at hs
        cases hs
      · exact heq
      · exact absurd hnone (hread r hlt')
    subst hr'
    have hkx : off + k < d'.size := by omega
    have hout := h.old_of_block hkx (hb.trans hblock)
    have hlt32 : off + k + 1 < 2 ^ 32 := by
      have := h.full.size_le
      simp only [MAXFILE, NDIRECT, NINDIRECT, BSIZE] at this
      omega
    obtain ⟨bytes, hval, -, hbytes⟩ := hint m' .self (off + k) 1 hlt32
    obtain ⟨bytes', hval', heq'⟩ := readi_slice sb h.wrote.settled.full hlt32
    obtain ⟨-, rfl⟩ : bytes.length = bytes'.length ∧ bytes = bytes' := by
      simpa using hval.symm.trans hval'
    have hone : bytes[0]? = some (d'.byteAt m' (off + k)) := by
      rw [heq', List.getElem?_take_of_lt Nat.zero_lt_one, List.getElem?_drop, getElem?_slice,
        Nat.add_zero, if_pos hkx]
    have hlen : 0 < bytes.length := by
      by_contra hz
      rw [List.getElem?_eq_none (by omega)] at hone
      cases hone
    have hsame := hbytes 0 hlen (by simpa using hout.1)
    rw [Nat.add_zero, hone, getElem?_slice, if_pos hks] at hsame
    obtain ⟨-, hsrc⟩ := h.wrote.copied (off + k) (by omega) (by omega)
    rw [Nat.add_sub_cancel_left] at hsrc
    rw [hsrc, hsame]
  · intro hharm m'' hs o k hok
    have hagree : ∀ m'', Seen m' (logged L m m') m'' → ∀ x < d'.size,
        d'.byteAt m'' x = d'.byteAt m' x := by
      intro m'' hs x hx
      by_cases hb : x / BSIZE = (off + t) / BSIZE
      · have hbuf := h.byteAt_buffer hharm hx hb
        have hlog : d'.byteAt (logged L m m') x = d'.byteAt m' x :=
          (h.byteAt_logged hx hb).elim id fun hold => hold.trans hbuf.symm
        exact (h.byteAt_seen hs).elim id fun hc => hc.trans hlog
      · exact h.byteAt_of_ne hs hx hb
    have hslice : ∀ m'', Seen m' (logged L m m') m'' →
        d'.slice m'' 0 d'.size = d'.slice m' 0 d'.size := fun m'' hs =>
      slice_congr fun x _ hx => hagree m'' hs x (by omega)
    obtain ⟨bytes, hval, hbytes⟩ := readi_slice sb (h.full_seen hs) hok
    obtain ⟨bytes', hval', hbytes'⟩ := readi_slice sb (h.full_seen .disk) hok
    rw [hslice _ hs] at hbytes
    rw [hslice _ .disk, ← hbytes] at hbytes'
    subst hbytes'
    refine ⟨bytes', hval, hval', fun j hj hout => ?_⟩
    have hjk : j < k := by
      rw [hbytes, List.length_take] at hj
      omega
    have hjx : o + j < d'.size := by
      rw [hbytes, List.length_take, List.length_drop, length_slice] at hj
      omega
    have hjd : o + j < d.size := by omega
    rw [hbytes, List.getElem?_take_of_lt hjk, List.getElem?_drop, getElem?_slice, getElem?_slice,
      if_pos hjx, if_pos hjd]
    by_cases hb : (o + j) / BSIZE = (off + t) / BSIZE
    · rw [h.byteAt_buffer hharm hjx hb]
    · have hne : o + j < off ∨ off + r ≤ o + j := by
        simp only [BSIZE] at *
        omega
      rw [h.wrote.kept _ hne hjd]

end Torn

theorem writei_torn (h : FsInv sb s) (hl : s.Locked ip) {off n : ℕ} (hoff : off < 2 ^ 32)
    (hn : n < 2 ^ 32) (hf : writeiFaults sb s.disk (s.itable ip).copy src off n = true) :
    ∃ (t r : ℕ) (d' : Dinode) (m' : Mem),
      writei sb s.disk (s.itable ip).copy (s.itable ip).inum src off n = .ok (t, d', m') ∧
      Torn sb (readDinode sb s.disk) (s.itable ip).inum src off n (s.itable ip).copy s.disk t r
        (writeiLog sb s.disk (s.itable ip).copy (s.itable ip).inum src off n) d' m' := by
  have hi := h.inum_lt ip hl
  have ht := h.type_ne ip hl
  unfold writeiFaults at hf
  split at hf
  · cases hf
  · next hacc =>
    split at hf
    · cases hf
    · next hmax =>
      have hlt : off + n < 2 ^ 32 := by omega
      rw [Nat.mod_eq_of_lt hlt] at hmax hacc
      have hle : off + n ≤ MAXFILE * BSIZE := by omega
      obtain ⟨t, r, d', m', hval, hw⟩ := writei_wrote src (h.owned_self hl) hi ht
        (h.synced ip hl) (h.full_self hl) (by omega) hle
      rw [hf] at hw
      refine ⟨t, r, d', m', hval, hw, by omega, h.full_self hl, hi, hw.type.trans_ne ht,
        fun x hx => ?_⟩
      exact writei_changes (h.owned_self hl) hi ht hlt (by omega) (by omega) hval hx

/-- A copy from user memory that fails leaves the file as it was behind what is returned, if and
only if it has copied nothing that is not there anyway. -/
theorem failed_copy_intact_iff (h : FsInv sb s) (hl : s.Locked ip) {off n : ℕ} (hoff : off < 2 ^ 32)
    (hn : n < 2 ^ 32) (src : ℕ → Option Byte)
    (hf : writeiFaults sb s.disk (s.itable ip).copy src off n = true) :
    ∃ (t : ℕ) (d' : Dinode) (m' : Mem),
      writei sb s.disk (s.itable ip).copy (s.itable ip).inum src off n = .ok (t, d', m') ∧ t < n ∧
      (Intact sb (s.itable ip).copy s.disk off t
          (writeiLog sb s.disk (s.itable ip).copy (s.itable ip).inum src off n) d' m' ↔
        Harmless (s.itable ip).copy s.disk src off) := by
  obtain ⟨t, r, d', m', hval, htorn⟩ := writei_torn h hl hoff hn hf
  have hr := htorn.wrote.le_copied
  have hlt := (htorn.wrote.fault rfl).1
  exact ⟨t, d', m', hval, by omega, htorn.intact_iff⟩

/-- A file of four bytes is made. -/
def fourBytes (ip : Fin n) : List (FsCall n) :=
  [.ialloc .file, .ilock ip, .setLinks ip 0 0 1, .writei ip (fun k => [1, 2, 3, 4][k]?) 0 4]

/-- User memory that ends after two bytes. -/
def twoBytes (k : ℕ) : Option Byte :=
  if k < 2 then some 7 else none

theorem fourBytes_state : ∃ t, exec (move small)
      ⟨smallDisk, fun _ => ⟨0, 0, false, readDinode small smallDisk 0⟩⟩
      (fourBytes (Fin.last 0)) = some t ∧ FsInv small t ∧ t.Locked (Fin.last 0) ∧
    writeiFaults small t.disk (t.itable (Fin.last 0)).copy twoBytes 0 4 = true ∧
    (t.itable (Fin.last 0)).copy.size = 4 ∧
    (t.itable (Fin.last 0)).copy.byteAt t.disk 0 = 1 := by
  have hrun : (exec (move small)
      ⟨smallDisk, fun _ => ⟨0, 0, false, readDinode small smallDisk 0⟩⟩
      (fourBytes (Fin.last 0))).any (fun t => decide (t.Locked (Fin.last 0) ∧
        writeiFaults small t.disk (t.itable (Fin.last 0)).copy twoBytes 0 4 = true ∧
        (t.itable (Fin.last 0)).copy.size = 4 ∧
        (t.itable (Fin.last 0)).copy.byteAt t.disk 0 = 1)) = true := by
    decide +kernel
  obtain ⟨t, ht, hfacts⟩ := (Option.any_eq_true ..).1 hrun
  exact ⟨t, ht, reachable_inv consistent_small (reachable_of_exec ⟨rfl, fun _ => rfl⟩ ht),
    of_decide_eq_true hfacts⟩

theorem failed_copy_intact_small : ∃ s : Fs 1,
    ∃ (t : ℕ) (d' : Dinode) (m' : Mem), writei small s.disk (s.itable (Fin.last 0)).copy
        (s.itable (Fin.last 0)).inum twoBytes 0 4 = .ok (t, d', m') ∧ t < 4 ∧
      (Intact small (s.itable (Fin.last 0)).copy s.disk 0 t
          (writeiLog small s.disk (s.itable (Fin.last 0)).copy (s.itable (Fin.last 0)).inum
            twoBytes 0 4) d' m' ↔
        Harmless (s.itable (Fin.last 0)).copy s.disk twoBytes 0) := by
  obtain ⟨s, -, hinv, hl, hf, -⟩ := fourBytes_state
  exact ⟨s, failed_copy_intact_iff hinv hl (by norm_num) (by norm_num) twoBytes hf⟩

/-- The two bytes are in the file, though none is reported as written. -/
theorem failed_copy_not_intact : ∃ s : Fs 1, FsInv small s ∧ s.Locked (Fin.last 0) ∧
    ∃ (t : ℕ) (d' : Dinode) (m' : Mem), writei small s.disk (s.itable (Fin.last 0)).copy
        (s.itable (Fin.last 0)).inum twoBytes 0 4 = .ok (t, d', m') ∧ t < 4 ∧
      ¬Intact small (s.itable (Fin.last 0)).copy s.disk 0 t
        (writeiLog small s.disk (s.itable (Fin.last 0)).copy (s.itable (Fin.last 0)).inum
          twoBytes 0 4) d' m' := by
  obtain ⟨s, -, hinv, hl, hf, hsize, hbyte⟩ := fourBytes_state
  obtain ⟨t, r, d', m', hval, htorn⟩ := writei_torn hinv hl (by norm_num) (by norm_num) hf
  have hr := htorn.wrote.le_copied
  have hlt := (htorn.wrote.fault rfl).1
  refine ⟨s, hinv, hl, t, d', m', hval, by omega, fun hint => ?_⟩
  have hharm := htorn.intact_iff.1 hint 2 rfl (by decide) 0 (by decide) (by decide)
    (by rw [hsize]; decide)
  rw [hbyte] at hharm
  exact absurd hharm (by decide)

end Fs

end CowPbs
