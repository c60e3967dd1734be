import Mathlib
import CowPbs.Bcache

/-!
# The buffer cache is transparent

A buffer counts who uses it (`Counted`) : the processes that wait for it, hold it or are about
to give it back, and the log if the block is pinned. So a buffer that `bget` recycles is used
by nobody, and each block of the device is in one buffer at most (`Unique`). What was given
to `bwrite` or `log_write` last is what `bread` returns (`bread_latest`) : it is in the buffer
of the block, and on the disk unless the block is pinned (`Fresh`).
-/

set_option linter.unusedSectionVars false

open Function LinkedRing Transition

namespace CowPbs

variable {ι α : Type} {n : ℕ}

namespace BufPc

/-- The buffer that the process waits for. -/
def waits : BufPc n → Option (Fin n)
  | acquiring i _ => some i
  | run | loading .. | releasing _ => none

/-- The buffer that the process is about to give back. -/
def drops : BufPc n → Option (Fin n)
  | releasing i => some i
  | run | acquiring .. | loading .. => none

end BufPc

namespace Bcache

variable [DecidableEq ι] [DecidableEq α] [Fintype ι] {dev : ℕ} {s t : Bcache ι α n}
  {e : BufEvent ι α n} {es : List (BufEvent ι α n)} {i : Fin n} {p : ι} {b : ℕ}

/-- The blocks that are pinned. -/
def pinned (s : Bcache ι α n) : List ℕ :=
  s.lh.drop s.tail

/-- How often the process uses the buffer. -/
def uses (s : Bcache ι α n) (i : Fin n) (p : ι) : ℕ :=
  (if (s.pc p).waits = some i then 1 else 0) + (if (s.buf i).lock = some p then 1 else 0) +
    if (s.pc p).drops = some i then 1 else 0

/-- What a buffer is used for. -/
structure Counted (dev : ℕ) (s : Bcache ι α n) : Prop where
  refcnt : ∀ i, (s.buf i).refcnt = ∑ p, s.uses i p +
    if (s.buf i).dev = dev ∧ (s.buf i).blockno ∈ s.pinned then 1 else 0
  nodup : s.lh.Nodup
  tail : s.tail ≤ s.lh.length
  /-- A buffer that is used belongs to the device. -/
  waiting : ∀ p i b, s.pc p = .acquiring i b → (s.buf i).dev = dev ∧ (s.buf i).blockno = b
  loading : ∀ p i b, s.pc p = .loading i b →
    (s.buf i).dev = dev ∧ (s.buf i).blockno = b ∧ (s.buf i).lock = some p
  lock : ∀ i p, (s.buf i).lock = some p → (s.buf i).dev = dev
  unique : ∀ i j, (s.buf i).dev = dev → (s.buf j).dev = dev →
    (s.buf i).blockno = (s.buf j).blockno → i = j
  pin : ∀ b ∈ s.pinned, ∃ i, (s.buf i).dev = dev ∧ (s.buf i).blockno = b

namespace Counted

theorem boot {zero : α} {disk : ℕ → α} (hdev : dev ≠ 0) :
    Counted dev (boot zero disk : Bcache ι α n) := by
  refine ⟨?_, ?_, ?_, ?_, ?_, ?_, ?_, ?_⟩ <;>
    simp [Bcache.boot, uses, pinned, BufPc.waits, BufPc.drops, hdev.symm]

theorem uses_congr (hpc : t.pc p = s.pc p) (hlk : (t.buf i).lock = (s.buf i).lock) :
    t.uses i p = s.uses i p := by
  simp only [uses, hpc, hlk]

/-- A change of what `p` uses shows in the count. -/
theorem sum_uses (hother : ∀ q, q ≠ p → t.uses i q = s.uses i q) :
    ∑ q, t.uses i q + s.uses i p = ∑ q, s.uses i q + t.uses i p := by
  have ht := Finset.add_sum_erase Finset.univ (fun q => t.uses i q) (Finset.mem_univ p)
  have hs := Finset.add_sum_erase Finset.univ (fun q => s.uses i q) (Finset.mem_univ p)
  have hsum : ∑ q ∈ Finset.univ.erase p, t.uses i q = ∑ q ∈ Finset.univ.erase p, s.uses i q :=
    Finset.sum_congr rfl fun q hq => hother q (Finset.ne_of_mem_erase hq)
  omega

theorem uses_pos_refcnt (h : Counted dev s) (hp : 0 < s.uses i p) : 0 < (s.buf i).refcnt := by
  rw [h.refcnt i]
  have := Finset.single_le_sum (f := s.uses i) (fun _ _ => Nat.zero_le _) (Finset.mem_univ p)
  omega

/-- A move of `p` that changes at most what `p` uses the buffer `i` for. -/
theorem use (h : Counted dev s) (i : Fin n) (p : ι) (hbuf : ∀ j, j ≠ i → t.buf j = s.buf j)
    (hpc : ∀ q, q ≠ p → t.pc q = s.pc q) (hlh : t.lh = s.lh) (htail : t.tail = s.tail)
    (hid : (t.buf i).dev = (s.buf i).dev ∧ (t.buf i).blockno = (s.buf i).blockno)
    (hlk : ∀ q, q ≠ p → ((t.buf i).lock = some q ↔ (s.buf i).lock = some q))
    (hp : ∀ j, j ≠ i → ((t.pc p).waits = some j ↔ (s.pc p).waits = some j) ∧
      ((t.pc p).drops = some j ↔ (s.pc p).drops = some j))
    (href : (t.buf i).refcnt + s.uses i p = (s.buf i).refcnt + t.uses i p)
    (hwait : ∀ j b, t.pc p = .acquiring j b → (s.buf j).dev = dev ∧ (s.buf j).blockno = b)
    (hload : ∀ j b, t.pc p = .loading j b →
      (s.buf j).dev = dev ∧ (s.buf j).blockno = b ∧ (t.buf j).lock = some p)
    (hlock : (t.buf i).lock = some p → (s.buf i).dev = dev) : Counted dev t := by
  have hdev : ∀ j, (t.buf j).dev = (s.buf j).dev ∧ (t.buf j).blockno = (s.buf j).blockno := by
    intro j
    by_cases hji : j = i
    · rw [hji]
      exact hid
    · simp [hbuf j hji]
  have hpin : t.pinned = s.pinned := by rw [pinned, pinned, hlh, htail]
  have hlkj : ∀ j q, q ≠ p → ((t.buf j).lock = some q ↔ (s.buf j).lock = some q) := by
    intro j q hq
    by_cases hji : j = i
    · rw [hji]
      exact hlk q hq
    · rw [hbuf j hji]
  have huses : ∀ j q, q ≠ p → t.uses j q = s.uses j q := by
    intro j q hq
    simp only [uses, hpc q hq, hlkj j q hq]
  refine ⟨fun j => ?_, hlh ▸ h.nodup, by rw [hlh, htail]; exact h.tail, fun q j b hq => ?_,
    fun q j b hq => ?_, fun j q hq => ?_, fun j k hj hk hjk => ?_, fun b hb => ?_⟩
  · have hsum := sum_uses (huses j)
    have hcnt := h.refcnt j
    rw [hpin, (hdev j).1, (hdev j).2]
    by_cases hji : j = i
    · subst hji
      omega
    · have heq : t.uses j p = s.uses j p := by
        simp only [uses, hbuf j hji, (hp j hji).1, (hp j hji).2]
      rw [hbuf j hji]
      omega
  · rw [(hdev j).1, (hdev j).2]
    by_cases hqp : q = p
    · subst hqp
      exact hwait j b hq
    · exact h.waiting q j b (hpc q hqp ▸ hq)
  · rw [(hdev j).1, (hdev j).2]
    by_cases hqp : q = p
    · subst hqp
      exact hload j b hq
    · rw [hlkj j q hqp]
      exact h.loading q j b (hpc q hqp ▸ hq)
  · rw [(hdev j).1]
    by_cases hqp : q = p
    · subst hqp
      by_cases hji : j = i
      · subst hji
        exact hlock hq
      · exact h.lock j q (hbuf j hji ▸ hq)
    · exact h.lock j q ((hlkj j q hqp).1 hq)
  · rw [(hdev j).1] at hj
    rw [(hdev k).1] at hk
    rw [(hdev j).2, (hdev k).2] at hjk
    exact h.unique j k hj hk hjk
  · obtain ⟨j, hj⟩ := h.pin b (hpin ▸ hb)
    exact ⟨j, by rw [(hdev j).1, (hdev j).2]; exact hj⟩

/-- A buffer that nobody uses gets another block. -/
theorem recycle {l : List (Fin n)} (h : Counted dev s) (hl : Lru s l) (hpc : s.pc p = .run)
    (hc : s.cached dev b = none) (hu : s.unused = some i) : Counted dev
      ((s.set i { s.buf i with
        dev := dev, blockno := b, valid := false, refcnt := 1 }).goto p (.acquiring i b)) := by
  have hzero := hl.of_unused hu
  have hno := fun j => hl.of_not_cached hc j
  have hcnt := h.refcnt i
  rw [hzero] at hcnt
  have hsum : ∑ q, s.uses i q = 0 := by omega
  have hnone : ∀ q, s.uses i q = 0 := fun q => by
    simpa using (Finset.sum_eq_zero_iff.1 hsum) q (Finset.mem_univ q)
  have hlock : (s.buf i).lock = none := by
    cases hlk : (s.buf i).lock with
    | none => rfl
    | some q =>
      have := hnone q
      simp [uses, hlk] at this
  have hb : b ∉ s.pinned := by
    intro hb
    obtain ⟨j, hj, hjb⟩ := h.pin b hb
    exact hno j hj hjb
  have hnotpin : (s.buf i).dev = dev → (s.buf i).blockno ∉ s.pinned := by
    intro hd hp
    rw [if_pos ⟨hd, hp⟩] at hcnt
    omega
  have hnoti : ∀ q, (s.pc q).waits ≠ some i ∧ (s.pc q).drops ≠ some i := by
    intro q
    have := hnone q
    simp only [uses] at this
    constructor <;> intro hq <;> simp [hq] at this
  set t := (s.set i { s.buf i with
    dev := dev, blockno := b, valid := false, refcnt := 1 }).goto p (.acquiring i b) with ht
  have hbi : t.buf i = { s.buf i with
      dev := dev, blockno := b, valid := false, refcnt := 1 } := by simp [ht, set, goto]
  have hbj : ∀ j, j ≠ i → t.buf j = s.buf j := fun j hj => by simp [ht, set, goto, hj]
  have hpcp : t.pc p = .acquiring i b := by simp [ht, goto]
  have hpcq : ∀ q, q ≠ p → t.pc q = s.pc q := fun q hq => by simp [ht, set, goto, hq]
  have hpin : t.pinned = s.pinned := rfl
  refine ⟨fun j => ?_, h.nodup, h.tail, fun q j b' hq => ?_, fun q j b' hq => ?_, fun j q hq => ?_,
    fun j k hj hk hjk => ?_, fun b' hb' => ?_⟩
  · by_cases hji : j = i
    · subst hji
      have hsum := sum_uses (s := s) (t := t) (i := j) (p := p) fun q hq => by
        simp [uses, hpcq q hq, hbi]
      have hp : t.uses j p = 1 := by simp [uses, hpcp, hbi, hlock, BufPc.waits, BufPc.drops]
      have := hnone p
      rw [hbi, hpin, if_neg (by simp [hb])]
      simp only
      omega
    · have hsum := sum_uses (s := s) (t := t) (i := j) (p := p) fun q hq => by
        simp [uses, hpcq q hq, hbj j hji]
      have hp : t.uses j p = s.uses j p := by
        simp [uses, hpcp, hpc, hbj j hji, BufPc.waits, BufPc.drops, Ne.symm hji]
      have := h.refcnt j
      rw [hbj j hji, hpin]
      omega
  · by_cases hqp : q = p
    · subst hqp
      rw [hpcp] at hq
      obtain ⟨rfl, rfl⟩ := BufPc.acquiring.inj hq
      simp [hbi]
    · rw [hpcq q hqp] at hq
      have hji : j ≠ i := by
        rintro rfl
        exact (hnoti q).1 (by rw [hq]; rfl)
      rw [hbj j hji]
      exact h.waiting q j b' hq
  · by_cases hqp : q = p
    · subst hqp
      rw [hpcp] at hq
      cases hq
    · rw [hpcq q hqp] at hq
      have hload := h.loading q j b' hq
      have hji : j ≠ i := by
        rintro rfl
        rw [hlock] at hload
        cases hload.2.2
      rw [hbj j hji]
      exact hload
  · by_cases hji : j = i
    · rw [hji, hbi]
    · rw [hbj j hji] at hq ⊢
      exact h.lock j q hq
  · by_cases hji : j = i <;> by_cases hki : k = i
    · rw [hji, hki]
    · rw [hbj k hki] at hk hjk
      rw [hji, hbi] at hjk
      exact (hno k hk hjk.symm).elim
    · rw [hbj j hji] at hj hjk
      rw [hki, hbi] at hjk
      exact (hno j hj hjk).elim
    · rw [hbj j hji] at hj hjk
      rw [hbj k hki] at hk hjk
      exact h.unique j k hj hk hjk
  · obtain ⟨j, hj, hjb⟩ := h.pin b' hb'
    have hji : j ≠ i := by
      rintro rfl
      exact hnotpin hj (hjb ▸ hb')
    exact ⟨j, by rw [hbj j hji]; exact ⟨hj, hjb⟩⟩

/-- What is pinned changes, and `p` holds the buffer `i` of the block. -/
theorem repin (h : Counted dev s) (hh : s.Holds p i) (hbuf : ∀ j, j ≠ i → t.buf j = s.buf j)
    (hpc : t.pc = s.pc) (hdev : (t.buf i).dev = (s.buf i).dev)
    (hblk : (t.buf i).blockno = (s.buf i).blockno) (hlock : (t.buf i).lock = (s.buf i).lock)
    (hnd : t.lh.Nodup) (htail : t.tail ≤ t.lh.length)
    (hpin : ∀ x, x ≠ (s.buf i).blockno → (x ∈ t.pinned ↔ x ∈ s.pinned))
    (href : (t.buf i).refcnt + (if (s.buf i).blockno ∈ s.pinned then 1 else 0) =
      (s.buf i).refcnt + if (s.buf i).blockno ∈ t.pinned then 1 else 0) : Counted dev t := by
  have hd := h.lock i p hh.2
  have hsame : ∀ j, (t.buf j).dev = (s.buf j).dev ∧ (t.buf j).blockno = (s.buf j).blockno ∧
      (t.buf j).lock = (s.buf j).lock := by
    intro j
    by_cases hji : j = i
    · rw [hji]
      exact ⟨hdev, hblk, hlock⟩
    · simp [hbuf j hji]
  have huses : ∀ j q, t.uses j q = s.uses j q := fun j q =>
    uses_congr (congrFun hpc q) (hsame j).2.2
  refine ⟨fun j => ?_, hnd, htail, fun q j b hq => ?_, fun q j b hq => ?_, fun j q hq => ?_,
    fun j k hj hk hjk => ?_, fun b hb => ?_⟩
  · have hcnt := h.refcnt j
    simp only [huses, (hsame j).1, (hsame j).2.1]
    by_cases hji : j = i
    · subst hji
      simp only [hd, true_and] at hcnt ⊢
      omega
    · rw [hbuf j hji, hcnt]
      congr 1
      by_cases hj : (s.buf j).dev = dev
      · have hne : (s.buf j).blockno ≠ (s.buf i).blockno := fun heq => hji (h.unique j i hj hd heq)
        simp only [hj, hpin _ hne]
      · simp [hj]
  · rw [(hsame j).1, (hsame j).2.1]
    exact h.waiting q j b (hpc ▸ hq)
  · rw [(hsame j).1, (hsame j).2.1, (hsame j).2.2]
    exact h.loading q j b (hpc ▸ hq)
  · rw [(hsame j).1]
    exact h.lock j q ((hsame j).2.2 ▸ hq)
  · rw [(hsame j).1] at hj
    rw [(hsame k).1] at hk
    rw [(hsame j).2.1, (hsame k).2.1] at hjk
    exact h.unique j k hj hk hjk
  · by_cases hbi : b = (s.buf i).blockno
    · exact ⟨i, hdev.trans hd, hblk.trans hbi.symm⟩
    · obtain ⟨j, hj⟩ := h.pin b ((hpin b hbi).1 hb)
      exact ⟨j, by rw [(hsame j).1, (hsame j).2.1]; exact hj⟩

theorem step {l : List (Fin n)} (h : Counted dev s) (hl : Lru s l) (hs : s.Moves dev e t) :
    Counted dev t := by
  cases hs with
  | hit p b i hpc hc =>
    have hid := hl.of_cached hc
    refine h.use i p (fun j hj => by simp [set, goto, hj]) (fun q hq => by simp [set, goto, hq])
      rfl rfl (by simp [set, goto]) (by simp [set, goto]) (fun j hj => ?_) ?_ (fun j b' hj => ?_)
      (fun j b' hj => ?_) ?_
    · simp [set, goto, hpc, BufPc.waits, BufPc.drops, hj.symm]
    · simp [uses, set, goto, hpc, BufPc.waits, BufPc.drops]
      omega
    · have : i = j ∧ b = b' := by simpa [goto] using hj
      obtain ⟨rfl, rfl⟩ := this
      exact hid
    · simp [goto] at hj
    · exact fun _ => hid.1
  | recycle p b i hpc hc hu => exact h.recycle hl hpc hc hu
  | acquire p i b hpc hlk =>
    have hid := h.waiting p i b hpc
    refine h.use i p (fun j hj => by simp [set, goto, hj]) (fun q hq => by simp [set, goto, hq])
      rfl rfl (by simp [set, goto]) (fun q hq => by simp [set, goto, hlk, hq.symm])
      (fun j hj => ?_) ?_ (fun j b' hj => ?_) (fun j b' hj => ?_) ?_
    · simp [set, goto, hpc, BufPc.waits, BufPc.drops, hj.symm]
    · simp [uses, set, goto, hpc, hlk, BufPc.waits, BufPc.drops]
    · simp [goto] at hj
    · have : i = j ∧ b = b' := by simpa [goto] using hj
      obtain ⟨rfl, rfl⟩ := this
      exact ⟨hid.1, hid.2, by simp [set, goto]⟩
    · exact fun _ => hid.1
  | bread p i b hpc =>
    have hid := h.loading p i b hpc
    refine h.use i p (fun j hj => by simp [set, goto, hj]) (fun q hq => by simp [set, goto, hq])
      rfl rfl (by simp [set, goto]) (fun q hq => by simp [set, goto]) (fun j hj => ?_) ?_
      (fun j b' hj => ?_) (fun j b' hj => ?_) fun _ => hid.1
    · simp [set, goto, hpc, BufPc.waits, BufPc.drops]
    · simp [uses, set, goto, hpc, hid.2.2, BufPc.waits, BufPc.drops]
    · simp [goto] at hj
    · simp [goto] at hj
  | modify p i d hh =>
    obtain ⟨hpc, hlk⟩ := hh
    refine h.use i p (fun j hj => by simp [set, hj]) (fun q hq => rfl)
      rfl rfl (by simp [set]) (by simp [set]) (by simp [set]) ?_
      (fun j b hj => h.waiting p j b hj) (fun j b hj => ?_) fun _ => h.lock i p hlk
    · simp [uses, set, hpc, hlk, BufPc.waits, BufPc.drops]
    · have hj : s.pc p = .loading j b := hj
      rw [hpc] at hj
      cases hj
  | bwrite p i hh | absorb p i hh =>
    exact h.use i p (fun _ _ => rfl) (fun _ _ => rfl) rfl rfl ⟨rfl, rfl⟩ (fun _ _ => Iff.rfl)
      (fun _ _ => ⟨Iff.rfl, Iff.rfl⟩) rfl (h.waiting p) (h.loading p) (h.lock i p)
  | pin p i hh ht hlh =>
    refine h.repin hh (fun j hj => by simp [set, hj]) rfl (by simp [set]) (by simp [set])
      (by simp [set]) ?_ ?_ (fun x hx => ?_) ?_
    · exact List.concat_eq_append ▸ h.nodup.concat hlh
    · simp [set, ht]
    · simp [pinned, set, ht, hx]
    · simp [pinned, set, ht, hlh]
  | install p i d hh hb =>
    obtain ⟨htail, hbi⟩ := List.getElem?_eq_some_iff.1 hb
    have hps : s.pinned = (s.buf i).blockno :: s.lh.drop (s.tail + 1) := by
      rw [pinned, List.drop_eq_getElem_cons htail, hbi]
    have hnd : (s.buf i).blockno ∉ s.lh.drop (s.tail + 1) := by
      have : s.pinned.Nodup := h.nodup.sublist (List.drop_sublist ..)
      rw [hps] at this
      exact (List.nodup_cons.1 this).1
    have hpos : 0 < (s.buf i).refcnt := by
      rw [h.refcnt i, if_pos ⟨h.lock i p hh.2, by simp [hps]⟩]
      omega
    refine h.repin hh (fun j hj => by simp [set, hj]) rfl (by simp [set]) (by simp [set])
      (by simp [set]) h.nodup htail (fun x hx => ?_) ?_
    · rw [hps, List.mem_cons, or_iff_right hx]
      rfl
    · rw [hps, if_pos (by simp), if_neg (by simpa [pinned, set] using hnd)]
      simp [set]
      omega
  | brelse p i hh hc =>
    obtain ⟨hpc, hlk⟩ := hh
    refine h.use i p (fun j hj => by simp [set, goto, hj]) (fun q hq => by simp [set, goto, hq])
      rfl rfl (by simp [set, goto]) (fun q hq => by simp [set, goto, hlk, hq.symm])
      (fun j hj => ?_) ?_ (fun j b' hj => ?_) (fun j b' hj => ?_) ?_
    · simp [set, goto, hpc, BufPc.waits, BufPc.drops, hj.symm]
    · simp [uses, set, goto, hpc, hlk, BufPc.waits, BufPc.drops]
    · simp [goto] at hj
    · simp [goto] at hj
    · simp [set, goto]
  | release p i hpc =>
    have hpos : 0 < (s.buf i).refcnt :=
      h.uses_pos_refcnt (p := p) (by simp [uses, hpc, BufPc.drops])
    refine h.use i p (fun j hj => by simp [set, goto, hj]) (fun q hq => by simp [set, goto, hq])
      rfl rfl (by simp [set, goto]) (fun q hq => by simp [set, goto]) (fun j hj => ?_) ?_
      (fun j b' hj => ?_) (fun j b' hj => ?_) fun hl => ?_
    · simp [set, goto, hpc, BufPc.waits, BufPc.drops, hj.symm]
    · simp [uses, set, goto, hpc, BufPc.waits, BufPc.drops]
      omega
    · simp [goto] at hj
    · simp [goto] at hj
    · exact h.lock i p (by simpa [set, goto] using hl)
  | clear ht =>
    have hpin : s.pinned = [] := by simp [pinned, ht]
    refine ⟨fun j => ?_, by simp, by simp, h.waiting, h.loading, h.lock, h.unique, by simp [pinned]⟩
    have := h.refcnt j
    rw [hpin] at this
    exact this

end Counted

/-! ## Contents -/

/-- The contents given to `bwrite` or `log_write` last, after a move. -/
def latestNext (f : ℕ → α) : BufEvent ι α n → ℕ → α
  | .bwrite _ _ b d | .logWrite _ _ b d | .install _ _ b d => update f b d
  | .bget .. | .acquire _ | .bread .. | .modify .. | .brelse .. | .release _ | .clear => f

/-- The contents of the blocks that were given to `bwrite` or `log_write` last, or those of the
disk. -/
def latest (disk : ℕ → α) (es : List (BufEvent ι α n)) : ℕ → α :=
  es.foldl latestNext disk

/-- The process has the buffer, and has read it. -/
def Owns (s : Bcache ι α n) (p : ι) (i : Fin n) : Prop :=
  (s.buf i).lock = some p ∧ ∀ b, s.pc p ≠ .loading i b

theorem owns_congr {q : ι} {j : Fin n} (hlk : (t.buf j).lock = (s.buf j).lock)
    (hpc : ∀ b, t.pc q = .loading j b ↔ s.pc q = .loading j b) : t.Owns q j ↔ s.Owns q j := by
  simp only [Owns, hlk, ne_eq, hpc]

theorem goto_loading_iff {x : BufPc n} {q : ι} {j : Fin n} (hx : ∀ b, x ≠ .loading j b)
    (hp : ∀ b, s.pc p ≠ .loading j b) (b : ℕ) :
    (s.goto p x).pc q = .loading j b ↔ s.pc q = .loading j b := by
  by_cases hqp : q = p
  · subst hqp
    simp [goto, hx, hp]
  · simp [goto, hqp]

theorem Holds.owns (h : s.Holds p i) : s.Owns p i :=
  ⟨h.2, by simp [h.1]⟩

/-- The buffers and the disk have the contents `f`. -/
structure Fresh (dev : ℕ) (f : ℕ → α) (s : Bcache ι α n) : Prop where
  /-- Only the process that has a buffer changes it. -/
  changed : ∀ i, s.changed i = true → ∃ p, s.Owns p i
  valid : ∀ p i, s.Owns p i → (s.buf i).valid = true
  data : ∀ i, (s.buf i).dev = dev → (s.buf i).valid = true → s.changed i = false →
    (s.buf i).data = f (s.buf i).blockno
  pin : ∀ i, (s.buf i).dev = dev → (s.buf i).blockno ∈ s.pinned → (s.buf i).valid = true
  disk : ∀ b ∉ s.pinned, s.disk b = f b

namespace Fresh

variable {f : ℕ → α}

theorem boot {zero : α} {disk : ℕ → α} (hdev : dev ≠ 0) :
    Fresh dev disk (boot zero disk : Bcache ι α n) := by
  refine ⟨?_, ?_, ?_, ?_, ?_⟩ <;> simp [Bcache.boot, Owns, hdev.symm]

/-- A buffer that is not locked, or that is about to be read, was not changed. -/
theorem changed_eq_false (h : Fresh dev f s) (hno : ∀ p, ¬s.Owns p i) : s.changed i = false := by
  by_contra hne
  obtain ⟨p, hp⟩ := h.changed i (by simpa using hne)
  exact hno p hp

theorem changed_of_loading (h : Fresh dev f s) (hC : Counted dev s)
    (hpc : s.pc p = .loading i b) : s.changed i = false := by
  refine h.changed_eq_false fun q hq => ?_
  obtain rfl : p = q := Option.some.inj ((hC.loading p i b hpc).2.2.symm.trans hq.1)
  exact hq.2 b hpc

/-- What `bread` returns. -/
theorem loaded_eq (h : Fresh dev f s) (hC : Counted dev s) (hpc : s.pc p = .loading i b) :
    s.loaded i = f b := by
  obtain ⟨hd, hb, hlk⟩ := hC.loading p i b hpc
  unfold loaded
  split_ifs with hv
  · rw [h.data i hd hv (h.changed_of_loading hC hpc), hb]
  · rw [hb]
    exact h.disk b fun hmem => hv (h.pin i hd (hb ▸ hmem))

/-- A move after which a buffer has the same block and contents. -/
theorem of_set {x : Buf ι α} (h : Fresh dev f s) (hbuf : t.buf = update s.buf i x)
    (hdev : x.dev = (s.buf i).dev) (hblk : x.blockno = (s.buf i).blockno)
    (hvalid : x.valid = (s.buf i).valid) (hdata : x.data = (s.buf i).data)
    (hch : t.changed = s.changed) (hpin : t.pinned = s.pinned) (hdisk : t.disk = s.disk)
    (hown : ∀ j, s.changed j = true → ∀ p, s.Owns p j → t.Owns p j)
    (hval : ∀ p j, t.Owns p j → s.Owns p j) : Fresh dev f t := by
  have hsame : ∀ j, (t.buf j).dev = (s.buf j).dev ∧ (t.buf j).blockno = (s.buf j).blockno ∧
      (t.buf j).valid = (s.buf j).valid ∧ (t.buf j).data = (s.buf j).data := by
    intro j
    rw [hbuf]
    by_cases hji : j = i
    · subst hji
      simp [hdev, hblk, hvalid, hdata]
    · simp [hji]
  refine ⟨fun j hj => ?_, fun p j hp => ?_, fun j hd hv hc => ?_, fun j hd hm => ?_, fun b hb => ?_⟩
  · rw [hch] at hj
    obtain ⟨p, hp⟩ := h.changed j hj
    exact ⟨p, hown j hj p hp⟩
  · rw [(hsame j).2.2.1]
    exact h.valid p j (hval p j hp)
  · rw [(hsame j).1] at hd
    rw [(hsame j).2.2.1] at hv
    rw [(hsame j).2.2.2, (hsame j).2.1]
    exact h.data j hd hv (hch ▸ hc)
  · rw [(hsame j).1] at hd
    rw [hpin, (hsame j).2.1] at hm
    rw [(hsame j).2.2.1]
    exact h.pin j hd hm
  · rw [hdisk]
    exact h.disk b (hpin ▸ hb)

/-- The process that holds the buffer `i` gives it to `bwrite` or `log_write`, with the contents
`d`. -/
theorem write {d : α} (h : Fresh dev f s) (hC : Counted dev s) (hh : s.Holds p i)
    (hbuf : ∀ j, j ≠ i → t.buf j = s.buf j) (hdev : (t.buf i).dev = (s.buf i).dev)
    (hblk : (t.buf i).blockno = (s.buf i).blockno) (hvalid : (t.buf i).valid = (s.buf i).valid)
    (hlock : (t.buf i).lock = (s.buf i).lock) (hdata : (t.buf i).data = d) (hpc : t.pc = s.pc)
    (hch : t.changed = update s.changed i false)
    (hpin : ∀ x, x ≠ (s.buf i).blockno → (x ∈ t.pinned ↔ x ∈ s.pinned))
    (hdisk : ∀ x ∉ t.pinned, t.disk x = update f (s.buf i).blockno d x) :
    Fresh dev (update f (s.buf i).blockno d) t := by
  have hd := hC.lock i p hh.2
  have hv := h.valid p i hh.owns
  have hne : ∀ j, j ≠ i → (s.buf j).dev = dev → (s.buf j).blockno ≠ (s.buf i).blockno :=
    fun j hji hj heq => hji (hC.unique j i hj hd heq)
  have hown : ∀ q j, t.Owns q j ↔ s.Owns q j := by
    intro q j
    by_cases hji : j = i
    · subst hji
      simp only [Owns, hpc, hlock]
    · simp only [Owns, hpc, hbuf j hji]
  refine ⟨fun j hj => ?_, fun q j hq => ?_, fun j hj hvj hcj => ?_, fun j hj hm => ?_, hdisk⟩
  · by_cases hji : j = i
    · rw [hji, hch, update_self] at hj
      cases hj
    · rw [hch, update_of_ne hji] at hj
      obtain ⟨q, hq⟩ := h.changed j hj
      exact ⟨q, (hown q j).2 hq⟩
  · have := h.valid q j ((hown q j).1 hq)
    by_cases hji : j = i
    · rw [hji, hvalid, hv]
    · rw [hbuf j hji, this]
  · by_cases hji : j = i
    · rw [hji, hdata, hblk, update_self]
    · rw [hbuf j hji] at hj hvj ⊢
      rw [hch, update_of_ne hji] at hcj
      rw [update_of_ne (hne j hji hj)]
      exact h.data j hj hvj hcj
  · by_cases hji : j = i
    · rw [hji, hvalid, hv]
    · rw [hbuf j hji] at hj hm ⊢
      exact h.pin j hj ((hpin _ (hne j hji hj)).1 hm)

/-- `bread` returns. -/
theorem bread (h : Fresh dev f s) (hC : Counted dev s) (hpc : s.pc p = .loading i b) :
    Fresh dev f ((s.set i { s.buf i with data := s.loaded i, valid := true }).goto p .run) := by
  obtain ⟨hd, hb, hlk⟩ := hC.loading p i b hpc
  have hch := h.changed_of_loading hC hpc
  set t := (s.set i { s.buf i with data := s.loaded i, valid := true }).goto p .run with ht
  have hbi : t.buf i = { s.buf i with data := s.loaded i, valid := true } := by
    simp [ht, set, goto]
  have hbj : ∀ j, j ≠ i → t.buf j = s.buf j := fun j hj => by simp [ht, set, goto, hj]
  have hown : ∀ q j, j ≠ i → (t.Owns q j ↔ s.Owns q j) := fun q j hji =>
    owns_congr (by rw [hbj j hji]) (goto_loading_iff (by simp) (by simp [set, hpc, hji.symm]))
  refine ⟨fun j hj => ?_, fun q j hq => ?_, fun j hj hvj hcj => ?_, fun j hj hm => ?_, h.disk⟩
  · replace hj : s.changed j = true := hj
    have hji : j ≠ i := by
      rintro rfl
      rw [hch] at hj
      cases hj
    obtain ⟨q, hq⟩ := h.changed j hj
    exact ⟨q, (hown q j hji).2 hq⟩
  · by_cases hji : j = i
    · rw [hji, hbi]
    · rw [hbj j hji]
      exact h.valid q j ((hown q j hji).1 hq)
  · by_cases hji : j = i
    · rw [hji, hbi]
      exact (h.loaded_eq hC hpc).trans (by rw [hb])
    · rw [hbj j hji] at hj hvj ⊢
      exact h.data j hj hvj hcj
  · by_cases hji : j = i
    · rw [hji, hbi]
    · rw [hbj j hji] at hj hm ⊢
      exact h.pin j hj hm

/-- The process changes the contents of a buffer that it holds. -/
theorem modify (h : Fresh dev f s) (hh : s.Holds p i) (d : α) : Fresh dev f
    { s.set i { s.buf i with data := d } with changed := update s.changed i true } := by
  set t : Bcache ι α n :=
    { s.set i { s.buf i with data := d } with changed := update s.changed i true } with ht
  have hbi : t.buf i = { s.buf i with data := d } := by simp [ht, set]
  have hbj : ∀ j, j ≠ i → t.buf j = s.buf j := fun j hj => by simp [ht, set, hj]
  have hown : ∀ q j, t.Owns q j ↔ s.Owns q j := fun q j =>
    owns_congr (by by_cases hji : j = i <;> simp [ht, set, hji]) fun _ => Iff.rfl
  have hvalid : ∀ j, (t.buf j).valid = (s.buf j).valid := by
    intro j
    by_cases hji : j = i
    · rw [hji, hbi]
    · rw [hbj j hji]
  refine ⟨fun j hj => ?_, fun q j hq => ?_, fun j hj hvj hcj => ?_, fun j hj hm => ?_, h.disk⟩
  · by_cases hji : j = i
    · exact ⟨p, (hown p j).2 (hji ▸ hh.owns)⟩
    · obtain ⟨q, hq⟩ := h.changed j (by simpa [ht, hji] using hj)
      exact ⟨q, (hown q j).2 hq⟩
  · rw [hvalid]
    exact h.valid q j ((hown q j).1 hq)
  · have hji : j ≠ i := by
      rintro rfl
      simp [ht] at hcj
    rw [hbj j hji] at hj hvj ⊢
    exact h.data j hj hvj (by simpa [ht, hji] using hcj)
  · rw [hvalid]
    by_cases hji : j = i
    · rw [hji]
      exact h.valid p i hh.owns
    · rw [hbj j hji] at hj hm
      exact h.pin j hj hm

/-- Another block is given to a buffer that nobody uses. -/
theorem recycle {l : List (Fin n)} (h : Fresh dev f s) (hC : Counted dev s) (hl : Lru s l)
    (hpc : s.pc p = .run) (hc : s.cached dev b = none) (hu : s.unused = some i) : Fresh dev f
      ((s.set i { s.buf i with
        dev := dev, blockno := b, valid := false, refcnt := 1 }).goto p (.acquiring i b)) := by
  have hlock : ∀ q, (s.buf i).lock ≠ some q := by
    intro q hq
    have := hC.uses_pos_refcnt (i := i) (p := q) (by simp [uses, hq])
    rw [hl.of_unused hu] at this
    exact lt_irrefl _ this
  have hch : s.changed i = false := h.changed_eq_false fun q hq => hlock q hq.1
  have hb : b ∉ s.pinned := by
    intro hb
    obtain ⟨j, hj, hjb⟩ := hC.pin b hb
    exact hl.of_not_cached hc j hj hjb
  set t := (s.set i { s.buf i with
    dev := dev, blockno := b, valid := false, refcnt := 1 }).goto p (.acquiring i b) with ht
  have hbi : t.buf i = { s.buf i with
      dev := dev, blockno := b, valid := false, refcnt := 1 } := by simp [ht, set, goto]
  have hbj : ∀ j, j ≠ i → t.buf j = s.buf j := fun j hj => by simp [ht, set, goto, hj]
  have hown : ∀ q j, j ≠ i → (t.Owns q j ↔ s.Owns q j) := fun q j hji =>
    owns_congr (by rw [hbj j hji]) (goto_loading_iff (by simp) (by simp [set, hpc]))
  refine ⟨fun j hj => ?_, fun q j hq => ?_, fun j hj hvj hcj => ?_, fun j hj hm => ?_, h.disk⟩
  · replace hj : s.changed j = true := hj
    have hji : j ≠ i := by
      rintro rfl
      rw [hch] at hj
      cases hj
    obtain ⟨q, hq⟩ := h.changed j hj
    exact ⟨q, (hown q j hji).2 hq⟩
  · have hji : j ≠ i := by
      rintro rfl
      have := hq.1
      rw [hbi] at this
      exact hlock q this
    rw [hbj j hji]
    exact h.valid q j ((hown q j hji).1 hq)
  · have hji : j ≠ i := by
      rintro rfl
      rw [hbi] at hvj
      cases hvj
    rw [hbj j hji] at hj hvj ⊢
    exact h.data j hj hvj hcj
  · have hji : j ≠ i := by
      rintro rfl
      rw [hbi] at hm
      exact hb hm
    rw [hbj j hji] at hj hm ⊢
    exact h.pin j hj hm

theorem step {l : List (Fin n)} (h : Fresh dev f s) (hC : Counted dev s) (hl : Lru s l)
    (hs : s.Moves dev e t) : Fresh dev (latestNext f e) t := by
  cases hs with
  | hit p b i hpc hc =>
    have hown : ∀ q j, Owns ((s.set i { s.buf i with refcnt := (s.buf i).refcnt + 1 }).goto p
        (.acquiring i b)) q j ↔ s.Owns q j := fun q j =>
      owns_congr (by by_cases hji : j = i <;> simp [set, goto, hji])
        (goto_loading_iff (by simp) (by simp [set, hpc]))
    exact h.of_set rfl rfl rfl rfl rfl rfl rfl rfl (fun j _ q => (hown q j).2)
      fun q j => (hown q j).1
  | recycle p b i hpc hc hu => exact h.recycle hC hl hpc hc hu
  | acquire p i b hpc hlk =>
    have hch : s.changed i = false := h.changed_eq_false fun q hq => by
      have := hlk.symm.trans hq.1
      cases this
    have hown : ∀ q j, j ≠ i → (Owns ((s.set i { s.buf i with lock := some p }).goto p
        (.loading i b)) q j ↔ s.Owns q j) := fun q j hji =>
      owns_congr (by simp [set, goto, hji])
        (goto_loading_iff (by simp [hji.symm]) (by simp [set, hpc]))
    refine h.of_set rfl rfl rfl rfl rfl rfl rfl rfl (fun j hj q => (hown q j ?_).2) fun q j hq => ?_
    · rintro rfl
      rw [hch] at hj
      cases hj
    · have hji : j ≠ i := by
        rintro rfl
        obtain rfl : p = q := by simpa [set, goto] using hq.1
        exact hq.2 b (by simp [goto])
      exact (hown q j hji).1 hq
  | bread p i b hpc => exact h.bread hC hpc
  | modify p i d hh => exact h.modify hh d
  | bwrite p i hh =>
    refine h.write hC hh (fun _ _ => rfl) rfl rfl rfl rfl rfl rfl rfl (fun _ _ => Iff.rfl)
      fun x hx => ?_
    by_cases hxb : x = (s.buf i).blockno
    · simp [hxb]
    · simpa [hxb] using h.disk x hx
  | absorb p i hh ht hlh =>
    refine h.write hC hh (fun _ _ => rfl) rfl rfl rfl rfl rfl rfl rfl (fun _ _ => Iff.rfl)
      fun x hx => ?_
    have hxb : x ≠ (s.buf i).blockno := by
      rintro rfl
      exact hx (by simpa [pinned, ht] using hlh)
    simpa [hxb] using h.disk x hx
  | pin p i hh ht hlh =>
    refine h.write hC hh (fun j hj => by simp [set, hj]) (by simp [set]) (by simp [set])
      (by simp [set]) (by simp [set]) (by simp [set]) rfl rfl
      (fun x hx => by simp [pinned, set, ht, hx]) fun x hx => ?_
    have hx' : x ∉ s.lh ∧ x ≠ (s.buf i).blockno := by simpa [pinned, set, ht, not_or] using hx
    simpa [set, hx'.2] using h.disk x (by simpa [pinned, ht] using hx'.1)
  | install p i d hh hb =>
    obtain ⟨htail, hbi⟩ := List.getElem?_eq_some_iff.1 hb
    have hps : s.pinned = (s.buf i).blockno :: s.lh.drop (s.tail + 1) := by
      rw [pinned, List.drop_eq_getElem_cons htail, hbi]
    have hpin : ∀ x, x ≠ (s.buf i).blockno → (x ∈ s.lh.drop (s.tail + 1) ↔ x ∈ s.pinned) := by
      intro x hx
      rw [hps, List.mem_cons, or_iff_right hx]
    refine h.write hC hh (fun j hj => by simp [set, hj]) (by simp [set]) (by simp [set])
      (by simp [set]) (by simp [set]) (by simp [set]) rfl rfl hpin fun x hx => ?_
    by_cases hxb : x = (s.buf i).blockno
    · simp [hxb]
    · simpa [hxb] using h.disk x fun hm => hx ((hpin x hxb).2 hm)
  | brelse p i hh hc =>
    have hown : ∀ q j, j ≠ i → (Owns ((s.set i { s.buf i with lock := none }).goto p
        (.releasing i)) q j ↔ s.Owns q j) := fun q j hji =>
      owns_congr (by simp [set, goto, hji]) (goto_loading_iff (by simp) (by simp [set, hh.1]))
    refine h.of_set rfl rfl rfl rfl rfl rfl rfl rfl (fun j hj q => (hown q j ?_).2) fun q j hq => ?_
    · rintro rfl
      rw [hc] at hj
      cases hj
    · have hji : j ≠ i := by
        rintro rfl
        have := hq.1
        simp [set, goto] at this
      exact (hown q j hji).1 hq
  | release p i hpc =>
    have hown : ∀ q j, Owns ((s.set i { s.buf i with refcnt := (s.buf i).refcnt - 1 }).goto p .run)
        q j ↔ s.Owns q j := fun q j =>
      owns_congr (by by_cases hji : j = i <;> simp [set, goto, hji])
        (goto_loading_iff (by simp) (by simp [set, hpc]))
    exact h.of_set rfl rfl rfl rfl rfl rfl rfl rfl (fun j _ q => (hown q j).2)
      fun q j => (hown q j).1
  | clear ht =>
    have hpin : s.pinned = [] := by simp [pinned, ht]
    refine ⟨h.changed, h.valid, h.data, by simp [pinned], fun b _ => h.disk b (by simp [hpin])⟩

end Fresh

/-! ## Runs -/

theorem run_invariant {zero : α} {disk : ℕ → α} (hdev : dev ≠ 0)
    (h : Run (Step dev) (boot zero disk) es s) :
    (∃ l, Lru s l) ∧ Counted dev s ∧ Fresh dev (latest disk es) s := by
  induction h with
  | nil => exact ⟨⟨_, .boot⟩, .boot hdev, .boot hdev⟩
  | snoc _ hs ih =>
    obtain ⟨⟨l, hl⟩, hC, hF⟩ := ih
    have hm := moves_of_step hs
    rw [latest, List.foldl_concat]
    exact ⟨hl.step hm, hC.step hl hm, hF.step hC hl hm⟩

/-- A buffer that is counted keeps its block. -/
theorem keeps_block {l : List (Fin n)} (hl : Lru s l) (hs : s.Moves dev e t)
    (hi : 0 < (s.buf i).refcnt) :
    (t.buf i).dev = (s.buf i).dev ∧ (t.buf i).blockno = (s.buf i).blockno := by
  have hset : ∀ {j : Fin n} {x : Buf ι α}, x.dev = (s.buf j).dev → x.blockno = (s.buf j).blockno →
      (update s.buf j x i).dev = (s.buf i).dev ∧
        (update s.buf j x i).blockno = (s.buf i).blockno := by
    intro j x hd hb
    by_cases hij : i = j
    · subst hij
      simp [hd, hb]
    · simp [hij]
  cases hs with
  | recycle p b j hpc hc hu =>
    have hij : i ≠ j := by
      rintro rfl
      rw [hl.of_unused hu] at hi
      exact lt_irrefl _ hi
    simp [set, goto, hij]
  | bwrite | absorb | clear => exact ⟨rfl, rfl⟩
  | _ => exact hset rfl rfl

/-- The buffer cache cannot be told from the blocks : no two buffers have the same block, a
buffer that is counted is not recycled, the list is one doubly linked cycle through all
buffers and the head, and `bread` returns what was given to `bwrite` or `log_write` last. -/
theorem bread_latest {zero : α} {disk : ℕ → α} (hdev : dev ≠ 0)
    (h : Run (Step dev) (boot zero disk) es s) :
    (∀ i j, (s.buf i).dev = dev → (s.buf j).dev = dev →
      (s.buf i).blockno = (s.buf j).blockno → i = j) ∧
    (∀ e t i, Step dev s e t → 0 < (s.buf i).refcnt →
      (t.buf i).dev = (s.buf i).dev ∧ (t.buf i).blockno = (s.buf i).blockno) ∧
    (∃ l : List (Fin n), l.Nodup ∧ (∀ i, i ∈ l) ∧ IsRing s.ptrs none (l.map some)) ∧
    ∀ p b d t, Step dev s (.bread p b d) t → d = latest disk es b := by
  obtain ⟨⟨l, hl⟩, hC, hF⟩ := run_invariant hdev h
  refine ⟨hC.unique, fun e t i hs => keeps_block hl (moves_of_step hs),
    ⟨l, hl.nodup, hl.mem, hl.ring⟩, fun p b d t hs => ?_⟩
  cases moves_of_step hs with
  | bread _ i _ hpc => exact hF.loaded_eq hC hpc

/-- A process logs 7 in block 5, and gets another block. Block 5 is still in its buffer, and
`bread` returns 7, which is not on the disk. -/
theorem bread_latest_logged : ∃ (es : List (BufEvent (Fin 1) ℕ 2)) (s t : Bcache (Fin 1) ℕ 2),
    Run (Step 1) (boot 0 fun _ => 0) es s ∧ Step 1 s (.bread 0 5 7) t ∧ s.disk 5 = 0 ∧
    7 = latest (fun _ => 0) es 5 := by
  have h : ∃ s ∈ exec (move 1) (boot 0 fun _ => 0 : Bcache (Fin 1) ℕ 2)
      [.bget 0 5, .acquire 0, .bread 0 5 0, .modify 0 0 7, .logWrite 0 0 5 7, .brelse 0 0,
      .release 0, .bget 0 6, .acquire 0, .bread 0 6 0, .brelse 0 1, .release 0, .bget 0 5,
      .acquire 0], s.disk 5 = 0 ∧ (s.move 1 (.bread 0 5 7)).isSome = true := by decide
  obtain ⟨s, hs, hd, hm⟩ := h
  obtain ⟨t, ht⟩ := Option.isSome_iff_exists.1 hm
  have hrun := run_of_exec hs
  exact ⟨_, s, t, hrun, ht, hd, (bread_latest (by decide) hrun).2.2.2 0 5 7 t ht⟩

end Bcache

end CowPbs
