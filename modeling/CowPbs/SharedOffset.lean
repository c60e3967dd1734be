import Mathlib
import CowPbs.Files
import CowPbs.FsContent
import CowPbs.Log

/-!
# A shared file offset

`fileread` and `filewrite` (kernel/file.c) on one open file of type `FD_INODE`, called by any
number of processes that share it. What a call does between `ilock` and `iunlock` is one step : it
reads or writes at `f->off`, and moves the offset by what it has done. A `filewrite` unlocks the
inode between its chunks. Buffers can be read and written; a call with `n` not positive writes
nothing and takes no lock. The inode is in memory as on the disk.

Every step moves the offset over the bytes it has read or written (`Moves`), and no later step
comes back to them. So the region from the first offset on is the bytes of all steps in the order
of the steps.
-/

set_option linter.unusedSectionVars false

open Bytes Function Outcome Transition

namespace CowPbs

/-- `max` in `filewrite`. -/
def maxChunk : ℕ := (MAXOPBLOCKS - 1 - 1 - 2) / 2 * BSIZE

/-- Where a process is. -/
inductive SharedPc
  | run
  /-- In the loop of `filewrite` on a buffer, with `i` bytes written. -/
  | write (buf : List Byte) (i : ℕ)
  /-- Behind the loop, which it has left with `break`. -/
  | written (buf : List Byte) (i : ℕ)
  deriving DecidableEq

/-- What a call has written of its buffer. -/
def SharedPc.Done (bs : List Byte) : SharedPc → Prop
  | write buf i | written buf i => i ≤ buf.length ∧ bs = buf.take i
  | run => True

/-- The open file, its inode, the disk and the processes. -/
structure SharedFile (ι : Type*) where
  file : File
  copy : Dinode
  disk : Mem
  pc : ι → SharedPc

inductive SharedEvent
  | writeCall (buf : List Byte)
  /-- A chunk is written, no byte of it if `writei` fails. -/
  | write (bs : List Byte)
  | ret (r : ℤ)
  | read (bs : List Byte)
  /-- A call returns -1 since the file is not open for it. -/
  | denied
  | panic
  deriving DecidableEq

/-- The bytes that are read or written. -/
def SharedEvent.bytes : SharedEvent → List Byte
  | write bs | read bs => bs
  | writeCall _ | ret _ | denied | panic => []

/-- The bytes that are written. -/
def SharedEvent.writes : SharedEvent → List Byte
  | write bs => bs
  | read _ | writeCall _ | ret _ | denied | panic => []

/-- `f->off += r` if `r > 0`. -/
def File.advance (f : File) (r : ℤ) : File :=
  if 0 < r then { f with off := (f.off + r.toNat) % 2 ^ 32 } else f

namespace SharedFile

variable {ι : Type*} [DecidableEq ι]

/-- Process `p` goes to `pc`. -/
def goto (s : SharedFile ι) (p : ι) (pc : SharedPc) : SharedFile ι :=
  { s with pc := update s.pc p pc }

/-- What `readi` or `writei` leaves, with `r` returned. -/
def moved (s : SharedFile ι) (r : ℤ) (d : Dinode) (m : Mem) : SharedFile ι :=
  { s with file := s.file.advance r, copy := d, disk := m }

/-- One step, with the process that moves, on the inode `inum`. -/
inductive Step (sb : Superblock) (inum : ℕ) (s : SharedFile ι) :
    ι × SharedEvent → SharedFile ι → Prop
  -- `filewrite`
  | writeDenied (p : ι) (hpc : s.pc p = .run) (hw : s.file.writable = false) :
    Step sb inum s (p, .denied) s
  | writeCall (p : ι) (buf : List Byte) (hpc : s.pc p = .run) (hw : s.file.writable = true)
      (hn : buf.length < 2 ^ 31) :
    Step sb inum s (p, .writeCall buf) (s.goto p (.write buf 0))
  | write (p : ι) (buf : List Byte) (i n1 : ℕ) (r : ℤ) (d : Dinode) (m : Mem)
      (hpc : s.pc p = .write buf i) (hi : i < buf.length)
      (hn1 : n1 = Min.min (buf.length - i) maxChunk)
      (hr : Fs.writei sb s.disk s.copy inum (fun k => buf[i + k]?) s.file.off n1 = .ok (r, d, m)) :
    Step sb inum s (p, .write ((buf.drop i).take r.toNat))
      ((s.moved r d m).goto p (if r = n1 then .write buf (i + n1) else .written buf i))
  | writePanic (p : ι) (buf : List Byte) (i : ℕ) (e : FsPanic) (hpc : s.pc p = .write buf i)
      (hi : i < buf.length)
      (hr : Fs.writei sb s.disk s.copy inum (fun k => buf[i + k]?) s.file.off
        (Min.min (buf.length - i) maxChunk) = .error e) :
    Step sb inum s (p, .panic) s
  | ret (p : ι) (buf : List Byte) (i : ℕ)
      (hpc : s.pc p = .written buf i ∨ s.pc p = .write buf i ∧ buf.length ≤ i) :
    Step sb inum s (p, .ret (if i = buf.length then buf.length else -1)) (s.goto p .run)
  -- `fileread`
  | readDenied (p : ι) (hpc : s.pc p = .run) (hr : s.file.readable = false) :
    Step sb inum s (p, .denied) s
  | read (p : ι) (n : ℕ) (r : Fs.Read) (hpc : s.pc p = .run) (hw : s.file.readable = true)
      (hn : n < 2 ^ 32)
      (hr : Fs.readi sb s.disk s.copy (fun _ => true) s.file.off n = .ok r) :
    Step sb inum s (p, .read r.data) (s.moved r.tot r.copy r.disk)
  | readPanic (p : ι) (n : ℕ) (e : FsPanic) (hpc : s.pc p = .run) (hw : s.file.readable = true)
      (hn : n < 2 ^ 32)
      (hr : Fs.readi sb s.disk s.copy (fun _ => true) s.file.off n = .error e) :
    Step sb inum s (p, .panic) s

/-- There are enough free blocks for the next chunk of the process that moves. -/
def Space (sb : Superblock) (s : SharedFile ι) (e : ι × SharedEvent) : Prop :=
  ∀ buf i, s.pc e.1 = .write buf i → i < buf.length →
    Fs.Room sb s.disk s.copy (slotsOf s.file.off (Min.min (buf.length - i) maxChunk))

/-- The disk is consistent, and the inode is an allocated one, in memory as on the disk. -/
structure Good (sb : Superblock) (inum : ℕ) (s : SharedFile ι) : Prop where
  image : Fs.Consistent sb s.disk
  inum_lt : inum < sb.ninodes
  synced : Fs.readDinode sb s.disk inum = s.copy
  type_ne : s.copy.type ≠ 0

/-- The file is open, and nobody is in a call. Its offset, 0 when it was opened, is not behind its
end. -/
structure Start (sb : Superblock) (inum : ℕ) (s : SharedFile ι) : Prop where
  good : Good sb inum s
  type : s.file.type = .inode
  off_le : s.file.off ≤ s.copy.size
  pc : ∀ p, s.pc p = .run

variable {sb : Superblock} {inum : ℕ} {s₀ s t : SharedFile ι} {p q : ι} {e : SharedEvent}
  {es : List (ι × SharedEvent)} {bs : List Byte}

/-! ## One step -/

/-- The offset is moved over `bs`, which are the bytes there, and the other bytes are kept. -/
structure Moves (s t : SharedFile ι) (bs : List Byte) : Prop where
  off : t.file.off = s.file.off + bs.length
  size : t.copy.size = Max.max s.copy.size t.file.off
  slice : t.copy.slice t.disk s.file.off bs.length = bs
  keeps : ∀ x < s.copy.size, x < s.file.off ∨ t.file.off ≤ x →
    t.copy.byteAt t.disk x = s.copy.byteAt s.disk x

theorem Moves.of_same (hoff : s.file.off ≤ s.copy.size) (hfile : t.file = s.file)
    (hcopy : t.copy = s.copy) (hdisk : t.disk = s.disk) : Moves s t [] where
  off := by rw [hfile, List.length_nil, Nat.add_zero]
  size := by rw [hcopy, hfile, max_eq_left hoff]
  slice := rfl
  keeps := fun x _ _ => by rw [hcopy, hdisk]

theorem advance_off {f : File} {n : ℕ} (hn : f.off + n ≤ MAXFILE * BSIZE) :
    (f.advance n).off = f.off + n := by
  have hlt : f.off + n < 2 ^ 32 := by
    simp only [MAXFILE, NDIRECT, NINDIRECT, BSIZE] at hn
    omega
  unfold File.advance
  split_ifs with h0
  · rw [Int.toNat_natCast]
    exact Nat.mod_eq_of_lt hlt
  · have hzero : n = 0 := by omega
    rw [hzero, Nat.add_zero]

namespace Good

theorem owned (h : Good sb inum s) :
    Fs.Owned sb (update (Fs.readDinode sb s.disk) inum s.copy) s.disk := by
  rw [← h.synced, update_eq_self]
  exact h.image.owned

theorem full (h : Good sb inum s) : Fs.Full s.disk s.copy := by
  have hfull := h.image.full inum h.inum_lt
  rw [h.synced] at hfull
  exact hfull h.type_ne

theorem size_le (h : Good sb inum s) : s.copy.size ≤ MAXFILE * BSIZE :=
  h.full.size_le

/-- A chunk is written from its first byte to its last, or not at all. -/
theorem write (h : Good sb inum s) {buf : List Byte} {i n1 : ℕ} {r : ℤ} {d : Dinode} {m : Mem}
    (hoff : s.file.off ≤ s.copy.size) (hn : i + n1 ≤ buf.length) (hn1 : n1 ≤ maxChunk)
    (hroom : Fs.Room sb s.disk s.copy (slotsOf s.file.off n1))
    (hr : Fs.writei sb s.disk s.copy inum (fun k => buf[i + k]?) s.file.off n1 = .ok (r, d, m)) :
    (r = n1 ∨ r = -1) ∧ Good sb inum (s.moved r d m) ∧
      Moves s (s.moved r d m) ((buf.drop i).take r.toNat) := by
  by_cases hmax : s.file.off + n1 ≤ MAXFILE * BSIZE
  · have hsrc : ∀ k < n1, buf[i + k]? = some (buf[i + k]?.getD 0) := by
      intro k hk
      rw [List.getElem?_eq_getElem (by omega), Option.getD_some]
    obtain ⟨d', m', heq, hset, htype, hsize, hbyte⟩ := Fs.writei_content h.owned h.inum_lt h.type_ne
      h.synced h.full hsrc hoff hmax hroom
    obtain ⟨rfl, rfl, rfl⟩ : (n1 : ℤ) = r ∧ d' = d ∧ m' = m := by
      simpa using heq.symm.trans hr
    have hadv := advance_off hmax
    have hlen : ((buf.drop i).take n1).length = n1 := by
      rw [List.length_take, List.length_drop]
      omega
    refine ⟨.inl rfl, ⟨hset.consistent h.image, h.inum_lt, hset.synced, ?_⟩, ?_⟩
    · exact htype.trans_ne h.type_ne
    · rw [Int.toNat_natCast]
      refine ⟨?_, ?_, ?_, fun x hx hout => ?_⟩
      · rw [hlen]
        exact hadv
      · rw [moved, hadv]
        exact hsize
      · rw [hlen]
        refine List.ext_getElem (by rw [Fs.length_slice, hlen]) fun k hk hk' => ?_
        have hkn : k < n1 := by simpa using hk
        simp only [moved, Dinode.slice, List.getElem_map, List.getElem_range, List.getElem_take,
          List.getElem_drop]
        rw [hbyte _ (by omega), if_pos (by omega), Nat.add_sub_cancel_left,
          List.getElem?_eq_getElem (by omega), Option.getD_some]
      · simp only [moved] at hout ⊢
        rw [hadv] at hout
        rw [hbyte x (by omega), if_neg (by omega)]
  · have hle := h.size_le
    have hlt : s.file.off + n1 < 2 ^ 32 := by
      simp only [MAXFILE, NDIRECT, NINDIRECT, maxChunk, MAXOPBLOCKS, BSIZE] at hle hn1
      omega
    rw [Fs.writei, if_neg (by rw [Nat.mod_eq_of_lt hlt]; omega),
      if_pos (by rw [Nat.mod_eq_of_lt hlt]; omega)] at hr
    obtain ⟨rfl, rfl, rfl⟩ : (-1 : ℤ) = r ∧ s.copy = d ∧ s.disk = m := by
      simpa using hr
    exact ⟨.inr rfl, h, .of_same hoff rfl rfl rfl⟩

/-- The bytes of a read. -/
theorem read (h : Good sb inum s) {n : ℕ} {r : Fs.Read} (hoff : s.file.off ≤ s.copy.size)
    (hn : n < 2 ^ 32)
    (hr : Fs.readi sb s.disk s.copy (fun _ => true) s.file.off n = .ok r) :
    Good sb inum (s.moved r.tot r.copy r.disk) ∧
      Moves s (s.moved r.tot r.copy r.disk) r.data := by
  have hle := h.size_le
  by_cases hlt : s.file.off + n < 2 ^ 32
  · rw [Fs.readi_content h.full hoff hlt] at hr
    obtain rfl := Except.ok.inj hr
    obtain ⟨k, hk⟩ : ∃ k, k = Min.min n (s.copy.size - s.file.off) := ⟨_, rfl⟩
    have hadv : (s.file.advance k).off = s.file.off + k := advance_off (by omega)
    rw [← hk]
    refine ⟨⟨h.image, h.inum_lt, h.synced, h.type_ne⟩, ?_, ?_, ?_, fun x _ _ => rfl⟩
    · rw [Fs.length_slice]
      exact hadv
    · rw [moved, hadv]
      simp only
      omega
    · rw [Fs.length_slice]
      rfl
  · -- `off + n` is taken modulo `2 ^ 32`
    have hmod : (s.file.off + n) % 2 ^ 32 < s.file.off := by
      simp only [MAXFILE, NDIRECT, NINDIRECT, BSIZE] at hle
      omega
    rw [Fs.readi, if_pos (.inr hmod)] at hr
    obtain rfl := Except.ok.inj hr
    exact ⟨h, .of_same hoff rfl rfl rfl⟩

end Good

/-- Every step that the disk has space for moves the offset over its bytes. -/
theorem step_moves (h : Good sb inum s) (hoff : s.file.off ≤ s.copy.size)
    (hs : Guarded (Step sb inum) (Space sb) s (p, e) t) : Good sb inum t ∧ Moves s t e.bytes := by
  obtain ⟨hs, hspace⟩ := hs
  cases hs with
  | write _ buf i n1 r d m hpc hi hn1 hr =>
    have hroom := hspace buf i hpc hi
    rw [← hn1] at hroom
    obtain ⟨-, hgood, hmoves⟩ := h.write hoff (by omega) (by omega) hroom hr
    exact ⟨⟨hgood.image, hgood.inum_lt, hgood.synced, hgood.type_ne⟩, hmoves.off, hmoves.size,
      hmoves.slice, hmoves.keeps⟩
  | read _ n r hpc hw hn hr => exact h.read hoff hn hr
  | writeCall _ buf hpc hw hn =>
    exact ⟨⟨h.image, h.inum_lt, h.synced, h.type_ne⟩, .of_same hoff rfl rfl rfl⟩
  | ret _ buf i hpc =>
    exact ⟨⟨h.image, h.inum_lt, h.synced, h.type_ne⟩, .of_same hoff rfl rfl rfl⟩
  | writeDenied _ hpc hw => exact ⟨h, .of_same hoff rfl rfl rfl⟩
  | readDenied _ hpc hw => exact ⟨h, .of_same hoff rfl rfl rfl⟩
  | writePanic _ buf i e hpc hi hr => exact ⟨h, .of_same hoff rfl rfl rfl⟩
  | readPanic _ n e hpc hw hn hr => exact ⟨h, .of_same hoff rfl rfl rfl⟩

/-! ## Runs -/

/-- The bytes read or written, in the order of the steps. -/
def movedBytes (es : List (ι × SharedEvent)) : List Byte :=
  es.flatMap fun e => e.2.bytes

/-- The bytes written. -/
def writtenBytes (es : List (ι × SharedEvent)) : List Byte :=
  es.flatMap fun e => e.2.writes

/-- The bytes that the call of `filewrite` in which `p` is, or the last one, has written. -/
def callBytes (p : ι) (es : List (ι × SharedEvent)) : List Byte :=
  es.foldl (fun bs e => match e.2 with
    | .writeCall _ => if e.1 = p then [] else bs
    | .write cs => if e.1 = p then bs ++ cs else bs
    | .read _ | .ret _ | .denied | .panic => bs) []

/-- What a run leaves of the file it started with. -/
structure RunInv (sb : Superblock) (inum : ℕ) (s₀ : SharedFile ι) (es : List (ι × SharedEvent))
    (s : SharedFile ι) : Prop where
  good : Good sb inum s
  off_le : s.file.off ≤ s.copy.size
  off : s.file.off = s₀.file.off + (movedBytes es).length
  size : s.copy.size = Max.max s₀.copy.size s.file.off
  slice : s.copy.slice s.disk s₀.file.off (movedBytes es).length = movedBytes es
  keeps : ∀ x < s₀.copy.size, x < s₀.file.off ∨ s.file.off ≤ x →
    s.copy.byteAt s.disk x = s₀.copy.byteAt s₀.disk x
  chunks : ∀ p bs, (p, .write bs) ∈ es → bs.length ≤ maxChunk
  calls : ∀ p, (s.pc p).Done (callBytes p es)

theorem callBytes_append (p : ι) (es : List (ι × SharedEvent)) (q : ι) (e : SharedEvent) :
    callBytes p (es ++ [(q, e)]) = match e with
      | .writeCall _ => if q = p then [] else callBytes p es
      | .write cs => if q = p then callBytes p es ++ cs else callBytes p es
      | .read _ | .ret _ | .denied | .panic => callBytes p es := by
  rw [callBytes, List.foldl_append]
  rfl

namespace RunInv

theorem start (h : Start sb inum s) : RunInv sb inum s [] s where
  good := h.good
  off_le := h.off_le
  off := rfl
  size := (max_eq_left h.off_le).symm
  slice := rfl
  keeps := fun _ _ _ => rfl
  chunks := by simp
  calls := fun p => by
    rw [h.pc p]
    trivial

/-- Each call writes its buffer in order. -/
theorem calls_step (h : RunInv sb inum s₀ es s)
    (hs : Guarded (Step sb inum) (Space sb) s (p, e) t) (q : ι) :
    (t.pc q).Done (callBytes q (es ++ [(p, e)])) := by
  have hq := h.calls q
  rw [callBytes_append]
  obtain ⟨hs, hspace⟩ := hs
  cases hs with
  | writeCall _ buf hpc hw hn =>
    by_cases hqp : q = p
    · subst hqp
      simp [goto, SharedPc.Done]
    · simpa [goto, hqp, Ne.symm hqp] using hq
  | write _ buf i n1 r d m hpc hi hn1 hr =>
    by_cases hqp : q = p
    · subst hqp
      have hroom := hspace buf i hpc hi
      rw [← hn1] at hroom
      obtain ⟨hor, -, -⟩ := h.good.write h.off_le (by omega) (by omega) hroom hr
      rw [hpc] at hq
      obtain ⟨-, hbytes⟩ := hq
      rcases hor with rfl | rfl
      · simp only [goto, update_self, if_true, SharedPc.Done, hbytes, Int.toNat_natCast]
        exact ⟨by omega, List.take_add.symm⟩
      · have hne : (-1 : ℤ) ≠ n1 := by omega
        simp only [goto, update_self, if_neg hne, if_true, SharedPc.Done, hbytes]
        exact ⟨hi.le, by simp⟩
    · simpa [goto, moved, hqp, Ne.symm hqp] using hq
  | ret _ buf i hpc =>
    by_cases hqp : q = p
    · subst hqp
      simp [goto, SharedPc.Done]
    · simpa [goto, hqp] using hq
  | read _ n r hpc hw hn hr => exact hq
  | writeDenied _ hpc hw => exact hq
  | readDenied _ hpc hw => exact hq
  | writePanic _ buf i e hpc hi hr => exact hq
  | readPanic _ n e hpc hw hn hr => exact hq

/-- A chunk is one of at most `maxChunk` bytes. -/
theorem chunk_step (h : RunInv sb inum s₀ es s)
    (hs : Guarded (Step sb inum) (Space sb) s (p, .write bs) t) : bs.length ≤ maxChunk := by
  obtain ⟨hs, hspace⟩ := hs
  cases hs with
  | write _ buf i n1 r d m hpc hi hn1 hr =>
    have hroom := hspace buf i hpc hi
    rw [← hn1] at hroom
    obtain ⟨hor, -, -⟩ := h.good.write h.off_le (by omega) (by omega) hroom hr
    have hlen := List.length_take_le r.toNat (buf.drop i)
    rcases hor with rfl | rfl <;> omega

theorem step (h : RunInv sb inum s₀ es s)
    (hs : Guarded (Step sb inum) (Space sb) s (p, e) t) :
    RunInv sb inum s₀ (es ++ [(p, e)]) t := by
  obtain ⟨hgood, hm⟩ := step_moves h.good h.off_le hs
  have hbytes : movedBytes (es ++ [(p, e)]) = movedBytes es ++ e.bytes := by
    simp [movedBytes]
  have hoff := h.off
  have hoff' := hm.off
  have hsize := h.size
  have hsize' := hm.size
  have hle := h.off_le
  refine ⟨hgood, ?_, ?_, ?_, ?_, fun x hx hout => ?_, fun q bs hq => ?_,
    fun q => h.calls_step hs q⟩
  · omega
  · rw [hbytes, List.length_append]
    omega
  · omega
  · -- what was moved over before is below the offset
    have hkeep : t.copy.slice t.disk s₀.file.off (movedBytes es).length =
        s.copy.slice s.disk s₀.file.off (movedBytes es).length :=
      Fs.slice_congr fun x h₁ h₂ => hm.keeps x (by omega) (.inl (by omega))
    rw [hbytes, List.length_append, Fs.slice_add, ← h.off, hm.slice, hkeep, h.slice]
  · rw [hm.keeps x (by omega) (by omega)]
    exact h.keeps x hx (by omega)
  · rcases List.mem_append.1 hq with hq | hq
    · exact h.chunks q bs hq
    · obtain ⟨rfl, rfl⟩ := Prod.mk.inj (List.mem_singleton.1 hq)
      exact h.chunk_step hs

theorem of_run (h0 : Start sb inum s₀)
    (h : Run (Guarded (Step sb inum) (Space sb)) s₀ es s) : RunInv sb inum s₀ es s :=
  h.invariant (.start h0) fun _ _ _ _ _ hI hs => hI.step hs

end RunInv

/-- What is written at one place of the log is in the file at the offset the log has reached
there. -/
theorem RunInv.slice_of_mem (h : RunInv sb inum s₀ es s) {xs ys : List (ι × SharedEvent)}
    (hes : es = xs ++ (p, e) :: ys) :
    s.copy.slice s.disk (s₀.file.off + (movedBytes xs).length) e.bytes.length = e.bytes := by
  have hsplit : movedBytes es = movedBytes xs ++ (e.bytes ++ movedBytes ys) := by
    simp [hes, movedBytes]
  have hslice := h.slice
  rw [hsplit, List.length_append, List.length_append, Fs.slice_add, Fs.slice_add] at hslice
  have htail := (List.append_inj hslice (by simp)).2
  exact (List.append_inj htail (by simp)).1

theorem movedBytes_eq_written (h : ∀ p bs, (p, .read bs) ∉ es) :
    movedBytes es = writtenBytes es := by
  refine List.flatMap_congr fun e he => ?_
  obtain ⟨p, a⟩ := e
  cases a with
  | read bs => exact absurd he (h p bs)
  | write _ | writeCall _ | ret _ | denied | panic => rfl

/-- Every chunk is in the file at the place where the offset stood, behind all that was read or
written before it; a call writes its buffer in order; and with writers only the file from the
first offset to the last is what they have written. -/
theorem chunks_in_order (h0 : Start sb inum s₀)
    (h : Run (Guarded (Step sb inum) (Space sb)) s₀ es s) :
    s.file.off = s₀.file.off + (movedBytes es).length ∧
    (∀ xs ys p bs, es = xs ++ (p, .write bs) :: ys → bs.length ≤ maxChunk ∧
      s₀.file.off + (movedBytes xs).length + bs.length + (movedBytes ys).length = s.file.off ∧
      s.copy.slice s.disk (s₀.file.off + (movedBytes xs).length) bs.length = bs) ∧
    (∀ p, (s.pc p).Done (callBytes p es)) ∧
    ((∀ p bs, (p, .read bs) ∉ es) →
      s.file.off = s₀.file.off + (writtenBytes es).length ∧
      s.copy.slice s.disk s₀.file.off (writtenBytes es).length = writtenBytes es) ∧
    (∀ x < s₀.copy.size, x < s₀.file.off ∨ s.file.off ≤ x →
      s.copy.byteAt s.disk x = s₀.copy.byteAt s₀.disk x) := by
  have hI := RunInv.of_run h0 h
  refine ⟨hI.off, fun xs ys p bs hes => ⟨?_, ?_, hI.slice_of_mem hes⟩, hI.calls, fun hw => ?_,
    hI.keeps⟩
  · exact hI.chunks p bs (by simp [hes])
  · rw [hI.off, hes]
    simp only [movedBytes, List.flatMap_append, List.flatMap_cons, List.length_append,
      SharedEvent.bytes]
    omega
  · rw [← movedBytes_eq_written hw]
    exact ⟨hI.off, hI.slice⟩

/-- A process calls `filewrite` with one chunk, which there is space for. -/
theorem run_write (h : Start sb inum s) (p : ι) (bs : List Byte)
    (hw : s.file.writable = true) (hne : bs ≠ [])
    (hlen : bs.length ≤ maxChunk) (hmax : s.file.off + bs.length ≤ MAXFILE * BSIZE)
    (hroom : Fs.Room sb s.disk s.copy (slotsOf s.file.off bs.length)) :
    ∃ t, Run (Guarded (Step sb inum) (Space sb)) s [(p, .writeCall bs), (p, .write bs)] t := by
  have hpos := List.length_pos_iff.2 hne
  have hsrc : ∀ k < bs.length, bs[0 + k]? = some (bs[0 + k]?.getD 0) := by
    intro k hk
    rw [List.getElem?_eq_getElem (by omega), Option.getD_some]
  obtain ⟨d, m, heq, -⟩ := Fs.writei_content h.good.owned h.good.inum_lt h.good.type_ne
    h.good.synced h.good.full hsrc h.off_le hmax hroom
  have hmin : bs.length = Min.min (bs.length - 0) maxChunk := by omega
  have hlt : bs.length < 2 ^ 31 := by
    simp only [maxChunk, MAXOPBLOCKS, BSIZE] at hlen
    omega
  have hr : Run (Guarded (Step sb inum) (Space sb)) s [] s := .nil
  have hr := hr.snoc ⟨.writeCall p bs (h.pc p) hw hlt, fun buf i hpc => by
    rw [h.pc p] at hpc
    cases hpc⟩
  have hr := hr.snoc ⟨.write p bs 0 bs.length _ d m (update_self ..) hpos hmin heq,
    fun buf i hpc _ => by
      obtain ⟨rfl, rfl⟩ := SharedPc.write.inj ((update_self ..).symm.trans hpc)
      rw [← hmin]
      exact hroom⟩
  simp only [Int.toNat_natCast, List.drop_zero, List.take_length, List.nil_append,
    List.singleton_append] at hr
  exact ⟨_, hr⟩

/-- A new file of a small disk, open for writing. -/
def newFile : SharedFile (Fin 2) where
  file := ⟨.inode, 1, false, true, 0, 0, 0, 0⟩
  copy := Fs.blank .file
  disk := Fs.allocInode Fs.small Fs.smallDisk 1 .file
  pc := fun _ => .run

theorem start_newFile : Start Fs.small 1 newFile := by
  have hset := Fs.FsInv.settled_ialloc (i := 1) Fs.consistent_small .file (by decide)
    (by decide +kernel)
  refine ⟨⟨?_, by decide, ?_, by decide +kernel⟩, rfl, Nat.zero_le _, fun _ => rfl⟩
  · unfold newFile
    dsimp only
    exact hset.consistent Fs.consistent_small
  · unfold newFile
    dsimp only
    exact hset.synced

theorem room_newFile : Fs.Room Fs.small newFile.disk newFile.copy (slotsOf 0 2) := by
  unfold Fs.Room
  decide +kernel

/-- A process writes two bytes to the file. -/
theorem chunks_in_order_newFile : ∃ s, Run (Guarded (Step Fs.small 1) (Space Fs.small))
    newFile [(0, .writeCall [7, 8]), (0, .write [7, 8])] s ∧
      s.copy.slice s.disk 0 2 = [7, 8] := by
  obtain ⟨s, hr⟩ := run_write start_newFile 0 [7, 8] rfl (by simp) (by decide +kernel)
    (by decide +kernel) room_newFile
  have hslice := ((chunks_in_order start_newFile hr).2.1 [_] [] 0 [7, 8] rfl).2.2
  have hoff : newFile.file.off = 0 := by rfl
  rw [hoff] at hslice
  exact ⟨s, hr, hslice⟩

end SharedFile

end CowPbs
