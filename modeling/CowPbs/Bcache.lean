import Mathlib
import CowPbs.Lib.Transition
import CowPbs.Lib.LinkedRing

/-!
# The buffer cache

kernel/bio.c, with the calls of log.c that pin buffers. Any number of processes get buffers
with `bread`, change them, give them to `bwrite` or `log_write`, and release them. What is
done under `bcache.lock` is one move; a process waits for the sleep-lock of a buffer, reads
the disk and comes back for `bcache.lock` in moves of its own, and the others go on meanwhile.

The buffers are the `n` entries of `bcache.buf`, and `none` is `bcache.head`. The blocks are
those of one device; a buffer of device 0 is one that was not used yet. Of the log we keep
`log.lh.block` and how far `install_trans` has come. `install_trans` copies a block from the
log, writes and unpins it under the sleep-lock, which is one move. That a buffer was changed
and given neither to `bwrite` nor to `log_write` (`changed`) is not in the source; it states
the callers' side of the protocol. A `bget` that finds no buffer panics, and is no move.
-/

set_option linter.unusedSectionVars false

open Function LinkedRing

namespace CowPbs

variable {ι α : Type} {n : ℕ}

/-- `struct buf`. -/
structure Buf (ι α : Type) where
  valid : Bool
  dev : ℕ
  blockno : ℕ
  /-- The process that holds the sleep-lock. -/
  lock : Option ι
  refcnt : ℕ
  data : α

/-- What a process does with a buffer. -/
inductive BufPc (n : ℕ)
  | run
  /-- `acquiresleep` in `bget`, for the block `b`. -/
  | acquiring (i : Fin n) (b : ℕ)
  /-- The test of `valid` in `bread`. -/
  | loading (i : Fin n) (b : ℕ)
  /-- After `releasesleep` in `brelse`. -/
  | releasing (i : Fin n)
  deriving DecidableEq

/-- `bcache`, the disk, and where each process is. -/
structure Bcache (ι α : Type) (n : ℕ) where
  buf : Fin n → Buf ι α
  ptrs : Ptrs (Option (Fin n))
  disk : ℕ → α
  /-- `log.lh.block`, up to `log.lh.n`. -/
  lh : List ℕ
  /-- How many of them `install_trans` has installed. -/
  tail : ℕ
  changed : Fin n → Bool
  pc : ι → BufPc n

/-- The moves. -/
inductive BufEvent (ι α : Type) (n : ℕ)
  | bget (p : ι) (b : ℕ)
  /-- The sleep-lock is free. -/
  | acquire (p : ι)
  /-- `bread` returns the block `b` with the contents `d`. -/
  | bread (p : ι) (b : ℕ) (d : α)
  | modify (p : ι) (i : Fin n) (d : α)
  | bwrite (p : ι) (i : Fin n) (b : ℕ) (d : α)
  | logWrite (p : ι) (i : Fin n) (b : ℕ) (d : α)
  | install (p : ι) (i : Fin n) (b : ℕ) (d : α)
  /-- `brelse`, up to `releasesleep`. -/
  | brelse (p : ι) (i : Fin n)
  /-- The rest of `brelse`. -/
  | release (p : ι)
  /-- `log.lh.n = 0`. -/
  | clear

namespace Bcache

variable [DecidableEq ι] [DecidableEq α] (dev : ℕ) (s : Bcache ι α n)

/-- `binit`. -/
def binit : Ptrs (Option (Fin n)) :=
  (List.finRange n).foldl (fun r i => r.insert none (some i)) (Ptrs.single none)

/-- The buffers as they are at first. -/
def boot (zero : α) (disk : ℕ → α) : Bcache ι α n where
  buf := fun _ => ⟨false, 0, 0, none, 0, zero⟩
  ptrs := binit
  disk := disk
  lh := []
  tail := 0
  changed := fun _ => false
  pc := fun _ => .run

/-- The property of a buffer, as one of the nodes of the list. -/
def atNode (P : Fin n → Bool) : Option (Fin n) → Bool
  | some i => P i
  | none => false

/-- The loop of `bget` that looks for the block. -/
def cached (b : ℕ) : Option (Fin n) :=
  (walk s.ptrs.next none
    (atNode fun i => decide ((s.buf i).dev = dev ∧ (s.buf i).blockno = b)) (n + 1)
    (s.ptrs.next none)).join

/-- The loop of `bget` that looks for the least recently used unused buffer. -/
def unused : Option (Fin n) :=
  (walk s.ptrs.prev none (atNode fun i => decide ((s.buf i).refcnt = 0)) (n + 1)
    (s.ptrs.prev none)).join

/-- The buffer `i` is changed. -/
def set (i : Fin n) (x : Buf ι α) : Bcache ι α n :=
  { s with buf := update s.buf i x }

/-- The process goes to `x`. -/
def goto (p : ι) (x : BufPc n) : Bcache ι α n :=
  { s with pc := update s.pc p x }

/-- `bget`, up to `acquiresleep`. -/
def bget (p : ι) (b : ℕ) : Option (Bcache ι α n) :=
  match s.cached dev b with
  | some i =>
    some ((s.set i { s.buf i with refcnt := (s.buf i).refcnt + 1 }).goto p (.acquiring i b))
  | none =>
    match s.unused with
    | some i =>
      some ((s.set i { s.buf i with
        dev := dev, blockno := b, valid := false, refcnt := 1 }).goto p (.acquiring i b))
    | none => none

/-- The rest of `bread`. -/
def load (i : Fin n) : Bcache ι α n :=
  if (s.buf i).valid then s
  else s.set i { s.buf i with data := s.disk (s.buf i).blockno, valid := true }

/-- The buffer goes to the head of the list. -/
def moveFirst (i : Fin n) : Ptrs (Option (Fin n)) :=
  (s.ptrs.unlink (some i)).insert none (some i)

/-- The rest of `brelse`. -/
def release (i : Fin n) : Bcache ι α n :=
  let t := s.set i { s.buf i with refcnt := (s.buf i).refcnt - 1 }
  if (s.buf i).refcnt - 1 = 0 then { t with ptrs := s.moveFirst i } else t

/-- The process holds the buffer and may use it. -/
def Holds (p : ι) (i : Fin n) : Prop :=
  s.pc p = .run ∧ (s.buf i).lock = some p

instance (p : ι) (i : Fin n) : Decidable (s.Holds p i) :=
  inferInstanceAs (Decidable (_ ∧ _))

/-- `log_write`, with `bpin` if the block is not in the log yet. -/
def logWrite (i : Fin n) : Bcache ι α n :=
  let t := { s with changed := update s.changed i false }
  if (s.buf i).blockno ∈ s.lh then t
  else
    { t.set i { s.buf i with refcnt := (s.buf i).refcnt + 1 } with
      lh := s.lh ++ [(s.buf i).blockno] }

/-- One turn of `install_trans` : `memmove`, `bwrite` and `bunpin`. -/
def install (i : Fin n) (d : α) : Bcache ι α n :=
  { s.set i { s.buf i with data := d, refcnt := (s.buf i).refcnt - 1 } with
    disk := update s.disk (s.buf i).blockno d
    tail := s.tail + 1
    changed := update s.changed i false }

/-- A move. A process uses the buffers that it holds, and gives what it has changed to
`bwrite` or `log_write` before `brelse`. There is no `log_write` once `install_trans` has
begun. -/
def move : BufEvent ι α n → Option (Bcache ι α n)
  | .bget p b => if s.pc p = .run then s.bget dev p b else none
  | .acquire p =>
    match s.pc p with
    | .acquiring i b =>
      if (s.buf i).lock = none then
        some ((s.set i { s.buf i with lock := some p }).goto p (.loading i b))
      else none
    | .run | .loading .. | .releasing _ => none
  | .bread p b d =>
    match s.pc p with
    | .loading i b' =>
      if b = b' ∧ d = ((s.load i).buf i).data then some ((s.load i).goto p .run) else none
    | .run | .acquiring .. | .releasing _ => none
  | .modify p i d =>
    if s.Holds p i then
      some { s.set i { s.buf i with data := d } with changed := update s.changed i true }
    else none
  | .bwrite p i b d =>
    if s.Holds p i ∧ b = (s.buf i).blockno ∧ d = (s.buf i).data then
      some { s with
        disk := update s.disk b d, changed := update s.changed i false }
    else none
  | .logWrite p i b d =>
    if s.Holds p i ∧ b = (s.buf i).blockno ∧ d = (s.buf i).data ∧ s.tail = 0 then
      some (s.logWrite i)
    else none
  | .install p i b d =>
    if s.Holds p i ∧ b = (s.buf i).blockno ∧ s.lh[s.tail]? = some b then some (s.install i d)
    else none
  | .brelse p i =>
    if s.Holds p i ∧ s.changed i = false then
      some ((s.set i { s.buf i with lock := none }).goto p (.releasing i))
    else none
  | .release p =>
    match s.pc p with
    | .releasing i => some ((s.release i).goto p .run)
    | .run | .acquiring .. | .loading .. => none
  | .clear => if s.tail = s.lh.length then some { s with lh := [], tail := 0 } else none

/-- One move. -/
def Step (s : Bcache ι α n) (e : BufEvent ι α n) (t : Bcache ι α n) : Prop :=
  s.move dev e = some t

/-! ## What a move does -/

/-- What `bread` finds in the buffer, or on the disk. -/
def loaded (i : Fin n) : α :=
  if (s.buf i).valid then (s.buf i).data else s.disk (s.buf i).blockno

/-- One move, with the state after it. -/
inductive Moves : BufEvent ι α n → Bcache ι α n → Prop
  | hit (p : ι) (b : ℕ) (i : Fin n) (hpc : s.pc p = .run) (hc : s.cached dev b = some i) :
    Moves (.bget p b)
      ((s.set i { s.buf i with refcnt := (s.buf i).refcnt + 1 }).goto p (.acquiring i b))
  | recycle (p : ι) (b : ℕ) (i : Fin n) (hpc : s.pc p = .run) (hc : s.cached dev b = none)
      (hu : s.unused = some i) :
    Moves (.bget p b)
      ((s.set i { s.buf i with
        dev := dev, blockno := b, valid := false, refcnt := 1 }).goto p (.acquiring i b))
  | acquire (p : ι) (i : Fin n) (b : ℕ) (hpc : s.pc p = .acquiring i b)
      (hl : (s.buf i).lock = none) :
    Moves (.acquire p) ((s.set i { s.buf i with lock := some p }).goto p (.loading i b))
  | bread (p : ι) (i : Fin n) (b : ℕ) (hpc : s.pc p = .loading i b) :
    Moves (.bread p b (s.loaded i))
      ((s.set i { s.buf i with data := s.loaded i, valid := true }).goto p .run)
  | modify (p : ι) (i : Fin n) (d : α) (h : s.Holds p i) :
    Moves (.modify p i d)
      { s.set i { s.buf i with data := d } with changed := update s.changed i true }
  | bwrite (p : ι) (i : Fin n) (h : s.Holds p i) :
    Moves (.bwrite p i (s.buf i).blockno (s.buf i).data)
      { s with
        disk := update s.disk (s.buf i).blockno (s.buf i).data
        changed := update s.changed i false }
  | absorb (p : ι) (i : Fin n) (h : s.Holds p i) (ht : s.tail = 0)
      (hlh : (s.buf i).blockno ∈ s.lh) :
    Moves (.logWrite p i (s.buf i).blockno (s.buf i).data)
      { s with changed := update s.changed i false }
  | pin (p : ι) (i : Fin n) (h : s.Holds p i) (ht : s.tail = 0)
      (hlh : (s.buf i).blockno ∉ s.lh) :
    Moves (.logWrite p i (s.buf i).blockno (s.buf i).data)
      { s.set i { s.buf i with refcnt := (s.buf i).refcnt + 1 } with
        lh := s.lh ++ [(s.buf i).blockno], changed := update s.changed i false }
  | install (p : ι) (i : Fin n) (d : α) (h : s.Holds p i)
      (hb : s.lh[s.tail]? = some (s.buf i).blockno) :
    Moves (.install p i (s.buf i).blockno d)
      { s.set i { s.buf i with data := d, refcnt := (s.buf i).refcnt - 1 } with
        disk := update s.disk (s.buf i).blockno d
        tail := s.tail + 1
        changed := update s.changed i false }
  | brelse (p : ι) (i : Fin n) (h : s.Holds p i) (hc : s.changed i = false) :
    Moves (.brelse p i) ((s.set i { s.buf i with lock := none }).goto p (.releasing i))
  | release (p : ι) (i : Fin n) (hpc : s.pc p = .releasing i) :
    Moves (.release p)
      { (s.set i { s.buf i with refcnt := (s.buf i).refcnt - 1 }).goto p .run with
        ptrs := if (s.buf i).refcnt - 1 = 0 then s.moveFirst i else s.ptrs }
  | clear (ht : s.tail = s.lh.length) : Moves .clear { s with lh := [], tail := 0 }

variable {dev s} {t : Bcache ι α n} {e : BufEvent ι α n}

theorem load_eq (i : Fin n) :
    s.load i = s.set i { s.buf i with data := s.loaded i, valid := true } := by
  unfold load loaded
  split_ifs with hv
  · rw [set, ← hv, update_eq_self]
  · rfl

theorem release_eq (i : Fin n) :
    s.release i = { s.set i { s.buf i with refcnt := (s.buf i).refcnt - 1 } with
      ptrs := if (s.buf i).refcnt - 1 = 0 then s.moveFirst i else s.ptrs } := by
  unfold release
  split_ifs <;> rfl

theorem moves_of_step (h : Step dev s e t) : s.Moves dev e t := by
  unfold Step at h
  cases e with
  | bget p b =>
    simp only [move, Option.ite_none_right_eq_some, bget] at h
    obtain ⟨hpc, h⟩ := h
    split at h
    case h_1 i hc =>
      obtain rfl := Option.some.inj h
      exact .hit p b i hpc hc
    case h_2 hc =>
      split at h
      case h_1 i hu =>
        obtain rfl := Option.some.inj h
        exact .recycle p b i hpc hc hu
      case h_2 => cases h
  | acquire p =>
    simp only [move] at h
    split at h
    case h_1 i b hpc =>
      split_ifs at h with hl
      obtain rfl := Option.some.inj h
      exact .acquire p i b hpc hl
    all_goals cases h
  | bread p b d =>
    simp only [move] at h
    split at h
    case h_1 i b' hpc =>
      split_ifs at h with hbd
      obtain ⟨rfl, rfl⟩ := hbd
      obtain rfl := Option.some.inj h
      have hd : ((s.load i).buf i).data = s.loaded i := by simp [load_eq, set]
      rw [hd, load_eq]
      exact .bread p i _ hpc
    all_goals cases h
  | modify p i d =>
    simp only [move, Option.ite_none_right_eq_some] at h
    obtain ⟨hh, h⟩ := h
    obtain rfl := Option.some.inj h
    exact .modify p i d hh
  | bwrite p i b d =>
    simp only [move, Option.ite_none_right_eq_some] at h
    obtain ⟨⟨hh, rfl, rfl⟩, h⟩ := h
    obtain rfl := Option.some.inj h
    exact .bwrite p i hh
  | logWrite p i b d =>
    simp only [move, Option.ite_none_right_eq_some] at h
    obtain ⟨⟨hh, rfl, rfl, ht⟩, h⟩ := h
    obtain rfl := Option.some.inj h
    unfold logWrite
    by_cases hlh : (s.buf i).blockno ∈ s.lh
    · rw [if_pos hlh]
      exact .absorb p i hh ht hlh
    · rw [if_neg hlh]
      exact .pin p i hh ht hlh
  | install p i b d =>
    simp only [move, Option.ite_none_right_eq_some] at h
    obtain ⟨⟨hh, rfl, hb⟩, h⟩ := h
    obtain rfl := Option.some.inj h
    exact .install p i d hh hb
  | brelse p i =>
    simp only [move, Option.ite_none_right_eq_some] at h
    obtain ⟨⟨hh, hc⟩, h⟩ := h
    obtain rfl := Option.some.inj h
    exact .brelse p i hh hc
  | release p =>
    simp only [move] at h
    split at h
    case h_1 i hpc =>
      obtain rfl := Option.some.inj h
      rw [release_eq]
      exact .release p i hpc
    all_goals cases h
  | clear =>
    simp only [move, Option.ite_none_right_eq_some] at h
    obtain ⟨ht, h⟩ := h
    obtain rfl := Option.some.inj h
    exact .clear ht

/-! ## The list of buffers -/

/-- The list goes through all buffers, from the most to the least recently used. -/
structure Lru (s : Bcache ι α n) (l : List (Fin n)) : Prop where
  ring : IsRing s.ptrs none (l.map some)
  mem : ∀ i, i ∈ l

namespace Lru

variable {l : List (Fin n)} {i : Fin n} {b : ℕ}

theorem nodup (h : Lru s l) : l.Nodup :=
  (List.nodup_cons.1 h.ring.nodup).2.of_map some

theorem length_lt (h : Lru s l) : (l.map some).length < n + 1 := by
  have := h.nodup.length_le_card
  rw [Fintype.card_fin] at this
  rw [List.length_map]
  omega

theorem find_atNode (l : List (Fin n)) (P : Fin n → Bool) :
    ((l.map some).find? (atNode P)).join = l.find? P := by
  have : atNode P ∘ some = P := rfl
  rw [List.find?_map, this]
  cases l.find? P <;> rfl

theorem cached_eq (h : Lru s l) : s.cached dev b =
    l.find? fun i => decide ((s.buf i).dev = dev ∧ (s.buf i).blockno = b) := by
  rw [cached, h.ring.walk_next h.length_lt, find_atNode]

theorem unused_eq (h : Lru s l) :
    s.unused = l.reverse.find? fun i => decide ((s.buf i).refcnt = 0) := by
  rw [unused, h.ring.walk_prev h.length_lt, ← List.map_reverse, find_atNode]

theorem of_cached (h : Lru s l) (hc : s.cached dev b = some i) :
    (s.buf i).dev = dev ∧ (s.buf i).blockno = b := by
  rw [h.cached_eq] at hc
  simpa using List.find?_some hc

theorem of_not_cached (h : Lru s l) (hc : s.cached dev b = none) (i : Fin n)
    (hd : (s.buf i).dev = dev) : (s.buf i).blockno ≠ b := by
  rw [h.cached_eq, List.find?_eq_none] at hc
  simpa [hd] using hc i (h.mem i)

theorem of_unused (h : Lru s l) (hu : s.unused = some i) : (s.buf i).refcnt = 0 := by
  rw [h.unused_eq] at hu
  simpa using List.find?_some hu

/-- The buffers are put into the list one after the other. -/
theorem foldl_insert {r : Ptrs (Option (Fin n))} (xs : List (Fin n))
    (hr : IsRing r none (l.map some)) (hx : xs.Nodup) (hd : ∀ x ∈ xs, x ∉ l) :
    IsRing (xs.foldl (fun r i => r.insert none (some i)) r) none
      ((xs.reverse ++ l).map some) := by
  induction xs generalizing r l with
  | nil => exact hr
  | cons x xs ih =>
    obtain ⟨hxs, hnd⟩ := List.nodup_cons.1 hx
    have hins := hr.insert (x := some x) (by simpa using hd x (by simp))
    have := ih (l := x :: l) hins hnd fun y hy hyl => by
      rcases List.mem_cons.1 hyl with rfl | hyl
      · exact hxs hy
      · exact hd y (by simp [hy]) hyl
    simpa using this

theorem boot {zero : α} {disk : ℕ → α} :
    Lru (boot zero disk : Bcache ι α n) (List.finRange n).reverse := by
  refine ⟨?_, by simp⟩
  have := foldl_insert (l := []) (List.finRange n) (r := Ptrs.single none) IsRing.single
    (List.nodup_finRange n) (by simp)
  show IsRing binit none _
  simpa [binit] using this

/-- A buffer that is released goes to the front. -/
theorem moveFirst (h : Lru s l) (i : Fin n) (ht : t.ptrs = s.moveFirst i) : ∃ l, Lru t l := by
  obtain ⟨l₁, l₂, rfl⟩ := List.append_of_mem (h.mem i)
  have hnd := h.nodup
  have hmid : i ∉ l₁ ++ l₂ := by
    have := (List.perm_middle.nodup_iff.1 hnd)
    exact (List.nodup_cons.1 this).1
  have hring : IsRing s.ptrs none (l₁.map some ++ some i :: l₂.map some) := by
    simpa using h.ring
  have := hring.unlink.insert (x := some i) (by simpa using hmid)
  refine ⟨i :: (l₁ ++ l₂), ?_, fun j => ?_⟩
  · rw [ht]
    simpa [Bcache.moveFirst] using this
  · have := h.mem j
    simp only [List.mem_append, List.mem_cons] at this ⊢
    tauto

theorem step (h : Lru s l) (hs : s.Moves dev e t) : ∃ l, Lru t l := by
  have hkeep : t.ptrs = s.ptrs → ∃ l, Lru t l := fun ht => ⟨l, ht ▸ h.ring, h.mem⟩
  cases hs with
  | release p i =>
    by_cases hz : (s.buf i).refcnt - 1 = 0
    · exact h.moveFirst i (if_pos hz)
    · exact hkeep (if_neg hz)
  | _ => exact hkeep rfl

end Lru

end Bcache

end CowPbs
