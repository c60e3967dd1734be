import Mathlib
import CowPbs.Files
import CowPbs.Lib.Ownership

/-!
# The references of open files are counted

The references to a file are the descriptors that point to it and those that a call in progress
has (`FileSys.held`). Their number is the file's `ref` in every state, between the sections of
calls too. An open end of a pipe belongs to one file of type `FD_PIPE`, or to the process that is
about to close it (`FileSys.owner`), so that a page is freed when the second of its ends is closed
and is in use until then.
-/

open Function Ownership RefCount Transition

namespace CowPbs

/-- The references that a call in progress has beside the descriptors. -/
def FileNext.held : FileNext → Multiset FilePtr
  | close fs => fs
  | exit _ => 0

def FilePc.held : FilePc → Multiset FilePtr
  | next n | drop _ n => n.held
  | pipeOne f0 => {f0}
  | pipeTwo f0 f1 => {f0, f1}
  | unused | used | run | zombie | fork _ _ => 0

/-- The files `pipealloc` has taken and not yet made ends of a pipe. -/
def FilePc.fresh : FilePc → List FilePtr
  | pipeOne f0 => [f0]
  | pipeTwo f0 f1 => [f0, f1]
  | unused | used | run | zombie | next _ | drop _ _ | fork _ _ => []

/-- No call is in progress. -/
def FilePc.quiet : FilePc → Bool
  | unused | run | zombie => true
  | used | next _ | drop _ _ | pipeOne _ | pipeTwo _ _ | fork _ _ => false

namespace FileSys

variable {s t : FileSys} {p q : Slot} {e : FileEvent} {f : FilePtr}
  {es : List (Slot × FileEvent)}

/-- The references process `p` has. -/
def held (s : FileSys) (p : Slot) : Multiset FilePtr :=
  table (s.ofile p) + (s.pc p).held

/-- The end of a pipe that a file is, or that a process is about to close. -/
def owner (s : FileSys) : FilePtr ⊕ Slot → Option (ℕ × Bool)
  | .inl f => if (s.file f).type = .pipe then some ((s.file f).pipe, (s.file f).writable) else none
  | .inr p =>
    match s.pc p with
    | .drop (.pipe pi w) _ => some (pi, w)
    | _ => none

/-- The open ends of pipes. -/
def ends (s : FileSys) : Set (ℕ × Bool) :=
  {b | ∃ e, s.pipe b.1 = some e ∧ e.isOpen b.2 = true}

@[simp]
theorem goto_pc (pc : FilePc) : (s.goto p pc).pc q = if q = p then pc else s.pc q :=
  update_apply ..

@[simp]
theorem goto_file (pc : FilePc) : (s.goto p pc).file = s.file :=
  rfl

@[simp]
theorem goto_ofile (pc : FilePc) : (s.goto p pc).ofile = s.ofile :=
  rfl

@[simp]
theorem goto_pipe (pc : FilePc) : (s.goto p pc).pipe = s.pipe :=
  rfl

@[simp]
theorem setFile_file (F : File) (g : FilePtr) :
    (s.setFile f F).file g = if g = f then F else s.file g :=
  update_apply ..

@[simp]
theorem setFile_pc (F : File) : (s.setFile f F).pc = s.pc :=
  rfl

@[simp]
theorem setFile_ofile (F : File) : (s.setFile f F).ofile = s.ofile :=
  rfl

@[simp]
theorem setFile_pipe (F : File) : (s.setFile f F).pipe = s.pipe :=
  rfl

@[simp]
theorem setFd_ofile (fd : Fd) (x : Option FilePtr) :
    (s.setFd p fd x).ofile q = if q = p then update (s.ofile p) fd x else s.ofile q :=
  update_apply ..

@[simp]
theorem setFd_file (fd : Fd) (x : Option FilePtr) : (s.setFd p fd x).file = s.file :=
  rfl

@[simp]
theorem setFd_pc (fd : Fd) (x : Option FilePtr) : (s.setFd p fd x).pc = s.pc :=
  rfl

@[simp]
theorem setFd_pipe (fd : Fd) (x : Option FilePtr) : (s.setFd p fd x).pipe = s.pipe :=
  rfl

/-! ## What the functions do -/

theorem filealloc_spec (h : s.filealloc = some f) : (s.file f).ref = 0 := by
  simpa using List.find?_some h

theorem fdalloc_spec {o : Fd → Option FilePtr} {fd : Fd} (h : fdalloc o = some fd) :
    o fd = none := by
  simpa using List.find?_some h

theorem filedup_eq_some (h : s.filedup f = some t) :
    t = s.setFile f { s.file f with ref := (s.file f).ref + 1 } := by
  unfold filedup at h
  split_ifs at h
  exact (Option.some.inj h).symm

theorem filedup_ne_none (h : 1 ≤ (s.file f).ref) : s.filedup f ≠ none := by
  simp [filedup, Int.not_lt.2 h]

theorem fileclose_ne_none {n : FileNext} (h : 1 ≤ (s.file f).ref) :
    s.fileclose p f n ≠ none := by
  unfold fileclose
  rw [if_neg (Int.not_lt.2 h)]
  split_ifs <;> simp

/-- `fileclose` lowers `ref`, or it was 1 : then the file is free, and what it was comes back. -/
theorem fileclose_eq_some {n : FileNext} (h : s.fileclose p f n = some t) :
    (1 < (s.file f).ref ∧
      t = (s.setFile f { s.file f with ref := (s.file f).ref - 1 }).goto p (.next n)) ∨
    ((s.file f).ref = 1 ∧
      ∃ pc, t = (s.setFile f { s.file f with ref := 0, type := .none }).goto p pc ∧
        (pc = .next n ∨ ∃ d, pc = .drop d n) ∧
        (∀ pi w, (∃ m, pc = .drop (.pipe pi w) m) ↔
          (s.file f).type = .pipe ∧ (s.file f).pipe = pi ∧ (s.file f).writable = w)) := by
  unfold fileclose at h
  split_ifs at h with h1 h2
  · exact .inl ⟨by omega, (Option.some.inj h).symm⟩
  · refine .inr ⟨by omega, _, (Option.some.inj h).symm, ?_, ?_⟩
    · cases (s.file f).type <;> simp
    · intro pi w
      cases (s.file f).type <;> simp

theorem pipeFds_spec (o : Fd → Option FilePtr) (rf wf : FilePtr) (copyout : Bool) :
    ((pipeFds o rf wf copyout).2 = true ∧
      ∃ fd0 fd1, o fd0 = none ∧ update o fd0 (some rf) fd1 = none ∧
        (pipeFds o rf wf copyout).1 = update (update o fd0 (some rf)) fd1 (some wf)) ∨
    ((pipeFds o rf wf copyout).2 = false ∧ (pipeFds o rf wf copyout).1 = o) := by
  unfold pipeFds
  cases h0 : fdalloc o with
  | none => exact .inr ⟨rfl, rfl⟩
  | some fd0 =>
    have hfd0 := fdalloc_spec h0
    have hback : update (update o fd0 (some rf)) fd0 none = o := by
      rw [update_idem, ← hfd0, update_eq_self]
    cases h1 : fdalloc (update o fd0 (some rf)) with
    | none => exact .inr ⟨by simp [h1], by simp [h1, hback]⟩
    | some fd1 =>
      have hfd1 := fdalloc_spec h1
      cases copyout with
      | true => exact .inl ⟨by simp [h1], fd0, fd1, hfd0, hfd1, by simp [h1]⟩
      | false =>
        have hne : fd1 ≠ fd0 := by
          rintro rfl
          simp at hfd1
        have hsame := update_eq_self fd1 (update o fd0 (some rf))
        rw [hfd1] at hsame
        refine .inr ⟨by simp [h1], ?_⟩
        simp only [h1, Bool.false_eq_true, ↓reduceIte]
        rw [update_comm hne.symm, update_idem, hsame, hback]

/-! ## The invariant -/

/-- The references are counted, and the tables of processes that are not there are empty. -/
structure Inv (s : FileSys) : Prop where
  counts : Counts s.held fun f => (s.file f).ref
  free : ∀ f, (s.file f).ref = 0 → (s.file f).type = .none
  fresh : ∀ p f, f ∈ (s.pc p).fresh → (s.file f).ref = 1 ∧ (s.file f).type = .none
  idle : ∀ p, s.pc p = .unused ∨ s.pc p = .zombie → ∀ fd, s.ofile p fd = none
  exit : ∀ p i, s.pc p = .next (.exit i) ∨ (∃ d, s.pc p = .drop d (.exit i)) →
    ∀ fd : Fd, (fd : ℕ) < i → s.ofile p fd = none
  fork : ∀ p np i, s.pc p = .fork np i →
    s.pc np = .used ∧ ∀ fd : Fd, i ≤ fd → s.ofile np fd = none
  child : ∀ p q np i j, s.pc p = .fork np i → s.pc q = .fork np j → p = q
  owns : Owns s.owner s.ends
  live : ∀ pi e, s.pipe pi = some e → e.readopen = true ∨ e.writeopen = true

namespace Inv

theorem boot (h : Boot s) : Inv s := by
  obtain ⟨hf, ho, hpi, hpc⟩ := h
  have hpc' : ∀ p, s.pc p = .run ∨ s.pc p = .unused := by
    intro p
    rw [hpc p]
    split_ifs
    · exact .inl rfl
    · exact .inr rfl
  have hheld : ∀ p, s.held p = 0 := by
    intro p
    rw [held, table_empty (ho p)]
    rcases hpc' p with h | h <;> rw [h] <;> rfl
  refine ⟨fun f => ?_, fun f _ => (hf f).2, fun p f hp => ?_, fun p _ => ho p, fun p i hp => ?_,
    fun p np i hp => ?_, fun p q np i j hp => ?_, Owns.empty ?_ ?_, fun pi e hp => ?_⟩
  · simp [(hf f).1, hheld]
  · rcases hpc' p with h | h <;> simp [h, FilePc.fresh] at hp
  · rcases hpc' p with h | h <;> simp [h] at hp
  · rcases hpc' p with h | h <;> simp [h] at hp
  · rcases hpc' p with h | h <;> simp [h] at hp
  · rintro (f | p)
    · simp [owner, (hf f).2]
    · rcases hpc' p with h | h <;> simp [owner, h]
  · rintro ⟨pi, w⟩ ⟨e, he, -⟩
    simp [hpi pi] at he
  · simp [hpi pi] at hp

/-! ### Counting -/

@[simp]
theorem opened_ref (F : File) (o : OpenArgs) : (F.opened o).ref = F.ref := by
  unfold File.opened
  split <;> rfl

theorem held_congr (ho : t.ofile q = s.ofile q) (hpc : t.pc q = s.pc q) : t.held q = s.held q := by
  rw [held, held, ho, hpc]

/-- A process gets a reference to a file it takes. -/
theorem counts_claim (h : Inv s) {F : File} (hf : s.filealloc = some f) (hF : F.ref = 1)
    (hother : ∀ q, q ≠ p → t.held q = s.held q) (hp : t.held p = f ::ₘ s.held p)
    (ht : ∀ g, t.file g = if g = f then F else s.file g) :
    Counts t.held fun f => (t.file f).ref := by
  refine h.counts.acquire hother hp fun g => ?_
  rw [ht g, filealloc_spec hf]
  split_ifs with hg
  · rw [hF, zero_add]
  · rfl

/-- A process passes a reference on to its next `fileclose`, or to a descriptor. -/
theorem counts_same (h : Inv s) (hheld : ∀ q, t.held q = s.held q)
    (ht : ∀ g, (t.file g).ref = (s.file g).ref) : Counts t.held fun f => (t.file f).ref :=
  h.counts.congr hheld ht

theorem counts_filedup {u v : FileSys} (h : Counts s.held fun f => (s.file f).ref)
    (hfile : u.file = s.file) (hv : u.filedup f = some v) (ht : t.file = v.file)
    (hother : ∀ q, q ≠ p → t.held q = s.held q) (hp : t.held p = f ::ₘ s.held p) :
    Counts t.held fun f => (t.file f).ref := by
  refine h.acquire hother hp fun g => ?_
  rw [ht, filedup_eq_some hv, setFile_file, hfile]
  split_ifs with hg
  · rfl
  · rfl

/-- What `fileclose` leaves of the reference count and of the process. -/
theorem fileclose_frame {n : FileNext} (ht : s.fileclose p f n = some t) :
    (∀ g, (t.file g).ref = if g = f then (s.file f).ref - 1 else (s.file g).ref) ∧
    t.ofile = s.ofile ∧ t.pipe = s.pipe ∧ (∀ q, q ≠ p → t.pc q = s.pc q) ∧
    (t.pc p = .next n ∨ ∃ d, t.pc p = .drop d n) := by
  rcases fileclose_eq_some ht with ⟨-, rfl⟩ | ⟨h1, pc, rfl, hpc, -⟩
  · refine ⟨fun g => ?_, rfl, rfl, fun q hq => by simp [hq], .inl (by simp)⟩
    simp only [goto_file, setFile_file]
    split_ifs <;> rfl
  · refine ⟨fun g => ?_, rfl, rfl, fun q hq => by simp [hq], by simpa using hpc⟩
    simp only [goto_file, setFile_file, h1]
    split_ifs <;> rfl

theorem counts_fileclose {u : FileSys} {n : FileNext}
    (h : Counts s.held fun f => (s.file f).ref) (hfile : u.file = s.file) (hpc : u.pc = s.pc)
    (hofile : ∀ q, q ≠ p → u.ofile q = s.ofile q) (ht : u.fileclose p f n = some t)
    (hp : s.held p = f ::ₘ (table (u.ofile p) + n.held)) :
    Counts t.held fun f => (t.file f).ref := by
  obtain ⟨href, hof, -, hpcs, hpcp⟩ := fileclose_frame ht
  refine h.release (k := p) (b := f) (fun q hq => ?_) ?_ fun g => ?_
  · exact held_congr (by rw [hof, hofile q hq]) (by rw [hpcs q hq, hpc])
  · rw [hp, held, hof]
    rcases hpcp with hpc | ⟨d, hpc⟩ <;> rw [hpc] <;> rfl
  · rw [href g, hfile]

theorem counts_step (h : Inv s) (hs : Step s (p, e) t) : Counts t.held fun f => (t.file f).ref := by
  have hgoto : ∀ pc : FilePc, pc.held = (s.pc p).held →
      Counts (s.goto p pc).held fun f => ((s.goto p pc).file f).ref := by
    intro pc hpc
    refine h.counts_same (fun q => ?_) fun g => rfl
    by_cases hqp : q = p
    · subst hqp
      simp [held, hpc]
    · exact held_congr rfl (by simp [hqp])
  cases hs with
  | «open» _ o f fd hpc hf hfd =>
    refine h.counts_claim (F := File.opened { s.file f with ref := 1 } o) (p := p) hf
      (opened_ref _ _) (fun q hq => ?_) ?_ fun g => by simp
    · exact held_congr (by simp [hq]) rfl
    · simp [held, hpc, FilePc.held, table_store (fdalloc_spec hfd)]
  | openNoFd _ f hpc hf hfd =>
    refine h.counts_claim (F := { s.file f with ref := 1 }) (p := p) hf rfl
      (fun q hq => ?_) ?_ fun g => by simp [claim]
    · exact held_congr rfl (by simp [hq, claim])
    · simp [held, claim, hpc, FilePc.held, FileNext.held, add_comm]
  | dup _ fd fd' f _ hpc hf hfd ht =>
    refine counts_filedup h.counts (by simp) ht rfl (p := p) (fun q hq => ?_) ?_
    · rw [filedup_eq_some ht]
      exact held_congr (by simp [hq]) rfl
    · rw [filedup_eq_some ht]
      simp [held, hpc, FilePc.held, table_store (fdalloc_spec hfd)]
  | pipe _ f hpc hf =>
    refine h.counts_claim (F := { s.file f with ref := 1 }) (p := p) hf rfl
      (fun q hq => ?_) ?_ fun g => by simp [claim]
    · exact held_congr rfl (by simp [hq, claim])
    · simp [held, claim, hpc, FilePc.held, add_comm]
  | pipeNoFile _ f0 hpc hf => exact hgoto _ (by rw [hpc]; rfl)
  | pipeFile _ f0 f1 hpc hf =>
    refine h.counts_claim (F := { s.file f1 with ref := 1 }) (p := p) hf rfl
      (fun q hq => ?_) ?_ fun g => by simp [claim]
    · exact held_congr rfl (by simp [hq, claim])
    · simp [held, claim, hpc, FilePc.held, Multiset.pair_comm f0 f1]
  | pipeNoPage _ f0 f1 hpc => exact hgoto _ (by rw [hpc]; rfl)
  | kalloc _ f0 f1 pi copyout hpc hpi =>
    refine h.counts_same (fun q => ?_) fun g => ?_
    · by_cases hqp : q = p
      · subst hqp
        rw [held, held, hpc]
        rcases pipeFds_spec (s.ofile q) f0 f1 copyout with
          ⟨hok, fd0, fd1, h0, h1, ho⟩ | ⟨hok, ho⟩
        · simp [pipeMade, hok, ho, FilePc.held, table_store h0, table_store h1,
            Multiset.cons_swap f1 f0, add_comm (table (s.ofile q))]
        · have hpc' : (s.pipeMade q f0 f1 pi copyout).pc q = .next (.close [f0, f1]) := by
            simp [pipeMade, hok]
          rw [hpc', show (s.pipeMade q f0 f1 pi copyout).ofile q = s.ofile q by simp [pipeMade, ho]]
          rfl
      · exact held_congr (by simp [pipeMade, hqp]) (by simp [pipeMade, hqp])
    · simp only [pipeMade, goto_file, update_apply]
      split_ifs with h1 h0
      · rw [h1]
        rfl
      · rw [h0]
        rfl
      · rfl
  | close _ fd f _ hpc hf ht =>
    refine counts_fileclose h.counts (by simp) (by simp) (fun q hq => by simp [hq]) ht ?_
    simp [held, hpc, FilePc.held, FileNext.held, table_clear hf]
  | fileclose _ f fs _ hpc ht =>
    refine counts_fileclose h.counts rfl rfl (fun q hq => rfl) ht ?_
    simp [held, hpc, FilePc.held, FileNext.held, ← Multiset.cons_coe]
  | exitClose _ fd f _ hpc hf ht =>
    refine counts_fileclose h.counts (by simp) (by simp) (fun q hq => by simp [hq]) ht ?_
    simp [held, hpc, FilePc.held, FileNext.held, table_clear hf]
  | fork _ np hpc hnp =>
    refine h.counts_same (fun q => ?_) fun g => rfl
    by_cases hqp : q = p
    · subst hqp
      simp [held, hpc, FilePc.held]
    · by_cases hqn : q = np
      · subst hqn
        simp [held, hqp, hnp, FilePc.held]
      · exact held_congr rfl (by simp [hqp, hqn])
  | forkDup _ np i f u hpc hf ht =>
    obtain ⟨hnp, hempty⟩ := h.fork p np i hpc
    have hne : np ≠ p := by
      rintro rfl
      simp [hnp] at hpc
    refine counts_filedup h.counts rfl ht rfl (p := np) (fun q hq => ?_) ?_
    · by_cases hqp : q = p
      · subst hqp
        simp [held, filedup_eq_some ht, hpc, hq, FilePc.held]
      · exact held_congr (by simp [filedup_eq_some ht, hq]) (by simp [filedup_eq_some ht, hqp])
    · simp [held, filedup_eq_some ht, hne, hnp, FilePc.held, table_store (hempty i le_rfl)]
  | forked _ np hpc =>
    obtain ⟨hnp, -⟩ := h.fork p np NOFILE hpc
    refine h.counts_same (fun q => ?_) fun g => rfl
    by_cases hqp : q = p
    · subst hqp
      simp [held, hpc, FilePc.held]
    · by_cases hqn : q = np
      · subst hqn
        simp [held, hqp, hnp, FilePc.held]
      · exact held_congr rfl (by simp [hqp, hqn])
  | dupPanic | closePanic | filePanic | exitPanic | forkPanic => exact h.counts
  | pipeclose _ pi w n e hpc he ho | kfree _ pi w n e hpc he ho =>
    exact hgoto (.next n) (by rw [hpc]; rfl)
  | ret _ hpc | exit _ hpc | exitSkip _ fd hpc hf | exited _ hpc | reap _ hpc
  | iput _ ip n hpc | wild _ pi w n hpc he | forkSkip _ np i hpc hf =>
    exact hgoto _ (by rw [hpc]; rfl)

/-! ### Processes and their tables -/

/-- A process is moved by another only while `fork` makes it. -/
theorem pc_other (hs : Step s (p, e) t) (hq : q ≠ p) :
    t.pc q = s.pc q ∨ (s.pc q = .unused ∧ t.pc q = .used ∧ s.pc p = .run) ∨
    (t.pc q = .run ∧ s.pc p = .fork q NOFILE) := by
  cases hs with
  | dup _ fd fd' f _ hpc hf hfd ht =>
    rw [filedup_eq_some ht]
    exact .inl rfl
  | close _ fd f _ hpc hf ht | fileclose _ f fs _ hpc ht | exitClose _ fd f _ hpc hf ht =>
    exact .inl ((fileclose_frame ht).2.2.2.1 q hq)
  | fork _ np hpc hnp =>
    by_cases hqn : q = np
    · subst hqn
      exact .inr (.inl ⟨hnp, by simp [hq], hpc⟩)
    · exact .inl (by simp [hq, hqn])
  | forked _ np hpc =>
    by_cases hqn : q = np
    · subst hqn
      exact .inr (.inr ⟨by simp [hq], hpc⟩)
    · exact .inl (by simp [hq, hqn])
  | forkDup _ np i f u hpc hf ht =>
    rw [filedup_eq_some ht]
    exact .inl (by simp [hq])
  | _ => exact .inl (by simp [hq, claim, pipeMade])

/-- The table of a process is changed by another only while `fork` makes it. -/
theorem ofile_other (hs : Step s (p, e) t) (hq : q ≠ p) :
    t.ofile q = s.ofile q ∨ ∃ (i : Fd) (f : FilePtr), s.pc p = .fork q i ∧
      t.pc p = .fork q (i + 1) ∧ t.ofile q = update (s.ofile q) i (some f) := by
  cases hs with
  | dup _ fd fd' f _ hpc hf hfd ht =>
    rw [filedup_eq_some ht]
    exact .inl (by simp [hq])
  | close _ fd f _ hpc hf ht | fileclose _ f fs _ hpc ht | exitClose _ fd f _ hpc hf ht =>
    rw [(fileclose_frame ht).2.1]
    exact .inl (by simp [hq])
  | forkDup _ np i f u hpc hf ht =>
    rw [filedup_eq_some ht]
    by_cases hqn : q = np
    · subst hqn
      exact .inr ⟨i, f, hpc, by simp, by simp⟩
    · exact .inl (by simp [hqn])
  | _ => exact .inl (by simp [hq, claim, pipeMade])

theorem idle_step (h : Inv s) (hs : Step s (p, e) t) (q : Slot)
    (hq : t.pc q = .unused ∨ t.pc q = .zombie) (fd : Fd) : t.ofile q fd = none := by
  by_cases hqp : q = p
  · subst hqp
    cases hs with
    | exited _ hpc => exact h.exit q NOFILE (.inl hpc) fd fd.isLt
    | reap _ hpc => exact h.idle q (.inr hpc) fd
    | close _ fd f _ hpc hf ht | fileclose _ f fs _ hpc ht | exitClose _ fd f _ hpc hf ht =>
      rcases (fileclose_frame ht).2.2.2.2 with hn | ⟨d, hn⟩ <;> simp [hn] at hq
    | dup _ fd fd' f _ hpc hf hfd ht => simp [filedup_eq_some ht, hpc] at hq
    | kalloc _ f0 f1 pi copyout hpc hpi =>
      simp only [pipeMade, goto_pc, ↓reduceIte] at hq
      split_ifs at hq <;> simp at hq
    | dupPanic _ _ _ _ hpc | closePanic _ _ _ hpc | filePanic _ _ _ hpc | exitPanic _ _ _ hpc
    | forkPanic _ _ _ _ hpc | «open» _ _ _ _ hpc => simp [hpc] at hq
    | _ => simp at hq
  · have hpc : t.pc q = s.pc q := by
      rcases pc_other hs hqp with hpc | ⟨-, hpc, -⟩ | ⟨hpc, -⟩
      · exact hpc
      · simp [hpc] at hq
      · simp [hpc] at hq
    rw [hpc] at hq
    rcases ofile_other hs hqp with ho | ⟨i, f, hfork, -, -⟩
    · rw [ho]
      exact h.idle q hq fd
    · have hused := (h.fork p q i hfork).1
      simp [hused] at hq

theorem exit_step (h : Inv s) (hs : Step s (p, e) t) (q : Slot) (i : ℕ)
    (hq : t.pc q = .next (.exit i) ∨ ∃ d, t.pc q = .drop d (.exit i)) (fd : Fd) (hi : (fd : ℕ) < i) :
    t.ofile q fd = none := by
  by_cases hqp : q = p
  · subst hqp
    cases hs with
    | exit _ hpc =>
      have hi0 : i = 0 := by simpa [eq_comm] using hq
      omega
    | exitClose _ fd' f _ hpc hf ht =>
      obtain ⟨-, ho, -, -, hn⟩ := fileclose_frame ht
      have hi' : i = fd' + 1 := by
        rcases hn with hn | ⟨d, hn⟩ <;> simpa [hn, eq_comm] using hq
      rw [ho, setFd_ofile, if_pos rfl]
      by_cases hfd : fd = fd'
      · rw [hfd, update_self]
      · rw [update_of_ne hfd]
        have hne := Fin.val_ne_of_ne hfd
        exact h.exit q fd' (.inl hpc) fd (by omega)
    | exitSkip _ fd' hpc hf =>
      have hi' : i = fd' + 1 := by simpa [eq_comm] using hq
      by_cases hfd : fd = fd'
      · exact hfd ▸ hf
      · have hne := Fin.val_ne_of_ne hfd
        exact h.exit q fd' (.inl hpc) fd (by omega)
    | iput _ ip n hpc | pipeclose _ pi w n e hpc he ho | kfree _ pi w n e hpc he ho
    | wild _ pi w n hpc he =>
      have hn : n = .exit i := by simpa using hq
      exact h.exit q i (.inr ⟨_, hn ▸ hpc⟩) fd hi
    | close _ fd f _ hpc hf ht | fileclose _ f fs _ hpc ht =>
      rcases (fileclose_frame ht).2.2.2.2 with hn | ⟨d, hn⟩ <;> simp [hn] at hq
    | dup _ fd fd' f _ hpc hf hfd ht => simp [filedup_eq_some ht, hpc] at hq
    | kalloc _ f0 f1 pi copyout hpc hpi =>
      simp only [pipeMade, goto_pc, ↓reduceIte] at hq
      split_ifs at hq <;> simp at hq
    | dupPanic _ _ _ _ hpc | closePanic _ _ _ hpc | filePanic _ _ _ hpc | exitPanic _ _ _ hpc
    | forkPanic _ _ _ _ hpc => exact h.exit q i hq fd hi
    | «open» _ _ _ _ hpc => simp [hpc] at hq
    | _ => simp at hq
  · have hpc : t.pc q = s.pc q := by
      rcases pc_other hs hqp with hpc | ⟨-, hpc, -⟩ | ⟨hpc, -⟩
      · exact hpc
      · simp [hpc] at hq
      · simp [hpc] at hq
    rw [hpc] at hq
    rcases ofile_other hs hqp with ho | ⟨j, f, hfork, -, -⟩
    · rw [ho]
      exact h.exit q i hq fd hi
    · have hused := (h.fork p q j hfork).1
      simp [hused] at hq

/-- The process that moves goes on in `fork` one descriptor further. -/
theorem fork_inv {np : Slot} {i : ℕ} (hs : Step s (p, e) t) (hp : t.pc p = .fork np i) :
    (s.pc p = .run ∧ i = 0 ∧ s.pc np = .unused ∧ t.pc np = .used ∧ t.ofile np = s.ofile np) ∨
    (s.pc p = .fork np i ∧ t.pc np = s.pc np ∧ t.ofile np = s.ofile np) ∨
    ∃ j : Fd, i = j + 1 ∧ s.pc p = .fork np j ∧ (np ≠ p → t.pc np = s.pc np) ∧
      ∀ fd, fd ≠ j → t.ofile np fd = s.ofile np fd := by
  cases hs with
  | fork _ np' hpc hnp =>
    obtain ⟨rfl, rfl⟩ : np' = np ∧ 0 = i := by simpa using hp
    have hne : np' ≠ p := by
      rintro rfl
      simp [hpc] at hnp
    exact .inl ⟨hpc, rfl, hnp, by simp [hne], rfl⟩
  | forkDup _ np' j f u hpc hf ht =>
    obtain ⟨rfl, rfl⟩ : np' = np ∧ (j : ℕ) + 1 = i := by simpa using hp
    refine .inr (.inr ⟨j, rfl, hpc, fun hne => ?_, fun fd hfd => ?_⟩)
    · simp [filedup_eq_some ht, hne]
    · simp [filedup_eq_some ht, hfd]
  | forkSkip _ np' j hpc hf =>
    obtain ⟨rfl, rfl⟩ : np' = np ∧ (j : ℕ) + 1 = i := by simpa using hp
    exact .inr (.inr ⟨j, rfl, hpc, fun hne => by simp [hne], fun fd hfd => rfl⟩)
  | close _ fd f _ hpc hf ht | fileclose _ f fs _ hpc ht | exitClose _ fd f _ hpc hf ht =>
    rcases (fileclose_frame ht).2.2.2.2 with hn | ⟨d, hn⟩ <;> simp [hn] at hp
  | dup _ fd fd' f _ hpc hf hfd ht => simp [filedup_eq_some ht, hpc] at hp
  | kalloc _ f0 f1 pi copyout hpc hpi =>
    simp only [pipeMade, goto_pc, ↓reduceIte] at hp
    split_ifs at hp
  | dupPanic _ _ _ _ hpc | closePanic _ _ _ hpc | filePanic _ _ _ hpc | exitPanic _ _ _ hpc
  | forkPanic _ _ _ _ hpc => exact .inr (.inl ⟨hp, rfl, rfl⟩)
  | «open» _ _ _ _ hpc => simp [hpc] at hp
  | _ => simp at hp

theorem child_step (h : Inv s) (hs : Step s (p, e) t) (q q' np : Slot) (i j : ℕ)
    (hq : t.pc q = .fork np i) (hq' : t.pc q' = .fork np j) : q = q' := by
  -- the child of another process is in use
  have hother : ∀ r k, r ≠ p → t.pc r = .fork np k → s.pc r = .fork np k := by
    intro r k hr hpc
    rcases pc_other hs hr with hold | ⟨-, hnew, -⟩ | ⟨hnew, -⟩
    · rwa [hold] at hpc
    · simp [hnew] at hpc
    · simp [hnew] at hpc
  have hmove : ∀ r k k', r ≠ p → t.pc r = .fork np k → t.pc p = .fork np k' → False := by
    intro r k k' hr hpc hp
    have hold := hother r k hr hpc
    rcases fork_inv hs hp with ⟨-, -, hun, -⟩ | ⟨hp', -⟩ | ⟨_, -, hp', -⟩
    · simp [(h.fork r np k hold).1] at hun
    · exact hr (h.child r p np k _ hold hp')
    · exact hr (h.child r p np k _ hold hp')
  by_cases hqp : q = p
  · by_cases hqp' : q' = p
    · rw [hqp, hqp']
    · exact (hmove q' j i hqp' hq' (hqp ▸ hq)).elim
  · by_cases hqp' : q' = p
    · exact (hmove q i j hqp hq (hqp' ▸ hq')).elim
    · exact h.child q q' np i j (hother q i hqp hq) (hother q' j hqp' hq')

theorem fork_step (h : Inv s) (hs : Step s (p, e) t) (q np : Slot) (i : ℕ)
    (hq : t.pc q = .fork np i) :
    t.pc np = .used ∧ ∀ fd : Fd, i ≤ fd → t.ofile np fd = none := by
  by_cases hqp : q = p
  · subst hqp
    rcases fork_inv hs hq with ⟨-, -, hun, hus, ho⟩ | ⟨hold, hpc, ho⟩ | ⟨j, rfl, hold, hpc, ho⟩
    · exact ⟨hus, fun fd _ => ho ▸ h.idle np (.inl hun) fd⟩
    · rw [hpc, ho]
      exact h.fork q np i hold
    · obtain ⟨hus, hempty⟩ := h.fork q np j hold
      have hne : np ≠ q := by
        rintro rfl
        simp [hus] at hold
      refine ⟨(hpc hne).trans hus, fun fd hfd => ?_⟩
      have hfd' : fd ≠ j := by
        rintro rfl
        omega
      rw [ho fd hfd']
      exact hempty fd (by omega)
  · have hold : s.pc q = .fork np i := by
      rcases pc_other hs hqp with hold | ⟨-, hnew, -⟩ | ⟨hnew, -⟩
      · rwa [hold] at hq
      · simp [hnew] at hq
      · simp [hnew] at hq
    obtain ⟨hus, hempty⟩ := h.fork q np i hold
    have hnp : np ≠ p := by
      rintro rfl
      cases hs <;> simp_all
    constructor
    · rcases pc_other hs hnp with hpc | ⟨hun, -⟩ | ⟨-, hfork⟩
      · rw [hpc, hus]
      · simp [hus] at hun
      · exact (hqp (h.child q p np i NOFILE hold hfork)).elim
    · intro fd hfd
      rcases ofile_other hs hnp with ho | ⟨j, f, hfork, -⟩
      · rw [ho]
        exact hempty fd hfd
      · exact (hqp (h.child q p np i j hold hfork)).elim

/-! ### Files -/

/-- A step changes a file that is free, or that the process has a reference to. -/
theorem file_changed (hs : Step s (p, e) t) (hf : f ∉ s.held p) (hr : (s.file f).ref ≠ 0) :
    t.file f = s.file f := by
  have hne : ∀ g, g ∈ s.held p → f ≠ g := by
    rintro g hg rfl
    exact hf hg
  have hfree : ∀ g, s.filealloc = some g → f ≠ g := by
    rintro g hg rfl
    exact hr (filealloc_spec hg)
  have hfd : ∀ fd g, s.ofile p fd = some g → f ≠ g := fun fd g hg =>
    hne g (Multiset.mem_add.2 (.inl (mem_table.2 ⟨fd, hg⟩)))
  -- what `fileclose` does to another file
  have hclose : ∀ {u : FileSys} {g : FilePtr} {n : FileNext}, u.file = s.file → f ≠ g →
      u.fileclose p g n = some t → t.file f = s.file f := by
    intro u g n hu hfg ht
    rcases fileclose_eq_some ht with ⟨-, rfl⟩ | ⟨-, pc, rfl, -⟩ <;> simp [hu, hfg]
  cases hs with
  | «open» _ o g fd hpc hg hfd => simp [hfree g hg]
  | openNoFd _ g hpc hg hfd => simp [claim, hfree g hg]
  | pipe _ g hpc hg => simp [claim, hfree g hg]
  | pipeFile _ f0 g hpc hg => simp [claim, hfree g hg]
  | dup _ fd fd' g _ hpc hg hfd' ht => simp [filedup_eq_some ht, hfd fd g hg]
  | forkDup _ np j g u hpc hg ht =>
    rw [filedup_eq_some ht]
    simp [hfd j g hg, FileSys.setFd]
  | close _ fd g _ hpc hg ht => exact hclose (by simp) (hfd fd g hg) ht
  | exitClose _ fd g _ hpc hg ht => exact hclose (by simp) (hfd fd g hg) ht
  | fileclose _ g fs _ hpc ht =>
    refine hclose rfl (hne g ?_) ht
    simp [held, hpc, FilePc.held, FileNext.held]
  | kalloc _ f0 f1 pi copyout hpc hpi =>
    have hheld : s.held p = table (s.ofile p) + {f0, f1} := by rw [held, hpc]; rfl
    have h0 : f ≠ f0 := hne f0 (by simp [hheld])
    have h1 : f ≠ f1 := hne f1 (by simp [hheld])
    simp [pipeMade, h0, h1]
  | _ => rfl

theorem free_step (h : Inv s) (hs : Step s (p, e) t) (f : FilePtr) (hf : (t.file f).ref = 0) :
    (t.file f).type = .none := by
  have hold := h.free f
  have hclose : ∀ {u : FileSys} {g : FilePtr} {n : FileNext}, u.file = s.file →
      u.fileclose p g n = some t → (t.file f).type = .none := by
    intro u g n hu ht
    rcases fileclose_eq_some ht with ⟨hlt, rfl⟩ | ⟨-, pc, rfl, -⟩
    · simp only [goto_file, setFile_file, hu] at hf hlt ⊢
      split_ifs at hf ⊢
      · dsimp only at hf
        omega
      · exact hold hf
    · simp only [goto_file, setFile_file, hu] at hf ⊢
      split_ifs at hf ⊢
      · rfl
      · exact hold hf
  have hdup : ∀ {u v : FileSys} {g : FilePtr}, u.file = s.file → u.filedup g = some v →
      t.file = v.file → (t.file f).type = .none := by
    intro u v g hu hv ht
    have hn := h.counts.nonneg (b := g)
    rw [filedup_eq_some hv] at ht
    simp only [ht, setFile_file, hu] at hf ⊢
    split_ifs at hf ⊢
    · dsimp only at hf hn
      omega
    · exact hold hf
  cases hs with
  | «open» _ o g fd hpc hg hfd =>
    simp only [setFd_file, setFile_file] at hf ⊢
    split_ifs at hf ⊢
    · simp at hf
    · exact hold hf
  | openNoFd _ g hpc hg hfd | pipe _ g hpc hg | pipeFile _ _ g hpc hg =>
    simp only [goto_file, claim, setFile_file] at hf ⊢
    split_ifs at hf ⊢
    · simp at hf
    · exact hold hf
  | dup _ fd fd' g _ hpc hg hfd' ht => exact hdup (by simp) ht rfl
  | forkDup _ np j g u hpc hg ht => exact hdup rfl ht rfl
  | close _ fd g _ hpc hg ht => exact hclose (by simp) ht
  | exitClose _ fd g _ hpc hg ht => exact hclose (by simp) ht
  | fileclose _ g fs _ hpc ht => exact hclose rfl ht
  | kalloc _ f0 f1 pi copyout hpc hpi =>
    have h0 := h.fresh p f0 (by rw [hpc]; exact List.mem_cons_self)
    have h1 := h.fresh p f1 (by rw [hpc]; exact List.mem_cons_of_mem _ List.mem_cons_self)
    simp only [pipeMade, goto_file, update_apply] at hf ⊢
    split_ifs at hf ⊢
    · simp [File.pipeEnd, h1.1] at hf
    · simp [File.pipeEnd, h0.1] at hf
    · exact hold hf
  | _ => exact hold hf

theorem fresh_mem_held (hf : f ∈ (s.pc p).fresh) : f ∈ s.held p := by
  rw [held, Multiset.mem_add]
  right
  cases hpc : s.pc p <;> simp_all [FilePc.fresh, FilePc.held]

theorem fresh_step (h : Inv s) (hs : Step s (p, e) t) (q : Slot) (f : FilePtr)
    (hf : f ∈ (t.pc q).fresh) : (t.file f).ref = 1 ∧ (t.file f).type = .none := by
  by_cases hqp : q = p
  · subst hqp
    -- a file that is taken was free
    have hclaim : ∀ g, s.filealloc = some g →
        ((s.claim g).file g).ref = 1 ∧ ((s.claim g).file g).type = .none := by
      intro g hg
      have hr := filealloc_spec hg
      simpa [claim] using h.free g hr
    cases hs with
    | pipe _ g hpc hg =>
      obtain rfl : f = g := by simpa [FilePc.fresh] using hf
      exact hclaim f hg
    | pipeFile _ f0 g hpc hg =>
      have h0 := h.fresh q f0 (by rw [hpc]; exact List.mem_cons_self)
      have hne : f0 ≠ g := by
        rintro rfl
        rw [filealloc_spec hg] at h0
        simp at h0
      obtain rfl | rfl : f = f0 ∨ f = g := by simpa [FilePc.fresh] using hf
      · simpa [claim, hne] using h0
      · exact hclaim f hg
    | close _ fd g _ hpc hg ht | fileclose _ g fs _ hpc ht | exitClose _ fd g _ hpc hg ht =>
      rcases (fileclose_frame ht).2.2.2.2 with hn | ⟨d, hn⟩ <;> simp [hn, FilePc.fresh] at hf
    | dup _ fd fd' g _ hpc hg hfd ht => simp [filedup_eq_some ht, hpc, FilePc.fresh] at hf
    | kalloc _ f0 f1 pi copyout hpc hpi =>
      simp only [pipeMade, goto_pc, ↓reduceIte] at hf
      split_ifs at hf <;> simp [FilePc.fresh] at hf
    | dupPanic _ _ _ _ hpc | closePanic _ _ _ hpc | filePanic _ _ _ hpc | exitPanic _ _ _ hpc
    | forkPanic _ _ _ _ hpc => exact h.fresh q f hf
    | «open» _ _ _ _ hpc => simp [hpc, FilePc.fresh] at hf
    | _ => simp [FilePc.fresh] at hf
  · have hpc : t.pc q = s.pc q := by
      rcases pc_other hs hqp with hpc | ⟨-, hpc, -⟩ | ⟨hpc, -⟩
      · exact hpc
      · simp [hpc, FilePc.fresh] at hf
      · simp [hpc, FilePc.fresh] at hf
    rw [hpc] at hf
    obtain ⟨hr, hty⟩ := h.fresh q f hf
    -- nobody else has a reference to it
    have hnot : f ∉ s.held p := fun hp =>
      hqp (h.counts.unique hr hp (fresh_mem_held hf))
    rw [file_changed hs hnot (by rw [hr]; exact one_ne_zero)]
    exact ⟨hr, hty⟩

/-! ### Pipes -/

theorem owner_file (hty : (t.file f).type = (s.file f).type)
    (hpi : (t.file f).pipe = (s.file f).pipe) (hw : (t.file f).writable = (s.file f).writable) :
    t.owner (.inl f) = s.owner (.inl f) := by
  simp only [owner, hty, hpi, hw]

theorem owner_none (hty : (s.file f).type ≠ .pipe) : s.owner (.inl f) = none :=
  if_neg hty

theorem owner_proc (hpc : t.pc q = s.pc q) : t.owner (.inr q) = s.owner (.inr q) := by
  simp only [owner, hpc]

theorem owner_proc_none (h : ∀ pi w n, s.pc p ≠ .drop (.pipe pi w) n) :
    s.owner (.inr p) = none := by
  cases hpc : s.pc p with
  | drop d n =>
    cases d with
    | pipe pi w => exact absurd hpc (h pi w n)
    | inode ip => simp [owner, hpc]
  | _ => simp [owner, hpc]

/-- Nothing changes that belongs to a pipe. -/
theorem owns_same (h : Inv s) (hf : ∀ f, t.owner (.inl f) = s.owner (.inl f))
    (hp : ∀ q, t.owner (.inr q) = s.owner (.inr q)) (hpi : t.pipe = s.pipe) :
    Owns t.owner t.ends := by
  refine h.owns.congr ?_ fun b => by rw [ends, ends, hpi]
  rintro (f | q)
  · exact hf f
  · exact hp q

theorem owns_goto (h : Inv s) {pc : FilePc} (hp : ∀ pi w n, s.pc p ≠ .drop (.pipe pi w) n)
    (hpc : ∀ pi w n, pc ≠ .drop (.pipe pi w) n) {u : FileSys} (hu : u.pc = s.pc)
    (hf : ∀ f, u.owner (.inl f) = s.owner (.inl f)) (hpi : u.pipe = s.pipe) :
    Owns (u.goto p pc).owner (u.goto p pc).ends := by
  refine h.owns_same hf (fun q => ?_) hpi
  by_cases hqp : q = p
  · subst hqp
    rw [owner_proc_none hp, owner_proc_none (by simpa using hpc)]
  · exact owner_proc (by simp [hqp, hu])

theorem owns_fileclose (h : Inv s) {u : FileSys} {n : FileNext} (hu : u.file = s.file)
    (hpcs : u.pc = s.pc) (hpi : u.pipe = s.pipe) (hp : ∀ pi w m, s.pc p ≠ .drop (.pipe pi w) m)
    (ht : u.fileclose p f n = some t) : Owns t.owner t.ends := by
  rcases fileclose_eq_some ht with ⟨-, rfl⟩ | ⟨-, pc, rfl, -, hpc⟩
  · refine h.owns_goto hp (by simp) hpcs (fun g => owner_file ?_ ?_ ?_) hpi
    all_goals
      rw [setFile_file, hu]
      split_ifs with hg
      · rw [hg]
      · rfl
  · by_cases hty : (s.file f).type = .pipe
    · obtain ⟨m, rfl⟩ := (hpc (s.file f).pipe (s.file f).writable).2 ⟨hu ▸ hty, by rw [hu], by rw [hu]⟩
      refine h.owns.pass (r := .inl f) (b := ((s.file f).pipe, (s.file f).writable)) (if_pos hty)
        (owner_proc_none hp) (owner_none (by simp)) (by simp [owner]) ?_ fun b => ?_
      · rintro (g | q) hg hq
        · refine owner_file ?_ ?_ ?_ <;>
            simp [hu, show g ≠ f from fun he => hg (he ▸ rfl)]
        · exact owner_proc (by simp [hpcs, show q ≠ p from fun he => hq (he ▸ rfl)])
      · rw [ends, ends, goto_pipe, setFile_pipe, hpi]
    · refine h.owns_goto hp (fun pi w m he => ?_) (by simp [hpcs]) (fun g => ?_) (by simp [hpi])
      · exact hty (hu ▸ ((hpc pi w).1 ⟨m, he⟩).1)
      · by_cases hg : g = f
        · subst hg
          rw [owner_none hty, owner_none (by simp)]
        · refine owner_file ?_ ?_ ?_ <;> simp [hu, hg]

theorem opened_type (F : File) (o : OpenArgs) : (F.opened o).type ≠ .pipe := by
  unfold File.opened
  split <;> simp

theorem mem_ends {pi : ℕ} {w : Bool} :
    (pi, w) ∈ s.ends ↔ ∃ e, s.pipe pi = some e ∧ e.isOpen w = true :=
  Iff.rfl

/-- One end of a pipe is closed; if it was the last, the pipe is gone. -/
theorem ends_shut {pi : ℕ} {w : Bool} {e : PipeEnds} {x : Option PipeEnds}
    (he : s.pipe pi = some e) (hx : x = some (e.shut w) ∨
      x = none ∧ ¬((e.shut w).readopen = true ∨ (e.shut w).writeopen = true))
    (ht : t.pipe = update s.pipe pi x) (b : ℕ × Bool) : b ∈ t.ends ↔ b ≠ (pi, w) ∧ b ∈ s.ends := by
  obtain ⟨pi', w'⟩ := b
  rw [mem_ends, mem_ends, ht, Ne, Prod.mk.injEq]
  by_cases hpi : pi' = pi
  · subst hpi
    rw [update_self, he]
    rcases hx with rfl | ⟨rfl, ho⟩
    · cases w <;> cases w' <;> simp [PipeEnds.shut, PipeEnds.isOpen]
    · cases w <;> cases w' <;> simp_all [PipeEnds.shut, PipeEnds.isOpen]
  · rw [update_of_ne hpi]
    simp [hpi]

theorem owns_drop (h : Inv s) {pi : ℕ} {w : Bool} {n : FileNext} {e : PipeEnds}
    {x : Option PipeEnds} (hpc : s.pc p = .drop (.pipe pi w) n) (he : s.pipe pi = some e)
    (hx : x = some (e.shut w) ∨
      x = none ∧ ¬((e.shut w).readopen = true ∨ (e.shut w).writeopen = true)) :
    Owns ({ s with pipe := update s.pipe pi x }.goto p (.next n)).owner
      ({ s with pipe := update s.pipe pi x }.goto p (.next n)).ends := by
  refine h.owns.take (r := .inr p) (b := (pi, w)) (by simp [owner, hpc])
    (owner_proc_none (by simp)) ?_ (ends_shut he hx rfl)
  rintro (f | q) hq
  · rfl
  · exact owner_proc (by simp [show q ≠ p from fun hqp => hq (hqp ▸ rfl)])

/-- The two ends of a new pipe are the two files. -/
theorem owns_pipeMade (h : Inv s) {f0 f1 : FilePtr} {pi : ℕ} {copyout : Bool}
    (hpc : s.pc p = .pipeTwo f0 f1) (hpi : s.pipe pi = none) :
    Owns (s.pipeMade p f0 f1 pi copyout).owner (s.pipeMade p f0 f1 pi copyout).ends := by
  have h0 := h.fresh p f0 (by rw [hpc]; exact List.mem_cons_self)
  have h1 := h.fresh p f1 (by rw [hpc]; exact List.mem_cons_of_mem _ List.mem_cons_self)
  have hne : f0 ≠ f1 := by
    rintro rfl
    have hone := h.counts.count_eq_one h0.1 (k := p) (by simp [held, hpc, FilePc.held])
    simp [held, hpc, FilePc.held] at hone
  have hno : ∀ w, (pi, w) ∉ s.ends := by
    rintro w ⟨e, he, -⟩
    simp [hpi] at he
  have hfirst : Owns (update s.owner (.inl f0) (some (pi, false))) (insert (pi, false) s.ends) :=
    h.owns.give (hno false) (owner_none (by simp [h0.2])) (update_self ..)
      (fun q hq => update_of_ne hq _ _) fun c => Iff.rfl
  refine hfirst.give (r := .inl f1) (b := (pi, true)) ?_ ?_ ?_ ?_ ?_
  · rintro (hc | hc)
    · cases hc
    · exact hno true hc
  · rw [update_of_ne (by simpa using hne.symm)]
    exact owner_none (by simp [h1.2])
  · simp [owner, pipeMade, File.pipeEnd]
  · rintro (g | q) hg
    · have hg1 : g ≠ f1 := fun he => hg (he ▸ rfl)
      by_cases hg0 : g = f0
      · subst hg0
        simp [owner, pipeMade, File.pipeEnd, hne]
      · rw [update_of_ne (by simpa using hg0)]
        refine owner_file ?_ ?_ ?_ <;> simp [pipeMade, hg0, hg1]
    · rw [update_of_ne (by simp)]
      by_cases hqp : q = p
      · subst hqp
        have hrun : ∀ pi' w n,
            (s.pipeMade q f0 f1 pi copyout).pc q ≠ .drop (.pipe pi' w) n := by
          intro pi' w n
          simp only [pipeMade, goto_pc, ↓reduceIte]
          split_ifs <;> simp
        rw [owner_proc_none hrun, owner_proc_none (by simp [hpc])]
      · exact owner_proc (by simp [pipeMade, hqp])
  · rintro ⟨pi', w⟩
    rw [mem_ends, Set.mem_insert_iff, mem_ends]
    by_cases hpi' : pi' = pi
    · subst hpi'
      cases w <;> simp [pipeMade, PipeEnds.isOpen]
    · simp [pipeMade, hpi']

theorem owns_step (h : Inv s) (hs : Step s (p, e) t) : Owns t.owner t.ends := by
  have hclaim : ∀ g f, (s.claim g).owner (.inl f) = s.owner (.inl f) := by
    intro g f
    refine owner_file ?_ ?_ ?_
    all_goals
      rw [claim, setFile_file]
      split_ifs with hf
      · rw [hf]
      · rfl
  have hdup : ∀ {u v : FileSys} {g : FilePtr}, u.file = s.file → u.filedup g = some v →
      t.file = v.file → ∀ f, t.owner (.inl f) = s.owner (.inl f) := by
    intro u v g hu hv ht f
    refine owner_file ?_ ?_ ?_
    all_goals
      rw [ht, filedup_eq_some hv, setFile_file, hu]
      split_ifs with hf
      · rw [hf]
      · rfl
  cases hs with
  | «open» _ o g fd hpc hg hfd =>
    refine h.owns_same (fun f => ?_) (fun q => rfl) rfl
    by_cases hf : f = g
    · subst hf
      have hty := h.free f (filealloc_spec hg)
      have hnew : ((s.setFile f (File.opened { s.file f with ref := 1 } o)).setFd p fd
          (some f)).owner (.inl f) = none :=
        owner_none (by simpa using opened_type { s.file f with ref := 1 } o)
      rw [hnew, owner_none (by simp [hty])]
    · refine owner_file ?_ ?_ ?_ <;> simp [hf]
  | openNoFd _ g hpc hg hfd | pipe _ g hpc hg | pipeFile _ _ g hpc hg =>
    exact h.owns_goto (by simp [hpc]) (by simp) rfl (hclaim g) rfl
  | dup _ fd fd' g _ hpc hg hfd ht =>
    have hfile := hdup (by simp) ht rfl
    rw [filedup_eq_some ht] at hfile ⊢
    exact h.owns_same hfile (fun q => rfl) rfl
  | pipeNoFile _ f0 hpc hf | pipeNoPage _ f0 f1 hpc | ret _ hpc | exit _ hpc | exitSkip _ fd hpc hf
  | exited _ hpc | reap _ hpc | forkSkip _ np i hpc hf | iput _ ip n hpc =>
    exact h.owns_goto (by simp [hpc]) (by simp) rfl (fun f => rfl) rfl
  | kalloc _ f0 f1 pi copyout hpc hpi => exact h.owns_pipeMade hpc hpi
  | close _ fd g _ hpc hg ht | exitClose _ fd g _ hpc hg ht =>
    exact h.owns_fileclose (by simp) (by simp) (by simp) (by simp [hpc]) ht
  | fileclose _ g fs _ hpc ht => exact h.owns_fileclose rfl rfl rfl (by simp [hpc]) ht
  | pipeclose _ pi w n e hpc he ho => exact h.owns_drop hpc he (.inl rfl)
  | kfree _ pi w n e hpc he ho => exact h.owns_drop hpc he (.inr ⟨rfl, ho⟩)
  | wild _ pi w n hpc he =>
    obtain ⟨e', he', -⟩ := h.owns.mem_used (.inr p) (pi, w) (by simp [owner, hpc])
    rw [he] at he'
    cases he'
  | fork _ np hpc hnp =>
    refine h.owns_same (fun f => rfl) (fun q => ?_) rfl
    by_cases hqp : q = p
    · subst hqp
      rw [owner_proc_none (by simp), owner_proc_none (by simp [hpc])]
    · by_cases hqn : q = np
      · subst hqn
        rw [owner_proc_none (by simp [hqp]), owner_proc_none (by simp [hnp])]
      · exact owner_proc (by simp [hqp, hqn])
  | forked _ np hpc =>
    obtain ⟨hnp, -⟩ := h.fork p np NOFILE hpc
    refine h.owns_same (fun f => rfl) (fun q => ?_) rfl
    by_cases hqp : q = p
    · subst hqp
      rw [owner_proc_none (by simp), owner_proc_none (by simp [hpc])]
    · by_cases hqn : q = np
      · subst hqn
        rw [owner_proc_none (by simp [hqp]), owner_proc_none (by simp [hnp])]
      · exact owner_proc (by simp [hqp, hqn])
  | forkDup _ np i g u hpc hg ht =>
    have hfile := hdup rfl ht rfl
    rw [filedup_eq_some ht] at hfile ⊢
    exact h.owns_goto (by simp [hpc]) (by simp) rfl hfile rfl
  | dupPanic | closePanic | filePanic | exitPanic | forkPanic => exact h.owns

/-- A pipe that is not freed has an open end. -/
theorem live_step (h : Inv s) (hs : Step s (p, e) t) (pi : ℕ) (x : PipeEnds)
    (hx : t.pipe pi = some x) : x.readopen = true ∨ x.writeopen = true := by
  have hold := h.live pi x
  cases hs with
  | dup _ fd fd' g _ hpc hg hfd ht =>
    rw [filedup_eq_some ht] at hx
    exact hold hx
  | forkDup _ np i g u hpc hg ht =>
    rw [filedup_eq_some ht] at hx
    exact hold hx
  | close _ fd g _ hpc hg ht | exitClose _ fd g _ hpc hg ht | fileclose _ g fs _ hpc ht =>
    rw [(fileclose_frame ht).2.2.1] at hx
    exact hold hx
  | kalloc _ f0 f1 pi' copyout hpc hpi =>
    simp only [pipeMade, goto_pipe, update_apply] at hx
    split_ifs at hx
    · obtain rfl := Option.some.inj hx
      exact .inl rfl
    · exact hold hx
  | pipeclose _ pi' w n e hpc he ho =>
    simp only [goto_pipe, update_apply] at hx
    split_ifs at hx
    · obtain rfl := Option.some.inj hx
      exact ho
    · exact hold hx
  | kfree _ pi' w n e hpc he ho =>
    simp only [goto_pipe, update_apply] at hx
    split_ifs at hx
    exact hold hx
  | _ => exact hold hx

theorem step (h : Inv s) (hs : Step s (p, e) t) : Inv t where
  counts := h.counts_step hs
  free := h.free_step hs
  fresh := h.fresh_step hs
  idle := h.idle_step hs
  exit := h.exit_step hs
  fork _ _ _ hq := h.fork_step hs _ _ _ hq
  child _ _ _ _ _ hq hq' := h.child_step hs _ _ _ _ _ hq hq'
  owns := h.owns_step hs
  live := h.live_step hs

end Inv

namespace Inv

theorem held_of_quiet {pc : FilePc} (h : pc.quiet = true) : pc.held = 0 := by
  cases pc <;> first | rfl | cases h

theorem no_panic (h : Inv s) (p : Slot) (t : FileSys) : ¬Step s (p, .panic) t := by
  have hmem : ∀ {fd f}, s.ofile p fd = some f → 1 ≤ (s.file f).ref := fun hf =>
    h.counts.pos (k := p) (Multiset.mem_add.2 (.inl (mem_table.2 ⟨_, hf⟩)))
  intro hs
  cases hs with
  | dupPanic _ fd fd' f hpc hf hfd ht => exact filedup_ne_none (by simpa using hmem hf) ht
  | forkPanic _ np i f hpc hf ht => exact filedup_ne_none (hmem hf) ht
  | closePanic _ fd f hpc hf ht => exact fileclose_ne_none (by simpa using hmem hf) ht
  | exitPanic _ fd f hpc hf ht => exact fileclose_ne_none (by simpa using hmem hf) ht
  | filePanic _ f fs hpc ht =>
    refine fileclose_ne_none (h.counts.pos (k := p) (Multiset.mem_add.2 (.inr ?_))) ht
    simp [hpc, FilePc.held, FileNext.held]

theorem no_wild (h : Inv s) (p : Slot) (t : FileSys) : ¬Step s (p, .wild) t := by
  intro hs
  cases hs with
  | wild _ pi w n hpc he =>
    obtain ⟨e', he', -⟩ := h.owns.mem_used (.inr p) (pi, w) (by simp [owner, hpc])
    rw [he] at he'
    cases he'

/-- A page is freed when no file is an end of its pipe. -/
theorem of_kfree {pi : ℕ} (h : Inv s) (hs : Step s (p, .kfree pi) t) :
    (s.pipe pi).isSome = true ∧ t.pipe pi = none ∧
      ∀ f, (s.file f).type = .pipe → (s.file f).pipe ≠ pi := by
  cases hs with
  | kfree _ _ w n e hpc he ho =>
    refine ⟨by simp [he], by simp, fun f hty hpi => ?_⟩
    have hf : s.owner (.inl f) = some (pi, (s.file f).writable) := by rw [owner, if_pos hty, hpi]
    have hp : s.owner (.inr p) = some (pi, w) := by simp [owner, hpc]
    by_cases hw : (s.file f).writable = w
    · cases h.owns.unique _ _ _ hf (hw ▸ hp)
    · obtain ⟨e', he', hopen⟩ := h.owns.mem_used _ _ hf
      obtain rfl : e = e' := Option.some.inj (he.symm.trans he')
      cases w <;> cases hfw : (s.file f).writable <;>
        simp_all [PipeEnds.shut, PipeEnds.isOpen]

/-- With no call in progress, the pages in use are those of the open files. -/
theorem pipe_iff (h : Inv s) (hq : ∀ p, (s.pc p).quiet = true) (pi : ℕ) :
    (s.pipe pi).isSome = true ↔ ∃ f, (s.file f).type = .pipe ∧ (s.file f).pipe = pi := by
  constructor
  · intro hsome
    obtain ⟨e, he⟩ := Option.isSome_iff_exists.1 hsome
    obtain ⟨w, hw⟩ : ∃ w, e.isOpen w = true :=
      (h.live pi e he).elim (fun hr => ⟨false, hr⟩) fun hw => ⟨true, hw⟩
    obtain ⟨f | p, hown⟩ := h.owns.owned (pi, w) ⟨e, he, hw⟩
    · by_cases hty : (s.file f).type = .pipe
      · simp only [owner, hty, ↓reduceIte, Option.some.injEq, Prod.mk.injEq] at hown
        exact ⟨f, hty, hown.1⟩
      · rw [owner_none hty] at hown
        cases hown
    · have hqp := hq p
      rw [owner_proc_none fun pi w n hpc => by simp [hpc, FilePc.quiet] at hqp] at hown
      cases hown
  · rintro ⟨f, hty, rfl⟩
    obtain ⟨e, he, -⟩ := h.owns.mem_used (.inl f) _ (if_pos hty)
    simp [he]

end Inv

/-- How often the page has been given to `pipealloc`. -/
def allocs (pi : ℕ) (es : List (Slot × FileEvent)) : ℕ :=
  es.countP fun e =>
    match e.2 with
    | .kalloc pi' _ => pi' = pi
    | _ => false

/-- How often the page has been freed by `pipeclose`. -/
def frees (pi : ℕ) (es : List (Slot × FileEvent)) : ℕ :=
  es.countP fun e => e.2 = .kfree pi

theorem frees_step {pi : ℕ} (hs : Step s (p, e) t)
    (h : allocs pi es = frees pi es + (s.pipe pi).isSome.toNat) :
    allocs pi (es ++ [(p, e)]) =
      frees pi (es ++ [(p, e)]) + (t.pipe pi).isSome.toNat := by
  rw [allocs, frees, List.countP_append, List.countP_append, ← allocs, ← frees]
  cases hs with
  | kalloc _ f0 f1 pi' copyout hpc hpi =>
    by_cases hp : pi' = pi
    · subst hp
      simp only [hpi, Option.isSome_none, Bool.toNat_false, add_zero] at h
      simp [pipeMade, h]
    · simp [pipeMade, hp, Ne.symm hp, h]
  | pipeclose _ pi' w n e' hpc he ho =>
    by_cases hp : pi' = pi
    · subst hp
      simp only [he, Option.isSome_some, Bool.toNat_true] at h
      simp [h]
    · simp [Ne.symm hp, h]
  | kfree _ pi' w n e' hpc he ho =>
    by_cases hp : pi' = pi
    · subst hp
      simp only [he, Option.isSome_some, Bool.toNat_true] at h
      simp [h]
    · simp [hp, Ne.symm hp, h]
  | dup _ fd fd' g _ hpc hg hfd ht =>
    rw [filedup_eq_some ht]
    simpa using h
  | forkDup _ np i g u hpc hg ht =>
    rw [filedup_eq_some ht]
    simpa using h
  | close _ fd g _ hpc hg ht | exitClose _ fd g _ hpc hg ht | fileclose _ g fs _ hpc ht =>
    rw [(Inv.fileclose_frame ht).2.2.1]
    simpa using h
  | _ => simpa [claim] using h

/-- For any processes that open, duplicate and close files, make pipes, fork and exit, with any
failures : a file that is free has type `FD_NONE` and no descriptor points to it, the panics of
`filedup` and `fileclose` are unreachable, no pipe is used after it is freed, and a page is freed
once for each time it was given, with no end of its pipe left. With no call in progress, `ref` is
the number of descriptors that point to the file, and the pages in use are those of open files. -/
theorem files_counted {s₀ : FileSys} (h0 : Boot s₀) (h : Run Step s₀ es s) :
    (∀ f, (s.file f).ref = 0 → (s.file f).type = .none ∧ ∀ p fd, s.ofile p fd ≠ some f) ∧
    (∀ p t, ¬Step s (p, .panic) t ∧ ¬Step s (p, .wild) t) ∧
    (∀ pi, allocs pi es = frees pi es + (s.pipe pi).isSome.toNat) ∧
    (∀ p pi t, Step s (p, .kfree pi) t → (s.pipe pi).isSome = true ∧ t.pipe pi = none ∧
      ∀ f, (s.file f).type = .pipe → (s.file f).pipe ≠ pi) ∧
    ((∀ p, (s.pc p).quiet = true) →
      (∀ f, (s.file f).ref = ∑ p, ((Finset.univ.filter fun fd => s.ofile p fd = some f).card : ℤ)) ∧
      ∀ pi, (s.pipe pi).isSome = true ↔ ∃ f, (s.file f).type = .pipe ∧ (s.file f).pipe = pi) := by
  have hI : Inv s ∧ ∀ pi, allocs pi es = frees pi es + (s.pipe pi).isSome.toNat := by
    refine h.invariant (I := fun es s =>
      Inv s ∧ ∀ pi, allocs pi es = frees pi es + (s.pipe pi).isSome.toNat) ?_ ?_
    · exact ⟨.boot h0, fun pi => by simp [allocs, frees, h0.2.2.1 pi]⟩
    · rintro es t ⟨p, e⟩ u - ⟨hI, hc⟩ hs
      exact ⟨hI.step hs, fun pi => frees_step hs (hc pi)⟩
  obtain ⟨hI, hcount⟩ := hI
  refine ⟨fun f hf => ⟨hI.free f hf, fun p fd ho => ?_⟩, fun p t => ⟨hI.no_panic p t, hI.no_wild p t⟩,
    hcount, fun p pi t hs => hI.of_kfree hs, fun hq => ⟨fun f => ?_, hI.pipe_iff hq⟩⟩
  · exact hI.counts.not_mem (k := p) hf (Multiset.mem_add.2 (.inl (mem_table.2 ⟨fd, ho⟩)))
  · refine (hI.counts f).trans (Finset.sum_congr rfl fun p _ => ?_)
    rw [held, Inv.held_of_quiet (hq p), add_zero, count_table]

/-- `init` makes a pipe : its two files have one reference each. -/
theorem files_counted_pipe : ∃ s₀ s es, Boot s₀ ∧ Run Step s₀ es s ∧
    (∀ p, (s.pc p).quiet = true) ∧ (s.file 0).ref = 1 ∧ (s.file 1).ref = 1 ∧
    (∑ p, ((Finset.univ.filter fun fd => s.ofile p fd = some 0).card : ℤ)) = 1 ∧
    (s.pipe 8192).isSome = true := by
  have hb : Boot ⟨fun _ => ⟨.none, 0, false, false, 0, 0, 0, 0⟩, fun _ _ => none, fun _ => none,
      fun p => if p = 0 then .run else .unused⟩ :=
    ⟨fun _ => ⟨rfl, rfl⟩, fun _ _ => rfl, fun _ => rfl, fun _ => rfl⟩
  have hnil : ∀ s₀, Run Step s₀ [] s₀ := fun _ => .nil
  have hr := hnil ⟨fun _ => ⟨.none, 0, false, false, 0, 0, 0, 0⟩, fun _ _ => none, fun _ => none,
      fun p => if p = 0 then .run else .unused⟩
  have hr := hr.snoc (.pipe 0 0 rfl rfl)
  have hr := hr.snoc (.pipeFile 0 0 1 rfl rfl)
  have hr := hr.snoc (.kalloc 0 0 1 8192 true rfl rfl)
  obtain ⟨-, -, -, -, hquiet⟩ := files_counted hb hr
  have hq : ∀ {s : FileSys}, (∀ p, s.pc p = if p = 0 then .run else .unused) →
      ∀ p, (s.pc p).quiet = true := by
    intro s hs p
    rw [hs p]
    split_ifs <;> rfl
  refine ⟨_, _, _, hb, hr, hq fun p => ?_, rfl, rfl, ((hquiet (hq fun p => ?_)).1 0).symm, rfl⟩
  all_goals
    by_cases hp : p = 0
    · subst hp
      rfl
    · simp [pipeMade, claim, hp]

end FileSys

end CowPbs
