import Mathlib
import CowPbs.Lib.Redo
import CowPbs.LogSpace

/-!
# Crashes and recovery

What the log is for : after a crash at any point, and any number of crashes in the recovery,
the blocks hold what the committed groups of operations have written and nothing else
(`crash_atomic`).

`Journal` keeps of a run what was written by which operation, group by group : a group is
committed by its `write_head`, and lost by a crash before it. On the disk the header and the
blocks after it are a redo record (`redo`), and at every moment the disk with the record
applied holds what the committed groups have written (`Durable`). In memory an operation
reads what all operations have logged (`Crash.seen`), because a block whose contents are not
on the disk yet is pinned (`Crash.unpinned`).
-/

set_option linter.unusedSectionVars false

open Function Transition

namespace CowPbs

/-! ## The journal of a run -/

/-- A block that an operation has logged. -/
structure LogEntry where
  /-- The number of the operation. -/
  op : ℕ
  block : ℕ
  data : Block

/-- What the operations of a run have logged. -/
structure Journal (ι : Type) where
  /-- The number of the next operation. -/
  next : ℕ
  /-- The last operation of each process. -/
  op : ι → ℕ
  /-- The groups that were committed. -/
  groups : List (List LogEntry)
  /-- The group that is not committed yet. -/
  group : List LogEntry
  /-- What was lost in a crash. -/
  lost : List LogEntry

namespace Journal

variable {ι : Type} [DecidableEq ι] (j : Journal ι)

/-- Nothing was logged. -/
def empty : Journal ι where
  next := 0
  op := fun _ => 0
  groups := []
  group := []
  lost := []

/-- A move is recorded. -/
def record : LogEvent ι → Journal ι
  | .beginOp p => { j with next := j.next + 1, op := update j.op p j.next }
  | .logWrite p b d => { j with group := j.group ++ [⟨j.op p, b, d⟩] }
  | .writeHead _ => { j with groups := j.groups ++ [j.group], group := [] }
  | .crash => { j with group := [], lost := j.lost ++ j.group }
  | .bread .. | .modify .. | .brelse .. | .endOp _ | .writeLog _ | .install _ | .erase _
  | .finish _ | .evict _ | .recover => j

/-- The writes of some entries. -/
def writes (entries : List LogEntry) : List (ℕ × Block) :=
  entries.map fun x => (x.block, x.data)

/-- The blocks after all operations of the committed groups. -/
def home (disk : ℕ → Block) : ℕ → Block :=
  Redo.apply (writes j.groups.flatten) disk

/-- The blocks after all that was logged and not lost. -/
def view (disk : ℕ → Block) : ℕ → Block :=
  Redo.apply (writes j.group) (j.home disk)

/-- The operation has logged one of the entries. -/
def Logged (k : ℕ) (entries : List LogEntry) : Prop :=
  ∃ x ∈ entries, x.op = k

end Journal

/-- The journal of a run. -/
def journal {ι : Type} [DecidableEq ι] (es : List (LogEvent ι)) : Journal ι :=
  es.foldl Journal.record .empty

/-! ## The disk -/

namespace LogArea

variable {sb : LogArea} {disk home : ℕ → Block} {b : ℕ}

/-- What the log says is to be written. -/
def redo (sb : LogArea) (disk : ℕ → Block) : List (ℕ × Block) :=
  (disk sb.logstart).head.mapIdx fun tail b => (b, disk (sb.logstart + tail + 1))

/-- With the log applied, the disk holds the blocks `home`. -/
def Durable (sb : LogArea) (home disk : ℕ → Block) : Prop :=
  ∀ b, ¬sb.Inside b → Redo.apply (sb.redo disk) disk b = home b

theorem keys_redo (disk : ℕ → Block) :
    (sb.redo disk).map Prod.fst = (disk sb.logstart).head :=
  List.ext_getElem (by simp [redo]) (by simp [redo])

theorem mem_redo {w : ℕ × Block} : w ∈ sb.redo disk ↔
    ∃ tail, (disk sb.logstart).head[tail]? = some w.1 ∧
      w.2 = disk (sb.logstart + tail + 1) := by
  simp only [redo, List.mem_mapIdx, List.getElem?_eq_some_iff]
  constructor
  · rintro ⟨tail, htail, rfl⟩
    exact ⟨tail, ⟨htail, rfl⟩, rfl⟩
  · rintro ⟨tail, ⟨htail, hb⟩, hd⟩
    exact ⟨tail, htail, Prod.ext hb hd.symm⟩

theorem inside_entry {lh : List ℕ} {tail : ℕ} (h : sb.Fits lh) (hb : lh[tail]? = some b) :
    sb.Inside (sb.logstart + tail + 1) := by
  have := (List.getElem?_eq_some_iff.1 hb).1
  have := h.room
  exact ⟨by omega, by omega⟩

/-- The record depends on the blocks of the log only. -/
theorem redo_congr {disk' : ℕ → Block} (h : sb.Fits (disk sb.logstart).head)
    (hd : ∀ b, sb.Inside b → disk' b = disk b) : sb.redo disk' = sb.redo disk := by
  have hstart : disk' sb.logstart = disk sb.logstart := by
    have := h.room
    exact hd _ ⟨le_rfl, by omega⟩
  refine List.ext_getElem (by simp [redo, hstart]) fun tail h₁ h₂ => ?_
  have htail : (disk sb.logstart).head[tail]? =
      some ((disk sb.logstart).head.get ⟨tail, by simpa [redo] using h₂⟩) := by
    simp
  simp only [redo, List.getElem_mapIdx, hstart, hd _ (inside_entry h htail)]

theorem redo_of_nil (h : (disk sb.logstart).head = []) : sb.redo disk = [] := by
  simp [redo, h]

namespace Durable

/-- If the log is empty the blocks are in place. -/
theorem iff_of_nil (h : (disk sb.logstart).head = []) :
    sb.Durable home disk ↔ ∀ b, ¬sb.Inside b → disk b = home b := by
  simp [Durable, redo_of_nil h]

/-- A block that is not in the log is in place. -/
theorem disk_eq (h : sb.Durable home disk) (hb : ¬sb.Inside b)
    (hmem : b ∉ (disk sb.logstart).head) : disk b = home b := by
  rw [← h b hb, Redo.apply_of_notMem]
  rwa [keys_redo]

/-- What the log holds for a block. -/
theorem entry_eq {tail : ℕ} (h : sb.Durable home disk) (hfit : sb.Fits (disk sb.logstart).head)
    (hb : (disk sb.logstart).head[tail]? = some b) :
    disk (sb.logstart + tail + 1) = home b := by
  have hmem : (b, disk (sb.logstart + tail + 1)) ∈ sb.redo disk := mem_redo.2 ⟨tail, hb, rfl⟩
  rw [← h b (hfit.home b (List.mem_of_getElem? hb)), Redo.apply_of_mem _ hmem]
  rw [keys_redo]
  exact hfit.nodup

/-- A block of the log is installed, perhaps again. -/
theorem install {tail : ℕ} (h : sb.Durable home disk) (hfit : sb.Fits (disk sb.logstart).head)
    (hb : (disk sb.logstart).head[tail]? = some b) (d : Block) :
    sb.Durable home (update disk b d) := by
  have hmem := List.mem_of_getElem? hb
  have hredo : sb.redo (update disk b d) = sb.redo disk := by
    refine redo_congr hfit fun x hx => update_of_ne ?_ ..
    rintro rfl
    exact hfit.home x hmem hx
  intro x hx
  rw [hredo, Redo.apply_update (by rwa [keys_redo])]
  exact h x hx

/-- When all blocks of the log are installed, every block is in place. -/
theorem disk_eq_of_installed (h : sb.Durable home disk)
    (hins : ∀ tail b, (disk sb.logstart).head[tail]? = some b →
      disk b = disk (sb.logstart + tail + 1)) (hb : ¬sb.Inside b) : disk b = home b := by
  rw [← h b hb, Redo.apply_of_agree]
  intro w hw
  obtain ⟨tail, hw₁, hw₂⟩ := mem_redo.1 hw
  rw [hins tail _ hw₁, hw₂]

/-- The header is written when the log holds the blocks of the group. -/
theorem commit {view : ℕ → Block} {d : Block} (hfit : sb.Fits d.head)
    (hlog : ∀ tail b, d.head[tail]? = some b → disk (sb.logstart + tail + 1) = view b)
    (hother : ∀ b, ¬sb.Inside b → b ∉ d.head → disk b = view b) :
    sb.Durable view (update disk sb.logstart d) := by
  have hhead : (update disk sb.logstart d) sb.logstart = d := update_self ..
  intro b hb
  by_cases hmem : b ∈ d.head
  · obtain ⟨tail, htail⟩ := List.mem_iff_getElem?.1 hmem
    have hredo : (b, view b) ∈ sb.redo (update disk sb.logstart d) := by
      refine mem_redo.2 ⟨tail, by rwa [hhead], ?_⟩
      rw [update_of_ne (by omega), hlog tail b htail]
    rw [Redo.apply_of_mem _ hredo]
    rw [keys_redo, hhead]
    exact hfit.nodup
  · rw [Redo.apply_of_notMem (by rwa [keys_redo, hhead]), update_of_ne, hother b hb hmem]
    rintro rfl
    have := hfit.room
    exact hb ⟨le_rfl, by omega⟩

end Durable

end LogArea

/-! ## Memory -/

namespace LogState

variable {ι : Type} [DecidableEq ι] [Fintype ι] {sb : LogArea} {s t : LogState ι}
  {es : List (LogEvent ι)} {e : LogEvent ι} {disk home view : ℕ → Block} {b : ℕ}

/-- No process is in `install_trans`. -/
def NoInstall (s : LogState ι) : Prop :=
  ∀ p tail, s.pc p ≠ .installing tail

/-- How the disk and the buffers stand to the blocks `home` of the committed groups, and to
the blocks `view` with what was logged since. -/
structure Crash (sb : LogArea) (home view : ℕ → Block) (s : LogState ι) : Prop where
  durable : sb.Durable home s.disk
  /-- The buffers of the log are as on the disk. -/
  log : ∀ b, sb.Inside b → s.read b = s.disk b
  /-- Before the system is up nothing is in memory only. -/
  down : s.recovery ≠ .up → view = home ∧ ∀ b, s.read b = s.disk b ∧ s.unlogged b = false
  reinstalled : ∀ tail, s.recovery = .installing tail → ∀ i < tail, ∀ b, s.lh[i]? = some b →
    s.disk b = s.disk (sb.logstart + i + 1)
  /-- A buffer that was changed and not logged is held by an operation. -/
  changed : ∀ b, s.unlogged b = true → ∃ p, s.pc p = .inOp ∧ b ∈ s.held p
  seen : s.Up → ∀ b, ¬sb.Inside b → s.unlogged b = false → s.read b = view b
  /-- What is not on the disk is pinned. -/
  unpinned : s.Up → ∀ b, ¬sb.Inside b → s.pins b = 0 → s.disk b = view b
  pinned : s.Up → s.NoInstall → ∀ b ∈ s.lh, 0 < s.pins b
  erased : s.Up → s.NoInstall → (s.disk sb.logstart).head = []
  listed : s.Up → ∀ b ∉ s.lh, view b = home b
  written : ∀ p tail, s.pc p = .writing tail → ∀ i < tail, ∀ b, s.lh[i]? = some b →
    s.disk (sb.logstart + i + 1) = view b
  installed : ∀ p tail, s.pc p = .installing tail →
    (s.disk sb.logstart).head = s.lh ∧ view = home ∧
      ∀ i < tail, ∀ b, s.lh[i]? = some b → s.disk b = home b

namespace Crash

theorem boot (h : sb.Durable home disk) : Crash sb home home (boot disk : LogState ι) where
  durable := h
  log _ _ := rfl
  down _ := ⟨rfl, fun _ => ⟨rfl, rfl⟩⟩
  reinstalled := by simp [LogState.boot]
  changed := by simp [LogState.boot]
  seen hu := by cases hu.1
  unpinned hu := by cases hu.1
  pinned hu := by cases hu.1
  erased hu := by cases hu.1
  listed hu := by cases hu.1
  written := by simp [LogState.boot]
  installed := by simp [LogState.boot]

/-- During a commit nothing is changed that is not logged. -/
theorem logged_of_commits {p : ι} (h : Crash sb home view s) (hO : Ops s)
    (hp : (s.pc p).commits = true) (b : ℕ) : s.unlogged b = false := by
  by_contra hne
  obtain ⟨q, hq, -⟩ := h.changed b (by simpa using hne)
  exact hO.quiet (hO.committing.2 ⟨p, hp⟩) q hq

/-- A move that writes nothing to the disk and logs nothing. -/
theorem of_eq (h : Crash sb home view s) (hu : s.Up) (hdisk : t.disk = s.disk)
    (hlh : t.lh = s.lh) (hpins : t.pins = s.pins) (hrec : t.recovery = s.recovery)
    (hread : ∀ b, sb.Inside b ∨ t.unlogged b = false → t.read b = s.read b)
    (hun : ∀ b, t.unlogged b = false → s.unlogged b = false)
    (hch : ∀ b, t.unlogged b = true → ∃ p, t.pc p = .inOp ∧ b ∈ t.held p)
    (hw : ∀ p tail, t.pc p = .writing (tail + 1) → s.pc p = .writing (tail + 1))
    (hi : ∀ p tail, t.pc p = .installing tail ↔ s.pc p = .installing tail) :
    Crash sb home view t where
  durable := hdisk ▸ h.durable
  log b hb := by rw [hread b (.inl hb), hdisk, h.log b hb]
  down hr := (hr (hrec.trans hu.1)).elim
  reinstalled tail hr := by
    rw [hrec, hu.1] at hr
    cases hr
  changed := hch
  seen _ b hb hl := by rw [hread b (.inr hl), h.seen hu b hb (hun b hl)]
  unpinned _ b hb hp := by
    rw [hdisk]
    exact h.unpinned hu b hb (hpins ▸ hp)
  pinned _ hno b hb := by
    rw [hpins]
    exact h.pinned hu (fun p tail => (hi p tail).not.1 (hno p tail)) b (hlh ▸ hb)
  erased _ hno := by
    rw [hdisk]
    exact h.erased hu fun p tail => (hi p tail).not.1 (hno p tail)
  listed _ := by
    rw [hlh]
    exact h.listed hu
  written p tail hp i htail := by
    obtain ⟨tail, rfl⟩ : ∃ m, tail = m + 1 := Nat.exists_eq_succ_of_ne_zero (by omega)
    rw [hdisk, hlh]
    exact h.written p _ (hw p tail hp) i htail
  installed p tail hp := by
    rw [hdisk, hlh]
    exact h.installed p tail ((hi p tail).1 hp)

/-- No process commits while an operation is in progress. -/
theorem not_commits {p q : ι} {x : LogPc} (hO : Ops s) (hp : s.pc p = .inOp) (hq : s.pc q = x)
    (hx : x.commits = true) : False := by
  have := hO.commits_eq_false hp q
  rw [hq, hx] at this
  cases this

theorem noInstall_of_inOp {p : ι} (hO : Ops s) (hp : s.pc p = .inOp) : s.NoInstall :=
  fun _ _ hq => not_commits hO hp hq rfl

/-- An operation logs a block, unless there is a panic. -/
theorem logWrite {p : ι} (h : Crash sb home view s) (hO : Ops s) (hu : s.Up)
    (hpc : s.pc p = .inOp) (hdisk : t.disk = s.disk) (hcache : t.cache = s.cache)
    (htpc : t.pc = s.pc) (hheld : t.held = s.held) (hrec : t.recovery = s.recovery)
    (hun : ∀ x, t.unlogged x = true → s.unlogged x = true)
    (hother : t.Up → ∀ x, x ≠ b → t.unlogged x = s.unlogged x ∧ t.pins x = s.pins x ∧
      (x ∈ t.lh ↔ x ∈ s.lh))
    (hb : t.Up → 0 < t.pins b ∧ b ∈ t.lh) :
    Crash sb home (update view b (s.read b)) t := by
  have hread : t.read = s.read := by
    funext x
    simp [read, hcache, hdisk]
  refine ⟨hdisk ▸ h.durable, fun x hx => ?_, fun hr => (hr (hrec.trans hu.1)).elim,
    fun tail hr => ?_, fun x hx => ?_, fun ht x hx hl => ?_, fun ht x hx hp => ?_,
    fun ht hno x hx => ?_, fun ht hno => ?_, fun ht x hx => ?_, fun q tail hq => ?_,
    fun q tail hq => ?_⟩
  · rw [hread, hdisk, h.log x hx]
  · rw [hrec, hu.1] at hr
    cases hr
  · rw [htpc, hheld]
    exact h.changed x (hun x hx)
  · by_cases hxb : x = b
    · rw [hread, hxb, update_self]
    · rw [hread, update_of_ne hxb]
      exact h.seen hu x hx ((hother ht x hxb).1 ▸ hl)
  · by_cases hxb : x = b
    · have := (hb ht).1
      rw [hxb] at hp
      omega
    · rw [hdisk, update_of_ne hxb]
      exact h.unpinned hu x hx ((hother ht x hxb).2.1 ▸ hp)
  · by_cases hxb : x = b
    · rw [hxb]
      exact (hb ht).1
    · obtain ⟨-, hp, hl⟩ := hother ht x hxb
      rw [hp]
      exact h.pinned hu (noInstall_of_inOp hO hpc) x (hl.1 hx)
  · rw [hdisk]
    exact h.erased hu (noInstall_of_inOp hO hpc)
  · have hxb : x ≠ b := by
      rintro rfl
      exact hx (hb ht).2
    rw [update_of_ne hxb]
    exact h.listed hu x fun hx' => hx ((hother ht x hxb).2.2.2 hx')
  · exact (not_commits hO hpc (htpc ▸ hq) rfl).elim
  · exact (not_commits hO hpc (htpc ▸ hq) rfl).elim

/-- The process that commits goes on to `x`. -/
theorem of_commit {p : ι} {x : LogPc} {home' view' : ℕ → Block} (h : Crash sb home view s)
    (hO : Ops s) (hu : s.Up) (hp : (s.pc p).commits = true) (hpc : t.pc = update s.pc p x)
    (hrec : t.recovery = s.recovery) (hun : t.unlogged = s.unlogged)
    (hdur : sb.Durable home' t.disk) (hlog : ∀ b, sb.Inside b → t.read b = t.disk b)
    (hseen : ∀ b, ¬sb.Inside b → t.read b = view' b)
    (hunp : ∀ b, ¬sb.Inside b → t.pins b = 0 → t.disk b = view' b)
    (hno : (∀ tail, x ≠ .installing tail) →
      (∀ b ∈ t.lh, 0 < t.pins b) ∧ (t.disk sb.logstart).head = [])
    (hlist : ∀ b ∉ t.lh, view' b = home' b)
    (hwr : ∀ tail, x = .writing tail → ∀ i < tail, ∀ b, t.lh[i]? = some b →
      t.disk (sb.logstart + i + 1) = view' b)
    (hins : ∀ tail, x = .installing tail → (t.disk sb.logstart).head = t.lh ∧ view' = home' ∧
      ∀ i < tail, ∀ b, t.lh[i]? = some b → t.disk b = home' b) : Crash sb home' view' t := by
  have hfalse : ∀ b, t.unlogged b = false := by
    rw [hun]
    exact h.logged_of_commits hO hp
  have hx : ∀ q y, t.pc q = y → y.commits = true → y = x := by
    intro q y hq hy
    rw [hpc, update_apply] at hq
    split_ifs at hq with hqp
    · exact hq.symm
    · exact (hqp (hO.alone q p (by rw [hq, hy]) hp)).elim
  have hnoInstall : t.NoInstall → ∀ tail, x ≠ .installing tail := by
    intro hno tail hx
    exact hno p tail (by rw [hpc, update_self, hx])
  refine ⟨hdur, hlog, fun hr => (hr (hrec.trans hu.1)).elim, fun tail hr => ?_, fun b hb => ?_,
    fun _ b hb _ => hseen b hb, fun _ => hunp, fun _ hn => (hno (hnoInstall hn)).1,
    fun _ hn => (hno (hnoInstall hn)).2, fun _ => hlist,
    fun q tail hq => hwr tail (hx q _ hq rfl).symm,
    fun q tail hq => hins tail (hx q _ hq rfl).symm⟩
  · rw [hrec, hu.1] at hr
    cases hr
  · rw [hfalse b] at hb
    cases hb

/-- `write_log` writes a block. -/
theorem writeLog {p : ι} {tail : ℕ} (h : Crash sb home view s) (hO : Ops s) (hH : Header sb s)
    (hu : s.Up) (hpc : s.pc p = .writing tail) (hb : s.lh[tail]? = some b) :
    Crash sb home view (s.writeLog sb p tail b) := by
  have hin : sb.Inside (sb.logstart + tail + 1) := LogArea.inside_entry hH.lh hb
  have hne : ∀ {x}, ¬sb.Inside x → x ≠ sb.logstart + tail + 1 := by
    rintro x hx rfl
    exact hx hin
  have hp : (s.pc p).commits = true := by rw [hpc]; rfl
  have hlogged := h.logged_of_commits hO hp
  have hno : s.NoInstall := by
    intro q tail' hq
    obtain rfl := hO.alone q p (by rw [hq]; rfl) hp
    rw [hpc] at hq
    cases hq
  have hhead := h.erased hu hno
  have hdisk : ∀ x, x ≠ sb.logstart + tail + 1 → (s.writeLog sb p tail b).disk x = s.disk x := by
    intro x hx
    rw [disk_writeLog, update_of_ne hx]
  have hread : ∀ x, x ≠ sb.logstart + tail + 1 → (s.writeLog sb p tail b).read x = s.read x := by
    intro x hx
    rw [read_writeLog, if_neg hx]
  have hhead' : ((s.writeLog sb p tail b).disk sb.logstart).head = [] := by
    rw [hdisk _ (by omega), hhead]
  refine h.of_commit hO hu hp rfl rfl rfl ?_ (fun x hx => ?_) (fun x hx => ?_) (fun x hx hp => ?_)
    (fun _ => ⟨h.pinned hu hno, hhead'⟩) (h.listed hu) (fun tail' ht i hi x hx => ?_)
    fun tail' ht => by cases ht
  · rw [LogArea.Durable.iff_of_nil hhead']
    intro x hx
    rw [hdisk x (hne hx), (LogArea.Durable.iff_of_nil hhead).1 h.durable x hx]
  · by_cases hxl : x = sb.logstart + tail + 1
    · rw [read_writeLog, if_pos hxl, disk_writeLog, hxl, update_self]
    · rw [hread x hxl, hdisk x hxl, h.log x hx]
  · rw [hread x (hne hx), h.seen hu x hx (hlogged x)]
  · rw [hdisk x (hne hx), h.unpinned hu x hx hp]
  · obtain rfl := LogPc.writing.inj ht
    rcases Nat.lt_succ_iff_lt_or_eq.1 hi with hi | rfl
    · rw [hdisk _ (by omega)]
      exact h.written p tail hpc i hi x hx
    · obtain rfl : b = x := Option.some.inj (hb.symm.trans hx)
      have hbh := hH.lh.home b (List.mem_of_getElem? hb)
      rw [disk_writeLog, update_self, h.seen hu b hbh (hlogged b)]

/-- The group is committed. -/
theorem writeHead {p : ι} (h : Crash sb home view s) (hO : Ops s) (hH : Header sb s) (hu : s.Up)
    (hpc : s.pc p = .writing s.lh.length) : Crash sb view view
      { s.writeHead sb with pc := update s.pc p (.installing 0) } := by
  have hp : (s.pc p).commits = true := by rw [hpc]; rfl
  have hlogged := h.logged_of_commits hO hp
  have hno : s.NoInstall := by
    intro q tail' hq
    obtain rfl := hO.alone q p (by rw [hq]; rfl) hp
    rw [hpc] at hq
    cases hq
  have hlen : s.lh.length < 256 := by
    have := hH.lh.short
    simp only [LOGSIZE, MAXOPBLOCKS] at this
    omega
  have hput := Block.head_putHead (d := s.read sb.logstart) hlen
  have hne : ∀ {x}, ¬sb.Inside x → x ≠ sb.logstart := fun hx => (hH.start_ne hx).symm
  refine h.of_commit (x := .installing 0) hO hu hp rfl rfl rfl ?_ (fun x hx => ?_) (fun x hx => ?_)
    (fun x hx hpin => ?_) (fun hx => (hx 0 rfl).elim) (fun _ _ => rfl) (fun _ ht => by cases ht)
    fun tail ht => ?_
  · refine LogArea.Durable.commit ?_ ?_ ?_
    · rw [hput]
      exact hH.lh
    · rw [hput]
      intro tail b hb
      exact h.written p _ hpc tail (List.getElem?_eq_some_iff.1 hb).1 b hb
    · rw [hput]
      intro b hb hmem
      rw [(LogArea.Durable.iff_of_nil (h.erased hu hno)).1 h.durable b hb, h.listed hu b hmem]
  · show (s.writeHead sb).read x = (s.writeHead sb).disk x
    rw [read_writeHead, disk_writeHead, update_apply]
    split_ifs
    · rfl
    · exact h.log x hx
  · show (s.writeHead sb).read x = _
    rw [read_writeHead, if_neg (hne hx), h.seen hu x hx (hlogged x)]
  · show (s.writeHead sb).disk x = _
    rw [disk_writeHead, update_of_ne (hne hx), h.unpinned hu x hx hpin]
  · obtain rfl := LogPc.installing.inj ht
    refine ⟨?_, rfl, fun i hi => (Nat.not_lt_zero i hi).elim⟩
    show ((s.writeHead sb).disk sb.logstart).head = s.lh
    rw [disk_writeHead, update_self, hput]

/-- `install_trans` writes a block. -/
theorem install {p : ι} {tail : ℕ} (h : Crash sb home view s) (hO : Ops s) (hH : Header sb s)
    (hu : s.Up) (hpc : s.pc p = .installing tail) (hb : s.lh[tail]? = some b) : Crash sb home view
      { (s.installTrans sb tail b).bunpin b with
        pc := update s.pc p (.installing (tail + 1)) } := by
  have hp : (s.pc p).commits = true := by rw [hpc]; rfl
  have hlogged := h.logged_of_commits hO hp
  obtain ⟨hhead, hview, hins⟩ := h.installed p tail hpc
  have hbh := hH.lh.home b (List.mem_of_getElem? hb)
  have hne : ∀ {x}, sb.Inside x → x ≠ b := by
    rintro x hx rfl
    exact hbh hx
  have hentry : s.read (sb.logstart + tail + 1) = home b := by
    rw [h.log _ (LogArea.inside_entry hH.lh hb)]
    exact h.durable.entry_eq hH.head (hhead ▸ hb)
  have hstart : (s.installTrans sb tail b).disk sb.logstart = s.disk sb.logstart := by
    rw [disk_installTrans, update_of_ne (hH.start_ne hbh)]
  have hdisk : ∀ x, (s.installTrans sb tail b).disk x = if x = b then home b else s.disk x := by
    intro x
    rw [disk_installTrans, update_apply, hentry]
  have hread : ∀ x, (s.installTrans sb tail b).read x = if x = b then home b else s.read x := by
    intro x
    rw [read_installTrans, hentry]
  refine h.of_commit (x := .installing (tail + 1)) hO hu hp rfl rfl rfl ?_ (fun x hx => ?_)
    (fun x hx => ?_) (fun x hx hpin => ?_) (fun hx => (hx _ rfl).elim) (h.listed hu)
    (fun _ ht => by cases ht) fun tail' ht => ?_
  · show sb.Durable home (s.installTrans sb tail b).disk
    rw [disk_installTrans]
    exact h.durable.install hH.head (hhead ▸ hb) _
  · show (s.installTrans sb tail b).read x = (s.installTrans sb tail b).disk x
    rw [hread, hdisk, if_neg (hne hx), if_neg (hne hx), h.log x hx]
  · show (s.installTrans sb tail b).read x = _
    rw [hread]
    split_ifs with hxb
    · rw [hxb, hview]
    · exact h.seen hu x hx (hlogged x)
  · show (s.installTrans sb tail b).disk x = _
    rw [hdisk]
    split_ifs with hxb
    · rw [hxb, hview]
    · exact h.unpinned hu x hx ((update_of_ne hxb ..).symm.trans hpin)
  · obtain rfl := LogPc.installing.inj ht
    refine ⟨?_, hview, fun i hi x hx => ?_⟩
    · show ((s.installTrans sb tail b).disk sb.logstart).head = s.lh
      rw [hstart, hhead]
    · show (s.installTrans sb tail b).disk x = _
      rw [hdisk]
      split_ifs with hxb
      · rw [hxb]
      · rcases Nat.lt_succ_iff_lt_or_eq.1 hi with hi | rfl
        · exact hins i hi x hx
        · exact (hxb (Option.some.inj (hb.symm.trans hx)).symm).elim

/-- The group is erased from the log. -/
theorem erase {p : ι} (h : Crash sb home view s) (hO : Ops s) (hH : Header sb s) (hu : s.Up)
    (hpc : s.pc p = .installing s.lh.length) : Crash sb home view
      { s.eraseHead sb with pc := update s.pc p .committed } := by
  have hp : (s.pc p).commits = true := by rw [hpc]; rfl
  have hlogged := h.logged_of_commits hO hp
  obtain ⟨hhead, hview, hins⟩ := h.installed p _ hpc
  have hne : ∀ {x}, ¬sb.Inside x → x ≠ sb.logstart := fun hx => (hH.start_ne hx).symm
  have hhead' : ((s.eraseHead sb).disk sb.logstart).head = [] := by
    rw [disk_eraseHead, update_self, Block.head_putHead (by simp)]
  -- every block of the list is installed
  have hhome : ∀ x, ¬sb.Inside x → s.disk x = home x := by
    intro x hx
    by_cases hmem : x ∈ s.lh
    · obtain ⟨i, hi⟩ := List.mem_iff_getElem?.1 hmem
      exact hins i (List.getElem?_eq_some_iff.1 hi).1 x hi
    · exact h.durable.disk_eq hx (hhead ▸ hmem)
  refine h.of_commit (x := .committed) hO hu hp rfl rfl rfl ?_ (fun x hx => ?_) (fun x hx => ?_)
    (fun x hx _ => ?_) (fun _ => ⟨fun x hx => (by cases hx), hhead'⟩) (fun x _ => by rw [hview])
    (fun _ ht => by cases ht) fun _ ht => by cases ht
  · show sb.Durable home (s.eraseHead sb).disk
    rw [LogArea.Durable.iff_of_nil hhead']
    intro x hx
    rw [disk_eraseHead, update_of_ne (hne hx), hhome x hx]
  · show (s.eraseHead sb).read x = (s.eraseHead sb).disk x
    rw [read_eraseHead, disk_eraseHead, update_apply]
    split_ifs
    · rfl
    · exact h.log x hx
  · show (s.eraseHead sb).read x = _
    rw [read_eraseHead, if_neg (hne hx), h.seen hu x hx (hlogged x)]
  · show (s.eraseHead sb).disk x = _
    rw [disk_eraseHead, update_of_ne (hne hx), hhome x hx, hview]

/-- A buffer is recycled. -/
theorem evict (h : Crash sb home view s) (hb : s.Unheld b) (hp : s.pins b = 0) :
    Crash sb home view { s with cache := update s.cache b none } := by
  have hl : s.unlogged b = false := by
    by_contra hne
    obtain ⟨q, -, hq⟩ := h.changed b (by simpa using hne)
    exact hb q hq
  refine ⟨h.durable, fun x hx => ?_, fun hr => ⟨(h.down hr).1, fun x => ⟨?_, ((h.down hr).2 x).2⟩⟩,
    h.reinstalled, h.changed, fun hu x hx hl => ?_, h.unpinned, h.pinned, h.erased, h.listed,
    h.written, h.installed⟩
  · rw [read_evict]
    split_ifs with hxb
    · rw [hxb]
    · exact h.log x hx
  · rw [read_evict]
    split_ifs with hxb
    · rw [hxb]
    · exact ((h.down hr).2 x).1
  · rw [read_evict]
    split_ifs with hxb
    · rw [← hxb]
      exact h.unpinned hu x hx (hxb ▸ hp)
    · exact h.seen hu x hx hl

/-- The recovery goes on. -/
theorem of_down (hO : Ops t) (hr : t.recovery ≠ .up) (hdur : sb.Durable home t.disk)
    (hread : ∀ b, t.read b = t.disk b) (hun : ∀ b, t.unlogged b = false)
    (hre : ∀ tail, t.recovery = .installing tail → ∀ i < tail, ∀ b, t.lh[i]? = some b →
      t.disk b = t.disk (sb.logstart + i + 1)) : Crash sb home home t := by
  have hpc := hO.starting hr
  refine ⟨hdur, fun b _ => hread b, fun _ => ⟨rfl, fun b => ⟨hread b, hun b⟩⟩, hre, ?_,
    fun hu => (hr hu.1).elim, fun hu => (hr hu.1).elim, fun hu => (hr hu.1).elim,
    fun hu => (hr hu.1).elim, fun hu => (hr hu.1).elim, ?_, ?_⟩
  · simp [hun]
  · simp [hpc]
  · simp [hpc]

theorem readHead (h : Crash sb home view s) (hO : Ops s) (hr : s.recovery = .readHead) :
    Crash sb home view { s.load sb.logstart with
      lh := (s.read sb.logstart).head, recovery := .installing 0 } := by
  have hne : s.recovery ≠ .up := by simp [hr]
  obtain ⟨rfl, hdown⟩ := h.down hne
  refine of_down (hO.of_eq rfl rfl rfl (fun _ => hne) (.inl rfl)) (by simp) h.durable
    (fun b => ?_) (fun b => (hdown b).2) fun tail ht i hi => ?_
  · exact (read_load ..).trans (hdown b).1
  · obtain rfl := RecoveryPc.installing.inj ht
    exact (Nat.not_lt_zero i hi).elim

theorem reinstall {tail : ℕ} (h : Crash sb home view s) (hO : Ops s) (hH : Header sb s)
    (hr : s.recovery = .installing tail) (hb : s.lh[tail]? = some b) :
    Crash sb home view { s.installTrans sb tail b with recovery := .installing (tail + 1) } := by
  have hne : s.recovery ≠ .up := by simp [hr]
  obtain ⟨rfl, hdown⟩ := h.down hne
  have hlh := hH.recovering tail hr
  have hbh := hH.lh.home b (List.mem_of_getElem? hb)
  -- the blocks of the log stay
  have hlog : ∀ {i x}, s.lh[i]? = some x → (s.installTrans sb tail b).disk (sb.logstart + i + 1) =
      s.disk (sb.logstart + i + 1) := by
    intro i x hx
    rw [disk_installTrans, update_of_ne]
    intro heq
    exact hbh (heq ▸ LogArea.inside_entry hH.lh hx)
  refine of_down (hO.of_eq rfl rfl rfl (fun _ => hne) (.inl rfl)) (by simp) ?_ (fun x => ?_)
    (fun x => (hdown x).2) fun tail' ht i hi x hx => ?_
  · show sb.Durable _ (s.installTrans sb tail b).disk
    rw [disk_installTrans]
    exact h.durable.install hH.head (hlh ▸ hb) _
  · show (s.installTrans sb tail b).read x = (s.installTrans sb tail b).disk x
    rw [read_installTrans, disk_installTrans, update_apply, (hdown x).1]
  · obtain rfl := RecoveryPc.installing.inj ht
    show (s.installTrans sb tail b).disk x = (s.installTrans sb tail b).disk _
    rw [hlog hx, disk_installTrans, update_apply, (hdown _).1]
    rcases Nat.lt_succ_iff_lt_or_eq.1 hi with hlt | rfl
    · -- the list names each block once
      have hxb : x ≠ b := by
        rintro rfl
        have := (List.getElem?_inj (List.getElem?_eq_some_iff.1 hx).1 hH.lh.nodup).1 (hx.trans hb.symm)
        omega
      rw [if_neg hxb]
      exact h.reinstalled tail hr i hlt x hx
    · rw [if_pos (Option.some.inj (hb.symm.trans hx)).symm]

theorem reerase {tail : ℕ} (h : Crash sb home view s) (hO : Ops s) (hH : Header sb s)
    (hr : s.recovery = .installing tail) (hb : s.lh[tail]? = none) :
    Crash sb home view { s.eraseHead sb with recovery := .up } := by
  have hne : s.recovery ≠ .up := by simp [hr]
  obtain ⟨rfl, hdown⟩ := h.down hne
  have hpc := hO.starting hne
  have hlh := hH.recovering tail hr
  have hstart : ∀ {x}, ¬sb.Inside x → x ≠ sb.logstart := fun hx => (hH.start_ne hx).symm
  have hhead : ((s.eraseHead sb).disk sb.logstart).head = [] := by
    rw [disk_eraseHead, update_self, Block.head_putHead (by simp)]
  have hhome : ∀ x, ¬sb.Inside x → (s.eraseHead sb).disk x = view x := by
    intro x hx
    rw [disk_eraseHead, update_of_ne (hstart hx)]
    refine h.durable.disk_eq_of_installed (fun i y hy => ?_) hx
    rw [← hlh] at hy
    have := (List.getElem?_eq_some_iff.1 hy).1
    exact h.reinstalled tail hr i (this.trans_le (List.getElem?_eq_none_iff.1 hb)) y hy
  have hread : ∀ x, (s.eraseHead sb).read x = (s.eraseHead sb).disk x := by
    intro x
    rw [read_eraseHead, disk_eraseHead, update_apply, (hdown x).1]
  refine ⟨(LogArea.Durable.iff_of_nil hhead).2 hhome, fun x _ => hread x, fun hr => (hr rfl).elim,
    fun tail hr => (by cases hr), fun x hx => ?_, fun _ x hx _ => (hread x).trans (hhome x hx),
    fun _ x hx _ => hhome x hx, fun _ _ x hx => (by cases hx), fun _ _ => hhead, fun _ x _ => rfl,
    fun q tail hq => ?_, fun q tail hq => ?_⟩
  · have := (hdown x).2.symm.trans hx
    cases this
  · have := (hpc q).symm.trans hq
    cases this
  · have := (hpc q).symm.trans hq
    cases this

end Crash

/-! ## Runs -/

variable {j : Journal ι}

theorem home_writeHead (p : ι) : (j.record (.writeHead p)).home disk = j.view disk := by
  simp [Journal.home, Journal.view, Journal.record, Journal.writes, Redo.apply_append]

theorem view_writeHead (p : ι) : (j.record (.writeHead p)).view disk = j.view disk := by
  rw [Journal.view, home_writeHead]
  rfl

theorem view_logWrite (p : ι) (b : ℕ) (d : Block) :
    (j.record (.logWrite p b d)).view disk = update (j.view disk) b d := by
  simp [Journal.view, Journal.home, Journal.record, Journal.writes, Redo.apply_append]

namespace Crash

theorem update_pc_iff {p q : ι} {x y : LogPc} (hp : s.pc p ≠ y) (hx : x ≠ y) :
    update s.pc p x q = y ↔ s.pc q = y := by
  rw [update_apply]
  split_ifs with hqp
  · rw [hqp]
    exact iff_of_false hx hp
  · rfl

/-- A process that writes nothing to the disk goes to `x`. -/
theorem goto {p : ι} {x : LogPc} (h : Crash sb home view s) (hu : s.Up)
    (hp : ∀ tail, s.pc p ≠ .installing tail ∧ s.pc p ≠ .writing (tail + 1))
    (hpc : t.pc = update s.pc p x) (hx : ∀ tail, x ≠ .installing tail ∧ x ≠ .writing (tail + 1))
    (hdisk : t.disk = s.disk) (hcache : t.cache = s.cache) (hlh : t.lh = s.lh)
    (hpins : t.pins = s.pins) (hrec : t.recovery = s.recovery) (hheld : t.held = s.held)
    (hun : t.unlogged = s.unlogged)
    (hout : s.pc p = .inOp → x = .inOp ∨ ∀ b ∈ s.held p, s.unlogged b = false) :
    Crash sb home view t := by
  refine h.of_eq hu hdisk hlh hpins hrec (fun b _ => ?_) (fun b hb => hun ▸ hb) (fun b hb => ?_)
    (fun q tail hq => ?_) fun q tail => ?_
  · simp [read, hcache, hdisk]
  · rw [hun] at hb
    obtain ⟨q, hq, hbq⟩ := h.changed b hb
    refine ⟨q, ?_, hheld ▸ hbq⟩
    rw [hpc, update_apply]
    split_ifs with hqp
    · subst hqp
      refine (hout hq).resolve_right fun hall => ?_
      rw [hall b hbq] at hb
      cases hb
    · exact hq
  · rw [hpc] at hq
    exact (update_pc_iff (hp tail).2 (hx tail).2).1 hq
  · rw [hpc]
    exact update_pc_iff (hp tail).1 (hx tail).1

theorem step (h : Crash sb (j.home disk) (j.view disk) s) (hO : Ops s) (hH : Header sb s)
    (hs : s.Moves sb e t) :
    Crash sb ((j.record e).home disk) ((j.record e).view disk) t := by
  cases hs with
  | beginOp p hu hpc =>
    exact h.goto hu (by simp [hpc]) rfl (by simp) rfl rfl rfl rfl rfl rfl rfl fun _ => .inl rfl
  | bread p b hu =>
    refine h.of_eq hu rfl rfl rfl rfl (fun x _ => read_load b x) (fun _ => id) (fun x hx => ?_)
      (fun _ _ => id) fun _ _ => Iff.rfl
    obtain ⟨q, hq, hxq⟩ := h.changed x hx
    refine ⟨q, hq, ?_⟩
    by_cases hqp : q = p
    · subst hqp
      simp [hxq]
    · simpa [hqp] using hxq
  | modify p b d hu hpc hb hin =>
    refine h.of_eq hu rfl rfl rfl rfl (fun x hx => ?_) (fun x hx => ?_) (fun x hx => ?_)
      (fun _ _ => id) fun _ _ => Iff.rfl
    · have hxb : x ≠ b := by
        rintro rfl
        rcases hx with hx | hx
        · exact hin hx
        · simp at hx
      simp [read, hxb]
    · by_cases hxb : x = b
      · simp [hxb] at hx
      · simpa [hxb] using hx
    · by_cases hxb : x = b
      · exact ⟨p, hpc, hxb ▸ hb⟩
      · exact h.changed x (by simpa [hxb] using hx)
  | tooBig p b hu hpc | outside p b hu hpc =>
    rw [view_logWrite]
    exact h.logWrite hO hu hpc rfl rfl rfl rfl rfl (fun _ => id) (fun ht => by cases ht.2)
      fun ht => by cases ht.2
  | absorb p b hu hpc hb hin hn hlh =>
    rw [view_logWrite]
    refine h.logWrite hO hu hpc rfl rfl rfl rfl rfl (fun x hx => ?_)
      (fun _ x hxb => ⟨by simp [hxb], rfl, Iff.rfl⟩)
      fun _ => ⟨h.pinned hu (noInstall_of_inOp hO hpc) b hlh, hlh⟩
    by_cases hxb : x = b
    · simp [hxb] at hx
    · simpa [hxb] using hx
  | append p b hu hpc hb hin hn hlh =>
    rw [view_logWrite]
    refine h.logWrite hO hu hpc rfl rfl rfl rfl rfl (fun x hx => ?_)
      (fun _ x hxb => ⟨by simp [hxb], by simp [hxb], by simp [hxb]⟩) fun _ => ⟨by simp, by simp⟩
    by_cases hxb : x = b
    · simp [hxb] at hx
    · simpa [hxb] using hx
  | brelse p b hu hb hd =>
    refine h.of_eq hu rfl rfl rfl rfl (fun _ _ => rfl) (fun _ => id) (fun x hx => ?_)
      (fun _ _ => id) fun _ _ => Iff.rfl
    obtain ⟨q, hq, hxq⟩ := h.changed x hx
    refine ⟨q, hq, ?_⟩
    have hxb : x ≠ b := by
      rintro rfl
      rw [show s.unlogged x = true from hx] at hd
      cases hd
    by_cases hqp : q = p
    · subst hqp
      simpa [List.mem_erase_of_ne hxb] using hxq
    · simpa [hqp] using hxq
  | endTwice p hu hpc hc =>
    rw [hO.not_committing hpc] at hc
    cases hc
  | endLast p hu hpc hd hc ho =>
    refine h.goto hu (by simp [hpc]) rfl (fun tail => ?_) rfl rfl rfl rfl rfl rfl rfl
      fun _ => .inr hd
    split_ifs <;> simp
  | endOp p hu hpc hd =>
    exact h.goto hu (by simp [hpc]) rfl (by simp) rfl rfl rfl rfl rfl rfl rfl fun _ => .inr hd
  | writeLog p tail b hu hpc hb => exact h.writeLog hO hH hu hpc hb
  | writeHead p hu hpc =>
    rw [home_writeHead, view_writeHead]
    exact h.writeHead hO hH hu hpc
  | install p tail b hu hpc hb => exact h.install hO hH hu hpc hb
  | erase p hu hpc => exact h.erase hO hH hu hpc
  | finish p hu hpc =>
    refine h.goto hu (by simp [hpc]) rfl (by simp) rfl rfl rfl rfl rfl rfl rfl
      fun hin => ?_
    rw [hpc] at hin
    cases hin
  | evict b hb hp => exact h.evict hb hp
  | crash => exact .boot h.durable
  | readHead hr => exact h.readHead hO hr
  | reinstall tail b hr hb => exact h.reinstall hO hH hr hb
  | reerase tail hr hb => exact h.reerase hO hH hr hb

theorem run (hdisk : sb.Fits (disk sb.logstart).head)
    (h : Run (Step sb) (LogState.boot disk) es s) :
    Crash sb ((journal es).home (Redo.apply (sb.redo disk) disk))
      ((journal es).view (Redo.apply (sb.redo disk) disk)) s := by
  induction h with
  | nil => exact .boot fun _ _ => rfl
  | snoc hr hs ih =>
    rw [journal, List.foldl_concat]
    exact ih.step (.run hr) (.run (Nat.zero_lt_of_lt hdisk.room) hdisk hr) (moves_of_step hs)

end Crash

/-- When no commit is in progress every block is in place. -/
theorem Crash.disk_eq (h : Crash sb home view s) (hO : Ops s) (hu : s.Up)
    (hc : s.committing = false) (hb : ¬sb.Inside b) : s.disk b = home b := by
  have hno : s.NoInstall := by
    intro p tail hp
    have := hO.committing.2 ⟨p, by rw [hp]; rfl⟩
    rw [hc] at this
    cases this
  exact (LogArea.Durable.iff_of_nil (h.erased hu hno)).1 h.durable b hb

/-! ## Operations are not split -/

/-- An operation in progress has nothing in a committed group and has lost nothing, and no
operation is in two of the committed groups, the current group and what was lost. -/
structure Whole (j : Journal ι) (s : LogState ι) : Prop where
  next : ∀ x ∈ j.groups.flatten ++ j.group ++ j.lost, x.op < j.next
  current : ∀ p, s.pc p = .inOp → j.op p < j.next ∧
    ¬Journal.Logged (j.op p) (j.groups.flatten ++ j.lost)
  group : ∀ k, Journal.Logged k j.group → ¬Journal.Logged k (j.groups.flatten ++ j.lost)
  lost : ∀ k, Journal.Logged k j.groups.flatten → ¬Journal.Logged k j.lost

namespace Whole

theorem logged_append {k : ℕ} {xs ys : List LogEntry} :
    Journal.Logged k (xs ++ ys) ↔ Journal.Logged k xs ∨ Journal.Logged k ys := by
  simp only [Journal.Logged, List.mem_append]
  grind

theorem boot : Whole Journal.empty (boot disk : LogState ι) := by
  refine ⟨?_, ?_, ?_, ?_⟩ <;> simp [Journal.empty, Journal.Logged, LogState.boot]

theorem step (h : Whole j s) (hO : Ops s) (hs : s.Moves sb e t) : Whole (j.record e) t := by
  have hkeep : (∀ p, t.pc p = .inOp → s.pc p = .inOp) → Whole j t :=
    fun hpc => ⟨h.next, fun p hp => h.current p (hpc p hp), h.group, h.lost⟩
  have hupdate : ∀ {p : ι} {x : LogPc}, x ≠ .inOp → ∀ q, update s.pc p x q = .inOp →
      s.pc q = .inOp := by
    intro p x hx q hq
    rw [update_apply] at hq
    split_ifs at hq with hqp
    · exact (hx hq).elim
    · exact hq
  have hlog : ∀ {p : ι} (b : ℕ) (d : Block), s.pc p = .inOp → t.pc = s.pc →
      Whole (j.record (.logWrite p b d)) t := by
    intro p b d hp hpc
    obtain ⟨hnext, hcur⟩ := h.current p hp
    refine ⟨fun x hx => ?_, fun q hq => h.current q (hpc ▸ hq), fun k hk => ?_, h.lost⟩
    · have hx : x ∈ j.groups.flatten ++ (j.group ++ [⟨j.op p, b, d⟩]) ++ j.lost := hx
      simp only [List.mem_append, List.mem_singleton] at hx
      rcases hx with (hx | hx | rfl) | hx
      · exact h.next x (by simp [hx])
      · exact h.next x (by simp [hx])
      · exact hnext
      · exact h.next x (by simp [hx])
    · obtain ⟨x, hx, rfl⟩ := hk
      rcases List.mem_append.1 hx with hx | hx
      · exact h.group _ ⟨x, hx, rfl⟩
      · rw [List.mem_singleton.1 hx]
        exact hcur
  cases hs with
  | beginOp p hu hpc =>
    refine ⟨fun x hx => (h.next x hx).trans (Nat.lt_succ_self _), fun q hq => ?_, h.group, h.lost⟩
    by_cases hqp : q = p
    · subst hqp
      simp only [Journal.record, update_self]
      refine ⟨Nat.lt_succ_self _, ?_⟩
      rintro ⟨x, hx, hxk⟩
      have := h.next x (by
        rcases List.mem_append.1 hx with hx | hx <;> simp [hx])
      omega
    · have hq : s.pc q = .inOp := by simpa [hqp] using hq
      simp only [Journal.record, update_of_ne hqp]
      exact ⟨(h.current q hq).1.trans (Nat.lt_succ_self _), (h.current q hq).2⟩
  | tooBig p b hu hpc | outside p b hu hpc | absorb p b hu hpc | append p b hu hpc =>
    exact hlog b _ hpc rfl
  | writeHead p hu hpc =>
    have hquiet := hO.quiet (hO.committing.2 ⟨p, by rw [hpc]; rfl⟩)
    have hflat : (j.groups ++ [j.group]).flatten = j.groups.flatten ++ j.group := by simp
    refine ⟨fun x hx => h.next x ?_, fun q hq => (hquiet q (hupdate (by simp) q hq)).elim,
      fun k hk => ?_, fun k hk => ?_⟩
    · simpa [Journal.record] using hx
    · obtain ⟨x, hx, -⟩ := hk
      cases hx
    · rcases logged_append.1 (hflat ▸ hk : Journal.Logged k (j.groups.flatten ++ j.group)) with
        hk | hk
      · exact h.lost k hk
      · exact fun hl => h.group k hk (logged_append.2 (.inr hl))
  | crash =>
    refine ⟨fun x hx => h.next x ?_, fun q hq => (by cases hq), fun k hk => ?_, fun k hk => ?_⟩
    · have hx : x ∈ j.groups.flatten ++ [] ++ (j.lost ++ j.group) := hx
      simp only [List.mem_append, List.not_mem_nil, or_false] at hx ⊢
      rcases hx with hx | hx | hx <;> simp [hx]
    · obtain ⟨x, hx, -⟩ := hk
      cases hx
    · show ¬Journal.Logged k (j.lost ++ j.group)
      rw [logged_append, not_or]
      exact ⟨h.lost k hk, fun hg => h.group k hg (logged_append.2 (.inl hk))⟩
  | endLast => exact hkeep (hupdate (by split_ifs <;> simp))
  | endOp | writeLog | install | erase | finish => exact hkeep (hupdate (by simp))
  | _ => exact hkeep fun _ => id

theorem run (h : Run (Step sb) (LogState.boot disk) es s) : Whole (journal es) s := by
  induction h with
  | nil => exact .boot
  | snoc hr hs ih =>
    rw [journal, List.foldl_concat]
    exact ih.step (.run hr) (moves_of_step hs)

end Whole

/-! ## Recovery -/

theorem recovery_last {tail : ℕ} (hr : s.recovery = .installing tail)
    (hb : s.lh[tail]? = none) :
    ∃ n t, Run (Step sb) s (List.replicate n .recover) t ∧ t.recovery = .up := by
  have hstep : Step sb s .recover { s.eraseHead sb with recovery := .up } := by
    simp [Step, move, recover, hr, hb]
  exact ⟨1, _, .snoc .nil hstep, rfl⟩

/-- With `m` blocks or fewer to install, the recovery comes to its end. -/
theorem recovery_ends {tail : ℕ} (m : ℕ) (hr : s.recovery = .installing tail)
    (hm : s.lh.length ≤ tail + m) :
    ∃ n t, Run (Step sb) s (List.replicate n .recover) t ∧ t.recovery = .up := by
  induction m generalizing s tail with
  | zero => exact recovery_last hr (List.getElem?_eq_none_iff.2 hm)
  | succ m ih =>
    cases hb : s.lh[tail]? with
    | none => exact recovery_last hr hb
    | some b =>
      let u : LogState ι := { s.installTrans sb tail b with recovery := .installing (tail + 1) }
      have hstep : Step sb s .recover u := by simp [Step, move, recover, hr, hb, u]
      have hlen : u.lh.length ≤ tail + 1 + m := by
        show s.lh.length ≤ _
        omega
      obtain ⟨n, t, hrun, ht⟩ := ih (s := u) rfl hlen
      exact ⟨n + 1, t, hrun.cons hstep, ht⟩

theorem recovery_from_boot :
    ∃ n t, Run (Step sb) (boot disk : LogState ι) (List.replicate n .recover) t ∧
      t.recovery = .up := by
  let u : LogState ι := { (boot disk).load sb.logstart with
    lh := ((boot disk : LogState ι).read sb.logstart).head, recovery := .installing 0 }
  have hstep : Step sb (boot disk) .recover u := rfl
  obtain ⟨n, t, hrun, ht⟩ : ∃ n t, Run (Step sb) u (List.replicate n .recover) t ∧
      t.recovery = .up := recovery_ends u.lh.length rfl (by omega)
  exact ⟨n + 1, t, hrun.cons hstep, ht⟩

/-- Crashes and moves of the recovery leave the committed groups, and there is no panic and no
commit. -/
theorem restart {es' : List (LogEvent ι)} (hes : ∀ e ∈ es', e = .crash ∨ e = .recover)
    (h : Run (Step sb) (boot disk) es' t) (j : Journal ι) :
    t.panic = none ∧ t.committing = false ∧ (es'.foldl Journal.record j).groups = j.groups := by
  induction h with
  | nil => exact ⟨rfl, rfl, rfl⟩
  | @snoc es s t e hr hs ih =>
    obtain ⟨hp, hc, hg⟩ := ih fun e he => hes e (List.mem_append_left _ he)
    rw [List.foldl_concat]
    have hm := moves_of_step hs
    rcases hes e (by simp) with rfl | rfl
    · cases hm with
      | crash => exact ⟨rfl, rfl, hg⟩
    · cases hm with
      | readHead | reinstall | reerase => exact ⟨hp, hc, hg⟩

/-- If the machine crashes at any moment, the recovery can come to its end, and whenever it
does, after any number of further crashes, the blocks are what the operations of the groups
make of them whose `write_head` was written. No operation has logged blocks both in these
groups and elsewhere. -/
theorem crash_atomic (hdisk : sb.Fits (disk sb.logstart).head)
    (h : Run (Step sb) (boot disk) es s) :
    (∃ n t, Run (Step sb) s (.crash :: List.replicate n .recover) t ∧ t.recovery = .up) ∧
    (∀ es' t, (∀ e ∈ es', e = .crash ∨ e = .recover) → Run (Step sb) s (.crash :: es') t →
      t.recovery = .up → ∀ b, ¬sb.Inside b →
        t.disk b = (journal es).home (Redo.apply (sb.redo disk) disk) b) ∧
    ∀ k, Journal.Logged k (journal es).groups.flatten →
      ¬Journal.Logged k ((journal es).group ++ (journal es).lost) := by
  have hcrash : Step sb s .crash (boot s.disk) := rfl
  refine ⟨?_, fun es' t hes hrun hup b hb => ?_, fun k hk hl => ?_⟩
  · obtain ⟨n, t, hrun, ht⟩ : ∃ n t, Run (Step sb) (boot s.disk : LogState ι)
        (List.replicate n .recover) t ∧ t.recovery = .up := recovery_from_boot
    exact ⟨n, t, hrun.cons hcrash, ht⟩
  · have hall := h.append hrun
    rcases hrun.cons_cases with ⟨hnil, -⟩ | ⟨e, u, es'', heq, hstep, hrun'⟩
    · cases hnil
    obtain ⟨rfl, rfl⟩ := List.cons.inj heq
    obtain rfl : boot s.disk = u := Option.some.inj hstep
    obtain ⟨hp, hc, hg⟩ := restart hes hrun' ((journal es).record .crash)
    have hgroups : (journal (es ++ .crash :: es')).groups = (journal es).groups := by
      rw [journal, List.foldl_append, List.foldl_cons]
      exact hg
    rw [(Crash.run hdisk hall).disk_eq (.run hall) ⟨hup, hp⟩ hc hb, Journal.home, hgroups]
    rfl
  · have hW := Whole.run h
    rcases Whole.logged_append.1 hl with hl | hl
    · exact hW.group k hl (Whole.logged_append.2 (.inl hk))
    · exact hW.lost k hk hl

/-- A process logs a block, and its group is committed. -/
def commitOne (p : ι) (b : ℕ) (d : Block) : List (LogEvent ι) :=
  [.recover, .recover, .beginOp p, .bread p b, .modify p b d, .logWrite p b d, .brelse p b,
  .endOp p, .writeLog p, .writeHead p]

/-- The block is not installed when the machine crashes, and there after the recovery. -/
theorem crash_atomic_one : ∃ s : LogState (Fin 1),
    Run (Step mkfsLog) (boot fun _ _ => 0) (commitOne 0 100 fun _ => 7) s ∧ s.disk 100 0 = 0 ∧
    ∃ n t, Run (Step mkfsLog) s (.crash :: List.replicate n .recover) t ∧ t.disk 100 0 = 7 := by
  have h : ∃ s ∈ exec (move mkfsLog) (boot fun _ _ => 0) (commitOne (0 : Fin 1) 100 fun _ => 7),
      s.disk 100 0 = 0 := by decide +kernel
  obtain ⟨s, hs, hd⟩ := h
  have hfit : mkfsLog.Fits (Block.head fun _ => 0) := ⟨by decide, by decide, by decide, by decide⟩
  have hboot := run_of_exec hs
  obtain ⟨⟨n, t, hrun, hup⟩, hall, -⟩ := crash_atomic hfit hboot
  refine ⟨s, run_of_exec hs, hd, n, t, hrun, ?_⟩
  rw [hall _ t (by simp) hrun hup 100 (by decide)]
  rfl

end LogState

end CowPbs
