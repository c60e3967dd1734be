import Mathlib
import CowPbs.Log

/-!
# The space in the log

`begin_op` lets an operation in if there is room in the log for `MAXOPBLOCKS` blocks of each
operation that has been let in, and `log_write` panics if there is none for one more block.
`Ops` is what every run keeps of `outstanding` and `committing`, and `Reserved` is what the
reservations of `begin_op` come to : with one block more than `LOGSIZE` for the header no run
panics (`fits`). The log that mkfs makes has `LOGSIZE` blocks with the header, so that
`log_write` panics when there is room for one block left (`admitted_fit`).
-/

set_option linter.unusedSectionVars false

open Function Transition

namespace CowPbs

/-- The process is in `commit`, or at the end of `end_op` after it. -/
def LogPc.commits : LogPc → Bool
  | idle | inOp => false
  | writing _ | installing _ | committed => true

/-- The move is a `log_write`. -/
def LogEvent.logs {ι : Type} : LogEvent ι → Bool
  | logWrite .. => true
  | beginOp _ | bread .. | modify .. | brelse .. | endOp _ | writeLog _ | writeHead _ | install _
  | erase _ | finish _ | evict _ | crash | recover => false

/-- Different blocks with their homes outside the log, for which there is room in it. -/
structure LogArea.Fits (sb : LogArea) (lh : List ℕ) : Prop where
  nodup : lh.Nodup
  home : ∀ b ∈ lh, ¬sb.Inside b
  short : lh.length ≤ LOGSIZE
  room : lh.length < sb.nlog

theorem LogArea.Fits.start_notMem {sb : LogArea} {lh : List ℕ} (h : sb.Fits lh) :
    sb.logstart ∉ lh := by
  intro hmem
  have := h.room
  exact h.home _ hmem ⟨le_rfl, by omega⟩

namespace LogState

variable {ι : Type} [DecidableEq ι] [Fintype ι] {sb : LogArea} {s t : LogState ι}
  {es : List (LogEvent ι)} {e : LogEvent ι} {disk : ℕ → Block}

/-! ## What the operations write -/

/-- The blocks that the operation of `p` has logged after a move, with those before it. -/
def opNext (p : ι) (bs : Finset ℕ) : LogEvent ι → Finset ℕ
  | .beginOp q => if q = p then ∅ else bs
  | .logWrite q b _ => if q = p then insert b bs else bs
  | .crash => ∅
  | .bread .. | .modify .. | .brelse .. | .endOp _ | .writeLog _ | .writeHead _ | .install _
  | .erase _ | .finish _ | .evict _ | .recover => bs

/-- The blocks that the operation of `p` has logged. -/
def opBlocks (p : ι) (es : List (LogEvent ι)) : Finset ℕ :=
  es.foldl (opNext p) ∅

/-- The blocks that the operations of the group have logged after a move. -/
def groupNext (bs : Finset ℕ) : LogEvent ι → Finset ℕ
  | .logWrite _ b _ => insert b bs
  | .erase _ | .crash => ∅
  | .beginOp _ | .bread .. | .modify .. | .brelse .. | .endOp _ | .writeLog _ | .writeHead _
  | .install _ | .finish _ | .evict _ | .recover => bs

/-- The blocks that the operations of the group have logged. -/
def groupBlocks (es : List (LogEvent ι)) : Finset ℕ :=
  es.foldl groupNext ∅

theorem opBlocks_append (p : ι) : opBlocks p (es ++ [e]) = opNext p (opBlocks p es) e :=
  List.foldl_concat ..

theorem groupBlocks_append : groupBlocks (es ++ [e]) = groupNext (groupBlocks es) e :=
  List.foldl_concat ..

/-- An operation logs at most `MAXOPBLOCKS` different blocks. -/
def Modest (pre : List (LogEvent ι)) (e : LogEvent ι) : Prop :=
  ∀ p, (opBlocks p (pre ++ [e])).card ≤ MAXOPBLOCKS

instance (pre : List (LogEvent ι)) (e : LogEvent ι) : Decidable (Modest pre e) :=
  inferInstanceAs (Decidable (∀ _, _))

/-- A block is logged when the operations of the group have logged fewer than `LOGSIZE - 1`
different blocks. -/
def Roomy (pre : List (LogEvent ι)) (e : LogEvent ι) : Prop :=
  e.logs = true → (groupBlocks pre).card < LOGSIZE - 1

instance (pre : List (LogEvent ι)) (e : LogEvent ι) : Decidable (Roomy pre e) :=
  inferInstanceAs (Decidable (_ → _))

/-! ## Operations and commits -/

/-- The operations that are let in, and the process that commits. -/
structure Ops (s : LogState ι) : Prop where
  outstanding : s.outstanding = (Finset.univ.filter fun p => s.pc p = .inOp).card
  alone : ∀ p q, (s.pc p).commits = true → (s.pc q).commits = true → p = q
  committing : s.committing = true ↔ ∃ p, (s.pc p).commits = true
  quiet : s.committing = true → ∀ p, s.pc p ≠ .inOp
  starting : s.recovery ≠ .up → ∀ p, s.pc p = .idle
  panic : s.panic = none ∨ s.panic = some .tooBig

namespace Ops

theorem boot : Ops (boot disk : LogState ι) := by
  refine ⟨?_, ?_, ?_, ?_, ?_, ?_⟩ <;> simp [LogState.boot, LogPc.commits]

theorem inOp_pos {p : ι} (h : Ops s) (hp : s.pc p = .inOp) : 1 ≤ s.outstanding := by
  rw [h.outstanding]
  have : 0 < (Finset.univ.filter fun p => s.pc p = .inOp).card :=
    Finset.card_pos.2 ⟨p, by simp [hp]⟩
  omega

/-- There is no commit while an operation is in progress. -/
theorem not_committing {p : ι} (h : Ops s) (hp : s.pc p = .inOp) : s.committing = false := by
  by_contra hc
  exact h.quiet (by simpa using hc) p hp

/-- A move that changes neither the flags nor where the processes are. -/
theorem of_eq (h : Ops s) (ho : t.outstanding = s.outstanding)
    (hc : t.committing = s.committing) (hpc : t.pc = s.pc)
    (hr : t.recovery ≠ .up → s.recovery ≠ .up)
    (hp : t.panic = s.panic ∨ t.panic = some .tooBig) : Ops t := by
  refine ⟨?_, ?_, ?_, ?_, ?_, ?_⟩
  · rw [ho, hpc]
    exact h.outstanding
  · rw [hpc]
    exact h.alone
  · rw [hc, hpc]
    exact h.committing
  · rw [hc, hpc]
    exact h.quiet
  · rw [hpc]
    exact fun hup => h.starting (hr hup)
  · rcases hp with hp | hp
    · rw [hp]
      exact h.panic
    · exact .inr hp

/-- The process that commits goes on. -/
theorem goOn {p : ι} {x : LogPc} (h : Ops s) (hp : (s.pc p).commits = true)
    (hx : x.commits = true) (ho : t.outstanding = s.outstanding)
    (hc : t.committing = s.committing) (hpc : t.pc = update s.pc p x)
    (hr : t.recovery = s.recovery) (hpa : t.panic = s.panic) : Ops t := by
  have hcomm : s.committing = true := h.committing.2 ⟨p, hp⟩
  have hcommits : ∀ q, (t.pc q).commits = (s.pc q).commits := by
    intro q
    rw [hpc, update_apply]
    split_ifs with hqp
    · rw [hx, hqp, hp]
    · rfl
  have hin : ∀ q, t.pc q ≠ .inOp := by
    intro q
    rw [hpc, update_apply]
    split_ifs with hqp
    · rintro rfl
      cases hx
    · exact h.quiet hcomm q
  refine ⟨?_, fun q r hq hr => ?_, ?_, fun _ => hin, fun hup q => ?_, hpa ▸ h.panic⟩
  · rw [ho, h.outstanding]
    congr 2
    ext q
    simp [hin q, h.quiet hcomm q]
  · rw [hcommits] at hq hr
    exact h.alone q r hq hr
  · simp only [hc, hcommits]
    exact h.committing
  · have := h.starting (hr ▸ hup) p
    rw [this] at hp
    cases hp

theorem filter_update_inOp (p : ι) (f : ι → LogPc) :
    (Finset.univ.filter fun q => update f p .inOp q = .inOp) =
      insert p (Finset.univ.filter fun q => f q = .inOp) := by
  ext q
  by_cases hqp : q = p <;> simp [hqp]

theorem filter_update_of_ne {x : LogPc} (hx : x ≠ .inOp) (p : ι) (f : ι → LogPc) :
    (Finset.univ.filter fun q => update f p x q = .inOp) =
      (Finset.univ.filter fun q => f q = .inOp).erase p := by
  ext q
  by_cases hqp : q = p <;> simp [hqp, hx]

/-- An operation is let in. -/
theorem beginOp {p : ι} (h : Ops s) (hu : s.Up) (hpc : s.pc p = .idle)
    (hc : s.committing = false) :
    Ops { s with outstanding := s.outstanding + 1, pc := update s.pc p .inOp } := by
  have hcommits : ∀ q, (update s.pc p .inOp q).commits = (s.pc q).commits := by
    intro q
    rw [update_apply]
    split_ifs with hqp
    · rw [hqp, hpc]
      rfl
    · rfl
  refine ⟨?_, fun q r hq hr => ?_, ?_, fun hc' => ?_, fun hup => (hup hu.1).elim, h.panic⟩
  · have hp : p ∉ Finset.univ.filter fun q => s.pc q = .inOp := by simp [hpc]
    simp [filter_update_inOp, Finset.card_insert_of_notMem hp, h.outstanding]
  · exact h.alone q r (hcommits q ▸ hq) (hcommits r ▸ hr)
  · simp only [hcommits]
    exact h.committing
  · have hc' : s.committing = true := hc'
    rw [hc] at hc'
    cases hc'

/-- An operation ends, and the process goes to `x`. -/
theorem card_end {p : ι} {x : LogPc} (h : Ops s) (hpc : s.pc p = .inOp) (hx : x ≠ .inOp) :
    s.outstanding - 1 = (Finset.univ.filter fun q => update s.pc p x q = .inOp).card := by
  have hp : p ∈ Finset.univ.filter fun q => s.pc q = .inOp := by simp [hpc]
  have hpos := h.inOp_pos hpc
  rw [h.outstanding] at hpos ⊢
  rw [filter_update_of_ne hx, Finset.card_erase_of_mem hp]
  omega

/-- No process commits when an operation is in progress. -/
theorem commits_eq_false {p : ι} (h : Ops s) (hpc : s.pc p = .inOp) (q : ι) :
    (s.pc q).commits = false := by
  by_contra hq
  have := h.committing.2 ⟨q, by simpa using hq⟩
  rw [h.not_committing hpc] at this
  cases this

/-- The last operation ends, and its process commits. -/
theorem endLast {p : ι} {x : LogPc} (h : Ops s) (hu : s.Up) (hpc : s.pc p = .inOp)
    (ho : s.outstanding = 1) (hx : x.commits = true) :
    Ops { s with
      outstanding := s.outstanding - 1, committing := true, pc := update s.pc p x } := by
  have hxin : x ≠ .inOp := by
    rintro rfl
    cases hx
  have hcard := h.card_end hpc hxin
  have hcommits : ∀ q, (update s.pc p x q).commits = true → q = p := by
    intro q hq
    by_contra hqp
    rw [update_of_ne hqp, h.commits_eq_false hpc] at hq
    cases hq
  refine ⟨hcard, fun q r hq hr => (hcommits q hq).trans (hcommits r hr).symm, ?_, fun _ q hq => ?_,
    fun hup => (hup hu.1).elim, h.panic⟩
  · simp only [true_iff]
    exact ⟨p, by simpa using hx⟩
  · rw [ho] at hcard
    have hzero : (Finset.univ.filter fun q => update s.pc p x q = .inOp).card = 0 := by omega
    have : q ∈ (∅ : Finset ι) := by
      rw [← Finset.card_eq_zero.1 hzero]
      simpa using hq
    cases this

/-- Another operation ends. -/
theorem endOp {p : ι} (h : Ops s) (hu : s.Up) (hpc : s.pc p = .inOp) :
    Ops { s with outstanding := s.outstanding - 1, pc := update s.pc p .idle } := by
  have hcommits : ∀ q, (update s.pc p .idle q).commits = false := by
    intro q
    rw [update_apply]
    split_ifs
    · rfl
    · exact h.commits_eq_false hpc q
  have hc := h.not_committing hpc
  refine ⟨h.card_end hpc (by simp), fun q r hq => ?_, ?_, fun hc' => ?_,
    fun hup => (hup hu.1).elim, h.panic⟩
  · rw [hcommits] at hq
    cases hq
  · simp [hc, hcommits]
  · have hc' : s.committing = true := hc'
    rw [hc] at hc'
    cases hc'

/-- The commit is over. -/
theorem finish {p : ι} (h : Ops s) (hu : s.Up) (hpc : s.pc p = .committed) :
    Ops { s with committing := false, pc := update s.pc p .idle } := by
  have hp : (s.pc p).commits = true := by rw [hpc]; rfl
  have hcomm := h.committing.2 ⟨p, hp⟩
  have hcommits : ∀ q, (update s.pc p .idle q).commits = false := by
    intro q
    rw [update_apply]
    split_ifs with hqp
    · rfl
    · by_contra hq
      exact hqp (h.alone q p (by simpa using hq) hp)
  refine ⟨?_, fun q r hq => ?_, ?_, fun hc => ?_, fun hup => (hup hu.1).elim, h.panic⟩
  · have hp : p ∉ Finset.univ.filter fun q => s.pc q = .inOp := by simp [hpc]
    simp [filter_update_of_ne, Finset.erase_eq_of_notMem hp, h.outstanding]
  · rw [hcommits] at hq
    cases hq
  · simp [hcommits]
  · cases hc

theorem step (h : Ops s) (hs : s.Moves sb e t) : Ops t := by
  cases hs with
  | beginOp p hu hpc ha => exact h.beginOp hu hpc ha.1
  | tooBig => exact h.of_eq rfl rfl rfl id (.inr rfl)
  | outside p b hu hpc hn ho =>
    have := h.inOp_pos hpc
    omega
  | endTwice p hu hpc hc =>
    rw [h.not_committing hpc] at hc
    cases hc
  | endLast p hu hpc hd hc ho =>
    refine h.endLast hu hpc ho ?_
    split_ifs <;> rfl
  | endOp p hu hpc => exact h.endOp hu hpc
  | writeLog p tail b hu hpc | writeHead p hu hpc | install p tail b hu hpc | erase p hu hpc =>
    exact h.goOn (by rw [hpc]; rfl) rfl rfl rfl rfl rfl rfl
  | finish p hu hpc => exact h.finish hu hpc
  | crash => exact .boot
  | readHead hr | reinstall tail b hr => exact h.of_eq rfl rfl rfl (by simp [hr]) (.inl rfl)
  | reerase => exact h.of_eq rfl rfl rfl (by simp) (.inl rfl)
  | bread | modify | absorb | append | brelse | evict =>
    exact h.of_eq rfl rfl rfl id (.inl rfl)

theorem run (h : Run (Step sb) (LogState.boot disk) es s) : Ops s := by
  induction h with
  | nil => exact .boot
  | snoc _ hs ih => exact ih.step (moves_of_step hs)

end Ops

/-! ## The header -/

/-- The list of blocks in memory and the one on the disk. -/
structure Header (sb : LogArea) (s : LogState ι) : Prop where
  clean : s.read sb.logstart = s.disk sb.logstart
  lh : sb.Fits s.lh
  head : sb.Fits (s.disk sb.logstart).head
  recovering : ∀ tail, s.recovery = .installing tail → s.lh = (s.disk sb.logstart).head

namespace Header

theorem boot (hlog : 0 < sb.nlog) (hdisk : sb.Fits (disk sb.logstart).head) :
    Header sb (boot disk : LogState ι) := by
  refine ⟨rfl, ⟨.nil, by simp [LogState.boot], by simp [LogState.boot], hlog⟩, hdisk, ?_⟩
  simp [LogState.boot]

/-- The header block is not touched. -/
theorem of_eq (h : Header sb s) (hread : t.read sb.logstart = s.read sb.logstart)
    (hdisk : t.disk sb.logstart = s.disk sb.logstart) (hlh : t.lh = s.lh)
    (hr : ∀ tail, t.recovery = .installing tail → ∃ tail, s.recovery = .installing tail) :
    Header sb t where
  clean := by rw [hread, hdisk, h.clean]
  lh := hlh ▸ h.lh
  head := hdisk ▸ h.head
  recovering tail ht := by
    obtain ⟨tail', ht'⟩ := hr tail ht
    rw [hlh, hdisk, h.recovering tail' ht']

/-- The header is written. -/
theorem write {lh : List ℕ} (hlh : sb.Fits lh)
    (hread : t.read sb.logstart = (s.read sb.logstart).putHead lh)
    (hdisk : t.disk sb.logstart = (s.read sb.logstart).putHead lh) (ht : t.lh = lh)
    (hr : ∀ tail, t.recovery ≠ .installing tail) : Header sb t := by
  have hlen : lh.length < 256 := by
    have := hlh.short
    simp only [LOGSIZE, MAXOPBLOCKS] at this
    omega
  refine ⟨hread.trans hdisk.symm, ht ▸ hlh, ?_, fun tail htail => (hr tail htail).elim⟩
  rw [hdisk, Block.head_putHead hlen]
  exact hlh

theorem fits_nil (h : Header sb s) : sb.Fits [] :=
  ⟨.nil, by simp, by simp, Nat.zero_lt_of_lt h.lh.room⟩

theorem start_ne {b : ℕ} (h : Header sb s) (hb : ¬sb.Inside b) : sb.logstart ≠ b := by
  rintro rfl
  have := h.lh.room
  exact hb ⟨le_rfl, by omega⟩

theorem step (h : Header sb s) (hs : s.Moves sb e t) : Header sb t := by
  have hup : s.Up → ∀ tail, s.recovery ≠ .installing tail := by
    intro hu tail ht
    rw [hu.1] at ht
    cases ht
  have hsame : ∀ {tail}, s.recovery = .installing tail → ∃ tail, s.recovery = .installing tail :=
    fun ht => ⟨_, ht⟩
  cases hs with
  | bread p b => exact h.of_eq (read_load b _) rfl rfl fun _ => hsame
  | modify p b d hu hpc hb hin =>
    refine h.of_eq ?_ rfl rfl fun _ => hsame
    simp [read, h.start_ne hin]
  | append p b hu hpc hb hin hn hlh =>
    refine ⟨h.clean, ⟨?_, ?_, ?_, ?_⟩, h.head, fun tail ht => (hup hu tail ht).elim⟩
    · exact List.concat_eq_append ▸ h.lh.nodup.concat hlh
    · intro x hx
      rcases List.mem_append.1 hx with hx | hx
      · exact h.lh.home x hx
      · rwa [List.mem_singleton.1 hx]
    · simpa using hn.1
    · simpa using hn.2
  | writeLog p tail b =>
    refine h.of_eq ?_ ?_ rfl fun _ => hsame
    · rw [read_writeLog, if_neg (by omega)]
    · rw [disk_writeLog, update_of_ne (by omega)]
  | writeHead p hu =>
    refine write h.lh ((read_writeHead _).trans (if_pos rfl)) ?_ rfl (hup hu)
    exact update_self ..
  | install p tail b hu hpc hb =>
    have hb := h.start_ne (h.lh.home b (List.mem_of_getElem? hb))
    refine h.of_eq ((read_installTrans ..).trans (if_neg hb)) ?_ rfl fun _ => hsame
    exact (congrFun (disk_installTrans ..) _).trans (update_of_ne hb ..)
  | erase p hu =>
    refine write h.fits_nil ((read_eraseHead _).trans (if_pos rfl)) ?_ rfl (hup hu)
    exact update_self ..
  | evict b =>
    refine h.of_eq ?_ rfl rfl fun _ => hsame
    rw [read_evict]
    split_ifs with hb
    · rw [← hb, h.clean]
    · rfl
  | crash => exact .boot (Nat.zero_lt_of_lt h.lh.room) h.head
  | readHead hr =>
    refine ⟨?_, ?_, h.head, fun tail _ => ?_⟩
    · exact (read_load _ _).trans h.clean
    · rw [h.clean]
      exact h.head
    · exact congrArg Block.head h.clean
  | reinstall tail b hr hb =>
    have hb := h.start_ne (h.lh.home b (List.mem_of_getElem? hb))
    refine h.of_eq ((read_installTrans ..).trans (if_neg hb)) ?_ rfl fun _ _ => ⟨tail, hr⟩
    exact (congrFun (disk_installTrans ..) _).trans (update_of_ne hb ..)
  | reerase tail hr hb =>
    refine write h.fits_nil ((read_eraseHead _).trans (if_pos rfl)) ?_ rfl (by simp)
    exact update_self ..
  | _ => exact h.of_eq rfl rfl rfl fun _ => hsame

theorem run (hlog : 0 < sb.nlog) (hdisk : sb.Fits (disk sb.logstart).head)
    (h : Run (Step sb) (LogState.boot disk) es s) : Header sb s := by
  induction h with
  | nil => exact .boot hlog hdisk
  | snoc _ hs ih => exact ih.step (moves_of_step hs)

end Header

/-! ## The blocks of the group -/

/-- The list is that of the blocks that the group has logged. -/
structure Listed (es : List (LogEvent ι)) (s : LogState ι) : Prop where
  mem : s.Up → ∀ b, b ∈ s.lh ↔ b ∈ groupBlocks es
  fresh : s.recovery ≠ .up → groupBlocks es = ∅

namespace Listed

theorem boot : Listed [] (boot disk : LogState ι) := by
  constructor <;> simp [LogState.boot, LogState.Up, groupBlocks]

theorem step (h : Listed es s) (hs : s.Moves sb e t) : Listed (es ++ [e]) t := by
  suffices ht : (t.Up → ∀ b, b ∈ t.lh ↔ b ∈ groupNext (groupBlocks es) e) ∧
      (t.recovery ≠ .up → groupNext (groupBlocks es) e = ∅) by
    rw [← groupBlocks_append] at ht
    exact ⟨ht.1, ht.2⟩
  cases hs with
  | tooBig p b hu | outside p b hu | endTwice p hu =>
    refine ⟨fun ht => ?_, fun ht => (ht hu.1).elim⟩
    cases ht.2
  | absorb p b hu hpc hb hin hn hlh =>
    refine ⟨fun _ x => ?_, fun ht => (ht hu.1).elim⟩
    rw [groupNext, Finset.insert_eq_of_mem ((h.mem hu b).1 hlh)]
    exact h.mem hu x
  | append p b hu =>
    refine ⟨fun _ x => ?_, fun ht => (ht hu.1).elim⟩
    rw [groupNext, Finset.mem_insert, ← h.mem hu x, List.mem_append, List.mem_singleton, or_comm]
  | erase p hu => exact ⟨fun _ x => by simp [groupNext, eraseHead, writeHead, bwrite], fun _ => rfl⟩
  | crash => exact ⟨fun ht => (by cases ht.1), fun _ => rfl⟩
  | readHead hr | reinstall tail b hr =>
    exact ⟨fun ht => (by cases ht.1), fun _ => h.fresh (by simp [hr])⟩
  | reerase tail hr =>
    have := h.fresh (by simp [hr])
    exact ⟨fun _ x => by simp [groupNext, this, eraseHead, writeHead, bwrite],
      fun ht => (ht rfl).elim⟩
  | _ => exact ⟨h.mem, h.fresh⟩

theorem run (h : Run (Step sb) (LogState.boot disk) es s) : Listed es s := by
  induction h with
  | nil => exact .boot
  | snoc _ hs ih => exact ih.step (moves_of_step hs)

theorem length_eq (h : Listed es s) (hu : s.Up) (hlh : s.lh.Nodup) :
    s.lh.length = (groupBlocks es).card := by
  rw [← List.toFinset_card_of_nodup hlh]
  congr 1
  ext b
  rw [List.mem_toFinset]
  exact h.mem hu b

end Listed

/-! ## Reservations -/

/-- The operations in progress. -/
def ops (s : LogState ι) : Finset ι :=
  Finset.univ.filter fun p => s.pc p = .inOp

/-- What an operation has logged is in the list, and there is room for the list and for what
the operations in progress may still log. -/
structure Reserved (es : List (LogEvent ι)) (s : LogState ι) : Prop where
  mem : s.Up → ∀ p ∈ s.ops, ∀ b ∈ opBlocks p es, b ∈ s.lh
  room : s.Up → s.lh.length + ∑ p ∈ s.ops, (MAXOPBLOCKS - (opBlocks p es).card) ≤ LOGSIZE

namespace Reserved

theorem ops_eq_empty (h : ∀ p, s.pc p ≠ .inOp) : s.ops = ∅ := by
  simp [ops, h]

theorem of_empty (h : t.ops = ∅) (hlen : t.Up → t.lh.length ≤ LOGSIZE) : Reserved es t := by
  refine ⟨by simp [h], fun hu => ?_⟩
  simpa [h] using hlen hu

theorem of_not_up (h : ¬t.Up) : Reserved es t :=
  ⟨fun hu => (h hu).elim, fun hu => (h hu).elim⟩

theorem boot : Reserved [] (LogState.boot disk : LogState ι) :=
  of_not_up fun hu => by cases hu.1

/-- A move that ends operations or changes nothing here. -/
theorem of_subset (h : Reserved es s) (hops : t.ops ⊆ s.ops) (hlh : t.lh = s.lh)
    (hup : t.Up → s.Up) (hop : ∀ p, opBlocks p (es ++ [e]) = opBlocks p es) :
    Reserved (es ++ [e]) t := by
  refine ⟨fun hu p hp b hb => ?_, fun hu => ?_⟩
  · rw [hlh]
    rw [hop] at hb
    exact h.mem (hup hu) p (hops hp) b hb
  · simp only [hop, hlh]
    exact (Nat.add_le_add_left (Finset.sum_le_sum_of_subset hops) _).trans (h.room (hup hu))

/-- An operation is let in. -/
theorem beginOp {p : ι} (h : Reserved es s) (hO : Ops s) (hu : s.Up) (hpc : s.pc p = .idle)
    (ha : s.Admits) : Reserved (es ++ [.beginOp p])
      { s with outstanding := s.outstanding + 1, pc := update s.pc p .inOp } := by
  have hp : p ∉ s.ops := by simp [ops, hpc]
  have hops : (Finset.univ.filter fun q => update s.pc p .inOp q = .inOp) = insert p s.ops :=
    Ops.filter_update_inOp p s.pc
  have hnew : opBlocks p (es ++ [.beginOp p]) = ∅ := by simp [opBlocks_append, opNext]
  have hold : ∀ q ∈ s.ops, opBlocks q (es ++ [.beginOp p]) = opBlocks q es := by
    intro q hq
    have : p ≠ q := by
      rintro rfl
      exact hp hq
    simp [opBlocks_append, opNext, this]
  refine ⟨fun _ q hq b hb => ?_, fun _ => ?_⟩
  · rcases Finset.mem_insert.1 (hops ▸ hq : q ∈ insert p s.ops) with rfl | hq
    · rw [hnew] at hb
      cases hb
    · rw [hold q hq] at hb
      exact h.mem hu q hq b hb
  · show s.lh.length + ∑ q ∈ Finset.univ.filter fun q => update s.pc p .inOp q = .inOp, _ ≤ _
    have hsum : ∑ q ∈ insert p s.ops, (MAXOPBLOCKS - (opBlocks q (es ++ [.beginOp p])).card) ≤
        (s.ops.card + 1) * MAXOPBLOCKS := by
      rw [← Finset.card_insert_of_notMem hp, ← smul_eq_mul]
      exact Finset.sum_le_card_nsmul _ _ _ fun q _ => Nat.sub_le ..
    have hout : s.outstanding = s.ops.card := hO.outstanding
    have := ha.2
    rw [hout] at this
    rw [hops]
    have : s.lh.length + (s.ops.card + 1) * MAXOPBLOCKS ≤ LOGSIZE := by exact_mod_cast this
    omega

/-- An operation logs a block. -/
theorem logWrite {p : ι} {b : ℕ} {d : Block} (h : Reserved es s)
    (hu : s.Up) (hpc : s.pc p = .inOp) (hm : Modest es (.logWrite p b d))
    (hlh : b ∈ s.lh ∧ t.lh = s.lh ∨ b ∉ s.lh ∧ t.lh = s.lh ++ [b]) (ht : t.pc = s.pc) :
    Reserved (es ++ [.logWrite p b d]) t := by
  have hp : p ∈ s.ops := by simp [ops, hpc]
  have hops : t.ops = s.ops := by simp [ops, ht]
  have hnew : opBlocks p (es ++ [.logWrite p b d]) = insert b (opBlocks p es) := by
    simp [opBlocks_append, opNext]
  have hold : ∀ q, q ≠ p → opBlocks q (es ++ [.logWrite p b d]) = opBlocks q es := by
    intro q hq
    simp [opBlocks_append, opNext, Ne.symm hq]
  have hsub : ∀ x ∈ s.lh, x ∈ t.lh := by
    intro x hx
    rcases hlh with ⟨-, hlh⟩ | ⟨-, hlh⟩ <;> simp [hlh, hx]
  have hbt : b ∈ t.lh := by
    rcases hlh with ⟨hb, hlh⟩ | ⟨-, hlh⟩
    · rwa [hlh]
    · simp [hlh]
  refine ⟨fun _ q hq x hx => ?_, fun _ => ?_⟩
  · rw [hops] at hq
    by_cases hqp : q = p
    · subst hqp
      rw [hnew, Finset.mem_insert] at hx
      rcases hx with rfl | hx
      · exact hbt
      · exact hsub x (h.mem hu q hq x hx)
    · rw [hold q hqp] at hx
      exact hsub x (h.mem hu q hq x hx)
  · -- the share of `p` goes down by what the list gains
    have hroom := h.room hu
    have hmod := hm p
    rw [hnew] at hmod
    rw [hops, ← Finset.add_sum_erase _ _ hp, hnew, Finset.sum_congr rfl fun q hq => by
      rw [hold q (Finset.ne_of_mem_erase hq)]]
    rw [← Finset.add_sum_erase _ _ hp] at hroom
    rcases hlh with ⟨-, hlh⟩ | ⟨hb, hlh⟩
    · have := Finset.card_le_card (Finset.subset_insert b (opBlocks p es))
      rw [hlh]
      omega
    · have hbo : b ∉ opBlocks p es := fun hbo => hb (h.mem hu p hp b hbo)
      rw [Finset.card_insert_of_notMem hbo] at hmod ⊢
      rw [hlh, List.length_append, List.length_singleton]
      omega

theorem step (h : Reserved es s) (hO : Ops s) (hm : Modest es e) (hs : s.Moves sb e t) :
    Reserved (es ++ [e]) t := by
  have hupdate : ∀ {p : ι} {x : LogPc}, x ≠ .inOp →
      (Finset.univ.filter fun q => update s.pc p x q = .inOp) ⊆ s.ops := by
    intro p x hx
    rw [Ops.filter_update_of_ne hx]
    exact Finset.erase_subset ..
  cases hs with
  | beginOp p hu hpc ha => exact h.beginOp hO hu hpc ha
  | tooBig | outside | endTwice => exact of_not_up fun ht => by cases ht.2
  | absorb p b hu hpc hb hin hn hlh => exact h.logWrite hu hpc hm (.inl ⟨hlh, rfl⟩) rfl
  | append p b hu hpc hb hin hn hlh => exact h.logWrite hu hpc hm (.inr ⟨hlh, rfl⟩) rfl
  | endLast p hu =>
    refine h.of_subset (hupdate ?_) rfl (fun _ => hu) fun q => by simp [opBlocks_append, opNext]
    split_ifs <;> simp
  | endOp p hu | writeLog p tail b hu | writeHead p hu | install p tail b hu | finish p hu =>
    exact h.of_subset (hupdate (by simp)) rfl (fun _ => hu) fun q => by
      simp [opBlocks_append, opNext]
  | erase p hu hpc =>
    have hc : s.committing = true := hO.committing.2 ⟨p, by rw [hpc]; rfl⟩
    have hempty : s.ops = ∅ := ops_eq_empty (hO.quiet hc)
    refine of_empty (Finset.subset_empty.1 (hempty ▸ hupdate (by simp))) fun _ => ?_
    simp [eraseHead, writeHead, bwrite]
  | crash | readHead | reinstall => exact of_not_up fun ht => by cases ht.1
  | reerase tail hr =>
    refine of_empty (ops_eq_empty fun p hp => ?_) fun _ => by simp [eraseHead, writeHead, bwrite]
    have := hO.starting (by simp [hr]) p
    rw [show s.pc p = .inOp from hp] at this
    cases this
  | bread p b hu | modify p b d hu | brelse p b hu =>
    exact h.of_subset subset_rfl rfl (fun _ => hu) fun q => by simp [opBlocks_append, opNext]
  | evict b => exact h.of_subset subset_rfl rfl id fun q => by simp [opBlocks_append, opNext]

theorem run (h : Run (Step sb) (LogState.boot disk) es s) (hm : Along Modest es) :
    Reserved es s := by
  induction h with
  | nil => exact .boot
  | snoc hr hs ih =>
    obtain ⟨hm, hlast⟩ := along_append.1 hm
    exact (ih hm).step (.run hr) hlast (moves_of_step hs)

end Reserved

/-! ## Panics -/

/-- An operation logs each block once. -/
def Once (pre : List (LogEvent ι)) (e : LogEvent ι) : Prop :=
  ∀ p b d, e = .logWrite p b d → b ∉ opBlocks p pre

/-- The panic of a move. -/
theorem panic_step (hO : Ops s) (hs : s.Moves sb e t) (hnone : s.panic = none) :
    t.panic = none ∨ t.panic = some .tooBig ∧ ∃ p b, e = .logWrite p b (s.read b) ∧ s.Up ∧
      s.pc p = .inOp ∧ (LOGSIZE ≤ s.lh.length ∨ sb.nlog ≤ s.lh.length + 1) := by
  cases hs with
  | tooBig p b hu hpc hn => exact .inr ⟨rfl, p, b, rfl, hu, hpc, hn⟩
  | outside p b hu hpc hn ho =>
    have := hO.inOp_pos hpc
    omega
  | endTwice p hu hpc hc =>
    rw [hO.not_committing hpc] at hc
    cases hc
  | crash => exact .inl rfl
  | _ => exact .inl hnone

/-- With a block more than `LOGSIZE` for the header, operations that log at most `MAXOPBLOCKS`
blocks, each once, never panic. -/
theorem fits (hlog : LOGSIZE < sb.nlog) (h : Run (Step sb) (boot disk) es s)
    (hm : Along Modest es) (ho : Along Once es) : s.panic = none := by
  induction h with
  | nil => rfl
  | @snoc es s t e hr hs ih =>
    obtain ⟨hm', hlast⟩ := along_append.1 hm
    obtain ⟨ho', hone⟩ := along_append.1 ho
    rcases panic_step (.run hr) (moves_of_step hs) (ih hm' ho') with
      hp | ⟨-, p, b, rfl, hu, hpc, hn⟩
    · exact hp
    · -- the operation has not used up its share
      exfalso
      have hmem : p ∈ s.ops := by simp [ops, hpc]
      have hroom := (Reserved.run hr hm').room hu
      have hshare := Finset.single_le_sum (f := fun q => MAXOPBLOCKS - (opBlocks q es).card)
        (fun _ _ => Nat.zero_le _) hmem
      have hcard := hlast p
      rw [opBlocks_append, opNext, if_pos rfl,
        Finset.card_insert_of_notMem (hone p b _ rfl)] at hcard
      omega

/-- On a file system made by mkfs, whose log has `LOGSIZE` blocks with the header : `log_write`
panics if and only if the operations of the group have already logged `LOGSIZE - 1` different
blocks, so no run in which that is not so panics. The other panics are unreachable in any run,
`outstanding` is not negative, the list has no duplicates, and no operation is let in during a
commit. -/
theorem admitted_fit (hlog : sb.nlog = LOGSIZE) (hdisk : (disk sb.logstart).head = [])
    (h : Run (Step sb) (boot disk) es s) :
    (Along Roomy es → s.panic ≠ some .tooBig) ∧
    (∀ p b d t, Step sb s (.logWrite p b d) t →
      (t.panic ≠ some .tooBig ↔ (groupBlocks es).card < LOGSIZE - 1)) ∧
    s.panic ≠ some .outside ∧ s.panic ≠ some .committing ∧ 0 ≤ s.outstanding ∧ s.lh.Nodup ∧
    ∀ p t, Step sb s (.beginOp p) t → s.committing = false ∧ ∀ q, (s.pc q).commits = false := by
  have hpos : 0 < sb.nlog := by
    rw [hlog]
    decide
  have hfit : sb.Fits (disk sb.logstart).head := by
    rw [hdisk]
    exact ⟨.nil, by simp, by simp, hpos⟩
  have hO := Ops.run h
  have hlen : ∀ {es} {s : LogState ι}, Run (Step sb) (boot disk) es s → s.Up →
      s.lh.length = (groupBlocks es).card :=
    fun hr hu => (Listed.run hr).length_eq hu (Header.run hpos hfit hr).lh.nodup
  refine ⟨fun hroom => ?_, fun p b d t hs => ?_, ?_, ?_, ?_, (Header.run hpos hfit h).lh.nodup,
    fun p t hs => ?_⟩
  · clear hO
    induction h with
    | nil => simp [boot]
    | @snoc es s t e hr hs ih =>
      obtain ⟨hroom, hlast⟩ := along_append.1 hroom
      have hnone : s.panic = none := (Ops.run hr).panic.resolve_right (ih hroom)
      rcases panic_step (.run hr) (moves_of_step hs) hnone with hp | ⟨-, p, b, rfl, hu, -, hn⟩
      · simp [hp]
      · have := hlast rfl
        have := hlen hr hu
        omega
  · cases moves_of_step hs with
    | tooBig _ _ hu hpc hn =>
      have := hlen h hu
      simp only [ne_eq, not_true_eq_false, false_iff]
      omega
    | outside _ _ hu hpc hn | absorb _ _ hu hpc hb hin hn | append _ _ hu hpc hb hin hn =>
      have := hlen h hu
      exact iff_of_true (by simp [hu.2]) (by omega)
  · rcases hO.panic with hp | hp <;> simp [hp]
  · rcases hO.panic with hp | hp <;> simp [hp]
  · rw [hO.outstanding]
    exact Int.natCast_nonneg _
  · cases moves_of_step hs with
    | beginOp _ hu hpc ha =>
      refine ⟨ha.1, fun q => ?_⟩
      by_contra hq
      have := hO.committing.2 ⟨q, by simpa using hq⟩
      rw [ha.1] at this
      cases this

/-- The log as mkfs lays it out, after the boot block and the superblock. -/
def mkfsLog : LogArea where
  logstart := 2
  nlog := LOGSIZE

/-- After the recovery `n` processes begin an operation each, and each logs `m` blocks. -/
def fill (n m : ℕ) : List (LogEvent (Fin n)) :=
  .recover :: .recover :: (List.finRange n).map .beginOp ++
  (List.finRange n).flatMap fun p => (List.range m).flatMap fun k =>
    [.bread p (100 + 10 * p + k), .logWrite p (100 + 10 * p + k) fun _ => 0]

/-- Two operations log two blocks each. -/
theorem admitted_fit_two : ∃ s : LogState (Fin 2),
    Run (Step mkfsLog) (boot fun _ _ => 0) (fill 2 2) s ∧ s.lh = [100, 101, 110, 111] ∧
    s.panic ≠ some .tooBig ∧ 0 ≤ s.outstanding ∧ s.lh.Nodup := by
  have h : ∃ s ∈ exec (move mkfsLog) (boot fun _ _ => 0) (fill 2 2), s.lh = [100, 101, 110, 111] := by
    decide +kernel
  obtain ⟨s, hs, hlh⟩ := h
  have hrun := run_of_exec hs
  have hdisk : Block.head (fun _ => 0) = [] := rfl
  have hfit := admitted_fit rfl hdisk hrun
  exact ⟨s, hrun, hlh, hfit.1 (by decide +kernel), hfit.2.2.2.2.1, hfit.2.2.2.2.2.1⟩

/-- Three operations log ten blocks each. There are 29 blocks in the log beside the header, and
the last `log_write` panics. -/
theorem admitted_not_fit : ∃ s : LogState (Fin 3),
    Run (Step mkfsLog) (boot fun _ _ => 0) (fill 3 MAXOPBLOCKS) s ∧
    Along Modest (fill 3 MAXOPBLOCKS) ∧ s.panic = some .tooBig := by
  have h : ∃ s ∈ exec (move mkfsLog) (boot fun _ _ => 0) (fill 3 MAXOPBLOCKS),
      s.panic = some .tooBig := by decide +kernel
  obtain ⟨s, hs, hp⟩ := h
  exact ⟨s, run_of_exec hs, by decide +kernel, hp⟩

end LogState

end CowPbs
