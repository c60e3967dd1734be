import Mathlib
import CowPbs.Itable

/-!
# Inodes in memory and on the disk

The reference count of an entry is the number of variables that point to it and of calls of `iput`
in progress (`references`). A process that has the lock of an entry also has a reference to it, so
that the sole reference of an `iput` with nobody in its use comes with a free lock. An inode that is
valid and not in the hands of such an `iput` is allocated on the disk (`Inv.clean`), and one that is
being freed is so until its type is cleared (`Inv.freeing`). That is why `ialloc` cannot take the
number of an inode before the truncation of its last owner is over.
-/

set_option linter.unusedSectionVars false

open Function RefCount Transition

namespace CowPbs

namespace InodePc

variable {κ : Type*}

/-- The pointer that a call of `iput` has yet to give up. -/
def putting : InodePc κ → Option InodePtr
  | iput ip | itrunc ip _ | ifree ip | ifreed ip | unref ip => some ip
  | run | ialloc _ _ | iget _ | ilock _ | ilockRead _ | panicked => none

/-- The inode whose lock `iput` has. -/
def locks : InodePc κ → Option InodePtr
  | itrunc ip _ | ifree ip | ifreed ip => some ip
  | run | ialloc _ _ | iget _ | ilock _ | ilockRead _ | iput _ | unref _ | panicked => none

/-- The inode that `iput` is freeing, before its type is 0 on the disk. -/
def freeing : InodePc κ → Option InodePtr
  | iput ip | itrunc ip _ | ifree ip => some ip
  | run | ialloc _ _ | iget _ | ilock _ | ilockRead _ | ifreed _ | unref _ | panicked => none

variable {pc : InodePc κ} {ip : InodePtr}

theorem putting_of_freeing (h : pc.freeing = some ip) : pc.putting = some ip := by
  cases pc <;> simp_all [freeing, putting]

theorem putting_of_locks (h : pc.locks = some ip) : pc.putting = some ip := by
  cases pc <;> simp_all [locks, putting]

theorem locks_of_freeing (h : pc.freeing = some ip) : pc = .iput ip ∨ pc.locks = some ip := by
  cases pc <;> simp_all [freeing, locks]

end InodePc

namespace Itable

variable {ι κ : Type*} [DecidableEq ι] [DecidableEq κ] {s t : Itable ι κ} {p q : ι} {k j : κ}
  {ip jp : InodePtr} {ninodes : ℕ} {e : InodeEvent} {es : List (ι × InodeEvent)}

@[simp]
theorem goto_pc (pc : InodePc κ) : (s.goto p pc).pc q = if q = p then pc else s.pc q :=
  update_apply ..

@[simp]
theorem goto_inode (pc : InodePc κ) : (s.goto p pc).inode = s.inode :=
  rfl

@[simp]
theorem goto_lock (pc : InodePc κ) : (s.goto p pc).lock = s.lock :=
  rfl

@[simp]
theorem goto_tableLock (pc : InodePc κ) : (s.goto p pc).tableLock = s.tableLock :=
  rfl

@[simp]
theorem goto_disk (pc : InodePc κ) : (s.goto p pc).disk = s.disk :=
  rfl

@[simp]
theorem goto_ptr (pc : InodePc κ) : (s.goto p pc).ptr = s.ptr :=
  rfl

@[simp]
theorem goto_uses (pc : InodePc κ) : (s.goto p pc).uses = s.uses :=
  rfl

@[simp]
theorem goto_dirty (pc : InodePc κ) : (s.goto p pc).dirty = s.dirty :=
  rfl

@[simp]
theorem setInode_inode (x : InodeEntry) :
    (s.setInode ip x).inode jp = if jp = ip then x else s.inode jp :=
  update_apply ..

@[simp]
theorem setInode_lock (x : InodeEntry) : (s.setInode ip x).lock = s.lock :=
  rfl

@[simp]
theorem setInode_tableLock (x : InodeEntry) : (s.setInode ip x).tableLock = s.tableLock :=
  rfl

@[simp]
theorem setInode_disk (x : InodeEntry) : (s.setInode ip x).disk = s.disk :=
  rfl

@[simp]
theorem setInode_ptr (x : InodeEntry) : (s.setInode ip x).ptr = s.ptr :=
  rfl

@[simp]
theorem setInode_uses (x : InodeEntry) : (s.setInode ip x).uses = s.uses :=
  rfl

@[simp]
theorem setInode_dirty (x : InodeEntry) : (s.setInode ip x).dirty = s.dirty :=
  rfl

@[simp]
theorem setInode_pc (x : InodeEntry) : (s.setInode ip x).pc = s.pc :=
  rfl

@[simp]
theorem setPtr_ptr (x : Option InodePtr) :
    (s.setPtr k x).ptr j = if j = k then x else s.ptr j :=
  update_apply ..

@[simp]
theorem setPtr_inode (x : Option InodePtr) : (s.setPtr k x).inode = s.inode :=
  rfl

@[simp]
theorem setPtr_lock (x : Option InodePtr) : (s.setPtr k x).lock = s.lock :=
  rfl

@[simp]
theorem setPtr_tableLock (x : Option InodePtr) : (s.setPtr k x).tableLock = s.tableLock :=
  rfl

@[simp]
theorem setPtr_disk (x : Option InodePtr) : (s.setPtr k x).disk = s.disk :=
  rfl

@[simp]
theorem setPtr_uses (x : Option InodePtr) : (s.setPtr k x).uses = s.uses :=
  rfl

@[simp]
theorem setPtr_dirty (x : Option InodePtr) : (s.setPtr k x).dirty = s.dirty :=
  rfl

@[simp]
theorem setPtr_pc (x : Option InodePtr) : (s.setPtr k x).pc = s.pc :=
  rfl

@[simp]
theorem setLock_lock (o : Option ι) :
    (s.setLock ip o).lock jp = if jp = ip then o else s.lock jp :=
  update_apply ..

@[simp]
theorem setLock_inode (o : Option ι) : (s.setLock ip o).inode = s.inode :=
  rfl

@[simp]
theorem setLock_tableLock (o : Option ι) : (s.setLock ip o).tableLock = s.tableLock :=
  rfl

@[simp]
theorem setLock_disk (o : Option ι) : (s.setLock ip o).disk = s.disk :=
  rfl

@[simp]
theorem setLock_ptr (o : Option ι) : (s.setLock ip o).ptr = s.ptr :=
  rfl

@[simp]
theorem setLock_uses (o : Option ι) : (s.setLock ip o).uses = s.uses :=
  rfl

@[simp]
theorem setLock_dirty (o : Option ι) : (s.setLock ip o).dirty = s.dirty :=
  rfl

@[simp]
theorem setLock_pc (o : Option ι) : (s.setLock ip o).pc = s.pc :=
  rfl

@[simp]
theorem setUse_inode (b : Bool) : (s.setUse p k b).inode = s.inode :=
  rfl

@[simp]
theorem setUse_lock (b : Bool) : (s.setUse p k b).lock = s.lock :=
  rfl

@[simp]
theorem setUse_tableLock (b : Bool) : (s.setUse p k b).tableLock = s.tableLock :=
  rfl

@[simp]
theorem setUse_disk (b : Bool) : (s.setUse p k b).disk = s.disk :=
  rfl

@[simp]
theorem setUse_ptr (b : Bool) : (s.setUse p k b).ptr = s.ptr :=
  rfl

@[simp]
theorem setUse_dirty (b : Bool) : (s.setUse p k b).dirty = s.dirty :=
  rfl

@[simp]
theorem setUse_pc (b : Bool) : (s.setUse p k b).pc = s.pc :=
  rfl

@[simp]
theorem iupdate_inode : (s.iupdate ip).inode = s.inode :=
  rfl

@[simp]
theorem iupdate_lock : (s.iupdate ip).lock = s.lock :=
  rfl

@[simp]
theorem iupdate_tableLock : (s.iupdate ip).tableLock = s.tableLock :=
  rfl

@[simp]
theorem iupdate_ptr : (s.iupdate ip).ptr = s.ptr :=
  rfl

@[simp]
theorem iupdate_uses : (s.iupdate ip).uses = s.uses :=
  rfl

@[simp]
theorem iupdate_dirty : (s.iupdate ip).dirty = s.dirty :=
  rfl

@[simp]
theorem iupdate_pc : (s.iupdate ip).pc = s.pc :=
  rfl

@[simp]
theorem iupdate_disk (key : InodeKey) :
    (s.iupdate ip).disk key = if key = (s.inode ip).key then (s.inode ip).copy else s.disk key :=
  update_apply ..

theorem setUse_uses (b : Bool) :
    (s.setUse p k b).uses q j = if q = p ∧ j = k then b else s.uses q j := by
  by_cases hq : q = p
  · subst hq
    simp [setUse, update_apply]
  · simp [setUse, hq]

/-- What `iget` returns. -/
theorem iget_eq_some {key : InodeKey} {x : InodeEntry} (h : s.iget key = some (ip, x)) :
    (0 < (s.inode ip).ref ∧ (s.inode ip).key = key ∧
      x = { s.inode ip with ref := (s.inode ip).ref + 1 }) ∨
    ((s.inode ip).ref = 0 ∧ (∀ jp, 0 < (s.inode jp).ref → (s.inode jp).key ≠ key) ∧
      x = { s.inode ip with key := key, ref := 1, valid := false }) := by
  unfold iget at h
  split at h
  · rename_i jp hjp
    obtain ⟨rfl, rfl⟩ := Prod.mk.inj (Option.some.inj h)
    have hfound := List.find?_some hjp
    simp only [decide_eq_true_eq] at hfound
    exact .inl ⟨hfound.1, hfound.2, rfl⟩
  · rename_i hnone
    split at h
    · rename_i jp hjp
      obtain ⟨rfl, rfl⟩ := Prod.mk.inj (Option.some.inj h)
      have hfree := List.find?_some hjp
      refine .inr ⟨by simpa using hfree, fun lp hlp hkey => ?_, rfl⟩
      have hno := List.find?_eq_none.1 hnone lp (List.mem_finRange lp)
      simp [hlp, hkey] at hno
    · cases h

/-! ## References -/

/-- The counted pointers of the variables and of the calls of `iput` in progress. -/
def held (s : Itable ι κ) : κ ⊕ ι → Multiset InodePtr
  | .inl k => ((s.ptr k).toList : Multiset InodePtr)
  | .inr p => ((s.pc p).putting.toList : Multiset InodePtr)

theorem mem_held_inl : ip ∈ s.held (.inl k) ↔ s.ptr k = some ip := by
  simp [held]

theorem mem_held_inr : ip ∈ s.held (.inr p) ↔ (s.pc p).putting = some ip := by
  simp [held]

variable [Fintype ι] [Fintype κ]

/-- The holder of the lock, if there is one, is not in a panic and not freeing the inode. -/
def Settled (s : Itable ι κ) (ip : InodePtr) : Prop :=
  ∀ p, s.lock ip = some p → s.pc p ≠ .panicked ∧ (s.pc p).locks ≠ some ip

structure Inv (s : Itable ι κ) : Prop where
  counts : Counts s.held fun ip => (s.inode ip).ref
  unique : ∀ ip jp, 0 < (s.inode ip).ref → 0 < (s.inode jp).ref →
    (s.inode ip).key = (s.inode jp).key → ip = jp
  locked : ∀ ip p, s.lock ip = some p →
    (∃ k, s.uses p k = true ∧ s.ptr k = some ip) ∨ (s.pc p).locks = some ip
  locks : ∀ p ip, (s.pc p).locks = some ip → s.lock ip = some p
  used : ∀ p k, s.uses p k = true →
    ∃ ip, s.ptr k = some ip ∧ (s.pc p = .ilock k ∨ s.lock ip = some p)
  enters : ∀ p k, s.pc p = .ilock k ∨ s.pc p = .ilockRead k → s.uses p k = true
  single : ∀ p k j ip, s.uses p k = true → s.uses p j = true → s.ptr k = some ip →
    s.ptr j = some ip → s.pc p ≠ .ilock k → s.pc p ≠ .ilock j → k = j
  apart : ∀ p k ip, s.uses p k = true → s.ptr k = some ip → (s.pc p).locks ≠ some ip
  ready : ∀ ip p, s.lock ip = some p → (s.inode ip).valid = true ∨
    ∃ k, s.pc p = .ilockRead k ∧ s.ptr k = some ip
  dirty : ∀ ip, s.dirty ip = true → ∃ p, s.lock ip = some p ∧ (s.pc p).locks ≠ some ip
  deciding : ∀ p ip, s.pc p = .iput ip →
    s.tableLock = some p ∧ s.lock ip = none ∧ (s.inode ip).ref = 1
  freeing : ∀ p ip, (s.pc p).freeing = some ip → (s.inode ip).valid = true ∧
    (s.inode ip).copy.type ≠ 0 ∧ (s.disk (s.inode ip).key).type ≠ 0
  clean : ∀ ip, 0 < (s.inode ip).ref → (s.inode ip).valid = true → s.Settled ip →
    (s.inode ip).copy.type ≠ 0 ∧ (s.disk (s.inode ip).key).type ≠ 0 ∧
      (s.dirty ip = false → (s.inode ip).copy = s.disk (s.inode ip).key)

namespace Inv

theorem boot (h : Boot s) : Inv s := by
  obtain ⟨hi, hl, hk, hu, hpc⟩ := h
  have hlock : ∀ ip p, s.lock ip ≠ some p := by
    intro ip p hp
    rw [(hi ip).2.1] at hp
    cases hp
  refine ⟨fun ip => ?_, fun ip jp h => ?_, fun ip p h => absurd h (hlock ip p), fun p ip h => ?_,
    fun p k h => ?_, fun p k h => ?_, fun p k j ip h => ?_,
    fun p k ip h => ?_, fun ip p h => absurd h (hlock ip p), fun ip h => ?_, fun p ip h => ?_, fun p ip h => ?_,
    fun ip h => ?_⟩
  · simp [(hi ip).1, held, hk, hpc, InodePc.putting]
  · simp [(hi ip).1] at h
  · simp [hpc p, InodePc.locks] at h
  · simp [hu p k] at h
  · simp [hpc p] at h
  · simp [hu p k] at h
  · simp [hu p k] at h
  · simp [(hi ip).2.2] at h
  · simp [hpc p] at h
  · simp [hpc p, InodePc.freeing] at h
  · simp [(hi ip).1] at h

theorem ref_pos (h : Inv s) (hk : s.ptr k = some ip) : 1 ≤ (s.inode ip).ref :=
  h.counts.pos (mem_held_inl.2 hk)

theorem ref_pos_of_putting (h : Inv s) (hp : (s.pc p).putting = some ip) :
    1 ≤ (s.inode ip).ref :=
  h.counts.pos (mem_held_inr.2 hp)

/-- An entry that is locked is in use. -/
theorem ref_pos_of_locked (h : Inv s) (hl : s.lock ip = some p) : 1 ≤ (s.inode ip).ref := by
  rcases h.locked ip p hl with ⟨k, -, hk⟩ | hp
  · exact h.ref_pos hk
  · exact h.ref_pos_of_putting (InodePc.putting_of_locks hp)

theorem lock_eq_none (h : Inv s) (hr : (s.inode ip).ref = 0) : s.lock ip = none := by
  cases hl : s.lock ip with
  | none => rfl
  | some p =>
    have hpos := h.ref_pos_of_locked hl
    omega

/-- A process that reads an inode in `ilock` has its lock. -/
theorem lock_of_read (h : Inv s) (hp : s.pc p = .ilockRead k) (hk : s.ptr k = some ip) :
    s.lock ip = some p := by
  obtain ⟨jp, hjp, hl⟩ := h.used p k (h.enters p k (.inr hp))
  obtain rfl := Option.some.inj (hk.symm.trans hjp)
  simpa [hp] using hl

/-- A process that runs has the lock of what it uses. -/
theorem lock_of_uses (h : Inv s) (hp : s.pc p = .run) (hu : s.uses p k = true)
    (hk : s.ptr k = some ip) : s.lock ip = some p := by
  obtain ⟨jp, hjp, hl⟩ := h.used p k hu
  obtain rfl := Option.some.inj (hk.symm.trans hjp)
  simpa [hp] using hl

/-- Process `p` goes elsewhere. -/
theorem goto (h : Inv s) {pc : InodePc κ} (hput : pc.putting = (s.pc p).putting)
    (hlocks : pc.locks = (s.pc p).locks) (hfree : ∀ ip, pc.freeing = some ip →
      (s.pc p).freeing = some ip) (hiput : ∀ ip, pc ≠ .iput ip)
    (henter : ∀ k, s.pc p ≠ .ilock k ∧ pc ≠ .ilock k ∧ pc ≠ .ilockRead k)
    (hread : ∀ k ip, s.pc p = .ilockRead k → s.ptr k = some ip → (s.inode ip).valid = true)
    (hpanic : s.pc p ≠ .panicked) : Inv (s.goto p pc) where
  counts := by
    refine h.counts.congr (fun x => ?_) fun _ => rfl
    rcases x with k | q
    · rfl
    · by_cases hq : q = p
      · subst hq
        simp [held, hput]
      · simp [held, hq]
  unique := h.unique
  locked ip q hl := by
    by_cases hq : q = p
    · subst hq
      simpa [hlocks] using h.locked ip q hl
    · simpa [hq] using h.locked ip q hl
  locks q ip hl := by
    by_cases hq : q = p
    · subst hq
      exact h.locks q ip (by simpa [hlocks] using hl)
    · exact h.locks q ip (by simpa [hq] using hl)
  used q k hu := by
    obtain ⟨ip, hk, hl⟩ := h.used q k hu
    refine ⟨ip, hk, hl.imp_left fun hq => ?_⟩
    have hne : q ≠ p := by
      rintro rfl
      exact (henter k).1 hq
    simpa [hne] using hq
  enters q k hq := by
    by_cases hqp : q = p
    · subst hqp
      simp [henter k] at hq
    · exact h.enters q k (by simpa [hqp] using hq)
  single q k j ip hu hu' hk hj hq hq' := by
    by_cases hqp : q = p
    · subst hqp
      exact h.single q k j ip hu hu' hk hj (henter k).1 (henter j).1
    · exact h.single q k j ip hu hu' hk hj (by simpa [hqp] using hq) (by simpa [hqp] using hq')
  apart q k ip hu hk := by
    by_cases hqp : q = p
    · subst hqp
      simpa [hlocks] using h.apart q k ip hu hk
    · simpa [hqp] using h.apart q k ip hu hk
  ready ip q hl := by
    rcases h.ready ip q hl with hv | ⟨k, hq, hk⟩
    · exact .inl hv
    · by_cases hqp : q = p
      · subst hqp
        exact .inl (hread k ip hq hk)
      · exact .inr ⟨k, by simpa [hqp] using hq, hk⟩
  dirty ip hd := by
    obtain ⟨q, hl, hq⟩ := h.dirty ip hd
    refine ⟨q, hl, ?_⟩
    by_cases hqp : q = p
    · subst hqp
      simpa [hlocks] using hq
    · simpa [hqp] using hq
  deciding q ip hq := by
    by_cases hqp : q = p
    · subst hqp
      simp [hiput ip] at hq
    · exact h.deciding q ip (by simpa [hqp] using hq)
  freeing q ip hq := by
    by_cases hqp : q = p
    · subst hqp
      exact h.freeing q ip (hfree ip (by simpa using hq))
    · exact h.freeing q ip (by simpa [hqp] using hq)
  clean ip hr hv hset := by
    refine h.clean ip hr hv fun q hl => ?_
    have hq := hset q hl
    by_cases hqp : q = p
    · subst hqp
      exact ⟨hpanic, by simpa [hlocks] using hq.2⟩
    · simpa [hqp] using hq

theorem not_deciding (h : Inv s) (hl : s.tableLock = none) : s.pc p ≠ .iput ip := by
  intro hp
  have htable := (h.deciding p ip hp).1
  rw [hl] at htable
  cases htable

theorem setTable (h : Inv s) (hl : s.tableLock = none) (o : Option ι) :
    Inv { s with tableLock := o } :=
  { h with deciding := fun _ _ hp => absurd hp (h.not_deciding hl) }

/-- The type of an inode that is in the table and valid, and not in the hands of an `iput` that
has cleared it, is not 0 on the disk. -/
theorem alloc (h : Inv s) {key : InodeKey} {d : Dinode} (ht : (s.disk key).type = 0) :
    Inv { s with disk := update s.disk key d } := by
  refine { h with freeing := fun p ip hp => ?_, clean := fun ip hr hv hset => ?_ }
  · obtain ⟨hv, hcopy, hdisk⟩ := h.freeing p ip hp
    have hne : (s.inode ip).key ≠ key := fun he => hdisk (he ▸ ht)
    exact ⟨hv, hcopy, by simpa [hne] using hdisk⟩
  · have hdisk := h.clean ip hr hv hset
    have hne : (s.inode ip).key ≠ key := fun he => hdisk.2.1 (he ▸ ht)
    simpa [hne] using hdisk

/-- `iget` and `idup` : the variable `k` gets a pointer. -/
theorem take (h : Inv s) {x : InodeEntry} (hk : s.ptr k = none) (hl : s.tableLock = none)
    (hx : (x.key = (s.inode ip).key ∧ x.valid = (s.inode ip).valid ∧
        x.copy = (s.inode ip).copy ∧ 0 < (s.inode ip).ref) ∨
      (x.valid = false ∧ (s.inode ip).ref = 0 ∧
        ∀ jp, 0 < (s.inode jp).ref → (s.inode jp).key ≠ x.key))
    (hr : x.ref = (s.inode ip).ref + 1) : Inv ((s.setInode ip x).setPtr k (some ip)) where
  counts := by
    refine h.counts.acquire (k := .inl k) (b := ip) (fun y hy => ?_) ?_ fun jp => ?_
    · rcases y with j | q
      · have hj : j ≠ k := fun hj => hy (congrArg Sum.inl hj)
        simp [held, hj]
      · rfl
    · simp [held, hk]
    · by_cases hj : jp = ip
      · subst hj
        simp [hr]
      · simp [hj]
  unique jp lp := by
    have hother : ∀ lp, lp ≠ ip → 0 < (s.inode lp).ref → (s.inode lp).key = x.key → False := by
      intro lp hne hlp hkey
      rcases hx with ⟨hxk, -, -, hpos⟩ | ⟨-, -, hno⟩
      · exact hne (h.unique lp ip hlp hpos (hkey.trans hxk))
      · exact hno lp hlp hkey
    by_cases hj : jp = ip <;> by_cases hl : lp = ip
    · exact fun _ _ _ => hj.trans hl.symm
    · intro _ hlp hkey
      simp only [setPtr_inode, setInode_inode, hj, hl, if_true, if_false] at hlp hkey
      exact absurd hkey.symm fun hkey => hother lp hl hlp hkey
    · intro hjp _ hkey
      simp only [setPtr_inode, setInode_inode, hj, hl, if_true, if_false] at hjp hkey
      exact absurd hkey fun hkey => hother jp hj hjp hkey
    · simpa [hj, hl] using h.unique jp lp
  locked jp p hp := by
    refine (h.locked jp p hp).imp_left ?_
    rintro ⟨j, hu, hj⟩
    have hne : j ≠ k := by
      rintro rfl
      simp [hk] at hj
    exact ⟨j, hu, by simpa [hne] using hj⟩
  locks := h.locks
  used p j hu := by
    obtain ⟨jp, hj, hp⟩ := h.used p j hu
    have hne : j ≠ k := by
      rintro rfl
      simp [hk] at hj
    exact ⟨jp, by simpa [hne] using hj, hp⟩
  enters := h.enters
  single p i j jp hu hu' hi hj := by
    have hne : ∀ j, s.uses p j = true → j ≠ k := by
      rintro j huse rfl
      obtain ⟨lp, hlp, -⟩ := h.used p j huse
      simp [hk] at hlp
    exact h.single p i j jp hu hu' (by simpa [hne i hu] using hi) (by simpa [hne j hu'] using hj)
  apart p j jp hu hj := by
    have hne : j ≠ k := by
      rintro rfl
      obtain ⟨lp, hlp, -⟩ := h.used p j hu
      simp [hk] at hlp
    exact h.apart p j jp hu (by simpa [hne] using hj)
  ready jp p hp := by
    have hvalid : (((s.setInode ip x).setPtr k (some ip)).inode jp).valid =
        (s.inode jp).valid := by
      by_cases hj : jp = ip
      · subst hj
        rcases hx with ⟨-, hv, -⟩ | ⟨-, hr0, -⟩
        · simpa using hv
        · rw [setPtr_lock, setInode_lock, h.lock_eq_none hr0] at hp
          cases hp
      · simp [hj]
    rw [hvalid]
    refine (h.ready jp p hp).imp_right ?_
    rintro ⟨j, hpc, hj⟩
    have hne : j ≠ k := by
      rintro rfl
      simp [hk] at hj
    exact ⟨j, hpc, by simpa [hne] using hj⟩
  dirty := h.dirty
  deciding p jp hp := absurd hp (h.not_deciding hl)
  freeing p jp hp := by
    have hold := h.freeing p jp hp
    by_cases hj : jp = ip
    · subst hj
      rcases hx with ⟨hk, hv, hc, -⟩ | ⟨-, hr0, -⟩
      · simpa [hk, hv, hc] using hold
      · have hpos := h.ref_pos_of_putting (InodePc.putting_of_freeing hp)
        omega
    · simpa [hj] using hold
  clean jp hjp hv hset := by
    by_cases hj : jp = ip
    · subst hj
      rcases hx with ⟨hk, hv', hc, hpos⟩ | ⟨hx, -⟩
      · simp only [setPtr_inode, setInode_inode, if_true] at hv
        have hold := h.clean jp hpos (hv' ▸ hv) hset
        simpa [hk, hc] using hold
      · simp [hx] at hv
    · have hold := h.clean jp (by simpa [hj] using hjp) (by simpa [hj] using hv) hset
      simpa [hj] using hold

/-- A process calls `ilock`. -/
theorem ilock (h : Inv s) (hp : s.pc p = .run) (hk : s.ptr k = some ip) :
    Inv ((s.setUse p k true).goto p (.ilock k)) where
  counts := by
    refine h.counts.congr (fun x => ?_) fun _ => rfl
    rcases x with j | q
    · rfl
    · by_cases hq : q = p
      · subst hq
        simp [held, hp, InodePc.putting]
      · simp [held, hq, setUse]
  unique := h.unique
  locked jp q hl := by
    refine (h.locked jp q hl).imp ?_ fun hq => ?_
    · rintro ⟨j, hu, hj⟩
      exact ⟨j, by simp [setUse_uses, hu], hj⟩
    · have hqp : q ≠ p := by
        rintro rfl
        simp [hp, InodePc.locks] at hq
      simpa [hqp] using hq
  locks q jp hq := by
    have hqp : q ≠ p := by
      rintro rfl
      simp [InodePc.locks] at hq
    exact h.locks q jp (by simpa [hqp] using hq)
  used q j hu := by
    by_cases hqp : q = p
    · subst hqp
      by_cases hj : j = k
      · subst hj
        exact ⟨ip, hk, .inl (by simp)⟩
      · obtain ⟨jp, hjp, hl⟩ := h.used q j (by simpa [setUse_uses, hj] using hu)
        refine ⟨jp, hjp, .inr ?_⟩
        simpa [hp] using hl
    · obtain ⟨jp, hjp, hl⟩ := h.used q j (by simpa [setUse_uses, hqp] using hu)
      exact ⟨jp, hjp, hl.imp_left fun hq => by simpa [hqp] using hq⟩
  enters q j hq := by
    by_cases hqp : q = p
    · subst hqp
      obtain rfl : k = j := by simpa using hq
      simp [setUse_uses]
    · have hu := h.enters q j (by simpa [hqp] using hq)
      simpa [setUse_uses, hqp] using hu
  single q i j jp hu hu' hi hj hq hq' := by
    by_cases hqp : q = p
    · subst hqp
      simp only [goto_pc, if_true, ne_eq, InodePc.ilock.injEq] at hq hq'
      have hold := h.single q i j jp (by simpa [setUse_uses, Ne.symm hq] using hu)
        (by simpa [setUse_uses, Ne.symm hq'] using hu') hi hj
      simp only [hp] at hold
      exact hold (by simp) (by simp)
    · exact h.single q i j jp (by simpa [setUse_uses, hqp] using hu)
        (by simpa [setUse_uses, hqp] using hu') hi hj (by simpa [hqp] using hq)
        (by simpa [hqp] using hq')
  apart q j jp hu hj := by
    by_cases hqp : q = p
    · subst hqp
      simp [InodePc.locks]
    · simpa [hqp] using h.apart q j jp (by simpa [setUse_uses, hqp] using hu) hj
  ready jp q hl := by
    refine (h.ready jp q hl).imp_right ?_
    rintro ⟨j, hq, hj⟩
    have hqp : q ≠ p := by
      rintro rfl
      simp [hp] at hq
    exact ⟨j, by simpa [hqp] using hq, hj⟩
  dirty jp hd := by
    obtain ⟨q, hl, hq⟩ := h.dirty jp hd
    refine ⟨q, hl, ?_⟩
    by_cases hqp : q = p
    · subst hqp
      simp [InodePc.locks]
    · simpa [hqp] using hq
  deciding q jp hq := by
    have hqp : q ≠ p := by
      rintro rfl
      simp at hq
    exact h.deciding q jp (by simpa [hqp] using hq)
  freeing q jp hq := by
    have hqp : q ≠ p := by
      rintro rfl
      simp [InodePc.freeing] at hq
    exact h.freeing q jp (by simpa [hqp] using hq)
  clean jp hr hv hset := by
    refine h.clean jp hr hv fun q hl => ?_
    have hq := hset q hl
    by_cases hqp : q = p
    · subst hqp
      simp [hp, InodePc.locks]
    · simpa [hqp] using hq

/-- A process that uses a variable has a reference that no call of `iput` can take for its own. -/
theorem not_sole (h : Inv s) (hk : s.ptr k = some ip) (hp : (s.pc p).putting = some ip) :
    (s.inode ip).ref ≠ 1 := by
  intro hr
  have heq := h.counts.unique hr (mem_held_inl.2 hk) (mem_held_inr.2 hp)
  cases heq

/-- `acquiresleep` in `ilock`. -/
theorem acquiresleep (h : Inv s) (hp : s.pc p = .ilock k) (hk : s.ptr k = some ip)
    (hl : s.lock ip = none) : Inv ((s.setLock ip (some p)).goto p (.ilockRead k)) where
  counts := by
    refine h.counts.congr (fun x => ?_) fun _ => rfl
    rcases x with j | q
    · rfl
    · by_cases hq : q = p
      · subst hq
        simp [held, hp, InodePc.putting]
      · simp [held, hq, setLock]
  unique := h.unique
  locked jp q hq := by
    by_cases hj : jp = ip
    · subst hj
      obtain rfl : p = q := by simpa using hq
      exact .inl ⟨k, h.enters p k (.inl hp), hk⟩
    · refine (h.locked jp q (by simpa [hj] using hq)).imp_right fun hlocks => ?_
      have hqp : q ≠ p := by
        rintro rfl
        simp [hp, InodePc.locks] at hlocks
      simpa [hqp] using hlocks
  locks q jp hq := by
    have hqp : q ≠ p := by
      rintro rfl
      simp [InodePc.locks] at hq
    have hold := h.locks q jp (by simpa [hqp] using hq)
    have hj : jp ≠ ip := by
      rintro rfl
      simp [hl] at hold
    simpa [hj] using hold
  used q j hu := by
    obtain ⟨jp, hjp, hq⟩ := h.used q j hu
    by_cases hqp : q = p
    · subst hqp
      refine ⟨jp, hjp, .inr ?_⟩
      by_cases hj : jp = ip
      · simp [hj]
      · rcases hq with hq | hq
        · obtain rfl : k = j := by simpa [hp] using hq
          exact absurd (Option.some.inj (hjp.symm.trans hk)) hj
        · simpa [hj] using hq
    · refine ⟨jp, hjp, hq.imp (fun hq => by simpa [hqp] using hq) fun hq => ?_⟩
      have hj : jp ≠ ip := by
        rintro rfl
        simp [hl] at hq
      simpa [hj] using hq
  enters q j hq := by
    by_cases hqp : q = p
    · subst hqp
      obtain rfl : k = j := by simpa using hq
      exact h.enters q k (.inl hp)
    · exact h.enters q j (by simpa [hqp] using hq)
  single q i j jp hu hu' hi hj hq hq' := by
    by_cases hqp : q = p
    · subst hqp
      have hout : ∀ i, s.uses q i = true → s.ptr i = some ip → i = k := by
        intro i hu hi
        obtain ⟨lp, hlp, hlock⟩ := h.used q i hu
        obtain rfl := Option.some.inj (hi.symm.trans hlp)
        simpa [hl, hp, eq_comm] using hlock
      by_cases hjp : jp = ip
      · subst hjp
        exact (hout i hu hi).trans (hout j hu' hj).symm
      · have hne : ∀ i, s.ptr i = some jp → s.pc q ≠ .ilock i := by
          intro i hi hq
          obtain rfl : k = i := by simpa [hp] using hq
          exact hjp (Option.some.inj (hi.symm.trans hk))
        exact h.single q i j jp hu hu' hi hj (hne i hi) (hne j hj)
    · exact h.single q i j jp hu hu' hi hj (by simpa [hqp] using hq) (by simpa [hqp] using hq')
  apart q j jp hu hj := by
    by_cases hqp : q = p
    · subst hqp
      simp [InodePc.locks]
    · simpa [hqp] using h.apart q j jp hu hj
  ready jp q hq := by
    by_cases hj : jp = ip
    · subst hj
      obtain rfl : p = q := by simpa using hq
      exact .inr ⟨k, by simp, hk⟩
    · refine (h.ready jp q (by simpa [hj] using hq)).imp_right ?_
      rintro ⟨j, hpc, hjp⟩
      have hqp : q ≠ p := by
        rintro rfl
        simp [hp] at hpc
      exact ⟨j, by simpa [hqp] using hpc, hjp⟩
  dirty jp hd := by
    obtain ⟨q, hq, hlocks⟩ := h.dirty jp hd
    have hj : jp ≠ ip := by
      rintro rfl
      simp [hl] at hq
    refine ⟨q, by simpa [hj] using hq, ?_⟩
    by_cases hqp : q = p
    · subst hqp
      simp [InodePc.locks]
    · simpa [hqp] using hlocks
  deciding q jp hq := by
    have hqp : q ≠ p := by
      rintro rfl
      simp at hq
    obtain ⟨ht, hlock, hr⟩ := h.deciding q jp (by simpa [hqp] using hq)
    have hj : jp ≠ ip := by
      rintro rfl
      refine h.not_sole hk (p := q) ?_ hr
      simp only [goto_pc, hqp, if_false] at hq
      exact congrArg InodePc.putting hq
    exact ⟨ht, by simpa [hj] using hlock, hr⟩
  freeing q jp hq := by
    have hqp : q ≠ p := by
      rintro rfl
      simp [InodePc.freeing] at hq
    exact h.freeing q jp (by simpa [hqp] using hq)
  clean jp hr hv hset := by
    refine h.clean jp hr hv fun q hq => ?_
    have hj : jp ≠ ip := by
      rintro rfl
      simp [hl] at hq
    have hq' := hset q (by simpa [hj] using hq)
    by_cases hqp : q = p
    · subst hqp
      simp [hp, InodePc.locks]
    · simpa [hqp] using hq'

/-- `ilock` reads the inode from the disk, and panics if it is free. -/
theorem read (h : Inv s) {pc : InodePc κ} (hp : s.pc p = .ilockRead k) (hk : s.ptr k = some ip)
    (hpc : pc = .run ∧ (s.disk (s.inode ip).key).type ≠ 0 ∨ pc = .panicked) :
    Inv ((s.setInode ip { s.inode ip with
      copy := s.disk (s.inode ip).key, valid := true }).goto p pc) := by
  have hlock := h.lock_of_read hp hk
  have hput : pc.putting = none := by
    rcases hpc with ⟨rfl, -⟩ | rfl <;> rfl
  have hlocks : pc.locks = none := by
    rcases hpc with ⟨rfl, -⟩ | rfl <;> rfl
  have hfree : pc.freeing = none := by
    rcases hpc with ⟨rfl, -⟩ | rfl <;> rfl
  have hilock : ∀ j, pc ≠ .ilock j ∧ pc ≠ .ilockRead j := by
    rcases hpc with ⟨rfl, -⟩ | rfl <;> simp
  have hiput : ∀ jp, pc ≠ .iput jp := by
    rcases hpc with ⟨rfl, -⟩ | rfl <;> simp
  constructor
  case counts =>
    refine h.counts.congr (fun x => ?_) fun jp => ?_
    · rcases x with j | q
      · rfl
      · by_cases hq : q = p
        · subst hq
          simp only [held, goto_pc, if_true, hput, hp]
          rfl
        · simp [held, hq]
    · by_cases hj : jp = ip
      · simp [hj]
      · simp [hj]
  case unique =>
    have hkey : ∀ jp, ((s.setInode ip { s.inode ip with
        copy := s.disk (s.inode ip).key, valid := true }).inode jp).key = (s.inode jp).key ∧
        ((s.setInode ip { s.inode ip with
          copy := s.disk (s.inode ip).key, valid := true }).inode jp).ref = (s.inode jp).ref := by
      intro jp
      by_cases hj : jp = ip
      · simp [hj]
      · simp [hj]
    intro jp lp hjp hlp he
    rw [goto_inode] at hjp hlp he
    rw [(hkey jp).2] at hjp
    rw [(hkey lp).2] at hlp
    rw [(hkey jp).1, (hkey lp).1] at he
    exact h.unique jp lp hjp hlp he
  case locked =>
    intro jp q hq
    refine (h.locked jp q hq).imp_right fun hl => ?_
    have hqp : q ≠ p := by
      rintro rfl
      simp [hp, InodePc.locks] at hl
    simpa [hqp] using hl
  case locks =>
    intro q jp hq
    have hqp : q ≠ p := by
      rintro rfl
      simp [hlocks] at hq
    exact h.locks q jp (by simpa [hqp] using hq)
  case used =>
    intro q j hu
    obtain ⟨jp, hjp, hq⟩ := h.used q j hu
    refine ⟨jp, hjp, hq.imp_left fun hq => ?_⟩
    have hqp : q ≠ p := by
      rintro rfl
      simp [hp] at hq
    simpa [hqp] using hq
  case enters =>
    intro q j hq
    have hqp : q ≠ p := by
      rintro rfl
      simp [hilock j] at hq
    exact h.enters q j (by simpa [hqp] using hq)
  case single =>
    intro q i j jp hu hu' hi hj hq hq'
    by_cases hqp : q = p
    · subst hqp
      exact h.single q i j jp hu hu' hi hj (by simp [hp]) (by simp [hp])
    · exact h.single q i j jp hu hu' hi hj (by simpa [hqp] using hq) (by simpa [hqp] using hq')
  case apart =>
    intro q j jp hu hj
    by_cases hqp : q = p
    · subst hqp
      simp [hlocks]
    · simpa [hqp] using h.apart q j jp hu hj
  case ready =>
    intro jp q hq
    by_cases hj : jp = ip
    · exact .inl (by simp [hj])
    · refine (h.ready jp q hq).imp (fun hv => by simpa [hj] using hv) ?_
      rintro ⟨j, hqj, hjp⟩
      have hqp : q ≠ p := by
        rintro rfl
        obtain rfl : k = j := by simpa [hp] using hqj
        exact hj (Option.some.inj (hjp.symm.trans hk))
      exact ⟨j, by simpa [hqp] using hqj, hjp⟩
  case dirty =>
    intro jp hd
    obtain ⟨q, hl, hq⟩ := h.dirty jp hd
    refine ⟨q, hl, ?_⟩
    by_cases hqp : q = p
    · subst hqp
      simp [hlocks]
    · simpa [hqp] using hq
  case deciding =>
    intro q jp hq
    have hqp : q ≠ p := by
      rintro rfl
      simp [hiput jp] at hq
    obtain ⟨ht, hl, hr⟩ := h.deciding q jp (by simpa [hqp] using hq)
    have hj : jp ≠ ip := by
      rintro rfl
      simp [hlock] at hl
    exact ⟨ht, hl, by simpa [hj] using hr⟩
  case freeing =>
    intro q jp hq
    have hqp : q ≠ p := by
      rintro rfl
      simp [hfree] at hq
    have hq' : (s.pc q).freeing = some jp := by simpa [hqp] using hq
    have hj : jp ≠ ip := by
      rintro rfl
      rcases InodePc.locks_of_freeing hq' with hi | hl
      · have hnone := (h.deciding q jp hi).2.1
        simp [hlock] at hnone
      · have hown := h.locks q jp hl
        rw [hlock] at hown
        exact hqp (Option.some.inj hown).symm
    simpa [hj] using h.freeing q jp hq'
  case clean =>
    intro jp hr hv hset
    by_cases hj : jp = ip
    · subst hj
      rcases hpc with ⟨rfl, ht⟩ | rfl
      · simpa using ht
      · exact absurd (by simp) (hset p hlock).1
    · have hset' : s.Settled jp := by
        intro q hq
        have hold := hset q hq
        by_cases hqp : q = p
        · subst hqp
          simp [hp, InodePc.locks]
        · simpa [hqp] using hold
      simpa [hj] using h.clean jp (by simpa [hj] using hr) (by simpa [hj] using hv) hset'

/-- An `iput` that is freeing the inode has its lock, or nobody has. -/
theorem not_freeing (h : Inv s) (hl : s.lock ip = some p) (hp : (s.pc p).locks ≠ some ip) :
    (s.pc q).freeing ≠ some ip := by
  intro hq
  rcases InodePc.locks_of_freeing hq with hi | hlocks
  · have hnone := (h.deciding q ip hi).2.1
    simp [hl] at hnone
  · have hown := h.locks q ip hlocks
    obtain rfl := Option.some.inj (hl.symm.trans hown)
    exact hp hlocks

/-- What a running process knows of an inode it has locked. -/
theorem of_uses (h : Inv s) (hp : s.pc p = .run) (hu : s.uses p k = true)
    (hk : s.ptr k = some ip) : s.lock ip = some p ∧ (s.inode ip).valid = true ∧
      (s.inode ip).copy.type ≠ 0 ∧ (s.disk (s.inode ip).key).type ≠ 0 ∧
      (s.dirty ip = false → (s.inode ip).copy = s.disk (s.inode ip).key) := by
  have hl := h.lock_of_uses hp hu hk
  have hv : (s.inode ip).valid = true := by
    simpa [hp] using h.ready ip p hl
  have hset : s.Settled ip := by
    intro q hq
    obtain rfl := Option.some.inj (hl.symm.trans hq)
    simp [hp, InodePc.locks]
  exact ⟨hl, hv, h.clean ip (h.ref_pos hk) hv hset⟩

/-- A caller changes an inode it has locked. -/
theorem modify (h : Inv s) {d : Dinode} (hp : s.pc p = .run) (hu : s.uses p k = true)
    (hk : s.ptr k = some ip) (hd : d.type ≠ 0) :
    Inv { s.setInode ip { s.inode ip with copy := d } with dirty := update s.dirty ip true } := by
  obtain ⟨hl, -, -, hdisk, -⟩ := h.of_uses hp hu hk
  have hno : (s.pc p).locks ≠ some ip := by
    simp [hp, InodePc.locks]
  have hentry : ∀ jp, ((s.setInode ip { s.inode ip with copy := d }).inode jp).key =
      (s.inode jp).key ∧
      ((s.setInode ip { s.inode ip with copy := d }).inode jp).ref = (s.inode jp).ref ∧
      ((s.setInode ip { s.inode ip with copy := d }).inode jp).valid = (s.inode jp).valid := by
    intro jp
    by_cases hj : jp = ip
    · simp [hj]
    · simp [hj]
  refine { h with
    counts := h.counts.congr (fun _ => rfl) fun jp => (hentry jp).2.1
    unique := fun jp lp hjp hlp he => ?_
    ready := fun jp q hq => ?_
    dirty := fun jp hj => ?_
    deciding := fun q jp hq => ?_
    freeing := fun q jp hq => ?_
    clean := fun jp hr hv hset => ?_ }
  · rw [(hentry jp).2.1] at hjp
    rw [(hentry lp).2.1] at hlp
    rw [(hentry jp).1, (hentry lp).1] at he
    exact h.unique jp lp hjp hlp he
  · rw [(hentry jp).2.2]
    exact h.ready jp q hq
  · by_cases hjp : jp = ip
    · subst hjp
      exact ⟨p, hl, hno⟩
    · exact h.dirty jp (by simpa [hjp] using hj)
  · obtain ⟨ht, hlock, hr⟩ := h.deciding q jp hq
    exact ⟨ht, hlock, (hentry jp).2.1.trans hr⟩
  · have hj : jp ≠ ip := by
      rintro rfl
      exact h.not_freeing hl hno hq
    simpa [hj] using h.freeing q jp hq
  · by_cases hj : jp = ip
    · subst hj
      simpa using ⟨hd, hdisk⟩
    · simpa [hj] using h.clean jp (by simpa [hj] using hr) (by simpa [hj] using hv) hset

/-- The inode of an entry in use is that of no other. -/
theorem key_ne (h : Inv s) (hi : 0 < (s.inode ip).ref) (hj : 0 < (s.inode jp).ref)
    (hne : jp ≠ ip) : (s.inode jp).key ≠ (s.inode ip).key :=
  fun he => hne (h.unique jp ip hj hi he)

/-- `iupdate`, by a caller. -/
theorem update (h : Inv s) (hp : s.pc p = .run) (hu : s.uses p k = true)
    (hk : s.ptr k = some ip) :
    Inv { s.iupdate ip with dirty := Function.update s.dirty ip false } := by
  obtain ⟨hl, hv, hcopy, hdisk, -⟩ := h.of_uses hp hu hk
  have hpos : 0 < (s.inode ip).ref := h.ref_pos hk
  refine { h with
    dirty := fun jp hj => ?_
    freeing := fun q jp hq => ?_
    clean := fun jp hr hv hset => ?_ }
  · have hjp : jp ≠ ip := by
      rintro rfl
      simp at hj
    exact h.dirty jp (by simpa [hjp] using hj)
  · have hj : jp ≠ ip := by
      rintro rfl
      exact h.not_freeing hl (by simp [hp, InodePc.locks]) hq
    have hkey := h.key_ne hpos (h.ref_pos_of_putting (InodePc.putting_of_freeing hq)) hj
    simpa [hkey] using h.freeing q jp hq
  · by_cases hj : jp = ip
    · subst hj
      simpa using hcopy
    · have hkey := h.key_ne hpos hr hj
      simp only [iupdate_inode] at hr hv hkey
      simpa [hj, hkey] using h.clean jp hr hv hset

/-- `iunlock`. -/
theorem unlock (h : Inv s) (hp : s.pc p = .run) (hu : s.uses p k = true) (hk : s.ptr k = some ip)
    (hd : s.dirty ip = false) : Inv ((s.setLock ip none).setUse p k false) := by
  obtain ⟨hl, hv, hclean⟩ := h.of_uses hp hu hk
  have hno : ∀ q, (s.pc q).locks ≠ some ip := by
    intro q hq
    obtain rfl := Option.some.inj (hl.symm.trans (h.locks q ip hq))
    simp [hp, InodePc.locks] at hq
  have hlock : ∀ jp q, jp ≠ ip → s.lock jp = some q →
      ((s.setLock ip none).setUse p k false).lock jp = some q := by
    intro jp q hj hq
    simpa [hj] using hq
  have hold : ∀ jp q, ((s.setLock ip none).setUse p k false).lock jp = some q →
      jp ≠ ip ∧ s.lock jp = some q := by
    intro jp q hq
    by_cases hj : jp = ip
    · simp [hj] at hq
    · exact ⟨hj, by simpa [hj] using hq⟩
  have huse : ∀ q j, ((s.setLock ip none).setUse p k false).uses q j = true →
      s.uses q j = true ∧ ¬(q = p ∧ j = k) := by
    intro q j hq
    rw [setUse_uses] at hq
    split_ifs at hq with hqj
    exact ⟨hq, hqj⟩
  refine { h with
    locked := fun jp q hq => ?_
    locks := fun q jp hq => ?_
    used := fun q j hq => ?_
    enters := fun q j hq => ?_
    single := fun q i j jp hi hj => h.single q i j jp (huse q i hi).1 (huse q j hj).1
    apart := fun q j jp hj => h.apart q j jp (huse q j hj).1
    ready := fun jp q hq => h.ready jp q (hold jp q hq).2
    dirty := fun jp hj => ?_
    deciding := fun q jp hq => ?_
    clean := fun jp hr hv hset => ?_ }
  · obtain ⟨hj, hq⟩ := hold jp q hq
    refine (h.locked jp q hq).imp_left ?_
    rintro ⟨j, huj, hjp⟩
    refine ⟨j, ?_, hjp⟩
    rw [setUse_uses, if_neg]
    · exact huj
    · rintro ⟨-, rfl⟩
      exact hj (Option.some.inj (hjp.symm.trans hk))
  · have hj : jp ≠ ip := by
      rintro rfl
      exact hno q hq
    exact hlock jp q hj (h.locks q jp hq)
  · obtain ⟨hu', hne⟩ := huse q j hq
    obtain ⟨jp, hjp, hor⟩ := h.used q j hu'
    refine ⟨jp, hjp, ?_⟩
    rcases hor with hpc | hlq
    · exact .inl hpc
    · refine .inr (hlock jp q ?_ hlq)
      rintro rfl
      -- the holder uses no other variable with the same pointer
      obtain rfl := Option.some.inj (hl.symm.trans hlq)
      exact hne ⟨rfl, h.single p j k jp hu' hu hjp hk (by simp [hp]) (by simp [hp])⟩
  · have hqp : q ≠ p := by
      rintro rfl
      simp [hp] at hq
    have hu' := h.enters q j hq
    simpa [setUse_uses, hqp] using hu'
  · obtain ⟨q, hq, hlocks⟩ := h.dirty jp hj
    have hjp : jp ≠ ip := by
      rintro rfl
      simp [hd] at hj
    exact ⟨q, hlock jp q hjp hq, hlocks⟩
  · obtain ⟨ht, hlq, hr⟩ := h.deciding q jp hq
    have hj : jp ≠ ip := by
      rintro rfl
      simp [hl] at hlq
    exact ⟨ht, by simpa [hj] using hlq, hr⟩
  · by_cases hj : jp = ip
    · subst hj
      exact hclean
    · exact h.clean jp hr hv fun q hq => hset q (hlock jp q hj hq)

/-- Nobody has the lock of an entry with a sole reference that is not in use. -/
theorem lock_of_sole (h : Inv s) (hk : s.ptr k = some ip) (hu : ∀ q, s.uses q k = false)
    (hr : (s.inode ip).ref = 1) : s.lock ip = none := by
  cases hl : s.lock ip with
  | none => rfl
  | some p =>
    rcases h.locked ip p hl with ⟨j, huj, hj⟩ | hp
    · have heq := h.counts.unique hr (mem_held_inl.2 hk) (mem_held_inl.2 hj)
      obtain rfl := Sum.inl.inj heq
      simp [hu p] at huj
    · exact absurd hr (h.not_sole hk (InodePc.putting_of_locks hp))

/-- The entry `ip` loses a reference. -/
theorem entry_unref (jp : InodePtr) :
    ((s.setInode ip { s.inode ip with ref := (s.inode ip).ref - 1 }).inode jp).key =
      (s.inode jp).key ∧
    ((s.setInode ip { s.inode ip with ref := (s.inode ip).ref - 1 }).inode jp).valid =
      (s.inode jp).valid ∧
    ((s.setInode ip { s.inode ip with ref := (s.inode ip).ref - 1 }).inode jp).copy =
      (s.inode jp).copy ∧
    ((s.setInode ip { s.inode ip with ref := (s.inode ip).ref - 1 }).inode jp).ref =
      (if jp = ip then (s.inode ip).ref - 1 else (s.inode jp).ref) ∧
    ((s.setInode ip { s.inode ip with ref := (s.inode ip).ref - 1 }).inode jp).ref ≤
      (s.inode jp).ref := by
  by_cases hj : jp = ip
  · simp [hj]
  · simp [hj]

/-- An `iput` that does not free the inode. -/
theorem iput (h : Inv s) (hk : s.ptr k = some ip) (hu : ∀ q, s.uses q k = false)
    (hl : s.tableLock = none) :
    Inv ((s.setInode ip { s.inode ip with ref := (s.inode ip).ref - 1 }).setPtr k none) := by
  have hptr : ∀ j jp, j ≠ k → s.ptr j = some jp →
      ((s.setInode ip { s.inode ip with ref := (s.inode ip).ref - 1 }).setPtr k none).ptr j =
        some jp := by
    intro j jp hj hjp
    simpa [hj] using hjp
  have hne : ∀ q j, s.uses q j = true → j ≠ k := by
    rintro q j hq rfl
    simp [hu q] at hq
  have hpos : ∀ jp, 0 < ((s.setInode ip { s.inode ip with
      ref := (s.inode ip).ref - 1 }).inode jp).ref → 0 < (s.inode jp).ref :=
    fun jp hr => lt_of_lt_of_le hr (entry_unref jp).2.2.2.2
  refine { h with
    counts := ?_
    unique := fun jp lp hjp hlp he => ?_
    locked := fun jp q hq => ?_
    used := fun q j hq => ?_
    single := fun q i j jp hi hj hip hjp => ?_
    apart := fun q j jp hj hjp => h.apart q j jp hj (by simpa [hne q j hj] using hjp)
    ready := fun jp q hq => ?_
    deciding := fun q jp hq => absurd hq (h.not_deciding hl)
    freeing := fun q jp hq => ?_
    clean := fun jp hr hv hset => ?_ }
  · refine h.counts.release (k := .inl k) (b := ip) (fun x hx => ?_) ?_ fun jp =>
      (entry_unref jp).2.2.2.1
    · rcases x with j | q
      · have hj : j ≠ k := fun hj => hx (congrArg Sum.inl hj)
        simp [held, hj]
      · rfl
    · simp [held, hk]
  · simp only [setPtr_inode] at hjp hlp he
    rw [(entry_unref jp).1, (entry_unref lp).1] at he
    exact h.unique jp lp (hpos jp hjp) (hpos lp hlp) he
  · refine (h.locked jp q hq).imp_left ?_
    rintro ⟨j, huj, hj⟩
    exact ⟨j, huj, hptr j jp (hne q j huj) hj⟩
  · obtain ⟨jp, hjp, hor⟩ := h.used q j hq
    exact ⟨jp, hptr j jp (hne q j hq) hjp, hor⟩
  · have hi' := hne q i hi
    have hj' := hne q j hj
    exact h.single q i j jp hi hj (by simpa [hi'] using hip) (by simpa [hj'] using hjp)
  · rw [setPtr_inode, (entry_unref jp).2.1]
    refine (h.ready jp q hq).imp_right ?_
    rintro ⟨j, hpc, hj⟩
    exact ⟨j, hpc, hptr j jp (hne q j (h.enters q j (.inr hpc))) hj⟩
  · simp only [setPtr_inode, setPtr_disk, setInode_disk]
    rw [(entry_unref jp).1, (entry_unref jp).2.1, (entry_unref jp).2.2.1]
    exact h.freeing q jp hq
  · simp only [setPtr_inode, setPtr_disk, setInode_disk] at hr hv ⊢
    rw [(entry_unref jp).2.1] at hv
    rw [(entry_unref jp).1, (entry_unref jp).2.2.1]
    exact h.clean jp (hpos jp hr) hv hset

/-- The end of an `iput` that has freed the inode. -/
theorem unref (h : Inv s) (hp : s.pc p = .unref ip) (hl : s.tableLock = none) :
    Inv ((s.setInode ip { s.inode ip with ref := (s.inode ip).ref - 1 }).goto p .run) := by
  have hpos : ∀ jp, 0 < ((s.setInode ip { s.inode ip with
      ref := (s.inode ip).ref - 1 }).inode jp).ref → 0 < (s.inode jp).ref :=
    fun jp hr => lt_of_lt_of_le hr (entry_unref jp).2.2.2.2
  constructor
  case counts =>
    refine h.counts.release (k := .inr p) (b := ip) (fun x hx => ?_) ?_ fun jp =>
      (entry_unref jp).2.2.2.1
    · rcases x with j | q
      · rfl
      · have hq : q ≠ p := fun hq => hx (congrArg Sum.inr hq)
        simp [held, hq]
    · simp [held, hp, InodePc.putting]
  case unique =>
    intro jp lp hjp hlp he
    simp only [goto_inode] at hjp hlp he
    rw [(entry_unref jp).1, (entry_unref lp).1] at he
    exact h.unique jp lp (hpos jp hjp) (hpos lp hlp) he
  case locked =>
    intro jp q hq
    refine (h.locked jp q hq).imp_right fun hlocks => ?_
    have hqp : q ≠ p := by
      rintro rfl
      simp [hp, InodePc.locks] at hlocks
    simpa [hqp] using hlocks
  case locks =>
    intro q jp hq
    have hqp : q ≠ p := by
      rintro rfl
      simp [InodePc.locks] at hq
    exact h.locks q jp (by simpa [hqp] using hq)
  case used =>
    intro q j hq
    obtain ⟨jp, hjp, hor⟩ := h.used q j hq
    refine ⟨jp, hjp, hor.imp_left fun hpc => ?_⟩
    have hqp : q ≠ p := by
      rintro rfl
      simp [hp] at hpc
    simpa [hqp] using hpc
  case enters =>
    intro q j hq
    have hqp : q ≠ p := by
      rintro rfl
      simp at hq
    exact h.enters q j (by simpa [hqp] using hq)
  case single =>
    intro q i j jp hi hj hip hjp hpi hpj
    by_cases hqp : q = p
    · subst hqp
      exact h.single q i j jp hi hj hip hjp (by simp [hp]) (by simp [hp])
    · exact h.single q i j jp hi hj hip hjp (by simpa [hqp] using hpi) (by simpa [hqp] using hpj)
  case apart =>
    intro q j jp hj hjp
    by_cases hqp : q = p
    · subst hqp
      simp [InodePc.locks]
    · simpa [hqp] using h.apart q j jp hj hjp
  case ready =>
    intro jp q hq
    rw [goto_inode, (entry_unref jp).2.1]
    refine (h.ready jp q hq).imp_right ?_
    rintro ⟨j, hpc, hj⟩
    have hqp : q ≠ p := by
      rintro rfl
      simp [hp] at hpc
    exact ⟨j, by simpa [hqp] using hpc, hj⟩
  case dirty =>
    intro jp hd
    obtain ⟨q, hq, hlocks⟩ := h.dirty jp hd
    refine ⟨q, hq, ?_⟩
    by_cases hqp : q = p
    · subst hqp
      simp [InodePc.locks]
    · simpa [hqp] using hlocks
  case deciding =>
    intro q jp hq
    have hqp : q ≠ p := by
      rintro rfl
      simp at hq
    exact absurd (by simpa [hqp] using hq) (h.not_deciding hl)
  case freeing =>
    intro q jp hq
    have hqp : q ≠ p := by
      rintro rfl
      simp [InodePc.freeing] at hq
    simp only [goto_inode, goto_disk, setInode_disk]
    rw [(entry_unref jp).1, (entry_unref jp).2.1, (entry_unref jp).2.2.1]
    exact h.freeing q jp (by simpa [hqp] using hq)
  case clean =>
    intro jp hr hv hset
    simp only [goto_inode, goto_disk, setInode_disk] at hr hv ⊢
    rw [(entry_unref jp).2.1] at hv
    rw [(entry_unref jp).1, (entry_unref jp).2.2.1]
    refine h.clean jp (hpos jp hr) hv fun q hq => ?_
    have hold := hset q hq
    by_cases hqp : q = p
    · subst hqp
      simp [hp, InodePc.locks]
    · simpa [hqp] using hold

/-- `iput` decides to free the inode. -/
theorem free (h : Inv s) (hp : s.pc p = .run) (hk : s.ptr k = some ip)
    (hu : ∀ q, s.uses q k = false) (hl : s.tableLock = none) (hf : s.Frees ip) :
    Inv (({ s with tableLock := some p }.setPtr k none).goto p (.iput ip)) := by
  obtain ⟨hr, hv, -⟩ := hf
  have hlock := h.lock_of_sole hk hu hr
  have hset : s.Settled ip := by
    intro q hq
    simp [hlock] at hq
  obtain ⟨hcopy, hdisk, -⟩ := h.clean ip (h.ref_pos hk) hv hset
  have hne : ∀ q j, s.uses q j = true → j ≠ k := by
    rintro q j hq rfl
    simp [hu q] at hq
  have hptr : ∀ j jp, j ≠ k → s.ptr j = some jp →
      (({ s with tableLock := some p }.setPtr k none).goto p (.iput ip)).ptr j = some jp := by
    intro j jp hj hjp
    simpa [hj] using hjp
  constructor
  case counts =>
    refine h.counts.pass (k := .inl k) (j := .inr p) (b := ip) (fun x hx hx' => ?_) (by simp) ?_ ?_
    · rcases x with j | q
      · have hj : j ≠ k := fun hj => hx (congrArg Sum.inl hj)
        simp [held, hj]
      · have hq : q ≠ p := fun hq => hx' (congrArg Sum.inr hq)
        simp [held, hq]
    · simp [held, hk]
    · simp [held, hp, InodePc.putting]
  case unique => exact h.unique
  case locked =>
    intro jp q hq
    refine (h.locked jp q hq).imp ?_ fun hlocks => ?_
    · rintro ⟨j, huj, hj⟩
      exact ⟨j, huj, hptr j jp (hne q j huj) hj⟩
    · have hqp : q ≠ p := by
        rintro rfl
        simp [hp, InodePc.locks] at hlocks
      simpa [hqp] using hlocks
  case locks =>
    intro q jp hq
    have hqp : q ≠ p := by
      rintro rfl
      simp [InodePc.locks] at hq
    exact h.locks q jp (by simpa [hqp] using hq)
  case used =>
    intro q j hq
    obtain ⟨jp, hjp, hor⟩ := h.used q j hq
    refine ⟨jp, hptr j jp (hne q j hq) hjp, hor.imp_left fun hpc => ?_⟩
    have hqp : q ≠ p := by
      rintro rfl
      simp [hp] at hpc
    simpa [hqp] using hpc
  case enters =>
    intro q j hq
    have hqp : q ≠ p := by
      rintro rfl
      simp at hq
    exact h.enters q j (by simpa [hqp] using hq)
  case single =>
    intro q i j jp hi hj hip hjp hpi hpj
    have hi' := hne q i hi
    have hj' := hne q j hj
    have hold := h.single q i j jp hi hj (by simpa [hi'] using hip) (by simpa [hj'] using hjp)
    by_cases hqp : q = p
    · subst hqp
      exact hold (by simp [hp]) (by simp [hp])
    · exact hold (by simpa [hqp] using hpi) (by simpa [hqp] using hpj)
  case apart =>
    intro q j jp hj hjp
    by_cases hqp : q = p
    · subst hqp
      simp [InodePc.locks]
    · simpa [hqp] using h.apart q j jp hj (by simpa [hne q j hj] using hjp)
  case ready =>
    intro jp q hq
    refine (h.ready jp q hq).imp_right ?_
    rintro ⟨j, hpc, hj⟩
    have hqp : q ≠ p := by
      rintro rfl
      simp [hp] at hpc
    exact ⟨j, by simpa [hqp] using hpc, hptr j jp (hne q j (h.enters q j (.inr hpc))) hj⟩
  case dirty =>
    intro jp hd
    obtain ⟨q, hq, hlocks⟩ := h.dirty jp hd
    refine ⟨q, hq, ?_⟩
    by_cases hqp : q = p
    · subst hqp
      simp [InodePc.locks]
    · simpa [hqp] using hlocks
  case deciding =>
    intro q jp hq
    by_cases hqp : q = p
    · subst hqp
      obtain rfl : ip = jp := by simpa using hq
      exact ⟨rfl, hlock, hr⟩
    · exact absurd (by simpa [hqp] using hq) (h.not_deciding hl)
  case freeing =>
    intro q jp hq
    by_cases hqp : q = p
    · subst hqp
      obtain rfl : ip = jp := by simpa [InodePc.freeing] using hq
      exact ⟨hv, hcopy, hdisk⟩
    · exact h.freeing q jp (by simpa [hqp] using hq)
  case clean =>
    intro jp hr hv hset
    refine h.clean jp hr hv fun q hq => ?_
    have hold := hset q hq
    by_cases hqp : q = p
    · subst hqp
      simp [hp, InodePc.locks]
    · simpa [hqp] using hold

/-- `acquiresleep` in `iput`, and the release of `itable.lock`. -/
theorem freeLocked (h : Inv s) (hp : s.pc p = .iput ip) :
    Inv (({ s with tableLock := none }.setLock ip (some p)).goto p (.itrunc ip 0)) := by
  obtain ⟨ht, hl, hr⟩ := h.deciding p ip hp
  obtain ⟨hv, hcopy, hdisk⟩ := h.freeing p ip (by rw [hp]; rfl)
  have hlock : ∀ jp q, s.lock jp = some q → jp ≠ ip := by
    rintro jp q hq rfl
    simp [hl] at hq
  constructor
  case counts =>
    refine h.counts.congr (fun x => ?_) fun _ => rfl
    rcases x with j | q
    · rfl
    · by_cases hq : q = p
      · subst hq
        simp [held, hp, InodePc.putting]
      · simp [held, hq]
  case unique => exact h.unique
  case locked =>
    intro jp q hq
    by_cases hj : jp = ip
    · subst hj
      obtain rfl : p = q := by simpa using hq
      exact .inr (by simp [InodePc.locks])
    · refine (h.locked jp q (by simpa [hj] using hq)).imp_right fun hlocks => ?_
      have hqp : q ≠ p := by
        rintro rfl
        simp [hp, InodePc.locks] at hlocks
      simpa [hqp] using hlocks
  case locks =>
    intro q jp hq
    by_cases hqp : q = p
    · subst hqp
      obtain rfl : ip = jp := by simpa [InodePc.locks] using hq
      simp
    · have hold := h.locks q jp (by simpa [hqp] using hq)
      simpa [hlock jp q hold] using hold
  case used =>
    intro q j hq
    obtain ⟨jp, hjp, hor⟩ := h.used q j hq
    refine ⟨jp, hjp, hor.imp (fun hpc => ?_) fun hlq => by simpa [hlock jp q hlq] using hlq⟩
    have hqp : q ≠ p := by
      rintro rfl
      simp [hp] at hpc
    simpa [hqp] using hpc
  case enters =>
    intro q j hq
    have hqp : q ≠ p := by
      rintro rfl
      simp at hq
    exact h.enters q j (by simpa [hqp] using hq)
  case single =>
    intro q i j jp hi hj hip hjp hpi hpj
    by_cases hqp : q = p
    · subst hqp
      exact h.single q i j jp hi hj hip hjp (by simp [hp]) (by simp [hp])
    · exact h.single q i j jp hi hj hip hjp (by simpa [hqp] using hpi) (by simpa [hqp] using hpj)
  case apart =>
    intro q j jp hj hjp
    by_cases hqp : q = p
    · subst hqp
      intro hlocks
      obtain rfl : ip = jp := by simpa [InodePc.locks] using hlocks
      exact h.not_sole hjp (by rw [hp]; rfl) hr
    · simpa [hqp] using h.apart q j jp hj hjp
  case ready =>
    intro jp q hq
    by_cases hj : jp = ip
    · subst hj
      exact .inl hv
    · refine (h.ready jp q (by simpa [hj] using hq)).imp_right ?_
      rintro ⟨j, hpc, hjp⟩
      have hqp : q ≠ p := by
        rintro rfl
        simp [hp] at hpc
      exact ⟨j, by simpa [hqp] using hpc, hjp⟩
  case dirty =>
    intro jp hd
    obtain ⟨q, hq, hlocks⟩ := h.dirty jp hd
    have hj := hlock jp q hq
    refine ⟨q, by simpa [hj] using hq, ?_⟩
    by_cases hqp : q = p
    · subst hqp
      simp [InodePc.locks, Ne.symm hj]
    · simpa [hqp] using hlocks
  case deciding =>
    intro q jp hq
    have hqp : q ≠ p := by
      rintro rfl
      simp at hq
    have htable := (h.deciding q jp (by simpa [hqp] using hq)).1
    exact absurd (Option.some.inj (htable.symm.trans ht)) hqp
  case freeing =>
    intro q jp hq
    by_cases hqp : q = p
    · subst hqp
      obtain rfl : ip = jp := by simpa [InodePc.freeing] using hq
      exact ⟨hv, hcopy, hdisk⟩
    · exact h.freeing q jp (by simpa [hqp] using hq)
  case clean =>
    intro jp hr hv hset
    by_cases hj : jp = ip
    · subst hj
      have hno := (hset p (by simp)).2
      simp [InodePc.locks] at hno
    · refine h.clean jp hr hv fun q hq => ?_
      have hold := hset q (by simpa [hj] using hq)
      by_cases hqp : q = p
      · subst hqp
        simp [hp, InodePc.locks]
      · simpa [hqp] using hold

/-- An `iput` that has the lock changes the inode, in memory and perhaps on the disk. -/
theorem write (h : Inv s) {d : Dinode} {pc : InodePc κ} {D : InodeKey → Dinode}
    (hp : (s.pc p).locks = some ip) (hlocks : pc.locks = some ip)
    (hdisk : ∀ key, key ≠ (s.inode ip).key → D key = s.disk key)
    (hfree : pc.freeing = some ip → (s.inode ip).valid = true ∧ d.type ≠ 0 ∧
      (D (s.inode ip).key).type ≠ 0) :
    Inv ({ s.setInode ip { s.inode ip with copy := d } with disk := D }.goto p pc) := by
  have hl := h.locks p ip hp
  have hput := InodePc.putting_of_locks hp
  have hpos : 0 < (s.inode ip).ref := h.ref_pos_of_putting hput
  have hentry : ∀ jp, ((s.setInode ip { s.inode ip with copy := d }).inode jp).key =
      (s.inode jp).key ∧
      ((s.setInode ip { s.inode ip with copy := d }).inode jp).ref = (s.inode jp).ref ∧
      ((s.setInode ip { s.inode ip with copy := d }).inode jp).valid = (s.inode jp).valid := by
    intro jp
    by_cases hj : jp = ip
    · simp [hj]
    · simp [hj]
  have hpc : ∀ j, s.pc p ≠ .ilock j ∧ s.pc p ≠ .ilockRead j := by
    intro j
    constructor <;> intro he <;> simp [he, InodePc.locks] at hp
  have hpanic : s.pc p ≠ .panicked := by
    intro he
    simp [he, InodePc.locks] at hp
  have hpc' : ∀ j, pc ≠ .ilock j ∧ pc ≠ .ilockRead j := by
    intro j
    constructor <;> rintro rfl <;> simp [InodePc.locks] at hlocks
  have hiput : ∀ jp, pc ≠ .iput jp := by
    rintro jp rfl
    simp [InodePc.locks] at hlocks
  constructor
  case counts =>
    refine h.counts.congr (fun x => ?_) fun jp => (hentry jp).2.1
    rcases x with j | q
    · rfl
    · by_cases hq : q = p
      · subst hq
        simp [held, hput, InodePc.putting_of_locks hlocks]
      · simp [held, hq]
  case unique =>
    intro jp lp hjp hlp he
    simp only [goto_inode] at hjp hlp he
    rw [(hentry jp).2.1] at hjp
    rw [(hentry lp).2.1] at hlp
    rw [(hentry jp).1, (hentry lp).1] at he
    exact h.unique jp lp hjp hlp he
  case locked =>
    intro jp q hq
    refine (h.locked jp q hq).imp_right fun hold => ?_
    by_cases hqp : q = p
    · subst hqp
      rw [hp] at hold
      simpa [hlocks] using hold
    · simpa [hqp] using hold
  case locks =>
    intro q jp hq
    by_cases hqp : q = p
    · subst hqp
      exact h.locks q jp (hp.trans (hlocks.symm.trans (by simpa using hq)))
    · exact h.locks q jp (by simpa [hqp] using hq)
  case used =>
    intro q j hq
    obtain ⟨jp, hjp, hor⟩ := h.used q j hq
    refine ⟨jp, hjp, hor.imp_left fun hold => ?_⟩
    have hqp : q ≠ p := by
      rintro rfl
      exact (hpc j).1 hold
    simpa [hqp] using hold
  case enters =>
    intro q j hq
    have hqp : q ≠ p := by
      rintro rfl
      simp [hpc' j] at hq
    exact h.enters q j (by simpa [hqp] using hq)
  case single =>
    intro q i j jp hi hj hip hjp hpi hpj
    by_cases hqp : q = p
    · subst hqp
      exact h.single q i j jp hi hj hip hjp (hpc i).1 (hpc j).1
    · exact h.single q i j jp hi hj hip hjp (by simpa [hqp] using hpi) (by simpa [hqp] using hpj)
  case apart =>
    intro q j jp hj hjp
    by_cases hqp : q = p
    · subst hqp
      simpa [hlocks, hp] using h.apart q j jp hj hjp
    · simpa [hqp] using h.apart q j jp hj hjp
  case ready =>
    intro jp q hq
    rw [goto_inode, (hentry jp).2.2]
    refine (h.ready jp q hq).imp_right ?_
    rintro ⟨j, hold, hj⟩
    have hqp : q ≠ p := by
      rintro rfl
      exact (hpc j).2 hold
    exact ⟨j, by simpa [hqp] using hold, hj⟩
  case dirty =>
    intro jp hd
    obtain ⟨q, hq, hold⟩ := h.dirty jp hd
    refine ⟨q, hq, ?_⟩
    by_cases hqp : q = p
    · subst hqp
      simpa [hlocks, hp] using hold
    · simpa [hqp] using hold
  case deciding =>
    intro q jp hq
    have hqp : q ≠ p := by
      rintro rfl
      simp [hiput jp] at hq
    obtain ⟨ht, hlq, hr⟩ := h.deciding q jp (by simpa [hqp] using hq)
    exact ⟨ht, hlq, (hentry jp).2.1.trans hr⟩
  case freeing =>
    intro q jp hq
    by_cases hqp : q = p
    · subst hqp
      have hq' : pc.freeing = some jp := by simpa using hq
      have hj : jp = ip := by
        have hputs := InodePc.putting_of_freeing hq'
        rw [InodePc.putting_of_locks hlocks] at hputs
        exact (Option.some.inj hputs).symm
      subst hj
      simpa using hfree hq'
    · have hq' : (s.pc q).freeing = some jp := by simpa [hqp] using hq
      have hj : jp ≠ ip := by
        rintro rfl
        rcases InodePc.locks_of_freeing hq' with hi | hold
        · have hnone := (h.deciding q jp hi).2.1
          simp [hl] at hnone
        · exact hqp (Option.some.inj ((h.locks q jp hold).symm.trans hl))
      have hkey := h.key_ne hpos (h.ref_pos_of_putting (InodePc.putting_of_freeing hq')) hj
      simpa [hj, hdisk _ hkey] using h.freeing q jp hq'
  case clean =>
    intro jp hr hv hset
    have hj : jp ≠ ip := by
      rintro rfl
      exact (hset p hl).2 (by simpa using hlocks)
    have hr' : 0 < (s.inode jp).ref := by simpa [hj] using hr
    have hkey := h.key_ne hpos hr' hj
    have hset' : s.Settled jp := by
      intro q hq
      have hold := hset q hq
      by_cases hqp : q = p
      · subst hqp
        exact ⟨hpanic, by simpa [hp, hlocks] using hold.2⟩
      · simpa [hqp] using hold
    simpa [hj, hdisk _ hkey] using h.clean jp hr' (by simpa [hj] using hv) hset'

/-- `iput` clears `ip->valid` and unlocks the inode. -/
theorem freeUnlock (h : Inv s) (hp : s.pc p = .ifreed ip) :
    Inv (((s.setInode ip { s.inode ip with valid := false }).setLock ip none).goto p
      (.unref ip)) := by
  have hlocks : (s.pc p).locks = some ip := by rw [hp]; rfl
  have hl := h.locks p ip hlocks
  have hentry : ∀ jp, ((s.setInode ip { s.inode ip with valid := false }).inode jp).key =
      (s.inode jp).key ∧
      ((s.setInode ip { s.inode ip with valid := false }).inode jp).ref = (s.inode jp).ref := by
    intro jp
    by_cases hj : jp = ip
    · simp [hj]
    · simp [hj]
  have hold : ∀ jp q, ((s.setInode ip { s.inode ip with valid := false }).setLock ip
      none).lock jp = some q → jp ≠ ip ∧ s.lock jp = some q := by
    intro jp q hq
    by_cases hj : jp = ip
    · simp [hj] at hq
    · exact ⟨hj, by simpa [hj] using hq⟩
  have hne : ∀ jp q, q ≠ p → s.lock jp = some q → jp ≠ ip := by
    rintro jp q hqp hq rfl
    exact hqp (Option.some.inj (hq.symm.trans hl))
  constructor
  case counts =>
    refine h.counts.congr (fun x => ?_) fun jp => (hentry jp).2
    rcases x with j | q
    · rfl
    · by_cases hq : q = p
      · subst hq
        simp [held, hp, InodePc.putting]
      · simp [held, hq]
  case unique =>
    intro jp lp hjp hlp he
    simp only [goto_inode, setLock_inode] at hjp hlp he
    rw [(hentry jp).2] at hjp
    rw [(hentry lp).2] at hlp
    rw [(hentry jp).1, (hentry lp).1] at he
    exact h.unique jp lp hjp hlp he
  case locked =>
    intro jp q hq
    obtain ⟨hj, hq⟩ := hold jp q hq
    refine (h.locked jp q hq).imp_right fun hlq => ?_
    have hqp : q ≠ p := by
      rintro rfl
      rw [hlocks] at hlq
      exact hj (Option.some.inj hlq).symm
    simpa [hqp] using hlq
  case locks =>
    intro q jp hq
    have hqp : q ≠ p := by
      rintro rfl
      simp [InodePc.locks] at hq
    have hlq := h.locks q jp (by simpa [hqp] using hq)
    simpa [hne jp q hqp hlq] using hlq
  case used =>
    intro q j hq
    obtain ⟨jp, hjp, hor⟩ := h.used q j hq
    by_cases hqp : q = p
    · subst hqp
      have hj : jp ≠ ip := by
        rintro rfl
        exact h.apart q j jp hq hjp hlocks
      refine ⟨jp, hjp, .inr ?_⟩
      simpa [hp, hj] using hor
    · exact ⟨jp, hjp, hor.imp (fun hpc => by simpa [hqp] using hpc) fun hlq => by
        simpa [hne jp q hqp hlq] using hlq⟩
  case enters =>
    intro q j hq
    have hqp : q ≠ p := by
      rintro rfl
      simp at hq
    exact h.enters q j (by simpa [hqp] using hq)
  case single =>
    intro q i j jp hi hj hip hjp hpi hpj
    by_cases hqp : q = p
    · subst hqp
      exact h.single q i j jp hi hj hip hjp (by simp [hp]) (by simp [hp])
    · exact h.single q i j jp hi hj hip hjp (by simpa [hqp] using hpi) (by simpa [hqp] using hpj)
  case apart =>
    intro q j jp hj hjp
    by_cases hqp : q = p
    · subst hqp
      simp [InodePc.locks]
    · simpa [hqp] using h.apart q j jp hj hjp
  case ready =>
    intro jp q hq
    obtain ⟨hj, hq⟩ := hold jp q hq
    refine (h.ready jp q hq).imp (fun hv => by simpa [hj] using hv) ?_
    rintro ⟨j, hpc, hjp⟩
    have hqp : q ≠ p := by
      rintro rfl
      simp [hp] at hpc
    exact ⟨j, by simpa [hqp] using hpc, hjp⟩
  case dirty =>
    intro jp hd
    obtain ⟨q, hq, hlq⟩ := h.dirty jp hd
    have hj : jp ≠ ip := by
      rintro rfl
      obtain rfl := Option.some.inj (hq.symm.trans hl)
      exact hlq hlocks
    refine ⟨q, by simpa [hj] using hq, ?_⟩
    by_cases hqp : q = p
    · subst hqp
      simp [InodePc.locks]
    · simpa [hqp] using hlq
  case deciding =>
    intro q jp hq
    have hqp : q ≠ p := by
      rintro rfl
      simp at hq
    obtain ⟨ht, hlq, hr⟩ := h.deciding q jp (by simpa [hqp] using hq)
    have hj : jp ≠ ip := by
      rintro rfl
      simp [hl] at hlq
    exact ⟨ht, by simpa [hj] using hlq, (hentry jp).2.trans hr⟩
  case freeing =>
    intro q jp hq
    have hqp : q ≠ p := by
      rintro rfl
      simp [InodePc.freeing] at hq
    have hq' : (s.pc q).freeing = some jp := by simpa [hqp] using hq
    have hj : jp ≠ ip := by
      rintro rfl
      rcases InodePc.locks_of_freeing hq' with hi | hlq
      · have hnone := (h.deciding q jp hi).2.1
        simp [hl] at hnone
      · exact hqp (Option.some.inj ((h.locks q jp hlq).symm.trans hl))
    simpa [hj] using h.freeing q jp hq'
  case clean =>
    intro jp hr hv hset
    have hj : jp ≠ ip := by
      rintro rfl
      simp at hv
    have hset' : s.Settled jp := by
      intro q hq
      have hlq := hset q (by simpa [hj] using hq)
      by_cases hqp : q = p
      · subst hqp
        simp [hp, InodePc.locks, Ne.symm hj]
      · simpa [hqp] using hlq
    simpa [hj] using h.clean jp (by simpa [hj] using hr) (by simpa [hj] using hv) hset'

theorem step (h : Inv s) (hs : Step ninodes s (p, e) t) : Inv t := by
  have hrun : ∀ {pc : InodePc κ}, pc.putting = none → pc.locks = none → pc.freeing = none →
      (∀ k, pc ≠ .ilock k ∧ pc ≠ .ilockRead k) → (s.pc p).putting = none →
      (s.pc p).locks = none → (∀ k, s.pc p ≠ .ilock k) →
      (∀ k ip, s.pc p = .ilockRead k → s.ptr k = some ip → (s.inode ip).valid = true) →
      s.pc p ≠ .panicked → Inv (s.goto p pc) := by
    intro pc hput hlocks hfree hpc hput' hlocks' hpc' hread hpanic
    refine h.goto (hput.trans hput'.symm) (hlocks.trans hlocks'.symm) (fun ip hip => ?_)
      (fun ip hip => ?_) (fun k => ⟨hpc' k, hpc k⟩) hread hpanic
    · rw [hfree] at hip
      cases hip
    · rw [hip] at hput
      cases hput
  cases hs with
  | iallocCall _ dev type hpc =>
    refine hrun rfl rfl rfl (by simp) ?_ ?_ ?_ ?_ ?_ <;> rw [hpc] <;> first | rfl | simp
  | iallocNext _ dev inum type hpc hi ht =>
    refine hrun rfl rfl rfl (by simp) ?_ ?_ ?_ ?_ ?_ <;> rw [hpc] <;> first | rfl | simp
  | iallocNone _ dev inum type hpc hi =>
    refine hrun rfl rfl rfl (by simp) ?_ ?_ ?_ ?_ ?_ <;> rw [hpc] <;> first | rfl | simp
  | ialloc _ dev inum type hpc hi ht =>
    refine (h.alloc (d := { Dinode.zero with type := type.code }) ht).goto ?_ ?_ ?_ ?_ ?_ ?_ ?_ <;>
      simp [hpc, InodePc.putting, InodePc.locks, InodePc.freeing]
  | iget _ key k ip x hpc hk hl hg =>
    have htake : Inv ((s.setInode ip x).setPtr k (some ip)) := by
      rcases iget_eq_some hg with ⟨hr, -, rfl⟩ | ⟨hr, hno, rfl⟩
      · exact h.take hk hl (.inl ⟨rfl, rfl, rfl, hr⟩) rfl
      · exact h.take hk hl (.inr ⟨rfl, hr, hno⟩) (by simp [hr])
    refine htake.goto ?_ ?_ ?_ ?_ ?_ ?_ ?_ <;> rcases hpc with hpc | hpc <;>
      simp [hpc, InodePc.putting, InodePc.locks, InodePc.freeing]
  | igetPanic _ key hpc hl hg =>
    refine (h.setTable hl (some p)).goto ?_ ?_ ?_ ?_ ?_ ?_ ?_ <;> rcases hpc with hpc | hpc <;>
      simp [hpc, InodePc.putting, InodePc.locks, InodePc.freeing]
  | idup _ k j ip hpc hk hj hl =>
    exact h.take hj hl (.inl ⟨rfl, rfl, rfl, h.ref_pos hk⟩) rfl
  | ilock _ k ip hpc hk hu hr => exact h.ilock hpc hk
  | ilockPanic _ k ip hpc hk hr =>
    have hpos := h.ref_pos hk
    omega
  | acquiresleep _ k ip hpc hk hl => exact h.acquiresleep hpc hk hl
  | ilockValid _ k ip hpc hk hv =>
    refine hrun rfl rfl rfl (by simp) ?_ ?_ ?_ ?_ ?_ <;> rw [hpc] <;> first | rfl | simp
    rintro j jp rfl hj
    obtain rfl := Option.some.inj (hk.symm.trans hj)
    exact hv
  | read _ k ip hpc hk hv ht => exact h.read hpc hk (.inl ⟨rfl, ht⟩)
  | readPanic _ k ip hpc hk hv ht => exact h.read hpc hk (.inr rfl)
  | modify _ k ip d hpc hk hu hd => exact h.modify hpc hu hk hd
  | iupdate _ k ip hpc hk hu => exact h.update hpc hu hk
  | iunlock _ k ip hpc hk hu hd hl hr => exact h.unlock hpc hu hk hd
  | iunlockPanic _ k ip hpc hk hu hr =>
    have hpos := h.ref_pos hk
    have hl := h.lock_of_uses hpc hu hk
    rcases hr with hr | hr
    · exact absurd hl hr
    · omega
  | iput _ k ip hpc hk hu hl hf => exact h.iput hk hu hl
  | free _ k ip hpc hk hu hl hf => exact h.free hpc hk hu hl hf
  | freeLocked _ ip hpc hl => exact h.freeLocked hpc
  | bfree _ ip i hpc hb =>
    obtain ⟨hv, hcopy, hdisk⟩ := h.freeing p ip (by rw [hpc]; rfl)
    exact h.write (D := s.disk) (by rw [hpc]; rfl) rfl (fun _ _ => rfl) fun _ => ⟨hv, hcopy, hdisk⟩
  | bskip _ ip i hpc hb =>
    refine h.goto ?_ ?_ ?_ ?_ ?_ ?_ ?_ <;>
      simp [hpc, InodePc.putting, InodePc.locks, InodePc.freeing]
  | itrunc _ ip hpc =>
    obtain ⟨hv, hcopy, -⟩ := h.freeing p ip (by rw [hpc]; rfl)
    refine h.write (by rw [hpc]; rfl) rfl (fun key hkey => ?_) fun _ => ⟨hv, hcopy, ?_⟩
    · simp [hkey]
    · simpa using hcopy
  | freed _ ip hpc =>
    refine h.write (by rw [hpc]; rfl) rfl (fun key hkey => ?_) fun hfree => ?_
    · simp [hkey]
    · simp [InodePc.freeing] at hfree
  | freeUnlock _ ip hpc => exact h.freeUnlock hpc
  | unref _ ip hpc hl => exact h.unref hpc hl

end Inv

end Itable

end CowPbs
