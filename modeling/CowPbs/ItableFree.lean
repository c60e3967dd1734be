import Mathlib
import CowPbs.ItableInv

/-!
# Inodes are freed once

The log of a run shows when `iput` decides to free an inode, when the type on the disk is cleared,
and when `ialloc` takes the number again. A number that is being freed is allocated on the disk
until its type is cleared, and free on the disk from then on until `ialloc` takes it
(`Inv.freeing_step`, `Inv.type_step`).
-/

set_option linter.unusedSectionVars false

open Function RefCount Transition

namespace CowPbs

namespace Itable

variable {ι κ : Type*} [DecidableEq ι] [DecidableEq κ] {s₀ s t : Itable ι κ} {p q : ι} {k j : κ}
  {ip jp : InodePtr} {ninodes : ℕ} {e : InodeEvent} {es : List (ι × InodeEvent)} {key : InodeKey}

theorem Step.pc_of_ne (hs : Step ninodes s (p, e) t) (hq : q ≠ p) : t.pc q = s.pc q := by
  cases hs <;> simp [hq]

/-- An entry in use keeps its number. -/
theorem Step.key_eq (hs : Step ninodes s (p, e) t) (hr : 0 < (s.inode ip).ref) :
    (t.inode ip).key = (s.inode ip).key := by
  have hset : ∀ {jp : InodePtr} {x : InodeEntry}, x.key = (s.inode jp).key →
      ((s.setInode jp x).inode ip).key = (s.inode ip).key := by
    intro jp x hx
    by_cases hj : ip = jp
    · simp [hj, hx]
    · simp [hj]
  cases hs with
  | iget _ key k jp x hpc hk hl hg =>
    rcases iget_eq_some hg with ⟨-, -, rfl⟩ | ⟨hr0, -, rfl⟩
    · exact hset rfl
    · have hj : ip ≠ jp := by
        rintro rfl
        omega
      simp [hj]
  | idup | read | readPanic | modify | iput | bfree | itrunc | freed | freeUnlock | unref =>
    exact hset rfl
  | iallocCall | iallocNext | ialloc | iallocNone | igetPanic | ilock | ilockPanic
  | acquiresleep | ilockValid | iupdate | iunlock | iunlockPanic | free | freeLocked
  | bskip => rfl

variable [Fintype ι] [Fintype κ]

namespace Inv

/-- A number that is free on the disk is so until `ialloc` takes it. -/
theorem type_step (h : Inv s) (hs : Step ninodes s (p, e) t) (h0 : (s.disk key).type = 0)
    (he : e ≠ .ialloc key) : (t.disk key).type = 0 := by
  cases hs with
  | ialloc _ dev inum type hpc hi ht =>
    have hne : key ≠ (dev, inum) := fun hkey => he (by rw [hkey])
    simpa [hne] using h0
  | iupdate _ k ip hpc hk hu =>
    have hne : key ≠ (s.inode ip).key := by
      rintro rfl
      exact (h.of_uses hpc hu hk).2.2.2.1 h0
    simpa [hne] using h0
  | itrunc _ ip hpc =>
    have hne : key ≠ (s.inode ip).key := by
      rintro rfl
      exact (h.freeing p ip (by rw [hpc]; rfl)).2.2 h0
    simpa [hne] using h0
  | freed _ ip hpc =>
    have hne : key ≠ (s.inode ip).key := by
      rintro rfl
      exact (h.freeing p ip (by rw [hpc]; rfl)).2.2 h0
    simpa [hne] using h0
  | iallocCall | iallocNext | iallocNone | iget | igetPanic | idup | ilock | ilockPanic
  | acquiresleep | ilockValid | read | readPanic | modify | iunlock | iunlockPanic | iput | free
  | freeLocked | bfree | bskip | freeUnlock | unref => exact h0

/-- A process that is freeing an inode goes on, or has cleared the type on the disk. -/
theorem freeing_step (h : Inv s) (hs : Step ninodes s (p, e) t)
    (hq : (s.pc q).freeing = some ip) :
    ((t.pc q).freeing = some ip ∧ (t.inode ip).key = (s.inode ip).key) ∨
      (q = p ∧ e = .freed (s.inode ip).key ∧ (t.disk (s.inode ip).key).type = 0) := by
  have hkey := hs.key_eq (h.ref_pos_of_putting (InodePc.putting_of_freeing hq))
  by_cases hqp : q = p
  · subst hqp
    cases hs with
    | freed _ jp hpc =>
      obtain rfl : jp = ip := by simpa [hpc, InodePc.freeing] using hq
      exact .inr ⟨rfl, rfl, by simp⟩
    | freeLocked _ jp hpc hl =>
      exact .inl ⟨by simpa [hpc, InodePc.freeing] using hq, hkey⟩
    | bfree _ jp i hpc hb => exact .inl ⟨by simpa [hpc, InodePc.freeing] using hq, hkey⟩
    | bskip _ jp i hpc hb => exact .inl ⟨by simpa [hpc, InodePc.freeing] using hq, hkey⟩
    | itrunc _ jp hpc => exact .inl ⟨by simpa [hpc, InodePc.freeing] using hq, hkey⟩
    | iget _ _ _ _ _ hpc | igetPanic _ _ hpc =>
      rcases hpc with hpc | hpc <;> simp [hpc, InodePc.freeing] at hq
    | iallocCall _ _ _ hpc | iallocNext _ _ _ _ hpc | ialloc _ _ _ _ hpc
    | iallocNone _ _ _ _ hpc | idup _ _ _ _ hpc | ilock _ _ _ hpc | ilockPanic _ _ _ hpc
    | acquiresleep _ _ _ hpc | ilockValid _ _ _ hpc | read _ _ _ hpc | readPanic _ _ _ hpc
    | modify _ _ _ _ hpc | iupdate _ _ _ hpc | iunlock _ _ _ hpc | iunlockPanic _ _ _ hpc
    | iput _ _ _ hpc | free _ _ _ hpc | freeUnlock _ _ hpc | unref _ _ hpc =>
      simp [hpc, InodePc.freeing] at hq
  · exact .inl ⟨by rwa [hs.pc_of_ne hqp], hkey⟩

/-- `iput` frees an inode that is allocated, with the only reference to it. -/
theorem free_sole (h : Inv s) (hs : Step ninodes s (p, .free key) t) :
    ∃ ip k, s.ptr k = some ip ∧ (s.inode ip).key = key ∧ (s.inode ip).ref = 1 ∧
      (∀ j, s.ptr j = some ip → j = k) ∧ (∀ q, (s.pc q).putting ≠ some ip) ∧
      s.lock ip = none ∧ (s.inode ip).copy.nlink = 0 ∧ (s.inode ip).copy = s.disk key ∧
      (s.disk key).type ≠ 0 ∧ (t.pc p).freeing = some ip ∧ (t.inode ip).key = key := by
  cases hs with
  | free _ k ip hpc hk hu hl hf =>
    have hlock := h.lock_of_sole hk hu hf.1
    have hset : s.Settled ip := by
      intro q hq
      simp [hlock] at hq
    have hclean : s.dirty ip = false := by
      by_contra hd
      obtain ⟨q, hq, -⟩ := h.dirty ip (by simpa using hd)
      simp [hlock] at hq
    obtain ⟨-, htype, hcopy⟩ := h.clean ip (h.ref_pos hk) hf.2.1 hset
    refine ⟨ip, k, hk, rfl, hf.1, fun j hj => ?_, fun q hq => h.not_sole hk hq hf.1, hlock, hf.2.2,
      hcopy hclean, htype, by simp [InodePc.freeing], rfl⟩
    exact Sum.inl.inj (h.counts.unique hf.1 (mem_held_inl.2 hk) (mem_held_inl.2 hj))

/-- No number is taken while it is being freed. -/
theorem not_freeing_of_type (h : Inv s) (h0 : (s.disk key).type = 0)
    (hq : (s.pc q).freeing = some ip) : (s.inode ip).key ≠ key := by
  rintro rfl
  exact (h.freeing q ip hq).2.2 h0

/-- No process decides to free a number that another is freeing. -/
theorem not_freeing_of_free (h : Inv s) (hs : Step ninodes s (p, .free key) t)
    (hq : (s.pc q).freeing = some ip) : (s.inode ip).key ≠ key := by
  obtain ⟨jp, k, hk, hkey, hr, -, hput, -⟩ := h.free_sole hs
  intro he
  have hputs := InodePc.putting_of_freeing hq
  have hpos : 0 < (s.inode ip).ref := h.ref_pos_of_putting hputs
  have hpos' : 0 < (s.inode jp).ref := h.ref_pos hk
  obtain rfl := h.unique ip jp hpos hpos' (he.trans hkey.symm)
  exact hput q hputs

end Inv

/-! ## The log -/

/-- A number is freed if it was allocated at first or by `ialloc`, and between two times it is
freed `ialloc` has taken it. -/
def FreedOnce (disk : InodeKey → Dinode) (pre : List (ι × InodeEvent)) (e : ι × InodeEvent) :
    Prop :=
  ∀ q key, e = (q, .free key) →
    ((disk key).type ≠ 0 ∨ ∃ r, (r, .ialloc key) ∈ pre) ∧
      ∀ xs ys p, pre = xs ++ (p, .free key) :: ys → ∃ r, (r, .ialloc key) ∈ ys

/-- When `ialloc` takes a number, the `iput` that freed it has cleared the inode on the disk. -/
def FreedFirst (pre : List (ι × InodeEvent)) (e : ι × InodeEvent) : Prop :=
  ∀ q key, e = (q, .ialloc key) →
    ∀ xs ys p, pre = xs ++ (p, .free key) :: ys → (p, .freed key) ∈ ys

/-- What a log says of a number. -/
structure LogInv (disk : InodeKey → Dinode) (es : List (ι × InodeEvent)) (s : Itable ι κ) :
    Prop where
  inv : Inv s
  born : ∀ key, (disk key).type ≠ 0 ∨ (∃ r, (r, .ialloc key) ∈ es) ∨ (s.disk key).type = 0
  pending : ∀ key xs ys p, es = xs ++ (p, .free key) :: ys → (p, .freed key) ∈ ys ∨
    ∃ ip, (s.pc p).freeing = some ip ∧ (s.inode ip).key = key
  again : ∀ key xs ys p, es = xs ++ (p, .free key) :: ys → (∃ r, (r, .ialloc key) ∈ ys) ∨
    (∃ q ip, (s.pc q).freeing = some ip ∧ (s.inode ip).key = key) ∨ (s.disk key).type = 0
  once : Along (FreedOnce disk) es
  first : Along FreedFirst es

namespace LogInv

theorem boot (h : Boot s) : LogInv s.disk [] s := by
  refine ⟨.boot h, fun key => ?_, fun key xs ys p hes => ?_, fun key xs ys p hes => ?_,
    along_nil, along_nil⟩
  · by_cases h0 : (s.disk key).type = 0
    · exact .inr (.inr h0)
    · exact .inl h0
  · simp at hes
  · simp at hes

theorem step {disk : InodeKey → Dinode} (h : LogInv disk es s) (hs : Step ninodes s (p, e) t) :
    LogInv disk (es ++ [(p, e)]) t where
  inv := h.inv.step hs
  born key := by
    rcases h.born key with h0 | ⟨r, hr⟩ | h0
    · exact .inl h0
    · exact .inr (.inl ⟨r, by simp [hr]⟩)
    · by_cases he : e = .ialloc key
      · exact .inr (.inl ⟨p, by simp [he]⟩)
      · exact .inr (.inr (h.inv.type_step hs h0 he))
  pending key xs ys q hes := by
    rcases snoc_eq_append hes with ⟨rfl, rfl, heq⟩ | ⟨ys', rfl, hes'⟩
    · obtain ⟨rfl, rfl⟩ := Prod.mk.inj heq
      obtain ⟨ip, k, -, -, -, -, -, -, -, -, -, hfree, hkey⟩ := h.inv.free_sole hs
      exact .inr ⟨ip, hfree, hkey⟩
    · rcases h.pending key xs ys' q hes' with hdone | ⟨ip, hq, rfl⟩
      · exact .inl (by simp [hdone])
      · rcases h.inv.freeing_step hs hq with hgo | ⟨rfl, rfl, -⟩
        · exact .inr ⟨ip, hgo⟩
        · exact .inl (by simp)
  again key xs ys q hes := by
    rcases snoc_eq_append hes with ⟨rfl, rfl, heq⟩ | ⟨ys', rfl, hes'⟩
    · obtain ⟨rfl, rfl⟩ := Prod.mk.inj heq
      obtain ⟨ip, k, -, -, -, -, -, -, -, -, -, hfree, hkey⟩ := h.inv.free_sole hs
      exact .inr (.inl ⟨p, ip, hfree, hkey⟩)
    · rcases h.again key xs ys' q hes' with ⟨r, hr⟩ | ⟨r, ip, hr, rfl⟩ | h0
      · exact .inl ⟨r, by simp [hr]⟩
      · rcases h.inv.freeing_step hs hr with hgo | ⟨-, -, h0⟩
        · exact .inr (.inl ⟨r, ip, hgo⟩)
        · exact .inr (.inr h0)
      · by_cases he : e = .ialloc key
        · exact .inl ⟨p, by simp [he]⟩
        · exact .inr (.inr (h.inv.type_step hs h0 he))
  once := by
    refine along_append.2 ⟨h.once, ?_⟩
    rintro q key heq
    obtain ⟨rfl, rfl⟩ := Prod.mk.inj heq
    obtain ⟨ip, k, -, -, -, -, -, -, -, -, htype, -⟩ := h.inv.free_sole hs
    refine ⟨?_, fun xs ys r hes => ?_⟩
    · rcases h.born key with h0 | hr | h0
      · exact .inl h0
      · exact .inr hr
      · exact absurd h0 htype
    · rcases h.again key xs ys r hes with hr | ⟨q, jp, hq, hkey⟩ | h0
      · exact hr
      · exact absurd hkey (h.inv.not_freeing_of_free hs hq)
      · exact absurd h0 htype
  first := by
    refine along_append.2 ⟨h.first, ?_⟩
    rintro q key heq xs ys r hes
    obtain ⟨rfl, rfl⟩ := Prod.mk.inj heq
    have h0 : (s.disk key).type = 0 := by
      cases hs with
      | ialloc _ dev inum type hpc hi ht => exact ht
    rcases h.pending key xs ys r hes with hdone | ⟨ip, hr, hkey⟩
    · exact hdone
    · exact absurd hkey (h.inv.not_freeing_of_type h0 hr)

theorem of_run (h0 : Boot s₀) (h : Run (Step ninodes) s₀ es s) : LogInv s₀.disk es s :=
  h.invariant (.boot h0) fun _ _ _ _ _ hI hs => hI.step hs

end LogInv

/-- Two inodes with a link each on the disk, and an empty table. -/
def linked : Itable Unit Bool where
  inode := fun _ => ⟨(0, 0), 0, false, .zero⟩
  lock := fun _ => none
  tableLock := none
  disk := fun _ => { Dinode.zero with type := 2, nlink := 1 }
  ptr := fun _ => none
  uses := fun _ _ => false
  dirty := fun _ => false
  pc := fun _ => .run

end Itable

end CowPbs
