import Mathlib
import CowPbs.Cow
import CowPbs.ProcTable

/-!
# Processes and their memory

The process table with the memory under it. `allocproc`, `freeproc`, `userinit` and `fork`
are those of proc.c again, now with what they do to memory. The pages that other parts of
the kernel have from `kalloc` (pipe buffers, arguments, kernel stacks, the kernel's page
table) are a set.

`Inv F s` is the invariant : the page tables in memory are those of the processes, each of
which has its address space, and the kernel has, once each, the trapframes and the pages
of the set.
-/

set_option linter.unusedSectionVars false

open Function Prog Bytes Radix

namespace CowPbs

/-- The memory and the processes. -/
structure Os where
  mach : Mach
  procs : ProcSys
  /-- The pages that the rest of the kernel has from `kalloc`. -/
  held : ℕ → Bool

namespace Os

/-! ## The functions -/

/-- Another memory. -/
def setMach (s : Os) (m : Mach) : Os :=
  { s with mach := m }

/-- Another `struct proc` in a slot. -/
def setProc (s : Os) (p : Slot) (q : Proc) : Os :=
  { s with procs := { s.procs with proc := update s.procs.proc p q } }

/-- What `allocpid` does. -/
def takePid (s : Os) : Os :=
  { s with procs := { s.procs with nextpid := s.procs.nextpid + 1 } }

/-- `initproc = p`. -/
def setInit (s : Os) (p : Slot) : Os :=
  { s with procs := { s.procs with initproc := p } }

/-- A function of the kernel that only works on memory. -/
def lift {α : Type} (c : K α) : Prog Os α :=
  fun s => (c s.mach).map fun r => (r.1, s.setMach r.2)

/-- A store to some fields of a `struct proc`. -/
def change (p : Slot) (f : Proc → Proc) : Prog Os Unit :=
  modify fun s => s.setProc p (f (s.procs.proc p))

section

variable [Layout]

/-- `freeproc`. -/
def freeproc (p : Slot) : Prog Os Unit := do
  let s ← get
  match (s.procs.proc p).trapframe with
  | some trapframe => lift (kfree trapframe)
  | none => pure ()
  match (s.procs.proc p).pagetable with
  | some pagetable => lift (procFreepagetable pagetable (s.procs.proc p).sz)
  | none => pure ()
  change p Proc.freeproc

/-- `allocproc`. -/
def allocproc : Prog Os (Option Slot) := do
  let s ← get
  match findSlot fun i => (s.procs.proc i).state = .unused with
  | none => return none
  | some p =>
    modify takePid
    change p fun q => q.found s.procs.nextpid
    match ← lift kalloc with
    | none =>
      freeproc p
      return none
    | some trapframe =>
      change p fun q => { q with trapframe := some trapframe }
      match ← lift (procPagetable trapframe) with
      | none =>
        freeproc p
        return none
      | some pagetable =>
        change p fun q => { q with pagetable := some pagetable }
        change p fun q => q.fresh s.procs.ticks
        return some p

/-- `initcode`. -/
def initcode : List Byte :=
  [0x17, 0x05, 0x00, 0x00, 0x13, 0x05, 0x45, 0x02,
    0x97, 0x05, 0x00, 0x00, 0x93, 0x85, 0x35, 0x02,
    0x93, 0x08, 0x70, 0x00, 0x73, 0x00, 0x00, 0x00,
    0x93, 0x08, 0x20, 0x00, 0x73, 0x00, 0x00, 0x00,
    0xef, 0xf0, 0x9f, 0xff, 0x2f, 0x69, 0x6e, 0x69,
    0x74, 0x00, 0x00, 0x24, 0x00, 0x00, 0x00, 0x00,
    0x00, 0x00, 0x00, 0x00]

/-- `p->trapframe->epc`, by its offset. -/
def EPC : ℕ := 24

def SP : ℕ := 48

def A0 : ℕ := 112

def A1 : ℕ := 120

/-- `sizeof(struct trapframe)`. -/
def TRAPFRAME_SIZE : ℕ := 288

/-- `userinit`. -/
def userinit : Prog Os Unit := do
  match ← allocproc with
  | none => throw "kerneltrap"
  | some p =>
    modify fun s => s.setInit p
    let s ← get
    let q := s.procs.proc p
    lift (uvmfirst (q.pagetable.getD 0) initcode)
    change p fun q => { q with sz := PGSIZE }
    lift (sd (q.trapframe.getD 0 + EPC) 0)
    lift (sd (q.trapframe.getD 0 + SP) PGSIZE)
    change p fun q => { q with state := .runnable }

/-- `fork` by the process `p`, up to its open files. -/
def fork (p : Slot) : Prog Os Int32 := do
  match ← allocproc with
  | none => return -1
  | some np =>
    let s ← get
    let parent := s.procs.proc p
    let child := s.procs.proc np
    let r ← lift (uvmcopy (parent.pagetable.getD 0) (child.pagetable.getD 0) parent.sz)
    if r < 0 then
      freeproc np
      return -1
    else
      change np fun q => { q with sz := parent.sz }
      let s ← get
      lift (memmove (child.trapframe.getD 0)
        (load s.mach.mem (parent.trapframe.getD 0) TRAPFRAME_SIZE))
      lift (sd (child.trapframe.getD 0 + A0) 0)
      change np fun q => { q with parent := some p, state := .runnable }
      return child.pid

end

/-! ## The pages of the kernel -/

/-- How many processes have page `n` for their trapframe. -/
def trapframes (T : Table) (n : ℕ) : ℕ :=
  ∑ p, if (T p).trapframe = some (n * PGSIZE) then 1 else 0

/-- How often the kernel has page `n`, for other things than page tables. -/
def kern (s : Os) (n : ℕ) : ℕ :=
  (if s.held n then 1 else 0) + trapframes s.procs.proc n

section

variable {T : Table} {s : Os} {p : Slot} {q : Proc} {n m : ℕ}

theorem trapframes_update (T : Table) (p : Slot) (q : Proc) (n : ℕ) :
    trapframes (update T p q) n + (if (T p).trapframe = some (n * PGSIZE) then 1 else 0) =
      trapframes T n + if q.trapframe = some (n * PGSIZE) then 1 else 0 := by
  have hrest : ∑ x ∈ Finset.univ.erase p,
      (if (update T p q x).trapframe = some (n * PGSIZE) then 1 else 0) =
        ∑ x ∈ Finset.univ.erase p, if (T x).trapframe = some (n * PGSIZE) then 1 else 0 :=
    Finset.sum_congr rfl fun x hx => by rw [update_of_ne (Finset.ne_of_mem_erase hx)]
  unfold trapframes
  rw [← Finset.add_sum_erase _ _ (Finset.mem_univ p), ← Finset.add_sum_erase _ _ (Finset.mem_univ p),
    hrest, update_self]
  omega

theorem kern_setProc (s : Os) (p : Slot) (q : Proc) (n : ℕ) :
    (s.setProc p q).kern n +
        (if (s.procs.proc p).trapframe = some (n * PGSIZE) then 1 else 0) =
      s.kern n + if q.trapframe = some (n * PGSIZE) then 1 else 0 := by
  have := trapframes_update s.procs.proc p q n
  show (if s.held n then 1 else 0) + trapframes (update s.procs.proc p q) n + _ =
    (if s.held n then 1 else 0) + trapframes s.procs.proc n + _
  omega

/-- The trapframe stays. -/
theorem kern_setProc_same (h : q.trapframe = (s.procs.proc p).trapframe) :
    (s.setProc p q).kern = s.kern := by
  funext n
  have := kern_setProc s p q n
  rw [h] at this
  omega

theorem some_page_inj (h : some (m * PGSIZE) = some (n * PGSIZE)) : m = n :=
  mul_PGSIZE_inj (Option.some.inj h)

/-- A trapframe is taken. -/
theorem kern_setProc_some (h : (s.procs.proc p).trapframe = none)
    (hq : q.trapframe = some (m * PGSIZE)) :
    (s.setProc p q).kern = update s.kern m (s.kern m + 1) := by
  funext n
  have hset := kern_setProc s p q n
  rw [h, hq, if_neg (by simp)] at hset
  by_cases hn : n = m
  · subst hn
    rw [if_pos rfl] at hset
    rw [update_self]
    omega
  · rw [if_neg fun h => hn (some_page_inj h).symm] at hset
    rw [update_of_ne hn]
    omega

/-- A trapframe is given up. -/
theorem kern_setProc_none (h : (s.procs.proc p).trapframe = some (m * PGSIZE))
    (hq : q.trapframe = none) : (s.setProc p q).kern = update s.kern m (s.kern m - 1) := by
  funext n
  have hset := kern_setProc s p q n
  rw [h, hq, if_neg (c := none = _) (by simp)] at hset
  by_cases hn : n = m
  · subst hn
    rw [if_pos rfl] at hset
    rw [update_self]
    omega
  · rw [if_neg fun h => hn (some_page_inj h).symm] at hset
    rw [update_of_ne hn]
    omega

/-- A trapframe is one of the kernel's pages. -/
theorem kern_pos (h : (s.procs.proc p).trapframe = some (n * PGSIZE)) : 0 < s.kern n := by
  have hle : (if (s.procs.proc p).trapframe = some (n * PGSIZE) then 1 else 0) ≤
      trapframes s.procs.proc n :=
    Finset.single_le_sum (f := fun x => if (s.procs.proc x).trapframe = some (n * PGSIZE) then 1
      else 0) (fun _ _ => Nat.zero_le _) (Finset.mem_univ p)
  rw [if_pos h] at hle
  unfold kern
  omega

end

/-! ## The invariant -/

section

variable [Layout] {F F' : Forest ℕ} {s t : Os} {p np : Slot} {r n tf : ℕ} {E : String → Prop}

/-- The address space of a process. -/
structure Lives (F : Forest ℕ) (q : Proc) (r tf : ℕ) : Prop where
  pagetable : q.pagetable = some (r * PGSIZE)
  trapframe : q.trapframe = some (tf * PGSIZE)
  space : Space F r (pages q.sz) tf

/-- A slot without a process. -/
structure Free (q : Proc) : Prop where
  state : q.state = .unused
  pagetable : q.pagetable = none
  trapframe : q.trapframe = none
  sz : q.sz = 0

/-- The page tables in memory are those of the processes. -/
structure Inv (F : Forest ℕ) (s : Os) : Prop where
  vm : Vm F s.kern s.mach
  slot : ∀ p, Free (s.procs.proc p) ∨
    (s.procs.proc p).state ≠ .unused ∧ ∃ r tf, Lives F (s.procs.proc p) r tf
  root : ∀ r ∈ F.roots, ∃ p, (s.procs.proc p).pagetable = some (r * PGSIZE)
  inj : ∀ p q a, (s.procs.proc p).pagetable = some a → (s.procs.proc q).pagetable = some a → p = q
  once : ∀ n, s.kern n ≤ 1

@[simp] theorem wp_lift {α : Type} (c : K α) (Q : α → Os → Prop) :
    wp E (lift c) Q s ↔ wp E c (fun a m => Q a (s.setMach m)) s.mach := by
  unfold wp lift
  cases c s.mach <;> rfl

@[simp] theorem wp_change (p : Slot) (f : Proc → Proc) (Q : Unit → Os → Prop) :
    wp E (change p f) Q s ↔ Q () (s.setProc p (f (s.procs.proc p))) :=
  Iff.rfl

/-- A process that is not in an empty slot. -/
theorem Inv.lives (h : Inv F s) (hp : (s.procs.proc p).state ≠ .unused) :
    ∃ r tf, Lives F (s.procs.proc p) r tf :=
  (h.slot p).elim (fun hf => absurd hf.state hp) fun hl => hl.2

/-- An empty slot. -/
theorem Inv.free (h : Inv F s) (hp : (s.procs.proc p).state = .unused) : Free (s.procs.proc p) :=
  (h.slot p).resolve_right fun hl => hl.1 hp

/-! ## `allocproc` -/

/-- The slot `np` of a new process, with its trapframe and its page table. -/
def embryo (s : Os) (np : Slot) (r tf : ℕ) : Proc :=
  Proc.fresh { (s.procs.proc np).found s.procs.nextpid with
    trapframe := some (tf * PGSIZE)
    pagetable := some (r * PGSIZE) } s.procs.ticks

section

variable {m m' : Mach} {q q' : Proc}

@[simp] theorem setMach_mach : (s.setMach m).mach = m :=
  rfl

@[simp] theorem setMach_procs : (s.setMach m).procs = s.procs :=
  rfl

@[simp] theorem setMach_held : (s.setMach m).held = s.held :=
  rfl

@[simp] theorem setMach_kern : (s.setMach m).kern = s.kern :=
  rfl

@[simp] theorem setProc_mach : (s.setProc p q).mach = s.mach :=
  rfl

@[simp] theorem setProc_held : (s.setProc p q).held = s.held :=
  rfl

@[simp] theorem takePid_mach : s.takePid.mach = s.mach :=
  rfl

@[simp] theorem takePid_held : s.takePid.held = s.held :=
  rfl

@[simp] theorem takePid_kern : s.takePid.kern = s.kern :=
  rfl

@[simp] theorem takePid_proc : s.takePid.procs.proc = s.procs.proc :=
  rfl

@[simp] theorem setInit_mach : (s.setInit p).mach = s.mach :=
  rfl

@[simp] theorem setInit_kern : (s.setInit p).kern = s.kern :=
  rfl

@[simp] theorem setInit_proc : (s.setInit p).procs.proc = s.procs.proc :=
  rfl

@[simp] theorem setInit_setProc {i : Slot} : (s.setInit p).setProc i q = (s.setProc i q).setInit p :=
  rfl

@[simp] theorem setMach_setInit : (s.setMach m).setInit p = (s.setInit p).setMach m :=
  rfl

@[simp] theorem setProc_self : (s.setProc p q).procs.proc p = q :=
  update_self ..

theorem setProc_of_ne {i : Slot} (h : i ≠ p) : (s.setProc p q).procs.proc i = s.procs.proc i :=
  update_of_ne h ..

@[simp] theorem setMach_setMach : (s.setMach m).setMach m' = s.setMach m' :=
  rfl

@[simp] theorem setMach_setProc : (s.setMach m).setProc p q = (s.setProc p q).setMach m :=
  rfl

@[simp] theorem setProc_setProc : (s.setProc p q).setProc p q' = s.setProc p q' := by
  unfold setProc
  rw [update_idem]

end

/-- What `freeproc` does where there is no memory to free. -/
theorem wp_freeproc_none (htf : (s.procs.proc p).trapframe = none)
    (hpt : (s.procs.proc p).pagetable = none) (Q : Unit → Os → Prop) :
    wp E (freeproc p) Q s ↔ Q () (s.setProc p (s.procs.proc p).freeproc) := by
  unfold freeproc
  rw [wp_bind, wp_get, htf, hpt]
  exact wp_change ..

/-- What `freeproc` does where there is only a trapframe. -/
theorem wp_freeproc_trapframe {a : ℕ} (htf : (s.procs.proc p).trapframe = some a)
    (hpt : (s.procs.proc p).pagetable = none) (Q : Unit → Os → Prop) :
    wp E (freeproc p) Q s ↔ wp E (kfree a) (fun _ m =>
      Q () ((s.setProc p (s.procs.proc p).freeproc).setMach m)) s.mach := by
  unfold freeproc
  rw [wp_bind, wp_get, htf, hpt]
  dsimp only
  rw [wp_bind, wp_lift]
  rfl

/-- `allocproc` did not get the memory, and gave back what it had. -/
structure NotAllocated (F : Forest ℕ) (s : Os) (np : Slot) (F' : Forest ℕ) (t : Os) : Prop where
  unused : (s.procs.proc np).state = .unused
  eq : t = (s.takePid.setProc np
    ((s.procs.proc np).found s.procs.nextpid).freeproc).setMach t.mach
  restored : Restored F s.kern s.mach F' t.mach
  denied : t.mach.denied = true

/-- `allocproc` has made a process without user memory. -/
structure Allocated (F : Forest ℕ) (s : Os) (np : Slot) (r tf : ℕ) (F' : Forest ℕ) (t : Os) :
    Prop where
  unused : (s.procs.proc np).state = .unused
  eq : t = (s.takePid.setProc np (s.embryo np r tf)).setMach t.mach
  vm : Vm F' (update s.kern tf 1) t.mach
  saved : Saved F s.kern s.mach F' (update s.kern tf 1) t.mach
  roots : F'.roots = insert r F.roots
  same : SameBut r F F'
  space : Space F' r 0 tf
  free : owners F s.kern r = 0
  freeTrapframe : owners F s.kern tf = 0
  ne : r ≠ tf
  denied : t.mach.denied = s.mach.denied

theorem Allocated.of_newSpace {m m' : Mach} (hunused : (s.procs.proc np).state = .unused)
    (hk : Kalloced (owners F s.kern) s.mach m tf)
    (h : NewSpace r tf F (update s.kern tf 1) m F' m') :
    Allocated F s np r tf F' ((s.takePid.setProc np (s.embryo np r tf)).setMach m') := by
  have hk0 := (owners_eq_zero.1 hk.free).2.1
  have hfree := h.free
  have hne : r ≠ tf := by
    rintro rfl
    rw [owners_update, update_self, hk.free, hk0] at hfree
    cases hfree
  rw [owners_update, update_of_ne hne] at hfree
  have htaken : Saved F s.kern s.mach F (update s.kern tf 1) m := hk.saved fun _ _ => rfl
  exact ⟨hunused, rfl, h.vm, htaken.trans h.saved, h.roots, h.same, h.space, hfree, hk.free, hne,
    h.denied.trans hk.denied⟩

/-- What `allocproc` returns. -/
def AllocprocPost (F : Forest ℕ) (s : Os) (o : Option Slot) (t : Os) : Prop :=
  match o with
  | none => (t = s ∧ ∀ p, (s.procs.proc p).state ≠ .unused) ∨ ∃ np F', NotAllocated F s np F' t
  | some np => ∃ r tf F', Allocated F s np r tf F' t

theorem allocproc_spec (h : Inv F s) : wp E allocproc (AllocprocPost F s) s := by
  unfold allocproc
  rw [wp_bind, wp_get]
  cases hnp : findSlot fun i => (s.procs.proc i).state = .unused with
  | none =>
    refine .inl ⟨rfl, fun p hp => ?_⟩
    have := findSlot_none hnp p
    simp [hp] at this
  | some np =>
    have hunused : (s.procs.proc np).state = .unused := by simpa using findSlot_some hnp
    have hfree := h.free hunused
    have hpt : ((s.procs.proc np).found s.procs.nextpid).pagetable = none := hfree.pagetable
    have htf : ((s.procs.proc np).found s.procs.nextpid).trapframe = none := hfree.trapframe
    dsimp only
    rw [wp_bind, wp_modify, wp_bind, wp_change, wp_bind, wp_lift]
    refine wp_mono h.vm.kalloc_spec fun o m ho => ?_
    rw [takePid_proc]
    cases o with
    | none =>
      obtain ⟨hden, hvm⟩ := ho
      rw [wp_bind, wp_freeproc_none (by simpa) (by simpa)]
      exact .inr ⟨np, F, hunused, by simp, h.vm.restored_of_denied hden, hden.denied⟩
    | some pa =>
      obtain ⟨tf, rfl, hk, hvm⟩ := ho
      dsimp only
      rw [wp_bind, wp_change, wp_bind, wp_lift]
      simp only [setMach_setProc, setProc_setProc, setMach_mach, setMach_procs, setProc_self]
      refine wp_mono (procPagetable_spec hvm hk.managed.lt) fun o m' ho => ?_
      cases o with
      | none =>
        obtain ⟨hden, F', hres⟩ := ho
        dsimp only
        rw [wp_bind, wp_freeproc_trapframe (by simp; rfl) (by simpa)]
        refine wp_mono (hres.kfree_spec hk) ?_
        rintro _ m'' ⟨hres', hden'⟩
        exact .inr ⟨np, F', hunused, by simp; rfl, hres', hden'.trans hden⟩
      | some pt =>
        obtain ⟨r, F', rfl, hns⟩ := ho
        dsimp only
        rw [wp_bind, wp_change, wp_bind, wp_change, wp_pure]
        simp only [setMach_setMach, setMach_setProc, setProc_setProc, setMach_procs, setProc_self]
        exact ⟨r, tf, F', .of_newSpace hunused hk hns⟩

end

end Os

end CowPbs
