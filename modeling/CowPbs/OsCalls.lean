import Mathlib
import CowPbs.ExecInv
import CowPbs.GrowProc

/-!
# What the calls do to the processes

The calls that change memory, one after another : system calls, stores of user programs, the
faults of those that hit a copy-on-write page, and what the rest of the kernel does with the
pages it has. For the user each process has a memory of its own (`User`), and `Users.Step`
says what the calls do to these memories in a kernel that copies them whole. `call_spec` : the
kernel does nothing else, keeps its invariant, and does not panic but for the null pointer of
`uvmcopy`.
-/

set_option linter.unusedSectionVars false

open Function Prog Bytes Radix

namespace CowPbs

/-! ## Private memories -/

/-- The memory of a process, up to the trapframe. -/
@[ext] structure User where
  sz : ℕ
  mem : ℕ → Option Byte

/-- The memories of the processes. -/
abbrev Users := Slot → Option User

namespace User

/-- A new program. -/
def load (l : Loaded) : User where
  sz := l.sz
  mem va := if va < l.sz then some (l.mem va) else none

/-- More memory, of zeros, or less. -/
def resize (u : User) (sz : ℕ) : User where
  sz := sz
  mem va := if va / PGSIZE < pages sz then
      if va / PGSIZE < pages u.sz then u.mem va else some 0
    else none

/-- The bytes `l` at `va`. -/
def write (u : User) (va : ℕ) (l : List Byte) : User where
  sz := u.sz
  mem x := if va ≤ x ∧ x < va + l.length then l[x - va]? else u.mem x

end User

/-- The size after `sbrk n`. A negative size is not noticed, and nothing is done. -/
def sbrkSize (sz : ℕ) (n : Int32) : ℕ :=
  if 0 ≤ sz + n.toInt then (sz + n.toInt).toNat else sz

/-- What happens to memory. -/
inductive Call
  | fork (p : Slot)
  | exec (p : Slot) (file : Option Reader) (argv : List (List Byte))
  | sbrk (p : Slot) (n : Int32)
  /-- The program of `p` stores to a page that it may write. -/
  | store (p : Slot) (va : ℕ) (l : List Byte)
  /-- The program of `p` stores to a page that it may not write. -/
  | fault (p : Slot) (va : ℕ)
  /-- The kernel writes to the memory of `p`. -/
  | copyout (p : Slot) (dstva : ℕ) (src : List Byte)
  /-- `wait` has found the zombie `p`. -/
  | reap (p : Slot)
  /-- Other fields of the `struct proc` of `p`. -/
  | change (p : Slot) (q : Proc)
  /-- The kernel takes a page for itself. -/
  | take
  /-- It gives one back. -/
  | give (n : ℕ)
  /-- It writes to one. -/
  | fill (n k : ℕ) (l : List Byte)

/-- A call, with what it returned. -/
abbrev Event := Call × ℤ

/-- The calls in a kernel where nothing is shared. -/
inductive Users.Step (u : Users) : Event → Users → Prop
  | fork {p c : Slot} {m : User} {ret : ℤ} (hp : u p = some m) (hc : u c = none) :
    Users.Step u (.fork p, ret) (update u c (some m))
  | noFork {p : Slot} : Users.Step u (.fork p, -1) u
  | exec {p : Slot} {file : Option Reader} {argv : List (List Byte)} {m : User} {l : Loaded}
    (hp : u p = some m) (hl : (file.bind fun readi => execSpec readi argv) = some l) :
    Users.Step u (.exec p file argv, argv.length) (update u p (some (.load l)))
  | noExec {p : Slot} {file : Option Reader} {argv : List (List Byte)} :
    Users.Step u (.exec p file argv, -1) u
  | sbrk {p : Slot} {n : Int32} {m : User} (hp : u p = some m) :
    Users.Step u (.sbrk p n, m.sz) (update u p (some (m.resize (sbrkSize m.sz n))))
  | noSbrk {p : Slot} {n : Int32} (hn : 0 < n) : Users.Step u (.sbrk p n, -1) u
  | store {p : Slot} {va : ℕ} {l : List Byte} {m : User} (hp : u p = some m) :
    Users.Step u (.store p va l, 0) (update u p (some (m.write va l)))
  | fault {p : Slot} {va : ℕ} {ret : ℤ} : Users.Step u (.fault p va, ret) u
  | copyout {p : Slot} {dstva : ℕ} {src : List Byte} {m : User} (hp : u p = some m) :
    Users.Step u (.copyout p dstva src, 0) (update u p (some (m.write dstva src)))
  /-- `copyout` stops at a page that it may not write. -/
  | noCopyout {p : Slot} {dstva j : ℕ} {src : List Byte} {m : User} (hp : u p = some m)
    (hj : j < src.length) :
    Users.Step u (.copyout p dstva src, -1) (update u p (some (m.write dstva (src.take j))))
  | reap {p : Slot} {ret : ℤ} : Users.Step u (.reap p, ret) (update u p none)
  | change {p : Slot} {q : Proc} {ret : ℤ} : Users.Step u (.change p q, ret) u
  | take {ret : ℤ} : Users.Step u (.take, ret) u
  | give {n : ℕ} {ret : ℤ} : Users.Step u (.give n, ret) u
  | fill {n k : ℕ} {l : List Byte} {ret : ℤ} : Users.Step u (.fill n k l, ret) u

namespace Os

/-- What the process in a slot sees of the memory. -/
def userOf (m : Mem) (q : Proc) : Option User :=
  q.pagetable.map fun a =>
    ⟨q.sz, fun va => if va < TRAPFRAME then view m (a / PGSIZE) va else none⟩

/-- What all processes see. -/
def users (s : Os) : Users :=
  fun p => userOf s.mach.mem (s.procs.proc p)

/-! ## The calls -/

/-- A store by a user program, through the page table. -/
def storeUser (root va : ℕ) (l : List Byte) : K Unit :=
  modify fun s => match pageEntry s.mem root (va / PGSIZE) with
    | some e => { s with mem := Bytes.store s.mem (PTE2PA e + va % PGSIZE) l }
    | none => s

section

variable [Layout]

/-- `sys_sbrk`. -/
def sbrk (p : Slot) (n : Int32) : Prog Os ℤ := do
  let s ← get
  let q := s.procs.proc p
  let (r, sz) ← lift (growproc (q.pagetable.getD 0) q.sz n)
  change p fun q => { q with sz := sz }
  if r < 0 then return -1
  else return q.sz

/-- What happens in a call, with what it returns. -/
def call : Call → Prog Os ℤ
  | .fork p => do
    let pid ← fork p
    return pid.toInt
  | .exec p file argv => exec p file argv
  | .sbrk p n => sbrk p n
  | .store p va l => do
    let s ← get
    lift (storeUser ((s.procs.proc p).pagetable.getD 0 / PGSIZE) va l)
    return 0
  | .fault p va => do
    let s ← get
    let r ← lift (writeTrap va ((s.procs.proc p).pagetable.getD 0))
    if r ≠ 0 then
      change p fun q => { q with killed := 1 }
      return r
    else return r
  | .copyout p dstva src => do
    let s ← get
    lift (CowPbs.copyout ((s.procs.proc p).pagetable.getD 0) dstva src)
  | .reap p => do
    freeproc p
    return 0
  | .change p q => do
    change p fun _ => q
    return 0
  | .take => do
    match ← lift kalloc with
    | none => return 0
    | some pa =>
      modify fun s => { s with held := update s.held (pa / PGSIZE) true }
      return pa
  | .give n => do
    lift (kfree (n * PGSIZE))
    modify fun s => { s with held := update s.held n false }
    return 0
  | .fill n k l => do
    lift (modify fun s => { s with mem := Bytes.store s.mem (n * PGSIZE + k) l })
    return 0

end

/-- When a call can be made. -/
def Ready (s : Os) : Call → Prop
  | .fork p | .sbrk p _ | .fault p _ | .copyout p _ _ => (s.procs.proc p).state ≠ .unused
  | .exec p file argv => (s.procs.proc p).state ≠ .unused ∧
    (∀ readi ∈ file, ∀ off n, (readi off n).length ≤ n) ∧ ∀ arg ∈ argv, arg.length + 1 < 2 ^ 63
  | .store p va l => ∃ a e, (s.procs.proc p).pagetable = some a ∧
    pageEntry s.mach.mem (a / PGSIZE) (va / PGSIZE) = some e ∧ has e PTE_U = true ∧
    has e PTE_W = true ∧ va < MAXVA ∧ va % PGSIZE + l.length ≤ PGSIZE
  | .reap p => (s.procs.proc p).state = .zombie
  | .change p q => (s.procs.proc p).state ≠ .unused ∧ q.state ≠ .unused ∧
    q.pagetable = (s.procs.proc p).pagetable ∧ q.trapframe = (s.procs.proc p).trapframe ∧
    q.sz = (s.procs.proc p).sz
  | .take => True
  | .give n => s.held n = true
  | .fill n k l => 0 < s.kern n ∧ k + l.length ≤ PGSIZE

/-! ## What the processes see -/

section

variable [Layout] {F F' : Forest ℕ} {s t : Os} {p i : Slot} {q : Proc} {r tf k n : ℕ} {m : Mem}
  {o : Option User} {E : String → Prop}

theorem userOf_lives (hl : Lives F q r tf) : userOf m q =
    some ⟨q.sz, fun va => if va < TRAPFRAME then view m r va else none⟩ := by
  unfold userOf
  rw [hl.pagetable, Option.map_some, mul_PGSIZE_div]

theorem userOf_free (hf : Free q) : userOf m q = none := by
  unfold userOf
  rw [hf.pagetable, Option.map_none]

/-- A process that keeps its address space, and sees the same in it. -/
theorem Inv.users_eq (h : Inv F s)
    (hpt : (t.procs.proc i).pagetable = (s.procs.proc i).pagetable)
    (hsz : (t.procs.proc i).sz = (s.procs.proc i).sz)
    (hview : ∀ r, (s.procs.proc i).pagetable = some (r * PGSIZE) → ∀ va < TRAPFRAME,
      view t.mach.mem r va = view s.mach.mem r va) : t.users i = s.users i := by
  unfold users userOf
  rw [hpt, hsz]
  rcases h.slot i with hf | ⟨-, r, tf, hl⟩
  · rw [hf.pagetable]
    rfl
  · rw [hl.pagetable, Option.map_some, Option.map_some, mul_PGSIZE_div]
    refine congrArg some (User.ext rfl (funext fun va => ?_))
    dsimp only
    split_ifs with hva
    · exact hview r hl.pagetable va hva
    · rfl

/-- All of them. -/
theorem Inv.users_eq_all (h : Inv F s) (hprocs : t.procs.proc = s.procs.proc)
    (hview : ∀ r ∈ F.roots, ∀ va < TRAPFRAME, view t.mach.mem r va = view s.mach.mem r va) :
    t.users = s.users := by
  funext i
  exact h.users_eq (by rw [hprocs]) (by rw [hprocs]) fun r hr => hview r (h.root_of_pagetable hr)

theorem users_update (hself : t.users p = o) (hother : ∀ i ≠ p, t.users i = s.users i) :
    t.users = update s.users p o := by
  funext i
  by_cases hi : i = p
  · rw [hi, update_self, hself]
  · rw [update_of_ne hi, hother i hi]

/-- The same page, with the same bytes, in two page tables. -/
theorem view_shared {kern kern' : ℕ → ℕ} {s t : Mach} {r r' va : ℕ} (h : Vm F kern s)
    (h' : Vm F' kern' t) (hr : r ∈ F.roots) (hr' : r' ∈ F'.roots) (hv : va / PGSIZE < UPAGES)
    (hne : F'.pte r' (va / PGSIZE) ≠ 0 ↔ F.pte r (va / PGSIZE) ≠ 0)
    (hf : F.pte r (va / PGSIZE) ≠ 0 →
      frame (F'.pte r' (va / PGSIZE)) = frame (F.pte r (va / PGSIZE)))
    (hk : Kept F kern s F' kern' t) : view t.mem r' va = view s.mem r va := by
  by_cases h0 : F.pte r (va / PGSIZE) = 0
  · have h0' : F'.pte r' (va / PGSIZE) = 0 := by
      by_contra hne'
      exact hne.1 hne' h0
    rw [h.view_unmapped hr h0, h'.view_unmapped hr' h0']
  · have hown' := h'.owners_frame hr' hv (hne.2 h0)
    rw [h.view_mapped hr hv h0, h'.view_mapped hr' hv (hne.2 h0), hf h0]
    rw [hf h0] at hown'
    rw [hk _ (h.leaf r hr _ hv h0).not_tab (h.owners_frame hr hv h0) hown' _ (page_offset _ va)]

/-! ## `fork` -/

theorem Forked.users {np : Slot} {rp tfp : ℕ} (h : Inv F s) (hst : (s.procs.proc p).state ≠ .unused)
    (hl : Lives F (s.procs.proc p) rp tfp) (hf : Forked F s p np rp r tf F' t) :
    t.users = update s.users np (s.users p) := by
  have hU := UPAGES_eq
  have hUV := UPAGES_le
  have hsmall := h.vm.sized_le hl.space.root hl.space.sized
  have hpn : p ≠ np := by
    rintro rfl
    exact hst hf.unused
  have hrF : r ∉ F.roots := fun hr => owners_root h.vm hr hf.free
  have hroot : ∀ r' ∈ F.roots, r' ∈ F'.roots := fun r' hr' => by
    rw [hf.roots]
    exact Finset.mem_insert_of_mem hr'
  have hproc : ∀ i ≠ np, t.procs.proc i = s.procs.proc i := fun i hi => by
    rw [hf.eq, setMach_procs, setProc_of_ne hi, takePid_proc]
  have hcow : ∀ e, cowOf e ≠ 0 := fun e => by
    refine ne_zero_of_testBit (k := 8) ?_
    rw [testBit_cowOf _ (by norm_num)]
    simp
  -- an entry of the parent that is shared shows the same page
  have hshared : ∀ r', (∀ v < pages (s.procs.proc p).sz, F'.pte r' v = cowOf (F.pte rp v)) →
      (∀ v < UPAGES, pages (s.procs.proc p).sz ≤ v → F'.pte r' v = 0) → r' ∈ F'.roots →
      ∀ va < TRAPFRAME, view t.mach.mem r' va = view s.mach.mem rp va := by
    intro r' hin hout hr' va hva
    have hv := lt_UPAGES hva
    refine view_shared h.vm hf.vm hl.space.root hr' hv ?_ (fun h0 => ?_) hf.saved.kept
    · rw [hl.space.sized _ hv]
      by_cases hlt : va / PGSIZE < pages (s.procs.proc p).sz
      · rw [hin _ hlt]
        exact iff_of_true (hcow _) hlt
      · rw [hout _ hv (not_lt.1 hlt)]
        exact iff_of_false (fun h0 => h0 rfl) hlt
    · rw [hin _ ((hl.space.sized _ hv).1 h0), frame_cowOf]
  have hzero : ∀ v < UPAGES, pages (s.procs.proc p).sz ≤ v → F.pte rp v = 0 := fun v hv hge => by
    by_contra hne
    exact absurd ((hl.space.sized v hv).1 hne) (not_lt.2 hge)
  have hrp : rp ≠ r := by
    rintro rfl
    exact hrF hl.space.root
  refine users_update ?_ fun i hi => ?_
  · have hself : t.procs.proc np = s.childOf p np r tf := by
      rw [hf.eq, setMach_procs, setProc_self]
    have hchild : Lives F' (t.procs.proc np) r tf := by
      rw [hself]
      exact ⟨rfl, rfl, hf.space⟩
    rw [show t.users np = userOf t.mach.mem (t.procs.proc np) from rfl, userOf_lives hchild,
      show s.users p = userOf s.mach.mem (s.procs.proc p) from rfl, userOf_lives hl, hself]
    refine congrArg some (User.ext rfl (funext fun va => ?_))
    dsimp only
    split_ifs with hva
    · refine hshared r hf.child (fun v hv hge => ?_) hf.space.root va hva
      by_contra hne
      exact absurd ((hf.space.sized v hv).1 hne) (not_lt.2 hge)
    · rfl
  · refine h.users_eq (by rw [hproc i hi]) (by rw [hproc i hi]) fun r' hr' va hva => ?_
    have hr'F := h.root_of_pagetable hr'
    have hne : r' ≠ r := by
      rintro rfl
      exact hrF hr'F
    by_cases hrr : r' = rp
    · rw [hrr]
      refine hshared rp hf.parent (fun v hv hge => ?_) (hroot rp hl.space.root) va hva
      rw [hf.other rp v (by omega) hrp fun hin => by omega, hzero v hv hge]
    · have hv := lt_UPAGES hva
      exact h.vm.view_kept hf.vm hr'F (hroot r' hr'F) hv
        (hf.other r' _ (by omega) hne fun hin => hrr hin.1) hf.saved.kept

theorem Restored.users {m' : Mach} (h : Inv F s) (hr : Restored F s.kern s.mach F' m')
    (hproc : ∀ i, (t.procs.proc i).pagetable = (s.procs.proc i).pagetable ∧
      (t.procs.proc i).sz = (s.procs.proc i).sz) (ht : t.mach = m') : t.users = s.users := by
  funext i
  refine h.users_eq (hproc i).1 (hproc i).2 fun r hrt va hva => ?_
  rw [ht]
  exact (Restored.untouched h hr).view i r hrt va hva

theorem NotAllocated.users {np : Slot} (h : Inv F s) (hn : NotAllocated F s np F' t) :
    t.users = s.users := by
  have hfree := h.free hn.unused
  refine Restored.users h hn.restored (fun i => ?_) rfl
  by_cases hi : i = np
  · have hself : t.procs.proc np = ((s.procs.proc np).found s.procs.nextpid).freeproc := by
      rw [hn.eq, setMach_procs, setProc_self]
    rw [hi, hself]
    exact ⟨hfree.pagetable.symm, hfree.sz.symm⟩
  · rw [hn.eq, setMach_procs, setProc_of_ne hi, takePid_proc]
    exact ⟨rfl, rfl⟩

/-- What a call returns and does. -/
def Done (s : Os) (c : Call) (ret : ℤ) (t : Os) : Prop :=
  (∃ F', Inv F' t) ∧ Users.Step s.users (c, ret) t.users

theorem fork_done (h : Inv F s) (hst : (s.procs.proc p).state ≠ .unused) :
    wp (fun e => e = "kerneltrap") (call (.fork p)) (Done s (.fork p)) s := by
  obtain ⟨rp, tfp, hl⟩ := h.lives hst
  refine wp_seq (fork_spec h hst hl) fun pid t ho => ?_
  rw [wp_pure]
  rcases ho with ⟨rfl, ⟨rfl, -⟩ | ⟨np, F', hn⟩⟩ | ⟨rfl, np, r, tf, F', hf⟩
  · exact ⟨⟨F, h⟩, .noFork⟩
  · refine ⟨⟨F', hn.inv h⟩, ?_⟩
    rw [hn.users h]
    exact .noFork
  · refine ⟨⟨F', hf.inv h hl⟩, ?_⟩
    rw [hf.users h hst hl, show s.users p = userOf s.mach.mem (s.procs.proc p) from rfl,
      userOf_lives hl]
    exact .fork (userOf_lives hl) (userOf_free (h.free hf.unused))

/-! ## `exec` -/

theorem Execed.users {l : Loaded} {rp tfp : ℕ} (h : Inv F s)
    (hl : Lives F (s.procs.proc p) rp tfp) (he : Execed F s p rp tfp l n k F' t) :
    t.users = update s.users p (some (.load l)) := by
  have hst := he.started h hl
  have hlt : l.sz ≤ TRAPFRAME := by
    have hsmall := he.vm.sized_le he.space.root he.space.sized
    have hT : TRAPFRAME = (2 ^ 26 - 2) * PGSIZE := by decide
    have hsz := he.sz
    simp only [PGSIZE] at hT hsz
    omega
  refine users_update ?_ fun i hi => ?_
  · rw [show t.users p = userOf t.mach.mem (t.procs.proc p) from rfl, userOf_lives (he.lives hl),
      he.proc_self]
    refine congrArg some (User.ext rfl (funext fun va => ?_))
    dsimp only [User.load]
    by_cases hva : va < l.sz
    · rw [if_pos hva, if_pos (by omega), hst.image va hva]
    · rw [if_neg hva]
      split_ifs with hT
      · exact hst.outside va hT (not_lt.1 hva)
      · rfl
  · refine h.users_eq (by rw [he.proc_of_ne hi]) (by rw [he.proc_of_ne hi]) fun r hr va hva => ?_
    exact hst.others i hi r hr va hva

theorem exec_done {file : Option Reader} {argv : List (List Byte)} (h : Inv F s)
    (hst : (s.procs.proc p).state ≠ .unused)
    (hread : ∀ readi ∈ file, ∀ off n, (readi off n).length ≤ n)
    (hargv : ∀ arg ∈ argv, arg.length + 1 < 2 ^ 63) :
    wp E (call (.exec p file argv)) (Done s (.exec p file argv)) s := by
  obtain ⟨rp, tfp, hl⟩ := h.lives hst
  refine wp_mono (exec_spec h hl hread hargv) fun ret t ho => ?_
  rcases ho with ⟨rfl, ht, ⟨F', hres⟩, -⟩ | ⟨rfl, l, n, k, F', hspec, he⟩
  · rw [ht]
    refine ⟨⟨F', h.setMach hres.vm hres.roots fun r k tf => Restored.space hres⟩, ?_⟩
    have hsame : (s.setMach t.mach).users = s.users :=
      Restored.users h hres (fun _ => ⟨rfl, rfl⟩) rfl
    rw [hsame]
    exact .noExec
  · refine ⟨⟨F', he.inv h hst hl⟩, ?_⟩
    rw [he.users h hl]
    exact .exec (userOf_lives hl) hspec

/-! ## `sbrk` -/

/-- The page table `r` has the first `pages sz'` pages, and the others are as they were. -/
structure Regrown (r sz sz' : ℕ) (F : Forest ℕ) (kern : ℕ → ℕ) (s : Mach) (F' : Forest ℕ)
    (t : Mach) : Prop where
  vm : Vm F' kern t
  kept : Kept F kern s F' kern t
  roots : F'.roots = F.roots
  sized : F'.Sized r (pages sz')
  other : ∀ r' v, v < VPAGES → ¬(r' = r ∧ v < UPAGES) → F'.pte r' v = F.pte r' v
  same : ∀ v < pages sz, v < pages sz' → F'.pte r v = F.pte r v
  zero : ∀ va, pages sz ≤ va / PGSIZE → va / PGSIZE < pages sz' → view t.mem r va = some 0

theorem Regrown.refl {kern : ℕ → ℕ} {m : Mach} {sz : ℕ} (h : Vm F kern m)
    (hs : F.Sized r (pages sz)) : Regrown r sz sz F kern m F m where
  vm := h
  kept _ _ _ _ _ _ := rfl
  roots := rfl
  sized := hs
  other _ _ _ _ := rfl
  same _ _ _ := rfl
  zero _ h₁ h₂ := absurd h₂ (not_lt.2 h₁)

theorem growproc_spec {kern : ℕ → ℕ} {m : Mach} {sz : ℕ} {n : Int32} (h : Vm F kern m)
    (hr : r ∈ F.roots) (hs : F.Sized r (pages sz)) :
    wp E (growproc (r * PGSIZE) sz n) (fun o t =>
      (o = (0, sbrkSize sz n) ∧ ∃ F', Regrown r sz (sbrkSize sz n) F kern m F' t) ∨
      (o = (-1, sz) ∧ 0 < n ∧ ∃ F', Regrown r sz sz F kern m F' t)) m := by
  have hU := UPAGES_eq
  have hUV := UPAGES_le
  have hsz := h.lt_of_sized hr hs
  have hsmall := h.sized_le hr hs
  unfold growproc
  rw [wp_ite]
  refine ⟨fun hpos => ?_, fun hpos => ?_⟩
  · have hpos' : 0 < n.toInt := Int32.lt_iff_toInt_lt.1 hpos
    have hadd := addInt_eq hsz (show 0 ≤ sz + n.toInt by omega)
    have hnew : sbrkSize sz n = addInt sz n := by
      unfold sbrkSize
      rw [if_pos (by omega)]
      omega
    refine wp_seq (uvmalloc_spec h hr hs (by decide)) fun o t ho => ?_
    obtain ⟨hlt, -⟩ | ⟨hle, rfl, F', hg⟩ | ⟨hle, rfl, -, F', hu⟩ := ho
    · omega
    · rw [if_neg (by omega), wp_pure, hnew]
      have hsmall' := hg.vm.sized_le (hg.roots.symm ▸ hr) (hg.sized hs (pages_mono hle))
      have hsz' := hg.vm.lt_of_sized (hg.roots.symm ▸ hr) (hg.sized hs (pages_mono hle))
      refine .inl ⟨rfl, F', hg.vm, hg.saved.kept, hg.roots, hg.sized hs (pages_mono hle),
        fun r' v hv hout => hg.other r' v hv fun hin => hout ⟨hin.1, by omega⟩,
        fun v hv _ => hg.other r v (by omega) fun hin => by omega, fun va h₁ h₂ => ?_⟩
      refine (hg.resized h hr hs hle (by decide)).zero va ?_ ?_
      · rw [PGROUNDUP_pages (by omega)]
        exact (Nat.le_div_iff_mul_le PGSIZE_pos).1 h₁
      · rw [PGROUNDUP_pages (by omega)]
        exact (Nat.div_lt_iff_lt_mul PGSIZE_pos).1 h₂
    · rw [if_pos rfl, wp_pure]
      refine .inr ⟨rfl, hpos, F', hu.vm, hu.saved.kept, hu.roots,
        hs.congr fun v hv => hu.pte r v (by omega), fun r' v hv _ => hu.pte r' v hv,
        fun v hv _ => hu.pte r v (by omega), fun _ h₁ h₂ => absurd h₂ (not_lt.2 h₁)⟩
  · have hpos' : ¬0 < n.toInt := fun hlt => hpos (Int32.lt_iff_toInt_lt.2 hlt)
    rw [wp_ite]
    refine ⟨fun hneg => ?_, fun hneg => ?_⟩
    · have hneg' : n.toInt < 0 := Int32.lt_iff_toInt_lt.1 hneg
      refine wp_seq (uvmdealloc_spec h hr hs) fun o t ⟨ho, hvm, hd, _⟩ => ?_
      rw [wp_pure]
      have hnew : o = sbrkSize sz n := by
        rw [ho]
        unfold sbrkSize
        by_cases hn : 0 ≤ sz + n.toInt
        · have hadd := addInt_eq hsz hn
          rw [if_neg (by omega), if_pos hn]
          omega
        · rw [if_pos (le_addInt hsz (by omega)), if_neg hn]
      -- no page is taken away where the size would be negative
      have hpages : pages (addInt sz n) ≤ pages sz → pages (sbrkSize sz n) = pages (addInt sz n) ∧
          sbrkSize sz n ≤ sz := by
        intro hle
        unfold sbrkSize
        by_cases hn : 0 ≤ sz + n.toInt
        · have hadd := addInt_eq hsz hn
          rw [if_pos hn]
          exact ⟨congrArg pages (by omega), by omega⟩
        · rw [if_neg hn]
          exact ⟨le_antisymm (pages_mono (le_addInt hsz (by omega))) hle, le_rfl⟩
      have hle : sbrkSize sz n ≤ sz := by
        unfold sbrkSize
        split_ifs <;> omega
      have hset : (F.setPtes r (pages (addInt sz n)) (fun _ => 0)
          (pages sz - pages (addInt sz n))) = F.setPtes r (pages (sbrkSize sz n)) (fun _ => 0)
            (pages sz - pages (sbrkSize sz n)) := by
        by_cases hp : pages (addInt sz n) ≤ pages sz
        · rw [(hpages hp).1]
        · have hneg : ¬0 ≤ sz + n.toInt := fun hn => hp (pages_mono (by
            have hadd := addInt_eq hsz hn
            omega))
          have hsame : sbrkSize sz n = sz := if_neg hneg
          rw [hsame, Nat.sub_self, Nat.sub_eq_zero_of_le (by omega)]
          rfl
      rw [hset] at hvm hd
      have hk := pages_mono hle
      rw [hnew]
      refine .inl ⟨rfl, _, hvm, hd.kept, Forest.roots_setPtes .., fun v hv => ?_,
        fun r' v hv hout => ?_, fun v hv hv' => ?_, fun va h₁ h₂ => by omega⟩
      · rw [Forest.pte_setPtes (by omega) (by omega)]
        split_ifs with hin
        · exact iff_of_false (fun h0 => h0 rfl) (by omega)
        · rw [hs v hv]
          refine ⟨fun hlt => ?_, fun hlt => by omega⟩
          by_contra hge
          exact hin ⟨rfl, by omega, by omega⟩
      · rw [Forest.pte_setPtes (by omega) hv, if_neg]
        rintro ⟨rfl, h₁, h₂⟩
        exact hout ⟨rfl, by omega⟩
      · rw [Forest.pte_setPtes (by omega) (by omega), if_neg (by omega)]
    · have hneg' : ¬n.toInt < 0 := fun hlt => hneg (Int32.lt_iff_toInt_lt.2 hlt)
      have hsame : sbrkSize sz n = sz := by
        unfold sbrkSize
        rw [if_pos (by omega)]
        omega
      rw [hsame]
      exact .inl ⟨rfl, F, .refl h hs⟩

/-- The slot `p` has its address space, and the others have theirs. -/
theorem Inv.regrown {rp tfp sz' : ℕ} {m : Mach} (h : Inv F s)
    (hst : (s.procs.proc p).state ≠ .unused) (hl : Lives F (s.procs.proc p) rp tfp)
    (hg : Regrown rp (s.procs.proc p).sz sz' F s.kern s.mach F' m)
    (ht : t = (s.setProc p { s.procs.proc p with sz := sz' }).setMach m) :
    Inv F' t ∧ ∀ i ≠ p, t.users i = s.users i := by
  have hU := UPAGES_eq
  have hV := VPAGES_eq
  have hUV := UPAGES_le
  have hself : t.procs.proc p = { s.procs.proc p with sz := sz' } := by
    rw [ht, setMach_procs, setProc_self]
  have hproc : ∀ i ≠ p, t.procs.proc i = s.procs.proc i := fun i hi => by
    rw [ht, setMach_procs, setProc_of_ne hi]
  have hkern : t.kern = s.kern := by
    rw [ht, setMach_kern]
    exact kern_setProc_same rfl
  have hmach : t.mach = m := by rw [ht, setMach_mach]
  have hpte : ∀ r ≠ rp, ∀ v < VPAGES, F'.pte r v = F.pte r v := fun r hr v hv =>
    hg.other r v hv fun hin => hr hin.1
  have hspace : Space F' rp (pages sz') tfp := by
    have hhigh : ∀ v, UPAGES ≤ v → v < VPAGES → F'.pte rp v = F.pte rp v := fun v hv hv' =>
      hg.other rp v hv' fun hin => absurd hin.2 (not_lt.2 hv)
    refine ⟨hg.roots.symm ▸ hl.space.root, hg.sized, ?_, ?_⟩
    · rw [hhigh _ (by omega) (by omega), hl.space.trapframe]
    · rw [hhigh _ (by omega) (by omega), hl.space.trampoline]
  have hlt : Lives F' (t.procs.proc p) rp tfp := by
    rw [hself]
    exact ⟨hl.pagetable, hl.trapframe, hspace⟩
  have hne : ∀ i ≠ p, ∀ r, (s.procs.proc i).pagetable = some (r * PGSIZE) → r ≠ rp := by
    rintro i hi r hr rfl
    exact hi (h.inj i p _ hr hl.pagetable)
  refine ⟨h.replace (p := p) hproc (by rw [hkern, hmach]; exact hg.vm) (.inr ⟨?_, rp, tfp, hlt⟩)
    (fun i hi r tf hlr => hlr.congr fun j hsp => ?_) (fun r hr => ?_) (fun a ha => .inl ?_)
    fun m => ?_, fun i hi => ?_⟩
  · rw [hself]
    exact hst
  · have hr := hne i hi r hlr.pagetable
    exact hsp.congr (hg.roots.symm ▸ hsp.root) (fun v hv => by rw [hpte r hr v (by omega)])
      fun v _ hv => hpte r hr v hv
  · rw [hg.roots] at hr
    by_cases hrr : r = rp
    · rw [hrr]
      exact .inl hlt.pagetable
    · refine .inr ⟨hr, fun heq => hrr ?_⟩
      exact some_page_inj (heq.symm.trans hl.pagetable)
  · rw [hself] at ha
    exact ha
  · rw [hkern]
    exact h.once m
  · refine h.users_eq (by rw [hproc i hi]) (by rw [hproc i hi]) fun r hr va hva => ?_
    have hrF := h.root_of_pagetable hr
    have hv := lt_UPAGES hva
    rw [hmach]
    exact h.vm.view_kept hg.vm hrF (hg.roots.symm ▸ hrF) hv
      (hpte r (hne i hi r hr) _ (hv.trans_le hUV)) hg.kept

/-- What the process sees of a memory of another size. -/
theorem Regrown.user {rp tfp sz' : ℕ} {m : Mach} (h : Inv F s)
    (hl : Lives F (s.procs.proc p) rp tfp)
    (hg : Regrown rp (s.procs.proc p).sz sz' F s.kern s.mach F' m) :
    (⟨sz', fun va => if va < TRAPFRAME then view m.mem rp va else none⟩ : User) =
      User.resize ⟨(s.procs.proc p).sz,
        fun va => if va < TRAPFRAME then view s.mach.mem rp va else none⟩ sz' := by
  have hU := UPAGES_eq
  have hT : TRAPFRAME = (2 ^ 26 - 2) * PGSIZE := by decide
  have hr' : rp ∈ F'.roots := hg.roots.symm ▸ hl.space.root
  have hsmall := hg.vm.sized_le hr' hg.sized
  refine User.ext rfl (funext fun va => ?_)
  dsimp only [User.resize]
  have hT' : va / PGSIZE < pages sz' → va < TRAPFRAME := fun hv => by
    have := (Nat.div_lt_iff_lt_mul PGSIZE_pos).1 hv
    simp only [PGSIZE] at hT this
    omega
  by_cases hv : va / PGSIZE < pages sz'
  · have hva := hT' hv
    rw [if_pos hva, if_pos hv, if_pos hva]
    by_cases hold : va / PGSIZE < pages (s.procs.proc p).sz
    · rw [if_pos hold]
      exact h.vm.view_kept hg.vm hl.space.root hr' (lt_UPAGES hva) (hg.same _ hold hv) hg.kept
    · rw [if_neg hold]
      exact hg.zero va (not_lt.1 hold) hv
  · rw [if_neg hv]
    split_ifs with hva
    · refine hg.vm.view_unmapped hr' (not_not.1 fun h0 => hv ?_)
      exact (hg.sized _ (lt_UPAGES hva)).1 h0
    · rfl

theorem sbrk_done {n' : Int32} (h : Inv F s) (hst : (s.procs.proc p).state ≠ .unused) :
    wp E (call (.sbrk p n')) (Done s (.sbrk p n')) s := by
  obtain ⟨rp, tfp, hl⟩ := h.lives hst
  have hp : s.users p = some ⟨(s.procs.proc p).sz,
      fun va => if va < TRAPFRAME then view s.mach.mem rp va else none⟩ := userOf_lives hl
  show wp E (sbrk p n') _ s
  unfold sbrk
  rw [wp_bind, wp_get]
  dsimp only
  rw [hl.pagetable, wp_bind, wp_lift]
  refine wp_mono (growproc_spec h.vm hl.space.root hl.space.sized) fun o m ho => ?_
  rcases ho with ⟨rfl, F', hg⟩ | ⟨rfl, hn, F', hg⟩
  all_goals
    dsimp only
    rw [wp_bind, wp_change]
    simp only [setMach_setProc, setMach_procs]
    rw [wp_ite]
    obtain ⟨hinv, hother⟩ := h.regrown hst hl hg rfl
    have hself := congrArg some (hg.user h hl)
  · refine ⟨fun hneg => absurd hneg (lt_irrefl 0), fun _ => ⟨⟨F', hinv⟩, ?_⟩⟩
    rw [users_update (Eq.trans ?_ hself) hother]
    · exact .sbrk hp
    · unfold users userOf
      rw [setMach_procs, setProc_self, setMach_mach, hl.pagetable, Option.map_some, mul_PGSIZE_div]
  · refine ⟨fun _ => ⟨⟨F', hinv⟩, ?_⟩, fun hge => absurd (by norm_num) hge⟩
    -- the old memory is the old memory with its own size
    have hold := congrArg some ((Regrown.refl h.vm hl.space.sized).user h hl)
    rw [users_update (o := s.users p) (Eq.trans ?_ (hself.trans (hold.symm.trans
      hp.symm))) hother, update_eq_self]
    · exact .noSbrk hn
    · unfold users userOf
      rw [setMach_procs, setProc_self, setMach_mach, hl.pagetable, Option.map_some, mul_PGSIZE_div]

/-! ## Stores -/

theorem Inv.stored {va : ℕ} {l : List Byte} {m : Mach} (h : Inv F s)
    (hst : Stored r va l F s.kern s.mach F' m) : Inv F' (s.setMach m) :=
  h.setMach hst.vm hst.roots fun _ _ _ => hst.space

/-- Other fields of a slot. -/
theorem Inv.change (h : Inv F s) (hst : (s.procs.proc p).state ≠ .unused)
    (hq : q.state ≠ .unused) (hpt : q.pagetable = (s.procs.proc p).pagetable)
    (htf : q.trapframe = (s.procs.proc p).trapframe) (hsz : q.sz = (s.procs.proc p).sz) :
    Inv F (s.setProc p q) ∧ (s.setProc p q).users = s.users := by
  obtain ⟨rp, tfp, hl⟩ := h.lives hst
  have hkern : (s.setProc p q).kern = s.kern := kern_setProc_same htf
  have hlq : Lives F ((s.setProc p q).procs.proc p) rp tfp := by
    rw [setProc_self]
    exact ⟨hpt.trans hl.pagetable, htf.trans hl.trapframe, hsz ▸ hl.space⟩
  refine ⟨h.replace (p := p) (fun i hi => setProc_of_ne hi) (by rw [hkern]; exact h.vm)
    (.inr ⟨by rwa [setProc_self], rp, tfp, hlq⟩) (fun _ _ _ _ hlr => hlr) (fun r hr => ?_)
    (fun a ha => .inl (by rwa [setProc_self, hpt] at ha)) fun m => by rw [hkern]; exact h.once m, ?_⟩
  · by_cases hrr : r = rp
    · rw [hrr]
      exact .inl hlq.pagetable
    · exact .inr ⟨hr, fun heq => hrr (some_page_inj (heq.symm.trans hl.pagetable))⟩
  · funext i
    by_cases hi : i = p
    · unfold users userOf
      rw [hi, setProc_self, hpt, hsz]
      rfl
    · unfold users
      rw [setProc_of_ne hi]
      rfl

/-- What the processes see after a store to the pages of `p`. -/
theorem Stored.users {rp tfp va : ℕ} {l : List Byte} {m : Mach} (h : Inv F s)
    (hl : Lives F (s.procs.proc p) rp tfp) (hst : Stored rp va l F s.kern s.mach F' m)
    (hva : l ≠ [] → va + l.length ≤ TRAPFRAME) :
    (s.setMach m).users = update s.users p (some (User.write ⟨(s.procs.proc p).sz,
      fun va => if va < TRAPFRAME then view s.mach.mem rp va else none⟩ va l)) := by
  refine users_update ?_ fun i hi => ?_
  · unfold Os.users
    rw [setMach_procs, userOf_lives hl]
    refine congrArg some (User.ext rfl (funext fun x => ?_))
    dsimp only [User.write]
    rw [setMach_mach]
    split_ifs with hx hin hin
    · rw [hst.view rp hl.space.root x hx, if_pos ⟨rfl, hin⟩]
    · rw [hst.view rp hl.space.root x hx, if_neg fun hin' => hin hin'.2]
    · have hne : l ≠ [] := by
        rintro rfl
        simp only [List.length_nil] at hin
        omega
      have := hva hne
      omega
    · rfl
  · refine h.users_eq rfl rfl fun r hr x hx => ?_
    rw [setMach_mach, hst.view r (h.root_of_pagetable hr) x hx, if_neg]
    rintro ⟨rfl, -⟩
    exact hi (h.inj i p _ hr hl.pagetable)

theorem store_done {va : ℕ} {l : List Byte} (h : Inv F s) (hready : Ready s (.store p va l)) :
    wp E (call (.store p va l)) (Done s (.store p va l)) s := by
  obtain ⟨a, e, hpt, he, hU, hW, hva, hin⟩ := hready
  have hst : (s.procs.proc p).state ≠ .unused := fun hst => by
    rw [(h.free hst).pagetable] at hpt
    cases hpt
  obtain ⟨rp, tfp, hl⟩ := h.lives hst
  obtain rfl : a = rp * PGSIZE := Option.some.inj (hpt.symm.trans hl.pagetable)
  have hp : s.users p = some ⟨(s.procs.proc p).sz,
      fun va => if va < TRAPFRAME then view s.mach.mem rp va else none⟩ := userOf_lives hl
  have hpage : va / PGSIZE < VPAGES := page_lt_iff.2 hva
  rw [mul_PGSIZE_div] at he
  have hvalid := he
  rw [h.vm.tables.pageEntry_eq hl.space.root] at he
  split_ifs at he with hV
  obtain rfl := Option.some.inj he
  -- it is a user page of one owner
  have hv : va / PGSIZE < UPAGES := hl.space.user_of_bit hpage (.inl rfl) (by rwa [← has_U])
  have hne : F.pte rp (va / PGSIZE) ≠ 0 := ne_zero_of_testBit (by rwa [← has_U])
  have hcow := (h.vm.leaf rp hl.space.root _ hv hne).cow (by rwa [← has_W])
  have hstored := h.vm.stored_page hl.space.root hv hne hcow hin
  rw [Nat.div_add_mod'] at hstored
  show wp E (do let s ← get; _) _ s
  rw [wp_bind, wp_get, hl.pagetable, Option.getD_some, mul_PGSIZE_div, wp_bind, wp_lift]
  unfold storeUser
  rw [wp_modify, hvalid, wp_pure]
  dsimp only
  rw [PTE2PA_eq]
  refine ⟨⟨F, h.stored hstored⟩, ?_⟩
  rw [Stored.users h hl hstored fun hl0 => ?_]
  · exact .store hp
  · have hT : TRAPFRAME = UPAGES * PGSIZE := by decide
    have hdiv := Nat.div_add_mod' va PGSIZE
    have hmul := Nat.mul_le_mul_right PGSIZE (Nat.succ_le_of_lt hv)
    rw [Nat.succ_mul] at hmul
    omega

theorem fault_done {va : ℕ} (h : Inv F s) (hst : (s.procs.proc p).state ≠ .unused) :
    wp E (call (.fault p va)) (Done s (.fault p va)) s := by
  obtain ⟨rp, tfp, hl⟩ := h.lives hst
  -- whatever happened, the bytes that the processes see are the same
  have hstored : ∀ {ret m}, Trapped rp va F (owners F s.kern) s.mach ret m →
      ∃ F', Stored rp va [] F s.kern s.mach F' m := by
    intro ret m ht
    cases ht with
    | invalid => exact ⟨F, .refl h.vm⟩
    | absent => exact ⟨F, .refl h.vm⟩
    | direct => exact ⟨F, .refl h.vm⟩
    | denied _ _ _ hd => exact ⟨F, .of_denied h.vm hd⟩
    | @broken hva _ m n hcow hb =>
      have hv := hl.space.user_of_bit (page_lt_iff.2 hva) (.inr rfl) hcow
      have hown := h.vm.broken hl.space.root hv hcow hb
      exact ⟨_, hown.stored h.vm hl.space.root hv hcow va⟩
  show wp E (do let s ← get; _) _ s
  rw [wp_bind, wp_get, hl.pagetable, Option.getD_some, wp_bind, wp_lift]
  refine wp_mono (h.vm.writeTrap_spec hl.space) fun ret m ht => ?_
  obtain ⟨F', hsto⟩ := hstored ht
  have hinv := h.stored hsto
  have husers : (s.setMach m).users = s.users := h.users_eq_all rfl fun r hr x hx => by
    rw [setMach_mach, hsto.view r hr x hx, if_neg fun hin => by simp at hin; omega]
  rw [wp_ite]
  constructor
  · intro _
    rw [wp_bind, wp_change, wp_pure]
    obtain ⟨hinv', husers'⟩ := hinv.change (p := p) (q := { s.procs.proc p with killed := 1 }) hst
      hst rfl rfl rfl
    refine ⟨⟨F', hinv'⟩, ?_⟩
    have hsame := husers'.trans husers
    rw [setMach_procs, hsame]
    exact .fault
  · intro _
    refine ⟨⟨F', hinv⟩, ?_⟩
    rw [husers]
    exact .fault

theorem copyout_done {dstva : ℕ} {src : List Byte} (h : Inv F s)
    (hst : (s.procs.proc p).state ≠ .unused) :
    wp E (call (.copyout p dstva src)) (Done s (.copyout p dstva src)) s := by
  obtain ⟨rp, tfp, hl⟩ := h.lives hst
  have hp : s.users p = some ⟨(s.procs.proc p).sz,
      fun va => if va < TRAPFRAME then view s.mach.mem rp va else none⟩ := userOf_lives hl
  show wp E (do let s ← get; _) _ s
  rw [wp_bind, wp_get, hl.pagetable, Option.getD_some, wp_lift]
  refine wp_mono (copyoutFrom_spec h.vm hl.space le_rfl) fun ret m ⟨j, F', hsto, hacc, hres⟩ => ?_
  refine ⟨⟨F', h.stored hsto⟩, ?_⟩
  have hroom : ∀ i < j, dstva + i < TRAPFRAME := fun i hi => by
    obtain ⟨-, hv, -, hU⟩ := hacc i hi
    have hlt := hl.space.user_of_bit hv (.inl rfl) (by rwa [← has_U])
    by_contra hge
    exact absurd hlt (not_lt.2 (Nat.div_le_div_right (not_lt.1 hge)))
  rw [Stored.users h hl hsto fun hne => ?_]
  · rcases hres with ⟨rfl, rfl, -⟩ | ⟨rfl, hj, -⟩
    · rw [List.take_length]
      exact .copyout hp
    · exact .noCopyout hp hj
  · have hpos := List.length_pos_iff.2 hne
    have hlen : (src.take j).length ≤ j := List.length_take_le ..
    have := hroom ((src.take j).length - 1) (by omega)
    omega

/-! ## `wait` -/

theorem reap_done (h : Inv F s) (hst : (s.procs.proc p).state = .zombie) :
    wp E (call (.reap p)) (Done s (.reap p)) s := by
  have hUV := UPAGES_le
  have hused : (s.procs.proc p).state ≠ .unused := by
    rw [hst]
    nofun
  obtain ⟨rp, tfp, hl⟩ := h.lives hused
  have hpos := kern_pos hl.trapframe
  have hntab : ¬F.Tab tfp := fun htab => hpos.ne' (h.vm.excl tfp htab)
  show wp E (do freeproc p; pure 0) _ s
  unfold freeproc
  rw [wp_bind, wp_bind, wp_get, hl.trapframe, hl.pagetable]
  dsimp only
  rw [wp_bind, wp_lift]
  refine wp_mono (h.vm.kfree_spec hpos hntab) fun _ m ⟨hvm, hfree⟩ => ?_
  rw [wp_bind, wp_lift, setMach_mach]
  refine wp_mono (procFreepagetable_spec hvm hl.space) fun _ w ⟨F', hrem⟩ => ?_
  rw [wp_change, wp_pure]
  simp only [setMach_setMach, setMach_setProc, setMach_procs]
  have hkern : (s.setProc p (s.procs.proc p).freeproc).kern =
      update s.kern tfp (s.kern tfp - 1) := kern_setProc_none hl.trapframe rfl
  have hdrop := (hfree.dropped hpos hntab).trans hrem.dropped
  have hpte : ∀ r ≠ rp, ∀ v < VPAGES, F'.pte r v = F.pte r v := fun r hr v hv =>
    hrem.same.pte r v hr hv
  have hroot : ∀ r ∈ F.roots, r ≠ rp → r ∈ F'.roots := fun r hr hne => by
    rw [hrem.roots]
    exact Finset.mem_erase.2 ⟨hne, hr⟩
  have hne : ∀ i ≠ p, ∀ r, (s.procs.proc i).pagetable = some (r * PGSIZE) → r ≠ rp := by
    rintro i hi r hr rfl
    exact hi (h.inj i p _ hr hl.pagetable)
  refine ⟨⟨F', h.replace (p := p) (fun i hi => setProc_of_ne hi) ?_ (.inl ?_)
    (fun i hi r tf hlr => hlr.congr fun j hsp => ?_) (fun r hr => ?_) (fun a ha => ?_) fun n => ?_⟩, ?_⟩
  · rw [setMach_kern, hkern]
    exact hrem.vm
  · rw [setMach_procs, setProc_self]
    exact ⟨rfl, rfl, rfl, rfl⟩
  · have hr := hne i hi r hlr.pagetable
    exact hsp.congr (hroot r hsp.root hr) (fun v hv => by rw [hpte r hr v (by omega)])
      fun v _ hv => hpte r hr v hv
  · rw [hrem.roots] at hr
    obtain ⟨hrr, hr⟩ := Finset.mem_erase.1 hr
    exact .inr ⟨hr, fun heq => hrr (some_page_inj (heq.symm.trans hl.pagetable))⟩
  · rw [setMach_procs, setProc_self] at ha
    cases ha
  · rw [setMach_kern, hkern]
    by_cases hn : n = tfp
    · rw [hn, update_self]
      have := h.once tfp
      omega
    · rw [update_of_ne hn]
      exact h.once n
  · have husers : ((s.setProc p (s.procs.proc p).freeproc).setMach w).users =
        update s.users p none := by
      refine users_update ?_ fun i hi => ?_
      · unfold users
        rw [setMach_procs, setProc_self]
        rfl
      · have hproc : ((s.setProc p (s.procs.proc p).freeproc).setMach w).procs.proc i =
            s.procs.proc i := setProc_of_ne hi
        refine h.users_eq (by rw [hproc]) (by rw [hproc]) fun r hr va hva => ?_
        have hrF := h.root_of_pagetable hr
        have hrr := hne i hi r hr
        have hv := lt_UPAGES hva
        exact h.vm.view_kept hrem.vm hrF (hroot r hrF hrr) hv (hpte r hrr _ (hv.trans_le hUV))
          hdrop.kept
    rw [husers]
    exact .reap

/-! ## The rest of the kernel -/

/-- The kernel has other pages. -/
theorem Inv.hold (h : Inv F s) (hprocs : t.procs = s.procs) (hvm : Vm F t.kern t.mach)
    (honce : ∀ n, t.kern n ≤ 1) : Inv F t := by
  refine ⟨hvm, fun i => ?_, fun r hr => ?_, fun i j a => ?_, honce⟩ <;> rw [hprocs]
  · exact h.slot i
  · exact h.root r hr
  · exact h.inj i j a

theorem kern_held (s : Os) (n : ℕ) (b : Bool) :
    ({ s with held := update s.held n b } : Os).kern =
      update s.kern n ((if b then 1 else 0) + trapframes s.procs.proc n) := by
  funext x
  by_cases hx : x = n
  · subst hx
    simp only [kern, update_self]
  · simp only [kern, update_of_ne hx]

theorem take_done (h : Inv F s) : wp E (call .take) (Done s .take) s := by
  have hUV := UPAGES_le
  rw [call, wp_bind, wp_lift]
  refine wp_mono h.vm.kalloc_spec fun o m ho => ?_
  cases o with
  | none =>
    obtain ⟨hden, hvm⟩ := ho
    rw [wp_pure]
    refine ⟨⟨F, h.setMach hvm rfl fun _ _ _ hsp => hsp⟩, ?_⟩
    rw [h.users_eq_all (t := s.setMach m) rfl fun r _ va _ => by rw [setMach_mach, hden.mem]]
    exact .take
  | some pa =>
    obtain ⟨n, rfl, hk, hvm⟩ := ho
    dsimp only
    rw [wp_bind, wp_modify, wp_pure, mul_PGSIZE_div]
    have hk0 := (owners_eq_zero.1 hk.free).2.1
    have htf0 : trapframes s.procs.proc n = 0 := by
      unfold kern at hk0
      omega
    have hkern : ({ s.setMach m with held := update s.held n true } : Os).kern =
        update s.kern n 1 := by
      refine (kern_held (s.setMach m) n true).trans ?_
      rw [setMach_procs, htf0, setMach_kern]
      rfl
    have hsaved : Saved F s.kern s.mach F (update s.kern n 1) m := hk.saved fun _ _ => rfl
    refine ⟨⟨F, h.hold rfl ?_ fun x => ?_⟩, ?_⟩
    · show Vm F ({ s.setMach m with held := update s.held n true } : Os).kern m
      rw [hkern]
      exact hvm
    · refine (congrFun hkern x).trans_le ?_
      by_cases hx : x = n
      · rw [hx, update_self]
      · rw [update_of_ne hx]
        exact h.once x
    · have husers : ({ s.setMach m with held := update s.held n true } : Os).users = s.users :=
        h.users_eq_all rfl fun r hr va hva =>
          h.vm.view_kept hvm hr hr (lt_UPAGES hva) rfl hsaved.kept
      show Users.Step s.users _ ({ s.setMach m with held := update s.held n true } : Os).users
      rw [husers]
      exact .take

theorem give_done (h : Inv F s) (hheld : s.held n = true) :
    wp E (call (.give n)) (Done s (.give n)) s := by
  have hone := h.once n
  have hpos : 0 < s.kern n := by
    unfold kern
    rw [if_pos hheld]
    omega
  have htf0 : trapframes s.procs.proc n = 0 := by
    unfold kern at hone
    rw [if_pos hheld] at hone
    omega
  have hntab : ¬F.Tab n := fun htab => hpos.ne' (h.vm.excl n htab)
  rw [call, wp_bind, wp_lift]
  refine wp_mono (h.vm.kfree_spec hpos hntab) fun _ m ⟨hvm, hfree⟩ => ?_
  rw [wp_bind, wp_modify, wp_pure]
  have hkern : ({ s.setMach m with held := update s.held n false } : Os).kern =
      update s.kern n (s.kern n - 1) := by
    refine (kern_held (s.setMach m) n false).trans ?_
    rw [setMach_procs, htf0, setMach_kern]
    refine congrArg (update s.kern n) ?_
    simp only [Bool.false_eq_true, if_false]
    omega
  refine ⟨⟨F, h.hold rfl ?_ fun x => ?_⟩, ?_⟩
  · show Vm F ({ s.setMach m with held := update s.held n false } : Os).kern m
    rw [hkern]
    exact hvm
  · refine (congrFun hkern x).trans_le ?_
    by_cases hx : x = n
    · rw [hx, update_self]
      omega
    · rw [update_of_ne hx]
      exact h.once x
  · have husers : ({ s.setMach m with held := update s.held n false } : Os).users = s.users :=
      h.users_eq_all rfl fun r hr va hva =>
        h.vm.view_kept hvm hr hr (lt_UPAGES hva) rfl (hfree.dropped hpos hntab).kept
    show Users.Step s.users _ ({ s.setMach m with held := update s.held n false } : Os).users
    rw [husers]
    exact .give

theorem fill_done {j : ℕ} {l : List Byte} (h : Inv F s) (hpos : 0 < s.kern n)
    (hin : j + l.length ≤ PGSIZE) : wp E (call (.fill n j l)) (Done s (.fill n j l)) s := by
  have hntab : ¬F.Tab n := fun htab => hpos.ne' (h.vm.excl n htab)
  have hmem : ∀ x, x / PGSIZE ≠ n → Bytes.store s.mach.mem (n * PGSIZE + j) l x = s.mach.mem x :=
    fun x hx => store_of_ne hin hx
  rw [call, wp_bind, wp_lift, wp_modify, wp_pure]
  refine ⟨⟨F, h.setMach (h.vm.write hntab hmem) rfl fun _ _ _ hsp => hsp⟩, ?_⟩
  have husers : (s.setMach { s.mach with
      mem := Bytes.store s.mach.mem (n * PGSIZE + j) l }).users = s.users :=
    h.users_eq_all rfl fun r hr va hva => h.vm.view_write hpos.ne' hr hva hmem
  rw [husers]
  exact .fill

/-! ## All calls -/

/-- Only `fork` can stop the kernel. -/
def Trap (c : Call) (e : String) : Prop :=
  (∃ p, c = .fork p) ∧ e = "kerneltrap"

theorem call_spec (h : Inv F s) (c : Call) (hready : Ready s c) :
    wp (Trap c) (call c) (Done s c) s := by
  cases c with
  | fork p => exact wp_weaken (fork_done h hready) fun e he => ⟨⟨p, rfl⟩, he⟩
  | exec p file argv => exact exec_done h hready.1 hready.2.1 hready.2.2
  | sbrk p n => exact sbrk_done h hready
  | store p va l => exact store_done h hready
  | fault p va => exact fault_done h hready
  | copyout p dstva src => exact copyout_done h hready
  | reap p => exact reap_done h hready
  | change p q =>
    obtain ⟨hst, hq, hpt, htf, hsz⟩ := hready
    obtain ⟨hinv, husers⟩ := h.change hst hq hpt htf hsz
    show wp (Trap _) (do change p fun _ => q; _) _ s
    rw [wp_bind, wp_change, wp_pure]
    refine ⟨⟨F, hinv⟩, ?_⟩
    rw [husers]
    exact .change
  | take => exact take_done h
  | give n => exact give_done h hready
  | fill n k l => exact fill_done h hready.1 hready.2

end

end Os

end CowPbs
