import Mathlib
import CowPbs.ExecStack
import CowPbs.UserWrites

/-!
# `exec` keeps the invariant

`exec_spec` : the process has the memory that its file and arguments describe, its old memory
is given back, and the other processes see what they saw. Where it fails nothing has changed.
-/

set_option linter.unusedSectionVars false

open Function Prog Bytes Radix

namespace CowPbs

theorem placeArgs_le {stackbase sp sp' : ℕ} {argv : List (List Byte)} {ustack ustack' : List ℕ}
    {m m' : Mem} (h : placeArgs stackbase argv sp ustack m = some (sp', ustack', m')) : sp' ≤ sp := by
  induction argv generalizing sp ustack m with
  | nil =>
    obtain ⟨rfl, -, -⟩ : sp = sp' ∧ ustack = ustack' ∧ m = m' := by
      simpa [placeArgs] using h
    exact le_rfl
  | cons arg argv ih =>
    rw [placeArgs] at h
    split_ifs at h with hmax hroom
    have hle := ih h
    unfold below at hle
    omega

/-- The registers of a program. -/
theorem execSpec_registers {readi : Reader} {argv : List (List Byte)} {l : Loaded}
    (h : execSpec readi argv = some l) : l.entry < 2 ^ 64 ∧ l.sp ≤ l.sz := by
  unfold execSpec at h
  dsimp only at h
  split_ifs at h with hlen hmagic
  obtain ⟨⟨sz, m⟩, -, h⟩ := Option.bind_eq_some_iff.1 h
  obtain ⟨⟨sp, m'⟩, hstack, rfl⟩ := Option.map_eq_some_iff.1 h
  refine ⟨field_lt _ 24 8, ?_⟩
  unfold placeStack at hstack
  obtain ⟨⟨sp₁, ustack, m₁⟩, hargs, h⟩ := Option.bind_eq_some_iff.1 hstack
  have hle := placeArgs_le hargs
  dsimp only at h hle ⊢
  split_ifs at h with hroom
  obtain ⟨rfl, -⟩ := Prod.mk.inj (Option.some.inj h)
  unfold below
  omega

section

variable [Layout] {F F' : Forest ℕ} {kern : ℕ → ℕ} {s t : Mach} {r n va : ℕ}

/-- A store to a page of the kernel is not seen by the user. -/
theorem Vm.view_write {mem : Mem} (h : Vm F kern s) (hn : kern n ≠ 0) (hr : r ∈ F.roots)
    (hva : va < TRAPFRAME) (hmem : ∀ x, x / PGSIZE ≠ n → mem x = s.mem x) :
    view mem r va = view s.mem r va := by
  have hv := lt_UPAGES hva
  have htab : ¬F.Tab n := fun htab => hn (h.excl n htab)
  have h' : Vm F kern { s with mem := mem } := h.write htab hmem
  by_cases h0 : F.pte r (va / PGSIZE) = 0
  · rw [h.view_unmapped hr h0]
    exact h'.view_unmapped hr h0
  · rw [h.view_mapped hr hv h0]
    refine (h'.view_mapped hr hv h0).trans (congrArg some (hmem _ ?_))
    rw [page_offset]
    rintro rfl
    exact hn (h.leaf r hr _ hv h0).not_kern

/-- The root of a page table that was given back has no owner. -/
theorem Removed.owners_eq_zero (h : Vm F kern s) (hr : r ∈ F.roots)
    (hrem : Removed r F kern s F' t) : owners F' kern r = 0 := by
  have hUV := UPAGES_le
  have hroot := h.tables.rep.root r hr
  refine CowPbs.owners_eq_zero.2 ⟨?_, h.excl r ⟨_, hroot⟩, Finset.sum_eq_zero fun x hx => ?_⟩
  · rintro ⟨⟨r', π⟩, hx⟩
    by_cases hrr : r' = r
    · rw [hrr, hrem.gone] at hx
      cases hx
    · rw [hrem.same.node r' π hrr] at hx
      exact hrr (Prod.mk.inj (h.tables.rep.inj _ _ _ hx hroot)).1
  · obtain ⟨hxr, hxv⟩ := Finset.mem_product.1 hx
    rw [hrem.roots] at hxr
    obtain ⟨hne, hxr⟩ := Finset.mem_erase.1 hxr
    have hxv := Finset.mem_range.1 hxv
    rw [hrem.same.pte x.1 x.2 hne (by omega)]
    by_cases h0 : F.pte x.1 x.2 = 0
    · rw [h0, hits_zero]
    · refine hits_of_ne fun hf => (h.leaf x.1 hxr x.2 hxv h0).not_tab ?_
      rw [hf]
      exact ⟨_, hroot⟩

end

namespace Os

variable [Layout] {F F' : Forest ℕ} {s t : Os} {p : Slot} {rp tfp n k : ℕ} {l : Loaded}
  {readi : Reader} {argv : List (List Byte)} {E : String → Prop}

/-- The process `p` runs the program `l`, in the new page table `n`. -/
structure Execed (F : Forest ℕ) (s : Os) (p : Slot) (rp tfp : ℕ) (l : Loaded) (n k : ℕ)
    (F' : Forest ℕ) (t : Os) : Prop where
  eq : t = (s.setProc p { s.procs.proc p with
    pagetable := some (n * PGSIZE)
    sz := l.sz }).setMach t.mach
  sz : l.sz = k * PGSIZE
  vm : Vm F' s.kern t.mach
  free : owners F s.kern n = 0
  gone : owners F' s.kern rp = 0
  roots : F'.roots = (insert n F.roots).erase rp
  space : Space F' n k tfp
  pte : ∀ r v, r ≠ n → r ≠ rp → v < VPAGES → F'.pte r v = F.pte r v
  view : ∀ va < k * PGSIZE, CowPbs.view t.mach.mem n va = some (l.mem va)
  guard : (F'.pte n (k - 2)).testBit 4 = false
  other : ∀ r ∈ F.roots, r ≠ rp → ∀ va < TRAPFRAME,
    CowPbs.view t.mach.mem r va = CowPbs.view s.mach.mem r va
  entry : Bytes.get t.mach.mem (tfp * PGSIZE + EPC) 8 = l.entry
  sp : Bytes.get t.mach.mem (tfp * PGSIZE + SP) 8 = l.sp
  a1 : Bytes.get t.mach.mem (tfp * PGSIZE + A1) 8 = l.sp
  denied : t.mach.denied = s.mach.denied

/-- What `exec` returns and does. -/
def ExecEnd (F : Forest ℕ) (s : Os) (p : Slot) (rp tfp : ℕ) (file : Option Reader)
    (argv : List (List Byte)) (ret : ℤ) (t : Os) : Prop :=
  (ret = -1 ∧ t = s.setMach t.mach ∧ (∃ F', Restored F s.kern s.mach F' t.mach) ∧
      ((file.bind fun readi => execSpec readi argv) = none ∨ t.mach.denied = true)) ∨
    (ret = argv.length ∧ ∃ l n k F', (file.bind fun readi => execSpec readi argv) = some l ∧
      Execed F s p rp tfp l n k F' t)

theorem exec_spec {file : Option Reader} (h : Inv F s) (hl : Lives F (s.procs.proc p) rp tfp)
    (hread : ∀ readi ∈ file, ∀ off n, (readi off n).length ≤ n)
    (hargv : ∀ arg ∈ argv, arg.length + 1 < 2 ^ 63) :
    wp E (exec p file argv) (ExecEnd F s p rp tfp file argv) s := by
  have hU := UPAGES_eq
  have hUV := UPAGES_le
  have hkern := kern_pos hl.trapframe
  have htf : tfp < 2 ^ 44 := (h.vm.managed fun h0 => hkern.ne' (owners_eq_zero.1 h0).2.1).lt
  unfold exec
  cases file with
  | none => exact .inl ⟨rfl, rfl, ⟨F, h.vm, .refl, rfl, rfl, fun _ _ _ => rfl⟩, .inl rfl⟩
  | some readi =>
    have hread := hread readi rfl
    dsimp only
    rw [wp_bind, wp_get, hl.trapframe, hl.pagetable, wp_bind, wp_lift, Option.getD_some,
      Option.getD_some]
    refine wp_mono (execImage_spec h.vm htf hread hargv) fun o m ho => ?_
    cases o with
    | none =>
      obtain ⟨hres, hbad⟩ := ho
      exact .inl ⟨rfl, rfl, hres, hbad⟩
    | some image =>
      obtain ⟨n, k, mem, F₁, hpt, hsz, hk, hspec, hb, hden⟩ := ho
      dsimp only
      rw [wp_bind, wp_lift, wp_sd, wp_bind, wp_change, wp_bind, wp_lift, wp_sd, wp_bind, wp_lift,
        wp_sd, wp_bind, wp_lift]
      simp only [setMach_setMach, setMach_setProc, setMach_mach, setMach_procs]
      rw [hpt]
      have hne : rp ≠ n := by
        rintro rfl
        exact owners_root h.vm hl.space.root hb.free
      obtain ⟨hentry, hsp⟩ := execSpec_registers hspec
      have hle := Nat.mul_le_mul_right PGSIZE hb.le
      have hP : PGSIZE = 4096 := rfl
      have hsp64 : image.sp < 256 ^ 8 := by
        have : image.sp ≤ image.sz := hsp
        omega
      have hntab : ¬F₁.Tab tfp := fun htab => hkern.ne' (hb.vm.excl tfp htab)
      -- the three stores are to the trapframe
      generalize hmem' : put (put (put m.mem (tfp * PGSIZE + A1) 8 image.sp) (tfp * PGSIZE + EPC) 8
        image.entry) (tfp * PGSIZE + SP) 8 image.sp = mem'
      have hmem : ∀ x, x / PGSIZE ≠ tfp → mem' x = m.mem x := fun x hx => by
        rw [← hmem']
        exact ((put_of_ne (i := 6) (by norm_num) hx).trans
          (put_of_ne (i := 3) (by norm_num) hx)).trans (put_of_ne (i := 15) (by norm_num) hx)
      have hvm₁ : Vm F₁ s.kern { m with mem := mem' } := hb.vm.write hntab hmem
      have hold : Space F₁ rp (pages (s.procs.proc p).sz) tfp := by
        refine hl.space.congr ?_ (fun v hv => ?_) fun v _ hv => hb.same.pte rp v hne hv
        · rw [hb.roots]
          exact Finset.mem_insert_of_mem hl.space.root
        · rw [hb.same.pte rp v hne (by omega)]
      refine wp_mono (procFreepagetable_spec hvm₁ hold) fun _ w ⟨F₂, hrem⟩ => ?_
      have hsame₂ : ∀ r v, r ≠ rp → v < VPAGES → F₂.pte r v = F₁.pte r v := hrem.same.pte
      have hroots₂ : ∀ r ∈ F₁.roots, r ≠ rp → r ∈ F₂.roots := fun r hr hrne => by
        rw [hrem.roots]
        exact Finset.mem_erase.2 ⟨hrne, hr⟩
      -- what is seen of the memory after the old pages are gone
      have hview : ∀ r ∈ F₁.roots, r ≠ rp → ∀ va < TRAPFRAME,
          CowPbs.view w.mem r va = CowPbs.view m.mem r va := fun r hr hrne va hva => by
        rw [hvm₁.view_kept hrem.vm hr (hroots₂ r hr hrne) (lt_UPAGES hva)
          (hsame₂ r _ hrne ((lt_UPAGES hva).trans_le hUV)) hrem.dropped.kept,
          hb.vm.view_write hkern.ne' hr hva hmem]
      have hframe : ∀ i, i + 8 ≤ PGSIZE →
          Bytes.get w.mem (tfp * PGSIZE + i) 8 = Bytes.get mem' (tfp * PGSIZE + i) 8 := fun i hi => by
        have hown : ∀ {G : Forest ℕ}, owners G s.kern tfp ≠ 0 := fun h0 =>
          hkern.ne' (owners_eq_zero.1 h0).2.1
        refine get_congr fun x h₁ h₂ => hrem.dropped.kept tfp hntab hown hown x ?_
        exact mem_page_iff.1 ⟨by omega, by omega⟩
      refine .inr ⟨rfl, ⟨image.sz, image.entry, image.sp, mem⟩, n, k, F₂, hspec, rfl, hsz, hrem.vm,
        hb.free, hrem.owners_eq_zero hvm₁ hold.root, ?_, ?_, fun r v hr hrp hv => ?_, fun va hva => ?_, ?_, fun r hr hrp va hva => ?_, ?_,
        ?_, ?_, hrem.denied.trans hden⟩
      · exact hrem.roots.trans (by rw [hb.roots])
      · refine hb.space.congr (hroots₂ n hb.root hne.symm) (fun v hv => ?_) fun v _ hv =>
          hsame₂ n v hne.symm hv
        rw [hsame₂ n v hne.symm (by omega)]
      · rw [hsame₂ r v hrp hv, hb.same.pte r v hr hv]
      · have hva' : va < TRAPFRAME := by
          have : TRAPFRAME = (2 ^ 26 - 2) * PGSIZE := by decide
          omega
        exact (hview n hb.root hne.symm va hva').trans (hb.view va hva)
      · have hsmall := hb.le
        rw [hsame₂ n (k - 2) hne.symm (by omega), hb.hidden (k - 2) (by omega) rfl]
      · have hrn : r ≠ n := by
          rintro rfl
          exact owners_root h.vm hr hb.free
        have hr₁ : r ∈ F₁.roots := by
          rw [hb.roots]
          exact Finset.mem_insert_of_mem hr
        refine (hview r hr₁ hrp va hva).trans ?_
        exact h.vm.view_kept hb.vm hr hr₁ (lt_UPAGES hva)
          (hb.same.pte r _ hrn ((lt_UPAGES hva).trans_le hUV)) hb.saved.kept
      · refine (hframe EPC (by decide)).trans ?_
        rw [← hmem', get_put_of_disjoint (by simp only [EPC, SP]; omega), get_put_of_lt hentry]
      · refine (hframe SP (by decide)).trans ?_
        rw [← hmem', get_put_of_lt hsp64]
      · refine (hframe A1 (by decide)).trans ?_
        rw [← hmem', get_put_of_disjoint (by simp only [A1, SP]; omega),
          get_put_of_disjoint (by simp only [A1, EPC]; omega), get_put_of_lt hsp64]

/-! ## The invariant -/

/-- The other address spaces stay. -/
theorem Execed.space_of_ne {r j tf : ℕ} (he : Execed F s p rp tfp l n k F' t) (hrn : r ≠ n)
    (hrp : r ≠ rp) (hsp : Space F r j tf) : Space F' r j tf := by
  have hUV := UPAGES_le
  refine hsp.congr ?_ (fun v hv => ?_) fun v _ hv => he.pte r v hrn hrp hv
  · rw [he.roots]
    exact Finset.mem_erase.2 ⟨hrp, Finset.mem_insert_of_mem hsp.root⟩
  · rw [he.pte r v hrn hrp (by omega)]

theorem Execed.proc_self (he : Execed F s p rp tfp l n k F' t) :
    t.procs.proc p = { s.procs.proc p with
      pagetable := some (n * PGSIZE)
      sz := l.sz } := by
  rw [he.eq, setMach_procs, setProc_self]

theorem Execed.proc_of_ne {i : Slot} (he : Execed F s p rp tfp l n k F' t) (hi : i ≠ p) :
    t.procs.proc i = s.procs.proc i := by
  rw [he.eq, setMach_procs, setProc_of_ne hi]

theorem Execed.kern_eq (he : Execed F s p rp tfp l n k F' t) : t.kern = s.kern := by
  rw [he.eq, setMach_kern]
  exact kern_setProc_same rfl

theorem Execed.lives (hl : Lives F (s.procs.proc p) rp tfp) (he : Execed F s p rp tfp l n k F' t) :
    Lives F' (t.procs.proc p) n tfp := by
  rw [he.proc_self]
  refine ⟨rfl, hl.trapframe, ?_⟩
  dsimp only
  rw [he.sz, pages_mul]
  exact he.space

theorem Execed.inv (h : Inv F s) (hst : (s.procs.proc p).state ≠ .unused)
    (hl : Lives F (s.procs.proc p) rp tfp) (he : Execed F s p rp tfp l n k F' t) : Inv F' t := by
  have hnF : n ∉ F.roots := fun hn => owners_root h.vm hn he.free
  have hvm : Vm F' t.kern t.mach := by
    rw [he.kern_eq]
    exact he.vm
  refine h.replace (p := p) (fun i hi => he.proc_of_ne hi) hvm (.inr ⟨?_, n, tfp, he.lives hl⟩)
    (fun i hi r tf hlr => ?_) (fun r hr => ?_) (fun a ha => .inr ⟨n, ?_, hnF⟩) fun m => ?_
  · rw [he.proc_self]
    exact hst
  · refine hlr.congr fun j hsp => he.space_of_ne ?_ ?_ hsp
    · rintro rfl
      exact hnF hsp.root
    · rintro rfl
      exact hi (h.inj i p _ hlr.pagetable hl.pagetable)
  · rw [he.roots] at hr
    obtain ⟨hrp, hr⟩ := Finset.mem_erase.1 hr
    rcases Finset.mem_insert.1 hr with rfl | hr
    · exact .inl (he.lives hl).pagetable
    · refine .inr ⟨hr, fun heq => hrp ?_⟩
      exact some_page_inj (heq.symm.trans hl.pagetable)
  · rw [(he.lives hl).pagetable] at ha
    exact (Option.some.inj ha).symm
  · rw [he.kern_eq]
    exact h.once m

/-! ## What the user sees of it -/

/-- Nothing has changed that the processes or the allocator can see. -/
structure Untouched (s t : Os) : Prop where
  procs : t.procs = s.procs
  free : ∀ pa, pa ∈ t.mach.freelist ↔ pa ∈ s.mach.freelist
  ref : ∀ m, Managed m → t.mach.ref m = s.mach.ref m
  entry : ∀ p r, (s.procs.proc p).pagetable = some (r * PGSIZE) → ∀ v < VPAGES,
    pageEntry t.mach.mem r v = pageEntry s.mach.mem r v
  view : ∀ p r, (s.procs.proc p).pagetable = some (r * PGSIZE) → ∀ va < TRAPFRAME,
    CowPbs.view t.mach.mem r va = CowPbs.view s.mach.mem r va
  trapframe : ∀ p a, (s.procs.proc p).trapframe = some (a * PGSIZE) → ∀ x, x / PGSIZE = a →
    t.mach.mem x = s.mach.mem x

theorem Restored.untouched {m : Mach} (h : Inv F s) (hr : Restored F s.kern s.mach F' m) :
    Untouched s (s.setMach m) where
  procs := rfl
  free pa := by
    show pa ∈ m.freelist ↔ _
    rw [hr.vm.tables.alloc.free, h.vm.tables.alloc.free]
    exact exists_congr fun n => by rw [hr.owners]
  ref n hn := by
    show m.ref n = _
    rw [hr.vm.tables.alloc.count n hn, h.vm.tables.alloc.count n hn, hr.owners]
  entry p r hp v hv := by
    have hroot := h.root_of_pagetable hp
    show pageEntry m.mem r v = _
    rw [hr.vm.tables.pageEntry_eq (hr.roots.symm ▸ hroot), h.vm.tables.pageEntry_eq hroot,
      hr.pte r v hv]
  view p r hp va hva := by
    have hroot := h.root_of_pagetable hp
    exact h.vm.view_kept hr.vm hroot (hr.roots.symm ▸ hroot) (lt_UPAGES hva)
      (hr.pte r _ ((lt_UPAGES hva).trans_le UPAGES_le)) hr.saved.kept
  trapframe p a hp x hx := by
    have hk := kern_pos hp
    have hown : owners F s.kern a ≠ 0 := fun h0 => hk.ne' (owners_eq_zero.1 h0).2.1
    exact ((hr.saved a hown).2 fun htab => hk.ne' (h.vm.excl a htab)).2 x hx

/-- The process `p` has the program `l` for its memory, and the page table it had is free. -/
structure Started (s : Os) (p : Slot) (l : Loaded) (t : Os) (r r' tf : ℕ) : Prop where
  old : (s.procs.proc p).pagetable = some (r * PGSIZE)
  frame : (s.procs.proc p).trapframe = some (tf * PGSIZE)
  proc : t.procs = (s.setProc p { s.procs.proc p with
    pagetable := some (r' * PGSIZE)
    sz := l.sz }).procs
  image : ∀ va < l.sz, CowPbs.view t.mach.mem r' va = some (l.mem va)
  outside : ∀ va < TRAPFRAME, l.sz ≤ va → CowPbs.view t.mach.mem r' va = none
  guard : ¬UserReadable t.mach.mem r' (l.sz / PGSIZE - 2)
  entry : Bytes.get t.mach.mem (tf * PGSIZE + EPC) 8 = l.entry
  sp : Bytes.get t.mach.mem (tf * PGSIZE + SP) 8 = l.sp
  a1 : Bytes.get t.mach.mem (tf * PGSIZE + A1) 8 = l.sp
  freed : r * PGSIZE ∈ t.mach.freelist
  others : ∀ i ≠ p, ∀ q, (s.procs.proc i).pagetable = some (q * PGSIZE) → ∀ va < TRAPFRAME,
    CowPbs.view t.mach.mem q va = CowPbs.view s.mach.mem q va

theorem Execed.started (h : Inv F s) (hl : Lives F (s.procs.proc p) rp tfp)
    (he : Execed F s p rp tfp l n k F' t) : Started s p l t rp n tfp where
  old := hl.pagetable
  frame := hl.trapframe
  proc := by
    rw [he.eq]
    rfl
  image va hva := he.view va (he.sz ▸ hva)
  outside va hva hge := by
    have hv := lt_UPAGES hva
    refine he.vm.view_unmapped he.space.root (not_not.1 fun hne => ?_)
    have hlt := (he.space.sized _ hv).1 hne
    rw [he.sz] at hge
    exact absurd hlt (not_lt.2 ((Nat.le_div_iff_mul_le PGSIZE_pos).2 hge))
  guard := by
    rw [he.vm.tables.userReadable_iff he.space.root, he.sz, mul_PGSIZE_div, he.guard]
    simp
  entry := he.entry
  sp := he.sp
  a1 := he.a1
  freed := by
    have hown := owners_root h.vm hl.space.root
    exact (he.vm.tables.alloc.mem_free rp).2 ⟨h.vm.managed hown, he.gone⟩
  others i hi q hq va hva := by
    refine he.other q (h.root_of_pagetable hq) ?_ va hva
    rintro rfl
    exact hi (h.inj i p _ hq hl.pagetable)

end Os

end CowPbs
