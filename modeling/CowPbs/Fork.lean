import Mathlib
import CowPbs.Os
import CowPbs.UvmCopy

/-!
# `fork` and its memory

`fork_spec` : the child has the pages of the parent, or `allocproc` gave up and all memory
is as it was, or the kernel has stopped on a null pointer in `uvmcopy`.
-/

set_option linter.unusedSectionVars false

open Function Prog Bytes Radix

namespace CowPbs

variable [Layout] {F F' : Forest ℕ} {k r tf : ℕ}

/-- The shape of an address space does not depend on the flags. -/
theorem Space.congr (h : Space F r k tf) (hr : r ∈ F'.roots)
    (hpte : ∀ v < UPAGES, F'.pte r v ≠ 0 ↔ F.pte r v ≠ 0)
    (hhigh : ∀ v, UPAGES ≤ v → v < VPAGES → F'.pte r v = F.pte r v) : Space F' r k tf := by
  have hU := UPAGES_eq
  have hV := VPAGES_eq
  refine ⟨hr, fun v hv => ?_, ?_, ?_⟩
  · rw [hpte v hv, h.sized v hv]
  · rw [hhigh _ (by omega) (by omega), h.trapframe]
  · rw [hhigh _ (by omega) (by omega), h.trampoline]

namespace Os

variable {s t : Os} {p np : Slot} {rp tfp : ℕ} {E : String → Prop}

/-- The slot of the child. -/
def childOf (s : Os) (p np : Slot) (r tf : ℕ) : Proc :=
  { s.embryo np r tf with
    sz := (s.procs.proc p).sz
    parent := some p
    state := .runnable }

/-- The process `p`, with the page table `rp`, has a child in the slot `np`. -/
structure Forked (F : Forest ℕ) (s : Os) (p np : Slot) (rp r tf : ℕ) (F' : Forest ℕ) (t : Os) :
    Prop where
  unused : (s.procs.proc np).state = .unused
  eq : t = (s.takePid.setProc np (s.childOf p np r tf)).setMach t.mach
  vm : Vm F' (update s.kern tf 1) t.mach
  saved : Saved F s.kern s.mach F' (update s.kern tf 1) t.mach
  roots : F'.roots = insert r F.roots
  free : owners F s.kern r = 0
  freeTrapframe : owners F s.kern tf = 0
  space : Space F' r (pages (s.procs.proc p).sz) tf
  parent : ∀ v < pages (s.procs.proc p).sz, F'.pte rp v = cowOf (F.pte rp v)
  child : ∀ v < pages (s.procs.proc p).sz, F'.pte r v = cowOf (F.pte rp v)
  other : ∀ r' v, v < VPAGES → r' ≠ r → ¬(r' = rp ∧ v < pages (s.procs.proc p).sz) →
    F'.pte r' v = F.pte r' v
  denied : t.mach.denied = s.mach.denied

/-- What `fork` returns and does. -/
def ForkPost (F : Forest ℕ) (s : Os) (p : Slot) (rp : ℕ) (ret : Int32) (t : Os) : Prop :=
  (ret = -1 ∧ AllocprocPost F s none t) ∨
    (ret = s.procs.nextpid ∧ ∃ np r tf F', Forked F s p np rp r tf F' t)

/-- The page table of a process is not free. -/
theorem owners_root {kern : ℕ → ℕ} {m : Mach} (h : Vm F kern m) (hr : r ∈ F.roots) :
    owners F kern r ≠ 0 := by
  rw [h.owners_tab ⟨_, h.tables.rep.root r hr⟩]
  norm_num

/-- The pages are shared, and the child has its trapframe. -/
theorem Forked.of_shared {F₁ : Forest ℕ} {u : Os} {m m' : Mach} (h : Inv F s)
    (hl : Lives F (s.procs.proc p) rp tfp) (ha : Allocated F s np r tf F₁ u)
    (hsh : Shared rp r (pages (s.procs.proc p).sz) F₁ (update s.kern tf 1) u.mach F' m)
    (hm : ∃ mem, m' = { m with mem := mem } ∧ ∀ x, x / PGSIZE ≠ tf → mem x = m.mem x) :
    Forked F s p np rp r tf F' ((s.takePid.setProc np (s.childOf p np r tf)).setMach m') := by
  have hU := UPAGES_eq
  have hUV := UPAGES_le
  obtain ⟨mem, rfl, hmem⟩ := hm
  have hrp : rp ≠ r := by
    rintro rfl
    exact owners_root h.vm hl.space.root ha.free
  have hsmall := h.vm.sized_le hl.space.root hl.space.sized
  have hntab : ¬F'.Tab tf := fun htab => by
    have := hsh.vm.excl tf htab
    rw [update_self] at this
    cases this
  have hempty : ∀ v < UPAGES, F₁.pte r v = 0 := fun v hv => by
    by_contra hne
    exact absurd ((ha.space.sized v hv).1 hne) (Nat.not_lt_zero v)
  have hne : ∀ {v}, v < pages (s.procs.proc p).sz → F.pte rp v ≠ 0 := fun hv =>
    (hl.space.sized _ (by omega)).2 hv
  have hold : ∀ {v}, v < VPAGES → F₁.pte rp v = F.pte rp v := fun hv =>
    ha.same.pte rp _ hrp hv
  refine ⟨ha.unused, rfl, hsh.vm.write hntab hmem,
    (ha.saved.trans hsh.saved).write ha.freeTrapframe hmem, hsh.roots.trans ha.roots, ha.free,
    ha.freeTrapframe, ⟨?_, fun v hv => ?_, ?_, ?_⟩, fun v hv => ?_, fun v hv => ?_,
    fun r' v hv hr' hout => ?_, hsh.denied.trans ha.denied⟩
  · rw [hsh.roots]
    exact ha.space.root
  · by_cases hin : v < pages (s.procs.proc p).sz
    · rw [hsh.child v hin, hold (by omega)]
      refine iff_of_true (ne_zero_of_testBit (k := 8) ?_) hin
      rw [testBit_cowOf _ (by norm_num)]
      simp
    · rw [hsh.other r v (by omega) fun hbad => hin hbad.2, hempty v hv]
      exact iff_of_false (fun h0 => h0 rfl) hin
  · rw [hsh.other r _ (by omega) fun hbad => by omega, ha.space.trapframe]
  · rw [hsh.other r _ (by omega) fun hbad => by omega, ha.space.trampoline]
  · rw [hsh.parent v hv, hold (by omega)]
  · rw [hsh.child v hv, hold (by omega)]
  · rw [hsh.other r' v hv fun hbad => ?_, ha.same.pte r' v hr' hv]
    exact hout ⟨hbad.1.resolve_right hr', hbad.2⟩

theorem fork_spec (h : Inv F s) (hp : (s.procs.proc p).state ≠ .unused)
    (hl : Lives F (s.procs.proc p) rp tfp) :
    wp (fun e => e = "kerneltrap") (fork p) (ForkPost F s p rp) s := by
  have hU := UPAGES_eq
  have hUV := UPAGES_le
  unfold fork
  refine wp_seq (allocproc_spec h) fun o u ho => ?_
  cases o with
  | none => exact .inl ⟨rfl, ho⟩
  | some np =>
    obtain ⟨r, tf, F₁, ha⟩ := ho
    have hpn : p ≠ np := by
      rintro rfl
      exact hp ha.unused
    have hrp : rp ≠ r := by
      rintro rfl
      exact owners_root h.vm hl.space.root ha.free
    have hspp : Space F₁ rp (pages (s.procs.proc p).sz) tfp := by
      refine hl.space.congr ?_ (fun v hv => ?_) fun v _ hv => ha.same.pte rp v hrp hv
      · rw [ha.roots]
        exact Finset.mem_insert_of_mem hl.space.root
      · rw [ha.same.pte rp v hrp (by omega)]
    have hempty : ∀ v < UPAGES, F₁.pte r v = 0 := fun v hv => by
      by_contra hne
      exact absurd ((ha.space.sized v hv).1 hne) (Nat.not_lt_zero v)
    obtain ⟨m₀, rfl⟩ : ∃ m₀, u = (s.takePid.setProc np (s.embryo np r tf)).setMach m₀ := ⟨_, ha.eq⟩
    dsimp only
    rw [wp_bind, wp_get]
    simp only [setMach_procs, setProc_self, setProc_of_ne hpn, takePid_proc, hl.pagetable,
      hl.trapframe]
    rw [wp_bind, wp_lift]
    refine wp_mono (uvmcopy_spec ha.vm hspp.root ha.space.root hrp.symm hspp.sized hempty)
      fun ret m ⟨hret, F₂, hsh⟩ => ?_
    subst hret
    rw [wp_ite]
    refine ⟨fun hneg => absurd hneg (lt_irrefl 0), fun _ => ?_⟩
    rw [wp_bind, wp_change, wp_bind, wp_get, wp_bind, wp_lift, wp_memmove, wp_bind, wp_lift, wp_sd,
      wp_bind, wp_change, wp_pure]
    simp only [setMach_setMach, setMach_setProc, setProc_setProc, setMach_mach, setMach_procs,
      setProc_self]
    refine .inr ⟨rfl, np, r, tf, F₂, .of_shared h hl ha hsh ⟨_, rfl, fun x hx => ?_⟩⟩
    -- both stores are to the child's trapframe
    have hlen : 0 + (load m.mem (tfp * PGSIZE) TRAPFRAME_SIZE).length ≤ PGSIZE := by
      rw [length_load]
      decide
    have hst : store m.mem (tf * PGSIZE + 0) (load m.mem (tfp * PGSIZE) TRAPFRAME_SIZE) x =
        m.mem x := store_of_ne hlen hx
    rw [Nat.add_zero] at hst
    exact (put_of_ne (i := 14) (by norm_num) hx).trans hst

end Os

end CowPbs
