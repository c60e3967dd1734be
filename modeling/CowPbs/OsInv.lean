import Mathlib
import CowPbs.CopyOut
import CowPbs.Fork

/-!
# The invariant of the processes and their memory

`Inv` holds after `userinit` (`userinit_spec`), and each operation keeps it. An operation
changes one slot of the process table, so `Inv.replace` is about one slot : the others keep
their address spaces.
-/

set_option linter.unusedSectionVars false

open Function Prog Bytes Radix

namespace CowPbs

namespace Os

variable [Layout] {F F' : Forest ℕ} {s t u : Os} {p np : Slot} {k r rp tf tfp : ℕ}
  {E : String → Prop}

/-- A slot of the process table, with what it says about memory. -/
def SlotOk (F : Forest ℕ) (q : Proc) : Prop :=
  Free q ∨ q.state ≠ .unused ∧ ∃ r tf, Lives F q r tf

theorem Lives.congr {q : Proc} (h : Lives F q r tf)
    (hsp : ∀ k, Space F r k tf → Space F' r k tf) : Lives F' q r tf :=
  ⟨h.pagetable, h.trapframe, hsp _ h.space⟩

/-- The page table in a slot is one of the page tables. -/
theorem Inv.root_of_pagetable (h : Inv F s) (hp : (s.procs.proc p).pagetable = some (r * PGSIZE)) :
    r ∈ F.roots := by
  rcases h.slot p with hf | ⟨-, r', tf, hl⟩
  · rw [hf.pagetable] at hp
    cases hp
  · rw [hl.pagetable] at hp
    exact some_page_inj hp ▸ hl.space.root

/-- One slot has changed. -/
theorem Inv.replace (h : Inv F s) (hother : ∀ i ≠ p, u.procs.proc i = s.procs.proc i)
    (hvm : Vm F' u.kern u.mach) (hslot : SlotOk F' (u.procs.proc p))
    (hkeep : ∀ i ≠ p, ∀ r tf, Lives F (s.procs.proc i) r tf → Lives F' (s.procs.proc i) r tf)
    (hroot : ∀ r ∈ F'.roots, (u.procs.proc p).pagetable = some (r * PGSIZE) ∨
      (r ∈ F.roots ∧ (s.procs.proc p).pagetable ≠ some (r * PGSIZE)))
    (hnew : ∀ a, (u.procs.proc p).pagetable = some a → (s.procs.proc p).pagetable = some a ∨
      ∃ r, a = r * PGSIZE ∧ r ∉ F.roots)
    (honce : ∀ n, u.kern n ≤ 1) : Inv F' u := by
  have hinj : ∀ j a, j ≠ p → (u.procs.proc p).pagetable = some a →
      (s.procs.proc j).pagetable ≠ some a := by
    intro j a hj hp hja
    rcases hnew a hp with hsp | ⟨r, rfl, hr⟩
    · exact hj (h.inj j p a hja hsp)
    · exact hr (h.root_of_pagetable hja)
  refine ⟨hvm, fun i => ?_, fun r hr => ?_, fun i j a hi hj => ?_, honce⟩
  · by_cases hip : i = p
    · exact hip ▸ hslot
    · rw [hother i hip]
      exact (h.slot i).imp_right fun ⟨hs, r, tf, hl⟩ => ⟨hs, r, tf, hkeep i hip r tf hl⟩
  · rcases hroot r hr with hp | ⟨hrF, hne⟩
    · exact ⟨p, hp⟩
    · obtain ⟨i, hi⟩ := h.root r hrF
      have hip : i ≠ p := by
        rintro rfl
        exact hne hi
      exact ⟨i, by rwa [hother i hip]⟩
  · by_cases hip : i = p <;> by_cases hjp : j = p
    · rw [hip, hjp]
    · rw [hip] at hi
      rw [hother j hjp] at hj
      exact absurd hj (hinj j a hjp hi)
    · rw [hjp] at hj
      rw [hother i hip] at hi
      exact absurd hi (hinj i a hip hj)
    · rw [hother i hip] at hi
      rw [hother j hjp] at hj
      exact h.inj i j a hi hj

/-- A new process, with the page table `r`. -/
theorem Inv.born (h : Inv F s) (hunused : (s.procs.proc np).state = .unused)
    (hother : ∀ i ≠ np, u.procs.proc i = s.procs.proc i)
    (hkern : u.kern = update s.kern tf 1) (hvm : Vm F' (update s.kern tf 1) u.mach)
    (hstate : (u.procs.proc np).state ≠ .unused) (hl : Lives F' (u.procs.proc np) r tf)
    (hroots : F'.roots = insert r F.roots) (hfree : owners F s.kern r = 0)
    (hkeep : ∀ r' k tf, r' ≠ r → Space F r' k tf → Space F' r' k tf) : Inv F' u := by
  have hrF : r ∉ F.roots := fun hr => owners_root h.vm hr hfree
  have hpt := (h.free hunused).pagetable
  refine h.replace (p := np) hother (by rwa [hkern]) (.inr ⟨hstate, r, tf, hl⟩)
    (fun i _ r' tf' hl' => hl'.congr fun k hsp => hkeep r' k tf' ?_ hsp) (fun r' hr' => ?_)
    (fun a ha => .inr ?_) fun n => ?_
  · rintro rfl
    exact hrF hl'.space.root
  · rw [hroots] at hr'
    rcases Finset.mem_insert.1 hr' with rfl | hr'
    · exact .inl hl.pagetable
    · exact .inr ⟨hr', by rw [hpt]; nofun⟩
  · rw [hl.pagetable] at ha
    exact ⟨r, (Option.some.inj ha).symm, hrF⟩
  · rw [hkern]
    by_cases hn : n = tf
    · rw [hn, update_self]
    · rw [update_of_ne hn]
      exact h.once n

/-- Only memory has changed, and the address spaces keep their shape. -/
theorem Inv.setMach (h : Inv F s) {m : Mach} (hvm : Vm F' s.kern m) (hroots : F'.roots = F.roots)
    (hsp : ∀ r k tf, Space F r k tf → Space F' r k tf) : Inv F' (s.setMach m) :=
  ⟨hvm, fun p => (h.slot p).imp_right fun ⟨hs, r, tf, hl⟩ => ⟨hs, r, tf, hl.congr fun k => hsp r k tf⟩,
    fun r hr => h.root r (hroots ▸ hr), h.inj, h.once⟩

theorem Restored.space (h : Restored F s.kern s.mach F' t.mach) (hsp : Space F r k tf) :
    Space F' r k tf := by
  have hUV := UPAGES_le
  refine hsp.congr (h.roots.symm ▸ hsp.root) (fun v hv => ?_) fun v _ hv => h.pte r v hv
  rw [h.pte r v (by omega)]

/-! ## `fork` -/

theorem NotAllocated.inv (h : Inv F s) (hn : NotAllocated F s np F' t) : Inv F' t := by
  have hfree := h.free hn.unused
  have hkern : t.kern = s.kern := by
    rw [hn.eq, setMach_kern, kern_setProc_same hfree.trapframe.symm, takePid_kern]
  have hself : t.procs.proc np = ((s.procs.proc np).found s.procs.nextpid).freeproc := by
    rw [hn.eq, setMach_procs, setProc_self]
  have hvm : Vm F' t.kern t.mach := by
    rw [hkern]
    exact hn.restored.vm
  refine h.replace (p := np) (fun i hi => ?_) hvm (.inl ?_)
    (fun i hi r tf hl => hl.congr fun k => Restored.space hn.restored) (fun r hr => ?_)
    (fun a ha => ?_) fun n => ?_
  · rw [hn.eq, setMach_procs, setProc_of_ne hi, takePid_proc]
  · rw [hself]
    exact ⟨rfl, rfl, rfl, rfl⟩
  · refine .inr ⟨hn.restored.roots ▸ hr, ?_⟩
    rw [hfree.pagetable]
    nofun
  · rw [hself] at ha
    cases ha
  · rw [hkern]
    exact h.once n

/-- The address spaces of the others, and of the parent, after `fork`. -/
theorem Forked.space_of_ne (hf : Forked F s p np rp r tf F' t) {r' : ℕ} (hr' : r' ≠ r)
    (hsmall : pages (s.procs.proc p).sz ≤ UPAGES) (hsp : Space F r' k tfp)
    (hrp : ∀ v < pages (s.procs.proc p).sz, F.pte rp v ≠ 0) : Space F' r' k tfp := by
  have hUV := UPAGES_le
  refine hsp.congr ?_ (fun v hv => ?_) fun v hv hv' => ?_
  · rw [hf.roots]
    exact Finset.mem_insert_of_mem hsp.root
  · by_cases hin : r' = rp ∧ v < pages (s.procs.proc p).sz
    · rw [hin.1, hf.parent v hin.2]
      refine iff_of_true (ne_zero_of_testBit (k := 8) ?_) (hrp v hin.2)
      rw [testBit_cowOf _ (by norm_num)]
      simp
    · rw [hf.other r' v (by omega) hr' hin]
  · exact hf.other r' v hv' hr' fun hbad => by omega

theorem Forked.kern_eq (h : Inv F s) (hf : Forked F s p np rp r tf F' t) :
    t.kern = update s.kern tf 1 := by
  have hk0 := (owners_eq_zero.1 hf.freeTrapframe).2.1
  have hfree := h.free hf.unused
  have hset : (s.takePid.setProc np (s.childOf p np r tf)).kern =
      update s.takePid.kern tf (s.takePid.kern tf + 1) := kern_setProc_some hfree.trapframe rfl
  rw [hf.eq, setMach_kern, hset, takePid_kern, hk0]

theorem Forked.inv (h : Inv F s) (hl : Lives F (s.procs.proc p) rp tfp)
    (hf : Forked F s p np rp r tf F' t) : Inv F' t := by
  have hU := UPAGES_eq
  have hsmall := h.vm.sized_le hl.space.root hl.space.sized
  have hself : t.procs.proc np = s.childOf p np r tf := by
    rw [hf.eq, setMach_procs, setProc_self]
  refine h.born hf.unused (fun i hi => ?_) (hf.kern_eq h) hf.vm ?_ ?_ hf.roots hf.free
    fun r' k tf' hr' hsp => hf.space_of_ne hr' (by omega) hsp fun v hv => ?_
  · rw [hf.eq, setMach_procs, setProc_of_ne hi, takePid_proc]
  · rw [hself]
    nofun
  · rw [hself]
    exact ⟨rfl, rfl, hf.space⟩
  · exact (hl.space.sized v (by omega)).2 hv

/-! ## `userinit` -/

theorem Allocated.kern_eq (h : Inv F s) (ha : Allocated F s np r tf F' t) {q : Proc}
    (hq : q.trapframe = some (tf * PGSIZE)) :
    (s.takePid.setProc np q).kern = update s.kern tf 1 := by
  have hk0 := (owners_eq_zero.1 ha.freeTrapframe).2.1
  have hfree := h.free ha.unused
  have hset : (s.takePid.setProc np q).kern =
      update s.takePid.kern tf (s.takePid.kern tf + 1) := kern_setProc_some hfree.trapframe hq
  rw [hset, takePid_kern, hk0]

/-- The first process is there, unless memory has run out. -/
theorem userinit_spec (h : Inv F s) :
    wp (fun e => e = "kerneltrap") userinit (fun _ t => t.mach.denied = true ∨ ∃ F', Inv F' t) s := by
  have hU := UPAGES_eq
  have hV := VPAGES_eq
  unfold userinit
  refine wp_seq (allocproc_spec h) fun o u ho => ?_
  cases o with
  | none => exact rfl
  | some np =>
    obtain ⟨r, tf, F₁, ha⟩ := ho
    have hsp := ha.space
    have h0 : F₁.pte r 0 = 0 := by
      by_contra hne
      exact absurd ((hsp.sized 0 (by omega)).1 hne) (lt_irrefl 0)
    obtain ⟨m₀, rfl⟩ : ∃ m₀, u = (s.takePid.setProc np (s.embryo np r tf)).setMach m₀ := ⟨_, ha.eq⟩
    dsimp only
    rw [wp_bind, wp_modify, wp_bind, wp_get]
    simp only [setMach_setInit, setMach_procs, setInit_proc, setProc_self]
    rw [wp_bind, wp_lift]
    show wp _ (uvmfirst (r * PGSIZE) initcode) _ m₀
    refine wp_mono (uvmfirst_spec ha.vm hsp.root h0 (by decide)) fun _ m hm => ?_
    rw [wp_bind, wp_change, wp_bind, wp_lift, wp_sd, wp_bind, wp_lift, wp_sd, wp_change]
    simp only [setMach_setMach, setMach_setProc, setInit_setProc, setProc_setProc, setMach_mach,
      setMach_procs, setInit_proc, setProc_self]
    rcases hm with hm | ⟨F₂, n, w, o, hnew, rfl⟩
    · exact .inl hm
    -- page 0 is mapped
    have hpte : F₂.pte r 0 ≠ 0 := by
      rw [hnew.pte]
      refine ne_zero_of_testBit (k := 0) ?_
      rw [testBit_pageEntryOf (by norm_num)]
      simp
    have hother : ∀ {r' v}, v < VPAGES → (r', v) ≠ (r, 0) → F₂.pte r' v = F₁.pte r' v :=
      fun hv hne => hnew.other _ _ hv hne
    have hr₂ : r ∈ F₂.roots := hnew.roots.symm ▸ hsp.root
    have hntab : ¬F₂.Tab n := by
      have hl := (hnew.vm.leaf r hr₂ 0 (by omega) hpte).not_tab
      rwa [hnew.pte, frame_pageEntryOf hnew.lt (by decide)] at hl
    have htftab : ¬F₂.Tab tf := fun htab => by
      have := hnew.vm.excl tf htab
      rw [update_self] at this
      cases this
    have hsrc : ∀ x, x / PGSIZE ≠ n → store w.mem (n * PGSIZE) initcode x = w.mem x := by
      intro x hx
      have hst : store w.mem (n * PGSIZE + 0) initcode x = w.mem x := store_of_ne (by decide) hx
      rwa [Nat.add_zero] at hst
    have hvm₂ := ((hnew.vm.write hntab hsrc).write htftab fun x hx =>
      put_of_ne (i := 3) (w := 0) (by norm_num) hx).write htftab fun x hx =>
        put_of_ne (i := 6) (w := PGSIZE) (by norm_num) hx
    refine .inr ⟨F₂, h.born ha.unused (fun i hi => ?_) ?_ (hvm₂.congr (fun _ _ => rfl) rfl rfl) ?_
      (r := r) ⟨?_, ?_, ?_⟩ ?_ ha.free fun r' k tf' hr' hsp' => ?_⟩
    · exact update_of_ne hi ..
    · exact ha.kern_eq h rfl
    · simp
    · simp; rfl
    · simp; rfl
    · -- the user memory is page 0
      have hone : pages PGSIZE = 1 := by decide
      simp only [setMach_procs, setInit_proc, setProc_self, hone]
      refine ⟨hr₂, fun v hv => ?_, ?_, ?_⟩
      · by_cases hv0 : v = 0
        · rw [hv0]
          exact iff_of_true hpte Nat.one_pos
        · rw [hother (by omega) fun heq => hv0 (Prod.mk.inj heq).2, hsp.sized v hv]
          omega
      · rw [hother (by omega) fun heq => by have := (Prod.mk.inj heq).2; omega, hsp.trapframe]
      · rw [hother (by omega) fun heq => by have := (Prod.mk.inj heq).2; omega, hsp.trampoline]
    · exact hnew.roots.trans ha.roots
    · have hsame : ∀ v < VPAGES, F₂.pte r' v = F.pte r' v := fun v hv => by
        rw [hother hv fun heq => hr' (Prod.mk.inj heq).1, ha.same.pte r' v hr' hv]
      refine hsp'.congr ?_ (fun v hv => by rw [hsame v (by omega)]) fun v _ hv => hsame v hv
      rw [hnew.roots, ha.roots]
      exact Finset.mem_insert_of_mem hsp'.root

/-! ## Before the first process -/

/-- The allocator counts what the kernel has, and there is no process. -/
theorem Inv.boot (hal : Alloc s.kern s.mach) (hfree : ∀ p, Free (s.procs.proc p)) :
    Inv noTables s := by
  have hmaps : ∀ n, noTables.maps n = 0 := fun n => Finset.sum_eq_zero fun x hx => by
    obtain ⟨hx, -⟩ := Finset.mem_product.1 hx
    exact absurd hx (Finset.notMem_empty _)
  have hntab : ∀ n, ¬noTables.Tab n := by
    rintro n ⟨x, ⟨⟩⟩
  have hown : ∀ n, owners noTables s.kern n = s.kern n := fun n => by
    rw [owners_of_not_tab (hntab n), hmaps, Nat.add_zero]
  refine ⟨⟨(hal.congr hown rfl rfl).noTables, fun r hr => absurd hr (Finset.notMem_empty _),
    fun n hn => absurd hn (hntab n)⟩, fun p => .inl (hfree p),
    fun r hr => absurd hr (Finset.notMem_empty _), fun p q a hp => ?_, fun n => ?_⟩
  · rw [(hfree p).pagetable] at hp
    cases hp
  · have h0 : trapframes s.procs.proc n = 0 := Finset.sum_eq_zero fun p _ => by
      rw [(hfree p).trapframe, if_neg nofun]
    unfold kern
    rw [h0]
    split_ifs <;> omega

end Os

/-- A machine whose last sixteen pages are all the memory there is. -/
@[reducible] def sixteenPages : Layout where
  kend := PHYSTOP - 16 * PGSIZE
  trampoline := KERNBASE
  kernbase_le := le_rfl
  trampoline_lt := by decide
  trampoline_mod := @Layout.trampoline_mod sixPages
  kend_le := Nat.sub_le _ _

namespace Os

/-- All of it is free, and there is no process. -/
def small : Os where
  mach :=
    { mem := fun _ => 0
      freelist := (List.range 16).map fun i => (0x87FF0 + i) * PGSIZE
      ref := fun _ => 0
      origin := fun _ _ => false
      denied := false }
  procs := ⟨fun _ => Proc.zero, 1, 0, 0⟩
  held _ := false

theorem small_inv : @Inv sixteenPages noTables small := by
  have hman : ∀ n, @Managed sixteenPages n ↔ 0x87FF0 ≤ n ∧ n < 0x88000 := by
    intro n
    show PHYSTOP - 16 * PGSIZE ≤ n * PGSIZE ∧ n * PGSIZE < PHYSTOP ↔ _
    rw [PHYSTOP_eq, PGSIZE]
    omega
  have hkern : ∀ n, small.kern n = 0 := by
    intro n
    have h0 : trapframes (fun _ => Proc.zero) n = 0 := Finset.sum_eq_zero fun _ _ =>
      if_neg (Option.some_ne_none _).symm
    show (if false = true then 1 else 0) + trapframes (fun _ => Proc.zero) n = 0
    rw [h0]
    rfl
  refine @Inv.boot sixteenPages small (@Alloc.mk sixteenPages _ _ (by decide) (fun pa => ?_)
    (fun n _ => (hkern n).symm) (fun n h => absurd (hkern n) h) fun n => by rw [hkern]; norm_num)
    fun _ => ⟨rfl, rfl, rfl, rfl⟩
  constructor
  · intro hpa
    obtain ⟨i, hi, rfl⟩ := List.mem_map.1 hpa
    rw [List.mem_range] at hi
    exact ⟨_, rfl, (hman _).2 (by omega), hkern _⟩
  · rintro ⟨n, rfl, hn, -⟩
    rw [hman] at hn
    refine List.mem_map.2 ⟨n - 0x87FF0, List.mem_range.2 (by omega), ?_⟩
    rw [Nat.add_sub_cancel' hn.1]

/-- What a program leaves, if it does not stop. -/
def after {α : Type} (c : Prog Os α) (s : Os) : Os :=
  match c s with
  | .ok x => x.2
  | .error _ => s

theorem wp_after {α : Type} {c : Prog Os α} {Q : α → Os → Prop} {E : String → Prop} {s : Os}
    (h : wp E c Q s) (hok : (c s).toOption.isSome) : ∃ a, Q a (after c s) := by
  unfold wp at h
  unfold after
  cases hc : c s with
  | ok x =>
    rw [hc] at h
    exact ⟨x.1, h⟩
  | error e =>
    rw [hc] at hok
    cases hok

/-- The first process, on the small machine. -/
def first : Os :=
  after (@userinit sixteenPages) small

/-- `userinit` returns, and leaves a process of one page. -/
theorem first_runs :
    ((@userinit sixteenPages small).toOption.isSome ∧ ¬first.mach.denied = true) ∧
    (first.procs.proc 0).state ≠ .unused ∧
    (first.procs.proc 0).pagetable = some (0x87FF1 * PGSIZE) ∧
    (first.procs.proc 0).sz = PGSIZE ∧ first.mach.freelist ≠ [] ∧
    pageEntry first.mach.mem 0x87FF1 0 = some ((0x87FF4 <<< 10) ||| 31) := by
  decide +kernel

theorem first_inv : ∃ F, @Inv sixteenPages F first := by
  obtain ⟨⟨hok, hd⟩, -⟩ := first_runs
  obtain ⟨-, h⟩ := wp_after (@userinit_spec sixteenPages _ _ small_inv) hok
  exact h.resolve_left hd

/-- It has the slot 0 and the page table in the second page. -/
theorem first_lives : ∃ F tf, @Inv sixteenPages F first ∧
    @Lives sixteenPages F (first.procs.proc 0) 0x87FF1 tf := by
  let _ : Layout := sixteenPages
  obtain ⟨F, h⟩ := first_inv
  obtain ⟨-, hst, hpt, -⟩ := first_runs
  obtain ⟨r, tf, hl⟩ := h.lives hst
  have hr : r = 0x87FF1 := some_page_inj (hl.pagetable.symm.trans hpt)
  exact ⟨F, tf, h, hr ▸ hl⟩

end Os

end CowPbs
