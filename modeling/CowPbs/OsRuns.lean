import Mathlib
import CowPbs.Lib.Simulation
import CowPbs.OsCalls

/-!
# Runs of the processes and their memory

The states that the kernel reaches from its boot, by any calls in any order. In each of them
the allocator has counted the owners of every page (`reachable_counted`), the address spaces
have their shape (`reachable_shaped`), and the next call returns, unless it is a `fork` that runs
out of memory (`reachable_returns`). And what the processes see of each run is a run of a kernel
that copies memory whole (`run_refines_users`).
-/

set_option linter.unusedSectionVars false

open Function Prog Bytes Radix Transition

namespace CowPbs

section

variable [Layout] {s : Mach} {E : String → Prop}

/-! ## Boot -/

/-- The pages from `k` on that `freerange` has put on the list in `i` turns. -/
def rangeList (k i : ℕ) : List ℕ :=
  (List.range i).reverse.map fun j => (k + j) * PGSIZE

theorem rangeList_succ (k i : ℕ) : rangeList k (i + 1) = (k + i) * PGSIZE :: rangeList k i := by
  simp [rangeList, List.range_succ]

theorem mem_rangeList {k i pa : ℕ} : pa ∈ rangeList k i ↔ ∃ j < i, pa = (k + j) * PGSIZE := by
  unfold rangeList
  rw [List.mem_map]
  simp [eq_comm]

theorem nodup_rangeList (k i : ℕ) : (rangeList k i).Nodup := by
  unfold rangeList
  refine List.Nodup.map (fun a b hab => ?_) (List.nodup_reverse.2 List.nodup_range)
  have := mul_PGSIZE_inj hab
  omega

/-- The first page behind the kernel. -/
theorem managed_iff {n : ℕ} :
    Managed n ↔ (Layout.kend + 4095) / 4096 ≤ n ∧ n < 0x88000 := by
  unfold Managed
  rw [PHYSTOP_eq, PGSIZE]
  omega

/-- `kinit` makes every page free. -/
theorem kinit_spec (hfree : s.freelist = []) :
    wp E kinit (fun _ t => Alloc (fun _ => 0) t ∧ t.denied = s.denied) s := by
  generalize hk : (Layout.kend + 4095) / 4096 = k
  have hkend : Layout.kend ≤ 0x88000 * 4096 := PHYSTOP_eq ▸ Layout.kend_le
  have hround : PGROUNDUP Layout.kend = k * PGSIZE := by
    simp only [PGROUNDUP, PGSIZE]
    omega
  have hturns : (PHYSTOP - k * PGSIZE) / PGSIZE = 0x88000 - k := by
    rw [PHYSTOP_eq, PGSIZE]
    omega
  unfold kinit freerange
  dsimp only
  rw [hround, hturns]
  simp only [← Nat.add_mul]
  -- the list after the first loop, and the counts that the second has cleared
  refine wp_seq (wp_forRange (fun i t => t.freelist = rangeList k i ∧ t.denied = s.denied)
    (0x88000 - k) 0 ⟨hfree, rfl⟩ fun i t _ _ ht => ?_) fun _ t ht => ?_
  · rw [wp_bind, wp_memset, wp_modify, rangeList_succ]
    exact ⟨congrArg _ ht.1, ht.2⟩
  rw [Nat.zero_add] at ht
  refine wp_mono (wp_forRange (fun i u => u.freelist = rangeList k (0x88000 - k) ∧
    u.denied = s.denied ∧ ∀ j < i, u.ref (k + j) = 0) (0x88000 - k) 0
    ⟨ht.1, ht.2, fun j hj => absurd hj (Nat.not_lt_zero j)⟩ fun i u _ _ hu => ?_) fun _ u hu => ?_
  · rw [wp_modify, mul_PGSIZE_shift]
    refine ⟨hu.1, hu.2.1, fun j hj => ?_⟩
    dsimp only
    by_cases hji : j = i
    · rw [hji, update_self]
    · rw [update_of_ne (by omega)]
      exact hu.2.2 j (by omega)
  obtain ⟨hlist, hden, hzero⟩ := hu
  rw [Nat.zero_add] at hzero
  refine ⟨⟨?_, fun pa => ?_, fun n hn => ?_, fun n hn => absurd rfl hn, fun n => by norm_num⟩, hden⟩
  · rw [hlist]
    exact nodup_rangeList ..
  · rw [hlist, mem_rangeList]
    constructor
    · rintro ⟨j, hj, rfl⟩
      exact ⟨k + j, rfl, managed_iff.2 (by omega), rfl⟩
    · rintro ⟨n, rfl, hn, -⟩
      have := managed_iff.1 hn
      exact ⟨n - k, by omega, by rw [show k + (n - k) = n by omega]⟩
  · have hn := managed_iff.1 hn
    have := hzero (n - k) (by omega)
    rwa [show k + (n - k) = n by omega] at this

end

namespace Os

/-! ## Runs -/

section

variable [Layout] {F F' : Forest ℕ} {s t : Os} {e : Event} {es : List Event} {p : Slot}
  {n r tf v : ℕ}

/-- A call is made, and returns. -/
def Step (s : Os) (e : Event) (t : Os) : Prop :=
  Ready s e.1 ∧ call e.1 s = .ok (e.2, t)

/-- After `kinit`, without a process. -/
structure Bare (s : Os) : Prop where
  procs : ∀ p, Free (s.procs.proc p)
  held : ∀ n, s.held n = false
  kinit : ∃ m : Mach, m.freelist = [] ∧ kinit m = .ok ((), s.mach)

/-- After `userinit`. The kernel may have taken pages before it. -/
def Booted (s : Os) : Prop :=
  s.mach.denied = false ∧
    ∃ s₀ es s₁, Bare s₀ ∧ Run Step s₀ es s₁ ∧ userinit s₁ = .ok ((), s)

theorem Step.done (h : Inv F s) (hs : Step s e t) : Done s e.1 e.2 t := by
  have hwp := call_spec h e.1 hs.1
  unfold wp at hwp
  rwa [hs.2] at hwp

theorem Step.inv (h : ∃ F, Inv F s) (hs : Step s e t) : ∃ F, Inv F t := by
  obtain ⟨F, h⟩ := h
  exact (hs.done h).1

theorem Bare.inv (h : Bare s) : Inv noTables s := by
  obtain ⟨m, hm, hrun⟩ := h.kinit
  have hkern : ∀ n, s.kern n = 0 := fun n => by
    have h0 : trapframes s.procs.proc n = 0 := Finset.sum_eq_zero fun p _ => by
      rw [(h.procs p).trapframe, if_neg nofun]
    unfold kern
    rw [h0, h.held]
    rfl
  have hwp := kinit_spec (E := Never) hm
  unfold wp at hwp
  rw [hrun] at hwp
  exact .boot (hwp.1.congr hkern rfl rfl) h.procs

theorem Run.inv (h : ∃ F, Inv F s) (hr : Run Step s es t) : ∃ F, Inv F t :=
  hr.invariant h fun _ _ _ _ _ h hs => hs.inv h

theorem Booted.inv (h : Booted s) : ∃ F, Inv F s := by
  obtain ⟨hd, s₀, es, s₁, hbare, hrun, hinit⟩ := h
  obtain ⟨F, h₁⟩ := Os.Run.inv ⟨_, hbare.inv⟩ hrun
  have hwp := userinit_spec h₁
  unfold wp at hwp
  rw [hinit] at hwp
  refine hwp.resolve_left ?_
  rw [hd]
  nofun

/-- The states that the kernel reaches. -/
abbrev Reached (s : Os) : Prop :=
  Reachable Booted Step s

theorem Reached.inv (h : Reached s) : ∃ F, Inv F s :=
  Reachable.invariant (I := fun s => ∃ F, Inv F s) (fun _ hs => Booted.inv hs)
    (fun _ _ _ hI hs => Step.inv hI hs) h

end

/-! ## On sixteen pages of memory -/

/-- The machine before `kinit`. -/
def unbooted : Os where
  mach :=
    { mem := fun _ => 0
      freelist := []
      ref := fun _ => 0
      origin := fun _ _ => false
      denied := false }
  procs := ⟨fun _ => Proc.zero, 1, 0, 0⟩
  held _ := false

def bare : Os :=
  after (lift (@kinit sixteenPages)) unbooted

def booted : Os :=
  after (@userinit sixteenPages) bare

theorem eq_after {α : Type} {c : Prog Os α} {s : Os} {a : α}
    (h : (c s).toOption.map Prod.fst = some a) : c s = .ok (a, after c s) := by
  unfold after
  cases hc : c s with
  | ok x =>
    rw [hc] at h
    exact congrArg Except.ok (Prod.ext (Option.some.inj h) rfl)
  | error e =>
    rw [hc] at h
    cases h

theorem bare_bare : @Bare sixteenPages bare := by
  let _ : Layout := sixteenPages
  obtain ⟨⟨⟩, m, hrun, -⟩ := wp_exists (kinit_spec (s := unbooted.mach) rfl)
  have hbare : bare = unbooted.setMach m := by
    unfold bare after lift
    rw [hrun]
    rfl
  rw [hbare]
  exact ⟨fun _ => ⟨rfl, rfl, rfl, rfl⟩, fun _ => rfl, unbooted.mach, rfl, hrun⟩

/-- The first process has a child. -/
def family : Os :=
  after (@fork sixteenPages 0) booted

/-- What `userinit` and the `fork` return, and the slots and page tables that they take. -/
theorem family_runs :
    (booted.mach.denied = false ∧
      (@userinit sixteenPages bare).toOption.map Prod.fst = some () ∧
      (@fork sixteenPages 0 booted).toOption.map Prod.fst = some 2) ∧
    ((booted.procs.proc 0).state ≠ .unused ∧ (booted.procs.proc 1).state = .unused ∧
      (family.procs.proc 1).state ≠ .unused) ∧
    (booted.procs.proc 0).pagetable = some (0x87FFE * PGSIZE) ∧
    (family.procs.proc 1).pagetable = some (0x87FF7 * PGSIZE) ∧
    pageEntry booted.mach.mem 0x87FFE 0 = some ((0x87FFB <<< 10) ||| 31) := by
  decide +kernel

theorem booted_reached : @Reached sixteenPages booted := by
  let _ : Layout := sixteenPages
  obtain ⟨⟨hd, hinit, -⟩, -⟩ := family_runs
  exact .init ⟨hd, bare, [], bare, bare_bare, .nil, eq_after hinit⟩

theorem fork_booted : @fork sixteenPages 0 booted = .ok (2, family) :=
  eq_after family_runs.1.2.2

theorem family_step : @Step sixteenPages booted (.fork 0, 2) family := by
  let _ : Layout := sixteenPages
  have hwp : wp Never (call (.fork 0)) (fun ret t => ret = 2 ∧ t = family) booted := by
    rw [call, wp_bind, wp_of_eq fork_booted, wp_pure]
    exact ⟨rfl, rfl⟩
  obtain ⟨_, _, hrun, rfl, rfl⟩ := wp_exists hwp
  refine ⟨?_, hrun⟩
  exact family_runs.2.1.1

theorem family_reached : @Reached sixteenPages family := by
  let _ : Layout := sixteenPages
  exact booted_reached.step family_step

section

variable [Layout] {F F' : Forest ℕ} {s t : Os} {e : Event} {es : List Event} {p : Slot}
  {n r tf v : ℕ}

/-! ## A kernel where nothing is shared -/

theorem simulates_users : Simulates (fun s u => (∃ F, Inv F s) ∧ u = Os.users s) Step Users.Step :=
  simulates_of_map fun _ _ _ ⟨_, h⟩ hs => hs.done h

/-- What the processes see of a run is a run of a kernel that copies memory whole. -/
theorem run_refines_users (h : Reached s) (hr : Run Step s es t) :
    Run Users.Step s.users es t.users := by
  obtain ⟨u, hu, -, rfl⟩ := Run.simulate simulates_users ⟨h.inv, rfl⟩ hr
  exact hu

omit [Layout] in
theorem run_refines_users_family : Run Users.Step booted.users [(.fork 0, 2)] family.users := by
  let _ : Layout := sixteenPages
  exact run_refines_users booted_reached (.snoc .nil family_step)

/-- In every reachable state the next call returns, but for a `fork` without memory. -/
theorem reachable_returns (h : Reached s) (c : Call) (hready : Ready s c) :
    (∃ ret t, Step s (c, ret) t) ∨ ∃ p, c = .fork p ∧ call c s = .error "kerneltrap" := by
  obtain ⟨F, h⟩ := h.inv
  have hwp := call_spec h c hready
  unfold wp at hwp
  cases hc : call c s with
  | ok x => exact .inl ⟨x.1, x.2, hready, hc⟩
  | error e =>
    rw [hc] at hwp
    obtain ⟨⟨p, rfl⟩, rfl⟩ := hwp
    exact .inr ⟨p, rfl, rfl⟩

omit [Layout] in
/-- The child stores to a page that it shares. -/
theorem reachable_returns_family : (∃ ret t, @Step sixteenPages family (.fault 1 8, ret) t) ∨
    ∃ p, Call.fault 1 8 = .fork p ∧
      @call sixteenPages (.fault 1 8) family = .error "kerneltrap" := by
  let _ : Layout := sixteenPages
  refine reachable_returns family_reached (.fault 1 8) ?_
  exact family_runs.2.1.2.2

/-! ## The address spaces -/

/-- The page table `r` has the first `k` pages, the trapframe in page `tf` and the trampoline, and
its tables are not readable, writable or executable. -/
structure Shape (m : Mem) (r k tf : ℕ) : Prop where
  mapped : ∀ v < VPAGES, (pageEntry m r v).isSome ↔ v < k ∨ v = VPAGES - 2 ∨ v = VPAGES - 1
  readable : ∀ v < k, ∀ e, pageEntry m r v = some e → has e PTE_R = true
  trapframe : pageEntry m r (VPAGES - 2) = some (pageEntryOf tf (PTE_R ||| PTE_W))
  trampoline : pageEntry m r (VPAGES - 1) =
    some (pageEntryOf (Layout.trampoline / PGSIZE) (PTE_R ||| PTE_X))
  inner : ∀ i < 512, has (entry m r i) PTE_V = true →
    entry m r i &&& (PTE_R ||| PTE_W ||| PTE_X) = 0 ∧
      ∀ j < 512, has (entry m (frame (entry m r i)) j) PTE_V = true →
        entry m (frame (entry m r i)) j &&& (PTE_R ||| PTE_W ||| PTE_X) = 0

theorem Tables.inner {refs : ℕ → ℕ} {m : Mach} {π : List ℕ} {i q : ℕ} (h : Tables F refs m)
    (hq : F.node (r, π) = some q) (hπ : π.length < 2) (hi : i < 512)
    (hV : has (entry m.mem q i) PTE_V = true) : ∃ q', F.node (r, i :: π) = some q' ∧
      entry m.mem q i = sv39.link q' ∧ frame (entry m.mem q i) = q' := by
  have hentry := h.rep.inner r π q i hq hπ hi
  cases hn : F.node (r, i :: π) with
  | none =>
    rw [hn, Option.elim_none] at hentry
    rw [hentry] at hV
    exact absurd hV (by decide)
  | some q' =>
    rw [hn, Option.elim_some] at hentry
    refine ⟨q', rfl, hentry, ?_⟩
    rw [hentry, frame_link (h.lt ⟨_, hn⟩)]

theorem Space.shape {kern : ℕ → ℕ} {m : Mach} {k : ℕ} (h : Vm F kern m) (hsp : Space F r k tf) :
    Shape m.mem r k tf := by
  have hU := UPAGES_eq
  have hV := VPAGES_eq
  have hk := h.sized_le hsp.root hsp.sized
  have hsome : ∀ {v e}, F.pte r v = e → e.testBit 0 = true → pageEntry m.mem r v = some e := by
    intro v e he hbit
    rw [h.tables.pageEntry_eq hsp.root, he, has_V, hbit, if_pos rfl]
  have hbit : ∀ n perm, (pageEntryOf n perm).testBit 0 = true := fun n perm => by
    rw [testBit_pageEntryOf (by norm_num)]
    simp
  refine ⟨fun v hv => ?_, fun v hv e he => ?_, hsome hsp.trapframe (hbit _ _),
    hsome hsp.trampoline (hbit _ _), fun i hi hVi => ?_⟩
  · by_cases hvu : v < UPAGES
    · have hiff := hsp.sized v hvu
      by_cases h0 : F.pte r v = 0
      · rw [h.tables.pageEntry_eq hsp.root, h0]
        refine iff_of_false (by decide) fun hbad => ?_
        have := mt hiff.2 (not_not.2 h0)
        omega
      · rw [hsome rfl (h.leaf r hsp.root v hvu h0).valid]
        exact iff_of_true rfl (.inl (hiff.1 h0))
    · obtain rfl | rfl : v = VPAGES - 2 ∨ v = VPAGES - 1 := by omega
      · rw [hsome hsp.trapframe (hbit _ _)]
        exact iff_of_true rfl (.inr (.inl rfl))
      · rw [hsome hsp.trampoline (hbit _ _)]
        exact iff_of_true rfl (.inr (.inr rfl))
  · have hne := (hsp.sized v (by omega)).2 hv
    have hl := h.leaf r hsp.root v (by omega) hne
    rw [hsome rfl hl.valid] at he
    obtain rfl := Option.some.inj he
    rw [has_R, hl.readable]
  · obtain ⟨q, hq, he, hf⟩ := Tables.inner h.tables (h.tables.rep.root r hsp.root) (by norm_num) hi hVi
    refine ⟨by rw [he, link_not_leaf], fun j hj hVj => ?_⟩
    rw [hf] at hVj ⊢
    obtain ⟨q', -, he', -⟩ := Tables.inner h.tables hq (by norm_num) hj hVj
    rw [he', link_not_leaf]

/-- In every reachable state each process has its address space, of the shape the kernel relies
on. -/
theorem reachable_shaped (h : Reached s) (hst : (s.procs.proc p).state ≠ .unused) :
    ∃ r tf, (s.procs.proc p).pagetable = some (r * PGSIZE) ∧
      (s.procs.proc p).trapframe = some (tf * PGSIZE) ∧
      Shape s.mach.mem r (pages (s.procs.proc p).sz) tf := by
  obtain ⟨F, h⟩ := h.inv
  obtain ⟨r, tf, hl⟩ := h.lives hst
  exact ⟨r, tf, hl.pagetable, hl.trapframe, Space.shape h.vm hl.space⟩

omit [Layout] in
theorem reachable_shaped_family : ∃ r tf, (family.procs.proc 1).pagetable = some (r * PGSIZE) ∧
    (family.procs.proc 1).trapframe = some (tf * PGSIZE) ∧
    @Shape sixteenPages family.mach.mem r (pages (family.procs.proc 1).sz) tf := by
  let _ : Layout := sixteenPages
  exact reachable_shaped family_reached family_runs.2.1.2.2

/-! ## The owners of a page -/

/-- Page `n` is a table of some process. -/
def InTables (s : Os) (n : ℕ) : Prop :=
  ∃ p a, (s.procs.proc p).pagetable = some a ∧ IsTable s.mach.mem (a / PGSIZE) n

/-- The entry of the virtual page `v` of the process `p`. -/
def entryOf (s : Os) (p : Slot) (v : ℕ) : Option ℕ :=
  (s.procs.proc p).pagetable.bind fun a => pageEntry s.mach.mem (a / PGSIZE) v

/-- How many user pages of all processes are page `n`. -/
def mappings (s : Os) (n : ℕ) : ℕ :=
  ∑ p, ((Finset.range UPAGES).filter fun v => (s.entryOf p v).map frame = some n).card

open Classical in
/-- The owners of page `n` : the page tables, the kernel, and the processes. -/
noncomputable def ownersOf (s : Os) (n : ℕ) : ℕ :=
  (if s.InTables n then 1 else 0) + s.kern n + s.mappings n

theorem Tables.tab_of_isTable {refs : ℕ → ℕ} {m : Mach} (h : Tables F refs m) (hr : r ∈ F.roots)
    (hn : IsTable m.mem r n) : F.Tab n := by
  have hroot := h.rep.root r hr
  rcases hn with rfl | ⟨i, hi, hVi, rfl | ⟨j, hj, hVj, rfl⟩⟩
  · exact ⟨_, hroot⟩
  · obtain ⟨q, hq, -, hf⟩ := Tables.inner h hroot (by norm_num) hi hVi
    exact ⟨_, hf.symm ▸ hq⟩
  · obtain ⟨q, hq, -, hf⟩ := Tables.inner h hroot (by norm_num) hi hVi
    rw [hf] at hVj ⊢
    obtain ⟨q', hq', -, hf'⟩ := Tables.inner h hq (by norm_num) hj hVj
    exact ⟨_, hf'.symm ▸ hq'⟩

theorem Inv.inTables_iff (h : Inv F s) : s.InTables n ↔ F.Tab n := by
  constructor
  · rintro ⟨p, a, hpt, hn⟩
    rcases h.slot p with hf | ⟨-, r, tf, hl⟩
    · rw [hf.pagetable] at hpt
      cases hpt
    · obtain rfl := Option.some.inj (hpt.symm.trans hl.pagetable)
      rw [mul_PGSIZE_div] at hn
      exact Tables.tab_of_isTable h.vm.tables hl.space.root hn
  · rintro ⟨⟨r, π⟩, hx⟩
    obtain ⟨p, hp⟩ := h.root r (h.vm.tables.rep.mem_roots hx)
    refine ⟨p, _, hp, ?_⟩
    rw [mul_PGSIZE_div]
    exact h.vm.tables.isTable_node hx

/-- The entries of a process, in its page table. -/
theorem Inv.entryOf_eq (h : Inv F s) (hp : (s.procs.proc p).pagetable = some (r * PGSIZE))
    (hv : v < UPAGES) :
    s.entryOf p v = if F.pte r v = 0 then none else some (F.pte r v) := by
  have hr := h.root_of_pagetable hp
  unfold entryOf
  rw [hp, Option.bind_some, mul_PGSIZE_div, h.vm.tables.pageEntry_eq hr, has_V]
  by_cases h0 : F.pte r v = 0
  · rw [h0]
    rfl
  · rw [(h.vm.leaf r hr v hv h0).valid, if_pos rfl, if_neg h0]

theorem Inv.card_entries (h : Inv F s) (hp : (s.procs.proc p).pagetable = some (r * PGSIZE))
    (n : ℕ) : ((Finset.range UPAGES).filter fun v => (s.entryOf p v).map frame = some n).card =
      ∑ v ∈ Finset.range UPAGES, hits (F.pte r v) n := by
  rw [Finset.card_filter]
  refine Finset.sum_congr rfl fun v hv => ?_
  rw [h.entryOf_eq hp (Finset.mem_range.1 hv)]
  unfold hits
  by_cases h0 : F.pte r v = 0
  · simp [h0]
  · simp [h0]

theorem Inv.exists_root (h : Inv F s) (hp : (s.procs.proc p).pagetable ≠ none) :
    ∃ r, (s.procs.proc p).pagetable = some (r * PGSIZE) := by
  rcases h.slot p with hf | ⟨-, r, tf, hl⟩
  · exact absurd hf.pagetable hp
  · exact ⟨r, hl.pagetable⟩

theorem Inv.mappings_eq (h : Inv F s) (n : ℕ) : s.mappings n = F.maps n := by
  have hnone : ∀ p, (s.procs.proc p).pagetable = none →
      ((Finset.range UPAGES).filter fun v => (s.entryOf p v).map frame = some n).card = 0 := by
    intro p hp
    rw [Finset.card_eq_zero, Finset.filter_eq_empty_iff]
    intro v _
    unfold entryOf
    rw [hp]
    nofun
  unfold mappings Forest.maps
  rw [Finset.sum_product, ← Finset.sum_filter_of_ne (p := fun p => (s.procs.proc p).pagetable ≠ none)
    fun p _ hne hp => hne (hnone p hp)]
  -- the processes and the roots of their page tables
  refine Finset.sum_nbij (fun p => (s.procs.proc p).pagetable.getD 0 / PGSIZE) (fun p hp => ?_)
    (fun p hp q hq hpq => ?_) (fun r hr => ?_) fun p hp => ?_
  · obtain ⟨r, hr⟩ := h.exists_root (Finset.mem_filter.1 hp).2
    rw [hr, Option.getD_some, mul_PGSIZE_div]
    exact h.root_of_pagetable hr
  · obtain ⟨r, hr⟩ := h.exists_root (Finset.mem_filter.1 hp).2
    obtain ⟨r', hr'⟩ := h.exists_root (Finset.mem_filter.1 hq).2
    dsimp only at hpq
    rw [hr, hr', Option.getD_some, Option.getD_some, mul_PGSIZE_div, mul_PGSIZE_div] at hpq
    exact h.inj p q _ hr (hpq ▸ hr')
  · obtain ⟨p, hp⟩ := h.root r hr
    refine ⟨p, ?_, ?_⟩
    · simp [hp]
    · dsimp only
      rw [hp, Option.getD_some, mul_PGSIZE_div]
  · obtain ⟨r, hr⟩ := h.exists_root (Finset.mem_filter.1 hp).2
    rw [h.card_entries hr, hr, Option.getD_some, mul_PGSIZE_div]

theorem Inv.ownersOf_eq (h : Inv F s) (n : ℕ) : s.ownersOf n = owners F s.kern n := by
  unfold ownersOf owners
  rw [h.mappings_eq]
  by_cases htab : F.Tab n
  · rw [if_pos htab, if_pos (h.inTables_iff.2 htab)]
  · rw [if_neg htab, if_neg (mt h.inTables_iff.1 htab)]

/-- The allocator knows the owners of every page. -/
structure Counted (s : Os) : Prop where
  ref : ∀ n, Managed n → s.mach.ref n = s.ownersOf n
  free : ∀ pa, pa ∈ s.mach.freelist ↔ ∃ n, pa = n * PGSIZE ∧ Managed n ∧ s.ownersOf n = 0
  nodup : s.mach.freelist.Nodup
  /-- What is owned is a page of the allocator. -/
  owned : ∀ n, s.ownersOf n ≠ 0 → Managed n
  /-- The kernel does not share its pages. -/
  kernel : ∀ n, s.kern n ≠ 0 → s.ownersOf n = 1
  table : ∀ n, s.InTables n → s.ownersOf n = 1
  /-- A page that can be written to has one owner. -/
  writable : ∀ p v e, v < UPAGES → s.entryOf p v = some e → has e PTE_W = true →
    s.ownersOf (frame e) = 1

theorem Inv.counted (h : Inv F s) : Counted s := by
  have hown := h.ownersOf_eq
  refine ⟨fun n hn => ?_, fun pa => ?_, h.vm.tables.alloc.nodup, fun n hn => ?_, fun n hn => ?_,
    fun n hn => ?_, fun p v e hv he hw => ?_⟩
  · rw [hown, h.vm.tables.alloc.count n hn]
  · rw [h.vm.tables.alloc.free]
    exact exists_congr fun n => by rw [hown]
  · rw [hown] at hn
    exact h.vm.managed hn
  · have hntab : ¬F.Tab n := fun htab => hn (h.vm.excl n htab)
    have hone := h.once n
    have hm : F.maps n = 0 := by
      by_contra hm
      obtain ⟨x, hx, hne⟩ := Finset.exists_ne_zero_of_sum_ne_zero hm
      obtain ⟨hr, hv⟩ := Finset.mem_product.1 hx
      unfold hits at hne
      split_ifs at hne with hh
      · exact hn (hh.2 ▸ (h.vm.leaf x.1 hr x.2 (Finset.mem_range.1 hv) hh.1).not_kern)
      · exact hne rfl
    rw [hown, owners_of_not_tab hntab, hm]
    omega
  · rw [hown, h.vm.owners_tab (h.inTables_iff.1 hn)]
  · obtain ⟨r, hr⟩ : ∃ r, (s.procs.proc p).pagetable = some (r * PGSIZE) := by
      refine h.exists_root fun hnone => ?_
      unfold entryOf at he
      rw [hnone] at he
      cases he
    rw [h.entryOf_eq hr hv] at he
    split_ifs at he with h0
    obtain rfl := Option.some.inj he
    have hl := h.vm.leaf r (h.root_of_pagetable hr) v hv h0
    rw [hown, hl.owners_eq]
    exact hl.once (hl.cow (by rwa [← has_W]))

/-- The counts are exact in every reachable state. -/
theorem reachable_counted (h : Reached s) : Counted s := by
  obtain ⟨F, h⟩ := h.inv
  exact h.counted

omit [Layout] in
theorem reachable_counted_family : @Counted sixteenPages family := by
  let _ : Layout := sixteenPages
  exact reachable_counted family_reached

/-- Once all processes are gone, the free list has every page that the kernel does not have. -/
theorem reachable_drained (h : Reached s) (hgone : ∀ p, (s.procs.proc p).state = .unused)
    (hn : Managed n) (hheld : s.held n = false) : n * PGSIZE ∈ s.mach.freelist := by
  obtain ⟨F, h⟩ := h.inv
  have hcount := h.counted
  have hpt : ∀ p, (s.procs.proc p).pagetable = none := fun p => (h.free (hgone p)).pagetable
  have htab : ¬s.InTables n := by
    rintro ⟨p, a, hp, -⟩
    rw [hpt] at hp
    cases hp
  have hkern : s.kern n = 0 := by
    have h0 : trapframes s.procs.proc n = 0 := Finset.sum_eq_zero fun p _ => by
      rw [(h.free (hgone p)).trapframe, if_neg nofun]
    unfold kern
    rw [h0, hheld]
    rfl
  have hmaps : s.mappings n = 0 := Finset.sum_eq_zero fun p _ => by
    rw [Finset.card_eq_zero, Finset.filter_eq_empty_iff]
    intro v _
    unfold entryOf
    rw [hpt]
    nofun
  refine (hcount.free _).2 ⟨n, rfl, hn, ?_⟩
  unfold ownersOf
  rw [if_neg htab, hkern, hmaps]

/-! ## `fork` and the write bit -/

/-- After a `fork` the parent and the child may write to all pages that the parent could read,
whatever the write bits of its entries were. -/
theorem fork_makes_writable {pid : Int32} {c : Slot} {r' : ℕ} (h : Reached s)
    (hst : (s.procs.proc p).state ≠ .unused) (hrun : fork p s = .ok (pid, t))
    (hfree : (s.procs.proc c).state = .unused) (hchild : (t.procs.proc c).state ≠ .unused)
    (hr : (s.procs.proc p).pagetable = some (r * PGSIZE))
    (hr' : (t.procs.proc c).pagetable = some (r' * PGSIZE)) (hv : v < UPAGES)
    (hread : UserReadable s.mach.mem r v) :
    UserWritable t.mach.mem r v ∧ UserWritable t.mach.mem r' v := by
  have hUV := UPAGES_le
  obtain ⟨F, h⟩ := h.inv
  obtain ⟨rp, tfp, hl⟩ := h.lives hst
  obtain rfl : r = rp := some_page_inj (hr.symm.trans hl.pagetable)
  have hpost : ForkPost F s p r pid t := by
    have hwp := fork_spec h hst hl
    unfold wp at hwp
    rwa [hrun] at hwp
  rcases hpost with ⟨-, ⟨rfl, -⟩ | ⟨np, F', hn⟩⟩ | ⟨-, np, rc, tf, F', hf⟩
  · exact absurd hfree hchild
  · refine absurd ?_ hchild
    rw [hn.eq, setMach_procs]
    by_cases hc : c = np
    · rw [hc, setProc_self]
      rfl
    · rwa [setProc_of_ne hc, takePid_proc]
  · -- the only new slot is that of the child
    obtain rfl : c = np := by
      by_contra hc
      refine hchild ?_
      rwa [hf.eq, setMach_procs, setProc_of_ne hc, takePid_proc]
    obtain rfl : r' = rc := by
      rw [hf.eq, setMach_procs, setProc_self] at hr'
      exact (some_page_inj hr').symm
    obtain ⟨-, hV, hU⟩ := (h.vm.tables.userReadable_iff hl.space.root).1 hread
    have hin := (hl.space.sized v hv).1 (ne_zero_of_testBit hV)
    have hroot : r ∈ F'.roots := by
      rw [hf.roots]
      exact Finset.mem_insert_of_mem hl.space.root
    have hcow : ∀ {r'}, r' ∈ F'.roots → F'.pte r' v = cowOf (F.pte r v) →
        UserWritable t.mach.mem r' v := by
      intro r' hr' he
      rw [hf.vm.tables.userWritable_iff hr', hf.vm.tables.userReadable_iff hr', he,
        testBit_cowOf _ (by norm_num), testBit_cowOf _ (by norm_num), testBit_cowOf _ (by norm_num),
        testBit_cowOf _ (by norm_num), hV, hU]
      refine ⟨⟨by omega, by simp, by simp⟩, .inr (by simp)⟩
    exact ⟨hcow hroot (hf.parent v hin), hcow hf.space.root (hf.child v hin)⟩

omit [Layout] in
theorem fork_makes_writable_family : UserWritable family.mach.mem 0x87FFE 0 ∧
    UserWritable family.mach.mem 0x87FF7 0 := by
  let _ : Layout := sixteenPages
  obtain ⟨-, ⟨hst, hfree, hchild⟩, hr, hr', he⟩ := family_runs
  exact fork_makes_writable (p := 0) (c := 1) booted_reached hst fork_booted hfree hchild hr hr'
    (by decide) ⟨by decide, (0x87FFB <<< 10) ||| 31, he, by decide⟩

end

end Os

end CowPbs
