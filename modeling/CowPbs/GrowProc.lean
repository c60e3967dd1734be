import Mathlib
import CowPbs.OsInv

/-!
# `growproc`

`growproc` does what it reports, except that it reports a request for a negative size as
done (`growproc_reports`). What it says about the bytes of the process is about `view`.
-/

set_option linter.unusedSectionVars false

open Function Prog Bytes Radix

namespace CowPbs

section

variable [Layout] {F F' : Forest ℕ} {kern : ℕ → ℕ} {s t : Mach} {r v va k n : ℕ}
  {E : String → Prop}

/-! ## `growproc` -/

/-- `sz + n`, for a `uint64` and an `int`. -/
def addInt (sz : ℕ) (n : Int32) : ℕ :=
  ((sz + n.toInt) % 2 ^ 64).toNat

/-- `growproc`, with the `sz` of the process after it. -/
def growproc (pagetable sz : ℕ) (n : Int32) : K (ℤ × ℕ) := do
  if 0 < n then
    let r ← uvmalloc pagetable sz (addInt sz n) PTE_W
    if r = 0 then return (-1, sz)
    else return (0, r)
  else if n < 0 then
    let r ← uvmdealloc pagetable sz (addInt sz n)
    return (0, r)
  else return (0, sz)

/-- What `growproc` reports with -1 : nothing happened, apart from new tables. -/
structure NotGrown (r : ℕ) (s t : Mach) : Prop where
  entry : ∀ v < VPAGES, pageEntry t.mem r v = pageEntry s.mem r v
  view : ∀ va < TRAPFRAME, view t.mem r va = view s.mem r va
  free : ∀ pa ∈ s.freelist, pa ∈ t.freelist ∨ IsTable t.mem r (pa / PGSIZE)

/-- What it reports with 0 : the bytes that stay are the same, and the new ones are zero. -/
structure Resized (r sz sz' : ℕ) (s t : Mach) : Prop where
  kept : ∀ va, va < sz → va < sz' → view t.mem r va = view s.mem r va
  zero : ∀ va, PGROUNDUP sz ≤ va → va < PGROUNDUP sz' → view t.mem r va = some 0

/-- The result `ret` of `growproc n` is true, with the new size `sz'`. -/
def GrowReport (r sz : ℕ) (n : Int32) (s : Mach) (ret : ℤ) (sz' : ℕ) (t : Mach) : Prop :=
  (ret = -1 ∧ sz' = sz ∧ NotGrown r s t) ∨
    (ret = 0 ∧ (sz' : ℤ) = sz + n.toInt ∧ Resized r sz sz' s t)

section

variable {sz : ℕ} {n : Int32}

omit [Layout] in
theorem addInt_eq (hsz : sz < 2 ^ 37) (hn : 0 ≤ sz + n.toInt) : (addInt sz n : ℤ) = sz + n.toInt := by
  have hlt := Int32.toInt_lt n
  unfold addInt
  rw [Int.emod_eq_of_lt hn (by omega), Int.toNat_of_nonneg hn]

omit [Layout] in
/-- A negative size wraps. -/
theorem le_addInt (hsz : sz < 2 ^ 37) (hn : sz + n.toInt < 0) : sz ≤ addInt sz n := by
  have hge := Int32.le_toInt n
  unfold addInt
  omega

end

/-- A page that was free is free, or one of the new tables. -/
theorem Unchanged.free (h : Vm F kern s) (hu : Unchanged r F kern s F' t) {pa : ℕ}
    (hpa : pa ∈ s.freelist) : pa ∈ t.freelist ∨ IsTable t.mem r (pa / PGSIZE) := by
  have hUV := UPAGES_le
  obtain ⟨m, rfl, hman, h0⟩ := (h.tables.alloc.free pa).1 hpa
  obtain ⟨htab, hk, hm⟩ := owners_eq_zero.1 h0
  by_cases htab' : F'.Tab m
  · obtain ⟨⟨r', π⟩, hx⟩ := htab'
    obtain rfl : r' = r := by
      by_contra hne
      rw [hu.node r' π hne] at hx
      exact htab ⟨_, hx⟩
    rw [mul_PGSIZE_div]
    exact .inr (hu.vm.tables.isTable_node hx)
  · refine .inl ((hu.vm.tables.alloc.mem_free m).2 ⟨hman, owners_eq_zero.2 ⟨htab', hk, ?_⟩⟩)
    rw [← hm]
    exact Forest.maps_congr hu.roots fun r' _ v hv => hu.pte r' v (by omega)

theorem Unchanged.notGrown (h : Vm F kern s) (hr : r ∈ F.roots) (hu : Unchanged r F kern s F' t) :
    NotGrown r s t where
  entry v hv := by
    rw [h.tables.pageEntry_eq hr, hu.vm.tables.pageEntry_eq (hu.roots.symm ▸ hr), hu.pte r v hv]
  view va hva := by
    have hv := lt_UPAGES hva
    exact h.view_kept hu.vm hr (hu.roots.symm ▸ hr) hv (hu.pte r _ (hv.trans_le UPAGES_le))
      hu.saved.kept
  free _ := hu.free h

theorem Grew.resized {sz sz' perm : ℕ} (h : Vm F kern s) (hr : r ∈ F.roots)
    (hs : F.Sized r (pages sz)) (hle : sz ≤ sz') (hperm : perm < 2 ^ 10)
    (hg : Grew r (pages sz) (pages sz') perm F kern s F' t) : Resized r sz sz' s t := by
  have hU := UPAGES_eq
  have hUV := UPAGES_le
  have hr' : r ∈ F'.roots := hg.roots.symm ▸ hr
  have hs' := hg.sized hs (pages_mono hle)
  have hsmall' := hg.vm.sized_le hr' hs'
  have hsz := h.lt_of_sized hr hs
  have hsz' := hg.vm.lt_of_sized hr' hs'
  constructor
  · intro va hva _
    have hv : va / PGSIZE < pages sz := by
      simp only [PGSIZE, pages]
      omega
    have := pages_mono hle
    exact h.view_kept hg.vm hr hr' (by omega) (hg.other r _ (by omega) (by omega)) hg.saved.kept
  · intro va h₁ h₂
    rw [PGROUNDUP_pages (by omega)] at h₁ h₂
    have hv : pages sz ≤ va / PGSIZE := (Nat.le_div_iff_mul_le PGSIZE_pos).2 h₁
    have hv' : va / PGSIZE < pages sz' := (Nat.div_lt_iff_lt_mul PGSIZE_pos).2 h₂
    obtain ⟨m, hm, hlt, -, hzero⟩ := hg.page _ hv hv'
    have hne : F'.pte r (va / PGSIZE) ≠ 0 := (hs' _ (by omega)).2 hv'
    rw [hg.vm.view_mapped hr' (by omega) hne, hm, frame_pageEntryOf hlt hperm,
      hzero _ (page_offset m va)]

/-- The last pages are gone. -/
theorem Vm.resized_of_setPtes {sz sz' : ℕ} (h : Vm F kern s) (hr : r ∈ F.roots)
    (hs : F.Sized r (pages sz)) (hle : sz' ≤ sz)
    (hvm : Vm (F.setPtes r (pages sz') (fun _ => 0) (pages sz - pages sz')) kern t)
    (hd : Dropped F kern s (F.setPtes r (pages sz') (fun _ => 0) (pages sz - pages sz')) kern t) :
    Resized r sz sz' s t := by
  have hU := UPAGES_eq
  have hUV := UPAGES_le
  have hsmall := h.sized_le hr hs
  have hsz := h.lt_of_sized hr hs
  have hpages := pages_mono hle
  constructor
  · intro va hva hva'
    have hv : va / PGSIZE < pages sz' := by
      simp only [PGSIZE, pages]
      omega
    refine h.view_kept hvm hr (by rwa [Forest.roots_setPtes]) (by omega) ?_ hd.kept
    rw [Forest.pte_setPtes (by omega) (by omega), if_neg (by omega)]
  · intro va h₁ h₂
    rw [PGROUNDUP_pages (by omega)] at h₁ h₂
    have := Nat.mul_le_mul_right PGSIZE hpages
    omega

/-- `growproc` does what it reports, unless the size would be negative. -/
theorem growproc_reports {sz : ℕ} (h : Vm F kern s) (hr : r ∈ F.roots)
    (hs : F.Sized r (pages sz)) (n : Int32) :
    ∃ ret sz' t, growproc (r * PGSIZE) sz n s = .ok ((ret, sz'), t) ∧
      (GrowReport r sz n s ret sz' t ↔ 0 ≤ sz + n.toInt) := by
  have hsz := h.lt_of_sized hr hs
  have hspec : wp Never (growproc (r * PGSIZE) sz n)
      (fun o t => GrowReport r sz n s o.1 o.2 t ↔ 0 ≤ sz + n.toInt) s := by
    unfold growproc
    rw [wp_ite]
    refine ⟨fun hpos => ?_, fun hpos => ?_⟩
    · have hpos : 0 < n.toInt := Int32.lt_iff_toInt_lt.1 hpos
      have hadd := addInt_eq hsz (show 0 ≤ sz + n.toInt by omega)
      refine wp_seq (uvmalloc_spec h hr hs (by decide)) fun o t ho => ?_
      obtain ⟨hlt, -⟩ | ⟨hle, rfl, F', hg⟩ | ⟨hle, rfl, -, F', hu⟩ := ho
      · omega
      · rw [if_neg (by omega), wp_pure]
        exact iff_of_true (.inr ⟨rfl, hadd, hg.resized h hr hs hle (by decide)⟩) (by omega)
      · rw [if_pos rfl, wp_pure]
        exact iff_of_true (.inl ⟨rfl, rfl, hu.notGrown h hr⟩) (by omega)
    · rw [wp_ite]
      have hpos : ¬0 < n.toInt := fun hlt => hpos (Int32.lt_iff_toInt_lt.2 hlt)
      refine ⟨fun hneg => ?_, fun hneg => ?_⟩
      · have hneg : n.toInt < 0 := Int32.lt_iff_toInt_lt.1 hneg
        refine wp_seq (uvmdealloc_spec h hr hs) fun o t ⟨ho, hvm, hd, _⟩ => ?_
        rw [wp_pure]
        by_cases hn : 0 ≤ sz + n.toInt
        · have hadd := addInt_eq hsz hn
          rw [if_neg (by omega)] at ho
          rw [ho]
          exact iff_of_true
            (.inr ⟨rfl, hadd, h.resized_of_setPtes hr hs (by omega) hvm hd⟩) hn
        · -- the size wraps, and `uvmdealloc` has nothing to do
          rw [if_pos (le_addInt hsz (by omega))] at ho
          rw [ho]
          refine iff_of_false ?_ hn
          rintro (⟨h1, -⟩ | ⟨-, hsum, -⟩)
          · exact absurd h1 (by norm_num)
          · exact absurd hsum (by dsimp only; omega)
      · have hneg : ¬n.toInt < 0 := fun hlt => hneg (Int32.lt_iff_toInt_lt.2 hlt)
        refine iff_of_true (.inr ⟨rfl, by dsimp only; omega, fun _ _ _ => rfl, fun va h₁ h₂ => ?_⟩)
          (by omega)
        exact absurd h₂ (not_lt.2 h₁)
  obtain ⟨⟨ret, sz'⟩, t, hrun, hrep⟩ := wp_exists hspec
  exact ⟨ret, sz', t, hrun, hrep⟩

omit [Layout] in
/-- A first process that grows by two pages. -/
theorem growproc_reports_first : ∃ ret sz' t,
    @growproc sixteenPages (0x87FF1 * PGSIZE) PGSIZE 8192 Os.first.mach = .ok ((ret, sz'), t) ∧
      (@GrowReport 0x87FF1 PGSIZE 8192 Os.first.mach ret sz' t ↔
        0 ≤ ((PGSIZE : ℕ) : ℤ) + (8192 : Int32).toInt) := by
  let _ : Layout := sixteenPages
  obtain ⟨F, tf, h, hl⟩ := Os.first_lives
  obtain ⟨-, -, -, hsz, -⟩ := Os.first_runs
  have hs := hl.space.sized
  rw [hsz] at hs
  exact growproc_reports h.vm hl.space.root hs 8192

omit [Layout] in
/-- A first process, of one page, asks for two pages less : it is told that this was done. -/
theorem growproc_not_reports : (∃ F, @Os.Inv sixteenPages F Os.first) ∧
    (Os.first.procs.proc 0).sz = PGSIZE ∧
    ∀ ret sz' t, @growproc sixteenPages (0x87FF1 * PGSIZE) PGSIZE (-8192) Os.first.mach =
        .ok ((ret, sz'), t) →
      ret = 0 ∧ sz' = PGSIZE ∧ ¬GrowReport 0x87FF1 PGSIZE (-8192) Os.first.mach ret sz' t := by
  refine ⟨Os.first_inv, Os.first_runs.2.2.2.1, fun ret sz' t hrun => ?_⟩
  have hret : (@growproc sixteenPages (0x87FF1 * PGSIZE) PGSIZE (-8192) Os.first.mach).toOption.map
      Prod.fst = some (0, PGSIZE) := by decide +kernel
  rw [hrun] at hret
  obtain ⟨rfl, rfl⟩ := Prod.mk.inj (Option.some.inj hret)
  refine ⟨rfl, rfl, ?_⟩
  rintro (⟨h1, -⟩ | ⟨-, hsum, -⟩)
  · exact absurd h1 (by norm_num)
  · exact absurd hsum (by decide)

end

end CowPbs
