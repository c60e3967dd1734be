import Mathlib
import CowPbs.Owners

/-!
# Growing, shrinking and freeing address spaces

`uvmfirst`, `uvmalloc`, `uvmdealloc`, `uvmclear`, `freewalk` and `uvmfree` of vm.c. User
memory is the pages `[0, k)` of an address space (`Forest.Sized`). Growing it (`uvmalloc_spec`)
either maps fresh pages of zeros behind the others, or runs out of memory and leaves all
entries as they were. Shrinking it (`uvmdealloc_spec`) takes the last pages away. Without user
pages a page table is given back, each of its pages once (`freewalk_spec`).
-/

set_option linter.unusedSectionVars false

open Function Prog Bytes Radix

namespace CowPbs

/-! ## The functions -/

/-- Not in the kernel : whether the page was mapped with `PTE_W`. -/
def mark (pagetable va : ℕ) (w : Bool) : K Unit :=
  modify fun s => { s with
    origin := update s.origin pagetable (update (s.origin pagetable) (va / PGSIZE) w) }

/-- The value of an `int`, passed on as a `uint64`. -/
def ofInt (n : ℕ) : ℕ :=
  if n % 2 ^ 32 < 2 ^ 31 then n % 2 ^ 32 else n % 2 ^ 32 + (2 ^ 64 - 2 ^ 32)

section

variable [Layout]

/-- `uvmdealloc`. -/
def uvmdealloc (pagetable oldsz newsz : ℕ) : K ℕ :=
  if oldsz ≤ newsz then return oldsz
  else do
    (if PGROUNDUP newsz < PGROUNDUP oldsz then
      uvmunmap pagetable (PGROUNDUP newsz)
        (ofInt ((PGROUNDUP oldsz - PGROUNDUP newsz) / PGSIZE)) true
    else pure ())
    return newsz

/-- A turn of the loop of `uvmalloc`, with what it returns if memory runs out. -/
def uvmallocPage (pagetable oldsz xperm a : ℕ) : K (Option ℕ) := do
  match ← kalloc with
  | none =>
    let _ ← uvmdealloc pagetable a oldsz
    return some 0
  | some mem =>
    memset mem 0
    let r ← mappages pagetable a PGSIZE mem (PTE_R ||| PTE_U ||| xperm)
    if r ≠ 0 then
      kfree mem
      let _ ← uvmdealloc pagetable a oldsz
      return some 0
    else
      mark pagetable a (has xperm PTE_W)
      return none

/-- `uvmalloc`. The loop does not get to an address that wraps : `mappages` panics there. -/
def uvmalloc (pagetable oldsz newsz xperm : ℕ) : K ℕ :=
  if newsz < oldsz then return oldsz
  else do
    let start := PGROUNDUP oldsz
    let r ← forReturn (fun i => uvmallocPage pagetable start xperm (start + i * PGSIZE))
      ((newsz - start + (PGSIZE - 1)) / PGSIZE) 0
    return r.getD newsz

/-- `uvmfirst`. -/
def uvmfirst (pagetable : ℕ) (src : List Byte) : K Unit := do
  panicIf (PGSIZE ≤ src.length) "uvmfirst: more than a page"
  match ← kalloc with
  | none => throw "kerneltrap"
  | some mem =>
    memset mem 0
    let _ ← mappages pagetable 0 PGSIZE mem (PTE_W ||| PTE_R ||| PTE_X ||| PTE_U)
    mark pagetable 0 true
    memmove mem src

/-- `uvmclear`. -/
def uvmclear (pagetable va : ℕ) : K Unit := do
  match ← walk pagetable va false with
  | none => throw "uvmclear"
  | some pte =>
    let e ← ld pte
    sd pte (clear e PTE_U)

/-- `freewalk`, for a table with `levels` levels of tables below it. -/
def freewalk : ℕ → ℕ → K Unit
  | 0, _ => throw "freewalk: too deep"
  | levels + 1, pagetable => do
    forRange (fun i => do
      let e ← ld (pagetable + 8 * i)
      if has e PTE_V && e &&& (PTE_R ||| PTE_W ||| PTE_X) == 0 then
        freewalk levels (PTE2PA e)
        sd (pagetable + 8 * i) 0
      else panicIf (has e PTE_V) "freewalk: leaf") 512 0
    kfree pagetable

/-- `uvmfree`. -/
def uvmfree (pagetable sz : ℕ) : K Unit := do
  (if 0 < sz then uvmunmap pagetable 0 (PGROUNDUP sz / PGSIZE) true else pure ())
  freewalk 3 pagetable

end

/-! ## Sizes -/

/-- The number of pages of a user memory of `sz` bytes. -/
def pages (sz : ℕ) : ℕ :=
  (sz + 4095) / 4096

theorem PGROUNDUP_pages {sz : ℕ} (h : sz < 2 ^ 63) : PGROUNDUP sz = pages sz * PGSIZE :=
  PGROUNDUP_eq h

theorem pages_mono {a b : ℕ} (h : a ≤ b) : pages a ≤ pages b :=
  Nat.div_le_div_right (by omega)

theorem pages_mul (k : ℕ) : pages (k * PGSIZE) = k := by
  simp only [pages, PGSIZE]
  omega

theorem le_of_pages_lt {a b : ℕ} (h : pages a < pages b) : a < b := by
  by_contra hle
  exact absurd (pages_mono (not_lt.1 hle)) (not_le.2 h)

theorem ofInt_of_lt {n : ℕ} (h : n < 2 ^ 31) : ofInt n = n := by
  unfold ofInt
  rw [if_pos (by omega), Nat.mod_eq_of_lt (by omega)]

end CowPbs

namespace Radix.Forest

open CowPbs

/-- User memory is the first `k` pages. -/
def Sized (F : Forest ℕ) (r k : ℕ) : Prop :=
  ∀ v < UPAGES, F.pte r v ≠ 0 ↔ v < k

variable {F F' : Forest ℕ} {r k j : ℕ}

theorem Sized.congr (h : F.Sized r k) (hpte : ∀ v < UPAGES, F'.pte r v = F.pte r v) :
    F'.Sized r k := by
  intro v hv
  rw [hpte v hv]
  exact h v hv

/-- The last pages are taken away. -/
theorem Sized.setPtes (h : F.Sized r k) (hk : k ≤ UPAGES) (hj : j ≤ k) :
    (F.setPtes r j (fun _ => 0) (k - j)).Sized r j := by
  intro v hv
  have hle := UPAGES_le
  rw [pte_setPtes (by omega) (by omega)]
  split_ifs with hin
  · simp only [ne_eq, not_true_eq_false, false_iff]
    omega
  · rw [h v hv]
    have : ¬(j ≤ v ∧ v < j + (k - j)) := fun h => hin ⟨rfl, h⟩
    omega

end Radix.Forest

namespace CowPbs

section

variable [Layout] {F F' : Forest ℕ} {kern kern' refs' : ℕ → ℕ} {s t : Mach} {r v k n : ℕ}
  {E : String → Prop}

/-- A user memory without holes is small. -/
theorem Vm.sized_le (h : Vm F kern s) (hr : r ∈ F.roots) (hs : F.Sized r k) : k ≤ 2 ^ 24 := by
  have hmin := h.tables.size_le hr (Nat.min_le_right k UPAGES) fun v hv =>
    (hs v (by omega)).2 (by omega)
  rw [UPAGES_eq] at hmin
  omega

/-! ## Unmapping -/

/-- User pages are unmapped and freed. -/
theorem Vm.unmap (h : Vm F kern s) (hr : r ∈ F.roots) (hk : v + k ≤ UPAGES)
    (hne : ∀ j < k, F.pte r (v + j) ≠ 0)
    (hu : Unmapped r (v * PGSIZE) true F (owners F kern) s k refs' t) :
    Vm (F.setPtes r v (fun _ => 0) k) kern t ∧
      Dropped F kern s (F.setPtes r v (fun _ => 0) k) kern t := by
  have hle := UPAGES_le
  have hT := hu.tables
  have hrefs := hu.refs_eq
  have hmem := hu.mem
  simp only [mul_PGSIZE_div, if_true] at hT hrefs hmem
  have hmaps : ∀ n, (F.setPtes r v (fun _ => 0) k).maps n + mapsTo F r v k n = F.maps n :=
    fun n => Forest.maps_setPtes_zero hr hk hne
  have hzero : ∀ n, F.Tab n ∨ kern n ≠ 0 → mapsTo F r v k n = 0 := by
    intro n hn
    refine Finset.card_eq_zero.2 (Finset.filter_eq_empty_iff.2 fun j hj hf => ?_)
    have hj := Finset.mem_range.1 hj
    have hl := h.leaf r hr (v + j) (by omega) (hne j hj)
    rw [← hf] at hn
    exact hn.elim hl.not_tab fun hk => hk hl.not_kern
  have hown : ∀ n, owners (F.setPtes r v (fun _ => 0) k) kern n = refs' n := by
    intro n
    rw [hrefs]
    have hn := hmaps n
    by_cases htab : F.Tab n
    · rw [owners_of_tab (Forest.tab_setPtes.2 htab), owners_of_tab htab]
      omega
    · rw [owners_of_not_tab (mt Forest.tab_setPtes.1 htab), owners_of_not_tab htab]
      have := hzero n
      omega
  have hpte : ∀ r' v', v' < UPAGES → (F.setPtes r v (fun _ => 0) k).pte r' v' ≠ 0 →
      (F.setPtes r v (fun _ => 0) k).pte r' v' = F.pte r' v' := by
    intro r' v' hv' hne'
    rw [Forest.pte_setPtes (by omega) (by omega)] at hne' ⊢
    split_ifs at hne' ⊢
    · exact absurd rfl hne'
    · rfl
  refine ⟨.of_tables hT Forest.roots_setPtes hown (fun r' hr' v' hv' hne' => ?_)
    (fun n hn => h.excl n (Forest.tab_setPtes.1 hn)), fun n hn => ⟨?_, fun htab => ⟨mt Forest.tab_setPtes.1 htab, fun x hx => ?_⟩⟩⟩
  · have heq := hpte r' v' hv' hne'
    have hl := h.leaf r' hr' v' hv' (heq ▸ hne')
    have hpos := Forest.maps_pos (Forest.roots_setPtes.symm ▸ hr') hv' hne'
    rw [heq] at hpos ⊢
    refine ⟨hl.valid, hl.readable, mt Forest.tab_setPtes.1 hl.not_tab, hl.not_kern, hl.cow,
      fun hc => ?_⟩
    have := hl.once hc
    have := hmaps (frame (F.pte r' v'))
    omega
  · rw [hown, hrefs] at hn
    omega
  · refine hmem x (hx ▸ htab) fun _ _ => ?_
    rw [← hown, hx]
    exact hn

/-- `uvmunmap` on user pages, which are all mapped. -/
theorem uvmunmap_user (h : Vm F kern s) (hr : r ∈ F.roots) (hk : v + k ≤ UPAGES)
    (hne : ∀ j < k, F.pte r (v + j) ≠ 0) :
    wp E (uvmunmap (r * PGSIZE) (v * PGSIZE) k true) (fun _ t =>
      Vm (F.setPtes r v (fun _ => 0) k) kern t ∧
      Dropped F kern s (F.setPtes r v (fun _ => 0) k) kern t ∧
      s.freelist.length ≤ t.freelist.length ∧ t.denied = s.denied) s := by
  have hle := UPAGES_le
  have hU := UPAGES_eq
  have hend : v * PGSIZE + k * PGSIZE < 2 ^ 64 := by
    simp only [PGSIZE]
    omega
  have hturns := unmapTurns_eq hend
  have hva : v * PGSIZE < MAXVA := by
    simp only [PGSIZE, MAXVA]
    omega
  have hleaf : ∀ j < k, UserLeaf F kern (F.pte r (v + j)) := fun j hj =>
    h.leaf r hr (v + j) (by omega) (hne j hj)
  refine wp_mono (uvmunmap_spec h.tables hr hva ?_ ?_ ?_ ?_ ?_) fun _ t hu => ?_
  · exact fun hal => absurd (Nat.mul_mod_left v PGSIZE) hal
  · rw [hturns, mul_PGSIZE_div]
    intro hlt
    omega
  · rw [hturns, mul_PGSIZE_div]
    intro j hj _ hV
    rw [has_V, (hleaf j hj).valid] at hV
    cases hV
  · rw [hturns, mul_PGSIZE_div]
    intro j hj _ hflags
    have h1 := testBit_flags (F.pte r (v + j)) (show 1 < 10 by norm_num)
    rw [hflags, (hleaf j hj).readable] at h1
    cases h1
  · rw [hturns, mul_PGSIZE_div]
    intro _ j hj _ _
    have hl := hleaf j hj
    have hpos := Forest.maps_pos hr (show v + j < UPAGES by omega) (hne j hj)
    refine ⟨fun _ => ⟨hl.not_tab, ?_⟩, fun hman => absurd (h.managed ?_) hman⟩
    · rw [hl.owners_eq]
      have hsum := Forest.maps_setPtes_zero (n := frame (F.pte r (v + j))) hr
        (show v + (j + 1) ≤ UPAGES by omega) fun i hi => hne i (by omega)
      omega
    · rw [hl.owners_eq]
      omega
  · obtain ⟨refs', hu⟩ := hu
    rw [hturns] at hu
    obtain ⟨hvm, hd⟩ := h.unmap hr hk hne hu
    exact ⟨hvm, hd, hu.length, hu.denied⟩

/-- `uvmdealloc` takes the last pages away. -/
theorem uvmdealloc_spec {oldsz newsz : ℕ} (h : Vm F kern s) (hr : r ∈ F.roots)
    (hs : F.Sized r (pages oldsz)) :
    wp E (uvmdealloc (r * PGSIZE) oldsz newsz) (fun ret t =>
      ret = (if oldsz ≤ newsz then oldsz else newsz) ∧
      Vm (F.setPtes r (pages newsz) (fun _ => 0) (pages oldsz - pages newsz)) kern t ∧
      Dropped F kern s (F.setPtes r (pages newsz) (fun _ => 0) (pages oldsz - pages newsz)) kern t ∧
      s.freelist.length ≤ t.freelist.length ∧ t.denied = s.denied) s := by
  have hsmall := h.sized_le hr hs
  have hold : oldsz < 2 ^ 37 := by
    unfold pages at hsmall
    omega
  unfold uvmdealloc
  rw [wp_ite]
  constructor
  · intro hle
    rw [Nat.sub_eq_zero_of_le (pages_mono hle)]
    exact ⟨(if_pos hle).symm, h, .refl, le_rfl, rfl⟩
  · intro hlt
    have hnew : newsz < 2 ^ 63 := by omega
    rw [PGROUNDUP_pages hnew, PGROUNDUP_pages (hold.trans (by norm_num)), wp_bind, wp_ite]
    constructor
    · intro hpages
      have hlt' : pages newsz < pages oldsz := lt_of_mul_lt_mul_right hpages (Nat.zero_le _)
      rw [← Nat.sub_mul, mul_PGSIZE_div, ofInt_of_lt (by omega)]
      have hU := UPAGES_eq
      refine wp_mono (uvmunmap_user h hr (by omega) fun j hj => ?_) fun _ t ht =>
        ⟨(if_neg hlt).symm, ht⟩
      exact (hs _ (by omega)).2 (by omega)
    · intro hpages
      have hle : pages oldsz ≤ pages newsz := by
        by_contra hno
        exact hpages ((Nat.mul_lt_mul_right PGSIZE_pos).2 (not_le.1 hno))
      rw [Nat.sub_eq_zero_of_le hle]
      exact ⟨(if_neg hlt).symm, h, .refl, le_rfl, rfl⟩

/-! ## Mapping one page -/

/-- The entry for page `n` with these permissions. -/
def pageEntryOf (n perm : ℕ) : ℕ :=
  PA2PTE (n * PGSIZE) ||| (perm ||| PTE_V)

theorem mapEntry_page {perm : ℕ} (hn : n < 2 ^ 44) :
    mapEntry (n * PGSIZE) perm 0 = pageEntryOf n perm := by
  rw [mapEntry, Nat.zero_mul, Nat.add_zero, Nat.mod_eq_of_lt (page_lt hn), Nat.or_assoc,
    pageEntryOf]

section

variable {perm : ℕ}

omit [Layout] in
theorem perm_lt (hperm : perm < 2 ^ 10) : perm ||| PTE_V < 2 ^ 10 :=
  Nat.or_lt_two_pow hperm (by norm_num [PTE_V])

omit [Layout] in
theorem frame_pageEntryOf (hn : n < 2 ^ 44) (hperm : perm < 2 ^ 10) :
    frame (pageEntryOf n perm) = n := by
  rw [pageEntryOf, frame_PA2PTE (page_lt hn) (perm_lt hperm), mul_PGSIZE_div]

omit [Layout] in
theorem testBit_pageEntryOf {i : ℕ} (hi : i < 10) :
    (pageEntryOf n perm).testBit i = (perm.testBit i || decide (i = 0)) := by
  rw [pageEntryOf, testBit_PA2PTE _ _ hi, Nat.testBit_or]
  congr 1
  rw [PTE_V, Nat.testBit_two_pow]
  exact decide_eq_decide.2 eq_comm

end

/-- `mappages` of one page. -/
theorem mappages_page {refs : ℕ → ℕ} {perm : ℕ} (h : Tables F refs s) (hr : r ∈ F.roots)
    (hv : v < VPAGES) (h0 : F.pte r v = 0) (hn : n < 2 ^ 44) (hperm : perm < 2 ^ 10) :
    wp E (mappages (r * PGSIZE) (v * PGSIZE) PGSIZE (n * PGSIZE) perm) (fun ret t =>
      ∃ F' refs', Grown r F refs s F' refs' t ∧
        (∀ r' v', v' < VPAGES → (r', v') ≠ (r, v) → F'.pte r' v' = F.pte r' v') ∧
        ((ret = 0 ∧ t.denied = s.denied ∧ F'.pte r v = pageEntryOf n perm) ∨
          (ret = -1 ∧ t.denied = true ∧ F'.pte r v = 0))) s := by
  have hlt : v * PGSIZE < MAXVA := by
    rw [← page_lt_iff, mul_PGSIZE_div]
    exact hv
  have hturns : mapTurns (v * PGSIZE) PGSIZE = 1 := by
    rw [mapTurns_eq hlt, mul_PGSIZE_div]
    rw [VPAGES_eq] at hv
    simp only [PGSIZE]
    omega
  refine wp_mono (mappages_spec h hr hlt (hperm.trans (by norm_num))
    (fun h0 => absurd h0 PGSIZE_pos.ne') ?_ ?_) fun ret t ht => ?_
  · rw [hturns, mul_PGSIZE_div]
    intro hgt
    omega
  · rw [hturns, mul_PGSIZE_div]
    intro j hj hV
    obtain rfl : j = 0 := by omega
    rw [Nat.add_zero, h0] at hV
    exact absurd hV (by decide)
  · rw [hturns] at ht
    obtain ⟨rfl, hd, _, F', refs', hg, hpte⟩ | ⟨rfl, hd, j, hj, _, F', refs', hg, hpte⟩ := ht
    · rw [mul_PGSIZE_div] at hpte
      refine ⟨F', refs', hg, fun r' v' hv' hne => ?_, .inl ⟨rfl, hd, ?_⟩⟩
      · rw [hpte r' v' hv', if_neg]
        rintro ⟨rfl, h₁, h₂⟩
        obtain rfl : v' = v := by omega
        exact hne rfl
      · rw [hpte r v hv, if_pos ⟨rfl, by omega, by omega⟩, Nat.sub_self, mapEntry_page hn]
    · obtain rfl : j = 0 := by omega
      have hsame : ∀ r' v', v' < VPAGES → F'.pte r' v' = F.pte r' v' := fun r' v' hv' => by
        rw [hpte r' v' hv', if_neg (by omega)]
      exact ⟨F', refs', hg, fun r' v' hv' _ => hsame r' v' hv', .inr ⟨rfl, hd, (hsame r v hv).trans h0⟩⟩

/-! ## `uvmalloc` -/

/-- A fresh page of zeros, number `n`, is mapped at the virtual page `v`. -/
structure NewPage (r v n perm : ℕ) (F : Forest ℕ) (kern : ℕ → ℕ) (s : Mach) (F' : Forest ℕ)
    (t : Mach) : Prop where
  vm : Vm F' kern t
  saved : Saved F kern s F' kern t
  roots : F'.roots = F.roots
  tab : ∀ n, F.Tab n → F'.Tab n
  node : ∀ r' π, r' ≠ r → F'.node (r', π) = F.node (r', π)
  pte : F'.pte r v = pageEntryOf n perm
  other : ∀ r' v', v' < VPAGES → (r', v') ≠ (r, v) → F'.pte r' v' = F.pte r' v'
  lt : n < 2 ^ 44
  fresh : owners F kern n = 0
  zero : ∀ x, x / PGSIZE = n → t.mem x = 0
  denied : t.denied = s.denied

/-- Memory ran out, and the pages from `k₀` up to `k` were given back. -/
def RanOut (r k₀ k : ℕ) (F : Forest ℕ) (kern : ℕ → ℕ) (s t : Mach) : Prop :=
  t.denied = true ∧ ∃ F₁ u F', Saved F kern s F₁ kern u ∧ Dropped F₁ kern u F' kern t ∧
    Vm F' kern t ∧ F'.roots = F.roots ∧ (∀ n, F.Tab n → F'.Tab n) ∧
    (∀ r' π, r' ≠ r → F'.node (r', π) = F.node (r', π)) ∧ ∀ r' v', v' < VPAGES →
      F'.pte r' v' = if r' = r ∧ k₀ ≤ v' ∧ v' < k then 0 else F.pte r' v'

/-- A page in hand is mapped. -/
theorem Vm.newPage {u : Mach} {F' : Forest ℕ} {perm : ℕ} (h : Vm F kern s) (hr : r ∈ F.roots)
    (hv : v < UPAGES) (h0 : F.pte r v = 0) (hk : Kalloced (owners F kern) s t n)
    (hperm : perm < 2 ^ 8) (hR : perm.testBit 1 = true)
    (hg : Grown r F (owners F (update kern n 1)) { t with mem := fill t.mem (n * PGSIZE) 0 } F'
      refs' u)
    (hother : ∀ r' v', v' < VPAGES → (r', v') ≠ (r, v) → F'.pte r' v' = F.pte r' v')
    (hpte : F'.pte r v = pageEntryOf n perm) (hd : u.denied = t.denied) :
    NewPage r v n perm F kern s F' u := by
  have hlt := hk.managed.lt
  obtain ⟨hntab, hk0, hm0⟩ := owners_eq_zero.1 hk.free
  have hfill : ∀ x, x / PGSIZE ≠ n → fill t.mem (n * PGSIZE) 0 x = t.mem x := fun x hx =>
    fill_of_ne hx
  have hvm := (h.hold hk).write hntab hfill
  have hframe : frame (pageEntryOf n perm) = n := frame_pageEntryOf hlt (by omega)
  have hback : update (update kern n 1) n 0 = kern := by
    rw [update_idem, ← hk0, update_eq_self]
  have hmapped := hvm.mapped hg hr hv h0 hpte (fun r' _ v' hv' hne => hother r' v'
    (hv'.trans_le UPAGES_le) hne) (by rw [testBit_pageEntryOf (by norm_num)]; simp)
    (by rw [testBit_pageEntryOf (by norm_num), hR]; rfl)
    (fun _ => by rw [testBit_pageEntryOf (by norm_num), Nat.testBit_lt_two_pow hperm]; rfl)
    (by rw [hframe, update_self])
    (by rw [hframe, owners_update, update_self, hk.free, hk0])
  rw [hframe, hback] at hmapped
  have hmaps : ∀ m, kern m + F'.maps m = update kern n 1 m + F.maps m := by
    intro m
    have hchange := Forest.maps_change (n := m) hg.roots hr hv fun r' _ v' hv' hne =>
      hother r' v' (hv'.trans_le UPAGES_le) hne
    rw [h0, hits_zero, hpte] at hchange
    by_cases hm : m = n
    · subst hm
      have hhit : hits (pageEntryOf m perm) m = 1 := by
        have hne : pageEntryOf m perm ≠ 0 := ne_zero_of_testBit (k := 0) (by
          rw [testBit_pageEntryOf (by norm_num)]
          simp)
        have := hits_frame hne
        rwa [hframe] at this
      rw [update_self]
      omega
    · have hmiss : hits (pageEntryOf n perm) m = 0 := hits_of_ne (by
        rw [hframe]
        exact fun heq => hm heq.symm)
      rw [update_of_ne hm]
      omega
  have hsaved : Saved F kern s F' kern u := (hk.saved hfill).trans (hg.saved hmaps)
  refine ⟨hmapped, hsaved, hg.roots, fun _ => hg.tab, hg.other, hpte, hother, hlt, hk.free, fun x hx => ?_, hd.trans hk.denied⟩
  have hntab' : ¬F'.Tab n := by
    intro htab
    have hfresh := (hg.fresh n htab hntab).1
    rw [owners_update, update_self] at hfresh
    omega
  rw [hg.mem x (hx ▸ hntab')]
  exact (fill_apply ..).trans (if_pos hx)

/-- One turn of the loop of `uvmalloc`. -/
theorem uvmallocPage_spec {k₀ xperm : ℕ} (h : Vm F kern s) (hr : r ∈ F.roots) (hs : F.Sized r k)
    (hperm : xperm < 2 ^ 8) :
    wp E (uvmallocPage (r * PGSIZE) (k₀ * PGSIZE) xperm (k * PGSIZE)) (fun o t => match o with
      | none => ∃ F' n, NewPage r k n (PTE_R ||| PTE_U ||| xperm) F kern s F' t
      | some ret => ret = 0 ∧ RanOut r k₀ k F kern s t) s := by
  have hsmall := h.sized_le hr hs
  have hU := UPAGES_eq
  have hle := UPAGES_le
  have hku : k < UPAGES := by omega
  have h0 : F.pte r k = 0 := by
    by_contra hne
    exact absurd ((hs k hku).1 hne) (lt_irrefl k)
  have hperm' : PTE_R ||| PTE_U ||| xperm < 2 ^ 8 :=
    Nat.or_lt_two_pow (by decide) hperm
  have hR : (PTE_R ||| PTE_U ||| xperm).testBit 1 = true := by
    rw [Nat.testBit_or, show (PTE_R ||| PTE_U).testBit 1 = true from by decide, Bool.true_or]
  -- the way out, once memory has run out
  have hout : ∀ {F₁ : Forest ℕ} {u : Mach}, Vm F₁ kern u → Saved F kern s F₁ kern u →
      F₁.roots = F.roots → (∀ n, F.Tab n → F₁.Tab n) →
      (∀ r' π, r' ≠ r → F₁.node (r', π) = F.node (r', π)) →
      (∀ r' v', v' < VPAGES → F₁.pte r' v' = F.pte r' v') → u.denied = true →
      wp E (uvmdealloc (r * PGSIZE) (k * PGSIZE) (k₀ * PGSIZE))
        (fun _ t => RanOut r k₀ k F kern s t) u := by
    intro F₁ u hvm hsaved hroots htab hnode hpte hden
    have hs₁ : F₁.Sized r (pages (k * PGSIZE)) := by
      rw [pages_mul]
      exact hs.congr fun v hv => hpte r v (hv.trans_le hle)
    refine wp_mono (uvmdealloc_spec hvm (hroots.symm ▸ hr) hs₁) ?_
    rintro _ t ⟨_, hvm', hdrop, _, hd⟩
    refine ⟨hd.trans hden, F₁, u, _, hsaved, hdrop, hvm',
      Forest.roots_setPtes.trans hroots, fun n hn => Forest.tab_setPtes.2 (htab n hn),
      fun r' π hr' => by rw [Forest.node_setPtes, hnode r' π hr'], fun r' v' hv' => ?_⟩
    rw [pages_mul, pages_mul]
    by_cases hlt : k₀ ≤ k
    · rw [Forest.pte_setPtes (by omega) hv', hpte r' v' hv', Nat.add_sub_cancel' hlt]
    · rw [Nat.sub_eq_zero_of_le (not_le.1 hlt).le, Forest.setPtes, hpte r' v' hv',
        if_neg (by omega)]
  unfold uvmallocPage
  refine wp_seq h.kalloc_spec fun o t ht => ?_
  cases o with
  | none =>
    obtain ⟨hden, hvm⟩ := ht
    refine wp_seq (hout hvm (fun n hn => ⟨hn, fun htab => ⟨htab, fun x _ => by rw [hden.mem]⟩⟩)
      rfl (fun _ h => h) (fun _ _ _ => rfl) (fun _ _ _ => rfl) hden.denied) fun _ u hu => ⟨rfl, hu⟩
  | some pa =>
    obtain ⟨n, rfl, hk, hvm⟩ := ht
    obtain ⟨hntab, hk0, -⟩ := owners_eq_zero.1 hk.free
    have hfill : ∀ x, x / PGSIZE ≠ n → fill t.mem (n * PGSIZE) 0 x = t.mem x := fun x hx =>
      fill_of_ne hx
    have hvm' := hvm.write hntab hfill
    rw [wp_bind, wp_memset]
    refine wp_seq (mappages_page hvm'.tables hr (by omega) h0 hk.managed.lt (by omega))
      ?_
    rintro ret u ⟨F', refs', hg, hother, hret⟩
    obtain ⟨rfl, hd, hpte⟩ | ⟨rfl, hd, hpte⟩ := hret
    · rw [wp_ite]
      refine ⟨fun hne => absurd rfl hne, fun _ => ?_⟩
      have hnew := h.newPage hr hku h0 hk hperm' hR hg hother hpte hd
      exact ⟨F', n, hnew.vm.congr (fun _ _ => rfl) rfl rfl, hnew.saved, hnew.roots, hnew.tab,
        hnew.node, hnew.pte, hnew.other, hnew.lt, hnew.fresh, hnew.zero, hnew.denied⟩
    · rw [wp_ite]
      refine ⟨fun _ => ?_, fun hne => absurd (by norm_num) hne⟩
      have hsame : ∀ r' v', v' < VPAGES → F'.pte r' v' = F.pte r' v' := by
        intro r' v' hv'
        by_cases heq : (r', v') = (r, k)
        · obtain ⟨rfl, rfl⟩ := Prod.mk.inj heq
          rw [hpte, h0]
        · exact hother r' v' hv' heq
      have hmaps : ∀ m, update kern n 1 m + F'.maps m = update kern n 1 m + F.maps m := fun m => by
        rw [Forest.maps_congr hg.roots fun r' _ v' hv' => hsame r' v' (hv'.trans_le hle)]
      have hvm₁ : Vm F' (update kern n 1) u :=
        hvm'.grown hg fun r' _ v' hv' => hsame r' v' (hv'.trans_le hle)
      have hsaved : Saved F kern s F' (update kern n 1) u :=
        (hk.saved hfill).trans (hg.saved hmaps)
      have hntab' : ¬F'.Tab n := by
        intro htab
        have hfresh := (hg.fresh n htab hntab).1
        rw [owners_update, update_self] at hfresh
        omega
      have hback : update (update kern n 1) n (update kern n 1 n - 1) = kern := by
        rw [update_idem, update_self, Nat.sub_self, ← hk0, update_eq_self]
      have hpos : 0 < update kern n 1 n := by
        rw [update_self]
        norm_num
      refine wp_seq (hvm₁.kfree_spec hpos hntab') ?_
      rintro _ u' ⟨hvm₂, hfree⟩
      have hdrop := hfree.dropped hpos hntab'
      rw [hback] at hvm₂ hdrop
      have hmono : ∀ m, owners F kern m ≠ 0 → owners F' kern m ≠ 0 := by
        intro m hm hm'
        obtain ⟨h₁, h₂, h₃⟩ := owners_eq_zero.1 hm'
        refine hm (owners_eq_zero.2 ⟨fun htab => h₁ (hg.tab htab), h₂, ?_⟩)
        have := hmaps m
        omega
      refine wp_seq (hout hvm₂ (hsaved.dropped hdrop hmono) hg.roots (fun _ => hg.tab) hg.other hsame
        (hfree.denied.trans hd)) fun _ u'' hu => ⟨rfl, hu⟩

/-- The pages from `k` up to `k'` are new, and all zeros. -/
structure Grew (r k k' perm : ℕ) (F : Forest ℕ) (kern : ℕ → ℕ) (s : Mach) (F' : Forest ℕ)
    (t : Mach) : Prop where
  vm : Vm F' kern t
  saved : Saved F kern s F' kern t
  roots : F'.roots = F.roots
  tab : ∀ n, F.Tab n → F'.Tab n
  node : ∀ r' π, r' ≠ r → F'.node (r', π) = F.node (r', π)
  page : ∀ v, k ≤ v → v < k' → ∃ n, F'.pte r v = pageEntryOf n perm ∧ n < 2 ^ 44 ∧
    owners F kern n = 0 ∧ ∀ x, x / PGSIZE = n → t.mem x = 0
  other : ∀ r' v', v' < VPAGES → ¬(r' = r ∧ k ≤ v' ∧ v' < k') → F'.pte r' v' = F.pte r' v'
  denied : t.denied = s.denied

namespace Grew

variable {k' perm : ℕ} {F'' : Forest ℕ} {u : Mach}

theorem refl (h : Vm F kern s) : Grew r k k perm F kern s F s :=
  ⟨h, .refl, rfl, fun _ h => h, fun _ _ _ => rfl, fun v hv hv' => by omega, fun _ _ _ _ => rfl, rfl⟩

theorem sized (h : Grew r k k' perm F kern s F' t) (hs : F.Sized r k) (hk : k ≤ k') :
    F'.Sized r k' := by
  have hV := UPAGES_le
  intro v hv
  by_cases hin : k ≤ v ∧ v < k'
  · obtain ⟨n, hn, -⟩ := h.page v hin.1 hin.2
    have hne : F'.pte r v ≠ 0 := by
      rw [hn]
      refine ne_zero_of_testBit (k := 0) ?_
      rw [testBit_pageEntryOf (by norm_num)]
      simp
    exact iff_of_true hne hin.2
  · rw [h.other r v (by omega) fun h => hin h.2, hs v hv]
    omega

/-- One more page. -/
theorem snoc (h : Grew r k k' perm F kern s F' t) (hr : r ∈ F.roots) (hk : k ≤ k')
    (hlt : k' < UPAGES) (hperm : perm < 2 ^ 10) (hnew : NewPage r k' n perm F' kern t F'' u) :
    Grew r k (k' + 1) perm F kern s F'' u := by
  have hV := UPAGES_le
  refine ⟨hnew.vm, h.saved.trans hnew.saved, hnew.roots.trans h.roots,
    fun n hn => hnew.tab n (h.tab n hn),
    fun r' π hr' => (hnew.node r' π hr').trans (h.node r' π hr'), fun v hv hv' => ?_,
    fun r' v' hv' hne => ?_,
    hnew.denied.trans h.denied⟩
  · by_cases hvk : v = k'
    · subst hvk
      refine ⟨n, hnew.pte, hnew.lt, ?_, hnew.zero⟩
      by_contra hown
      exact (h.saved n hown).1 hnew.fresh
    · obtain ⟨m, hpte, hm, hfresh, hzero⟩ := h.page v hv (by omega)
      refine ⟨m, ?_, hm, hfresh, fun x hx => ?_⟩
      · rw [hnew.other r v (by omega) fun heq => hvk (Prod.mk.inj heq).2, hpte]
      · -- the page is mapped, so it keeps its zeros
        have hne : F'.pte r v ≠ 0 := by
          rw [hpte]
          refine ne_zero_of_testBit (k := 0) ?_
          rw [testBit_pageEntryOf (by norm_num)]
          simp
        have hr' : r ∈ F'.roots := h.roots.symm ▸ hr
        have hl := h.vm.leaf r hr' v (by omega) hne
        have hpos := Forest.maps_pos hr' (show v < UPAGES by omega) hne
        have hxf : x / PGSIZE = frame (F'.pte r v) := by
          rw [hpte, frame_pageEntryOf hm hperm, hx]
        have hsaved := (hnew.saved _ (by rw [hl.owners_eq]; omega)).2 hl.not_tab
        rw [hsaved.2 x hxf, hzero x hx]
  · rw [hnew.other r' v' hv' fun heq => hne ?_, h.other r' v' hv' fun hin => hne ?_]
    · exact ⟨hin.1, hin.2.1, by omega⟩
    · obtain ⟨rfl, rfl⟩ := Prod.mk.inj heq
      exact ⟨rfl, hk, by omega⟩

end Grew

/-- What `uvmalloc` leaves when memory runs out : all entries are as they were. -/
structure Unchanged (r : ℕ) (F : Forest ℕ) (kern : ℕ → ℕ) (s : Mach) (F' : Forest ℕ) (t : Mach) :
    Prop where
  vm : Vm F' kern t
  saved : Saved F kern s F' kern t
  roots : F'.roots = F.roots
  tab : ∀ n, F.Tab n → F'.Tab n
  node : ∀ r' π, r' ≠ r → F'.node (r', π) = F.node (r', π)
  pte : ∀ r' v, v < VPAGES → F'.pte r' v = F.pte r' v

theorem RanOut.unchanged {k' perm : ℕ} {u : Mach} (hg : Grew r k k' perm F kern s F' t)
    (hs : F.Sized r k) (hle : k' ≤ UPAGES) (h : RanOut r k k' F' kern t u) :
    u.denied = true ∧ ∃ F'', Unchanged r F kern s F'' u := by
  have hV := UPAGES_le
  obtain ⟨hd, F₁, w, F'', hsaved, hdrop, hvm, hroots, htab, hnode, hpte⟩ := h
  have hsame : ∀ r' v', v' < VPAGES → F''.pte r' v' = F.pte r' v' := by
    intro r' v' hv'
    rw [hpte r' v' hv']
    split_ifs with hin
    · obtain ⟨rfl, h₁, h₂⟩ := hin
      by_contra hne
      exact absurd ((hs v' (by omega)).1 fun h0 => hne h0.symm) (by omega)
    · exact hg.other r' v' hv' hin
  refine ⟨hd, F'', hvm, (hg.saved.trans hsaved).dropped hdrop fun n hn hn' => ?_,
    hroots.trans hg.roots, fun n hn => htab n (hg.tab n hn),
    fun r' π hr' => (hnode r' π hr').trans (hg.node r' π hr'), hsame⟩
  obtain ⟨h₁, h₂, h₃⟩ := owners_eq_zero.1 hn'
  refine hn (owners_eq_zero.2 ⟨fun hn => h₁ (htab n (hg.tab n hn)), h₂, ?_⟩)
  rw [← h₃]
  exact (Forest.maps_congr (hroots.trans hg.roots) fun r' _ v' hv' =>
    hsame r' v' (by omega)).symm

/-- `uvmalloc` maps fresh pages behind the others, or leaves everything as it was. -/
theorem uvmalloc_spec {oldsz newsz xperm : ℕ} (h : Vm F kern s) (hr : r ∈ F.roots)
    (hs : F.Sized r (pages oldsz)) (hperm : xperm < 2 ^ 8) :
    wp E (uvmalloc (r * PGSIZE) oldsz newsz xperm) (fun ret t =>
      (newsz < oldsz ∧ ret = oldsz ∧ t = s) ∨
      (oldsz ≤ newsz ∧ ret = newsz ∧ ∃ F',
        Grew r (pages oldsz) (pages newsz) (PTE_R ||| PTE_U ||| xperm) F kern s F' t) ∨
      (oldsz ≤ newsz ∧ ret = 0 ∧ t.denied = true ∧ ∃ F', Unchanged r F kern s F' t)) s := by
  have hsmall := h.sized_le hr hs
  have hU := UPAGES_eq
  have hold : oldsz < 2 ^ 63 := by
    unfold pages at hsmall
    omega
  have hperm' : PTE_R ||| PTE_U ||| xperm < 2 ^ 8 :=
    Nat.or_lt_two_pow (by decide) hperm
  unfold uvmalloc
  rw [wp_ite]
  refine ⟨fun hlt => .inl ⟨hlt, rfl, rfl⟩, fun hge => ?_⟩
  rw [not_lt] at hge
  have hpages := pages_mono hge
  have hturns : (newsz - pages oldsz * PGSIZE + (PGSIZE - 1)) / PGSIZE =
      pages newsz - pages oldsz := by
    simp only [PGSIZE, pages] at hpages ⊢
    omega
  rw [PGROUNDUP_pages hold]
  dsimp only
  rw [hturns, wp_bind]
  refine wp_mono (wp_forReturn
    (fun i t => ∃ F', Grew r (pages oldsz) (pages oldsz + i) (PTE_R ||| PTE_U ||| xperm) F kern s
      F' t)
    (fun ret t => ret = 0 ∧ t.denied = true ∧ ∃ F', Unchanged r F kern s F' t)
    (pages newsz - pages oldsz) 0 ⟨F, .refl h⟩ ?_) fun o t ho => ?_
  · rintro i t _ hi ⟨F', hg⟩
    have hs' := hg.sized hs (Nat.le_add_right _ i)
    have hr' : r ∈ F'.roots := hg.roots.symm ▸ hr
    have hsmall' := hg.vm.sized_le hr' hs'
    rw [← Nat.add_mul]
    refine wp_mono (uvmallocPage_spec hg.vm hr' hs' hperm) fun o u ho => ?_
    cases o with
    | none =>
      obtain ⟨F'', n, hnew⟩ := ho
      exact ⟨F'', hg.snoc hr (Nat.le_add_right _ i) (by omega) (by omega) hnew⟩
    | some ret =>
      obtain ⟨rfl, hout⟩ := ho
      exact ⟨rfl, hout.unchanged hg hs (by omega)⟩
  · cases o with
    | none =>
      rw [Nat.zero_add] at ho
      obtain ⟨F', hg⟩ := ho
      rw [Nat.add_sub_cancel' hpages] at hg
      exact .inr (.inl ⟨hge, rfl, F', hg⟩)
    | some ret =>
      obtain ⟨rfl, hd, hF⟩ := ho
      exact .inr (.inr ⟨hge, rfl, hd, hF⟩)

/-- `uvmfirst` maps a page with the bytes of `src`, if there is memory. -/
theorem uvmfirst_spec {src : List Byte} (h : Vm F kern s) (hr : r ∈ F.roots) (h0 : F.pte r 0 = 0)
    (hsrc : src.length < PGSIZE) :
    wp (fun e => e = "kerneltrap") (uvmfirst (r * PGSIZE) src) (fun _ t => t.denied = true ∨
      ∃ F' n u o, NewPage r 0 n (PTE_W ||| PTE_R ||| PTE_X ||| PTE_U) F kern s F' u ∧
        t = { u with mem := store u.mem (n * PGSIZE) src, origin := o }) s := by
  have hU := UPAGES_eq
  have hUV := UPAGES_le
  unfold uvmfirst
  rw [panicIf_false (not_le.2 hsrc), pure_bind]
  refine wp_seq h.kalloc_spec fun o t ht => ?_
  cases o with
  | none => exact rfl
  | some pa =>
    obtain ⟨n, rfl, hk, hvm⟩ := ht
    have hvm' := hvm.write (owners_eq_zero.1 hk.free).1 fun x hx => fill_of_ne (m := t.mem) (c := 0) hx
    rw [wp_bind, wp_memset, ← Nat.zero_mul PGSIZE]
    refine wp_seq (mappages_page hvm'.tables hr (by omega) h0 hk.managed.lt (by decide))
      fun ret u ⟨F', refs', hg, hother, hret⟩ => ?_
    unfold mark
    rw [wp_bind, wp_modify, wp_memmove]
    obtain ⟨-, hd, hpte⟩ | ⟨-, hd, -⟩ := hret
    · exact .inr ⟨F', n, u, _, h.newPage hr (by omega) h0 hk (by decide) (by decide) hg hother hpte
        hd, rfl⟩
    · exact .inl hd

/-! ## `freewalk` -/

omit [Layout] in
/-- A link is no leaf. -/
theorem link_not_leaf (q : ℕ) : sv39.link q &&& (PTE_R ||| PTE_W ||| PTE_X) = 0 := by
  refine Nat.eq_of_testBit_eq fun i => ?_
  rw [Nat.testBit_and, Nat.zero_testBit]
  by_cases hi : i < 10
  · rw [show sv39.link q = PA2PTE (q * PGSIZE) ||| PTE_V from rfl, testBit_PA2PTE _ _ hi]
    interval_cases i <;> rfl
  · have hlt : PTE_R ||| PTE_W ||| PTE_X < 2 ^ i :=
      Nat.lt_of_lt_of_le (by decide : PTE_R ||| PTE_W ||| PTE_X < 2 ^ 10)
        (Nat.pow_le_pow_right (by norm_num) (not_lt.1 hi))
    rw [Nat.testBit_lt_two_pow hlt, Bool.and_false]

/-- The pages of `T` have been given back. -/
structure Freed (T : Set ℕ) (refs : ℕ → ℕ) (s : Mach) (refs' : ℕ → ℕ) (t : Mach) : Prop where
  alloc : Alloc refs' t
  gone : ∀ n ∈ T, refs' n = 0
  refs_eq : ∀ n, n ∉ T → refs' n = refs n
  mem : ∀ x, x / PGSIZE ∉ T → t.mem x = s.mem x
  length : s.freelist.length ≤ t.freelist.length
  denied : t.denied = s.denied

/-- The memory `m'`, with the bytes of `m` in page `p`. -/
def keepPage (p : ℕ) (m m' : Mem) : Mem :=
  fun x => if x / PGSIZE = p then m x else m' x

/-- The trees below the first `i` entries of the table in page `p` have been given back. -/
structure Walked (p : ℕ) (sub : ℕ → Set ℕ) (refs : ℕ → ℕ) (s : Mach) (i : ℕ) (refs' : ℕ → ℕ)
    (t : Mach) : Prop where
  freed : Freed {n | ∃ j < i, n ∈ sub j} refs s refs' { t with mem := keepPage p s.mem t.mem }
  entry : ∀ j, i ≤ j → j < 512 → entry t.mem p j = entry s.mem p j

namespace Walked

variable {p i : ℕ} {sub : ℕ → Set ℕ} {refs refs'' : ℕ → ℕ} {u : Mach}

theorem zero (h : Alloc refs s) : Walked p sub refs s 0 refs s := by
  refine ⟨⟨h.congr (fun _ => rfl) rfl rfl, by simp, fun _ _ => rfl, fun x _ => ?_, le_rfl, rfl⟩,
    fun _ _ _ => rfl⟩
  show keepPage p s.mem s.mem x = s.mem x
  unfold keepPage
  split_ifs <;> rfl

theorem mem (h : Walked p sub refs s i refs' t) {x : ℕ} (hx : x / PGSIZE ≠ p)
    (hx' : ∀ j < i, x / PGSIZE ∉ sub j) : t.mem x = s.mem x :=
  (if_neg hx).symm.trans (h.freed.mem x fun ⟨j, hj, hj'⟩ => hx' j hj hj')

/-- The next entry is empty. -/
theorem skip (h : Walked p sub refs s i refs' t) (hempty : sub i = ∅) :
    Walked p sub refs s (i + 1) refs' t := by
  have hset : {n | ∃ j < i + 1, n ∈ sub j} = {n | ∃ j < i, n ∈ sub j} := by
    ext n
    constructor
    · rintro ⟨j, hj, hn⟩
      rcases Nat.lt_succ_iff_lt_or_eq.1 hj with hj | rfl
      · exact ⟨j, hj, hn⟩
      · rw [hempty] at hn
        exact hn.elim
    · exact fun ⟨j, hj, hn⟩ => ⟨j, by omega, hn⟩
  exact ⟨hset ▸ h.freed, fun j hj => h.entry j (by omega)⟩

/-- The next tree has been given back, and its entry cleared. -/
theorem step (h : Walked p sub refs s i refs' t) (hi : i < 512) (hp : p ∉ sub i)
    (hu : Freed (sub i) refs' t refs'' u) : Walked p sub refs s (i + 1) refs''
      { u with mem := put u.mem (p * PGSIZE + 8 * i) 8 0 } := by
  refine ⟨⟨hu.alloc.congr (fun _ => rfl) rfl rfl, ?_, fun n hn => ?_, fun x hx => ?_,
    h.freed.length.trans hu.length, hu.denied.trans h.freed.denied⟩, fun j hj hj' => ?_⟩
  · rintro n ⟨j, hj, hn⟩
    by_cases hni : n ∈ sub i
    · exact hu.gone n hni
    · rcases Nat.lt_succ_iff_lt_or_eq.1 hj with hj | rfl
      · rw [hu.refs_eq n hni]
        exact h.freed.gone n ⟨j, hj, hn⟩
      · exact absurd hn hni
  · rw [hu.refs_eq n fun hni => hn ⟨i, by omega, hni⟩]
    exact h.freed.refs_eq n fun ⟨j, hj, hj'⟩ => hn ⟨j, by omega, hj'⟩
  · show keepPage p s.mem (put u.mem (p * PGSIZE + 8 * i) 8 0) x = s.mem x
    unfold keepPage
    split_ifs with hxp
    · rfl
    · rw [put_of_ne hi hxp, hu.mem x fun hxi => hx ⟨i, by omega, hxi⟩]
      exact h.mem hxp fun j hj hj' => hx ⟨j, by omega, hj'⟩
  · have hne : (p, j) ≠ (p, i) := fun heq => by
      have := (Prod.mk.inj heq).2
      omega
    show CowPbs.entry (put u.mem (p * PGSIZE + 8 * i) 8 0) p j = _
    rw [entry_put_of_ne hi hj' hne, ← h.entry j (by omega) hj']
    refine entry_congr hj' fun x hx => hu.mem x fun hxi => hp ?_
    rwa [hx] at hxi

end Walked

/-- `freewalk` gives the pages of a tree without leaves back, and touches no other page. -/
theorem freewalk_spec {levels : ℕ} : ∀ {p : ℕ} {T : Set ℕ} {refs : ℕ → ℕ} {s : Mach},
    Alloc refs s → EmptyTree sv39 (entry s.mem) levels p T → (∀ n ∈ T, refs n = 1) →
    wp E (freewalk levels (p * PGSIZE)) (fun _ t => ∃ refs', Freed T refs s refs' t) s := by
  -- Induction on the height of the tree.
  induction levels with
  | zero =>
    intro p T refs s _ ht
    exact ht.elim
  | succ levels ih =>
    intro p T refs s halloc ⟨sub, hT, hp, hdisj, hsub⟩ hone
    have hpT : p ∈ T := by
      rw [hT]
      exact .inl rfl
    have hsubT : ∀ i < 512, ∀ n ∈ sub i, n ∈ T := by
      intro i hi n hn
      rw [hT]
      exact .inr ⟨i, hi, hn⟩
    unfold freewalk
    refine wp_seq (wp_forRange (fun i t => ∃ refs', Walked p sub refs s i refs' t) 512 0
      ⟨refs, .zero halloc⟩ ?_) ?_
    · intro i t _ hi ⟨refs', hw⟩
      have hi : i < 512 := by omega
      have hentry := hw.entry i le_rfl hi
      rw [wp_bind, wp_ld, show Bytes.get t.mem (p * PGSIZE + 8 * i) 8 = entry t.mem p i from rfl,
        hentry]
      rcases hsub i hi with ⟨h0, hempty⟩ | ⟨q, hq, ht⟩
      · rw [h0, if_neg (by decide), panicIf_false (by decide)]
        exact ⟨refs', hw.skip hempty⟩
      · -- a table below
        have hnew : ∀ n ∈ sub i, ∀ j < i, n ∉ sub j := by
          intro n hn j hj hn'
          have := hdisj i hi j (show j < 512 by omega) n hn hn'
          omega
        have hnp : ∀ n ∈ sub i, n ≠ p := by
          rintro n hn rfl
          exact hp i hi hn
        have hrefs1 : ∀ n ∈ sub i, refs' n = 1 := by
          intro n hn
          rw [hw.freed.refs_eq n fun ⟨j, hj, hn'⟩ => hnew n hn j hj hn', hone n (hsubT i hi n hn)]
        have hqlt : q < 2 ^ 44 := by
          refine Managed.lt (hw.freed.alloc.owned q ?_)
          rw [hrefs1 q ht.root_mem]
          norm_num
        have ht' : EmptyTree sv39 (entry t.mem) levels q (sub i) := by
          refine ht.congr fun n hn j hj => entry_congr hj fun x hx => hw.mem ?_ ?_
          · rw [hx]
            exact hnp n hn
          · rw [hx]
            exact hnew n hn
        have halloc' : Alloc refs' t := hw.freed.alloc.congr (fun _ => rfl) rfl rfl
        rw [hq, if_pos (by rw [has_link, link_not_leaf]; rfl), PTE2PA_link hqlt]
        refine wp_seq (ih halloc' ht' hrefs1) fun _ u ⟨refs'', hu⟩ => ?_
        exact ⟨refs'', hw.step hi (hp i hi) hu⟩
    · -- all tables below are gone, and the page itself goes
      intro _ t ⟨refs', hw⟩
      rw [Nat.zero_add] at hw
      have hp1 : refs' p = 1 := by
        rw [hw.freed.refs_eq p fun ⟨j, hj, hn⟩ => hp j hj hn, hone p hpT]
      have halloc' : Alloc refs' t := hw.freed.alloc.congr (fun _ => rfl) rfl rfl
      refine wp_mono (kfree_spec halloc' (by rw [hp1]; norm_num)) fun _ u hk => ?_
      have hupd := hk.alloc
      rw [hp1] at hupd
      refine ⟨_, hupd, fun n hn => ?_, fun n hn => ?_, fun x hx => ?_,
        hw.freed.length.trans hk.freelist, hk.denied.trans hw.freed.denied⟩
      · by_cases hnp : n = p
        · rw [hnp, update_self]
        · rw [update_of_ne hnp]
          rw [hT] at hn
          exact hw.freed.gone n (hn.resolve_left hnp)
      · have hnp : n ≠ p := fun h => hn (h ▸ hpT)
        rw [update_of_ne hnp]
        exact hw.freed.refs_eq n fun ⟨j, hj, hj'⟩ => hn (hsubT j hj n hj')
      · have hxp : x / PGSIZE ≠ p := fun h => hx (h ▸ hpT)
        rw [hk.mem x fun h => absurd h hxp]
        exact hw.mem hxp fun j hj hj' => hx (hsubT j hj _ hj')

/-- A page table without entries has no leaves. -/
theorem Tables.leaf_eq_zero {refs : ℕ → ℕ} (h : Tables F refs s)
    (h0 : ∀ v < VPAGES, F.pte r v = 0) (π : List ℕ) (i : ℕ) (hπ : π.length = 2) (hi : i < 512) :
    F.leaf (r, i :: π) = 0 := by
  match π, hπ with
  | [j, k], _ =>
    by_cases hnone : F.node (r, [j, k]) = none
    · exact h.rep.empty r [j, k] i hnone rfl hi
    · have hj : j < 512 := by
        by_contra hj
        exact hnone (h.rep.index r j [k] (not_lt.1 hj))
      have hk : k < 256 := by
        by_contra hk
        exact hnone (h.rep.up r j [k] (h.low r k (not_lt.1 hk)))
      have hpath : path ((k * 512 + j) * 512 + i) = [i, j, k] := by
        unfold path
        congr 1
        · omega
        · congr 1
          · omega
          · congr 1
            omega
      have hpte := h0 ((k * 512 + j) * 512 + i) (by rw [VPAGES_eq]; omega)
      rwa [Forest.pte, hpath] at hpte

/-- The page table `r` is gone. -/
theorem Vm.delRoot (h : Vm F kern s) (h0 : ∀ v < VPAGES, F.pte r v = 0)
    (hf : Freed (F.below r []) (owners F kern) s refs' t) :
    Vm (F.delRoot r) kern t ∧ Dropped F kern s (F.delRoot r) kern t := by
  have hUV := UPAGES_le
  have hleaf0 := h.tables.leaf_eq_zero h0
  have hmaps : ∀ n, (F.delRoot r).maps n = F.maps n := fun n =>
    Forest.maps_delRoot fun v hv => h0 v (by omega)
  have hbelow : ∀ n, n ∈ F.below r [] → F.Tab n := fun n ⟨ρ, hρ⟩ => ⟨_, hρ⟩
  have htab : ∀ n, (F.delRoot r).Tab n ↔ F.Tab n ∧ n ∉ F.below r [] := by
    intro n
    constructor
    · rintro ⟨x, hx⟩
      simp only [Forest.delRoot] at hx
      split_ifs at hx with hxr
      refine ⟨⟨x, hx⟩, fun ⟨ρ, hρ⟩ => hxr ?_⟩
      rw [h.tables.rep.inj _ _ _ hx hρ]
    · rintro ⟨⟨x, hx⟩, hn⟩
      refine ⟨x, ?_⟩
      simp only [Forest.delRoot]
      rw [if_neg]
      · exact hx
      · rintro rfl
        exact hn ⟨x.2, by rwa [List.append_nil]⟩
  have hown : ∀ n, owners (F.delRoot r) kern n = refs' n := by
    intro n
    by_cases hn : n ∈ F.below r []
    · rw [hf.gone n hn, owners_of_not_tab fun h => ((htab n).1 h).2 hn, hmaps,
        h.excl n (hbelow n hn), h.maps_of_tab (hbelow n hn)]
    · rw [hf.refs_eq n hn]
      by_cases hT : F.Tab n
      · rw [owners_of_tab ((htab n).2 ⟨hT, hn⟩), owners_of_tab hT, hmaps]
      · rw [owners_of_not_tab fun h => hT ((htab n).1 h).1, owners_of_not_tab hT, hmaps]
  have hmem : ∀ n, n ∉ F.below r [] → ∀ x, x / PGSIZE = n → t.mem x = s.mem x :=
    fun n hn x hx => hf.mem x (hx ▸ hn)
  refine ⟨⟨⟨?_, hf.alloc.congr hown rfl rfl, fun n hn => ?_, fun r' i hi => ?_⟩,
    fun r' hr' v hv hne => ?_, fun n hn => h.excl n ((htab n).1 hn).1⟩, fun n hn => ⟨?_, fun hn' =>
    ⟨fun h => hn' ((htab n).1 h).1, hmem n fun hb => hn' (hbelow n hb)⟩⟩⟩
  · refine h.tables.rep.delRoot hleaf0 fun n i hn hnb hi => ?_
    exact entry_congr hi fun x hx => hmem n hnb x hx
  · rw [hown, hf.refs_eq n ((htab n).1 hn).2]
    exact h.tables.owned n ((htab n).1 hn).1
  · simp only [Forest.delRoot]
    split_ifs
    · rfl
    · exact h.tables.low r' i hi
  · have hl := h.leaf r' (Finset.mem_of_mem_erase hr') v hv hne
    exact hl.congr (fun h => ((htab _).1 h).1) rfl (hmaps _)
  · by_cases hb : n ∈ F.below r []
    · rw [hown, hf.gone n hb] at hn
      exact absurd rfl hn
    · rwa [hown, hf.refs_eq n hb] at hn

/-- `freewalk` on a page table without entries. -/
theorem Vm.freewalk_spec (h : Vm F kern s) (hr : r ∈ F.roots) (h0 : ∀ v < VPAGES, F.pte r v = 0) :
    wp E (freewalk 3 (r * PGSIZE)) (fun _ t => Vm (F.delRoot r) kern t ∧
      Dropped F kern s (F.delRoot r) kern t ∧ s.freelist.length ≤ t.freelist.length ∧
      t.denied = s.denied) s := by
  have htree := h.tables.rep.emptyTree (h.tables.leaf_eq_zero h0) 2 (h.tables.rep.root r hr) rfl
  have hone : ∀ n ∈ F.below r [], owners F kern n = 1 := fun n ⟨ρ, hρ⟩ => h.owners_tab ⟨_, hρ⟩
  refine wp_mono (CowPbs.freewalk_spec h.tables.alloc htree hone) fun _ t ⟨refs', hf⟩ => ?_
  obtain ⟨hvm, hdrop⟩ := h.delRoot h0 hf
  exact ⟨hvm, hdrop, hf.length, hf.denied⟩

/-! ## Other flags for an entry -/

theorem Tables.node_of_pte {refs : ℕ → ℕ} (h : Tables F refs s) (hne : F.pte r v ≠ 0) :
    ∃ p, F.node (r, tablePath v) = some p :=
  Option.ne_none_iff_exists'.1 fun hnone => hne (h.pte_eq_zero hnone)

/-- What `walk` finds for a page that is mapped. -/
theorem Tables.walk_mapped {refs : ℕ → ℕ} (h : Tables F refs s) (hr : r ∈ F.roots)
    (hv : v < VPAGES) (hne : F.pte r v ≠ 0) : ∃ p, F.node (r, tablePath v) = some p ∧
      walk (r * PGSIZE) (v * PGSIZE) false s = .ok (some (p * PGSIZE + 8 * (v % 512)), s) ∧
      Bytes.get s.mem (p * PGSIZE + 8 * (v % 512)) 8 = F.pte r v := by
  obtain ⟨p, hp⟩ := h.node_of_pte hne
  have hva : v * PGSIZE < MAXVA := by
    rw [← page_lt_iff, mul_PGSIZE_div]
    exact hv
  refine ⟨p, hp, ?_, h.entry_eq hp⟩
  rw [walk_false hva, h.pteAddr_eq hr, mul_PGSIZE_div, hp, Option.map_some]

/-- The same page with other flags. -/
theorem Vm.reflag {p e : ℕ} (h : Vm F kern s) (hr : r ∈ F.roots) (hv : v < UPAGES)
    (hp : F.node (r, tablePath v) = some p) (hne : F.pte r v ≠ 0) (hlt : e < 2 ^ 64)
    (hframe : frame e = frame (F.pte r v)) (hV : e.testBit 0 = true) (hR : e.testBit 1 = true)
    (hW : e.testBit 2 = true → e.testBit 8 = false)
    (hC : e.testBit 8 = false → (F.pte r v).testBit 8 = false) :
    Vm (F.setPte r v e) kern { s with mem := put s.mem (p * PGSIZE + 8 * (v % 512)) 8 e } ∧
      Saved F kern s (F.setPte r v e) kern
        { s with mem := put s.mem (p * PGSIZE + 8 * (v % 512)) 8 e } := by
  have hle := UPAGES_le
  have hg := h.tables.setPte hp hlt
  have hother : ∀ r' ∈ F.roots, ∀ v' < UPAGES, (r', v') ≠ (r, v) →
      (F.setPte r v e).pte r' v' = F.pte r' v' := fun r' _ v' hv' hne' =>
    Forest.pte_setPte_of_ne (by omega) (by omega) hne'
  have hmaps : ∀ n, (F.setPte r v e).maps n = F.maps n := by
    intro n
    have hchange : (F.setPte r v e).maps n + hits (F.pte r v) n =
        F.maps n + hits ((F.setPte r v e).pte r v) n := Forest.maps_change rfl hr hv hother
    have hhits : hits e n = hits (F.pte r v) n := by
      unfold hits
      rw [hframe]
      exact if_congr (and_congr_left fun _ => iff_of_true (ne_zero_of_testBit hV) hne) rfl rfl
    rw [Forest.pte_setPte_self, hhits] at hchange
    omega
  refine ⟨.of_tables hg.tables rfl (hg.owners_eq fun n => by rw [hmaps])
    (fun r' hr' v' hv' hne' => ?_) h.excl, hg.saved fun n => by rw [hmaps]⟩
  by_cases heq : (r', v') = (r, v)
  · obtain ⟨rfl, rfl⟩ := Prod.mk.inj heq
    rw [Forest.pte_setPte_self]
    have hl := h.leaf r' hr v' hv hne
    refine ⟨hV, hR, hframe ▸ hl.not_tab, hframe ▸ hl.not_kern, hW, fun hc => ?_⟩
    rw [hmaps, hframe]
    exact hl.once (hC hc)
  · rw [hother r' hr' v' hv' heq] at hne' ⊢
    exact (h.leaf r' hr' v' hv' hne').congr id rfl (hmaps _)

omit [Layout] in
theorem clear_lt (e b : ℕ) : clear e b < 2 ^ 64 :=
  Nat.lt_of_le_of_lt Nat.and_le_right (by omega)

theorem uvmclear_spec (h : Vm F kern s) (hr : r ∈ F.roots) (hv : v < UPAGES)
    (hne : F.pte r v ≠ 0) :
    wp E (uvmclear (r * PGSIZE) (v * PGSIZE)) (fun _ t =>
      Vm (F.setPte r v (clear (F.pte r v) PTE_U)) kern t ∧
      Saved F kern s (F.setPte r v (clear (F.pte r v) PTE_U)) kern t ∧
      t.denied = s.denied) s := by
  have hle := UPAGES_le
  obtain ⟨p, hp, hwalk, hentry⟩ := h.tables.walk_mapped hr (show v < VPAGES by omega) hne
  have hl := h.leaf r hr v hv hne
  have hbit : ∀ {k}, k < 10 → k ≠ 4 → (clear (F.pte r v) PTE_U).testBit k =
      (F.pte r v).testBit k := fun hk hk4 => by
    rw [PTE_U, testBit_clear _ (by norm_num) (by omega)]
    simp [hk4]
  have hframe : frame (clear (F.pte r v) PTE_U) = frame (F.pte r v) :=
    frame_clear (by norm_num [PTE_U])
  have hcow := hbit (k := 8) (by norm_num) (by norm_num)
  obtain ⟨hvm, hsaved⟩ := h.reflag hr hv hp hne (clear_lt _ PTE_U) hframe
    ((hbit (by norm_num) (by norm_num)).trans hl.valid)
    ((hbit (by norm_num) (by norm_num)).trans hl.readable)
    (fun hw => hcow.trans (hl.cow ((hbit (by norm_num) (by norm_num)).symm.trans hw)))
    fun hc => hcow.symm.trans hc
  unfold uvmclear
  rw [wp_bind, wp_of_eq hwalk]
  dsimp only
  rw [wp_bind, wp_ld, hentry, wp_sd]
  exact ⟨hvm, hsaved, rfl⟩

end

end CowPbs
