import Mathlib
import CowPbs.Uvm

/-!
# Address spaces

A process has a page table with its user memory at the bottom, its trapframe and the
trampoline at the top (`Space`). `proc_pagetable` makes one without user memory,
`proc_freepagetable` gives one back with all its pages, and `growproc` and `uvmclear` change
one. Each spec says what becomes of this page table and that the others stay (`SameBut`).
-/

set_option linter.unusedSectionVars false

open Function Prog Bytes Radix

namespace CowPbs

/-! ## The functions -/

section

variable [Layout]

/-- `proc_pagetable`, for a process with this trapframe. -/
def procPagetable (trapframe : ℕ) : K (Option ℕ) := do
  match ← uvmcreate with
  | none => return none
  | some pagetable =>
    let r ← mappages pagetable TRAMPOLINE PGSIZE Layout.trampoline (PTE_R ||| PTE_X)
    if r < 0 then
      uvmfree pagetable 0
      return none
    else
      let r ← mappages pagetable TRAPFRAME PGSIZE trapframe (PTE_R ||| PTE_W)
      if r < 0 then
        uvmunmap pagetable TRAMPOLINE 1 false
        uvmfree pagetable 0
        return none
      else return some pagetable

/-- `proc_freepagetable`. -/
def procFreepagetable (pagetable sz : ℕ) : K Unit := do
  uvmunmap pagetable TRAMPOLINE 1 false
  uvmunmap pagetable TRAPFRAME 1 false
  uvmfree pagetable sz

end

/-! ## The other page tables -/

/-- The page tables apart from `r` are the same. -/
structure SameBut (r : ℕ) (F F' : Forest ℕ) : Prop where
  node : ∀ r' π, r' ≠ r → F'.node (r', π) = F.node (r', π)
  pte : ∀ r' v, r' ≠ r → v < VPAGES → F'.pte r' v = F.pte r' v

namespace SameBut

variable {F F' F'' : Forest ℕ} {r v e n k : ℕ}

theorem refl : SameBut r F F :=
  ⟨fun _ _ _ => rfl, fun _ _ _ _ => rfl⟩

theorem trans (h : SameBut r F F') (h' : SameBut r F' F'') : SameBut r F F'' :=
  ⟨fun r' π hr => (h'.node r' π hr).trans (h.node r' π hr),
    fun r' v hr hv => (h'.pte r' v hr hv).trans (h.pte r' v hr hv)⟩

theorem setPte (hv : v < VPAGES) : SameBut r F (F.setPte r v e) :=
  ⟨fun _ _ _ => rfl, fun _ _ hr hv' => Forest.pte_setPte_of_ne hv hv' fun heq =>
    hr (Prod.mk.inj heq).1⟩

theorem setPtes {f : ℕ → ℕ} (hk : v + k ≤ VPAGES) : SameBut r F (F.setPtes r v f k) :=
  ⟨fun _ _ _ => by rw [Forest.node_setPtes], fun r' v' hr hv' => by
    rw [Forest.pte_setPtes hk hv', if_neg fun h => hr h.1]⟩

theorem addRoot : SameBut r F (F.addRoot r) :=
  ⟨fun _ _ hr => update_of_ne (fun heq => hr (Prod.mk.inj heq).1) .., fun _ _ _ _ => rfl⟩

theorem delRoot : SameBut r F (F.delRoot r) :=
  ⟨fun _ _ hr => if_neg hr, fun _ _ _ _ => rfl⟩

end SameBut

section

variable [Layout] {F F' : Forest ℕ} {kern kern' refs' : ℕ → ℕ} {s t : Mach} {r v k n tf sz : ℕ}
  {E : String → Prop}

theorem Grown.sameBut {refs : ℕ → ℕ} (h : Grown r F refs s F' refs' t) : SameBut r F F' :=
  ⟨h.other, fun _ v hr _ => h.pte hr v⟩

theorem Unchanged.sameBut (h : Unchanged r F kern s F' t) : SameBut r F F' :=
  ⟨h.node, fun r' v _ hv => h.pte r' v hv⟩

theorem Grew.sameBut {k' perm : ℕ} (h : Grew r k k' perm F kern s F' t) : SameBut r F F' :=
  ⟨h.node, fun r' v hr hv => h.other r' v hv fun hin => hr hin.1⟩

/-! ## An address space -/

/-- The page table `r` : `k` user pages, the trapframe in page `tf`, and the trampoline. -/
structure Space (F : Forest ℕ) (r k tf : ℕ) : Prop where
  root : r ∈ F.roots
  sized : F.Sized r k
  trapframe : F.pte r (VPAGES - 2) = pageEntryOf tf (PTE_R ||| PTE_W)
  trampoline : F.pte r (VPAGES - 1) = pageEntryOf (Layout.trampoline / PGSIZE) (PTE_R ||| PTE_X)

theorem trampoline_lt : Layout.trampoline / PGSIZE < 2 ^ 44 := by
  have h₁ := Layout.trampoline_lt
  have h₂ := Layout.kend_le
  rw [PHYSTOP_eq] at h₂
  simp only [PGSIZE]
  omega

theorem trampoline_mul : Layout.trampoline / PGSIZE * PGSIZE = Layout.trampoline :=
  Nat.div_mul_cancel (Nat.dvd_of_mod_eq_zero Layout.trampoline_mod)

omit [Layout] in
theorem TRAMPOLINE_eq : TRAMPOLINE = (VPAGES - 1) * PGSIZE := by
  decide

omit [Layout] in
theorem TRAPFRAME_eq : TRAPFRAME = (VPAGES - 2) * PGSIZE := by
  decide

omit [Layout] in
theorem owners_setPte_kernel {e : ℕ} (hv : UPAGES ≤ v) (hv' : v < VPAGES) (n : ℕ) :
    owners (F.setPte r v e) kern n = owners F kern n := by
  have hle := UPAGES_le
  have hmaps : ∀ n, (F.setPte r v e).maps n = F.maps n := fun n =>
    Forest.maps_congr rfl fun r' _ v' hv'' => Forest.pte_setPte_of_ne hv' (by omega) fun heq => by
      have := (Prod.mk.inj heq).2
      omega
  exact owners_congr (fun _ => Forest.tab_setPte) (fun n => by rw [hmaps]) n

/-- A page table for the kernel's use changes at an entry that is none of the user's. -/
theorem Vm.kernelPte (h : Vm F kern s) (hg : Grown r F (owners F kern) s F' refs' t)
    (hv : UPAGES ≤ v) (hother : ∀ r' v', v' < VPAGES → (r', v') ≠ (r, v) →
      F'.pte r' v' = F.pte r' v') :
    Vm F' kern t ∧ Saved F kern s F' kern t := by
  have hle := UPAGES_le
  have hpte : ∀ r' ∈ F.roots, ∀ v' < UPAGES, F'.pte r' v' = F.pte r' v' :=
    fun r' _ v' hv' => hother r' v' (by omega) fun heq => by
      have := (Prod.mk.inj heq).2
      omega
  exact ⟨h.grown hg hpte, hg.saved fun n => by rw [Forest.maps_congr hg.roots hpte]⟩

/-- `uvmunmap` of the trapframe or the trampoline. -/
theorem uvmunmap_kernel {perm : ℕ} (h : Vm F kern s) (hr : r ∈ F.roots) (hv : UPAGES ≤ v)
    (hv' : v < VPAGES) (he : F.pte r v = pageEntryOf n perm) (hR : perm.testBit 1 = true) :
    wp E (uvmunmap (r * PGSIZE) (v * PGSIZE) 1 false) (fun _ t =>
      Vm (F.setPte r v 0) kern t ∧ Dropped F kern s (F.setPte r v 0) kern t ∧
      s.freelist.length ≤ t.freelist.length ∧ t.denied = s.denied) s := by
  have hV := VPAGES_eq
  have hva : v * PGSIZE < MAXVA := by
    rw [← page_lt_iff, mul_PGSIZE_div]
    exact hv'
  have hend : v * PGSIZE + 1 * PGSIZE < 2 ^ 64 := by
    simp only [PGSIZE]
    omega
  have hturns := unmapTurns_eq hend
  refine wp_mono (uvmunmap_spec h.tables hr hva ?_ ?_ ?_ ?_ (by simp)) fun _ t hu => ?_
  · exact fun hal => absurd (Nat.mul_mod_left v PGSIZE) hal
  · rw [hturns, mul_PGSIZE_div]
    intro hlt
    omega
  · rw [hturns, mul_PGSIZE_div]
    intro j hj _ hV
    obtain rfl : j = 0 := by omega
    rw [Nat.add_zero, he, has_V, testBit_pageEntryOf (by norm_num)] at hV
    simp at hV
  · rw [hturns, mul_PGSIZE_div]
    intro j hj _ hflags
    obtain rfl : j = 0 := by omega
    have h1 := testBit_flags (F.pte r (v + 0)) (show 1 < 10 by norm_num)
    rw [hflags, Nat.add_zero, he, testBit_pageEntryOf (by norm_num), hR] at h1
    cases h1
  · obtain ⟨refs', hu⟩ := hu
    rw [hturns] at hu
    have hT := hu.tables
    have hmem := hu.mem
    have hrefs := hu.refs_eq
    rw [mul_PGSIZE_div] at hT
    have hpte : ∀ r' ∈ F.roots, ∀ v' < UPAGES, (F.setPte r v 0).pte r' v' = F.pte r' v' := by
      have hle := UPAGES_le
      exact fun r' _ v' hv'' => Forest.pte_setPte_of_ne hv' (by omega) fun heq => by
        have := (Prod.mk.inj heq).2
        omega
    have hmaps : ∀ n, (F.setPte r v 0).maps n = F.maps n := fun n => Forest.maps_congr rfl hpte
    have hown : ∀ n, owners (F.setPte r v 0) kern n = owners F kern n :=
      owners_setPte_kernel hv hv'
    have hrefs' : ∀ n, owners (F.setPte r v 0) kern n = refs' n := fun n => by
      rw [hown, hrefs]
      simp
    refine ⟨.of_tables hT rfl hrefs' (fun r' hr' v' hv'' hne => ?_) h.excl, fun n hn => ⟨?_,
      fun htab => ⟨htab, fun x hx => hmem x (hx ▸ htab) (by simp)⟩⟩, hu.length, hu.denied⟩
    · rw [hpte r' hr' v' hv''] at hne ⊢
      exact (h.leaf r' hr' v' hv'' hne).congr id rfl (hmaps _)
    · rwa [hown] at hn

/-! ## Giving an address space back -/

/-- The page table `r` is gone, and the others are as they were. -/
structure Removed (r : ℕ) (F : Forest ℕ) (kern : ℕ → ℕ) (s : Mach) (F' : Forest ℕ) (t : Mach) :
    Prop where
  vm : Vm F' kern t
  dropped : Dropped F kern s F' kern t
  roots : F'.roots = F.roots.erase r
  same : SameBut r F F'
  gone : ∀ π, F'.node (r, π) = none
  length : s.freelist.length ≤ t.freelist.length
  denied : t.denied = s.denied

theorem uvmfree_spec (h : Vm F kern s) (hr : r ∈ F.roots) (hs : F.Sized r (pages sz))
    (hk : ∀ v, UPAGES ≤ v → v < VPAGES → F.pte r v = 0) :
    wp E (uvmfree (r * PGSIZE) sz) (fun _ t => ∃ F', Removed r F kern s F' t) s := by
  have hU := UPAGES_eq
  have hV := VPAGES_eq
  have hsmall := h.sized_le hr hs
  -- the rest, once the user pages are gone
  have hrest : ∀ u, Vm (F.setPtes r 0 (fun _ => 0) (pages sz)) kern u →
      Dropped F kern s (F.setPtes r 0 (fun _ => 0) (pages sz)) kern u →
      s.freelist.length ≤ u.freelist.length → u.denied = s.denied →
      wp E (freewalk 3 (r * PGSIZE)) (fun _ t => ∃ F', Removed r F kern s F' t) u := by
    intro u hvm hdrop hlen hden
    refine wp_mono (hvm.freewalk_spec (by rwa [Forest.roots_setPtes]) fun v hv => ?_)
      fun _ t ⟨hvm', hdrop', hlen', hden'⟩ => ⟨_, hvm', hdrop.trans hdrop', ?_,
        (SameBut.setPtes (by omega)).trans .delRoot, fun π => if_pos rfl, hlen.trans hlen',
        hden'.trans hden⟩
    · rw [Forest.pte_setPtes (by omega) hv]
      split_ifs with hin
      · rfl
      · by_cases hvu : v < UPAGES
        · by_contra hne
          have := (hs v hvu).1 hne
          exact hin ⟨rfl, Nat.zero_le _, by omega⟩
        · exact hk v (not_lt.1 hvu) hv
    · show (F.setPtes r 0 (fun _ => 0) (pages sz)).roots.erase r = _
      rw [Forest.roots_setPtes]
  unfold uvmfree
  rw [wp_bind, wp_ite]
  constructor
  · intro hpos
    have hlt : sz < 2 ^ 63 := by
      unfold pages at hsmall
      omega
    rw [PGROUNDUP_pages hlt, mul_PGSIZE_div, ← Nat.zero_mul PGSIZE]
    refine wp_mono (uvmunmap_user h hr (v := 0) (by omega) fun j hj => ?_)
      fun _ u ⟨hvm, hdrop, hlen, hden⟩ => hrest u hvm hdrop hlen hden
    rw [Nat.zero_add]
    exact (hs j (by omega)).2 hj
  · intro hzero
    obtain rfl : sz = 0 := by omega
    exact hrest s h .refl le_rfl rfl

theorem procFreepagetable_spec (h : Vm F kern s) (hsp : Space F r (pages sz) tf) :
    wp E (procFreepagetable (r * PGSIZE) sz) (fun _ t => ∃ F', Removed r F kern s F' t) s := by
  have hU := UPAGES_eq
  have hV := VPAGES_eq
  unfold procFreepagetable
  rw [TRAMPOLINE_eq, TRAPFRAME_eq]
  refine wp_seq (uvmunmap_kernel h hsp.root (by omega) (by omega) hsp.trampoline (by decide))
    fun _ t ⟨hvm, hdrop, hlen, hden⟩ => ?_
  have htf : (F.setPte r (VPAGES - 1) 0).pte r (VPAGES - 2) =
      pageEntryOf tf (PTE_R ||| PTE_W) := by
    rw [Forest.pte_setPte_of_ne (by omega) (by omega), hsp.trapframe]
    intro heq
    have := (Prod.mk.inj heq).2
    omega
  refine wp_seq (uvmunmap_kernel hvm hsp.root (by omega) (by omega) htf (by decide))
    fun _ u ⟨hvm', hdrop', hlen', hden'⟩ => ?_
  have hpte : ∀ v < UPAGES, ((F.setPte r (VPAGES - 1) 0).setPte r (VPAGES - 2) 0).pte r v =
      F.pte r v := by
    intro v hv
    rw [Forest.pte_setPte_of_ne (by omega) (by omega), Forest.pte_setPte_of_ne (by omega) (by omega)]
    all_goals
      intro heq
      have := (Prod.mk.inj heq).2
      omega
  refine wp_mono (uvmfree_spec hvm' hsp.root (hsp.sized.congr hpte) fun v hv hv' => ?_)
    fun _ w ⟨F', hrem⟩ => ⟨F', hrem.vm, (hdrop.trans hdrop').trans hrem.dropped, hrem.roots,
      ((SameBut.setPte (by omega)).trans (SameBut.setPte (by omega))).trans hrem.same, hrem.gone,
      (hlen.trans hlen').trans hrem.length, hrem.denied.trans (hden'.trans hden)⟩
  obtain rfl | rfl : v = VPAGES - 2 ∨ v = VPAGES - 1 := by omega
  · exact Forest.pte_setPte_self
  · rw [Forest.pte_setPte_of_ne (by omega) (by omega)]
    · exact Forest.pte_setPte_self
    · intro heq
      have := (Prod.mk.inj heq).2
      omega

/-! ## A new address space -/

theorem Tables.pte_of_not_root {refs : ℕ → ℕ} (h : Tables F refs s) (hr : r ∉ F.roots) :
    F.pte r v = 0 :=
  h.pte_eq_zero (h.rep.out r hr _)

/-- The new table of `uvmcreate`. -/
theorem Vm.created (h : Vm F kern s) (hc : Created F (owners F kern) s t n) :
    Vm (F.addRoot n) kern t ∧ Saved F kern s (F.addRoot n) kern t := by
  have hUV := UPAGES_le
  obtain ⟨hntab, hk0, hm0⟩ := owners_eq_zero.1 hc.free
  have hnr : n ∉ F.roots := h.tables.rep.not_root hntab
  have hmaps : ∀ m, (F.addRoot n).maps m = F.maps m := fun m =>
    Forest.maps_addRoot hnr fun v _ => h.tables.pte_of_not_root hnr
  have htab : ∀ m, (F.addRoot n).Tab m ↔ F.Tab m ∨ m = n := by
    intro m
    constructor
    · rintro ⟨x, hx⟩
      by_cases hxn : x = (n, [])
      · rw [hxn] at hx
        refine .inr (Option.some.inj (hx.symm.trans ?_))
        exact update_self ..
      · exact .inl ⟨x, (update_of_ne hxn ..).symm.trans hx⟩
    · rintro (⟨x, hx⟩ | rfl)
      · refine ⟨x, (update_of_ne ?_ ..).trans hx⟩
        rintro rfl
        rw [h.tables.rep.out n hnr] at hx
        cases hx
      · exact ⟨_, update_self ..⟩
  have hown : ∀ m, owners (F.addRoot n) kern m = update (owners F kern) n 1 m := by
    intro m
    by_cases hm : m = n
    · subst hm
      rw [owners_of_tab ((htab m).2 (.inr rfl)), update_self, hmaps, hk0, hm0]
    · rw [update_of_ne hm]
      by_cases hT : F.Tab m
      · rw [owners_of_tab ((htab m).2 (.inl hT)), owners_of_tab hT, hmaps]
      · rw [owners_of_not_tab fun h' => ((htab m).1 h').elim hT hm, owners_of_not_tab hT, hmaps]
  refine ⟨⟨⟨hc.tables.rep, hc.tables.alloc.congr hown rfl rfl, fun m hm => ?_, hc.tables.low⟩,
    fun r hr v hv hne => ?_, fun m hm => ?_⟩, fun m hm => ⟨?_, fun hT => ⟨fun h' => ?_, fun x hx =>
    hc.mem x ?_⟩⟩⟩
  · rw [owners_of_tab hm]
    omega
  · have hr' : r ∈ F.roots := by
      refine Finset.mem_of_mem_insert_of_ne hr ?_
      rintro rfl
      exact hne (h.tables.pte_of_not_root hnr)
    have hl := h.leaf r hr' v hv hne
    refine hl.congr (fun hT => ((htab _).1 hT).resolve_right fun heq => ?_) rfl (hmaps _)
    have := Forest.maps_pos hr' hv hne
    rw [show frame (F.pte r v) = n from heq, hm0] at this
    omega
  · exact ((htab m).1 hm).elim (h.excl m) fun heq => heq ▸ hk0
  · have hmn : m ≠ n := by
      rintro rfl
      exact hm hc.free
    rwa [hown, update_of_ne hmn]
  · rcases (htab m).1 h' with hT' | rfl
    · exact hT hT'
    · exact hm hc.free
  · rintro rfl
    exact hm (hx ▸ hc.free)

/-- Everything is as it was, apart from the bytes of free pages. -/
structure Restored (F : Forest ℕ) (kern : ℕ → ℕ) (s : Mach) (F' : Forest ℕ) (t : Mach) : Prop where
  vm : Vm F' kern t
  saved : Saved F kern s F' kern t
  roots : F'.roots = F.roots
  node : F'.node = F.node
  pte : ∀ r v, v < VPAGES → F'.pte r v = F.pte r v

theorem Restored.owners (h : Restored F kern s F' t) (n : ℕ) :
    owners F' kern n = owners F kern n := by
  have hUV := UPAGES_le
  have htab : ∀ n, F'.Tab n ↔ F.Tab n := fun n => by rw [Forest.Tab, h.node, Forest.Tab]
  exact owners_congr htab (fun n => by
    rw [Forest.maps_congr h.roots fun r _ v hv => h.pte r v (by omega)]) n

theorem Vm.restored_of_denied (h : Vm F kern s) (hd : Denied s t) : Restored F kern s F t :=
  ⟨h.of_denied hd, fun _ hn => ⟨hn, fun htab => ⟨htab, fun x _ => by rw [hd.mem]⟩⟩, rfl, rfl,
    fun _ _ _ => rfl⟩

/-- A page was taken, and is given back when all else is as it was. -/
theorem Restored.kfree_spec {u : Mach} (hk : Kalloced (CowPbs.owners F kern) s t n)
    (h : Restored F (update kern n 1) t F' u) :
    wp E (kfree (n * PGSIZE)) (fun _ w => Restored F kern s F' w ∧ w.denied = u.denied) u := by
  obtain ⟨hntab, hk0, -⟩ := owners_eq_zero.1 hk.free
  have hone : update kern n 1 n = 1 := update_self ..
  have hback : update (update kern n 1) n (update kern n 1 n - 1) = kern := by
    rw [hone, update_idem, Nat.sub_self, ← hk0, update_eq_self]
  have htab : ∀ m, F'.Tab m ↔ F.Tab m := fun m => by rw [Forest.Tab, h.node, Forest.Tab]
  have hpos : 0 < update kern n 1 n := by
    rw [hone]
    norm_num
  refine wp_mono (h.vm.kfree_spec hpos (mt (htab n).1 hntab)) ?_
  rintro _ w ⟨hvm, hfr⟩
  have hdrop := hfr.dropped hpos (mt (htab n).1 hntab)
  rw [hback] at hvm hdrop
  refine ⟨⟨hvm, ?_, h.roots, h.node, h.pte⟩, hfr.denied⟩
  have htaken : Saved F kern s F (update kern n 1) t := hk.saved fun _ _ => rfl
  refine (htaken.trans h.saved).dropped hdrop fun m hm => ?_
  rwa [owners_congr htab fun m => by
    rw [Forest.maps_congr h.roots fun r _ v hv => h.pte r v (hv.trans_le UPAGES_le)]]

/-- A new page table was built up to some point, and given back. -/
theorem Removed.restored {F₁ : Forest ℕ} {u : Mach} (h : Vm F kern s) (hr : r ∉ F.roots)
    (hsaved : Saved F kern s F₁ kern t) (hroots : F₁.roots = insert r F.roots)
    (hsame : SameBut r F F₁) (hrem : Removed r F₁ kern t F' u) : Restored F kern s F' u := by
  have hUV := UPAGES_le
  have hroots' : F'.roots = F.roots := by
    rw [hrem.roots, hroots, Finset.erase_insert hr]
  have hnode : F'.node = F.node := by
    funext ⟨r', π⟩
    by_cases hrr : r' = r
    · rw [hrr, hrem.gone, h.tables.rep.out r hr]
    · rw [hrem.same.node r' π hrr, hsame.node r' π hrr]
  have hpte : ∀ r' v, v < VPAGES → F'.pte r' v = F.pte r' v := by
    intro r' v hv
    by_cases hrr : r' = r
    · rw [hrr, h.tables.pte_of_not_root hr,
        hrem.vm.tables.pte_of_not_root (by rw [hroots']; exact hr)]
    · rw [hrem.same.pte r' v hrr hv, hsame.pte r' v hrr hv]
  refine ⟨hrem.vm, hsaved.dropped hrem.dropped fun n hn => ?_, hroots', hnode, hpte⟩
  have htab : ∀ n, F'.Tab n ↔ F.Tab n := fun n => by rw [Forest.Tab, hnode, Forest.Tab]
  rwa [owners_congr htab fun n => by
    rw [Forest.maps_congr hroots' fun r _ v hv => hpte r v (by omega)]]

/-- A new address space without user memory, on the page `n`. -/
structure NewSpace (n tf : ℕ) (F : Forest ℕ) (kern : ℕ → ℕ) (s : Mach) (F' : Forest ℕ) (t : Mach) :
    Prop where
  vm : Vm F' kern t
  saved : Saved F kern s F' kern t
  free : owners F kern n = 0
  roots : F'.roots = insert n F.roots
  same : SameBut n F F'
  space : Space F' n 0 tf
  denied : t.denied = s.denied

theorem procPagetable_spec (h : Vm F kern s) (htf : tf < 2 ^ 44) :
    wp E (procPagetable (tf * PGSIZE)) (fun o t => match o with
      | none => t.denied = true ∧ ∃ F', Restored F kern s F' t
      | some pagetable => ∃ n F', pagetable = n * PGSIZE ∧ NewSpace n tf F kern s F' t) s := by
  have hU := UPAGES_eq
  have hV := VPAGES_eq
  unfold procPagetable
  refine wp_seq (uvmcreate_spec h.tables) fun o t ho => ?_
  cases o with
  | none =>
    exact ⟨ho.denied, F, h.restored_of_denied ho⟩
  | some pagetable =>
    obtain ⟨n, rfl, hc⟩ := ho
    obtain ⟨hvm, hsaved⟩ := h.created hc
    have hntab := (owners_eq_zero.1 hc.free).1
    have hnr : n ∉ F.roots := h.tables.rep.not_root hntab
    have hr : n ∈ (F.addRoot n).roots := Finset.mem_insert_self ..
    have h0 : ∀ v, (F.addRoot n).pte n v = 0 := fun v => h.tables.pte_of_not_root hnr
    have hsame₀ : SameBut n F (F.addRoot n) := .addRoot
    dsimp only
    rw [TRAMPOLINE_eq, TRAPFRAME_eq, ← trampoline_mul]
    refine wp_seq (mappages_page hvm.tables hr (by omega) (h0 _) trampoline_lt (by decide))
      ?_
    rintro ret u ⟨F₁, refs₁, hg, hother, hret⟩
    obtain ⟨hvm₁, hsaved₁⟩ := hvm.kernelPte hg (by omega) hother
    have hr₁ : n ∈ F₁.roots := hg.roots.symm ▸ hr
    have hsame₁ := hsame₀.trans hg.sameBut
    -- a page table with no entries is given back
    have hout : ∀ {F₂ : Forest ℕ} {w : Mach}, Vm F₂ kern w → Saved F kern s F₂ kern w →
        F₂.roots = insert n F.roots → SameBut n F F₂ → (∀ v < VPAGES, F₂.pte n v = 0) →
        w.denied = true →
        wp E (uvmfree (n * PGSIZE) 0) (fun _ t => t.denied = true ∧ ∃ F', Restored F kern s F' t)
          w := by
      intro F₂ w hvm₂ hsaved₂ hroots₂ hsame₂ hz hden
      refine wp_mono (uvmfree_spec hvm₂ (hroots₂ ▸ Finset.mem_insert_self ..) (fun v hv => ?_)
        fun v _ hv => hz v hv) ?_
      · rw [hz v (by omega)]
        simp [pages]
      · rintro _ t ⟨F', hrem⟩
        exact ⟨hrem.denied.trans hden, F', hrem.restored h hnr hsaved₂ hroots₂ hsame₂⟩
    obtain ⟨rfl, hd, hpte⟩ | ⟨rfl, hd, hpte⟩ := hret
    · -- the trampoline is mapped
      rw [wp_ite]
      refine ⟨fun hneg => absurd hneg (lt_irrefl 0), fun _ => ?_⟩
      have h0' : F₁.pte n (VPAGES - 2) = 0 := by
        rw [hother n _ (by omega) (fun heq => by have := (Prod.mk.inj heq).2; omega), h0]
      refine wp_seq (mappages_page hvm₁.tables hr₁ (by omega) h0' htf (by decide))
        ?_
      rintro ret w ⟨F₂, refs₂, hg₂, hother₂, hret⟩
      obtain ⟨hvm₂, hsaved₂⟩ := hvm₁.kernelPte hg₂ (by omega) hother₂
      have hr₂ : n ∈ F₂.roots := hg₂.roots.symm ▸ hr₁
      have hsame₂ := hsame₁.trans hg₂.sameBut
      have htramp : F₂.pte n (VPAGES - 1) =
          pageEntryOf (Layout.trampoline / PGSIZE) (PTE_R ||| PTE_X) := by
        rw [hother₂ n _ (by omega) (fun heq => by have := (Prod.mk.inj heq).2; omega), hpte]
      have huser : ∀ v < UPAGES, F₂.pte n v = 0 := by
        intro v hv
        rw [hother₂ n v (by omega) (fun heq => by have := (Prod.mk.inj heq).2; omega),
          hother n v (by omega) (fun heq => by have := (Prod.mk.inj heq).2; omega), h0]
      obtain ⟨rfl, hd₂, hpte₂⟩ | ⟨rfl, hd₂, hpte₂⟩ := hret
      · rw [wp_ite]
        refine ⟨fun hneg => absurd hneg (lt_irrefl 0), fun _ => ?_⟩
        refine ⟨n, F₂, rfl, hvm₂, (hsaved.trans hsaved₁).trans hsaved₂, hc.free,
          hg₂.roots.trans hg.roots, hsame₂, ⟨hr₂, fun v hv => ?_, hpte₂, htramp⟩,
          hd₂.trans (hd.trans hc.denied)⟩
        rw [huser v hv]
        simp
      · rw [wp_ite]
        refine ⟨fun _ => ?_, fun hneg => absurd (by norm_num) hneg⟩
        refine wp_seq (uvmunmap_kernel hvm₂ hr₂ (by omega) (by omega) htramp (by decide)) ?_
        rintro _ x ⟨hvm₃, hdrop₃, _, hden₃⟩
        have hmono : ∀ m, owners F kern m ≠ 0 →
            owners (F₂.setPte n (VPAGES - 1) 0) kern m ≠ 0 := by
          intro m hm
          rw [owners_setPte_kernel (by omega) (by omega)]
          exact ((hsaved.trans hsaved₁).trans hsaved₂ m hm).1
        refine wp_seq (hout hvm₃ (((hsaved.trans hsaved₁).trans hsaved₂).dropped hdrop₃ hmono)
          (hg₂.roots.trans hg.roots) (hsame₂.trans (.setPte (by omega))) (fun v hv => ?_)
          (hden₃.trans hd₂)) fun _ y hy => hy
        by_cases hv1 : v = VPAGES - 1
        · rw [hv1, Forest.pte_setPte_self]
        · rw [Forest.pte_setPte_of_ne (by omega) hv fun heq => hv1 (Prod.mk.inj heq).2]
          by_cases hv2 : v = VPAGES - 2
          · rw [hv2, hpte₂]
          · exact huser v (by omega)
    · rw [wp_ite]
      refine ⟨fun _ => ?_, fun hneg => absurd (by norm_num) hneg⟩
      refine wp_seq (hout hvm₁ (hsaved.trans hsaved₁) hg.roots hsame₁ (fun v hv => ?_) hd)
        fun _ x hx => hx
      by_cases hv1 : v = VPAGES - 1
      · rw [hv1, hpte]
      · rw [hother n v hv fun heq => hv1 (Prod.mk.inj heq).2, h0]

end

end CowPbs
