import Mathlib
import CowPbs.AddressSpace

/-!
# What a process sees of its memory

`view m root va` is the byte that the page table `root` shows at `va`. It depends on the
entry of the page and on the bytes of the physical page (`Vm.view_congr`), and pages that
keep their owners keep their bytes, so a view stays the same across whatever leaves the
entries alone (`Vm.view_kept`).
-/

set_option linter.unusedSectionVars false

open Function Prog Bytes Radix

namespace CowPbs

/-- The byte at `va` in the address space of the page table. -/
def view (m : Mem) (root va : ℕ) : Option Byte :=
  (pageEntry m root (va / PGSIZE)).map fun e => m (PTE2PA e + va % PGSIZE)

section

variable [Layout] {F F' : Forest ℕ} {refs refs' kern kern' : ℕ → ℕ} {s t : Mach} {r v va k n : ℕ}
  {E : String → Prop}

theorem Tables.view_eq (h : Tables F refs s) (hr : r ∈ F.roots) :
    view s.mem r va = if has (F.pte r (va / PGSIZE)) PTE_V then
      some (s.mem (frame (F.pte r (va / PGSIZE)) * PGSIZE + va % PGSIZE)) else none := by
  rw [view, h.pageEntry_eq hr]
  split_ifs
  · rw [Option.map_some, PTE2PA_eq]
  · rfl

theorem page_offset (n va : ℕ) : (n * PGSIZE + va % PGSIZE) / PGSIZE = n :=
  page_add n (Nat.mod_lt _ PGSIZE_pos)

namespace Vm

/-- The byte of a user page. -/
theorem view_mapped (h : Vm F kern s) (hr : r ∈ F.roots) (hv : va / PGSIZE < UPAGES)
    (hne : F.pte r (va / PGSIZE) ≠ 0) :
    view s.mem r va = some (s.mem (frame (F.pte r (va / PGSIZE)) * PGSIZE + va % PGSIZE)) := by
  rw [h.tables.view_eq hr, has_V, (h.leaf r hr _ hv hne).valid, if_pos rfl]

theorem view_unmapped (h : Vm F kern s) (hr : r ∈ F.roots) (h0 : F.pte r (va / PGSIZE) = 0) :
    view s.mem r va = none := by
  rw [h.tables.view_eq hr, h0]
  rfl

/-- A page that is mapped has an owner, and is no table. -/
theorem owners_frame (h : Vm F kern s) (hr : r ∈ F.roots) (hv : v < UPAGES) (hne : F.pte r v ≠ 0) :
    owners F kern (frame (F.pte r v)) ≠ 0 := by
  have := Forest.maps_pos hr hv hne
  rw [(h.leaf r hr v hv hne).owners_eq]
  omega

/-- The same page, with the same bytes. -/
theorem view_congr (h : Vm F kern s) (h' : Vm F' kern' t) (hr : r ∈ F.roots) (hr' : r ∈ F'.roots)
    (hv : va / PGSIZE < UPAGES) (hne : F.pte r (va / PGSIZE) ≠ 0 ↔ F'.pte r (va / PGSIZE) ≠ 0)
    (hf : frame (F'.pte r (va / PGSIZE)) = frame (F.pte r (va / PGSIZE)))
    (hk : Kept F kern s F' kern' t) : view t.mem r va = view s.mem r va := by
  by_cases h0 : F.pte r (va / PGSIZE) = 0
  · have h0' : F'.pte r (va / PGSIZE) = 0 := by
      by_contra hne'
      exact hne.2 hne' h0
    rw [h.view_unmapped hr h0, h'.view_unmapped hr' h0']
  · have hown' := h'.owners_frame hr' hv (hne.1 h0)
    rw [h.view_mapped hr hv h0, h'.view_mapped hr' hv (hne.1 h0), hf]
    rw [hf] at hown'
    rw [hk _ (h.leaf r hr _ hv h0).not_tab (h.owners_frame hr hv h0) hown' _ (page_offset _ va)]

theorem view_kept (h : Vm F kern s) (h' : Vm F' kern' t) (hr : r ∈ F.roots) (hr' : r ∈ F'.roots)
    (hv : va / PGSIZE < UPAGES) (hpte : F'.pte r (va / PGSIZE) = F.pte r (va / PGSIZE))
    (hk : Kept F kern s F' kern' t) : view t.mem r va = view s.mem r va :=
  h.view_congr h' hr hr' hv (by rw [hpte]) (by rw [hpte]) hk

end Vm

theorem Vm.lt_of_sized {sz : ℕ} (h : Vm F kern s) (hr : r ∈ F.roots) (hs : F.Sized r (pages sz)) :
    sz < 2 ^ 37 := by
  have hsmall := h.sized_le hr hs
  unfold pages at hsmall
  omega

omit [Layout] in
theorem lt_UPAGES (h : va < TRAPFRAME) : va / PGSIZE < UPAGES := by
  rw [UPAGES, Nat.div_lt_iff_lt_mul PGSIZE_pos, Nat.div_mul_cancel (by decide : PGSIZE ∣ TRAPFRAME)]
  exact h

end

end CowPbs
